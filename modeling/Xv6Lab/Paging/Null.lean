import Xv6Lab.Paging.Proc

/-! The machine that stops at a null entry pointer does what the hardware does as
long as no null entry pointer is followed. -/

namespace Xv6Lab.Paging

open Lib

variable (E : Env)

/-- A kernel function of the stopping machine against the same function of the machine. -/
abbrev StopsOrAgrees {α : Type} (m m' : K α) : Prop := Agree (· = Halt.nullPte) m m'

theorem stopAtNull_size : E.stopAtNull.size = E.size := rfl

theorem fileActs_stop (as : List FileAct) : fileActs E.stopAtNull as = fileActs E as := by
  induction as with
  | nil => rfl
  | cons a as ih => simp only [fileActs, ih]; cases a <;> rfl

theorem fileLayer_stop (c : FsCall) : fileLayer E.stopAtNull c = fileLayer E c := by
  simp only [fileLayer, fileActs_stop]; rfl

theorem writeParts_stop (frame blk : ℕ) (ps : List (Fin 8)) :
    writeParts E.stopAtNull frame blk ps = writeParts E frame blk ps := by
  induction ps with
  | nil => rfl
  | cons p ps ih => simp only [writeParts, fileLayer_stop, ih]

theorem writePageToDisk_stop (frame blk pid pfn : ℕ) :
    writePageToDisk E.stopAtNull frame blk pid pfn = writePageToDisk E frame blk pid pfn := by
  simp only [writePageToDisk, fileLayer_stop, writeParts_stop]

theorem walkpgdir_stop (pgdir va : ℕ) (alloc : Bool) :
    walkpgdir E.stopAtNull pgdir va alloc = walkpgdir E pgdir va alloc := rfl

theorem mappagesLoop_stop (remap : Bool) (pgdir : ℕ) (perm : Word) (n va pa : ℕ) :
    mappagesLoop E.stopAtNull remap pgdir perm n va pa = mappagesLoop E remap pgdir perm n va pa := by
  induction n generalizing va pa with
  | zero => rfl
  | succ n ih => simp only [mappagesLoop, walkpgdir_stop, ih]

theorem mappages_stop (pgdir va size pa : ℕ) (perm : Word) :
    mappages E.stopAtNull pgdir va size pa perm = mappages E pgdir va size pa perm :=
  mappagesLoop_stop E _ _ _ _ _ _

theorem mappagesPaging_stop (pgdir va size pa : ℕ) (perm : Word) :
    mappagesPaging E.stopAtNull pgdir va size pa perm = mappagesPaging E pgdir va size pa perm :=
  mappagesLoop_stop E _ _ _ _ _ _

theorem deallocuvmLoop_stop (pgdir last fuel v : ℕ) :
    deallocuvmLoop E.stopAtNull pgdir last fuel v = deallocuvmLoop E pgdir last fuel v := by
  induction fuel generalizing v with
  | zero => rfl
  | succ fuel ih => simp only [deallocuvmLoop, ih]; rfl

theorem deallocuvm_stop (pgdir oldsz newsz : ℕ) :
    deallocuvm E.stopAtNull pgdir oldsz newsz = deallocuvm E pgdir oldsz newsz := by
  simp only [deallocuvm, deallocuvmLoop_stop]

theorem freeTables_stop (pgdir : ℕ) (is : List (Fin 1024)) :
    freeTables E.stopAtNull pgdir is = freeTables E pgdir is := by
  induction is with
  | nil => rfl
  | cons i is ih => simp only [freeTables, ih]; rfl

theorem freevm_stop (pgdir : ℕ) : freevm E.stopAtNull pgdir = freevm E pgdir := by
  simp only [freevm, deallocuvm_stop, freeTables_stop]; rfl

theorem setupkvmLoop_stop (pgdir : ℕ) (ks : List Kmap) :
    setupkvmLoop E.stopAtNull pgdir ks = setupkvmLoop E pgdir ks := by
  induction ks with
  | nil => rfl
  | cons k ks ih => simp only [setupkvmLoop, mappages_stop, ih]

theorem setupkvm_stop : setupkvm E.stopAtNull = setupkvm E := by
  simp only [setupkvm, setupkvmLoop_stop, freevm_stop]; rfl

theorem allocuvmLoop_stop (pgdir newsz oldsz n v : ℕ) :
    allocuvmLoop E.stopAtNull pgdir newsz oldsz n v = allocuvmLoop E pgdir newsz oldsz n v := by
  induction n generalizing v with
  | zero => rfl
  | succ n ih => simp only [allocuvmLoop, mappages_stop, deallocuvm_stop, ih]; rfl

theorem allocuvm_stop (pgdir oldsz newsz : ℕ) :
    allocuvm E.stopAtNull pgdir oldsz newsz = allocuvm E pgdir oldsz newsz := by
  simp only [allocuvm, allocuvmLoop_stop]

theorem loadSegments_stop (pgdir : ℕ) (ip : Image) (phs : List (Option ProgHdr)) (sz : ℕ) :
    loadSegments E.stopAtNull pgdir ip phs sz = loadSegments E pgdir ip phs sz := by
  induction phs generalizing sz with
  | nil => rfl
  | cons ph phs ih =>
    cases ph with
    | none => rfl
    | some ph => simp only [loadSegments, allocuvm_stop, ih]

theorem fillPage_stop (pgdir a mem : ℕ) (pte : Option PtePtr) :
    fillPage E.stopAtNull pgdir a mem pte = fillPage E pgdir a mem pte := by
  cases pte with
  | none => rfl
  | some p => simp only [fillPage, mappagesPaging_stop]

/-! ### Functions that follow entry pointers -/

theorem loadPte_agrees (pgdir : ℕ) (p : Option PtePtr) :
    StopsOrAgrees (loadPte E.stopAtNull pgdir p) (loadPte E pgdir p) := by
  cases p with
  | none => exact fun s => .inl ⟨_, rfl, rfl⟩
  | some p => exact .refl _

theorem storePte_agrees (pgdir : ℕ) (p : Option PtePtr) (w : Word) :
    StopsOrAgrees (storePte E.stopAtNull pgdir p w) (storePte E pgdir p w) := by
  cases p with
  | none => exact fun s => .inl ⟨_, rfl, rfl⟩
  | some p => exact .refl _

theorem swapPageFromPte_agrees (pgdir : ℕ) (p : Option PtePtr) (pid : ℕ) :
    StopsOrAgrees (swapPageFromPte E.stopAtNull pgdir p pid) (swapPageFromPte E pgdir p pid) := by
  rw [swapPageFromPte, swapPageFromPte, stopAtNull_size]
  refine (loadPte_agrees E pgdir p).bind fun w => Agree.bind (.refl _) fun b => .ite (.refl _) ?_
  refine (loadPte_agrees E pgdir p).bind fun w' => ?_
  rw [writePageToDisk_stop]
  refine Agree.bind (.refl _) fun _ => (storePte_agrees E pgdir p _).bind fun _ => .refl _

theorem swapPageFromPte_some_stop (pgdir : ℕ) (p : PtePtr) (pid : ℕ) :
    swapPageFromPte E.stopAtNull pgdir (some p) pid = swapPageFromPte E pgdir (some p) pid := by
  rw [swapPageFromPte, swapPageFromPte, stopAtNull_size]
  simp only [writePageToDisk_stop]
  rfl

theorem swapPage_agrees (pgdir pid : ℕ) :
    StopsOrAgrees (swapPage E.stopAtNull pgdir pid) (swapPage E pgdir pid) := by
  refine Agree.bind (.refl _) fun s => ?_
  cases s.selectAVictim pgdir with
  | some p => exact swapPageFromPte_agrees E pgdir (some p) pid
  | none =>
    exact Agree.bind (.refl _) fun _ => Agree.bind (.refl _) fun s' =>
      swapPageFromPte_agrees E pgdir _ pid

theorem kallocOrSwap_agrees (pgdir pid : ℕ) :
    StopsOrAgrees (kallocOrSwap E.stopAtNull pgdir pid) (kallocOrSwap E pgdir pid) := by
  refine Agree.bind (.refl _) fun r => ?_
  cases r with
  | some mem => exact .refl _
  | none => exact (swapPage_agrees E pgdir pid).bind fun _ => .refl _

theorem mapAddress_agrees (pgdir addr pid : ℕ) :
    StopsOrAgrees (mapAddress E.stopAtNull pgdir addr pid) (mapAddress E pgdir addr pid) := by
  refine Agree.bind (.refl _) fun s => (kallocOrSwap_agrees E pgdir pid).bind fun mem => ?_
  rw [fillPage_stop]

theorem handlePgfault_agrees (p : Slot) (cr2 : ℕ) :
    StopsOrAgrees (handlePgfault E.stopAtNull p cr2) (handlePgfault E p cr2) :=
  Agree.bind (.refl _) fun _ => mapAddress_agrees E _ _ _

theorem copyBring_agrees (pgdir pid v : ℕ) :
    StopsOrAgrees (copyBring E.stopAtNull pgdir pid v) (copyBring E pgdir pid v) := by
  refine Agree.bind (.refl _) fun s => ?_
  cases s.lookup pgdir (v * PGSIZE) with
  | none => exact .refl _
  | some p =>
    exact Agree.bind (.refl _) fun w => .ite ((kallocOrSwap_agrees E pgdir pid).bind fun _ => .refl _)
      (.refl _)

theorem copyOut_agrees (pgdir d pid v : ℕ) (p : PtePtr) :
    StopsOrAgrees (copyOut E.stopAtNull pgdir d pid v p) (copyOut E pgdir d pid v p) := by
  refine Agree.bind (.refl _) fun w => (kallocOrSwap_agrees E pgdir pid).bind fun mem => ?_
  rw [mappages_stop]

theorem copyuvmLoop_agrees (pgdir d pid n v : ℕ) :
    StopsOrAgrees (copyuvmLoop E.stopAtNull pgdir d pid n v) (copyuvmLoop E pgdir d pid n v) := by
  induction n generalizing v with
  | zero => exact .refl _
  | succ n ih =>
    exact (copyBring_agrees E pgdir pid v).bind fun p =>
      (copyOut_agrees E pgdir d pid v p).bind fun r => .ite (ih (v + 1)) (.refl _)

theorem copyuvm_agrees (pgdir sz pid : ℕ) :
    StopsOrAgrees (copyuvm E.stopAtNull pgdir sz pid) (copyuvm E pgdir sz pid) := by
  rw [copyuvm, copyuvm, setupkvm_stop]
  refine Agree.bind (.refl _) fun r => ?_
  cases r with
  | none => exact .refl _
  | some d =>
    refine (copyuvmLoop_agrees E pgdir d pid _ 0).bind fun b => ?_
    rw [freevm_stop]

theorem fork_agrees (cur : Slot) : StopsOrAgrees (fork E.stopAtNull cur) (fork E cur) := by
  refine Agree.bind (.refl _) fun r => ?_
  cases r with
  | none => exact .refl _
  | some np =>
    exact Agree.bind (.refl _) fun s => (copyuvm_agrees E _ _ _).bind fun r => .refl _

theorem exit_stop (cur : Slot) : exit E.stopAtNull cur = exit E cur := by
  simp only [exit, fileLayer_stop]

theorem wait_stop (cur : Slot) : wait E.stopAtNull cur = wait E cur := by
  simp only [wait, freevm_stop]; rfl

/-- `sys_swap` of the machine faults page 0 in before it follows a null pointer;
the stopping machine stops there. -/
theorem sysSwap_agrees (p : Slot) (addr : ℕ) :
    StopsOrAgrees (sysSwap E.stopAtNull p addr) (sysSwap E p addr) := by
  refine Agree.bind (.refl _) fun s => Agree.bind (.refl _) fun pte => ?_
  cases pte with
  | none =>
    refine Agree.bind ?_ fun _ => .ite (swapPageFromPte_agrees E _ _ _) (.refl _)
    exact fun s => .inl ⟨_, rfl, rfl⟩
  | some q =>
    exact Agree.bind (.refl _) fun _ => .ite (swapPageFromPte_agrees E _ _ _) (.refl _)

/-! ### `exec` -/

theorem kload_agrees (cur pid va : ℕ) :
    StopsOrAgrees (kload E.stopAtNull cur pid va) (kload E cur pid va) :=
  Agree.bind (.refl _) fun _ => .ite (.refl _) ((mapAddress_agrees E cur va pid).bind fun _ => .refl _)

theorem kstrlen_agrees (cur pid fuel va : ℕ) :
    StopsOrAgrees (kstrlen E.stopAtNull cur pid fuel va) (kstrlen E cur pid fuel va) := by
  induction fuel generalizing va with
  | zero => exact .refl _
  | succ fuel ih =>
    exact (kload_agrees E cur pid va).bind fun b => .ite (.refl _) ((ih (va + 1)).bind fun _ => .refl _)

theorem uva2ka_agrees (cur pgdir uva : ℕ) :
    StopsOrAgrees (uva2ka E.stopAtNull cur pgdir uva) (uva2ka E cur pgdir uva) :=
  Agree.bind (.refl _) fun _ => (loadPte_agrees E cur _).bind fun _ => .refl _

theorem copyout_agrees (cur pgdir : ℕ) {src src' : ℕ → K Byte}
    (h : ∀ k, StopsOrAgrees (src k) (src' k)) (n va k : ℕ) :
    StopsOrAgrees (copyout E.stopAtNull cur pgdir src n va k) (copyout E cur pgdir src' n va k) := by
  induction n generalizing va k with
  | zero => exact .refl _
  | succ n ih =>
    refine (uva2ka_agrees E cur pgdir _).bind fun r => ?_
    cases r with
    | none => exact .refl _
    | some f => exact (h k).bind fun b => Agree.bind (.refl _) fun _ => ih _ _

theorem pushArgs_agrees (cur pid sz pgdir : ℕ) (args : List ℕ) (sp : ℕ) (ustack : List ℕ) :
    StopsOrAgrees (pushArgs E.stopAtNull cur pid sz pgdir args sp ustack)
      (pushArgs E cur pid sz pgdir args sp ustack) := by
  induction args generalizing sp ustack with
  | nil => exact .refl _
  | cons arg args ih =>
    refine Agree.ite (.refl _) ((kstrlen_agrees E cur pid _ _).bind fun len => ?_)
    refine (kstrlen_agrees E cur pid _ _).bind fun len' => ?_
    exact (copyout_agrees E cur pgdir (fun k => kload_agrees E cur pid _) _ _ _).bind fun b =>
      .ite (ih _ _) (.refl _)

theorem buildImage_agrees (cur pid cursz pgdir : ℕ) (ip : Image) (argv : List ℕ) :
    StopsOrAgrees (buildImage E.stopAtNull cur pid cursz pgdir ip argv)
      (buildImage E cur pid cursz pgdir ip argv) := by
  rw [buildImage, buildImage, loadSegments_stop]
  refine Agree.bind (.refl _) fun r => ?_
  cases r with
  | none => exact .refl _
  | some sz =>
    simp only [fileLayer_stop, allocuvm_stop]
    refine Agree.bind (.refl _) fun _ => Agree.bind (.refl _) fun sz' => .ite (.refl _) ?_
    refine Agree.bind (.refl _) fun _ => (pushArgs_agrees E cur pid cursz pgdir argv sz' []).bind ?_
    intro r
    cases r with
    | none => exact .refl _
    | some q =>
      exact (copyout_agrees E cur pgdir (fun _ => .refl _) _ _ _).bind fun _ => .refl _

theorem exec_agrees (p : Slot) (ip : Image) (argv : List ℕ) :
    StopsOrAgrees (exec E.stopAtNull p ip argv) (exec E p ip argv) := by
  rw [exec, exec, setupkvm_stop]
  refine Agree.bind (.refl _) fun s => .ite (.refl _) (Agree.bind (.refl _) fun r => ?_)
  cases r with
  | none => exact .refl _
  | some pgdir =>
    refine (buildImage_agrees E _ _ _ pgdir ip argv).bind fun r => ?_
    cases r <;> simp only [freevm_stop] <;> exact .refl _

end Xv6Lab.Paging
