import Xv6Lab.Paging.Ops

/-! The process table is written by `proc.c` and `exec.c` alone: everything below
them, from the page allocator to the page-fault handler, leaves it as it is. -/

namespace Xv6Lab.Paging

open Disk Lib

variable {E : Env}

/-- `m` leaves the process table alone. -/
abbrev KeepsProcs {α : Type} (m : K α) : Prop := Preserves Kernel.proc m

/-! ### Frames and entries -/

theorem kalloc_procs : KeepsProcs (kalloc E) := by
  unfold kalloc
  apply preserves_get.bind
  intro s
  split_ifs
  · exact preserves_pure _
  · refine Preserves.bind (preserves_modify fun _ => rfl) fun _ => ?_
    exact preserves_pure _

theorem kfree_procs (f : ℕ) : KeepsProcs (kfree E f) :=
  (preserves_throw _).ite (preserves_modify fun _ => rfl)

theorem setFrame_procs (f : ℕ) (p : Page) : KeepsProcs (setFrame f p) :=
  preserves_modify fun _ => rfl

theorem readPte_procs (p : PtePtr) : KeepsProcs (readPte p) :=
  preserves_get.bind fun _ => preserves_pure _

theorem writePte_procs (p : PtePtr) (w : Word) : KeepsProcs (writePte p w) :=
  preserves_modify fun _ => rfl

theorem loadPte_procs (d : ℕ) (p : Option PtePtr) : KeepsProcs (loadPte E d p) := by
  cases p with
  | none =>
    apply (preserves_throw _).ite
    apply preserves_get.bind
    exact fun s => (preserves_pure _).ite (preserves_throw _)
  | some p => exact readPte_procs p

theorem storePte_procs (d : ℕ) (p : Option PtePtr) (w : Word) :
    KeepsProcs (storePte E d p w) := by
  cases p with
  | none =>
    apply (preserves_throw _).ite
    apply preserves_get.bind
    exact fun s => (writePte_procs _ _).ite (preserves_throw _)
  | some p => exact writePte_procs p w

/-! ### Disk blocks and files -/

theorem balloc_procs (size : ℕ) : KeepsProcs (balloc size) :=
  balloc_preserves (fun _ _ _ => rfl) (fun _ _ => rfl) size

theorem bfree_procs (b : ℕ) : KeepsProcs (bfree b) := bfree_preserves (fun _ _ _ => rfl) b

theorem bfreeAll_procs (bs : List ℕ) : KeepsProcs (bfreeAll bs) :=
  bfreeAll_preserves (fun _ _ _ => rfl) bs

theorem ballocPage_procs (size : ℕ) : KeepsProcs (ballocPage size) := by
  unfold ballocPage
  apply (ballocPageLoop_preserves (fun _ _ _ => rfl) (fun _ _ => rfl) size _ _ _).bind
  intro alloc
  apply (bfreeAll_procs _).bind
  exact fun _ => Preserves.bind (preserves_modify fun _ => rfl) fun _ => preserves_pure _

theorem bfreePage_procs (b : ℕ) : KeepsProcs (bfreePage b) :=
  (bfreeAll_procs _).bind fun _ => (preserves_modify fun _ => rfl)

theorem fileAct_procs (a : FileAct) : KeepsProcs (fileAct E a) := by
  cases a with
  | balloc => exact (balloc_procs E.size).bind fun b => (preserves_modify fun _ => rfl)
  | bfree b =>
    apply preserves_get.bind
    intro s
    apply Preserves.ite _ (preserves_throw _)
    exact Preserves.bind (preserves_modify fun _ => rfl) fun _ => bfree_procs b
  | write b data =>
    apply preserves_get.bind
    exact fun s => Preserves.ite (preserves_modify fun _ => rfl) (preserves_throw _)

theorem fileActs_procs (as : List FileAct) : KeepsProcs (fileActs E as) := by
  induction as with
  | nil => exact preserves_pure _
  | cons a as ih => exact (fileAct_procs a).bind fun _ => ih

theorem fileLayer_procs (c : FsCall) : KeepsProcs (fileLayer E c) :=
  preserves_get.bind fun _ => fileActs_procs _

theorem writeParts_procs (frame blk : ℕ) (ps : List (Fin 8)) :
    KeepsProcs (writeParts E frame blk ps) := by
  induction ps with
  | nil => exact preserves_pure _
  | cons p ps ih =>
    apply preserves_get.bind
    intro s
    apply (fileLayer_procs _).bind
    exact fun _ => Preserves.bind (preserves_modify fun _ => rfl) fun _ => ih

theorem writePageToDisk_procs (frame blk pid pfn : ℕ) :
    KeepsProcs (writePageToDisk E frame blk pid pfn) :=
  (fileLayer_procs _).bind fun _ => writeParts_procs frame blk _

/-! ### Address spaces -/

theorem walkpgdir_procs (d va : ℕ) (alloc : Bool) : KeepsProcs (walkpgdir E d va alloc) := by
  unfold walkpgdir
  apply preserves_get.bind
  intro s
  cases s.lookup d va with
  | some p => exact preserves_pure _
  | none =>
    apply Preserves.ite _ (preserves_pure _)
    apply kalloc_procs.bind
    intro r
    cases r with
    | none => exact preserves_pure _
    | some pgtab =>
      apply (setFrame_procs _ _).bind
      exact fun _ => (writePte_procs _ _).bind fun _ => preserves_pure _

theorem mappagesLoop_procs (remap : Bool) (d : ℕ) (perm : Word) (n va pa : ℕ) :
    KeepsProcs (mappagesLoop E remap d perm n va pa) := by
  induction n generalizing va pa with
  | zero => exact preserves_pure _
  | succ n ih =>
    unfold mappagesLoop
    apply (walkpgdir_procs d va true).bind
    intro r
    cases r with
    | none => exact preserves_pure _
    | some p =>
      apply (readPte_procs p).bind
      intro w
      apply (preserves_throw _).ite
      exact (writePte_procs _ _).bind fun _ => ih _ _

theorem mappages_procs (d va size pa : ℕ) (perm : Word) :
    KeepsProcs (mappages E d va size pa perm) := mappagesLoop_procs _ _ _ _ _ _

theorem mappagesPaging_procs (d va size pa : ℕ) (perm : Word) :
    KeepsProcs (mappagesPaging E d va size pa perm) := mappagesLoop_procs _ _ _ _ _ _

theorem deallocuvmLoop_procs (d last fuel v : ℕ) :
    KeepsProcs (deallocuvmLoop E d last fuel v) := by
  induction fuel generalizing v with
  | zero => exact preserves_pure _
  | succ fuel ih =>
    unfold deallocuvmLoop
    apply Preserves.ite _ (preserves_pure _)
    apply preserves_get.bind
    intro s
    cases s.lookup d (v * PGSIZE) with
    | none => exact ih _
    | some p =>
      apply (readPte_procs p).bind
      intro w
      apply ((bfreePage_procs _).bind fun _ => ih _).ite
      apply Preserves.ite _ (ih _)
      apply (preserves_throw _).ite
      apply (kfree_procs _).bind
      exact fun _ => (writePte_procs _ _).bind fun _ => ih _

theorem deallocuvm_procs (d oldsz newsz : ℕ) : KeepsProcs (deallocuvm E d oldsz newsz) :=
  (preserves_pure _).ite ((deallocuvmLoop_procs d _ _ _).bind fun _ => preserves_pure _)

theorem freeTables_procs (d : ℕ) (is : List (Fin 1024)) : KeepsProcs (freeTables E d is) := by
  induction is with
  | nil => exact preserves_pure _
  | cons i is ih =>
    apply preserves_get.bind
    exact fun s => ((kfree_procs _).bind fun _ => ih).ite ih

theorem freevm_procs (d : ℕ) : KeepsProcs (freevm E d) := by
  apply (preserves_throw _).ite
  apply (deallocuvm_procs d _ _).bind
  exact fun _ => (freeTables_procs d _).bind fun _ => kfree_procs d

theorem setupkvmLoop_procs (d : ℕ) (ks : List Kmap) : KeepsProcs (setupkvmLoop E d ks) := by
  induction ks with
  | nil => exact preserves_pure _
  | cons k ks ih =>
    apply (mappages_procs d _ _ _ _).bind
    exact fun r => ih.ite (preserves_pure _)

theorem setupkvm_procs : KeepsProcs (setupkvm E) := by
  unfold setupkvm
  apply kalloc_procs.bind
  intro r
  cases r with
  | none => exact preserves_pure _
  | some d =>
    apply (setFrame_procs d _).bind
    intro _
    apply (setupkvmLoop_procs d _).bind
    exact fun r => (preserves_pure _).ite ((freevm_procs d).bind fun _ => preserves_pure _)

theorem allocuvmLoop_procs (d newsz oldsz n v : ℕ) :
    KeepsProcs (allocuvmLoop E d newsz oldsz n v) := by
  induction n generalizing v with
  | zero => exact preserves_pure _
  | succ n ih =>
    unfold allocuvmLoop
    apply kalloc_procs.bind
    intro r
    cases r with
    | none => exact (deallocuvm_procs d _ _).bind fun _ => preserves_pure _
    | some mem =>
      apply (setFrame_procs mem _).bind
      intro _
      apply (mappages_procs d _ _ _ _).bind
      intro r
      apply (ih _).ite
      apply (deallocuvm_procs d _ _).bind
      exact fun _ => (kfree_procs mem).bind fun _ => preserves_pure _

theorem allocuvm_procs (d oldsz newsz : ℕ) : KeepsProcs (allocuvm E d oldsz newsz) :=
  (preserves_pure _).ite ((preserves_pure _).ite (allocuvmLoop_procs d _ _ _ _))

theorem clearpteu_procs (d uva : ℕ) : KeepsProcs (clearpteu d uva) := by
  unfold clearpteu
  apply preserves_get.bind
  intro s
  cases s.lookup d uva with
  | none => exact preserves_throw _
  | some p => exact (readPte_procs p).bind fun w => writePte_procs _ _

theorem clearaccessbitLoop_procs (d n v cnt : ℕ) :
    KeepsProcs (clearaccessbitLoop d n v cnt) := by
  induction n generalizing v cnt with
  | zero => exact preserves_pure _
  | succ n ih =>
    unfold clearaccessbitLoop
    apply preserves_get.bind
    intro s
    cases s.lookup d (v * PGSIZE) with
    | none => exact (preserves_pure _).ite (ih _ _)
    | some p =>
      apply (readPte_procs p).bind
      intro w
      apply Preserves.ite _ ((preserves_pure _).ite (ih _ _))
      exact (writePte_procs _ _).bind fun _ => (preserves_pure _).ite (ih _ _)

theorem getswappedblk_procs (d va : ℕ) : KeepsProcs (getswappedblk d va) := by
  unfold getswappedblk
  apply preserves_get.bind
  intro s
  cases s.lookup d va with
  | none => exact preserves_throw _
  | some p => exact (readPte_procs p).bind fun w => preserves_pure _

/-! ### Demand paging -/

theorem swapPageFromPte_procs (d : ℕ) (p : Option PtePtr) (pid : ℕ) :
    KeepsProcs (swapPageFromPte E d p pid) := by
  unfold swapPageFromPte
  apply (loadPte_procs d p).bind
  intro w
  apply (ballocPage_procs _).bind
  intro b
  apply (preserves_throw _).ite
  apply (loadPte_procs d p).bind
  intro w'
  apply (writePageToDisk_procs _ _ _ _).bind
  exact fun _ => (storePte_procs d p _).bind fun _ => kfree_procs _

theorem swapPage_procs (d pid : ℕ) : KeepsProcs (swapPage E d pid) := by
  unfold swapPage
  apply preserves_get.bind
  intro s
  cases s.selectAVictim d with
  | some p => exact swapPageFromPte_procs d _ pid
  | none =>
    apply (clearaccessbitLoop_procs d _ _ _).bind
    exact fun _ => preserves_get.bind fun _ => swapPageFromPte_procs d _ pid

theorem kallocOrSwap_procs (d pid : ℕ) : KeepsProcs (kallocOrSwap E d pid) := by
  unfold kallocOrSwap
  apply kalloc_procs.bind
  intro r
  cases r with
  | some mem => exact preserves_pure _
  | none =>
    apply (swapPage_procs d pid).bind
    intro _
    apply kalloc_procs.bind
    intro r
    cases r with
    | some mem => exact preserves_pure _
    | none => exact preserves_throw _

theorem swapIn_procs (d a : ℕ) (p : PtePtr) (mem : ℕ) : KeepsProcs (swapIn d a p mem) := by
  unfold swapIn
  apply (getswappedblk_procs d a).bind
  intro b
  refine Preserves.bind (preserves_modify fun _ => rfl) fun _ => ?_
  exact (writePte_procs p _).bind fun _ => bfreePage_procs b

theorem fillPage_procs (d a mem : ℕ) (p : Option PtePtr) : KeepsProcs (fillPage E d a mem p) := by
  cases p with
  | none => exact preserves_pure _
  | some p =>
    apply (readPte_procs p).bind
    intro w
    apply (swapIn_procs d a p mem).ite
    apply (setFrame_procs mem _).bind
    intro _
    apply (mappagesPaging_procs d _ _ _ _).bind
    exact fun r => (preserves_pure _).ite (preserves_throw _)

theorem mapAddress_procs (d addr pid : ℕ) : KeepsProcs (mapAddress E d addr pid) := by
  unfold mapAddress
  apply preserves_get.bind
  intro s
  exact (kallocOrSwap_procs d pid).bind fun mem => fillPage_procs d _ mem _

theorem handlePgfault_procs (p : Slot) (va : ℕ) : KeepsProcs (handlePgfault E p va) :=
  preserves_get.bind fun _ => mapAddress_procs _ _ _

theorem copyBring_procs (d pid v : ℕ) : KeepsProcs (copyBring E d pid v) := by
  unfold copyBring
  apply preserves_get.bind
  intro s
  cases s.lookup d (v * PGSIZE) with
  | none => exact preserves_throw _
  | some p =>
    apply (readPte_procs p).bind
    intro w
    apply Preserves.ite _ (preserves_pure _)
    apply (kallocOrSwap_procs d pid).bind
    exact fun mem => (swapIn_procs d _ p mem).bind fun _ => preserves_pure _

theorem copyOut_procs (d c pid v : ℕ) (p : PtePtr) : KeepsProcs (copyOut E d c pid v p) := by
  unfold copyOut
  apply (readPte_procs p).bind
  intro w
  apply (kallocOrSwap_procs d pid).bind
  intro mem
  apply preserves_get.bind
  exact fun s => (setFrame_procs mem _).bind fun _ => mappages_procs c _ _ _ _

theorem copyuvmLoop_procs (d c pid n v : ℕ) : KeepsProcs (copyuvmLoop E d c pid n v) := by
  induction n generalizing v with
  | zero => exact preserves_pure _
  | succ n ih =>
    unfold copyuvmLoop
    apply (copyBring_procs d pid v).bind
    intro p
    apply (copyOut_procs d c pid v p).bind
    exact fun r => (ih _).ite (preserves_pure _)

theorem copyuvm_procs (d sz pid : ℕ) : KeepsProcs (copyuvm E d sz pid) := by
  unfold copyuvm
  apply setupkvm_procs.bind
  intro r
  cases r with
  | none => exact preserves_pure _
  | some c =>
    apply (copyuvmLoop_procs d c pid _ _).bind
    exact fun r => (preserves_pure _).ite ((freevm_procs c).bind fun _ => preserves_pure _)

theorem sysSwap_procs (p : Slot) (addr : ℕ) : KeepsProcs (sysSwap E p addr) := by
  unfold sysSwap
  apply preserves_get.bind
  intro s
  apply (walkpgdir_procs _ addr true).bind
  intro pte
  have hload : KeepsProcs (sysSwapLoad E (s.proc p).pgdir (s.proc p).pid pte) := by
    cases pte with
    | some q => exact readPte_procs q
    | none =>
      apply preserves_get.bind
      exact fun t => ((mapAddress_procs _ _ _).bind fun _ => loadPte_procs _ _).ite
        (loadPte_procs _ _)
  exact hload.bind fun w => (swapPageFromPte_procs _ pte _).ite (preserves_pure _)

/-! ### Loading a program -/

theorem loaduvmLoop_procs (d : ℕ) (ip : Image) (offset sz n v i : ℕ) :
    KeepsProcs (loaduvmLoop d ip offset sz n v i) := by
  induction n generalizing v i with
  | zero => exact preserves_pure _
  | succ n ih =>
    unfold loaduvmLoop
    apply preserves_get.bind
    intro s
    cases s.lookup d (v * PGSIZE) with
    | none => exact preserves_throw _
    | some p =>
      apply (readPte_procs p).bind
      intro w
      refine Preserves.bind (preserves_modify fun _ => rfl) fun _ => ?_
      exact (ih _ _).ite (preserves_pure _)

theorem loadSegments_procs (d : ℕ) (ip : Image) (phs : List (Option ProgHdr)) (sz : ℕ) :
    KeepsProcs (loadSegments E d ip phs sz) := by
  induction phs generalizing sz with
  | nil => exact preserves_pure _
  | cons ph phs ih =>
    cases ph with
    | none => exact preserves_pure _
    | some ph =>
      unfold loadSegments
      apply (ih sz).ite
      apply (preserves_pure _).ite
      apply (preserves_pure _).ite
      apply (allocuvm_procs d _ _).bind
      intro sz
      apply (preserves_pure _).ite
      apply (preserves_pure _).ite
      apply (loaduvmLoop_procs d ip _ _ _ _ _).bind
      exact fun r => (ih sz).ite (preserves_pure _)

theorem kload_procs (d pid va : ℕ) : KeepsProcs (kload E d pid va) := by
  unfold kload
  apply preserves_get.bind
  intro s
  apply (preserves_pure _).ite
  apply (mapAddress_procs d va pid).bind
  exact fun _ => preserves_get.bind fun t => (preserves_pure _).ite (preserves_throw _)

theorem kstrlen_procs (d pid fuel va : ℕ) : KeepsProcs (kstrlen E d pid fuel va) := by
  induction fuel generalizing va with
  | zero => exact preserves_throw _
  | succ fuel ih =>
    unfold kstrlen
    apply (kload_procs d pid va).bind
    intro b
    exact (preserves_pure _).ite ((ih _).bind fun n => preserves_pure _)

theorem copyout_procs (cur d : ℕ) {src : ℕ → K Byte} (hsrc : ∀ k, KeepsProcs (src k))
    (n va k : ℕ) : KeepsProcs (copyout E cur d src n va k) := by
  induction n generalizing va k with
  | zero => exact preserves_pure _
  | succ n ih =>
    have huva : KeepsProcs (uva2ka E cur d (va % 2 ^ 32)) := by
      apply preserves_get.bind
      intro s
      apply (loadPte_procs cur _).bind
      exact fun w => (preserves_pure _).ite ((preserves_pure _).ite (preserves_pure _))
    unfold copyout
    apply huva.bind
    intro r
    cases r with
    | none => exact preserves_pure _
    | some f =>
      apply (hsrc k).bind
      exact fun b => Preserves.bind (preserves_modify fun _ => rfl) fun _ => ih _ _

theorem pushArgs_procs (d pid sz c : ℕ) (argv : List ℕ) (sp : ℕ) (ustack : List ℕ) :
    KeepsProcs (pushArgs E d pid sz c argv sp ustack) := by
  induction argv generalizing sp ustack with
  | nil => exact preserves_pure _
  | cons arg args ih =>
    unfold pushArgs
    apply (preserves_pure _).ite
    apply (kstrlen_procs d pid _ arg).bind
    intro len
    apply (kstrlen_procs d pid _ arg).bind
    intro len'
    apply (copyout_procs d c (fun k => kload_procs d pid (arg + k)) _ _ _).bind
    exact fun r => (ih _ _).ite (preserves_pure _)

/-! ### User mode -/

theorem userLoad_procs (p : Slot) (va : ℕ) : KeepsProcs (userLoad p va) := by
  unfold userLoad
  apply preserves_get.bind
  intro s
  cases s.lookup (s.dir p) va with
  | none => exact preserves_throw _
  | some q =>
    apply (readPte_procs q).bind
    intro w
    apply (preserves_throw _).ite
    exact (writePte_procs q _).bind fun _ => preserves_pure _

theorem userStore_procs (p : Slot) (va : ℕ) (b : Byte) : KeepsProcs (userStore p va b) := by
  unfold userStore
  apply preserves_get.bind
  intro s
  cases s.lookup (s.dir p) va with
  | none => exact preserves_throw _
  | some q =>
    apply (readPte_procs q).bind
    intro w
    apply (preserves_throw _).ite
    exact (writePte_procs q _).bind fun _ => (preserves_modify fun _ => rfl)

end Xv6Lab.Paging
