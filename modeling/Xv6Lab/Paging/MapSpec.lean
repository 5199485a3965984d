import Xv6Lab.Paging.FaultSpec
import Mathlib.Data.Fintype.Card

/-! Walking and mapping: the page tables that `walkpgdir` allocates, and the
entries that `mappages` writes. -/

namespace Xv6Lab.Paging

open Lib

variable {E : Env} {g g' g'' : Ghost} {s t u : Kernel} {d v m f : ℕ} {V : Set ℕ}

/-- The disk, as far as the swap area goes, is as it was. -/
structure SameDisk (s t : Kernel) : Prop where
  bit : t.bit = s.bit
  block : t.block = s.block
  files : t.files = s.files
  count : t.numallocblocks = s.numallocblocks

theorem SameDisk.refl (s : Kernel) : SameDisk s s := ⟨rfl, rfl, rfl, rfl⟩

theorem SameDisk.trans (h : SameDisk s t) (h' : SameDisk t u) : SameDisk s u :=
  ⟨h'.bit.trans h.bit, h'.block.trans h.block, h'.files.trans h.files, h'.count.trans h.count⟩

/-- Number of page tables of `d`. -/
def Kernel.tables (s : Kernel) (d : ℕ) : ℕ :=
  (Finset.univ.filter fun i => present (s.mem d i) = true).card

/-! ### `walkpgdir` with allocation -/

/-- The table of page `v` exists now; a new one is empty. -/
structure Walked (E : Env) (g : Ghost) (s : Kernel) (d v : ℕ) (g' : Ghost) (t : Kernel) :
    Prop where
  base : Base E g' t
  proc : SameProc s t
  disk : SameDisk s t
  tree : Tree g' t d
  table : present (t.mem d (pdx v)) = true
  other : ∀ i, i ≠ pdx v → t.mem d i = s.mem d i
  tabs : t.mem d (pdx v) = s.mem d (pdx v) ∨ g.frame (PTE_ADDR (t.mem d (pdx v))) = .free
  pte : ∀ v' < 2 ^ 20, t.pte d v' = s.pte d v'
  frame : ∀ x, g.frame x ≠ .free → g'.frame x = g.frame x
  block : g'.block = g.block
  mem : ∀ x, g.frame x ≠ .free → x ≠ d → t.mem x = s.mem x
  measure : t.freelist.length + t.tables d = s.freelist.length + s.tables d

/-- The state in which `walkpgdir` has put the frame `f` under the directory. -/
def Kernel.newTable (s : Kernel) (d v f : ℕ) (l : List ℕ) : Kernel :=
  (Kernel.setFrame { s with freelist := l } f fun _ => 0#32).setWord d (pdx v) (userPte f)

theorem tables_update {i : Fin 1024} {w : Word} (hi : present (s.mem d i) = false)
    (hw : present w = true) (ht : t.mem d = Function.update (s.mem d) i w) :
    t.tables d = s.tables d + 1 := by
  have : (Finset.univ.filter fun j => present (t.mem d j) = true) =
      insert i (Finset.univ.filter fun j => present (s.mem d j) = true) := by
    ext j
    simp only [Finset.mem_filter, Finset.mem_univ, true_and, Finset.mem_insert, ht]
    by_cases hj : j = i
    · subst hj; simp [hw]
    · simp [hj]
  rw [Kernel.tables, this, Finset.card_insert_of_notMem (by simp [hi]), Kernel.tables]

theorem Walked.of_new {l : List ℕ} (hB : Base E g s) (hT : Tree g s d)
    (ha : present (s.mem d (pdx v)) = false) (hp : s.freelist.Perm (f :: l)) :
    Walked E g s d v (g.setFrame f (.tab d (pdx v))) (s.newTable d v f l) := by
  obtain ⟨hf, hB1⟩ := hB.kalloc hp
  have hlt : f < 2 ^ 20 := frame_lt hB (by rw [hf]; simp)
  have hdf : d ≠ f := by rintro rfl; rw [hT.dir] at hf; cases hf
  have hmem : ∀ x, x ≠ f → x ≠ d → (s.newTable d v f l).mem x = s.mem x := fun x h1 h2 => by
    simp [Kernel.newTable, h1, h2]
  have hd : (s.newTable d v f l).mem d = Function.update (s.mem d) (pdx v) (userPte f) := by
    simp [Kernel.newTable, hdf]
  have hzero : (s.newTable d v f l).mem f = fun _ => 0#32 := by
    simp [Kernel.newTable, hdf.symm]
  have hB2 := hB1.setOwner (f := f) (o := .tab d (pdx v)) (by simp) (by simp) (by simp)
  have hg : (g.setFrame f .loose).setFrame f (.tab d (pdx v)) = g.setFrame f (.tab d (pdx v)) := by
    simp [Ghost.setFrame]
  rw [hg] at hB2
  refine ⟨hB2.congr_mem rfl rfl rfl, ⟨rfl, rfl, rfl, rfl⟩, ⟨rfl, rfl, rfl, rfl⟩, ⟨?_, ?_⟩, ?_, ?_,
    .inr ?_, ?_, ?_, rfl, ?_, ?_⟩
  · rw [g.setFrame_of_ne _ hdf, hT.dir]
  · intro i hi
    rw [hd] at hi ⊢
    by_cases hiv : i = pdx v
    · subst hiv
      rw [Function.update_self, PTE_ADDR_userPte hlt, Ghost.setFrame_self]
    · rw [Function.update_of_ne hiv] at hi ⊢
      have e := hT.tab i hi
      rw [g.setFrame_of_ne _ (by rintro e'; rw [e', hf] at e; cases e), e]
  · rw [hd, Function.update_self, present_userPte]
  · intro i hi
    rw [hd, Function.update_of_ne hi]
  · rw [hd, Function.update_self, PTE_ADDR_userPte hlt, hf]
  · intro v' hv'
    by_cases hi : pdx v' = pdx v
    · have hnew : (s.newTable d v f l).pte d v' = 0#32 := by
        rw [Kernel.pte_of_present (by rw [hd, hi, Function.update_self, present_userPte]), hd, hi,
          Function.update_self, PTE_ADDR_userPte hlt, hzero]
      rw [hnew, Kernel.pte_of_not_present (by rwa [hi])]
    · by_cases hpr : present (s.mem d (pdx v')) = true
      · have e := hT.tab _ hpr
        have hnew : (s.newTable d v f l).pte d v' = s.mem (PTE_ADDR (s.mem d (pdx v'))) (ptx v') := by
          rw [Kernel.pte_of_present (by rwa [hd, Function.update_of_ne hi]), hd,
            Function.update_of_ne hi, hmem _ (by rintro e'; rw [e', hf] at e; cases e)
              (by rintro e'; rw [e', hT.dir] at e; cases e)]
        rw [hnew, Kernel.pte_of_present hpr]
      · have hnew : (s.newTable d v f l).pte d v' = 0#32 :=
          Kernel.pte_of_not_present (by rw [hd, Function.update_of_ne hi]; simpa using hpr)
        rw [hnew, Kernel.pte_of_not_present (by simpa using hpr)]
  · intro x hx
    exact g.setFrame_of_ne _ (by rintro rfl; exact hx hf)
  · intro x hx hxd
    exact hmem x (by rintro rfl; exact hx hf) hxd
  · rw [tables_update ha (present_userPte f) hd, hp.length_eq]
    simp only [Kernel.newTable, Kernel.setWord_freelist, List.length_cons]
    change l.length + _ = _
    omega

theorem Walked.of_present (hB : Base E g s) (hT : Tree g s d)
    (ht : present (s.mem d (pdx v)) = true) : Walked E g s d v g s :=
  ⟨hB, .refl s, .refl s, hT, ht, fun _ _ => rfl, .inl rfl, fun _ _ => rfl, fun _ _ => rfl, rfl,
    fun _ _ _ => rfl, rfl⟩

/-- `walkpgdir` finds the table, makes it, or has no frame for it. -/
theorem walkpgdir_cases (hB : Base E g s) (hT : Tree g s d) (v : ℕ) :
    (s.freelist = [] ∧ present (s.mem d (pdx v)) = false ∧
      walkpgdir E d (v * PGSIZE) true s = .ok (none, s)) ∨
    ∃ g' t, Walked E g s d v g' t ∧
      walkpgdir E d (v * PGSIZE) true s = .ok (some (t.ptr d v), t) := by
  by_cases ht : present (s.mem d (pdx v)) = true
  · right
    refine ⟨g, s, .of_present hB hT ht, ?_⟩
    rw [walkpgdir, bind_apply, get_apply]
    simp only [Kernel.lookup_of_present ht, pure_apply]
  · have hl : s.lookup d (v * PGSIZE) = none := by rw [Kernel.lookup_page, if_neg ht]
    rcases kalloc_cases E s with ⟨hf, hk⟩ | ⟨f, l, hp, hk⟩
    · left
      refine ⟨hf, by simpa using ht, ?_⟩
      rw [walkpgdir, bind_apply, get_apply]
      simp only [hl, ↓reduceIte, bind_apply, hk, pure_apply]
    · right
      have hW := Walked.of_new hB hT (by simpa using ht) hp
      refine ⟨_, _, hW, ?_⟩
      have hlt : f < 2 ^ 20 := frame_lt hB (by rw [(hB.kalloc hp).1]; simp)
      have hdf : d ≠ f := by
        rintro rfl
        have := (hB.kalloc hp).1
        rw [hT.dir] at this; cases this
      have hptr : (s.newTable d v f l).ptr d v = (f, ptx v) := by
        rw [Kernel.ptr]
        simp [Kernel.newTable, hdf, PTE_ADDR_userPte hlt]
      rw [walkpgdir, bind_apply, get_apply]
      simp only [hl, ↓reduceIte, bind_apply, hk, setFrame, writePte, modify_apply, pure_apply, hptr]
      rw [PDX_eq, PTX_eq, page_mul]
      have hpte : V2P f ||| PTE_P ||| PTE_W ||| PTE_U = userPte f := by
        rw [userPte_eq, BitVec.or_assoc, BitVec.or_assoc]; rfl
      rw [hpte]
      rfl

namespace Walked

theorem keeps (h : Walked E g s d v g' t) (hT : Tree g s d) : Keeps {d} g s g' t where
  frame x hx := h.frame x fun e => by rw [e] at hx; exact hx
  mem x hx := h.mem x (fun e => by rw [e] at hx; exact hx) fun e => by
    rw [e, hT.dir] at hx; exact hx rfl
  block b _ := by rw [h.block]
  data b _ := by rw [h.disk.block]

theorem entryOk (h : Walked E g s d v g' t) {v' : ℕ} {w : Word} (hE : EntryOk g d v' w) :
    EntryOk g' d v' w where
  frame hp := by
    have e := hE.frame hp
    rw [h.frame _ (by rw [e]; simp), e]
  only := hE.only
  write := hE.write
  block hs b hb := by rw [h.block]; exact hE.block hs b hb

theorem space (h : Walked E g s d v g' t) (hS : Space g s d V) : Space g' t d V where
  toTree := h.tree
  entry v' hv' hV := by
    rw [h.pte v' (hv'.trans (by decide))]
    exact h.entryOk (hS.entry v' hv' hV)
  kern v' hv' hlt := by
    rw [h.pte v' hlt]
    exact hS.kern v' hv' hlt

theorem content (h : Walked E g s d v g' t) (hS : Space g s d V) {v' : ℕ} (hv' : v' < UVPN)
    (hV : v' ∈ V) : t.content d v' = s.content d v' := by
  have hpte := h.pte v' (hv'.trans (by decide))
  have hE := hS.entry v' hv' hV
  cases hp : present (s.pte d v') with
  | true =>
    have e := hE.frame hp
    rw [Kernel.content_present hp, Kernel.content_present (by rwa [hpte]), hpte,
      h.mem _ (by rw [e]; simp) (by rintro e'; rw [e', hS.dir] at e; cases e)]
  | false =>
    cases hs : swapped (s.pte d v') with
    | true =>
      rw [Kernel.content_swapped hp hs, Kernel.content_swapped (by rwa [hpte]) (by rwa [hpte]), hpte]
      exact Kernel.readPage_congr fun b _ => by rw [h.disk.block]
    | false =>
      rw [Kernel.content_unmapped hp hs, Kernel.content_unmapped (by rwa [hpte]) (by rwa [hpte])]

theorem nswapped (h : Walked E g s d v g' t) : t.nswapped d = s.nswapped d :=
  nswapped_congr fun v' hv' => by rw [h.pte v' (hv'.trans (by decide))]

end Walked

/-! ### One round of `mappages` -/

/-- The entry that `mappages` writes. -/
def mapPte (pa : ℕ) (perm : Word) : Word := V2P pa ||| perm ||| PTE_P

theorem mapPte_eq (pa : ℕ) (perm : Word) : mapPte pa perm = V2P pa ||| (perm ||| PTE_P) := by
  rw [mapPte, BitVec.or_assoc]

@[simp] theorem present_mapPte (pa : ℕ) (perm : Word) : present (mapPte pa perm) = true := by
  rw [mapPte_eq, present, getLsbD_V2P_or pa _ (by norm_num), BitVec.getLsbD_or]
  simp [PTE_P]

@[simp] theorem user_mapPte (pa : ℕ) (perm : Word) : user (mapPte pa perm) = user perm := by
  rw [mapPte_eq, user, getLsbD_V2P_or pa _ (by norm_num), BitVec.getLsbD_or]
  simp [PTE_P, user]

@[simp] theorem writable_mapPte (pa : ℕ) (perm : Word) :
    writable (mapPte pa perm) = writable perm := by
  rw [mapPte_eq, writable, getLsbD_V2P_or pa _ (by norm_num), BitVec.getLsbD_or]
  simp [PTE_P, writable]

@[simp] theorem swapped_mapPte (pa : ℕ) (perm : Word) :
    swapped (mapPte pa perm) = swapped perm := by
  rw [mapPte_eq, swapped, getLsbD_V2P_or pa _ (by norm_num), BitVec.getLsbD_or]
  simp [PTE_P, swapped]

theorem PTE_ADDR_mapPte {pa : ℕ} {perm : Word} (hpa : pa < 2 ^ 20) (h : perm >>> 12 = 0#32) :
    PTE_ADDR (mapPte pa perm) = pa := by
  rw [mapPte_eq, PTE_ADDR_V2P_or hpa]
  rw [BitVec.ushiftRight_or_distrib, h]
  decide

/-- A round of `mappages` lacks a frame for the table, stops because the page is
mapped, or writes the entry. -/
theorem mappagesLoop_cases (hB : Base E g s) (hT : Tree g s d) (hv : v < 2 ^ 20) (perm : Word)
    (n pa : ℕ) :
    (s.freelist = [] ∧ present (s.mem d (pdx v)) = false ∧
      mappagesLoop E true d perm (n + 1) (v * PGSIZE) pa s = .ok (false, s)) ∨
    ∃ g' t, Walked E g s d v g' t ∧
      mappagesLoop E true d perm (n + 1) (v * PGSIZE) pa s =
        if present (s.pte d v) = true then .error (.panic "remap in mappages in vm.c")
        else mappagesLoop E true d perm n ((v + 1) * PGSIZE) (pa + 1)
          (t.setWord (t.ptr d v).1 (t.ptr d v).2 (mapPte pa perm)) := by
  rcases walkpgdir_cases hB hT v with ⟨hf, ha, hw⟩ | ⟨g', t, hW, hw⟩
  · left
    refine ⟨hf, ha, ?_⟩
    rw [mappagesLoop, bind_apply, hw]
    rfl
  · right
    refine ⟨g', t, hW, ?_⟩
    rw [mappagesLoop, bind_apply, hw]
    simp only [readPte, bind_apply, get_apply, pure_apply, Kernel.mem_ptr hW.table, hW.pte v hv,
      true_and, writePte]
    split_ifs
    · rfl
    · rw [bind_apply, modify_apply, Nat.add_one_mul]
      rfl

/-- Writing an entry of an existing table; no frame changes hands. -/
theorem Store.of_setWord {w : Word} (hv : v < 2 ^ 20) (ht : present (s.mem d (pdx v)) = true) :
    Store g s d v g (s.setWord (s.ptr d v).1 (s.ptr d v).2 w) ∅ w where
  vlt := hv
  table := ht
  old := by simp
  mem x _ hx := by
    have hx' : x ≠ (s.ptr d v).1 := hx
    simp [hx']
  word := by
    rw [show PTE_ADDR (s.mem d (pdx v)) = (s.ptr d v).1 from rfl]
    simp [Kernel.ptr]
  frame _ _ := rfl
  block b _ _ _ hb := ⟨hb, rfl⟩

/-- Writing an entry of an existing table; the frame `m` becomes the page's. -/
theorem Store.of_setWord_page {w : Word} (hv : v < 2 ^ 20) (ht : present (s.mem d (pdx v)) = true)
    (hm : g.frame m = .page d v ∨ g.frame m = .loose) :
    Store g s d v (g.setFrame m (.page d v)) (s.setWord (s.ptr d v).1 (s.ptr d v).2 w) {m} w where
  vlt := hv
  table := ht
  old := by rintro x rfl; exact hm
  mem x _ hx := by
    have hx' : x ≠ (s.ptr d v).1 := hx
    simp [hx']
  word := by
    rw [show PTE_ADDR (s.mem d (pdx v)) = (s.ptr d v).1 from rfl]
    simp [Kernel.ptr]
  frame x hx := g.setFrame_of_ne _ hx
  block b _ _ _ hb := ⟨hb, rfl⟩

/-! ### A user page -/

/-- The frame `m` is mapped at page `v` with the entry `w`. -/
structure MappedPage (E : Env) (g : Ghost) (s : Kernel) (d v m : ℕ) (w : Word) (g' : Ghost)
    (u : Kernel) : Prop where
  base : Base E g' u
  proc : SameProc s u
  disk : SameDisk s u
  keeps : Keeps {d} g s g' u
  block : g'.block = g.block
  tree : Tree g' u d
  table : present (u.mem d (pdx v)) = true
  other : ∀ i, i ≠ pdx v → u.mem d i = s.mem d i
  self : u.pte d v = w
  pte : ∀ v' < 2 ^ 20, v' ≠ v → u.pte d v' = s.pte d v'
  frame : ∀ x, g.frame x ≠ .free → x ≠ m → g'.frame x = g.frame x
  own : g'.frame m = .page d v
  read : u.mem m = s.mem m
  space : ∀ V, Space g s d V → (v < UVPN → v ∈ V → EntryOk g' d v w) →
    (UVPN ≤ v → user w = false ∧ swapped w = false) →
    Space g' u d V ∧ ∀ v' < UVPN, v' ∈ V → v' ≠ v → u.content d v' = s.content d v'
  measure : u.freelist.length + u.tables d = s.freelist.length + s.tables d

theorem mappages_page_cases (hB : Base E g s) (hT : Tree g s d) (hv : v < 2 ^ 20)
    (hm : g.frame m = .loose) (perm : Word) :
    (s.freelist = [] ∧ present (s.mem d (pdx v)) = false ∧
      mappages E d (v * PGSIZE) PGSIZE m perm s = .ok (false, s)) ∨
    (present (s.pte d v) = true ∧
      mappages E d (v * PGSIZE) PGSIZE m perm s = .error (.panic "remap in mappages in vm.c")) ∨
    ∃ g' u, mappages E d (v * PGSIZE) PGSIZE m perm s = .ok (true, u) ∧
      MappedPage E g s d v m (mapPte m perm) g' u := by
  rw [mappages, one_page, pgrounddown_page]
  rcases mappagesLoop_cases hB hT hv perm 0 m with ⟨hf, ha, hw⟩ | ⟨g1, t, hW, hw⟩
  · exact .inl ⟨hf, ha, hw⟩
  · right
    cases hpr : present (s.pte d v) with
    | true =>
      left
      rw [hpr] at hw
      exact ⟨rfl, hw⟩
    | false =>
      right
      rw [hpr] at hw
      have hm1 : g1.frame m = .loose := by rw [hW.frame m (by rw [hm]; simp), hm]
      have hst := Store.of_setWord_page (w := mapPte m perm) hv hW.table (.inr hm1)
      obtain ⟨hd, hpv, hpo⟩ := hst.entries hW.tree
      have hmt : m ≠ (t.ptr d v).1 := fun e => by
        have := hW.tree.tab _ hW.table
        rw [show PTE_ADDR (t.mem d (pdx v)) = m from e.symm, hm1] at this
        cases this
      have hmd : m ≠ d := by rintro rfl; rw [hT.dir] at hm; cases hm
      refine ⟨g1.setFrame m (.page d v), t.setWord (t.ptr d v).1 (t.ptr d v).2 (mapPte m perm), ?_, ?_⟩
      · rw [hw]; rfl
      refine ⟨(hW.base.setOwner (by rw [hm1]; simp) (by rw [hm1]; simp) (by simp)).congr_mem rfl rfl
        rfl, ⟨hW.proc.proc, hW.proc.kpgdir, hW.proc.initproc, hW.proc.nextpid⟩,
        ⟨hW.disk.bit, hW.disk.block, hW.disk.files, hW.disk.count⟩,
        (hW.keeps hT).trans (hst.keeps hW.tree), hW.block, hst.tree hW.tree, by rw [hd, hW.table],
        fun i hi => by rw [hd, hW.other i hi], hpv,
        fun v' hv' hne => by rw [hpo v' hv' hne, hW.pte v' hv'], fun x hx hxm => ?_,
        Ghost.setFrame_self _ _ _, ?_, fun V hS hE hK => ?_, ?_⟩
      · rw [g1.setFrame_of_ne _ hxm, hW.frame x hx]
      · rw [Kernel.setWord_mem, Function.update_of_ne hmt, hW.mem m (by rw [hm]; simp) hmd]
      · have hS1 := hW.space hS
        exact ⟨hst.space hS1 hE hK, fun v' hv' hV hne => by
          rw [hst.content hS1 hv' hV hne, hW.content hS hv' hV]⟩
      · rw [← hW.measure, Kernel.tables, hd]
        rfl

end Xv6Lab.Paging
