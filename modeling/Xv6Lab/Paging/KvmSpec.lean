import Xv6Lab.Paging.FreeSpec
import Mathlib.Tactic.FinCases

/-! Building the kernel half of an address space. The four rows of `kmap[]` need
nine page tables, so `setupkvm` succeeds when ten frames are free and takes
exactly these. -/

namespace Xv6Lab.Paging

open Lib

variable {E : Env} {g g' g'' : Ghost} {s t u : Kernel} {d v m n : ℕ} {perm : Word}

/-- Entries of `d` from `KERNBASE` on may be new; the user half, and all that `d`
does not own, is as it was. -/
structure KMapped (E : Env) (g : Ghost) (s : Kernel) (d : ℕ) (g' : Ghost) (t : Kernel) : Prop where
  base : Base E g' t
  proc : SameProc s t
  disk : SameDisk s t
  tree : Tree g' t d
  block : g'.block = g.block
  frame : ∀ x, g.frame x ≠ .free → g'.frame x = g.frame x
  mem : ∀ x, g.frame x ≠ .free → x ≠ d →
    (∀ i, present (s.mem d i) = true → x ≠ PTE_ADDR (s.mem d i)) → t.mem x = s.mem x
  tabs : ∀ i, present (t.mem d i) = true →
    t.mem d i = s.mem d i ∨ g.frame (PTE_ADDR (t.mem d i)) = .free
  low : ∀ i : Fin 1024, i.val < 512 → t.mem d i = s.mem d i
  pte : ∀ v < UVPN, t.pte d v = s.pte d v
  kern : (∀ v, UVPN ≤ v → v < 2 ^ 20 → user (s.pte d v) = false ∧ swapped (s.pte d v) = false) →
    ∀ v, UVPN ≤ v → v < 2 ^ 20 → user (t.pte d v) = false ∧ swapped (t.pte d v) = false
  measure : t.freelist.length + t.tables d = s.freelist.length + s.tables d

/-- The permissions in `kmap[]`. -/
def KPerm (perm : Word) : Prop := perm = 0#32 ∨ perm = PTE_W

theorem KPerm.user (h : KPerm perm) : Paging.user perm = false := by
  rcases h with rfl | rfl <;> decide

theorem KPerm.swapped (h : KPerm perm) : Paging.swapped perm = false := by
  rcases h with rfl | rfl <;> decide

namespace KMapped

theorem refl (hB : Base E g s) (hT : Tree g s d) : KMapped E g s d g s :=
  ⟨hB, .refl s, .refl s, hT, rfl, fun _ _ => rfl, fun _ _ _ _ => rfl, fun _ _ => .inl rfl,
    fun _ _ => rfl, fun _ _ => rfl, fun h => h, rfl⟩

theorem trans (h : KMapped E g s d g' t) (h' : KMapped E g' t d g'' u) :
    KMapped E g s d g'' u where
  base := h'.base
  proc := h.proc.trans h'.proc
  disk := h.disk.trans h'.disk
  tree := h'.tree
  block := h'.block.trans h.block
  frame x hx := by rw [h'.frame x (by rwa [h.frame x hx]), h.frame x hx]
  mem x hx hd hi := by
    rw [h'.mem x (by rwa [h.frame x hx]) hd fun i hp e => ?_, h.mem x hx hd hi]
    rcases h.tabs i hp with hs | hf
    · rw [hs] at hp e
      exact hi i hp e
    · rw [← e] at hf
      exact hx hf
  tabs i hp := by
    rcases h'.tabs i hp with ht | hf
    · rw [ht] at hp ⊢
      exact h.tabs i hp
    · by_cases hg : g.frame (PTE_ADDR (u.mem d i)) = .free
      · exact .inr hg
      · rw [h.frame _ hg] at hf
        exact absurd hf hg
  low i hi := by rw [h'.low i hi, h.low i hi]
  pte v hv := by rw [h'.pte v hv, h.pte v hv]
  kern hk := h'.kern (h.kern hk)
  measure := h'.measure.trans h.measure

theorem not_low {v : ℕ} (h1 : UVPN ≤ v) (h2 : v < 2 ^ 20) : ¬ (pdx v).val < 512 := by
  rw [pdx_lt_iff h2]; omega

/-- One entry of the kernel half. -/
theorem one (pa : ℕ) (h1 : UVPN ≤ v) (h2 : v < 2 ^ 20) (hperm : KPerm perm)
    (hW : Walked E g s d v g' t) :
    KMapped E g s d g' (t.setWord (t.ptr d v).1 (t.ptr d v).2 (mapPte pa perm)) ∧
      (t.setWord (t.ptr d v).1 (t.ptr d v).2 (mapPte pa perm)).mem d = t.mem d ∧
      (t.setWord (t.ptr d v).1 (t.ptr d v).2 (mapPte pa perm)).pte d v = mapPte pa perm ∧
      ∀ v' < 2 ^ 20, v' ≠ v →
        (t.setWord (t.ptr d v).1 (t.ptr d v).2 (mapPte pa perm)).pte d v' = s.pte d v' := by
  have hst := Store.of_setWord (g := g') (w := mapPte pa perm) h2 hW.table
  obtain ⟨hd, hpv, hpo⟩ := hst.entries hW.tree
  have hpo' : ∀ v' < 2 ^ 20, v' ≠ v →
      (t.setWord (t.ptr d v).1 (t.ptr d v).2 (mapPte pa perm)).pte d v' = s.pte d v' :=
    fun v' hv' hne => by rw [hpo v' hv' hne, hW.pte v' hv']
  refine ⟨⟨hW.base.congr_mem rfl rfl rfl,
    ⟨hW.proc.proc, hW.proc.kpgdir, hW.proc.initproc, hW.proc.nextpid⟩,
    ⟨hW.disk.bit, hW.disk.block, hW.disk.files, hW.disk.count⟩, hst.tree hW.tree, hW.block,
    hW.frame, fun x hx hxd hxi => ?_, fun i hi => ?_, fun i hi => ?_, fun v' hv' => ?_, fun hk v' hv' hlt => ?_, ?_⟩,
    hd, hpv, hpo'⟩
  · have hxt : x ≠ (t.ptr d v).1 := fun e => by
      have hxe : x = PTE_ADDR (t.mem d (pdx v)) := e
      rcases hW.tabs with h | h
      · exact hxi (pdx v) (h ▸ hW.table) (by rw [hxe, h])
      · rw [← hxe] at h
        exact hx h
    rw [Kernel.setWord_mem, Function.update_of_ne hxt, hW.mem x hx hxd]
  · rw [hd] at hi ⊢
    by_cases hiv : i = pdx v
    · subst hiv
      exact hW.tabs
    · exact .inl (hW.other i hiv)
  · rw [hd, hW.other i fun e => not_low h1 h2 (e ▸ hi)]
  · exact hpo' v' (hv'.trans (by decide)) (by omega)
  · by_cases hne : v' = v
    · subst hne
      rw [hpv, user_mapPte, swapped_mapPte]
      exact ⟨hperm.user, hperm.swapped⟩
    · rw [hpo' v' hlt hne]
      exact hk v' hv' hlt
  · rw [← hW.measure, Kernel.tables, hd]
    rfl

end KMapped

/-- The rounds of `mappages` in the kernel half. -/
theorem mappagesLoop_kernel_spec (hperm : KPerm perm) (n v pa : ℕ) (hB : Base E g s)
    (hT : Tree g s d) (h1 : UVPN ≤ v) (h2 : v + n ≤ 2 ^ 20) :
    wp (mappagesLoop E true d perm n (v * PGSIZE) pa) (fun _ t => ∃ g', KMapped E g s d g' t) s := by
  induction n generalizing v pa g s with
  | zero =>
    rw [mappagesLoop, wp_pure]
    exact ⟨g, .refl hB hT⟩
  | succ n ih =>
    rcases mappagesLoop_cases hB hT (show v < 2 ^ 20 by omega) perm n pa with
      ⟨-, -, hw⟩ | ⟨g1, t, hW, hw⟩
    · exact wp_of_eq hw ⟨g, .refl hB hT⟩
    · intro a u hu
      rw [hw] at hu
      split_ifs at hu
      obtain ⟨hk, -⟩ := KMapped.one pa h1 (by omega) hperm hW
      obtain ⟨g', hk'⟩ := ih (v + 1) (pa + 1) hk.base hk.tree (by omega) (by omega) a u hu
      exact ⟨g', hk.trans hk'⟩

/-- With a frame for every table that is missing among `T`, the rounds of
`mappages` map all their pages. -/
theorem mappagesLoop_kernel_total (hperm : KPerm perm) {T : Finset (Fin 1024)} {n v m : ℕ}
    {g : Ghost} {s : Kernel} (hB : Base E g s) (hT : Tree g s d) (h1 : UVPN ≤ v)
    (h2 : v + n ≤ 2 ^ 20)
    (hr : ∀ w, v ≤ w → w < v + n → present (s.pte d w) = false ∧ pdx w ∈ T)
    (hPT : ∀ i, present (s.mem d i) = true → i ∈ T)
    (hK : T.card ≤ s.freelist.length + s.tables d) :
    ∃ g' t, mappagesLoop E true d perm n (v * PGSIZE) m s = .ok (true, t) ∧
      KMapped E g s d g' t ∧ (∀ i, present (t.mem d i) = true → i ∈ T) ∧
      ∀ w < 2 ^ 20, present (t.pte d w) = true ↔ present (s.pte d w) = true ∨ v ≤ w ∧ w < v + n := by
  induction n generalizing v m g s with
  | zero => exact ⟨g, s, rfl, .refl hB hT, hPT, fun w _ => ⟨.inl, fun h => h.resolve_right (by omega)⟩⟩
  | succ n ih =>
    obtain ⟨hnp, hvT⟩ := hr v le_rfl (by omega)
    rcases mappagesLoop_cases hB hT (show v < 2 ^ 20 by omega) perm n m with
      ⟨hf, ha, -⟩ | ⟨g1, t, hW, hw⟩
    · exfalso
      have hle : s.tables d ≤ (T.erase (pdx v)).card := by
        refine Finset.card_le_card fun i hi => ?_
        rw [Finset.mem_filter] at hi
        exact Finset.mem_erase.2 ⟨by rintro rfl; rw [ha] at hi; simp at hi, hPT i hi.2⟩
      rw [Finset.card_erase_of_mem hvT] at hle
      have hpos : 0 < T.card := Finset.card_pos.2 ⟨_, hvT⟩
      rw [hf, List.length_nil] at hK
      omega
    · rw [hnp] at hw
      obtain ⟨hk, hkd, hkv, hko⟩ := KMapped.one m h1 (by omega) hperm hW
      obtain ⟨g', u, happ, hk', hPT', hpr⟩ := ih (v := v + 1) (m := m + 1)
        hk.base hk.tree (by omega) (by omega)
        (fun w hw1 hw2 => by
          rw [hko w (by omega) (by omega)]
          exact hr w (by omega) (by omega))
        (fun i hi => by
          rw [hkd] at hi
          by_cases hiv : i = pdx v
          · rw [hiv]; exact hvT
          · rw [hW.other i hiv] at hi
            exact hPT i hi)
        (by rw [hk.measure]; exact hK)
      refine ⟨g', u, hw.trans happ, hk.trans hk', hPT', fun w hlt => ?_⟩
      rw [hpr w hlt]
      by_cases hwv : w = v
      · subst hwv
        rw [hkv]
        exact ⟨fun _ => .inr (by omega), fun _ => .inl (present_mapPte m perm)⟩
      · rw [hko w hlt hwv]
        exact or_congr_right (by omega)

/-! ### `setupkvm` -/

/-- A row of `kmap[]` as page numbers. -/
theorem mappages_row {n : ℕ} (hn : 0 < n) (v pa : ℕ) (perm : Word) :
    mappages E d (v * PGSIZE) (n * PGSIZE) pa perm = mappagesLoop E true d perm n (v * PGSIZE) pa := by
  rw [mappages, pgrounddown_page]
  congr 1
  simp only [PGSIZE]
  omega

/-- The rows of `kmap[]`: first page, number of pages, first frame, permissions. -/
def Env.rows (E : Env) : List (ℕ × ℕ × ℕ × Word) :=
  [(UVPN, 256, 0, PTE_W), (UVPN + 256, E.kdata - 256, 256, 0#32),
   (UVPN + E.kdata, NFRAMES - E.kdata, E.kdata, PTE_W), (0xFE000, 8192, 0xFE000, PTE_W)]

theorem Env.kmap_eq (E : Env) : E.kmap =
    E.rows.map fun r => ⟨r.1 * PGSIZE, r.2.2.1, r.2.1 * PGSIZE, r.2.2.2⟩ := by
  have h1 := E.kdata_gt
  have h2 := E.kdata_lt
  have h3 := E.kend_le
  simp only [EXTMEM, PGSIZE, NFRAMES, PHYSTOP] at h1 h2 h3
  simp only [Env.kmap, Env.rows, List.map_cons, List.map_nil, List.cons.injEq, Kmap.mk.injEq,
    KERNBASE, EXTMEM, PGSIZE, UVPN, PHYSTOP, NFRAMES, DEVSPACE, and_true, true_and]
  omega

theorem rows_ok {r : ℕ × ℕ × ℕ × Word} (hr : r ∈ E.rows) :
    0 < r.2.1 ∧ UVPN ≤ r.1 ∧ r.1 + r.2.1 ≤ 2 ^ 20 ∧ KPerm r.2.2.2 := by
  have h1 := E.kdata_gt
  have h2 := E.kdata_lt
  have h3 := E.kend_le
  simp only [EXTMEM, PGSIZE, NFRAMES, PHYSTOP] at h1 h2 h3
  simp only [Env.rows, List.mem_cons, List.not_mem_nil, or_false] at hr
  rcases hr with rfl | rfl | rfl | rfl <;>
    simp only [UVPN_eq, NFRAMES, PHYSTOP, PGSIZE, KPerm] <;>
    refine ⟨by omega, by omega, by omega, ?_⟩ <;> simp

theorem setupkvmLoop_spec (rows : List (ℕ × ℕ × ℕ × Word)) (hr : ∀ r ∈ rows, r ∈ E.rows)
    (hB : Base E g s) (hT : Tree g s d) :
    wp (setupkvmLoop E d (rows.map fun r => ⟨r.1 * PGSIZE, r.2.2.1, r.2.1 * PGSIZE, r.2.2.2⟩))
      (fun _ t => ∃ g', KMapped E g s d g' t) s := by
  induction rows generalizing g s with
  | nil =>
    rw [List.map_nil, setupkvmLoop, wp_pure]
    exact ⟨g, .refl hB hT⟩
  | cons r rows ih =>
    obtain ⟨h0, h1, h2, h3⟩ := rows_ok (hr r (by simp))
    rw [List.map_cons, setupkvmLoop, wp_bind]
    simp only
    rw [mappages_row h0]
    refine wp_mono (mappagesLoop_kernel_spec h3 _ _ _ hB hT h1 h2) ?_
    rintro b t ⟨g1, h⟩
    split_ifs
    · refine wp_mono (ih (fun r' hr' => hr r' (by simp [hr'])) h.base h.tree) ?_
      rintro - u ⟨g', h'⟩
      exact ⟨g', h.trans h'⟩
    · rw [wp_pure]
      exact ⟨g1, h⟩

/-- A fresh address space with an empty user half. -/
structure NewSpace (E : Env) (g : Ghost) (s : Kernel) (d : ℕ) (g' : Ghost) (t : Kernel) :
    Prop where
  base : Base E g' t
  proc : SameProc s t
  disk : SameDisk s t
  block : g'.block = g.block
  old : g.frame d = .free
  space : Space g' t d Set.univ
  frame : ∀ x, g.frame x ≠ .free → g'.frame x = g.frame x ∧ t.mem x = s.mem x
  low : ∀ i : Fin 1024, i.val < 512 → present (t.mem d i) = false

theorem NewSpace.empty (h : NewSpace E g s d g' t) {v : ℕ} (hv : v < UVPN) : t.pte d v = 0#32 :=
  Kernel.pte_of_not_present (h.low _ ((pdx_lt_iff (hv.trans (by decide))).2 hv))

theorem NewSpace.keeps (h : NewSpace E g s d g' t) : Keeps ∅ g s g' t where
  frame x hx := (h.frame x fun e => by rw [e] at hx; exact hx).1
  mem x hx := (h.frame x fun e => by rw [e] at hx; exact hx).2
  block b _ := by rw [h.block]
  data b _ := by rw [h.disk.block]

/-- The directory before its entries are made. -/
structure NewDir (E : Env) (g : Ghost) (s : Kernel) (d : ℕ) (g' : Ghost) (t : Kernel) : Prop where
  base : Base E g' t
  proc : SameProc s t
  disk : SameDisk s t
  frames : g' = g.setFrame d (.dir d)
  old : g.frame d = .free
  mem : t.mem = Function.update s.mem d fun _ => 0#32
  measure : t.freelist.length + 1 = s.freelist.length

theorem NewDir.of_perm {l : List ℕ} (hB : Base E g s) (hp : s.freelist.Perm (d :: l)) :
    NewDir E g s d (g.setFrame d (.dir d))
      (Kernel.setFrame { s with freelist := l } d fun _ => 0#32) := by
  obtain ⟨hf, hB1⟩ := hB.kalloc hp
  have hB2 := hB1.setOwner (f := d) (o := .dir d) (by simp) (by simp) (by simp)
  have hg : (g.setFrame d .loose).setFrame d (.dir d) = g.setFrame d (.dir d) := by
    simp [Ghost.setFrame]
  rw [hg] at hB2
  exact ⟨hB2.congr_mem rfl rfl rfl, ⟨rfl, rfl, rfl, rfl⟩, ⟨rfl, rfl, rfl, rfl⟩, rfl, hf, rfl,
    hp.length_eq.symm⟩

namespace NewDir

theorem zero (h : NewDir E g s d g' t) (i : Fin 1024) : t.mem d i = 0#32 := by
  rw [h.mem, Function.update_self]

theorem tree (h : NewDir E g s d g' t) : Tree g' t d where
  dir := by rw [h.frames, Ghost.setFrame_self]
  tab i hi := by rw [h.zero] at hi; simp at hi

theorem pte (h : NewDir E g s d g' t) (v : ℕ) : t.pte d v = 0#32 :=
  Kernel.pte_of_not_present (by rw [h.zero, present_zero])

theorem tables (h : NewDir E g s d g' t) : t.tables d = 0 := by
  rw [Kernel.tables, Finset.card_eq_zero, Finset.filter_eq_empty_iff]
  intro i _
  simp [h.zero]

theorem newSpace {g2 : Ghost} {t2 : Kernel} (h : NewDir E g s d g' t)
    (hk : KMapped E g' t d g2 t2) : NewSpace E g s d g2 t2 where
  base := hk.base
  proc := h.proc.trans hk.proc
  disk := h.disk.trans hk.disk
  block := by rw [hk.block, h.frames, Ghost.setFrame_block]
  old := h.old
  space := by
    refine ⟨hk.tree, fun v hv _ => ?_, hk.kern fun v _ _ => ?_⟩
    · rw [hk.pte v hv, h.pte]
      exact ⟨by simp, by simp, by simp, by simp⟩
    · rw [h.pte]
      decide
  frame x hx := by
    have hxd : x ≠ d := by rintro rfl; exact hx h.old
    have e : g'.frame x = g.frame x := by rw [h.frames, g.setFrame_of_ne _ hxd]
    refine ⟨by rw [hk.frame x (by rwa [e]), e], ?_⟩
    rw [hk.mem x (by rwa [e]) hxd fun i hi => by rw [h.zero] at hi; simp at hi, h.mem,
      Function.update_of_ne hxd]
  low i hi := by rw [hk.low i hi, h.zero, present_zero]

end NewDir

/-- An address space `d` was started on a free frame and given back. -/
structure NoSpace (E : Env) (g : Ghost) (s : Kernel) (d : ℕ) (g' : Ghost) (t : Kernel) : Prop where
  base : Base E g' t
  proc : SameProc s t
  old : g.frame d = .free
  keeps : Keeps {d} g s g' t
  count : t.numallocblocks = s.numallocblocks

theorem NewSpace.nswapped (h : NewSpace E g s d g' t) : t.nswapped d = 0 := by
  rw [Kernel.nswapped, Kernel.nswappedIn, Finset.card_eq_zero, Finset.filter_eq_empty_iff]
  intro v hv
  rw [h.empty (Finset.mem_Ico.1 hv).2]
  decide

theorem setupkvm_spec (hB : Base E g s) :
    wp (setupkvm E) (fun r t => match r with
      | some d => ∃ g', NewSpace E g s d g' t
      | none => t = s ∨ ∃ d g', NoSpace E g s d g' t) s := by
  rw [setupkvm, wp_bind]
  rcases kalloc_cases E s with ⟨-, hk⟩ | ⟨d, l, hp, hk⟩
  · refine wp_of_eq hk ?_
    rw [wp_pure]
    exact .inl rfl
  · refine wp_of_eq hk ?_
    have hD := NewDir.of_perm hB hp
    simp only [setFrame, wp_bind, wp_modify]
    rw [Env.kmap_eq]
    refine wp_mono (setupkvmLoop_spec E.rows (fun _ h => h) hD.base hD.tree) ?_
    rintro b t ⟨g1, hk1⟩
    have hN := hD.newSpace hk1
    split_ifs
    · rw [wp_pure]
      exact ⟨g1, hN⟩
    · rw [wp_bind]
      refine wp_mono (freevm_spec hN.base hN.space) ?_
      rintro - u ⟨g2, hF⟩
      rw [wp_pure]
      refine .inr ⟨d, g2, hF.base, hN.proc.trans hF.proc, hN.old,
        (hN.keeps.mono (Set.empty_subset _)).trans hF.keeps, ?_⟩
      rw [hF.count, hN.nswapped, hN.disk.count]
      simp

/-! ### Success -/

/-- The directory entries of the kernel half. -/
def kernelTables : Finset (Fin 1024) :=
  Finset.univ.filter fun i => i.val = 512 ∨ 1016 ≤ i.val

theorem card_kernelTables : kernelTables.card = 9 := by decide +kernel

theorem rows_tables {r : ℕ × ℕ × ℕ × Word} (hr : r ∈ E.rows) {w : ℕ} (h1 : r.1 ≤ w)
    (h2 : w < r.1 + r.2.1) : pdx w ∈ kernelTables := by
  have h3 := E.kdata_gt
  have h4 := E.kdata_lt
  have h5 := E.kend_le
  simp only [EXTMEM, PGSIZE, NFRAMES, PHYSTOP] at h3 h4 h5
  simp only [Env.rows, List.mem_cons, List.not_mem_nil, or_false] at hr
  simp only [kernelTables, Finset.mem_filter, Finset.mem_univ, true_and, pdx]
  rcases hr with rfl | rfl | rfl | rfl <;>
    simp only [UVPN_eq, NFRAMES, PHYSTOP, PGSIZE] at h1 h2 <;> omega

theorem rows_pairwise (E : Env) :
    E.rows.Pairwise fun r r' => ∀ w, r'.1 ≤ w → ¬ (r.1 ≤ w ∧ w < r.1 + r.2.1) := by
  have h3 := E.kdata_gt
  have h4 := E.kdata_lt
  have h5 := E.kend_le
  simp only [EXTMEM, PGSIZE, NFRAMES, PHYSTOP] at h3 h4 h5
  simp only [Env.rows, List.pairwise_cons, List.mem_cons, List.not_mem_nil, or_false,
    UVPN_eq, NFRAMES, PHYSTOP, PGSIZE]
  refine ⟨?_, ?_, ?_, by simp, List.Pairwise.nil⟩
  · rintro r' (rfl | rfl | rfl) w hw <;> simp only at hw ⊢ <;> omega
  · rintro r' (rfl | rfl) w hw <;> simp only at hw ⊢ <;> omega
  · rintro r' rfl w hw
    simp only at hw ⊢
    omega

theorem setupkvmLoop_total (rows : List (ℕ × ℕ × ℕ × Word)) {g : Ghost} {s : Kernel}
    (hr : ∀ r ∈ rows, r ∈ E.rows)
    (hpw : rows.Pairwise fun r r' => ∀ w, r'.1 ≤ w → ¬ (r.1 ≤ w ∧ w < r.1 + r.2.1))
    (hB : Base E g s) (hT : Tree g s d)
    (hfresh : ∀ r ∈ rows, ∀ w, r.1 ≤ w → w < r.1 + r.2.1 → present (s.pte d w) = false)
    (hPT : ∀ i, present (s.mem d i) = true → i ∈ kernelTables)
    (hK : 9 ≤ s.freelist.length + s.tables d) :
    ∃ g' t, setupkvmLoop E d (rows.map fun r => ⟨r.1 * PGSIZE, r.2.2.1, r.2.1 * PGSIZE, r.2.2.2⟩) s =
        .ok (true, t) ∧ KMapped E g s d g' t ∧
      (∀ i, present (t.mem d i) = true → i ∈ kernelTables) ∧
      ∀ w < 2 ^ 20, present (t.pte d w) = true ↔
        present (s.pte d w) = true ∨ ∃ r ∈ rows, r.1 ≤ w ∧ w < r.1 + r.2.1 := by
  induction rows generalizing g s with
  | nil => exact ⟨g, s, rfl, .refl hB hT, hPT, fun w _ => by simp⟩
  | cons r rows ih =>
    rw [List.pairwise_cons] at hpw
    obtain ⟨h0, h1, h2, h3⟩ := rows_ok (hr r (by simp))
    obtain ⟨g1, t, happ, hk, hPT1, hpr⟩ := mappagesLoop_kernel_total (m := r.2.2.1) h3 hB hT h1 h2
      (fun w hw hw' => ⟨hfresh r (by simp) w hw hw', rows_tables (hr r (by simp)) hw hw'⟩) hPT
      (by rw [card_kernelTables]; exact hK)
    obtain ⟨g', u, happ', hk', hPT', hpr'⟩ := ih (fun r' hr' => hr r' (by simp [hr'])) hpw.2 hk.base
      hk.tree (fun r' hr' w hw hw' => by
        have hlt : w < 2 ^ 20 := hw'.trans_le (rows_ok (hr r' (by simp [hr']))).2.2.1
        by_contra hne
        rcases (hpr w hlt).1 (by simpa using hne) with h | h
        · rw [hfresh r' (by simp [hr']) w hw hw'] at h; cases h
        · exact hpw.1 r' hr' w hw h) hPT1 (by rw [hk.measure]; exact hK)
    refine ⟨g', u, ?_, hk.trans hk', hPT', fun w hlt => ?_⟩
    · rw [List.map_cons, setupkvmLoop, bind_apply]
      simp only
      rw [mappages_row h0, happ]
      exact happ'
    · rw [hpr' w hlt, hpr w hlt]
      simp only [List.mem_cons, exists_eq_or_imp, or_assoc]

/-- Each table of the kernel half has a page in the first or in the last row. -/
theorem kernelTables_row {i : Fin 1024} (hi : i ∈ kernelTables) :
    ∃ r ∈ E.rows, r.1 ≤ i.val * 1024 ∧ i.val * 1024 < r.1 + r.2.1 := by
  have hlt := i.isLt
  simp only [kernelTables, Finset.mem_filter, Finset.mem_univ, true_and] at hi
  rcases hi with hi | hi
  · refine ⟨(UVPN, 256, 0, PTE_W), by simp [Env.rows], ?_, ?_⟩ <;> simp only [UVPN_eq] <;> omega
  · refine ⟨(0xFE000, 8192, 0xFE000, PTE_W), by simp [Env.rows], ?_, ?_⟩ <;> dsimp only <;> omega

/-- With ten free frames `setupkvm` succeeds and takes ten. -/
theorem setupkvm_total (hB : Base E g s) (h : 10 ≤ s.freelist.length) :
    ∃ d g' t, setupkvm E s = .ok (some d, t) ∧ NewSpace E g s d g' t ∧
      t.freelist.length + 10 = s.freelist.length := by
  rcases kalloc_cases E s with ⟨h0, -⟩ | ⟨d, l, hp, hk⟩
  · rw [h0] at h
    simp at h
  · have hD := NewDir.of_perm hB hp
    obtain ⟨g', t, happ, hk1, hPT, hpr⟩ := setupkvmLoop_total E.rows (fun _ h => h)
      (rows_pairwise E) hD.base hD.tree (fun r _ w _ _ => by rw [hD.pte]; decide)
      (fun i hi => by rw [hD.zero] at hi; simp at hi) (by
        have := hD.measure
        rw [hD.tables]
        omega)
    refine ⟨d, g', t, ?_, hD.newSpace hk1, ?_⟩
    · rw [setupkvm, bind_apply, hk]
      simp only [setFrame, bind_apply, modify_apply]
      rw [Env.kmap_eq, happ]
      simp only [↓reduceIte, pure_apply]
    · have hall : (Finset.univ.filter fun i => present (t.mem d i) = true) = kernelTables := by
        ext i
        rw [Finset.mem_filter]
        refine ⟨fun hi => hPT i hi.2, fun hi => ⟨Finset.mem_univ i, ?_⟩⟩
        have hlt := i.isLt
        have hpt := present_table_of_entry
          ((hpr (i.val * 1024) (by omega)).2 (.inr (kernelTables_row hi)))
        rwa [show pdx (i.val * 1024) = i by simp only [pdx]; ext; simp only; omega] at hpt
      have htab : t.tables d = 9 := by rw [Kernel.tables, hall, card_kernelTables]
      have := hk1.measure
      rw [htab, hD.tables] at this
      have := hD.measure
      omega

end Xv6Lab.Paging
