import Xv6Lab.Paging.MapSpec

/-! Taking an address space apart: `deallocuvm` gives back the frames and the swap
blocks of a range of pages, `freevm` everything. -/

namespace Xv6Lab.Paging

open Lib

variable {E : Env} {g g' g'' : Ghost} {s t u : Kernel} {d v m f lo mid hi : ℕ}

/-- The pages of `d` from `lo` up to `hi` have been given back. A present entry is
cleared; a swapped one keeps its number although its blocks are free. -/
structure Dealloced (E : Env) (g : Ghost) (s : Kernel) (d lo hi : ℕ) (g' : Ghost) (t : Kernel) :
    Prop where
  base : Base E g' t
  proc : SameProc s t
  dir : t.mem d = s.mem d
  pte : ∀ v < 2 ^ 20, t.pte d v =
    if lo ≤ v ∧ v < hi ∧ present (s.pte d v) = true then 0#32 else s.pte d v
  frame : ∀ x, (∀ v, lo ≤ v → v < hi → g.frame x ≠ .page d v) → g'.frame x = g.frame x
  mem : ∀ x, (∀ v, lo ≤ v → v < hi → g.frame x ≠ .page d v) → (∀ i, g.frame x ≠ .tab d i) →
    t.mem x = s.mem x
  block : ∀ b, (∀ v, lo ≤ v → v < hi → g.block b ≠ .swap d v) → g'.block b = g.block b
  data : t.block = s.block
  count : t.numallocblocks = s.numallocblocks - s.nswappedIn d lo hi

theorem nswappedIn_self (s : Kernel) (d v : ℕ) : s.nswappedIn d v v = 0 := by
  simp [Kernel.nswappedIn]

theorem nswappedIn_add (s : Kernel) (d : ℕ) (h1 : lo ≤ mid) (h2 : mid ≤ hi) :
    s.nswappedIn d lo mid + s.nswappedIn d mid hi = s.nswappedIn d lo hi := by
  simp only [Kernel.nswappedIn]
  rw [← Finset.Ico_union_Ico_eq_Ico h1 h2, Finset.filter_union, Finset.card_union_of_disjoint]
  exact Finset.disjoint_filter_filter (Finset.Ico_disjoint_Ico_consecutive lo mid hi)

theorem nswappedIn_congr (h : ∀ v, lo ≤ v → v < hi → swapped (t.pte d v) = swapped (s.pte d v)) :
    t.nswappedIn d lo hi = s.nswappedIn d lo hi := by
  simp only [Kernel.nswappedIn]
  congr 1
  refine Finset.filter_congr fun v hv => ?_
  rw [h v (Finset.mem_Ico.1 hv).1 (Finset.mem_Ico.1 hv).2]

theorem nswappedIn_succ (s : Kernel) (d v : ℕ) :
    s.nswappedIn d v (v + 1) = if swapped (s.pte d v) = true then 1 else 0 := by
  simp only [Kernel.nswappedIn, Nat.Ico_succ_singleton, Finset.filter_singleton]
  split_ifs <;> simp

namespace Dealloced

theorem refl (hB : Base E g s) (d : ℕ) (h : hi ≤ lo) : Dealloced E g s d lo hi g s where
  base := hB
  proc := .refl s
  dir := rfl
  pte v _ := by rw [if_neg (by omega)]
  frame _ _ := rfl
  mem _ _ _ := rfl
  block _ _ := rfl
  data := rfl
  count := by simp [Kernel.nswappedIn, Finset.Ico_eq_empty_of_le h]

/-- Pages without a table hold nothing. -/
theorem skip (hB : Base E g s) (h : ∀ v, lo ≤ v → v < hi → s.pte d v = 0#32) :
    Dealloced E g s d lo hi g s where
  base := hB
  proc := .refl s
  dir := rfl
  pte v _ := by
    split_ifs with hc
    · rw [h v hc.1 hc.2.1]
    · rfl
  frame _ _ := rfl
  mem _ _ _ := rfl
  block _ _ := rfl
  data := rfl
  count := by
    have : s.nswappedIn d lo hi = 0 := by
      simp only [Kernel.nswappedIn, Finset.card_eq_zero, Finset.filter_eq_empty_iff, Finset.mem_Ico]
      rintro v ⟨h1, h2⟩
      simp [h v h1 h2]
    simp [this]

theorem trans (h1 : lo ≤ mid) (h2 : mid ≤ hi) (hhi : hi ≤ 2 ^ 20)
    (h : Dealloced E g s d lo mid g' t) (h' : Dealloced E g' t d mid hi g'' u) :
    Dealloced E g s d lo hi g'' u where
  base := h'.base
  proc := h.proc.trans h'.proc
  dir := h'.dir.trans h.dir
  pte v hv := by
    rw [h'.pte v hv, h.pte v hv]
    by_cases hlo : lo ≤ v ∧ v < mid ∧ present (s.pte d v) = true
    · rw [if_pos hlo, if_neg (by simp), if_pos ⟨hlo.1, by omega, hlo.2.2⟩]
    · rw [if_neg hlo]
      by_cases hhi' : mid ≤ v ∧ v < hi ∧ present (s.pte d v) = true
      · rw [if_pos hhi', if_pos ⟨by omega, hhi'.2.1, hhi'.2.2⟩]
      · rw [if_neg hhi', if_neg]
        rintro ⟨h3, h4, h5⟩
        rcases Nat.lt_or_ge v mid with h6 | h6
        · exact hlo ⟨h3, h6, h5⟩
        · exact hhi' ⟨h6, h4, h5⟩
  frame x hx := by
    have e := h.frame x fun v h3 h4 => hx v h3 (by omega)
    rw [h'.frame x fun v h3 h4 => by rw [e]; exact hx v (by omega) h4, e]
  mem x hx hx' := by
    have e := h.frame x fun v h3 h4 => hx v h3 (by omega)
    rw [h'.mem x (fun v h3 h4 => by rw [e]; exact hx v (by omega) h4) fun i => by rw [e]; exact hx' i,
      h.mem x (fun v h3 h4 => hx v h3 (by omega)) hx']
  block b hb := by
    have e := h.block b fun v h3 h4 => hb v h3 (by omega)
    rw [h'.block b fun v h3 h4 => by rw [e]; exact hb v (by omega) h4, e]
  data := h'.data.trans h.data
  count := by
    have e : t.nswappedIn d mid hi = s.nswappedIn d mid hi :=
      nswappedIn_congr fun v h3 h4 => by rw [h.pte v (by omega), if_neg (by omega)]
    rw [h'.count, h.count, e, ← nswappedIn_add s d h1 h2]
    push_cast
    ring

/-- The blocks of a swapped page go back. -/
theorem one_swapped (hB : Base E g s) (hE : EntryOk g d v (s.pte d v))
    (hs : swapped (s.pte d v) = true) :
    bfreePage (PTE_ADDR (s.pte d v)) s = .ok ((), s.bfreed (PTE_ADDR (s.pte d v))) ∧
      Dealloced E g s d v (v + 1) (g.setGroup (PTE_ADDR (s.pte d v)) .free)
        (s.bfreed (PTE_ADDR (s.pte d v))) := by
  obtain ⟨happ, hB'⟩ := hB.bfreePage (hE.block hs)
  refine ⟨happ, hB', ⟨rfl, rfl, rfl, rfl⟩, rfl, fun v' hv' => ?_, fun _ _ => rfl, fun _ _ _ => rfl,
    fun b hb => ?_, rfl, ?_⟩
  · rw [if_neg]
    · rfl
    · rintro ⟨h1, h2, h3⟩
      obtain rfl : v' = v := by omega
      rw [hE.only h3] at hs
      cases hs
  · exact g.setGroup_not_mem _ fun hm => hb v le_rfl (by omega) (hE.block hs b hm)
  · rw [nswappedIn_succ, if_pos hs]
    rfl

/-- The frame of a present page goes back and its entry is cleared. -/
theorem one_present (hB : Base E g s) (hT : Tree g s d) (hv : v < 2 ^ 20)
    (hE : EntryOk g d v (s.pte d v)) (hp : present (s.pte d v) = true) :
    kfree E (PTE_ADDR (s.pte d v)) s = .ok ((), s.kfreed E (PTE_ADDR (s.pte d v))) ∧
      Dealloced E g s d v (v + 1) (g.setFrame (PTE_ADDR (s.pte d v)) .free)
        ((s.kfreed E (PTE_ADDR (s.pte d v))).setWord (s.ptr d v).1 (s.ptr d v).2 0#32) := by
  have htab := present_table_of_entry hp
  have hown := hE.frame hp
  obtain ⟨happ, hB'⟩ := hB.kfree (f := PTE_ADDR (s.pte d v)) (by rw [hown]; simp)
    (by rw [hown]; simp)
  have hne : (s.ptr d v).1 ≠ PTE_ADDR (s.pte d v) := fun e => by
    have := hT.tab _ htab
    rw [show PTE_ADDR (s.mem d (pdx v)) = PTE_ADDR (s.pte d v) from e, hown] at this
    cases this
  have hmem : ∀ x, x ≠ PTE_ADDR (s.pte d v) → x ≠ (s.ptr d v).1 →
      ((s.kfreed E (PTE_ADDR (s.pte d v))).setWord (s.ptr d v).1 (s.ptr d v).2 0#32).mem x =
        s.mem x := fun x h1 h2 => by
    simp [Kernel.kfreed, h1, h2]
  obtain ⟨hd, hpv, hpo⟩ := hT.store (F := {PTE_ADDR (s.pte d v)}) (w := 0#32) hv htab
    (t := (s.kfreed E (PTE_ADDR (s.pte d v))).setWord (s.ptr d v).1 (s.ptr d v).2 0#32)
    (by rintro x rfl; rw [hown]; exact ⟨by simp, by simp⟩) (fun x h1 h2 => hmem x h1 h2)
    (by
      rw [show PTE_ADDR (s.mem d (pdx v)) = (s.ptr d v).1 from rfl]
      simp only [Kernel.setWord_mem, Function.update_self, Kernel.kfreed, Kernel.setFrame_mem]
      rw [Function.update_of_ne hne]
      rfl)
  refine ⟨happ, hB'.congr_mem rfl rfl rfl, ⟨rfl, rfl, rfl, rfl⟩, hd, fun v' hv' => ?_,
    fun x hx => ?_, fun x hx hx' => ?_, fun _ _ => rfl, rfl, ?_⟩
  · by_cases hvv : v' = v
    · subst hvv
      rw [hpv, if_pos ⟨le_rfl, by omega, hp⟩]
    · rw [hpo v' hv' hvv, if_neg (by omega)]
  · exact g.setFrame_of_ne _ (by rintro rfl; exact hx v le_rfl (by omega) hown)
  · refine hmem x (by rintro rfl; exact hx v le_rfl (by omega) hown) fun e => ?_
    exact hx' _ (by rw [e]; exact hT.tab _ htab)
  · rw [nswappedIn_succ, if_neg (by rw [hE.only hp]; simp)]
    simp [Kernel.kfreed]

theorem tree (h : Dealloced E g s d lo hi g' t) (hT : Tree g s d) : Tree g' t d where
  dir := by rw [h.frame d fun v _ _ => by rw [hT.dir]; simp, hT.dir]
  tab i hi := by
    rw [h.dir] at hi ⊢
    have e := hT.tab i hi
    rw [h.frame _ fun v _ _ => by rw [e]; simp, e]

theorem entryOk (h : Dealloced E g s d lo hi g' t) {v : ℕ} (hv : v < 2 ^ 20)
    (hr : v < lo ∨ hi ≤ v ∨ swapped (s.pte d v) = false) (hE : EntryOk g d v (s.pte d v)) :
    EntryOk g' d v (t.pte d v) := by
  rw [h.pte v hv]
  split_ifs with hc
  · exact ⟨by simp, by simp, by simp, by simp⟩
  · refine ⟨fun hp => ?_, hE.only, hE.write, fun hs b hb => ?_⟩
    · have e := hE.frame hp
      rw [h.frame _ fun v' h1 h2 he => hc ?_, e]
      rw [e] at he
      injection he with _ he
      exact ⟨by omega, by omega, hp⟩
    · have e := hE.block hs b hb
      rw [h.block _ fun v' h1 h2 he => ?_, e]
      rw [e] at he
      injection he with _ he
      rw [hs] at hr
      simp only [Bool.true_eq_false, or_false] at hr
      omega

/-- Without swapped pages in the range the address space stays well formed. -/
theorem space (h : Dealloced E g s d lo hi g' t) (hS : Space g s d Set.univ) (hu : hi ≤ UVPN)
    (hs : ∀ v, lo ≤ v → v < hi → swapped (s.pte d v) = false) : Space g' t d Set.univ where
  toTree := h.tree hS.toTree
  entry v hv _ := by
    refine h.entryOk (hv.trans (by decide)) ?_ (hS.entry v hv trivial)
    by_cases h1 : lo ≤ v ∧ v < hi
    · exact .inr (.inr (hs v h1.1 h1.2))
    · omega
  kern v hv hlt := by
    rw [h.pte v hlt, if_neg (by omega)]
    exact hS.kern v hv hlt

theorem keeps (h : Dealloced E g s d lo hi g' t) : Keeps {d} g s g' t where
  frame x hx := h.frame x fun v _ _ e => by rw [e] at hx; exact hx rfl
  mem x hx := h.mem x (fun v _ _ e => by rw [e] at hx; exact hx rfl)
    fun i e => by rw [e] at hx; exact hx rfl
  block b hb := h.block b fun v _ _ e => by rw [e] at hb; exact hb rfl
  data b _ := by rw [h.data]

end Dealloced

theorem le_nextTable (v : ℕ) : v + 1 ≤ nextTable v := by
  simp only [nextTable]; omega

theorem pdx_of_lt_nextTable {v w : ℕ} (h1 : v ≤ w) (h2 : w < nextTable v) : pdx w = pdx v := by
  simp only [nextTable] at h2
  simp only [pdx, Fin.mk.injEq]
  omega

theorem deallocuvmLoop_spec (fuel v : ℕ) (hB : Base E g s) (hT : Tree g s d) (hle : hi ≤ fuel + v)
    (hu : hi ≤ UVPN) (hE : ∀ w, v ≤ w → w < hi → EntryOk g d w (s.pte d w)) :
    wp (deallocuvmLoop E d hi fuel v) (fun _ t => ∃ g', Dealloced E g s d v hi g' t) s := by
  induction fuel generalizing v g s with
  | zero =>
    rw [deallocuvmLoop, wp_pure]
    exact ⟨g, .refl hB d (by omega)⟩
  | succ fuel ih =>
    have hi20 : hi ≤ 2 ^ 20 := hu.trans (by decide)
    -- one page is done and the loop goes on from a state with entries as before
    have next : ∀ {g1 : Ghost} {t : Kernel}, v < hi → Dealloced E g s d v (v + 1) g1 t →
        wp (deallocuvmLoop E d hi fuel (v + 1)) (fun _ u => ∃ g', Dealloced E g s d v hi g' u) t := by
      intro g1 t hv h1
      refine wp_mono (ih (v + 1) h1.base (h1.tree hT) (by omega) ?_) ?_
      · intro w hw hw'
        exact h1.entryOk (by omega) (.inr (.inl hw)) (hE w (by omega) hw')
      · rintro - u ⟨g', h2⟩
        exact ⟨g', h1.trans (by omega) (by omega) hi20 h2⟩
    rw [deallocuvmLoop]
    split_ifs with hv
    swap
    · rw [wp_pure]
      exact ⟨g, .refl hB d (by omega)⟩
    rw [wp_bind, wp_get]
    by_cases ht : present (s.mem d (pdx v)) = true
    · simp only [Kernel.lookup_of_present ht, wp_bind, readPte, wp_get, wp_pure, Kernel.mem_ptr ht]
      have hEv := hE v le_rfl hv
      split_ifs with hs hp h0
      · obtain ⟨happ, h1⟩ := Dealloced.one_swapped hB hEv hs
        rw [wp_bind]
        exact wp_of_eq happ (next hv h1)
      · simp
      · obtain ⟨happ, h1⟩ := Dealloced.one_present hB hT (by omega) hEv hp
        rw [wp_bind]
        refine wp_of_eq happ ?_
        rw [wp_bind, writePte, wp_modify]
        exact next hv h1
      · refine next hv ⟨hB, .refl s, rfl, fun w hw => ?_, fun _ _ => rfl, fun _ _ _ => rfl,
          fun _ _ => rfl, rfl, ?_⟩
        · rw [if_neg]
          rintro ⟨h1, h2, h3⟩
          obtain rfl : w = v := by omega
          exact hp h3
        · rw [nswappedIn_succ, if_neg hs]
          simp
    · rw [Kernel.lookup_page, if_neg ht]
      have hlt := le_nextTable v
      have hskip : Dealloced E g s d v (min (nextTable v) hi) g s := Dealloced.skip hB fun w h1 h2 => by
        refine Kernel.pte_of_not_present ?_
        rw [pdx_of_lt_nextTable h1 (by omega)]
        simpa using ht
      refine wp_mono (ih (nextTable v) hB hT (by omega)
        fun w h1 h2 => hE w (by omega) h2) ?_
      rintro - u ⟨g', h2⟩
      refine ⟨g', ?_⟩
      rcases Nat.le_total (nextTable v) hi with hn | hn
      · rw [min_eq_left hn] at hskip
        exact hskip.trans (by omega) hn hi20 h2
      · rw [min_eq_right hn] at hskip
        refine hskip.trans hv.le le_rfl hi20 ?_
        exact ⟨h2.base, h2.proc, h2.dir, fun w hw => by
            rw [h2.pte w hw, if_neg (by omega), if_neg (by omega)],
          fun x _ => h2.frame x fun w _ _ => by omega,
          fun x _ hx => h2.mem x (fun w _ _ => by omega) hx,
          fun b _ => h2.block b fun w _ _ => by omega, h2.data, by
            rw [h2.count, nswappedIn_self, Kernel.nswappedIn, Finset.Ico_eq_empty_of_le hn]
            simp⟩

theorem npages_zero : npages 0 = 0 := rfl
theorem npages_mono {a b : ℕ} (h : a ≤ b) : npages a ≤ npages b := by
  simp only [npages, PGSIZE]; omega

theorem deallocuvm_spec {oldsz newsz : ℕ} (hB : Base E g s) (hT : Tree g s d)
    (h : oldsz ≤ KERNBASE)
    (hE : ∀ w, npages newsz ≤ w → w < npages oldsz → EntryOk g d w (s.pte d w)) :
    wp (deallocuvm E d oldsz newsz)
      (fun _ t => ∃ g', Dealloced E g s d (npages newsz) (npages oldsz) g' t) s := by
  have hu : npages oldsz ≤ UVPN := npages_le h
  rw [deallocuvm]
  split_ifs with hle
  · rw [wp_pure]
    exact ⟨g, .refl hB d (npages_mono hle)⟩
  · rw [wp_bind]
    refine wp_mono (deallocuvmLoop_spec _ _ hB hT (by omega) hu hE) ?_
    rintro - t ht
    rw [wp_pure]
    exact ht

/-! ### Freeing a whole address space -/

/-- Page tables of `d` have been freed; nothing else changes. -/
structure FreedTables (E : Env) (g : Ghost) (s : Kernel) (d : ℕ) (g' : Ghost) (t : Kernel) :
    Prop where
  base : Base E g' t
  proc : SameProc s t
  disk : SameDisk s t
  frame : ∀ x, (∀ i, g.frame x ≠ .tab d i) → g'.frame x = g.frame x ∧ t.mem x = s.mem x
  block : g'.block = g.block

theorem freeTables_spec (is : List (Fin 1024)) (hn : is.Nodup) (hB : Base E g s)
    (hd : g.frame d = .dir d)
    (htab : ∀ i ∈ is, present (s.mem d i) = true → g.frame (PTE_ADDR (s.mem d i)) = .tab d i) :
    wp (freeTables E d is) (fun _ t => ∃ g', FreedTables E g s d g' t) s := by
  induction is generalizing g s with
  | nil =>
    rw [freeTables, wp_pure]
    exact ⟨g, hB, .refl s, .refl s, fun _ _ => ⟨rfl, rfl⟩, rfl⟩
  | cons i is ih =>
    rw [List.nodup_cons] at hn
    rw [freeTables, wp_bind, wp_get]
    split_ifs with hp
    · have hown := htab i (by simp) hp
      obtain ⟨happ, hB'⟩ := hB.kfree (f := PTE_ADDR (s.mem d i)) (by rw [hown]; simp)
        (by rw [hown]; simp)
      have hdf : d ≠ PTE_ADDR (s.mem d i) := fun e => by rw [← e, hd] at hown; cases hown
      have hmemd : (s.kfreed E (PTE_ADDR (s.mem d i))).mem d = s.mem d := by
        simp [Kernel.kfreed, hdf]
      rw [wp_bind]
      refine wp_of_eq happ (wp_mono (ih hn.2 hB'
        (by rw [g.setFrame_of_ne _ hdf, hd]) fun j hj hpj => ?_) ?_)
      · rw [hmemd] at hpj ⊢
        have e := htab j (by simp [hj]) hpj
        have hji : j ≠ i := by rintro rfl; exact hn.1 hj
        rw [g.setFrame_of_ne _ (fun e' => by
          rw [e', hown] at e
          injection e with _ e
          exact hji e.symm), e]
      · rintro - t ⟨g', h⟩
        refine ⟨g', h.base, ⟨h.proc.proc, h.proc.kpgdir, h.proc.initproc, h.proc.nextpid⟩,
          ⟨h.disk.bit, h.disk.block, h.disk.files, h.disk.count⟩, fun x hx => ?_, h.block⟩
        have hxf : x ≠ PTE_ADDR (s.mem d i) := by rintro rfl; exact hx i hown
        obtain ⟨h1, h2⟩ := h.frame x fun j => by rw [g.setFrame_of_ne _ hxf]; exact hx j
        rw [h1, h2, g.setFrame_of_ne _ hxf]
        simp [Kernel.kfreed, hxf]
    · exact ih hn.2 hB hd fun j hj => htab j (by simp [hj])

/-- The address space `d` is gone. -/
structure Freed (E : Env) (g : Ghost) (s : Kernel) (d : ℕ) (g' : Ghost) (t : Kernel) : Prop where
  base : Base E g' t
  proc : SameProc s t
  keeps : Keeps {d} g s g' t
  loose : ∀ x, g.frame x = .loose → g'.frame x = .loose ∧ t.mem x = s.mem x
  count : t.numallocblocks = s.numallocblocks - s.nswapped d

theorem freevm_spec (hB : Base E g s) (hS : Space g s d Set.univ) :
    wp (freevm E d) (fun _ t => ∃ g', Freed E g s d g' t) s := by
  rw [freevm]
  split_ifs with h0
  · simp
  rw [wp_bind]
  refine wp_mono (deallocuvm_spec hB hS.toTree le_rfl fun w _ hw => hS.entry w hw trivial) ?_
  rintro - t1 ⟨g1, h1⟩
  have hT1 := h1.tree hS.toTree
  rw [wp_bind]
  refine wp_mono (freeTables_spec _ (List.nodup_finRange 1024) h1.base hT1.dir
    fun i _ => hT1.tab i) ?_
  rintro - t2 ⟨g2, h2⟩
  have hd2 : g2.frame d = .dir d := by
    rw [(h2.frame d fun i => by rw [hT1.dir]; simp).1, hT1.dir]
  obtain ⟨happ, hB3⟩ := h2.base.kfree (f := d) (by rw [hd2]; simp) (by rw [hd2]; simp)
  refine wp_of_eq happ ⟨g2.setFrame d .free, hB3, ?_, ⟨fun x hx => ?_, fun x hx => ?_, fun b hb => ?_,
    fun b hb => ?_⟩, fun x hx => ?_, ?_⟩
  · exact h1.proc.trans (h2.proc.trans ⟨rfl, rfl, rfl, rfl⟩)
  · have hxd : x ≠ d := by rintro rfl; rw [hS.dir] at hx; exact hx rfl
    have e1 := h1.keeps.frame x hx
    rw [g2.setFrame_of_ne _ hxd, (h2.frame x fun i e => by
      rw [← e1, e] at hx; exact hx rfl).1, e1]
  · have hxd : x ≠ d := by rintro rfl; rw [hS.dir] at hx; exact hx rfl
    have e1 := h1.keeps.frame x hx
    rw [← h1.keeps.mem x hx, ← (h2.frame x fun i e => by rw [← e1, e] at hx; exact hx rfl).2]
    simp [Kernel.kfreed, hxd]
  · rw [Ghost.setFrame_block, h2.block, h1.keeps.block b hb]
  · change t2.block b = s.block b
    rw [h2.disk.block, h1.data]
  · have hxd : x ≠ d := by rintro rfl; rw [hS.dir] at hx; cases hx
    have e1 := h1.frame x fun v _ _ => by rw [hx]; simp
    obtain ⟨e2, e3⟩ := h2.frame x fun i => by rw [e1, hx]; simp
    have e4 := h1.mem x (fun v _ _ => by rw [hx]; simp) fun i => by rw [hx]; simp
    refine ⟨by rw [g2.setFrame_of_ne _ hxd, e2, e1, hx], ?_⟩
    rw [← e4, ← e3]
    simp [Kernel.kfreed, hxd]
  · change t2.numallocblocks = _
    rw [h2.disk.count, h1.count]
    rfl

end Xv6Lab.Paging
