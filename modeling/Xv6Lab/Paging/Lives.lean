import Xv6Lab.Paging.CopySpec
import Xv6Lab.Paging.Invariant
import Xv6Lab.Paging.Null

/-! Operations that an address space lives through. `Lives` says that the pages of
`d` hold what they held, that every other address space and every kernel stack is
untouched, and that the counter of swapped pages has moved with the swapped pages
of `d`. -/

namespace Xv6Lab.Paging

open Lib

variable {E : Env} {g g' g'' : Ghost} {s t u : Kernel} {c d v m pid : ℕ} {D D' : Set ℕ}

/-- Address spaces outside `D` and kernel stacks are untouched. -/
structure Leaves (D : Set ℕ) (g : Ghost) (s : Kernel) (g' : Ghost) (t : Kernel) : Prop where
  tree : ∀ d, d ∉ D → Tree g s d → Tree g' t d ∧ t.mem d = s.mem d ∧ ∀ v, t.pte d v = s.pte d v
  space : ∀ d, d ∉ D → Space g s d Set.univ →
    Space g' t d Set.univ ∧ ∀ v < UVPN, t.content d v = s.content d v
  kstack : ∀ x p, g.frame x = .kstack p → g'.frame x = .kstack p

theorem Keeps.leaves (h : Keeps D g s g' t) : Leaves D g s g' t where
  tree _ hd hT := hT.keeps h hd
  space _ hd hS := ⟨(hS.keeps h hd).1, fun v hv => (hS.keeps h hd).2 v hv trivial⟩
  kstack x p hx := by rw [h.frame x (by rw [hx]; trivial), hx]

namespace Leaves

theorem refl (D : Set ℕ) (g : Ghost) (s : Kernel) : Leaves D g s g s := (Keeps.refl D g s).leaves

theorem trans (h : Leaves D g s g' t) (h' : Leaves D g' t g'' u) : Leaves D g s g'' u where
  tree d hd hT := by
    obtain ⟨h1, h2, h3⟩ := h.tree d hd hT
    obtain ⟨h4, h5, h6⟩ := h'.tree d hd h1
    exact ⟨h4, h5.trans h2, fun v => (h6 v).trans (h3 v)⟩
  space d hd hS := by
    obtain ⟨h1, h2⟩ := h.space d hd hS
    obtain ⟨h3, h4⟩ := h'.space d hd h1
    exact ⟨h3, fun v hv => (h4 v hv).trans (h2 v hv)⟩
  kstack x p hx := h'.kstack x p (h.kstack x p hx)

/-- Address spaces that were free frames at the start need not be listed. -/
theorem drop (h : Leaves D g s g' t) (hD : ∀ x ∈ D, x ∈ D' ∨ g.frame x = .free) :
    Leaves D' g s g' t where
  tree d hd hT := h.tree d (fun hx => (hD d hx).elim hd fun hf => by
    rw [hT.dir] at hf; cases hf) hT
  space d hd hS := h.space d (fun hx => (hD d hx).elim hd fun hf => by
    rw [hS.dir] at hf; cases hf) hS
  kstack := h.kstack

theorem mono (h : Leaves D g s g' t) (hD : D ⊆ D') : Leaves D' g s g' t :=
  h.drop fun _ hx => .inl (hD hx)

end Leaves

/-- The address space `d` lives through the operation. -/
structure Lives (E : Env) (g : Ghost) (s : Kernel) (d : ℕ) (g' : Ghost) (t : Kernel) : Prop where
  base : Base E g' t
  proc : SameProc s t
  leaves : Leaves {d} g s g' t
  space : Space g' t d Set.univ
  content : ∀ v < UVPN, t.content d v = s.content d v
  guard : ∀ v < UVPN, present (t.pte d v) = true → user (t.pte d v) = false →
    t.pte d v = s.pte d v
  balance : t.numallocblocks - t.nswapped d = s.numallocblocks - s.nswapped d

theorem Evolved.lives (h : Evolved E g s d g' t) : Lives E g s d g' t :=
  ⟨h.base, h.proc, h.keeps.leaves, h.space, h.content, h.guard, h.balance⟩

namespace Lives

theorem refl (hB : Base E g s) (hS : Space g s d Set.univ) : Lives E g s d g s :=
  (Evolved.refl hB hS).lives

theorem trans (h : Lives E g s d g' t) (h' : Lives E g' t d g'' u) : Lives E g s d g'' u where
  base := h'.base
  proc := h.proc.trans h'.proc
  leaves := h.leaves.trans h'.leaves
  space := h'.space
  content v hv := by rw [h'.content v hv, h.content v hv]
  guard v hv hp hu := by
    have e := h'.guard v hv hp hu
    rw [e] at hp hu ⊢
    exact h.guard v hv hp hu
  balance := h'.balance.trans h.balance

theorem of_stopAtNull (h : Lives E.stopAtNull g s d g' t) : Lives E g s d g' t :=
  ⟨h.base.of_stopAtNull, h.proc, h.leaves, h.space, h.content, h.guard, h.balance⟩

end Lives

/-- The address space `d` lives on, and no page but `v` holds something else. -/
structure Touches (E : Env) (g : Ghost) (s : Kernel) (d v : ℕ) (g' : Ghost) (t : Kernel) :
    Prop where
  base : Base E g' t
  proc : SameProc s t
  leaves : Leaves {d} g s g' t
  space : Space g' t d Set.univ
  content : ∀ w < UVPN, w ≠ v → t.content d w = s.content d w
  balance : t.numallocblocks - t.nswapped d = s.numallocblocks - s.nswapped d

theorem Lives.touches (h : Lives E g s d g' t) (v : ℕ) : Touches E g s d v g' t :=
  ⟨h.base, h.proc, h.leaves, h.space, fun w hw _ => h.content w hw, h.balance⟩

/-! ### The operations -/

/-- A change to another address space only, with the counter as it was. -/
theorem Lives.of_other (hB : Base E g' t) (hP : SameProc s t) (hL : Leaves D g s g' t) (hd : d ∉ D)
    (hD : ∀ x ∈ D, g.frame x = .free) (hS : Space g s d Set.univ)
    (hn : t.numallocblocks = s.numallocblocks) : Lives E g s d g' t := by
  obtain ⟨hS', hcont⟩ := hL.space d hd hS
  obtain ⟨-, -, hpte⟩ := hL.tree d hd hS.toTree
  refine ⟨hB, hP, hL.drop fun x hx => .inr (hD x hx), hS', hcont, fun v _ _ _ => hpte v, ?_⟩
  have hns : t.nswapped d = s.nswapped d := nswapped_congr fun v _ => by rw [hpte]
  rw [hn, hns]

theorem FileStep.keeps (h : FileStep E g s g' t) : Keeps ∅ g s g' t where
  frame x _ := by rw [h.frame]
  mem x _ := by rw [h.mem.mem]
  block b hb := by
    cases hg : g.block b with
    | swap d v => exact (h.swap b d v hg).1
    | _ => rw [hg] at hb; simp [BOwner.Stays] at hb
  data b hb := by
    cases hg : g.block b with
    | swap d v => exact (h.swap b d v hg).2
    | _ => rw [hg] at hb; simp [BOwner.Stays] at hb

theorem FileStep.lives (h : FileStep E g s g' t) (hS : Space g s d Set.univ) :
    Lives E g s d g' t :=
  .of_other h.base h.mem.toSameProc h.keeps.leaves (Set.notMem_empty d) (by simp) hS h.count

/-- A fault at a missing page, or where there is no page table. -/
theorem mapAddress_lives (hst : E.strict = true) (hB : Base E g s) (hS : Space g s d Set.univ)
    {addr : ℕ} (ha : addr < 2 ^ 32)
    (hu : addr / PGSIZE < UVPN ∨ present (s.mem d (pdx (addr / PGSIZE))) = false)
    (hc : present (s.pte d (addr / PGSIZE)) = true →
      s.content d (addr / PGSIZE) = fun _ => 0#32) :
    wp (mapAddress E d addr pid) (fun _ t => ∃ g', Lives E g s d g' t) s := by
  refine wp_mono (mapAddress_spec hB hS (.inl hst) ha pid) ?_
  rintro - u ⟨m, g1, t, h1, ⟨-, rfl⟩ | ⟨ht, g2, h2⟩⟩
  · exact ⟨g1, h1.evolved.lives⟩
  · have hv : addr / PGSIZE < UVPN := hu.resolve_right (by rw [ht]; simp)
    refine ⟨g2, h1.evolved.lives.trans (h2.evolved h1.space hv fun hp => ?_).lives⟩
    rw [h1.content _ hv]
    rcases h1.entry _ (hv.trans (by decide)) with e | ⟨-, hvic, -⟩
    · rw [e] at hp; exact hc hp
    · exact hc hvic.present

theorem mapAddress_touches (hst : E.strict = true) (hB : Base E g s) (hS : Space g s d Set.univ)
    {addr : ℕ} (ha : addr < 2 ^ 32)
    (hu : addr / PGSIZE < UVPN ∨ present (s.mem d (pdx (addr / PGSIZE))) = false) :
    wp (mapAddress E d addr pid)
      (fun _ t => ∃ g', Touches E g s d (addr / PGSIZE) g' t) s := by
  refine wp_mono (mapAddress_spec hB hS (.inl hst) ha pid) ?_
  rintro - u ⟨m, g1, t, h1, ⟨-, rfl⟩ | ⟨ht, g2, h2⟩⟩
  · exact ⟨g1, h1.base, h1.proc, h1.keeps.leaves, h1.space, fun w hw _ => h1.content w hw, h1.balance⟩
  · have hv : addr / PGSIZE < UVPN := hu.resolve_right (by rw [ht]; simp)
    exact ⟨g2, h2.base, h1.proc.trans h2.proc,
      h1.keeps.leaves.trans (h2.store.keeps h1.space.toTree).leaves, h2.space h1.space hv,
      fun w hw hne => by rw [h2.store.content h1.space hw trivial hne, h1.content w hw],
      h2.balance.trans h1.balance⟩

/-- A new page table changes no entry. -/
theorem Walked.lives (h : Walked E g s d v g' t) (hS : Space g s d Set.univ) :
    Lives E g s d g' t := by
  refine ⟨h.base, h.proc, (h.keeps hS.toTree).leaves, h.space hS,
    fun w hw => h.content hS hw trivial, fun w hw _ _ => h.pte w (hw.trans (by decide)), ?_⟩
  rw [h.disk.count, h.nswapped]

theorem SwappedOut.lives {b : ℕ} (h : SwappedOut E g s d v b g' t) (hS : Space g s d Set.univ)
    (hv : v < UVPN) (hp : present (s.pte d v) = true) : Lives E g s d g' t := by
  refine ⟨h.base, h.proc, (h.keeps hS.toTree).leaves, h.space hS hv,
    fun w hw => h.content hS hp hw, fun w hw hpw _ => ?_, h.balance hS hv hp⟩
  obtain ⟨-, hpv, hpo⟩ := h.store.entries hS.toTree
  by_cases hne : w = v
  · subst hne
    rw [hpv, present_swappedPte] at hpw
    cases hpw
  · exact hpo w (hw.trans (by decide)) hne

theorem swapPage_lives (hst : E.strict = true) (hB : Base E g s) (hS : Space g s d Set.univ) :
    wp (swapPage E d pid) (fun _ t => ∃ g', Lives E g s d g' t) s := by
  refine wp_mono (swapPage_spec hB hS (.inl hst) pid) ?_
  rintro - t ⟨v, b, g', hv, h⟩
  exact ⟨g', h.lives hS hv.lt hv.present⟩

/-- `walkpgdir` for any address of the page. -/
theorem walkpgdir_va (va : ℕ) (alloc : Bool) :
    walkpgdir E d va alloc = walkpgdir E d (va / PGSIZE * PGSIZE) alloc := by
  rw [walkpgdir, walkpgdir, PDX_eq, PTX_eq, PDX_eq (va / PGSIZE * PGSIZE),
    PTX_eq (va / PGSIZE * PGSIZE), page_mul]
  simp only [Kernel.lookup_va, page_mul]

/-- Where a present entry at the address is one of a user page, the kernel half stays. -/
theorem sysSwap_lives (hst : E.strict = true) (hB : Base E g s) {p : Slot}
    (hS : Space g s (s.dir p) Set.univ) {addr : ℕ} (ha : addr < 2 ^ 32)
    (hk : present (s.pte (s.dir p) (addr / PGSIZE)) = true → addr < KERNBASE) :
    wp (sysSwap E p addr) (fun _ t => ∃ g', Lives E g s (s.dir p) g' t ∧
      ∀ v, UVPN ≤ v → v < 2 ^ 20 → t.pte (s.dir p) v = s.pte (s.dir p) v) s := by
  have hv20 : addr / PGSIZE < 2 ^ 20 := by
    simp only [PGSIZE]
    omega
  simp only [sysSwap, wp_bind, wp_get]
  rw [show (s.proc p).pgdir = s.dir p from rfl, walkpgdir_va]
  rcases walkpgdir_cases hB hS.toTree (addr / PGSIZE) with ⟨-, -, hw⟩ | ⟨g1, t1, hW, hw⟩
  · refine wp_of_eq hw ?_
    rw [sysSwapLoad, wp_bind, wp_get]
    simp [hst, loadPte]
  · refine wp_of_eq hw ?_
    have hS1 := hW.space hS
    simp only [sysSwapLoad, wp_bind, readPte, wp_get, wp_pure, Kernel.mem_ptr hW.table]
    split_ifs with hp
    · have hv : addr / PGSIZE < UVPN := by
        have := hk (by rwa [← hW.pte _ hv20])
        simp only [UVPN, PGSIZE, KERNBASE] at this ⊢
        omega
      have hown := (hS1.entry _ hv trivial).frame hp
      refine wp_mono (swapPageFromPte_spec hW.base hS1.toTree hv20 hp hown _ _) ?_
      rintro - t2 ⟨b, g2, h2⟩
      refine ⟨g2, (hW.lives hS).trans (h2.lives hS1 hv hp), fun v h1 h2' => ?_⟩
      obtain ⟨-, -, hother⟩ := h2.store.entries hS1.toTree
      rw [hother v h2' (by omega), hW.pte v h2']
    · rw [wp_pure]
      exact ⟨g1, hW.lives hS, fun v _ h2 => hW.pte v h2⟩

/-! ### `copyuvm` for `fork` -/

/-- A child of `d` with an address space `c` of its own and no swapped page. -/
structure Child (E : Env) (g : Ghost) (c : ℕ) (g' : Ghost) (t : Kernel) : Prop where
  old : g.frame c = .free
  space : Space g' t c Set.univ
  noswap : t.nswapped c = 0

theorem nswapped_eq_zero (h : ∀ v < UVPN, swapped (s.pte d v) = false) : s.nswapped d = 0 := by
  rw [Kernel.nswapped, Kernel.nswappedIn, Finset.card_eq_zero, Finset.filter_eq_empty_iff]
  intro v hv
  rw [h v (Finset.mem_Ico.1 hv).2]
  simp

theorem copyuvm_lives (hst : E.strict = true) (hB : Base E g s) (hS : Space g s d Set.univ) {sz : ℕ}
    (hsz : sz ≤ KERNBASE) :
    wp (copyuvm E d sz pid) (fun r t => ∃ g', Lives E g s d g' t ∧
      ∀ c, r = some c → Child E g c g' t) s := by
  rw [copyuvm, wp_bind]
  refine wp_mono (setupkvm_spec hB) ?_
  rintro (- | c) t1 h1
  · rw [wp_pure]
    rcases h1 with rfl | ⟨c, g', h⟩
    · exact ⟨g, .refl hB hS, by simp⟩
    · refine ⟨g', .of_other h.base h.proc h.keeps.leaves (fun e => ?_) ?_ hS h.count, by simp⟩
      · have := h.old
        rw [← show d = c from e, hS.dir] at this
        cases this
      · rintro x rfl
        exact h.old
  · obtain ⟨g1, hN⟩ := h1
    obtain ⟨hcd, hS1, hpte1, hcont1⟩ := hN.copying hS
    have hu : 0 + npages sz ≤ UVPN := by rw [Nat.zero_add]; exact npages_le hsz
    simp only [wp_bind]
    refine wp_mono (copyuvmLoop_spec hst hcd pid _ _ hN.base hS1 hN.space hu) ?_
    rintro b t2 ⟨g2, h2⟩
    have hns1 : t1.nswapped d = s.nswapped d := nswapped_congr fun v _ => by rw [hpte1]
    have hnsc : t2.nswapped c = 0 := nswapped_eq_zero (h2.noswap fun v hv => by
      rw [hN.empty hv]; decide)
    have hleaves : Leaves {d} g s g2 t2 :=
      ((hN.keeps.leaves.mono (Set.empty_subset _)).trans h2.keeps.leaves).drop fun x hx => by
        rcases hx with rfl | rfl
        · exact .inl rfl
        · exact .inr hN.old
    have hlives : Lives E g s d g2 t2 := by
      refine ⟨h2.base, hN.proc.trans h2.proc, hleaves, h2.parent, fun v hv => ?_, fun v hv hp hu => ?_,
        ?_⟩
      · rw [h2.content v hv, hcont1 v hv]
      · rw [h2.guard v hv hp hu, hpte1]
      · rw [h2.balance, hN.disk.count, hns1]
    split_ifs
    · rw [wp_pure]
      refine ⟨g2, hlives, ?_⟩
      rintro _ ⟨⟩
      exact ⟨hN.old, h2.child, hnsc⟩
    · rw [wp_bind]
      refine wp_mono (freevm_spec h2.base h2.child) ?_
      rintro - t3 ⟨g3, h3⟩
      rw [wp_pure]
      have hdc : d ∉ ({c} : Set ℕ) := by simpa using hcd.symm
      obtain ⟨hS3, hcont3⟩ := h3.keeps.leaves.space d hdc h2.parent
      obtain ⟨-, -, hpte3⟩ := h3.keeps.leaves.tree d hdc h2.parent.toTree
      have hns3 : t3.nswapped d = t2.nswapped d := nswapped_congr fun v _ => by rw [hpte3]
      refine ⟨g3, ⟨h3.base, hlives.proc.trans h3.proc, ?_, hS3, fun v hv => ?_, fun v hv hp hu => ?_,
        ?_⟩, by simp⟩
      · refine ((hleaves.mono (mem_pair_left d c)).trans
          (h3.keeps.leaves.mono (mem_pair_right d c))).drop fun x hx => ?_
        rcases hx with rfl | rfl
        · exact .inl rfl
        · exact .inr hN.old
      · rw [hcont3 v hv, hlives.content v hv]
      · rw [hpte3] at hp hu ⊢
        exact hlives.guard v hv hp hu
      · rw [h3.count, hnsc, hns3]
        simpa using hlives.balance

end Xv6Lab.Paging
