import Xv6Lab.Paging.KvmSpec

/-! Copying an address space. A round of the loop brings the page of the parent
back from disk, finds a frame for the copy, and copies. Finding the frame may
evict a page of the parent, the one being copied included: its frame then is the
one that `kalloc` hands out next. -/

namespace Xv6Lab.Paging

open Lib

variable {E : Env} {g g' g'' : Ghost} {s t u : Kernel} {c d v m : ℕ}

theorem Victim.unique {w : ℕ} (h : Victim s d v) (h' : Victim s d w) : v = w := by
  by_contra hne
  rcases Nat.lt_or_gt_of_ne hne with hlt | hlt
  · have := h'.first v h.pos hlt
    rw [h.present] at this; cases this
  · have := h.first w h'.pos hlt
    rw [h'.present] at this; cases this

/-- The victim is the page whose entry `select_a_victim` returns. -/
theorem selectAVictim_eq_iff (hT : Tree g s d) (hv : v < 2 ^ 20)
    (ht : present (s.mem d (pdx v)) = true) :
    s.selectAVictim d = some (s.ptr d v) ↔ Victim s d v := by
  constructor
  · intro h
    obtain ⟨w, hw, he⟩ := selectAVictim_some h
    have htw := present_table_of_entry hw.present
    obtain ⟨h1, h2⟩ := Prod.mk.inj he
    have hown := hT.tab _ htw
    rw [← h1, hT.tab _ ht] at hown
    injection hown with _ hpd
    rw [page_eq_of_index hv (hw.lt.trans (by decide)) hpd h2]
    exact hw
  · intro h
    cases hs : s.selectAVictim d with
    | none =>
      have := selectAVictim_none hs h.pos h.lt
      rw [h.present] at this; cases this
    | some p =>
      obtain ⟨w, hw, rfl⟩ := selectAVictim_some hs
      rw [h.unique hw]

/-- A loose frame belongs to no address space, so its contents are free. -/
theorem Keeps.setFrame {D : Set ℕ} (hm : g.frame m = .loose) (pg : Page) :
    Keeps D g s g (s.setFrame m pg) where
  frame _ _ := rfl
  mem x hx := by
    have hxm : x ≠ m := by rintro rfl; rw [hm] at hx; exact hx
    simp [hxm]
  block _ _ := rfl
  data _ _ := rfl

theorem Base.stopAtNull (h : Base E g s) : Base E.stopAtNull g s :=
  ⟨h.nodup, h.free, h.range, h.used, h.files, h.filesNodup, h.sys⟩

theorem Base.of_stopAtNull (h : Base E.stopAtNull g s) : Base E g s :=
  ⟨h.nodup, h.free, h.range, h.used, h.files, h.filesNodup, h.sys⟩

theorem NewSpace.copying (h : NewSpace E g s c g' t) (hS : Space g s d Set.univ) :
    c ≠ d ∧ Space g' t d Set.univ ∧ (∀ v, t.pte d v = s.pte d v) ∧
      ∀ v < UVPN, t.content d v = s.content d v := by
  obtain ⟨hS', hcont⟩ := hS.keeps h.keeps (Set.notMem_empty d)
  obtain ⟨-, -, hpte⟩ := hS.toTree.keeps h.keeps (Set.notMem_empty d)
  refine ⟨?_, hS', hpte, fun v hv => hcont v hv trivial⟩
  rintro rfl
  have := h.old
  rw [hS.dir] at this
  cases this

/-! ### The parent's page comes back -/

/-- Either the page is in memory, or it comes from its swap blocks into the frame supplied. -/
theorem copyBring_cases (hst : E.strict = true) (hB : Base E g s) (hS : Space g s d Set.univ)
    (hv : v < UVPN) (pid : ℕ) :
    wp (copyBring E d pid v) (fun p t => p = s.ptr d v ∧ present (s.mem d (pdx v)) = true ∧
      (swapped (s.pte d v) = false ∧ t = s ∨ swapped (s.pte d v) = true ∧ ∃ m g1 t1 g2,
        Supplied E g s d m g1 t1 ∧ t1.pte d v = s.pte d v ∧ SwappedIn E g1 t1 d v m g2 t)) s := by
  simp only [copyBring, wp_bind, wp_get]
  by_cases ht : present (s.mem d (pdx v)) = true
  swap
  · rw [Kernel.lookup_page, if_neg ht, wp_throw]
    trivial
  simp only [Kernel.lookup_of_present ht, wp_bind, readPte, wp_get, wp_pure, Kernel.mem_ptr ht]
  split_ifs with hs
  · simp only [wp_bind]
    refine wp_mono (kallocOrSwap_spec hB hS (.inl hst) pid) ?_
    rintro m t1 ⟨g1, h1⟩
    have hpte1 : t1.pte d v = s.pte d v := by
      rcases h1.entry v (hv.trans (by decide)) with e | ⟨-, hvic, -⟩
      · exact e
      · rw [(hS.entry v hv trivial).only hvic.present] at hs; cases hs
    have hptr1 : t1.ptr d v = s.ptr d v := by rw [Kernel.ptr, Kernel.ptr, h1.dir]
    obtain ⟨g2, t2, happ, h2⟩ := swapIn_apply h1.base h1.space hv (by rwa [hpte1])
      (by rw [h1.frame, Function.update_self])
    rw [← hptr1]
    refine wp_of_eq happ ?_
    rw [wp_pure]
    exact ⟨rfl, ht, .inr ⟨hs, m, g1, t1, g2, h1, hpte1, h2⟩⟩
  · rw [wp_pure]
    exact ⟨rfl, ht, .inl ⟨by simpa using hs, rfl⟩⟩

theorem copyBring_spec (hst : E.strict = true) (hB : Base E g s) (hS : Space g s d Set.univ)
    (hv : v < UVPN) (pid : ℕ) :
    wp (copyBring E d pid v) (fun p t => ∃ g', Evolved E g s d g' t ∧ p = t.ptr d v ∧
      present (t.mem d (pdx v)) = true ∧ swapped (t.pte d v) = false ∧
      ∀ w < UVPN, t.Mapped d w ↔ s.Mapped d w) s := by
  refine wp_mono (copyBring_cases hst hB hS hv pid) ?_
  rintro p t ⟨rfl, ht, ⟨hs, rfl⟩ | ⟨hs, m, g1, t1, g2, h1, hpte1, h2⟩⟩
  · exact ⟨g, .refl hB hS, rfl, ht, hs, fun _ _ => .rfl⟩
  · have hlt : m < 2 ^ 20 := frame_lt h1.base (by rw [h1.frame, Function.update_self]; simp)
    have hfill : Filled E g1 t1 d v m g2 t := by
      refine ⟨h2.base, h2.proc, h2.store, hlt, h2.frame, h2.freelist, ?_, fun hn => ?_, ?_⟩
      · rw [if_pos (by rwa [hpte1]), h2.read]
      · rw [hpte1, hs] at hn
        cases hn
      · obtain ⟨-, hpv, hpo⟩ := h2.store.entries h1.space.toTree
        rw [h2.count, nswapped_store hv fun v' hv' => hpo v' (hv'.trans (by decide)), hpv, hpte1, hs]
        simp
    obtain ⟨hd, hpv, hpo⟩ := h2.store.entries h1.space.toTree
    refine ⟨g2, h1.evolved.trans (hfill.evolved h1.space hv fun hp => ?_), ?_, ?_, ?_, ?_⟩
    · rw [hpte1] at hp
      rw [(hS.entry v hv trivial).only hp] at hs; cases hs
    · rw [Kernel.ptr, Kernel.ptr, hd, h1.dir]
    · rw [hd, h1.dir, ht]
    · rw [hpv, swapped_userPte]
    · intro w hw
      rw [← h1.mapped hw]
      by_cases hwv : w = v
      · subst hwv
        simp [Kernel.Mapped, hpv, hpte1, hs]
      · rw [Kernel.Mapped, Kernel.Mapped, hpo w (hw.trans (by decide)) hwv]

/-! ### The copy -/

/-- The bytes that go to the child: those of the parent's page, unless that very
page has been evicted to make room and `kfree` has overwritten them. -/
def copied (E : Env) (s : Kernel) (d v : ℕ) : Page :=
  let f := PTE_ADDR (s.pte d v)
  if s.freelist = [] ∧ s.selectAVictim d = some (s.ptr d v) then E.fill f (s.mem f) else s.mem f

theorem Supplied.copied (h : Supplied E g s d m g' t) (hS : Space g s d Set.univ) (hv : v < UVPN)
    (hp : present (s.pte d v) = true) : t.mem (PTE_ADDR (s.pte d v)) = copied E s d v := by
  have hlt : v < 2 ^ 20 := hv.trans (by decide)
  have htab := present_table_of_entry hp
  rw [Paging.copied]
  split_ifs with hc
  · obtain ⟨w, hw, hm, hfill⟩ := h.victim hc.1
    have hvv := ((selectAVictim_eq_iff hS.toTree hlt htab).1 hc.2).unique hw
    rw [← hvv] at hm
    rw [← hm]
    exact hfill
  · have hpte : t.pte d v = s.pte d v := by
      rcases h.entry v hlt with e | ⟨hl, hvic, -⟩
      · exact e
      · exact absurd ⟨hl, (selectAVictim_eq_iff hS.toTree hlt htab).2 hvic⟩ hc
    have := h.content v hv
    rwa [Kernel.content_present (by rwa [hpte]), hpte, Kernel.content_present hp] at this

/-- Pages of `d` have been copied to `c`; the parent has kept what it held. -/
structure Copying (E : Env) (g : Ghost) (s : Kernel) (d c : ℕ) (g' : Ghost) (t : Kernel) :
    Prop where
  base : Base E g' t
  proc : SameProc s t
  keeps : Keeps {d, c} g s g' t
  parent : Space g' t d Set.univ
  content : ∀ w < UVPN, t.content d w = s.content d w
  guard : ∀ w < UVPN, present (t.pte d w) = true → user (t.pte d w) = false →
    t.pte d w = s.pte d w
  mapped : ∀ w < UVPN, t.Mapped d w ↔ s.Mapped d w
  balance : t.numallocblocks - t.nswapped d = s.numallocblocks - s.nswapped d
  child : Space g' t c Set.univ
  noswap : (∀ w < UVPN, swapped (s.pte c w) = false) → ∀ w < UVPN, swapped (t.pte c w) = false

theorem Copying.refl (hB : Base E g s) (hS : Space g s d Set.univ) (hC : Space g s c Set.univ) :
    Copying E g s d c g s :=
  ⟨hB, .refl s, .refl _ g s, hS, fun _ _ => rfl, fun _ _ _ _ => rfl, fun _ _ => .rfl, rfl, hC,
    fun h => h⟩

theorem Copying.trans (h : Copying E g s d c g' t) (h' : Copying E g' t d c g'' u) :
    Copying E g s d c g'' u where
  base := h'.base
  proc := h.proc.trans h'.proc
  keeps := h.keeps.trans h'.keeps
  parent := h'.parent
  content w hw := by rw [h'.content w hw, h.content w hw]
  guard w hw hp hu := by
    have e := h'.guard w hw hp hu
    rw [e] at hp hu ⊢
    exact h.guard w hw hp hu
  mapped w hw := (h'.mapped w hw).trans (h.mapped w hw)
  balance := h'.balance.trans h.balance
  child := h'.child
  noswap hn := h'.noswap (h.noswap hn)

theorem mem_pair_left (d c : ℕ) : ({d} : Set ℕ) ⊆ {d, c} := by simp
theorem mem_pair_right (d c : ℕ) : ({c} : Set ℕ) ⊆ {d, c} := by simp

theorem Evolved.copying (h : Evolved E g s d g' t) (hC : Space g s c Set.univ) (hcd : c ≠ d)
    (hm : ∀ w < UVPN, t.Mapped d w ↔ s.Mapped d w) : Copying E g s d c g' t where
  base := h.base
  proc := h.proc
  keeps := h.keeps.mono (mem_pair_left d c)
  parent := h.space
  content := h.content
  guard := h.guard
  mapped := hm
  balance := h.balance
  child := (hC.keeps h.keeps (by simpa using hcd)).1
  noswap hn w hw := by
    rw [(hC.toTree.keeps h.keeps (by simpa using hcd)).2.2]
    exact hn w hw

/-- The child's pages other than `v` are as before, and `v` has the bytes `pg`. -/
structure ChildHas (s : Kernel) (c v : ℕ) (pg : Page) (t : Kernel) : Prop where
  present : present (t.pte c v) = true
  self : t.content c v = pg
  other : ∀ w < UVPN, w ≠ v → t.content c w = s.content c w ∧
    Paging.present (t.pte c w) = Paging.present (s.pte c w)

theorem PTE_FLAGS_shift (w : Word) : PTE_FLAGS w >>> 12 = 0#32 := by
  rw [PTE_FLAGS, BitVec.ushiftRight_and_distrib]
  simp

theorem getLsbD_PTE_FLAGS (w : Word) {k : ℕ} (hk : k < 12) :
    (PTE_FLAGS w).getLsbD k = w.getLsbD k := by
  have : ∀ k < 12, (0xFFF#32).getLsbD k = true := by decide
  rw [PTE_FLAGS, BitVec.getLsbD_and, this k hk, Bool.and_true]

@[simp] theorem user_PTE_FLAGS (w : Word) : user (PTE_FLAGS w) = user w :=
  getLsbD_PTE_FLAGS w (by norm_num)

@[simp] theorem writable_PTE_FLAGS (w : Word) : writable (PTE_FLAGS w) = writable w :=
  getLsbD_PTE_FLAGS w (by norm_num)

@[simp] theorem swapped_PTE_FLAGS (w : Word) : swapped (PTE_FLAGS w) = swapped w :=
  getLsbD_PTE_FLAGS w (by norm_num)

/-- The copy in the state `t1` after a frame has been supplied. -/
theorem copyOut_cases (hst : E.strict = true) (hB : Base E g s) (hS : Space g s d Set.univ)
    (hC : Space g s c Set.univ) (hcd : c ≠ d) (hv : v < UVPN)
    (ht : present (s.mem d (pdx v)) = true) (pid : ℕ) :
    wp (copyOut E d c pid v (s.ptr d v)) (fun r t => ∃ m g1 t1, Supplied E g s d m g1 t1 ∧
      ((r = false ∧ t1.freelist = [] ∧ present (s.mem c (pdx v)) = false) ∧
          t = t1.setFrame m (t1.mem (PTE_ADDR (s.pte d v))) ∨
        r = true ∧ ∃ g3, MappedPage E g1 (t1.setFrame m (t1.mem (PTE_ADDR (s.pte d v)))) c v m
          (mapPte m (PTE_FLAGS (s.pte d v))) g3 t)) s := by
  simp only [copyOut, wp_bind, readPte, wp_get, wp_pure, Kernel.mem_ptr ht]
  refine wp_mono (kallocOrSwap_spec hB hS (.inl hst) pid) ?_
  rintro m t1 ⟨g1, h1⟩
  have hm1 : g1.frame m = .loose := by rw [h1.frame, Function.update_self]
  simp only [setFrame, wp_modify]
  have hB2 : Base E g1 (t1.setFrame m (t1.mem (PTE_ADDR (s.pte d v)))) := h1.base.congr_mem rfl rfl rfl
  obtain ⟨hC1, -⟩ := hC.keeps h1.keeps (by simpa using hcd)
  have hk2 : Keeps ∅ g1 t1 g1 (t1.setFrame m (t1.mem (PTE_ADDR (s.pte d v)))) := .setFrame hm1 _
  obtain ⟨hC2, -⟩ := hC1.keeps hk2 (Set.notMem_empty c)
  rcases mappages_page_cases hB2 hC2.toTree (hv.trans (by decide)) hm1 (PTE_FLAGS (s.pte d v)) with
    ⟨hl, hab, happ⟩ | ⟨-, happ⟩ | ⟨g3, t3, happ, h3⟩
  · obtain ⟨-, hmem1, -⟩ := hC.toTree.keeps h1.keeps (by simpa using hcd)
    obtain ⟨-, hmem2, -⟩ := hC1.toTree.keeps hk2 (Set.notMem_empty c)
    rw [hmem2, hmem1] at hab
    exact wp_of_eq happ ⟨m, g1, t1, h1, .inl ⟨⟨rfl, hl, hab⟩, rfl⟩⟩
  · intro a u hu
    rw [happ] at hu
    cases hu
  · exact wp_of_eq happ ⟨m, g1, t1, h1, .inr ⟨rfl, g3, h3⟩⟩

theorem copyOut_spec (hst : E.strict = true) (hB : Base E g s) (hS : Space g s d Set.univ)
    (hC : Space g s c Set.univ) (hcd : c ≠ d) (hv : v < UVPN)
    (ht : present (s.mem d (pdx v)) = true) (hns : swapped (s.pte d v) = false) (pid : ℕ) :
    wp (copyOut E d c pid v (s.ptr d v)) (fun r t => ∃ g', Copying E g s d c g' t ∧
      (r = true → ∃ pg, ChildHas s c v pg t ∧
        (present (s.pte d v) = true → pg = copied E s d v))) s := by
  refine wp_mono (copyOut_cases hst hB hS hC hcd hv ht pid) ?_
  rintro r t ⟨m, g1, t1, h1, hcase⟩
  have hm1 : g1.frame m = .loose := by rw [h1.frame, Function.update_self]
  have hlt : m < 2 ^ 20 := frame_lt h1.base (by rw [hm1]; simp)
  obtain ⟨hC1, hcont1⟩ := hC.keeps h1.keeps (by simpa using hcd)
  obtain ⟨-, -, hpte1⟩ := hC.toTree.keeps h1.keeps (by simpa using hcd)
  set pg := t1.mem (PTE_ADDR (s.pte d v)) with hpg
  set t2 := t1.setFrame m pg with ht2
  have hk2 : Keeps ∅ g1 t1 g1 t2 := .setFrame hm1 pg
  have hB2 : Base E g1 t2 := h1.base.congr_mem rfl rfl rfl
  obtain ⟨hS2, hcontd2⟩ := h1.space.keeps hk2 (Set.notMem_empty d)
  obtain ⟨-, -, hpted2⟩ := h1.space.toTree.keeps hk2 (Set.notMem_empty d)
  obtain ⟨hC2, hcont2⟩ := hC1.keeps hk2 (Set.notMem_empty c)
  obtain ⟨-, -, hpte2⟩ := hC1.toTree.keeps hk2 (Set.notMem_empty c)
  have hkeeps2 : Keeps {d, c} g s g1 t2 :=
    (h1.keeps.mono (mem_pair_left d c)).trans (hk2.mono (Set.empty_subset _))
  have hnsd2 : t2.nswapped d = t1.nswapped d := nswapped_congr fun w _ => by rw [hpted2]
  have hguard2 : ∀ w < UVPN, present (t2.pte d w) = true → user (t2.pte d w) = false →
      t2.pte d w = s.pte d w := fun w hw hp hu => by
    rw [hpted2] at hp hu ⊢
    exact h1.evolved.guard w hw hp hu
  have hmap2 : ∀ w < UVPN, t2.Mapped d w ↔ s.Mapped d w := fun w hw => by
    rw [← h1.mapped hw, Kernel.Mapped, Kernel.Mapped, hpted2]
  have hproc2 : SameProc s t2 := ⟨h1.proc.proc, h1.proc.kpgdir, h1.proc.initproc, h1.proc.nextpid⟩
  rcases hcase with ⟨⟨rfl, -, -⟩, rfl⟩ | ⟨rfl, g3, h3⟩
  · refine ⟨g1, ⟨hB2, hproc2, hkeeps2, hS2, fun w hw => ?_, hguard2, hmap2, ?_, hC2,
      fun h w hw => ?_⟩, by simp⟩
    · rw [hcontd2 w hw trivial, h1.content w hw]
    · rw [hnsd2]
      exact h1.balance
    · rw [hpte2, hpte1]
      exact h w hw
  · have hE : EntryOk g3 c v (mapPte m (PTE_FLAGS (s.pte d v))) := by
      refine ⟨fun _ => ?_, fun _ => ?_, fun hu => ?_, fun hs => ?_⟩
      · rw [PTE_ADDR_mapPte hlt (PTE_FLAGS_shift _), h3.own]
      · rw [swapped_mapPte, swapped_PTE_FLAGS, hns]
      · rw [user_mapPte, user_PTE_FLAGS] at hu
        rw [writable_mapPte, writable_PTE_FLAGS, (hS.entry v hv trivial).write hu]
      · rw [swapped_mapPte, swapped_PTE_FLAGS, hns] at hs
        cases hs
    obtain ⟨hC3, hcont3⟩ := h3.space _ hC2 (fun _ _ => hE) fun hu => absurd hv (by omega)
    obtain ⟨hS3, hcontd3⟩ := hS2.keeps h3.keeps (by simpa using hcd.symm)
    obtain ⟨-, -, hpted3⟩ := hS2.toTree.keeps h3.keeps (by simpa using hcd.symm)
    have hnsd3 : t.nswapped d = t2.nswapped d := nswapped_congr fun w _ => by rw [hpted3]
    refine ⟨g3, ?_, fun _ => ⟨pg, ?_, fun hp => h1.copied hS hv hp⟩⟩
    · refine ⟨h3.base, hproc2.trans h3.proc, hkeeps2.trans (h3.keeps.mono (mem_pair_right d c)), hS3,
        fun w hw => ?_, fun w hw hp hu => ?_, fun w hw => ?_, ?_, hC3, fun h w hw => ?_⟩
      · rw [hcontd3 w hw trivial, hcontd2 w hw trivial, h1.content w hw]
      · rw [hpted3] at hp hu ⊢
        exact hguard2 w hw hp hu
      · rw [← hmap2 w hw, Kernel.Mapped, Kernel.Mapped, hpted3]
      · rw [hnsd3, hnsd2, h3.disk.count]
        exact h1.balance
      · by_cases hwv : w = v
        · subst hwv
          rw [h3.self, swapped_mapPte, swapped_PTE_FLAGS, hns]
        · rw [h3.pte w (hw.trans (by decide)) hwv, hpte2, hpte1]
          exact h w hw
    · refine ⟨by rw [h3.self, present_mapPte], ?_, fun w hw hwv => ⟨?_, ?_⟩⟩
      · rw [Kernel.content_present (by rw [h3.self, present_mapPte]), h3.self,
          PTE_ADDR_mapPte hlt (PTE_FLAGS_shift _), h3.read, ht2]
        simp
      · rw [hcont3 w hw trivial hwv, hcont2 w hw trivial, hcont1 w hw trivial]
      · rw [h3.pte w (hw.trans (by decide)) hwv, hpte2, hpte1]

/-! ### The loop -/

theorem copyuvmLoop_spec (hst : E.strict = true) (hcd : c ≠ d) (pid n v : ℕ) (hB : Base E g s)
    (hS : Space g s d Set.univ) (hC : Space g s c Set.univ) (hv : v + n ≤ UVPN) :
    wp (copyuvmLoop E d c pid n v) (fun _ t => ∃ g', Copying E g s d c g' t) s := by
  induction n generalizing v g s with
  | zero =>
    rw [copyuvmLoop, wp_pure]
    exact ⟨g, .refl hB hS hC⟩
  | succ n ih =>
    simp only [copyuvmLoop, wp_bind]
    refine wp_mono (copyBring_spec hst hB hS (show v < UVPN by omega) pid) ?_
    rintro p t1 ⟨g1, h1, rfl, ht1, hns1, hm1⟩
    have hc1 := h1.copying hC hcd hm1
    refine wp_mono (copyOut_spec hst hc1.base hc1.parent hc1.child hcd (by omega) ht1 hns1 pid) ?_
    rintro r t2 ⟨g2, h2, -⟩
    split_ifs
    · refine wp_mono (ih (v + 1) h2.base h2.parent h2.child (by omega)) ?_
      rintro - t3 ⟨g3, h3⟩
      exact ⟨g3, hc1.trans (h2.trans h3)⟩
    · rw [wp_pure]
      exact ⟨g2, hc1.trans h2⟩

/-- Page `v` of the child is present and holds what the parent's page held in `s`. -/
def CopiedTo (s : Kernel) (d c : ℕ) (t : Kernel) (v : ℕ) : Prop :=
  present (t.pte c v) = true ∧ t.content c v = s.content d v

end Xv6Lab.Paging
