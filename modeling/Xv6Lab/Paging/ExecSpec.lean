import Xv6Lab.Paging.Lives

/-! Building the address space of a new program. Until `exec` commits, the current
address space lives on (reading the arguments may fault pages in), and the new one
consists of pages that were allocated for it and, below the stack, one page that
user code cannot reach. -/

namespace Xv6Lab.Paging

open Lib

variable {E : Env} {g g' g'' : Ghost} {s t u : Kernel} {c n v m pid sz : ℕ}

/-! ### Writing into a page -/

/-- The bytes of a present page change, and nothing else. -/
theorem Space.write (hB : Base E g s) (hS : Space g s n Set.univ) (hv : v < UVPN)
    (hp : present (s.pte n v) = true) (pg : Page) :
    Base E g (s.setFrame (PTE_ADDR (s.pte n v)) pg) ∧
      Keeps {n} g s g (s.setFrame (PTE_ADDR (s.pte n v)) pg) ∧
      Space g (s.setFrame (PTE_ADDR (s.pte n v)) pg) n Set.univ ∧
      (∀ w, (s.setFrame (PTE_ADDR (s.pte n v)) pg).pte n w = s.pte n w) ∧
      (s.setFrame (PTE_ADDR (s.pte n v)) pg).content n v = pg ∧
      ∀ w < UVPN, w ≠ v →
        (s.setFrame (PTE_ADDR (s.pte n v)) pg).content n w = s.content n w := by
  have hown := (hS.entry v hv trivial).frame hp
  set f := PTE_ADDR (s.pte n v) with hf
  have hne : ∀ x, g.frame x ≠ .page n v → (s.setFrame f pg).mem x = s.mem x := fun x hx => by
    have hxf : x ≠ f := by rintro rfl; exact hx hown
    simp [hxf]
  have hd : (s.setFrame f pg).mem n = s.mem n := hne n (by rw [hS.dir]; simp)
  have hpte : ∀ w, (s.setFrame f pg).pte n w = s.pte n w := fun w =>
    Kernel.pte_congr hd fun hw => hne _ (by rw [hS.tab _ hw]; simp)
  refine ⟨hB.congr_mem rfl rfl rfl, ⟨fun _ _ => rfl, fun x hx => hne x fun e => by
    rw [e] at hx; exact hx rfl, fun _ _ => rfl, fun _ _ => rfl⟩, ⟨⟨hS.dir, fun i hi => ?_⟩,
    fun w hw _ => ?_, fun w hw hlt => ?_⟩, hpte, ?_, fun w hw hwv => ?_⟩
  · rw [hd] at hi ⊢
    exact hS.tab i hi
  · rw [hpte]
    exact hS.entry w hw trivial
  · rw [hpte]
    exact hS.kern w hw hlt
  · rw [Kernel.content_present (by rwa [hpte]), hpte, ← hf]
    simp
  · have hE := hS.entry w hw trivial
    cases hpw : present (s.pte n w) with
    | true =>
      rw [Kernel.content_present hpw, Kernel.content_present (by rwa [hpte]), hpte]
      exact hne _ (by rw [hE.frame hpw]; simp [hwv])
    | false =>
      cases hsw : swapped (s.pte n w) with
      | true =>
        rw [Kernel.content_swapped hpw hsw, Kernel.content_swapped (by rwa [hpte]) (by rwa [hpte]),
          hpte]
        rfl
      | false =>
        rw [Kernel.content_unmapped hpw hsw,
          Kernel.content_unmapped (by rwa [hpte]) (by rwa [hpte])]

/-! ### The new address space grows -/

/-- The new address space `n` has grown; it has no swapped page. -/
structure Builds (E : Env) (g : Ghost) (s : Kernel) (n : ℕ) (g' : Ghost) (t : Kernel) : Prop where
  base : Base E g' t
  proc : SameProc s t
  leaves : Leaves {n} g s g' t
  space : Space g' t n Set.univ
  noswap : ∀ v < UVPN, swapped (t.pte n v) = false
  count : t.numallocblocks = s.numallocblocks

theorem Builds.refl (hB : Base E g s) (hS : Space g s n Set.univ)
    (hn : ∀ v < UVPN, swapped (s.pte n v) = false) : Builds E g s n g s :=
  ⟨hB, .refl s, .refl _ g s, hS, hn, rfl⟩

theorem Builds.trans (h : Builds E g s n g' t) (h' : Builds E g' t n g'' u) :
    Builds E g s n g'' u :=
  ⟨h'.base, h.proc.trans h'.proc, h.leaves.trans h'.leaves, h'.space, h'.noswap,
    h'.count.trans h.count⟩

/-- `deallocuvm` of pages that are not swapped. -/
theorem Dealloced.builds {lo hi : ℕ} (h : Dealloced E g s n lo hi g' t)
    (hS : Space g s n Set.univ) (hu : hi ≤ UVPN)
    (hn : ∀ v < UVPN, swapped (s.pte n v) = false) : Builds E g s n g' t := by
  refine ⟨h.base, h.proc, h.keeps.leaves, h.space hS hu fun v _ hv => hn v (by omega),
    fun v hv => ?_, ?_⟩
  · rw [h.pte v (hv.trans (by decide))]
    split_ifs
    · rfl
    · exact hn v hv
  · have : s.nswappedIn n lo hi = 0 := by
      rw [Kernel.nswappedIn, Finset.card_eq_zero, Finset.filter_eq_empty_iff]
      intro v hv
      rw [hn v (by have := (Finset.mem_Ico.1 hv).2; omega)]
      simp
    rw [h.count, this]
    simp

/-- The entry of a page that `allocuvm` maps. -/
theorem user_mapPte_WU (m : ℕ) : user (mapPte m (PTE_W ||| PTE_U)) = true ∧
    writable (mapPte m (PTE_W ||| PTE_U)) = true ∧
    swapped (mapPte m (PTE_W ||| PTE_U)) = false := by
  rw [user_mapPte, writable_mapPte, swapped_mapPte]
  decide

/-- Pages `lo` up to `hi` are present, accessible and zero; the others are as before. -/
structure Zeroed (s : Kernel) (n lo hi : ℕ) (t : Kernel) : Prop where
  other : ∀ w < UVPN, w < lo ∨ hi ≤ w → t.pte n w = s.pte n w ∧ t.content n w = s.content n w
  self : ∀ w, lo ≤ w → w < hi → present (t.pte n w) = true ∧ user (t.pte n w) = true ∧
    t.content n w = fun _ => 0#32

theorem allocuvmLoop_spec {newsz oldsz : ℕ} (hnew : newsz ≤ KERNBASE) (k v : ℕ) (hB : Base E g s)
    (hS : Space g s n Set.univ) (hns : ∀ v < UVPN, swapped (s.pte n v) = false)
    (hv : v + k ≤ UVPN) :
    wp (allocuvmLoop E n newsz oldsz k v) (fun r t => ∃ g', Builds E g s n g' t ∧
      (r ≠ 0 → r = newsz ∧ Zeroed s n v (v + k) t)) s := by
  induction k generalizing v g s with
  | zero =>
    rw [allocuvmLoop, wp_pure]
    exact ⟨g, .refl hB hS hns, fun _ => ⟨rfl, fun _ _ _ => ⟨rfl, rfl⟩, fun w h1 h2 => by omega⟩⟩
  | succ k ih =>
    rw [allocuvmLoop, wp_bind]
    rcases kalloc_cases E s with ⟨-, hk⟩ | ⟨m, l, hp, hk⟩
    · refine wp_of_eq hk ?_
      simp only [wp_bind]
      refine wp_mono (deallocuvm_spec hB hS.toTree hnew fun w _ hw =>
        hS.entry w (hw.trans_le (npages_le hnew)) trivial) ?_
      rintro - t ⟨g', h⟩
      rw [wp_pure]
      exact ⟨g', h.builds hS (npages_le hnew) hns, by simp⟩
    · refine wp_of_eq hk ?_
      have h1 := Supplied.of_free hB hS hp
      have hm1 : (g.setFrame m .loose).frame m = .loose := Ghost.setFrame_self _ _ _
      have hlt : m < 2 ^ 20 := frame_lt h1.base (by rw [hm1]; simp)
      simp only [setFrame, wp_bind, wp_modify]
      set t1 : Kernel := { s with freelist := l } with ht1
      set t2 := t1.setFrame m fun _ => 0#32 with ht2
      have hk2 : Keeps ∅ (g.setFrame m .loose) t1 (g.setFrame m .loose) t2 := .setFrame hm1 _
      have hB2 : Base E (g.setFrame m .loose) t2 := h1.base.congr_mem rfl rfl rfl
      obtain ⟨hS2, hcont2⟩ := h1.space.keeps hk2 (Set.notMem_empty n)
      obtain ⟨-, -, hpte2⟩ := h1.space.toTree.keeps hk2 (Set.notMem_empty n)
      have hns2 : ∀ w < UVPN, swapped (t2.pte n w) = false := fun w hw => by
        rw [hpte2]; exact hns w hw
      have hb2 : Builds E g s n (g.setFrame m .loose) t2 :=
        ⟨hB2, ⟨rfl, rfl, rfl, rfl⟩, (h1.keeps.trans (hk2.mono (Set.empty_subset _))).leaves, hS2, hns2,
          rfl⟩
      rcases mappages_page_cases hB2 hS2.toTree (show v < 2 ^ 20 by have := UVPN_eq; omega) hm1
        (PTE_W ||| PTE_U) with ⟨-, -, happ⟩ | ⟨-, happ⟩ | ⟨g3, t3, happ, h3⟩
      · refine wp_of_eq happ ?_
        simp only [Bool.false_eq_true, ↓reduceIte, wp_bind]
        refine wp_mono (deallocuvm_spec hB2 hS2.toTree hnew fun w _ hw =>
          hS2.entry w (hw.trans_le (npages_le hnew)) trivial) ?_
        rintro - t4 ⟨g4, h4⟩
        have hb4 := hb2.trans (h4.builds hS2 (npages_le hnew) hns2)
        have hm4 : g4.frame m = .loose := by
          rw [h4.frame m fun w _ _ => by rw [hm1]; simp, hm1]
        obtain ⟨happ5, hB5⟩ := hb4.base.kfree (f := m) (by rw [hm4]; simp) (by rw [hm4]; simp)
        refine wp_of_eq happ5 ?_
        rw [wp_pure]
        have hk5 : Keeps ∅ g4 t4 (g4.setFrame m .free) (t4.kfreed E m) := by
          have hne : ∀ x, (g4.frame x).Stays ∅ → x ≠ m := by
            rintro x hx rfl
            rw [hm4] at hx
            exact hx
          exact ⟨fun x hx => g4.setFrame_of_ne _ (hne x hx), fun x hx => by
            simp [Kernel.kfreed, hne x hx], fun _ _ => rfl, fun _ _ => rfl⟩
        obtain ⟨hS5, -⟩ := hb4.space.keeps hk5 (Set.notMem_empty n)
        obtain ⟨-, -, hpte5⟩ := hb4.space.toTree.keeps hk5 (Set.notMem_empty n)
        refine ⟨_, ⟨hB5, hb4.proc.trans ⟨rfl, rfl, rfl, rfl⟩,
          hb4.leaves.trans (hk5.leaves.mono (Set.empty_subset _)), hS5, fun w hw => ?_, hb4.count⟩,
          by simp⟩
        rw [hpte5]
        exact hb4.noswap w hw
      · intro a x hx
        rw [happ] at hx
        cases hx
      · refine wp_of_eq happ ?_
        simp only [↓reduceIte]
        obtain ⟨hus, hwr, hsw⟩ := user_mapPte_WU m
        have hE : EntryOk g3 n v (mapPte m (PTE_W ||| PTE_U)) :=
          ⟨fun _ => by rw [PTE_ADDR_mapPte hlt (by decide), h3.own], fun _ => hsw, fun _ => hwr,
            fun hs => by rw [hsw] at hs; cases hs⟩
        obtain ⟨hS3, hcont3⟩ := h3.space _ hS2 (fun _ _ => hE) fun hu => absurd hv (by omega)
        have hns3 : ∀ w < UVPN, swapped (t3.pte n w) = false := fun w hw => by
          by_cases hwv : w = v
          · subst hwv; rw [h3.self, hsw]
          · rw [h3.pte w (hw.trans (by decide)) hwv]
            exact hns2 w hw
        have hb3 : Builds E g s n g3 t3 :=
          ⟨h3.base, hb2.proc.trans h3.proc, hb2.leaves.trans h3.keeps.leaves, hS3, hns3,
            h3.disk.count⟩
        refine wp_mono (ih (v + 1) h3.base hS3 hns3 (by omega)) ?_
        rintro r t4 ⟨g4, h4, hr⟩
        refine ⟨g4, hb3.trans h4, fun hr0 => ?_⟩
        obtain ⟨hrn, hz⟩ := hr hr0
        have hself : t4.pte n v = mapPte m (PTE_W ||| PTE_U) ∧ t4.content n v = fun _ => 0#32 := by
          obtain ⟨e1, e2⟩ := hz.other v (by omega) (.inl (by omega))
          refine ⟨by rw [e1, h3.self], ?_⟩
          rw [e2, Kernel.content_present (by rw [h3.self, present_mapPte]), h3.self,
            PTE_ADDR_mapPte hlt (by decide), h3.read, ht2]
          simp
        refine ⟨hrn, fun w hw hwr => ?_, fun w h5 h6 => ?_⟩
        · obtain ⟨e1, e2⟩ := hz.other w hw (by omega)
          have hwv : w ≠ v := by omega
          exact ⟨by rw [e1, h3.pte w (hw.trans (by decide)) hwv, hpte2]; rfl, by
            rw [e2, hcont3 w hw trivial hwv, hcont2 w hw trivial, h1.content w hw]⟩
        · rcases Nat.eq_or_lt_of_le h5 with rfl | hlt'
          · rw [hself.1, hself.2]
            exact ⟨present_mapPte _ _, hus, rfl⟩
          · exact hz.self w hlt' (by omega)

theorem allocuvm_spec {newsz oldsz : ℕ} (hB : Base E g s) (hS : Space g s n Set.univ)
    (hns : ∀ v < UVPN, swapped (s.pte n v) = false) :
    wp (allocuvm E n oldsz newsz) (fun r t => ∃ g', Builds E g s n g' t ∧
      (r ≠ 0 → (newsz < oldsz ∧ r = oldsz ∧ t = s) ∨
        (oldsz ≤ newsz ∧ r = newsz ∧ newsz < KERNBASE ∧
          Zeroed s n (npages oldsz) (npages newsz) t))) s := by
  rw [allocuvm]
  split_ifs with h1 h2
  · rw [wp_pure]
    exact ⟨g, .refl hB hS hns, by simp⟩
  · rw [wp_pure]
    exact ⟨g, .refl hB hS hns, fun _ => .inl ⟨h2, rfl, rfl⟩⟩
  · have hmono : npages oldsz ≤ npages newsz := npages_mono (by omega)
    have hu := npages_le (show newsz ≤ KERNBASE by omega)
    refine wp_mono (allocuvmLoop_spec (show newsz ≤ KERNBASE by omega)
      (npages newsz - npages oldsz) (npages oldsz) hB hS hns (by omega)) ?_
    rintro r t ⟨g', h, hr⟩
    refine ⟨g', h, fun hr0 => .inr ?_⟩
    obtain ⟨hrn, hz⟩ := hr hr0
    rw [show npages oldsz + (npages newsz - npages oldsz) = npages newsz by omega] at hz
    exact ⟨by omega, hrn, by omega, hz⟩

/-! ### The segments -/

/-- All pages below `sz` are present and accessible, and no other page is mapped. -/
structure Shape (s : Kernel) (n sz : ℕ) : Prop where
  below : ∀ v, v < npages sz → present (s.pte n v) = true ∧ user (s.pte n v) = true
  above : ∀ v < UVPN, npages sz ≤ v → s.pte n v = 0#32
  le : sz ≤ KERNBASE

theorem Shape.grow {newsz : ℕ} (h : Shape s n sz) (hle : sz ≤ newsz) (hk : newsz ≤ KERNBASE)
    (hz : Zeroed s n (npages sz) (npages newsz) t) : Shape t n newsz where
  below v hv := by
    rcases Nat.lt_or_ge v (npages sz) with hlt | hge
    · rw [(hz.other v (by have := npages_le hk; omega) (.inl hlt)).1]
      exact h.below v hlt
    · obtain ⟨h1, h2, -⟩ := hz.self v hge hv
      exact ⟨h1, h2⟩
  above v hv hge := by
    rw [(hz.other v hv (.inr hge)).1]
    exact h.above v hv ((npages_mono hle).trans hge)
  le := hk

theorem Shape.noswap (hS : Space g s n Set.univ) (h : Shape s n sz) :
    ∀ v < UVPN, swapped (s.pte n v) = false := by
  intro v hv
  rcases Nat.lt_or_ge v (npages sz) with hlt | hge
  · exact (hS.entry v hv trivial).only (h.below v hlt).1
  · rw [h.above v hv hge]
    decide

theorem loaduvmLoop_spec {ip : Image} {offset len : ℕ} (k v i : ℕ) (hB : Base E g s)
    (hS : Space g s n Set.univ) (hsh : Shape s n sz) (hv : v + k ≤ npages sz) :
    wp (loaduvmLoop n ip offset len k v i)
      (fun _ t => ∃ g', Builds E g s n g' t ∧ Shape t n sz) s := by
  induction k generalizing v i g s with
  | zero =>
    rw [loaduvmLoop, wp_pure]
    exact ⟨g, .refl hB hS (hsh.noswap hS), hsh⟩
  | succ k ih =>
    have hu := npages_le hsh.le
    obtain ⟨hp, -⟩ := hsh.below v (by omega)
    have ht := present_table_of_entry hp
    rw [loaduvmLoop, wp_bind, wp_get]
    simp only [Kernel.lookup_of_present ht, wp_bind, readPte, wp_get, wp_pure, Kernel.mem_ptr ht,
      wp_modify]
    obtain ⟨hB1, hk1, hS1, hpte1, -, -⟩ := hS.write hB (show v < UVPN by omega) hp
      (putBytes (s.mem (PTE_ADDR (s.pte n v))) (min (min (len - i) PGSIZE) (ip.size - (offset + i)))
        fun k => ip.byte (offset + i + k))
    have hsh1 : Shape (s.setFrame (PTE_ADDR (s.pte n v)) (putBytes (s.mem (PTE_ADDR (s.pte n v)))
        (min (min (len - i) PGSIZE) (ip.size - (offset + i))) fun k => ip.byte (offset + i + k)))
        n sz :=
      ⟨fun w hw => by rw [hpte1]; exact hsh.below w hw, fun w hw hge => by
        rw [hpte1]; exact hsh.above w hw hge, hsh.le⟩
    have hb1 : Builds E g s n g _ :=
      ⟨hB1, ⟨rfl, rfl, rfl, rfl⟩, hk1.leaves, hS1, hsh1.noswap hS1, rfl⟩
    split_ifs
    · refine wp_mono (ih (v + 1) _ hB1 hS1 hsh1 (by omega)) ?_
      rintro - u ⟨g', h, hsh'⟩
      exact ⟨g', hb1.trans h, hsh'⟩
    · rw [wp_pure]
      exact ⟨g, hb1, hsh1⟩

theorem loadSegments_spec {ip : Image} (phs : List (Option ProgHdr)) (sz : ℕ) (hB : Base E g s)
    (hS : Space g s n Set.univ) (hsh : Shape s n sz) :
    wp (loadSegments E n ip phs sz) (fun r t => ∃ g', Builds E g s n g' t ∧
      ∀ sz', r = some sz' → Shape t n sz') s := by
  induction phs generalizing sz g s with
  | nil =>
    rw [loadSegments, wp_pure]
    refine ⟨g, .refl hB hS (hsh.noswap hS), ?_⟩
    rintro _ ⟨⟩
    exact hsh
  | cons ph phs ih =>
    have stop : ∃ g', Builds E g s n g' s ∧ ∀ sz', (none : Option ℕ) = some sz' → Shape s n sz' :=
      ⟨g, .refl hB hS (hsh.noswap hS), by simp⟩
    cases ph with
    | none =>
      rw [loadSegments, wp_pure]
      exact stop
    | some ph =>
      rw [loadSegments]
      by_cases h1 : ph.load = false
      · rw [if_pos h1]
        exact ih sz hB hS hsh
      rw [if_neg h1]
      by_cases h2 : ph.memsz < ph.filesz
      · rw [if_pos h2, wp_pure]
        exact stop
      rw [if_neg h2]
      by_cases h3 : 2 ^ 32 ≤ ph.vaddr + ph.memsz
      · rw [if_pos h3, wp_pure]
        exact stop
      rw [if_neg h3, wp_bind]
      refine wp_mono (allocuvm_spec hB hS (hsh.noswap hS)) ?_
      rintro sz1 t1 ⟨g1, hb1, hr⟩
      split_ifs with h4 h5
      · rw [wp_pure]; exact ⟨g1, hb1, by simp⟩
      · rw [wp_pure]; exact ⟨g1, hb1, by simp⟩
      have hsh1 : Shape t1 n sz1 ∧ ph.vaddr + ph.memsz ≤ sz1 := by
        rcases hr h4 with ⟨hlt, rfl, rfl⟩ | ⟨hle, rfl, hk, hz⟩
        · exact ⟨hsh, hlt.le⟩
        · exact ⟨hsh.grow hle hk.le hz, le_rfl⟩
      rw [wp_bind, loaduvm]
      refine wp_mono (loaduvmLoop_spec (E := E) _ _ _ hb1.base hb1.space hsh1.1 ?_) ?_
      · have := hsh1.2
        simp only [npages, PGSIZE] at *
        omega
      · rintro b t2 ⟨g2, hb2, hsh2⟩
        split_ifs
        · refine wp_mono (ih sz1 hb2.base hb2.space hsh2) ?_
          rintro r t3 ⟨g3, hb3, hr3⟩
          exact ⟨g3, hb1.trans (hb2.trans hb3), hr3⟩
        · rw [wp_pure]
          exact ⟨g2, hb1.trans hb2, by simp⟩

/-! ### The stack -/

/-- The image of a program: all pages below `sz` are present, no other page is
mapped, and a page that user code cannot reach is zero. -/
structure Loaded (s : Kernel) (n sz : ℕ) : Prop where
  below : ∀ v, v < npages sz → present (s.pte n v) = true
  above : ∀ v < UVPN, npages sz ≤ v → s.pte n v = 0#32
  guard : ∀ v < UVPN, present (s.pte n v) = true → user (s.pte n v) = false →
    s.content n v = fun _ => 0#32
  le : sz ≤ KERNBASE

/-- What pushing the arguments does: the current address space `c` lives on, and
the new one `n` changes on pages that user code can reach. -/
structure Stage (E : Env) (g : Ghost) (s : Kernel) (c n : ℕ) (g' : Ghost) (t : Kernel) : Prop where
  base : Base E g' t
  proc : SameProc s t
  leaves : Leaves {c, n} g s g' t
  cur : Space g' t c Set.univ
  content : ∀ v < UVPN, t.content c v = s.content c v
  guard : ∀ v < UVPN, present (t.pte c v) = true → user (t.pte c v) = false →
    t.pte c v = s.pte c v
  balance : t.numallocblocks - t.nswapped c = s.numallocblocks - s.nswapped c
  new : Space g' t n Set.univ
  noswap : (∀ v < UVPN, swapped (s.pte n v) = false) → ∀ v < UVPN, swapped (t.pte n v) = false
  loaded : ∀ sz, Loaded s n sz → Loaded t n sz

namespace Stage

theorem trans (h : Stage E g s c n g' t) (h' : Stage E g' t c n g'' u) :
    Stage E g s c n g'' u where
  base := h'.base
  proc := h.proc.trans h'.proc
  leaves := h.leaves.trans h'.leaves
  cur := h'.cur
  content v hv := by rw [h'.content v hv, h.content v hv]
  guard v hv hp hu := by
    have e := h'.guard v hv hp hu
    rw [e] at hp hu ⊢
    exact h.guard v hv hp hu
  balance := h'.balance.trans h.balance
  new := h'.new
  noswap hn := h'.noswap (h.noswap hn)
  loaded sz hl := h'.loaded sz (h.loaded sz hl)

theorem of_lives (h : Lives E g s c g' t) (hN : Space g s n Set.univ) (hcn : n ≠ c) :
    Stage E g s c n g' t := by
  have hn : n ∉ ({c} : Set ℕ) := by simpa using hcn
  obtain ⟨hN', hcont⟩ := h.leaves.space n hn hN
  obtain ⟨-, -, hpte⟩ := h.leaves.tree n hn hN.toTree
  exact ⟨h.base, h.proc, h.leaves.mono (mem_pair_left c n), h.space, h.content, h.guard, h.balance,
    hN', fun hs v hv => by rw [hpte]; exact hs v hv, fun sz hl =>
      ⟨fun v hv => by rw [hpte]; exact hl.below v hv, fun v hv hge => by
        rw [hpte]; exact hl.above v hv hge, fun v hv hp hu => by
        rw [hpte] at hp hu
        rw [hcont v hv]
        exact hl.guard v hv hp hu, hl.le⟩⟩

theorem refl (hB : Base E g s) (hC : Space g s c Set.univ) (hN : Space g s n Set.univ)
    (hcn : n ≠ c) : Stage E g s c n g s := .of_lives (.refl hB hC) hN hcn

/-- A write to a page of the new address space that user code can reach. -/
theorem of_write (hB : Base E g s) (hC : Space g s c Set.univ) (hN : Space g s n Set.univ)
    (hcn : n ≠ c) (hv : v < UVPN) (hp : present (s.pte n v) = true)
    (hu : user (s.pte n v) = true) (pg : Page) :
    Stage E g s c n g (s.setFrame (PTE_ADDR (s.pte n v)) pg) := by
  obtain ⟨hB1, hk1, hN1, hpte1, -, hcont1⟩ := hN.write hB hv hp pg
  have hc : c ∉ ({n} : Set ℕ) := by simpa using hcn.symm
  obtain ⟨hC1, hcc⟩ := hk1.leaves.space c hc hC
  obtain ⟨-, -, hpc⟩ := hk1.leaves.tree c hc hC.toTree
  refine ⟨hB1, ⟨rfl, rfl, rfl, rfl⟩, hk1.leaves.mono (mem_pair_right c n), hC1, hcc,
    fun w _ _ _ => hpc w, ?_, hN1, fun hs w hw => by rw [hpte1]; exact hs w hw, fun sz hl => ?_⟩
  · have : (s.setFrame (PTE_ADDR (s.pte n v)) pg).nswapped c = s.nswapped c :=
      nswapped_congr fun w _ => by rw [hpc]
    rw [this]
    rfl
  · refine ⟨fun w hw => by rw [hpte1]; exact hl.below w hw, fun w hw hge => by
      rw [hpte1]; exact hl.above w hw hge, fun w hw hpw huw => ?_, hl.le⟩
    rw [hpte1] at hpw huw
    have hne : w ≠ v := by rintro rfl; rw [hu] at huw; cases huw
    rw [hcont1 w hw hne]
    exact hl.guard w hw hpw huw

end Stage

/-! ### Reading the arguments -/

theorem kload_spec (hst : E.strict = true) (hB : Base E g s) (hC : Space g s c Set.univ) {va : ℕ}
    (hva : va < KERNBASE) :
    wp (kload E c pid va) (fun _ t => ∃ g', Lives E g s c g' t) s := by
  have hv : va / PGSIZE < UVPN := by
    simp only [UVPN, PGSIZE, KERNBASE] at hva ⊢; omega
  rw [kload, wp_bind, wp_get]
  split_ifs with hp
  · rw [wp_pure]
    exact ⟨g, .refl hB hC⟩
  · rw [wp_bind]
    refine wp_mono (mapAddress_lives hst hB hC (hva.trans (by decide)) (.inl hv)
      fun h => absurd h hp) ?_
    rintro - t ⟨g', h⟩
    rw [wp_bind, wp_get]
    split_ifs
    · rw [wp_pure]
      exact ⟨g', h⟩
    · simp

theorem kstrlen_spec (hst : E.strict = true) (fuel va : ℕ) (hB : Base E g s)
    (hC : Space g s c Set.univ) (hle : va + fuel ≤ KERNBASE) :
    wp (kstrlen E c pid fuel va) (fun r t => r < fuel ∧ ∃ g', Lives E g s c g' t) s := by
  induction fuel generalizing va g s with
  | zero => simp [kstrlen]
  | succ fuel ih =>
    rw [kstrlen, wp_bind]
    refine wp_mono (kload_spec hst hB hC (show va < KERNBASE by omega)) ?_
    rintro b t ⟨g1, h1⟩
    split_ifs
    · rw [wp_pure]
      exact ⟨by omega, g1, h1⟩
    · rw [wp_bind]
      refine wp_mono (ih (va + 1) h1.base h1.space (by omega)) ?_
      rintro r u ⟨hr, g2, h2⟩
      rw [wp_pure]
      exact ⟨by omega, g2, h1.trans h2⟩

/-- Reading a byte to be copied leaves both address spaces as they should be. -/
def SrcOk (E : Env) (c : ℕ) (src : K Byte) : Prop :=
  ∀ (g : Ghost) (s : Kernel), Base E g s → Space g s c Set.univ →
    wp src (fun _ t => ∃ g', Lives E g s c g' t) s

theorem uva2ka_spec (hst : E.strict = true) (hN : Space g s n Set.univ) {va : ℕ}
    (hva : va < 2 ^ 32) :
    wp (uva2ka E c n va) (fun r t => t = s ∧ ∀ f, r = some f → va / PGSIZE < UVPN ∧
      present (s.pte n (va / PGSIZE)) = true ∧ user (s.pte n (va / PGSIZE)) = true ∧
      f = PTE_ADDR (s.pte n (va / PGSIZE))) s := by
  rw [uva2ka, wp_bind, wp_get]
  simp only [Kernel.lookup_va]
  split_ifs with ht
  · simp only [loadPte, readPte, wp_bind, wp_get, wp_pure, Kernel.mem_ptr ht]
    split_ifs with hp hu
    · simp
    · simp
    · rw [wp_pure]
      refine ⟨rfl, ?_⟩
      rintro _ ⟨⟩
      refine ⟨?_, by simpa using hp, by simpa using hu, rfl⟩
      by_contra hge
      have := (hN.kern (va / PGSIZE) (by omega) (by simp only [PGSIZE]; omega)).1
      rw [this] at hu
      exact hu rfl
  · simp [loadPte, hst]

theorem copyout_spec (hst : E.strict = true) (hcn : n ≠ c) {src : ℕ → K Byte} (len va k : ℕ)
    (hB : Base E g s) (hC : Space g s c Set.univ) (hN : Space g s n Set.univ)
    (hsrc : ∀ j, k ≤ j → j < k + len → SrcOk E c (src j)) :
    wp (copyout E c n src len va k) (fun _ t => ∃ g', Stage E g s c n g' t) s := by
  induction len generalizing va k g s with
  | zero =>
    rw [copyout, wp_pure]
    exact ⟨g, .refl hB hC hN hcn⟩
  | succ len ih =>
    rw [copyout, wp_bind]
    refine wp_mono (uva2ka_spec hst hN (Nat.mod_lt _ (by norm_num))) ?_
    rintro r t ⟨rfl, hr⟩
    cases r with
    | none =>
      rw [wp_pure]
      exact ⟨g, .refl hB hC hN hcn⟩
    | some f =>
      obtain ⟨hv, hp, hu, rfl⟩ := hr f rfl
      simp only [wp_bind]
      refine wp_mono (hsrc k le_rfl (by omega) _ _ hB hC) ?_
      rintro b t1 ⟨g1, h1⟩
      have hs1 := Stage.of_lives h1 hN hcn
      obtain ⟨-, -, hpte1⟩ := h1.leaves.tree n (by simpa using hcn) hN.toTree
      rw [wp_modify]
      rw [← hpte1] at hp hu ⊢
      have hs2 := Stage.of_write hs1.base hs1.cur hs1.new hcn hv hp hu
        (setByte (t1.mem (PTE_ADDR (t1.pte n (va % 2 ^ 32 / PGSIZE)))) va b)
      refine wp_mono (ih (va + 1) (k + 1) hs2.base hs2.cur hs2.new
        fun j h1 h2 => hsrc j (by omega) (by omega)) ?_
      rintro - t3 ⟨g3, h3⟩
      exact ⟨g3, hs1.trans (hs2.trans h3)⟩

theorem pushArgs_spec (hst : E.strict = true) (hcn : n ≠ c) {cursz : ℕ} (hsz : cursz ≤ KERNBASE)
    (args : List ℕ) (sp : ℕ) (ustack : List ℕ) (hB : Base E g s) (hC : Space g s c Set.univ)
    (hN : Space g s n Set.univ) :
    wp (pushArgs E c pid cursz n args sp ustack) (fun _ t => ∃ g', Stage E g s c n g' t) s := by
  induction args generalizing sp ustack g s with
  | nil =>
    rw [pushArgs, wp_pure]
    exact ⟨g, .refl hB hC hN hcn⟩
  | cons arg args ih =>
    rw [pushArgs]
    split_ifs
    · rw [wp_pure]
      exact ⟨g, .refl hB hC hN hcn⟩
    rcases Nat.lt_or_ge arg cursz with harg | harg
    swap
    · have h0 : cursz - arg = 0 := by omega
      rw [h0, wp_bind, kstrlen]
      simp
    have hle : arg + (cursz - arg) ≤ KERNBASE := by omega
    simp only [wp_bind]
    refine wp_mono (kstrlen_spec hst _ arg hB hC hle) ?_
    rintro len0 t1 ⟨-, g1, h1⟩
    refine wp_mono (kstrlen_spec hst _ arg h1.base h1.space hle) ?_
    rintro len t2 ⟨hlen, g2, h2⟩
    have hs2 := Stage.of_lives (h1.trans h2) hN hcn
    refine wp_mono (copyout_spec hst hcn (len + 1) _ 0 hs2.base hs2.cur hs2.new
      fun j _ hj g s hB hC => kload_spec hst hB hC (by omega)) ?_
    rintro b t3 ⟨g3, h3⟩
    split_ifs
    · refine wp_mono (ih _ _ h3.base h3.cur h3.new) ?_
      rintro - t4 ⟨g4, h4⟩
      exact ⟨g4, hs2.trans (h3.trans h4)⟩
    · rw [wp_pure]
      exact ⟨g3, hs2.trans h3⟩

/-! ### The image -/

/-- Up to its commit `exec` has changed nothing but the new address space `n`,
and moved pages of the current one. -/
structure Built (E : Env) (g : Ghost) (s : Kernel) (c n : ℕ) (g' : Ghost) (t : Kernel) : Prop where
  base : Base E g' t
  proc : SameProc s t
  leaves : Leaves {c, n} g s g' t
  cur : Space g' t c Set.univ
  content : ∀ v < UVPN, t.content c v = s.content c v
  guard : ∀ v < UVPN, present (t.pte c v) = true → user (t.pte c v) = false →
    t.pte c v = s.pte c v
  balance : t.numallocblocks - t.nswapped c = s.numallocblocks - s.nswapped c
  new : Space g' t n Set.univ
  noswap : ∀ v < UVPN, swapped (t.pte n v) = false

namespace Built

theorem trans (h : Built E g s c n g' t) (h' : Built E g' t c n g'' u) : Built E g s c n g'' u where
  base := h'.base
  proc := h.proc.trans h'.proc
  leaves := h.leaves.trans h'.leaves
  cur := h'.cur
  content v hv := by rw [h'.content v hv, h.content v hv]
  guard v hv hp hu := by
    have e := h'.guard v hv hp hu
    rw [e] at hp hu ⊢
    exact h.guard v hv hp hu
  balance := h'.balance.trans h.balance
  new := h'.new
  noswap := h'.noswap

theorem of_builds (h : Builds E g s n g' t) (hC : Space g s c Set.univ) (hcn : n ≠ c) :
    Built E g s c n g' t := by
  have hc : c ∉ ({n} : Set ℕ) := by simpa using hcn.symm
  obtain ⟨hC', hcont⟩ := h.leaves.space c hc hC
  obtain ⟨-, -, hpte⟩ := h.leaves.tree c hc hC.toTree
  refine ⟨h.base, h.proc, h.leaves.mono (mem_pair_right c n), hC', hcont, fun v _ _ _ => hpte v, ?_,
    h.space, h.noswap⟩
  have : t.nswapped c = s.nswapped c := nswapped_congr fun v _ => by rw [hpte]
  rw [h.count, this]

theorem of_stage (h : Stage E g s c n g' t) (hn : ∀ v < UVPN, swapped (s.pte n v) = false) :
    Built E g s c n g' t :=
  ⟨h.base, h.proc, h.leaves, h.cur, h.content, h.guard, h.balance, h.new, h.noswap hn⟩

end Built

theorem npages_PGROUNDUP (sz : ℕ) : npages (PGROUNDUP sz) = npages sz := by
  simp only [npages, PGROUNDUP, PGSIZE]; omega

/-- The page below the stack becomes the guard page. -/
theorem clearpteu_spec (hB : Base E g s) (hN : Space g s n Set.univ) (hsh : Shape s n sz)
    {uva : ℕ} (hv : uva / PGSIZE < npages sz)
    (hz : s.content n (uva / PGSIZE) = fun _ => 0#32) :
    wp (clearpteu n uva) (fun _ t => Builds E g s n g t ∧ Loaded t n sz) s := by
  have hu := npages_le hsh.le
  obtain ⟨hp, -⟩ := hsh.below _ hv
  have ht := present_table_of_entry hp
  have hE := hN.entry (uva / PGSIZE) (by omega) trivial
  rw [clearpteu, wp_bind, wp_get]
  simp only [Kernel.lookup_va, if_pos ht, wp_bind, readPte, wp_get, wp_pure, Kernel.mem_ptr ht,
    writePte, wp_modify]
  set v := uva / PGSIZE with hvdef
  set w := s.pte n v &&& ~~~PTE_U with hw
  have hbit : ∀ k, k < 32 → k ≠ 2 → w.getLsbD k = (s.pte n v).getLsbD k := by
    intro k hk hk2
    have hU : ∀ k < 32, k ≠ 2 → (~~~PTE_U).getLsbD k = true := by decide
    rw [hw, BitVec.getLsbD_and, hU k hk hk2, Bool.and_true]
  have hpw : present w = true := (hbit 0 (by norm_num) (by norm_num)).trans hp
  have hsw : swapped w = false :=
    (hbit 9 (by norm_num) (by norm_num)).trans (hE.only hp)
  have huw : user w = false := by
    rw [hw, user, BitVec.getLsbD_and]
    simp [PTE_U]
  have haw : PTE_ADDR w = PTE_ADDR (s.pte n v) := PTE_ADDR_and (by decide)
  have hst := Store.of_setWord (g := g) (w := w) (show v < 2 ^ 20 by have := UVPN_eq; omega) ht
  obtain ⟨hd, hpv, hpo⟩ := hst.entries hN.toTree
  have hEw : EntryOk g n v w :=
    ⟨fun _ => by rw [haw, hE.frame hp], fun _ => hsw, fun h => absurd h (by rw [huw]; simp),
      fun h => absurd h (by rw [hsw]; simp)⟩
  have hN' := hst.space hN (fun _ _ => hEw) fun h => by omega
  have hself : (s.setWord (s.ptr n v).1 (s.ptr n v).2 w).content n v = fun _ => 0#32 := by
    rw [← hz, Kernel.content_present hp, Kernel.content_present (by rwa [hpv]), hpv, haw]
    have hne : PTE_ADDR (s.pte n v) ≠ (s.ptr n v).1 := fun e => by
      have := hN.tab _ ht
      rw [show PTE_ADDR (s.mem n (pdx v)) = PTE_ADDR (s.pte n v) from e.symm, hE.frame hp] at this
      cases this
    rw [Kernel.setWord_mem, Function.update_of_ne hne]
  refine ⟨⟨hB.congr_mem rfl rfl rfl, ⟨rfl, rfl, rfl, rfl⟩, (hst.keeps hN.toTree).leaves, hN',
    fun x hx => ?_, rfl⟩, fun x hx => ?_, fun x hx hge => ?_, fun x hx hpx hux => ?_, hsh.le⟩
  · by_cases hxv : x = v
    · rw [hxv, hpv, hsw]
    · rw [hpo x (hx.trans (by decide)) hxv]
      exact hsh.noswap hN x hx
  · by_cases hxv : x = v
    · rw [hxv, hpv, hpw]
    · rw [hpo x (by have := UVPN_eq; omega) hxv]
      exact (hsh.below x hx).1
  · rw [hpo x (hx.trans (by decide)) (by omega)]
    exact hsh.above x hx hge
  · by_cases hxv : x = v
    · rw [hxv, hself]
    · rw [hpo x (hx.trans (by decide)) hxv] at hpx hux
      rcases Nat.lt_or_ge x (npages sz) with hlt | hge
      · rw [(hsh.below x hlt).2] at hux; cases hux
      · rw [hsh.above x hx hge] at hpx
        simp at hpx

theorem buildImage_spec (hst : E.strict = true) (hcn : n ≠ c) {cursz : ℕ} (hsz : cursz ≤ KERNBASE)
    {ip : Image} {argv : List ℕ} (hB : Base E g s) (hC : Space g s c Set.univ)
    (hN : Space g s n Set.univ) (h0 : ∀ v < UVPN, s.pte n v = 0#32) :
    wp (buildImage E c pid cursz n ip argv) (fun r t => ∃ g', Built E g s c n g' t ∧
      ∀ sz, r = some sz → Loaded t n sz) s := by
  have hsh0 : Shape s n 0 := ⟨fun v hv => by simp [npages_zero] at hv, fun v hv _ => h0 v hv,
    Nat.zero_le _⟩
  rw [buildImage, wp_bind]
  refine wp_mono (loadSegments_spec _ 0 hB hN hsh0) ?_
  rintro r t1 ⟨g1, hb1, hr⟩
  have hbt1 := Built.of_builds hb1 hC hcn
  cases r with
  | none =>
    rw [wp_pure]
    exact ⟨g1, hbt1, by simp⟩
  | some sz0 =>
  have hsh1 := hr sz0 rfl
  simp only [wp_bind]
  refine wp_mono (fileLayer_spec hb1.base _) ?_
  rintro - t2 ⟨g2, h2⟩
  obtain ⟨hN2, hcont2⟩ := hb1.space.keeps h2.keeps (Set.notMem_empty n)
  obtain ⟨-, -, hpte2⟩ := hb1.space.toTree.keeps h2.keeps (Set.notMem_empty n)
  have hround : PGROUNDUP sz0 ≤ KERNBASE := by
    have := hsh1.le
    simp only [PGROUNDUP, PGSIZE, KERNBASE] at this ⊢
    omega
  have hsh2 : Shape t2 n (PGROUNDUP sz0) :=
    ⟨fun v hv => by rw [hpte2]; exact hsh1.below v (by rwa [npages_PGROUNDUP] at hv),
      fun v hv hge => by rw [hpte2]; exact hsh1.above v hv (by rwa [npages_PGROUNDUP] at hge), hround⟩
  have hb2 : Builds E g1 t1 n g2 t2 :=
    ⟨h2.base, h2.mem.toSameProc, h2.keeps.leaves.mono (Set.empty_subset _), hN2, hsh2.noswap hN2,
      h2.count⟩
  refine wp_mono (allocuvm_spec h2.base hN2 (hsh2.noswap hN2)) ?_
  rintro sz t3 ⟨g3, hb3, hr3⟩
  have hbt3 := Built.of_builds (hb1.trans (hb2.trans hb3)) hC hcn
  split_ifs with hs0
  · rw [wp_pure]
    exact ⟨g3, hbt3, by simp⟩
  rcases hr3 hs0 with ⟨hlt, -⟩ | ⟨hle, rfl, hk, hz⟩
  · omega
  have hsh3 := hsh2.grow hle hk.le hz
  have hguard : (PGROUNDUP sz0 + 2 * PGSIZE - 2 * PGSIZE) / PGSIZE = npages (PGROUNDUP sz0) := by
    simp only [npages, PGROUNDUP, PGSIZE]; omega
  have hnp : npages (PGROUNDUP sz0) < npages (PGROUNDUP sz0 + 2 * PGSIZE) := by
    simp only [npages, PGROUNDUP, PGSIZE]; omega
  simp only [wp_bind]
  refine wp_mono (clearpteu_spec hb3.base hb3.space hsh3 (by rw [hguard]; exact hnp) (by
    rw [hguard]
    exact (hz.self _ le_rfl hnp).2.2)) ?_
  rintro - t4 ⟨hb4, hl4⟩
  have hbt4 := Built.of_builds (hb1.trans (hb2.trans (hb3.trans hb4))) hC hcn
  refine wp_mono (pushArgs_spec hst hcn hsz argv _ [] hbt4.base hbt4.cur hbt4.new) ?_
  rintro r5 t5 ⟨g5, h5⟩
  have hbt5 := hbt4.trans (.of_stage h5 hbt4.noswap)
  cases r5 with
  | none =>
    rw [wp_pure]
    exact ⟨g5, hbt5, by simp⟩
  | some q =>
  simp only [wp_bind]
  refine wp_mono (copyout_spec hst hcn _ _ 0 hbt5.base hbt5.cur hbt5.new fun j _ _ g s hB hC => ?_) ?_
  · rw [wp_pure]
    exact ⟨g, .refl hB hC⟩
  rintro b t6 ⟨g6, h6⟩
  have hbt6 := hbt5.trans (.of_stage h6 hbt5.noswap)
  split_ifs
  · rw [wp_pure]
    refine ⟨g6, hbt6, ?_⟩
    rintro _ ⟨⟩
    exact h6.loaded _ (h5.loaded _ hl4)
  · rw [wp_pure]
    exact ⟨g6, hbt6, by simp⟩

/-- `exec` has replaced the address space of `p`. -/
structure Execed (E : Env) (g : Ghost) (s : Kernel) (p : Slot) (n sz : ℕ) (g' : Ghost)
    (t : Kernel) : Prop where
  base : Base E g' t
  proc : t.proc = Function.update s.proc p { s.proc p with pgdir := n, sz := sz }
  kpgdir : t.kpgdir = s.kpgdir
  initproc : t.initproc = s.initproc
  old : g.frame n = .free
  leaves : Leaves {s.dir p} g s g' t
  space : Space g' t n Set.univ
  noswap : t.nswapped n = 0
  loaded : Loaded t n sz
  count : t.numallocblocks = s.numallocblocks - s.nswapped (s.dir p)

theorem exec_spec (hst : E.strict = true) {p : Slot} {ip : Image} {argv : List ℕ}
    (hB : Base E g s) (hC : Space g s (s.dir p) Set.univ) (hsz : (s.proc p).sz ≤ KERNBASE) :
    wp (exec E p ip argv) (fun _ t => (∃ g', Lives E g s (s.dir p) g' t) ∨
      ∃ n sz g', Execed E g s p n sz g' t) s := by
  rw [exec, wp_bind, wp_get]
  split_ifs
  · rw [wp_pure]
    exact .inl ⟨g, .refl hB hC⟩
  rw [wp_bind]
  refine wp_mono (setupkvm_spec hB) ?_
  rintro (- | n) t1 h1
  · rw [wp_pure]
    left
    rcases h1 with rfl | ⟨n, g', h⟩
    · exact ⟨g, .refl hB hC⟩
    · refine ⟨g', .of_other h.base h.proc h.keeps.leaves (fun e => ?_) ?_ hC h.count⟩
      · have := h.old
        rw [← show s.dir p = n from e, hC.dir] at this
        cases this
      · rintro x rfl
        exact h.old
  obtain ⟨g1, hN⟩ := h1
  obtain ⟨hnc, hC1, hpte1, hcont1⟩ := hN.copying hC
  simp only [wp_bind]
  refine wp_mono (buildImage_spec (c := s.dir p) hst hnc hsz hN.base hC1 hN.space
    fun v hv => hN.empty hv) ?_
  rintro r t2 ⟨g2, h2, hl⟩
  have hns1 : t1.nswapped (s.dir p) = s.nswapped (s.dir p) :=
    nswapped_congr fun v _ => by rw [hpte1]
  have hleaves : Leaves {s.dir p} g s g2 t2 :=
    ((hN.keeps.leaves.mono (Set.empty_subset _)).trans h2.leaves).drop fun x hx => by
      rcases hx with rfl | rfl
      · exact .inl rfl
      · exact .inr hN.old
  have hbal : t2.numallocblocks - t2.nswapped (s.dir p) = s.numallocblocks - s.nswapped (s.dir p) := by
    rw [h2.balance, hN.disk.count, hns1]
  cases r with
  | none =>
    have hlives : Lives E g s (s.dir p) g2 t2 :=
      ⟨h2.base, hN.proc.trans h2.proc, hleaves, h2.cur, fun v hv => by
        rw [h2.content v hv, hcont1 v hv], fun v hv hp hu => by
        rw [h2.guard v hv hp hu, hpte1], hbal⟩
    refine wp_mono (freevm_spec h2.base h2.new) ?_
    rintro - t3 ⟨g3, h3⟩
    have hcn : s.dir p ∉ ({n} : Set ℕ) := by simpa using hnc.symm
    obtain ⟨hS3, hcont3⟩ := h3.keeps.leaves.space _ hcn h2.cur
    obtain ⟨-, -, hpte3⟩ := h3.keeps.leaves.tree _ hcn h2.cur.toTree
    have hns3 : t3.nswapped (s.dir p) = t2.nswapped (s.dir p) :=
      nswapped_congr fun v _ => by rw [hpte3]
    refine .inl ⟨g3, h3.base, hlives.proc.trans h3.proc, ?_, hS3, fun v hv => ?_, fun v hv hp hu => ?_, ?_⟩
    · refine ((hleaves.mono (mem_pair_left _ n)).trans
        (h3.keeps.leaves.mono (mem_pair_right _ n))).drop fun x hx => ?_
      rcases hx with rfl | rfl
      · exact .inl rfl
      · exact .inr hN.old
    · rw [hcont3 v hv, hlives.content v hv]
    · rw [hpte3] at hp hu ⊢
      exact hlives.guard v hv hp hu
    · rw [h3.count, nswapped_eq_zero h2.noswap, hns3]
      simpa using hbal
  | some sz =>
    simp only [wp_bind, wp_modify]
    have hproc2 : t2.proc = s.proc := (hN.proc.trans h2.proc).proc
    set t3 := t2.setProc p { t2.proc p with pgdir := n, sz := sz } with ht3
    refine wp_mono (freevm_spec (s := t3) (g := g2) (h2.base.congr_mem rfl rfl rfl)
      ⟨⟨h2.cur.dir, h2.cur.tab⟩, h2.cur.entry, h2.cur.kern⟩) ?_
    rintro - t4 ⟨g4, h4⟩
    have hnc' : n ∉ ({s.dir p} : Set ℕ) := by simpa using hnc
    have hN3 : Space g2 t3 n Set.univ := ⟨⟨h2.new.dir, h2.new.tab⟩, h2.new.entry, h2.new.kern⟩
    obtain ⟨hS4, hcont4⟩ := h4.keeps.leaves.space n hnc' hN3
    obtain ⟨-, -, hpte4⟩ := h4.keeps.leaves.tree n hnc' hN3.toTree
    have hl2 := hl sz rfl
    have h23 : Leaves {s.dir p} g2 t2 g2 t3 :=
      ⟨fun _ _ hT => ⟨⟨hT.dir, hT.tab⟩, rfl, fun _ => rfl⟩, fun _ _ hS =>
        ⟨⟨⟨hS.dir, hS.tab⟩, hS.entry, hS.kern⟩, fun _ _ => rfl⟩, fun _ _ h => h⟩
    refine .inr ⟨n, sz, g4, h4.base, ?_, ?_, ?_, hN.old, hleaves.trans (h23.trans h4.keeps.leaves), hS4,
      nswapped_eq_zero fun v hv => ?_, ⟨fun v hv => ?_, fun v hv hge => ?_, fun v hv hp hu => ?_,
      hl2.le⟩, ?_⟩
    · rw [h4.proc.proc, ht3, Kernel.setProc_proc, hproc2]
    · rw [h4.proc.kpgdir]
      exact (hN.proc.trans h2.proc).kpgdir
    · rw [h4.proc.initproc]
      exact (hN.proc.trans h2.proc).initproc
    · rw [hpte4]
      exact h2.noswap v hv
    · rw [hpte4]
      exact hl2.below v hv
    · rw [hpte4]
      exact hl2.above v hv hge
    · rw [hpte4] at hp hu
      rw [hcont4 v hv]
      exact hl2.guard v hv hp hu
    · rw [h4.count]
      change t2.numallocblocks - t2.nswapped (s.dir p) = _
      exact hbal

end Xv6Lab.Paging
