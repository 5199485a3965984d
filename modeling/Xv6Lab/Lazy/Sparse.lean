import Xv6Lab.Lazy.ForkSpec
import Xv6Lab.Lazy.Holes

/-! `copyuvm` expects every page below the size to be present, as it is without lazy allocation. A
process that has not touched a page makes it panic, unless the memory runs out first. -/

namespace Xv6Lab.Lazy

open Paging Lib

variable {E : Env} {L : Layout E} {s t u : Machine} {d : PageDir} {v w f m n : ℕ} {perm : Word}
  {P Q : Finset ℕ}

/-! ### The kernel half -/

/-- The rows of `kmap[]`: first page, number of pages, first frame, permissions. -/
def Layout.rows (L : Layout E) : List (ℕ × ℕ × ℕ × Word) :=
  [(UVPN, 256, 0, PTE_W), (UVPN + 256, L.kdata - 256, 256, 0#32),
   (UVPN + L.kdata, E.nframes - L.kdata, L.kdata, PTE_W), (0xFE000, 8192, 0xFE000, PTE_W)]

theorem Layout.kmap_eq (L : Layout E) : L.kmap =
    L.rows.map fun r => ⟨r.1 * PGSIZE, r.2.2.1, r.2.1 * PGSIZE, r.2.2.2⟩ := by
  have h1 := L.kdata_gt
  have h2 := L.kdata_lt
  simp only [EXTMEM, PGSIZE] at h1 h2
  simp only [Layout.kmap, Layout.rows, List.map_cons, List.map_nil, List.cons.injEq, Kmap.mk.injEq,
    KERNBASE, EXTMEM, PGSIZE, UVPN, DEVSPACE, and_true, true_and]
  omega

/-- The pages of the rows. -/
def rowPages : List (ℕ × ℕ × ℕ × Word) → Finset ℕ
  | [] => ∅
  | r :: rs => Finset.Ico r.1 (r.1 + r.2.1) ∪ rowPages rs

/-- The pages that every address space maps for the kernel. -/
def kernelPages (E : Env) : Finset ℕ :=
  Finset.Ico UVPN (UVPN + E.nframes) ∪ Finset.Ico 0xFE000 (2 ^ 20)

theorem Layout.rowPages_eq (L : Layout E) : rowPages L.rows = kernelPages E := by
  have h1 := L.kdata_gt
  have h2 := L.kdata_lt
  simp only [EXTMEM, PGSIZE] at h1
  ext w
  simp only [rowPages, Layout.rows, kernelPages, Finset.mem_union, Finset.mem_Ico,
    Finset.notMem_empty, or_false]
  omega

theorem mappages_row (hn : 0 < n) (v a : ℕ) (perm : Word) :
    mappages E (v * PGSIZE) (n * PGSIZE) a perm = mappagesLoop E perm n v a := by
  have hcount : (v * PGSIZE + n * PGSIZE - 1) / PGSIZE - v * PGSIZE / PGSIZE + 1 = n := by
    simp only [PGSIZE]
    omega
  unfold mappages
  rw [hcount, page_of_va]

/-- The rows from the first on, in the order of their addresses. -/
theorem setupkvmLoop_spec (rows : List (ℕ × ℕ × ℕ × Word)) (hc : Covers s P)
    (hrows : ∀ r ∈ rows, 0 < r.2.1 ∧ UVPN ≤ r.1 ∧ r.1 + r.2.1 ≤ 2 ^ 20)
    (hpw : rows.Pairwise fun r r' => r.1 + r.2.1 ≤ r'.1) (hP : ∀ r ∈ rows, ∀ w ∈ P, w < r.1) :
    ∃ b t, setupkvmLoop E (rows.map fun r => ⟨r.1 * PGSIZE, r.2.2.1, r.2.1 * PGSIZE, r.2.2.2⟩) s =
        .ok (b, t) ∧ Extends s UVPN t ∧ (b = true → Covers t (P ∪ rowPages rows)) ∧
      (b = false → Short s P (P ∪ rowPages rows)) := by
  induction rows generalizing s P with
  | nil =>
    refine ⟨true, s, rfl, .refl s UVPN, fun _ => ?_, fun h => by cases h⟩
    unfold rowPages
    rwa [Finset.union_empty]
  | cons r rows ih =>
    obtain ⟨h0, h1, h2⟩ := hrows r List.mem_cons_self
    have hlt := List.pairwise_cons.1 hpw
    obtain ⟨b, t, ht, hext, htrue, hfalse⟩ := mappagesLoop_spec (E := E) (a := r.2.2.1)
      r.2.2.2 hc (fun w hw _ hmem => by
        have := hP r List.mem_cons_self w hmem
        omega) h2
    have hextU : Extends s UVPN t :=
      ⟨fun w hw => hext.pte w (hw.trans_le h1), hext.stock, hext.mem, hext.sz⟩
    rw [List.map_cons, setupkvmLoop, bind_apply, mappages_row h0, ht]
    unfold rowPages
    rw [← Finset.union_assoc]
    cases b with
    | false =>
      exact ⟨false, t, rfl, hextU, fun hb => (by cases hb),
        fun _ => (hfalse rfl).mono Finset.subset_union_left⟩
    | true =>
      have hcover := htrue rfl
      obtain ⟨b, u, hu, hext', htrue', hfalse'⟩ := ih hcover
        (fun r' hr' => hrows r' (List.mem_cons_of_mem _ hr')) hlt.2 (by
          intro r' hr' w hw
          have hr := hlt.1 r' hr'
          rcases Finset.mem_union.1 hw with hw | hw
          · exact hP r' (List.mem_cons_of_mem _ hr') w hw
          · have := (Finset.mem_Ico.1 hw).2
            omega)
      exact ⟨b, u, hu, hextU.trans hext' le_rfl, htrue', fun hb => hextU.short hc hcover (hfalse' hb)⟩

theorem Layout.nframes_le (L : Layout E) : UVPN + E.nframes ≤ 0xFE000 := by
  have h := L.top
  simp only [KERNBASE, PGSIZE, DEVSPACE] at h
  simp only [UVPN, KERNBASE, PGSIZE]
  omega

theorem Layout.rows_ok (L : Layout E) :
    (∀ r ∈ L.rows, 0 < r.2.1 ∧ UVPN ≤ r.1 ∧ r.1 + r.2.1 ≤ 2 ^ 20) ∧
      L.rows.Pairwise fun r r' => r.1 + r.2.1 ≤ r'.1 := by
  have h1 := L.kdata_gt
  have h2 := L.kdata_lt
  have h3 := L.nframes_le
  have hU := UVPN_eq
  simp only [EXTMEM, PGSIZE] at h1
  constructor
  · intro r hr
    simp only [Layout.rows, List.mem_cons, List.not_mem_nil, or_false] at hr
    rcases hr with rfl | rfl | rfl | rfl <;>
    · simp only
      omega
  · simp only [Layout.rows, List.pairwise_cons, List.mem_cons, List.not_mem_nil, or_false,
      forall_eq_or_imp, forall_eq, List.Pairwise.nil, and_true, false_imp_iff, implies_true]
    omega

/-! ### The child under construction -/

/-- The frames of an address space with `n` user pages: its directory, its page tables and the
pages. -/
def framesFor (E : Env) (n : ℕ) : ℕ :=
  1 + ((kernelPages E ∪ Finset.range n).image pdx).card + n

/-- Page tables map 1024 pages each; the devices have eight. -/
theorem framesFor_eq (L : Layout E) (hn : n ≤ UVPN) :
    framesFor E n = 1 + ((n + 1023) / 1024 + (E.nframes + 1023) / 1024 + 8) + n := by
  have hN := L.nframes_le
  have hU := UVPN_eq
  have himage : ((kernelPages E ∪ Finset.range n).image pdx).image Fin.val =
      Finset.range ((n + 1023) / 1024) ∪ (Finset.Ico 512 (512 + (E.nframes + 1023) / 1024) ∪
        Finset.Ico 1016 1024) := by
    rw [Finset.image_image]
    ext i
    simp only [kernelPages, Finset.mem_image, Finset.mem_union, Finset.mem_Ico, Finset.mem_range,
      Function.comp_apply, pdx]
    constructor
    · rintro ⟨v, hv, rfl⟩
      omega
    · intro hi
      refine ⟨i * 1024, ?_, ?_⟩ <;> omega
  have hlow : Disjoint (Finset.range ((n + 1023) / 1024))
      (Finset.Ico 512 (512 + (E.nframes + 1023) / 1024) ∪ Finset.Ico 1016 1024) := by
    rw [Finset.disjoint_left]
    intro i hi hmem
    rw [Finset.mem_range] at hi
    rw [Finset.mem_union, Finset.mem_Ico, Finset.mem_Ico] at hmem
    omega
  have hhigh : Disjoint (Finset.Ico 512 (512 + (E.nframes + 1023) / 1024))
      (Finset.Ico 1016 1024) := by
    rw [Finset.disjoint_left]
    intro i hi hmem
    rw [Finset.mem_Ico] at hi hmem
    omega
  unfold framesFor
  rw [← Finset.card_image_of_injective _ Fin.val_injective, himage, Finset.card_union_of_disjoint hlow,
    Finset.card_union_of_disjoint hhigh, Finset.card_range, Nat.card_Ico, Nat.card_Ico,
    Nat.add_sub_cancel_left]
  omega

/-- The child `d` of `s` has the pages below `n`, and `t` the frames that are left. -/
structure Building (s : Machine) (d : PageDir) (n : ℕ) (t : Machine) : Prop where
  covers : Covers (t.under d.tables) (kernelPages E ∪ Finset.range n)
  stock : (t.dirFrames d ++ t.freelist).Perm s.freelist
  mem : ∀ f ∉ s.freelist, t.mem f = s.mem f
  pgdir : t.pgdir = s.pgdir
  flags : ∀ v < n, PTE_FLAGS ((t.under d.tables).pte v) = PTE_FLAGS (s.pte v)
  content : ∀ v < n, t.mem (PTE_ADDR ((t.under d.tables).pte v)) = s.mem (PTE_ADDR (s.pte v))

theorem mem_child (hv : v < UVPN) :
    v ∈ kernelPages E ∪ Finset.range n ↔ v < n := by
  have hU := UVPN_eq
  unfold kernelPages
  rw [Finset.mem_union, Finset.mem_union, Finset.mem_Ico, Finset.mem_Ico, Finset.mem_range]
  omega

/-- An address space with `n` user pages has that many frames. -/
theorem dirFrames_length (hn : n ≤ UVPN)
    (hc : Covers (t.under d.tables) (kernelPages E ∪ Finset.range n)) :
    (t.dirFrames d).length = framesFor E n := by
  have hpages : ((t.under d.tables).pageFrames (List.range UVPN)).length = n := by
    have hpresent : ∀ v ∈ List.range UVPN,
        (present ((t.under d.tables).pte v) = true ↔ decide (v < n) = true) := by
      intro v hv
      have hv := List.mem_range.1 hv
      rw [hc.page v (hv.trans (by decide)), mem_child hv, decide_eq_true_eq]
    have hfilter : ((List.range UVPN).filter fun v => decide (v < n)).toFinset = Finset.range n := by
      ext v
      rw [List.mem_toFinset, List.mem_filter, List.mem_range, Finset.mem_range, decide_eq_true_eq]
      omega
    unfold Machine.pageFrames
    rw [List.length_filterMap_eq_countP]
    calc _ = (List.range UVPN).countP fun v => present ((t.under d.tables).pte v) := by
          apply List.countP_congr
          intro v _
          split_ifs with hp <;> simp [hp]
      _ = (List.range UVPN).countP fun v => decide (v < n) := List.countP_congr hpresent
      _ = n := by
        rw [List.countP_eq_length_filter,
          ← List.toFinset_card_of_nodup (List.nodup_range.filter _), hfilter, Finset.card_range]
  unfold Machine.dirFrames framesFor
  rw [List.length_cons, List.length_append, hc.length, hpages]
  omega

/-- `setupkvm` builds the kernel half, or there are not frames enough for it. -/
theorem setupkvm_spec (hr : ∀ f ∈ s.freelist, E.kend ≤ f ∧ f < E.nframes) :
    (∃ d t, setupkvm L s = .ok (some d, t) ∧ Building (E := E) s d 0 t) ∨
      (∃ t, setupkvm L s = .ok (none, t) ∧ t.freelist.Perm s.freelist ∧
        s.freelist.length < framesFor E 0) := by
  have hzero : kernelPages E ∪ Finset.range 0 = kernelPages E := by
    rw [Finset.range_zero, Finset.union_empty]
  unfold setupkvm
  rw [bind_apply]
  cases kalloc_cases E s with
  | inl h =>
    right
    rw [h.2]
    refine ⟨s, rfl, .refl _, ?_⟩
    unfold framesFor
    rw [h.1, List.length_nil]
    omega
  | inr h =>
    obtain ⟨f, l, hperm, hk⟩ := h
    have htop : ¬ DEVSPACE < KERNBASE + E.nframes * PGSIZE := by
      have := L.top
      omega
    rw [hk]
    simp only [memset, bind_apply, modify_apply, if_neg htop, inDir_apply]
    set s1 : Machine := ({ s with freelist := l } : Machine).setFrame f fun _ => 0#32 with hs1
    have hempty : Covers (s1.under fun _ => none) ∅ := by
      constructor
      · intro w _
        have hpte : (s1.under fun _ => none).pte w = 0#32 := rfl
        rw [hpte, present_zero]
        simp
      · intro i
        have hnone : (s1.under fun _ => none).pgdir i = none := rfl
        rw [hnone, Finset.image_empty]
        simp
    obtain ⟨b, t1, ht1, hext, htrue, hfalse⟩ := setupkvmLoop_spec (E := E) L.rows hempty
      L.rows_ok.1 L.rows_ok.2 fun _ _ w hw => absurd hw (Finset.notMem_empty w)
    rw [L.rowPages_eq, Finset.empty_union] at htrue hfalse
    rw [L.kmap_eq, ht1]
    set d : PageDir := ⟨f, t1.pgdir⟩
    set t : Machine := t1.under s.pgdir
    have hnoTables : (s1.under fun _ => none).tableFrames = [] := by
      apply List.eq_nil_of_length_eq_zero
      rw [hempty.length, Finset.image_empty, Finset.card_empty]
    have hnoPages : t1.pageFrames (List.range UVPN) = [] := by
      apply Machine.pageFrames_nil
      intro v hv
      rw [hext.pte v (List.mem_range.1 hv)]
      exact present_zero
    have hdir : t.dirFrames d = f :: t1.tableFrames := by
      calc t.dirFrames d = f :: (t1.tableFrames ++ t1.pageFrames (List.range UVPN)) := rfl
        _ = f :: t1.tableFrames := by rw [hnoPages, List.append_nil]
    have hstock : (t.dirFrames d ++ t.freelist).Perm s.freelist := by
      rw [hdir]
      have htables := hext.stock
      rw [hnoTables] at htables
      exact (htables.cons f).trans hperm.symm
    cases b with
    | true =>
      left
      refine ⟨d, t, rfl, ?_⟩
      constructor
      · rw [hzero]
        exact htrue rfl
      · exact hstock
      · intro x hx
        have hxf : x ≠ f := by
          rintro rfl
          exact hx (hperm.mem_iff.2 List.mem_cons_self)
        calc t.mem x = s1.mem x := congrFun hext.mem x
          _ = s.mem x := Function.update_of_ne hxf ..
      · rfl
      · exact fun v hv => absurd hv (Nat.not_lt_zero v)
      · exact fun v hv => absurd hv (Nat.not_lt_zero v)
    | false =>
      right
      obtain ⟨u, hu, hfree⟩ := freevm_frames (E := E) (s := t) d fun x hx =>
        hr x (hstock.mem_iff.1 (List.mem_append_left _ hx))
      refine ⟨u, ?_, hfree.trans hstock, ?_⟩
      · simp only [Bool.false_eq_true, ↓reduceIte, bind_apply, pure_apply]
        have hun : t1.under s1.pgdir = t := rfl
        rw [hun, hu]
      · have hshort := hfalse rfl
        unfold Short at hshort
        rw [Finset.image_empty, Finset.card_empty] at hshort
        have hlen : s.freelist.length = l.length + 1 := hperm.length_eq
        have hfl : (s1.under fun _ => none).freelist.length = l.length := rfl
        unfold framesFor
        rw [hzero]
        omega

/-! ### One page -/

theorem framesFor_lt {k : ℕ} (h : n < k) : framesFor E n < framesFor E k := by
  have hsub : kernelPages E ∪ Finset.range n ⊆ kernelPages E ∪ Finset.range k :=
    Finset.union_subset_union_right (Finset.range_mono h.le)
  have hcard := Finset.card_le_card (Finset.image_subset_image (f := pdx) hsub)
  unfold framesFor
  omega

/-- A page without a page table needs two frames. -/
theorem framesFor_of_table (h : pdx n ∉ (kernelPages E ∪ Finset.range n).image pdx) :
    framesFor E (n + 1) = framesFor E n + 2 := by
  unfold framesFor
  rw [Finset.range_add_one, Finset.union_insert, Finset.image_insert,
    Finset.card_insert_of_notMem h]
  omega

theorem mappages_one (hv : v < 2 ^ 20) (hnp : present (s.pte v) = false) (m : ℕ) (perm : Word) :
    (∃ t, mappages E (v * PGSIZE) PGSIZE m perm s = .ok (true, t) ∧ Laid s v (mapPte m perm) t) ∨
      (mappages E (v * PGSIZE) PGSIZE m perm s = .ok (false, s) ∧ s.freelist = [] ∧
        (s.pgdir (pdx v)).isSome = false) := by
  rw [mappages, one_page, page_of_va, mappagesLoop, bind_apply]
  cases walkpgdir_true E s v with
  | inl h =>
    left
    obtain ⟨t, ht, hw⟩ := h
    have habsent : ¬ present (t.pte v) = true := by
      rw [hw.pte, hnp]
      decide
    rw [ht]
    simp only [↓reduceIte, bind_apply, get_apply]
    rw [if_neg habsent, bind_apply, modify_apply]
    exact ⟨_, rfl, hw.setPte hv _⟩
  | inr h =>
    right
    rw [h.1]
    exact ⟨rfl, h.2⟩

/-- The frames of a page directory that has one more page. -/
theorem perm_one_more {A A' B B' C l : List ℕ} (h1 : (A ++ C).Perm (A' ++ l))
    (h2 : B.Perm (m :: B')) : (f :: (A ++ B) ++ C).Perm (f :: (A' ++ B') ++ m :: l) := by
  rw [List.perm_iff_count] at h1 h2 ⊢
  intro x
  have hx1 := h1 x
  have hx2 := h2 x
  simp only [List.count_append, List.count_cons] at hx1 hx2 ⊢
  omega

theorem PTE_FLAGS_mapPte {x : Word} (hx : present x = true) (m : ℕ) :
    PTE_FLAGS (mapPte m (PTE_FLAGS x)) = PTE_FLAGS x := by
  have hP : ∀ k < 32, k ≠ 0 → PTE_P.getLsbD k = false := by decide
  have hmask : ∀ k < 32, ¬ k < 12 → (0xFFF#32).getLsbD k = false := by decide
  apply BitVec.eq_of_getLsbD_eq
  intro k hk
  by_cases h12 : k < 12
  · rw [getLsbD_PTE_FLAGS _ h12, getLsbD_PTE_FLAGS _ h12, mapPte_eq, getLsbD_V2P_or _ _ h12,
      BitVec.getLsbD_or, getLsbD_PTE_FLAGS _ h12]
    by_cases h0 : k = 0
    · subst h0
      have hbit : x.getLsbD 0 = true := hx
      rw [hbit, Bool.true_or]
    · rw [hP k hk h0, Bool.or_false]
  · unfold PTE_FLAGS
    rw [BitVec.getLsbD_and, BitVec.getLsbD_and, hmask k hk h12, Bool.and_false, Bool.and_false]

namespace Building

theorem pte (h : Building (E := E) s d n t) (v : ℕ) : t.pte v = s.pte v := by
  unfold Machine.pte
  rw [h.pgdir]

theorem length (h : Building (E := E) s d n t) (hn : n ≤ UVPN) :
    framesFor E n + t.freelist.length = s.freelist.length := by
  rw [← h.stock.length_eq, List.length_append, dirFrames_length hn h.covers]

/-- A page is copied into the frame `m`. -/
theorem step (h : Building (E := E) s d n t) (hW : WF E s) (hn : n < UVPN)
    (hp : present (s.pte n) = true) {l : List ℕ} (hm : t.freelist.Perm (m :: l))
    (hu : Laid ((({ t with freelist := l } : Machine).setFrame m
      (t.mem (PTE_ADDR (s.pte n)))).under d.tables) n (mapPte m (PTE_FLAGS (s.pte n))) u) :
    Building (E := E) s ⟨d.frame, u.pgdir⟩ (n + 1) (u.under t.pgdir) := by
  have hms : m ∈ s.freelist :=
    h.stock.mem_iff.1 (List.mem_append_right _ (hm.mem_iff.2 List.mem_cons_self))
  have hnd : (t.dirFrames d ++ t.freelist).Nodup := h.stock.nodup_iff.2 hW.nodup
  have hmem : u.mem = Function.update t.mem m (t.mem (PTE_ADDR (s.pte n))) := hu.mem
  have haddr : PTE_ADDR (u.pte n) = m := by
    rw [hu.self]
    exact PTE_ADDR_mapPte ((hW.range m hms).2.trans_le E.nframes_le) (PTE_FLAGS_shift _)
  have hother : ∀ v < n, u.pte v = (t.under d.tables).pte v := fun v hv =>
    hu.pte v (hv.trans (hn.trans (by decide))) hv.ne
  -- the pages that are there are in other frames
  have hne : ∀ v < n, PTE_ADDR ((t.under d.tables).pte v) ≠ m := by
    intro v hv heq
    have hmem : PTE_ADDR ((t.under d.tables).pte v) ∈ t.dirFrames d := by
      have hvU := hv.trans hn
      have hpv : present ((t.under d.tables).pte v) = true := by
        rw [h.covers.page v (hvU.trans (by decide)), mem_child hvU]
        exact hv
      exact mem_dirFrames hvU hpv
    rw [heq] at hmem
    exact (List.nodup_append.1 hnd).2.2 m hmem m (hm.mem_iff.2 List.mem_cons_self) rfl
  constructor
  · have hinsert : insert n (kernelPages E ∪ Finset.range n) =
        kernelPages E ∪ Finset.range (n + 1) := by
      rw [Finset.range_add_one, Finset.union_insert]
    rw [← hinsert]
    exact hu.covers (h.covers.of_pgdir rfl) (present_mapPte _ _)
  · have hpages : (u.pageFrames (List.range UVPN)).Perm
        (m :: (t.under d.tables).pageFrames (List.range UVPN)) := by
      have habsent : ¬ present ((t.under d.tables).pte n) = true := by
        rw [h.covers.page n (hn.trans (by decide)), mem_child hn]
        exact lt_irrefl n
      have hnew := filterMap_update_perm List.nodup_range (List.mem_range.2 hn)
        (g := fun v => if present ((t.under d.tables).pte v) then
          some (PTE_ADDR ((t.under d.tables).pte v)) else none) (if_neg habsent) m
      have hsame : u.pageFrames (List.range UVPN) = (List.range UVPN).filterMap
          (Function.update (fun v => if present ((t.under d.tables).pte v) then
            some (PTE_ADDR ((t.under d.tables).pte v)) else none) n (some m)) := by
        apply List.filterMap_congr
        intro v hv
        by_cases hvn : v = n
        · subst hvn
          rw [Function.update_self, haddr, hu.self, present_mapPte]
          rfl
        · rw [Function.update_of_ne hvn, hu.pte v ((List.mem_range.1 hv).trans (by decide)) hvn]
          rfl
      rw [hsame]
      exact hnew
    exact (perm_one_more hu.stock hpages).trans ((hm.symm.append_left _).trans h.stock)
  · intro x hx
    have hxm : x ≠ m := by
      rintro rfl
      exact hx hms
    calc u.mem x = t.mem x := by rw [hmem, Function.update_of_ne hxm]
      _ = s.mem x := h.mem x hx
  · exact h.pgdir
  · intro v hv
    have hun : (Machine.under (u.under t.pgdir) u.pgdir).pte v = u.pte v := rfl
    rw [hun]
    by_cases hvn : v = n
    · rw [hvn, hu.self, PTE_FLAGS_mapPte hp]
    · rw [hother v (by omega), h.flags v (by omega)]
  · intro v hv
    have hun : (Machine.under (u.under t.pgdir) u.pgdir).pte v = u.pte v := rfl
    rw [hun]
    change u.mem _ = _
    by_cases hvn : v = n
    · rw [hvn, haddr, hmem, Function.update_self]
      exact h.mem _ (hW.own n hn hp).2.2
    · rw [hother v (by omega), hmem, Function.update_of_ne (hne v (by omega)), h.content v (by omega)]

end Building

/-! ### All pages -/

/-- How `copyuvm` of `k` pages ends: with a copy, without the frames for the first `j` pages, or at
the page `j`, which is not present. -/
inductive Outcome (E : Env) (s : Machine) (k : ℕ) : Except Halt (Option PageDir × Machine) → Prop
  | copied {d : PageDir} {t : Machine} (hp : ∀ v < k, present (s.pte v) = true)
    (h : Building (E := E) s d k t) : Outcome E s k (.ok (some d, t))
  | short {t : Machine} {j : ℕ} (hj : j ≤ k) (hp : ∀ v < j, present (s.pte v) = true)
    (hlen : s.freelist.length < framesFor E j) (hfree : t.freelist.Perm s.freelist) :
    Outcome E s k (.ok (none, t))
  | hole {j : ℕ} {msg : String} (hj : j < k) (hp : ∀ v < j, present (s.pte v) = true)
    (hole : present (s.pte j) = false) (hlen : framesFor E j ≤ s.freelist.length) :
    Outcome E s k (.error (.panic msg))

theorem copyuvmBad_spec {s t : Machine} (hW : WF E s)
    (hstock : (t.dirFrames d ++ t.freelist).Perm s.freelist) :
    ∃ u, copyuvmBad E d t = .ok (none, u) ∧ u.freelist.Perm s.freelist := by
  obtain ⟨u, hu, hfree⟩ := freevm_frames (E := E) (s := t) d fun f hf =>
    hW.range f (hstock.mem_iff.1 (List.mem_append_left _ hf))
  refine ⟨u, ?_, hfree.trans hstock⟩
  unfold copyuvmBad
  rw [bind_apply, hu]
  rfl

theorem copyuvmLoop_spec (hW : WF E s) (m n : ℕ) (hk : n + m ≤ UVPN)
    (hp : ∀ v < n, present (s.pte v) = true) (h : Building (E := E) s d n t) :
    Outcome E s (n + m) (copyuvmLoop E m n d t) := by
  induction m generalizing n d t with
  | zero => exact .copied hp h
  | succ m ih =>
    have hn : n < UVPN := by omega
    have hlen := h.length hn.le
    have hstep : framesFor E n < framesFor E (n + 1) := framesFor_lt (Nat.lt_succ_self n)
    unfold copyuvmLoop
    rw [bind_apply, walkpgdir_false]
    cases htab : (t.pgdir (pdx n)).isSome with
    | false =>
      have hhole : present (s.pte n) = false := by
        rw [← h.pte n, Machine.pte_of_none (by simpa using htab), present_zero]
      exact .hole (by omega) hp hhole (by omega)
    | true =>
      simp only [↓reduceIte, bind_apply, get_apply]
      rw [h.pte n]
      by_cases hpn : present (s.pte n) = true
      swap
      · rw [if_neg hpn]
        exact .hole (by omega) hp (Bool.eq_false_iff.2 hpn) (by omega)
      have hall : ∀ v < n + 1, present (s.pte v) = true := by
        intro v hv
        by_cases hvn : v = n
        · rw [hvn, hpn]
        · exact hp v (by omega)
      rw [if_pos hpn]
      simp only [bind_apply]
      cases kalloc_cases E t with
      | inl hnone =>
        rw [hnone.2]
        obtain ⟨u, hu, hfree⟩ := copyuvmBad_spec hW h.stock
        simp only [hu]
        rw [hnone.1, List.length_nil] at hlen
        exact .short (j := n + 1) (by omega) hall (by omega) hfree
      | inr hsome =>
        obtain ⟨f, l, hperm, hk'⟩ := hsome
        rw [hk']
        simp only [bind_apply, modify_apply, inDir_apply]
        set t' : Machine := ({ t with freelist := l } : Machine).setFrame f
          (t.mem (PTE_ADDR (s.pte n))) with ht'
        have habsent : present ((t'.under d.tables).pte n) = false := by
          have hiff := h.covers.page n (hn.trans (by decide))
          rw [mem_child hn] at hiff
          exact Bool.eq_false_iff.2 fun hpres => lt_irrefl n (hiff.1 hpres)
        cases mappages_one (E := E) (hn.trans (by decide)) habsent f (PTE_FLAGS (s.pte n)) with
        | inl hmap =>
          obtain ⟨u, hu, hlaid⟩ := hmap
          have hB := h.step hW hn hpn hperm hlaid
          have hrest := ih (n + 1) (by omega) hall hB
          rw [Nat.add_right_comm, Nat.add_assoc] at hrest
          rw [hu]
          exact hrest
        | inr hmap =>
          rw [hmap.1]
          simp only [Bool.false_eq_true, ↓reduceIte, bind_apply]
          have hf := h.stock.mem_iff.1 (List.mem_append_right _ (hperm.mem_iff.2 List.mem_cons_self))
          obtain ⟨h1, h2⟩ := hW.range f hf
          rw [kfree_frame h1 h2]
          set t'' : Machine := { (t'.setFrame f (E.fill f (t'.mem f))) with freelist := f :: l } with ht''
          have hstock : (t''.dirFrames d ++ t''.freelist).Perm s.freelist :=
            (hperm.symm.append_left _).trans h.stock
          obtain ⟨u, hu, hfree⟩ := copyuvmBad_spec hW hstock
          have hbad : copyuvmBad E ⟨d.frame, d.tables⟩ t'' = .ok (none, u) := hu
          have hl : l = [] := hmap.2.1
          rw [hl] at hperm
          have hone := hperm.length_eq
          have hnot : pdx n ∉ (kernelPages E ∪ Finset.range n).image pdx := by
            intro hmem
            have htable : ((t'.under d.tables).pgdir (pdx n)).isSome = true :=
              (h.covers.table _).2 hmem
            rw [hmap.2.2] at htable
            cases htable
          have htwo := framesFor_of_table hnot
          have hend : Outcome E s (n + (m + 1)) (copyuvmBad E ⟨d.frame, d.tables⟩ t'') := by
            rw [hbad]
            rw [List.length_cons, List.length_nil] at hone
            exact .short (j := n + 1) (by omega) hall (by omega) hfree
          exact hend

theorem copyuvm_outcome (L : Layout E) (hW : WF E s) (hsz : s.sz ≤ KERNBASE) :
    Outcome E s (npages s.sz) (copyuvm L s.sz s) := by
  have hnone : ∀ v < 0, present (s.pte v) = true := fun v hv => absurd hv (Nat.not_lt_zero v)
  unfold copyuvm
  rw [bind_apply]
  rcases setupkvm_spec (L := L) hW.range with ⟨d, t, ht, h⟩ | ⟨t, ht, hfree, hlen⟩
  · have hloop := copyuvmLoop_spec hW (npages s.sz) 0 (by
      have := npages_le hsz
      omega) hnone h
    rw [Nat.zero_add] at hloop
    rw [ht]
    exact hloop
  · rw [ht]
    exact .short (Nat.zero_le _) hnone hlen hfree

/-- The child `d` in `t` has every page of `s`, those beyond the size included: the same contents
and flags where the page is present, zeros where it is not. -/
structure CopyOf (s : Machine) (d : PageDir) (t : Machine) : Prop where
  present : ∀ v < UVPN, Paging.present (s.pte v) = true →
    Paging.present ((t.under d.tables).pte v) = true
  flags : ∀ v < UVPN, Paging.present (s.pte v) = true →
    PTE_FLAGS ((t.under d.tables).pte v) = PTE_FLAGS (s.pte v)
  content : ∀ v < UVPN, (t.under d.tables).content v = s.content v

/-- `copyuvm` returns a copy, or gives back every frame that it has taken. -/
def ForkWorks (L : Layout E) (s : Machine) : Prop :=
  (∃ d t, copyuvm L s.sz s = .ok (some d, t) ∧ CopyOf s d t) ∨
    ∃ t, copyuvm L s.sz s = .ok (none, t) ∧ t.freelist.Perm s.freelist

theorem Building.present_iff (h : Building (E := E) s d n t) (hv : v < UVPN) :
    present ((t.under d.tables).pte v) = true ↔ v < n := by
  rw [h.covers.page v (hv.trans (by decide)), mem_child hv]

/-- The child has the pages below the size, so that these have to be all there are. -/
theorem Building.copyOf_iff (hp : ∀ v < n, present (s.pte v) = true)
    (h : Building (E := E) s d n t) :
    CopyOf s d t ↔ ∀ v < UVPN, n ≤ v → present (s.pte v) = false := by
  constructor
  · intro hcopy v hv hnv
    rw [Bool.eq_false_iff]
    intro hpv
    exact absurd ((h.present_iff hv).1 (hcopy.present v hv hpv)) (Nat.not_lt.2 hnv)
  · intro habove
    have hbelow : ∀ v < UVPN, present (s.pte v) = true → v < n := by
      intro v hv hpv
      by_contra hnv
      rw [habove v hv (Nat.not_lt.1 hnv)] at hpv
      cases hpv
    constructor
    · exact fun v hv hpv => (h.present_iff hv).2 (hbelow v hv hpv)
    · exact fun v hv hpv => h.flags v (hbelow v hv hpv)
    · intro v hv
      by_cases hvn : v < n
      · rw [Machine.content_present ((h.present_iff hv).2 hvn), Machine.content_present (hp v hvn)]
        exact h.content v hvn
      · have habsent : present ((t.under d.tables).pte v) = false := by
          rw [Bool.eq_false_iff]
          exact fun hpv => hvn ((h.present_iff hv).1 hpv)
        rw [Machine.content_not_present habsent,
          Machine.content_not_present (habove v hv (Nat.not_lt.1 hvn))]

theorem framesFor_le {i j : ℕ} (h : i ≤ j) : framesFor E i ≤ framesFor E j := by
  rcases h.lt_or_eq with hlt | rfl
  · exact (framesFor_lt hlt).le
  · exact le_rfl

/-- A page that is not present makes `copyuvm` panic if the frames last up to it. -/
theorem copyuvm_panics (L : Layout E) (hW : WF E s) (hsz : s.sz ≤ KERNBASE) {j : ℕ}
    (hj : j < npages s.sz) (hhole : present (s.pte j) = false)
    (hlen : framesFor E j ≤ s.freelist.length) :
    ∃ msg, copyuvm L s.sz s = .error (.panic msg) := by
  have hout := copyuvm_outcome L hW hsz
  generalize copyuvm L s.sz s = r at hout ⊢
  cases hout with
  | copied hp h =>
    rw [hp j hj] at hhole
    cases hhole
  | @short t i hi hp hshort hfree =>
    have hij : i ≤ j := by
      by_contra hlt
      rw [hp j (by omega)] at hhole
      cases hhole
    exact absurd ((framesFor_le hij).trans hlen) (Nat.not_le.2 hshort)
  | hole => exact ⟨_, rfl⟩

/-- With every page there and the frames for them, `copyuvm` returns the child. -/
theorem copyuvm_returns (L : Layout E) (hW : WF E s) (hsz : s.sz ≤ KERNBASE)
    (hp : ∀ v < npages s.sz, present (s.pte v) = true)
    (hlen : framesFor E (npages s.sz) ≤ s.freelist.length) :
    ∃ d t, copyuvm L s.sz s = .ok (some d, t) ∧ Building (E := E) s d (npages s.sz) t := by
  have hout := copyuvm_outcome L hW hsz
  generalize copyuvm L s.sz s = r at hout ⊢
  cases hout with
  | copied _ h => exact ⟨_, _, rfl, h⟩
  | short hj _ hshort _ => exact absurd ((framesFor_le hj).trans hlen) (Nat.not_le.2 hshort)
  | hole hj _ hhole _ =>
    rw [hp _ hj] at hhole
    cases hhole

theorem not_forkWorks {msg : String} (h : copyuvm L s.sz s = .error (.panic msg)) :
    ¬ ForkWorks L s := by
  unfold ForkWorks
  rw [h]
  rintro (⟨d, t, ht, -⟩ | ⟨t, ht, -⟩) <;> cases ht

/-- In every state of a process `fork` works exactly if the free frames last up to no page below the
size that is not present, and no page beyond the size is present if they last for all below. -/
theorem forkWorks_iff (L : Layout E) (hW : WF E s) (hsz : s.sz ≤ KERNBASE) :
    ForkWorks L s ↔
      (∀ j < npages s.sz, present (s.pte j) = false → s.freelist.length < framesFor E j) ∧
      ((∀ v < npages s.sz, present (s.pte v) = true) →
        framesFor E (npages s.sz) ≤ s.freelist.length →
          ∀ v < UVPN, npages s.sz ≤ v → present (s.pte v) = false) := by
  constructor
  · intro hworks
    constructor
    · intro j hj hhole
      by_contra hlen
      obtain ⟨msg, hpanic⟩ := copyuvm_panics L hW hsz hj hhole (Nat.not_lt.1 hlen)
      exact not_forkWorks hpanic hworks
    · intro hp hlen
      obtain ⟨d, t, ht, h⟩ := copyuvm_returns L hW hsz hp hlen
      apply (h.copyOf_iff hp).1
      obtain ⟨d', t', ht', hcopy⟩ | ⟨t', ht', -⟩ := hworks
      · rw [ht] at ht'
        cases ht'
        exact hcopy
      · rw [ht] at ht'
        cases ht'
  · rintro ⟨hholes, habove⟩
    have hout := copyuvm_outcome L hW hsz
    generalize hr : copyuvm L s.sz s = r at hout
    cases hout with
    | copied hp h =>
      have hlen := h.length (npages_le hsz)
      exact .inl ⟨_, _, hr, (h.copyOf_iff hp).2 (habove hp (by omega))⟩
    | short hi hp hlen hfree => exact .inr ⟨_, hr, hfree⟩
    | hole hi hp hno hlen => exact absurd (hholes _ hi hno) (Nat.not_lt.2 hlen)

def demoLayout : Layout demoEnv := ⟨280, by decide, by decide, by decide⟩

/-- A process of one page has grown by a page and stored a byte there, and forks. -/
theorem forkWorks_demo : ∃ rs t, run demoEnv .onDemand [.sbrk PGSIZE, .store PGSIZE 1#8] demo =
    .ok (rs, t) ∧ npages t.sz = 2 ∧ ForkWorks demoLayout t := by
  have hsupply : Supply grown 2 := by
    have hlen : grown.freelist.length = 722 := List.length_range'
    have hframes := grown.length_le_frames
    refine ⟨by decide, fun v hv hp => ?_, by omega⟩
    rw [(demo_present hv).1 hp]
    exact Nat.zero_lt_two
  have hpage : PGSIZE / PGSIZE = 1 := by decide
  obtain ⟨t, ht, hM⟩ := access_fault (a := PGSIZE) grown_wf hsupply (by decide) (by decide) true
  rw [hpage] at ht hM
  set u := t.setFrame (PTE_ADDR (t.pte 1)) (setByte (t.mem (PTE_ADDR (t.pte 1))) PGSIZE 1#8) with hu
  have hrun : run demoEnv .onDemand [.sbrk PGSIZE, .store PGSIZE 1#8] demo =
      .ok ([.addr PGSIZE, .done], u) := by
    have hsbrk : (Op.sbrk PGSIZE).run demoEnv .onDemand demo = .ok (.addr PGSIZE, grown) := rfl
    have hstore : (Op.store PGSIZE 1#8).run demoEnv .onDemand grown = .ok (.done, u) := by
      rw [Op.run, bind_apply, ht]
      rfl
    unfold run run run
    simp only [bind_apply, hsbrk, hstore, pure_apply]
  have hsz : npages u.sz = 2 := by
    rw [show u.sz = grown.sz from hM.sz]
    decide
  have hpte : ∀ v < UVPN, present (u.pte v) = true ↔ v < 2 := by
    intro v hv
    by_cases h1 : v = 1
    · rw [h1]
      exact iff_of_true hM.present (by decide)
    · rw [show u.pte v = grown.pte v from hM.pte v (hv.trans (by decide)) h1]
      rw [show grown.pte v = demo.pte v from rfl, demo_present hv]
      omega
  have hwf : WF demoEnv u := ⟨hM.wf.nodup, hM.wf.range, hM.wf.own, hM.wf.inj⟩
  have hle : u.sz ≤ KERNBASE := by
    rw [show u.sz = grown.sz from hM.sz]
    decide
  refine ⟨_, u, hrun, hsz, (forkWorks_iff demoLayout hwf hle).2 ⟨fun j hj hhole => ?_, ?_⟩⟩
  · rw [hsz] at hj
    rw [(hpte j (hj.trans (by decide))).2 hj] at hhole
    cases hhole
  · rw [hsz]
    intro _ _ v hv h2
    rw [Bool.eq_false_iff]
    intro hp
    exact absurd ((hpte v hv).1 hp) (Nat.not_lt.2 h2)

/-- A process of one page has grown by a page that it has not touched, and forks. -/
theorem fork_panics : sysSbrk demoEnv .onDemand PGSIZE demo = .ok ((PGSIZE : ℤ), grown) ∧
    WF demoEnv grown ∧ grown.sz ≤ KERNBASE ∧ ¬ ForkWorks demoLayout grown := by
  have hhole : present (grown.pte 1) = false := by decide
  have hlen : framesFor demoEnv 1 ≤ grown.freelist.length := by
    calc framesFor demoEnv 1 = 12 := framesFor_eq demoLayout (by decide)
      _ ≤ 722 := by decide
      _ = grown.freelist.length := List.length_range'.symm
  obtain ⟨msg, hpanic⟩ := copyuvm_panics demoLayout grown_wf (by decide) (by decide) hhole hlen
  exact ⟨rfl, grown_wf, by decide, not_forkWorks hpanic⟩

end Xv6Lab.Lazy
