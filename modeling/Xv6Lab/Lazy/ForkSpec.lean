import Mathlib.Data.Finset.Card
import Mathlib.Order.Interval.Finset.Nat
import Xv6Lab.Lazy.Fork
import Xv6Lab.Lazy.Spec

/-! The frames of an address space that is being built or taken down: its directory, its page
tables and its user pages. With the free frames they are the same frames all along, so that
their number tells when `kalloc` fails. -/

namespace Xv6Lab.Lazy

open Paging Lib

variable {E : Env} {s t u : Machine} {v w f m n a hi : ℕ} {x perm : Word} {P Q R : Finset ℕ}

/-- One more entry that names something. -/
theorem filterMap_update_perm {α β : Type} [DecidableEq α] {l : List α} (hl : l.Nodup) {a : α}
    (ha : a ∈ l) {g : α → Option β} (hg : g a = none) (b : β) :
    (l.filterMap (Function.update g a (some b))).Perm (b :: l.filterMap g) := by
  induction l with
  | nil => cases ha
  | cons c l ih =>
    have hnd := List.nodup_cons.1 hl
    by_cases hca : c = a
    · subst hca
      have hsame : l.filterMap (Function.update g c (some b)) = l.filterMap g := by
        apply List.filterMap_congr
        intro y hy
        have hyc : y ≠ c := by
          rintro rfl
          exact hnd.1 hy
        exact Function.update_of_ne hyc ..
      rw [List.filterMap_cons, Function.update_self, List.filterMap_cons, hg, hsame]
    · have hmem : a ∈ l := (List.mem_cons.1 ha).resolve_left (Ne.symm hca)
      rw [List.filterMap_cons, List.filterMap_cons, Function.update_of_ne hca]
      cases g c with
      | none => exact ih hnd.2 hmem
      | some y => exact ((ih hnd.2 hmem).cons y).trans (List.Perm.swap ..)

namespace Machine

/-- The frames of the page tables. -/
def tableFrames (s : Machine) : List ℕ :=
  (List.finRange 1024).filterMap fun i => (s.pgdir i).map PageTable.frame

/-- The frames of those pages among `vs` that are mapped. -/
def pageFrames (s : Machine) (vs : List ℕ) : List ℕ :=
  vs.filterMap fun v => if present (s.pte v) then some (PTE_ADDR (s.pte v)) else none

theorem pageFrames_congr {vs : List ℕ} (h : ∀ v ∈ vs, t.pte v = s.pte v) :
    t.pageFrames vs = s.pageFrames vs := by
  apply List.filterMap_congr
  intro v hv
  rw [h v hv]

theorem pageFrames_nil {vs : List ℕ} (h : ∀ v ∈ vs, present (s.pte v) = false) :
    s.pageFrames vs = [] := by
  apply List.filterMap_eq_nil_iff.2
  intro v hv
  rw [h v hv]
  rfl

theorem pageFrames_cons (h : present (s.pte v) = true) (vs : List ℕ) :
    s.pageFrames (v :: vs) = PTE_ADDR (s.pte v) :: s.pageFrames vs := by
  unfold pageFrames
  rw [List.filterMap_cons, if_pos h]

theorem pageFrames_cons_absent (h : present (s.pte v) = false) (vs : List ℕ) :
    s.pageFrames (v :: vs) = s.pageFrames vs := by
  unfold pageFrames
  rw [List.filterMap_cons, h]
  rfl

theorem pageFrames_append (s : Machine) (vs ws : List ℕ) :
    s.pageFrames (vs ++ ws) = s.pageFrames vs ++ s.pageFrames ws := List.filterMap_append

theorem tableFrames_congr
    (h : ∀ i, (t.pgdir i).map PageTable.frame = (s.pgdir i).map PageTable.frame) :
    t.tableFrames = s.tableFrames := by
  unfold tableFrames
  rw [funext h]

theorem frame_setPte (s : Machine) (v : ℕ) (x : Word) (i : Fin 1024) :
    ((s.setPte v x).pgdir i).map PageTable.frame = (s.pgdir i).map PageTable.frame := by
  unfold setPte
  by_cases hi : i = pdx v
  · subst hi
    simp only [Function.update_self, Option.map_map]
    rfl
  · simp only [Function.update_of_ne hi]

theorem tableFrames_setPte (s : Machine) (v : ℕ) (x : Word) :
    (s.setPte v x).tableFrames = s.tableFrames := tableFrames_congr (frame_setPte s v x)

/-- The machine with the page directory `d`. -/
def under (s : Machine) (d : PageTables) : Machine := { s with pgdir := d }

/-- The frames of the page directory `d`, its tables and its user pages. -/
def dirFrames (s : Machine) (d : PageDir) : List ℕ :=
  d.frame :: ((s.under d.tables).tableFrames ++ (s.under d.tables).pageFrames (List.range UVPN))

end Machine

/-! ### Mapping -/

/-- The mapped pages are those in `P`, and there are page tables for these only. -/
structure Covers (s : Machine) (P : Finset ℕ) : Prop where
  page : ∀ w < 2 ^ 20, present (s.pte w) = true ↔ w ∈ P
  table : ∀ i, (s.pgdir i).isSome = true ↔ i ∈ P.image pdx

theorem Covers.of_pgdir (h : Covers s P) (ht : t.pgdir = s.pgdir) : Covers t P := by
  have hpte : ∀ w, t.pte w = s.pte w := by
    intro w
    unfold Machine.pte
    rw [ht]
  constructor
  · intro w hw
    rw [hpte]
    exact h.page w hw
  · intro i
    rw [ht]
    exact h.table i

theorem Covers.length (h : Covers s P) : s.tableFrames.length = (P.image pdx).card := by
  have hfilter : P.image pdx = ((List.finRange 1024).filter fun i => (s.pgdir i).isSome).toFinset := by
    ext i
    rw [← h.table i, List.mem_toFinset, List.mem_filter]
    simp
  have hcount : s.tableFrames.length = (List.finRange 1024).countP fun i => (s.pgdir i).isSome := by
    unfold Machine.tableFrames
    rw [List.length_filterMap_eq_countP]
    simp only [Option.isSome_map]
  rw [hfilter, List.toFinset_card_of_nodup ((List.nodup_finRange 1024).filter _), hcount,
    List.countP_eq_length_filter]

/-- What `walkpgdir` changes: page `v` has a page table. -/
structure Walked (s : Machine) (v : ℕ) (t : Machine) : Prop where
  pte : ∀ w, t.pte w = s.pte w
  table : ∀ i, (t.pgdir i).isSome = true ↔ (s.pgdir i).isSome = true ∨ i = pdx v
  stock : (t.tableFrames ++ t.freelist).Perm (s.tableFrames ++ s.freelist)
  mem : t.mem = s.mem
  sz : t.sz = s.sz

theorem walkpgdir_true (E : Env) (s : Machine) (v : ℕ) :
    (∃ t, walkpgdir E (v * PGSIZE) true s = .ok (true, t) ∧ Walked s v t) ∨
      (walkpgdir E (v * PGSIZE) true s = .ok (false, s) ∧ s.freelist = [] ∧
        (s.pgdir (pdx v)).isSome = false) := by
  rw [walkpgdir, bind_apply, get_apply]
  simp only [page_of_va]
  cases hd : s.pgdir (pdx v) with
  | some tb =>
    left
    refine ⟨s, rfl, fun _ => rfl, fun i => ?_, .refl _, rfl, rfl⟩
    constructor
    · exact .inl
    · intro h
      cases h with
      | inl h => exact h
      | inr h => rw [h, hd, Option.isSome_some]
  | none =>
    simp only [↓reduceIte, bind_apply]
    cases kalloc_cases E s with
    | inl h =>
      right
      rw [h.2]
      exact ⟨rfl, h.1, rfl⟩
    | inr h =>
      left
      obtain ⟨f, l, hperm, hk⟩ := h
      rw [hk]
      refine ⟨_, rfl, fun w => ?_, fun i => ?_, ?_, rfl, rfl⟩
      · unfold Machine.pte
        by_cases hw : pdx w = pdx v
        · simp only [hw, Function.update_self, hd]
        · simp only [Function.update_of_ne hw]
      · by_cases hi : i = pdx v
        · subst hi
          simp
        · simp [hi]
      · have htable : (Function.update (fun i => (s.pgdir i).map PageTable.frame) (pdx v) (some f)) =
            fun i => (Function.update s.pgdir (pdx v) (some ⟨f, fun _ => 0#32⟩) i).map
              PageTable.frame := by
          funext i
          by_cases hi : i = pdx v
          · subst hi
            simp only [Function.update_self, Option.map_some]
          · simp only [Function.update_of_ne hi]
        have hnew := filterMap_update_perm (List.nodup_finRange 1024) (List.mem_finRange (pdx v))
          (g := fun i => (s.pgdir i).map PageTable.frame) (by simp only [hd, Option.map_none]) f
        rw [htable] at hnew
        exact (hnew.append_right l).trans (List.perm_middle.symm.trans (hperm.symm.append_left _))

/-- Page `v` has got the entry `x`. -/
structure Laid (s : Machine) (v : ℕ) (x : Word) (t : Machine) : Prop where
  self : t.pte v = x
  pte : ∀ w < 2 ^ 20, w ≠ v → t.pte w = s.pte w
  table : ∀ i, (t.pgdir i).isSome = true ↔ (s.pgdir i).isSome = true ∨ i = pdx v
  stock : (t.tableFrames ++ t.freelist).Perm (s.tableFrames ++ s.freelist)
  mem : t.mem = s.mem
  sz : t.sz = s.sz

theorem Walked.setPte (h : Walked s v t) (hv : v < 2 ^ 20) (x : Word) :
    Laid s v x (t.setPte v x) := by
  have htable : (t.pgdir (pdx v)).isSome = true := (h.table _).2 (.inr rfl)
  constructor
  · exact Machine.pte_setPte_self htable
  · intro w hw hne
    rw [Machine.pte_setPte_of_ne hv hw hne, h.pte]
  · intro i
    rw [← h.table i]
    unfold Machine.setPte
    by_cases hi : i = pdx v
    · subst hi
      simp
    · simp [hi]
  · rw [Machine.tableFrames_setPte]
    exact h.stock
  · exact h.mem
  · exact h.sz

theorem Laid.covers (h : Laid s v x t) (hc : Covers s P) (hx : present x = true) :
    Covers t (insert v P) where
  page w hw := by
    rw [Finset.mem_insert]
    by_cases hwv : w = v
    · subst hwv
      rw [h.self, hx]
      simp
    · rw [h.pte w hw hwv, hc.page w hw]
      simp [hwv]
  table i := by
    rw [h.table i, hc.table i, Finset.image_insert, Finset.mem_insert, or_comm]

/-- The frames left do not suffice for the page tables of `Q`, those of `P` being there. -/
def Short (s : Machine) (P Q : Finset ℕ) : Prop :=
  s.freelist.length + (P.image pdx).card < (Q.image pdx).card

theorem Short.mono (h : Short s P Q) (hQ : Q ⊆ R) : Short s P R :=
  lt_of_lt_of_le h (Finset.card_le_card (Finset.image_subset_image hQ))

/-- Pages from `v` on have been mapped. -/
structure Extends (s : Machine) (v : ℕ) (t : Machine) : Prop where
  pte : ∀ w < v, t.pte w = s.pte w
  stock : (t.tableFrames ++ t.freelist).Perm (s.tableFrames ++ s.freelist)
  mem : t.mem = s.mem
  sz : t.sz = s.sz

theorem Extends.refl (s : Machine) (v : ℕ) : Extends s v s :=
  ⟨fun _ _ => rfl, .refl _, rfl, rfl⟩

theorem Extends.trans (h : Extends s v t) (h' : Extends t w u) (hvw : v ≤ w) : Extends s v u where
  pte y hy := by rw [h'.pte y (hy.trans_le hvw), h.pte y hy]
  stock := h'.stock.trans h.stock
  mem := h'.mem.trans h.mem
  sz := h'.sz.trans h.sz

theorem Laid.extends (h : Laid s v x t) (hv : v < 2 ^ 20) : Extends s v t where
  pte w hw := h.pte w (hw.trans hv) hw.ne
  stock := h.stock
  mem := h.mem
  sz := h.sz

theorem Extends.short (h : Extends s v t) (hs : Covers s P) (ht : Covers t Q) (hR : Short t Q R) :
    Short s P R := by
  have hlen := h.stock.length_eq
  rw [List.length_append, List.length_append, hs.length, ht.length] at hlen
  unfold Short at hR ⊢
  omega

/-- `mappages` lays out the pages from `v` on or runs out of frames for a page table. -/
theorem mappagesLoop_spec (perm : Word) (hc : Covers s P) (hnew : ∀ w, v ≤ w → w < v + n → w ∉ P)
    (hv : v + n ≤ 2 ^ 20) :
    ∃ b t, mappagesLoop E perm n v a s = .ok (b, t) ∧ Extends s v t ∧
      (b = true → Covers t (P ∪ Finset.Ico v (v + n))) ∧
      (b = false → Short s P (P ∪ Finset.Ico v (v + n))) := by
  induction n generalizing s v a P with
  | zero =>
    refine ⟨true, s, rfl, .refl s v, fun _ => ?_, fun h => by cases h⟩
    rwa [Nat.add_zero, Finset.Ico_self, Finset.union_empty]
  | succ n ih =>
    have hIco : P ∪ Finset.Ico v (v + (n + 1)) = insert v P ∪ Finset.Ico (v + 1) (v + 1 + n) := by
      ext w
      simp only [Finset.mem_union, Finset.mem_insert, Finset.mem_Ico]
      by_cases hw : w ∈ P
      · simp only [hw, true_or, or_true]
      · simp only [hw, false_or, or_false]
        omega
    rw [hIco]
    unfold mappagesLoop
    rw [bind_apply]
    cases walkpgdir_true E s v with
    | inl h =>
      obtain ⟨t, ht, hw⟩ := h
      have habsent : present (t.pte v) = false := by
        rw [hw.pte, Bool.eq_false_iff]
        intro hp
        exact hnew v le_rfl (by omega) ((hc.page v (by omega)).1 hp)
      rw [ht]
      simp only [↓reduceIte, bind_apply, get_apply, habsent, Bool.false_eq_true, modify_apply]
      have hlaid := hw.setPte (by omega) (mapPte a perm)
      have hcover := hlaid.covers hc (present_mapPte a perm)
      obtain ⟨b, u, hu, hext, htrue, hfalse⟩ := ih (v := v + 1) (a := a + 1) hcover (by
        intro w h1 h2 hmem
        rcases Finset.mem_insert.1 hmem with rfl | hmem
        · omega
        · exact hnew w (by omega) (by omega) hmem) (by omega)
      have hfirst := hlaid.extends (by omega)
      exact ⟨b, u, hu, hfirst.trans hext (by omega), htrue,
        fun hb => hfirst.short hc hcover (hfalse hb)⟩
    | inr h =>
      rw [h.1]
      refine ⟨false, s, rfl, .refl s v, fun hb => (by cases hb), fun _ => ?_⟩
      -- the table of `v` is one more
      have hnot : pdx v ∉ P.image pdx := by
        intro hmem
        have := (hc.table _).2 hmem
        rw [h.2.2] at this
        cases this
      have hone : Short s P (insert v P) := by
        unfold Short
        rw [Finset.image_insert, Finset.card_insert_of_notMem hnot, h.2.1, List.length_nil]
        omega
      exact hone.mono Finset.subset_union_left

/-! ### Freeing -/

/-- What `kfree` does to a frame that is not part of the kernel. -/
theorem kfree_frame (h1 : E.kend ≤ f) (h2 : f < E.nframes) (s : Machine) :
    kfree E f s =
      .ok ((), { s.setFrame f (E.fill f (s.mem f)) with freelist := f :: s.freelist }) := by
  rw [kfree, if_neg (by omega), modify_apply]

/-- A range up to `hi` split at `m`, or at its end if that comes first. -/
theorem range'_min (hv : v ≤ hi) (hm : v ≤ m) :
    List.range' v (hi - v) = List.range' v (min m hi - v) ++ List.range' m (hi - m) := by
  rcases Nat.le_total m hi with h | h
  · have hm' : v + (m - v) = m := by omega
    have hlen : m - v + (hi - m) = hi - v := by omega
    have happend := List.range'_append_1 (s := v) (m := m - v) (n := hi - m)
    rw [hm', hlen] at happend
    rw [min_eq_left h, happend]
  · rw [min_eq_right h, Nat.sub_eq_zero_of_le h, List.range'_zero, List.append_nil]

/-- `deallocuvm` frees the pages from `v` up to `hi` that are mapped. -/
theorem deallocuvmLoop_frames (hu : hi ≤ UVPN) (n v : ℕ) (hle : hi ≤ n + v)
    (hr : ∀ w, v ≤ w → w < hi → present (s.pte w) = true →
      E.kend ≤ PTE_ADDR (s.pte w) ∧ PTE_ADDR (s.pte w) < E.nframes) :
    ∃ t, deallocuvmLoop E hi n v s = .ok ((), t) ∧
      t.freelist.Perm (s.pageFrames (List.range' v (hi - v)) ++ s.freelist) ∧
      ∀ i, (t.pgdir i).map PageTable.frame = (s.pgdir i).map PageTable.frame := by
  induction n generalizing v s with
  | zero =>
    refine ⟨s, rfl, ?_, fun _ => rfl⟩
    rw [Nat.sub_eq_zero_of_le (by omega), List.range'_zero]
    exact .refl _
  | succ n ih =>
    rw [deallocuvmLoop]
    split_ifs with hv
    swap
    · refine ⟨s, rfl, ?_, fun _ => rfl⟩
      rw [Nat.sub_eq_zero_of_le (by omega), List.range'_zero]
      exact .refl _
    rw [bind_apply, walkpgdir_false]
    cases hd : (s.pgdir (pdx v)).isSome with
    | false =>
      -- the region without a page table is skipped
      have hnext := le_nextTable v
      obtain ⟨t, ht, hperm, htab⟩ := ih (nextTable v) (by omega) fun w hw => hr w (by omega)
      refine ⟨t, ht, ?_, htab⟩
      have hskip : s.pageFrames (List.range' v (min (nextTable v) hi - v)) = [] := by
        apply Machine.pageFrames_nil
        intro w hw
        rw [List.mem_range'_1] at hw
        rw [Machine.pte_of_none, present_zero]
        rw [pdx_of_lt_nextTable hw.1 (by omega)]
        simpa using hd
      rw [range'_min (m := nextTable v) hv.le (by omega), Machine.pageFrames_append, hskip, List.nil_append]
      exact hperm
    | true =>
      have hcons : List.range' v (hi - v) = v :: List.range' (v + 1) (hi - (v + 1)) := by
        rw [show hi - v = hi - (v + 1) + 1 by omega, List.range'_succ]
      rw [hcons]
      simp only [↓reduceIte, bind_apply, get_apply]
      cases hp : present (s.pte v) with
      | true =>
        obtain ⟨h1, h2⟩ := hr v le_rfl hv hp
        have hpos := E.kend_pos
        simp only [↓reduceIte]
        rw [if_neg (by omega), bind_apply, kfree_frame h1 h2]
        simp only [bind_apply, modify_apply]
        set f := PTE_ADDR (s.pte v) with hf
        set s1 : Machine := { s.setFrame f (E.fill f (s.mem f)) with freelist := f :: s.freelist }
          with hs1
        have hother : ∀ w, v + 1 ≤ w → w < hi → (s1.setPte v 0#32).pte w = s.pte w := by
          intro w h1 h2
          have h20 : (2 : ℕ) ^ 20 = 2 * UVPN := by decide
          exact Machine.pte_setPte_of_ne (by omega) (by omega) (by omega)
        obtain ⟨t, ht, hperm, htab⟩ := ih (s := s1.setPte v 0#32) (v + 1) (by omega) (by
          intro w h1 h2 hpw
          rw [hother w h1 h2] at hpw ⊢
          exact hr w (by omega) h2 hpw)
        refine ⟨t, ht, ?_, fun i => ?_⟩
        · have hrest : (s1.setPte v 0#32).pageFrames (List.range' (v + 1) (hi - (v + 1))) =
              s.pageFrames (List.range' (v + 1) (hi - (v + 1))) := by
            apply Machine.pageFrames_congr
            intro w hw
            rw [List.mem_range'_1] at hw
            exact hother w hw.1 (by omega)
          rw [hrest] at hperm
          rw [Machine.pageFrames_cons hp]
          exact hperm.trans List.perm_middle
        · rw [htab i, Machine.frame_setPte]
          rfl
      | false =>
        obtain ⟨t, ht, hperm, htab⟩ := ih (s := s) (v + 1) (by omega) fun w hw => hr w (by omega)
        refine ⟨t, by simpa using ht, ?_, htab⟩
        rw [Machine.pageFrames_cons_absent hp]
        exact hperm

theorem inDir_apply {α : Type} (d : PageTables) (k : K α) (s : Machine) :
    inDir d k s = match k (s.under d) with
      | .ok (a, t) => .ok ((a, t.pgdir), t.under s.pgdir)
      | .error e => .error e := by
  unfold inDir
  simp only [bind_apply, get_apply, modify_apply, pure_apply]
  unfold Machine.under
  cases k { s with pgdir := d } <;> rfl

theorem freeTables_frames (d : PageTables) (is : List (Fin 1024))
    (hr : ∀ f ∈ is.filterMap fun i => (d i).map PageTable.frame, E.kend ≤ f ∧ f < E.nframes) :
    ∃ t, freeTables E d is s = .ok ((), t) ∧ t.freelist.Perm
      ((is.filterMap fun i => (d i).map PageTable.frame) ++ s.freelist) := by
  induction is generalizing s with
  | nil => exact ⟨s, rfl, .refl _⟩
  | cons i is ih =>
    unfold freeTables
    rw [List.filterMap_cons] at hr ⊢
    cases hd : d i with
    | none =>
      simp only [hd, Option.map_none] at hr ⊢
      exact ih hr
    | some tb =>
      simp only [hd, Option.map_some] at hr ⊢
      obtain ⟨h1, h2⟩ := hr tb.frame List.mem_cons_self
      rw [bind_apply, kfree_frame h1 h2]
      obtain ⟨t, ht, hperm⟩ := ih fun f hf => hr f (List.mem_cons_of_mem _ hf)
      exact ⟨t, ht, hperm.trans List.perm_middle⟩

theorem mem_dirFrames {d : PageDir} (hv : v < UVPN)
    (hp : present ((s.under d.tables).pte v) = true) :
    PTE_ADDR ((s.under d.tables).pte v) ∈ s.dirFrames d := by
  unfold Machine.dirFrames
  apply List.mem_cons_of_mem
  apply List.mem_append_right
  unfold Machine.pageFrames
  exact List.mem_filterMap.2 ⟨v, List.mem_range.2 hv, if_pos hp⟩

/-- `freevm` frees every frame of an address space. -/
theorem freevm_frames (d : PageDir) (hr : ∀ f ∈ s.dirFrames d, E.kend ≤ f ∧ f < E.nframes) :
    ∃ t, freevm E d s = .ok ((), t) ∧ t.freelist.Perm (s.dirFrames d ++ s.freelist) := by
  have hrange : npages KERNBASE = UVPN := by decide
  have hzero : npages 0 = 0 := by decide
  have hpages : List.range' 0 UVPN = List.range UVPN := List.range_eq_range'.symm
  have hpage : ∀ w, 0 ≤ w → w < UVPN → present ((s.under d.tables).pte w) = true →
      E.kend ≤ PTE_ADDR ((s.under d.tables).pte w) ∧
        PTE_ADDR ((s.under d.tables).pte w) < E.nframes := by
    intro w _ hw hp
    exact hr _ (mem_dirFrames hw hp)
  obtain ⟨t1, ht1, hperm1, htab⟩ := deallocuvmLoop_frames (s := s.under d.tables)
    (le_refl UVPN) UVPN 0 le_rfl hpage
  rw [Nat.sub_zero, hpages] at hperm1
  have htable : (List.finRange 1024).filterMap (fun i => (t1.pgdir i).map PageTable.frame) =
      (s.under d.tables).tableFrames := by
    rw [← Machine.tableFrames_congr htab]
    unfold Machine.tableFrames
    rfl
  obtain ⟨t2, ht2, hperm2⟩ := freeTables_frames (E := E) (s := t1.under s.pgdir) t1.pgdir
    (List.finRange 1024) (by
      intro f hf
      rw [htable] at hf
      apply hr
      unfold Machine.dirFrames
      exact List.mem_cons_of_mem _ (List.mem_append_left _ hf))
  obtain ⟨h1, h2⟩ := hr d.frame List.mem_cons_self
  refine ⟨{ t2.setFrame d.frame (E.fill d.frame (t2.mem d.frame)) with
    freelist := d.frame :: t2.freelist }, ?_, ?_⟩
  · unfold freevm deallocuvm
    rw [bind_apply, inDir_apply, if_neg (by decide), bind_apply, hrange, hzero, Nat.sub_zero, ht1]
    simp only [pure_apply, bind_apply]
    rw [ht2]
    simp only
    rw [kfree_frame h1 h2]
  · rw [htable] at hperm2
    unfold Machine.dirFrames
    rw [List.cons_append, List.append_assoc]
    exact (hperm2.trans (hperm1.append_left _)).cons d.frame

end Xv6Lab.Lazy
