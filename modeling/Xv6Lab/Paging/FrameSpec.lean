import Xv6Lab.Paging.BlocksSpec
import Mathlib.Algebra.BigOperators.Ring.Finset
import Mathlib.Algebra.Order.BigOperators.Group.Finset
import Mathlib.Order.Interval.Finset.Nat
import Mathlib.Tactic.Ring

/-! The page allocator, the pages a directory maps, the number of its swapped
pages, and the choice of a victim. -/

namespace Xv6Lab.Paging

open Lib

variable {E : Env} {g g' : Ghost} {s t : Kernel} {d v f : ℕ}

/-! ### `kalloc` and `kfree` -/

theorem kalloc_cases (E : Env) (s : Kernel) :
    (s.freelist = [] ∧ kalloc E s = .ok (none, s)) ∨
    ∃ f l, s.freelist.Perm (f :: l) ∧ kalloc E s = .ok (some f, { s with freelist := l }) := by
  by_cases h : s.freelist = []
  · left
    refine ⟨h, ?_⟩
    simp [kalloc, h]
  · right
    have hlt : E.pick s.freelist % s.freelist.length < s.freelist.length :=
      Nat.mod_lt _ (List.length_pos_iff.mpr h)
    refine ⟨_, _, (List.getElem_cons_eraseIdx_perm hlt).symm, ?_⟩
    simp [kalloc, h]

/-- The state after `kfree` of a frame. -/
def Kernel.kfreed (E : Env) (s : Kernel) (f : ℕ) : Kernel :=
  { s.setFrame f (E.fill f (s.mem f)) with freelist := f :: s.freelist }

theorem kfree_apply (h1 : E.kend ≤ f) (h2 : f < NFRAMES) :
    kfree E f s = .ok ((), s.kfreed E f) := by
  rw [kfree, if_neg (by omega)]
  rfl

theorem Base.kalloc {l : List ℕ} (h : Base E g s) (hp : s.freelist.Perm (f :: l)) :
    g.frame f = .free ∧ Base E (g.setFrame f .loose) { s with freelist := l } := by
  have hnd := hp.nodup_iff.1 h.nodup
  rw [List.nodup_cons] at hnd
  have hf : g.frame f = .free := (h.free f).1 (hp.mem_iff.2 (by simp))
  refine ⟨hf, ⟨hnd.2, fun x => ?_, fun x hx => ?_, h.used, h.files, h.filesNodup, h.sys⟩⟩
  · by_cases hx : x = f
    · subst hx
      simpa using hnd.1
    · rw [g.setFrame_of_ne _ hx, ← h.free x, hp.mem_iff]
      simp [hx]
  · by_cases hxf : x = f
    · subst hxf
      exact h.range x (by rw [hf]; simp)
    · rw [g.setFrame_of_ne _ hxf] at hx
      exact h.range x hx

theorem Base.kfree (h : Base E g s) (hf : g.frame f ≠ .free) (hk : g.frame f ≠ .kernel) :
    kfree E f s = .ok ((), s.kfreed E f) ∧ Base E (g.setFrame f .free) (s.kfreed E f) := by
  have hr := h.range f hk
  refine ⟨kfree_apply hr.1 hr.2, ⟨?_, fun x => ?_, fun x hx => ?_, h.used, h.files, h.filesNodup,
    h.sys⟩⟩
  · exact List.nodup_cons.2 ⟨fun hm => hf ((h.free f).1 hm), h.nodup⟩
  · simp only [Kernel.kfreed, List.mem_cons]
    by_cases hx : x = f
    · subst hx; simp
    · rw [g.setFrame_of_ne _ hx, ← h.free x]
      simp [hx]
  · by_cases hxf : x = f
    · subst hxf; exact hr
    · rw [g.setFrame_of_ne _ hxf] at hx
      exact h.range x hx

/-- Memory of a frame that the allocator manages may change freely. -/
theorem Base.congr_mem (h : Base E g s) (hf : t.freelist = s.freelist) (hb : t.bit = s.bit)
    (hl : t.files = s.files) : Base E g t :=
  ⟨hf ▸ h.nodup, hf ▸ h.free, h.range, hb ▸ h.used, hl ▸ h.files, hl ▸ h.filesNodup, h.sys⟩

/-- Giving a frame in use to another owner. -/
theorem Base.setOwner {o : Owner} (h : Base E g s) (hf : g.frame f ≠ .free)
    (hk : g.frame f ≠ .kernel) (ho : o ≠ .free) : Base E (g.setFrame f o) s := by
  refine ⟨h.nodup, fun x => ?_, fun x hx => ?_, h.used, h.files, h.filesNodup, h.sys⟩
  · by_cases hx : x = f
    · subst hx
      simp [h.free x, hf, ho]
    · rw [g.setFrame_of_ne _ hx, h.free x]
  · by_cases hxf : x = f
    · subst hxf; exact h.range x hk
    · rw [g.setFrame_of_ne _ hxf] at hx
      exact h.range x hx

/-! ### Pages of a directory -/

/-- Where the entry of page `v` is. -/
def Kernel.ptr (s : Kernel) (d v : ℕ) : PtePtr := (PTE_ADDR (s.mem d (pdx v)), ptx v)

theorem Kernel.lookup_va (s : Kernel) (d va : ℕ) :
    s.lookup d va =
      if present (s.mem d (pdx (va / PGSIZE))) = true then some (s.ptr d (va / PGSIZE)) else none := by
  rw [Kernel.lookup, PDX_eq, PTX_eq]
  rfl

theorem page_mul (v : ℕ) : v * PGSIZE / PGSIZE = v := Nat.mul_div_cancel v (by decide)

theorem Kernel.lookup_page (s : Kernel) (d v : ℕ) :
    s.lookup d (v * PGSIZE) =
      if present (s.mem d (pdx v)) = true then some (s.ptr d v) else none := by
  rw [Kernel.lookup_va, page_mul]

theorem Kernel.lookup_of_present (h : present (s.mem d (pdx v)) = true) :
    s.lookup d (v * PGSIZE) = some (s.ptr d v) := by rw [Kernel.lookup_page, if_pos h]

theorem Kernel.mem_ptr (h : present (s.mem d (pdx v)) = true) :
    s.mem (s.ptr d v).1 (s.ptr d v).2 = s.pte d v := (Kernel.pte_of_present h).symm

theorem present_table_of_entry (h : present (s.pte d v) = true) :
    present (s.mem d (pdx v)) = true := by
  by_contra hn
  rw [Kernel.pte_of_not_present (by simpa using hn)] at h
  simp at h

theorem present_table_of_swapped (h : swapped (s.pte d v) = true) :
    present (s.mem d (pdx v)) = true := by
  by_contra hn
  rw [Kernel.pte_of_not_present (by simpa using hn)] at h
  simp at h

theorem npages_le {sz : ℕ} (h : sz ≤ KERNBASE) : npages sz ≤ UVPN := by
  simp only [npages, UVPN, PGSIZE, KERNBASE] at h ⊢
  omega

/-- The number of swapped pages among `v, ..., w - 1`. -/
def Kernel.nswappedIn (s : Kernel) (d v w : ℕ) : ℕ :=
  ((Finset.Ico v w).filter fun v => swapped (s.pte d v) = true).card

/-- The number of swapped pages of `d`. -/
def Kernel.nswapped (s : Kernel) (d : ℕ) : ℕ := s.nswappedIn d 0 UVPN

theorem nswapped_congr (h : ∀ v < UVPN, swapped (t.pte d v) = swapped (s.pte d v)) :
    t.nswapped d = s.nswapped d := by
  simp only [Kernel.nswapped, Kernel.nswappedIn]
  congr 1
  refine Finset.filter_congr fun v hv => ?_
  rw [h v (Finset.mem_Ico.1 hv).2]

theorem nswapped_eq_sum (s : Kernel) (d : ℕ) :
    (s.nswapped d : ℤ) = ∑ v ∈ Finset.range UVPN, if swapped (s.pte d v) = true then 1 else 0 := by
  rw [Kernel.nswapped, Kernel.nswappedIn, Finset.natCast_card_filter, Finset.range_eq_Ico]

/-- Changing the entry of one page moves the count by that page. -/
theorem nswapped_store (hv : v < UVPN) (h : ∀ v' < UVPN, v' ≠ v → t.pte d v' = s.pte d v') :
    (t.nswapped d : ℤ) = s.nswapped d + (if swapped (t.pte d v) = true then 1 else 0)
      - (if swapped (s.pte d v) = true then 1 else 0) := by
  have hmem : v ∈ Finset.range UVPN := Finset.mem_range.2 hv
  rw [nswapped_eq_sum, nswapped_eq_sum, ← Finset.add_sum_erase _ _ hmem,
    ← Finset.add_sum_erase (Finset.range UVPN)
      (fun v => if swapped (s.pte d v) = true then (1 : ℤ) else 0) hmem,
    Finset.sum_congr rfl fun x hx => ?_]
  · ring
  · rw [Finset.mem_erase, Finset.mem_range] at hx
    rw [h x hx.2 hx.1]

/-! ### The victim -/

theorem and_not_PTE_A_ne_zero {w : Word} (h : present w = true) : w &&& ~~~PTE_A ≠ 0#32 := by
  intro h0
  have := congrArg (BitVec.getLsbD · 0) h0
  simp only [BitVec.getLsbD_and, BitVec.getLsbD_zero, Bool.and_eq_false_iff] at this
  rcases this with h1 | h1
  · rw [present, h1] at h; cases h
  · exact absurd h1 (by decide)

/-- The scan stops at a page exactly when it is present. -/
theorem victimLoop_succ (s : Kernel) (d n v : ℕ) : victimLoop s d (n + 1) v =
    if present (s.pte d v) = true then some (s.ptr d v) else victimLoop s d n (v + 1) := by
  rw [victimLoop, Kernel.lookup_page]
  by_cases ht : present (s.mem d (pdx v)) = true
  · simp only [ht, ↓reduceIte, Kernel.mem_ptr ht, and_PTE_P]
    by_cases hp : present (s.pte d v) = true
    · rw [if_pos ⟨hp, and_not_PTE_A_ne_zero hp⟩, if_pos hp]
    · rw [if_neg fun hc => hp hc.1, if_neg hp]
  · have hp : present (s.pte d v) = false := by
      rw [Kernel.pte_of_not_present (by simpa using ht), present_zero]
    rw [if_neg ht, if_neg (by simp [hp])]

theorem victimLoop_some {n v0 : ℕ} {p : PtePtr} (h : victimLoop s d n v0 = some p) :
    ∃ v, v0 ≤ v ∧ v < v0 + n ∧ present (s.pte d v) = true ∧ p = s.ptr d v ∧
      ∀ v', v0 ≤ v' → v' < v → present (s.pte d v') = false := by
  induction n generalizing v0 with
  | zero => cases h
  | succ n ih =>
    rw [victimLoop_succ] at h
    split_ifs at h with hp
    · exact ⟨v0, le_rfl, by omega, hp, by simpa using h.symm, fun v' h1 h2 => by omega⟩
    · obtain ⟨v, h1, h2, h3, h4, h5⟩ := ih h
      refine ⟨v, by omega, by omega, h3, h4, fun v' ha hb => ?_⟩
      rcases Nat.eq_or_lt_of_le ha with rfl | hlt
      · simpa using hp
      · exact h5 v' hlt hb

theorem victimLoop_none {n v0 : ℕ} (h : victimLoop s d n v0 = none) (v : ℕ) (h1 : v0 ≤ v)
    (h2 : v < v0 + n) : present (s.pte d v) = false := by
  induction n generalizing v0 with
  | zero => omega
  | succ n ih =>
    rw [victimLoop_succ] at h
    split_ifs at h with hp
    rcases Nat.eq_or_lt_of_le h1 with rfl | hlt
    · simpa using hp
    · exact ih h hlt (by omega)

/-- The victim is the first present page from page 1 on. -/
structure Victim (s : Kernel) (d v : ℕ) : Prop where
  pos : 1 ≤ v
  lt : v < UVPN
  present : present (s.pte d v) = true
  first : ∀ v', 1 ≤ v' → v' < v → Paging.present (s.pte d v') = false

theorem selectAVictim_some {p : PtePtr} (h : s.selectAVictim d = some p) :
    ∃ v, Victim s d v ∧ p = s.ptr d v := by
  obtain ⟨v, h1, h2, h3, h4, h5⟩ := victimLoop_some h
  rw [UVPN_eq] at h2
  exact ⟨v, ⟨h1, by rw [UVPN_eq]; omega, h3, h5⟩, h4⟩

theorem selectAVictim_none (h : s.selectAVictim d = none) {v : ℕ} (h1 : 1 ≤ v) (h2 : v < UVPN) :
    present (s.pte d v) = false :=
  victimLoop_none h v h1 (by rw [UVPN_eq] at h2 ⊢; omega)

/-- `PTE_P` and `PTE_A` are different bits: the test of `clearaccessbit` fails on every entry. -/
theorem and_PTE_P_and_PTE_A (w : Word) : (w &&& PTE_P) &&& (w &&& PTE_A) = 0#32 := by
  have hcomm : (w &&& PTE_P) &&& (w &&& PTE_A) = w &&& (PTE_P &&& PTE_A) := by
    ext k hk
    simp only [BitVec.getElem_and]
    cases w[k] <;> simp
  rw [hcomm]
  exact BitVec.and_zero

theorem clearaccessbitLoop_apply (n v cnt : ℕ) : clearaccessbitLoop d n v cnt s = .ok ((), s) := by
  induction n generalizing v cnt with
  | zero => rfl
  | succ n ih =>
    rw [clearaccessbitLoop, bind_apply, get_apply]
    cases hl : s.lookup d (v * PGSIZE) with
    | none =>
      simp only [hl]
      split_ifs
      · rfl
      · exact ih (v + 1) cnt
    | some p =>
      simp only [hl, readPte, bind_apply, get_apply, pure_apply, and_PTE_P_and_PTE_A, ne_eq,
        not_true_eq_false, ↓reduceIte]
      split_ifs
      · rfl
      · exact ih (v + 1) cnt

/-- `clearaccessbit` clears nothing. -/
theorem clearaccessbit_apply (d : ℕ) (s : Kernel) : clearaccessbit d s = .ok ((), s) :=
  clearaccessbitLoop_apply _ _ _

end Xv6Lab.Paging
