import Mathlib.Data.Nat.Count
import Xv6Lab.Paging.FirstRun

/-! The array of `balloc_page`: a round of the search uses one entry and none is given back before
the search is over, so that the array has to hold every free block in front of the run. -/

namespace Xv6Lab.Paging

open Disk Lib

variable {s t u : Kernel} {size i c b n m : ℕ} {alloc : List ℕ} {bit : ℕ → Bool}

/-- The length of the array `alloc_b`. -/
def NUM : ℕ := 100000

/-- The values of `indexNCB` at the calls of `balloc`, in the loop of `balloc_page`. -/
def indexNCBs (size : ℕ) : (fuel i : ℕ) → List ℕ → Kernel → List ℕ
  | 0, _, _, _ => []
  | fuel + 1, i, alloc, s =>
    if i < 8 then
      alloc.length :: match balloc size s with
        | .ok (b, t) => indexNCBs size fuel (runIndex i b alloc + 1) (b :: alloc) t
        | .error _ => []
    else []

/-- The free blocks below `n`. -/
def freeBelow (bit : ℕ → Bool) (n : ℕ) : ℕ := n.count fun x => bit x = false

theorem Swept.length_eq (h : Swept size s i alloc t c) : alloc.length = freeBelow s.bit c := by
  have hset : alloc.toFinset = {x ∈ Finset.range c | s.bit x = false} := by
    ext x
    simp [h.mem_iff]
  rw [← List.toFinset_card_of_nodup h.nodup, hset, freeBelow, Nat.count_eq_card_filter_range]

/-- Blocks in use add nothing. -/
theorem freeBelow_of_used (hle : n ≤ m) (hu : ∀ x, n ≤ x → x < m → bit x = true) :
    freeBelow bit m = freeBelow bit n := by
  induction m with
  | zero =>
    obtain rfl : n = 0 := by omega
    rfl
  | succ m ih =>
    rcases Nat.eq_or_lt_of_le hle with rfl | hlt
    · rfl
    · rw [freeBelow, Nat.count_succ, if_neg (by simp [hu m (by omega) (by omega)]), Nat.add_zero]
      exact ih (by omega) fun x h1 h2 => hu x h1 (by omega)

theorem freeBelow_mono (h : n ≤ m) : freeBelow bit n ≤ freeBelow bit m := Nat.count_monotone _ h

/-- Free blocks add one each. -/
theorem freeBelow_of_free (n : ℕ) (hf : ∀ x, c ≤ x → x < c + n → bit x = false) :
    freeBelow bit (c + n) = freeBelow bit c + n := by
  induction n with
  | zero => rfl
  | succ n ih =>
    rw [← Nat.add_assoc, freeBelow, Nat.count_succ, if_pos (hf _ (by omega) (by omega))]
    exact congrArg (· + 1) (ih fun x h1 h2 => hf x h1 (by omega))

/-- The loop counts up from the length of the list, and stops below its final length, or at the
number of free blocks if they run out. -/
theorem mem_indexNCBs (fuel : ℕ) (h : Swept size s i alloc t c) (hi : i ≤ 8)
    (hf : size < fuel + c) :
    (∃ l u c, ballocPageLoop size fuel i alloc t = .ok (l, u) ∧ Swept size s 8 l u c ∧
      alloc.length ≤ l.length ∧
      ∀ k, k ∈ indexNCBs size fuel i alloc t ↔ alloc.length ≤ k ∧ k < l.length) ∨
    ballocPageLoop size fuel i alloc t = .error (.panic "balloc: out of blocks") ∧
      alloc.length ≤ freeBelow s.bit size ∧
      ∀ k, k ∈ indexNCBs size fuel i alloc t ↔ alloc.length ≤ k ∧ k ≤ freeBelow s.bit size := by
  induction fuel generalizing i alloc t c with
  | zero =>
    have := h.bound
    omega
  | succ fuel ih =>
    rw [ballocPageLoop, indexNCBs]
    by_cases hlt : i < 8
    · rw [if_pos hlt, if_pos hlt, bind_apply]
      cases hfree : firstFree t.bit size 0 with
      | none =>
        right
        have hlast : freeBelow s.bit size = alloc.length := by
          rw [h.length_eq]
          exact freeBelow_of_used h.bound fun x h1 h2 =>
            h.used h1 (firstFree_none hfree (Nat.zero_le _) (by omega))
        rw [balloc_none hfree]
        refine ⟨rfl, hlast.ge, fun k => ?_⟩
        change k ∈ [alloc.length] ↔ _
        rw [hlast, List.mem_singleton]
        omega
      | some b =>
        rw [balloc_some hfree]
        have hnext := h.balloc hlt hfree
        have hle := runIndex_le i b alloc
        have hcb : c ≤ b := by
          by_contra hc
          obtain ⟨hb, -, -⟩ := firstFree_some hfree
          rw [h.bit, markBits] at hb
          split_ifs at hb with hm
          exact hm ((h.mem_iff b).2 ⟨by omega, hb⟩)
        have hlen : (b :: alloc).length = alloc.length + 1 := rfl
        rcases ih hnext (by omega) (by omega) with ⟨l, u, d, hl, hd, hll, hx⟩ | ⟨hl, hll, hx⟩
        · refine .inl ⟨l, u, d, hl, hd, by omega, fun k => ?_⟩
          rw [List.mem_cons, hx]
          omega
        · refine .inr ⟨hl, by omega, fun k => ?_⟩
          rw [List.mem_cons, hx]
          omega
    · obtain rfl : i = 8 := by omega
      refine .inl ⟨alloc, t, c, by rw [if_neg hlt]; rfl, h, le_rfl, fun k => ?_⟩
      rw [if_neg hlt]
      simp only [List.not_mem_nil, false_iff]
      omega

/-- Where there is no run the search counts all the free blocks. -/
theorem freeBelow_mem_indexNCBs (hno : ∀ b, ¬ FreeRun s.bit size b) :
    freeBelow s.bit size ∈ indexNCBs size (size + 1) 0 [] s := by
  rcases mem_indexNCBs (size + 1) (Swept.start size s) (Nat.zero_le 8) (by omega) with
    ⟨l, u, c, -, h, -⟩ | ⟨-, -, hk⟩
  · exact absurd h.isLeast.1 (hno _)
  · exact (hk _).2 ⟨Nat.zero_le _, le_rfl⟩

/-- The indices stay inside the array exactly if the free blocks in front of the first run of eight
leave room for the run, or, where there is none, all free blocks together do not fill the array. -/
theorem indexNCB_lt_iff (size : ℕ) (s : Kernel) :
    (∀ k ∈ indexNCBs size (size + 1) 0 [] s, k < NUM) ↔
      (∀ b, IsLeast {b | FreeRun s.bit size b} b → freeBelow s.bit b + 8 ≤ NUM) ∧
        ((∀ b, ¬ FreeRun s.bit size b) → freeBelow s.bit size < NUM) := by
  have hfuel : size < size + 1 + 0 := by omega
  have hloop := mem_indexNCBs (size + 1) (Swept.start size s) (Nat.zero_le 8) hfuel
  rcases hloop with ⟨l, u, c, -, h, -, hk⟩ | ⟨hl, -, hk⟩
  · have hleast := h.isLeast
    have hc := h.below
    have hlen : l.length = freeBelow s.bit (c - 8) + 8 := by
      rw [h.length_eq, ← freeBelow_of_free 8 fun x h1 h2 => ?_, Nat.sub_add_cancel hc]
      exact (hleast.1 x (mem_group.2 ⟨h1, h2⟩)).1
    constructor
    · intro hlt
      have hlast := hlt (l.length - 1) ((hk _).2 ⟨Nat.zero_le _, by omega⟩)
      refine ⟨fun b hb => ?_, fun hno => absurd hleast.1 (hno _)⟩
      rw [hb.unique hleast]
      omega
    · rintro ⟨hroom, -⟩ k hmem
      have := hroom _ hleast
      have := ((hk k).1 hmem).2
      omega
  · have hno : ∀ b, ¬ FreeRun s.bit size b := by
      intro b hb
      rcases ballocPageLoop_first (size + 1) (Swept.start size s) (Nat.zero_le 8) hfuel with
        ⟨l, u, c, hok, -⟩ | ⟨-, hused⟩
      · cases hl.symm.trans hok
      · have hlast := (hb (b + 7) (mem_group.2 ⟨by omega, by omega⟩)).2
        obtain ⟨x, h1, h2, hx⟩ := hused b (by omega)
        rw [(hb x (mem_group.2 ⟨h1, h2⟩)).1] at hx
        cases hx
    constructor
    · intro hlt
      exact ⟨fun b hb => absurd hb.1 (hno b), fun _ => hlt _ (freeBelow_mem_indexNCBs hno)⟩
    · rintro ⟨-, hroom⟩ k hmem
      exact lt_of_le_of_lt ((hk k).1 hmem).2 (hroom hno)

/-- The blocks below 104 and every eighth one are in use. -/
def splintered : Kernel :=
  { fragmented with bit := fun b => b < 104 ∨ b % 8 = 7 }

theorem freeBelow_splintered (n : ℕ) : 7 * n ≤ freeBelow splintered.bit (104 + 8 * n) := by
  induction n with
  | zero => exact Nat.zero_le _
  | succ n ih =>
    have hfree : freeBelow splintered.bit (104 + 8 * n + 7) =
        freeBelow splintered.bit (104 + 8 * n) + 7 := by
      apply freeBelow_of_free
      intro x h1 h2
      simp only [splintered, decide_eq_false_iff_not]
      omega
    have hmono : freeBelow splintered.bit (104 + 8 * n + 7) ≤
        freeBelow splintered.bit (104 + 8 * (n + 1)) := freeBelow_mono (by omega)
    omega

/-- No eight blocks of the disk are free in a row, and more than a hundred thousand are free. -/
theorem indexNCB_overrun :
    ∃ s : Kernel, ¬ ∀ k ∈ indexNCBs FSSIZE (FSSIZE + 1) 0 [] s, k < NUM := by
  have hno : ∀ b, ¬ FreeRun splintered.bit FSSIZE b := by
    intro b hb
    have hused : b + 7 - b % 8 ∈ group b := mem_group.2 ⟨by omega, by omega⟩
    have hfree := (hb _ hused).1
    simp only [splintered, decide_eq_false_iff_not] at hfree
    omega
  have hmany : 7 * 15987 ≤ freeBelow splintered.bit FSSIZE := freeBelow_splintered 15987
  refine ⟨splintered, fun hlt => ?_⟩
  have hlast := hlt _ (freeBelow_mem_indexNCBs hno)
  rw [NUM] at hlast
  omega

end Xv6Lab.Paging
