import Mathlib.Algebra.Order.Ring.Nat
import Mathlib.Data.Nat.ModEq
import Mathlib.Logic.Function.Basic
import Mathlib.Tactic.Common

/-! A circular buffer of `cap` cells between two counters that only grow. The code keeps the
counters in machine words of `w` bits; they wrap, and as long as they stay close to each other
nothing can tell. -/

namespace Xv6Lab.Lib.Ring

variable {α : Type} {cap w i j k : ℕ} {data : ℕ → α}

/-- The `k` entries from the counter `i` on. -/
def slice (cap : ℕ) (data : ℕ → α) (i k : ℕ) : List α :=
  (List.range k).map fun x => data ((i + x) % cap)

@[simp] theorem slice_zero (cap : ℕ) (data : ℕ → α) (i : ℕ) : slice cap data i 0 = [] := rfl

@[simp] theorem length_slice : (slice cap data i k).length = k := by
  unfold slice
  rw [List.length_map, List.length_range]

theorem slice_succ (cap : ℕ) (data : ℕ → α) (i k : ℕ) :
    slice cap data i (k + 1) = slice cap data i k ++ [data ((i + k) % cap)] := by
  unfold slice
  rw [List.range_succ, List.map_append]
  rfl

theorem slice_cons (cap : ℕ) (data : ℕ → α) (i k : ℕ) :
    slice cap data i (k + 1) = data (i % cap) :: slice cap data (i + 1) k := by
  unfold slice
  rw [List.range_succ_eq_map, List.map_cons, List.map_map]
  refine congrArg _ (List.map_congr_left fun x _ => ?_)
  change data ((i + (x + 1)) % cap) = data ((i + 1 + x) % cap)
  rw [show i + (x + 1) = i + 1 + x by omega]

/-- Counters less than `cap` apart are in different cells. -/
theorem cell_ne (hij : i < j) (h : j < i + cap) : i % cap ≠ j % cap := by
  intro he
  have hdvd : cap ∣ j - i := (Nat.modEq_iff_dvd' hij.le).1 he
  have := Nat.le_of_dvd (by omega) hdvd
  omega

/-- A write past the end of the slice, within the buffer, is not seen in it. -/
theorem slice_update (h : i + k ≤ j) (hj : j < i + cap) (x : α) :
    slice cap (Function.update data (j % cap) x) i k = slice cap data i k := by
  unfold slice
  refine List.map_congr_left fun y hy => ?_
  rw [List.mem_range] at hy
  exact Function.update_of_ne (cell_ne (by omega) (by omega)) _ _

theorem slice_push (h : k < cap) (x : α) :
    slice cap (Function.update data ((i + k) % cap) x) i (k + 1) = slice cap data i k ++ [x] := by
  rw [slice_succ, slice_update le_rfl (by omega), Function.update_self]

/-! ### Counters in words -/

theorem mod_of_dvd (h : cap ∣ 2 ^ w) (i : ℕ) : (BitVec.ofNat w i).toNat % cap = i % cap := by
  rw [BitVec.toNat_ofNat]
  exact Nat.mod_mod_of_dvd i h

theorem slice_word (h : cap ∣ 2 ^ w) (data : ℕ → α) (i k : ℕ) :
    slice cap data (BitVec.ofNat w i).toNat k = slice cap data i k := by
  unfold slice
  refine List.map_congr_left fun x _ => ?_
  rw [Nat.add_mod, mod_of_dvd h, ← Nat.add_mod]

/-- Close counters are equal when their words are. -/
theorem word_eq_iff (hij : i ≤ j) (h : j < i + 2 ^ w) :
    BitVec.ofNat w i = BitVec.ofNat w j ↔ i = j := by
  constructor
  · intro he
    have he' : i % 2 ^ w = j % 2 ^ w := by
      rw [← BitVec.toNat_ofNat i w, ← BitVec.toNat_ofNat j w, he]
    by_contra hne
    exact cell_ne (by omega) h he'
  · rintro rfl
    rfl

theorem word_add (i k : ℕ) : BitVec.ofNat w i + BitVec.ofNat w k = BitVec.ofNat w (i + k) :=
  (BitVec.ofNat_add i k).symm

theorem word_sub (hij : i ≤ j) (h : j < i + 2 ^ w) :
    (BitVec.ofNat w j - BitVec.ofNat w i).toNat = j - i := by
  obtain ⟨k, rfl⟩ := Nat.exists_eq_add_of_le hij
  have hsub : BitVec.ofNat w (i + k) - BitVec.ofNat w i = BitVec.ofNat w k := by
    rw [← word_add, BitVec.add_comm, BitVec.add_sub_cancel]
  rw [hsub, BitVec.toNat_ofNat, Nat.mod_eq_of_lt (by omega)]
  omega

end Xv6Lab.Lib.Ring
