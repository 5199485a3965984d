import Mathlib.Data.Int.Notation
import Mathlib.Logic.Function.Basic
import Mathlib.Tactic.Common

/-! Cells numbered by the integers, and sequences laid down in consecutive ones. -/

namespace Xv6Lab.Lib

variable {α : Type}

/-- `m` with `xs` in the cells from `a` on. -/
def store : (ℤ → α) → ℤ → List α → ℤ → α
  | m, _, [] => m
  | m, a, x :: xs => store (Function.update m a x) (a + 1) xs

variable (m : ℤ → α) (a : ℤ)

theorem store_append (xs ys : List α) :
    store m a (xs ++ ys) = store (store m a xs) (a + xs.length) ys := by
  induction xs generalizing m a with
  | nil => simp [store]
  | cons x xs ih =>
    simp only [List.cons_append, store, ih, List.length_cons, Int.natCast_succ]
    rw [Int.add_assoc, Int.add_comm 1]

/-- A cell past the sequence may be set before it or after it. -/
theorem store_update {c : ℤ} (x : α) (xs : List α) (hc : a + xs.length ≤ c) :
    store (Function.update m c x) a xs = Function.update (store m a xs) c x := by
  induction xs generalizing m a with
  | nil => rfl
  | cons y xs ih =>
    rw [List.length_cons] at hc
    unfold store
    rw [Function.update_comm (by omega), ih]
    omega

theorem store_of_lt {c : ℤ} (xs : List α) (hc : c < a) : store m a xs c = m c := by
  induction xs generalizing m a with
  | nil => rfl
  | cons x xs ih =>
    unfold store
    rw [ih _ _ (by omega), Function.update_of_ne (by omega)]

/-- A sequence laid down over the last item of another. -/
theorem store_store (xs : List α) (x y : α) (ys : List α) :
    store (store m a (xs ++ [x])) (a + xs.length) (y :: ys) = store m a (xs ++ y :: ys) := by
  rw [store_append, store_append]
  simp only [store, Function.update_idem]

end Xv6Lab.Lib
