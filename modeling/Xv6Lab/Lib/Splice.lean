import Mathlib.Data.List.Basic
import Mathlib.Tactic.Common

/-! A list with a stretch overwritten, which may reach past its end. -/

namespace Xv6Lab.Lib

variable {α : Type} {l xs ys : List α} {i k : ℕ}

/-- The list `l` with `xs` from index `i` on. -/
def splice (l : List α) (i : ℕ) (xs : List α) : List α := l.take i ++ xs ++ l.drop (i + xs.length)

theorem length_splice (h : i ≤ l.length) (xs : List α) :
    (splice l i xs).length = max l.length (i + xs.length) := by
  unfold splice
  rw [List.length_append, List.length_append, List.length_take, List.length_drop]
  omega

theorem getElem?_splice_before (h : i ≤ l.length) (hk : k < i) : (splice l i xs)[k]? = l[k]? := by
  unfold splice
  rw [List.append_assoc, List.getElem?_append_left (by rw [List.length_take]; omega),
    List.getElem?_take_of_lt hk]

theorem getElem?_splice_inside (h : i ≤ l.length) (hk : i ≤ k) (hk' : k < i + xs.length) :
    (splice l i xs)[k]? = xs[k - i]? := by
  unfold splice
  have hlen : (l.take i).length = i := by
    rw [List.length_take]
    omega
  rw [List.append_assoc, List.getElem?_append_right (by omega), hlen,
    List.getElem?_append_left (by omega)]

theorem getElem?_splice_after (h : i ≤ l.length) (hk : i + xs.length ≤ k) :
    (splice l i xs)[k]? = l[k]? := by
  unfold splice
  have hlen : (l.take i ++ xs).length = i + xs.length := by
    rw [List.length_append, List.length_take]
    omega
  rw [List.getElem?_append_right (by omega), hlen, List.getElem?_drop]
  congr 1
  omega

/-- Two stretches, the second right after the first. -/
theorem splice_splice (h : i ≤ l.length) :
    splice (splice l i xs) (i + xs.length) ys = splice l i (xs ++ ys) := by
  have hlen : (l.take i ++ xs).length = i + xs.length := by
    rw [List.length_append, List.length_take]
    omega
  unfold splice
  rw [List.take_append_of_le_length (by omega), List.take_of_length_le (by omega),
    List.drop_append, List.drop_of_length_le (by omega), hlen, List.drop_drop, List.nil_append,
    List.length_append, List.append_assoc (l.take i) xs ys]
  congr 2
  omega

theorem splice_nil (l : List α) (i : ℕ) : splice l i [] = l := by
  unfold splice
  rw [List.append_nil, List.length_nil, Nat.add_zero, List.take_append_drop]

/-- What was written is read back. -/
theorem take_drop_splice (h : i ≤ l.length) : ((splice l i xs).drop i).take xs.length = xs := by
  unfold splice
  have hlen : (l.take i).length = i := by
    rw [List.length_take]
    omega
  rw [List.append_assoc, List.drop_append, List.drop_of_length_le (by omega), hlen, Nat.sub_self,
    List.drop_zero, List.nil_append, List.take_left']
  rfl

end Xv6Lab.Lib
