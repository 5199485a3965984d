import Mathlib.Logic.Function.Basic
import Mathlib.Data.List.Nodup

/-! Writes applied to a map, one after the other. -/

namespace Xv6Lab.Lib

variable {κ α : Type} [DecidableEq κ]

/-- The map after the writes of `ws`. -/
def overlay (ws : List (κ × α)) (d : κ → α) : κ → α :=
  ws.foldl (fun d w => Function.update d w.1 w.2) d

@[simp] theorem overlay_nil (d : κ → α) : overlay [] d = d := rfl

@[simp] theorem overlay_cons (w : κ × α) (ws : List (κ × α)) (d : κ → α) :
    overlay (w :: ws) d = overlay ws (Function.update d w.1 w.2) := rfl

/-- A key without a write keeps its value. -/
theorem overlay_of_not_mem {ws : List (κ × α)} {k : κ} (h : k ∉ ws.map Prod.fst) (d : κ → α) :
    overlay ws d k = d k := by
  induction ws generalizing d with
  | nil => rfl
  | cons w ws ih =>
    rw [List.map_cons, List.mem_cons, not_or] at h
    rw [overlay_cons, ih h.2, Function.update_of_ne h.1]

/-- With one write at most for each key, a written key holds what was written. -/
theorem overlay_of_mem {ws : List (κ × α)} {k : κ} {x : α} (hn : (ws.map Prod.fst).Nodup)
    (h : (k, x) ∈ ws) (d : κ → α) : overlay ws d k = x := by
  induction ws generalizing d with
  | nil => cases h
  | cons w ws ih =>
    rw [List.map_cons, List.nodup_cons] at hn
    rw [overlay_cons]
    cases h with
    | head => rw [overlay_of_not_mem hn.1, Function.update_self]
    | tail _ h => exact ih hn.2 h _

/-- The writes hide what their keys held before. -/
theorem overlay_congr {ws : List (κ × α)} {d d' : κ → α}
    (h : ∀ k, k ∉ ws.map Prod.fst → d k = d' k) : overlay ws d = overlay ws d' := by
  induction ws generalizing d d' with
  | nil =>
    funext k
    exact h k (by simp)
  | cons w ws ih =>
    rw [overlay_cons, overlay_cons]
    refine ih fun k hk => ?_
    by_cases hkw : k = w.1
    · rw [hkw, Function.update_self, Function.update_self]
    · rw [Function.update_of_ne hkw, Function.update_of_ne hkw]
      refine h k ?_
      rw [List.map_cons, List.mem_cons, not_or]
      exact ⟨hkw, hk⟩

/-- All writes after some of them: as if they had not been begun. -/
theorem overlay_overlay_take (ws : List (κ × α)) (j : ℕ) (d : κ → α) :
    overlay ws (overlay (ws.take j) d) = overlay ws d := by
  refine overlay_congr fun k hk => overlay_of_not_mem (fun hmem => hk ?_) d
  rw [List.map_take] at hmem
  exact List.mem_of_mem_take hmem

end Xv6Lab.Lib
