import Mathlib.Tactic.Common

/-! Runs of a labelled transition system whose steps all meet a condition, and
the rule that a property kept by every such step holds in every state reached. -/

namespace Xv6Lab.Lib

variable {σ ι : Type} {step : σ → ι → σ → Prop} {good good' : σ → ι → Prop}

/-- `Run step good s t`: from `s` to `t` by steps that are `good` where they are taken. -/
inductive Run (step : σ → ι → σ → Prop) (good : σ → ι → Prop) (s : σ) : σ → Prop
  | refl : Run step good s s
  | tail {t u : σ} {i : ι} : Run step good s t → good t i → step t i u → Run step good s u

namespace Run

variable {s t u : σ}

theorem single {i : ι} (hg : good s i) (h : step s i t) : Run step good s t := .tail .refl hg h

theorem trans (h : Run step good s t) (h' : Run step good t u) : Run step good s u := by
  induction h' with
  | refl => exact h
  | tail _ hg hs ih => exact .tail ih hg hs

theorem mono (h : Run step good s t) (hg : ∀ s i, good s i → good' s i) : Run step good' s t := by
  induction h with
  | refl => exact .refl
  | tail _ hi hs ih => exact .tail ih (hg _ _ hi) hs

/-- A run seen through a map of states. -/
theorem map {τ : Type} {step' : τ → ι → τ → Prop} {good' : τ → ι → Prop} (f : σ → τ)
    (hg : ∀ s i, good s i → good' (f s) i)
    (hs : ∀ {s i t}, good s i → step s i t → step' (f s) i (f t))
    (h : Run step good s t) : Run step' good' (f s) (f t) := by
  induction h with
  | refl => exact .refl
  | tail _ hi ht ih => exact .tail ih (hg _ _ hi) (hs hi ht)

/-- What the first state satisfies and every good step keeps, the last state satisfies. -/
theorem invariant {P : σ → Prop} (h0 : P s)
    (hstep : ∀ {t u : σ} {i : ι}, P t → good t i → step t i u → P u) (h : Run step good s t) :
    P t := by
  induction h with
  | refl => exact h0
  | tail _ hg hs ih => exact hstep ih hg hs

end Run

end Xv6Lab.Lib
