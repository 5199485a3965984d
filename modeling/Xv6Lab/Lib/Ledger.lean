import Mathlib.Logic.Function.Basic
import Mathlib.Tactic.Common

/-! Ownership of numbered resources: who holds what, and what has been given up. Numbers
are handed out in order and never twice, so giving up one twice, or one that somebody
else holds, shows. -/

namespace Xv6Lab.Lib

variable {ρ : Type}

/-- `page r` is what holder `r` holds, numbers below `next` have been handed out, and those
with `gone` have been given up. -/
structure Ledger (page : ρ → Option ℕ) (next : ℕ) (gone : ℕ → Prop) : Prop where
  inj : ∀ {r r' a}, page r = some a → page r' = some a → r = r'
  lt : ∀ {r a}, page r = some a → a < next
  kept : ∀ {r a}, page r = some a → ¬ gone a
  past : ∀ {a}, gone a → a < next

namespace Ledger

variable {page page' : ρ → Option ℕ} {next a : ℕ} {gone gone' : ℕ → Prop} {r r' : ρ}

/-- The holders of `page'` hold what other holders held before, each from its own. -/
theorem rearrange (h : Ledger page next gone) (f : ρ → ρ)
    (hf : ∀ r a, page' r = some a → page (f r) = some a)
    (hinj : ∀ r r' a, page' r = some a → page' r' = some a → f r = f r' → r = r') :
    Ledger page' next gone where
  inj hr hr' := hinj _ _ _ hr hr' (h.inj (hf _ _ hr) (hf _ _ hr'))
  lt hr := h.lt (hf _ _ hr)
  kept hr := h.kept (hf _ _ hr)
  past := h.past

variable [DecidableEq ρ]

/-- A new number is handed out. -/
theorem alloc (h : Ledger page next gone) (r : ρ) :
    Ledger (Function.update page r (some next)) (next + 1) gone where
  inj {q q' a} hq hq' := by
    rw [Function.update_apply] at hq hq'
    split_ifs at hq hq' with e e'
    · rw [e, e']
    · cases hq
      exact absurd (h.lt hq') (Nat.lt_irrefl _)
    · cases hq'
      exact absurd (h.lt hq) (Nat.lt_irrefl _)
    · exact h.inj hq hq'
  lt {q a} hq := by
    rw [Function.update_apply] at hq
    split_ifs at hq with e
    · cases hq
      exact Nat.lt_succ_self _
    · exact Nat.lt_succ_of_lt (h.lt hq)
  kept {q a} hq hg := by
    rw [Function.update_apply] at hq
    split_ifs at hq with e
    · cases hq
      exact absurd (h.past hg) (Nat.lt_irrefl _)
    · exact h.kept hq hg
  past hg := Nat.lt_succ_of_lt (h.past hg)

/-- What `r` holds is given up. -/
theorem free (h : Ledger page next gone) (hr : page r = some a) :
    Ledger (Function.update page r none) next (fun b => b = a ∨ gone b) where
  inj {q q' b} hq hq' := by
    rw [Function.update_apply] at hq hq'
    split_ifs at hq hq'
    exact h.inj hq hq'
  lt {q b} hq := by
    rw [Function.update_apply] at hq
    split_ifs at hq
    exact h.lt hq
  kept {q b} hq hg := by
    rw [Function.update_apply] at hq
    split_ifs at hq with e
    rcases hg with rfl | hg
    · exact e (h.inj hq hr)
    · exact h.kept hq hg
  past {b} hg := by
    rcases hg with rfl | hg
    · exact h.lt hr
    · exact h.past hg

/-- What `r` holds passes to `r'`. -/
theorem move (h : Ledger page next gone) (hr : page r = some a) :
    Ledger (Function.update (Function.update page r none) r' (some a)) next gone := by
  refine h.rearrange (fun q => if q = r' then r else q) (fun q b hq => ?_) (fun q q' b hq hq' he => ?_)
  all_goals simp only [Function.update_apply] at *
  · split_ifs at hq ⊢ with e1 e2
    · rw [hr, hq]
    · exact hq
  · split_ifs at hq hq' he with e1 e2 e3 e4 e5
    all_goals simp_all

end Ledger

end Xv6Lab.Lib
