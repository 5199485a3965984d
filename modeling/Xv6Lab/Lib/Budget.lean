import Xv6Lab.Lib.Wp

/-! Programs that live within a budget. `level k s` says that no more than `k` units are gone in
state `s`; `cap` is the number of units there are, and an error is `broke` when a program stops for
want of a unit. -/

namespace Xv6Lab.Lib

variable {σ ε α β : Type} {level : ℕ → σ → Prop} {cap n j : ℕ} {broke : ε → Prop} {s t : σ} {a : α}
  {e : ε} {m m' : StateT σ (Except ε) α} {f : α → StateT σ (Except ε) β}

/-- Wherever `n` more units are left, `m` does not stop for want of one and takes no more than
these. -/
def Spends (level : ℕ → σ → Prop) (cap : ℕ) (broke : ε → Prop) (n : ℕ)
    (m : StateT σ (Except ε) α) (s : σ) : Prop :=
  ∀ k, level k s → k + n ≤ cap →
    stops m (fun e => ¬ broke e) s ∧ wp m (fun _ t => level (k + n) t) s

theorem Spends.pure (a : α) (s : σ) :
    Spends level cap broke 0 (pure a : StateT σ (Except ε) α) s := by
  intro k hk _
  rw [stops_pure, wp_pure]
  exact ⟨trivial, hk⟩

theorem Spends.throw (he : ¬ broke e) (s : σ) :
    Spends level cap broke n (throw e : StateT σ (Except ε) α) s := by
  intro k _ _
  rw [stops_throw, wp_throw]
  exact ⟨he, trivial⟩

theorem Spends.modify {g : σ → σ} (h : ∀ k, level k s → level k (g s)) :
    Spends level cap broke 0 (modify g : StateT σ (Except ε) PUnit) s := by
  intro k hk _
  rw [stops_modify, wp_modify]
  exact ⟨trivial, h k hk⟩

/-- What is spent depends on what the program does from `s` only. -/
theorem Spends.congr (h : m s = m' s) (hm : Spends level cap broke n m' s) :
    Spends level cap broke n m s := by
  intro k hk hle
  obtain ⟨hs, hw⟩ := hm k hk hle
  unfold stops wp
  rw [h]
  exact ⟨hs, hw⟩

theorem Spends.mono (hlevel : ∀ i k t, i ≤ k → level i t → level k t) (hn : n ≤ j)
    (h : Spends level cap broke n m s) : Spends level cap broke j m s := by
  intro k hk hle
  obtain ⟨hs, hw⟩ := h k hk (by omega)
  exact ⟨hs, wp_mono hw fun _ t ht => hlevel _ _ t (by omega) ht⟩

/-- The units of two programs add up. -/
theorem Spends.bind (hm : Spends level cap broke n m s)
    (hf : wp m (fun a t => Spends level cap broke j (f a) t) s) :
    Spends level cap broke (n + j) (m >>= f) s := by
  intro k hk hle
  obtain ⟨hs, hw⟩ := hm k hk (by omega)
  have hboth := wp_and hf hw
  rw [stops_bind, wp_bind]
  refine ⟨⟨hs, wp_mono hboth fun a t h => ?_⟩, wp_mono hboth fun a t h => ?_⟩
  · exact (h.1 (k + n) h.2 (by omega)).1
  · rw [← Nat.add_assoc]
    exact (h.1 (k + n) h.2 (by omega)).2

/-- A first step that returns and takes nothing. -/
theorem Spends.after (h : m s = .ok (a, t)) (hlevel : ∀ k, level k s → level k t)
    (hf : Spends level cap broke n (f a) t) : Spends level cap broke n (m >>= f) s := by
  intro k hk hle
  obtain ⟨hs, hw⟩ := hf k (hlevel k hk) hle
  rw [stops_bind, wp_bind]
  exact ⟨⟨stops_of_eq h, wp_of_eq h hs⟩, wp_of_eq h hw⟩

theorem Spends.get {f : σ → StateT σ (Except ε) β} (hf : Spends level cap broke n (f s) s) :
    Spends level cap broke n (MonadState.get >>= f) s :=
  .after (get_apply s) (fun _ h => h) hf

theorem Spends.ite {c : Prop} [Decidable c] (h : c → Spends level cap broke n m s)
    (h' : ¬ c → Spends level cap broke n m' s) :
    Spends level cap broke n (if c then m else m') s := by
  split_ifs with hc
  · exact h hc
  · exact h' hc

end Xv6Lab.Lib
