import Mathlib.Tactic.Common

/-! Weakest liberal preconditions for programs that carry a state and may stop
with an error. `wp m Q s` says that whatever `m` returns from `s` satisfies `Q`;
stopping satisfies every postcondition. `Agree bad m m'` relates two programs
that return and stop alike except where the first one stops with a `bad` error,
so that a fact about the first carries over to every run of the second in which
the first one does not stop that way. -/

namespace Xv6Lab.Lib

variable {σ ε α β : Type}

/-- Whatever `m` returns from `s` satisfies `Q`. -/
def wp (m : StateT σ (Except ε) α) (Q : α → σ → Prop) (s : σ) : Prop :=
  ∀ a t, m s = .ok (a, t) → Q a t

@[simp] theorem bind_apply (m : StateT σ (Except ε) α) (f : α → StateT σ (Except ε) β) (s : σ) :
    (m >>= f) s = match m s with
      | .ok (a, t) => f a t
      | .error e => .error e := by
  simp only [bind, StateT.bind, Except.bind]
  cases m s <;> rfl

@[simp] theorem pure_apply (a : α) (s : σ) :
    (pure a : StateT σ (Except ε) α) s = .ok (a, s) := rfl

@[simp] theorem map_apply (f : α → β) (m : StateT σ (Except ε) α) (s : σ) :
    (f <$> m) s = match m s with
      | .ok (a, t) => .ok (f a, t)
      | .error e => .error e := by
  rw [← bind_pure_comp, bind_apply]
  cases m s <;> rfl

@[simp] theorem get_apply (s : σ) : (get : StateT σ (Except ε) σ) s = .ok (s, s) := rfl

@[simp] theorem modify_apply (f : σ → σ) (s : σ) :
    (modify f : StateT σ (Except ε) PUnit) s = .ok (⟨⟩, f s) := rfl

@[simp] theorem throw_apply (e : ε) (s : σ) :
    (throw e : StateT σ (Except ε) α) s = .error e := rfl

@[simp] theorem wp_pure (a : α) (Q : α → σ → Prop) (s : σ) :
    wp (pure a : StateT σ (Except ε) α) Q s ↔ Q a s :=
  ⟨fun h => h a s rfl, fun h b t e => by
    simp only [pure_apply, Except.ok.injEq, Prod.mk.injEq] at e
    obtain ⟨rfl, rfl⟩ := e
    exact h⟩

@[simp] theorem wp_bind (m : StateT σ (Except ε) α) (f : α → StateT σ (Except ε) β)
    (Q : β → σ → Prop) (s : σ) : wp (m >>= f) Q s ↔ wp m (fun a t => wp (f a) Q t) s := by
  constructor
  · intro h a t ha b u hb
    exact h b u (by rw [bind_apply, ha]; exact hb)
  · intro h b u hb
    rw [bind_apply] at hb
    cases hm : m s with
    | error e => rw [hm] at hb; cases hb
    | ok r => rw [hm] at hb; exact h r.1 r.2 hm b u hb

@[simp] theorem wp_map (f : α → β) (m : StateT σ (Except ε) α) (Q : β → σ → Prop) (s : σ) :
    wp (f <$> m) Q s ↔ wp m (fun a t => Q (f a) t) s := by
  rw [← bind_pure_comp, wp_bind]
  simp only [wp_pure]

@[simp] theorem wp_get (Q : σ → σ → Prop) (s : σ) :
    wp (get : StateT σ (Except ε) σ) Q s ↔ Q s s := wp_pure s Q s

@[simp] theorem wp_modify (f : σ → σ) (Q : PUnit → σ → Prop) (s : σ) :
    wp (modify f : StateT σ (Except ε) PUnit) Q s ↔ Q ⟨⟩ (f s) :=
  ⟨fun h => h _ _ rfl, fun h _ _ e => by cases e; exact h⟩

@[simp] theorem wp_throw (e : ε) (Q : α → σ → Prop) (s : σ) :
    wp (throw e : StateT σ (Except ε) α) Q s ↔ True :=
  ⟨fun _ => trivial, fun _ _ _ h => by cases h⟩

theorem wp_mono {m : StateT σ (Except ε) α} {Q R : α → σ → Prop} {s : σ}
    (h : wp m Q s) (hQ : ∀ a t, Q a t → R a t) : wp m R s :=
  fun a t e => hQ a t (h a t e)

theorem wp_and {m : StateT σ (Except ε) α} {Q R : α → σ → Prop} {s : σ}
    (hQ : wp m Q s) (hR : wp m R s) : wp m (fun a t => Q a t ∧ R a t) s :=
  fun a t e => ⟨hQ a t e, hR a t e⟩

/-- A program whose result is known satisfies what that result satisfies. -/
theorem wp_of_eq {m : StateT σ (Except ε) α} {Q : α → σ → Prop} {s t : σ} {a : α}
    (h : m s = .ok (a, t)) (hQ : Q a t) : wp m Q s := fun b u e => by
  rw [h] at e
  cases e
  exact hQ

/-- Two continuations that do the same after every result of `m`. -/
theorem bind_congr_of_wp {m : StateT σ (Except ε) α} {f g : α → StateT σ (Except ε) β} {s : σ}
    (h : wp m (fun a t => f a t = g a t) s) : (m >>= f) s = (m >>= g) s := by
  rw [bind_apply, bind_apply]
  cases hm : m s with
  | error e => rfl
  | ok r => exact h r.1 r.2 hm

/-! ### How a program can stop -/

theorem ok_of_toOption {x : Except ε α} {a : α} (h : x.toOption = some a) : x = .ok a := by
  cases x with
  | ok b => exact congrArg Except.ok (Option.some.inj h)
  | error e => cases h

/-- The error that a run stopped with. -/
def errorOf : Except ε α → Option ε
  | .ok _ => none
  | .error e => some e

theorem eq_error_of_errorOf {x : Except ε α} {e : ε} (h : errorOf x = some e) : x = .error e := by
  cases x with
  | ok b => cases h
  | error e' => exact congrArg Except.error (Option.some.inj h)

/-- From `s` the program `m` stops only with an error in `P`. -/
def stops (m : StateT σ (Except ε) α) (P : ε → Prop) (s : σ) : Prop := ∀ e, m s = .error e → P e

@[simp] theorem stops_pure (a : α) (P : ε → Prop) (s : σ) :
    stops (pure a : StateT σ (Except ε) α) P s ↔ True := ⟨fun _ => trivial, fun _ _ h => by cases h⟩

@[simp] theorem stops_get (P : ε → Prop) (s : σ) :
    stops (get : StateT σ (Except ε) σ) P s ↔ True := stops_pure s P s

@[simp] theorem stops_modify (f : σ → σ) (P : ε → Prop) (s : σ) :
    stops (modify f : StateT σ (Except ε) PUnit) P s ↔ True :=
  ⟨fun _ => trivial, fun _ _ h => by cases h⟩

@[simp] theorem stops_throw (e : ε) (P : ε → Prop) (s : σ) :
    stops (throw e : StateT σ (Except ε) α) P s ↔ P e :=
  ⟨fun h => h e rfl, fun h _ he => by cases he; exact h⟩

@[simp] theorem stops_bind (m : StateT σ (Except ε) α) (f : α → StateT σ (Except ε) β)
    (P : ε → Prop) (s : σ) :
    stops (m >>= f) P s ↔ stops m P s ∧ wp m (fun a t => stops (f a) P t) s := by
  constructor
  · intro h
    refine ⟨fun e he => h e (by rw [bind_apply, he]), fun a t ha e he => h e ?_⟩
    rw [bind_apply, ha]
    exact he
  · rintro ⟨hm, hf⟩ e he
    rw [bind_apply] at he
    cases h : m s with
    | error e' =>
      rw [h] at he
      cases he
      exact hm e h
    | ok r =>
      rw [h] at he
      exact hf r.1 r.2 h e he

@[simp] theorem stops_map (f : α → β) (m : StateT σ (Except ε) α) (P : ε → Prop) (s : σ) :
    stops (f <$> m) P s ↔ stops m P s := by
  rw [← bind_pure_comp, stops_bind]
  simp only [stops_pure, and_iff_left_iff_imp]
  exact fun _ _ _ _ => trivial

theorem stops_of_eq {m : StateT σ (Except ε) α} {P : ε → Prop} {s t : σ} {a : α}
    (h : m s = .ok (a, t)) : stops m P s := fun e he => by
  rw [h] at he
  cases he

/-! ### What a program leaves alone -/

/-- Whatever `m` returns, it leaves the view `f` of the state as it was. -/
def Preserves {τ : Type} (f : σ → τ) (m : StateT σ (Except ε) α) : Prop :=
  ∀ s, wp m (fun _ t => f t = f s) s

variable {τ : Type} {f : σ → τ}

theorem preserves_pure (a : α) : Preserves f (pure a : StateT σ (Except ε) α) := by
  intro s
  rw [wp_pure]

theorem preserves_get : Preserves f (get : StateT σ (Except ε) σ) := by
  intro s
  rw [wp_get]

theorem preserves_throw (e : ε) : Preserves f (throw e : StateT σ (Except ε) α) := by
  intro s
  rw [wp_throw]
  trivial

theorem preserves_modify {g : σ → σ} (h : ∀ s, f (g s) = f s) :
    Preserves f (modify g : StateT σ (Except ε) PUnit) := by
  intro s
  rw [wp_modify]
  exact h s

theorem Preserves.bind {m : StateT σ (Except ε) α} {k : α → StateT σ (Except ε) β} (hm : Preserves f m)
    (hk : ∀ a, Preserves f (k a)) : Preserves f (m >>= k) := by
  intro s
  rw [wp_bind]
  refine wp_mono (hm s) fun a t ht => ?_
  refine wp_mono (hk a t) fun b u hu => ?_
  exact hu.trans ht

theorem Preserves.ite {c : Prop} [Decidable c] {m m' : StateT σ (Except ε) α} (hm : Preserves f m)
    (hm' : Preserves f m') : Preserves f (if c then m else m') := by
  split_ifs
  · exact hm
  · exact hm'

/-! ### Two programs that differ only where the first stops -/

/-- From every state `m` stops with a `bad` error or does what `m'` does. -/
def Agree (bad : ε → Prop) (m m' : StateT σ (Except ε) α) : Prop :=
  ∀ s, (∃ e, bad e ∧ m s = .error e) ∨ m s = m' s

variable {bad : ε → Prop}

@[refl] theorem Agree.refl (m : StateT σ (Except ε) α) : Agree bad m m := fun _ => .inr rfl

theorem Agree.bind {m m' : StateT σ (Except ε) α} {f f' : α → StateT σ (Except ε) β}
    (h : Agree bad m m') (hf : ∀ a, Agree bad (f a) (f' a)) :
    Agree bad (m >>= f) (m' >>= f') := by
  intro s
  rw [bind_apply, bind_apply]
  rcases h s with ⟨e, he, hm⟩ | hm
  · exact .inl ⟨e, he, by rw [hm]⟩
  · rw [← hm]
    cases m s with
    | error e => exact .inr rfl
    | ok r => exact hf r.1 r.2

theorem Agree.throw {e : ε} (he : bad e) (m : StateT σ (Except ε) α) :
    Agree bad (throw e) m := fun _ => .inl ⟨e, he, rfl⟩

theorem Agree.ite {c : Prop} [Decidable c] {m m' n n' : StateT σ (Except ε) α}
    (hm : Agree bad m m') (hn : Agree bad n n') :
    Agree bad (if c then m else n) (if c then m' else n') := by
  split
  · exact hm
  · exact hn

/-- Where the first program does not stop with a `bad` error, what the second
one returns is what the first one returns. -/
theorem Agree.eq_of_not_bad {m m' : StateT σ (Except ε) α} (h : Agree bad m m') {s : σ}
    (hs : ∀ e, bad e → m s ≠ .error e) : m s = m' s := by
  rcases h s with ⟨e, he, hm⟩ | hm
  · exact absurd hm (hs e he)
  · exact hm

end Xv6Lab.Lib
