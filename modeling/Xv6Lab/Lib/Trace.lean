import Mathlib.Data.List.Induction
import Xv6Lab.Lib.Run

/-! Runs of a labelled transition system that record the steps they took, so that
what happened before a state can be spoken about. -/

namespace Xv6Lab.Lib

variable {σ ι : Type} {step : σ → ι → σ → Prop} {s t u : σ} {l k : List (σ × ι)} {i : ι}

/-- `Trace step s l t`: from `s` to `t` by the steps of `l`, each listed with the state
it was taken in. -/
inductive Trace (step : σ → ι → σ → Prop) (s : σ) : List (σ × ι) → σ → Prop
  | nil : Trace step s [] s
  | snoc {l : List (σ × ι)} {t u : σ} {i : ι} :
    Trace step s l t → step t i u → Trace step s (l ++ [(t, i)]) u

namespace Trace

theorem single (h : step s i t) : Trace step s [(s, i)] t := .snoc .nil h

theorem append (h : Trace step s l t) (h' : Trace step t k u) : Trace step s (l ++ k) u := by
  induction h' with
  | nil => simpa using h
  | snoc _ hs ih =>
    rw [← List.append_assoc]
    exact .snoc ih hs

theorem cons (hs : step s i t) (h : Trace step t l u) : Trace step s ((s, i) :: l) u :=
  (single hs).append h

theorem eq_of_nil (h : Trace step s [] t) : t = s := by
  generalize hl : ([] : List (σ × ι)) = l at h
  cases h with
  | nil => rfl
  | snoc _ _ => simp at hl

theorem of_snoc {a : σ} (h : Trace step s (l ++ [(a, i)]) u) : Trace step s l a ∧ step a i u := by
  generalize hl : l ++ [(a, i)] = l' at h
  cases h with
  | nil => simp at hl
  | snoc h hs =>
    obtain ⟨rfl, h'⟩ := List.append_inj' hl rfl
    simp only [List.cons.injEq, Prod.mk.injEq, and_true] at h'
    obtain ⟨rfl, rfl⟩ := h'
    exact ⟨h, hs⟩

/-- A trace is cut at any of its steps. -/
theorem of_append (h : Trace step s (l ++ k) u) :
    ∃ t, Trace step s l t ∧ Trace step t k u := by
  induction k using List.reverseRecOn generalizing u with
  | nil => exact ⟨u, by simpa using h, .nil⟩
  | append_singleton k x ih =>
    rw [← List.append_assoc] at h
    obtain ⟨ht, hs⟩ := of_snoc (a := x.1) (i := x.2) h
    obtain ⟨t, h1, h2⟩ := ih ht
    exact ⟨t, h1, h2.snoc hs⟩

theorem of_cons {a : σ} (h : Trace step s ((a, i) :: l) u) :
    a = s ∧ ∃ t, step s i t ∧ Trace step t l u := by
  obtain ⟨t, h1, h2⟩ := of_append (l := [(a, i)]) (k := l) h
  obtain ⟨h3, h4⟩ := of_snoc (l := []) h1
  obtain rfl := h3.eq_of_nil
  exact ⟨rfl, t, h4, h2⟩

/-- A list of labels that a deterministic system can follow. -/
theorem of_foldlM {f : σ → ι → Option σ} {es : List ι} (h : es.foldlM f s = some t) :
    ∃ l, l.map Prod.snd = es ∧ Trace (fun s i t => f s i = some t) s l t := by
  induction es generalizing s with
  | nil =>
    cases h
    exact ⟨[], rfl, .nil⟩
  | cons e es ih =>
    obtain ⟨u, hu, h⟩ := Option.bind_eq_some_iff.mp h
    obtain ⟨l, hl, ht⟩ := ih h
    exact ⟨(s, e) :: l, by rw [List.map_cons, hl], .cons hu ht⟩

/-- The steps that a deterministic system takes along a list of labels. -/
def trail (f : σ → ι → Option σ) : σ → List ι → List (σ × ι)
  | _, [] => []
  | s, e :: es => (s, e) :: (f s e).elim [] (trail f · es)

theorem of_trail {f : σ → ι → Option σ} {es : List ι} (h : es.foldlM f s = some t) :
    Trace (fun s i t => f s i = some t) s (trail f s es) t := by
  induction es generalizing s with
  | nil =>
    cases h
    exact .nil
  | cons e es ih =>
    obtain ⟨u, hu, h⟩ := Option.bind_eq_some_iff.mp h
    unfold trail
    rw [hu]
    exact .cons hu (ih h)

theorem of_isSome {f : σ → ι → Option σ} {es : List ι} (h : (es.foldlM f s).isSome = true) :
    Trace (fun s i t => f s i = some t) s (trail f s es) ((es.foldlM f s).getD s) := by
  obtain ⟨t, ht⟩ := Option.isSome_iff_exists.1 h
  rw [ht]
  exact of_trail ht

/-- A trace whose steps are good is a good run. -/
theorem run {good : σ → ι → Prop} (h : Trace step s l t) (hg : ∀ x ∈ l, good x.1 x.2) :
    Run step good s t := by
  induction h with
  | nil => exact .refl
  | snoc _ hs ih =>
    refine .tail (ih fun x hx => hg x (List.mem_append_left _ hx)) ?_ hs
    exact hg (_, _) (List.mem_append_right _ (List.mem_singleton_self _))

/-- What the first state satisfies and every step keeps, the last state satisfies. -/
theorem invariant {P : σ → Prop} (h0 : P s) (hstep : ∀ {t u i}, P t → step t i u → P u)
    (h : Trace step s l t) : P t := by
  induction h with
  | nil => exact h0
  | snoc _ hs ih => exact hstep ih hs

/-- The same for a property of the steps taken so far and the state. -/
theorem history {P : List (σ × ι) → σ → Prop} (h0 : P [] s)
    (hstep : ∀ {l t u i}, Trace step s l t → P l t → step t i u → P (l ++ [(t, i)]) u)
    (h : Trace step s l t) : P l t := by
  induction h with
  | nil => exact h0
  | snoc h hs ih => exact hstep h ih hs

end Trace

/-- Something with `P` has happened, and nothing with `Q` since. -/
def Since {α : Type} (P Q : α → Prop) (l : List α) : Prop :=
  ∃ l₁ x l₂, l = l₁ ++ x :: l₂ ∧ P x ∧ ∀ y ∈ l₂, ¬ Q y

theorem not_since_nil {α : Type} (P Q : α → Prop) : ¬ Since P Q [] := by
  rintro ⟨l₁, x, l₂, h, -⟩
  simp at h

theorem not_since_of_forall {α : Type} {P Q : α → Prop} {l : List α} (h : ∀ x ∈ l, ¬ P x) :
    ¬ Since P Q l := by
  rintro ⟨l₁, x, l₂, rfl, hx, -⟩
  exact h x (List.mem_append_right _ (List.mem_cons_self ..)) hx

theorem since_snoc {α : Type} {P Q : α → Prop} {l : List α} {x : α} :
    Since P Q (l ++ [x]) ↔ P x ∨ Since P Q l ∧ ¬ Q x := by
  constructor
  · rintro ⟨l₁, y, l₂, h, hp, hq⟩
    induction l₂ using List.reverseRecOn with
    | nil =>
      obtain ⟨-, h'⟩ := List.append_inj' h rfl
      rw [(List.cons.inj h').1]
      exact .inl hp
    | append_singleton l₂ z _ =>
      rw [← List.cons_append, ← List.append_assoc] at h
      obtain ⟨rfl, h'⟩ := List.append_inj' h rfl
      rw [(List.cons.inj h').1]
      exact .inr ⟨⟨l₁, y, l₂, rfl, hp, fun w hw => hq w (by simp [hw])⟩, hq z (by simp)⟩
  · rintro (hp | ⟨⟨l₁, y, l₂, rfl, hp, hq⟩, hx⟩)
    · exact ⟨l, x, [], rfl, hp, by simp⟩
    · refine ⟨l₁, y, l₂ ++ [x], by simp, hp, fun w hw => ?_⟩
      rcases List.mem_append.mp hw with hw | hw
      · exact hq w hw
      · rw [List.mem_singleton.mp hw]
        exact hx

/-- Once `P` has happened, the last of `P` and `Q` to happen is `P` unless it is `Q`. -/
theorem since_of_mem {α : Type} {P Q : α → Prop} {l : List α} (h : ∃ x ∈ l, P x)
    (hQ : ¬ Since Q P l) : Since P Q l := by
  induction l using List.reverseRecOn with
  | nil =>
    obtain ⟨x, hx, -⟩ := h
    cases hx
  | append_singleton l y ih =>
    rw [since_snoc] at hQ ⊢
    by_cases hy : P y
    · exact .inl hy
    · obtain ⟨x, hx, hp⟩ := h
      have hxl : x ∈ l := by
        obtain hx | hx := List.mem_append.1 hx
        · exact hx
        · rw [List.mem_singleton.1 hx] at hp
          exact absurd hp hy
      exact .inr ⟨ih ⟨x, hxl, hp⟩ fun hq => hQ (.inr ⟨hq, hy⟩), fun hq => hQ (.inl hq)⟩

/-- A stretch without `Q` adds what happens in it. -/
theorem since_append_of_not {α : Type} {P Q : α → Prop} {l k : List α} (hk : ∀ y ∈ k, ¬ Q y) :
    Since P Q (l ++ k) ↔ Since P Q l ∨ ∃ y ∈ k, P y := by
  induction k using List.reverseRecOn with
  | nil => simp
  | append_singleton k x ih =>
    rw [← List.append_assoc, since_snoc, ih fun y hy => hk y (by simp [hy])]
    simp only [hk x (by simp), not_false_eq_true, and_true, List.mem_append, List.mem_singleton,
      or_and_right, exists_or, exists_eq_left]
    rw [or_comm, or_assoc]

end Xv6Lab.Lib
