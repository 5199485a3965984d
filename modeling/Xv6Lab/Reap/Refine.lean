import Xv6Lab.Reap.Cores

/-! Every step of the machine is a step in the lives of the processes, or changes nothing
in them. -/

namespace Xv6Lab.Reap

open Sched (Slot NPROC ProcState)

variable {ncpu : ℕ} {s t : Machine ncpu} {c e : Fin ncpu} {p q i : Slot} {n : ℕ} {a : Action}
  {ok : Bool} {k : Place}

/-- A step on the lives of the processes, or none. -/
def Lives (l t : Life) : Prop := t = l ∨ l.Step t

theorem zombie_of_phase (hi : (s.life.view i).phase = .zombie) : (s.proc i).state = .ZOMBIE := by
  change phaseOf (s.proc i).state = _ at hi
  cases hst : (s.proc i).state <;> rw [hst] at hi <;> first | rfl | cases hi

namespace Cores

theorem job (hk : (s.proc p).place = k) : (s.life.view p).job = k.job := congrArg Place.job hk

theorem phase_live (h : Cores s) (hc : (s.cpu c).core = .run p) :
    (s.life.view p).phase = .live := by
  change phaseOf (s.proc p).state = _
  rw [h.running hc]
  rfl

/-- Nobody else is under the lock. -/
theorem alone (h : Cores s) (hc : (s.cpu c).core = .run p) (hp : (s.proc p).locked = true)
    (hq : (s.proc q).place.locked = true) (hw : (s.proc q).place ≠ .waitWoken) : q = p := by
  obtain ⟨hdetour, hor⟩ := h.locked hq
  obtain ⟨e, he⟩ := hor.resolve_left hw
  have hlp : s.lock = some c := (h.holder c).1 (by simp only [Machine.holding, hc, hp])
  have hlq : s.lock = some e := (h.holder e).1 (by
    simp only [Machine.holding, he, Proc.locked, hdetour, hq])
  obtain rfl := Option.some.inj (hlp.symm.trans hlq)
  rw [hc] at he
  exact (Core.run.inj he).symm

theorem no_exitScan (h : Cores s) (hc : (s.cpu c).core = .run p) (hp : (s.proc p).locked = true)
    (hne : ∀ n, (s.proc p).place ≠ .exitScan n) (q : Slot) (n : ℕ) :
    (s.life.view q).job ≠ .exitScan n := by
  intro hq
  have hplace : (s.proc q).place = .exitScan n := by
    change (s.proc q).place.job = _ at hq
    cases hk : (s.proc q).place <;> simp_all [Place.job]
  have hqp := h.alone hc hp (q := q) (by rw [hplace]; rfl) (by rw [hplace]; simp)
  exact hne n (hqp ▸ hplace)

/-- The child that a `wait` finds still has its stack. -/
theorem zombie_stack (hb : Bonds s.life) (hk : (s.proc p).place = k)
    (hw : ∀ j, k.job ≠ .waitClear j)
    (hpar : (s.proc i).parent = some p) (hz : (s.proc i).state = .ZOMBIE) :
    ∃ a, (s.proc i).kstack = some a := by
  rcases (hb.zombie (i := i) (congrArg phaseOf hz)).2 with hsome | ⟨q, hq⟩
  · exact Option.isSome_iff_exists.1 hsome
  · -- the stack can only be missing between the two steps of its parent
    obtain rfl := Option.some.inj (hpar.symm.trans (hb.clear hq).2.1)
    rw [job hk] at hq
    exact absurd hq (hw i)

open Machine in
theorem placeStep_life (h : Cores s) (hb : Bonds s.life) (hc : (s.cpu c).core = .run p)
    (hv : (s.proc p).detour = .straight)
    (ht : s.placeStep c p ok = some t) : Lives s.life t.life := by
  have hl := h.phase_live hc
  unfold Machine.placeStep at ht
  cases hk : (s.proc p).place with
  | user | dead | panic msg =>
    rw [hk] at ht
    cases ht
  | allocproc i =>
    rw [hk] at ht
    cases ht
    unfold Machine.allocStep
    split_ifs with hi hs
    · right
      have hlife := Life.Step.take p ⟨i, hi⟩ hl (job hk) (congrArg phaseOf hs)
      set u := s.set ⟨i, hi⟩ fun q => { q with state := .EMBRYO, pid := s.nextpid } with hu
      have hut : (u.unlockTo p (.kalloc ⟨i, hi⟩)).life = (s.life.put ⟨i, hi⟩ { s.life.view ⟨i, hi⟩
          with phase := .embryo, pid := s.life.nextpid }).turn p (.kalloc ⟨i, hi⟩) := by
        rw [life_unlockTo, hu, life_set]
        rfl
      rwa [← hut] at hlife
    · exact .inl (life_goto_same _ _ (by rw [hk]; rfl))
    · exact .inl (life_unlockTo_same _ _ (by rw [hk]; rfl))
  | kalloc np =>
    rw [hk] at ht
    cases ok <;> cases ht <;> right
    · rw [life_goto, life_set]
      exact .noStack p np (job hk)
    · rw [life_goto, life_takePage, life_set]
      exact .stack p np (job hk)
  | copyuvm np =>
    rw [hk] at ht
    cases ok <;> cases ht <;> right
    · rw [life_goto]
      exact .noSetup p np (job hk)
    · rw [life_goto, life_takePage]
      exact .setup p np (job hk)
  | copying np d =>
    rw [hk] at ht
    cases ok <;> cases ht <;> right
    · rw [life_goto]
      exact .notCopied p np d (job hk)
    · rw [life_goto, life_set]
      exact .copied p np d (job hk)
  | dropStack np =>
    rw [hk] at ht
    have hmade := (hb.making (p := p) (i := np) (by rw [job hk]; rfl)).2
    rw [job hk] at hmade
    obtain ⟨k, hstack⟩ := Option.isSome_iff_exists.1 hmade.1
    have hstack' : (s.proc np).kstack = some k := hstack
    simp only [hstack', Option.some.injEq] at ht
    subst ht
    right
    rw [life_goto, life_emit, life_set]
    exact .dropStack p np k (job hk) hstack
  | dropChild np =>
    rw [hk] at ht
    cases ht
    right
    rw [life_goto, life_set]
    exact .dropChild p np (job hk)
  | fill np =>
    rw [hk] at ht
    cases ht
    right
    rw [life_goto, life_set]
    exact .fill p np (job hk)
  | publish np =>
    rw [hk] at ht
    obtain ⟨u, hu, rfl⟩ := Option.map_eq_some_iff.1 ht
    obtain ⟨-, rfl⟩ := acquire_eq_some hu
    exact .inl (life_goto_same (s := { s with lock := some c }) _ _ (congrArg Place.job hk).symm)
  | runnable np =>
    rw [hk] at ht
    cases ht
    right
    rw [life_unlockTo, life_emit, life_set]
    exact .publish p np (job hk)
  | exec =>
    rw [hk] at ht
    cases ok <;> cases ht
    · exact .inl (life_goto_same _ _ (by rw [hk]; rfl))
    · right
      rw [life_goto, life_takePage]
      exact .build p hl (job hk)
  | build d =>
    rw [hk] at ht
    cases ok <;> cases ht <;> right
    · rw [life_goto]
      exact .notBuilt p d (job hk)
    · rw [life_goto, life_set]
      exact .built p d (job hk)
  | switchuvm old =>
    rw [hk] at ht
    obtain ⟨hks, hpg⟩ := hb.live hl
    have hks' : (s.proc p).kstack ≠ none := Option.isSome_iff_ne_none.1 hks
    have hpg' : (s.proc p).pgdir ≠ none := Option.isSome_iff_ne_none.1 hpg
    simp only [hks', hpg', ↓reduceIte, Option.some.injEq] at ht
    subst ht
    right
    rw [life_goto, life_setCr3]
    exact .switched p old (job hk)
  | freevm d k =>
    rw [hk] at ht
    cases d with
    | none =>
      have := hb.dir (p := p) (d := none) (.inl ⟨k, job hk⟩)
      cases this
    | some d =>
      cases ht
      right
      rw [life_goto, life_emit, show k.place.job = k.place by cases k <;> rfl]
      exact .freed p d k (job hk)
  | exit =>
    rw [hk] at ht
    obtain ⟨u, hu, rfl⟩ := Option.map_eq_some_iff.1 ht
    obtain ⟨-, rfl⟩ := acquire_eq_some hu
    exact .inl (life_goto_same (s := { s with lock := some c }) _ _ (congrArg Place.job hk).symm)
  | exitWake =>
    rw [hk] at ht
    have hexit : s.life.Step (s.life.turn p (.exitScan 0)) :=
      .exit p hl (job hk) (h.leaving (.inr hk))
    cases hpar : (s.proc p).parent with
    | none =>
      simp only [hpar, Option.some.injEq] at ht
      subst ht
      right
      rwa [life_goto]
    | some q =>
      simp only [hpar, Option.some.injEq] at ht
      subst ht
      right
      rwa [life_goto, life_wakeup1]
  | exitScan i =>
    rw [hk] at ht
    dsimp only at ht
    split_ifs at ht with hi
    · cases ht
      right
      unfold Machine.abandon
      split_ifs with hpar hz
      · rw [life_goto, life_wakeup1, life_set]
        exact .abandon p ⟨i, hi⟩ (job hk) hpar
      · rw [life_goto, life_set]
        exact .abandon p ⟨i, hi⟩ (job hk) hpar
      · rw [life_goto]
        exact .pass p ⟨i, hi⟩ (job hk) hpar
    · cases ht
      right
      unfold Machine.zombie
      rw [life_setCore, life_emit, life_set]
      exact .zombie p i (job hk) (Nat.le_of_not_lt hi)
  | waitScan i havekids =>
    rw [hk] at ht
    cases ht
    have hlocked : (s.proc p).locked = true := by
      unfold Proc.locked
      rw [hv, hk]
      rfl
    unfold Machine.waitStep
    split_ifs with hi hpar hz hno
    · exact .inl (life_goto_same _ _ (by rw [hk]; rfl))
    · have hpar' : (s.life.view ⟨i, hi⟩).parent = some p := Decidable.not_not.1 hpar
      have hz' : (s.life.view ⟨i, hi⟩).phase = .zombie := congrArg phaseOf hz
      obtain ⟨k, hstack⟩ := zombie_stack hb hk (by simp [Place.job]) (Decidable.not_not.1 hpar) hz
      simp only [hstack]
      right
      rw [life_goto, life_emit, life_set]
      exact .reap p ⟨i, hi⟩ k hl (job hk) hpar' hz' hstack (h.no_exitScan hc hlocked (by simp [hk]))
    · exact .inl (life_goto_same _ _ (by rw [hk]; rfl))
    · exact .inl (life_unlockTo_same _ _ (by rw [hk]; rfl))
    · left
      rw [life_setCore]
      exact life_set_same _ _ (by simp only [Proc.view, h.running hc, hk]; rfl)
  | waitClear i =>
    rw [hk] at ht
    cases ht
    have hlocked : (s.proc p).locked = true := by
      unfold Proc.locked
      rw [hv, hk]
      rfl
    right
    unfold Machine.waitClear
    rw [life_unlockTo, life_emit, life_set]
    exact .clear p i (job hk) (h.no_exitScan hc hlocked (by simp [hk]))
  | waitWoken =>
    rw [hk] at ht
    cases ht
    exact .inl (life_set_same _ _ (by simp only [Proc.view, hk]; rfl))
  | waitReturn pid =>
    rw [hk] at ht
    cases ht
    right
    rw [life_goto, life_emit]
    exact .wait p pid (job hk)
  | killScan pid i =>
    rw [hk] at ht
    cases ht
    left
    unfold Machine.killStep
    split_ifs with hi hpid
    · rw [life_unlockTo_same, life_set_same]
      · cases hs : (s.proc ⟨i, hi⟩).state <;> simp [Proc.view, hs, phaseOf]
      · by_cases hpi : p = ⟨i, hi⟩
        · rw [set_proc, if_pos hpi, ← hpi, hk]
          rfl
        · rw [set_proc, if_neg hpi, hk]
          rfl
    · exact life_goto_same _ _ (by rw [hk]; rfl)
    · exact life_unlockTo_same _ _ (by rw [hk]; rfl)

open Machine in
theorem procStep_life (h : Cores s) (hb : Bonds s.life) (hc : (s.cpu c).core = .run p)
    (ht : s.procStep c p ok = some t) : Lives s.life t.life := by
  have hrun := h.running hc
  unfold Machine.procStep at ht
  cases hv : (s.proc p).detour with
  | straight =>
    rw [hv] at ht
    exact h.placeStep_life hb hc hv ht
  | release =>
    rw [hv] at ht
    cases ht
    exact .inl (life_set_same _ _ rfl)
  | yield =>
    rw [hv] at ht
    cases ht
    left
    rw [life_setCore]
    exact life_set_same _ _ (by simp only [Proc.view, hrun]; rfl)
  | sleep n =>
    rw [hv] at ht
    cases ht
    left
    rw [life_setCore]
    exact life_set_same _ _ (by simp only [Proc.view, hrun]; rfl)
  | woken =>
    rw [hv] at ht
    cases ht
    exact .inl (life_set_same _ _ rfl)

open Machine in
theorem enter_life {f : Call} (hk : (s.proc p).place = .user) (ht : s.enter c p f = some t) :
    t.life = s.life := by
  have hacquired : ∀ {k : Place}, k.job = .user → ((s.acquire c).map (·.goto p k)) = some t →
      t.life = s.life := by
    intro k hj ht
    obtain ⟨u, hu, rfl⟩ := Option.map_eq_some_iff.1 ht
    obtain ⟨-, rfl⟩ := acquire_eq_some hu
    exact life_goto_same (s := { s with lock := some c }) _ _ (hj.trans (congrArg Place.job hk).symm)
  cases f with
  | fork => exact hacquired rfl ht
  | wait => exact hacquired rfl ht
  | kill pid => exact hacquired rfl ht
  | exec =>
    cases ht
    exact life_goto_same _ _ (by rw [hk]; rfl)
  | exit =>
    cases ht
    refine life_goto_same _ _ ?_
    rw [hk]
    split_ifs <;> rfl

open Machine in
theorem act_life (h : Cores s) (hb : Bonds s.life) (hc : (s.cpu c).core = .run p)
    (ht : s.act c p a = some t) : Lives s.life t.life := by
  have hacquired : ∀ {v : Detour},
      (s.acquire c).map (·.set p fun q => { q with detour := v }) = some t →
      t.life = s.life := by
    intro v ht
    obtain ⟨u, hu, rfl⟩ := Option.map_eq_some_iff.1 ht
    obtain ⟨-, rfl⟩ := acquire_eq_some hu
    exact life_set_same (s := { s with lock := some c }) _ _ rfl
  cases a with
  | sched => cases ht
  | step ok => exact h.procStep_life hb hc ht
  | call f =>
    simp only [Machine.act] at ht
    split_ifs at ht with hu
    exact .inl (enter_life hu.2 ht)
  | timer =>
    simp only [Machine.act] at ht
    split_ifs at ht
    exact .inl (hacquired ht)
  | doze n =>
    simp only [Machine.act] at ht
    split_ifs at ht
    exact .inl (hacquired ht)

open Machine in
theorem dispatch_life (hs : (s.proc p).state = .RUNNABLE) : (s.dispatch c p).life = s.life := by
  unfold Machine.dispatch
  split_ifs
  · rfl
  · rfl
  · rw [life_setCore]
    exact life_set_same (s := s.setCr3 c (s.proc p).pgdir) _ _ (by
      simp only [setCr3_proc, Proc.view, hs]
      rfl)

open Machine in
theorem schedStep_life (ht : s.schedStep c = some t) : t.life = s.life := by
  unfold Machine.schedStep at ht
  split at ht
  · obtain ⟨u, hu, rfl⟩ := Option.map_eq_some_iff.1 ht
    obtain ⟨-, rfl⟩ := acquire_eq_some hu
    rfl
  · split_ifs at ht with hi hs
    · cases ht
      exact dispatch_life hs
    · cases ht
      rfl
    · cases ht
      rfl
  · cases ht
    rfl
  · cases ht
  · cases ht

/-- A step of the machine is a step in the lives of the processes, or none. -/
theorem step_life (h : Cores s) (hb : Bonds s.life) {l : Label ncpu} (ht : Step s l t) :
    Lives s.life t.life := by
  unfold Step Machine.step at ht
  cases l with
  | wakeup n =>
    dsimp only at ht
    split_ifs at ht
    cases ht
    exact .inl (Machine.life_wakeup1 _)
  | on c a =>
    dsimp only at ht
    split at ht
    · rename_i p hc
      exact h.act_life hb hc ht
    · split_ifs at ht
      exact .inl (schedStep_life ht)

end Cores

end Xv6Lab.Reap
