import Xv6Lab.Reap.Refine

/-! What a step of one process does to processors, the lock and the other slots, said once; the
invariant of processors and lock follows. -/

namespace Xv6Lab.Reap

open Sched (Slot NPROC ProcState)

variable {ncpu : ℕ} {s t : Machine ncpu} {c e : Fin ncpu} {p q i : Slot} {n : ℕ} {a : Action}
  {ok : Bool} {k : Place} {held : Prop} {x y : Proc}

/-- What becomes of a slot in a step of another process; `held` says that this one holds the
lock. -/
inductive Touch (held : Prop) (x y : Proc) : Prop
  | keep (hs : y.state = x.state) (hv : y.detour = x.detour) (hp : y.place = x.place)
      (hd : y.pgdir = x.pgdir) (hk : y.kstack = x.kstack)
  | wake (hx : x.state = .SLEEPING) (hy : y.state = .RUNNABLE) (hv : y.detour = x.detour)
      (hp : y.place = x.place) (hd : y.pgdir = x.pgdir)
  /-- The slot holds no process that could be on a processor. -/
  | dark (hx : x.state = .UNUSED ∨ x.state = .EMBRYO ∨ x.state = .ZOMBIE ∧ held)
      (hy : y.state ≠ .RUNNING)
      (hl : y.parked ∨ y.state = .EMBRYO ∧ y.kstack ≠ none → y.locked = true)
      (hp : y.place = x.place ∧ y.detour = x.detour ∨ y.place = .user)

namespace Touch

theorem refl : Touch held x x := .keep rfl rfl rfl rfl rfl

theorem running (h : Touch held x y) (hx : x.state = .RUNNING) :
    y.state = .RUNNING ∧ y.detour = x.detour ∧ y.place = x.place ∧ y.pgdir = x.pgdir := by
  cases h with
  | keep hs hv hp hd hk => exact ⟨hs.trans hx, hv, hp, hd⟩
  | wake hs _ hv hp hd =>
    rw [hx] at hs
    cases hs
  | dark hs _ _ _ => simp [hx] at hs

/-- A slot that a processor is leaving. -/
theorem back (h : Touch held x y) (hx : x.parked ∨ x.state = .ZOMBIE) (hno : ¬ held) :
    (y.parked ∨ y.state = .ZOMBIE) ∧ y.place = x.place ∧ y.pgdir = x.pgdir := by
  unfold Proc.parked at hx ⊢
  cases h with
  | keep hs hv hp hd hk =>
    rw [hs]
    exact ⟨hx, hp, hd⟩
  | wake hs hy hv hp hd => exact ⟨.inl (.inl hy), hp, hd⟩
  | dark hs _ _ _ => grind

theorem parked (h : Touch held x y)
    (hx : x.parked ∨ x.state = .EMBRYO ∧ x.kstack ≠ none → x.locked = true)
    (hy : y.parked ∨ y.state = .EMBRYO ∧ y.kstack ≠ none) : y.locked = true := by
  have hlocked : y.detour = x.detour → y.place = x.place → y.locked = x.locked := by
    intro hv hp
    unfold Proc.locked
    rw [hv, hp]
  cases h with
  | keep hs hv hp hd hk =>
    rw [hlocked hv hp]
    apply hx
    unfold Proc.parked at hy ⊢
    rwa [hs, hk] at hy
  | wake hs _ hv hp hd =>
    rw [hlocked hv hp]
    exact hx (.inl (.inr hs))
  | dark _ _ hl _ => exact hl hy

theorem place (h : Touch held x y) : y.place = x.place ∧ y.detour = x.detour ∨ y.place = .user := by
  cases h with
  | keep hs hv hp hd hk => exact .inl ⟨hp, hv⟩
  | wake _ _ hv hp _ => exact .inl ⟨hp, hv⟩
  | dark _ _ _ hp => exact hp

end Touch

/-- What a step of process `p` on processor `c` makes of both. -/
structure Own (c : Fin ncpu) (p : Slot) (t : Machine ncpu) : Prop where
  core : (t.cpu c).core = .run p ∧ (t.proc p).state = .RUNNING ∨
    (t.cpu c).core = .back p ∧ ((t.proc p).parked ∨ (t.proc p).state = .ZOMBIE)
  holds : t.holding c ↔ t.lock = some c
  loaded : t.loaded c p
  parked : (t.proc p).parked → (t.proc p).locked = true
  locked : (t.proc p).place.locked = true → (t.proc p).detour = .straight ∧
    ((t.proc p).place = .waitWoken ∨ (t.cpu c).core = .run p)
  leaving : (t.proc p).place = .exit ∨ (t.proc p).place = .exitWake → p ≠ initproc

namespace Cores

theorem ne_of_run (h : Cores s) (hc : (s.cpu c).core = .run p) (hec : e ≠ c)
    (he : (s.cpu e).core = .run q) : q ≠ p := by
  rintro rfl
  exact hec (h.single he hc)

/-- A step of `p` on `c` that touches the other slots. -/
theorem moved (h : Cores s) (hc : (s.cpu c).core = .run p) (ho : Own c p t)
    (hcpu : ∀ e ≠ c, t.cpu e = s.cpu e) (hlock : ∀ e ≠ c, t.lock = some e ↔ s.lock = some e)
    (ht : ∀ i ≠ p, Touch (s.lock = some c) (s.proc i) (t.proc i)) : Cores t := by
  -- processes on other processors are not touched
  have hrun : ∀ {e q}, e ≠ c → (s.cpu e).core = .run q → (t.proc q).state = .RUNNING ∧
      (t.proc q).detour = (s.proc q).detour ∧ (t.proc q).place = (s.proc q).place ∧
        (t.proc q).pgdir = (s.proc q).pgdir := fun he hq =>
    (ht _ (h.ne_of_run hc he hq)).running (h.running hq)
  have hback : ∀ {e q}, e ≠ c → (s.cpu e).core = .back q → q ≠ p ∧ ((t.proc q).parked ∨
      (t.proc q).state = .ZOMBIE) ∧ (t.proc q).place = (s.proc q).place ∧
        (t.proc q).pgdir = (s.proc q).pgdir := by
    intro e q he hq
    have hqp : q ≠ p := by
      rintro rfl
      have hstate := h.running hc
      rcases h.back hq with (hs | hs) | hs <;> simp [hs] at hstate
    have hheld : s.lock = some e := (h.holder e).1 (by simp only [Machine.holding, hq])
    refine ⟨hqp, (ht q hqp).back (h.back hq) fun hlc => he ?_⟩
    exact Option.some.inj (hheld.symm.trans hlc)
  -- what processor `c` has left to say about `p` alone
  have hown : ∀ {q}, (t.cpu c).core = .run q ∨ (t.cpu c).core = .back q → q = p := by
    intro q hq
    rcases ho.core with ⟨hp, -⟩ | ⟨hp, -⟩ <;> rw [hp] at hq <;> simpa [eq_comm] using hq
  constructor
  · intro e
    by_cases he : e = c
    · rw [he]
      exact ho.holds
    · rw [hlock e he, ← h.holder e]
      unfold Machine.holding
      rw [hcpu e he]
      split
      · rfl
      · rfl
      · rfl
      · rfl
      · rename_i q hq
        obtain ⟨-, hv, hp, -⟩ := hrun he hq
        unfold Proc.locked
        rw [hv, hp]
  · intro e q hq
    by_cases he : e = c
    · rw [he] at hq
      have hqp := hown (.inl hq)
      rcases ho.core with ⟨-, hs⟩ | ⟨hb, -⟩
      · rw [hqp]
        exact hs
      · rw [hb] at hq
        cases hq
    · rw [hcpu e he] at hq
      exact (hrun he hq).1
  · intro e f q hq hq'
    by_cases he : e = c
    · by_cases hf : f = c
      · rw [he, hf]
      · rw [he] at hq
        rw [hcpu f hf, hown (.inl hq)] at hq'
        exact absurd rfl (h.ne_of_run hc hf hq')
    · by_cases hf : f = c
      · rw [hf] at hq'
        rw [hcpu e he, hown (.inl hq')] at hq
        exact absurd rfl (h.ne_of_run hc he hq)
      · rw [hcpu e he] at hq
        rw [hcpu f hf] at hq'
        exact h.single hq hq'
  · intro e hidle
    by_cases he : e = c
    · rw [he] at hidle
      rcases ho.core with ⟨hp, -⟩ | ⟨hp, -⟩ <;> simp [hp] at hidle
    · rw [hcpu e he] at hidle ⊢
      exact h.off hidle
  · intro e q hq
    by_cases he : e = c
    · rw [he] at hq
      have hqp := hown (.inr hq)
      rcases ho.core with ⟨hr, -⟩ | ⟨-, hs⟩
      · rw [hr] at hq
        cases hq
      · rw [hqp]
        exact hs
    · rw [hcpu e he] at hq
      exact (hback he hq).2.1
  · intro e q hq
    by_cases he : e = c
    · rw [he] at hq ⊢
      rw [hown hq]
      exact ho.loaded
    · rw [hcpu e he] at hq
      have hload := h.loaded hq
      have hsame : (t.proc q).place = (s.proc q).place ∧ (t.proc q).pgdir = (s.proc q).pgdir := by
        rcases hq with hq | hq
        · exact (hrun he hq).2.2
        · exact (hback he hq).2.2
      unfold Machine.loaded at hload ⊢
      rwa [hcpu e he, hsame.1, hsame.2]
  · intro q hq
    by_cases hqp : q = p
    · rw [hqp] at hq ⊢
      rcases hq with hq | hq
      · exact ho.parked hq
      · rcases ho.core with ⟨-, hs⟩ | ⟨-, (hs | hs) | hs⟩ <;> simp [hs] at hq
    · exact (ht q hqp).parked h.parked hq
  · intro q hq
    by_cases hqp : q = p
    · rw [hqp] at hq ⊢
      obtain ⟨hv, hw⟩ := ho.locked hq
      exact ⟨hv, hw.imp_right fun hrun => ⟨c, hrun⟩⟩
    · rcases (ht q hqp).place with ⟨hp, hv⟩ | hp
      · rw [hp] at hq ⊢
        obtain ⟨hdetour, hw⟩ := h.locked hq
        refine ⟨hv.trans hdetour, hw.imp_right fun hrun => ?_⟩
        obtain ⟨e, he⟩ := hrun
        refine ⟨e, ?_⟩
        have hec : e ≠ c := by
          rintro rfl
          rw [hc] at he
          exact hqp (Core.run.inj he).symm
        rw [hcpu e hec]
        exact he
      · rw [hp] at hq
        cases hq
  · intro q hq
    by_cases hqp : q = p
    · rw [hqp] at hq ⊢
      exact ho.leaving hq
    · rcases (ht q hqp).place with ⟨hp, -⟩ | hp
      · rw [hp] at hq
        exact h.leaving hq
      · simp [hp] at hq

/-- A step of the scheduler between processes. -/
theorem rescheduled (h : Cores s) (hno : ∀ p, (s.cpu c).core ≠ .run p) (hproc : t.proc = s.proc)
    (hcore : (t.cpu c).core = .idle ∨ ∃ i, (t.cpu c).core = .scan i) (hcr3 : (t.cpu c).cr3 = none)
    (hholds : t.holding c ↔ t.lock = some c) (hcpu : ∀ e ≠ c, t.cpu e = s.cpu e)
    (hlock : ∀ e ≠ c, t.lock = some e ↔ s.lock = some e) : Cores t := by
  have hrun : ∀ {e p}, (t.cpu e).core = .run p → e ≠ c ∧ (s.cpu e).core = .run p := by
    intro e p he
    have hec : e ≠ c := by
      rintro rfl
      rcases hcore with hi | ⟨i, hi⟩ <;> simp [hi] at he
    rw [hcpu e hec] at he
    exact ⟨hec, he⟩
  have hback : ∀ {e p}, (t.cpu e).core = .back p → e ≠ c ∧ (s.cpu e).core = .back p := by
    intro e p he
    have hec : e ≠ c := by
      rintro rfl
      rcases hcore with hi | ⟨i, hi⟩ <;> simp [hi] at he
    rw [hcpu e hec] at he
    exact ⟨hec, he⟩
  constructor
  · intro e
    by_cases he : e = c
    · rw [he]
      exact hholds
    · rw [hlock e he, ← h.holder e]
      unfold Machine.holding
      rw [hcpu e he, hproc]
  · intro e p he
    rw [hproc]
    exact h.running (hrun he).2
  · exact fun he hf => h.single (hrun he).2 (hrun hf).2
  · intro e he
    by_cases hec : e = c
    · rw [hec]
      exact hcr3
    · rw [hcpu e hec] at he ⊢
      exact h.off he
  · intro e p he
    rw [hproc]
    exact h.back (hback he).2
  · intro e p he
    have hload : e ≠ c ∧ s.loaded e p := by
      rcases he with he | he
      · exact ⟨(hrun he).1, h.loaded (.inl (hrun he).2)⟩
      · exact ⟨(hback he).1, h.loaded (.inr (hback he).2)⟩
    unfold Machine.loaded at hload ⊢
    rw [hcpu e hload.1, hproc]
    exact hload.2
  · intro p hp
    rw [hproc] at hp ⊢
    exact h.parked hp
  · intro p hp
    rw [hproc] at hp ⊢
    obtain ⟨hv, hw⟩ := h.locked hp
    refine ⟨hv, hw.imp_right fun hrun => ?_⟩
    obtain ⟨e, he⟩ := hrun
    refine ⟨e, ?_⟩
    have hec : e ≠ c := by
      rintro rfl
      exact hno p he
    rw [hcpu e hec]
    exact he
  · intro p hp
    rw [hproc] at hp
    exact h.leaving hp

open Machine in
theorem step_dispatch (h : Cores s) (hb : Bonds s.life) (hc : (s.cpu c).core = .scan n)
    (hs : (s.proc p).state = .RUNNABLE) : Cores (s.dispatch c p) := by
  have hlive := hb.live (p := p) (congrArg phaseOf hs)
  have hks : (s.proc p).kstack ≠ none := Option.isSome_iff_ne_none.1 hlive.1
  have hpg : (s.proc p).pgdir ≠ none := Option.isSome_iff_ne_none.1 hlive.2
  have hlocked : (s.proc p).locked = true := h.parked (.inl (.inl hs))
  have hlock : s.lock = some c := (h.holder c).1 (by simp only [Machine.holding, hc])
  have hnot : ∀ e, (s.cpu e).core ≠ .run p := fun e he => by
    rw [h.running he] at hs
    cases hs
  have hback : ∀ e, (s.cpu e).core ≠ .back p := fun e he => by
    have hle : s.lock = some e := (h.holder e).1 (by simp only [Machine.holding, he])
    obtain rfl := Option.some.inj (hlock.symm.trans hle)
    rw [hc] at he
    cases he
  unfold Machine.dispatch
  rw [if_neg hks, if_neg hpg]
  set t := ((s.setCr3 c (s.proc p).pgdir).set p fun q => { q with state := .RUNNING }).setCore c
    (.run p) with ht
  have hcpu : t.cpu c = ⟨.run p, (s.proc p).pgdir⟩ := by
    rw [ht]
    simp
  have hother : ∀ e ≠ c, t.cpu e = s.cpu e := by
    intro e he
    rw [ht]
    simp [he]
  have hself : t.proc p = { s.proc p with state := .RUNNING } := by
    rw [ht]
    simp
  have hproc : ∀ i ≠ p, t.proc i = s.proc i := by
    intro i hi
    rw [ht]
    simp [hi]
  have hruns : ∀ {e q}, (t.cpu e).core = .run q → e = c ∧ q = p ∨ e ≠ c ∧ q ≠ p ∧
      (s.cpu e).core = .run q := by
    intro e q he
    by_cases hec : e = c
    · rw [hec, hcpu] at he
      exact .inl ⟨hec, (Core.run.inj he).symm⟩
    · rw [hother e hec] at he
      refine .inr ⟨hec, ?_, he⟩
      rintro rfl
      exact hnot e he
  have hbacks : ∀ {e q}, (t.cpu e).core = .back q → e ≠ c ∧ q ≠ p ∧ (s.cpu e).core = .back q := by
    intro e q he
    by_cases hec : e = c
    · rw [hec, hcpu] at he
      cases he
    · rw [hother e hec] at he
      refine ⟨hec, ?_, he⟩
      rintro rfl
      exact hback e he
  constructor
  · intro e
    have htl : t.lock = s.lock := rfl
    rw [htl]
    by_cases hec : e = c
    · rw [hec, hlock]
      unfold Machine.holding
      rw [hcpu]
      have hsame : (t.proc p).locked = (s.proc p).locked := by
        rw [hself]
        rfl
      simp only [hsame, hlocked]
    · rw [← h.holder e]
      unfold Machine.holding
      rw [hother e hec]
      split
      · rfl
      · rfl
      · rfl
      · rfl
      · rename_i q hq
        have hqp : q ≠ p := by
          rintro rfl
          exact hnot e hq
        rw [hproc q hqp]
  · intro e q he
    rcases hruns he with ⟨-, rfl⟩ | ⟨-, hqp, hq⟩
    · rw [hself]
    · rw [hproc q hqp]
      exact h.running hq
  · intro e f q he hf
    rcases hruns he with ⟨rfl, rfl⟩ | ⟨-, hqp, hq⟩
    · rcases hruns hf with ⟨rfl, -⟩ | ⟨-, hne, -⟩
      · rfl
      · exact absurd rfl hne
    · rcases hruns hf with ⟨-, rfl⟩ | ⟨-, -, hq'⟩
      · exact absurd rfl hqp
      · exact h.single hq hq'
  · intro e he
    have hec : e ≠ c := by
      rintro rfl
      simp [hcpu] at he
    rw [hother e hec] at he ⊢
    exact h.off he
  · intro e q he
    obtain ⟨-, hqp, hq⟩ := hbacks he
    rw [hproc q hqp]
    exact h.back hq
  · intro e q he
    have hold : e ≠ c → q ≠ p → (s.cpu e).core = .run q ∨ (s.cpu e).core = .back q →
        t.loaded e q := by
      intro hec hqp hq
      unfold Machine.loaded
      rw [hother e hec, hproc q hqp]
      exact h.loaded hq
    rcases he with he | he
    · rcases hruns he with ⟨rfl, rfl⟩ | ⟨hec, hqp, hq⟩
      · left
        rw [hcpu, hself]
      · exact hold hec hqp (.inl hq)
    · obtain ⟨hec, hqp, hq⟩ := hbacks he
      exact hold hec hqp (.inr hq)
  · intro q hq
    by_cases hqp : q = p
    · rw [hqp, hself]
      exact hlocked
    · rw [hproc q hqp] at hq ⊢
      exact h.parked hq
  · intro q hq
    by_cases hqp : q = p
    · rw [hqp, hself] at hq ⊢
      exact ⟨(h.locked hq).1, .inr ⟨c, by rw [hcpu]⟩⟩
    · rw [hproc q hqp] at hq ⊢
      obtain ⟨hv, hw⟩ := h.locked hq
      refine ⟨hv, hw.imp_right fun hrun => ?_⟩
      obtain ⟨e, he⟩ := hrun
      refine ⟨e, ?_⟩
      have hec : e ≠ c := by
        rintro rfl
        rw [hc] at he
        cases he
      rw [hother e hec]
      exact he
  · intro q hq
    by_cases hqp : q = p
    · rw [hqp, hself] at hq
      rw [hqp]
      exact h.leaving hq
    · rw [hproc q hqp] at hq
      exact h.leaving hq

open Machine in
theorem step_sched (h : Cores s) (hb : Bonds s.life) (ht : s.schedStep c = some t) : Cores t := by
  unfold Machine.schedStep at ht
  cases hc : (s.cpu c).core with
  | idle =>
    simp only [hc] at ht
    obtain ⟨u, hu, rfl⟩ := Option.map_eq_some_iff.1 ht
    obtain ⟨hfree, rfl⟩ := acquire_eq_some hu
    apply h.rescheduled (c := c)
    · simp [hc]
    · rfl
    · exact .inr ⟨0, by simp⟩
    · simpa using h.off (.inl hc)
    · simp [Machine.holding]
    · intro e he
      simp [he]
    · intro e he
      simp [hfree, Ne.symm he]
  | scan i =>
    have hheld : s.lock = some c := (h.holder c).1 (by simp only [Machine.holding, hc])
    have hcr3 := h.off (.inr ⟨i, hc⟩)
    simp only [hc] at ht
    split_ifs at ht with hi hs
    · cases ht
      exact h.step_dispatch hb hc hs
    · cases ht
      apply h.rescheduled (c := c)
      · simp [hc]
      · rfl
      · exact .inr ⟨i + 1, by simp⟩
      · simpa using hcr3
      · simp [Machine.holding, hheld]
      · intro e he
        simp [he]
      · intro e _
        rfl
    · cases ht
      apply h.rescheduled (c := c)
      · simp [hc]
      · rfl
      · exact .inl (by simp)
      · simpa using hcr3
      · simp [Machine.holding]
      · intro e he
        simp [he]
      · intro e he
        simp [hheld, Ne.symm he]
  | back p =>
    have hheld : s.lock = some c := (h.holder c).1 (by simp only [Machine.holding, hc])
    simp only [hc] at ht
    cases ht
    apply h.rescheduled (c := c)
    · simp [hc]
    · rfl
    · exact .inr ⟨p + 1, by simp⟩
    · simp
    · simp [Machine.holding, hheld]
    · intro e he
      simp [he]
    · intro e _
      rfl
  | run p => simp [hc] at ht
  | panic msg => simp [hc] at ht

/-- What `wakeup1` does to each slot. -/
theorem touch_wakeup1 (s : Machine ncpu) (chan : Sched.Chan) (held : Prop) (i : Slot) :
    Touch held (s.proc i) ((s.wakeup1 chan).proc i) := by
  unfold Machine.wakeup1
  dsimp only
  split_ifs with hi
  · exact .wake hi.1 rfl rfl rfl rfl
  · exact .refl

theorem step_wakeup (h : Cores s) (n : ℕ) : Cores (s.wakeup1 (.object n)) := by
  have ht := touch_wakeup1 s (.object n) False
  set t := s.wakeup1 (.object n)
  have hcpu : t.cpu = s.cpu := rfl
  have hlock : t.lock = s.lock := rfl
  constructor
  · intro e
    rw [hlock, ← h.holder e]
    unfold Machine.holding
    rw [hcpu]
    split
    · rfl
    · rfl
    · rfl
    · rfl
    · rename_i q hq
      obtain ⟨-, hv, hp, -⟩ := (ht q).running (h.running hq)
      unfold Proc.locked
      rw [hv, hp]
  · exact fun he => ((ht _).running (h.running he)).1
  · exact h.single
  · exact h.off
  · exact fun he => ((ht _).back (h.back he) id).1
  · intro e q he
    have hsame : (t.proc q).place = (s.proc q).place ∧ (t.proc q).pgdir = (s.proc q).pgdir := by
      rcases he with hq | hq
      · exact ((ht q).running (h.running hq)).2.2
      · exact ((ht q).back (h.back hq) id).2
    unfold Machine.loaded
    rw [hcpu, hsame.1, hsame.2]
    exact h.loaded he
  · exact fun hq => (ht _).parked h.parked hq
  · intro q hq
    rcases (ht q).place with ⟨hp, hv⟩ | hp
    · rw [hp] at hq ⊢
      rw [hv]
      exact h.locked hq
    · rw [hp] at hq
      cases hq
  · intro q hq
    rcases (ht q).place with ⟨hp, -⟩ | hp
    · rw [hp] at hq
      exact h.leaving hq
    · simp [hp] at hq

/-! ### Steps of a process -/

theorem holds_lock (h : Cores s) (hc : (s.cpu c).core = .run p) (hp : (s.proc p).locked = true) :
    s.lock = some c :=
  (h.holder c).1 (by simp only [Machine.holding, hc, hp])

theorem locked_of_place (hv : (s.proc p).detour = .straight) :
    (s.proc p).locked = (s.proc p).place.locked := by
  unfold Proc.locked
  rw [hv]

theorem loaded_pgdir (h : Cores s) (hc : (s.cpu c).core = .run p)
    (hsw : ∀ d, (s.proc p).place ≠ .switchuvm d) : (s.cpu c).cr3 = (s.proc p).pgdir :=
  (h.loaded (.inl hc)).resolve_right (hsw _)

/-- The process goes on to `k`, and the lock stays as it is. -/
theorem turned (h : Cores s) (hc : (s.cpu c).core = .run p) (hv : (s.proc p).detour = .straight)
    (hsw : ∀ d, (s.proc p).place ≠ .switchuvm d) (hk : k.locked = (s.proc p).place.locked)
    (hex : k = .exit ∨ k = .exitWake → p ≠ initproc) (hplace : (t.proc p).place = k)
    (hst : (t.proc p).state = (s.proc p).state) (hvt : (t.proc p).detour = (s.proc p).detour)
    (hd : (t.proc p).pgdir = (s.proc p).pgdir) (hcpu : t.cpu = s.cpu) (hlock : t.lock = s.lock)
    (ht : ∀ i ≠ p, Touch (s.lock = some c) (s.proc i) (t.proc i)) : Cores t := by
  have hcore : (t.cpu c).core = .run p := by rw [hcpu, hc]
  have hstate := hst.trans (h.running hc)
  have hdetour := hvt.trans hv
  have hlk : (t.proc p).locked = (s.proc p).locked := by
    rw [locked_of_place hdetour, locked_of_place hv, hplace, hk]
  apply h.moved hc ?_ (fun e _ => by rw [hcpu]) (fun e _ => by rw [hlock]) ht
  constructor
  · exact .inl ⟨hcore, hstate⟩
  · rw [hlock, ← h.holder c]
    unfold Machine.holding
    rw [hcore, hc]
    simp only [hlk]
  · left
    rw [hcpu, hd]
    exact h.loaded_pgdir hc hsw
  · rintro (hs | hs) <;> simp [hs] at hstate
  · exact fun _ => ⟨hdetour, .inr hcore⟩
  · rw [hplace]
    exact hex

/-- The process goes on to `k` by way of `release`. -/
theorem unlocked (h : Cores s) (hc : (s.cpu c).core = .run p) (hlk : (s.proc p).locked = true)
    (hsw : ∀ d, (s.proc p).place ≠ .switchuvm d) (hk : k.locked = false)
    (hplace : (t.proc p).place = k)
    (hex : k ≠ .exit ∧ k ≠ .exitWake) (hst : (t.proc p).state = (s.proc p).state)
    (hvt : (t.proc p).detour = .release) (hd : (t.proc p).pgdir = (s.proc p).pgdir)
    (hcpu : t.cpu = s.cpu) (hlock : t.lock = s.lock)
    (ht : ∀ i ≠ p, Touch (s.lock = some c) (s.proc i) (t.proc i)) : Cores t := by
  have hcore : (t.cpu c).core = .run p := by rw [hcpu, hc]
  have hstate := hst.trans (h.running hc)
  have hlt : (t.proc p).locked = true := by
    unfold Proc.locked
    rw [hvt]
  apply h.moved hc ?_ (fun e _ => by rw [hcpu]) (fun e _ => by rw [hlock]) ht
  constructor
  · exact .inl ⟨hcore, hstate⟩
  · unfold Machine.holding
    rw [hcore, hlock, h.holds_lock hc hlk]
    simp only [hlt]
  · left
    rw [hcpu, hd]
    exact h.loaded_pgdir hc hsw
  · exact fun _ => hlt
  · intro hl
    rw [hplace, hk] at hl
    cases hl
  · rw [hplace]
    rintro (he | he)
    · exact absurd he hex.1
    · exact absurd he hex.2

/-- The process acquires the lock. -/
theorem acquired (h : Cores s) (hc : (s.cpu c).core = .run p) (hfree : s.lock = none)
    (hlt : (t.proc p).locked = true)
    (hplace : (t.proc p).place.locked = true → (t.proc p).detour = .straight)
    (hload : t.loaded c p)
    (hex : (t.proc p).place = .exit ∨ (t.proc p).place = .exitWake → p ≠ initproc)
    (hst : (t.proc p).state = (s.proc p).state) (hcpu : t.cpu = s.cpu) (hlock : t.lock = some c)
    (ht : ∀ i ≠ p, t.proc i = s.proc i) : Cores t := by
  have hcore : (t.cpu c).core = .run p := by rw [hcpu, hc]
  have hstate := hst.trans (h.running hc)
  apply h.moved hc ?_ (fun e _ => by rw [hcpu]) ?_ (fun i hi => by rw [ht i hi]; exact .refl)
  · constructor
    · exact .inl ⟨hcore, hstate⟩
    · unfold Machine.holding
      rw [hcore, hlock]
      simp only [hlt]
    · exact hload
    · exact fun _ => hlt
    · exact fun hl => ⟨hplace hl, .inr hcore⟩
    · exact hex
  · intro e he
    rw [hlock, hfree]
    simp [Ne.symm he]

/-- The process gives up its processor, in `sched`. -/
theorem left (h : Cores s) (hc : (s.cpu c).core = .run p) (hlk : (s.proc p).locked = true)
    (hst : (t.proc p).parked ∧ (t.proc p).locked = true ∨ (t.proc p).state = .ZOMBIE)
    (hplace : (t.proc p).place.locked = true →
      (t.proc p).detour = .straight ∧ (t.proc p).place = .waitWoken)
    (hload : (s.cpu c).cr3 = (t.proc p).pgdir ∨ (t.proc p).place = .switchuvm (s.cpu c).cr3)
    (hex : (t.proc p).place = .exit ∨ (t.proc p).place = .exitWake → p ≠ initproc)
    (hcore : t.cpu c = { s.cpu c with core := .back p }) (hcpu : ∀ e ≠ c, t.cpu e = s.cpu e)
    (hlock : t.lock = s.lock) (ht : ∀ i ≠ p, t.proc i = s.proc i) : Cores t := by
  apply h.moved hc ?_ hcpu (fun e _ => by rw [hlock]) (fun i hi => by rw [ht i hi]; exact .refl)
  constructor
  · exact .inr ⟨by rw [hcore], hst.imp_left And.left⟩
  · unfold Machine.holding
    rw [hcore, hlock, h.holds_lock hc hlk]
    simp
  · unfold Machine.loaded
    rw [hcore]
    exact hload
  · intro hp
    rcases hst with ⟨-, hl⟩ | hz
    · exact hl
    · rcases hp with hp | hp <;> simp [hp] at hz
  · exact fun hl => ⟨(hplace hl).1, .inl (hplace hl).2⟩
  · exact hex

end Cores

end Xv6Lab.Reap
