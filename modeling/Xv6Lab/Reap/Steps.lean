import Xv6Lab.Reap.Moves

/-! The steps of a process, one by one: each keeps what holds of processors and the lock. -/

namespace Xv6Lab.Reap

open Sched (Slot NPROC ProcState)

variable {ncpu : ℕ} {s t u : Machine ncpu} {c e : Fin ncpu} {p q i : Slot} {n : ℕ} {a : Action}
  {ok : Bool} {k k₀ : Place} {held : Prop} {x y : Proc}

/-- Code on processor `c` may take `s` to `u` before its process goes on. -/
structure Touched (c : Fin ncpu) (s u : Machine ncpu) : Prop where
  slot : ∀ i, Touch (s.lock = some c) (s.proc i) (u.proc i)
  cpu : u.cpu = s.cpu
  lock : u.lock = s.lock

namespace Touched

theorem refl : Touched c s s := ⟨fun _ => .refl, rfl, rfl⟩

theorem emit (h : Touched c s u) (e : Event) : Touched c s (u.emit e) := ⟨h.slot, h.cpu, h.lock⟩

theorem takePage (h : Touched c s u) : Touched c s u.takePage := ⟨h.slot, h.cpu, h.lock⟩

theorem set {f : Proc → Proc} (hi : Touch (s.lock = some c) (s.proc i) (f (s.proc i))) :
    Touched c s (s.set i f) := by
  constructor
  · intro j
    by_cases hj : j = i
    · rw [Machine.set_proc, if_pos hj, hj]
      exact hi
    · rw [Machine.set_proc, if_neg hj]
      exact .refl
  · rfl
  · rfl

theorem wakeup1 (chan : Sched.Chan) : Touched c s (s.wakeup1 chan) :=
  ⟨Cores.touch_wakeup1 s chan _, rfl, rfl⟩

theorem abandon (p i : Slot) : Touched c s (s.abandon p i) := by
  have hparent : Touched c s (s.set i fun q => { q with parent := some initproc }) :=
    .set (.keep rfl rfl rfl rfl rfl)
  unfold Machine.abandon
  split_ifs
  · constructor
    · intro j
      set u := s.set i fun q => { q with parent := some initproc } with hu
      -- the parent does not matter to `wakeup1`
      have hj : (u.proc j).state = (s.proc j).state ∧ (u.proc j).detour = (s.proc j).detour ∧
          (u.proc j).place = (s.proc j).place ∧ (u.proc j).pgdir = (s.proc j).pgdir ∧
            (u.proc j).kstack = (s.proc j).kstack := by
        rw [hu, Machine.set_proc]
        split_ifs with hji
        · simp [hji]
        · simp
      unfold Machine.wakeup1
      dsimp only
      split_ifs with hs
      · exact .wake (hj.1 ▸ hs.1) rfl hj.2.1 hj.2.2.1 hj.2.2.2.1
      · exact .keep hj.1 hj.2.1 hj.2.2.1 hj.2.2.2.1 hj.2.2.2.2
    · rfl
    · rfl
  · exact hparent
  · exact .refl

end Touched

namespace Cores

/-- The slot of the child that a `fork` is making. -/
theorem embryo (hb : Bonds s.life) (hk : (s.proc p).place = k) (hi : k.job.child = some i) :
    (s.proc i).state = .EMBRYO := by
  have hphase := (hb.making (p := p) (by rw [job hk]; exact hi)).1
  change phaseOf (s.proc i).state = _ at hphase
  cases hs : (s.proc i).state <;> rw [hs] at hphase <;> first | rfl | cases hphase

/-- Pages and the log do not matter. -/
theorem congr (h : Cores s) (hproc : t.proc = s.proc) (hcpu : t.cpu = s.cpu)
    (hlock : t.lock = s.lock) : Cores t := by
  cases s
  cases t
  simp only at hproc hcpu hlock
  subst hproc hcpu hlock
  exact ⟨h.holder, h.running, h.single, h.off, h.back, h.loaded, h.parked, h.locked, h.leaving⟩

theorem no_lock (h : Cores s) (hc : (s.cpu c).core = .run p) (hlk : (s.proc p).locked = false) :
    s.lock ≠ some c := by
  intro hl
  have hholds := (h.holder c).2 hl
  unfold Machine.holding at hholds
  simp [hc, hlk] at hholds

section

variable (h : Cores s) (hc : (s.cpu c).core = .run p)

include h hc

open Machine in
theorem goto (hv : (s.proc p).detour = .straight) (hk : (s.proc p).place = k₀)
    (hsw : ∀ d, k₀ ≠ .switchuvm d) (hlk : k.locked = k₀.locked)
    (hex : k = .exit ∨ k = .exitWake → p ≠ initproc) (hu : Touched c s u) : Cores (u.goto p k) := by
  have hp := (hu.slot p).running (h.running hc)
  unfold Machine.goto
  apply h.turned (k := k) hc hv
  · rw [hk]
    exact hsw
  · rw [hk, hlk]
  · exact hex
  · simp
  · simpa [h.running hc] using hp.1
  · simpa using hp.2.1
  · simpa using hp.2.2.2
  · exact hu.cpu
  · exact hu.lock
  · intro i hi
    simpa [hi] using hu.slot i

open Machine in
theorem unlockTo (hv : (s.proc p).detour = .straight) (hk : (s.proc p).place = k₀)
    (hsw : ∀ d, k₀ ≠ .switchuvm d) (hlocked : k₀.locked = true) (hlk : k.locked = false)
    (hex : k ≠ .exit ∧ k ≠ .exitWake) (hu : Touched c s u) : Cores (u.unlockTo p k) := by
  have hp := (hu.slot p).running (h.running hc)
  unfold Machine.unlockTo
  apply h.unlocked (k := k) hc
  · rw [locked_of_place hv, hk, hlocked]
  · rw [hk]
    exact hsw
  · exact hlk
  · simp
  · exact hex
  · simpa [h.running hc] using hp.1
  · simp
  · simpa using hp.2.2.2
  · exact hu.cpu
  · exact hu.lock
  · intro i hi
    simpa [hi] using hu.slot i

/-- The process acquires the lock on its way to `k`. -/
theorem acquire_goto (hv : (s.proc p).detour = .straight) (hk : (s.proc p).place = k₀)
    (hsw : ∀ d, k₀ ≠ .switchuvm d) (hlk : k.locked = true)
    (hex : k = .exit ∨ k = .exitWake → p ≠ initproc)
    (ht : (s.acquire c).map (·.goto p k) = some t) : Cores t := by
  obtain ⟨u, hu, rfl⟩ := Option.map_eq_some_iff.1 ht
  obtain ⟨hfree, rfl⟩ := Machine.acquire_eq_some hu
  unfold Machine.goto
  apply h.acquired hc hfree
  · simp [Proc.locked, hv, hlk]
  · simp [hv]
  · left
    simpa using h.loaded_pgdir hc (by rw [hk]; exact hsw)
  · simpa using hex
  · simp
  · rfl
  · rfl
  · intro i hi
    simp [hi]

/-- An interrupt, or `sleep`, acquires the lock. -/
theorem acquire_detour {v : Detour} (hlk : (s.proc p).locked = false) (hdetour : v ≠ .straight)
    (ht : (s.acquire c).map (·.set p fun q => { q with detour := v }) = some t) : Cores t := by
  obtain ⟨u, hu, rfl⟩ := Option.map_eq_some_iff.1 ht
  obtain ⟨hfree, rfl⟩ := Machine.acquire_eq_some hu
  have hplace : (s.proc p).place.locked = false := by
    by_contra hl
    have hv := (h.locked (Bool.eq_true_of_not_eq_false hl)).1
    rw [locked_of_place hv] at hlk
    exact hl hlk
  apply h.acquired hc hfree
  · cases v with
    | straight => exact absurd rfl hdetour
    | _ => simp [Proc.locked]
  · simp [hplace]
  · simpa [Machine.loaded] using h.loaded (.inl hc)
  · simpa using h.leaving (p := p)
  · simp
  · rfl
  · rfl
  · intro i hi
    simp [hi]

end

open Machine in
theorem step_build (h : Cores s) (hc : (s.cpu c).core = .run p) (hv : (s.proc p).detour = .straight)
    {d : ℕ} (hk : (s.proc p).place = .build d) :
    Cores ((s.set p fun q => { q with pgdir := some d }).goto p (.switchuvm (s.proc p).pgdir)) := by
  have hlk : (s.proc p).locked = false := by
    rw [locked_of_place hv, hk]
    rfl
  have hcr3 := h.loaded_pgdir hc (by simp [hk])
  unfold Machine.goto
  apply h.moved hc
  · have hno := h.no_lock hc hlk
    constructor
    · simp [hc, h.running hc]
    · simp [Machine.holding, hc, Proc.locked, hv, Place.locked, hno]
    · simp [Machine.loaded, hcr3]
    · simp [Proc.parked, h.running hc]
    · simp [Place.locked]
    · simp
  · intro e _
    rfl
  · intro e _
    rfl
  · intro i hi
    simpa [hi] using Touch.refl

open Machine in
theorem step_switchuvm (h : Cores s) (hc : (s.cpu c).core = .run p)
    (hv : (s.proc p).detour = .straight) {d : Option ℕ} (hk : (s.proc p).place = .switchuvm d) :
    Cores ((s.setCr3 c (s.proc p).pgdir).goto p (.freevm d .user)) := by
  have hlk : (s.proc p).locked = false := by
    rw [locked_of_place hv, hk]
    rfl
  unfold Machine.goto
  apply h.moved hc
  · have hno := h.no_lock hc hlk
    constructor
    · simp [hc, h.running hc]
    · simp [Machine.holding, hc, Proc.locked, hv, Place.locked, hno]
    · simp [Machine.loaded]
    · simp [Proc.parked, h.running hc]
    · simp [Place.locked]
    · simp
  · intro e he
    simp [he]
  · intro e _
    rfl
  · intro i hi
    simpa [hi] using Touch.refl

open Machine in
theorem step_allocproc (h : Cores s) (hb : Bonds s.life) (hc : (s.cpu c).core = .run p)
    (hv : (s.proc p).detour = .straight) (hk : (s.proc p).place = .allocproc n) :
    Cores (s.allocStep p n) := by
  unfold Machine.allocStep
  split_ifs with hi hs
  · have hnone : (s.proc ⟨n, hi⟩).kstack = none := (hb.free (congrArg phaseOf hs)).1
    have htouch : Touch (s.lock = some c) (s.proc ⟨n, hi⟩)
        { s.proc ⟨n, hi⟩ with state := .EMBRYO, pid := s.nextpid } := by
      refine .dark (.inl hs) (by simp) ?_ (.inl ⟨rfl, rfl⟩)
      simp [Proc.parked, hnone]
    have htaken := h.unlockTo (k := .kalloc ⟨n, hi⟩) hc hv hk (by simp) rfl rfl (by simp)
      (.set (f := fun q => { q with state := .EMBRYO, pid := s.nextpid }) htouch)
    exact htaken.congr rfl rfl rfl
  · exact h.goto hc hv hk (by simp) rfl (by simp) .refl
  · exact h.unlockTo hc hv hk (by simp) rfl rfl (by simp) .refl

open Machine in
theorem step_exitScan (h : Cores s) (hc : (s.cpu c).core = .run p)
    (hv : (s.proc p).detour = .straight)
    (hk : (s.proc p).place = .exitScan n) : Cores (s.zombie c p) := by
  unfold Machine.zombie
  apply h.left hc
  · rw [locked_of_place hv, hk]
    rfl
  · right
    simp
  · simp [Place.locked]
  · left
    simpa using h.loaded_pgdir hc (by simp [hk])
  · simp
  · simp
  · intro e he
    simp [he]
  · rfl
  · intro i hi
    simp [hi]

open Machine in
theorem step_waitScan (h : Cores s) (hb : Bonds s.life) (hc : (s.cpu c).core = .run p)
    (hv : (s.proc p).detour = .straight) {b : Bool} (hk : (s.proc p).place = .waitScan n b) :
    Cores (s.waitStep c p n b) := by
  have hlocked : (s.proc p).locked = true := by
    rw [locked_of_place hv, hk]
    rfl
  unfold Machine.waitStep
  split_ifs with hi hpar hz hno
  · exact h.goto hc hv hk (by simp) rfl (by simp) .refl
  · obtain ⟨a, ha⟩ := zombie_stack hb hk (by simp [Place.job]) (Decidable.not_not.1 hpar) hz
    have htouch : Touch (s.lock = some c) (s.proc ⟨n, hi⟩)
        { s.proc ⟨n, hi⟩ with kstack := none } := by
      refine .dark (.inr (.inr ⟨hz, h.holds_lock hc hlocked⟩)) (by simp [hz]) ?_ (.inl ⟨rfl, rfl⟩)
      simp [Proc.parked, hz]
    simp only [ha]
    exact h.goto hc hv hk (by simp) rfl (by simp)
      (.emit (.set (f := fun q => { q with kstack := none }) htouch) _)
  · exact h.goto hc hv hk (by simp) rfl (by simp) .refl
  · exact h.unlockTo hc hv hk (by simp) rfl rfl (by simp) .refl
  · apply h.left hc hlocked
    · left
      simp [Proc.parked, Proc.locked, hv, Place.locked]
    · simp [hv]
    · left
      simpa using h.loaded_pgdir hc (by simp [hk])
    · simp
    · simp
    · intro e he
      simp [he]
    · rfl
    · intro i hi
      simp [hi]

open Machine in
theorem step_waitClear (h : Cores s) (hb : Bonds s.life) (hc : (s.cpu c).core = .run p)
    (hv : (s.proc p).detour = .straight) (hk : (s.proc p).place = .waitClear i) :
    Cores (s.waitClear p i) := by
  have hlocked : (s.proc p).locked = true := by
    rw [locked_of_place hv, hk]
    rfl
  have hz : (s.proc i).state = .ZOMBIE := zombie_of_phase (hb.clear (p := p) (i := i) (job hk)).1
  have htouch : Touch (s.lock = some c) (s.proc i) { s.proc i with
      pgdir := none, pid := 0, parent := none, killed := false, state := .UNUSED } := by
    refine .dark (.inr (.inr ⟨hz, h.holds_lock hc hlocked⟩)) (by simp) ?_ (.inl ⟨rfl, rfl⟩)
    simp [Proc.parked]
  exact h.unlockTo hc hv hk (by simp) rfl rfl (by simp) (.emit (.set (f := fun q => { q with
    pgdir := none, pid := 0, parent := none, killed := false, state := .UNUSED }) htouch) _)

open Machine in
theorem step_waitWoken (h : Cores s) (hc : (s.cpu c).core = .run p)
    (hv : (s.proc p).detour = .straight) (hk : (s.proc p).place = .waitWoken) :
    Cores (s.set p fun q => { q with chan := none, place := .waitScan 0 false }) := by
  apply h.turned (k := .waitScan 0 false) hc hv
  · simp [hk]
  · rw [hk]
    rfl
  · simp
  · simp
  · simp
  · simp
  · simp
  · rfl
  · rfl
  · intro i hi
    simpa [hi] using Touch.refl

open Machine in
theorem step_killScan (h : Cores s) (hc : (s.cpu c).core = .run p)
    (hv : (s.proc p).detour = .straight)
    {pid : ℕ} (hk : (s.proc p).place = .killScan pid n) : Cores (s.killStep p pid n) := by
  unfold Machine.killStep
  split_ifs with hi hpid
  · have htouch : Touch (s.lock = some c) (s.proc ⟨n, hi⟩) { s.proc ⟨n, hi⟩ with
        killed := true
        state := if (s.proc ⟨n, hi⟩).state = .SLEEPING then .RUNNABLE
          else (s.proc ⟨n, hi⟩).state } := by
      by_cases hs : (s.proc ⟨n, hi⟩).state = .SLEEPING
      · exact .wake hs (if_pos hs) rfl rfl rfl
      · exact .keep (if_neg hs) rfl rfl rfl rfl
    exact h.unlockTo hc hv hk (by simp) rfl rfl (by simp) (.set (f := fun q => { q with
      killed := true, state := if q.state = .SLEEPING then .RUNNABLE else q.state }) htouch)
  · exact h.goto hc hv hk (by simp) rfl (by simp) .refl
  · exact h.unlockTo hc hv hk (by simp) rfl rfl (by simp) .refl

open Machine in
theorem step_place (h : Cores s) (hb : Bonds s.life) (hc : (s.cpu c).core = .run p)
    (hv : (s.proc p).detour = .straight) (ht : s.placeStep c p ok = some t) : Cores t := by
  -- what `p` does to the slot of the child that it makes
  have hchild : ∀ {i : Slot} {f : Proc → Proc}, (s.proc p).place.job.child = some i →
      ((s.proc i).state = .EMBRYO → Touch (s.lock = some c) (s.proc i) (f (s.proc i))) →
      Touched c s (s.set i f) := fun hi hf => .set (hf (embryo hb rfl hi))
  unfold Machine.placeStep at ht
  cases hk : (s.proc p).place with
  | user | dead | panic msg =>
    rw [hk] at ht
    cases ht
  | allocproc i =>
    rw [hk] at ht
    cases ht
    exact h.step_allocproc hb hc hv hk
  | kalloc np =>
    rw [hk] at ht hchild
    cases ok with
    | true =>
      cases ht
      have hmade := hchild (i := np) (f := fun q => { q with
          kstack := some s.nextpage, detour := .release, place := .user }) rfl fun hs => by
        refine .dark (.inr (.inl hs)) (by simp [hs]) ?_ (.inr rfl)
        simp [Proc.locked]
      exact h.goto hc hv hk (by simp) rfl (by simp) hmade.takePage
    | false =>
      cases ht
      have hleft := hchild (i := np) (f := fun q => { q with kstack := none }) rfl fun hs => by
        refine .dark (.inr (.inl hs)) (by simp [hs]) ?_ (.inl ⟨rfl, rfl⟩)
        simp [Proc.parked, hs]
      exact h.goto hc hv hk (by simp) rfl (by simp) hleft
  | copyuvm np =>
    rw [hk] at ht
    cases ok with
    | true =>
      cases ht
      exact h.goto hc hv hk (by simp) rfl (by simp) Touched.refl.takePage
    | false =>
      cases ht
      exact h.goto hc hv hk (by simp) rfl (by simp) .refl
  | copying np d =>
    rw [hk] at ht hchild
    cases ok with
    | true =>
      cases ht
      have hmade := hchild (i := np) (f := fun q => { q with pgdir := some d }) rfl fun hs => by
        refine .dark (.inr (.inl hs)) (by simp [hs]) ?_ (.inl ⟨rfl, rfl⟩)
        exact fun hp => h.parked hp
      exact h.goto hc hv hk (by simp) rfl (by simp) hmade
    | false =>
      cases ht
      exact h.goto hc hv hk (by simp) rfl (by simp) .refl
  | dropStack np =>
    rw [hk] at ht hchild
    have hstack := (hb.making (p := p) (i := np) (by rw [job hk]; rfl)).2
    rw [job hk] at hstack
    obtain ⟨a, ha⟩ := Option.isSome_iff_exists.1 hstack.1
    have ha' : (s.proc np).kstack = some a := ha
    simp only [ha', Option.some.injEq] at ht
    subst ht
    have hdropped := hchild (i := np) (f := fun q => { q with pgdir := none, kstack := none }) rfl
      fun hs => by
        refine .dark (.inr (.inl hs)) (by simp [hs]) ?_ (.inl ⟨rfl, rfl⟩)
        simp [Proc.parked, hs]
    exact h.goto hc hv hk (by simp) rfl (by simp) (hdropped.emit _)
  | dropChild np =>
    rw [hk] at ht hchild
    cases ht
    have hdropped := hchild (i := np) (f := fun q => { q with state := .UNUSED }) rfl fun hs => by
      refine .dark (.inr (.inl hs)) (by simp) ?_ (.inl ⟨rfl, rfl⟩)
      simp [Proc.parked]
    exact h.goto hc hv hk (by simp) rfl (by simp) hdropped
  | fill np =>
    rw [hk] at ht
    cases ht
    exact h.goto hc hv hk (by simp) rfl (by simp) (.set (f := fun q => { q with parent := some p })
      (.keep rfl rfl rfl rfl rfl))
  | publish np =>
    rw [hk] at ht
    exact h.acquire_goto hc hv hk (by simp) rfl (by simp) ht
  | runnable np =>
    rw [hk] at ht hchild
    cases ht
    have hstack := (hb.making (p := p) (i := np) (by rw [job hk]; rfl)).2
    rw [job hk] at hstack
    have hks : (s.proc np).kstack ≠ none := Option.isSome_iff_ne_none.1 hstack.1
    have hpublished := hchild (i := np) (f := fun q => { q with state := .RUNNABLE }) rfl fun hs =>
      .dark (.inr (.inl hs)) (by simp) (fun _ => h.parked (.inr ⟨hs, hks⟩)) (.inl ⟨rfl, rfl⟩)
    exact h.unlockTo hc hv hk (by simp) rfl rfl (by simp) (hpublished.emit _)
  | exec =>
    rw [hk] at ht
    cases ok with
    | true =>
      cases ht
      exact h.goto hc hv hk (by simp) rfl (by simp) Touched.refl.takePage
    | false =>
      cases ht
      exact h.goto hc hv hk (by simp) rfl (by simp) .refl
  | build d =>
    rw [hk] at ht
    cases ok with
    | true =>
      cases ht
      exact h.step_build hc hv hk
    | false =>
      cases ht
      exact h.goto hc hv hk (by simp) rfl (by simp) .refl
  | switchuvm old =>
    rw [hk] at ht
    obtain ⟨hks, hpg⟩ := hb.live (h.phase_live hc)
    have hks' : (s.proc p).kstack ≠ none := Option.isSome_iff_ne_none.1 hks
    have hpg' : (s.proc p).pgdir ≠ none := Option.isSome_iff_ne_none.1 hpg
    simp only [hks', hpg', ↓reduceIte, Option.some.injEq] at ht
    subst ht
    exact h.step_switchuvm hc hv hk
  | freevm d k =>
    rw [hk] at ht
    cases d with
    | none =>
      cases ht
      exact h.goto hc hv hk (by simp) rfl (by simp) .refl
    | some d =>
      cases ht
      exact h.goto hc hv hk (by simp) (by cases k <;> rfl) (by cases k <;> simp [After.place])
        (Touched.refl.emit _)
  | exit =>
    rw [hk] at ht
    exact h.acquire_goto hc hv hk (by simp) rfl (fun _ => h.leaving (.inl hk)) ht
  | exitWake =>
    rw [hk] at ht
    cases hpar : (s.proc p).parent with
    | none =>
      simp only [hpar, Option.some.injEq] at ht
      subst ht
      exact h.goto hc hv hk (by simp) rfl (by simp) .refl
    | some q =>
      simp only [hpar, Option.some.injEq] at ht
      subst ht
      exact h.goto hc hv hk (by simp) rfl (by simp) (.wakeup1 _)
  | exitScan i =>
    rw [hk] at ht
    dsimp only at ht
    split_ifs at ht with hi
    · cases ht
      exact h.goto hc hv hk (by simp) rfl (by simp) (.abandon _ _)
    · cases ht
      exact h.step_exitScan hc hv hk
  | waitScan i havekids =>
    rw [hk] at ht
    cases ht
    exact h.step_waitScan hb hc hv hk
  | waitClear i =>
    rw [hk] at ht
    cases ht
    exact h.step_waitClear hb hc hv hk
  | waitWoken =>
    rw [hk] at ht
    cases ht
    exact h.step_waitWoken hc hv hk
  | waitReturn pid =>
    rw [hk] at ht
    cases ht
    exact h.goto hc hv hk (by simp) rfl (by simp) (Touched.refl.emit _)
  | killScan pid i =>
    rw [hk] at ht
    cases ht
    exact h.step_killScan hc hv hk

/-- Code that is about to do something else first is not under the lock. -/
theorem unlocked_place (h : Cores s) (hv : (s.proc p).detour ≠ .straight) :
    (s.proc p).place.locked = false := by
  by_contra hl
  exact hv (h.locked (Bool.eq_true_of_not_eq_false hl)).1

open Machine in
theorem step_proc (h : Cores s) (hb : Bonds s.life) (hc : (s.cpu c).core = .run p)
    (ht : s.procStep c p ok = some t) : Cores t := by
  have hrun := h.running hc
  unfold Machine.procStep at ht
  cases hv : (s.proc p).detour with
  | straight =>
    rw [hv] at ht
    exact h.step_place hb hc hv ht
  | release =>
    have hplace := h.unlocked_place (p := p) (by simp [hv])
    have hheld := h.holds_lock hc (by simp [Proc.locked, hv])
    rw [hv] at ht
    cases ht
    apply h.moved hc
    · constructor
      · simp [hc, hrun]
      · simp [Machine.holding, hc, Proc.locked, hplace]
      · simpa [Machine.loaded] using h.loaded (.inl hc)
      · simp [Proc.parked, hrun]
      · simp [hplace]
      · simpa using h.leaving (p := p)
    · intro e _
      rfl
    · intro e he
      simp [hheld, Ne.symm he]
    · intro i hi
      simpa [hi] using Touch.refl
  | yield =>
    have hplace := h.unlocked_place (p := p) (by simp [hv])
    rw [hv] at ht
    cases ht
    apply h.left hc
    · simp [Proc.locked, hv]
    · left
      simp [Proc.parked, Proc.locked]
    · simp [hplace]
    · simpa [Machine.loaded] using h.loaded (.inl hc)
    · simpa using h.leaving (p := p)
    · simp
    · intro e he
      simp [he]
    · rfl
    · intro i hi
      simp [hi]
  | sleep n =>
    have hplace := h.unlocked_place (p := p) (by simp [hv])
    rw [hv] at ht
    cases ht
    apply h.left hc
    · simp [Proc.locked, hv]
    · left
      simp [Proc.parked, Proc.locked]
    · simp [hplace]
    · simpa [Machine.loaded] using h.loaded (.inl hc)
    · simpa using h.leaving (p := p)
    · simp
    · intro e he
      simp [he]
    · rfl
    · intro i hi
      simp [hi]
  | woken =>
    have hplace := h.unlocked_place (p := p) (by simp [hv])
    have hheld := h.holds_lock hc (by simp [Proc.locked, hv])
    rw [hv] at ht
    cases ht
    apply h.moved hc
    · constructor
      · simp [hc, hrun]
      · simp [Machine.holding, hc, Proc.locked, hheld]
      · simpa [Machine.loaded] using h.loaded (.inl hc)
      · simp [Proc.parked, hrun]
      · simp [hplace]
      · simpa using h.leaving (p := p)
    · intro e _
      rfl
    · intro e _
      rfl
    · intro i hi
      simpa [hi] using Touch.refl

theorem step_enter (h : Cores s) (hc : (s.cpu c).core = .run p) (hv : (s.proc p).detour = .straight)
    (hk : (s.proc p).place = .user) {f : Call} (ht : s.enter c p f = some t) : Cores t := by
  cases f with
  | fork | wait | kill => exact h.acquire_goto hc hv hk (by simp) rfl (by simp) ht
  | exec =>
    cases ht
    exact h.goto hc hv hk (by simp) rfl (by simp) .refl
  | exit =>
    cases ht
    by_cases hp : p = initproc
    · rw [if_pos hp]
      exact h.goto hc hv hk (by simp) rfl (by simp) .refl
    · rw [if_neg hp]
      exact h.goto hc hv hk (by simp) rfl (fun _ => hp) .refl

theorem step_act (h : Cores s) (hb : Bonds s.life) (hc : (s.cpu c).core = .run p)
    (ht : s.act c p a = some t) : Cores t := by
  have hunlocked : (s.proc p).interruptible = true → (s.proc p).locked = false := by
    intro hi
    unfold Proc.interruptible at hi
    simpa using (Bool.and_eq_true_iff.1 hi).1
  cases a with
  | sched => cases ht
  | step ok => exact h.step_proc hb hc ht
  | call f =>
    unfold Machine.act at ht
    dsimp only at ht
    split_ifs at ht with hu
    exact h.step_enter hc hu.1 hu.2 ht
  | timer =>
    unfold Machine.act at ht
    dsimp only at ht
    split_ifs at ht with hi
    exact h.acquire_detour hc (hunlocked hi) (by simp) ht
  | doze n =>
    unfold Machine.act at ht
    dsimp only at ht
    split_ifs at ht with hi
    exact h.acquire_detour hc (hunlocked hi) (by simp) ht

theorem step (h : Cores s) (hb : Bonds s.life) {l : Label ncpu} (ht : Step s l t) : Cores t := by
  unfold Step Machine.step at ht
  cases l with
  | wakeup n =>
    dsimp only at ht
    split_ifs at ht
    cases ht
    exact h.step_wakeup n
  | on c a =>
    dsimp only at ht
    split at ht
    · rename_i p hc
      exact h.step_act hb hc ht
    · split_ifs at ht
      exact h.step_sched hb ht

end Cores

end Xv6Lab.Reap
