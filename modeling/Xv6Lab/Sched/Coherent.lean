import Xv6Lab.Sched.Change

/-! What one step does to the processors and to `nextpid`, and that the process table
stays coherent: only RUNNING processes are on processors, and only EMBRYO slots are being
made into children. -/

namespace Xv6Lab.Sched

variable {ncpu : ℕ} {v : Variant} {s t : Kernel ncpu} {e : Event ncpu} {c : Fin ncpu}
  {i p q np : Slot}

/-- What a step of `p` on processor `c` makes of the rest of the machine. -/
structure Around (s : Kernel ncpu) (e : Event ncpu) (c : Fin ncpu) (p : Slot) (t : Kernel ncpu) :
    Prop where
  cpu : t.cpu = s.cpu ∧ (t.proc p).state = .RUNNING ∨ t.cpu = Function.update s.cpu c none
  initproc : t.initproc = s.initproc
  nextpid : t.nextpid = s.nextpid ∧ (∀ i, ¬ Takes (s, e) i) ∨
    t.nextpid = s.nextpid + 1 ∧ ∃ i, Takes (s, e) i

namespace Coherent

variable (h : Coherent s) (hc : s.cpu c = some p)
include h hc

theorem goto_around (k : Context) (he : ∀ i, ¬ Takes (s, e) i) :
    Around s e c p (s.goto p k) := by
  constructor <;> simp [Kernel.goto, h.running hc, he]

theorem enterExit_around {b : Bool} (he : ∀ i, ¬ Takes (s, e) i) (ht : s.enterExit p b = some t) :
    Around s e c p t := by
  unfold Kernel.enterExit at ht
  split at ht <;> cases ht
  exact h.goto_around hc _ he

theorem trapret_around {b : Bool} (he : ∀ i, ¬ Takes (s, e) i) (ht : s.trapret p b = some t) :
    Around s e c p t := by
  unfold Kernel.trapret at ht
  split at ht
  · exact h.enterExit_around hc he ht
  · cases ht
    exact h.goto_around hc .user he

theorem wait_around : Around s (.run c .wait) c p (s.wait c p) := by
  have he : ∀ i, ¬ Takes (s, .run c .wait) i := by simp [Takes]
  unfold Kernel.wait
  split
  · rename_i q hq
    have hne : p ≠ q := by
      rintro rfl
      have := (findZombie_some hq).2
      simp [h.running hc] at this
    constructor <;> simp [Kernel.goto, Kernel.set_of_ne _ _ hne, h.running hc, he]
  · split
    · exact h.goto_around hc .ret he
    · constructor <;> simp [Kernel.sleep, Kernel.goto, he]

theorem allocproc_around : Around s (.run c .allocproc) c p (s.allocproc p) := by
  unfold Kernel.allocproc
  split
  · rename_i hn
    exact h.goto_around hc .ret (by simp [Takes, hn])
  · rename_i np hnp
    have hne : p ≠ np := by
      rintro rfl
      have := findUnused_some hnp
      simp [h.running hc] at this
    constructor
    · simp [Kernel.goto, Kernel.set_of_ne _ _ hne, h.running hc]
    · rfl
    · exact .inr ⟨rfl, np, c, rfl, hnp⟩

theorem toChild_around (f : Proc → Proc) (k : Context) (hnp : (s.proc p).context.child = some np)
    (he : ∀ i, ¬ Takes (s, e) i) : Around s e c p ((s.set np f).goto p k) := by
  have hne := (h.child_ne hnp).symm
  constructor <;> simp [Kernel.goto, Kernel.set_of_ne _ _ hne, h.running hc, he]

theorem kill_around (pid : ℤ) : Around s (.run c (.kill pid)) c p
    ((s.kill pid).goto p .ret) := by
  have hst : ((s.proc.kill pid).2 p).state = .RUNNING := by
    by_cases hf : s.proc.findPid pid = some p
    · simp [kill_apply hf, h.running hc]
    · rw [kill_apply_of_ne hf, h.running hc]
  constructor <;> simp [Kernel.goto, Kernel.kill, Takes, hst]

theorem act_around {a : Action} (ht : s.act v c p a = some t) : Around s (.run c a) c p t := by
  replace ht := acts ht
  cases ht with
  | syscall ht =>
    split at ht
    · exact h.enterExit_around hc (by simp [Takes]) ht
    · cases ht
      exact h.goto_around hc _ (by simp [Takes])
  | fault ht =>
    unfold Kernel.enterExit at ht
    split at ht <;> cases ht
    constructor <;> simp [Kernel.goto, h.running hc, Takes]
  | sleep n hk ht =>
    subst ht
    constructor <;> simp [Kernel.sleep, Takes]
  | forkret ht =>
    subst ht
    exact h.goto_around hc _ (by simp [Takes])
  | ret b ht => exact h.trapret_around hc (by simp [Takes]) ht
  | exit ht => exact h.enterExit_around hc (by simp [Takes]) ht
  | zombie hk ht =>
    subst ht
    constructor <;> simp [Kernel.zombie, Takes]
  | allocproc hk ht =>
    subst ht
    exact h.allocproc_around hc
  | kalloc ok np hk ht =>
    have hnp : (s.proc p).context.child = some np := by rw [hk]; rfl
    subst ht
    cases ok
    · exact h.toChild_around hc _ _ hnp (by simp [Takes])
    · exact h.goto_around hc _ (by simp [Takes])
  | copyuvm ok np hk ht =>
    have hnp : (s.proc p).context.child = some np := by rw [hk]; rfl
    subst ht
    cases ok
    · exact h.toChild_around hc _ _ hnp (by simp [Takes])
    · exact h.goto_around hc _ (by simp [Takes])
  | fill np hk ht =>
    subst ht
    exact h.toChild_around hc _ _ (by rw [hk]; rfl) (by simp [Takes])
  | publish np hk ht =>
    subst ht
    exact h.toChild_around hc _ _ (by rw [hk]; rfl) (by simp [Takes])
  | wait ht =>
    subst ht
    exact h.wait_around hc
  | kill pid ht =>
    subst ht
    exact h.kill_around hc _
  | set_burst_time bt ht =>
    subst ht
    constructor <;> simp [Kernel.yield, Kernel.goto, Takes]
  | resize sz ht =>
    subst ht
    constructor <;> simp [Kernel.goto, h.running hc, Takes]
  | inc_cpucounter hv ht =>
    subst ht
    constructor <;> simp [Kernel.goto, Kernel.incCpucounter, h.running hc, Takes]
  | dec_burstTime hv ht =>
    subst ht
    constructor <;> simp [Kernel.goto, Kernel.decBurstTime, h.running hc, Takes]

theorem timer_around {user : Bool} (ht : s.timer v c user = some t) :
    Around s (.timer c user) c p t := by
  have hrun := h.running hc
  have hp : (s.tick c).proc p = s.proc p := tick_of_awake (by simp [hrun])
  unfold Kernel.timer at ht
  simp only [Kernel.tick_cpu, hc, hp] at ht
  split at ht
  · cases ht
  split at ht
  · unfold Kernel.enterExit at ht
    split at ht <;> cases ht
    constructor <;> simp [Kernel.goto, hp, hrun, Takes]
  · cases v with
    | g17 =>
      cases ht
      constructor <;> simp [hp, hrun, Takes]
    | g17hybrid =>
      cases ht
      rw [Kernel.quantum_eq]
      split <;> constructor <;> simp [Kernel.incCpucounter, hp, hrun, Takes]

end Coherent

theorem Step.of_scheduler (ht : Step v s (.scheduler c) t) :
    s.cpu c = none ∧ s.scheduler v c = some t := by
  simpa [Step, Kernel.step] using ht

theorem Step.of_run {a : Action} (ht : Step v s (.run c a) t) :
    ∃ p, s.cpu c = some p ∧ s.act v c p a = some t :=
  Option.bind_eq_some_iff.mp ht

theorem Step.of_timer {user : Bool} (ht : Step v s (.timer c user) t) :
    s.timer v c user = some t := ht

theorem Coherent.scheduler_around (ht : s.scheduler v c = some t) :
    t.initproc = s.initproc ∧ t.nextpid = s.nextpid ∧
      (t = s ∨ ∃ p, Dispatches (s, .scheduler c) p ∧ (t.proc p).state = .RUNNING ∧
        t.cpu = Function.update s.cpu c (some p)) := by
  unfold Kernel.scheduler at ht
  cases hs : scan s.proc with
  | none => simp [hs] at ht
  | some r =>
    obtain ⟨lowest_bt, m⟩ := r
    simp only [hs, Option.bind_eq_bind, Option.bind_some] at ht
    cases lowest_bt <;> cases ht
    · exact ⟨rfl, rfl, .inl rfl⟩
    · rename_i p
      exact ⟨rfl, rfl, .inr ⟨p, ⟨c, m, rfl, hs⟩, by simp, rfl⟩⟩

/-- A step that `p` takes is around `p`. -/
theorem Step.around (h : Coherent s) (ht : Step v s e t) (ha : actor s e = some p) :
    ∃ c, s.cpu c = some p ∧ Around s e c p t := by
  cases e with
  | wakeup n => cases ha
  | scheduler c => cases ha
  | timer c user => exact ⟨c, ha, h.timer_around ha ht⟩
  | run c a =>
    obtain ⟨q, hc, ht⟩ := ht.of_run
    obtain rfl : p = q := Option.some.inj (ha.symm.trans hc)
    exact ⟨c, hc, h.act_around hc ht⟩

/-- A step that no process takes leaves `nextpid` alone. -/
theorem Step.idle (ht : Step v s e t) (ha : actor s e = none) :
    t.initproc = s.initproc ∧ t.nextpid = s.nextpid ∧ ∀ i, ¬ Takes (s, e) i := by
  cases e with
  | wakeup n =>
    cases ht
    exact ⟨rfl, rfl, by simp [Takes]⟩
  | scheduler c =>
    obtain ⟨h1, h2, -⟩ := Coherent.scheduler_around ht.of_scheduler.2
    exact ⟨h1, h2, by simp [Takes]⟩
  | timer c user =>
    have ht := ht.of_timer
    unfold Kernel.timer at ht
    simp only [Kernel.tick_cpu, show s.cpu c = none from ha] at ht
    split_ifs at ht
    cases ht
    simp [Takes]
  | run c a =>
    obtain ⟨p, hc, -⟩ := ht.of_run
    simp [actor, hc] at ha

theorem Step.initproc (h : Coherent s) (ht : Step v s e t) : t.initproc = s.initproc := by
  cases ha : actor s e with
  | none => exact (ht.idle ha).1
  | some p =>
    obtain ⟨c, -, hr⟩ := ht.around h ha
    exact hr.initproc

theorem Step.nextpid (h : Coherent s) (ht : Step v s e t) :
    t.nextpid = s.nextpid ∧ (∀ i, ¬ Takes (s, e) i) ∨
      t.nextpid = s.nextpid + 1 ∧ ∃ i, Takes (s, e) i := by
  cases ha : actor s e with
  | none => exact .inl (ht.idle ha).2
  | some p =>
    obtain ⟨c, -, hr⟩ := ht.around h ha
    exact hr.nextpid

/-- A running process that does not take the step goes on running. -/
theorem Change.running (h : Coherent s) {q : Proc} (hq : Change v s e i q)
    (hr : (s.proc i).state = .RUNNING) (ha : actor s e ≠ some i) : q.state = .RUNNING := by
  cases hq with
  | woken _ hw => rw [hw.eq_of_awake (by simp [hr]), hr]
  | killed _ _ => exact hr
  | killedAsleep _ hs => simp [hr] at hs
  | taken _ hs => simp [hr] at hs
  | dropped hd =>
    obtain ⟨c, p, -, ⟨-, hk⟩ | ⟨-, hk⟩⟩ := hd <;>
    · have := @h.child p i (by rw [hk]; rfl)
      simp [hr] at this
  | filled _ _ _ => exact hr
  | published hp =>
    obtain ⟨c, p, -, -, hk⟩ := hp
    have := @h.child p i (by rw [hk]; rfl)
    simp [hr] at this
  | reaped _ hs => simp [hr] at hs
  | dispatched _ _ => rfl
  | own _ ha' _ => exact absurd ha' ha

/-- What a step makes of the processors. -/
theorem Step.cpu (h : Coherent s) (ht : Step v s e t) {d : Fin ncpu} (hd : t.cpu d = some p) :
    (t.proc p).state = .RUNNING ∧
      (s.cpu d = some p ∨ s.cpu d = none ∧ e = .scheduler d ∧ Dispatches (s, e) p) := by
  cases ha : actor s e with
  | none =>
    have hch := ht.change h p
    cases e with
    | wakeup n =>
      cases ht
      exact ⟨hch.running h (h.running hd) (by simp [actor]), .inl hd⟩
    | scheduler c =>
      obtain ⟨hc, ht⟩ := ht.of_scheduler
      obtain ⟨-, -, rfl | ⟨q, hq, hr, hcpu⟩⟩ := Coherent.scheduler_around ht
      · exact ⟨h.running hd, .inl hd⟩
      · rw [hcpu] at hd
        by_cases hdc : d = c
        · subst hdc
          rw [Function.update_self] at hd
          cases hd
          exact ⟨hr, .inr ⟨hc, rfl, hq⟩⟩
        · rw [Function.update_of_ne hdc] at hd
          exact ⟨hch.running h (h.running hd) (by simp [actor]), .inl hd⟩
    | timer c user =>
      have hcpu : t.cpu = s.cpu := by
        have ht := ht.of_timer
        unfold Kernel.timer at ht
        simp only [Kernel.tick_cpu, show s.cpu c = none from ha] at ht
        split_ifs at ht
        cases ht
        simp
      rw [hcpu] at hd
      exact ⟨hch.running h (h.running hd) (by simp [ha]), .inl hd⟩
    | run c a =>
      obtain ⟨p, hc, -⟩ := ht.of_run
      simp [actor, hc] at ha
  | some a =>
    obtain ⟨c, hc, hr⟩ := ht.around h ha
    have hstay : ∀ {d}, d ≠ c → s.cpu d = some p → (t.proc p).state = .RUNNING := by
      intro d hdc hd
      refine (ht.change h p).running h (h.running hd) ?_
      rw [ha]
      rintro ⟨⟩
      exact hdc (h.single hd hc)
    rcases hr.cpu with ⟨hcpu, hst⟩ | hcpu
    · rw [hcpu] at hd
      refine ⟨?_, .inl hd⟩
      by_cases hdc : d = c
      · subst hdc
        rw [hc] at hd
        cases hd
        exact hst
      · exact hstay hdc hd
    · rw [hcpu] at hd
      by_cases hdc : d = c
      · subst hdc
        simp at hd
      · rw [Function.update_of_ne hdc] at hd
        exact ⟨hstay hdc hd, .inl hd⟩

/-- Where the child of a running `fork` comes from. -/
theorem Change.child (h : Coherent s) {q : Proc} (hq : Change v s e p q)
    (hnp : q.context.child = some np) :
    ((s.proc p).context.child = some np ∧
      (actor s e = some p → ∀ j, ¬ Drops (s, e) j ∧ ¬ Publishes (s, e) j) ∧
        (q.state = .RUNNING ∨ q.state = .RUNNABLE)) ∨
      Takes (s, e) np ∧ actor s e = some p ∧ (q.state = .RUNNING ∨ q.state = .RUNNABLE) := by
  have hbusy : (s.proc p).context.child = some np →
      (s.proc p).state = .RUNNING ∨ (s.proc p).state = .RUNNABLE := h.busy
  cases hq with
  | woken ha hw =>
    have hctx : (s.proc p).context.child = some np := by cases hw <;> exact hnp
    refine .inl ⟨hctx, fun h => absurd h ha, ?_⟩
    rw [hw.eq_of_awake (by rcases hbusy hctx with h | h <;> simp [h])]
    exact hbusy hctx
  | killed hk _ =>
    obtain ⟨c, pid, he, -⟩ := hk
    exact .inl ⟨hnp, fun _ => by simp [Drops, Publishes, show e = _ from he], hbusy hnp⟩
  | killedAsleep _ hs => rcases hbusy hnp with h | h <;> simp [hs] at h
  | taken _ hs => rcases hbusy hnp with h | h <;> simp [hs] at h
  | dropped hd =>
    obtain ⟨c, a, -, ⟨-, hk⟩ | ⟨-, hk⟩⟩ := hd <;>
    · have hem := @h.child a p (by rw [hk]; rfl)
      rcases hbusy hnp with h | h <;> simp [hem] at h
  | filled _ _ _ => cases hnp
  | published hd =>
    obtain ⟨c, a, -, -, hk⟩ := hd
    have hem := @h.child a p (by rw [hk]; rfl)
    rcases hbusy hnp with h | h <;> simp [hem] at h
  | reaped _ hs => rcases hbusy hnp with h | h <;> simp [hs] at h
  | dispatched hd _ =>
    obtain ⟨c, m, he, -⟩ := hd
    exact .inl ⟨hnp, fun _ => by simp [Drops, Publishes, show e = _ from he], .inl rfl⟩
  | own q ha ho =>
    have hb := ho.busy (by simp [hnp])
    rcases ho.child with hc | ⟨hc, hj⟩ | ⟨j, hj, hc⟩
    · simp [hnp] at hc
    · exact .inl ⟨hc ▸ hnp, fun _ => hj, hb⟩
    · rw [hnp] at hc
      cases hc
      exact .inr ⟨hj, ha, hb⟩

/-- A slot stays EMBRYO until `fork` drops or publishes it. -/
theorem Change.embryo (h : Coherent s) {q : Proc} (hq : Change v s e i q)
    (hs : (s.proc i).state = .EMBRYO) (hd : ¬ Drops (s, e) i) (hp : ¬ Publishes (s, e) i) :
    q.state = .EMBRYO := by
  cases hq with
  | woken _ hw => rw [hw.eq_of_awake (by simp [hs]), hs]
  | killed _ _ => exact hs
  | killedAsleep _ h => simp [hs] at h
  | taken _ _ => rfl
  | dropped h => exact absurd h hd
  | filled _ _ _ => exact hs
  | published h => exact absurd h hp
  | reaped _ h => simp [hs] at h
  | dispatched _ h => simp [hs] at h
  | own q ha _ =>
    cases e with
    | wakeup n => cases ha
    | scheduler c => cases ha
    | timer c user => simp [h.running (show s.cpu c = some i from ha)] at hs
    | run c a => simp [h.running (show s.cpu c = some i from ha)] at hs

/-- `fork` gives up or publishes its own child only. -/
theorem Coherent.forker_acts (h : Coherent s) (hnp : (s.proc p).context.child = some np)
    (hd : Drops (s, e) np ∨ Publishes (s, e) np) : actor s e = some p := by
  rcases hd with ⟨c, a, hc, ⟨he, hk⟩ | ⟨he, hk⟩⟩ | ⟨c, a, hc, he, hk⟩ <;>
  · obtain rfl := h.forker hnp (q := a) (by rw [hk]; rfl)
    simpa [actor, show e = _ from he] using hc

theorem Takes.state (h : Takes (s, e) i) : (s.proc i).state = .UNUSED := by
  obtain ⟨c, -, hf⟩ := h
  exact findUnused_some hf

theorem act_allocproc (ht : s.act v c p .allocproc = some t) :
    (s.proc p).context = .syscall ∧ t = s.allocproc p := by
  replace ht := acts ht
  cases ht with
  | allocproc hk ht => exact ⟨hk, ht⟩

/-- What `allocproc` leaves in the slot it takes. -/
theorem Takes.taken (h : Coherent s) (hk : Takes (s, e) i) (ht : Step v s e t) :
    t.proc i = (s.proc i).take s.nextpid := by
  obtain ⟨c, he, hf⟩ := hk
  obtain rfl : e = _ := he
  obtain ⟨p, hc, ht⟩ := ht.of_run
  obtain ⟨-, rfl⟩ := act_allocproc ht
  have hne : i ≠ p := by
    rintro rfl
    have := findUnused_some hf
    simp [h.running hc] at this
  have hf : s.proc.findUnused = some i := hf
  simp [Kernel.allocproc, hf, Kernel.goto, Kernel.set_of_ne _ _ hne]

theorem act_wait (ht : s.act v c p .wait = some t) : t = s.wait c p := by
  replace ht := acts ht
  cases ht with
  | wait ht => exact ht

/-- What `wait` leaves in the slot it frees. -/
theorem Reaps.reaped (h : Coherent s) (hr : Reaps (s, e) i) (ht : Step v s e t) :
    (s.proc i).state = .ZOMBIE ∧ t.proc i = (s.proc i).reap := by
  obtain ⟨c, p, hc, he, hz⟩ := hr
  obtain rfl : e = _ := he
  have hz : s.proc.findZombie p = some i := hz
  obtain ⟨q, hq, ht⟩ := ht.of_run
  obtain rfl : p = q := Option.some.inj (hc.symm.trans hq)
  obtain rfl := act_wait ht
  have hzombie := (findZombie_some hz).2
  have hne : i ≠ p := by
    rintro rfl
    simp [h.running hq] at hzombie
  exact ⟨hzombie, by simp [Kernel.wait, hz, Kernel.goto, Kernel.set_of_ne _ _ hne]⟩

theorem Takes.unique {j : Slot} (h : Takes (s, e) i) (h' : Takes (s, e) j) : i = j := by
  obtain ⟨c, -, hf⟩ := h
  obtain ⟨d, -, hf'⟩ := h'
  exact Option.some.inj (hf.symm.trans hf')

theorem Coherent.step (h : Coherent s) (ht : Step v s e t) : Coherent t where
  running hd := (ht.cpu h hd).1
  single := by
    intro c d p hc hd
    obtain ⟨-, hc | ⟨-, hc, c', m, -, hm⟩⟩ := ht.cpu h hc <;>
      obtain ⟨-, hd | ⟨-, hd, d', m', -, hm'⟩⟩ := ht.cpu h hd
    · exact h.single hc hd
    · have := (scan_first hm').1
      simp [h.running hc] at this
    · have := (scan_first hm).1
      simp [h.running hd] at this
    · rw [hc] at hd
      cases hd
      rfl
  child := by
    intro p np hnp
    rcases (ht.change h p).child h hnp with ⟨hs, hj, -⟩ | ⟨hk, -, -⟩
    · refine (ht.change h np).embryo h (h.child hs) ?_ ?_
      · intro hd
        exact (hj (h.forker_acts hs (.inl hd)) np).1 hd
      · intro hd
        exact (hj (h.forker_acts hs (.inr hd)) np).2 hd
    · rw [hk.taken h ht]
      rfl
  busy := by
    intro p np hnp
    rcases (ht.change h p).child h hnp with ⟨-, -, hb⟩ | ⟨-, -, hb⟩ <;> exact hb
  forker := by
    intro p q np hp hq
    rcases (ht.change h p).child h hp with ⟨hp, -, -⟩ | ⟨hp, ha, -⟩ <;>
      rcases (ht.change h q).child h hq with ⟨hq, -, -⟩ | ⟨hq, hb, -⟩
    · exact h.forker hp hq
    · have := hq.state
      simp [h.child hp] at this
    · have := hp.state
      simp [h.child hq] at this
    · rw [ha] at hb
      exact Option.some.inj hb

theorem boot_coherent : Coherent (Kernel.boot : Kernel ncpu) where
  running hc := by simp [Kernel.boot] at hc
  single hc := by simp [Kernel.boot] at hc
  child {p np} hc := by
    by_cases hp : p = 0 <;> simp [Kernel.boot, hp, Proc.zero, Proc.take, Context.child] at hc
  busy {p np} hc := by
    by_cases hp : p = 0 <;> simp [Kernel.boot, hp, Proc.zero, Proc.take, Context.child] at hc
  forker {p q np} hc := by
    by_cases hp : p = 0 <;> simp [Kernel.boot, hp, Proc.zero, Proc.take, Context.child] at hc

theorem History.coherent {l : List (Kernel ncpu × Event ncpu)} (h : History v l s) : Coherent s :=
  h.invariant boot_coherent fun hs ht => hs.step ht

end Xv6Lab.Sched

