import Mathlib.Data.Fintype.Basic
import Xv6Lab.Sched.Coherent

/-! The quantum of the hybrid scheduler. A running process is preempted when its counter
comes to QUANTA exactly, and a system call lets the process count it up itself. -/

namespace Xv6Lab.Sched

variable {ncpu : ℕ} {s t : Kernel ncpu} {e : Event ncpu} {p : Slot}
  {l : List (Kernel ncpu × Event ncpu)} {x : Kernel ncpu × Event ncpu}

instance : Decidable (TakesTimer x p) :=
  inferInstanceAs (Decidable (∃ c user, x.2 = .timer c user ∧ x.1.cpu c = some p))

/-- How many timer interrupts the process in slot `p` takes in the steps of `l`. -/
def timers (p : Slot) (l : List (Kernel ncpu × Event ncpu)) : ℕ := l.countP (TakesTimer · p)

/-- The process in slot `p` is RUNNING in every state from the first step of `l` to `s`. -/
def StaysRunning (p : Slot) (l : List (Kernel ncpu × Event ncpu)) (s : Kernel ncpu) : Prop :=
  (∀ x ∈ l, (x.1.proc p).state = .RUNNING) ∧ (s.proc p).state = .RUNNING

/-- A process that has stayed RUNNING since its dispatch has taken fewer than QUANTA timer
interrupts, or with the last of them it has started to exit and takes no more. -/
def KeepsQuantum (p : Slot) (l : List (Kernel ncpu × Event ncpu)) (s : Kernel ncpu) : Prop :=
  (timers p l : ℤ) < QUANTA ∨
    (timers p l : ℤ) = QUANTA ∧ (s.proc p).context = .exit false

/-- A timer interrupt counts, unless the process has been killed, or it preempts. -/
theorem TakesTimer.counter (hc : Coherent s) (hx : TakesTimer (s, e) p)
    (ht : Step .g17hybrid s e t) (hs : (t.proc p).state = .RUNNING) :
    (s.proc p).context ≠ .exit false ∧
      ((t.proc p).cpucounter = (s.proc p).cpucounter + 1 ∧ (s.proc p).cpucounter + 1 ≠ QUANTA ∧
          (t.proc p).context = (s.proc p).context ∨
        (t.proc p).cpucounter = (s.proc p).cpucounter ∧ (t.proc p).context = .exit false) := by
  obtain ⟨c, user, he, hcpu⟩ := hx
  obtain rfl : e = _ := he
  have hcpu : s.cpu c = some p := hcpu
  have hp : (s.tick c).proc p = s.proc p := tick_of_awake (by simp [hc.running hcpu])
  have ht := ht.of_timer
  unfold Kernel.timer at ht
  simp only [Kernel.tick_cpu, hcpu, hp] at ht
  split at ht
  · cases ht
  rename_i hint
  refine ⟨fun h => hint (.inl (by simp [h, Context.interruptible])), ?_⟩
  split at ht
  · unfold Kernel.enterExit at ht
    split at ht <;> cases ht
    simp [Kernel.goto, hp]
  · cases ht
    rw [Kernel.quantum_eq, hp] at hs ⊢
    split
    · rename_i hq
      simp [hq] at hs
    · rename_i hq
      exact .inl ⟨by simp [Kernel.incCpucounter, hp], hq, by simp [Kernel.incCpucounter, hp]⟩

theorem CallsInc.counter (hx : CallsInc (s, e) p) (ht : Step .g17hybrid s e t) :
    (t.proc p).cpucounter = (s.proc p).cpucounter + 1 ∧ (t.proc p).context = .ret := by
  obtain ⟨c, he, hcpu⟩ := hx
  obtain rfl : e = _ := he
  obtain ⟨q, hq, ht⟩ := ht.of_run
  obtain rfl : p = q := Option.some.inj (hcpu.symm.trans hq)
  unfold Kernel.act at ht
  cases hk : (s.proc p).context <;> simp [hk] at ht
  subst ht
  simp [Kernel.goto, Kernel.incCpucounter]

/-- Nothing else moves the counter of a running process. -/
theorem Change.counter {v : Variant} {q : Proc} (hq : Change v s e p q)
    (hs : (s.proc p).state = .RUNNING) (ht : ¬ TakesTimer (s, e) p) (hi : ¬ CallsInc (s, e) p) :
    q.cpucounter = (s.proc p).cpucounter := by
  cases hq with
  | woken _ hw => cases hw <;> rfl
  | dispatched _ h => simp [hs] at h
  | own q _ ho => exact ho.counter.resolve_right (by simp [ht, hi])
  | _ => rfl

/-- A process that exits with interrupts off goes on doing so. -/
theorem Step.exitOff (hc : Coherent s) (ht : Step .g17hybrid s e t)
    (hs : (s.proc p).state = .RUNNING) (hs' : (t.proc p).state = .RUNNING)
    (hk : (s.proc p).context = .exit false) :
    (t.proc p).context = .exit false ∧ ¬ TakesTimer (s, e) p := by
  have hno : ¬ TakesTimer (s, e) p := fun hx => (hx.counter hc ht hs').1 hk
  refine ⟨?_, hno⟩
  have hch := ht.change hc p
  generalize hq : t.proc p = q at hch hs'
  cases hch with
  | woken _ hw => cases hw <;> exact hk
  | killed _ _ => exact hk
  | killedAsleep _ h => simp [hs] at h
  | taken _ h => simp [hs] at h
  | dropped _ => cases hs'
  | filled _ _ hf =>
    obtain ⟨c, a, -, -, hka⟩ := hf
    have := @hc.child a p (by rw [hka]; rfl)
    simp [hs] at this
  | published _ => cases hs'
  | reaped _ h => simp [hs] at h
  | dispatched _ h => simp [hs] at h
  | own q ha _ =>
    cases e with
    | wakeup n => cases ha
    | scheduler c => cases ha
    | timer c user => exact absurd ⟨c, user, rfl, ha⟩ hno
    | run c a =>
      obtain ⟨r, hr, ht⟩ := ht.of_run
      obtain rfl : p = r := Option.some.inj (ha.symm.trans hr)
      unfold Kernel.act at ht
      rw [hk] at ht
      cases a <;> simp at ht
      · subst ht
        simp [Kernel.sleep] at hq
        simp [← hq] at hs'
      · subst ht
        simp [Kernel.zombie] at hq
        simp [← hq] at hs'

/-- The counter of a process that has stayed RUNNING since its dispatch, `n` timer
interrupts ago. -/
def Counted (p : Slot) (n : ℕ) (s : Kernel ncpu) : Prop :=
  ((n : ℤ) ≤ (s.proc p).cpucounter ∧ (s.proc p).cpucounter < QUANTA) ∨
    ((n : ℤ) ≤ QUANTA ∧ (s.proc p).context = .exit false)

theorem timers_snoc (p : Slot) (l : List (Kernel ncpu × Event ncpu)) (x : Kernel ncpu × Event ncpu) :
    timers p (l ++ [x]) = timers p l + if TakesTimer x p then 1 else 0 := by
  simp [timers, List.countP_append, List.countP_singleton]

theorem Counted.step {n : ℕ} (h : Counted p n s) (hc : Coherent s) (ht : Step .g17hybrid s e t)
    (hs : (s.proc p).state = .RUNNING) (hs' : (t.proc p).state = .RUNNING)
    (hskip : CallsInc (s, e) p → (s.proc p).cpucounter + 1 ≠ QUANTA) :
    Counted p (n + if TakesTimer (s, e) p then 1 else 0) t := by
  by_cases hk : (s.proc p).context = .exit false
  · obtain ⟨hk', hno⟩ := ht.exitOff hc hs hs' hk
    refine .inr ⟨?_, hk'⟩
    rw [if_neg hno]
    rcases h with h | h
    · simpa using (h.1.trans h.2.le)
    · simpa using h.1
  · obtain ⟨h1, h2⟩ := h.resolve_right fun h => hk h.2
    by_cases hx : TakesTimer (s, e) p
    · rw [if_pos hx]
      rcases (hx.counter hc ht hs').2 with ⟨hcnt, hne, -⟩ | ⟨-, hk'⟩
      · refine .inl ?_
        rw [hcnt]
        push_cast
        omega
      · refine .inr ⟨?_, hk'⟩
        push_cast
        omega
    · rw [if_neg hx, Nat.add_zero]
      by_cases hi : CallsInc (s, e) p
      · have := hskip hi
        refine .inl ?_
        rw [(hi.counter ht).1]
        omega
      · refine .inl ?_
        rw [(ht.change hc p).counter hs hx hi]
        exact ⟨h1, h2⟩

theorem Dispatches.counter (hd : Dispatches (s, e) p) (ht : Step .g17hybrid s e t) :
    (t.proc p).cpucounter = 0 := by
  obtain ⟨c, m, he, hm⟩ := hd
  obtain rfl : e = _ := he
  have hm : scan s.proc = _ := hm
  have ht := ht.of_scheduler.2
  simp only [Kernel.scheduler, hm, Option.bind_eq_bind, Option.bind_some] at ht
  cases ht
  simp

theorem Counted.trace (h : Counted p 0 s) (hc : Coherent s)
    (hr : Lib.Trace (Step .g17hybrid) s l t) (hstay : StaysRunning p l t)
    (hskip : ∀ x ∈ l, CallsInc x p → (x.1.proc p).cpucounter + 1 ≠ QUANTA) :
    Coherent t ∧ Counted p (timers p l) t := by
  induction hr with
  | nil => exact ⟨hc, h⟩
  | @snoc l t u e _ hs ih =>
    have ht : (t.proc p).state = .RUNNING := hstay.1 (t, e) (by simp)
    obtain ⟨hc, h⟩ := ih ⟨fun x hx => hstay.1 x (by simp [hx]), ht⟩ fun x hx => hskip x (by simp [hx])
    refine ⟨hc.step hs, ?_⟩
    rw [timers_snoc]
    exact h.step hc hs ht hstay.2 (hskip (t, e) (by simp))

/-- If no process calls `inc_cpucounter` with its counter one short of QUANTA, every process
gives up its processor on its QUANTA-th timer interrupt at the latest. -/
theorem quantum_kept (h : History .g17hybrid l s)
    (hskip : ∀ x ∈ l, ∀ p, CallsInc x p → (x.1.proc p).cpucounter + 1 ≠ QUANTA) :
    ∀ l₁ x l₂ p, l = l₁ ++ x :: l₂ → Dispatches x p → StaysRunning p l₂ s →
      KeepsQuantum p l₂ s := by
  rintro l₁ ⟨u, e⟩ l₂ p rfl hd hstay
  obtain ⟨u', h1, h2⟩ := h.of_append
  obtain ⟨rfl, w, hs, h2⟩ := h2.of_cons
  have hw : Counted p 0 w := .inl (by rw [hd.counter hs]; decide)
  obtain ⟨-, hcnt | hcnt⟩ := hw.trace ((History.coherent h1).step hs) h2 hstay
    fun x hx => hskip x (by simp [hx]) p
  · exact .inl (hcnt.1.trans_lt hcnt.2)
  · exact (lt_or_eq_of_le hcnt.1).imp_right fun hn => ⟨hn, hcnt.2⟩

/-- A run without a pass of the scheduler of its processor leaves a process RUNNING if it
is on the processor in the end. -/
theorem staysRunning_of_cpu {v : Variant} {c : Fin ncpu} (hr : Lib.Trace (Step v) s l t)
    (hc : Coherent s) (ht : t.cpu c = some p) (hl : ∀ x ∈ l, x.2 ≠ .scheduler c) :
    Coherent t ∧ StaysRunning p l t := by
  have hcoh : ∀ {k t}, Lib.Trace (Step v) s k t → Coherent t := fun h =>
    h.invariant hc fun hs ht => hs.step ht
  refine ⟨hcoh hr, ?_, (hcoh hr).running ht⟩
  induction hr with
  | nil => simp
  | @snoc l t u e hk hs ih =>
    obtain ⟨-, hcpu | ⟨-, he, -⟩⟩ := hs.cpu (hcoh hk) ht
    · intro x hx
      rcases List.mem_append.mp hx with hx | hx
      · exact ih hcpu (fun x hx => hl x (by simp [hx])) x hx
      · rw [List.mem_singleton.mp hx]
        exact (hcoh hk).running hcpu
    · exact absurd he (hl (t, e) (by simp))

/-- A counter that has skipped QUANTA never preempts: any number of timer interrupts leaves
the process where it is. -/
theorem quantum_lost {c : Fin ncpu} (hcpu : s.cpu c = some p) (hc : Coherent s)
    (hkilled : (s.proc p).killed = false) (hk : (s.proc p).context = .user)
    (hcnt : QUANTA ≤ (s.proc p).cpucounter) (n : ℕ) :
    ∃ l t, Lib.Trace (Step .g17hybrid) s l t ∧ (∀ x ∈ l, x.2 ≠ .scheduler c) ∧
      t.cpu c = some p ∧ timers p l = n ∧ Coherent t ∧ (t.proc p).killed = false ∧
      (t.proc p).context = .user ∧ QUANTA ≤ (t.proc p).cpucounter := by
  induction n with
  | zero => exact ⟨[], s, .nil, by simp, hcpu, rfl, hc, hkilled, hk, hcnt⟩
  | succ n ih =>
    obtain ⟨l, t, hr, hl, hcpu, hn, hc, hkilled, hk, hcnt⟩ := ih
    have hp : (t.tick c).proc p = t.proc p := tick_of_awake (by simp [hc.running hcpu])
    have hs : Step .g17hybrid t (.timer c true) ((t.tick c).set p Kernel.incCpucounter) := by
      have hne : (t.proc p).cpucounter + 1 ≠ QUANTA := by omega
      simp [Step, Kernel.step, Kernel.timer, hcpu, hp, hk, hkilled, Kernel.quantum_eq, hne,
        Context.interruptible]
    have hx : TakesTimer (t, .timer c true) p := ⟨c, true, rfl, hcpu⟩
    refine ⟨l ++ [(t, .timer c true)], _, hr.snoc hs, ?_, by simpa using hcpu, ?_, hc.step hs, ?_⟩
    · intro x hx
      rcases List.mem_append.mp hx with hx | hx
      · exact hl x hx
      · rw [List.mem_singleton.mp hx]
        simp
    · rw [timers_snoc, hn, if_pos hx]
    · simp only [Kernel.set_self, hp, Kernel.incCpucounter]
      exact ⟨hkilled, hk, by omega⟩

/-- Init runs and calls `inc_cpucounter` twice. -/
theorem exists_skipped : ∃ (s t : Kernel 1) (l : List (Kernel 1 × Event 1)),
    Step .g17hybrid Kernel.boot (.scheduler 0) s ∧
      Dispatches ((Kernel.boot : Kernel 1), .scheduler 0) 0 ∧
      Lib.Trace (Step .g17hybrid) s l t ∧ (∀ x ∈ l, x.2 ≠ .scheduler 0) ∧ t.cpu 0 = some 0 ∧
      (t.proc 0).killed = false ∧ (t.proc 0).context = .user ∧ QUANTA ≤ (t.proc 0).cpucounter := by
  have hplay : ((Kernel.step .g17hybrid (Kernel.boot : Kernel 1) (.scheduler 0)).bind fun s =>
      (s.play .g17hybrid [.run 0 .ret, .run 0 .syscall, .run 0 .inc_cpucounter, .run 0 .ret,
        .run 0 .syscall, .run 0 .inc_cpucounter, .run 0 .ret]).map fun t =>
          decide ((scan (Kernel.boot : Kernel 1).proc) = some (some 0, 0) ∧ t.cpu 0 = some 0 ∧
            (t.proc 0).killed = false ∧ (t.proc 0).context = .user ∧
              QUANTA ≤ (t.proc 0).cpucounter)) = some true := by
    decide +kernel
  obtain ⟨s, hs, hplay⟩ := Option.bind_eq_some_iff.mp hplay
  obtain ⟨t, ht, hp⟩ := Option.map_eq_some_iff.mp hplay
  obtain ⟨hscan, hcpu, hkilled, hk, hcnt⟩ := of_decide_eq_true hp
  obtain ⟨l, hl, hr⟩ := Lib.Trace.of_foldlM ht
  refine ⟨s, t, l, hs, ⟨0, 0, rfl, hscan⟩, hr, fun x hx => ?_, hcpu, hkilled, hk, hcnt⟩
  have : x.2 ∈ l.map Prod.snd := List.mem_map_of_mem hx
  rw [hl] at this
  rintro he
  simp [he] at this

/-- A process that has called `inc_cpucounter` twice takes three timer interrupts and runs on. -/
theorem quantum_not_kept : ¬ ∀ (l : List (Kernel 1 × Event 1)) (s : Kernel 1),
    History .g17hybrid l s → ∀ l₁ x l₂ p, l = l₁ ++ x :: l₂ → Dispatches x p →
      StaysRunning p l₂ s → KeepsQuantum p l₂ s := by
  intro hall
  obtain ⟨s, t, l, hs, hd, hr, hl, hcpu, hkilled, hk, hcnt⟩ := exists_skipped
  have hc : Coherent t := (hr.invariant (boot_coherent.step hs) fun hs ht => hs.step ht)
  obtain ⟨k, u, hr', hl', hcpu', hn, -⟩ := quantum_lost hcpu hc hkilled hk hcnt 3
  have hlk : ∀ x ∈ l ++ k, x.2 ≠ .scheduler 0 := fun x hx =>
    (List.mem_append.mp hx).elim (hl x) (hl' x)
  obtain ⟨-, hstay⟩ := staysRunning_of_cpu (hr.append hr') (boot_coherent.step hs) hcpu' hlk
  have hkeep := hall _ u (.cons hs (hr.append hr')) [] _ (l ++ k) 0 rfl hd hstay
  have h3 : 3 ≤ timers 0 (l ++ k) := by
    simp only [timers, List.countP_append] at hn ⊢
    omega
  unfold KeepsQuantum QUANTA at hkeep
  omega

theorem quantum_kept_boot : ∃ (s : Kernel 1) (l : List (Kernel 1 × Event 1)),
    History .g17hybrid l s ∧ l.map Prod.snd = [.scheduler 0, .run 0 .ret, .timer 0 true] ∧
      ∀ l₁ x l₂ p, l = l₁ ++ x :: l₂ → Dispatches x p → StaysRunning p l₂ s →
        KeepsQuantum p l₂ s := by
  have hplay : ((Kernel.boot : Kernel 1).play .g17hybrid
      [.scheduler 0, .run 0 .ret, .timer 0 true]).isSome = true := by
    decide +kernel
  obtain ⟨s, hs⟩ := Option.isSome_iff_exists.mp hplay
  obtain ⟨l, hl, hr⟩ := Lib.Trace.of_foldlM hs
  refine ⟨s, l, hr, hl, quantum_kept hr ?_⟩
  rintro x hx p ⟨c, he, -⟩
  have : x.2 ∈ l.map Prod.snd := List.mem_map_of_mem hx
  simp [hl, he] at this

end Xv6Lab.Sched
