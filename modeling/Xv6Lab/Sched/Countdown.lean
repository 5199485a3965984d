import Xv6Lab.Sched.Shortest

/-! The burst time of the hybrid scheduler as a countdown. Each preemption at the end of a
quantum takes QUANTA off, and a burst time below zero becomes -1; the test comes before the
subtraction. -/

namespace Xv6Lab.Sched

variable {ncpu : ℕ} {v : Variant} {s t u : Kernel ncpu} {e : Event ncpu} {c : Fin ncpu} {p : Slot}
  {l : List (Kernel ncpu × Event ncpu)} {bt : Int32}

/-- The process in slot `p` calls `set_burst_time`. -/
def CallsSet (x : Kernel ncpu × Event ncpu) (p : Slot) : Prop :=
  ∃ c bt, x.2 = .run c (.set_burst_time bt) ∧ x.1.cpu c = some p

/-- The process in slot `p` calls `dec_burstTime`. -/
def CallsDec (x : Kernel ncpu × Event ncpu) (p : Slot) : Prop :=
  ∃ c, x.2 = .run c .dec_burstTime ∧ x.1.cpu c = some p

/-- A timer interrupt ends the quantum of the process in slot `p`. -/
def Preempts (x : Kernel ncpu × Event ncpu) (p : Slot) : Prop :=
  ∃ c user, x.2 = .timer c user ∧ x.1.cpu c = some p ∧ ¬ (user = true ∧ (x.1.proc p).killed = true) ∧
    (x.1.proc p).cpucounter + 1 = QUANTA

instance (x : Kernel ncpu × Event ncpu) (p : Slot) : Decidable (Preempts x p) :=
  inferInstanceAs (Decidable (∃ c user, x.2 = .timer c user ∧ x.1.cpu c = some p ∧
    ¬ (user = true ∧ (x.1.proc p).killed = true) ∧ (x.1.proc p).cpucounter + 1 = QUANTA))

/-- How often the process in slot `p` is preempted in the steps of `l`. -/
def preemptions (p : Slot) (l : List (Kernel ncpu × Event ncpu)) : ℕ := l.countP (Preempts · p)

/-- `dec_burstTime` on the burst time alone. -/
def dec (b : ℤ) : ℤ := if b < 0 then -1 else b - QUANTA

/-! ### One step -/

theorem wait_burst (h : Coherent s) (hc : s.cpu c = some p) :
    ((s.wait c p).proc p).burst_time = (s.proc p).burst_time := by
  unfold Kernel.wait
  split
  · rename_i q hq
    have hne : p ≠ q := by
      rintro rfl
      have := (findZombie_some hq).2
      simp [h.running hc] at this
    simp [Kernel.goto, Kernel.set_of_ne _ _ hne]
  · split
    · simp [Kernel.goto]
    · simp [Kernel.sleep, Kernel.goto]

theorem exit_burst (s : Kernel ncpu) (p i : Slot) :
    (s.proc.exit s.initproc p i).burst_time = (s.proc i).burst_time := by
  have hw := exit_woken s.proc s.initproc p i
  generalize s.proc.exit s.initproc p i = q at hw
  cases hw <;> rfl

/-- No other action of a process moves its own burst time. -/
theorem act_burst {a : Action} (h : Coherent s) (hc : s.cpu c = some p)
    (ht : s.act v c p a = some t) (hset : ∀ bt, a ≠ .set_burst_time bt) (hdec : a ≠ .dec_burstTime) :
    (t.proc p).burst_time = (s.proc p).burst_time := by
  have hne : ∀ {np}, (s.proc p).context.child = some np → p ≠ np := fun hk => (h.child_ne hk).symm
  replace ht := acts ht
  cases ht with
  | syscall ht =>
    split at ht
    · exact (enterExit_stays ht).2
    · cases ht
      simp [Kernel.goto]
  | fault ht => simpa using (enterExit_stays ht).2
  | sleep n hk ht =>
    subst ht
    simp [Kernel.sleep]
  | forkret ht =>
    subst ht
    simp [Kernel.goto]
  | ret b ht => exact (trapret_stays ht).2
  | exit ht => exact (enterExit_stays ht).2
  | zombie hk ht =>
    subst ht
    simpa [Kernel.zombie] using exit_burst s p p
  | allocproc hk ht =>
    subst ht
    exact (allocproc_stays h hc).2
  | kalloc ok np hk ht =>
    subst ht
    cases ok
    · exact (toChild_stays s (hne (by rw [hk]; rfl)) _ _).2
    · simp [Kernel.goto]
  | copyuvm ok np hk ht =>
    subst ht
    cases ok
    · exact (toChild_stays s (hne (by rw [hk]; rfl)) _ _).2
    · simp [Kernel.goto]
  | fill np hk ht =>
    subst ht
    exact (toChild_stays s (hne (by rw [hk]; rfl)) _ _).2
  | publish np hk ht =>
    subst ht
    exact (toChild_stays s (hne (by rw [hk]; rfl)) _ _).2
  | wait ht =>
    subst ht
    exact wait_burst h hc
  | kill pid ht =>
    subst ht
    exact (kill_stays s p _).2
  | set_burst_time bt ht => exact absurd rfl (hset bt)
  | resize sz ht =>
    subst ht
    simp [Kernel.goto]
  | inc_cpucounter hv ht =>
    subst ht
    simp [Kernel.goto, Kernel.incCpucounter]
  | dec_burstTime hv ht => exact absurd rfl hdec

/-- A timer interrupt takes QUANTA off when it preempts and only then. -/
theorem timer_burst {user : Bool} (h : Coherent s) (hc : s.cpu c = some p)
    (ht : s.timer .g17hybrid c user = some t) :
    (t.proc p).burst_time =
      if Preempts (s, .timer c user) p then dec (s.proc p).burst_time else (s.proc p).burst_time := by
  have hp : (s.tick c).proc p = s.proc p := tick_of_awake (by simp [h.running hc])
  have hiff : Preempts (s, .timer c user) p ↔
      ¬ (user = true ∧ (s.proc p).killed = true) ∧ (s.proc p).cpucounter + 1 = QUANTA := by
    constructor
    · rintro ⟨d, b, he, -, hk⟩
      cases he
      exact hk
    · exact fun hk => ⟨c, user, rfl, hc, hk⟩
  unfold Kernel.timer at ht
  simp only [Kernel.tick_cpu, hc, hp] at ht
  split at ht
  · cases ht
  split at ht
  · rename_i hk
    rw [if_neg fun hx => (hiff.1 hx).1 hk]
    simpa [hp] using (enterExit_stays ht).2
  · rename_i hk
    cases ht
    rw [Kernel.quantum_eq, hp]
    by_cases hq : (s.proc p).cpucounter + 1 = QUANTA
    · rw [if_pos hq, if_pos (hiff.2 ⟨hk, hq⟩)]
      simp [Kernel.decBurstTime, dec, hp]
    · rw [if_neg hq, if_neg fun hx => hq (hiff.1 hx).2]
      simp [Kernel.incCpucounter, hp]

/-- The burst time of a process moves when it is preempted and when it says so. -/
theorem Step.burst (h : Coherent s) (ht : Step .g17hybrid s e t) (hset : ¬ CallsSet (s, e) p)
    (hdec : ¬ CallsDec (s, e) p) (htake : ¬ Takes (s, e) p) :
    (t.proc p).burst_time =
      if Preempts (s, e) p then dec (s.proc p).burst_time else (s.proc p).burst_time := by
  by_cases ha : actor s e = some p
  · cases e with
    | wakeup n => cases ha
    | scheduler c => cases ha
    | timer c user => exact timer_burst h ha ht.of_timer
    | run c a =>
      obtain ⟨q, hc, ht⟩ := ht.of_run
      obtain rfl : p = q := Option.some.inj (ha.symm.trans hc)
      rw [if_neg (by rintro ⟨d, b, he, -⟩; cases he)]
      refine act_burst h hc ht ?_ ?_
      · rintro bt rfl
        exact hset ⟨c, bt, rfl, hc⟩
      · rintro rfl
        exact hdec ⟨c, rfl, hc⟩
  · have hno : ¬ Preempts (s, e) p := by
      rintro ⟨c, user, he, hc, -⟩
      obtain rfl : e = _ := he
      exact ha hc
    rw [if_neg hno]
    have hch := ht.change h p
    generalize t.proc p = q at hch
    cases hch with
    | woken _ hw => cases hw <;> rfl
    | taken hk _ => exact absurd hk htake
    | own _ ha' _ => exact absurd ha' ha
    | _ => rfl

/-! ### A run -/

theorem preemptions_snoc (p : Slot) (l : List (Kernel ncpu × Event ncpu))
    (x : Kernel ncpu × Event ncpu) :
    preemptions p (l ++ [x]) = preemptions p l + if Preempts x p then 1 else 0 := by
  simp [preemptions, List.countP_append, List.countP_singleton]

/-- The burst time of slot `p` is left to the timer. -/
def LeftAlone (p : Slot) (l : List (Kernel ncpu × Event ncpu)) : Prop :=
  ∀ x ∈ l, ¬ CallsSet x p ∧ ¬ CallsDec x p ∧ ¬ Takes x p

theorem LeftAlone.trace (h : Coherent s) (hr : Lib.Trace (Step .g17hybrid) s l t)
    (hl : LeftAlone p l) :
    Coherent t ∧ (t.proc p).burst_time = dec^[preemptions p l] (s.proc p).burst_time := by
  induction hr with
  | nil => exact ⟨h, rfl⟩
  | @snoc l t u e _ hs ih =>
    obtain ⟨hc, hb⟩ := ih fun x hx => hl x (List.mem_append_left _ hx)
    obtain ⟨h1, h2, h3⟩ := hl (t, e) (by simp)
    refine ⟨hc.step hs, ?_⟩
    rw [hs.burst hc h1 h2 h3, preemptions_snoc, hb]
    split_ifs
    · rw [Function.iterate_succ_apply']
    · rfl

/-- The countdown goes below zero once, to -2 from an even start, and then to -1. -/
theorem dec_iterate {b : ℤ} (hb : 0 ≤ b) (k : ℕ) :
    dec^[k] b = if QUANTA * k ≤ b + QUANTA then b - QUANTA * k else -1 := by
  induction k with
  | zero =>
    unfold QUANTA
    rw [if_pos (by omega)]
    simp
  | succ k ih =>
    rw [Function.iterate_succ_apply', ih]
    unfold dec QUANTA
    push_cast
    split_ifs <;> omega

theorem dec_iterate_eq_max_iff {b : ℤ} (hb : 0 ≤ b) (k : ℕ) :
    dec^[k] b = max (b - QUANTA * k) (-1) ↔ b + QUANTA ≠ QUANTA * k := by
  rw [dec_iterate hb]
  unfold QUANTA
  split_ifs <;> omega

theorem dec_iterate_le {b : ℤ} (hb : 0 ≤ b) {j k : ℕ} (hjk : j ≤ k)
    (h : b % 2 = 1 ∨ QUANTA * k ≤ b + QUANTA) : dec^[k] b ≤ dec^[j] b := by
  rw [dec_iterate hb, dec_iterate hb]
  unfold QUANTA at *
  split_ifs <;> omega

/-- Every count up to the last is reached just before one of the preemptions. -/
theorem exists_preemption {j : ℕ} (h : j < preemptions p l) :
    ∃ l₁ x l₂, l = l₁ ++ x :: l₂ ∧ preemptions p l₁ = j := by
  induction l using List.reverseRecOn with
  | nil => cases h
  | append_singleton l x ih =>
    by_cases hj : j < preemptions p l
    · obtain ⟨l₁, y, l₂, rfl, hy⟩ := ih hj
      exact ⟨l₁, y, l₂ ++ [x], by simp, hy⟩
    · rw [preemptions_snoc] at h
      refine ⟨l, x, [], rfl, ?_⟩
      split_ifs at h <;> omega

theorem CallsSet.burst (hc : s.cpu c = some p) (ht : Step .g17hybrid s (.run c (.set_burst_time bt)) t) :
    (t.proc p).burst_time = bt.toInt := by
  obtain ⟨q, hq, ht⟩ := ht.of_run
  obtain rfl : p = q := Option.some.inj (hc.symm.trans hq)
  unfold Kernel.act at ht
  cases hk : (s.proc p).context <;> simp [hk] at ht
  subst ht
  simp [Kernel.yield, Kernel.goto]

/-- After `set_burst_time(bt)` and `k` preemptions the burst time is the saturated countdown
unless `bt + QUANTA = QUANTA * k`, and it has only gone down if `bt` is odd or `k` no more
than that. -/
theorem burst_countdown_iff {l₁ l₂ : List (Kernel ncpu × Event ncpu)}
    (h : History .g17hybrid (l₁ ++ (u, .run c (.set_burst_time bt)) :: l₂) s)
    (hc : u.cpu c = some p) (hb : 0 ≤ bt.toInt) (hl : LeftAlone p l₂) :
    ((s.proc p).burst_time = max (bt.toInt - QUANTA * preemptions p l₂) (-1) ↔
      bt.toInt + QUANTA ≠ QUANTA * preemptions p l₂) ∧
    ((∀ x ∈ l₂, (s.proc p).burst_time ≤ (x.1.proc p).burst_time) ↔
      bt.toInt % 2 = 1 ∨ QUANTA * preemptions p l₂ ≤ bt.toInt + QUANTA) := by
  obtain ⟨u', h1, h2⟩ := h.of_append
  obtain ⟨rfl, w, hs, h2⟩ := h2.of_cons
  have hcoh : Coherent w := (History.coherent h1).step hs
  have hw : (w.proc p).burst_time = bt.toInt := CallsSet.burst hc hs
  have hend := (hl.trace hcoh h2).2
  rw [hw] at hend
  -- the burst time in the states on the way
  have hmid : ∀ {l₃ x l₄}, l₂ = l₃ ++ x :: l₄ →
      (x.1.proc p).burst_time = dec^[preemptions p l₃] bt.toInt := by
    rintro l₃ ⟨a, e⟩ l₄ rfl
    obtain ⟨a', h3, h4⟩ := h2.of_append
    obtain ⟨rfl, -⟩ := h4.of_cons
    have hl₃ : LeftAlone p l₃ := fun x hx => hl x (List.mem_append_left _ hx)
    rw [(hl₃.trace hcoh h3).2, hw]
  rw [hend]
  refine ⟨dec_iterate_eq_max_iff hb _, ?_, ?_⟩
  · intro hmono
    by_contra hno
    rw [not_or, not_le] at hno
    obtain ⟨hodd, hlt⟩ := hno
    -- the preemption that starts from -2
    have hj : (bt.toInt / 2 + 1).toNat < preemptions p l₂ := by
      unfold QUANTA at hlt
      omega
    obtain ⟨l₃, x, l₄, hsplit, hcount⟩ := exists_preemption hj
    have hle := hmono x (by rw [hsplit]; simp)
    rw [hmid hsplit, hcount, dec_iterate hb, dec_iterate hb] at hle
    unfold QUANTA at hle hlt
    split_ifs at hle <;> omega
  · intro hcond x hx
    obtain ⟨l₃, l₄, hsplit⟩ := List.append_of_mem hx
    rw [hmid hsplit]
    refine dec_iterate_le hb ?_ hcond
    rw [hsplit]
    simp [preemptions, List.countP_append]

/-- Init sets its burst time and computes for one quantum. -/
theorem exists_quantum {bt : Int32} (hbt : bt = 0 ∨ bt = 1) :
    ∃ (l₁ l₂ : List (Kernel 1 × Event 1)) (u s : Kernel 1),
      History .g17hybrid (l₁ ++ (u, .run 0 (.set_burst_time bt)) :: l₂) s ∧ u.cpu 0 = some 0 ∧
        LeftAlone 0 l₂ ∧ preemptions 0 l₂ = 1 ∧ (s.proc 0).burst_time = bt.toInt - 2 := by
  have hplay : (((Kernel.boot : Kernel 1).play .g17hybrid
      [.scheduler 0, .run 0 .ret, .run 0 .syscall]).bind fun u =>
        (u.step .g17hybrid (.run 0 (.set_burst_time bt))).bind fun w =>
          (w.play .g17hybrid [.scheduler 0, .run 0 .ret, .timer 0 true]).bind fun a =>
            (a.step .g17hybrid (.timer 0 true)).map fun s =>
              decide (u.cpu 0 = some 0 ∧ Preempts (a, .timer 0 true) 0 ∧
                (a.proc 0).burst_time = bt.toInt ∧
                  (s.proc 0).burst_time = bt.toInt - 2)) = some true := by
    rcases hbt with rfl | rfl <;> decide +kernel
  obtain ⟨u, hu, hplay⟩ := Option.bind_eq_some_iff.mp hplay
  obtain ⟨w, hw, hplay⟩ := Option.bind_eq_some_iff.mp hplay
  obtain ⟨a, ha, hplay⟩ := Option.bind_eq_some_iff.mp hplay
  obtain ⟨s, hs, hp⟩ := Option.map_eq_some_iff.mp hplay
  obtain ⟨hcpu, hpre, hbefore, hburst⟩ := of_decide_eq_true hp
  obtain ⟨l₁, -, hr₁⟩ := Lib.Trace.of_foldlM hu
  obtain ⟨l, hl, hr⟩ := Lib.Trace.of_foldlM ha
  have hr₁ : History .g17hybrid l₁ u := hr₁
  have hr₂ : Lib.Trace (Step .g17hybrid) w (l ++ [(a, .timer 0 true)]) s := .snoc hr hs
  have halone : LeftAlone 0 (l ++ [(a, Event.timer 0 true)]) := by
    intro x hx
    have hmem : x.2 ∈ [Event.scheduler 0, .run 0 .ret, .timer 0 true, .timer 0 true] := by
      have := List.mem_map_of_mem (f := Prod.snd) hx
      rwa [List.map_append, hl] at this
    simp only [CallsSet, CallsDec, Takes]
    simp only [List.mem_cons, List.not_mem_nil, or_false] at hmem
    rcases hmem with he | he | he | he <;> simp [he]
  refine ⟨l₁, l ++ [(a, .timer 0 true)], u, s, hr₁.append (.cons hw hr₂), hcpu, halone, ?_, hburst⟩
  -- the burst time before the last interrupt is still that of the call
  have hl₀ : LeftAlone 0 l := fun x hx => halone x (List.mem_append_left _ hx)
  have hb := (hl₀.trace ((History.coherent hr₁).step hw) hr).2
  have hbt0 : 0 ≤ bt.toInt := by rcases hbt with rfl | rfl <;> decide
  rw [CallsSet.burst hcpu hw, hbefore, dec_iterate hbt0] at hb
  rw [preemptions_snoc, if_pos hpre]
  unfold QUANTA at hb
  split_ifs at hb <;> omega

theorem burst_countdown_odd : ∃ (l₁ l₂ : List (Kernel 1 × Event 1)) (u s : Kernel 1),
    History .g17hybrid (l₁ ++ (u, .run 0 (.set_burst_time 1)) :: l₂) s ∧ preemptions 0 l₂ = 1 ∧
      ((s.proc 0).burst_time = max (Int32.toInt 1 - QUANTA * preemptions 0 l₂) (-1) ↔
        Int32.toInt 1 + QUANTA ≠ QUANTA * preemptions 0 l₂) ∧
      ((∀ x ∈ l₂, (s.proc 0).burst_time ≤ (x.1.proc 0).burst_time) ↔
        Int32.toInt 1 % 2 = 1 ∨ QUANTA * preemptions 0 l₂ ≤ Int32.toInt 1 + QUANTA) := by
  obtain ⟨l₁, l₂, u, s, h, hc, hl, hk, -⟩ := exists_quantum (.inr rfl)
  exact ⟨l₁, l₂, u, s, h, hk, burst_countdown_iff h hc (by decide) hl⟩

/-- A burst time of zero falls to -2. -/
theorem burst_countdown_undershoots : ∃ (l₁ l₂ : List (Kernel 1 × Event 1)) (u s : Kernel 1),
    History .g17hybrid (l₁ ++ (u, .run 0 (.set_burst_time 0)) :: l₂) s ∧ u.cpu 0 = some 0 ∧
      LeftAlone 0 l₂ ∧
        ¬ (s.proc 0).burst_time = max (Int32.toInt 0 - QUANTA * preemptions 0 l₂) (-1) := by
  obtain ⟨l₁, l₂, u, s, h, hc, hl, hk, hb⟩ := exists_quantum (.inl rfl)
  refine ⟨l₁, l₂, u, s, h, hc, hl, ?_⟩
  rw [hb, hk]
  decide

end Xv6Lab.Sched
