import Xv6Lab.Sched.Pids

/-! Shortest job first on one processor: processes that only compute and exit become
ZOMBIEs in the order of burst time and pid. -/

namespace Xv6Lab.Sched

variable {ncpu : ℕ} {s t : Kernel ncpu} {e : Event ncpu} {c : Fin ncpu} {p : Slot}

/-- The running process goes to sleep, yields or sets its burst time. -/
def GivesUp (x : Kernel ncpu × Event ncpu) : Prop :=
  ∃ c, (∃ n, x.2 = .run c (.sleep n)) ∨ (∃ bt, x.2 = .run c (.set_burst_time bt)) ∨
    x.2 = .run c .wait ∧ ∃ p, x.1.cpu c = some p ∧ x.1.proc.findZombie p = none ∧
      x.1.proc.havekids p = true ∧ (x.1.proc p).killed = false

/-- The process with pid `d` becomes a ZOMBIE. -/
def BecomesZombie (x : Kernel ncpu × Event ncpu) (d : ℤ) : Prop :=
  ∃ c p, x.1.cpu c = some p ∧ x.2 = .run c .zombie ∧ (x.1.proc p).pid = d

theorem enterExit_stays {b : Bool} (ht : s.enterExit p b = some t) :
    t.cpu = s.cpu ∧ (t.proc p).burst_time = (s.proc p).burst_time := by
  unfold Kernel.enterExit at ht
  split at ht <;> cases ht
  simp [Kernel.goto]

theorem trapret_stays {b : Bool} (ht : s.trapret p b = some t) :
    t.cpu = s.cpu ∧ (t.proc p).burst_time = (s.proc p).burst_time := by
  unfold Kernel.trapret at ht
  split at ht
  · exact enterExit_stays ht
  · cases ht
    simp [Kernel.goto]

theorem wait_stays (h : Coherent s) (hc : s.cpu c = some p) (hg : ¬ GivesUp (s, .run c .wait)) :
    (s.wait c p).cpu = s.cpu ∧ ((s.wait c p).proc p).burst_time = (s.proc p).burst_time := by
  unfold Kernel.wait
  split
  · rename_i q hq
    have hne : p ≠ q := by
      rintro rfl
      have := (findZombie_some hq).2
      simp [h.running hc] at this
    simp [Kernel.goto, Kernel.set_of_ne _ _ hne]
  · rename_i hn
    split
    · simp [Kernel.goto]
    · rename_i hno
      refine absurd ⟨c, .inr (.inr ⟨rfl, p, hc, hn, ?_⟩)⟩ hg
      simpa using hno

theorem allocproc_stays (h : Coherent s) (hc : s.cpu c = some p) :
    (s.allocproc p).cpu = s.cpu ∧ ((s.allocproc p).proc p).burst_time = (s.proc p).burst_time := by
  unfold Kernel.allocproc
  split
  · simp [Kernel.goto]
  · rename_i np hnp
    have hne : p ≠ np := by
      rintro rfl
      have := findUnused_some hnp
      simp [h.running hc] at this
    simp [Kernel.goto, Kernel.set_of_ne _ _ hne]

theorem kill_stays (s : Kernel ncpu) (p : Slot) (pid : ℤ) :
    ((s.kill pid).goto p .ret).cpu = s.cpu ∧
      (((s.kill pid).goto p .ret).proc p).burst_time = (s.proc p).burst_time := by
  refine ⟨rfl, ?_⟩
  by_cases hf : s.proc.findPid pid = some p
  · simp [Kernel.goto, Kernel.kill, kill_apply hf]
  · simp [Kernel.goto, Kernel.kill, kill_apply_of_ne hf]

theorem toChild_stays (s : Kernel ncpu) {np : Slot} (hne : p ≠ np) (f : Proc → Proc) (k : Context) :
    ((s.set np f).goto p k).cpu = s.cpu ∧
      (((s.set np f).goto p k).proc p).burst_time = (s.proc p).burst_time := by
  simp [Kernel.goto, Kernel.set_of_ne _ _ hne]

theorem act_stays {a : Action} (h : Coherent s) (hc : s.cpu c = some p)
    (ht : s.act .g17 c p a = some t) (hg : ¬ GivesUp (s, .run c a)) (hz : a ≠ .zombie) :
    t.cpu = s.cpu ∧ (t.proc p).burst_time = (s.proc p).burst_time := by
  have hne : ∀ {np}, (s.proc p).context.child = some np → p ≠ np := fun hk => (h.child_ne hk).symm
  replace ht := acts ht
  cases ht with
  | syscall ht =>
    split at ht
    · exact enterExit_stays ht
    · cases ht
      simp [Kernel.goto]
  | fault ht => simpa using enterExit_stays ht
  | sleep n hk ht => exact absurd ⟨c, .inl ⟨_, rfl⟩⟩ hg
  | forkret ht =>
    subst ht
    simp [Kernel.goto]
  | ret b ht => exact trapret_stays ht
  | exit ht => exact enterExit_stays ht
  | zombie hk ht => exact absurd rfl hz
  | allocproc hk ht =>
    subst ht
    exact allocproc_stays h hc
  | kalloc ok np hk ht =>
    subst ht
    cases ok
    · exact toChild_stays s (hne (by rw [hk]; rfl)) _ _
    · simp [Kernel.goto]
  | copyuvm ok np hk ht =>
    subst ht
    cases ok
    · exact toChild_stays s (hne (by rw [hk]; rfl)) _ _
    · simp [Kernel.goto]
  | fill np hk ht =>
    subst ht
    exact toChild_stays s (hne (by rw [hk]; rfl)) _ _
  | publish np hk ht =>
    subst ht
    exact toChild_stays s (hne (by rw [hk]; rfl)) _ _
  | wait ht =>
    subst ht
    exact wait_stays h hc hg
  | kill pid ht =>
    subst ht
    exact kill_stays s p _
  | set_burst_time bt ht => exact absurd ⟨c, .inr (.inl ⟨_, rfl⟩)⟩ hg
  | resize sz ht =>
    subst ht
    simp [Kernel.goto]
  | inc_cpucounter hv ht => cases hv
  | dec_burstTime hv ht => cases hv

/-- A process on the processor stays there, with its burst time, until it gives it up or
becomes a ZOMBIE. -/
theorem Step.stays (h : Coherent s) (ht : Step .g17 s e t) (ha : actor s e = some p)
    (hg : ¬ GivesUp (s, e)) (hz : ¬ BecomesZombie (s, e) (s.proc p).pid) :
    t.cpu = s.cpu ∧ (t.proc p).burst_time = (s.proc p).burst_time := by
  cases e with
  | wakeup n => cases ha
  | scheduler c => cases ha
  | run c a =>
    obtain ⟨q, hc, ht⟩ := ht.of_run
    obtain rfl : p = q := Option.some.inj (ha.symm.trans hc)
    refine act_stays h hc ht hg ?_
    rintro rfl
    exact hz ⟨c, p, hc, rfl, rfl⟩
  | timer c user =>
    have hc : s.cpu c = some p := ha
    have hp : (s.tick c).proc p = s.proc p := tick_of_awake (by simp [h.running hc])
    have ht := ht.of_timer
    unfold Kernel.timer at ht
    simp only [Kernel.tick_cpu, hc, hp] at ht
    split at ht
    · cases ht
    split at ht
    · simpa [hp] using enterExit_stays ht
    · cases ht
      simp [hp]

/-- A RUNNABLE process stays as it is until it is dispatched. -/
theorem Change.runnable {v : Variant} {q : Proc} (hq : Change v s e p q) (h : Coherent s)
    (hs : (s.proc p).state = .RUNNABLE) :
    q.pid = (s.proc p).pid ∧ q.burst_time = (s.proc p).burst_time ∧
      (q.state = .RUNNABLE ∨ Dispatches (s, e) p) := by
  have hchild : ∀ {a : Slot}, (s.proc a).context.child ≠ some p := fun hk => by
    have := h.child hk
    simp [hs] at this
  cases hq with
  | woken _ hw =>
    cases hw with
    | idle _ _ => exact ⟨rfl, rfl, .inl hs⟩
    | woken _ _ _ => exact ⟨rfl, rfl, .inl rfl⟩
  | killed _ _ => exact ⟨rfl, rfl, .inl hs⟩
  | killedAsleep _ _ => exact ⟨rfl, rfl, .inl rfl⟩
  | taken _ h => simp [hs] at h
  | dropped hd =>
    obtain ⟨c, a, -, ⟨-, hk⟩ | ⟨-, hk⟩⟩ := hd <;> exact absurd (by rw [hk]; rfl) (hchild (a := a))
  | filled _ _ hf =>
    obtain ⟨c, a, -, -, hk⟩ := hf
    exact absurd (by rw [hk]; rfl) (hchild (a := a))
  | published _ => exact ⟨rfl, rfl, .inl rfl⟩
  | reaped _ h => simp [hs] at h
  | dispatched hd _ => exact ⟨rfl, rfl, .inr hd⟩
  | own q ha _ =>
    cases e with
    | wakeup n => cases ha
    | scheduler c => cases ha
    | timer c user => simp [h.running (show s.cpu c = some p from ha)] at hs
    | run c a => simp [h.running (show s.cpu c = some p from ha)] at hs

theorem Dispatches.unique {q : Slot} (h : Dispatches (s, e) p) (h' : Dispatches (s, e) q) :
    p = q := by
  obtain ⟨c, m, -, hm⟩ := h
  obtain ⟨d, m', -, hm'⟩ := h'
  rw [hm] at hm'
  cases hm'
  rfl

/-- What a step that dispatches `p` leaves on the processor. -/
theorem Dispatches.cpu {v : Variant} (hd : Dispatches (s, e) p) (ht : Step v s e t) :
    ∃ c, s.cpu c = none ∧ t.cpu = Function.update s.cpu c (some p) := by
  obtain ⟨c, m, he, hm⟩ := id hd
  obtain rfl : e = _ := he
  obtain ⟨hc, ht⟩ := ht.of_scheduler
  have hm : scan s.proc = _ := hm
  simp only [Kernel.scheduler, hm, Option.bind_eq_bind, Option.bind_some] at ht
  cases ht
  exact ⟨c, hc, rfl⟩

/-- Slot `i` comes before slot `j` in the order of the scheduler. -/
def Before (t : Table) (i j : Slot) : Prop :=
  (t i).burst_time < (t j).burst_time ∨
    (t i).burst_time = (t j).burst_time ∧ (t i).pid < (t j).pid

/-- The process with pid `d` has become a ZOMBIE. -/
def Gone (l : List (Kernel ncpu × Event ncpu)) (d : ℤ) : Prop := ∃ y ∈ l, BecomesZombie y d

theorem gone_snoc {l : List (Kernel ncpu × Event ncpu)} {x : Kernel ncpu × Event ncpu} {d : ℤ} :
    Gone (l ++ [x]) d ↔ Gone l d ∨ BecomesZombie x d := by
  simp [Gone, or_and_right, exists_or]

section OneProcessor

variable {s t u : Kernel 1} {e : Event 1} {l : List (Kernel 1 × Event 1)} {C : Set Slot}

/-- The process that slot `m` held in `s` still has its turn to come, or is having it. -/
structure Waits (s t : Kernel 1) (m : Slot) : Prop where
  pid : (t.proc m).pid = (s.proc m).pid
  burst_time : (t.proc m).burst_time = (s.proc m).burst_time
  state : (t.proc m).state = .RUNNABLE ∨ t.cpu 0 = some m

/-- The members of `C` take their turns in order. -/
structure InOrder (s : Kernel 1) (C : Set Slot) (l : List (Kernel 1 × Event 1)) (t : Kernel 1) :
    Prop where
  member : ∀ m ∈ C, Gone l (s.proc m).pid ∨ Waits s t m
  order : ∀ m ∈ C, Gone l (s.proc m).pid ∨ t.cpu 0 = some m →
    ∀ a ∈ C, Before s.proc a m → Gone l (s.proc a).pid
  dead : ∀ m ∈ C, Gone l (s.proc m).pid → ∀ p, (t.proc p).pid = (s.proc m).pid →
    (t.proc p).state = .ZOMBIE
  old : ∀ m ∈ C, 0 < (s.proc m).pid ∧ (s.proc m).pid < t.nextpid

/-- The process that has its turn keeps the processor. -/
theorem Waits.keeps {m : Slot} (h : Waits s t m) (hcpu : t.cpu 0 = some m) (hc : Coherent t)
    (hu : Step .g17 t e u) (hg : actor t e = some m → ¬ GivesUp (t, e))
    (hz : ¬ BecomesZombie (t, e) (s.proc m).pid) : u.cpu 0 = some m ∧ Waits s u m := by
  have hrun := hc.running hcpu
  have hpid : (u.proc m).pid = (t.proc m).pid := by
    rcases (hu.change hc m).pid with h | ⟨h, -⟩ | ⟨⟨c, p, -, -, hz⟩, -⟩
    · exact h
    · have := h.state
      simp [hrun] at this
    · have := (findZombie_some hz).2
      simp [hrun] at this
  have hkeep : u.cpu 0 = some m ∧ (u.proc m).burst_time = (t.proc m).burst_time := by
    have hact : ∀ c : Fin 1, t.cpu c = some m := fun c => by
      rw [Subsingleton.elim c 0]
      exact hcpu
    have hstay : actor t e = some m →
        u.cpu 0 = some m ∧ (u.proc m).burst_time = (t.proc m).burst_time := fun ha => by
      obtain ⟨h1, h2⟩ := hu.stays hc ha (hg ha) (h.pid ▸ hz)
      exact ⟨by rw [h1, hcpu], h2⟩
    cases e with
    | wakeup n =>
      cases hu
      have : t.proc.wakeup1 (.object n) m = t.proc m := wakeup1_of_awake (by simp [hrun])
      exact ⟨hcpu, by simp only [this]⟩
    | scheduler c =>
      have := hu.of_scheduler.1
      rw [hact c] at this
      cases this
    | timer c user => exact hstay (hact c)
    | run c a => exact hstay (hact c)
  exact ⟨hkeep.1, by rw [hpid, h.pid], by rw [hkeep.2, h.burst_time], .inr hkeep.1⟩

theorem Waits.step {m : Slot} (h : Waits s t m) (hc : Coherent t) (hu : Step .g17 t e u)
    (hg : actor t e = some m → ¬ GivesUp (t, e)) (hz : ¬ BecomesZombie (t, e) (s.proc m).pid) :
    Waits s u m := by
  rcases h.state with hr | hcpu
  · obtain ⟨h1, h2, h3⟩ := (hu.change hc m).runnable hc hr
    refine ⟨by rw [h1, h.pid], by rw [h2, h.burst_time], h3.imp id fun hd => ?_⟩
    obtain ⟨c, -, hcpu⟩ := hd.cpu hu
    obtain rfl : c = 0 := Subsingleton.elim _ _
    rw [hcpu, Function.update_self]
  · exact (h.keeps hcpu hc hu hg hz).2

/-- A ZOMBIE stays one until `wait` frees it. -/
theorem Change.zombie {n : ℕ} {v : Variant} {s : Kernel n} {e : Event n} {p : Slot} {q : Proc}
    (hq : Change v s e p q) (h : Coherent s) (hs : (s.proc p).state = .ZOMBIE) :
    q.state = .ZOMBIE ∨ q.pid = 0 := by
  have hchild : ∀ {a : Slot}, (s.proc a).context.child ≠ some p := fun hk => by
    have := h.child hk
    simp [hs] at this
  cases hq with
  | woken _ hw => exact .inl (by rw [hw.eq_of_awake (by simp [hs]), hs])
  | killed _ _ => exact .inl hs
  | killedAsleep _ h => simp [hs] at h
  | taken _ h => simp [hs] at h
  | dropped hd =>
    obtain ⟨c, a, -, ⟨-, hk⟩ | ⟨-, hk⟩⟩ := hd <;> exact absurd (by rw [hk]; rfl) (hchild (a := a))
  | filled _ _ _ => exact .inl hs
  | published hf =>
    obtain ⟨c, a, -, -, hk⟩ := hf
    exact absurd (by rw [hk]; rfl) (hchild (a := a))
  | reaped _ _ => exact .inr rfl
  | dispatched _ h => simp [hs] at h
  | own q ha _ =>
    cases e with
    | wakeup n => cases ha
    | scheduler c => cases ha
    | timer c user => simp [h.running (show s.cpu c = some p from ha)] at hs
    | run c a => simp [h.running (show s.cpu c = some p from ha)] at hs

theorem act_zombie {n : ℕ} {v : Variant} {s t : Kernel n} {c : Fin n} {p : Slot}
    (ht : s.act v c p .zombie = some t) : t = s.zombie c p := by
  replace ht := acts ht
  cases ht with
  | zombie _ ht => exact ht

/-- A member that becomes a ZOMBIE has had the processor. -/
theorem InOrder.turn (h : InOrder s C l t) (hp : PidsOk t) {m : Slot} (hm : m ∈ C)
    (hz : BecomesZombie (t, e) (s.proc m).pid) : Gone l (s.proc m).pid ∨ t.cpu 0 = some m := by
  obtain ⟨c, p, hcpu, -, hpid⟩ := hz
  refine (h.member m hm).imp_right fun hw => ?_
  have hpid : (t.proc p).pid = (s.proc m).pid := hpid
  obtain rfl : c = 0 := Subsingleton.elim _ _
  obtain rfl : p = m := hp.inj (hpid.trans hw.pid.symm) (by rw [hpid]; exact (h.old m hm).1.ne')
  exact hcpu

theorem InOrder.step (h : InOrder s C l t) (hc : Coherent t) (hp : PidsOk t)
    (hu : Step .g17 t e u)
    (hg : ∀ m ∈ C, ∀ p, actor t e = some p → (t.proc p).pid = (s.proc m).pid → ¬ GivesUp (t, e)) :
    InOrder s C (l ++ [(t, e)]) u where
  member := by
    intro m hm
    rw [gone_snoc]
    rcases h.member m hm with hgone | hw
    · exact .inl (.inl hgone)
    · by_cases hz : BecomesZombie (t, e) (s.proc m).pid
      · exact .inl (.inr hz)
      · exact .inr (hw.step hc hu (fun ha => hg m hm m ha hw.pid) hz)
  order := by
    intro m hm hgone a ha hb
    rw [gone_snoc] at hgone ⊢
    left
    rcases hgone with (hgone | hz) | hcpu
    · exact h.order m hm (.inl hgone) a ha hb
    · exact h.order m hm (h.turn hp hm hz) a ha hb
    · obtain ⟨-, hcpu | ⟨hidle, -, hd⟩⟩ := hu.cpu hc hcpu
      · exact h.order m hm (.inr hcpu) a ha hb
      · -- `m` has just been dispatched, so a member that waits does not come before it
        rcases h.member m hm with hgone | hw
        · exact h.order m hm (.inl hgone) a ha hb
        · rcases h.member a ha with hgone | hwa
          · exact hgone
          · obtain ⟨c, k, -, hk⟩ := hd
            have hrun := hwa.state.resolve_right (by rw [hidle]; simp)
            have hfirst := (scan_first hk).2 a hrun
            unfold NotAfter at hfirst
            unfold Before at hb
            rw [hw.pid, hw.burst_time, hwa.pid, hwa.burst_time] at hfirst
            omega
  dead := by
    intro m hm hgone p hpid
    obtain ⟨hpos, hlt⟩ := h.old m hm
    have hold : (t.proc p).pid = (s.proc m).pid := by
      rcases (hu.change hc p).pid with h | ⟨-, h⟩ | ⟨-, h, -⟩ <;> omega
    rcases gone_snoc.mp hgone with hgone | ⟨c, q, hcpu, he, hq⟩
    · rcases (hu.change hc p).zombie hc (h.dead m hm hgone p hold) with hz | h0
      · exact hz
      · omega
    · obtain rfl : p = q := hp.inj (hold.trans hq.symm) (by omega)
      obtain rfl : e = _ := he
      obtain ⟨r, hr, hu⟩ := hu.of_run
      obtain rfl : p = r := Option.some.inj (hcpu.symm.trans hr)
      rw [act_zombie hu]
      simp [Kernel.zombie]
  old := by
    intro m hm
    obtain ⟨hpos, hlt⟩ := h.old m hm
    rcases hu.nextpid hc with ⟨h, -⟩ | ⟨h, -⟩ <;> exact ⟨hpos, by omega⟩

/-- No member of `C` goes to sleep, yields or sets its burst time. -/
def OnlyComputes (s : Kernel 1) (C : Set Slot) (l : List (Kernel 1 × Event 1)) : Prop :=
  ∀ x ∈ l, ∀ m ∈ C, ∀ p, actor x.1 x.2 = some p → (x.1.proc p).pid = (s.proc m).pid → ¬ GivesUp x

theorem inOrder {l₀ : List (Kernel 1 × Event 1)} (h : History .g17 l₀ s)
    (hC : ∀ m ∈ C, (s.proc m).state = .RUNNABLE) (hr : Lib.Trace (Step .g17) s l t)
    (hcomp : OnlyComputes s C l) : Coherent t ∧ PidsOk t ∧ InOrder s C l t := by
  have hp := h.pids
  induction hr with
  | nil =>
    refine ⟨h.coherent, hp, fun m hm => .inr ⟨rfl, rfl, .inl (hC m hm)⟩, fun m hm hgone => ?_,
      fun m _ hgone => ?_, fun m hm => ⟨hp.pos (by simp [hC m hm]), hp.lt m⟩⟩
    · rcases hgone with ⟨y, hy, -⟩ | hcpu
      · simp at hy
      · have := h.coherent.running hcpu
        simp [hC m hm] at this
    · obtain ⟨y, hy, -⟩ := hgone
      simp at hy
  | snoc hl hs ih =>
    obtain ⟨hc, hp, ho⟩ := ih fun x hx => hcomp x (by simp [hx])
    exact ⟨hc.step hs, hp.step hc hs, ho.step hc hp hs (hcomp (_, _) (by simp))⟩

theorem OnlyComputes.of_append {k : List (Kernel 1 × Event 1)} (h : OnlyComputes s C (l ++ k)) :
    OnlyComputes s C l ∧ OnlyComputes s C k :=
  ⟨fun x hx => h x (by simp [hx]), fun x hx => h x (by simp [hx])⟩

/-- A member of `C` that has been dispatched keeps the processor until it is a ZOMBIE. -/
theorem held {l₁ l₃ : List (Kernel 1 × Event 1)} {m : Slot} (hm : m ∈ C) (hc : Coherent t)
    (hp : PidsOk t) (ho : InOrder s C l₁ t) (hcpu : t.cpu 0 = some m)
    (hno : ¬ Gone l₁ (s.proc m).pid) (hr : Lib.Trace (Step .g17) t l₃ u)
    (hcomp : OnlyComputes s C l₃) : Gone l₃ (s.proc m).pid ∨ u.cpu 0 = some m := by
  suffices Coherent u ∧ PidsOk u ∧ InOrder s C (l₁ ++ l₃) u ∧
      (Gone l₃ (s.proc m).pid ∨ u.cpu 0 = some m) from this.2.2.2
  induction hr with
  | nil => exact ⟨hc, hp, by simpa using ho, .inr hcpu⟩
  | @snoc l₃ w u e hl hs ih =>
    obtain ⟨hc, hp, ho, hk⟩ := ih hcomp.of_append.1
    have hg := hcomp (w, e) (by simp)
    refine ⟨hc.step hs, hp.step hc hs, by simpa using ho.step hc hp hs hg, ?_⟩
    rw [gone_snoc]
    rcases hk with hk | hk
    · exact .inl (.inl hk)
    · by_cases hgone : Gone l₃ (s.proc m).pid
      · exact .inl (.inl hgone)
      · by_cases hz : BecomesZombie (w, e) (s.proc m).pid
        · exact .inl (.inr hz)
        · have hw := (ho.member m hm).resolve_left (by
            rintro ⟨y, hy, hyz⟩
            rcases List.mem_append.mp hy with hy | hy
            · exact hno ⟨y, hy, hyz⟩
            · exact hgone ⟨y, hy, hyz⟩)
          exact .inr (hw.keeps hk hc hs (fun ha => hg m hm m ha hw.pid) hz).1

/-- Processes that only compute and exit do so in the order of burst time and pid, and from
the dispatch of one of them until it is a ZOMBIE no process is dispatched. While one of them
waits, the idle processor always finds a process to dispatch. -/
theorem shortest_job_first {l₀ : List (Kernel 1 × Event 1)} (h : History .g17 l₀ s)
    (hC : ∀ m ∈ C, (s.proc m).state = .RUNNABLE) (hr : Lib.Trace (Step .g17) s l t)
    (hcomp : OnlyComputes s C l) :
    (∀ a ∈ C, ∀ b ∈ C, Before s.proc a b → ∀ l₁ x l₂, l = l₁ ++ x :: l₂ →
        BecomesZombie x (s.proc b).pid → Gone l₁ (s.proc a).pid) ∧
      (∀ m ∈ C, ∀ l₁ x l₂, l = l₁ ++ x :: l₂ → Dispatches x m →
        (x.1.proc m).pid = (s.proc m).pid → ∀ l₃ y l₄, l₂ = l₃ ++ y :: l₄ →
          (∃ p, Dispatches y p) → Gone l₃ (s.proc m).pid) ∧
      (∀ m ∈ C, ¬ Gone l (s.proc m).pid → t.cpu 0 = none →
        (∀ i, (t.proc i).burst_time < INT_MAX) →
          ∃ p u, Dispatches (t, .scheduler 0) p ∧ Step .g17 t (.scheduler 0) u) := by
  refine ⟨?_, ?_, ?_⟩
  · rintro a ha b hb hbefore l₁ ⟨w, e⟩ l₂ rfl hz
    obtain ⟨w', h1, h2⟩ := hr.of_append
    obtain ⟨rfl, -⟩ := h2.of_cons
    obtain ⟨-, hp, ho⟩ := inOrder h hC h1 hcomp.of_append.1
    exact ho.order b hb (ho.turn hp hb hz) a ha hbefore
  · rintro m hm l₁ ⟨w, e⟩ l₂ rfl hd hpid l₃ ⟨y, e'⟩ l₄ rfl ⟨p, c', k, he, -⟩
    obtain ⟨w', h1, h2⟩ := hr.of_append
    obtain ⟨rfl, u, hs, h2⟩ := h2.of_cons
    obtain ⟨hc, hp, ho⟩ := inOrder h hC h1 hcomp.of_append.1
    have hcomp' : OnlyComputes s C ([(w, e)] ++ l₃) := by
      have := hcomp.of_append.2
      rw [← List.cons_append] at this
      exact this.of_append.1
    have hnz : ¬ BecomesZombie (w, e) (s.proc m).pid := by
      obtain ⟨c, k, he, -⟩ := hd
      simp [BecomesZombie, show e = _ from he]
    have hno : ¬ Gone (l₁ ++ [(w, e)]) (s.proc m).pid := by
      rw [gone_snoc]
      rintro (hgone | hz)
      · obtain ⟨c, k, -, hk⟩ := hd
        have := (scan_first hk).1
        simp [ho.dead m hm hgone m hpid] at this
      · exact hnz hz
    have hcpu : u.cpu 0 = some m := by
      obtain ⟨c, -, hcpu⟩ := hd.cpu hs
      obtain rfl : c = 0 := Subsingleton.elim _ _
      rw [hcpu, Function.update_self]
    obtain ⟨y', h3, h4⟩ := h2.of_append
    obtain ⟨rfl, v, hs', -⟩ := h4.of_cons
    rcases held hm (hc.step hs) (hp.step hc hs) (ho.step hc hp hs (hcomp'.of_append.1 (w, e) (by simp)))
      hcpu hno h3 hcomp'.of_append.2 with hgone | hcpu
    · exact hgone
    · obtain rfl : e' = _ := he
      obtain rfl : c' = 0 := Subsingleton.elim _ _
      simp [hs'.of_scheduler.1] at hcpu
  · intro m hm hno hidle hmax
    obtain ⟨hc, hp, ho⟩ := inOrder h hC hr hcomp
    have hw := (ho.member m hm).resolve_left hno
    have hrun := hw.state.resolve_right (by rw [hidle]; simp)
    obtain ⟨⟨r, k⟩, hscan⟩ := scan_total fun i _ => hmax i
    cases r with
    | none => exact absurd hrun (scan_none hscan m)
    | some p =>
      have hpass : ∃ u, t.scheduler .g17 0 = some u := by simp [Kernel.scheduler, hscan]
      obtain ⟨u, hu⟩ := hpass
      exact ⟨p, u, ⟨0, k, rfl, hscan⟩, by simp [Step, Kernel.step, hidle, hu]⟩

theorem shortest_job_first_two_children : ∃ (l₀ l : List (Kernel 1 × Event 1)) (s t : Kernel 1),
    History .g17 l₀ s ∧ Lib.Trace (Step .g17) s l t ∧
      l.map Prod.snd = [.scheduler 0, .run 0 .syscall, .run 0 .exit, .run 0 .zombie] ∧
      (∀ a ∈ ({1, 2} : Set Slot), ∀ b ∈ ({1, 2} : Set Slot), Before s.proc a b →
        ∀ l₁ x l₂, l = l₁ ++ x :: l₂ → BecomesZombie x (s.proc b).pid → Gone l₁ (s.proc a).pid) ∧
      (∀ m ∈ ({1, 2} : Set Slot), ∀ l₁ x l₂, l = l₁ ++ x :: l₂ → Dispatches x m →
        (x.1.proc m).pid = (s.proc m).pid → ∀ l₃ y l₄, l₂ = l₃ ++ y :: l₄ →
          (∃ p, Dispatches y p) → Gone l₃ (s.proc m).pid) ∧
      (∀ m ∈ ({1, 2} : Set Slot), ¬ Gone l (s.proc m).pid → t.cpu 0 = none →
        (∀ i, (t.proc i).burst_time < INT_MAX) →
          ∃ p u, Dispatches (t, .scheduler 0) p ∧ Step .g17 t (.scheduler 0) u) := by
  have hplay : (((Kernel.boot : Kernel 1).play .g17 [.scheduler 0, .run 0 .ret,
      .run 0 .syscall, .run 0 .allocproc, .run 0 (.kalloc true), .run 0 (.copyuvm true),
      .run 0 .fill, .run 0 .publish, .run 0 .ret,
      .run 0 .syscall, .run 0 .allocproc, .run 0 (.kalloc true), .run 0 (.copyuvm true),
      .run 0 .fill, .run 0 .publish, .run 0 .ret, .run 0 .syscall, .run 0 .wait]).bind fun s =>
        (s.play .g17 [.scheduler 0, .run 0 .syscall, .run 0 .exit, .run 0 .zombie]).map fun _ =>
          decide ((s.proc 1).state = .RUNNABLE ∧ (s.proc 2).state = .RUNNABLE)) = some true := by
    decide +kernel
  obtain ⟨s, hs, hplay⟩ := Option.bind_eq_some_iff.mp hplay
  obtain ⟨t, ht, hp⟩ := Option.map_eq_some_iff.mp hplay
  obtain ⟨h1, h2⟩ := of_decide_eq_true hp
  obtain ⟨l₀, -, h₀⟩ := Lib.Trace.of_foldlM hs
  obtain ⟨l, hl, hr⟩ := Lib.Trace.of_foldlM ht
  refine ⟨l₀, l, s, t, h₀, hr, hl, shortest_job_first h₀ ?_ hr ?_⟩
  · rintro m (rfl | rfl)
    · exact h1
    · exact h2
  · intro x hx m _ p _ _ hg
    have : x.2 ∈ l.map Prod.snd := List.mem_map_of_mem hx
    rw [hl] at this
    obtain ⟨c, ⟨n, he⟩ | ⟨bt, he⟩ | ⟨he, -⟩⟩ := hg <;> simp [he] at this

end OneProcessor

end Xv6Lab.Sched
