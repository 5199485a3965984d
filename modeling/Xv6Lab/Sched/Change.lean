import Xv6Lab.Sched.Select
import Xv6Lab.Sched.TableSpec

/-! What one step does to one slot of the table. Every invariant of the two kernels is
derived from this. -/

namespace Xv6Lab.Sched

variable {ncpu : ℕ} {v : Variant} {s t : Kernel ncpu} {e : Event ncpu} {c : Fin ncpu}
  {i p q np : Slot}

/-- The process that takes the step. -/
def actor (s : Kernel ncpu) : Event ncpu → Option Slot
  | .timer c _ | .run c _ => s.cpu c
  | _ => none

/-- `allocproc` takes slot `i`. -/
def Takes (x : Kernel ncpu × Event ncpu) (i : Slot) : Prop :=
  ∃ c, x.2 = .run c .allocproc ∧ x.1.proc.findUnused = some i

/-- `fork` or `allocproc` runs out of memory and gives slot `i` up. -/
def Drops (x : Kernel ncpu × Event ncpu) (i : Slot) : Prop :=
  ∃ c p, x.1.cpu c = some p ∧
    ((x.2 = .run c (.kalloc false) ∧ (x.1.proc p).context = .kalloc i) ∨
      (x.2 = .run c (.copyuvm false) ∧ (x.1.proc p).context = .copyuvm i))

def Fills (x : Kernel ncpu × Event ncpu) (i : Slot) : Prop :=
  ∃ c p, x.1.cpu c = some p ∧ x.2 = .run c .fill ∧ (x.1.proc p).context = .fill i

/-- `fork` makes its child, in slot `i`, RUNNABLE. -/
def Publishes (x : Kernel ncpu × Event ncpu) (i : Slot) : Prop :=
  ∃ c p, x.1.cpu c = some p ∧ x.2 = .run c .publish ∧ (x.1.proc p).context = .publish i

/-- `wait` frees slot `i`. -/
def Reaps (x : Kernel ncpu × Event ncpu) (i : Slot) : Prop :=
  ∃ c p, x.1.cpu c = some p ∧ x.2 = .run c .wait ∧ x.1.proc.findZombie p = some i

/-- `kill` hits slot `i`. -/
def Kills (x : Kernel ncpu × Event ncpu) (i : Slot) : Prop :=
  ∃ c pid, x.2 = .run c (.kill pid) ∧ x.1.proc.findPid pid = some i

/-- A pass of `scheduler` picks slot `i`. -/
def Dispatches (x : Kernel ncpu × Event ncpu) (i : Slot) : Prop :=
  ∃ c m, x.2 = .scheduler c ∧ scan x.1.proc = some (some i, m)

/-- The process in slot `i` takes a timer interrupt. -/
def TakesTimer (x : Kernel ncpu × Event ncpu) (i : Slot) : Prop :=
  ∃ c user, x.2 = .timer c user ∧ x.1.cpu c = some i

/-- The process in slot `i` makes the system call `inc_cpucounter`. -/
def CallsInc (x : Kernel ncpu × Event ncpu) (i : Slot) : Prop :=
  ∃ c, x.2 = .run c .inc_cpucounter ∧ x.1.cpu c = some i

/-- What a process can do to its own slot, `p` before and `q` after. -/
structure Own (s : Kernel ncpu) (e : Event ncpu) (i : Slot) (p q : Proc) : Prop where
  pid : q.pid = p.pid
  switches : q.count_contextswitch = p.count_contextswitch
  state : q.state ≠ .UNUSED ∧ q.state ≠ .EMBRYO
  parent : q.parent = p.parent ∨ q.parent = some s.initproc
  killed : p.killed = true → q.killed = true
  kills : Kills (s, e) i → q.killed = true
  /-- A running `fork` keeps its child until it gives it up or publishes it. -/
  child : q.context.child = none ∨
    (q.context.child = p.context.child ∧ ∀ j, ¬ Drops (s, e) j ∧ ¬ Publishes (s, e) j) ∨
      ∃ j, Takes (s, e) j ∧ q.context.child = some j
  /-- It may stop being RUNNABLE or RUNNING only outside `fork`. -/
  busy : q.context.child ≠ none → q.state = .RUNNING ∨ q.state = .RUNNABLE
  /-- It becomes a ZOMBIE in `exit` only, which init never calls. -/
  zombie : q.state = .ZOMBIE → p.context.exiting
  exit : q.context.exiting → p.context.exiting ∨ i ≠ s.initproc
  counter : q.cpucounter = p.cpucounter ∨ TakesTimer (s, e) i ∨ CallsInc (s, e) i

/-- What the step `e` from `s` makes of slot `i`. -/
inductive Change (v : Variant) (s : Kernel ncpu) (e : Event ncpu) (i : Slot) : Proc → Prop
  | woken {q : Proc} (ha : actor s e ≠ some i) (h : Woken s.initproc (s.proc i) q) :
      Change v s e i q
  | killed (h : Kills (s, e) i) (hs : (s.proc i).state ≠ .SLEEPING) :
      Change v s e i { s.proc i with killed := true }
  | killedAsleep (h : Kills (s, e) i) (hs : (s.proc i).state = .SLEEPING) :
      Change v s e i { s.proc i with killed := true, state := .RUNNABLE }
  | taken (h : Takes (s, e) i) (hs : (s.proc i).state = .UNUSED) :
      Change v s e i ((s.proc i).take s.nextpid)
  | dropped (h : Drops (s, e) i) : Change v s e i { s.proc i with state := .UNUSED }
  | filled (sz : ℕ) (p : Slot) (h : Fills (s, e) i) :
      Change v s e i { s.proc i with sz := sz, parent := some p, context := .user }
  | published (h : Publishes (s, e) i) : Change v s e i { s.proc i with state := .RUNNABLE }
  | reaped (h : Reaps (s, e) i) (hs : (s.proc i).state = .ZOMBIE) :
      Change v s e i (s.proc i).reap
  | dispatched (h : Dispatches (s, e) i) (hs : (s.proc i).state = .RUNNABLE) :
      Change v s e i { s.proc i with
        count_contextswitch := (s.proc i).count_contextswitch + 1
        state := .RUNNING
        cpucounter := match v with
          | .g17 => (s.proc i).cpucounter
          | .g17hybrid => 0
        chan := none }
  | own (q : Proc) (ha : actor s e = some i) (h : Own s e i (s.proc i) q) : Change v s e i q

/-- The parts of the table that point at each other. -/
structure Coherent (s : Kernel ncpu) : Prop where
  running : ∀ {c p}, s.cpu c = some p → (s.proc p).state = .RUNNING
  single : ∀ {c d p}, s.cpu c = some p → s.cpu d = some p → c = d
  child : ∀ {p np}, (s.proc p).context.child = some np → (s.proc np).state = .EMBRYO
  busy : ∀ {p np}, (s.proc p).context.child = some np →
    (s.proc p).state = .RUNNING ∨ (s.proc p).state = .RUNNABLE
  forker : ∀ {p q np}, (s.proc p).context.child = some np →
    (s.proc q).context.child = some np → p = q

theorem Coherent.child_ne (h : Coherent s) (hc : (s.proc p).context.child = some np) : np ≠ p := by
  rintro rfl
  have := h.child hc
  rcases h.busy hc with h | h <;> simp [h] at this

/-- A step by `p` that wakes others at most. -/
theorem Change.of_waking (ha : actor s e = some p) (ho : Own s e p (s.proc p) (t.proc p))
    (h : ∀ i ≠ p, Woken s.initproc (s.proc i) (t.proc i)) (i : Slot) :
    Change v s e i (t.proc i) := by
  by_cases hi : i = p
  · subst hi
    exact .own _ ha ho
  · exact .woken (by rw [ha]; simpa using Ne.symm hi) (h i hi)

/-- A step by `p` that changes its own slot only. -/
theorem Change.of_own (ha : actor s e = some p) (ho : Own s e p (s.proc p) (t.proc p))
    (h : ∀ i ≠ p, t.proc i = s.proc i) (i : Slot) : Change v s e i (t.proc i) :=
  .of_waking ha ho (fun i hi => h i hi ▸ .refl _ _) i

/-- A step by `p` that changes its own slot and one other. -/
theorem Change.of_own_and (ha : actor s e = some p) (ho : Own s e p (s.proc p) (t.proc p))
    (hne : np ≠ p) (hnp : Change v s e np (t.proc np))
    (h : ∀ i, i ≠ p → i ≠ np → t.proc i = s.proc i) (i : Slot) : Change v s e i (t.proc i) := by
  by_cases hi : i = np
  · subst hi
    exact hnp
  · by_cases hp : i = p
    · subst hp
      exact .own _ ha ho
    · rw [h i hp hi]
      exact .woken (by rw [ha]; simpa using Ne.symm hp) (.refl _ _)

namespace Coherent

variable (h : Coherent s) (hc : s.cpu c = some p)
include h hc

/-- Moving on inside the kernel, or back to user mode. -/
theorem goto {k : Context} (hk : k.child = none) (hx : k.exiting → p ≠ s.initproc)
    (he : actor s e = some p) (hkill : ¬ Kills (s, e) p) (i : Slot) :
    Change v s e i ((s.goto p k).proc i) := by
  refine .of_own he ?_ (fun i hi => s.set_of_ne _ hi) i
  constructor <;> simp [h.running hc, hk, hkill]
  exact fun h => .inr (hx h)

/-- Moving on inside `fork`. -/
theorem goto_child {k : Context} (hk : k.child = (s.proc p).context.child) (hx : ¬ k.exiting)
    (hj : ∀ j, ¬ Drops (s, e) j ∧ ¬ Publishes (s, e) j) (he : actor s e = some p)
    (hkill : ¬ Kills (s, e) p) (i : Slot) : Change v s e i ((s.goto p k).proc i) := by
  refine .of_own he ?_ (fun i hi => s.set_of_ne _ hi) i
  constructor <;> simp [h.running hc, hk, hkill, hj, hx]

theorem enterExit {b : Bool} (he : actor s e = some p) (hkill : ¬ Kills (s, e) p)
    (ht : s.enterExit p b = some t) (i : Slot) : Change v s e i (t.proc i) := by
  unfold Kernel.enterExit at ht
  split at ht
  · cases ht
  · rename_i hne
    cases ht
    exact h.goto hc rfl (fun _ => hne) he hkill i

theorem trapret {b : Bool} (he : actor s e = some p) (hkill : ¬ Kills (s, e) p)
    (ht : s.trapret p b = some t) (i : Slot) : Change v s e i (t.proc i) := by
  unfold Kernel.trapret at ht
  split at ht
  · exact h.enterExit hc he hkill ht i
  · cases ht
    exact h.goto hc rfl (by simp [Context.exiting]) he hkill i

theorem wait (he : e = .run c .wait) (i : Slot) : Change v s e i ((s.wait c p).proc i) := by
  subst he
  have ha : actor s (.run c .wait) = some p := hc
  have hkill : ¬ Kills (s, .run c .wait) p := by simp [Kills]
  unfold Kernel.wait
  split
  · rename_i q hq
    obtain ⟨-, hz⟩ := findZombie_some hq
    have hne : q ≠ p := by
      rintro rfl
      simp [h.running hc] at hz
    refine .of_own_and ha ?_ hne ?_ ?_ i
    · constructor <;> simp [Kernel.goto, Kernel.set_of_ne _ _ hne.symm, h.running hc, hkill, Context.child, Context.exiting]
    · simpa [Kernel.goto, Kernel.set_of_ne _ _ hne] using .reaped ⟨c, p, hc, rfl, hq⟩ hz
    · intro i hi hiq
      simp [Kernel.goto, Kernel.set_of_ne _ _ hi, Kernel.set_of_ne _ _ hiq]
  · split_ifs
    · exact h.goto hc rfl (by simp [Context.exiting]) ha hkill i
    · refine .of_own ha ?_ ?_ i
      · constructor <;> simp [Kernel.sleep, Kernel.goto, hkill, Context.child, Context.exiting]
      · intro i hi
        simp [Kernel.sleep, Kernel.goto, Kernel.set_of_ne _ _ hi]

theorem zombie (he : e = .run c .zombie) (hk : (s.proc p).context.exiting) (i : Slot) :
    Change v s e i ((s.zombie c p).proc i) := by
  subst he
  have ha : actor s (.run c .zombie) = some p := hc
  unfold Kernel.zombie
  by_cases hi : i = p
  · subst hi
    refine .own _ ha ?_
    have hw := exit_woken s.proc s.initproc i i
    simp only [Kernel.leave_proc, Kernel.set_self]
    generalize s.proc.exit s.initproc i i = q at hw ⊢
    cases hw with
    | idle a ha => constructor <;> simp [Kills, hk, Context.child_of_exiting hk, ha]
    | woken a ha hs => simp [h.running hc] at hs
  · simp only [Kernel.leave_proc, Kernel.set_of_ne _ _ hi]
    exact .woken (by rw [ha]; simpa using Ne.symm hi) (exit_woken s.proc s.initproc p i)

theorem allocproc (he : e = .run c .allocproc) (i : Slot) :
    Change v s e i ((s.allocproc p).proc i) := by
  subst he
  have ha : actor s (.run c .allocproc) = some p := hc
  have hkill : ¬ Kills (s, .run c .allocproc) p := by simp [Kills]
  unfold Kernel.allocproc
  split
  · exact h.goto hc rfl (by simp [Context.exiting]) ha hkill i
  · rename_i np hnp
    have hu := findUnused_some hnp
    have hne : np ≠ p := by
      rintro rfl
      simp [h.running hc] at hu
    have ht : Takes (s, .run c .allocproc) np := ⟨c, rfl, hnp⟩
    refine .of_own_and ha ?_ hne ?_ ?_ i
    · constructor <;> simp [Kernel.goto, Kernel.set_of_ne _ _ hne.symm, h.running hc, hkill, ht, Context.child, Context.exiting]
    · simpa [Kernel.goto, Kernel.set_of_ne _ _ hne] using .taken ht hu
    · intro i hi hiq
      simp [Kernel.goto, Kernel.set_of_ne _ _ hi, Kernel.set_of_ne _ _ hiq]

/-- The three steps of `fork` that write into its child. -/
theorem toChild {f : Proc → Proc} {k : Context} (hx : ¬ k.exiting) (ha : actor s e = some p)
    (hkill : ¬ Kills (s, e) p) (hnp : (s.proc p).context.child = some np)
    (hk : k.child = none ∨ k.child = some np ∧ ∀ j, ¬ Drops (s, e) j ∧ ¬ Publishes (s, e) j)
    (hf : Change v s e np (f (s.proc np))) (i : Slot) :
    Change v s e i (((s.set np f).goto p k).proc i) := by
  have hne := h.child_ne hnp
  refine .of_own_and ha ?_ hne ?_ ?_ i
  · constructor <;> simp [Kernel.goto, Kernel.set_of_ne _ _ hne.symm, h.running hc, hkill, hx]
    rw [hnp]
    exact hk.imp_right .inl
  · simpa [Kernel.goto, Kernel.set_of_ne _ _ hne] using hf
  · intro i hi hiq
    simp [Kernel.goto, Kernel.set_of_ne _ _ hi, Kernel.set_of_ne _ _ hiq]

theorem kill {pid : ℤ} (he : e = .run c (.kill pid)) (i : Slot) :
    Change v s e i (((s.kill pid).goto p .ret).proc i) := by
  subst he
  have ha : actor s (.run c (.kill pid)) = some p := hc
  have hiff : ∀ i, Kills (s, .run c (.kill pid)) i ↔ s.proc.findPid pid = some i := by
    simp [Kills]
  by_cases hi : i = p
  · subst hi
    refine .own _ ha ?_
    simp only [Kernel.goto, Kernel.set_self, Kernel.kill]
    by_cases hf : s.proc.findPid pid = some i
    · rw [kill_apply hf]
      constructor <;> simp [h.running hc, Context.child, Context.exiting]
    · rw [kill_apply_of_ne hf]
      constructor <;> simp [h.running hc, hiff, hf, Context.child, Context.exiting]
  · simp only [Kernel.goto, Kernel.set_of_ne _ _ hi, Kernel.kill]
    by_cases hf : s.proc.findPid pid = some i
    · rw [kill_apply hf]
      split_ifs with hs
      · exact .killedAsleep ((hiff i).2 hf) hs
      · exact .killed ((hiff i).2 hf) hs
    · rw [kill_apply_of_ne hf]
      exact .woken (by rw [ha]; simpa using Ne.symm hi) (.refl _ _)

omit h hc in
/-- A step that changes other fields of `p` only. -/
theorem quiet (ha : actor s e = some p) (hkill : ¬ Kills (s, e) p)
    (hpid : (t.proc p).pid = (s.proc p).pid)
    (hsw : (t.proc p).count_contextswitch = (s.proc p).count_contextswitch)
    (hpar : (t.proc p).parent = (s.proc p).parent) (hkd : (t.proc p).killed = (s.proc p).killed)
    (hst : (t.proc p).state ≠ .UNUSED ∧ (t.proc p).state ≠ .EMBRYO)
    (hch : (t.proc p).context.child = none) (hz : (t.proc p).state ≠ .ZOMBIE)
    (hx : (t.proc p).context.exiting → (s.proc p).context.exiting)
    (hcnt : (t.proc p).cpucounter = (s.proc p).cpucounter ∨ CallsInc (s, e) p)
    (hne : ∀ i ≠ p, t.proc i = s.proc i) (i : Slot) :
    Change v s e i (t.proc i) := by
  refine .of_own ha ?_ hne i
  constructor <;> simp_all
  exact hcnt.imp_right .inr

theorem act {a : Action} (he : e = .run c a) (ht : s.act v c p a = some t) (i : Slot) :
    Change v s e i (t.proc i) := by
  have ha : actor s e = some p := by rw [he]; exact hc
  have hkill : (∀ pid, a ≠ .kill pid) → ¬ Kills (s, e) p := by
    rintro hne ⟨d, pid, hk, -⟩
    rw [he] at hk
    cases hk
    exact hne pid rfl
  replace ht := acts ht
  cases ht with
  | syscall ht =>
    split at ht
    · exact h.enterExit hc ha (hkill (by simp)) ht i
    · cases ht
      exact h.goto hc rfl (by simp [Context.exiting]) ha (hkill (by simp)) i
  | fault ht =>
    unfold Kernel.enterExit at ht
    split at ht
    · cases ht
    · rename_i hne
      cases ht
      refine .of_own ha ?_ (fun i hi => ?_) i
      · constructor <;> simp [Kernel.goto, h.running hc, Context.child, Context.exiting]
        exact .inr hne
      · simp [Kernel.goto, Kernel.set_of_ne _ _ hi]
  | sleep n hk ht =>
    subst ht
    refine quiet ha (hkill (by simp)) ?_ ?_ ?_ ?_ ?_ ?_ ?_ ?_ ?_ (fun i hi => ?_) i <;>
      simp [Kernel.sleep, Kernel.set_of_ne, *]
  | forkret ht =>
    subst ht
    exact h.goto hc rfl (by simp [Context.exiting]) ha (hkill (by simp)) i
  | ret b ht => exact h.trapret hc ha (hkill (by simp)) ht i
  | exit ht => exact h.enterExit hc ha (hkill (by simp)) ht i
  | zombie hk ht =>
    subst ht
    exact h.zombie hc he hk i
  | allocproc hk ht =>
    subst ht
    exact h.allocproc hc he i
  | kalloc ok np hk ht =>
    have hnp : (s.proc p).context.child = some np := by rw [hk]; rfl
    subst ht
    cases ok
    · exact h.toChild hc (by simp [Context.exiting]) ha (hkill (by simp)) hnp (.inl rfl)
        (.dropped ⟨c, p, hc, .inl ⟨he, hk⟩⟩) i
    · exact h.goto_child hc (by rw [hnp]; rfl) (by simp [Context.exiting])
        (by simp [Drops, Publishes, he]) ha (hkill (by simp)) i
  | copyuvm ok np hk ht =>
    have hnp : (s.proc p).context.child = some np := by rw [hk]; rfl
    subst ht
    cases ok
    · exact h.toChild hc (by simp [Context.exiting]) ha (hkill (by simp)) hnp (.inl rfl)
        (.dropped ⟨c, p, hc, .inr ⟨he, hk⟩⟩) i
    · exact h.goto_child hc (by rw [hnp]; rfl) (by simp [Context.exiting])
        (by simp [Drops, Publishes, he]) ha (hkill (by simp)) i
  | fill np hk ht =>
    have hnp : (s.proc p).context.child = some np := by rw [hk]; rfl
    subst ht
    exact h.toChild hc (by simp [Context.exiting]) ha (hkill (by simp)) hnp
      (.inr ⟨rfl, by simp [Drops, Publishes, he]⟩) (.filled _ p ⟨c, p, hc, he, hk⟩) i
  | publish np hk ht =>
    have hnp : (s.proc p).context.child = some np := by rw [hk]; rfl
    subst ht
    exact h.toChild hc (by simp [Context.exiting]) ha (hkill (by simp)) hnp (.inl rfl)
      (.published ⟨c, p, hc, he, hk⟩) i
  | wait ht =>
    subst ht
    exact h.wait hc he i
  | kill pid ht =>
    subst ht
    exact h.kill hc he i
  -- the rest change fields of the caller
  | set_burst_time bt ht =>
    subst ht
    refine quiet ha (hkill (by simp)) ?_ ?_ ?_ ?_ ?_ ?_ ?_ ?_ ?_ (fun i hi => ?_) i <;>
      simp [Kernel.yield, Kernel.goto, Kernel.set_of_ne, Context.child, Context.exiting, *]
  | resize sz ht =>
    subst ht
    refine quiet ha (hkill (by simp)) ?_ ?_ ?_ ?_ ?_ ?_ ?_ ?_ ?_ (fun i hi => ?_) i <;>
      simp [Kernel.goto, Kernel.set_of_ne, h.running hc, Context.child, Context.exiting, *]
  | inc_cpucounter hv ht =>
    subst ht
    refine quiet ha (hkill (by simp)) ?_ ?_ ?_ ?_ ?_ ?_ ?_ ?_ ?_ (fun i hi => ?_) i <;>
      simp [Kernel.goto, Kernel.incCpucounter, Kernel.set_of_ne, h.running hc,
        CallsInc, Context.child, Context.exiting, *]
  | dec_burstTime hv ht =>
    subst ht
    refine quiet ha (hkill (by simp)) ?_ ?_ ?_ ?_ ?_ ?_ ?_ ?_ ?_ (fun i hi => ?_) i <;>
      simp [Kernel.goto, Kernel.decBurstTime, Kernel.set_of_ne, h.running hc, Context.child,
        Context.exiting, *]

omit h hc in
theorem scheduler (ht : s.scheduler v c = some t) (i : Slot) :
    Change v s (.scheduler c) i (t.proc i) := by
  unfold Kernel.scheduler at ht
  cases hs : scan s.proc with
  | none => simp [hs] at ht
  | some r =>
    obtain ⟨lowest_bt, m⟩ := r
    simp only [hs, Option.bind_eq_bind, Option.bind_some] at ht
    cases lowest_bt with
    | none =>
      cases ht
      exact .woken (by simp [actor]) (.refl _ _)
    | some p =>
      cases ht
      by_cases hi : i = p
      · subst hi
        simp only [Kernel.set_self]
        exact .dispatched ⟨c, m, rfl, hs⟩ (scan_first hs).1
      · simp only [Kernel.set_of_ne _ _ hi]
        exact .woken (by simp [actor]) (.refl _ _)

theorem timer {user : Bool} (ht : s.timer v c user = some t) (i : Slot) :
    Change v s (.timer c user) i (t.proc i) := by
  have ha : actor s (.timer c user) = some p := hc
  have hkill : ¬ Kills (s, .timer c user) p := by simp [Kills]
  have hrun := h.running hc
  have htimer : TakesTimer (s, .timer c user) p := ⟨c, user, rfl, hc⟩
  have hw := fun i => tick_woken s c i
  have hp : (s.tick c).proc p = s.proc p := tick_of_awake (by simp [hrun])
  have hset : ∀ f : Proc → Proc, Own s (.timer c user) p (s.proc p) (f (s.proc p)) →
      Change v s (.timer c user) i (((s.tick c).set p f).proc i) := fun f hf => by
    refine .of_waking ha (by simpa [hp] using hf) (fun i hi => ?_) i
    rw [Kernel.set_of_ne _ _ hi]
    exact hw i
  unfold Kernel.timer at ht
  simp only [Kernel.tick_cpu, hc, hp] at ht
  split at ht
  · cases ht
  split at ht
  · unfold Kernel.enterExit at ht
    split at ht <;> cases ht
    rename_i hne
    refine hset _ ?_
    constructor <;> simp [hrun, hkill, Context.child, Context.exiting]
    exact .inr (by simpa using hne)
  · cases v with
    | g17 =>
      cases ht
      refine .of_waking ha ?_ (fun i _ => hw i) i
      rw [hp]
      constructor <;> simp [hrun, hkill, Drops, Publishes]
      exact .inl
    | g17hybrid =>
      cases ht
      rw [Kernel.quantum_eq, hp]
      split
      · rw [Kernel.leave_proc]
        refine hset _ ?_
        constructor <;>
          cases user <;> simp [Kernel.decBurstTime, hkill, Drops, Publishes, htimer, Context.child, Context.exiting]
        exact .inl
      · refine hset _ ?_
        constructor <;> simp [Kernel.incCpucounter, hrun, hkill, Drops, Publishes, htimer]
        exact .inl

end Coherent

/-- What a step makes of each slot. -/
theorem Step.change (h : Coherent s) (ht : Step v s e t) (i : Slot) : Change v s e i (t.proc i) := by
  unfold Step Kernel.step at ht
  split at ht
  · cases ht
    exact .woken (by simp [actor]) (wakeup1_woken _ _ _ i)
  · rename_i c user
    cases hc : s.cpu c with
    | none =>
      simp only [Kernel.timer, Kernel.tick_cpu, hc] at ht
      split at ht <;> cases ht
      exact .woken (by simp [actor, hc]) (tick_woken s c i)
    | some p => exact h.timer hc ht i
  · split at ht
    · exact Coherent.scheduler ht i
    · cases ht
  · rename_i c a
    obtain ⟨p, hc, ht⟩ := Option.bind_eq_some_iff.mp ht
    exact h.act hc rfl ht i

end Xv6Lab.Sched
