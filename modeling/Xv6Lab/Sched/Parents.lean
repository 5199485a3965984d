import Xv6Lab.Sched.Pids

/-! Who is whose parent. `fork` writes the pointer of its child, `exit` passes children to
init and `wait` clears the pointer, all at different times; `getProcInfo` follows it without
a check. -/

namespace Xv6Lab.Sched

variable {ncpu : ℕ} {v : Variant} {s t : Kernel ncpu} {e : Event ncpu} {c : Fin ncpu}
  {i p q : Slot} {l : List (Kernel ncpu × Event ncpu)}

/-- The process in slot `q` makes that in slot `i` its child: the writes of `fork` between
`allocproc` and the second `acquire`. -/
def ForksInto (x : Kernel ncpu × Event ncpu) (q i : Slot) : Prop :=
  ∃ c, x.1.cpu c = some q ∧ x.2 = .run c .fill ∧ (x.1.proc q).context = .fill i

/-- The process in slot `q` becomes a ZOMBIE. -/
def Exits (x : Kernel ncpu × Event ncpu) (q : Slot) : Prop :=
  ∃ c, x.1.cpu c = some q ∧ x.2 = .run c .zombie

/-- The parent of the process in slot `i`: who forked it, or init once its parent has
exited. It has none any more when it is reaped. -/
inductive Parent : List (Kernel ncpu × Event ncpu) → Slot → Slot → Prop
  | forked {l : List (Kernel ncpu × Event ncpu)} {x : Kernel ncpu × Event ncpu} {i q : Slot}
    (h : ForksInto x q i) : Parent (l ++ [x]) i q
  | adopted {l : List (Kernel ncpu × Event ncpu)} {x : Kernel ncpu × Event ncpu} {i q : Slot}
    (h : Parent l i q) (hx : Exits x q) : Parent (l ++ [x]) i x.1.initproc
  | kept {l : List (Kernel ncpu × Event ncpu)} {x : Kernel ncpu × Event ncpu} {i q : Slot}
    (h : Parent l i q) (hx : ¬ Exits x q) (hr : ¬ Reaps x i) (hf : ∀ a, ¬ ForksInto x a i) :
    Parent (l ++ [x]) i q

/-- A call of `fork` has taken slot `i`, and has neither written its parent since nor given
it up. -/
def Fatherless (l : List (Kernel ncpu × Event ncpu)) (i : Slot) : Prop :=
  Lib.Since (fun x => Takes x i) (fun x => Fills x i ∨ Drops x i) l

/-! ### The parent pointer in one step -/

theorem wakeup1_parent (t : Table) (chan : Chan) (i : Slot) :
    (t.wakeup1 chan i).parent = (t i).parent := by
  unfold Table.wakeup1
  split <;> rfl

theorem abandon1_parent (t : Table) (ip cur p i : Slot) : (t.abandon1 ip cur p i).parent =
    if i = p ∧ (t i).parent = some cur then some ip else (t i).parent := by
  have hpass : ((Function.update t p { t p with parent := some ip } : Table) i).parent =
      if i = p then some ip else (t i).parent := by
    by_cases hi : i = p
    · subst hi
      rw [Function.update_self, if_pos rfl]
    · rw [Function.update_of_ne hi, if_neg hi]
  unfold Table.abandon1
  by_cases hp : (t p).parent = some cur
  · have hiff : (i = p ∧ (t i).parent = some cur) ↔ i = p :=
      ⟨And.left, fun hi => ⟨hi, by rw [hi, hp]⟩⟩
    simp only [hp, if_true, hiff]
    split
    · rw [wakeup1_parent, hpass]
    · exact hpass
  · rw [if_neg hp, if_neg]
    rintro ⟨rfl, h⟩
    exact hp h

theorem foldl_abandon1_parent (ip cur i : Slot) (ps : List Slot) (t : Table) :
    (ps.foldl (fun t p => t.abandon1 ip cur p) t i).parent =
      if i ∈ ps ∧ (t i).parent = some cur then some ip else (t i).parent := by
  induction ps generalizing t with
  | nil => simp
  | cons p ps ih =>
    rw [List.foldl_cons, ih, abandon1_parent]
    by_cases hcur : (t i).parent = some cur
    · by_cases hi : i = p
      · subst hi
        simp [hcur]
      · simp [hi, hcur]
    · simp [hcur]

/-- `exit` passes the children of the caller to init and no others. -/
theorem exit_parent (t : Table) (ip cur i : Slot) : (t.exit ip cur i).parent =
    if (t i).parent = some cur then some ip else (t i).parent := by
  unfold Table.exit Table.abandon
  split
  · simp only [foldl_abandon1_parent, wakeup1_parent, List.mem_finRange, true_and]
  · simp only [foldl_abandon1_parent, List.mem_finRange, true_and]

/-- A change of one slot that leaves its parent alone. -/
@[simp] theorem Kernel.set_parent (s : Kernel ncpu) (p : Slot) {f : Proc → Proc}
    (hf : ∀ q, (f q).parent = q.parent) (i : Slot) :
    ((s.set p f).proc i).parent = (s.proc i).parent := by
  by_cases hi : i = p
  · subst hi
    rw [set_self, hf]
  · rw [set_of_ne _ _ hi]

@[simp] theorem Kernel.goto_parent (s : Kernel ncpu) (p : Slot) (k : Context) (i : Slot) :
    ((s.goto p k).proc i).parent = (s.proc i).parent := by
  unfold goto
  apply set_parent
  simp

theorem Kernel.enterExit_parent {b : Bool} (ht : s.enterExit p b = some t) (i : Slot) :
    (t.proc i).parent = (s.proc i).parent := by
  unfold Kernel.enterExit at ht
  split at ht <;> cases ht
  exact goto_parent s p _ i

theorem Kernel.trapret_parent {b : Bool} (ht : s.trapret p b = some t) (i : Slot) :
    (t.proc i).parent = (s.proc i).parent := by
  unfold Kernel.trapret at ht
  split at ht
  · exact enterExit_parent ht i
  · cases ht
    exact goto_parent s p _ i

theorem kill_parent (t : Table) (pid : ℤ) (i : Slot) :
    ((t.kill pid).2 i).parent = (t i).parent := by
  by_cases hf : t.findPid pid = some i
  · rw [kill_apply hf]
  · rw [kill_apply_of_ne hf]

/-- What one step makes of the parent pointer of slot `i`. -/
inductive ParentStep (x : Kernel ncpu × Event ncpu) (i : Slot) : Option Slot → Option Slot → Prop
  | forked {r : Option Slot} {q : Slot} (h : ForksInto x q i) : ParentStep x i r (some q)
  | adopted {q : Slot} (h : Exits x q) : ParentStep x i (some q) (some x.1.initproc)
  | reaped {r : Option Slot} (h : Reaps x i) : ParentStep x i r none
  | kept {r : Option Slot} (hx : ∀ q, r = some q → ¬ Exits x q) (hr : ¬ Reaps x i)
    (hf : ∀ q, ¬ ForksInto x q i) : ParentStep x i r r

/-- Any step but the three that write parent pointers. -/
theorem ParentStep.other (he : ∀ c, e ≠ .run c .zombie ∧ e ≠ .run c .fill ∧ e ≠ .run c .wait)
    (hp : (t.proc i).parent = (s.proc i).parent) :
    ParentStep (s, e) i (s.proc i).parent (t.proc i).parent := by
  rw [hp]
  refine .kept ?_ ?_ ?_
  · rintro q - ⟨c, -, hx⟩
    exact (he c).1 hx
  · rintro ⟨c, q, -, hx, -⟩
    exact (he c).2.2 hx
  · rintro q ⟨c, -, hx, -⟩
    exact (he c).2.1 hx

theorem act_parent (hc : s.cpu c = some p) {a : Action}
    (ht : s.act v c p a = some t) (i : Slot) :
    ParentStep (s, .run c a) i (s.proc i).parent (t.proc i).parent := by
  have hwho : ∀ {q d b}, s.cpu d = some q → (Event.run c a : Event ncpu) = .run d b → q = p := by
    rintro q d b hq ⟨⟩
    exact Option.some.inj (hq.symm.trans hc)
  replace ht := acts ht
  cases ht with
  | syscall ht =>
    refine .other (by simp) ?_
    split at ht
    · exact Kernel.enterExit_parent ht i
    · cases ht
      exact Kernel.goto_parent s p _ i
  | fault ht =>
    refine .other (by simp) ((Kernel.enterExit_parent ht i).trans ?_)
    simp
  | ret b ht => exact .other (by simp) (Kernel.trapret_parent ht i)
  | exit ht => exact .other (by simp) (Kernel.enterExit_parent ht i)
  | zombie hk ht =>
    subst ht
    have hpar : ((s.zombie c p).proc i).parent = (s.proc.exit s.initproc p i).parent := by
      simp [Kernel.zombie]
    rw [hpar, exit_parent]
    by_cases hcur : (s.proc i).parent = some p
    · rw [if_pos hcur, hcur]
      exact .adopted ⟨c, hc, rfl⟩
    · rw [if_neg hcur]
      refine .kept ?_ (by simp [Reaps]) (by simp [ForksInto])
      rintro q hq ⟨d, hd, he⟩
      exact hcur (hwho hd he ▸ hq)
  | allocproc hk ht =>
    subst ht
    refine .other (by simp) ?_
    unfold Kernel.allocproc
    split
    · exact Kernel.goto_parent s p _ i
    · rw [Kernel.goto_parent]
      exact s.set_parent _ (f := Proc.take s.nextpid) (fun _ => rfl) i
  | kalloc ok np hk ht | copyuvm ok np hk ht =>
    subst ht
    refine .other (by simp) ?_
    cases ok
    · simp [Kernel.dropChild]
    · exact Kernel.goto_parent s p _ i
  | fill np hk ht =>
    subst ht
    rw [Kernel.goto_parent]
    by_cases hi : i = np
    · subst hi
      rw [Kernel.set_self]
      exact .forked ⟨c, hc, rfl, hk⟩
    · rw [Kernel.set_of_ne _ _ hi]
      refine .kept (by simp [Exits]) (by simp [Reaps]) ?_
      rintro q ⟨d, hd, he, hk'⟩
      obtain rfl := hwho hd he
      exact hi (Context.fill.inj (hk'.symm.trans hk))
  | publish np hk ht =>
    subst ht
    exact .other (by simp) (by simp)
  | wait ht =>
    subst ht
    unfold Kernel.wait
    split
    · rename_i q hq
      rw [Kernel.goto_parent]
      by_cases hi : i = q
      · subst hi
        rw [Kernel.set_self]
        exact .reaped ⟨c, p, hc, rfl, hq⟩
      · rw [Kernel.set_of_ne _ _ hi]
        refine .kept (by simp [Exits]) ?_ (by simp [ForksInto])
        rintro ⟨d, a, hd, he, hz⟩
        obtain rfl := hwho hd he
        exact hi (Option.some.inj (hz.symm.trans hq))
    · rename_i hn
      have hno : ¬ Reaps (s, .run c .wait) i := by
        rintro ⟨d, a, hd, he, hz⟩
        obtain rfl := hwho hd he
        exact absurd (hz.symm.trans hn) (by simp)
      have hpar : ∀ {u : Kernel ncpu}, (u.proc i).parent = (s.proc i).parent →
          ParentStep (s, .run c .wait) i (s.proc i).parent (u.proc i).parent := by
        intro u hu
        rw [hu]
        exact .kept (by simp [Exits]) hno (by simp [ForksInto])
      split
      · exact hpar (Kernel.goto_parent s p _ i)
      · exact hpar (by simp [Kernel.sleep])
  | kill pid ht =>
    subst ht
    exact .other (by simp) ((Kernel.goto_parent _ p _ i).trans (kill_parent s.proc pid i))
  | forkret ht =>
    subst ht
    exact .other (by simp) (s.goto_parent p _ i)
  | sleep n hk ht =>
    subst ht
    exact .other (by simp) (by simp [Kernel.sleep])
  | set_burst_time bt ht =>
    subst ht
    exact .other (by simp) (by simp [Kernel.yield])
  | resize sz ht =>
    subst ht
    exact .other (by simp) (by simp)
  | inc_cpucounter hv ht | dec_burstTime hv ht =>
    subst ht
    refine .other (by simp) ?_
    rw [Kernel.goto_parent]
    apply Kernel.set_parent
    exact fun _ => rfl

/-- What a step makes of the parent pointers. -/
theorem Step.parent (ht : Step v s e t) (i : Slot) :
    ParentStep (s, e) i (s.proc i).parent (t.proc i).parent := by
  have htick : ∀ (d : Fin ncpu), ((s.tick d).proc i).parent = (s.proc i).parent := by
    intro d
    unfold Kernel.tick
    split
    · exact wakeup1_parent _ _ i
    · rfl
  cases e with
  | wakeup n =>
    cases ht
    exact .other (by simp) (wakeup1_parent _ _ i)
  | timer c user =>
    refine .other (by simp) ?_
    have ht : s.timer v c user = some t := ht
    unfold Kernel.timer at ht
    simp only [Kernel.tick_cpu] at ht
    split at ht
    · split at ht <;> cases ht
      exact htick c
    · rename_i p hc
      split at ht
      · cases ht
      split at ht
      · exact (Kernel.enterExit_parent ht i).trans (htick c)
      · cases v with
        | g17 =>
          cases ht
          exact htick c
        | g17hybrid =>
          cases ht
          rw [Kernel.quantum_eq]
          split
          · simp [Kernel.decBurstTime, htick]
          · rw [← htick c]
            apply Kernel.set_parent
            exact fun _ => rfl
  | scheduler c =>
    refine .other (by simp) ?_
    obtain ⟨-, ht⟩ := ht.of_scheduler
    unfold Kernel.scheduler at ht
    obtain ⟨⟨r, m⟩, -, ht⟩ := Option.bind_eq_some_iff.mp ht
    cases r with
    | none =>
      cases ht
      rfl
    | some p =>
      cases ht
      simp
  | run c a =>
    obtain ⟨p, hc, ht⟩ := ht.of_run
    exact act_parent hc ht i

/-! ### How a process becomes a ZOMBIE -/

theorem enterExit_state {b : Bool} (ht : s.enterExit p b = some t) :
    (t.proc p).state = (s.proc p).state := by
  unfold Kernel.enterExit at ht
  split at ht <;> cases ht
  simp [Kernel.goto]

theorem act_of_zombie (h : Coherent s) (hc : s.cpu c = some p) {a : Action}
    (ht : s.act v c p a = some t) (hz : (t.proc p).state = .ZOMBIE) : a = .zombie := by
  have hrun := h.running hc
  have hne : ∀ {np}, (s.proc p).context.child = some np → p ≠ np := fun hk => (h.child_ne hk).symm
  replace ht := acts ht
  cases ht with
  | zombie hk ht => rfl
  | syscall ht =>
    split at ht
    · rw [enterExit_state ht, hrun] at hz
      cases hz
    · cases ht
      simp [Kernel.goto, hrun] at hz
  | fault ht =>
    rw [enterExit_state ht, Kernel.set_self, hrun] at hz
    cases hz
  | ret b ht =>
    unfold Kernel.trapret at ht
    split at ht
    · rw [enterExit_state ht, hrun] at hz
      cases hz
    · cases ht
      simp [Kernel.goto, hrun] at hz
  | exit ht =>
    rw [enterExit_state ht, hrun] at hz
    cases hz
  | allocproc hk ht =>
    subst ht
    unfold Kernel.allocproc at hz
    split at hz
    · simp [Kernel.goto, hrun] at hz
    · rename_i np hnp
      have hp : p ≠ np := by
        rintro rfl
        rw [findUnused_some hnp] at hrun
        cases hrun
      simp [Kernel.goto, Kernel.set_of_ne _ _ hp, hrun] at hz
  | kalloc ok np hk ht | copyuvm ok np hk ht =>
    subst ht
    have hp : p ≠ np := hne (by rw [hk]; rfl)
    cases ok <;> simp [Kernel.dropChild, Kernel.goto, Kernel.set_of_ne _ _ hp, hrun] at hz
  | fill np hk ht | publish np hk ht =>
    subst ht
    have hp : p ≠ np := hne (by rw [hk]; rfl)
    simp [Kernel.goto, Kernel.set_of_ne _ _ hp, hrun] at hz
  | wait ht =>
    subst ht
    unfold Kernel.wait at hz
    split at hz
    · rename_i q hq
      have hp : p ≠ q := by
        rintro rfl
        rw [(findZombie_some hq).2] at hrun
        cases hrun
      simp [Kernel.goto, Kernel.set_of_ne _ _ hp, hrun] at hz
    · split at hz <;> simp [Kernel.goto, Kernel.sleep, hrun] at hz
  | kill pid ht =>
    subst ht
    by_cases hf : s.proc.findPid pid = some p
    · simp [Kernel.goto, Kernel.kill, kill_apply hf, hrun] at hz
    · simp [Kernel.goto, Kernel.kill, kill_apply_of_ne hf, hrun] at hz
  | forkret ht | sleep n hk ht | set_burst_time bt ht | resize sz ht =>
    subst ht
    simp [Kernel.goto, Kernel.sleep, Kernel.yield, hrun] at hz
  | inc_cpucounter hv ht | dec_burstTime hv ht =>
    subst ht
    simp [Kernel.goto, Kernel.incCpucounter, Kernel.decBurstTime, hrun] at hz

/-- A process becomes a ZOMBIE by its own `exit` only. -/
theorem Step.zombie (h : Coherent s) (ht : Step v s e t) (ha : actor s e = some p)
    (hz : (t.proc p).state = .ZOMBIE) : Exits (s, e) p := by
  cases e with
  | wakeup n => cases ha
  | scheduler c => cases ha
  | run c a =>
    obtain ⟨q, hc, ht⟩ := ht.of_run
    obtain rfl : p = q := Option.some.inj (ha.symm.trans hc)
    obtain rfl := act_of_zombie h hc ht hz
    exact ⟨c, hc, rfl⟩
  | timer c user =>
    have hc : s.cpu c = some p := ha
    have hrun := h.running hc
    have hp : (s.tick c).proc p = s.proc p := tick_of_awake (by simp [hrun])
    have ht := ht.of_timer
    unfold Kernel.timer at ht
    simp only [Kernel.tick_cpu, hc, hp] at ht
    split at ht
    · cases ht
    split at ht
    · rw [enterExit_state ht, hp, hrun] at hz
      cases hz
    · cases v with
      | g17 =>
        cases ht
        rw [hp, hrun] at hz
        cases hz
      | g17hybrid =>
        cases ht
        rw [Kernel.quantum_eq] at hz
        split at hz <;> simp [Kernel.incCpucounter, hp, hrun] at hz

/-! ### The parent pointers of every history -/

theorem ForksInto.embryo (h : Coherent s) (hf : ForksInto (s, e) q i) :
    (s.proc i).state = .EMBRYO := by
  obtain ⟨c, -, -, hk⟩ := hf
  exact h.child (p := q) (by rw [hk]; rfl)

theorem ForksInto.fills {x : Kernel ncpu × Event ncpu} (hf : ForksInto x q i) : Fills x i := by
  obtain ⟨c, hc, he, hk⟩ := hf
  exact ⟨c, q, hc, he, hk⟩

theorem Fills.forksInto {x : Kernel ncpu × Event ncpu} (hf : Fills x i) : ∃ q, ForksInto x q i := by
  obtain ⟨c, q, hc, he, hk⟩ := hf
  exact ⟨q, c, hc, he, hk⟩

/-- A null parent pointer is written by `fork` only. -/
theorem ParentStep.of_none {x : Kernel ncpu × Event ncpu} {r : Option Slot}
    (h : ParentStep x i none r) : r = none ∨ Fills x i := by
  cases h with
  | forked hf => exact .inr hf.fills
  | reaped _ => exact .inl rfl
  | kept _ _ _ => exact .inl rfl

/-- A process that can have children. -/
def Alive (p : Proc) : Prop := p.state ≠ .UNUSED ∧ p.state ≠ .EMBRYO ∧ p.state ≠ .ZOMBIE

theorem Step.alive (h : Coherent s) (ht : Step v s e t) (hs : Alive (s.proc q))
    (hx : ¬ Exits (s, e) q) : Alive (t.proc q) := by
  obtain ⟨hu, hem, hz⟩ := hs
  have hembryo : ∀ {p : Slot}, (s.proc p).context.child ≠ some q := fun hk => hem (h.child hk)
  have hzombie := ht.zombie h (p := q)
  have hch := ht.change h q
  generalize t.proc q = r at hch hzombie
  cases hch with
  | woken _ hw =>
    cases hw with
    | idle _ _ => exact ⟨hu, hem, hz⟩
    | woken _ _ _ => exact ⟨by simp, by simp, by simp⟩
  | killed _ _ => exact ⟨hu, hem, hz⟩
  | killedAsleep _ _ => exact ⟨by simp, by simp, by simp⟩
  | taken _ h => exact absurd h hu
  | dropped hd =>
    obtain ⟨c, p, -, ⟨-, hk⟩ | ⟨-, hk⟩⟩ := hd <;> exact absurd (by rw [hk]; rfl) (hembryo (p := p))
  | filled _ _ hf => exact ⟨hu, hem, hz⟩
  | published hp =>
    obtain ⟨c, p, -, -, hk⟩ := hp
    exact absurd (by rw [hk]; rfl) (hembryo (p := p))
  | reaped _ h => exact absurd h hz
  | dispatched _ _ => exact ⟨by simp, by simp, by simp⟩
  | own r ha ho => exact ⟨ho.state.1, ho.state.2, fun hr => hx (hzombie ha hr)⟩

/-- A fork that has filled its child publishes it next. -/
theorem Step.publishing (h : Coherent s) (ht : Step v s e t) (hk : (s.proc p).context = .publish i)
    (hi : (t.proc p).context.child = some i) : (t.proc p).context = .publish i := by
  have hchild : (s.proc p).context.child = some i := by rw [hk]; rfl
  have hrun := h.busy hchild
  by_cases ha : actor s e = some p
  · cases e with
    | wakeup n => cases ha
    | scheduler c => cases ha
    | run c a =>
      obtain ⟨q, hc, ht⟩ := ht.of_run
      obtain rfl : p = q := Option.some.inj (ha.symm.trans hc)
      unfold Kernel.act at ht
      rw [hk] at ht
      cases a <;> cases ht
      simp [Kernel.goto, Context.child] at hi
    | timer c user =>
      have hc : s.cpu c = some p := ha
      have hp : (s.tick c).proc p = s.proc p := tick_of_awake (by simp [h.running hc])
      have ht := ht.of_timer
      unfold Kernel.timer at ht
      simp only [Kernel.tick_cpu, hc, hp] at ht
      split at ht
      · cases ht
      split at ht
      · unfold Kernel.enterExit at ht
        split at ht <;> cases ht
        simp [Kernel.goto, Context.child] at hi
      · cases v with
        | g17 =>
          cases ht
          rwa [hp]
        | g17hybrid =>
          cases ht
          rw [Kernel.quantum_eq] at hi ⊢
          cases user <;> split at hi <;>
            simp_all [Kernel.incCpucounter, Kernel.decBurstTime, Context.child]
  · have hch := ht.change h p
    generalize t.proc p = r at hch hi ⊢
    cases hch with
    | woken _ hw => cases hw <;> exact hk
    | filled _ _ _ => cases hi
    | own _ ha' _ => exact absurd ha' ha
    | _ => exact hk

theorem Step.filling (ht : Step v s (.run c .fill) t) (hc : s.cpu c = some p)
    (hk : (s.proc p).context = .fill i) : (t.proc p).context = .publish i := by
  obtain ⟨q, hq, ht⟩ := ht.of_run
  obtain rfl : p = q := Option.some.inj (hc.symm.trans hq)
  unfold Kernel.act at ht
  rw [hk] at ht
  cases ht
  simp [Kernel.goto]

/-- Parent pointers name living processes, the parents. A slot has none if it is free, holds
init, or is a child that `fork` has not come to fill. -/
structure ParentsOk (l : List (Kernel ncpu × Event ncpu)) (s : Kernel ncpu) : Prop where
  init : (s.proc s.initproc).parent = none
  dead : ∀ {i}, (s.proc i).state = .UNUSED → (s.proc i).parent = none
  fatherless : ∀ {i}, Fatherless l i → (s.proc i).parent = none
  child : ∀ {p i}, (s.proc p).context.child = some i →
    (s.proc p).context = .publish i ∨ Fatherless l i
  alive : ∀ {i q}, (s.proc i).parent = some q → Alive (s.proc q)
  parent : ∀ {i q}, (s.proc i).parent = some q → Parent l i q
  orphan : ∀ {i}, (s.proc i).parent = none →
    i = s.initproc ∨ (s.proc i).state = .UNUSED ∨ Fatherless l i

theorem ParentsOk.step (h : ParentsOk l s) (hc : Coherent s) (hi : InitLives s)
    (ht : Step v s e t) : ParentsOk (l ++ [(s, e)]) t where
  init := by
    have hp := ht.parent s.initproc
    rw [h.init] at hp
    rw [ht.initproc hc]
    rcases hp.of_none with hp | hf
    · exact hp
    · obtain ⟨q, hf⟩ := hf.forksInto
      exact absurd (hf.embryo hc) hi.2.1
  dead := by
    intro i hs
    rcases (ht.change hc i).of_unused hs with hu | hd | hr
    · have hp := ht.parent i
      rw [h.dead hu] at hp
      rcases hp.of_none with hp | hf
      · exact hp
      · obtain ⟨q, hf⟩ := hf.forksInto
        rw [hf.embryo hc] at hu
        cases hu
    · rw [hd.dropped hc ht]
      obtain ⟨c, p, -, ⟨-, hk⟩ | ⟨-, hk⟩⟩ := hd <;>
      · have hk : (s.proc p).context = _ := hk
        rcases h.child (p := p) (i := i) (by rw [hk]; rfl) with hpub | hf
        · rw [hk] at hpub
          cases hpub
        · exact h.fatherless hf
    · rw [(hr.reaped hc ht).2]
      rfl
  fatherless := by
    intro i hf
    have hp := ht.parent i
    rcases Lib.since_snoc.mp hf with hk | ⟨hf, hno⟩
    · rw [hk.taken hc ht]
      exact h.dead hk.state
    · rw [h.fatherless hf] at hp
      exact hp.of_none.resolve_right fun hfill => hno (.inl hfill)
  child := by
    intro p i hk
    rcases (ht.change hc p).child hc hk with ⟨hs, hact, -⟩ | ⟨hk, -, -⟩
    · rcases h.child hs with hpub | hf
      · exact .inl (ht.publishing hc hpub hk)
      · by_cases hfill : Fills (s, e) i
        · left
          obtain ⟨c, q, hcpu, he, hk'⟩ := hfill
          obtain rfl := hc.forker hs (q := q) (by rw [hk']; rfl)
          obtain rfl : e = _ := he
          exact ht.filling hcpu hk'
        · refine .inr (Lib.since_snoc.mpr (.inr ⟨hf, ?_⟩))
          rintro (hfill' | hd)
          · exact hfill hfill'
          · exact (hact (hc.forker_acts hs (.inl hd)) i).1 hd
    · exact .inr (Lib.since_snoc.mpr (.inl hk))
  alive := by
    intro i q hq
    have hp := ht.parent i
    rw [hq] at hp
    generalize hr : (s.proc i).parent = r at hp
    cases hp with
    | forked hf =>
      obtain ⟨c, hcpu, he, -⟩ := hf
      refine ht.alive hc ?_ ?_
      · unfold Alive
        simp [hc.running hcpu]
      · rintro ⟨d, -, he'⟩
        cases he.symm.trans he'
    | adopted hx =>
      obtain ⟨h1, h2, h3, -⟩ := hi.step hc ht
      rw [ht.initproc hc] at h1 h2 h3
      exact ⟨h1, h2, h3⟩
    | kept hx _ _ => exact ht.alive hc (h.alive hr) (hx q rfl)
  parent := by
    intro i q hq
    have hp := ht.parent i
    rw [hq] at hp
    generalize hr : (s.proc i).parent = r at hp
    cases hp with
    | forked hf => exact .forked hf
    | adopted hx => exact .adopted (h.parent hr) hx
    | kept hx hre hf => exact .kept (h.parent hr) (hx q rfl) hre hf
  orphan := by
    intro i hn
    rw [ht.initproc hc]
    have hp := ht.parent i
    rw [hn] at hp
    generalize hr : (s.proc i).parent = r at hp
    cases hp with
    | reaped hre =>
      rw [(hre.reaped hc ht).2]
      exact .inr (.inl rfl)
    | kept hx hre hf =>
      rcases h.orphan hr with hinit | hu | hfa
      · exact .inl hinit
      · by_cases hk : Takes (s, e) i
        · exact .inr (.inr (Lib.since_snoc.mpr (.inl hk)))
        · exact .inr (.inl ((ht.change hc i).unused hc hu hk).1)
      · by_cases hd : Drops (s, e) i
        · rw [hd.dropped hc ht]
          exact .inr (.inl rfl)
        · refine .inr (.inr (Lib.since_snoc.mpr (.inr ⟨hfa, ?_⟩)))
          rintro (hfill | hd')
          · obtain ⟨q, hq⟩ := hfill.forksInto
            exact hf q hq
          · exact hd hd'

theorem boot_parents : ParentsOk [] (Kernel.boot : Kernel ncpu) := by
  have hslot : ∀ i, (Kernel.boot : Kernel ncpu).proc i = Proc.zero ∨ i = 0 := by
    intro i
    by_cases hi : i = 0
    · exact .inr hi
    · exact .inl (by simp [Kernel.boot, hi])
  have hnone : ∀ i, ((Kernel.boot : Kernel ncpu).proc i).parent = none := by
    intro i
    rcases hslot i with h | rfl
    · rw [h]
      rfl
    · rfl
  refine ⟨hnone _, fun _ => hnone _, fun _ => hnone _, ?_, ?_, ?_, ?_⟩
  · intro p i hk
    rcases hslot p with h | rfl
    · rw [h] at hk
      cases hk
    · cases hk
  · intro i q hq
    rw [hnone] at hq
    cases hq
  · intro i q hq
    rw [hnone] at hq
    cases hq
  · intro i _
    rcases hslot i with h | rfl
    · rw [h]
      exact .inr (.inl rfl)
    · exact .inl rfl

theorem History.parents (h : History v l s) : ParentsOk l s :=
  Lib.Trace.history boot_parents (fun hl hp ht => hp.step (History.coherent hl)
    (History.initLives hl) ht) h

/-! ### `getProcInfo` -/

/-- A call of `getProcInfo` follows no null pointer, and if it returns 0 it has found a process
and the pid of its parent. -/
structure InfoSafe (l : List (Kernel ncpu × Event ncpu)) (s : Kernel ncpu) (pid : ℤ) : Prop where
  noNull : ∀ p, s.proc.findPid pid = some p → (s.proc p).parent ≠ none
  parent : ∀ atNull info, s.proc.getProcInfo atNull pid = (0, some info) →
    ∃ p q, (s.proc p).state ≠ .UNUSED ∧ (s.proc p).pid = pid ∧ (s.proc q).state ≠ .UNUSED ∧
      (s.proc q).pid = info.ppid ∧ Parent l p q

/-- `getProcInfo` is safe exactly for the pids that it does not find in init, in a slot that is
UNUSED or in the child of a `fork` that has yet to fill it. -/
theorem getProcInfo_safe_iff (h : History v l s) (pid : ℤ) :
    InfoSafe l s pid ↔ ∀ p, s.proc.findPid pid = some p →
      p ≠ s.initproc ∧ (s.proc p).state ≠ .UNUSED ∧ ¬ Fatherless l p := by
  have hp := h.parents
  constructor
  · intro hs p hf
    have hne := hs.noNull p hf
    refine ⟨?_, fun hu => hne (hp.dead hu), fun hfa => hne (hp.fatherless hfa)⟩
    rintro rfl
    exact hne hp.init
  · intro hs
    have hfound : ∀ p, s.proc.findPid pid = some p → ∃ q, (s.proc p).parent = some q := by
      intro p hf
      obtain ⟨hinit, hu, hfa⟩ := hs p hf
      apply Option.ne_none_iff_exists'.mp
      intro hn
      rcases hp.orphan hn with h | h | h
      · exact hinit h
      · exact hu h
      · exact hfa h
    constructor
    · intro p hf hn
      obtain ⟨q, hq⟩ := hfound p hf
      rw [hn] at hq
      cases hq
    · intro atNull info hr
      unfold Table.getProcInfo at hr
      split at hr
      · rename_i p hf
        obtain ⟨q, hq⟩ := hfound p hf
        cases hr
        refine ⟨p, q, (hs p hf).2.1, findPid_some hf, (hp.alive hq).1, ?_, hp.parent hq⟩
        simp only [hq]
      · cases hr

/-- Init forks a child and makes another system call. -/
def forkAndCall : List (Event 1) :=
  [.scheduler 0, .run 0 .ret, .run 0 .syscall, .run 0 .allocproc, .run 0 (.kalloc true),
    .run 0 (.copyuvm true), .run 0 .fill, .run 0 .publish, .run 0 .ret, .run 0 .syscall]

theorem exists_forkAndCall (v : Variant) : ∃ (l : List (Kernel 1 × Event 1)) (s : Kernel 1),
    History v l s ∧ s.cpu 0 = some 0 ∧ (s.proc 0).context = .syscall ∧
      s.proc.findPid 1 = some s.initproc ∧ s.proc.findPid 0 = some 2 ∧
      (s.proc 2).state = .UNUSED ∧ s.proc.findPid 2 = some 1 ∧ s.initproc = 0 ∧
      (s.proc 1).state = .RUNNABLE ∧ (s.proc 1).parent = some 0 := by
  have hplay : ((Kernel.boot.play v forkAndCall).map fun s =>
      decide (s.cpu 0 = some 0 ∧ (s.proc 0).context = .syscall ∧
        s.proc.findPid 1 = some s.initproc ∧ s.proc.findPid 0 = some 2 ∧
        (s.proc 2).state = .UNUSED ∧ s.proc.findPid 2 = some 1 ∧ s.initproc = 0 ∧
        (s.proc 1).state = .RUNNABLE ∧ (s.proc 1).parent = some 0)) = some true := by
    cases v <;> decide +kernel
  obtain ⟨s, hs, hp⟩ := Option.map_eq_some_iff.mp hplay
  obtain ⟨l, -, h⟩ := Lib.Trace.of_foldlM hs
  exact ⟨l, s, h, of_decide_eq_true hp⟩

/-- A process asks for its child. -/
theorem getProcInfo_safe_of_child : ∃ (l : List (Kernel 1 × Event 1)) (s : Kernel 1),
    History .g17 l s ∧ s.proc.findPid 2 = some 1 ∧ InfoSafe l s 2 := by
  obtain ⟨l, s, h, -, -, -, -, -, hf, hinit, hst, hpar⟩ := exists_forkAndCall .g17
  refine ⟨l, s, h, hf, (getProcInfo_safe_iff h 2).2 fun p hp => ?_⟩
  obtain rfl : 1 = p := Option.some.inj (hf.symm.trans hp)
  refine ⟨by rw [hinit]; decide, by simp [hst], fun hfa => ?_⟩
  rw [h.parents.fatherless hfa] at hpar
  cases hpar

/-- Init asks for itself, and for pid 0: it has no parent, and neither has a free slot. -/
theorem getProcInfo_follows_null : ∃ (l : List (Kernel 1 × Event 1)) (s : Kernel 1),
    History .g17 l s ∧ s.cpu 0 = some 0 ∧ (s.proc 0).context = .syscall ∧
      ¬ InfoSafe l s 1 ∧ ¬ InfoSafe l s 0 := by
  obtain ⟨l, s, h, hcpu, hk, hf, hf', hu, -, -, -, -⟩ := exists_forkAndCall .g17
  exact ⟨l, s, h, hcpu, hk, fun hs => hs.noNull _ hf h.parents.init,
    fun hs => hs.noNull _ hf' (h.parents.dead hu)⟩

end Xv6Lab.Sched
