import Xv6Lab.Sched.Kernel

/-! What the loops over the process table and the updates of the machine compute. -/

namespace Xv6Lab.Sched

variable {ncpu : ℕ} {s : Kernel ncpu} {c : Fin ncpu} {i p : Slot}

/-- `q` is `p`, woken up or not, handed to init or not. -/
inductive Woken (initproc : Slot) (p : Proc) : Proc → Prop
  | idle (parent : Option Slot) (h : parent = p.parent ∨ parent = some initproc) :
    Woken initproc p { p with parent := parent }
  | woken (parent : Option Slot) (h : parent = p.parent ∨ parent = some initproc)
      (hs : p.state = .SLEEPING) :
    Woken initproc p { p with parent := parent, state := .RUNNABLE }

theorem Woken.refl (ip : Slot) (p : Proc) : Woken ip p p := .idle p.parent (.inl rfl)

theorem Woken.trans {ip : Slot} {p q r : Proc} (h : Woken ip p q) (h' : Woken ip q r) :
    Woken ip p r := by
  cases h with
  | idle a ha =>
    cases h' with
    | idle b hb => exact .idle b (hb.elim (fun h => h ▸ ha) .inr)
    | woken b hb hs => exact .woken b (hb.elim (fun h => h ▸ ha) .inr) hs
  | woken a ha hs =>
    cases h' with
    | idle b hb => exact .woken b (hb.elim (fun h => h ▸ ha) .inr) hs
    | woken b hb hs' => cases hs'

theorem Woken.eq_of_awake {ip : Slot} {p q : Proc} (h : Woken ip p q) (hs : p.state ≠ .SLEEPING) :
    q.state = p.state := by
  cases h with
  | idle _ _ => rfl
  | woken _ _ h => exact absurd h hs

theorem wakeup1_woken (t : Table) (ip : Slot) (chan : Chan) (i : Slot) :
    Woken ip (t i) (t.wakeup1 chan i) := by
  unfold Table.wakeup1
  split
  · rename_i h
    exact .woken _ (.inl rfl) h.1
  · exact .refl ip _

theorem wakeup1_of_awake {t : Table} {chan : Chan} (h : (t i).state ≠ .SLEEPING) :
    t.wakeup1 chan i = t i := by
  simp [Table.wakeup1, h]

theorem abandon1_woken (t : Table) (ip cur p i : Slot) :
    Woken ip (t i) (t.abandon1 ip cur p i) := by
  have hpass : Woken ip (t i)
      ((Function.update t p { t p with parent := some ip } : Table) i) := by
    by_cases h : i = p
    · subst h
      rw [Function.update_self]
      exact .idle _ (.inr rfl)
    · rw [Function.update_of_ne h]
      exact .refl ip _
  unfold Table.abandon1
  split_ifs
  · exact hpass.trans (wakeup1_woken _ ip _ i)
  · exact hpass
  · exact .refl ip _

theorem abandon_woken (t : Table) (ip cur i : Slot) : Woken ip (t i) (t.abandon ip cur i) := by
  unfold Table.abandon
  generalize List.finRange NPROC = l
  induction l generalizing t with
  | nil => exact .refl ip _
  | cons p l ih => exact (abandon1_woken t ip cur p i).trans (ih _)

theorem exit_woken (t : Table) (ip cur i : Slot) : Woken ip (t i) (t.exit ip cur i) := by
  unfold Table.exit
  split
  · exact (wakeup1_woken t ip _ i).trans (abandon_woken _ ip cur i)
  · exact abandon_woken t ip cur i

theorem findUnused_some {t : Table} (h : t.findUnused = some i) : (t i).state = .UNUSED := by
  simpa using List.find?_some h

theorem findPid_some {t : Table} {pid : ℤ} (h : t.findPid pid = some i) : (t i).pid = pid := by
  simpa using List.find?_some h

theorem findPid_none {t : Table} {pid : ℤ} : t.findPid pid = none ↔ ∀ i, (t i).pid ≠ pid := by
  simp [Table.findPid, List.find?_eq_none]

theorem findZombie_some {t : Table} (h : t.findZombie p = some i) :
    (t i).parent = some p ∧ (t i).state = .ZOMBIE := by
  simpa using List.find?_some h

theorem kill_apply_of_ne {t : Table} {pid : ℤ} (h : t.findPid pid ≠ some i) :
    (t.kill pid).2 i = t i := by
  unfold Table.kill
  split
  · rename_i j hj
    exact Function.update_of_ne (by rintro rfl; exact h hj) _ _
  · rfl

theorem kill_apply {t : Table} {pid : ℤ} (h : t.findPid pid = some i) :
    (t.kill pid).2 i = { t i with
      killed := true, state := if (t i).state = .SLEEPING then .RUNNABLE else (t i).state } := by
  simp [Table.kill, h]

namespace Kernel

@[simp] theorem set_self (s : Kernel ncpu) (p : Slot) (f : Proc → Proc) :
    (s.set p f).proc p = f (s.proc p) := by
  simp [set]

theorem set_of_ne (s : Kernel ncpu) (f : Proc → Proc) (h : i ≠ p) :
    (s.set p f).proc i = s.proc i := by
  simp [set, h]

@[simp] theorem set_cpu (s : Kernel ncpu) (p : Slot) (f : Proc → Proc) :
    (s.set p f).cpu = s.cpu := rfl

@[simp] theorem set_nextpid (s : Kernel ncpu) (p : Slot) (f : Proc → Proc) :
    (s.set p f).nextpid = s.nextpid := rfl

@[simp] theorem set_initproc (s : Kernel ncpu) (p : Slot) (f : Proc → Proc) :
    (s.set p f).initproc = s.initproc := rfl

/-- Two writes to one slot are one. -/
theorem set_set (s : Kernel ncpu) (p : Slot) (f g : Proc → Proc) :
    (s.set p f).set p g = s.set p (g ∘ f) := by
  simp [set]

@[simp] theorem leave_proc (s : Kernel ncpu) (c : Fin ncpu) : (s.leave c).proc = s.proc := rfl

@[simp] theorem leave_nextpid (s : Kernel ncpu) (c : Fin ncpu) :
    (s.leave c).nextpid = s.nextpid := rfl

@[simp] theorem leave_initproc (s : Kernel ncpu) (c : Fin ncpu) :
    (s.leave c).initproc = s.initproc := rfl

@[simp] theorem leave_cpu (s : Kernel ncpu) (c : Fin ncpu) :
    (s.leave c).cpu = Function.update s.cpu c none := rfl

end Kernel

@[simp] theorem Kernel.tick_initproc (s : Kernel ncpu) (c : Fin ncpu) :
    (s.tick c).initproc = s.initproc := by
  unfold Kernel.tick
  split <;> rfl

theorem tick_woken (s : Kernel ncpu) (c : Fin ncpu) (i : Slot) :
    Woken s.initproc (s.proc i) ((s.tick c).proc i) := by
  unfold Kernel.tick
  split
  · exact wakeup1_woken _ _ _ i
  · exact .refl _ _

theorem tick_of_awake (h : (s.proc i).state ≠ .SLEEPING) : (s.tick c).proc i = s.proc i := by
  unfold Kernel.tick
  split
  · exact wakeup1_of_awake h
  · rfl

@[simp] theorem Kernel.tick_cpu (s : Kernel ncpu) (c : Fin ncpu) : (s.tick c).cpu = s.cpu := by
  unfold Kernel.tick
  split <;> rfl

@[simp] theorem Kernel.tick_nextpid (s : Kernel ncpu) (c : Fin ncpu) :
    (s.tick c).nextpid = s.nextpid := by
  unfold Kernel.tick
  split <;> rfl

theorem Kernel.quantum_eq (s : Kernel ncpu) (c : Fin ncpu) (p : Slot) (user : Bool) :
    s.quantum c p user =
      if (s.proc p).cpucounter + 1 = QUANTA then
        (s.set p fun q => { decBurstTime q with
          cpucounter := 0
          context := if user then .trapped else q.context
          state := .RUNNABLE }).leave c
      else s.set p incCpucounter := by
  unfold Kernel.quantum
  simp only [set_self]
  congr 1
  simp only [set_set, yield, goto]
  cases user <;> simp only [Bool.false_eq_true, if_false, if_true, set_set] <;> rfl

/-- The child that a call of `fork` is making. -/
def Context.child : Context → Option Slot
  | .kalloc np | .copyuvm np | .fill np | .publish np => some np
  | _ => none

theorem Context.child_of_exiting {k : Context} (h : k.exiting) : k.child = none := by
  cases k <;> simp_all [exiting, child]

/-- What an action of the process `p` can lead to. -/
inductive Acts (v : Variant) (s : Kernel ncpu) (c : Fin ncpu) (p : Slot) (t : Kernel ncpu) :
    Action → Prop
  | syscall (ht : (if (s.proc p).killed then s.enterExit p true
      else some (s.goto p .syscall)) = some t) : Acts v s c p t .syscall
  | fault (ht : (s.set p fun q => { q with killed := true }).enterExit p false = some t) :
    Acts v s c p t .fault
  | sleep (n : ℕ) (hk : (s.proc p).context.child = none) (ht : t = s.sleep c p (.object n)) :
    Acts v s c p t (.sleep n)
  | forkret (ht : t = s.goto p .user) : Acts v s c p t .ret
  | ret (interruptible : Bool) (ht : s.trapret p interruptible = some t) : Acts v s c p t .ret
  | exit (ht : s.enterExit p true = some t) : Acts v s c p t .exit
  | zombie (hk : (s.proc p).context.exiting) (ht : t = s.zombie c p) : Acts v s c p t .zombie
  | allocproc (hk : (s.proc p).context = .syscall) (ht : t = s.allocproc p) :
    Acts v s c p t .allocproc
  | kalloc (ok : Bool) (np : Slot) (hk : (s.proc p).context = .kalloc np)
      (ht : t = if ok then s.goto p (.copyuvm np) else s.dropChild p np) :
    Acts v s c p t (.kalloc ok)
  | copyuvm (ok : Bool) (np : Slot) (hk : (s.proc p).context = .copyuvm np)
      (ht : t = if ok then s.goto p (.fill np) else s.dropChild p np) :
    Acts v s c p t (.copyuvm ok)
  | fill (np : Slot) (hk : (s.proc p).context = .fill np)
      (ht : t = (s.set np fun q => { q with
        sz := (s.proc p).sz, parent := some p, context := .user }).goto p (.publish np)) :
    Acts v s c p t .fill
  | publish (np : Slot) (hk : (s.proc p).context = .publish np)
      (ht : t = (s.set np fun q => { q with state := .RUNNABLE }).goto p .ret) :
    Acts v s c p t .publish
  | wait (ht : t = s.wait c p) : Acts v s c p t .wait
  | kill (pid : ℤ) (ht : t = (s.kill pid).goto p .ret) : Acts v s c p t (.kill pid)
  | set_burst_time (bt : Int32)
      (ht : t = ((s.set p fun q => { q with burst_time := bt.toInt }).goto p .ret).yield c p) :
    Acts v s c p t (.set_burst_time bt)
  | resize (sz : ℕ) (ht : t = (s.set p fun q => { q with sz := sz }).goto p .ret) :
    Acts v s c p t (.resize sz)
  | inc_cpucounter (hv : v = .g17hybrid) (ht : t = (s.set p Kernel.incCpucounter).goto p .ret) :
    Acts v s c p t .inc_cpucounter
  | dec_burstTime (hv : v = .g17hybrid) (ht : t = (s.set p Kernel.decBurstTime).goto p .ret) :
    Acts v s c p t .dec_burstTime

theorem acts {v : Variant} {t : Kernel ncpu} {a : Action} (ht : s.act v c p a = some t) :
    Acts v s c p t a := by
  unfold Kernel.act at ht
  cases a <;> cases hk : (s.proc p).context <;> rw [hk] at ht <;>
    simp only [reduceCtorEq, Option.some.injEq, Option.ite_none_right_eq_some] at ht
  case syscall.user => exact .syscall ht
  case fault.user => exact .fault ht
  case sleep.forkret n => exact .sleep n (by rw [hk]; rfl) ht.symm
  case sleep.syscall n => exact .sleep n (by rw [hk]; rfl) ht.symm
  case sleep.exit n b => exact .sleep n (by rw [hk]; rfl) ht.symm
  case ret.forkret => exact .forkret ht.symm
  case ret.syscall => exact .ret _ ht
  case ret.ret => exact .ret _ ht
  case ret.trapped => exact .ret _ ht
  case exit.syscall => exact .exit ht
  case zombie.exit b => exact .zombie (by rw [hk]; rfl) ht.symm
  case allocproc.syscall => exact .allocproc hk ht.symm
  case kalloc.kalloc ok np => exact .kalloc ok np hk ht.symm
  case copyuvm.copyuvm ok np => exact .copyuvm ok np hk ht.symm
  case fill.fill np => exact .fill np hk ht.symm
  case publish.publish np => exact .publish np hk ht.symm
  case wait.syscall => exact .wait ht.symm
  case wait.wait => exact .wait ht.symm
  case kill.syscall pid => exact .kill pid ht.symm
  case set_burst_time.syscall bt => exact .set_burst_time bt ht.symm
  case resize.syscall sz => exact .resize sz ht.symm
  case inc_cpucounter.syscall => exact .inc_cpucounter ht.1 ht.2.symm
  case dec_burstTime.syscall => exact .dec_burstTime ht.1 ht.2.symm

end Xv6Lab.Sched
