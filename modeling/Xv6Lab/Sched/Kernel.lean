import Xv6Lab.Lib.Trace
import Xv6Lab.Sched.Table

/-! The two kernels as a transition system. The code between an `acquire` and the
`release` of `ptable.lock` is one step, and so is each assignment to the table that is made
without the lock. -/

namespace Xv6Lab.Sched

/-- The two kernels of the assignment. -/
inductive Variant
  | g17
  | g17hybrid
  deriving DecidableEq, Repr

def QUANTA : ℤ := 2

/-- Runs on one processor name it 0. -/
instance neZeroCpu : NeZero 1 := ⟨by decide⟩

structure Kernel (ncpu : ℕ) where
  proc : Table
  nextpid : ℤ
  initproc : Slot
  /-- `cpus[c].proc`. -/
  cpu : Fin ncpu → Option Slot

/-- What the process on a processor does next. -/
inductive Action
  | syscall
  | fault
  | sleep (n : ℕ)
  | ret
  | exit
  | zombie
  | allocproc
  | kalloc (ok : Bool)
  | copyuvm (ok : Bool)
  | fill
  | publish
  | wait
  | kill (pid : ℤ)
  | set_burst_time (bt : Int32)
  | resize (sz : ℕ)
  | inc_cpucounter
  | dec_burstTime
  deriving DecidableEq, Repr

/-- A step: a `wakeup`, a timer interrupt, a pass of `scheduler`, or an action of the
process that a processor runs. -/
inductive Event (ncpu : ℕ)
  | wakeup (n : ℕ)
  | timer (c : Fin ncpu) (user : Bool)
  | scheduler (c : Fin ncpu)
  | run (c : Fin ncpu) (a : Action)
  deriving DecidableEq, Repr

namespace Kernel

variable {ncpu : ℕ}

def set (s : Kernel ncpu) (p : Slot) (f : Proc → Proc) : Kernel ncpu :=
  { s with proc := Function.update s.proc p (f (s.proc p)) }

/-- `sched`: the processor goes back to its scheduler. -/
def leave (s : Kernel ncpu) (c : Fin ncpu) : Kernel ncpu :=
  { s with cpu := Function.update s.cpu c none }

def goto (s : Kernel ncpu) (p : Slot) (k : Context) : Kernel ncpu :=
  s.set p fun q => { q with context := k }

/-- The call of `exit`, which panics for init. -/
def enterExit (s : Kernel ncpu) (p : Slot) (interruptible : Bool) : Option (Kernel ncpu) :=
  if p = s.initproc then none else some (s.goto p (.exit interruptible))

/-- The way back to user mode: a killed process exits. -/
def trapret (s : Kernel ncpu) (p : Slot) (interruptible : Bool) : Option (Kernel ncpu) :=
  if (s.proc p).killed then s.enterExit p interruptible else some (s.goto p .user)

def yield (s : Kernel ncpu) (c : Fin ncpu) (p : Slot) : Kernel ncpu :=
  (s.set p fun q => { q with state := .RUNNABLE }).leave c

def sleep (s : Kernel ncpu) (c : Fin ncpu) (p : Slot) (chan : Chan) : Kernel ncpu :=
  (s.set p fun q => { q with chan := some chan, state := .SLEEPING }).leave c

/-- One pass of `scheduler`. `none` is a null pointer read. The process resumes in
`sleep`, which clears `chan`, in `yield` or in `forkret`. -/
def scheduler (v : Variant) (s : Kernel ncpu) (c : Fin ncpu) : Option (Kernel ncpu) := do
  let (lowest_bt, _) ← scan s.proc
  match lowest_bt with
  | none => some s
  | some p =>
    some { s.set p fun q => { q with
        count_contextswitch := q.count_contextswitch + 1
        state := .RUNNING
        cpucounter := match v with
          | .g17 => q.cpucounter
          | .g17hybrid => 0
        chan := none } with cpu := Function.update s.cpu c (some p) }

def incCpucounter (p : Proc) : Proc := { p with cpucounter := p.cpucounter + 1 }

def decBurstTime (p : Proc) : Proc :=
  { p with burst_time := if p.burst_time < 0 then -1 else p.burst_time - QUANTA }

/-- The timer interrupt counts on the first processor and wakes the sleepers on `ticks`. -/
def tick (s : Kernel ncpu) (c : Fin ncpu) : Kernel ncpu :=
  if (c : ℕ) = 0 then { s with proc := s.proc.wakeup1 ticks } else s

/-- What `g17hybrid` does to the running process on a timer interrupt. A process that was
in user mode checks `killed` when it is back from `yield`. -/
def quantum (s : Kernel ncpu) (c : Fin ncpu) (p : Slot) (user : Bool) : Kernel ncpu :=
  let s := s.set p incCpucounter
  if (s.proc p).cpucounter = QUANTA then
    let s := (s.set p decBurstTime).set p fun q => { q with cpucounter := 0 }
    (if user then s.goto p .trapped else s).yield c p
  else s

/-- `trap` on a timer interrupt of processor `c`; `user` says whether it came from user
mode. -/
def timer (v : Variant) (s : Kernel ncpu) (c : Fin ncpu) (user : Bool) : Option (Kernel ncpu) :=
  let s := s.tick c
  match s.cpu c with
  | none => if user then none else some s
  | some p =>
    if !(s.proc p).context.interruptible ∨ user ∧ (s.proc p).context ≠ .user then none
    else if user ∧ (s.proc p).killed then s.enterExit p false
    else
      match v with
      | .g17 => some s
      | .g17hybrid => some (s.quantum c p user)

/-- One pass of the loop of `wait`. -/
def wait (s : Kernel ncpu) (c : Fin ncpu) (p : Slot) : Kernel ncpu :=
  match s.proc.findZombie p with
  | some q => (s.set q Proc.reap).goto p .ret
  | none =>
    if !s.proc.havekids p ∨ (s.proc p).killed then s.goto p .ret
    else (s.goto p .wait).sleep c p (.proc p)

/-- The part of `exit` under `ptable.lock`. -/
def zombie (s : Kernel ncpu) (c : Fin ncpu) (p : Slot) : Kernel ncpu :=
  let s := { s with proc := s.proc.exit s.initproc p }
  (s.set p fun q => { q with state := .ZOMBIE }).leave c

/-- The part of `allocproc` under `ptable.lock`. -/
def allocproc (s : Kernel ncpu) (p : Slot) : Kernel ncpu :=
  match s.proc.findUnused with
  | none => s.goto p .ret
  | some np => { (s.set np (Proc.take s.nextpid)).goto p (.kalloc np) with nextpid := s.nextpid + 1 }

def kill (s : Kernel ncpu) (pid : ℤ) : Kernel ncpu :=
  { s with proc := (s.proc.kill pid).2 }

/-- `fork` gives up: `np->state = UNUSED`. -/
def dropChild (s : Kernel ncpu) (p np : Slot) : Kernel ncpu :=
  (s.set np fun q => { q with state := .UNUSED }).goto p .ret

/-- The action `a` of process `p` on processor `c`, where its context allows it. -/
def act (v : Variant) (s : Kernel ncpu) (c : Fin ncpu) (p : Slot) (a : Action) :
    Option (Kernel ncpu) :=
  match a, (s.proc p).context with
  | .syscall, .user =>
    if (s.proc p).killed then s.enterExit p true else some (s.goto p .syscall)
  | .fault, .user => (s.set p fun q => { q with killed := true }).enterExit p false
  | .sleep n, .forkret | .sleep n, .syscall | .sleep n, .exit _ => some (s.sleep c p (.object n))
  | .ret, .forkret => some (s.goto p .user)
  | .ret, .syscall | .ret, .ret => s.trapret p true
  | .ret, .trapped => s.trapret p false
  | .exit, .syscall => s.enterExit p true
  | .zombie, .exit _ => some (s.zombie c p)
  | .allocproc, .syscall => some (s.allocproc p)
  | .kalloc ok, .kalloc np => some (if ok then s.goto p (.copyuvm np) else s.dropChild p np)
  | .copyuvm ok, .copyuvm np => some (if ok then s.goto p (.fill np) else s.dropChild p np)
  | .fill, .fill np => some ((s.set np fun q => { q with
      sz := (s.proc p).sz, parent := some p, context := .user }).goto p (.publish np))
  | .publish, .publish np =>
    some ((s.set np fun q => { q with state := .RUNNABLE }).goto p .ret)
  | .wait, .syscall | .wait, .wait => some (s.wait c p)
  | .kill pid, .syscall => some ((s.kill pid).goto p .ret)
  | .set_burst_time bt, .syscall =>
    some (((s.set p fun q => { q with burst_time := bt.toInt }).goto p .ret).yield c p)
  | .resize sz, .syscall => some ((s.set p fun q => { q with sz := sz }).goto p .ret)
  | .inc_cpucounter, .syscall =>
    if v = .g17hybrid then some ((s.set p incCpucounter).goto p .ret) else none
  | .dec_burstTime, .syscall =>
    if v = .g17hybrid then some ((s.set p decBurstTime).goto p .ret) else none
  | _, _ => none

def step (v : Variant) (s : Kernel ncpu) : Event ncpu → Option (Kernel ncpu)
  | .wakeup n => some { s with proc := s.proc.wakeup1 (.object n) }
  | .timer c user => s.timer v c user
  | .scheduler c => if s.cpu c = none then s.scheduler v c else none
  | .run c a => (s.cpu c).bind fun p => s.act v c p a

/-- The steps of a list, one after the other. -/
def play (v : Variant) (s : Kernel ncpu) (es : List (Event ncpu)) : Option (Kernel ncpu) :=
  es.foldlM (step v) s

/-- The machine after `userinit`: `allocproc` has taken the first slot for init. -/
def boot : Kernel ncpu where
  proc := Function.update (fun _ => Proc.zero) 0
    { Proc.zero.take 1 with sz := 4096, context := .forkret, state := .RUNNABLE }
  nextpid := 2
  initproc := 0
  cpu := fun _ => none

end Kernel

/-- `fork`, `exit`, `wait` and the rest as a relation. -/
def Step (v : Variant) {ncpu : ℕ} (s : Kernel ncpu) (e : Event ncpu) (t : Kernel ncpu) : Prop :=
  s.step v e = some t

/-- The history of a machine since boot. -/
abbrev History (v : Variant) {ncpu : ℕ} (l : List (Kernel ncpu × Event ncpu)) (s : Kernel ncpu) :
    Prop :=
  Lib.Trace (Step v) Kernel.boot l s

end Xv6Lab.Sched
