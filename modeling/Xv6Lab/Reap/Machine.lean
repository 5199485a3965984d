import Xv6Lab.Lib.Trace
import Xv6Lab.Sched.Table

/-! Creation, exit and reaping of processes in `Part_B` (`proc.c`, with what `exec.c` and
`vm.c` do to page directories). Processors interleave from one access of the process
table to the next; `ptable.lock` is a field that names its holder. A page that `kalloc`
hands out has a number of its own, so a page that is handed out once more counts as
another page. -/

namespace Xv6Lab.Reap

open Sched (Slot NPROC ProcState Chan)

/-- `initproc`: `userinit` takes the first slot of the table. -/
def initproc : Slot := 0

/-- Where `freevm` returns to. -/
inductive After
  | user
  /-- The failed `copyuvm` of a `fork` into slot `np`. -/
  | dropStack (np : Slot)
  /-- A `wait` that returns `pid`. -/
  | waitReturn (pid : ℕ)
  deriving DecidableEq, Repr

/-- Where in the kernel a process is. -/
inductive Place
  /-- User mode, and all of the kernel that leaves processes and directories alone. -/
  | user
  /-- The loop of `allocproc`, under the lock. -/
  | allocproc (i : ℕ)
  | kalloc (np : Slot)
  /-- `copyuvm`, before `setupkvm` and after it. -/
  | copyuvm (np : Slot)
  | copying (np : Slot) (d : ℕ)
  /-- `fork` gives up: `kfree(np->kstack)`, then `np->state = UNUSED`. -/
  | dropStack (np : Slot)
  | dropChild (np : Slot)
  | fill (np : Slot)
  | publish (np : Slot)
  /-- `np->state = RUNNABLE`, under the lock. -/
  | runnable (np : Slot)
  /-- `exec`, before `setupkvm` and after it. -/
  | exec
  | build (d : ℕ)
  /-- `exec` has replaced the directory `old`. -/
  | switchuvm (old : Option ℕ)
  | freevm (d : Option ℕ) (k : After)
  /-- `exit`, before it acquires the lock; then, under the lock, its `wakeup1` and its loop. -/
  | exit
  | exitWake
  | exitScan (i : ℕ)
  | dead
  /-- The loop of `wait`, under the lock. -/
  | waitScan (i : ℕ) (havekids : Bool)
  /-- `wait` has freed the kernel stack of the child. -/
  | waitClear (i : Slot)
  /-- Back from the `sleep` of `wait`, under the lock. -/
  | waitWoken
  | waitReturn (pid : ℕ)
  /-- The loop of `kill`, under the lock. -/
  | killScan (pid i : ℕ)
  | panic (msg : String)
  deriving DecidableEq, Repr

/-- What lies between a process and its `Place`. -/
inductive Detour
  | straight
  /-- `release(&ptable.lock)`; a new process starts here, in `forkret`. -/
  | release
  /-- `yield`, under the lock. -/
  | yield
  /-- `sleep` on another object, under the lock. -/
  | sleep (n : ℕ)
  /-- Back from `sched` in `sleep`. -/
  | woken
  deriving DecidableEq, Repr

/-- `struct proc`. The size, the trap frame, the files and the name are left out. -/
structure Proc where
  state : ProcState
  pid : ℕ
  parent : Option Slot
  kstack : Option ℕ
  pgdir : Option ℕ
  chan : Option Chan
  killed : Bool
  detour : Detour
  place : Place
  deriving DecidableEq, Repr

/-- A slot of the zeroed table. -/
def Proc.zero : Proc := ⟨.UNUSED, 0, none, none, none, none, false, .straight, .user⟩

/-- Where a processor is. -/
inductive Core
  /-- `scheduler`, before it acquires the lock. -/
  | idle
  /-- The loop of `scheduler`, under the lock. -/
  | scan (i : ℕ)
  | run (p : Slot)
  /-- Back in `scheduler` from `swtch`. -/
  | back (p : Slot)
  | panic (msg : String)
  deriving DecidableEq, Repr

/-- A processor; `cr3` is `none` for `kpgdir`. -/
structure Cpu where
  core : Core
  cr3 : Option ℕ
  deriving DecidableEq, Repr

/-- What has happened; processes go by their pids. -/
inductive Event
  | fork (parent child : ℕ)
  /-- A process becomes a ZOMBIE, with this stack and this directory. -/
  | exit (pid : ℕ) (kstack pgdir : Option ℕ)
  /-- `kfree`, called by process `caller`, in the `wait` that reaps `child` if there is one. -/
  | kfree (caller : ℕ) (child : Option ℕ) (page : ℕ)
  /-- A `wait` empties the slot of `child`. -/
  | reap (caller child : ℕ)
  /-- A `wait` returns `child`. -/
  | wait (caller child : ℕ)
  deriving DecidableEq, Repr

structure Machine (ncpu : ℕ) where
  proc : Slot → Proc
  nextpid : ℕ
  /-- The number of the page that `kalloc` hands out next. -/
  nextpage : ℕ
  /-- The holder of `ptable.lock`. -/
  lock : Option (Fin ncpu)
  cpu : Fin ncpu → Cpu
  /-- What has happened so far, the latest first. -/
  log : List Event

/-- The system calls that concern processes. -/
inductive Call
  | fork
  | exec
  | exit
  | wait
  | kill (pid : ℕ)
  deriving DecidableEq, Repr

/-- What a processor does next. -/
inductive Action
  /-- The next step of the scheduler. -/
  | sched
  /-- The next step of the process; `ok` says whether an allocation in it succeeds. -/
  | step (ok : Bool)
  /-- The process makes a system call, or exits because it has been killed. -/
  | call (f : Call)
  /-- The timer interrupts the process. -/
  | timer
  /-- The process goes to sleep, for the disk or another object. -/
  | doze (n : ℕ)
  deriving DecidableEq, Repr

/-- A step of processor `c`, or a `wakeup` by a device or a process. -/
inductive Label (ncpu : ℕ)
  | on (c : Fin ncpu) (a : Action)
  | wakeup (n : ℕ)
  deriving DecidableEq, Repr

/-- The code at this place holds `ptable.lock`. -/
def Place.locked : Place → Bool
  | .allocproc _ | .runnable _ | .exitWake | .exitScan _ | .waitScan _ _ | .waitClear _ | .waitWoken
  | .killScan _ _ => true
  | _ => false

/-- The process holds `ptable.lock` when it runs. -/
def Proc.locked (p : Proc) : Bool :=
  match p.detour with
  | .straight => p.place.locked
  | _ => true

/-- Interrupts are on, and the process may sleep. -/
def Proc.interruptible (p : Proc) : Bool :=
  !p.locked &&
    match p.place with
    | .dead | .panic _ => false
    | _ => true

/-- The child that the `wait` around a `freevm` reaps. -/
def After.child : After → Option ℕ
  | .waitReturn pid => some pid
  | _ => none

def After.place : After → Place
  | .user => .user
  | .dropStack np => .dropStack np
  | .waitReturn pid => .waitReturn pid

namespace Machine

variable {ncpu : ℕ}

def set (s : Machine ncpu) (p : Slot) (f : Proc → Proc) : Machine ncpu :=
  { s with proc := Function.update s.proc p (f (s.proc p)) }

def goto (s : Machine ncpu) (p : Slot) (k : Place) : Machine ncpu :=
  s.set p fun q => { q with place := k }

/-- The lock is released on the way to `k`. -/
def unlockTo (s : Machine ncpu) (p : Slot) (k : Place) : Machine ncpu :=
  s.set p fun q => { q with detour := .release, place := k }

def emit (s : Machine ncpu) (e : Event) : Machine ncpu := { s with log := e :: s.log }

/-- The number of a new page is `s.nextpage`. -/
def takePage (s : Machine ncpu) : Machine ncpu := { s with nextpage := s.nextpage + 1 }

def setCore (s : Machine ncpu) (c : Fin ncpu) (k : Core) : Machine ncpu :=
  { s with cpu := Function.update s.cpu c { s.cpu c with core := k } }

def setCr3 (s : Machine ncpu) (c : Fin ncpu) (d : Option ℕ) : Machine ncpu :=
  { s with cpu := Function.update s.cpu c { s.cpu c with cr3 := d } }

/-- `acquire(&ptable.lock)`, which spins while the lock is held. -/
def acquire (s : Machine ncpu) (c : Fin ncpu) : Option (Machine ncpu) :=
  if s.lock = none then some { s with lock := some c } else none

def release (s : Machine ncpu) : Machine ncpu := { s with lock := none }

def wakeup1 (s : Machine ncpu) (chan : Chan) : Machine ncpu :=
  { s with proc := fun p =>
      if (s.proc p).state = .SLEEPING ∧ (s.proc p).chan = some chan then
        { s.proc p with state := .RUNNABLE }
      else s.proc p }

/-! ### The scheduler -/

/-- `scheduler` finds slot `p` RUNNABLE: `switchuvm`, `p->state = RUNNING`, `swtch`. -/
def dispatch (s : Machine ncpu) (c : Fin ncpu) (p : Slot) : Machine ncpu :=
  if (s.proc p).kstack = none then s.setCore c (.panic "switchuvm: no kstack")
  else if (s.proc p).pgdir = none then s.setCore c (.panic "switchuvm: no pgdir")
  else ((s.setCr3 c (s.proc p).pgdir).set p fun q => { q with state := .RUNNING }).setCore c (.run p)

def schedStep (s : Machine ncpu) (c : Fin ncpu) : Option (Machine ncpu) :=
  match (s.cpu c).core with
  | .idle => (s.acquire c).map (·.setCore c (.scan 0))
  | .scan i =>
    if h : i < NPROC then
      if (s.proc ⟨i, h⟩).state = .RUNNABLE then some (s.dispatch c ⟨i, h⟩)
      else some (s.setCore c (.scan (i + 1)))
    else some (s.release.setCore c .idle)
  | .back p => some ((s.setCr3 c none).setCore c (.scan (p + 1)))
  | .run _ | .panic _ => none

/-! ### The process -/

/-- One round of the loop of `allocproc`. -/
def allocStep (s : Machine ncpu) (p : Slot) (i : ℕ) : Machine ncpu :=
  if h : i < NPROC then
    if (s.proc ⟨i, h⟩).state = .UNUSED then
      { (s.set ⟨i, h⟩ fun q => { q with state := .EMBRYO, pid := s.nextpid }).unlockTo p
          (.kalloc ⟨i, h⟩) with nextpid := s.nextpid + 1 }
    else s.goto p (.allocproc (i + 1))
  else s.unlockTo p .user

/-- `exit`, for each child: it is passed to init. -/
def abandon (s : Machine ncpu) (p i : Slot) : Machine ncpu :=
  if (s.proc i).parent = some p then
    let t := s.set i fun q => { q with parent := some initproc }
    if (s.proc i).state = .ZOMBIE then t.wakeup1 (.proc initproc) else t
  else s

/-- The end of `exit`: `curproc->state = ZOMBIE` and `sched`. -/
def zombie (s : Machine ncpu) (c : Fin ncpu) (p : Slot) : Machine ncpu :=
  ((s.set p fun q => { q with state := .ZOMBIE, place := .dead }).emit
    (.exit (s.proc p).pid (s.proc p).kstack (s.proc p).pgdir)).setCore c (.back p)

/-- One round of the loop of `wait`. -/
def waitStep (s : Machine ncpu) (c : Fin ncpu) (p : Slot) (i : ℕ) (havekids : Bool) :
    Machine ncpu :=
  if h : i < NPROC then
    if (s.proc ⟨i, h⟩).parent ≠ some p then s.goto p (.waitScan (i + 1) havekids)
    else if (s.proc ⟨i, h⟩).state = .ZOMBIE then
      match (s.proc ⟨i, h⟩).kstack with
      | some k =>
        ((s.set ⟨i, h⟩ fun q => { q with kstack := none }).emit
          (.kfree (s.proc p).pid (some (s.proc ⟨i, h⟩).pid) k)).goto p (.waitClear ⟨i, h⟩)
      | none => s.goto p (.panic "kfree")
    else s.goto p (.waitScan (i + 1) true)
  else if !havekids ∨ (s.proc p).killed then s.unlockTo p .user
  else (s.set p fun q => { q with
    chan := some (.proc p), state := .SLEEPING, place := .waitWoken }).setCore c (.back p)

/-- `wait` empties the slot of the child. -/
def waitClear (s : Machine ncpu) (p i : Slot) : Machine ncpu :=
  ((s.set i fun q => { q with
      pgdir := none, pid := 0, parent := none, killed := false, state := .UNUSED }).emit
    (.reap (s.proc p).pid (s.proc i).pid)).unlockTo p
      (.freevm (s.proc i).pgdir (.waitReturn (s.proc i).pid))

/-- One round of the loop of `kill`. -/
def killStep (s : Machine ncpu) (p : Slot) (pid i : ℕ) : Machine ncpu :=
  if h : i < NPROC then
    if (s.proc ⟨i, h⟩).pid = pid then
      (s.set ⟨i, h⟩ fun q => { q with
        killed := true
        state := if q.state = .SLEEPING then .RUNNABLE else q.state }).unlockTo p .user
    else s.goto p (.killScan pid (i + 1))
  else s.unlockTo p .user

/-- The next step of process `p` on processor `c`, past `detour`. -/
def placeStep (s : Machine ncpu) (c : Fin ncpu) (p : Slot) (ok : Bool) : Option (Machine ncpu) :=
  match (s.proc p).place with
  | .user | .dead | .panic _ => none
  | .allocproc i => some (s.allocStep p i)
  | .kalloc np =>
    if ok then
      -- the context of the new process starts in `forkret`
      some ((s.set np fun q => { q with
        kstack := some s.nextpage, detour := .release, place := .user }).takePage.goto p
          (.copyuvm np))
    else some ((s.set np fun q => { q with kstack := none }).goto p (.dropChild np))
  | .copyuvm np =>
    if ok then some (s.takePage.goto p (.copying np s.nextpage))
    else some (s.goto p (.dropStack np))
  | .copying np d =>
    if ok then some ((s.set np fun q => { q with pgdir := some d }).goto p (.fill np))
    else some (s.goto p (.freevm (some d) (.dropStack np)))
  | .dropStack np =>
    match (s.proc np).kstack with
    | some k =>
      some (((s.set np fun q => { q with pgdir := none, kstack := none }).emit
        (.kfree (s.proc p).pid none k)).goto p (.dropChild np))
    | none => some (s.goto p (.panic "kfree"))
  | .dropChild np => some ((s.set np fun q => { q with state := .UNUSED }).goto p .user)
  | .fill np => some ((s.set np fun q => { q with parent := some p }).goto p (.publish np))
  | .publish np => (s.acquire c).map (·.goto p (.runnable np))
  | .runnable np =>
    some (((s.set np fun q => { q with state := .RUNNABLE }).emit
      (.fork (s.proc p).pid (s.proc np).pid)).unlockTo p .user)
  | .exec =>
    if ok then some (s.takePage.goto p (.build s.nextpage)) else some (s.goto p .user)
  | .build d =>
    if ok then
      some ((s.set p fun q => { q with pgdir := some d }).goto p (.switchuvm (s.proc p).pgdir))
    else some (s.goto p (.freevm (some d) .user))
  | .switchuvm old =>
    if (s.proc p).kstack = none then some (s.goto p (.panic "switchuvm: no kstack"))
    else if (s.proc p).pgdir = none then some (s.goto p (.panic "switchuvm: no pgdir"))
    else some ((s.setCr3 c (s.proc p).pgdir).goto p (.freevm old .user))
  | .freevm none _ => some (s.goto p (.panic "freevm: no pgdir"))
  | .freevm (some d) k =>
    -- the pages and the tables of the directory are free, and now the directory
    some ((s.emit (.kfree (s.proc p).pid k.child d)).goto p k.place)
  | .exit => (s.acquire c).map (·.goto p .exitWake)
  | .exitWake =>
    match (s.proc p).parent with
    | some q => some ((s.wakeup1 (.proc q)).goto p (.exitScan 0))
    | none => some (s.goto p (.exitScan 0))
  | .exitScan i =>
    if h : i < NPROC then some ((s.abandon p ⟨i, h⟩).goto p (.exitScan (i + 1)))
    else some (s.zombie c p)
  | .waitScan i havekids => some (s.waitStep c p i havekids)
  | .waitClear i => some (s.waitClear p i)
  | .waitWoken => some (s.set p fun q => { q with chan := none, place := .waitScan 0 false })
  | .waitReturn pid => some ((s.emit (.wait (s.proc p).pid pid)).goto p .user)
  | .killScan pid i => some (s.killStep p pid i)

def procStep (s : Machine ncpu) (c : Fin ncpu) (p : Slot) (ok : Bool) : Option (Machine ncpu) :=
  match (s.proc p).detour with
  | .straight => s.placeStep c p ok
  | .release => some (s.release.set p fun q => { q with detour := .straight })
  | .yield =>
    some ((s.set p fun q => { q with state := .RUNNABLE, detour := .release }).setCore c (.back p))
  | .sleep n =>
    some ((s.set p fun q => { q with
      chan := some (.object n), state := .SLEEPING, detour := .woken }).setCore c (.back p))
  | .woken => some (s.set p fun q => { q with chan := none, detour := .release })

/-- The start of a system call. -/
def enter (s : Machine ncpu) (c : Fin ncpu) (p : Slot) : Call → Option (Machine ncpu)
  | .fork => (s.acquire c).map (·.goto p (.allocproc 0))
  | .exec => some (s.goto p .exec)
  | .exit => some (s.goto p (if p = initproc then .panic "init exiting" else .exit))
  | .wait => (s.acquire c).map (·.goto p (.waitScan 0 false))
  | .kill pid => (s.acquire c).map (·.goto p (.killScan pid 0))

def act (s : Machine ncpu) (c : Fin ncpu) (p : Slot) : Action → Option (Machine ncpu)
  | .sched => none
  | .step ok => s.procStep c p ok
  | .call f =>
    if (s.proc p).detour = .straight ∧ (s.proc p).place = .user then s.enter c p f else none
  | .timer =>
    if (s.proc p).interruptible then
      (s.acquire c).map (·.set p fun q => { q with detour := .yield })
    else none
  | .doze n =>
    if (s.proc p).interruptible then
      (s.acquire c).map (·.set p fun q => { q with detour := .sleep n })
    else none

def step (s : Machine ncpu) : Label ncpu → Option (Machine ncpu)
  | .wakeup n => if s.lock = none then some (s.wakeup1 (.object n)) else none
  | .on c a =>
    match (s.cpu c).core with
    | .run p => s.act c p a
    | _ => if a = .sched then s.schedStep c else none

/-- The machine after `userinit`. -/
def boot : Machine ncpu where
  proc := Function.update (fun _ => Proc.zero) initproc { Proc.zero with
    state := .RUNNABLE, pid := 1, kstack := some 0, pgdir := some 1, detour := .release }
  nextpid := 2
  nextpage := 2
  lock := none
  cpu := fun _ => ⟨.idle, none⟩
  log := []

end Machine

/-- One step of the machine. -/
def Step {ncpu : ℕ} (s : Machine ncpu) (l : Label ncpu) (t : Machine ncpu) : Prop :=
  s.step l = some t

/-- The steps taken since boot. -/
abbrev History {ncpu : ℕ} (l : List (Machine ncpu × Label ncpu)) (s : Machine ncpu) : Prop :=
  Lib.Trace Step Machine.boot l s

end Xv6Lab.Reap
