import Mathlib.Algebra.GroupWithZero.Nat
import Mathlib.Algebra.Ring.Int.Defs
import Mathlib.Data.Fin.Basic
import Mathlib.Data.List.FinRange
import Mathlib.Logic.Function.Basic
import Mathlib.Tactic.Common

/-! The process table of the `g17` and `g17hybrid` kernels and what the code does to it
while it holds `ptable.lock`. A pointer to a `struct proc` is the index of its slot. -/

namespace Xv6Lab.Sched

def NPROC : ℕ := 64

instance : NeZero NPROC := ⟨by decide⟩

abbrev Slot := Fin NPROC

inductive ProcState
  | UNUSED | EMBRYO | SLEEPING | RUNNABLE | RUNNING | ZOMBIE
  deriving DecidableEq, Repr

/-- The address a process sleeps on: a slot of the table (`wait` sleeps on the caller's
own) or another kernel object. -/
inductive Chan
  | proc (p : Slot)
  | object (n : ℕ)
  deriving DecidableEq, Repr

/-- The channel `&ticks`. -/
def ticks : Chan := .object 0

/-- The saved context of a process: where in the kernel it is, outside the code that
runs under `ptable.lock`. A process that a timer interrupt has taken out of user mode is
`trapped`, and `exit` runs with interrupts on if a system call has led to it. -/
inductive Context
  | user
  | forkret
  | syscall
  | ret
  | trapped
  | kalloc (np : Slot)
  | copyuvm (np : Slot)
  | fill (np : Slot)
  | publish (np : Slot)
  | wait
  | exit (interruptible : Bool)
  deriving DecidableEq, Repr

/-- The process has called `exit`. -/
def Context.exiting : Context → Bool
  | .exit _ => true
  | _ => false

/-- The process can take an interrupt. -/
def Context.interruptible : Context → Bool
  | .trapped => false
  | .exit b => b
  | _ => true

/-- `struct proc`. The stack, the page directory, the files and the name are left out. -/
structure Proc where
  sz : ℕ
  state : ProcState
  pid : ℤ
  parent : Option Slot
  context : Context
  chan : Option Chan
  killed : Bool
  count_contextswitch : ℤ
  burst_time : ℤ
  cpucounter : ℤ
  deriving DecidableEq, Repr

/-- A slot of the zeroed table. -/
def Proc.zero : Proc := ⟨0, .UNUSED, 0, none, .user, none, false, 0, 0, 0⟩

abbrev Table := Slot → Proc

/-- `struct processInfo`. -/
structure ProcessInfo where
  ppid : ℤ
  psize : ℕ
  numberContextSwitches : ℤ
  deriving DecidableEq, Repr

namespace Table

variable (t : Table)

/-- The loop of `allocproc`. -/
def findUnused : Option Slot :=
  (List.finRange NPROC).find? fun p => (t p).state = .UNUSED

/-- The loops of `kill` and `getProcInfo`, which compare `pid` only. -/
def findPid (pid : ℤ) : Option Slot :=
  (List.finRange NPROC).find? fun p => (t p).pid = pid

def wakeup1 (chan : Chan) : Table := fun p =>
  if (t p).state = .SLEEPING ∧ (t p).chan = some chan then { t p with state := .RUNNABLE }
  else t p

/-- One round of the loop of `exit` that passes abandoned children to init. -/
def abandon1 (initproc curproc : Slot) (p : Slot) : Table :=
  if (t p).parent = some curproc then
    let t' : Table := Function.update t p { t p with parent := some initproc }
    if (t p).state = .ZOMBIE then t'.wakeup1 (.proc initproc) else t'
  else t

def abandon (initproc curproc : Slot) : Table :=
  (List.finRange NPROC).foldl (fun t p => abandon1 t initproc curproc p) t

/-- What `exit` does to the table before the caller becomes a ZOMBIE. -/
def exit (initproc curproc : Slot) : Table :=
  let t' := match (t curproc).parent with
    | some q => t.wakeup1 (.proc q)
    | none => t
  t'.abandon initproc curproc

def kill (pid : ℤ) : ℤ × Table :=
  match t.findPid pid with
  | some p => (0, Function.update t p { t p with
      killed := true
      state := if (t p).state = .SLEEPING then .RUNNABLE else (t p).state })
  | none => (-1, t)

def getNumProc : ℤ :=
  (List.finRange NPROC).foldl (fun cnt p => if (t p).state = .UNUSED then cnt else cnt + 1) 0

def getMaxPid : ℤ :=
  (List.finRange NPROC).foldl (fun max_pid p => if (t p).pid > max_pid then (t p).pid else max_pid)
    (-1)

/-- `atNull` is the word that a null `p->parent` finds in the place of its `pid`. -/
def getProcInfo (atNull : ℤ) (pid : ℤ) : ℤ × Option ProcessInfo :=
  match t.findPid pid with
  | some p => (0, some {
      ppid := match (t p).parent with
        | some q => (t q).pid
        | none => atNull
      psize := (t p).sz
      numberContextSwitches := (t p).count_contextswitch })
  | none => (-1, none)

/-- The child that a pass of `wait` finds. -/
def findZombie (curproc : Slot) : Option Slot :=
  (List.finRange NPROC).find? fun p => (t p).parent = some curproc ∧ (t p).state = .ZOMBIE

def havekids (curproc : Slot) : Bool :=
  (List.finRange NPROC).any fun p => (t p).parent = some curproc

end Table

def INT_MAX : ℤ := 2 ^ 31 - 1

/-- One round of the selection loop of `scheduler`, with `lowest_bt` and `currentMin`.
`none` is a null pointer read. -/
def scanStep (t : Table) (acc : Option Slot × ℤ) (p1 : Slot) : Option (Option Slot × ℤ) :=
  if (t p1).state ≠ .RUNNABLE then some acc
  else if (t p1).burst_time < acc.2 then some (some p1, (t p1).burst_time)
  else
    acc.1.map fun lowest_bt =>
      if (t p1).pid < (t lowest_bt).pid ∧ (t p1).burst_time = acc.2 then (some p1, acc.2) else acc

/-- The selection loop of `scheduler`. -/
def scan (t : Table) : Option (Option Slot × ℤ) :=
  (List.finRange NPROC).foldlM (scanStep t) (none, INT_MAX)

/-- What `allocproc` writes into the slot it takes. -/
def Proc.take (pid : ℤ) (p : Proc) : Proc :=
  { p with state := .EMBRYO, pid := pid, count_contextswitch := 0, burst_time := 0 }

/-- What `wait` writes into the slot of the child it has found. -/
def Proc.reap (p : Proc) : Proc :=
  { p with pid := 0, parent := none, killed := false, state := .UNUSED }

end Xv6Lab.Sched
