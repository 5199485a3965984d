import Xv6Lab.Reap.Machine
import Xv6Lab.Lib.Ledger

/-! The life of a process, apart from processors and locks: which phase it is in, what it
owns, and what it is doing to other processes and to pages. -/

namespace Xv6Lab.Reap

open Sched (Slot NPROC ProcState)

inductive Phase
  | free
  | embryo
  | live
  | zombie
  deriving DecidableEq, Repr

def phaseOf : ProcState → Phase
  | .UNUSED => .free
  | .EMBRYO => .embryo
  | .ZOMBIE => .zombie
  | .SLEEPING | .RUNNABLE | .RUNNING => .live

/-- A place in the kernel as far as other processes and pages are concerned. -/
def Place.job : Place → Place
  | .allocproc _ | .exec | .exit | .exitWake | .dead | .waitScan _ _ | .waitWoken | .killScan _ _
  | .panic _ => .user
  | .runnable np => .publish np
  | k => k

/-- The child that a `fork` is making. -/
def Place.child : Place → Option Slot
  | .kalloc np | .copyuvm np | .copying np _ | .freevm _ (.dropStack np) | .dropStack np
  | .dropChild np | .fill np | .publish np => some np
  | _ => none

/-- The directory that the code at this place holds besides that of its process. -/
def Place.dir : Place → Option ℕ
  | .copying _ d | .build d => some d
  | .switchuvm d | .freevm d _ => d
  | _ => none

/-- The process that a `wait` has taken out of the table and not returned yet. -/
def Place.taken : Place → Option ℕ
  | .freevm _ (.waitReturn pid) | .waitReturn pid => some pid
  | _ => none

structure View where
  phase : Phase
  pid : ℕ
  parent : Option Slot
  kstack : Option ℕ
  pgdir : Option ℕ
  job : Place

structure Life where
  view : Slot → View
  nextpid : ℕ
  nextpage : ℕ
  log : List Event

def Proc.view
    (p : Proc) : View := ⟨phaseOf p.state, p.pid, p.parent, p.kstack, p.pgdir, p.place.job⟩

def Machine.life {ncpu : ℕ} (s : Machine ncpu) : Life :=
  ⟨fun p => (s.proc p).view, s.nextpid, s.nextpage, s.log⟩

namespace Life

def put (l : Life) (p : Slot) (x : View) : Life := { l with view := Function.update l.view p x }

/-- The process turns to the job `k`. -/
def turn (l : Life) (p : Slot) (k : Place) : Life := l.put p { l.view p with job := k }

def emit (l : Life) (e : Event) : Life := { l with log := e :: l.log }

section

variable {l : Life} {p i : Slot} {x : View} {k : Place} {e : Event}

@[simp] theorem put_view : (l.put p x).view i = if i = p then x else l.view i :=
  Function.update_apply ..

@[simp] theorem put_nextpid : (l.put p x).nextpid = l.nextpid := rfl
@[simp] theorem put_nextpage : (l.put p x).nextpage = l.nextpage := rfl
@[simp] theorem put_log : (l.put p x).log = l.log := rfl

theorem turn_view : (l.turn p k).view i = { l.view i with
    job := if i = p then k else (l.view i).job } := by
  unfold turn
  rw [put_view]
  split_ifs with h
  · rw [h]
  · rfl

@[simp] theorem turn_phase : ((l.turn p k).view i).phase = (l.view i).phase := by
  rw [turn_view]

@[simp] theorem turn_pid : ((l.turn p k).view i).pid = (l.view i).pid := by
  rw [turn_view]

@[simp] theorem turn_parent : ((l.turn p k).view i).parent = (l.view i).parent := by
  rw [turn_view]

@[simp] theorem turn_kstack : ((l.turn p k).view i).kstack = (l.view i).kstack := by
  rw [turn_view]

@[simp] theorem turn_pgdir : ((l.turn p k).view i).pgdir = (l.view i).pgdir := by
  rw [turn_view]

@[simp] theorem turn_job :
    ((l.turn p k).view i).job = if i = p then k else (l.view i).job := by
  rw [turn_view]

@[simp] theorem turn_nextpid : (l.turn p k).nextpid = l.nextpid := rfl
@[simp] theorem turn_nextpage : (l.turn p k).nextpage = l.nextpage := rfl
@[simp] theorem turn_log : (l.turn p k).log = l.log := rfl

@[simp] theorem emit_view : (l.emit e).view = l.view := rfl
@[simp] theorem emit_nextpid : (l.emit e).nextpid = l.nextpid := rfl
@[simp] theorem emit_nextpage : (l.emit e).nextpage = l.nextpage := rfl
@[simp] theorem emit_log : (l.emit e).log = e :: l.log := rfl

end

/-- What a step does to the lives of the processes. -/
inductive Step (l : Life) : Life → Prop
  | take (p i : Slot) (hl : (l.view p).phase = .live) (hp : (l.view p).job = .user)
      (hi : (l.view i).phase = .free) :
      Step l { (l.put i { l.view i with phase := .embryo, pid := l.nextpid }).turn p (.kalloc i) with
        nextpid := l.nextpid + 1 }
  | stack (p i : Slot) (hp : (l.view p).job = .kalloc i) :
      Step l { (l.put i { l.view i with kstack := some l.nextpage, job := .user }).turn p (.copyuvm i)
        with nextpage := l.nextpage + 1 }
  | noStack (p i : Slot) (hp : (l.view p).job = .kalloc i) :
      Step l ((l.put i { l.view i with kstack := none }).turn p (.dropChild i))
  | setup (p i : Slot) (hp : (l.view p).job = .copyuvm i) :
      Step l { l.turn p (.copying i l.nextpage) with nextpage := l.nextpage + 1 }
  | noSetup (p i : Slot) (hp : (l.view p).job = .copyuvm i) : Step l (l.turn p (.dropStack i))
  | copied (p i : Slot) (d : ℕ) (hp : (l.view p).job = .copying i d) :
      Step l ((l.put i { l.view i with pgdir := some d }).turn p (.fill i))
  | notCopied (p i : Slot) (d : ℕ) (hp : (l.view p).job = .copying i d) :
      Step l (l.turn p (.freevm (some d) (.dropStack i)))
  | dropStack (p i : Slot) (k : ℕ) (hp : (l.view p).job = .dropStack i)
      (hk : (l.view i).kstack = some k) :
      Step l (((l.put i { l.view i with pgdir := none, kstack := none }).emit
        (.kfree (l.view p).pid none k)).turn p (.dropChild i))
  | dropChild (p i : Slot) (hp : (l.view p).job = .dropChild i) :
      Step l ((l.put i { l.view i with phase := .free }).turn p .user)
  | fill (p i : Slot) (hp : (l.view p).job = .fill i) :
      Step l ((l.put i { l.view i with parent := some p }).turn p (.publish i))
  | publish (p i : Slot) (hp : (l.view p).job = .publish i) :
      Step l (((l.put i { l.view i with phase := .live }).emit
        (.fork (l.view p).pid (l.view i).pid)).turn p .user)
  | build (p : Slot) (hl : (l.view p).phase = .live) (hp : (l.view p).job = .user) :
      Step l { l.turn p (.build l.nextpage) with nextpage := l.nextpage + 1 }
  | built (p : Slot) (d : ℕ) (hp : (l.view p).job = .build d) :
      Step l ((l.put p { l.view p with pgdir := some d }).turn p (.switchuvm (l.view p).pgdir))
  | notBuilt (p : Slot) (d : ℕ) (hp : (l.view p).job = .build d) :
      Step l (l.turn p (.freevm (some d) .user))
  | switched (p : Slot) (old : Option ℕ) (hp : (l.view p).job = .switchuvm old) :
      Step l (l.turn p (.freevm old .user))
  | freed (p : Slot) (d : ℕ) (k : After) (hp : (l.view p).job = .freevm (some d) k) :
      Step l ((l.emit (.kfree (l.view p).pid k.child d)).turn p k.place)
  | exit (p : Slot) (hl : (l.view p).phase = .live) (hp : (l.view p).job = .user)
      (h0 : p ≠ initproc) : Step l (l.turn p (.exitScan 0))
  | abandon (p i : Slot) (hp : (l.view p).job = .exitScan i) (hi : (l.view i).parent = some p) :
      Step l ((l.put i { l.view i with parent := some initproc }).turn p (.exitScan (i + 1)))
  | pass (p i : Slot) (hp : (l.view p).job = .exitScan i) (hi : (l.view i).parent ≠ some p) :
      Step l (l.turn p (.exitScan (i + 1)))
  | zombie (p : Slot) (n : ℕ) (hp : (l.view p).job = .exitScan n) (hn : NPROC ≤ n) :
      Step l ((l.put p { l.view p with phase := .zombie, job := .user }).emit
        (.exit (l.view p).pid (l.view p).kstack (l.view p).pgdir))
  /-- `wait` frees the stack of a child, while nobody else is in the loop of `exit`. -/
  | reap (p i : Slot) (k : ℕ) (hl : (l.view p).phase = .live) (hp : (l.view p).job = .user)
      (hi : (l.view i).parent = some p) (hz : (l.view i).phase = .zombie)
      (hk : (l.view i).kstack = some k) (hx : ∀ q n, (l.view q).job ≠ .exitScan n) :
      Step l (((l.put i { l.view i with kstack := none }).emit
        (.kfree (l.view p).pid (some (l.view i).pid) k)).turn p (.waitClear i))
  | clear (p i : Slot) (hp : (l.view p).job = .waitClear i)
      (hx : ∀ q n, (l.view q).job ≠ .exitScan n) :
      Step l (((l.put i { l.view i with
          phase := .free, pid := 0, parent := none, pgdir := none }).emit
        (.reap (l.view p).pid (l.view i).pid)).turn p
          (.freevm (l.view i).pgdir (.waitReturn (l.view i).pid)))
  | wait (p : Slot) (pid : ℕ) (hp : (l.view p).job = .waitReturn pid) :
      Step l ((l.emit (.wait (l.view p).pid pid)).turn p .user)

end Life

end Xv6Lab.Reap
