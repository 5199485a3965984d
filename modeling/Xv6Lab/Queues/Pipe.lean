import Xv6Lab.Lib.Ring
import Xv6Lab.Lib.Trace

/-! Pipes (`pipe.c`): any number of processes write to a pipe and read from it. A call holds the
lock of the pipe until it sleeps or returns, so it is one step from one of these to the next. -/

namespace Xv6Lab.Queues

open Lib

def PIPESIZE : ℕ := 512

/-- `struct pipe`. -/
structure Pipe where
  data : ℕ → UInt8
  nread : BitVec 32
  nwrite : BitVec 32
  readopen : Bool
  writeopen : Bool

/-- A pipe after `pipealloc`; the page of its data is not cleared. -/
def pipealloc (data : ℕ → UInt8) : Pipe := ⟨data, 0, 0, true, true⟩

/-- `p->data[p->nwrite++ % PIPESIZE] = x`. -/
def Pipe.put (p : Pipe) (x : UInt8) : Pipe :=
  { p with
    data := Function.update p.data (p.nwrite.toNat % PIPESIZE) x
    nwrite := p.nwrite + BitVec.ofNat 32 1 }

/-- `p->data[p->nread++ % PIPESIZE]`: the byte, and the pipe afterwards. -/
def Pipe.get (p : Pipe) : UInt8 × Pipe :=
  (p.data (p.nread.toNat % PIPESIZE), { p with nread := p.nread + BitVec.ofNat 32 1 })

/-- The loop of `pipewrite` until it is done or finds the pipe full: the bytes written and those
that are left. -/
def Pipe.fill (p : Pipe) : List UInt8 → Pipe × List UInt8 × List UInt8
  | [] => (p, [], [])
  | x :: xs =>
    if p.nwrite = p.nread + BitVec.ofNat 32 PIPESIZE then (p, [], x :: xs)
    else
      let r := fill (p.put x) xs
      (r.1, x :: r.2.1, r.2.2)

/-- The loop of `piperead` that copies. -/
def Pipe.drain (p : Pipe) : ℕ → Pipe × List UInt8
  | 0 => (p, [])
  | k + 1 =>
    if p.nread = p.nwrite then (p, [])
    else
      let r := drain p.get.2 k
      (r.1, p.get.1 :: r.2)

inductive Call
  /-- `pipewrite` of `n` bytes, of which some are left. -/
  | write (n : ℕ) (left : List UInt8)
  | read (n : ℕ)
  deriving DecidableEq, Repr

def Call.isWrite : Call → Bool
  | .write _ _ => true
  | .read _ => false

/-- A process and the call of the pipe that it is in. -/
structure Proc where
  call : Option Call
  asleep : Bool
  killed : Bool
  deriving DecidableEq, Repr

structure Kernel (n : ℕ) where
  pipe : Pipe
  proc : Fin n → Proc

variable {n : ℕ}

def Kernel.setPipe (s : Kernel n) (p : Pipe) : Kernel n := { s with pipe := p }

/-- Process `p` goes on to another call, or to none. -/
def Kernel.goto (s : Kernel n) (p : Fin n) (call : Option Call) (asleep : Bool) : Kernel n :=
  { s with proc := Function.update s.proc p { s.proc p with call := call, asleep := asleep } }

/-- The process sleeps in a `pipewrite`, or in a `piperead`. -/
def Proc.sleepsIn (writes : Bool) (x : Proc) : Bool :=
  x.asleep && x.call.any (·.isWrite == writes)

/-- `wakeup(&p->nwrite)`, or `wakeup(&p->nread)`. -/
def Kernel.wakeup (s : Kernel n) (writes : Bool) : Kernel n :=
  { s with proc := fun q =>
      { s.proc q with asleep := (s.proc q).asleep && !(s.proc q).sleepsIn writes } }

/-- What a step moves through the pipe, and what the call returns if it does. -/
structure Out where
  queued : List UInt8
  taken : List UInt8
  result : Option ℤ
  deriving DecidableEq, Repr

/-- `pipewrite` from where it holds the lock. -/
def Kernel.write (s : Kernel n) (p : Fin n) (total : ℕ) (left : List UInt8) : Kernel n × Out :=
  let r := s.pipe.fill left
  let s' := s.setPipe r.1
  if r.2.2 = [] then ((s'.wakeup false).goto p none false, ⟨r.2.1, [], some total⟩)
  else if s.pipe.readopen = false ∨ (s.proc p).killed = true then
    (s'.goto p none false, ⟨r.2.1, [], some (-1)⟩)
  else ((s'.wakeup false).goto p (some (.write total r.2.2)) true, ⟨r.2.1, [], none⟩)

/-- `piperead` from where it holds the lock. -/
def Kernel.read (s : Kernel n) (p : Fin n) (k : ℕ) : Kernel n × Out :=
  if s.pipe.nread = s.pipe.nwrite ∧ s.pipe.writeopen = true then
    if (s.proc p).killed = true then (s.goto p none false, ⟨[], [], some (-1)⟩)
    else (s.goto p (some (.read k)) true, ⟨[], [], none⟩)
  else
    let r := s.pipe.drain k
    (((s.setPipe r.1).wakeup true).goto p none false, ⟨[], r.2, some r.2.length⟩)

/-- The rest of the call of a process that was woken. -/
def Kernel.resume (s : Kernel n) (p : Fin n) : Call → Kernel n × Out
  | .write total left => s.write p total left
  | .read k => s.read p k

inductive Act (n : ℕ)
  | write (p : Fin n) (bytes : List UInt8)
  | read (p : Fin n) (k : ℕ)
  | resume (p : Fin n)
  | kill (p : Fin n)
  /-- `pipeclose` of the last descriptor for writing, or for reading. -/
  | close (writes : Bool)

/-- Nobody is in a call of that kind: the caller's own descriptor keeps the end open. -/
def Kernel.unused (s : Kernel n) (writes : Bool) : Prop :=
  ∀ p, ∀ f ∈ (s.proc p).call, f.isWrite ≠ writes

instance (s : Kernel n) (writes : Bool) : Decidable (s.unused writes) :=
  inferInstanceAs (Decidable (∀ p, ∀ f ∈ (s.proc p).call, f.isWrite ≠ writes))

/-- `pipeclose`. -/
def Kernel.close (s : Kernel n) (writes : Bool) : Kernel n :=
  if writes then (s.setPipe { s.pipe with writeopen := false }).wakeup false
  else (s.setPipe { s.pipe with readopen := false }).wakeup true

/-- `kill`: the process is marked, and woken if it sleeps. -/
def Kernel.kill (s : Kernel n) (p : Fin n) : Kernel n :=
  { s with proc := Function.update s.proc p { s.proc p with killed := true, asleep := false } }

def step (s : Kernel n) : Act n → Option (Kernel n × Out)
  | .write p bytes =>
    if (s.proc p).call = none ∧ s.pipe.writeopen = true then some (s.write p bytes.length bytes)
    else none
  | .read p k =>
    if (s.proc p).call = none ∧ s.pipe.readopen = true then some (s.read p k) else none
  | .resume p =>
    if (s.proc p).asleep then none else (s.proc p).call.map (s.resume p)
  | .kill p => some (s.kill p, ⟨[], [], none⟩)
  | .close writes =>
    if s.unused writes then some (s.close writes, ⟨[], [], none⟩) else none

/-- A step with what it moves. -/
abbrev Step (s : Kernel n) (a : Act n × Out) (t : Kernel n) : Prop := step s a.1 = some (t, a.2)

def boot (n : ℕ) (data : ℕ → UInt8) : Kernel n := ⟨pipealloc data, fun _ => ⟨none, false, false⟩⟩

/-- All bytes that went into the pipe in the steps of `l`, and all that came out. -/
def queued (l : List (Kernel n × (Act n × Out))) : List UInt8 := l.flatMap (·.2.2.queued)

def taken (l : List (Kernel n × (Act n × Out))) : List UInt8 := l.flatMap (·.2.2.taken)

/-- The bytes in the pipe. -/
def Pipe.contents (p : Pipe) : List UInt8 :=
  Ring.slice PIPESIZE p.data p.nread.toNat (p.nwrite - p.nread).toNat

end Xv6Lab.Queues
