import Mathlib.Algebra.BigOperators.Group.Finset.Basic
import Mathlib.Data.Fintype.BigOperators
import Xv6Lab.Lib.Trace

/-! The log of `Part_B` (`log.c`) with what takes part in its operations: the block allocator
(`fs.c`) and the buffers (`bio.c`). Any number of processes interleave from one access of the log
or of a buffer to the next. What a process still has to do is a list of instructions; the parts of
the kernel that only use the log are free to call what they like, in any order. -/

namespace Xv6Lab.Log

def MAXOPBLOCKS : ℕ := 10
def LOGSIZE : ℕ := MAXOPBLOCKS * 3

/-- Bits in a block. -/
def BPB : ℕ := 4096

/-- The fields of the superblock that matter here. -/
structure Env where
  size : ℕ
  bmapstart : ℕ
  nlog : ℕ

/-- `BBLOCK`: the bitmap block with the bit of `b`. -/
def Env.bblock (E : Env) (b : ℕ) : ℕ := b / BPB + E.bmapstart

/-- The block is one of the bitmap. -/
def Env.inBitmap (E : Env) (b : ℕ) : Prop :=
  E.bmapstart ≤ b ∧ b < E.bmapstart + (E.size / BPB + 1)

instance (E : Env) (b : ℕ) : Decidable (E.inBitmap b) := inferInstanceAs (Decidable (_ ∧ _))

/-- The bits of a block. -/
abbrev Block := ℕ → Bool

inductive Instr
  /-- Code that uses the log, and calls what it likes until it returns. -/
  | work
  /-- The loops of `balloc`. -/
  | balloc
  /-- The rest of `balloc` with the bitmap block: set the bit, `log_write`, `brelse`. -/
  | mark (b : ℕ)
  | bzero (b : ℕ)
  /-- `bget` and `bread`: the buffer is locked from here to its `brelse`. -/
  | bget (b : ℕ)
  /-- A change to the data of a locked buffer. -/
  | store (b : ℕ)
  | logWrite (b : ℕ)
  | bwrite (b : ℕ)
  | brelse (b : ℕ)
  | bfree (b : ℕ)
  | beginOp
  | endOp
  /-- `commit`, in the `end_op` of the last operation. -/
  | commit
  | writeLog (tail : ℕ)
  | writeHead
  | installTrans (tail : ℕ)
  /-- `log.lh.n = 0; write_head()`. -/
  | clearHead
  /-- `end_op` after `commit`. -/
  | endCommit
  deriving DecidableEq, Repr

/-- Instructions of an `end_op` that commits. -/
def Instr.commits : Instr → Bool
  | .commit | .writeLog _ | .writeHead | .installTrans _ | .clearHead | .endCommit => true
  | _ => false

/-! ### Code -/

/-- `balloc` after it has found the free block `b`; its bitmap block is locked. -/
def ballocFound (b : ℕ) : List Instr := [.beginOp, .mark b, .bzero b, .endOp]

/-- One transaction: a system call, `createSwapFile`, or a round of `filewrite`. -/
def transaction : List Instr := [.beginOp, .work, .endOp]

/-- A block is changed in a transaction: `writei`, `iupdate`. -/
def update (b : ℕ) : List Instr := [.bget b, .store b, .logWrite b, .brelse b]

/-- `bmap` with the indirect block `b`. -/
def bmap (b : ℕ) : List Instr := [.bget b, .balloc, .store b, .logWrite b, .brelse b]

def bfreePage (b : ℕ) : List Instr := (List.range 8).map fun i => .bfree (b + i)

/-- A round of `write_page_to_disk`. -/
def writeBlock (b : ℕ) : List Instr := [.bget b, .store b] ++ transaction ++ [.bwrite b, .brelse b]

def writePageToDisk (b : ℕ) : List Instr :=
  transaction ++ (List.range 8).flatMap fun i => writeBlock (b + i)

/-- What code that uses the log calls. -/
inductive Call
  | transaction
  | balloc
  | update (b : ℕ)
  | bmap (b : ℕ)
  | bfree (b : ℕ)
  | bfreePage (b : ℕ)
  | writePageToDisk (b : ℕ)
  deriving DecidableEq, Repr

def Call.code : Call → List Instr
  | .transaction => Log.transaction
  | .balloc => [.balloc]
  | .update b => Log.update b
  | .bmap b => Log.bmap b
  | .bfree b => [.bfree b]
  | .bfreePage b => Log.bfreePage b
  | .writePageToDisk b => Log.writePageToDisk b

/-! ### State -/

/-- Whether a process sleeps on `&log`, and in which branch of `begin_op`. -/
inductive Wait
  | awake
  | commit
  | space
  deriving DecidableEq, Repr

structure Proc where
  code : List Instr
  wait : Wait
  deriving DecidableEq, Repr

/-- The log, the buffers and the disk. A buffer is recycled only while the disk holds the same, so
`data` is what the buffer of a block holds or would hold. -/
structure Disk (n : ℕ) where
  lh : List ℕ
  outstanding : ℤ
  committing : Bool
  /-- Who has locked the buffer of a block. -/
  holder : ℕ → Option (Fin n)
  data : ℕ → Block
  disk : ℕ → Block
  /-- The blocks of the log on disk, and the header in front of them. -/
  logged : ℕ → Block
  head : List ℕ

structure Kernel (n : ℕ) extends Disk n where
  proc : Fin n → Proc

variable {n : ℕ}

/-- The bit of block `b` in the bitmap. -/
def Disk.bit (E : Env) (s : Disk n) (b : ℕ) : Bool := s.data (E.bblock b) (b % BPB)

/-- The same on disk. -/
def Disk.diskBit (E : Env) (s : Disk n) (b : ℕ) : Bool := s.disk (E.bblock b) (b % BPB)

/-- The data of the buffer of `b` becomes `x`. -/
def Disk.setData (s : Disk n) (b : ℕ) (x : Block) : Disk n :=
  { s with data := Function.update s.data b x }

def Disk.setBit (E : Env) (s : Disk n) (b : ℕ) (v : Bool) : Disk n :=
  s.setData (E.bblock b) (Function.update (s.data (E.bblock b)) (b % BPB) v)

/-- `bwrite`. -/
def Disk.flush (s : Disk n) (b : ℕ) : Disk n :=
  { s with disk := Function.update s.disk b (s.data b) }

def Disk.lock (s : Disk n) (b : ℕ) (p : Fin n) : Disk n :=
  { s with holder := Function.update s.holder b (some p) }

def Disk.unlock (s : Disk n) (b : ℕ) : Disk n :=
  { s with holder := Function.update s.holder b none }

/-- `log_write`; `none` is one of its panics. -/
def Disk.logWrite (E : Env) (s : Disk n) (b : ℕ) : Option (Disk n) :=
  if LOGSIZE ≤ s.lh.length ∨ E.nlog - 1 ≤ s.lh.length then none
  else if s.outstanding < 1 then none
  else some { s with lh := if b ∈ s.lh then s.lh else s.lh ++ [b] }

def Kernel.goto (s : Kernel n) (p : Fin n) (code : List Instr) : Kernel n :=
  { s with proc := Function.update s.proc p { s.proc p with code := code } }

def Kernel.sleep (s : Kernel n) (p : Fin n) (w : Wait) : Kernel n :=
  { s with proc := Function.update s.proc p { s.proc p with wait := w } }

/-- `wakeup(&log)`. -/
def Kernel.wakeup (s : Kernel n) : Kernel n :=
  { s with proc := fun p => { s.proc p with wait := .awake } }

/-- The log and the buffers change while process `p` goes on to `code`. -/
def Kernel.then (s : Kernel n) (p : Fin n) (code : List Instr) (d : Disk n) : Kernel n :=
  { toDisk := d, proc := Function.update s.proc p { s.proc p with code := code } }

/-! ### Steps -/

/-- What an instruction leaves open. -/
inductive Choice
  | go
  /-- A call in `work`; the end of `work` is `go`. -/
  | call (f : Call)
  /-- The block that `balloc` finds. -/
  | pick (b : ℕ)
  /-- The new data of a buffer. -/
  | data (x : Block)
  /-- The process is woken by somebody else (`kill`). -/
  | wake

def Choice.isGo : Choice → Bool
  | .go => true
  | _ => false

/-- Instructions that work on buffers and on the header of the log. -/
def Disk.exec (E : Env) (s : Disk n) (p : Fin n) : Instr → Choice → Option (Disk n)
  | .mark b, .go =>
    ((s.setBit E b true).logWrite E (E.bblock b)).map (·.unlock (E.bblock b))
  | .bzero b, .go =>
    if s.holder b = none then (s.setData b fun _ => false).logWrite E b else none
  | .bget b, .go => if s.holder b = none then some (s.lock b p) else none
  | .store b, .data x =>
    if s.holder b = some p ∧ ¬ E.inBitmap b then some (s.setData b x) else none
  | .logWrite b, .go => if s.holder b = some p then s.logWrite E b else none
  | .bwrite b, .go => if s.holder b = some p then some (s.flush b) else none
  | .brelse b, .go => if s.holder b = some p then some (s.unlock b) else none
  | .bfree b, .go =>
    if s.holder (E.bblock b) = none ∧ s.bit E b = true then
      some ((s.setBit E b false).flush (E.bblock b))
    else none
  | _, _ => none

/-- The free block that `balloc` finds in a bitmap block: the first one. -/
def Disk.FirstFree (E : Env) (s : Disk n) (b : ℕ) : Prop :=
  b < E.size ∧ s.bit E b = false ∧ ∀ x < b, E.bblock x = E.bblock b → s.bit E x = true

instance (E : Env) (s : Disk n) (b : ℕ) : Decidable (s.FirstFree E b) :=
  inferInstanceAs (Decidable (_ ∧ _ ∧ _))

/-- One turn of the loop of `begin_op`. -/
def Kernel.beginOp (s : Kernel n) (p : Fin n) (rest : List Instr) : Kernel n :=
  if s.committing then s.sleep p .commit
  else if (LOGSIZE : ℤ) < s.lh.length + (s.outstanding + 1) * MAXOPBLOCKS then s.sleep p .space
  else s.then p rest { s.toDisk with outstanding := s.outstanding + 1 }

/-- `end_op` up to `commit`; `none` is the panic `log.committing`. -/
def Kernel.endOp (s : Kernel n) (p : Fin n) (rest : List Instr) : Option (Kernel n) :=
  if s.committing then none
  else if s.outstanding - 1 = 0 then
    some (s.then p (.commit :: rest) { s.toDisk with outstanding := 0, committing := true })
  else some (s.wakeup.then p rest { s.toDisk with outstanding := s.outstanding - 1 })

/-- `commit` and the end of `end_op`. A block is copied with both its buffers locked. -/
def Kernel.commit (s : Kernel n) (p : Fin n) (rest : List Instr) : Instr → Option (Kernel n)
  | .commit => some (s.goto p ((if 0 < s.lh.length then .writeLog 0 else .endCommit) :: rest))
  | .writeLog tail =>
    match s.lh[tail]? with
    | none => some (s.goto p (.writeHead :: rest))
    | some b =>
      if s.holder b = none then
        some (s.then p (.writeLog (tail + 1) :: rest)
          { s.toDisk with logged := Function.update s.logged tail (s.data b) })
      else none
  | .writeHead => some (s.then p (.installTrans 0 :: rest) { s.toDisk with head := s.lh })
  | .installTrans tail =>
    match s.lh[tail]? with
    | none => some (s.goto p (.clearHead :: rest))
    | some b =>
      if s.holder b = none then
        some (s.then p (.installTrans (tail + 1) :: rest) ((s.setData b (s.logged tail)).flush b))
      else none
  | .clearHead => some (s.then p (.endCommit :: rest) { s.toDisk with lh := [], head := [] })
  | .endCommit => some (s.wakeup.then p rest { s.toDisk with committing := false })
  | _ => none

/-- A step of an awake process. -/
def Kernel.run (E : Env) (s : Kernel n) (p : Fin n) : List Instr → Choice → Option (Kernel n)
  | [], _ => none
  | .work :: rest, .go => some (s.goto p rest)
  | .work :: rest, .call f => some (s.goto p (f.code ++ .work :: rest))
  | .balloc :: rest, .pick b =>
    if s.holder (E.bblock b) = none ∧ s.FirstFree E b then
      some (s.then p (ballocFound b ++ rest) (s.lock (E.bblock b) p))
    else none
  | .beginOp :: rest, .go => some (s.beginOp p rest)
  | .endOp :: rest, .go => s.endOp p rest
  | i :: rest, c =>
    if i.commits then if c.isGo then s.commit p rest i else none
    else (s.exec E p i c).map (s.then p rest)

def step (E : Env) (s : Kernel n) (a : Fin n × Choice) : Option (Kernel n) :=
  match a.2 with
  | .wake => if (s.proc a.1).wait = .awake then none else some (s.sleep a.1 .awake)
  | c => if (s.proc a.1).wait = .awake then s.run E a.1 (s.proc a.1).code c else none

abbrev Step (E : Env) (s : Kernel n) (a : Fin n × Choice) (t : Kernel n) : Prop :=
  step E s a = some t

/-- The kernel after `initlog`: the log is empty, and no buffer is locked. -/
def boot (n : ℕ) (disk : ℕ → Block) : Kernel n where
  lh := []
  outstanding := 0
  committing := false
  holder _ := none
  data := disk
  disk := disk
  logged _ _ := false
  head := []
  proc _ := ⟨[.work], .awake⟩

/-! ### Runs of small kernels -/

/-- Where the steps lead. -/
def after {n : ℕ} (E : Env) (s : Kernel n) (es : List (Fin n × Choice)) : Kernel n :=
  (es.foldlM (step E) s).getD s

/-- A file system of 1000 blocks. -/
def smallDisk : Env := ⟨1000, 58, 30⟩

/-- Its disk with the first blocks in use. -/
def inUse (blocks : ℕ) : ℕ → Block := fun b i => b = 58 && i < blocks

def callBegin {n : ℕ} (p : Fin n) : List (Fin n × Choice) := [(p, .call .transaction), (p, .go)]

def callUpdate {n : ℕ} (p : Fin n) (b : ℕ) : List (Fin n × Choice) :=
  [(p, .call (.update b)), (p, .go), (p, .data fun _ => true), (p, .go), (p, .go)]

def callEnd {n : ℕ} (p : Fin n) : List (Fin n × Choice) := [(p, .go), (p, .go)]

end Xv6Lab.Log
