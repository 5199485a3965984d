import Mathlib.Logic.Function.Basic
import Xv6Lab.Calls.Caller
import Xv6Lab.Disk.Tables

/-! Open files, cached inodes and the log (`file.c`, `fs.c`, `log.c`), as one system call uses
them while no other process runs: where the code would sleep, the call stops. An inode is
updated on disk whenever its cached copy changes, so that one copy stands for both, and a
commit leaves everything as it is. -/

namespace Xv6Lab.Calls

open Disk

abbrev Byte := BitVec 8

def NOFILE : ℕ := 16
def ROOTINO : ℕ := 1

structure Inode where
  type : InodeType
  nlink : ℕ
  major : ℕ
  data : List Byte

/-- An entry of the inode cache, free when `ref` is 0. `lock` is the pid of the process that
holds the sleep lock. -/
structure CachedInode where
  inum : ℕ
  ref : ℕ
  valid : Bool
  lock : Option ℕ

/-- An entry of the file table, free when `ref` is 0; `ip` is an index into the inode cache. -/
structure File where
  type : FileType
  ref : ℕ
  readable : Bool
  writable : Bool
  ip : Fin NINODE
  off : Word

abbrev Ftable := Fin NFILE → File

structure Log where
  outstanding : ℤ
  committing : Bool

structure Kernel where
  caller : Caller
  pid : ℕ
  cwd : Fin NINODE
  ofile : Fin NOFILE → Option (Fin NFILE)
  ftable : Ftable
  icache : Fin NINODE → CachedInode
  inode : ℕ → Inode
  /-- The entries of a directory: names and inode numbers. -/
  entries : ℕ → List (List Char × ℕ)
  log : Log

inductive Halt
  | panic (msg : String)
  /-- The call waits for another process. -/
  | sleep
  deriving DecidableEq

abbrev K := StateT Kernel (Except Halt)

/-- What the model leaves open. -/
structure Env where
  /-- `log.lh.n + (log.outstanding+1)*MAXOPBLOCKS > LOGSIZE`. -/
  logFull : Kernel → Bool
  /-- `devsw[major].read`: the bytes it delivers, or -1. -/
  devread : ℕ → Option (Kernel → Word → Option (List Byte))
  pipeclose : File → K Unit
  piperead : File → Word → Word → K ℤ

namespace Kernel

def setFile (s : Kernel) (f : Fin NFILE) (x : File) : Kernel :=
  { s with ftable := Function.update s.ftable f x }

def setCached (s : Kernel) (j : Fin NINODE) (x : CachedInode) : Kernel :=
  { s with icache := Function.update s.icache j x }

def setInode (s : Kernel) (i : ℕ) (x : Inode) : Kernel :=
  { s with inode := Function.update s.inode i x }

def setFd (s : Kernel) (fd : Fin NOFILE) (x : Option (Fin NFILE)) : Kernel :=
  { s with ofile := Function.update s.ofile fd x }

def setLog (s : Kernel) (x : Log) : Kernel := { s with log := x }

/-- The inode of a cache entry. -/
def inodeOf (s : Kernel) (j : Fin NINODE) : Inode := s.inode (s.icache j).inum

/-- `memmove` into the memory of the process. -/
def store (s : Kernel) (dst : Word) (bs : List Byte) : Kernel :=
  { s with caller.mem := fun a => (bs[(a - dst).toNat]?).getD (s.caller.mem a) }

end Kernel

instance : Panics Kernel Halt := ⟨.panic⟩

instance : Icache Kernel where
  inum s j := (s.icache j).inum
  ref s j := (s.icache j).ref
  dup s j := s.setCached j { s.icache j with ref := (s.icache j).ref + 1 }
  recycle s j inum := s.setCached j { s.icache j with inum := inum, ref := 1, valid := false }

instance : Disk.Ftable Kernel where
  ref s f := (s.ftable f).ref
  take s f := s.setFile f { s.ftable f with ref := 1 }

/-! ### The log -/

def begin_op (E : Env) : K Unit := do
  let s ← get
  if s.log.committing ∨ E.logFull s then throw .sleep
  else modify fun s => s.setLog { s.log with outstanding := s.log.outstanding + 1 }

def end_op : K Unit := do
  modify fun s => s.setLog { s.log with outstanding := s.log.outstanding - 1 }
  let s ← get
  if s.log.committing then throw (.panic "log.committing")
  else if s.log.outstanding = 0 then do
    modify fun s => s.setLog { s.log with committing := true }
    modify fun s => s.setLog { s.log with committing := false }
  else pure ()

/-! ### Inodes -/

def acquiresleep (j : Fin NINODE) : K Unit := do
  let s ← get
  match (s.icache j).lock with
  | some _ => throw .sleep
  | none => modify fun s => s.setCached j { s.icache j with lock := some s.pid }

def releasesleep (j : Fin NINODE) : K Unit :=
  modify fun s => s.setCached j { s.icache j with lock := none }

def ilock (j : Fin NINODE) : K Unit := do
  let s ← get
  if (s.icache j).ref < 1 then throw (.panic "ilock")
  else do
    acquiresleep j
    let s ← get
    if (s.icache j).valid then pure ()
    else do
      modify fun s => s.setCached j { s.icache j with valid := true }
      if (s.inodeOf j).type = .free then throw (.panic "ilock: no type") else pure ()

def iunlock (j : Fin NINODE) : K Unit := do
  let s ← get
  if (s.icache j).lock ≠ some s.pid ∨ (s.icache j).ref < 1 then throw (.panic "iunlock")
  else releasesleep j

/-- Drop a reference; an inode without links is truncated and freed with its last one. -/
def iput (j : Fin NINODE) : K Unit := do
  acquiresleep j
  let s ← get
  if (s.icache j).valid ∧ (s.inodeOf j).nlink = 0 ∧ (s.icache j).ref = 1 then do
    modify fun s => s.setInode (s.icache j).inum { s.inodeOf j with type := .free, data := [] }
    modify fun s => s.setCached j { s.icache j with valid := false }
  releasesleep j
  modify fun s => s.setCached j { s.icache j with ref := (s.icache j).ref - 1 }

def iunlockput (j : Fin NINODE) : K Unit := do
  iunlock j
  iput j

/-- Read `n` bytes at `off` into the memory of the process at `dst`; the result may be -1. -/
def readi (E : Env) (j : Fin NINODE) (dst off n : Word) : K ℤ := do
  let s ← get
  let x := s.inodeOf j
  if x.type = .T_DEV then
    match E.devread x.major with
    | none => pure (-1)
    | some read =>
      match read s n with
      | none => pure (-1)
      | some bs => do
        modify (·.store dst bs)
        pure bs.length
  else if x.data.length < off.toNat ∨ off + n < off then pure (-1)
  else do
    let bs := (x.data.drop off.toNat).take n.toNat
    modify (·.store dst bs)
    pure bs.length

/-! ### Paths -/

/-- The elements of a path, cut to `DIRSIZ`. -/
def elements (path : List Char) : List (List Char) :=
  ((path.splitOn '/').filter (· ≠ [])).map (·.take DIRSIZ)

def dirlookup (dp : Fin NINODE) (name : List Char) : K (Option (Fin NINODE)) := do
  let s ← get
  match (s.entries (s.icache dp).inum).find? fun e => e.1 = name with
  | none => pure none
  | some e => do
    let ip ← iget e.2
    pure (some ip)

/-- The loop of `namex`; `none` is the null pointer. -/
def namexLoop : List (List Char) → Fin NINODE → K (Option (Fin NINODE))
  | [], ip => pure (some ip)
  | name :: names, ip => do
    ilock ip
    let s ← get
    if (s.inodeOf ip).type ≠ .T_DIR then do
      iunlockput ip
      pure none
    else
      match ← dirlookup ip name with
      | none => do
        iunlockput ip
        pure none
      | some next => do
        iunlockput ip
        namexLoop names next

def namei (path : List Char) : K (Option (Fin NINODE)) := do
  let s ← get
  let ip ← if path.head? = some '/' then iget ROOTINO else idup s.cwd
  namexLoop (elements path) ip

/-! ### Files -/

def filedup (f : Fin NFILE) : K (Fin NFILE) := do
  let s ← get
  if (s.ftable f).ref < 1 then throw (.panic "filedup")
  else do
    modify fun s => s.setFile f { s.ftable f with ref := (s.ftable f).ref + 1 }
    pure f

def fileclose (E : Env) (f : Fin NFILE) : K Unit := do
  let s ← get
  let ff := s.ftable f
  if ff.ref < 1 then throw (.panic "fileclose")
  else if 0 < ff.ref - 1 then modify (·.setFile f { ff with ref := ff.ref - 1 })
  else do
    modify (·.setFile f { ff with ref := 0, type := .FD_NONE })
    match ff.type with
    | .FD_PIPE => E.pipeclose ff
    | .FD_INODE => do
      begin_op E
      iput ff.ip
      end_op
    | .FD_NONE => pure ()

def fileread (E : Env) (f : Fin NFILE) (addr n : Word) : K ℤ := do
  let s ← get
  let file := s.ftable f
  if file.readable = false then pure (-1)
  else
    match file.type with
    | .FD_PIPE => E.piperead file addr n
    | .FD_INODE => do
      ilock file.ip
      let r ← readi E file.ip addr file.off n
      if 0 < r then
        modify fun s => s.setFile f { s.ftable f with off := file.off + BitVec.ofInt 32 r }
      iunlock file.ip
      pure r
    | .FD_NONE => throw (.panic "fileread")

/-- A descriptor for the given file. -/
def fdalloc (f : Fin NFILE) : K (Option (Fin NOFILE)) := do
  let s ← get
  match findIndex fun fd => s.ofile fd = none with
  | none => pure none
  | some fd => do
    modify (·.setFd fd (some f))
    pure (some fd)

/-- `sys_wolfie`. -/
def sysWolfie (E : Env) : K ℤ := do
  let s ← get
  match s.caller.argint 1#32 with
  | none => pure (-1)
  | some n =>
    match s.caller.argptr 0#32 n with
    | none => pure (-1)
    | some buf =>
      if n.toInt < 7461 then pure (-1)
      else do
        begin_op E
        match ← namei "wolfie_ascii.txt".toList with
        | none => do
          end_op
          pure (-1)
        | some ip => do
          ilock ip
          match ← filealloc with
          | none => do
            iunlockput ip
            end_op
            pure (-1)
          | some f =>
            match ← fdalloc f with
            | none => do
              fileclose E f
              iunlockput ip
              end_op
              pure (-1)
            | some fd => do
              iunlock ip
              end_op
              modify fun s => s.setFile f { s.ftable f with
                type := .FD_INODE, ip := ip, off := 0#32, readable := true, writable := false }
              let bytesRead ← fileread E f buf n
              modify (·.setFd fd none)
              fileclose E f
              pure bytesRead

end Xv6Lab.Calls
