import Xv6Lab.Disk.Tables
import Mathlib.Data.BitVec
import Mathlib.Data.Fin.Basic
import Mathlib.Logic.Function.Basic
import Mathlib.Tactic.NormNum

/-! The file system below the swap area (`fs.c`, `file.c`, `bio.c`), used by one
process at a time. A block is what its buffer holds, whether the buffer is written
to disk directly or through the log. An inode is updated on disk whenever its cached
copy changes, so that one copy stands for both; the cache keeps reference counts.
The entries of a directory are kept apart from its blocks. Devices and pipes are
left out. -/

namespace Xv6Lab.Files

open Disk

abbrev Word := BitVec 32
abbrev Byte := BitVec 8

/-- The contents of a block. -/
abbrev Data := Fin 512 → Byte

instance neZeroBytes : NeZero 512 := ⟨by decide⟩

def BSIZE : ℕ := 512
def NDIRECT : ℕ := 12
def NINDIRECT : ℕ := 128
def MAXFILE : ℕ := NDIRECT + NINDIRECT

/-- An inode; `addrs 12` is the indirect block, and 0 stands for no block. -/
structure Inode where
  type : InodeType
  nlink : ℕ
  size : ℕ
  addrs : Fin 13 → ℕ

/-- An entry of the inode cache, free when `ref` is 0; `valid` once it was locked. -/
structure CachedInode where
  inum : ℕ
  ref : ℕ
  valid : Bool

/-- An entry of the file table; `ip` is an index into the inode cache. -/
structure File where
  type : FileType
  ref : ℕ
  readable : ℕ
  writable : ℕ
  ip : Fin NINODE
  off : ℕ

structure Fs where
  /-- `sb.size` and `sb.ninodes`. -/
  size : ℕ
  ninodes : ℕ
  bit : ℕ → Bool
  block : ℕ → Data
  inode : ℕ → Inode
  /-- The entries of a directory: names and inode numbers. -/
  entries : ℕ → List (List Char × ℕ)
  icache : Fin NINODE → CachedInode
  ftable : Fin NFILE → File
  cwd : Fin NINODE

/-- A function of the file system: it may change the state, and it may panic. -/
abbrev F := StateT Fs (Except String)

namespace Fs

@[simps -fullyApplied] def setBit (s : Fs) (b : ℕ) (v : Bool) : Fs :=
  { s with bit := Function.update s.bit b v }

@[simps -fullyApplied] def setBlock (s : Fs) (b : ℕ) (d : Data) : Fs :=
  { s with block := Function.update s.block b d }

@[simps -fullyApplied] def setInode (s : Fs) (i : ℕ) (x : Inode) : Fs :=
  { s with inode := Function.update s.inode i x }

@[simps -fullyApplied] def setCached (s : Fs) (j : Fin NINODE) (x : CachedInode) : Fs :=
  { s with icache := Function.update s.icache j x }

def setValid (s : Fs) (j : Fin NINODE) (v : Bool) : Fs :=
  s.setCached j { s.icache j with valid := v }

@[simps -fullyApplied] def setFile (s : Fs) (f : Fin NFILE) (x : File) : Fs :=
  { s with ftable := Function.update s.ftable f x }

/-- Address `k` of inode `i`. -/
def addr (s : Fs) (i : ℕ) (k : Fin 13) : ℕ := (s.inode i).addrs k

def setAddr (s : Fs) (i : ℕ) (k : Fin 13) (b : ℕ) : Fs :=
  s.setInode i { s.inode i with addrs := Function.update (s.inode i).addrs k b }

end Fs

instance : Panics Fs String := ⟨fun msg => msg⟩

instance : Bitmap Fs := ⟨Fs.bit, Fs.setBit, fun s b => s.setBlock b fun _ => 0#8⟩

instance : Icache Fs where
  inum s j := (s.icache j).inum
  ref s j := (s.icache j).ref
  dup s j := s.setCached j { s.icache j with ref := (s.icache j).ref + 1 }
  recycle s j inum := s.setCached j ⟨inum, 1, false⟩

instance : Ftable Fs where
  ref s f := (s.ftable f).ref
  take s f := s.setFile f { s.ftable f with ref := 1 }

/-! ### Blocks -/

/-- Allocate a zeroed disk block. -/
def balloc : F ℕ := do
  let s ← get
  Disk.balloc s.size

/-- The word at index `k` of a block, low byte first. -/
def Data.word (d : Data) (k : ℕ) : ℕ :=
  ((List.range 4).map fun i => (d (Fin.ofNat 512 (4 * k + i))).toNat * 2 ^ (8 * i)).sum

def Data.setWord (d : Data) (k w : ℕ) : Data := fun j =>
  if j.val / 4 = k then BitVec.ofNat 8 (w / 2 ^ (8 * (j.val % 4))) else d j

/-- The `bn`th block of inode `ip`, allocated if there is none. -/
def bmap (ip bn : ℕ) : F ℕ :=
  if h : bn < NDIRECT then do
    let s ← get
    let k : Fin 13 := ⟨bn, h.trans (by decide)⟩
    if s.addr ip k = 0 then do
      let addr ← balloc
      modify (·.setAddr ip k addr)
      pure addr
    else pure (s.addr ip k)
  else if bn - NDIRECT < NINDIRECT then do
    let s ← get
    if s.addr ip 12 = 0 then do
      let addr ← balloc
      modify (·.setAddr ip 12 addr)
    let s ← get
    let addr := s.addr ip 12
    if (s.block addr).word (bn - NDIRECT) = 0 then do
      let b ← balloc
      modify fun s => s.setBlock addr ((s.block addr).setWord (bn - NDIRECT) b)
      pure b
    else pure ((s.block addr).word (bn - NDIRECT))
  else throw "bmap: out of range"

/-- Free the listed blocks, leaving out the zeros. -/
def bfreeAddrs : List ℕ → F Unit
  | [] => pure ()
  | b :: bs => do
    if b ≠ 0 then bfree b
    bfreeAddrs bs

/-- Discard the contents of an inode. -/
def itrunc (ip : ℕ) : F Unit := do
  let s ← get
  let x := s.inode ip
  bfreeAddrs ((List.range 12).map fun k => x.addrs (Fin.ofNat 13 k))
  if x.addrs 12 ≠ 0 then do
    bfreeAddrs ((List.range NINDIRECT).map (s.block (x.addrs 12)).word)
    bfree (x.addrs 12)
  modify (·.setInode ip { x with size := 0, addrs := fun _ => 0 })

/-! ### Reading and writing -/

/-- The loop of `readi`: `left` bytes from offset `off` on. Every round reads a byte
or more, so `fuel = left` rounds are enough. -/
def readiLoop (ip : ℕ) : (fuel left off : ℕ) → F (List Byte)
  | 0, _, _ => pure []
  | fuel + 1, left, off =>
    if left = 0 then pure []
    else do
      let b ← bmap ip (off / BSIZE)
      let s ← get
      let m := min left (BSIZE - off % BSIZE)
      let bytes := (List.range m).map fun k => s.block b (Fin.ofNat 512 (off % BSIZE + k))
      let rest ← readiLoop ip fuel (left - m) (off + m)
      pure (bytes ++ rest)

/-- Read `n` bytes at `off`; `none` is the result -1. -/
def readi (ip off n : ℕ) : F (Option (List Byte)) := do
  let s ← get
  let x := s.inode ip
  if x.type = .T_DEV then throw "devsw"
  else if x.size < off ∨ 2 ^ 32 ≤ off + n then pure none
  else do
    let n := if x.size < off + n then x.size - off else n
    let bytes ← readiLoop ip n n off
    pure (some bytes)

/-- The loop of `writei`: `left` bytes of `src` to offset `off`, `tot` being done. -/
def writeiLoop (ip : ℕ) (src : ℕ → Byte) : (fuel left off tot : ℕ) → F Unit
  | 0, _, _, _ => pure ()
  | fuel + 1, left, off, tot =>
    if left = 0 then pure ()
    else do
      let b ← bmap ip (off / BSIZE)
      let m := min left (BSIZE - off % BSIZE)
      modify fun s => s.setBlock b fun j =>
        if off % BSIZE ≤ j.val ∧ j.val < off % BSIZE + m then src (tot + (j.val - off % BSIZE))
        else s.block b j
      writeiLoop ip src fuel (left - m) (off + m) (tot + m)

/-- Write `n` bytes of `src` at `off`; `none` is the result -1. -/
def writei (ip : ℕ) (src : ℕ → Byte) (off n : ℕ) : F (Option ℕ) := do
  let s ← get
  if (s.inode ip).type = .T_DEV then throw "devsw"
  else if (s.inode ip).size < off ∨ 2 ^ 32 ≤ off + n then pure none
  else if MAXFILE * BSIZE < off + n then pure none
  else do
    writeiLoop ip src n n off 0
    let s ← get
    if 0 < n ∧ (s.inode ip).size < off + n then
      modify (·.setInode ip { s.inode ip with size := off + n })
    pure (some n)

/-! ### The inode cache -/

/-- Lock a cached inode, the first time with a look at its type; the lock itself is not
modelled. -/
def ilock (j : Fin NINODE) : F Unit := do
  let s ← get
  if (s.icache j).ref < 1 then throw "ilock"
  else if (s.icache j).valid then pure ()
  else do
    modify (·.setValid j true)
    if (s.inode (s.icache j).inum).type = .free then throw "ilock: no type"

/-- Drop a reference, which the caller has; an inode without links that was locked since it came
into the cache is freed with its last reference. -/
def iput (j : Fin NINODE) : F Unit := do
  let s ← get
  let inum := (s.icache j).inum
  if (s.icache j).valid ∧ (s.inode inum).nlink = 0 ∧ (s.icache j).ref = 1 then do
    itrunc inum
    modify fun s => s.setInode inum { s.inode inum with type := .free }
    modify (·.setValid j false)
  modify fun s => s.setCached j { s.icache j with ref := (s.icache j).ref - 1 }

/-- First free inode among the `n` from `inum` on. -/
def freeInode (s : Fs) : (n inum : ℕ) → Option ℕ
  | 0, _ => none
  | n + 1, inum => if (s.inode inum).type = .free then some inum else freeInode s n (inum + 1)

def ialloc (type : InodeType) : F (Fin NINODE) := do
  let s ← get
  match freeInode s (s.ninodes - 1) 1 with
  | none => throw "ialloc: no inodes"
  | some inum => do
    modify (·.setInode inum ⟨type, 0, 0, fun _ => 0⟩)
    iget inum

/-! ### Directories and files -/

/-- What the model leaves open. -/
structure Env where
  /-- Whether the directory takes a new block for one more entry. -/
  dirGrows : Fs → Bool

/-- The parent of a path with one element, and the element cut to `DIRSIZ`. -/
def nameiparent (path : List Char) : F (Option (Fin NINODE × List Char)) := do
  let s ← get
  let dp ← idup s.cwd
  ilock dp
  if (s.inode (s.icache dp).inum).type = .T_DIR then pure (some (dp, path.take DIRSIZ))
  else do
    iput dp
    pure none

def dirlookup (dp : Fin NINODE) (name : List Char) : F (Option (Fin NINODE)) := do
  let s ← get
  match (s.entries (s.icache dp).inum).find? fun e => e.1 = name with
  | none => pure none
  | some e => do
    let ip ← iget e.2
    pure (some ip)

/-- Write a new entry; `false` is the result -1. -/
def dirlink (E : Env) (dp : Fin NINODE) (name : List Char) (inum : ℕ) : F Bool := do
  match ← dirlookup dp name with
  | some ip => do
    iput ip
    pure false
  | none => do
    let s ← get
    if E.dirGrows s then do
      let _ ← balloc
    let d := (s.icache dp).inum
    modify fun s => { s with entries := Function.update s.entries d (s.entries d ++ [(name, inum)]) }
    pure true

/-- `create(path, T_FILE, 0, 0)`; `none` is the null pointer. -/
def create (E : Env) (path : List Char) : F (Option (Fin NINODE)) := do
  match ← nameiparent path with
  | none => pure none
  | some (dp, name) => do
    ilock dp
    match ← dirlookup dp name with
    | some ip => do
      iput dp
      ilock ip
      let s ← get
      if (s.inode (s.icache ip).inum).type = .T_FILE then pure (some ip)
      else do
        iput ip
        pure none
    | none => do
      let ip ← ialloc .T_FILE
      ilock ip
      let s ← get
      let inum := (s.icache ip).inum
      modify fun s => s.setInode inum { s.inode inum with nlink := 1 }
      if ← dirlink E dp name inum then do
        iput dp
        pure (some ip)
      else throw "create: dirlink"

/-- The loop of `filewrite` from byte `i` of `addr` on; every round writes a byte or
more. -/
def filewriteLoop (f : Fin NFILE) (addr : ℕ → Byte) (n : ℕ) : (fuel i : ℕ) → F (Option ℕ)
  | 0, i => pure (if i = n then some n else none)
  | fuel + 1, i =>
    if i < n then do
      let s ← get
      let n1 := min (n - i) 1536  -- ((MAXOPBLOCKS - 1 - 1 - 2) / 2) * 512
      let file := s.ftable f
      match ← writei (s.icache file.ip).inum (fun k => addr (i + k)) file.off n1 with
      | none => pure none
      | some r => do
        modify fun s => s.setFile f { s.ftable f with off := file.off + r }
        if r ≠ n1 then throw "short filewrite" else filewriteLoop f addr n fuel (i + r)
    else pure (if i = n then some n else none)

/-- Write `n` bytes of `addr` to the file `f`; `none` is the result -1. -/
def filewrite (f : Fin NFILE) (addr : ℕ → Byte) (n : ℕ) : F (Option ℕ) := do
  let s ← get
  if (s.ftable f).writable = 0 then pure none
  else match (s.ftable f).type with
    | .FD_PIPE => throw "pipewrite"
    | .FD_INODE => filewriteLoop f addr n (n + 1) 0
    | .FD_NONE => throw "filewrite"

/-! ### Writing a page out -/

/-- The second loop of `itoa`: the digits of `n`, last one first, before `acc`. -/
def itoaLoop : (fuel n : ℕ) → List Char → List Char
  | 0, _, acc => acc
  | fuel + 1, n, acc =>
    let acc := Char.ofNat (48 + n % 10) :: acc
    if n / 10 = 0 then acc else itoaLoop fuel (n / 10) acc

def itoa (n : ℕ) : List Char := itoaLoop (n + 1) n []

/-- The swap file of page frame number `x` of process `pid`, open for writing. -/
def createSwapFile (E : Env) (pid x : ℕ) : F (Fin NFILE) := do
  match ← create E (itoa pid ++ '_' :: itoa x) with
  | none => throw "iunlock"
  | some ip => do
    match ← filealloc with
    | none => throw "no slot for files on store"
    | some f => do
      modify fun s => s.setFile f ⟨.FD_INODE, (s.ftable f).ref, 1, 2, ip, 0⟩
      pure f

structure Spinlock where
  locked : Word
  name : Word
  cpu : Word
  pcs : Fin 10 → Word

structure Sleeplock where
  locked : Word
  lk : Spinlock
  name : Word
  pid : Word

/-- The fields of `struct buf` before `data`. -/
structure BufHeader where
  flags : Word
  dev : Word
  blockno : Word
  lock : Sleeplock
  refcnt : Word
  prev : Word
  next : Word
  qnext : Word

/-- The header of a buffer as it lies in memory. -/
def BufHeader.words (h : BufHeader) : List Word :=
  [h.flags, h.dev, h.blockno, h.lock.locked, h.lock.lk.locked, h.lock.lk.name, h.lock.lk.cpu] ++
    List.ofFn h.lock.lk.pcs ++ [h.lock.name, h.lock.pid, h.refcnt, h.prev, h.next, h.qnext]

/-- `offsetof(struct buf, data)`. -/
def DATAOFF : ℕ := 92

def BufHeader.byte (h : BufHeader) (k : ℕ) : Byte :=
  ((h.words.getD (k / 4) 0#32) >>> (8 * (k % 4))).setWidth 8

/-- Byte `k` of `struct buf` in memory: the header, then the data. -/
def bufByte (h : BufHeader) (d : Data) (k : ℕ) : Byte :=
  if k < DATAOFF then h.byte k else d (Fin.ofNat 512 (k - DATAOFF))

/-- What the buffer cache holds beside the data, while part `i` of a page is written:
`bget` has set `dev` and `blockno` and taken the lock, the rest is open. -/
def bget (cache : Fin 8 → BufHeader) (blk : ℕ) (i : Fin 8) : BufHeader :=
  { cache i with
    dev := 1#32, blockno := BitVec.ofNat 32 (blk + i)
    lock := { (cache i).lock with locked := 1#32 } }

/-- The loop of `write_page_to_disk` over the parts `is` of the page `pg`. -/
def writeParts (cache : Fin 8 → BufHeader) (towrite : Fin NFILE) (pg : Fin 8 → Data) (blk : ℕ) :
    List (Fin 8) → F Unit
  | [] => pure ()
  | i :: is => do
    let buffer := bget cache blk i
    modify fun s => s.setFile towrite { s.ftable towrite with off := i * BSIZE }
    modify (·.setBlock (blk + i) (pg i))
    -- the address written is that of the buffer, not of its data
    let _ ← filewrite towrite (bufByte buffer (pg i)) 512
    writeParts cache towrite pg blk is

/-- `write_page_to_disk`; the result is the file. -/
def writePageToDisk (E : Env) (cache : Fin 8 → BufHeader) (pg : Fin 8 → Data) (blk pid x : ℕ) :
    F (Fin NFILE) := do
  let towrite ← createSwapFile E pid x
  writeParts cache towrite pg blk (List.finRange 8)
  pure towrite

/-! ### A page out and in -/

/-- Allocate eight consecutive blocks; the blocks tried before are freed. -/
def ballocPage : F ℕ := do
  let s ← get
  let alloc ← ballocPageLoop s.size (s.size + 1) 0 []
  bfreeAll (alloc.drop 8).reverse
  pure (alloc.getD 7 0)

/-- What `swap_page_from_pte` does to the file system; the result is the block that
goes into the page-table entry. -/
def swapPageFromPte (E : Env) (cache : Fin 8 → BufHeader) (pg : Fin 8 → Data) (pid x : ℕ) : F ℕ := do
  let blk ← ballocPage
  let _ ← writePageToDisk E cache pg blk pid x
  pure blk

/-- What bringing the page back does to the file system: its blocks are freed. -/
def swapIn (blk : ℕ) : F Unit := bfreeAll ((List.range 8).map (blk + ·))

end Xv6Lab.Files
