import Xv6Lab.Disk.Tables
import Xv6Lab.Paging.Kernel

/-! Disk blocks (`fs.c`, `bio.c`): the block allocator, the eight-block groups of
the swap area, and the copies between a frame and a group. The entry runs alone,
so a buffer is read and written as the block it caches. -/

namespace Xv6Lab.Paging

open Disk

instance : Panics Kernel Halt := ⟨.panic⟩

instance : Bitmap Kernel := ⟨Kernel.bit, Kernel.setBit, fun s b => s.setBlock b fun _ => 0#32⟩

/-- Allocate eight consecutive blocks; the blocks tried before are freed. The list of the blocks
tried is `alloc_b`, a local array of 400000 bytes; that the kernel stack is smaller is left out. -/
def ballocPage (size : ℕ) : K ℕ := do
  let alloc ← ballocPageLoop size (size + 1) 0 []
  bfreeAll (alloc.drop 8).reverse
  modify fun s => { s with numallocblocks := s.numallocblocks + 1 }
  pure (alloc.getD 7 0)

/-- The blocks of the group at `b`. -/
def group (b : ℕ) : List ℕ := (List.range 8).map (b + ·)

/-- Free the group at `b`. -/
def bfreePage (b : ℕ) : K Unit := do
  bfreeAll (group b)
  modify fun s => { s with numallocblocks := s.numallocblocks - 1 }

/-- `read_page_from_disk(ROOTDEV, P2V(frame), blk)`. -/
def readPageFromDisk (frame blk : ℕ) : K Unit := modify fun s => s.setFrame frame (s.readPage blk)

/-! ### The file layer -/

def fileAct (E : Env) : FileAct → K Unit
  | .balloc => do
    let b ← balloc E.size
    modify fun s => { s with files := b :: s.files }
  | .bfree b => do
    let s ← get
    if b ∈ s.files then do
      modify fun s => { s with files := s.files.erase b }
      bfree b
    else throw .illegal
  | .write b data => do
    let s ← get
    if b ∈ s.files ∨ b < E.nmeta then modify (·.setBlock b data) else throw .illegal

def fileActs (E : Env) : List FileAct → K Unit
  | [] => pure ()
  | a :: as => do
    fileAct E a
    fileActs E as

def fileLayer (E : Env) (c : FsCall) : K Unit := do
  let s ← get
  fileActs E (E.inode s c)

/-! ### Writing a page out -/

/-- Part `i` of a page, the contents of one block. -/
def part (p : Page) (i : Fin 8) : Block := fun k => p ⟨128 * i.val + k.val, by omega⟩

/-- The loop of `write_page_to_disk` over the parts `ps`: the buffer takes its
part of the page, the swap file is written while the buffer is held, then the
buffer goes to its block. -/
def writeParts (E : Env) (frame blk : ℕ) : List (Fin 8) → K Unit
  | [] => pure ()
  | i :: is => do
    let s ← get
    let buffer := part (s.mem frame) i
    fileLayer E (.filewrite i)
    modify (·.setBlock (blk + i) buffer)
    writeParts E frame blk is

/-- `write_page_to_disk(ROOTDEV, P2V(frame), blk, pid, pte)`, `pfn` being
`*pte >> 12`, which names the swap file. -/
def writePageToDisk (E : Env) (frame blk pid pfn : ℕ) : K Unit := do
  fileLayer E (.createSwapFile pid pfn)
  writeParts E frame blk (List.finRange 8)

end Xv6Lab.Paging
