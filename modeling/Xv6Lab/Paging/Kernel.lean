import Xv6Lab.Lib.Wp
import Xv6Lab.Paging.Mmu
import Mathlib.Data.List.Perm.Basic
import Mathlib.Logic.Function.Basic
import Mathlib.Tactic.Simps.Basic

/-! The state of the paging kernel when it runs one kernel entry at a time:
physical memory with the page tables in it, the free list, the disk blocks with
their free bit map, the counter of swapped pages and the process table.
`kalloc.c` is not part of the sources, so an environment says which free frame
`kalloc` hands out and what `kfree` leaves in a page. The file layer (`create`,
`filewrite`, `iput`) enters through what it does to disk blocks: it allocates
blocks, frees blocks that inodes name, and writes to those and to metadata. -/

namespace Xv6Lab.Paging

/-- The 512 bytes of a disk block as 128 little-endian words. -/
abbrev Block := Fin 128 → Word

/-- Index of a process in the process table. -/
abbrev Slot := Fin 64

instance neZeroSlots : NeZero 64 := ⟨by decide⟩

inductive ProcState
  | UNUSED | EMBRYO | SLEEPING | RUNNABLE | RUNNING | ZOMBIE
  deriving DecidableEq

/-- The fields of `struct proc` that address spaces depend on. `pgdir` and
`kstack` are frame numbers, 0 standing for the null pointer. -/
structure Proc where
  state : ProcState
  pid : ℕ
  parent : Option Slot
  pgdir : ℕ
  kstack : ℕ
  sz : ℕ

structure Kernel where
  mem : ℕ → Page
  freelist : List ℕ
  /-- The free bit map: `true` marks a block in use. -/
  bit : ℕ → Bool
  block : ℕ → Block
  numallocblocks : ℤ
  /-- The data and indirect blocks that inodes name. -/
  files : List ℕ
  kpgdir : ℕ
  proc : Slot → Proc
  nextpid : ℕ
  initproc : Slot

/-- Why a kernel entry does not return. -/
inductive Halt
  | panic (msg : String)
  /-- The kernel touches an address that no page fault can make accessible. -/
  | fault
  /-- A null page-table-entry pointer is followed (`Env.strict` only). -/
  | nullPte
  /-- Not a request that a process or the file layer can make. -/
  | illegal
  deriving DecidableEq

/-- A kernel function: it may change the state, and it may not return. -/
abbrev K := StateT Kernel (Except Halt)

/-- The calls of the paging code into the file layer. -/
inductive FsCall
  | createSwapFile (pid pfn : ℕ)
  | filewrite (part : ℕ)
  | exec (pid : ℕ)
  | exit (pid : ℕ)

/-- What the file layer does to disk blocks. -/
inductive FileAct
  | balloc
  | bfree (b : ℕ)
  | write (b : ℕ) (data : Block)

def FSSIZE : ℕ := 128000

structure Env where
  /-- First frame after the kernel image. -/
  kend : ℕ
  /-- First frame of the kernel's data. -/
  kdata : ℕ
  /-- `sb.size`. -/
  size : ℕ
  /-- Number of metadata blocks at the start of the disk. -/
  nmeta : ℕ
  /-- First block that `mkfs` left free. -/
  used : ℕ
  /-- Position in the free list of the frame that `kalloc` hands out. -/
  pick : List ℕ → ℕ
  /-- What `kfree` makes of the contents of a frame. -/
  fill : ℕ → Page → Page
  inode : Kernel → FsCall → List FileAct
  /-- Stop at a null entry pointer instead of following it. -/
  strict : Bool
  kdata_gt : EXTMEM / PGSIZE < kdata
  kdata_lt : kdata < kend
  /-- The kernel image leaves room for the first address spaces. -/
  kend_le : kend + 32 ≤ NFRAMES
  size_le : size ≤ FSSIZE
  nmeta_le : nmeta ≤ used

/-- The same machine, stopped where a null entry pointer is followed. -/
def Env.stopAtNull (E : Env) : Env := { E with strict := true }

namespace Kernel

@[simps -fullyApplied] def setFrame (s : Kernel) (f : ℕ) (p : Page) : Kernel :=
  { s with mem := Function.update s.mem f p }

@[simps! -fullyApplied] def setWord (s : Kernel) (f : ℕ) (i : Fin 1024) (w : Word) : Kernel :=
  s.setFrame f (Function.update (s.mem f) i w)

@[simps -fullyApplied] def setBit (s : Kernel) (b : ℕ) (v : Bool) : Kernel :=
  { s with bit := Function.update s.bit b v }

@[simps -fullyApplied] def setBlock (s : Kernel) (b : ℕ) (data : Block) : Kernel :=
  { s with block := Function.update s.block b data }

@[simps -fullyApplied] def setProc (s : Kernel) (p : Slot) (x : Proc) : Kernel :=
  { s with proc := Function.update s.proc p x }

end Kernel

/-! ### Physical pages -/

/-- `kalloc`: take a frame off the free list; `none` is the null pointer. -/
def kalloc (E : Env) : K (Option ℕ) := do
  let s ← get
  if h : s.freelist = [] then pure none
  else
    let i := E.pick s.freelist % s.freelist.length
    have : i < s.freelist.length := Nat.mod_lt _ (List.length_pos_iff.mpr h)
    modify fun s => { s with freelist := s.freelist.eraseIdx i }
    pure (some s.freelist[i])

/-- `kfree(P2V(frame))`. -/
def kfree (E : Env) (f : ℕ) : K Unit :=
  if f < E.kend ∨ NFRAMES ≤ f then throw (.panic "kfree in kalloc.c")
  else modify fun s => { s.setFrame f (E.fill f (s.mem f)) with freelist := f :: s.freelist }

/-- A pointer to an entry: the frame of the table and the index in it. -/
abbrev PtePtr := ℕ × Fin 1024

def setFrame (f : ℕ) (p : Page) : K Unit := modify (·.setFrame f p)

def readPte (p : PtePtr) : K Word := do pure ((← get).mem p.1 p.2)

def writePte (p : PtePtr) (w : Word) : K Unit := modify (·.setWord p.1 p.2 w)

/-! ### What a page directory says about page `v` -/

/-- `walkpgdir` without allocation. -/
def Kernel.lookup (s : Kernel) (pgdir va : ℕ) : Option PtePtr :=
  let pde := s.mem pgdir (PDX va)
  if present pde then some (PTE_ADDR pde, PTX va) else none

/-- The entry of page number `v`, zero where there is no page table. -/
def Kernel.pte (s : Kernel) (pgdir v : ℕ) : Word :=
  let pde := s.mem pgdir (pdx v)
  if present pde then s.mem (PTE_ADDR pde) (ptx v) else 0#32

/-- The 4096 bytes in the eight blocks from `b` on. -/
def Kernel.readPage (s : Kernel) (b : ℕ) : Page := fun k =>
  s.block (b + k.val / 128) ⟨k.val % 128, Nat.mod_lt _ (by norm_num)⟩

/-- What page `v` of an address space holds: its frame, its swap blocks, or zeros. -/
def Kernel.content (s : Kernel) (pgdir v : ℕ) : Page :=
  let w := s.pte pgdir v
  if present w then s.mem (PTE_ADDR w)
  else if swapped w then s.readPage (PTE_ADDR w)
  else fun _ => 0#32

/-! ### The null entry pointer -/

/-- Follow an entry pointer. The null pointer is the user address 0 of the
current address space, so following it reads the first word of user page 0; if
that page is not present the kernel faults again on address 0. -/
def loadPte (E : Env) (pgdir : ℕ) : Option PtePtr → K Word
  | some p => readPte p
  | none => do
    if E.strict then throw .nullPte
    else
      let s ← get
      if present (s.pte pgdir 0) then pure (s.mem (PTE_ADDR (s.pte pgdir 0)) 0) else throw .fault

/-- Assign through an entry pointer. -/
def storePte (E : Env) (pgdir : ℕ) : Option PtePtr → Word → K Unit
  | some p, w => writePte p w
  | none, w => do
    if E.strict then throw .nullPte
    else
      let s ← get
      if present (s.pte pgdir 0) then writePte (PTE_ADDR (s.pte pgdir 0), 0) w else throw .fault

end Xv6Lab.Paging
