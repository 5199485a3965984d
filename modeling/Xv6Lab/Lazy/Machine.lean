import Xv6Lab.Paging.Bytes
import Xv6Lab.Paging.Vm

/-! Lazy page allocation (`Part_A`: `sysproc.c`, `trap.c`, `vm.c`) beside the eager
scheme that it replaces. A page directory is a tree: an entry is absent or names a page
table, which has a frame and 1024 words. The machine runs one process; `kalloc.c` is
not part of the sources, so an environment says which free frame `kalloc` hands out
and what `kfree` leaves in a page. -/

namespace Xv6Lab.Lazy

open Paging (Word Page Byte PGSIZE KERNBASE UVPN PGROUNDDOWN PTE_ADDR PTE_P PTE_W PTE_U V2P
  present writable user faults pdx ptx npages nextTable byteAt setByte)

/-- A page table and the frame that it takes up. -/
structure PageTable where
  frame : ℕ
  entry : Fin 1024 → Word

structure Machine where
  mem : ℕ → Page
  freelist : List ℕ
  pgdir : Fin 1024 → Option PageTable
  /-- `myproc()->sz`, an unsigned 32-bit number. -/
  sz : ℕ

inductive Halt
  | panic (msg : String)
  /-- The kernel touches an address that no page fault can make accessible. -/
  | fault
  /-- The process is killed for an access. -/
  | killed
  /-- The access faults again after the handler has returned. -/
  | refault
  deriving DecidableEq

abbrev K := StateT Machine (Except Halt)

structure Env where
  /-- First frame after the kernel image. -/
  kend : ℕ
  /-- Frames below the top of physical memory. -/
  nframes : ℕ
  /-- Position in the free list of the frame that `kalloc` hands out. -/
  pick : List ℕ → ℕ
  /-- What `kfree` makes of the contents of a frame. -/
  fill : ℕ → Page → Page
  kend_pos : 0 < kend
  nframes_le : nframes ≤ 2 ^ 20

/-- Who grows and shrinks the memory of the process. -/
inductive Scheme
  /-- `sys_sbrk` changes the size only, and `trap` maps a page when it is touched. -/
  | onDemand
  /-- `sys_sbrk` calls `growproc`. -/
  | eager

namespace Machine

/-- The entry of page number `v`, zero where there is no page table. -/
def pte (s : Machine) (v : ℕ) : Word :=
  match s.pgdir (pdx v) with
  | some t => t.entry (ptx v)
  | none => 0#32

def setPte (s : Machine) (v : ℕ) (w : Word) : Machine :=
  { s with pgdir := Function.update s.pgdir (pdx v) ((s.pgdir (pdx v)).map fun t =>
    { t with entry := Function.update t.entry (ptx v) w }) }

def setFrame (s : Machine) (f : ℕ) (p : Page) : Machine :=
  { s with mem := Function.update s.mem f p }

end Machine

/-! ### Physical pages -/

/-- `none` is the null pointer. -/
def kalloc (E : Env) : K (Option ℕ) := do
  let s ← get
  if h : s.freelist = [] then pure none
  else
    let i := E.pick s.freelist % s.freelist.length
    have : i < s.freelist.length := Nat.mod_lt _ (List.length_pos_iff.mpr h)
    modify fun s => { s with freelist := s.freelist.eraseIdx i }
    pure (some s.freelist[i])

def kfree (E : Env) (f : ℕ) : K Unit :=
  if f < E.kend ∨ E.nframes ≤ f then throw (.panic "kfree")
  else modify fun s => { s.setFrame f (E.fill f (s.mem f)) with freelist := f :: s.freelist }

/-- `memset(mem, 0, PGSIZE)`. The null pointer is the user address 0, which the kernel
can write when page 0 is mapped. -/
def memset (mem : Option ℕ) : K Unit :=
  match mem with
  | some f => modify (·.setFrame f fun _ => 0#32)
  | none => do
    let s ← get
    if present (s.pte 0) ∧ writable (s.pte 0) then
      modify (·.setFrame (PTE_ADDR (s.pte 0)) fun _ => 0#32)
    else throw .fault

/-- `V2P(mem)` as a frame number. -/
def frameOf (mem : Option ℕ) : ℕ := mem.getD (KERNBASE / PGSIZE)

/-! ### Page tables -/

/-- Whether the entry for `va` exists; with `alloc` a missing page table is allocated. -/
def walkpgdir (E : Env) (va : ℕ) (alloc : Bool) : K Bool := do
  let s ← get
  match s.pgdir (pdx (va / PGSIZE)) with
  | some _ => pure true
  | none =>
    if alloc then do
      match ← kalloc E with
      | none => pure false
      | some pgtab => do
        modify fun s => { s with
          pgdir := Function.update s.pgdir (pdx (va / PGSIZE)) (some ⟨pgtab, fun _ => 0#32⟩) }
        pure true
    else pure false

/-- The loop of `mappages` over `n` pages from page `v` on. -/
def mappagesLoop (E : Env) (perm : Word) : (n v pa : ℕ) → K Bool
  | 0, _, _ => pure true
  | n + 1, v, pa => do
    if ← walkpgdir E (v * PGSIZE) true then do
      let s ← get
      if present (s.pte v) then throw (.panic "remap")
      else do
        modify (·.setPte v (V2P pa ||| perm ||| PTE_P))
        mappagesLoop E perm n (v + 1) (pa + 1)
    else pure false

/-- `false` is the result -1. -/
def mappages (E : Env) (va size pa : ℕ) (perm : Word) : K Bool :=
  mappagesLoop E perm ((va + size - 1) / PGSIZE - va / PGSIZE + 1) (va / PGSIZE) pa

/-- The loop of `deallocuvm` from page `v` up to page `last`; `fuel` bounds the number
of pages left. -/
def deallocuvmLoop (E : Env) (last : ℕ) : (fuel v : ℕ) → K Unit
  | 0, _ => pure ()
  | fuel + 1, v =>
    if v < last then do
      if ← walkpgdir E (v * PGSIZE) false then do
        let s ← get
        if present (s.pte v) then
          if PTE_ADDR (s.pte v) = 0 then throw (.panic "kfree")
          else do
            kfree E (PTE_ADDR (s.pte v))
            modify (·.setPte v 0#32)
            deallocuvmLoop E last fuel (v + 1)
        else deallocuvmLoop E last fuel (v + 1)
      else deallocuvmLoop E last fuel (nextTable v)
    else pure ()

def deallocuvm (E : Env) (oldsz newsz : ℕ) : K ℕ :=
  if oldsz ≤ newsz then pure oldsz
  else do
    deallocuvmLoop E (npages oldsz) (npages oldsz - npages newsz) (npages newsz)
    pure newsz

/-- The loop of `allocuvm` over `n` pages from page `v` on. -/
def allocuvmLoop (E : Env) (newsz oldsz : ℕ) : (n v : ℕ) → K ℕ
  | 0, _ => pure newsz
  | n + 1, v => do
    match ← kalloc E with
    | none => do
      let _ ← deallocuvm E newsz oldsz
      pure 0
    | some mem => do
      memset (some mem)
      if ← mappages E (v * PGSIZE) PGSIZE mem (PTE_W ||| PTE_U) then
        allocuvmLoop E newsz oldsz n (v + 1)
      else do
        let _ ← deallocuvm E newsz oldsz
        kfree E mem
        pure 0

/-- New size, or 0 on error. -/
def allocuvm (E : Env) (oldsz newsz : ℕ) : K ℕ :=
  if KERNBASE ≤ newsz then pure 0
  else if newsz < oldsz then pure oldsz
  else allocuvmLoop E newsz oldsz (npages newsz - npages oldsz) (npages oldsz)

/-! ### System calls and traps -/

/-- The sum of an unsigned and a signed 32-bit number. -/
def addSz (sz : ℕ) (n : ℤ) : ℕ := ((sz + n) % 2 ^ 32).toNat

/-- An unsigned 32-bit number as an `int`. -/
def toInt (sz : ℕ) : ℤ := (BitVec.ofNat 32 sz).toInt

/-- The eager scheme: `false` is the result -1. -/
def growproc (E : Env) (n : ℤ) : K Bool := do
  let s ← get
  let sz ← if 0 < n then allocuvm E s.sz (addSz s.sz n)
    else if n < 0 then deallocuvm E s.sz (addSz s.sz n)
    else pure s.sz
  if sz = 0 ∧ n ≠ 0 then pure false
  else do
    modify fun s => { s with sz := sz }
    pure true

/-- `sbrk(n)`. -/
def sysSbrk (E : Env) (k : Scheme) (n : ℤ) : K ℤ := do
  let s ← get
  match k with
  | .onDemand => do
    modify fun s => { s with sz := addSz s.sz n }
    pure (toInt s.sz)
  | .eager => if ← growproc E n then pure (toInt s.sz) else pure (-1)

/-- The `T_PGFLT` branch of `trap`; `cr2` is the faulting address. Neither the result of
`kalloc` nor that of `mappages` is checked. -/
def trapPgflt (E : Env) (cr2 : ℕ) : K Unit := do
  let va := PGROUNDDOWN cr2
  let mem ← kalloc E
  memset mem
  let _ ← mappages E va PGSIZE (frameOf mem) (PTE_W ||| PTE_U)

/-- A page fault of the process. -/
def trap (E : Env) (k : Scheme) (cr2 : ℕ) : K Unit :=
  match k with
  | .onDemand => trapPgflt E cr2
  | .eager => throw .killed

/-! ### The process -/

/-- The frame that an access to `va` reaches; an access that faults is made once more. -/
def access (E : Env) (k : Scheme) (va : ℕ) (write : Bool) : K ℕ := do
  let s ← get
  if faults (s.pte (va / PGSIZE)) write then do
    trap E k va
    let s ← get
    if faults (s.pte (va / PGSIZE)) write then throw .refault
    else pure (PTE_ADDR (s.pte (va / PGSIZE)))
  else pure (PTE_ADDR (s.pte (va / PGSIZE)))

inductive Op
  | sbrk (n : ℤ)
  | load (va : ℕ)
  | store (va : ℕ) (b : Byte)

inductive Result
  | addr (a : ℤ)
  | byte (b : Byte)
  | done
  deriving DecidableEq

def Op.run (E : Env) (k : Scheme) : Op → K Result
  | .sbrk n => do
    let a ← sysSbrk E k n
    pure (.addr a)
  | .load va => do
    let f ← access E k va false
    let s ← get
    pure (.byte (byteAt (s.mem f) va))
  | .store va b => do
    let f ← access E k va true
    modify fun s => s.setFrame f (setByte (s.mem f) va b)
    pure .done

/-- A run of the process: the results of its system calls and accesses. -/
def run (E : Env) (k : Scheme) : List Op → K (List Result)
  | [] => pure []
  | op :: ops => do
    let r ← op.run E k
    let rs ← run E k ops
    pure (r :: rs)

end Xv6Lab.Lazy
