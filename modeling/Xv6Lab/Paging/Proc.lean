import Xv6Lab.Paging.Swap
import Xv6Lab.Paging.Bytes

/-! The kernel entries that create, replace and destroy address spaces (`proc.c`,
`exec.c`, `sysproc.c`), and the boot sequence up to the first process. -/

namespace Xv6Lab.Paging

def Proc.unused : Proc := ⟨.UNUSED, 0, none, 0, 0, 0⟩

/-- A process that can enter the kernel. -/
def Proc.running (x : Proc) : Prop := x.state ≠ .UNUSED ∧ x.state ≠ .EMBRYO ∧ x.state ≠ .ZOMBIE

instance (x : Proc) : Decidable x.running := inferInstanceAs (Decidable (_ ∧ _ ∧ _))

/-- Grow the current process; the new pages are mapped when they are touched.
`n` is the argument as a signed number. -/
def growproc (p : Slot) (n : ℤ) : K Unit := do
  let s ← get
  let x := s.proc p
  if n < 0 ∨ KERNBASE < n ∨ KERNBASE < x.sz + n then pure ()
  else modify (·.setProc p { x with sz := x.sz + n.toNat })

/-- First slot that satisfies `q`. -/
def findSlot (q : Slot → Bool) : Option Slot := (List.finRange 64).find? q

/-- An unused slot becomes an `EMBRYO` with a kernel stack. -/
def allocproc (E : Env) : K (Option Slot) := do
  let s ← get
  match findSlot fun p => (s.proc p).state = .UNUSED with
  | none => pure none
  | some p => do
    let x := s.proc p
    modify fun s => { s.setProc p { x with state := .EMBRYO, pid := s.nextpid } with
      nextpid := s.nextpid + 1 }
    match ← kalloc E with
    | none => do
      modify (·.setProc p { x with state := .UNUSED, pid := s.nextpid, kstack := 0 })
      pure none
    | some kstack => do
      modify (·.setProc p { x with state := .EMBRYO, pid := s.nextpid, kstack := kstack })
      pure (some p)

def fork (E : Env) (cur : Slot) : K Unit := do
  match ← allocproc E with
  | none => pure ()
  | some np => do
    let s ← get
    match ← copyuvm E (s.proc cur).pgdir (s.proc cur).sz (s.proc cur).pid with
    | none => do
      kfree E (s.proc np).kstack
      modify (·.setProc np { s.proc np with pgdir := 0, kstack := 0, state := .UNUSED })
    | some d =>
      modify (·.setProc np { s.proc np with
        pgdir := d, sz := (s.proc cur).sz, parent := some cur, state := .RUNNABLE })

def exit (E : Env) (cur : Slot) : K Unit := do
  let s ← get
  if cur = s.initproc then throw (.panic "init exiting")
  else do
    fileLayer E (.exit (s.proc cur).pid)
    modify fun s => { s with proc := fun q =>
      let x := s.proc q
      let x := if x.parent = some cur then { x with parent := some s.initproc } else x
      if q = cur then { x with state := .ZOMBIE } else x }

/-- Reap one exited child; without one the call has no effect on memory. -/
def wait (E : Env) (cur : Slot) : K Unit := do
  let s ← get
  match findSlot fun q => (s.proc q).parent = some cur ∧ (s.proc q).state = .ZOMBIE with
  | none => pure ()
  | some q => do
    kfree E (s.proc q).kstack
    modify (·.setProc q { s.proc q with
      kstack := 0, pgdir := 0, pid := 0, parent := none, state := .UNUSED })
    freevm E (s.proc q).pgdir

/-! ### `exec` -/

structure ProgHdr where
  load : Bool
  off : ℕ
  vaddr : ℕ
  filesz : ℕ
  memsz : ℕ

/-- The file that `exec` reads: its bytes and the program headers they encode; a
header that the file is too short for is `none`. -/
structure Image where
  magic : Bool
  size : ℕ
  byte : ℕ → Byte
  phdrs : List (Option ProgHdr)

/-- The loop of `loaduvm` over `n` pages from page `v` on, `i` bytes being done. -/
def loaduvmLoop (pgdir : ℕ) (ip : Image) (offset sz : ℕ) : (n v i : ℕ) → K Bool
  | 0, _, _ => pure true
  | n + 1, v, i => do
    let s ← get
    match s.lookup pgdir (v * PGSIZE) with
    | none => throw (.panic "loaduvm: address should exist")
    | some p => do
      let w ← readPte p
      let want := min (sz - i) PGSIZE
      -- `readi` reads nothing beyond the end of the file
      let got := min want (ip.size - (offset + i))
      modify fun s => s.setFrame (PTE_ADDR w)
        (putBytes (s.mem (PTE_ADDR w)) got fun k => ip.byte (offset + i + k))
      if got = want then loaduvmLoop pgdir ip offset sz n (v + 1) (i + PGSIZE) else pure false

/-- Load a program segment; `addr` is page aligned. -/
def loaduvm (pgdir addr : ℕ) (ip : Image) (offset sz : ℕ) : K Bool :=
  loaduvmLoop pgdir ip offset sz (npages sz) (addr / PGSIZE) 0

/-- The loop of `exec` over the program headers; 0 stands for `goto bad`. -/
def loadSegments (E : Env) (pgdir : ℕ) (ip : Image) : List (Option ProgHdr) → ℕ → K (Option ℕ)
  | [], sz => pure (some sz)
  | none :: _, _ => pure none
  | some ph :: phs, sz =>
    if ph.load = false then loadSegments E pgdir ip phs sz
    else if ph.memsz < ph.filesz then pure none
    else if 2 ^ 32 ≤ ph.vaddr + ph.memsz then pure none
    else do
      let sz ← allocuvm E pgdir sz (ph.vaddr + ph.memsz)
      if sz = 0 then pure none
      else if ph.vaddr % PGSIZE ≠ 0 then pure none
      else if ← loaduvm pgdir ph.vaddr ip ph.off ph.filesz then loadSegments E pgdir ip phs sz
      else pure none

/-- Kernel load from a user address of the current address space. The kernel
ignores `PTE_U`; a missing page is faulted in first. -/
def kload (E : Env) (cur pid va : ℕ) : K Byte := do
  let s ← get
  if present (s.pte cur (va / PGSIZE)) then
    pure (byteAt (s.mem (PTE_ADDR (s.pte cur (va / PGSIZE)))) va)
  else do
    mapAddress E cur va pid
    let s ← get
    if present (s.pte cur (va / PGSIZE)) then
      pure (byteAt (s.mem (PTE_ADDR (s.pte cur (va / PGSIZE)))) va)
    else throw .fault

/-- `strlen` of a user string that ends within `fuel` bytes. -/
def kstrlen (E : Env) (cur pid : ℕ) : (fuel va : ℕ) → K ℕ
  | 0, _ => throw .illegal
  | fuel + 1, va => do
    let b ← kload E cur pid va
    if b = 0#8 then pure 0
    else do
      let n ← kstrlen E cur pid fuel (va + 1)
      pure (n + 1)

/-- The frame behind user address `uva`; `none` is the null result. A missing
page table makes the entry pointer null, and it is not checked. -/
def uva2ka (E : Env) (cur pgdir uva : ℕ) : K (Option ℕ) := do
  let s ← get
  let w ← loadPte E cur (s.lookup pgdir uva)
  if present w = false then pure none
  else if user w = false then pure none
  else pure (some (PTE_ADDR w))

/-- `copyout` of the `n` bytes that `src` reads, to user address `va` of `pgdir`. -/
def copyout (E : Env) (cur pgdir : ℕ) (src : ℕ → K Byte) : (n va k : ℕ) → K Bool
  | 0, _, _ => pure true
  | n + 1, va, k => do
    match ← uva2ka E cur pgdir (va % 2 ^ 32) with
    | none => pure false
    | some f => do
      let b ← src k
      modify fun s => s.setFrame f (setByte (s.mem f) va b)
      copyout E cur pgdir src n (va + 1) (k + 1)

/-- Push the argument strings; the result is the stack pointer and the addresses
pushed, latest first. -/
def pushArgs (E : Env) (cur pid sz pgdir : ℕ) : List ℕ → ℕ → List ℕ → K (Option (ℕ × List ℕ))
  | [], sp, ustack => pure (some (sp, ustack))
  | arg :: args, sp, ustack =>
    if 32 ≤ ustack.length then pure none
    else do
      let len ← kstrlen E cur pid (sz - arg) arg
      let sp := (sp + 2 ^ 32 - (len + 1) % 2 ^ 32) % 2 ^ 32 / 4 * 4
      let len ← kstrlen E cur pid (sz - arg) arg
      if ← copyout E cur pgdir (fun k => kload E cur pid (arg + k)) (len + 1) sp 0 then
        pushArgs E cur pid sz pgdir args sp (sp :: ustack)
      else pure none

/-- The words `ustack[0], ustack[1], ...` of the initial stack, as bytes. -/
def ustackByte (argc argv : ℕ) (addrs : List ℕ) (k : ℕ) : Byte :=
  let words := [2 ^ 32 - 1, argc, argv] ++ addrs ++ [0]
  BitVec.ofNat 8 (words.getD (k / 4) 0 / 2 ^ (8 * (k % 4)))

/-- The new image up to its argument strings; `none` is `goto bad`. -/
def buildImage (E : Env) (cur pid cursz pgdir : ℕ) (ip : Image) (argv : List ℕ) :
    K (Option ℕ) := do
  match ← loadSegments E pgdir ip ip.phdrs 0 with
  | none => pure none
  | some sz => do
    fileLayer E (.exec pid)
    let sz ← allocuvm E pgdir (PGROUNDUP sz) (PGROUNDUP sz + 2 * PGSIZE)
    if sz = 0 then pure none
    else do
      clearpteu pgdir (sz - 2 * PGSIZE)
      match ← pushArgs E cur pid cursz pgdir argv sz [] with
      | none => pure none
      | some (sp, addrs) => do
        let n := 4 * (3 + addrs.length + 1)
        let argvp := (sp + 2 ^ 32 - (addrs.length + 1) * 4) % 2 ^ 32
        let sp := (sp + 2 ^ 32 - n) % 2 ^ 32
        if ← copyout E cur pgdir (fun k => pure (ustackByte addrs.length argvp addrs.reverse k)) n sp 0
        then pure (some sz)
        else pure none

/-- `exec` of the file `ip`; `argv` holds the user addresses of the arguments. -/
def exec (E : Env) (p : Slot) (ip : Image) (argv : List ℕ) : K Unit := do
  let s ← get
  let x := s.proc p
  if ip.magic = false then pure ()
  else do
    match ← setupkvm E with
    | none => pure ()
    | some pgdir => do
      match ← buildImage E x.pgdir x.pid x.sz pgdir ip argv with
      | none => freevm E pgdir
      | some sz => do
        modify fun s => s.setProc p { s.proc p with pgdir := pgdir, sz := sz }
        freevm E x.pgdir

/-! ### Boot -/

/-- The machine when `main` has set up the page allocator: every frame after the
kernel image is free, and the disk is as `mkfs` wrote it. -/
def Env.powerOn (E : Env) (mem : ℕ → Page) (block : ℕ → Block) : Kernel where
  mem := mem
  freelist := (List.range' E.kend (NFRAMES - E.kend)).reverse
  bit b := b < E.used
  block := block
  numallocblocks := 0
  files := List.range' E.nmeta (E.used - E.nmeta)
  kpgdir := 0
  proc _ := Proc.unused
  nextpid := 1
  initproc := 0

/-- Load the initcode into address 0. The results of `kalloc` and of `mappages`
are not checked. -/
def inituvm (E : Env) (pgdir : ℕ) (init : Page) : K Unit := do
  match ← kalloc E with
  | none => throw .fault
  | some mem => do
    let _ ← mappages E pgdir 0 PGSIZE mem (PTE_W ||| PTE_U)
    setFrame mem init

/-- `kvmalloc` and `userinit`; `init` is the initcode padded with zeros. -/
def boot (E : Env) (init : Page) : K Unit := do
  match ← setupkvm E with
  | none => throw .fault
  | some kpgdir => do
    modify fun s => { s with kpgdir := kpgdir }
    match ← allocproc E with
    | none => throw .fault
    | some p => do
      modify fun s => { s with initproc := p }
      match ← setupkvm E with
      | none => throw (.panic "userinit: out of memory?")
      | some pgdir => do
        modify fun s => s.setProc p { s.proc p with pgdir := pgdir }
        inituvm E pgdir init
        modify fun s => s.setProc p { s.proc p with sz := PGSIZE, state := .RUNNABLE }

end Xv6Lab.Paging
