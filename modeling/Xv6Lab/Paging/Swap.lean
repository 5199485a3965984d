import Xv6Lab.Paging.Vm

/-! Demand paging (`paging.c`), the copy of an address space (`copyuvm`) and the
system call that swaps out one page (`sys_swap`). -/

namespace Xv6Lab.Paging

/-- Swap out the page of the entry `pte`, which may be the null pointer. `pgdir`
is the current address space, through which a null pointer is followed. -/
def swapPageFromPte (E : Env) (pgdir : ℕ) (pte : Option PtePtr) (pid : ℕ) : K Unit := do
  let w ← loadPte E pgdir pte
  let frame := PTE_ADDR w
  let diskPage ← ballocPage E.size
  -- `P2V` of a frame above the top of memory is not mapped
  if NFRAMES ≤ frame then throw .fault
  else do
    let w ← loadPte E pgdir pte
    writePageToDisk E frame diskPage pid (PTE_ADDR w)
    storePte E pgdir pte (swappedPte diskPage)
    kfree E frame

/-- Evict a page of `pgdir`. -/
def swapPage (E : Env) (pgdir pid : ℕ) : K Unit := do
  let s ← get
  match s.selectAVictim pgdir with
  | some p => swapPageFromPte E pgdir (some p) pid
  | none => do
    clearaccessbit pgdir
    let s ← get
    swapPageFromPte E pgdir (s.selectAVictim pgdir) pid

/-- `kalloc`, after an eviction if no frame is free. -/
def kallocOrSwap (E : Env) (pgdir pid : ℕ) : K ℕ := do
  match ← kalloc E with
  | some mem => pure mem
  | none => do
    swapPage E pgdir pid
    match ← kalloc E with
    | some mem => pure mem
    | none => throw .fault

/-- Bring the page of the swapped entry `p` for address `a` into frame `mem`. -/
def swapIn (pgdir a : ℕ) (p : PtePtr) (mem : ℕ) : K Unit := do
  let blockid ← getswappedblk pgdir a
  readPageFromDisk mem blockid
  writePte p ((V2P mem ||| PTE_W ||| PTE_U ||| PTE_P) &&& ~~~PTE_SWAPPED)
  bfreePage blockid

/-- Second half of `map_address`: the frame `mem` goes to the entry `pte` of the
page at `a`. Without a page table nothing is mapped and `mem` is dropped. -/
def fillPage (E : Env) (pgdir a mem : ℕ) : Option PtePtr → K Unit
  | none => pure ()
  | some p => do
    let w ← readPte p
    if swapped w then swapIn pgdir a p mem
    else do
      setFrame mem fun _ => 0#32
      if ← mappagesPaging E pgdir a PGSIZE mem (PTE_P ||| PTE_W ||| PTE_U) then pure ()
      else throw (.panic "allocuvm out of memory xv6 in mappages/n")

/-- Map a page at the faulting address. -/
def mapAddress (E : Env) (pgdir addr pid : ℕ) : K Unit := do
  let a := PGROUNDDOWN addr
  let s ← get
  let pte := s.lookup pgdir a
  let mem ← kallocOrSwap E pgdir pid
  fillPage E pgdir a mem pte

/-- The page-fault handler of process `p` at the address in `cr2`. -/
def handlePgfault (E : Env) (p : Slot) (cr2 : ℕ) : K Unit := do
  let s ← get
  mapAddress E (s.proc p).pgdir (PGROUNDDOWN cr2) (s.proc p).pid

/-! ### Copying an address space -/

/-- First half of a round of `copyuvm`: a swapped page of the parent is brought
back. The result is the entry of page `v`. -/
def copyBring (E : Env) (pgdir pid v : ℕ) : K PtePtr := do
  let s ← get
  match s.lookup pgdir (v * PGSIZE) with
  | none => throw (.panic "copyuvm: pte should exist")
  | some p => do
    let w ← readPte p
    if swapped w then do
      let mem ← kallocOrSwap E pgdir pid
      swapIn pgdir (v * PGSIZE) p mem
      pure p
    else pure p

/-- Second half: the page is copied to the child `d`. The frame and the flags of
the source are read before a frame for the copy is found. -/
def copyOut (E : Env) (pgdir d pid v : ℕ) (p : PtePtr) : K Bool := do
  let w ← readPte p
  let mem ← kallocOrSwap E pgdir pid
  let s ← get
  setFrame mem (s.mem (PTE_ADDR w))
  mappages E d (v * PGSIZE) PGSIZE mem (PTE_FLAGS w)

/-- The loop of `copyuvm` over `n` pages from page `v` on. -/
def copyuvmLoop (E : Env) (pgdir d pid : ℕ) : (n v : ℕ) → K Bool
  | 0, _ => pure true
  | n + 1, v => do
    let p ← copyBring E pgdir pid v
    if ← copyOut E pgdir d pid v p then copyuvmLoop E pgdir d pid n (v + 1) else pure false

/-- A copy of `pgdir` for a child; `none` is the null pointer. -/
def copyuvm (E : Env) (pgdir sz pid : ℕ) : K (Option ℕ) := do
  match ← setupkvm E with
  | none => pure none
  | some d => do
    if ← copyuvmLoop E pgdir d pid (npages sz) 0 then pure (some d)
    else do
      freevm E d
      pure none

/-! ### The system call -/

/-- `*pte` in `sys_swap`: a null pointer is followed through the user address 0,
where the kernel may take a page fault first. -/
def sysSwapLoad (E : Env) (pgdir pid : ℕ) : Option PtePtr → K Word
  | some p => readPte p
  | none => do
    let s ← get
    if E.strict = false ∧ present (s.pte pgdir 0) = false then do
      mapAddress E pgdir 0 pid
      loadPte E pgdir none
    else loadPte E pgdir none

def sysSwap (E : Env) (p : Slot) (addr : ℕ) : K Unit := do
  let s ← get
  let pgdir := (s.proc p).pgdir
  let pid := (s.proc p).pid
  let pte ← walkpgdir E pgdir addr true
  let w ← sysSwapLoad E pgdir pid pte
  if present w then swapPageFromPte E pgdir pte pid else pure ()

end Xv6Lab.Paging
