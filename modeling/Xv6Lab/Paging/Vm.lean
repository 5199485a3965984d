import Xv6Lab.Paging.Blocks

/-! Address spaces (`vm.c`): walking and mapping page tables, the kernel half,
growing and freeing the user half, and the choice of a victim for eviction. The
loops over addresses run over page numbers. -/

namespace Xv6Lab.Paging

/-- The entry for `va`; with `alloc` a missing page table is allocated. `none` is
the null pointer. -/
def walkpgdir (E : Env) (pgdir va : ℕ) (alloc : Bool) : K (Option PtePtr) := do
  let s ← get
  match s.lookup pgdir va with
  | some p => pure (some p)
  | none =>
    if alloc then do
      match ← kalloc E with
      | none => pure none
      | some pgtab => do
        setFrame pgtab fun _ => 0#32
        writePte (pgdir, PDX va) (V2P pgtab ||| PTE_P ||| PTE_W ||| PTE_U)
        pure (some (pgtab, PTX va))
    else pure none

/-- The loop of `mappages` over `n` pages from `va` and frames from `pa`; only the
copy in `vm.c` checks that the page is not mapped yet (`remap`). -/
def mappagesLoop (E : Env) (remap : Bool) (pgdir : ℕ) (perm : Word) : (n va pa : ℕ) → K Bool
  | 0, _, _ => pure true
  | n + 1, va, pa => do
    match ← walkpgdir E pgdir va true with
    | none => pure false
    | some p => do
      let w ← readPte p
      if remap ∧ present w then throw (.panic "remap in mappages in vm.c")
      else do
        writePte p (V2P pa ||| perm ||| PTE_P)
        mappagesLoop E remap pgdir perm n (va + PGSIZE) (pa + 1)

/-- `mappages` of `vm.c`; `false` is the result -1. -/
def mappages (E : Env) (pgdir va size pa : ℕ) (perm : Word) : K Bool :=
  mappagesLoop E true pgdir perm ((va + size - 1) / PGSIZE - va / PGSIZE + 1) (PGROUNDDOWN va) pa

/-- `mappages` of `paging.c`. -/
def mappagesPaging (E : Env) (pgdir va size pa : ℕ) (perm : Word) : K Bool :=
  mappagesLoop E false pgdir perm ((va + size - 1) / PGSIZE - va / PGSIZE + 1) (PGROUNDDOWN va) pa

/-! ### Shrinking and freeing -/

/-- First page number of the next page table. -/
def nextTable (v : ℕ) : ℕ := (v / 1024 + 1) * 1024

/-- The loop of `deallocuvm` from page `v` up to page `last`; `fuel` bounds the
number of pages left. -/
def deallocuvmLoop (E : Env) (pgdir last : ℕ) : (fuel v : ℕ) → K Unit
  | 0, _ => pure ()
  | fuel + 1, v =>
    if v < last then do
      let s ← get
      match s.lookup pgdir (v * PGSIZE) with
      | none => deallocuvmLoop E pgdir last fuel (nextTable v)
      | some p => do
        let w ← readPte p
        if swapped w then do
          bfreePage (PTE_ADDR w)
          deallocuvmLoop E pgdir last fuel (v + 1)
        else if present w then
          if PTE_ADDR w = 0 then throw (.panic "kfree")
          else do
            kfree E (PTE_ADDR w)
            writePte p 0#32
            deallocuvmLoop E pgdir last fuel (v + 1)
        else deallocuvmLoop E pgdir last fuel (v + 1)
    else pure ()

/-- Number of pages that start below `sz`. -/
def npages (sz : ℕ) : ℕ := (sz + PGSIZE - 1) / PGSIZE

def deallocuvm (E : Env) (pgdir oldsz newsz : ℕ) : K ℕ :=
  if oldsz ≤ newsz then pure oldsz
  else do
    deallocuvmLoop E pgdir (npages oldsz) (npages oldsz - npages newsz) (npages newsz)
    pure newsz

/-- Free the page tables named by the directory entries `is`. -/
def freeTables (E : Env) (pgdir : ℕ) : List (Fin 1024) → K Unit
  | [] => pure ()
  | i :: is => do
    let s ← get
    if present (s.mem pgdir i) then do
      kfree E (PTE_ADDR (s.mem pgdir i))
      freeTables E pgdir is
    else freeTables E pgdir is

def freevm (E : Env) (pgdir : ℕ) : K Unit :=
  if pgdir = 0 then throw (.panic "freevm: no pgdir")
  else do
    let _ ← deallocuvm E pgdir KERNBASE 0
    freeTables E pgdir (List.finRange 1024)
    kfree E pgdir

/-! ### The kernel half -/

/-- A row of the table `kmap[]`: pages `virt`, `virt + 1`, ... are mapped to the
frames from `phys` on. -/
structure Kmap where
  virt : ℕ
  phys : ℕ
  size : ℕ
  perm : Word

def Env.kmap (E : Env) : List Kmap :=
  [⟨KERNBASE, 0, EXTMEM, PTE_W⟩,
   ⟨KERNBASE + EXTMEM, EXTMEM / PGSIZE, E.kdata * PGSIZE - EXTMEM, 0#32⟩,
   ⟨KERNBASE + E.kdata * PGSIZE, E.kdata, PHYSTOP - E.kdata * PGSIZE, PTE_W⟩,
   ⟨DEVSPACE, DEVSPACE / PGSIZE, 2 ^ 32 - DEVSPACE, PTE_W⟩]

def setupkvmLoop (E : Env) (pgdir : ℕ) : List Kmap → K Bool
  | [] => pure true
  | k :: ks => do
    if ← mappages E pgdir k.virt k.size k.phys k.perm then setupkvmLoop E pgdir ks else pure false

/-- A page directory with the kernel half only; `none` is the null pointer. -/
def setupkvm (E : Env) : K (Option ℕ) := do
  match ← kalloc E with
  | none => pure none
  | some pgdir => do
    setFrame pgdir fun _ => 0#32
    if ← setupkvmLoop E pgdir E.kmap then pure (some pgdir)
    else do
      freevm E pgdir
      pure none

/-! ### Growing -/

/-- The loop of `allocuvm` over `n` pages from page `v` on. -/
def allocuvmLoop (E : Env) (pgdir newsz oldsz : ℕ) : (n v : ℕ) → K ℕ
  | 0, _ => pure newsz
  | n + 1, v => do
    match ← kalloc E with
    | none => do
      let _ ← deallocuvm E pgdir newsz oldsz
      pure 0
    | some mem => do
      setFrame mem fun _ => 0#32
      if ← mappages E pgdir (v * PGSIZE) PGSIZE mem (PTE_W ||| PTE_U) then
        allocuvmLoop E pgdir newsz oldsz n (v + 1)
      else do
        let _ ← deallocuvm E pgdir newsz oldsz
        kfree E mem
        pure 0

/-- New size, or 0 on error. -/
def allocuvm (E : Env) (pgdir oldsz newsz : ℕ) : K ℕ :=
  if KERNBASE ≤ newsz then pure 0
  else if newsz < oldsz then pure oldsz
  else allocuvmLoop E pgdir newsz oldsz (npages newsz - npages oldsz) (npages oldsz)

/-- Clear `PTE_U` on a page. -/
def clearpteu (pgdir uva : ℕ) : K Unit := do
  let s ← get
  match s.lookup pgdir uva with
  | none => throw (.panic "clearpteu")
  | some p => do
    let w ← readPte p
    writePte p (w &&& ~~~PTE_U)

/-! ### Choosing a victim -/

/-- Scan `n` pages from page `v` on for a present entry. The test of the source,
`*pte & ~PTE_A`, does not look at the access bit alone. -/
def victimLoop (s : Kernel) (pgdir : ℕ) : (n v : ℕ) → Option PtePtr
  | 0, _ => none
  | n + 1, v =>
    match s.lookup pgdir (v * PGSIZE) with
    | none => victimLoop s pgdir n (v + 1)
    | some p =>
      let w := s.mem p.1 p.2
      if w &&& PTE_P ≠ 0#32 ∧ w &&& ~~~PTE_A ≠ 0#32 then some p else victimLoop s pgdir n (v + 1)

/-- The first present entry from address 4096 up to `KERNBASE`. -/
def Kernel.selectAVictim (s : Kernel) (pgdir : ℕ) : Option PtePtr :=
  victimLoop s pgdir (UVPN - 1) 1

/-- The loop of `clearaccessbit` over `n` pages from page `v` on, `cnt` being the
number of entries cleared so far. -/
def clearaccessbitLoop (pgdir : ℕ) : (n v cnt : ℕ) → K Unit
  | 0, _, _ => pure ()
  | n + 1, v, cnt => do
    let s ← get
    match s.lookup pgdir (v * PGSIZE) with
    | none => if cnt = 103 then pure () else clearaccessbitLoop pgdir n (v + 1) cnt
    | some p => do
      let w ← readPte p
      if (w &&& PTE_P) &&& (w &&& PTE_A) ≠ 0#32 then do
        writePte p (w &&& ~~~PTE_A)
        if cnt + 1 = 103 then pure () else clearaccessbitLoop pgdir n (v + 1) (cnt + 1)
      else if cnt = 103 then pure () else clearaccessbitLoop pgdir n (v + 1) cnt

def clearaccessbit (pgdir : ℕ) : K Unit := clearaccessbitLoop pgdir (UVPN - 1) 1 0

/-- The block number in the entry for `va`. -/
def getswappedblk (pgdir va : ℕ) : K ℕ := do
  let s ← get
  match s.lookup pgdir va with
  | none => throw .fault
  | some p => do
    let w ← readPte p
    pure (PTE_ADDR w)

end Xv6Lab.Paging
