import Xv6Lab.Lazy.Machine

/-! How `fork` copies an address space (`copyuvm` and what it calls in `vm.c`). Functions that
take a page directory run on a machine in which it stands for that of the process. -/

namespace Xv6Lab.Lazy

open Paging (EXTMEM DEVSPACE KERNBASE PGSIZE Kmap PTE_FLAGS PTE_ADDR PTE_W present npages)

abbrev PageTables := Fin 1024 → Option PageTable

/-- A page directory and the frame that it takes up. -/
structure PageDir where
  frame : ℕ
  tables : PageTables

/-- The kernel in memory: `data` is its first page of data, and physical memory ends below
the addresses of the devices. -/
structure Layout (E : Env) where
  kdata : ℕ
  kdata_gt : EXTMEM / PGSIZE < kdata
  kdata_lt : kdata < E.nframes
  top : KERNBASE + E.nframes * PGSIZE ≤ DEVSPACE

/-- Run `m` on the directory `d`; what becomes of it is the second result. -/
def inDir {α : Type} (d : PageTables) (m : K α) : K (α × PageTables) := do
  let s ← get
  modify fun s => { s with pgdir := d }
  let a ← m
  let t ← get
  modify fun t => { t with pgdir := s.pgdir }
  pure (a, t.pgdir)

variable {E : Env}

def Layout.kmap (L : Layout E) : List Kmap :=
  [⟨KERNBASE, 0, EXTMEM, PTE_W⟩,
   ⟨KERNBASE + EXTMEM, EXTMEM / PGSIZE, L.kdata * PGSIZE - EXTMEM, 0#32⟩,
   ⟨KERNBASE + L.kdata * PGSIZE, L.kdata, E.nframes * PGSIZE - L.kdata * PGSIZE, PTE_W⟩,
   ⟨DEVSPACE, DEVSPACE / PGSIZE, 2 ^ 32 - DEVSPACE, PTE_W⟩]

/-- Free the page tables named by the directory entries `is`. -/
def freeTables (E : Env) (d : PageTables) : List (Fin 1024) → K Unit
  | [] => pure ()
  | i :: is =>
    match d i with
    | some t => do
      kfree E t.frame
      freeTables E d is
    | none => freeTables E d is

def freevm (E : Env) (d : PageDir) : K Unit := do
  let r ← inDir d.tables (deallocuvm E KERNBASE 0)
  freeTables E r.2 (List.finRange 1024)
  kfree E d.frame

def setupkvmLoop (E : Env) : List Kmap → K Bool
  | [] => pure true
  | k :: ks => do
    if ← mappages E k.virt k.size k.phys k.perm then setupkvmLoop E ks else pure false

/-- A page directory with the kernel half only; `none` is the null pointer. -/
def setupkvm (L : Layout E) : K (Option PageDir) := do
  match ← kalloc E with
  | none => pure none
  | some pgdir => do
    memset (some pgdir)
    if DEVSPACE < KERNBASE + E.nframes * PGSIZE then throw (.panic "PHYSTOP too high")
    else do
      let r ← inDir (fun _ => none) (setupkvmLoop E L.kmap)
      if r.1 then pure (some ⟨pgdir, r.2⟩)
      else do
        freevm E ⟨pgdir, r.2⟩
        pure none

/-- `bad:` in `copyuvm`. -/
def copyuvmBad (E : Env) (d : PageDir) : K (Option PageDir) := do
  freevm E d
  pure none

/-- The loop of `copyuvm` over `n` pages from page `v` on. -/
def copyuvmLoop (E : Env) : (n v : ℕ) → PageDir → K (Option PageDir)
  | 0, _, d => pure (some d)
  | n + 1, v, d => do
    if ← walkpgdir E (v * PGSIZE) false then do
      let s ← get
      if present (s.pte v) then do
        match ← kalloc E with
        | none => copyuvmBad E d
        | some mem => do
          modify fun t => t.setFrame mem (t.mem (PTE_ADDR (s.pte v)))
          let r ← inDir d.tables (mappages E (v * PGSIZE) PGSIZE mem (PTE_FLAGS (s.pte v)))
          if r.1 then copyuvmLoop E n (v + 1) ⟨d.frame, r.2⟩
          else do
            kfree E mem
            copyuvmBad E ⟨d.frame, r.2⟩
      else throw (.panic "copyuvm: page not present")
    else throw (.panic "copyuvm: pte should exist")

/-- The page directory of a child of the process; `none` is the null pointer. -/
def copyuvm (L : Layout E) (sz : ℕ) : K (Option PageDir) := do
  match ← setupkvm L with
  | none => pure none
  | some d => copyuvmLoop E (npages sz) 0 d

end Xv6Lab.Lazy
