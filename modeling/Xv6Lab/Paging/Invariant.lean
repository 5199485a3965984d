import Xv6Lab.Paging.FaultSpec
import Mathlib.Data.Fintype.BigOperators

/-! The invariant of the paging kernel between two kernel entries: every slot in
use has an address space and a kernel stack of its own, the kernel's page
directory maps no user page, and the counter of swapped pages counts the swapped
entries of all address spaces. -/

namespace Xv6Lab.Paging

/-- A slot that holds a process. -/
def Proc.live (x : Proc) : Prop := x.state ≠ .UNUSED

instance (x : Proc) : Decidable x.live := inferInstanceAs (Decidable (_ ≠ _))

theorem Proc.running.live {x : Proc} (h : x.running) : x.live := h.1

/-- The page directory of a slot. -/
def Kernel.dir (s : Kernel) (p : Slot) : ℕ := (s.proc p).pgdir

structure Inv (E : Env) (g : Ghost) (s : Kernel) : Prop where
  base : Base E g s
  space : ∀ p, (s.proc p).live → Space g s (s.dir p) Set.univ
  kstack : ∀ p, (s.proc p).live → g.frame (s.proc p).kstack = .kstack p
  inj : ∀ p q, (s.proc p).live → (s.proc q).live → s.dir p = s.dir q → p = q
  size : ∀ p, (s.proc p).live → (s.proc p).sz ≤ KERNBASE
  embryo : ∀ p, (s.proc p).state ≠ .EMBRYO
  ktree : Tree g s s.kpgdir
  kdir : ∀ p, (s.proc p).live → s.dir p ≠ s.kpgdir
  kentry : ∀ v < 2 ^ 20, user (s.pte s.kpgdir v) = false ∧ swapped (s.pte s.kpgdir v) = false
  count : s.numallocblocks =
    ∑ p : Slot, if (s.proc p).live then (s.nswapped (s.dir p) : ℤ) else 0

end Xv6Lab.Paging
