import Mathlib.Data.BitVec
import Mathlib.Tactic.Common

/-! How a system call fetches its arguments (`syscall.c`): words on the stack of the process,
and pointers that are checked against its size. -/

namespace Xv6Lab.Calls

abbrev Word := BitVec 32

/-- The process that makes a system call: the size of its memory, its stack pointer and what
the kernel reads at each address. -/
structure Caller where
  sz : Word
  esp : Word
  mem : Word → BitVec 8

namespace Caller

variable (u : Caller)

/-- `*(int*)addr`, the low byte first. -/
def int (addr : Word) : Word :=
  u.mem (addr + 3#32) ++ u.mem (addr + 2#32) ++ u.mem (addr + 1#32) ++ u.mem addr

/-- Fetch the int at `addr`; `none` is the result -1. -/
def fetchint (addr : Word) : Option Word :=
  if u.sz ≤ addr ∨ u.sz < addr + 4#32 then none else some (u.int addr)

/-- Fetch the `n`th 32-bit system call argument. -/
def argint (n : Word) : Option Word := u.fetchint (u.esp + 4#32 + 4#32 * n)

/-- Fetch the `n`th argument as a pointer to `size` bytes of memory; `size` is an int. -/
def argptr (n size : Word) : Option Word := do
  let i ← u.argint n
  if size.slt 0#32 ∨ u.sz ≤ i ∨ u.sz < i + size then none else some i

/-- What `argptr` leaves in a local of four bytes that held `garbage`. -/
def fetchLocal (n garbage : Word) : Word := (u.argptr n 4#32).getD garbage

/-- The check of `argptr` on an argument, for the four bytes of an int or a pointer. -/
def Passes (i : Word) : Prop := i < u.sz ∧ i + 4#32 ≤ u.sz

instance (i : Word) : Decidable (u.Passes i) := inferInstanceAs (Decidable (_ ∧ _))

variable {u} {i n garbage : Word}

theorem argptr_four (h : u.argint n = some i) :
    u.argptr n 4#32 = if u.Passes i then some i else none := by
  have hcheck : ((4#32 : Word).slt 0#32 ∨ u.sz ≤ i ∨ u.sz < i + 4#32) ↔ ¬ u.Passes i := by
    have hslt : ((4#32 : Word).slt 0#32 : Prop) ↔ False := by decide
    rw [hslt, false_or]
    unfold Passes
    rw [not_and_or, BitVec.not_lt, BitVec.not_le]
  unfold argptr
  rw [h]
  simp only [Option.bind_eq_bind, Option.bind_some, hcheck, ite_not]

theorem fetchLocal_eq (h : u.argint n = some i) (garbage : Word) :
    u.fetchLocal n garbage = if u.Passes i then i else garbage := by
  unfold fetchLocal
  rw [argptr_four h]
  split_ifs <;> rfl

/-- Two arguments on a stack below `sz` leave room for 1 as an address. -/
theorem passes_one {j : Word} (h0 : u.argint 0#32 = some i) (h1 : u.argint 1#32 = some j) :
    u.Passes 1#32 := by
  unfold argint fetchint at h0 h1
  split_ifs at h0 h1 with h2 h3
  unfold Passes
  bv_omega

end Caller

end Xv6Lab.Calls
