import Xv6Lab.Paging.ExecSpec
import Xv6Lab.Lib.Run

/-! The machine as a transition system: user-mode accesses and kernel entries, each
run to completion. An operation that the machine would not make (a fault where the
hardware raises none, an entry of a process that does not run) does not complete. -/

namespace Xv6Lab.Paging

open Lib

inductive Op
  /-- The hardware raises a page fault at an address. -/
  | pagefault (p : Slot) (va : ℕ) (write : Bool)
  | swapPage (p : Slot)
  | sysSwap (p : Slot) (addr : ℕ)
  | sbrk (p : Slot) (n : ℤ)
  | fork (p : Slot)
  | exec (p : Slot) (ip : Image) (argv : List ℕ)
  | exit (p : Slot)
  | wait (p : Slot)
  /-- Block allocation, freeing and writing by file operations. -/
  | file (acts : List FileAct)
  /-- A user-mode load or store of one byte that raises no fault. -/
  | load (p : Slot) (va : ℕ)
  | store (p : Slot) (va : ℕ) (b : Byte)

/-- A user-mode load; the hardware sets the access bit. -/
def userLoad (p : Slot) (va : ℕ) : K Byte := do
  let s ← get
  match s.lookup (s.dir p) va with
  | none => throw .fault
  | some q => do
    let w ← readPte q
    if faults w false then throw .fault
    else do
      writePte q (w ||| PTE_A)
      pure (byteAt (s.mem (PTE_ADDR w)) va)

/-- A user-mode store; the hardware sets the access and the dirty bit. -/
def userStore (p : Slot) (va : ℕ) (b : Byte) : K Unit := do
  let s ← get
  match s.lookup (s.dir p) va with
  | none => throw .fault
  | some q => do
    let w ← readPte q
    if faults w true then throw .fault
    else do
      writePte q (w ||| PTE_A ||| PTE_D)
      modify fun s => s.setFrame (PTE_ADDR w) (setByte (s.mem (PTE_ADDR w)) va b)

/-- Only a process that can run enters the kernel. -/
def entry {α : Type} (p : Slot) (m : K α) : K α := do
  let s ← get
  if (s.proc p).running then m else throw .illegal

/-- A page fault comes from an access that the hardware refuses. -/
def takeFault (E : Env) (p : Slot) (va : ℕ) (write : Bool) : K Unit := do
  let s ← get
  if va < 2 ^ 32 ∧ faults (s.pte (s.dir p) (va / PGSIZE)) write then handlePgfault E p va
  else throw .illegal

/-- One operation; a load returns its byte. -/
def Op.run (E : Env) : Op → K (Option Byte)
  | .pagefault p va write => entry p do takeFault E p va write; pure none
  | .swapPage p => entry p do
    let s ← get
    Paging.swapPage E (s.dir p) (s.proc p).pid
    pure none
  | .sysSwap p addr => entry p do Paging.sysSwap E p addr; pure none
  | .sbrk p n => entry p do growproc p n; pure none
  | .fork p => entry p do Paging.fork E p; pure none
  | .exec p ip argv => entry p do Paging.exec E p ip argv; pure none
  | .exit p => entry p do Paging.exit E p; pure none
  | .wait p => entry p do Paging.wait E p; pure none
  | .file acts => do fileActs E acts; pure none
  | .load p va => entry p do
    let b ← userLoad p va
    pure (some b)
  | .store p va b => entry p do userStore p va b; pure none

/-- `op` completes and takes `s` to `t`. -/
def Step (E : Env) (s : Kernel) (op : Op) (t : Kernel) : Prop := ∃ r, op.run E s = .ok (r, t)

/-! ### The memory of a process -/

/-- The bytes that a process sees. -/
abbrev Memory := ℕ → Byte

/-- What an operation does to the memory of `p`. -/
def Op.onMemory (p : Slot) : Op → Memory → Memory
  | .store q va b, m => if q = p then Function.update m va b else m
  | _, m => m

/-- One step of the machine, with the memory of `p` beside it. -/
def MemStep (E : Env) (p : Slot) (x : Kernel × Memory) (op : Op) (y : Kernel × Memory) : Prop :=
  Step E x.1 op y.1 ∧ y.2 = op.onMemory p x.2

/-- The operations that may happen around `p`: faults, loads and stores below the
size of the process that makes them, `sys_swap` below `KERNBASE`, and everything but
an `exec` or `exit` of `p` itself. -/
def Op.Around (p : Slot) (s : Kernel) : Op → Prop
  | .pagefault q va _ => va < (s.proc q).sz
  | .sysSwap _ addr => addr < KERNBASE
  | .load q va | .store q va _ => va < (s.proc q).sz
  | .exec q _ _ | .exit q => q ≠ p
  | _ => True

/-- The operations that the swap area has to survive in any number: faults below
the size of the process, `sys_swap` below `KERNBASE`. -/
def Op.InSize (s : Kernel) : Op → Prop
  | .pagefault p va _ => va < (s.proc p).sz
  | .sysSwap _ addr => addr < KERNBASE
  | .load _ va | .store _ va _ => va < 2 ^ 32
  | _ => True

/-- `op` follows no null entry pointer. -/
def FollowsNoNull (E : Env) (s : Kernel) (op : Op) : Prop :=
  op.run E.stopAtNull s ≠ .error .nullPte

theorem entry_agrees {α : Type} {m m' : K α} (p : Slot) (h : StopsOrAgrees m m') :
    StopsOrAgrees (entry p m) (entry p m') := Agree.bind (.refl _) fun _ => .ite h (.refl _)

theorem Op.run_agrees (E : Env) (op : Op) : StopsOrAgrees (op.run E.stopAtNull) (op.run E) := by
  cases op with
  | pagefault p va write =>
    refine entry_agrees p (Agree.bind (Agree.bind (.refl _) fun s => .ite ?_ (.refl _)) fun _ => .refl _)
    exact handlePgfault_agrees E p va
  | swapPage p =>
    exact entry_agrees p (Agree.bind (.refl _) fun s => (swapPage_agrees E _ _).bind fun _ => .refl _)
  | sysSwap p addr => exact entry_agrees p ((sysSwap_agrees E p addr).bind fun _ => .refl _)
  | fork p => exact entry_agrees p ((fork_agrees E p).bind fun _ => .refl _)
  | exec p ip argv => exact entry_agrees p ((exec_agrees E p ip argv).bind fun _ => .refl _)
  | exit p =>
    rw [Op.run, Op.run, exit_stop]
  | wait p =>
    rw [Op.run, Op.run, wait_stop]
  | file acts =>
    rw [Op.run, Op.run, fileActs_stop]
  | _ => exact .refl _

/-- A completed operation that follows no null entry pointer is one of the
machine that stops there. -/
theorem Step.stop {E : Env} {s t : Kernel} {op : Op} (h : Step E s op t)
    (hn : FollowsNoNull E s op) : ∃ r, op.run E.stopAtNull s = .ok (r, t) := by
  obtain ⟨r, hr⟩ := h
  exact ⟨r, by rw [(op.run_agrees E).eq_of_not_bad fun e he => he ▸ hn, hr]⟩

end Xv6Lab.Paging
