import Xv6Lab.Lib.Budget
import Xv6Lab.Paging.FirstRun
import Xv6Lab.Paging.ForkRounds
import Xv6Lab.Paging.Recent

/-! The disk blocks that a fork takes. The allocator hands out the first free blocks, so that the
blocks in use stay at the low end of the disk; a page that is evicted takes a group of eight and
what the file layer allocates for its swap file. -/

namespace Xv6Lab.Paging

open Disk Lib

variable {E : Env} {g g' : Ghost} {s t x : Kernel} {c d k n v pid size a : ℕ} {α : Type}

/-! ### Single blocks -/

/-- The blocks from `k` on are free. -/
def FreeFrom (size k : ℕ) (s : Kernel) : Prop := ∀ b, k ≤ b → b < size → s.bit b = false

/-- The program takes no more than `n` blocks and does not run out of them. -/
abbrev Takes (size n : ℕ) (m : K α) (s : Kernel) : Prop :=
  Spends (FreeFrom size) size (· = .panic "balloc: out of blocks") n m s

theorem FreeFrom.mono {i j : ℕ} (hij : i ≤ j) (h : FreeFrom size i s) : FreeFrom size j s :=
  fun b hb hlt => h b (by omega) hlt

theorem Takes.mono {m : K α} {j : ℕ} (hn : n ≤ j) (h : Takes size n m s) : Takes size j m s :=
  Spends.mono (fun _ _ _ hij ht => ht.mono hij) hn h

/-- The action allocates a block. -/
def FileAct.allocates : FileAct → Bool
  | .balloc => true
  | _ => false

/-- No call into the file layer allocates more than `a` blocks. -/
def Env.Allocates (E : Env) (a : ℕ) : Prop :=
  ∀ s call, (E.inode s call).countP FileAct.allocates ≤ a

end Xv6Lab.Paging
