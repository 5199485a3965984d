import Xv6Lab.Paging.ForkCopy
import Xv6Lab.Paging.ForkDisk
import Xv6Lab.Paging.Stops

/-! Fork over lazily grown memory: when `copyuvm` copes with pages of the parent that have never
been touched. -/

namespace Xv6Lab.Paging

open Lib

variable {E : Env} {g g' : Ghost} {s s1 t u : Kernel} {a c d v k m n sz pid : ℕ}

/-- The free frames let the copy come as far as page `v`: ten are for the directory of the child,
and one must be left for each of its page tables when it is the turn of that. -/
def Kernel.Reaches (s : Kernel) (d v : ℕ) : Prop :=
  10 ≤ s.freelist.length ∧
    ∀ w < v, w % 1024 = 0 → 10 + s.copyNeeds d (w + 1) ≤ s.freelist.length

theorem Kernel.Reaches.mono (h : s.Reaches d v) (hk : k ≤ v) : s.Reaches d k :=
  ⟨h.1, fun w hw h0 => h.2 w (by omega) h0⟩

/-! ### A round that meets a page never touched -/

theorem Kernel.Mapped.ne_zero (h : s.Mapped d v) : s.pte d v ≠ 0#32 := by
  intro h0
  rw [Kernel.Mapped, h0, present_zero, swapped_zero] at h
  exact h.elim (by simp) (by simp)

end Xv6Lab.Paging
