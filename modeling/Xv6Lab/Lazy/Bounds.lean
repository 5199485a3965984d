import Xv6Lab.Lazy.Refine

/-! The size of a process under lazy allocation. `sys_sbrk` adds to it without a check, and
the size is all that the checks of the other system calls compare with. -/

namespace Xv6Lab.Lazy

open Paging Lib

variable {E : Env} {s t : Machine} {n : Int32} {ns : List Int32}

/-- The check of `argptr`: a process of size `sz` gets past it with a pointer `i` to `size`
bytes. The sum is that of 32-bit words. -/
def Admits (sz : ℕ) (i size : Word) : Prop :=
  0 ≤ size.toInt ∧ i.toNat < sz ∧ (i + size).toNat ≤ sz

/-- The size is in user space, and so is what pointers are admitted to. -/
structure InUserSpace (s : Machine) : Prop where
  le : s.sz ≤ KERNBASE
  admits : ∀ i size, Admits s.sz i size → i.toNat + size.toNat ≤ KERNBASE

/-- What a call of `sbrk(n)` is to return and to make of the size: -1 and nothing if the exact
sum is out of range. -/
def Answers (sz : ℕ) (n : Int32) (r : ℤ) (sz' : ℕ) : Prop :=
  if 0 ≤ sz + n.toInt ∧ sz + n.toInt ≤ KERNBASE then r = toInt sz ∧ (sz' : ℤ) = sz + n.toInt
  else r = -1 ∧ sz' = sz

/-- The calls of `sbrk` in `ns`, one after the other, do what they are to do and keep the size in
user space. -/
def SbrksSafe (E : Env) : List Int32 → Machine → Prop
  | [], s => InUserSpace s
  | n :: ns, s => InUserSpace s ∧ ∃ r t, sysSbrk E .onDemand n.toInt s = .ok (r, t) ∧
      Answers s.sz n r t.sz ∧ SbrksSafe E ns t

/-- The exact sizes that the calls ask for. -/
def sizes (sz : ℤ) (ns : List Int32) : List ℤ := ns.scanl (fun sz n => sz + n.toInt) sz

/-- Up to `KERNBASE` the check is exact. -/
theorem inUserSpace_of_le (h : s.sz ≤ KERNBASE) : InUserSpace s := by
  refine ⟨h, fun i size ⟨h0, hi, hsum⟩ => ?_⟩
  have hsize : size.toNat < 2 ^ 31 := by
    rw [BitVec.toInt_eq_toNat_cond] at h0
    have := size.isLt
    split_ifs at h0 <;> omega
  rw [BitVec.toNat_add] at hsum
  unfold KERNBASE at h
  have hno : i.toNat + size.toNat < 2 ^ 32 := by omega
  rw [Nat.mod_eq_of_lt hno] at hsum
  exact hsum.trans h

theorem sysSbrk_onDemand (n : ℤ) (s : Machine) :
    sysSbrk E .onDemand n s = .ok (toInt s.sz, { s with sz := addSz s.sz n }) := by
  rw [sysSbrk, bind_apply, get_apply]
  simp only [bind_apply, modify_apply, pure_apply]

/-- Within the range the sum is exact. -/
theorem addSz_of_mem {sz : ℕ} {n : ℤ} (h0 : 0 ≤ sz + n) (h1 : sz + n ≤ (KERNBASE : ℤ)) :
    ((addSz sz n : ℕ) : ℤ) = sz + n := by
  have hK : ((KERNBASE : ℕ) : ℤ) = 2 ^ 31 := rfl
  unfold addSz
  rw [Int.emod_eq_of_lt h0 (by omega), Int.toNat_of_nonneg h0]

/-- The old size, as an `int`, is never -1. -/
theorem toInt_ne_neg_one {sz : ℕ} (h : sz ≤ KERNBASE) : toInt sz ≠ -1 := by
  have hlt : sz < 2 ^ 32 := h.trans_lt (by decide)
  unfold KERNBASE at h
  unfold toInt
  rw [BitVec.toInt_eq_toNat_cond, BitVec.toNat_ofNat, Nat.mod_eq_of_lt hlt]
  split_ifs <;> omega

theorem answers_iff (h : s.sz ≤ KERNBASE) :
    Answers s.sz n (toInt s.sz) (addSz s.sz n.toInt) ↔
      0 ≤ s.sz + n.toInt ∧ s.sz + n.toInt ≤ (KERNBASE : ℤ) := by
  unfold Answers
  by_cases hr : 0 ≤ s.sz + n.toInt ∧ s.sz + n.toInt ≤ (KERNBASE : ℤ)
  · rw [if_pos hr]
    exact iff_of_true ⟨rfl, addSz_of_mem hr.1 hr.2⟩ hr
  · rw [if_neg hr]
    exact iff_of_false (fun hx => toInt_ne_neg_one h hx.1) hr

theorem self_mem_sizes (sz : ℤ) (ns : List Int32) : sz ∈ sizes sz ns := by
  unfold sizes
  cases ns <;> simp

theorem sizes_cons (sz : ℤ) (n : Int32) (ns : List Int32) :
    sizes sz (n :: ns) = sz :: sizes (sz + n.toInt) ns := List.scanl_cons

/-- From any size that `exec` sets up, a sequence of calls of `sbrk` keeps the size in user
space, without wrap-around, exactly if none of the exact sizes leaves it. -/
theorem sbrks_safe_iff (E : Env) (s : Machine) (ns : List Int32) (h : s.sz ≤ KERNBASE) :
    SbrksSafe E ns s ↔ ∀ x ∈ sizes s.sz ns, 0 ≤ x ∧ x ≤ (KERNBASE : ℤ) := by
  induction ns generalizing s with
  | nil =>
    unfold SbrksSafe sizes
    simp only [List.scanl_nil, List.mem_singleton, forall_eq]
    exact iff_of_true (inUserSpace_of_le h) ⟨Int.natCast_nonneg _, by exact_mod_cast h⟩
  | cons n ns ih =>
    rw [sizes_cons, List.forall_mem_cons]
    set t : Machine := { s with sz := addSz s.sz n.toInt } with ht
    have hstep : SbrksSafe E (n :: ns) s ↔ InUserSpace s ∧
        Answers s.sz n (toInt s.sz) t.sz ∧ SbrksSafe E ns t := by
      rw [SbrksSafe, sysSbrk_onDemand]
      refine and_congr_right fun _ => ⟨?_, fun hx => ⟨_, _, rfl, hx⟩⟩
      rintro ⟨r, u, he, hx⟩
      cases he
      exact hx
    rw [hstep, ht, answers_iff h]
    have hnow : (0 ≤ (s.sz : ℤ) ∧ (s.sz : ℤ) ≤ KERNBASE) ∧ InUserSpace s :=
      ⟨⟨Int.natCast_nonneg _, by exact_mod_cast h⟩, inUserSpace_of_le h⟩
    constructor
    · rintro ⟨-, hr, hrest⟩
      have hsum := addSz_of_mem hr.1 hr.2
      have hle : addSz s.sz n.toInt ≤ KERNBASE := by
        rw [← hsum] at hr
        exact_mod_cast hr.2
      refine ⟨hnow.1, ?_⟩
      rw [← hsum]
      exact (ih _ hle).1 hrest
    · rintro ⟨-, hall⟩
      have hr := hall _ (self_mem_sizes _ ns)
      have hsum := addSz_of_mem hr.1 hr.2
      have hle : addSz s.sz n.toInt ≤ KERNBASE := by
        have h1 := hr.2
        rw [← hsum] at h1
        exact_mod_cast h1
      refine ⟨hnow.2, hr, (ih _ hle).2 ?_⟩
      rw [← hsum] at hall
      exact hall

/-- A process of one page grows by a page and gives it back. -/
theorem sbrks_safe_demo : SbrksSafe demoEnv [4096, -4096] demo := by
  apply (sbrks_safe_iff demoEnv demo [4096, -4096] (by decide)).2
  decide

/-- It gives back a byte more than it has. -/
theorem sbrk_wraps : ∃ s, s.sz ≤ KERNBASE ∧ ¬ SbrksSafe demoEnv [-4097] s := by
  refine ⟨demo, by decide, ?_⟩
  rintro ⟨-, r, t, he, hans, -⟩
  rw [sysSbrk_onDemand] at he
  cases he
  exact absurd ((answers_iff (by decide)).1 hans) (by decide)

end Xv6Lab.Lazy
