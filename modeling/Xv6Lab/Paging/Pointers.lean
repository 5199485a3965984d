import Xv6Lab.Paging.Words
import Xv6Lab.Paging.Drain

/-! Pointers from user mode (`syscall.c`): the checks on the arguments of a system
call compare `uint` sums with the size of the process. Since no size exceeds
`KERNBASE` these sums do not wrap around, and what is accepted lies in user memory. -/

namespace Xv6Lab.Paging

open Lib

variable {E : Env} {s : Kernel} {p : Slot} {sz : Word}

/-- `*(int*)addr`, the low byte first. -/
def kloadInt (E : Env) (pgdir pid : ℕ) (addr : Word) : K Word := do
  let b0 ← kload E pgdir pid addr.toNat
  let b1 ← kload E pgdir pid (addr + 1#32).toNat
  let b2 ← kload E pgdir pid (addr + 2#32).toNat
  let b3 ← kload E pgdir pid (addr + 3#32).toNat
  pure (b3 ++ b2 ++ b1 ++ b0)

/-- Fetch the int at `addr` from the current process; `none` is the result -1. -/
def fetchint (E : Env) (p : Slot) (addr : Word) : K (Option Word) := do
  let s ← get
  let curproc := s.proc p
  if curproc.size ≤ addr ∨ curproc.size < addr + 4#32 then pure none
  else do
    let ip ← kloadInt E curproc.pgdir curproc.pid addr
    pure (some ip)

/-- The loop of `fetchstr` from `s` up to `ep`, `n` bytes being left. -/
def fetchstrLoop (E : Env) (pgdir pid : ℕ) (pp : Word) : (n : ℕ) → (s : Word) → K (Option Word)
  | 0, _ => pure none
  | n + 1, s => do
    let b ← kload E pgdir pid s.toNat
    if b = 0#8 then pure (some (s - pp)) else fetchstrLoop E pgdir pid pp n (s + 1#32)

/-- Fetch the nul-terminated string at `addr` from the current process: the pointer
and the length of the string, not including nul. -/
def fetchstr (E : Env) (p : Slot) (addr : Word) : K (Option (Word × Word)) := do
  let s ← get
  let curproc := s.proc p
  if curproc.size ≤ addr then pure none
  else do
    match ← fetchstrLoop E curproc.pgdir curproc.pid addr (curproc.size - addr).toNat addr with
    | none => pure none
    | some len => pure (some (addr, len))

/-- Fetch the `n`th 32-bit system call argument of a call made with stack pointer `esp`. -/
def argint (E : Env) (p : Slot) (esp n : Word) : K (Option Word) :=
  fetchint E p (esp + 4#32 + 4#32 * n)

/-- Fetch the `n`th argument as a pointer to `size` bytes of memory; `size` is an int. -/
def argptr (E : Env) (p : Slot) (esp n size : Word) : K (Option Word) := do
  match ← argint E p esp n with
  | none => pure none
  | some i => do
    let s ← get
    let curproc := s.proc p
    if size.slt 0#32 ∨ curproc.size ≤ i ∨ curproc.size < i + size then pure none else pure (some i)

/-- Fetch the `n`th argument as a string pointer. -/
def argstr (E : Env) (p : Slot) (esp n : Word) : K (Option (Word × Word)) := do
  match ← argint E p esp n with
  | none => pure none
  | some addr => fetchstr E p addr

/-! ### Ranges -/

/-- The `n` bytes from `a` on lie below `sz`, and their end is computed without
wrapping around. -/
structure InUser (sz a n : Word) : Prop where
  below : a.toNat + n.toNat ≤ sz.toNat
  nowrap : (a + n).toNat = a.toNat + n.toNat

/-- The comparison of the source is exact for sizes up to `KERNBASE` and lengths
below `2 ^ 31`. -/
theorem inUser_of_le {a n : Word} (hsz : sz ≤ Uint.KERNBASE) (ha : a < sz) (hn : n.toNat < 2 ^ 31)
    (h : a + n ≤ sz) : InUser sz a n := by
  have hK : sz.toNat ≤ 2 ^ 31 := hsz
  have hlt : a.toNat < sz.toNat := ha
  have hsum : (a + n).toNat = a.toNat + n.toNat := by
    rw [BitVec.toNat_add]
    exact Nat.mod_eq_of_lt (by omega)
  have hle : (a + n).toNat ≤ sz.toNat := h
  exact ⟨by rw [← hsum]; exact hle, hsum⟩

theorem toNat_lt_of_not_slt {n : Word} (h : ¬ n.slt 0#32 = true) : n.toNat < 2 ^ 31 := by
  rw [BitVec.slt_iff_toInt_lt] at h
  have h0 : ¬ n.toInt < 0 := h
  rw [BitVec.toInt_eq_toNat_cond] at h0
  have := n.isLt
  split_ifs at h0 <;> omega

theorem Sized.size_le (h : Sized s) (p : Slot) : (s.proc p).size ≤ Uint.KERNBASE := by
  rw [BitVec.le_def, Proc.size_toNat (h p)]
  exact h p

/-- The sum that `growproc` compares with `KERNBASE` does not wrap around. -/
theorem Sized.add_nowrap (h : Sized s) (p : Slot) {n : Word} (hn : ¬ n.slt 0#32 = true) :
    ((s.proc p).size + n).toNat = (s.proc p).size.toNat + n.toNat := by
  have hsz : (s.proc p).size.toNat ≤ 2 ^ 31 := h.size_le p
  have hlt := toNat_lt_of_not_slt hn
  rw [BitVec.toNat_add]
  exact Nat.mod_eq_of_lt (by omega)

/-! ### The checks -/

theorem fetchint_inUser (h : Sized s) (p : Slot) (addr : Word) :
    wp (fetchint E p addr) (fun r _ => r ≠ none → InUser (s.proc p).size addr 4#32) s := by
  unfold fetchint
  rw [wp_bind, wp_get]
  simp only
  split_ifs with hc
  · rw [wp_pure]
    exact fun hr => absurd rfl hr
  · rw [not_or, BitVec.not_le, BitVec.not_lt] at hc
    intro _ _ _ _
    exact inUser_of_le (h.size_le p) hc.1 (by decide) hc.2

theorem kloadInt_procs (d pid : ℕ) (addr : Word) : KeepsProcs (kloadInt E d pid addr) := by
  apply (kload_procs d pid _).bind
  intro _
  apply (kload_procs d pid _).bind
  intro _
  apply (kload_procs d pid _).bind
  intro _
  exact (kload_procs d pid _).bind fun _ => preserves_pure _

theorem fetchint_procs (p : Slot) (addr : Word) : KeepsProcs (fetchint E p addr) := by
  apply preserves_get.bind
  intro s
  apply (preserves_pure _).ite
  exact (kloadInt_procs _ _ addr).bind fun _ => preserves_pure _

theorem argptr_inUser (h : Sized s) (p : Slot) (esp n size : Word) :
    wp (argptr E p esp n size) (fun r _ => ∀ i ∈ r,
      0 ≤ size.toInt ∧ i < (s.proc p).size ∧ InUser (s.proc p).size i size) s := by
  unfold argptr
  rw [wp_bind]
  refine wp_mono (fetchint_procs p (esp + 4#32 + 4#32 * n) s) fun r t ht => ?_
  cases r with
  | none =>
    rw [wp_pure]
    rintro i ⟨⟩
  | some i =>
    rw [wp_bind, wp_get]
    simp only [ht]
    split_ifs with hc
    · rw [wp_pure]
      rintro i ⟨⟩
    · rw [wp_pure]
      rintro i ⟨⟩
      rw [not_or, not_or, BitVec.not_le, BitVec.not_lt] at hc
      obtain ⟨hsize, hlt, hle⟩ := hc
      refine ⟨?_, hlt, inUser_of_le (h.size_le p) hlt (toNat_lt_of_not_slt hsize) hle⟩
      rw [BitVec.slt_iff_toInt_lt] at hsize
      exact not_lt.1 hsize

/-- A string that is found ends at a byte below `ep`. -/
theorem fetchstrLoop_lt (E : Env) (d pid : ℕ) (pp : Word) (n k : ℕ)
    (hk : pp.toNat + k + n < 2 ^ 32) (s : Kernel) : wp (fetchstrLoop E d pid pp n (pp + BitVec.ofNat 32 k))
      (fun r _ => ∀ len ∈ r, k ≤ len.toNat ∧ len.toNat < k + n) s := by
  induction n generalizing k s with
  | zero =>
    rw [fetchstrLoop, wp_pure]
    rintro len ⟨⟩
  | succ n ih =>
    unfold fetchstrLoop
    rw [wp_bind]
    intro b t _
    split_ifs
    · rw [wp_pure]
      rintro len ⟨⟩
      have hlen : (pp + BitVec.ofNat 32 k - pp).toNat = k := by
        rw [BitVec.add_comm, BitVec.add_sub_cancel, BitVec.toNat_ofNat]
        exact Nat.mod_eq_of_lt (by omega)
      omega
    · rw [BitVec.add_assoc, show BitVec.ofNat 32 k + 1#32 = BitVec.ofNat 32 (k + 1) by
        rw [BitVec.ofNat_add]]
      refine wp_mono (ih (k + 1) (by omega) t) fun r _ hr len hlen => ?_
      have := hr len hlen
      omega

theorem fetchstr_inUser (h : Sized s) (p : Slot) (addr : Word) :
    wp (fetchstr E p addr) (fun r _ => ∀ x ∈ r,
      x.1 = addr ∧ InUser (s.proc p).size addr (x.2 + 1#32) ∧
        (x.2 + 1#32).toNat = x.2.toNat + 1) s := by
  unfold fetchstr
  rw [wp_bind, wp_get]
  simp only
  split_ifs with hc
  · rw [wp_pure]
    rintro x ⟨⟩
  · rw [BitVec.not_le] at hc
    have hlt : addr.toNat < (s.proc p).size.toNat := hc
    have hK : (s.proc p).size.toNat ≤ 2 ^ 31 := h.size_le p
    have hn : ((s.proc p).size - addr).toNat = (s.proc p).size.toNat - addr.toNat := by
      rw [BitVec.toNat_sub]
      omega
    rw [wp_bind, hn]
    have hloop := fetchstrLoop_lt E (s.proc p).pgdir (s.proc p).pid addr
      ((s.proc p).size.toNat - addr.toNat) 0 (by omega) s
    rw [BitVec.add_zero] at hloop
    refine wp_mono hloop fun r _ hr => ?_
    cases r with
    | none =>
      rw [wp_pure]
      rintro x ⟨⟩
    | some len =>
      rw [wp_pure]
      rintro x ⟨⟩
      have hlen := (hr len rfl).2
      have hone : (len + 1#32).toNat = len.toNat + 1 := by
        rw [BitVec.toNat_add]
        exact Nat.mod_eq_of_lt (by simp only [BitVec.toNat_ofNat]; omega)
      refine ⟨rfl, ⟨by rw [hone]; omega, ?_⟩, hone⟩
      rw [BitVec.toNat_add, hone]
      exact Nat.mod_eq_of_lt (by omega)

/-! ### Every run -/

/-- What is accepted from process `p` lies in `[0, sz)`, within `[0, KERNBASE)`. -/
structure Accepts (E : Env) (s : Kernel) (p : Slot) : Prop where
  size : (s.proc p).size ≤ Uint.KERNBASE
  sum : ∀ n : Word, ¬ n.slt 0#32 = true →
    ((s.proc p).size + n).toNat = (s.proc p).size.toNat + n.toNat
  fetch_int : ∀ addr r t, fetchint E p addr s = .ok (some r, t) → InUser (s.proc p).size addr 4#32
  arg_int : ∀ esp n r t, argint E p esp n s = .ok (some r, t) →
    InUser (s.proc p).size (esp + 4#32 + 4#32 * n) 4#32
  arg_ptr : ∀ esp n size i t, argptr E p esp n size s = .ok (some i, t) →
    0 ≤ size.toInt ∧ i < (s.proc p).size ∧ InUser (s.proc p).size i size
  fetch_str : ∀ addr pp len t, fetchstr E p addr s = .ok (some (pp, len), t) →
    pp = addr ∧ InUser (s.proc p).size addr (len + 1#32) ∧ (len + 1#32).toNat = len.toNat + 1
  arg_str : ∀ esp n pp len t, argstr E p esp n s = .ok (some (pp, len), t) →
    InUser (s.proc p).size pp (len + 1#32) ∧ (len + 1#32).toNat = len.toNat + 1

theorem Sized.accepts (h : Sized s) (p : Slot) : Accepts E s p where
  size := h.size_le p
  sum _ := h.add_nowrap p
  fetch_int addr r t hr := fetchint_inUser h p addr _ t hr (Option.some_ne_none r)
  arg_int esp n r t hr := fetchint_inUser h p _ _ t hr (Option.some_ne_none r)
  arg_ptr esp n size i t hr := argptr_inUser h p esp n size _ t hr i rfl
  fetch_str addr pp len t hr := fetchstr_inUser h p addr _ t hr (pp, len) rfl
  arg_str esp n pp len t hr := by
    have hwp : wp (argstr E p esp n) (fun r _ => ∀ x ∈ r,
        InUser (s.proc p).size x.1 (x.2 + 1#32) ∧ (x.2 + 1#32).toNat = x.2.toNat + 1) s := by
      unfold argstr
      rw [wp_bind]
      refine wp_mono (fetchint_procs p (esp + 4#32 + 4#32 * n) s) fun r t ht => ?_
      cases r with
      | none =>
        rw [wp_pure]
        rintro x ⟨⟩
      | some addr =>
        have hs : Sized t := h.congr fun q => by rw [ht]
        refine wp_mono (fetchstr_inUser hs p addr) fun r _ hr x hx => ?_
        obtain ⟨hpp, hin, hone⟩ := hr x hx
        rw [hpp, ← ht]
        exact ⟨hin, hone⟩
    exact hwp _ t hr (pp, len) rfl

/-- Whatever system calls, faults and memory accesses follow the boot, and with
every program and every `int` given to `sbrk`: sizes stay at most `KERNBASE`, the sum
in `growproc` does not wrap around, and every accepted pointer lies in user memory. -/
theorem accepted_in_user_space (E : Env) (init : Page) (mem : ℕ → Page) (block : ℕ → Block)
    {s t : Kernel} (hb : boot E init (E.powerOn mem block) = .ok ((), s))
    (hr : Run (Uint.Step E) (fun _ _ => True) s t) (p : Slot) : Accepts E t p := by
  have hs : Sized s := boot_sized (powerOn_sized E mem block) init () s hb
  exact (hs.run hr).accepts p

theorem Uint.sbrk_step {n : ℤ} {w : Word} (hw : BitVec.ofInt 32 n = w) (hp : (s.proc p).running)
    (hn : ¬ (w.slt 0#32 ∨ Uint.KERNBASE < w ∨ Uint.KERNBASE < (s.proc p).size + w)) :
    Uint.Step E s (.sbrk p n)
      (s.setProc p { s.proc p with sz := ((s.proc p).size + w).toNat }) := by
  refine ⟨none, ?_⟩
  simp only [Uint.run, entry, bind_apply, get_apply, hp, if_true, Uint.growproc, hw, if_neg hn,
    modify_apply, pure_apply]

/-- The first process may grow to `KERNBASE` itself. -/
theorem accepted_at_KERNBASE : ∃ s t,
    boot demo (fun _ => 0#32) (demo.powerOn (fun _ _ => 0#32) fun _ _ => 0#32) = .ok ((), s) ∧
      Uint.Step demo s (.sbrk 0 0x7FFFF000) t ∧ (t.proc 0).size = Uint.KERNBASE ∧
      Accepts demo t 0 := by
  obtain ⟨g, s, d, hb, h⟩ := boot_total demo (fun _ => 0#32) (fun _ _ => 0#32) fun _ _ => 0#32
  have hrun : (s.proc 0).running := by
    rw [Proc.running, h.state]
    decide
  have hsize : (s.proc 0).size = 0x1000#32 := by
    rw [Proc.size, h.sz]
    rfl
  have hst := Uint.sbrk_step (E := demo) (n := 0x7FFFF000) (w := 0x7FFFF000#32) (by decide) hrun
    (by rw [hsize]; decide)
  refine ⟨s, _, hb, hst, ?_, accepted_in_user_space demo _ _ _ hb (.single trivial hst) 0⟩
  rw [Kernel.setProc_proc, Function.update_self, Proc.size, hsize]
  exact (BitVec.ofNat_toNat _ _).trans (by decide)

end Xv6Lab.Paging
