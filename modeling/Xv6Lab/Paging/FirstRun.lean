import Mathlib.Order.Bounds.Basic
import Xv6Lab.Paging.BlocksSpec

/-! `balloc_page` finds the first eight consecutive free blocks: `balloc` hands out the free blocks
in ascending order, and a gap starts the run again. -/

namespace Xv6Lab.Paging

open Disk Lib

variable {s t u : Kernel} {size i c b n b0 : ℕ} {alloc : List ℕ} {bit : ℕ → Bool}

/-- The eight blocks from `b` on are free. -/
def FreeRun (bit : ℕ → Bool) (size b : ℕ) : Prop := ∀ x ∈ group b, bit x = false ∧ x < size

/-- The blocks below `c` have been tried: `alloc` has the free ones, and the last `i` of them are
those just below `c`, after a block in use. No eight of them are consecutive but the last. -/
structure Swept (size : ℕ) (s : Kernel) (i : ℕ) (alloc : List ℕ) (t : Kernel) (c : ℕ) : Prop
    extends Tried size s i alloc t where
  mem_iff : ∀ x, x ∈ alloc ↔ x < c ∧ s.bit x = false
  bound : c ≤ size
  run : ∀ k, k < i → alloc[k]? = some (c - 1 - k)
  below : i ≤ c
  stop : i = c ∨ s.bit (c - i - 1) = true
  earlier : ∀ b, b + 8 ≤ c → (i = 8 → b + 8 ≠ c) → ∃ x, b ≤ x ∧ x < b + 8 ∧ s.bit x = true

namespace Swept

theorem start (size : ℕ) (s : Kernel) : Swept size s 0 [] s 0 where
  toTried := .start size s
  mem_iff := by simp
  bound := Nat.zero_le _
  run := by simp
  below := le_rfl
  stop := .inl rfl
  earlier := by omega

/-- A block at or above `c` that is in use now was in use before. -/
theorem used (h : Swept size s i alloc t c) {x : ℕ} (hx : c ≤ x) (ht : t.bit x = true) :
    s.bit x = true := by
  have hn : x ∉ alloc := fun hm => absurd ((h.mem_iff x).1 hm).1 (by omega)
  rwa [h.bit, markBits, if_neg hn] at ht

theorem runIndex_eq (h : Swept size s i alloc t c) (b : ℕ) :
    runIndex i b alloc = if b = c then i else 0 := by
  cases i with
  | zero =>
    have hz := runIndex_le 0 b alloc
    split_ifs <;> omega
  | succ i =>
    have hhead := h.run 0 (by omega)
    have hbelow := h.below
    cases alloc with
    | nil => cases hhead
    | cons prev rest =>
      simp only [List.getElem?_cons_zero, Option.some.injEq] at hhead
      rw [runIndex]
      split_ifs <;> omega

/-- `balloc` takes the first free block `b`. -/
theorem balloc (h : Swept size s i alloc t c) (hi : i < 8)
    (hb : firstFree t.bit size 0 = some b) :
    Swept size s (runIndex i b alloc + 1) (b :: alloc)
      ((t.setBit b true).setBlock b fun _ => 0#32) (b + 1) := by
  obtain ⟨hfree, -, hlt⟩ := firstFree_some hb
  have hnew : b ∉ alloc ∧ s.bit b = false := by
    rw [h.bit, markBits] at hfree
    split_ifs at hfree with hm
    exact ⟨hm, hfree⟩
  have hcb : c ≤ b := by
    by_contra hc
    exact hnew.1 ((h.mem_iff b).2 ⟨by omega, hnew.2⟩)
  have hgap : ∀ x, c ≤ x → x < b → s.bit x = true := fun x h1 h2 =>
    h.used h1 (firstFree_least hb (Nat.zero_le x) h2)
  have hbelow := h.below
  refine ⟨h.toTried.balloc hfree (by omega), fun x => ?_, by omega, ?_, ?_, ?_, fun b0 h1 h2 => ?_⟩
  · rw [List.mem_cons, h.mem_iff]
    constructor
    · rintro (rfl | ⟨hx, hxf⟩)
      · exact ⟨by omega, hnew.2⟩
      · exact ⟨by omega, hxf⟩
    · rintro ⟨hx, hxf⟩
      rcases Nat.lt_or_ge x c with hxc | hxc
      · exact .inr ⟨hxc, hxf⟩
      · left
        by_contra hne
        rw [hgap x hxc (by omega)] at hxf
        cases hxf
  · rw [h.runIndex_eq]
    intro k hk
    cases k with
    | zero => rfl
    | succ k =>
      split_ifs at hk with hbc
      · rw [List.getElem?_cons_succ, h.run k (by omega), hbc]
        congr 1
        omega
      · omega
  · rw [h.runIndex_eq]
    split_ifs <;> omega
  · rw [h.runIndex_eq]
    split_ifs with hbc
    · subst hbc
      rcases h.stop with hic | hstop
      · exact .inl (by omega)
      · exact .inr (by rwa [show b + 1 - (i + 1) - 1 = b - i - 1 by omega])
    · exact .inr (hgap _ (by omega) (by omega))
  · rw [h.runIndex_eq] at h2
    rcases Nat.lt_or_ge c (b0 + 8) with hc | hc
    swap
    · exact h.earlier b0 hc (by omega)
    split_ifs at h2 with hbc
    · -- a run that ends with `b` goes back past the block in use
      rcases h.stop with hic | hstop
      · omega
      · exact ⟨_, by omega, by omega, hstop⟩
    · rcases Nat.lt_or_ge (b0 + 7) b with h7 | h7
      · exact ⟨b0 + 7, by omega, by omega, hgap _ (by omega) h7⟩
      · exact ⟨b - 1, by omega, by omega, hgap _ (by omega) (by omega)⟩

/-- The search ends behind the first run of eight. -/
theorem isLeast (h : Swept size s 8 alloc t c) :
    IsLeast {b | FreeRun s.bit size b} (c - 8) := by
  have hc := h.below
  refine ⟨fun x hx => ?_, fun b hb => ?_⟩
  · obtain ⟨h1, h2⟩ := mem_group.1 hx
    have hget := h.run (c - 1 - x) (by omega)
    rw [show c - 1 - (c - 1 - x) = x by omega] at hget
    exact h.free x (List.mem_of_getElem? hget)
  · by_contra hlt
    obtain ⟨x, h1, h2, hx⟩ := h.earlier b (by omega) (by omega)
    rw [(hb x (mem_group.2 ⟨h1, h2⟩)).1] at hx
    cases hx

end Swept

/-- The loop ends with eight consecutive blocks, or `balloc` panics and there are none. More rounds
than there are blocks make no difference. -/
theorem ballocPageLoop_first (fuel : ℕ) (h : Swept size s i alloc t c) (hi : i ≤ 8)
    (hf : size < fuel + c) :
    (∃ l u c, ballocPageLoop size fuel i alloc t = .ok (l, u) ∧ Swept size s 8 l u c) ∨
      (ballocPageLoop size fuel i alloc t = .error (.panic "balloc: out of blocks") ∧
        ∀ b, b + 8 ≤ size → ∃ x, b ≤ x ∧ x < b + 8 ∧ s.bit x = true) := by
  induction fuel generalizing i alloc t c with
  | zero =>
    have := h.bound
    omega
  | succ fuel ih =>
    rw [ballocPageLoop]
    by_cases hlt : i < 8
    · rw [if_pos hlt, bind_apply]
      cases hfree : firstFree t.bit size 0 with
      | none =>
        right
        refine ⟨by rw [balloc_none hfree], fun b hb => ?_⟩
        rcases Nat.lt_or_ge c (b + 8) with hc | hc
        · exact ⟨b + 7, by omega, by omega,
            h.used (by omega) (firstFree_none hfree (Nat.zero_le _) (by omega))⟩
        · exact h.earlier b hc (by omega)
      | some b =>
        rw [balloc_some hfree]
        have hnext := h.balloc hlt hfree
        have hle := runIndex_le i b alloc
        have hcb : c ≤ b := by
          by_contra hc
          obtain ⟨hb, -, -⟩ := firstFree_some hfree
          rw [h.bit, markBits] at hb
          split_ifs at hb with hm
          exact hm ((h.mem_iff b).2 ⟨by omega, hb⟩)
        exact ih hnext (by omega) (by omega)
    · obtain rfl : i = 8 := by omega
      exact .inl ⟨alloc, t, c, by rw [if_neg hlt]; rfl, h⟩

/-- `balloc_page` returns the first eight consecutive free blocks, or there are none. -/
theorem ballocPage_cases (size : ℕ) (s : Kernel) :
    (∃ b t, ballocPage size s = .ok (b, t) ∧ IsLeast {b | FreeRun s.bit size b} b) ∨
      (ballocPage size s = .error (.panic "balloc: out of blocks") ∧
        ∀ b, ¬ FreeRun s.bit size b) := by
  have hloop := ballocPageLoop_first (size + 1) (Swept.start size s) (Nat.zero_le 8) (by omega)
  rcases hloop with ⟨l, u, c, hl, h⟩ | ⟨hl, hno⟩
  · left
    have hseven := h.run 7 (by omega)
    have hc := h.below
    have hget : l.getD 7 0 = c - 8 := by
      rw [List.getD_eq_getElem?_getD, hseven]
      simp only [Option.getD_some]
      omega
    rw [ballocPage, bind_apply, hl]
    simp only [bind_apply, h.bfreeAll, modify_apply, pure_apply, hget]
    exact ⟨c - 8, _, rfl, h.isLeast⟩
  · right
    refine ⟨by rw [ballocPage, bind_apply, hl], fun b hb => ?_⟩
    have hlast := (hb (b + 7) (mem_group.2 ⟨by omega, by omega⟩)).2
    obtain ⟨x, h1, h2, hx⟩ := hno b (by omega)
    rw [(hb x (mem_group.2 ⟨h1, h2⟩)).1] at hx
    cases hx

/-- `balloc_page` returns the first eight consecutive free blocks and marks them, and where there
are none it panics. -/
theorem ballocPage_first (size : ℕ) (s : Kernel) :
    (∀ b, IsLeast {b | FreeRun s.bit size b} b → ∃ t, ballocPage size s = .ok (b, t) ∧
      (∀ x ∈ group b, s.bit x = false ∧ t.bit x = true) ∧ (∀ x, x ∉ group b → t.bit x = s.bit x) ∧
      t.numallocblocks = s.numallocblocks + 1) ∧
    ((∀ b, ¬ FreeRun s.bit size b) →
      ballocPage size s = .error (.panic "balloc: out of blocks")) := by
  rcases ballocPage_cases size s with ⟨b, t, ht, hleast⟩ | ⟨he, hnone⟩
  · have htook := ballocPage_spec size s _ _ ht
    constructor
    · intro b' hb'
      obtain rfl : b' = b := hb'.unique hleast
      refine ⟨t, ht, fun x hx => ⟨(htook.free x hx).1, ?_⟩, fun x hx => ?_, htook.count⟩
      · rw [htook.bit, markBits, if_pos hx]
      · rw [htook.bit, markBits, if_neg hx]
    · intro hno
      exact absurd htook.free (hno b)
  · constructor
    · intro b hb
      exact absurd hb.1 (hnone b)
    · intro _
      exact he

/-- Blocks 0 to 2 and block 9 are in use. -/
def fragmented : Kernel where
  mem := fun _ _ => 0#32
  freelist := []
  bit := fun b => b < 3 ∨ b = 9
  block := fun _ _ => 0#32
  numallocblocks := 0
  files := []
  kpgdir := 299
  proc := fun _ => ⟨.UNUSED, 0, none, 0, 0, 0⟩
  nextpid := 1
  initproc := 0

theorem ballocPage_first_fragmented :
    (∃ t, ballocPage 20 fragmented = .ok (10, t) ∧
      (∀ x ∈ group 10, fragmented.bit x = false ∧ t.bit x = true) ∧
      (∀ x, x ∉ group 10 → t.bit x = fragmented.bit x) ∧
      t.numallocblocks = fragmented.numallocblocks + 1) ∧
    ballocPage 17 fragmented = .error (.panic "balloc: out of blocks") := by
  have hused : ∀ size b, b < 10 → ¬ FreeRun fragmented.bit size b := by
    intro size b hb h
    rcases Nat.lt_or_ge b 2 with h2 | h2
    · have hfree := (h b (mem_group.2 ⟨le_rfl, by omega⟩)).1
      simp [fragmented] at hfree
      omega
    · have hfree := (h 9 (mem_group.2 ⟨by omega, by omega⟩)).1
      simp [fragmented] at hfree
  refine ⟨(ballocPage_first 20 fragmented).1 10 ⟨?_, fun b hb => ?_⟩,
    (ballocPage_first 17 fragmented).2 fun b hb => ?_⟩
  · intro x hx
    obtain ⟨h1, h2⟩ := mem_group.1 hx
    refine ⟨?_, by omega⟩
    simp [fragmented]
    omega
  · by_contra hlt
    exact hused 20 b (by omega) hb
  · have hlast := (hb (b + 7) (mem_group.2 ⟨by omega, by omega⟩)).2
    exact hused 17 b (by omega) hb

end Xv6Lab.Paging
