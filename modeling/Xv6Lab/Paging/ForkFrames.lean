import Mathlib.Data.Nat.Count
import Xv6Lab.Paging.KvmFrames

/-! The frames that a fork takes. A round of `copyuvm` takes one for a page that comes from disk, one
for the copy and one for a new page table of the child. When no frame is free, the first present
page of the parent from page 1 on loses its own: the pages that are copied already come first, and
the page that is being copied only after these. -/

namespace Xv6Lab.Paging

open Lib

variable {E : Env} {g g' : Ghost} {s t x z : Kernel} {c d k m v w pid : ℕ}

/-! ### Counting -/

theorem count_congr {p q : ℕ → Prop} [DecidablePred p] [DecidablePred q]
    (h : ∀ x < k, p x ↔ q x) : Nat.count p k = Nat.count q k := by
  apply le_antisymm
  · exact Nat.count_mono_left fun x hx => (h x hx).1
  · exact Nat.count_mono_left fun x hx => (h x hx).2

/-- The one number `w` is counted no more. -/
theorem count_drop {p q : ℕ → Prop} [DecidablePred p] [DecidablePred q] (hp : p w) (hq : ¬ q w)
    (h : ∀ x < k, x ≠ w → (q x ↔ p x)) (hw : w < k) : Nat.count q k + 1 = Nat.count p k := by
  induction k with
  | zero => cases hw
  | succ k ih =>
    rw [Nat.count_succ, Nat.count_succ]
    by_cases hk : w = k
    · subst hk
      rw [if_pos hp, if_neg hq, count_congr fun x hx => h x (by omega) hx.ne]
    · have hlast : q k ↔ p k := h k (Nat.lt_succ_self k) (Ne.symm hk)
      simp only [hlast]
      rw [← ih (fun x hx => h x (by omega)) (by omega)]
      omega

/-! ### What is at hand -/

instance (s : Kernel) (d v : ℕ) : Decidable (s.Mapped d v) := inferInstanceAs (Decidable (_ ∨ _))

/-- The frames to be had before page `k` or a later one is evicted: those that are free, and those
of the present pages from page 1 on. -/
def Kernel.reserve (s : Kernel) (d k : ℕ) : ℕ :=
  s.freelist.length + Nat.count (fun w => 1 ≤ w ∧ present (s.pte d w) = true) k

/-- The pages from 1 up to `k` that are present or swapped. -/
def Kernel.nmapped (s : Kernel) (d k : ℕ) : ℕ := Nat.count (fun w => 1 ≤ w ∧ s.Mapped d w) k

/-- A frame for page `v` if it has to come from disk. -/
def Kernel.owed (s : Kernel) (d v : ℕ) : ℕ := if swapped (s.pte d v) = true then 1 else 0

/-- A frame for the page table of page `v` of the child `c`, if it has none. -/
def Kernel.lacks (s : Kernel) (c v : ℕ) : ℕ := if present (s.mem c (pdx v)) = true then 0 else 1

/-- What the rounds of `copyuvm` before page `v` take: a frame for each copy, for each swapped page
and for each page table of the child. -/
def Kernel.copyNeeds (s : Kernel) (d v : ℕ) : ℕ :=
  v + Nat.count (fun w => swapped (s.pte d w) = true) v + (v + 1023) / 1024

theorem copyNeeds_succ (s : Kernel) (d v : ℕ) : s.copyNeeds d (v + 1) =
    s.copyNeeds d v + s.owed d v + 1 + if v % 1024 = 0 then 1 else 0 := by
  unfold Kernel.copyNeeds Kernel.owed
  rw [Nat.count_succ]
  by_cases hv : v % 1024 = 0
  · rw [if_pos hv]
    omega
  · rw [if_neg hv]
    omega

theorem nmapped_succ (s : Kernel) (d v : ℕ) :
    s.nmapped d (v + 1) = s.nmapped d v + if 1 ≤ v ∧ s.Mapped d v then 1 else 0 := by
  unfold Kernel.nmapped
  rw [Nat.count_succ]

theorem reserve_succ (s : Kernel) (d v : ℕ) : s.reserve d (v + 1) =
    s.reserve d v + if 1 ≤ v ∧ present (s.pte d v) = true then 1 else 0 := by
  unfold Kernel.reserve
  rw [Nat.count_succ, Nat.add_assoc]

theorem reserve_zero (s : Kernel) (d : ℕ) : s.reserve d 0 = s.freelist.length := rfl

theorem reserve_congr (hf : t.freelist.length = s.freelist.length)
    (h : ∀ w < k, present (t.pte d w) = present (s.pte d w)) : t.reserve d k = s.reserve d k := by
  unfold Kernel.reserve
  rw [hf, count_congr fun w hw => by rw [h w hw]]

/-- A page is evicted for its own copy when nothing else is at hand. -/
theorem self_victim_iff (hv : v < UVPN) (hp : present (s.pte d v) = true) :
    (s.freelist = [] ∧ Victim s d v) ↔ 1 ≤ v ∧ s.reserve d v = 0 := by
  have hcount : Nat.count (fun w => 1 ≤ w ∧ present (s.pte d w) = true) v = 0 ↔
      ∀ w, 1 ≤ w → w < v → present (s.pte d w) = false := by
    rw [Nat.count_iff_forall_not]
    constructor
    · intro h w h1 hw
      exact Bool.eq_false_iff.2 fun hpw => h w hw ⟨h1, hpw⟩
    · rintro h w hw ⟨h1, hpw⟩
      rw [h w h1 hw] at hpw
      cases hpw
  unfold Kernel.reserve
  rw [Nat.add_eq_zero_iff, hcount, List.length_eq_zero_iff]
  constructor
  · rintro ⟨hl, hvic⟩
    exact ⟨hvic.pos, hl, hvic.first⟩
  · rintro ⟨h1, hl, hfirst⟩
    exact ⟨hl, h1, hv, hp, hfirst⟩

/-! ### A frame is supplied -/

/-- Either the frame was free, or the victim lost it. -/
theorem Supplied.source (h : Supplied E g s d m g' t) :
    s.freelist.length = t.freelist.length + 1 ∧ (∀ w < 2 ^ 20, t.pte d w = s.pte d w) ∨
      s.freelist = [] ∧ t.freelist = [] ∧ ∃ w b, Victim s d w ∧ t.pte d w = swappedPte b ∧
        ∀ y < 2 ^ 20, y ≠ w → t.pte d y = s.pte d y := by
  cases h.freelist with
  | inl hperm =>
    left
    refine ⟨hperm.length_eq, fun w hw => ?_⟩
    rcases h.entry w hw with e | ⟨hl, -⟩
    · exact e
    · rw [hl] at hperm
      cases hperm.length_eq
  | inr hboth =>
    right
    obtain ⟨w, hw, hm, -⟩ := h.victim hboth.1
    have hlt : w < 2 ^ 20 := hw.lt.trans (by decide)
    refine ⟨hboth.1, hboth.2, w, ?_⟩
    have hgone : ∃ b, t.pte d w = swappedPte b := by
      rcases h.entry w hlt with e | ⟨-, -, -, b, -, e⟩
      · -- its frame is loose now
        have hown := (h.space.entry w hw.lt trivial).frame (by rw [e]; exact hw.present)
        rw [e, ← hm, h.frame, Function.update_self] at hown
        cases hown
      · exact ⟨b, e⟩
    obtain ⟨b, hb⟩ := hgone
    refine ⟨b, hw, hb, fun y hy hne => ?_⟩
    rcases h.entry y hy with e | ⟨-, hvic, -⟩
    · exact e
    · exact absurd (hvic.unique hw) hne

theorem Supplied.reserve (h : Supplied E g s d m g' t) (hk : k ≤ UVPN) :
    t.reserve d k = s.reserve d k - 1 := by
  have hlt : ∀ w < k, w < 2 ^ 20 := fun w hw => (hw.trans_le hk).trans (by decide)
  rcases h.source with ⟨hlen, hpte⟩ | ⟨hs, ht, w, b, hw, hb, hpte⟩
  · have hpres : ∀ w < k, present (t.pte d w) = present (s.pte d w) := fun w hw => by
      rw [hpte w (hlt w hw)]
    unfold Kernel.reserve
    rw [hlen, count_congr fun w hw => by rw [hpres w hw]]
    omega
  · have hgone : present (t.pte d w) = false := by rw [hb, present_swappedPte]
    unfold Kernel.reserve
    rw [hs, ht, List.length_nil, Nat.zero_add, Nat.zero_add]
    by_cases hwk : w < k
    · have hdrop : Nat.count (fun y => 1 ≤ y ∧ present (t.pte d y) = true) k + 1 =
          Nat.count (fun y => 1 ≤ y ∧ present (s.pte d y) = true) k := by
        refine count_drop ⟨hw.pos, hw.present⟩ (fun hq => ?_) (fun y hy hne => ?_) hwk
        · rw [hgone] at hq
          cases hq.2
        · rw [hpte y (hlt y hy) hne]
      omega
    · -- the victim is the first present page, so that there is none below `k`
      have hnone : Nat.count (fun y => 1 ≤ y ∧ present (s.pte d y) = true) k = 0 := by
        rw [Nat.count_iff_forall_not]
        rintro y hy ⟨h1, hp⟩
        rw [hw.first y h1 (by omega)] at hp
        cases hp
      have hsame : Nat.count (fun y => 1 ≤ y ∧ present (t.pte d y) = true) k =
          Nat.count (fun y => 1 ≤ y ∧ present (s.pte d y) = true) k := by
        refine count_congr fun y hy => ?_
        rw [hpte y (hlt y hy) (by omega)]
      rw [hsame, hnone]

/-- What is at hand goes first. -/
theorem Supplied.later (h : Supplied E g s d m g' t) (hr : 0 < s.reserve d k) :
    ∀ w < 2 ^ 20, k ≤ w → t.pte d w = s.pte d w := by
  rcases h.source with ⟨-, hpte⟩ | ⟨hs, -, v, -, hv, -, hpte⟩
  · exact fun w hw _ => hpte w hw
  · intro w hw hkw
    refine hpte w hw ?_
    rintro rfl
    unfold Kernel.reserve at hr
    rw [hs, List.length_nil, Nat.zero_add] at hr
    obtain ⟨y, hy, h1, hp⟩ := Nat.count_ne_iff_exists.1 hr.ne'
    rw [hv.first y h1 (by omega)] at hp
    cases hp

theorem Supplied.swapped (h : Supplied E g s d m g' t) (hw : w < 2 ^ 20)
    (hs : swapped (s.pte d w) = true) : Paging.swapped (t.pte d w) = true := by
  rcases h.entry w hw with e | ⟨-, -, -, b, -, e⟩
  · rw [e, hs]
  · rw [e, swapped_swappedPte]

end Xv6Lab.Paging
