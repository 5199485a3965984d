import Xv6Lab.Bio.Steps

/-! Which buffer `bget` recycles, when it panics, and when a process in the cache has to wait. -/

namespace Xv6Lab.Bio

open Lib

variable {n : ℕ} {α : Type} {size : ℕ} {s t : Cache n α} {p : Fin n} {i j : Fin NBUF}
  {a : Act α} {l : List (Fin NBUF)} {dev b : ℕ} {read : Bool}
  {steps : List (Cache n α × (Fin n × Act α))}

/-- Of two buffers, the one in front was freed later, if they ever were. -/
def Ordered (steps : List (Cache n α × (Fin n × Act α))) (l : List (Fin NBUF)) : Prop :=
  l.Pairwise fun i j => ¬ Since (Freed j) (Freed i) steps

theorem Ordered.kept {x : Cache n α × (Fin n × Act α)} (h : Ordered steps l)
    (hx : ∀ j ∈ l, ¬ Freed j x) : Ordered (steps ++ [x]) l := by
  refine List.Pairwise.imp_of_mem (fun _ hj hij => ?_) h
  rw [since_snoc, not_or]
  exact ⟨hx _ hj, fun hs => hij hs.1⟩

theorem Ordered.toFront {x : Cache n α × (Fin n × Act α)} (h : Ordered steps l) (hl : l.Nodup)
    (hx : Freed i x) : Ordered (steps ++ [x]) (i :: l.erase i) := by
  have hne : ∀ j ∈ l.erase i, ¬ Freed j x := by
    intro j hj hjx
    rw [hjx.eq hx] at hj
    exact hl.not_mem_erase hj
  have hord : Ordered steps (l.erase i) := List.Pairwise.sublist List.erase_sublist h
  refine List.pairwise_cons.2 ⟨fun j hj => ?_, hord.kept hne⟩
  rw [since_snoc, not_or]
  exact ⟨hne j hj, fun hs => hs.2 hx⟩

/-- The list is ordered by the time of release. -/
theorem trace_ordered {zero : α} {disk : ℕ → α}
    (h : Trace (Step size) (binit n zero disk) steps t) :
    ∃ l, Listed t l ∧ Ordered steps l := by
  induction h with
  | nil =>
    refine ⟨_, binit_listed n zero disk, List.Pairwise.imp (fun _ => ?_)
      (binit_listed n zero disk).ring.nodup⟩
    exact not_since_nil _ _
  | snoc _ hstep ih =>
    obtain ⟨l, hl, hord⟩ := ih
    obtain ⟨hnot, hl'⟩ | ⟨i, hi, hl'⟩ := (step_does hl hstep).listed hl
    · exact ⟨l, hl', hord.kept fun j _ => hnot j⟩
    · exact ⟨_, hl', hord.toFront hl.ring.nodup hi⟩

/-- The last of a list with a property. -/
theorem find_reverse {β : Type} {R : β → β → Prop} {q : β → Bool} {m : List β} {x y : β}
    (h : m.Pairwise R) (hx : m.reverse.find? q = some x) (hy : y ∈ m) (hq : q y = true)
    (hne : y ≠ x) : R y x := by
  obtain ⟨-, l₁, l₂, hm, hl₁⟩ := List.find?_eq_some_iff_append.1 hx
  have hm' : m = l₂.reverse ++ x :: l₁.reverse := by
    rw [← List.reverse_reverse m, hm]
    simp
  rw [hm'] at h hy
  obtain hy | hy := List.mem_append.1 hy
  · exact (List.pairwise_append.1 h).2.2 y hy x (List.mem_cons_self ..)
  · obtain rfl | hy := List.mem_cons.1 hy
    · exact absurd rfl hne
    · have := hl₁ y (List.mem_reverse.1 hy)
      simp [hq] at this

/-- `bget` panics if the block is in no buffer and all buffers are in use or dirty. Otherwise it
takes a buffer with the block, or of those that it may recycle one that was released longest ago. -/
theorem bget_recycles {zero : α} {disk : ℕ → α}
    (h : Trace (Step size) (binit n zero disk) steps s) (hst : s.status p = .idle) (dev b : ℕ)
    (read : Bool) :
    (step size s (p, .bget dev b read) = none ↔ (∀ j, (s.buf j).holds dev b = false) ∧
      ∀ j, (s.buf j).refcnt ≠ 0 ∨ (s.buf j).dirty = true) ∧
    ∀ t, step size s (p, .bget dev b read) = some t → ∃ i, t.status p = .locking i read ∧
      ((s.buf i).holds dev b = true ∨ (∀ j, (s.buf j).holds dev b = false) ∧
        (s.buf i).refcnt = 0 ∧ (s.buf i).dirty = false ∧
        ∀ j ≠ i, (s.buf j).refcnt = 0 → (s.buf j).dirty = false →
          ¬ Since (Freed i) (Freed j) steps) := by
  obtain ⟨l, hl, hord⟩ := trace_ordered h
  have hused : ∀ j, (s.buf j).unused = false ↔ (s.buf j).refcnt ≠ 0 ∨ (s.buf j).dirty = true := by
    intro j
    rw [Bool.eq_false_iff, ne_eq, unused_iff, not_and_or, Bool.not_eq_false]
  constructor
  · rw [step_bget hst]
    unfold Cache.bget
    rw [hl.ring.scan_next hl.length_lt, hl.ring.scan_prev hl.length_lt]
    cases hf : l.find? (fun j => (s.buf j).holds dev b) with
    | some i =>
      have hi := List.find?_some hf
      refine iff_of_false (by simp) fun hnone => ?_
      exact Bool.eq_false_iff.1 (hnone.1 i) hi
    | none =>
      have hnone : ∀ j, (s.buf j).holds dev b = false := fun j =>
        Bool.eq_false_iff.2 (List.find?_eq_none.1 hf j (hl.all j))
      cases hr : l.reverse.find? (fun j => (s.buf j).unused) with
      | some i =>
        have hi := List.find?_some hr
        refine iff_of_false (by simp) fun hall => ?_
        exact Bool.eq_false_iff.1 ((hused i).2 (hall.2 i)) hi
      | none =>
        refine iff_of_true rfl ⟨hnone, fun j => (hused j).1 ?_⟩
        exact Bool.eq_false_iff.2 (List.find?_eq_none.1 hr j (List.mem_reverse.2 (hl.all j)))
  · intro t ht
    cases step_does hl ht with
    | hit i _ _ _ _ hi => exact ⟨i, setStatus_self .., .inl hi⟩
    | recycle i _ _ _ _ hnone hfind =>
      have hi := unused_iff.1 (List.find?_some (p := fun j => (s.buf j).unused) hfind)
      refine ⟨i, setStatus_self .., .inr ⟨hnone, hi.1, hi.2, fun j hji hzero hclean => ?_⟩⟩
      exact find_reverse hord hfind (hl.all j) (unused_iff.2 ⟨hzero, hclean⟩) hji

/-- Blocks 3 and 4 have been read, in this order. The next buffer was never used. -/
theorem bget_recycles_third :
    let es : List (Fin 1 × Act ℕ) := [(0, .bget ROOTDEV 3 true), (0, .go), (0, .go),
      (0, .brelse firstBuf), (0, .go), (0, .bget ROOTDEV 4 true), (0, .go), (0, .go),
      (0, .brelse ⟨1, by decide⟩), (0, .go)]
    let s := after 1000 (numbered 1) es
    ∃ t, step 1000 s (0, .bget ROOTDEV 5 true) = some t ∧
      ∃ i, t.status 0 = .locking i true ∧ (s.buf i).refcnt = 0 ∧
        ∀ j ≠ i, (s.buf j).refcnt = 0 → (s.buf j).dirty = false →
          ¬ Since (Freed i) (Freed j) (Trace.trail (step 1000) (numbered 1) es) := by
  intro es s
  have h : Trace (Step 1000) (numbered 1) (Trace.trail (step 1000) (numbered 1) es) s :=
    Trace.of_isSome (by decide +kernel)
  obtain ⟨hpanic, hlru⟩ := bget_recycles (p := 0) h (by decide +kernel) ROOTDEV 5 true
  have hsome : (step 1000 s (0, .bget ROOTDEV 5 true)).isSome = true := by decide +kernel
  obtain ⟨t, ht⟩ := Option.isSome_iff_exists.1 hsome
  obtain ⟨i, hst, hi⟩ := hlru t ht
  have hnone : ∀ j, (s.buf j).holds ROOTDEV 5 = false := by decide +kernel
  obtain hhit | ⟨-, hzero, -, hold⟩ := hi
  · rw [hnone i] at hhit
    cases hhit
  · exact ⟨t, ht, i, hst, hzero, hold⟩

/-- The reference counts are exact, and a process in the cache waits for nothing but the lock of a
buffer, which it may have itself: it never finds a count of zero or nothing to do for the disk. -/
theorem cache_progress {zero : α} {disk : ℕ → α}
    (h : Run (Step size) Kept (binit n zero disk) s) :
    (∀ i, (s.buf i).refcnt = (s.buf i).locks + ∑ p, (s.status p).refs i) ∧
    (∀ p i, s.status p = .unlocked i → 0 < (s.buf i).refcnt) ∧
    ∀ p, s.status p ≠ .idle → (step size s (p, .go) = none ↔
      (∃ i read, s.status p = .locking i read ∧ (s.buf i).lock ≠ none) ∨
      ∃ i, s.status p = .iderw i ∧ size ≤ (s.buf i).blockno) := by
  have hs := run_sound h
  refine ⟨hs.counted, fun p i hst => ?_, fun p hst => ?_⟩
  · have hle := hs.counted.refs_le p i
    rw [hst, refs_unlocked, if_pos rfl] at hle
    omega
  · cases hp : s.status p with
    | idle => exact absurd hp hst
    | locking i read =>
      rw [step_locking hp]
      unfold Cache.acquire
      by_cases hlock : (s.buf i).lock = none
      · rw [if_pos hlock]
        simp [hlock]
      · rw [if_neg hlock]
        simp [hlock]
    | unlocked i =>
      rw [step_unlocked hp]
      simp
    | iderw i =>
      obtain ⟨hlock, hdirty⟩ := hs.io p i hp
      have hnothing : ¬ ((s.buf i).valid = true ∧ (s.buf i).dirty = false) := by
        intro hv
        rw [hdirty hv.1] at hv
        cases hv.2
      have hdev : ¬ (s.buf i).dev ≠ 1 := not_not.2 (hs.dev_of_lock hlock)
      rw [step_iderw hp]
      unfold Cache.iderw
      rw [if_neg (by simp [hlock]), if_neg hnothing, if_neg hdev]
      by_cases hsize : size ≤ (s.buf i).blockno
      · rw [if_pos hsize]
        simp [hsize]
      · rw [if_neg hsize]
        cases (s.buf i).dirty <;> simp [hsize]

theorem cache_progress_two :
    let s := after 1000 (numbered 2)
      [(0, .bget ROOTDEV 3 true), (0, .go), (0, .go), (1, .bget ROOTDEV 3 true)]
    (s.buf firstBuf).refcnt = 2 ∧ step 1000 s (1, .go) = none := by
  intro s
  have h : Trace (Step 1000) (numbered 2) (Trace.trail (step 1000) (numbered 2)
      [(0, .bget ROOTDEV 3 true), (0, .go), (0, .go), (1, .bget ROOTDEV 3 true)]) s :=
    Trace.of_isSome (by decide +kernel)
  have hprogress := cache_progress (h.run (by decide +kernel))
  have hst : s.status 1 = .locking firstBuf true := by decide +kernel
  refine ⟨(hprogress.1 firstBuf).trans (by decide +kernel), ?_⟩
  refine (hprogress.2.2 1 (by simp [hst])).2 (.inl ⟨firstBuf, true, hst, ?_⟩)
  decide +kernel

end Xv6Lab.Bio
