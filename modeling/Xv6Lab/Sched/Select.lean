import Xv6Lab.Sched.Table

/-! The selection loop of `scheduler`: among the RUNNABLE processes it finds one that comes
first by burst time and, among equal burst times, by pid. -/

namespace Xv6Lab.Sched

variable {t : Table} {i j p : Slot} {l : List Slot} {acc r : Option Slot × ℤ} {m : ℤ}

/-- Slot `i` does not come after slot `j` in the order of the scheduler. -/
def NotAfter (t : Table) (i j : Slot) : Prop :=
  (t i).burst_time < (t j).burst_time ∨
    (t i).burst_time = (t j).burst_time ∧ (t i).pid ≤ (t j).pid

theorem NotAfter.refl (t : Table) (i : Slot) : NotAfter t i i := .inr ⟨rfl, le_rfl⟩

theorem NotAfter.trans {k : Slot} (h : NotAfter t i j) (h' : NotAfter t j k) : NotAfter t i k := by
  unfold NotAfter at *
  omega

/-- What the loop has found among the slots of `ps`. -/
inductive Found (t : Table) (ps : List Slot) : Option Slot × ℤ → Prop
  | nothing (h : ∀ j ∈ ps, (t j).state ≠ .RUNNABLE) : Found t ps (none, INT_MAX)
  | first (i : Slot) (hi : i ∈ ps) (hs : (t i).state = .RUNNABLE)
      (h : ∀ j ∈ ps, (t j).state = .RUNNABLE → NotAfter t i j) :
      Found t ps (some i, (t i).burst_time)

theorem Found.step (h : Found t l acc) (hr : scanStep t acc p = some r) : Found t (l ++ [p]) r := by
  unfold scanStep at hr
  split_ifs at hr with hrun hlt
  · cases hr
    cases h with
    | nothing h =>
      refine .nothing fun j hj => ?_
      rcases List.mem_append.mp hj with hj | hj
      · exact h j hj
      · rw [List.mem_singleton.mp hj]
        exact hrun
    | first i hi hs h =>
      refine .first i (by simp [hi]) hs fun j hj hj' => ?_
      rcases List.mem_append.mp hj with hj | hj
      · exact h j hj hj'
      · rw [List.mem_singleton.mp hj] at hj'
        exact absurd hj' hrun
  · cases hr
    refine .first p (by simp) (not_not.mp hrun) fun j hj hj' => ?_
    rcases List.mem_append.mp hj with hj | hj
    · cases h with
      | nothing h => exact absurd hj' (h j hj)
      | first i _ _ h => exact NotAfter.trans (.inl hlt) (h j hj hj')
    · rw [List.mem_singleton.mp hj]
      exact .refl t p
  · cases h with
    | nothing h => simp at hr
    | first i hi hs h =>
      simp only [Option.map_some, Option.some.injEq] at hr hlt
      have hle : ∀ {k}, NotAfter t k i → NotAfter t k p → ∀ j ∈ l ++ [p],
          (t j).state = .RUNNABLE → NotAfter t k j := by
        intro k hk hp j hj hj'
        rcases List.mem_append.mp hj with hj | hj
        · exact hk.trans (h j hj hj')
        · rw [List.mem_singleton.mp hj]
          exact hp
      split_ifs at hr with hpid <;> subst hr
      · rw [← hpid.2]
        exact .first p (by simp) (not_not.mp hrun)
          (hle (.inr ⟨hpid.2, hpid.1.le⟩) (.refl t p))
      · refine .first i (by simp [hi]) hs (hle (.refl t i) ?_)
        unfold NotAfter
        omega

theorem Found.foldlM {k : List Slot} (h : Found t k acc) (hr : l.foldlM (scanStep t) acc = some r) :
    Found t (k ++ l) r := by
  induction l generalizing acc k with
  | nil =>
    cases hr
    simpa using h
  | cons p l ih =>
    obtain ⟨acc', h1, h2⟩ := Option.bind_eq_some_iff.mp hr
    simpa using ih (h.step h1) h2

/-- `scheduler` picks a RUNNABLE process that no other comes before. -/
theorem scan_first (h : scan t = some (some i, m)) :
    (t i).state = .RUNNABLE ∧ ∀ j, (t j).state = .RUNNABLE → NotAfter t i j := by
  have hf : Found t (List.finRange NPROC) (some i, m) := by
    simpa using Found.foldlM (k := []) (.nothing (by simp)) h
  cases hf with
  | first _ _ hs hle => exact ⟨hs, fun j => hle j (List.mem_finRange j)⟩

/-- `scheduler` picks none only if none is RUNNABLE. -/
theorem scan_none (h : scan t = some (none, m)) (j : Slot) : (t j).state ≠ .RUNNABLE := by
  have hf : Found t (List.finRange NPROC) (none, m) := by
    simpa using Found.foldlM (k := []) (.nothing (by simp)) h
  cases hf with
  | nothing hno => exact hno j (List.mem_finRange j)

/-- Once the loop has found a process it reads no null pointer. -/
theorem foldlM_found (l : List Slot) (i : Slot) (m : ℤ) :
    ∃ r, l.foldlM (scanStep t) (some i, m) = some r := by
  induction l generalizing i m with
  | nil => exact ⟨_, rfl⟩
  | cons p l ih =>
    rw [List.foldlM_cons]
    unfold scanStep
    split_ifs
    · exact ih i m
    · exact ih p _
    · simp only [Option.map_some]
      split_ifs
      · exact ih p _
      · exact ih i m

/-- The first RUNNABLE slot of the table. -/
def firstRunnable (t : Table) : Option Slot :=
  (List.finRange NPROC).find? fun i => (t i).state = .RUNNABLE

theorem foldlM_total_iff (l : List Slot) :
    (∃ r, l.foldlM (scanStep t) (none, INT_MAX) = some r) ↔
      ∀ i, (l.find? fun i => (t i).state = .RUNNABLE) = some i → (t i).burst_time < INT_MAX := by
  induction l with
  | nil =>
    constructor
    · intro _ i hi
      cases hi
    · exact fun _ => ⟨_, rfl⟩
  | cons p l ih =>
    rw [List.foldlM_cons]
    by_cases hrun : (t p).state = .RUNNABLE
    · rw [List.find?_cons_of_pos (by simpa using hrun)]
      by_cases hlt : (t p).burst_time < INT_MAX
      · have hstep : scanStep t (none, INT_MAX) p = some (some p, (t p).burst_time) := by
          simp [scanStep, hrun, hlt]
        rw [hstep]
        constructor
        · intro _ i hi
          cases hi
          exact hlt
        · exact fun _ => foldlM_found l p _
      · have hstep : scanStep t (none, INT_MAX) p = none := by
          simp [scanStep, hrun, hlt]
        rw [hstep]
        constructor
        · rintro ⟨r, hr⟩
          cases hr
        · exact fun h => absurd (h p rfl) hlt
    · have hstep : scanStep t (none, INT_MAX) p = some (none, INT_MAX) := by
        simp [scanStep, hrun]
      rw [hstep, List.find?_cons_of_neg (by simpa using hrun)]
      exact ih

/-- The loop reads a null pointer exactly where the first RUNNABLE process has at least the burst
time INT_MAX, the value that `currentMin` starts with. -/
theorem scan_total_iff :
    (∃ r, scan t = some r) ↔ ∀ i, firstRunnable t = some i → (t i).burst_time < INT_MAX :=
  foldlM_total_iff _

theorem firstRunnable_some (h : firstRunnable t = some i) : (t i).state = .RUNNABLE := by
  simpa using List.find?_some h

/-- Where no RUNNABLE process has the burst time INT_MAX, no null pointer is read. -/
theorem scan_total (h : ∀ i, (t i).state = .RUNNABLE → (t i).burst_time < INT_MAX) :
    ∃ r, scan t = some r :=
  scan_total_iff.2 fun i hi => h i (firstRunnable_some hi)

end Xv6Lab.Sched
