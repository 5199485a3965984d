import Mathlib.Data.Prod.Lex
import Xv6Lab.Sched.Select

/-! The choice of `scheduler` is the least RUNNABLE process in the lexicographic order of burst
time and pid, wherever the processes stand in the table. -/

namespace Xv6Lab.Sched

variable {t : Table} {i j : Slot} {f : Equiv.Perm Slot} {r : Option Slot}

/-- What the processes are ordered by. -/
def Proc.key (p : Proc) : ℤ ×ₗ ℤ := toLex (p.burst_time, p.pid)

/-- Slot `i` is RUNNABLE and comes before every other RUNNABLE slot. -/
structure Least (t : Table) (i : Slot) : Prop where
  runnable : (t i).state = .RUNNABLE
  before : ∀ j, (t j).state = .RUNNABLE → j ≠ i → (t i).key < (t j).key

/-- The value that the loop of `scheduler` leaves in `lowest_bt`. -/
def lowest_bt (t : Table) : Option (Option Slot) := (scan t).map Prod.fst

/-- The loop ends without a null pointer read; it picks no process if none is RUNNABLE, and the
least one otherwise. -/
def PicksLeast (t : Table) : Prop :=
  ∃ r, lowest_bt t = some r ∧ (r = none ↔ ∀ j, (t j).state ≠ .RUNNABLE) ∧
    ∀ i, r = some i → Least t i

/-- The table with the process of slot `f i` in slot `i`. -/
def Table.permute (t : Table) (f : Equiv.Perm Slot) : Table := fun i => t (f i)

/-- The loop picks the same process wherever the processes stand in the table. -/
def PicksAlike (t : Table) : Prop :=
  ∀ f : Equiv.Perm Slot, ∃ r r', lowest_bt t = some r ∧ lowest_bt (t.permute f) = some r' ∧
    r'.map f = r

/-- RUNNABLE processes have pids of their own. -/
def DistinctPids (t : Table) : Prop :=
  ∀ i j, (t i).state = .RUNNABLE → (t j).state = .RUNNABLE → (t i).pid = (t j).pid → i = j

/-- Burst times are 32-bit integers. -/
def Int32Bursts (t : Table) : Prop :=
  ∀ i, -2 ^ 31 ≤ (t i).burst_time ∧ (t i).burst_time ≤ INT_MAX

theorem NotAfter.key_lt (h : NotAfter t i j) (hne : (t i).pid ≠ (t j).pid) :
    (t i).key < (t j).key := by
  unfold Proc.key
  rw [Prod.Lex.toLex_lt_toLex]
  rcases h with h | ⟨h, hle⟩
  · exact .inl h
  · exact .inr ⟨h, lt_of_le_of_ne hle hne⟩

theorem Least.unique (hi : Least t i) (hj : Least t j) : i = j := by
  by_contra hne
  have hij := hi.before j hj.runnable (Ne.symm hne)
  have hji := hj.before i hi.runnable hne
  exact lt_asymm hij hji

theorem least_permute : Least (t.permute f) i ↔ Least t (f i) := by
  constructor
  · intro h
    refine ⟨h.runnable, fun j hj hne => ?_⟩
    obtain ⟨k, rfl⟩ := f.surjective j
    exact h.before k hj (fun hk => hne (congrArg f hk))
  · intro h
    exact ⟨h.runnable, fun j hj hne => h.before (f j) hj (f.injective.ne hne)⟩

theorem DistinctPids.permute (h : DistinctPids t) : DistinctPids (t.permute f) := by
  intro i j hi hj hpid
  exact f.injective (h (f i) (f j) hi hj hpid)

/-- A loop that ends without a null pointer read picks the least process. -/
theorem picksLeast_of_total (hpid : DistinctPids t) (h : ∃ r, scan t = some r) : PicksLeast t := by
  obtain ⟨⟨r, m⟩, hr⟩ := h
  refine ⟨r, by simp [lowest_bt, hr], ?_, ?_⟩
  · constructor
    · rintro rfl
      exact scan_none hr
    · intro hno
      cases r with
      | none => rfl
      | some i => exact absurd (scan_first hr).1 (hno i)
  · rintro i rfl
    obtain ⟨hrun, hle⟩ := scan_first hr
    exact ⟨hrun, fun j hj hne => (hle j hj).key_lt (fun he => hne (hpid i j hrun hj he).symm)⟩

theorem picksLeast_iff (hpid : DistinctPids t) :
    PicksLeast t ↔ ∀ i, firstRunnable t = some i → (t i).burst_time < INT_MAX := by
  rw [← scan_total_iff]
  constructor
  · rintro ⟨r, hr, -⟩
    obtain ⟨x, hx, -⟩ := Option.map_eq_some_iff.1 hr
    exact ⟨x, hx⟩
  · exact picksLeast_of_total hpid

theorem PicksLeast.eq_of_least (h : PicksLeast t) (hi : Least t i) : lowest_bt t = some (some i) := by
  obtain ⟨r, hr, hnone, hleast⟩ := h
  cases r with
  | none => exact absurd hi.runnable (hnone.1 rfl i)
  | some j => rw [hr, (hleast j rfl).unique hi]

theorem PicksLeast.eq_of_none (h : PicksLeast t) (hno : ∀ j, (t j).state ≠ .RUNNABLE) :
    lowest_bt t = some none := by
  obtain ⟨r, hr, hnone, -⟩ := h
  rw [hr, hnone.2 hno]

/-- Two tables with the same processes have the same least process. -/
theorem PicksLeast.alike (h : PicksLeast t) (hf : PicksLeast (t.permute f)) :
    ∃ r r', lowest_bt t = some r ∧ lowest_bt (t.permute f) = some r' ∧ r'.map f = r := by
  obtain ⟨r', hr', hnone, hleast⟩ := hf
  cases r' with
  | none =>
    refine ⟨none, none, h.eq_of_none fun j => ?_, hr', rfl⟩
    obtain ⟨k, rfl⟩ := f.surjective j
    exact hnone.1 rfl k
  | some i =>
    exact ⟨some (f i), some i, h.eq_of_least (least_permute.1 (hleast i rfl)), hr', rfl⟩

/-- With the process of slot `i` in front. -/
theorem firstRunnable_swap (hi : (t i).state = .RUNNABLE) :
    firstRunnable (t.permute (Equiv.swap 0 i)) = some 0 := by
  have h0 : ((t.permute (Equiv.swap 0 i)) 0).state = .RUNNABLE := by
    rw [Table.permute, Equiv.swap_apply_left, hi]
  have hslots : List.finRange NPROC = 0 :: (List.finRange NPROC).tail := by decide
  unfold firstRunnable
  rw [hslots, List.find?_cons_of_pos (by simpa using h0)]

/-- The loop picks the least process exactly where the first RUNNABLE slot has not the burst time
INT_MAX, and does so wherever the processes stand exactly where no RUNNABLE slot has it. -/
theorem scan_least_iff (t : Table) (hbt : Int32Bursts t) (hpid : DistinctPids t) :
    (PicksLeast t ↔ ∀ i, firstRunnable t = some i → (t i).burst_time ≠ INT_MAX) ∧
      (PicksLeast t ∧ PicksAlike t ↔
        ∀ i, (t i).state = .RUNNABLE → (t i).burst_time ≠ INT_MAX) := by
  have hlt : ∀ i, (t i).burst_time ≠ INT_MAX ↔ (t i).burst_time < INT_MAX := fun i =>
    ⟨fun h => lt_of_le_of_ne (hbt i).2 h, ne_of_lt⟩
  constructor
  · rw [picksLeast_iff hpid]
    exact forall_congr' fun i => by rw [hlt]
  · constructor
    · rintro ⟨-, halike⟩ i hi hmax
      obtain ⟨-, r', -, hr', -⟩ := halike (Equiv.swap 0 i)
      obtain ⟨x, hx, -⟩ := Option.map_eq_some_iff.1 hr'
      have h0 := scan_total_iff.1 ⟨x, hx⟩ 0 (firstRunnable_swap hi)
      rw [Table.permute, Equiv.swap_apply_left, hmax] at h0
      exact lt_irrefl _ h0
    · intro h
      have hpicks : ∀ f : Equiv.Perm Slot, PicksLeast (t.permute f) := fun f =>
        (picksLeast_iff hpid.permute).2 fun i hi =>
          (hlt (f i)).1 (h (f i) (firstRunnable_some (t := t.permute f) hi))
      have ht : PicksLeast t := hpicks (Equiv.refl Slot)
      exact ⟨ht, fun f => ht.alike (hpicks f)⟩

/-- Two RUNNABLE processes with the burst times 3 and 1. -/
def twoRunnable : Table := Function.update (Function.update (fun _ => Proc.zero)
  0 { Proc.zero with state := .RUNNABLE, pid := 1, burst_time := 3 })
  1 { Proc.zero with state := .RUNNABLE, pid := 2, burst_time := 1 }

theorem scan_least_two : PicksLeast twoRunnable ∧ PicksAlike twoRunnable :=
  (scan_least_iff twoRunnable (by unfold Int32Bursts; decide +kernel)
    (by unfold DistinctPids; decide +kernel)).2.2 (by decide +kernel)

/-- The only RUNNABLE process has the burst time INT_MAX. -/
def maxRunnable : Table := Function.update (fun _ => Proc.zero)
  0 { Proc.zero with state := .RUNNABLE, pid := 1, burst_time := INT_MAX }

theorem scan_null_read : Int32Bursts maxRunnable ∧ DistinctPids maxRunnable ∧
    lowest_bt maxRunnable = none ∧ ¬ PicksLeast maxRunnable := by
  have hnull : lowest_bt maxRunnable = none := by decide +kernel
  refine ⟨by unfold Int32Bursts; decide +kernel, by unfold DistinctPids; decide +kernel, hnull, ?_⟩
  rintro ⟨r, hr, -⟩
  rw [hnull] at hr
  cases hr

end Xv6Lab.Sched
