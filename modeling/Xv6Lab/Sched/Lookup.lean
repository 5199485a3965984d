import Xv6Lab.Sched.Pids

/-! `getMaxPid`, `kill` and `getProcInfo` compare pids and never states, so they see dead
slots. -/

namespace Xv6Lab.Sched

variable {ncpu : ℕ} {v : Variant} {s : Kernel ncpu} {l : List (Kernel ncpu × Event ncpu)}
  {t : Table} {atNull pid : ℤ}

/-- The pids of the processes, those of the slots in use. -/
def Table.livePids (t : Table) : Set ℤ := { d | ∃ i, (t i).state ≠ .UNUSED ∧ (t i).pid = d }

/-- The lookups see the slots in use and no others. -/
structure LooksUpLive (t : Table) (atNull pid : ℤ) : Prop where
  max : IsGreatest t.livePids t.getMaxPid
  kill : (t.kill pid).1 = 0 ∧ pid ∈ t.livePids ∨ t.kill pid = (-1, t) ∧ pid ∉ t.livePids
  info : (t.getProcInfo atNull pid).1 = 0 ∧ pid ∈ t.livePids ∨
    (t.getProcInfo atNull pid).1 = -1 ∧ pid ∉ t.livePids

theorem kill_result (t : Table) (pid : ℤ) :
    (t.kill pid).1 = 0 ∧ (∃ i, (t i).pid = pid) ∨ t.kill pid = (-1, t) ∧ ∀ i, (t i).pid ≠ pid := by
  unfold Table.kill
  split
  · rename_i p hp
    exact .inl ⟨rfl, p, findPid_some hp⟩
  · rename_i hn
    exact .inr ⟨rfl, findPid_none.mp hn⟩

theorem getProcInfo_result (t : Table) (atNull pid : ℤ) :
    (t.getProcInfo atNull pid).1 = 0 ∧ (∃ i, (t i).pid = pid) ∨
      (t.getProcInfo atNull pid).1 = -1 ∧ ∀ i, (t i).pid ≠ pid := by
  unfold Table.getProcInfo
  split
  · rename_i p hp
    exact .inl ⟨rfl, p, findPid_some hp⟩
  · rename_i hn
    exact .inr ⟨rfl, findPid_none.mp hn⟩

theorem foldl_max (t : Table) (ps : List Slot) (m : ℤ) :
    m ≤ ps.foldl (fun m p => if (t p).pid > m then (t p).pid else m) m ∧
      (∀ p ∈ ps, (t p).pid ≤ ps.foldl (fun m p => if (t p).pid > m then (t p).pid else m) m) ∧
      (ps.foldl (fun m p => if (t p).pid > m then (t p).pid else m) m = m ∨
        ∃ p ∈ ps, (t p).pid = ps.foldl (fun m p => if (t p).pid > m then (t p).pid else m) m) := by
  induction ps generalizing m with
  | nil => simp
  | cons p ps ih =>
    obtain ⟨h1, h2, h3⟩ := ih (if (t p).pid > m then (t p).pid else m)
    have hm : m ≤ (if (t p).pid > m then (t p).pid else m) ∧
        (t p).pid ≤ (if (t p).pid > m then (t p).pid else m) := by
      split <;> omega
    rw [List.foldl_cons]
    refine ⟨hm.1.trans h1, ?_, ?_⟩
    · intro q hq
      rcases List.mem_cons.mp hq with rfl | hq
      · exact hm.2.trans h1
      · exact h2 q hq
    · rcases h3 with h3 | ⟨q, hq, h3⟩
      · rw [h3]
        split
        · exact .inr ⟨p, by simp, rfl⟩
        · exact .inl rfl
      · exact .inr ⟨q, by simp [hq], h3⟩

/-- `getMaxPid` is the greatest pid of any slot. -/
theorem getMaxPid_isGreatest (hn : ∀ i, 0 ≤ (t i).pid) :
    IsGreatest (Set.range fun i => (t i).pid) t.getMaxPid := by
  obtain ⟨-, h2, h3⟩ := foldl_max t (List.finRange NPROC) (-1)
  have hmem := fun i => h2 i (List.mem_finRange i)
  refine ⟨?_, ?_⟩
  · rcases h3 with h3 | ⟨p, -, h3⟩
    · have h0 := hn 0
      have := hmem 0
      rw [h3] at this
      omega
    · exact ⟨p, h3⟩
  · rintro _ ⟨i, rfl⟩
    exact hmem i

/-- The lookups by `pid` are right exactly if the pid is not that of a dead slot, neither
0 nor left by a fork that failed, and every pid that such a fork left is below a live one. -/
theorem lookups_see_live_iff (h : History v l s) (atNull pid : ℤ) :
    LooksUpLive s.proc atNull pid ↔
      (∀ i d, Leftover l i d → ∃ p ∈ s.proc.livePids, d < p) ∧ (∀ i, ¬ Leftover l i pid) ∧
        (pid = 0 → ∀ i, (s.proc i).state = .UNUSED → ∃ d, Leftover l i d) := by
  have hp := h.pids
  have hd := h.deadPids
  have hmax := getMaxPid_isGreatest hp.nonneg
  have hlive : ∀ {p}, p ∈ s.proc.livePids → 0 < p := by
    rintro p ⟨i, hi, rfl⟩
    exact hp.pos hi
  -- no two slots share a pid, so a dead slot's pid is not that of a live one
  have hdead : ∀ {i}, (s.proc i).state = .UNUSED → (s.proc i).pid ∉ s.proc.livePids := by
    rintro i hi ⟨j, hj, hij⟩
    obtain rfl := hp.inj hij (hp.pos hj).ne'
    exact hj hi
  constructor
  · intro hlook
    have hseen : (∃ i, (s.proc i).pid = pid) → pid ∈ s.proc.livePids := by
      intro hi
      rcases kill_result s.proc pid with ⟨h0, -⟩ | ⟨-, hno⟩
      · rcases hlook.kill with ⟨-, h⟩ | ⟨h, -⟩
        · exact h
        · rw [h] at h0
          cases h0
      · obtain ⟨i, hi⟩ := hi
        exact absurd hi (hno i)
    refine ⟨fun i d hl => ?_, fun i hl => ?_, ?_⟩
    · obtain ⟨hu, hpid, -⟩ := hd.left hl
      have hle : d ≤ s.proc.getMaxPid := hmax.2 ⟨i, hpid⟩
      refine ⟨_, hlook.max.1, lt_of_le_of_ne hle ?_⟩
      rintro rfl
      exact hdead hu (hpid ▸ hlook.max.1)
    · obtain ⟨hu, hpid, -⟩ := hd.left hl
      exact hdead hu (hpid ▸ hseen ⟨i, hpid⟩)
    · rintro rfl i hu
      rcases hd.dead hu with h0 | hl
      · exact absurd (hlive (hseen ⟨i, h0⟩)) (lt_irrefl 0)
      · exact ⟨_, hl⟩
  · rintro ⟨h1, h2, h3⟩
    have halive : ∀ i, (s.proc i).pid = pid → (s.proc i).state ≠ .UNUSED := by
      intro i hpid hu
      rcases hd.dead hu with h0 | hl
      · obtain ⟨d, hl⟩ := h3 (by rw [← hpid, h0]) i hu
        obtain ⟨-, hd', hpos⟩ := hd.left hl
        omega
      · exact h2 i (hpid ▸ hl)
    refine ⟨⟨?_, ?_⟩, ?_, ?_⟩
    · obtain ⟨i, hi⟩ := hmax.1
      by_cases hu : (s.proc i).state = .UNUSED
      · rcases hd.dead hu with h0 | hl
        · have hinit : (s.proc s.initproc).pid ≤ s.proc.getMaxPid := hmax.2 ⟨_, rfl⟩
          have := hp.pos h.initLives.1
          simp only [h0] at hi
          omega
        · obtain ⟨p, ⟨j, -, hj⟩, hlt⟩ := h1 i _ hl
          have : (s.proc j).pid ≤ s.proc.getMaxPid := hmax.2 ⟨j, rfl⟩
          simp only at hi
          omega
      · exact ⟨i, hu, hi⟩
    · rintro p ⟨i, -, rfl⟩
      exact hmax.2 ⟨i, rfl⟩
    · rcases kill_result s.proc pid with ⟨h0, i, hi⟩ | ⟨h0, hno⟩
      · exact .inl ⟨h0, i, halive i hi, hi⟩
      · exact .inr ⟨h0, fun ⟨i, _, hi⟩ => hno i hi⟩
    · rcases getProcInfo_result s.proc atNull pid with ⟨h0, i, hi⟩ | ⟨h0, hno⟩
      · exact .inl ⟨h0, i, halive i hi, hi⟩
      · exact .inr ⟨h0, fun ⟨i, _, hi⟩ => hno i hi⟩

/-- The first process calls `fork`, for which `kalloc` has no page. -/
def failedFork : List (Event 1) :=
  [.scheduler 0, .run 0 .ret, .run 0 .syscall, .run 0 .allocproc, .run 0 (.kalloc false)]

theorem exists_failedFork (v : Variant) : ∃ (l : List (Kernel 1 × Event 1)) (s : Kernel 1),
    History v l s ∧ (s.proc 1).state = .UNUSED ∧ (s.proc 1).pid = 2 ∧
      (s.proc.kill 2).1 = 0 ∧ ∀ i, (s.proc i).state ≠ .UNUSED → (s.proc i).pid = 1 := by
  have hplay : ((Kernel.boot.play v failedFork).map fun s =>
      decide ((s.proc 1).state = .UNUSED ∧ (s.proc 1).pid = 2 ∧ (s.proc.kill 2).1 = 0 ∧
        ∀ i, (s.proc i).state ≠ .UNUSED → (s.proc i).pid = 1)) = some true := by
    cases v <;> decide +kernel
  obtain ⟨s, hs, hp⟩ := Option.map_eq_some_iff.mp hplay
  obtain ⟨l, -, h⟩ := Lib.Trace.of_foldlM hs
  exact ⟨l, s, h, of_decide_eq_true hp⟩

theorem lookups_see_live_after_failed_fork : ∃ (l : List (Kernel 1 × Event 1)) (s : Kernel 1),
    History .g17 l s ∧ (LooksUpLive s.proc 0 2 ↔
      (∀ i d, Leftover l i d → ∃ p ∈ s.proc.livePids, d < p) ∧ (∀ i, ¬ Leftover l i 2) ∧
        ((2 : ℤ) = 0 → ∀ i, (s.proc i).state = .UNUSED → ∃ d, Leftover l i d)) := by
  obtain ⟨l, s, h, -⟩ := exists_failedFork .g17
  exact ⟨l, s, h, lookups_see_live_iff h 0 2⟩

/-- After a fork that failed `kill` finds the pid of the dead slot. -/
theorem lookups_see_dead : ∃ (l : List (Kernel 1 × Event 1)) (s : Kernel 1),
    History .g17 l s ∧ ¬ LooksUpLive s.proc 0 2 := by
  obtain ⟨l, s, h, -, -, hk, hlive⟩ := exists_failedFork .g17
  refine ⟨l, s, h, fun hall => ?_⟩
  rcases hall.kill with ⟨-, i, hi, hpid⟩ | ⟨hk', -⟩
  · rw [hlive i hi] at hpid
    cases hpid
  · rw [hk'] at hk
    cases hk

end Xv6Lab.Sched
