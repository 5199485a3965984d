import Xv6Lab.Sched.Countdown

/-! Turns among processes with equal burst times. The scheduler breaks ties by pid, so that a
process gives way at the end of its quantum to those with smaller pids only. -/

namespace Xv6Lab.Sched

variable {ncpu : ℕ} {v : Variant} {s t u : Kernel ncpu} {e : Event ncpu} {p q : Slot} {b d : ℤ}
  {l : List (Kernel ncpu × Event ncpu)}

/-- The process with pid `d` is RUNNABLE in slot `q`, with the burst time `b`. -/
structure Queued (s : Kernel ncpu) (q : Slot) (b d : ℤ) : Prop where
  state : (s.proc q).state = .RUNNABLE
  burst : (s.proc q).burst_time = b
  pid : (s.proc q).pid = d

/-- Slot `p` is dispatched in `l` only after slot `q` has been, or has stopped being RUNNABLE with
the burst time `b`. -/
def GivesWay (p q : Slot) (b : ℤ) (l : List (Kernel ncpu × Event ncpu)) : Prop :=
  ∀ l₁ x l₂, l = l₁ ++ x :: l₂ → Dispatches x p → (∃ y ∈ l₁, Dispatches y q) ∨
    ∃ y ∈ l₁ ++ [x], ¬ ((y.1.proc q).state = .RUNNABLE ∧ (y.1.proc q).burst_time = b)

theorem Queued.step (h : Queued s q b d) (hc : Coherent s) (ht : Step v s e t)
    (hd : ¬ Dispatches (s, e) q) : Queued t q b d := by
  obtain ⟨hpid, hburst, hs⟩ := (ht.change hc q).runnable hc h.state
  exact ⟨hs.resolve_right hd, hburst.trans h.burst, hpid.trans h.pid⟩

/-- A RUNNABLE process waits unchanged until it is dispatched. -/
theorem Queued.trace (h : Queued s q b d) (hc : Coherent s) (hr : Lib.Trace (Step v) s l t)
    (hd : ∀ x ∈ l, ¬ Dispatches x q) : Coherent t ∧ Queued t q b d := by
  induction hr with
  | nil => exact ⟨hc, h⟩
  | @snoc l t u e _ hs ih =>
    obtain ⟨hct, ht⟩ := ih fun x hx => hd x (List.mem_append_left _ hx)
    exact ⟨hct.step hs, ht.step hct hs (hd (t, e) (by simp))⟩

/-- Of two processes that wait with the same burst time the one with the greater pid is not
dispatched. -/
theorem Queued.not_dispatches {d' : ℤ} (hp : Queued s p b d) (hq : Queued s q b d') (hlt : d' < d) :
    ¬ Dispatches (s, e) p := by
  rintro ⟨c, m, -, hm⟩
  have hle := (scan_first hm).2 q hq.state
  unfold NotAfter at hle
  rw [hp.burst, hq.burst, hp.pid, hq.pid] at hle
  omega

/-- The first step with a property, if there is one. -/
theorem exists_first {P : Kernel ncpu × Event ncpu → Prop} (h : ∃ x ∈ l, P x) :
    ∃ l₁ x l₂, l = l₁ ++ x :: l₂ ∧ P x ∧ ∀ y ∈ l₁, ¬ P y := by
  induction l with
  | nil =>
    obtain ⟨x, hx, -⟩ := h
    cases hx
  | cons y l ih =>
    by_cases hy : P y
    · exact ⟨[], y, l, rfl, hy, by simp⟩
    · obtain ⟨x, hx, hP⟩ := h
      obtain ⟨l₁, z, l₂, rfl, hz, hno⟩ := ih ⟨x, (List.mem_cons.1 hx).resolve_left
        (by rintro rfl; exact hy hP), hP⟩
      refine ⟨y :: l₁, z, l₂, rfl, hz, fun w hw => ?_⟩
      rcases List.mem_cons.1 hw with rfl | hw
      · exact hy
      · exact hno w hw

/-- The process with the smaller pid is dispatched first. -/
theorem Queued.first {d' : ℤ} (hc : Coherent u) (hp : Queued u p b d) (hq : Queued u q b d')
    (hlt : d' < d) (hr : Lib.Trace (Step v) u l t) {l₁ l₂ : List (Kernel ncpu × Event ncpu)}
    {x : Kernel ncpu × Event ncpu} (hl : l = l₁ ++ x :: l₂) (hx : Dispatches x p)
    (hno : ∀ y ∈ l₁, ¬ Dispatches y p) : ∃ y ∈ l₁, Dispatches y q := by
  obtain ⟨a, e⟩ := x
  subst hl
  obtain ⟨a', h1, h2⟩ := hr.of_append
  obtain ⟨rfl, -⟩ := h2.of_cons
  by_contra hq'
  push Not at hq'
  exact (hp.trace hc h1 hno).2.not_dispatches (hq.trace hc h1 hq').2 hlt hx

/-- When the quantum of `p` ends, `p` gives way to a process with the same burst time exactly if
that has the smaller pid, or `p` is not dispatched again anyway. -/
theorem round_robin_iff {l₀ : List (Kernel 1 × Event 1)} {s t u : Kernel 1} {e : Event 1}
    {l : List (Kernel 1 × Event 1)} (h : History .g17hybrid l₀ s) (hu : Step .g17hybrid s e u)
    (hpre : Preempts (s, e) p) (hne : q ≠ p) (hq : (u.proc q).state = .RUNNABLE)
    (hb : (u.proc q).burst_time = (u.proc p).burst_time) (hr : Lib.Trace (Step .g17hybrid) u l t) :
    GivesWay p q (u.proc p).burst_time l ↔
      (u.proc q).pid < (u.proc p).pid ∨ ∀ x ∈ l, ¬ Dispatches x p := by
  have hcs : Coherent s := History.coherent h
  have hcu : Coherent u := hcs.step hu
  have hstate : (u.proc p).state = .RUNNABLE := by
    obtain ⟨c, user, he, hc, hk, hcnt⟩ := hpre
    obtain rfl : e = _ := he
    have hc : s.cpu c = some p := hc
    have hp : (s.tick c).proc p = s.proc p := tick_of_awake (by simp [hcs.running hc])
    have hu := hu.of_timer
    unfold Kernel.timer at hu
    simp only [Kernel.tick_cpu, hc, hp, if_neg hk] at hu
    split at hu
    · cases hu
    · cases hu
      rw [Kernel.quantum_eq, hp, if_pos hcnt]
      simp
  have hwp : Queued u p (u.proc p).burst_time (u.proc p).pid := ⟨hstate, rfl, rfl⟩
  have hwq : Queued u q (u.proc p).burst_time (u.proc q).pid := ⟨hq, hb, rfl⟩
  constructor
  · intro hgive
    by_contra hno
    push Not at hno
    obtain ⟨hle, hex⟩ := hno
    have hpids := (History.pids h).step hcs hu
    have hlt : (u.proc p).pid < (u.proc q).pid := by
      refine lt_of_le_of_ne hle fun heq => hne ?_
      exact (hpids.inj heq (hpids.pos (by rw [hstate]; simp)).ne').symm
    -- up to the first dispatch of `p` nothing happens to `q`
    obtain ⟨l₁, x, l₂, rfl, hx, hfirst⟩ := exists_first hex
    have hq₁ : ∀ y ∈ l₁, ¬ Dispatches y q := by
      intro y hy hyq
      have hex : ∃ z ∈ l₁, Dispatches z q := ⟨y, hy, hyq⟩
      obtain ⟨m₁, z, m₂, rfl, hz, hz₁⟩ := exists_first hex
      have hsplit : m₁ ++ z :: m₂ ++ x :: l₂ = m₁ ++ z :: (m₂ ++ x :: l₂) := by simp
      obtain ⟨w, hw, hwp'⟩ := hwq.first hcu hwp hlt hr hsplit hz hz₁
      exact hfirst w (List.mem_append_left _ hw) hwp'
    rcases hgive l₁ x l₂ rfl hx with ⟨y, hy, hyq⟩ | ⟨y, hy, hyq⟩
    · exact hq₁ y hy hyq
    · apply hyq
      obtain ⟨m₁, m₂, hm⟩ := List.append_of_mem hy
      obtain ⟨a, f⟩ := y
      have hsplit : l₁ ++ x :: l₂ = m₁ ++ (a, f) :: (m₂ ++ l₂) := by
        rw [← List.singleton_append (x := x), ← List.append_assoc, hm]
        simp
      rw [hsplit] at hr
      obtain ⟨a', h1, h2⟩ := hr.of_append
      obtain ⟨rfl, -⟩ := h2.of_cons
      have hm₁ : ∀ z ∈ m₁, ¬ Dispatches z q := by
        intro z hz hzq
        rcases List.mem_append.1 (show z ∈ l₁ ++ [x] by rw [hm]; simp [hz]) with hz' | hz'
        · exact hq₁ z hz' hzq
        · -- `x` is the last of these steps
          rw [List.mem_singleton] at hz'
          subst hz'
          exact hne (hzq.unique hx)
      have hw := (hwq.trace hcu h1 hm₁).2
      exact ⟨hw.state, hw.burst⟩
  · rintro (hlt | hno) l₁ x l₂ hl hx
    · left
      by_contra hq'
      push Not at hq'
      have hex : ∃ y ∈ l₁ ++ [x], Dispatches y p := ⟨x, by simp, hx⟩
      obtain ⟨m₁, y, m₂, hm, hy, hfirst⟩ := exists_first hex
      have hsplit : l = m₁ ++ y :: (m₂ ++ l₂) := by
        rw [hl, ← List.singleton_append (x := x), ← List.append_assoc, hm]
        simp
      obtain ⟨z, hz, hzq⟩ := hwp.first hcu hwq hlt hr hsplit hy hfirst
      rcases List.mem_append.1 (show z ∈ l₁ ++ [x] by rw [hm]; simp [hz]) with hz' | hz'
      · exact hq' z hz' hzq
      · rw [List.mem_singleton] at hz'
        subst hz'
        exact hne (hzq.unique hx)
    · exact absurd hx (hno x (by rw [hl]; simp))

/-- The child of init, with pid 2, uses up a quantum while init waits with the same burst time. -/
theorem round_robin_init_first : ∃ (l : List (Kernel 1 × Event 1)) (u t : Kernel 1),
    Lib.Trace (Step .g17hybrid) u l t ∧ (u.proc 0).state = .RUNNABLE ∧
      (u.proc 0).burst_time = (u.proc 1).burst_time ∧ t.cpu 0 = some 0 ∧
      (GivesWay 1 0 (u.proc 1).burst_time l ↔
        (u.proc 0).pid < (u.proc 1).pid ∨ ∀ x ∈ l, ¬ Dispatches x 1) := by
  have hplay : (((Kernel.boot : Kernel 1).play .g17hybrid
      [.scheduler 0, .run 0 .ret, .run 0 .syscall, .run 0 .allocproc, .run 0 (.kalloc true),
        .run 0 (.copyuvm true), .run 0 .fill, .run 0 .publish, .run 0 .ret, .run 0 .syscall,
        .run 0 (.sleep 5), .scheduler 0, .run 0 .syscall, .run 0 (.set_burst_time 2), .scheduler 0,
        .run 0 .ret, .timer 0 true, .wakeup 5]).bind fun s =>
          (s.step .g17hybrid (.timer 0 true)).bind fun u =>
            (u.play .g17hybrid [.scheduler 0]).map fun t =>
              decide (Preempts (s, .timer 0 true) 1 ∧ (u.proc 0).state = .RUNNABLE ∧
                (u.proc 0).burst_time = (u.proc 1).burst_time ∧ t.cpu 0 = some 0)) = some true := by
    decide +kernel
  obtain ⟨s, hs, hplay⟩ := Option.bind_eq_some_iff.mp hplay
  obtain ⟨u, hu, hplay⟩ := Option.bind_eq_some_iff.mp hplay
  obtain ⟨t, ht, hp⟩ := Option.map_eq_some_iff.mp hplay
  obtain ⟨hpre, hst, hb, hcpu⟩ := of_decide_eq_true hp
  obtain ⟨l₀, -, h⟩ := Lib.Trace.of_foldlM hs
  obtain ⟨l, -, hr⟩ := Lib.Trace.of_foldlM ht
  exact ⟨l, u, t, hr, hst, hb, hcpu, round_robin_iff h hu hpre (by decide) hst hb hr⟩

/-- Init uses up its quantum and is dispatched again, before its child with the same burst time. -/
theorem round_robin_starves : ∃ (l₀ l : List (Kernel 1 × Event 1)) (s u t : Kernel 1),
    History .g17hybrid l₀ s ∧ Step .g17hybrid s (.timer 0 true) u ∧
      Preempts (s, .timer 0 true) 0 ∧ (u.proc 1).state = .RUNNABLE ∧
      (u.proc 1).burst_time = (u.proc 0).burst_time ∧ Lib.Trace (Step .g17hybrid) u l t ∧
      ¬ GivesWay 0 1 (u.proc 0).burst_time l := by
  have hplay : (((Kernel.boot : Kernel 1).play .g17hybrid
      [.scheduler 0, .run 0 .ret, .run 0 .syscall, .run 0 (.set_burst_time 2), .scheduler 0,
        .run 0 .ret, .run 0 .syscall, .run 0 .allocproc, .run 0 (.kalloc true),
        .run 0 (.copyuvm true), .run 0 .fill, .run 0 .publish, .run 0 .ret,
        .timer 0 true]).bind fun s =>
          (s.step .g17hybrid (.timer 0 true)).bind fun u =>
            (u.step .g17hybrid (.scheduler 0)).map fun t =>
              decide (Preempts (s, .timer 0 true) 0 ∧ (u.proc 1).state = .RUNNABLE ∧
                (u.proc 1).burst_time = (u.proc 0).burst_time ∧ scan u.proc = some (some 0, 0) ∧
                  t.cpu 0 = some 0)) = some true := by
    decide +kernel
  obtain ⟨s, hs, hplay⟩ := Option.bind_eq_some_iff.mp hplay
  obtain ⟨u, hu, hplay⟩ := Option.bind_eq_some_iff.mp hplay
  obtain ⟨t, ht, hp⟩ := Option.map_eq_some_iff.mp hplay
  obtain ⟨hpre, hst, hb, hscan, -⟩ := of_decide_eq_true hp
  obtain ⟨l₀, -, h⟩ := Lib.Trace.of_foldlM hs
  have hd : Dispatches (u, Event.scheduler 0) 0 := ⟨0, 0, rfl, hscan⟩
  refine ⟨l₀, [(u, .scheduler 0)], s, u, t, h, hu, hpre, hst, hb, .single ht, fun hgive => ?_⟩
  rcases hgive [] _ [] rfl hd with ⟨y, hy, -⟩ | ⟨y, hy, hno⟩
  · cases hy
  · obtain rfl : y = (u, .scheduler 0) := by simpa using hy
    exact hno ⟨hst, hb⟩

end Xv6Lab.Sched
