import Xv6Lab.Reap.Life

/-! What holds between processes in every state: a `fork` alone knows the child that it is
making, a `wait` the child that it is reaping, and every other process has a live parent. -/

namespace Xv6Lab.Reap

open Sched (Slot NPROC ProcState)

variable {l t : Life} {p q i j : Slot} {n : ℕ}

/-- The fields of the slot that the `fork` of `p` is filling, when `p` is at `k`. -/
def Making (k : Place) (p : Slot) (kstack pgdir : Option ℕ) (parent : Option Slot) : Prop :=
  match k with
  | .kalloc _ | .dropChild _ => kstack = none ∧ pgdir = none ∧ parent = none
  | .fill _ => kstack.isSome ∧ pgdir.isSome ∧ parent = none
  | .publish _ => kstack.isSome ∧ pgdir.isSome ∧ parent = some p
  | _ => kstack.isSome ∧ pgdir = none ∧ parent = none

structure Bonds (l : Life) : Prop where
  /-- Only a live process is doing something. -/
  idle : ∀ {p}, (l.view p).phase ≠ .live → (l.view p).job = .user
  making : ∀ {p i}, (l.view p).job.child = some i →
    (l.view i).phase = .embryo ∧
      Making (l.view p).job p (l.view i).kstack (l.view i).pgdir (l.view i).parent
  forker : ∀ {p q i}, (l.view p).job.child = some i → (l.view q).job.child = some i → p = q
  free : ∀ {i}, (l.view i).phase = .free →
    (l.view i).kstack = none ∧ (l.view i).pgdir = none ∧ (l.view i).parent = none
  live : ∀ {p}, (l.view p).phase = .live → (l.view p).kstack.isSome ∧ (l.view p).pgdir.isSome
  zombie : ∀ {i}, (l.view i).phase = .zombie → (l.view i).pgdir.isSome ∧
    ((l.view i).kstack.isSome ∨ ∃ p, (l.view p).job = .waitClear i)
  clear : ∀ {p i}, (l.view p).job = .waitClear i →
    (l.view i).phase = .zombie ∧ (l.view i).parent = some p ∧ (l.view i).kstack = none
  /-- A child gets its parent just before it is published. -/
  embryo : ∀ {p i}, (l.view i).phase = .embryo → (l.view i).parent = some p →
    (l.view p).job = .publish i
  /-- The loop of `exit` leaves no child behind. -/
  scanned : ∀ {p n}, (l.view p).job = .exitScan n → ∀ i : Slot, (i : ℕ) < n →
    (l.view i).parent ≠ some p
  /-- `freevm` and `exec` have a directory to free. -/
  dir : ∀ {p d}, (∃ k, (l.view p).job = .freevm d k) ∨ (l.view p).job = .switchuvm d → d.isSome
  init : (l.view initproc).phase = .live ∧ (l.view initproc).parent = none ∧
    ∀ n, (l.view initproc).job ≠ .exitScan n
  parent : ∀ {i}, (l.view i).phase ≠ .free → (l.view i).phase ≠ .embryo → i ≠ initproc →
    ∃ p, (l.view i).parent = some p ∧ (l.view p).phase = .live

namespace Bonds

theorem phase_child (h : Bonds l) (hp : (l.view p).job.child = some i) :
    (l.view i).phase = .embryo :=
  (h.making hp).1

theorem step_idle (h : Bonds l) (ht : l.Step t) (hp : (t.view p).phase ≠ .live) :
    (t.view p).job = .user := by
  have hidle := @h.idle
  have hphase := @h.phase_child
  have hclear := fun p i hi => (@h.clear p i hi).1
  clear h
  cases ht
  all_goals simp only [Life.turn_view, Life.put_view, Life.emit_view] at hp ⊢
  all_goals grind [Place.child]

theorem step_forker (h : Bonds l) (ht : l.Step t) (hp : (t.view p).job.child = some i)
    (hq : (t.view q).job.child = some i) : p = q := by
  have hforker := @h.forker
  have hphase := @h.phase_child
  clear h
  cases ht
  case freed _ _ k _ =>
    cases k
    all_goals simp only [Life.turn_view, Life.emit_view, After.place] at hp hq
    all_goals grind [Place.child]
  all_goals simp only [Life.turn_view, Life.put_view, Life.emit_view] at hp hq
  all_goals grind [Place.child]

theorem step_making (h : Bonds l) (ht : l.Step t) (hp : (t.view p).job.child = some i) :
    (t.view i).phase = .embryo ∧
      Making (t.view p).job p (t.view i).kstack (t.view i).pgdir (t.view i).parent := by
  have hmaking := @h.making
  have hidle := @h.idle
  have hforker := @h.forker
  have hfree := @h.free
  have hlive := @h.live
  have hclear := fun p i hi => (@h.clear p i hi).1
  have hembryo := @h.embryo
  clear h
  cases ht
  case freed _ _ k _ =>
    cases k
    all_goals simp only [Life.turn_view, Life.emit_view, After.place] at hp ⊢
    all_goals grind [Place.child, Making]
  all_goals simp only [Life.turn_view, Life.put_view, Life.emit_view] at hp ⊢
  all_goals grind [Place.child, Making]

theorem step_free (h : Bonds l) (ht : l.Step t) (hi : (t.view i).phase = .free) :
    (t.view i).kstack = none ∧ (t.view i).pgdir = none ∧ (t.view i).parent = none := by
  have hfree := @h.free
  have hmaking := @h.making
  have hidle := @h.idle
  have hclear := fun p i hi => (@h.clear p i hi)
  clear h
  cases ht
  all_goals simp only [Life.turn_view, Life.put_view, Life.emit_view] at hi ⊢
  all_goals grind [Place.child, Making]

theorem step_live (h : Bonds l) (ht : l.Step t) (hp : (t.view p).phase = .live) :
    (t.view p).kstack.isSome ∧ (t.view p).pgdir.isSome := by
  have hlive := @h.live
  have hmaking := @h.making
  clear h
  cases ht
  all_goals simp only [Life.turn_view, Life.put_view, Life.emit_view] at hp ⊢
  all_goals grind [Place.child, Making]

theorem step_zombie (h : Bonds l) (ht : l.Step t) (hi : (t.view i).phase = .zombie) :
    (t.view i).pgdir.isSome ∧ ((t.view i).kstack.isSome ∨ ∃ p, (t.view p).job = .waitClear i) := by
  have hzombie := @h.zombie
  have hlive := @h.live
  have hidle := @h.idle
  have hphase := @h.phase_child
  clear h
  cases ht
  all_goals simp only [Life.turn_view, Life.put_view, Life.emit_view] at hi ⊢
  all_goals grind [Place.child]

theorem step_clear (h : Bonds l) (ht : l.Step t) (hp : (t.view p).job = .waitClear i) :
    (t.view i).phase = .zombie ∧ (t.view i).parent = some p ∧ (t.view i).kstack = none := by
  have hclear := @h.clear
  have hphase := @h.phase_child
  clear h
  cases ht
  case freed _ _ k _ =>
    cases k
    all_goals simp only [Life.turn_view, Life.emit_view, After.place] at hp ⊢
    all_goals grind
  all_goals simp only [Life.turn_view, Life.put_view, Life.emit_view] at hp ⊢
  all_goals grind [Place.child]

theorem step_embryo (h : Bonds l) (ht : l.Step t) (hi : (t.view i).phase = .embryo)
    (hp : (t.view i).parent = some p) : (t.view p).job = .publish i := by
  have hembryo := @h.embryo
  have hmaking := @h.making
  have hfree := @h.free
  have hforker := @h.forker
  have hidle := @h.idle
  clear h
  cases ht
  all_goals simp only [Life.turn_view, Life.put_view, Life.emit_view] at hi hp ⊢
  all_goals grind [Place.child, Making]

/-- What a step does to the phase, the parent and the pid of slot `i`. -/
inductive Change (l t : Life) (i : Slot) : Prop
  | same (hs : (t.view i).phase = (l.view i).phase) (hp : (t.view i).parent = (l.view i).parent)
      (hd : (t.view i).pid = (l.view i).pid)
  | taken (hl : (l.view i).phase = .free) (hs : (t.view i).phase = .embryo)
      (hp : (t.view i).parent = (l.view i).parent) (hd : (t.view i).pid = l.nextpid)
      (hn : t.nextpid = l.nextpid + 1)
      (hno : ∀ j, j ≠ i → (t.view j).phase = (l.view j).phase)
  | dropped (hl : (l.view i).phase = .embryo) (hs : (t.view i).phase = .free)
  | filled (p : Slot) (hl : (l.view i).phase = .embryo) (hs : (t.view i).phase = .embryo)
      (hp : (t.view i).parent = some p) (hj : (t.view p).job = .publish i)
      (hd : (t.view i).pid = (l.view i).pid)
  | published (p : Slot) (hl : (l.view i).phase = .embryo) (hs : (t.view i).phase = .live)
      (hj : (l.view p).job = .publish i) (hp : (t.view i).parent = (l.view i).parent)
      (hd : (t.view i).pid = (l.view i).pid)
      (hlog : t.log = .fork (l.view p).pid (l.view i).pid :: l.log)
  | abandoned (p : Slot) (hl : (l.view i).parent = some p) (hj : (l.view p).job = .exitScan i)
      (hp : (t.view i).parent = some initproc) (hs : (t.view i).phase = (l.view i).phase)
      (hd : (t.view i).pid = (l.view i).pid)
  | died (n : ℕ) (hl : (l.view i).phase = .live) (hs : (t.view i).phase = .zombie)
      (hj : (l.view i).job = .exitScan n) (hn : NPROC ≤ n)
      (hp : (t.view i).parent = (l.view i).parent) (hd : (t.view i).pid = (l.view i).pid)
      (hk : (t.view i).kstack = (l.view i).kstack) (hg : (t.view i).pgdir = (l.view i).pgdir)
      (hlog : t.log = .exit (l.view i).pid (l.view i).kstack (l.view i).pgdir :: l.log)
  | cleared (p : Slot) (hj : (l.view p).job = .waitClear i) (hl : (l.view i).phase = .zombie)
      (hs : (t.view i).phase = .free)

theorem live_of_job (h : Bonds l) (hp : (l.view p).job ≠ .user) : (l.view p).phase = .live := by
  by_contra hn
  exact hp (h.idle hn)

/-- A fork makes another process, not itself. -/
theorem child_ne (h : Bonds l) (hp : (l.view p).job.child = some i) : i ≠ p := by
  rintro rfl
  have hl := h.live_of_job fun hu => by
    rw [hu] at hp
    cases hp
  rw [h.phase_child hp] at hl
  cases hl

theorem step_change (h : Bonds l) (ht : l.Step t) (i : Slot) : Change l t i := by
  cases ht with
  | take p j hl hp hj =>
    by_cases hi : i = j
    · subst hi
      exact .taken hj (by simp) (by simp) (by simp) rfl fun j hji => by simp [hji]
    · refine .same ?_ ?_ ?_ <;> simp [hi]
  | dropChild p j hp =>
    by_cases hi : i = j
    · subst hi
      exact .dropped (h.phase_child (by rw [hp]; rfl)) (by simp)
    · refine .same ?_ ?_ ?_ <;> simp [hi]
  | fill p j hp =>
    by_cases hi : i = j
    · subst hi
      have hphase := h.phase_child (by rw [hp]; rfl)
      exact .filled p hphase (by simp [hphase]) (by simp) (by simp) (by simp)
    · refine .same ?_ ?_ ?_ <;> simp [hi]
  | publish p j hp =>
    by_cases hi : i = j
    · subst hi
      exact .published p (h.phase_child (by rw [hp]; rfl)) (by simp) hp (by simp) (by simp) rfl
    · refine .same ?_ ?_ ?_ <;> simp [hi]
  | abandon p j hp hj =>
    by_cases hi : i = j
    · subst hi
      exact .abandoned p hj hp (by simp) (by simp) (by simp)
    · refine .same ?_ ?_ ?_ <;> simp [hi]
  | zombie p n hp hn =>
    by_cases hi : i = p
    · subst hi
      exact .died n (h.live_of_job (by simp [hp])) (by simp) hp hn (by simp) (by simp) (by simp) (by simp)
        rfl
    · refine .same ?_ ?_ ?_ <;> simp [hi]
  | clear p j hp _ =>
    by_cases hi : i = j
    · subst hi
      exact .cleared p hp (h.clear hp).1 (by simp)
    · refine .same ?_ ?_ ?_ <;> simp [hi]
  | stack p j _ | noStack p j _ | copied p j _ _ | dropStack p j _ _ _ | reap p j _ _ _ _ _ _ _ =>
    refine .same ?_ ?_ ?_ <;> by_cases hi : i = j <;> simp [hi]
  | built p _ _ =>
    refine .same ?_ ?_ ?_ <;> by_cases hi : i = p <;> simp [hi]
  | _ => refine .same ?_ ?_ ?_ <;> simp

theorem step_dir (h : Bonds l) (ht : l.Step t) {d : Option ℕ}
    (hp : (∃ k, (t.view p).job = .freevm d k) ∨ (t.view p).job = .switchuvm d) : d.isSome := by
  have hdir := @h.dir
  have hlive := @h.live
  have hidle := @h.idle
  have hzombie := fun p i hi => (h.zombie (@h.clear p i hi).1).1
  clear h
  cases ht
  case freed _ _ k _ =>
    cases k
    all_goals simp only [Life.turn_view, Life.emit_view, After.place] at hp
    all_goals grind
  all_goals simp only [Life.turn_view, Life.put_view, Life.emit_view] at hp
  all_goals grind

theorem step_init (h : Bonds l) (ht : l.Step t) :
    (t.view initproc).phase = .live ∧ (t.view initproc).parent = none ∧
    ∀ n, (t.view initproc).job ≠ .exitScan n := by
  have hinit := h.init
  have hphase := @h.phase_child
  have hclear := fun p i hi => (@h.clear p i hi).1
  clear h
  cases ht
  case freed _ _ k _ =>
    cases k
    all_goals simp only [Life.turn_view, Life.emit_view, After.place] 
    all_goals grind
  all_goals simp only [Life.turn_view, Life.put_view, Life.emit_view] 
  all_goals grind [Place.child]

/-- How a process comes to be in the loop of `exit`. -/
theorem of_exitScan (h : Bonds l) (ht : l.Step t) (hp : (t.view p).job = .exitScan n) :
    n = 0 ∨ (l.view p).job = .exitScan n ∨
      ∃ i : Slot, n = i + 1 ∧ (l.view p).job = .exitScan i ∧ (t.view i).parent ≠ some p := by
  have hinit := h.init.2.2
  clear h
  cases ht
  case freed _ _ k _ =>
    cases k
    all_goals simp only [Life.turn_view, Life.emit_view, After.place] at hp
    all_goals grind
  all_goals simp only [Life.turn_view, Life.put_view, Life.emit_view] at hp ⊢
  all_goals grind

theorem step_scanned (h : Bonds l) (ht : l.Step t) (hp : (t.view p).job = .exitScan n)
    (hi : (i : ℕ) < n) : (t.view i).parent ≠ some p := by
  have hp0 : p ≠ initproc := by
    rintro rfl
    exact (h.step_init ht).2.2 n hp
  -- a slot that was passed stays passed
  have hkeep : (l.view i).parent ≠ some p → (t.view i).parent ≠ some p := by
    intro hpar
    cases h.step_change ht i with
    | same _ hq _ | taken _ _ hq _ _ _ | published _ _ _ _ hq _ _ | died _ _ _ _ _ hq _ _ _ _ =>
      rwa [hq]
    | dropped _ hs | cleared _ _ _ hs =>
      rw [(h.step_free ht hs).2.2]
      exact fun hq => by cases hq
    | filled q _ _ hq hj _ =>
      rintro hqp
      rw [hq, Option.some.injEq] at hqp
      rw [hqp, hp] at hj
      cases hj
    | abandoned q _ _ hq _ _ =>
      rw [hq, ne_eq, Option.some.injEq]
      exact hp0.symm
  rcases h.of_exitScan ht hp with rfl | hj | ⟨j, rfl, hj, hpar⟩
  · exact absurd hi (Nat.not_lt_zero _)
  · exact hkeep (h.scanned hj i hi)
  · rcases Nat.lt_succ_iff_lt_or_eq.1 hi with hlt | heq
    · exact hkeep (h.scanned hj i hlt)
    · rwa [Fin.ext heq]

theorem step_parent (h : Bonds l) (ht : l.Step t) (hf : (t.view i).phase ≠ .free)
    (he : (t.view i).phase ≠ .embryo) (h0 : i ≠ initproc) :
    ∃ p, (t.view i).parent = some p ∧ (t.view p).phase = .live := by
  -- a live parent stays live, for `exit` leaves no child behind
  have hstay : ∀ p, (l.view p).phase = .live → (l.view i).parent = some p →
      (t.view p).phase = .live := by
    intro p hp hpar
    cases h.step_change ht p with
    | same hs _ _ => rw [hs, hp]
    | published _ _ hs _ _ _ _ => exact hs
    | abandoned _ _ _ _ hs _ => rw [hs, hp]
    | died n _ _ hj hn _ _ _ _ _ => exact absurd hpar (h.scanned hj i (i.isLt.trans_le hn))
    | taken hl _ _ _ _ _ | dropped hl _ | filled _ hl _ _ _ _ | cleared _ _ hl _ =>
      rw [hp] at hl
      cases hl
  cases h.step_change ht i with
  | same hs hp _ =>
    rw [hs] at hf he
    obtain ⟨p, hpar, hlive⟩ := h.parent hf he h0
    exact ⟨p, hp.trans hpar, hstay p hlive hpar⟩
  | taken _ hs _ _ _ _ => exact absurd hs he
  | dropped _ hs => exact absurd hs hf
  | filled _ _ hs _ _ _ => exact absurd hs he
  | published p _ _ hj hp _ _ =>
    have hpar := (h.making (p := p) (i := i) (by rw [hj]; rfl)).2
    rw [hj] at hpar
    exact ⟨p, hp.trans hpar.2.2, hstay p (h.live_of_job (by simp [hj])) hpar.2.2⟩
  | abandoned p _ _ hp _ _ =>
    exact ⟨initproc, hp, (h.step_init ht).1⟩
  | died _ hl _ _ _ hp _ _ _ _ =>
    obtain ⟨p, hpar, hlive⟩ := h.parent (by simp [hl]) (by simp [hl]) h0
    exact ⟨p, hp.trans hpar, hstay p hlive hpar⟩
  | cleared _ _ _ hs => exact absurd hs hf

theorem step (h : Bonds l) (ht : l.Step t) : Bonds t where
  idle hp := h.step_idle ht hp
  making hp := h.step_making ht hp
  forker hp hq := h.step_forker ht hp hq
  free hi := h.step_free ht hi
  live hp := h.step_live ht hp
  zombie hi := h.step_zombie ht hi
  clear hp := h.step_clear ht hp
  embryo hi hp := h.step_embryo ht hi hp
  scanned hp _ hi := h.step_scanned ht hp hi
  dir hp := h.step_dir ht hp
  init := h.step_init ht
  parent hf he h0 := h.step_parent ht hf he h0

end Bonds

end Xv6Lab.Reap
