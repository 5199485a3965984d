import Xv6Lab.Reap.Pages

/-! What the log says: every process is forked and exits once, a `wait` takes it for its
parent, and the kernel stack and the directory that it had are freed in this `wait` and
nowhere else. -/

namespace Xv6Lab.Reap

open Lib
open Sched (Slot)

variable {l t : Life} {p q i j : Slot} {a b c f k d n w : ℕ} {log pre : List Event} {e : Event}

/-- The event is the return of a `wait` with `c`. -/
def Event.returns (c : ℕ) : Event → Bool
  | .wait _ b => b = c
  | _ => false

def Exited (log : List Event) (c : ℕ) : Prop := ∃ k d, Event.exit c k d ∈ log

/-- Process `w` is the parent of `c`: it has forked it, or it is init and the process that has
forked it has exited. -/
def IsParent (log : List Event) (w c : ℕ) : Prop :=
  ∃ f, Event.fork f c ∈ log ∧ (¬ Exited log f ∧ w = f ∨ Exited log f ∧ w = 1)

/-- Page `a` has been freed once, by the `wait` in which `w` reaps `c`. -/
def FreedBy (log : List Event) (w c a : ℕ) : Prop :=
  log.filter (Event.frees a) = [.kfree w (some c) a]

/-- What process `p` has done with the directory `d` of the child `c` that it reaps. -/
def Handed (log : List Event) (job : Place) (w c d : ℕ) : Prop :=
  match job with
  | .freevm d' _ => d' = some d
  | _ => FreedBy log w c d

structure Chronicle (l : Life) : Prop where
  init : (l.view initproc).pid = 1
  pid_lt : ∀ {i}, (l.view i).phase ≠ .free → (l.view i).pid < l.nextpid
  pid_inj : ∀ {i j}, (l.view i).phase ≠ .free → (l.view j).phase ≠ .free →
    (l.view i).pid = (l.view j).pid → i = j
  fork_lt : ∀ {f c}, Event.fork f c ∈ l.log → c < l.nextpid
  exit_lt : ∀ {c}, Exited l.log c → c < l.nextpid
  reap_lt : ∀ {w c}, Event.reap w c ∈ l.log → c < l.nextpid
  unborn : ∀ {i f}, (l.view i).phase = .embryo → Event.fork f (l.view i).pid ∉ l.log
  fork_unique : ∀ {f f' c}, Event.fork f c ∈ l.log → Event.fork f' c ∈ l.log → f = f'
  alive : ∀ {i}, (l.view i).phase ≠ .free → (l.view i).phase ≠ .zombie →
    ¬ Exited l.log (l.view i).pid
  /-- The parent has forked the process, or it is init and the process that did has exited,
  or is about to and has passed this child to init. -/
  born : ∀ {i p}, (l.view i).phase ≠ .free → (l.view i).phase ≠ .embryo → (l.view i).parent = some p →
    ∃ f, Event.fork f (l.view i).pid ∈ l.log ∧ ((l.view p).pid = f ∨
      p = initproc ∧ (Exited l.log f ∨
        ∃ q n, (l.view q).job = .exitScan n ∧ (l.view q).pid = f))
  exited : ∀ {i}, (l.view i).phase = .zombie → ∃ k d,
    Event.exit (l.view i).pid (some k) (some d) ∈ l.log ∧ (l.view i).pgdir = some d ∧
      ((l.view i).kstack = some k ∨
        ∃ p, (l.view p).job = .waitClear i ∧ FreedBy l.log (l.view p).pid (l.view i).pid k)
  not_reaped : ∀ {i w}, (l.view i).phase ≠ .free → Event.reap w (l.view i).pid ∉ l.log
  taken : ∀ {p c}, (l.view p).job.taken = some c →
    Event.reap (l.view p).pid c ∈ l.log ∧ (∀ w, Event.wait w c ∉ l.log) ∧
      ∃ k d, Event.exit c (some k) (some d) ∈ l.log ∧ FreedBy l.log (l.view p).pid c k ∧
        Handed l.log (l.view p).job (l.view p).pid c d
  taken_inj : ∀ {p q c}, (l.view p).job.taken = some c → (l.view q).job.taken = some c → p = q
  returned : ∀ {w c}, Event.wait w c ∈ l.log → Event.reap w c ∈ l.log ∧
    ∃ k d, Event.exit c (some k) (some d) ∈ l.log ∧ FreedBy l.log w c k ∧ FreedBy l.log w c d
  once : ∀ c, (l.log.filter (Event.returns c)).length ≤ 1
  /-- A `wait` reaps a process that has exited, and is called by its parent. -/
  rightful : ∀ {pre post w c}, l.log = post ++ Event.reap w c :: pre →
    Exited pre c ∧ IsParent pre w c

namespace Chronicle

/-- What a step writes into the log. -/
inductive Writes (l t : Life) : Prop
  | nothing (ht : t.log = l.log)
  | fork (p i : Slot) (hp : (l.view p).job = .publish i) (hi : (t.view i).phase = .live)
      (hd : (t.view i).pid = (l.view i).pid)
      (ht : t.log = .fork (l.view p).pid (l.view i).pid :: l.log)
  | exit (p : Slot) (n : ℕ) (hp : (l.view p).job = .exitScan n) (hn : Sched.NPROC ≤ n)
      (hs : (t.view p).phase = .zombie) (hd : (t.view p).pid = (l.view p).pid)
      (ht : t.log = .exit (l.view p).pid (l.view p).kstack (l.view p).pgdir :: l.log)
  | kfree (w : ℕ) (c : Option ℕ) (a : ℕ) (r : Holder) (hr : l.page r = some a)
      (ht : t.log = .kfree w c a :: l.log)
  | reap (p i : Slot) (hp : (l.view p).job = .waitClear i) (hi : (t.view i).phase = .free)
      (hj : (t.view p).job = .freevm (l.view i).pgdir (.waitReturn (l.view i).pid))
      (hx : ∀ q n, (l.view q).job ≠ .exitScan n)
      (ht : t.log = .reap (l.view p).pid (l.view i).pid :: l.log)
  | wait (p : Slot) (c : ℕ) (hp : (l.view p).job = .waitReturn c) (hj : (t.view p).job = .user)
      (ht : t.log = .wait (l.view p).pid c :: l.log)

theorem writes (ht : l.Step t) : Writes l t := by
  cases ht with
  | dropStack p i k hp hk => exact .kfree _ _ _ (.stack i) hk rfl
  | publish p i hp => exact .fork p i hp (by simp) (by simp) rfl
  | freed p d k hp => exact .kfree _ _ _ (.code p) (by simp [Life.page, hp, Place.dir]) rfl
  | zombie p n hp hn => exact .exit p n hp hn (by simp) (by simp) rfl
  | reap p i k hl hp hi hz hk hx => exact .kfree _ _ _ (.stack i) hk rfl
  | clear p i hp hx => exact .reap p i hp (by simp) (by simp) hx rfl
  | wait p c hp => exact .wait p c hp (by simp) rfl
  | _ => exact .nothing rfl

theorem mem_log (ht : l.Step t) (he : e ∈ l.log) : e ∈ t.log := by
  cases writes ht with
  | nothing ht => rwa [ht]
  | _ => simp_all

theorem mem_exited (ht : l.Step t) (he : Exited l.log c) : Exited t.log c := by
  obtain ⟨k, d, he⟩ := he
  exact ⟨k, d, mem_log ht he⟩

/-- What has been freed in a `wait` is not freed again. -/
theorem freedBy_step (h : Pages l) (ht : l.Step t) (hf : FreedBy l.log w c a) :
    FreedBy t.log w c a := by
  unfold FreedBy at *
  cases writes ht with
  | nothing ht => rwa [ht]
  | kfree w' c' b r hr ht =>
    have hab : a ≠ b := by
      rintro rfl
      refine h.kept hr ⟨.kfree w (some c) a, ?_⟩
      have hmem : Event.kfree w (some c) a ∈ l.log.filter (Event.frees a) := by simp [hf]
      exact List.mem_filter.1 hmem
    rw [ht, List.filter_cons_of_neg (by simp [Event.frees, hab]), hf]
  | fork _ _ _ _ _ ht | exit _ _ _ _ _ _ ht | reap _ _ _ _ _ _ ht | wait _ _ _ _ ht =>
    rw [ht, List.filter_cons_of_neg (by simp [Event.frees]), hf]

/-- Nothing has been freed that still has a holder. -/
theorem freedBy_first (hg : Pages l) {r : Holder} (hr : l.page r = some a) :
    FreedBy (.kfree w (some c) a :: l.log) w c a := by
  unfold FreedBy
  rw [List.filter_cons_of_pos (by simp [Event.frees]), List.filter_eq_nil_iff.2]
  exact fun e he hf => hg.kept hr ⟨e, he, hf⟩

theorem nextpid_le (ht : l.Step t) : l.nextpid ≤ t.nextpid := by
  cases ht with
  | take _ _ _ _ _ => exact Nat.le_succ _
  | _ => exact le_rfl

/-- A slot in use was in use before, or has just been taken. -/
theorem pid_of (hb : Bonds l) (ht : l.Step t) (hf : (t.view i).phase ≠ .free) :
    ((l.view i).phase ≠ .free ∧ (t.view i).pid = (l.view i).pid) ∨
      ((l.view i).phase = .free ∧ (t.view i).phase = .embryo ∧ (t.view i).pid = l.nextpid ∧
        t.nextpid = l.nextpid + 1 ∧ ∀ j, j ≠ i → (t.view j).phase = (l.view j).phase) := by
  cases hb.step_change ht i with
  | same hs _ hd => exact .inl ⟨by rwa [← hs], hd⟩
  | taken hl hs _ hd hn hno => exact .inr ⟨hl, hs, hd, hn, hno⟩
  | dropped _ hs => exact absurd hs hf
  | filled _ hl _ _ _ hd => exact .inl ⟨by simp [hl], hd⟩
  | published _ hl _ _ _ hd _ => exact .inl ⟨by simp [hl], hd⟩
  | abandoned _ _ _ _ hs hd => exact .inl ⟨by rwa [← hs], hd⟩
  | died _ hl _ _ _ _ hd _ _ _ => exact .inl ⟨by simp [hl], hd⟩
  | cleared _ _ _ hs => exact absurd hs hf

theorem step_pid_lt (h : Chronicle l) (hb : Bonds l) (ht : l.Step t)
    (hf : (t.view i).phase ≠ .free) : (t.view i).pid < t.nextpid := by
  rcases pid_of hb ht hf with ⟨hl, hd⟩ | ⟨-, -, hd, hn, -⟩
  · rw [hd]
    exact (h.pid_lt hl).trans_le (nextpid_le ht)
  · omega

theorem step_pid_inj (h : Chronicle l) (hb : Bonds l) (ht : l.Step t)
    (hi : (t.view i).phase ≠ .free) (hj : (t.view j).phase ≠ .free)
    (hij : (t.view i).pid = (t.view j).pid) : i = j := by
  rcases pid_of hb ht hi with ⟨hli, hdi⟩ | ⟨hli, hsi, hdi, -, hno⟩
  · rcases pid_of hb ht hj with ⟨hlj, hdj⟩ | ⟨-, -, hdj, -, -⟩
    · exact h.pid_inj hli hlj (by rw [← hdi, hij, hdj])
    · have := h.pid_lt hli
      omega
  · rcases pid_of hb ht hj with ⟨hlj, hdj⟩ | ⟨hlj, hsj, -, -, -⟩
    · have := h.pid_lt hlj
      omega
    · by_contra hne
      rw [hno j (Ne.symm hne), hlj] at hsj
      cases hsj

theorem step_init (h : Chronicle l) (hb : Bonds l) (ht : l.Step t) :
    (t.view initproc).pid = 1 := by
  rcases pid_of hb ht (i := initproc) (by simp [(hb.step_init ht).1]) with ⟨-, hd⟩ | ⟨hl, -⟩
  · rw [hd, h.init]
  · rw [hb.init.1] at hl
    cases hl

theorem step_exited (ht : l.Step t) (he : Exited t.log c) :
    Exited l.log c ∨ ∃ p n, (l.view p).job = .exitScan n ∧ (l.view p).pid = c ∧
      (t.view p).phase = .zombie ∧ (t.view p).pid = c := by
  obtain ⟨k, d, he⟩ := he
  cases writes ht with
  | nothing hw => exact .inl ⟨k, d, hw ▸ he⟩
  | exit p n hp _ hs hd hw =>
    rw [hw, List.mem_cons, Event.exit.injEq] at he
    rcases he with ⟨rfl, -⟩ | he
    · exact .inr ⟨p, n, hp, rfl, hs, hd⟩
    · exact .inl ⟨k, d, he⟩
  | fork _ _ _ _ _ hw | kfree _ _ _ _ _ hw | reap _ _ _ _ _ _ hw | wait _ _ _ _ hw =>
    rw [hw, List.mem_cons] at he
    exact .inl ⟨k, d, he.resolve_left (by simp)⟩

theorem step_exit_lt (h : Chronicle l) (hb : Bonds l) (ht : l.Step t) (he : Exited t.log c) :
    c < t.nextpid := by
  rcases step_exited ht he with he | ⟨p, n, hp, rfl, -⟩
  · exact (h.exit_lt he).trans_le (nextpid_le ht)
  · have hl := hb.live_of_job (p := p) (by simp [hp])
    exact (h.pid_lt (by simp [hl])).trans_le (nextpid_le ht)

theorem step_reap (ht : l.Step t) (hr : Event.reap w c ∈ t.log) :
    Event.reap w c ∈ l.log ∨ ∃ p i, (l.view p).job = .waitClear i ∧ (l.view p).pid = w ∧
      (l.view i).pid = c ∧ (t.view i).phase = .free := by
  cases writes ht with
  | nothing hw => exact .inl (hw ▸ hr)
  | reap p i hp hi hj hx hw =>
    rw [hw, List.mem_cons, Event.reap.injEq] at hr
    rcases hr with ⟨rfl, rfl⟩ | hr
    · exact .inr ⟨p, i, hp, rfl, rfl, hi⟩
    · exact .inl hr
  | fork _ _ _ _ _ hw | kfree _ _ _ _ _ hw | exit _ _ _ _ _ _ hw | wait _ _ _ _ hw =>
    rw [hw, List.mem_cons] at hr
    exact .inl (hr.resolve_left (by simp))

theorem step_reap_lt (h : Chronicle l) (hb : Bonds l) (ht : l.Step t)
    (hr : Event.reap w c ∈ t.log) : c < t.nextpid := by
  rcases step_reap ht hr with hr | ⟨p, i, hp, -, rfl, -⟩
  · exact (h.reap_lt hr).trans_le (nextpid_le ht)
  · exact (h.pid_lt (by simp [(hb.clear hp).1])).trans_le (nextpid_le ht)

theorem step_fork (ht : l.Step t) (hf : Event.fork f c ∈ t.log) :
    Event.fork f c ∈ l.log ∨ ∃ p i, (l.view p).job = .publish i ∧ (l.view p).pid = f ∧
      (l.view i).pid = c ∧ (t.view i).phase = .live ∧ (t.view i).pid = c := by
  cases writes ht with
  | nothing hw => exact .inl (hw ▸ hf)
  | fork p i hp hi hd hw =>
    rw [hw, List.mem_cons, Event.fork.injEq] at hf
    rcases hf with ⟨rfl, rfl⟩ | hf
    · exact .inr ⟨p, i, hp, rfl, rfl, hi, hd⟩
    · exact .inl hf
  | exit _ _ _ _ _ _ hw | kfree _ _ _ _ _ hw | reap _ _ _ _ _ _ hw | wait _ _ _ _ hw =>
    rw [hw, List.mem_cons] at hf
    exact .inl (hf.resolve_left (by simp))

theorem step_fork_lt (h : Chronicle l) (hb : Bonds l) (ht : l.Step t)
    (hf : Event.fork f c ∈ t.log) : c < t.nextpid := by
  rcases step_fork ht hf with hf | ⟨p, i, hp, -, rfl, -⟩
  · exact (h.fork_lt hf).trans_le (nextpid_le ht)
  · have hi := hb.phase_child (p := p) (i := i) (by rw [hp]; rfl)
    exact (h.pid_lt (by simp [hi])).trans_le (nextpid_le ht)

theorem step_unborn (h : Chronicle l) (hb : Bonds l) (ht : l.Step t)
    (hi : (t.view i).phase = .embryo) : Event.fork f (t.view i).pid ∉ t.log := by
  intro hf
  rcases step_fork ht hf with hf | ⟨p, j, -, -, -, hj, hd⟩
  · cases hb.step_change ht i with
    | same hs _ hd => exact h.unborn (hs ▸ hi) (hd ▸ hf)
    | taken _ _ _ hd _ _ => exact absurd (h.fork_lt hf) (by omega)
    | filled _ hl _ _ _ hd => exact h.unborn hl (hd ▸ hf)
    | abandoned _ _ _ _ hs hd => exact h.unborn (hs ▸ hi) (hd ▸ hf)
    | dropped _ hs | published _ _ hs _ _ _ _ | died _ _ hs _ _ _ _ _ _ _ | cleared _ _ _ hs =>
      rw [hi] at hs
      cases hs
  · have hij := h.step_pid_inj hb ht (i := i) (j := j) (by simp [hi]) (by simp [hj]) hd.symm
    rw [← hij, hi] at hj
    cases hj

theorem step_fork_unique (h : Chronicle l) (hb : Bonds l) (ht : l.Step t)
    (hf : Event.fork f c ∈ t.log) (hf' : Event.fork b c ∈ t.log) : f = b := by
  rcases step_fork ht hf with hf | ⟨p, i, hp, rfl, hi, -, -⟩
  · rcases step_fork ht hf' with hf' | ⟨p, i, hp, -, rfl, -, -⟩
    · exact h.fork_unique hf hf'
    · exact absurd hf (h.unborn (hb.phase_child (p := p) (by rw [hp]; rfl)))
  · have hem := hb.phase_child (p := p) (i := i) (by rw [hp]; rfl)
    rcases step_fork ht hf' with hf' | ⟨q, j, hq, rfl, hj, -, -⟩
    · exact absurd (hi ▸ hf') (h.unborn hem)
    · have hem' := hb.phase_child (p := q) (i := j) (by rw [hq]; rfl)
      obtain rfl := h.pid_inj (i := i) (j := j) (by simp [hem]) (by simp [hem']) (hi.trans hj.symm)
      rw [hb.forker (p := p) (q := q) (i := i) (by rw [hp]; rfl) (by rw [hq]; rfl)]

theorem step_alive (h : Chronicle l) (hb : Bonds l) (ht : l.Step t)
    (hf : (t.view i).phase ≠ .free) (hz : (t.view i).phase ≠ .zombie) :
    ¬ Exited t.log (t.view i).pid := by
  intro he
  rcases step_exited ht he with he | ⟨p, n, -, -, hs, hd⟩
  · cases hb.step_change ht i with
    | same hs _ hd => exact h.alive (hs ▸ hf) (hs ▸ hz) (hd ▸ he)
    | abandoned _ _ _ _ hs hd => exact h.alive (hs ▸ hf) (hs ▸ hz) (hd ▸ he)
    | published _ hl _ _ _ hd _ => exact h.alive (by simp [hl]) (by simp [hl]) (hd ▸ he)
    | filled _ hl _ _ _ hd => exact h.alive (by simp [hl]) (by simp [hl]) (hd ▸ he)
    | taken _ _ _ hd _ _ => exact absurd (h.exit_lt he) (by omega)
    | dropped _ hs | cleared _ _ _ hs => exact hf hs
    | died _ _ hs _ _ _ _ _ _ _ => exact hz hs
  · have hip := h.step_pid_inj hb ht (i := i) (j := p) hf (by simp [hs]) hd.symm
    exact hz (hip ▸ hs)

/-- A live process keeps its pid. -/
theorem live_pid (hb : Bonds l) (ht : l.Step t) (hl : (l.view p).phase = .live) :
    (t.view p).pid = (l.view p).pid := by
  cases hb.step_change ht p with
  | same _ _ hd | abandoned _ _ _ _ _ hd | died _ _ _ _ _ _ hd _ _ _ => exact hd
  | taken hf _ _ _ _ _ | dropped hf _ | filled _ hf _ _ _ _ | published _ hf _ _ _ _ _
  | cleared _ _ hf _ =>
    rw [hl] at hf
    cases hf

/-- A process in the loop of `exit` goes on or becomes a ZOMBIE. -/
theorem leaving (hb : Bonds l) (ht : l.Step t) (hp : (l.view p).job = .exitScan n) :
    Exited t.log (l.view p).pid ∨ ∃ m, (t.view p).job = .exitScan m := by
  have hidle := @hb.idle
  have hphase := @hb.phase_child
  cases ht with
  | zombie q m hq hm =>
    by_cases hpq : p = q
    · subst hpq
      exact .inl ⟨_, _, List.mem_cons_self ..⟩
    · exact .inr ⟨n, by simp [hpq, hp]⟩
  | abandon q i hq hi =>
    right
    by_cases hpq : p = q
    · exact ⟨i + 1, by simp [hpq]⟩
    · by_cases hpi : p = i
      · exact ⟨n, by simp [hpq, ← hpi, hp]⟩
      · exact ⟨n, by simp [hpq, hpi, hp]⟩
  | pass q i hq hi =>
    right
    by_cases hpq : p = q
    · exact ⟨i + 1, by simp [hpq]⟩
    · exact ⟨n, by simp [hpq, hp]⟩
  | _ =>
    refine .inr ⟨n, ?_⟩
    simp only [Life.turn_view, Life.put_view, Life.emit_view]
    grind [Place.child]

/-- What is known about the parent of a process stays known. -/
theorem step_born (h : Chronicle l) (hb : Bonds l) (ht : l.Step t)
    (hf : (t.view i).phase ≠ .free) (he : (t.view i).phase ≠ .embryo)
    (hp : (t.view i).parent = some p) :
    ∃ f, Event.fork f (t.view i).pid ∈ t.log ∧ ((t.view p).pid = f ∨
      p = initproc ∧ (Exited t.log f ∨ ∃ q n, (t.view q).job = .exitScan n ∧ (t.view q).pid = f)) := by
  have hleaving : ∀ {q n}, (l.view q).job = .exitScan n → Exited t.log (l.view q).pid ∨
      ∃ q' m, (t.view q').job = .exitScan m ∧ (t.view q').pid = (l.view q).pid := by
    intro q n hq
    refine (leaving hb ht hq).imp_right ?_
    rintro ⟨m, hm⟩
    exact ⟨q, m, hm, live_pid hb ht (hb.live_of_job (by simp [hq]))⟩
  have hkeep : (l.view i).phase ≠ .free → (l.view i).phase ≠ .embryo →
      (l.view i).parent = some p → (t.view i).pid = (l.view i).pid →
      ∃ f, Event.fork f (t.view i).pid ∈ t.log ∧ ((t.view p).pid = f ∨ p = initproc ∧
        (Exited t.log f ∨ ∃ q n, (t.view q).job = .exitScan n ∧ (t.view q).pid = f)) := by
    intro hf he hp hd
    obtain ⟨f, hfork, hor⟩ := h.born hf he hp
    refine ⟨f, hd ▸ mem_log ht hfork, ?_⟩
    rcases hor with hpid | ⟨h0, hex | ⟨q, n, hq, rfl⟩⟩
    · have hi0 : i ≠ initproc := by
        rintro rfl
        rw [hb.init.2.1] at hp
        cases hp
      obtain ⟨p', hp', hlive⟩ := hb.parent hf he hi0
      obtain rfl := Option.some.inj (hp.symm.trans hp')
      exact .inl ((live_pid hb ht hlive).trans hpid)
    · exact .inr ⟨h0, .inl (mem_exited ht hex)⟩
    · exact .inr ⟨h0, hleaving hq⟩
  cases hb.step_change ht i with
  | same hs hpar hd => exact hkeep (hs ▸ hf) (hs ▸ he) (hpar ▸ hp) hd
  | died _ hl _ _ _ hpar hd _ _ _ => exact hkeep (by simp [hl]) (by simp [hl]) (hpar ▸ hp) hd
  | published q hl _ hq hpar hd hlog =>
    have hmade := (hb.making (p := q) (i := i) (by rw [hq]; rfl)).2
    rw [hq] at hmade
    obtain rfl := Option.some.inj (hp.symm.trans (hpar.trans hmade.2.2))
    refine ⟨(l.view p).pid, ?_, .inl (live_pid hb ht (hb.live_of_job (by simp [hq])))⟩
    rw [hlog, hd]
    exact List.mem_cons_self ..
  | abandoned q hq hj hpar hs hd =>
    obtain rfl := Option.some.inj (hp.symm.trans hpar)
    obtain ⟨f, hfork, hpid | ⟨h0, -⟩⟩ := h.born (hs ▸ hf) (hs ▸ he) hq
    · exact ⟨f, hd ▸ mem_log ht hfork, .inr ⟨rfl, hpid ▸ hleaving hj⟩⟩
    · exact absurd hj (h0 ▸ hb.init.2.2 _)
  | taken _ hs _ _ _ _ | filled _ _ hs _ _ _ => exact absurd hs he
  | dropped _ hs | cleared _ _ _ hs => exact absurd hs hf

/-- A ZOMBIE keeps its pages until a `wait` frees its stack. -/
theorem zombie_keeps (hb : Bonds l) (ht : l.Step t) (hl : (l.view i).phase = .zombie)
    (hs : (t.view i).phase = .zombie) :
    (t.view i).pgdir = (l.view i).pgdir ∧
      ((t.view i).kstack = (l.view i).kstack ∧
        (∀ p, (l.view p).job = .waitClear i → (t.view p).job = .waitClear i) ∨
      ∃ p k, (l.view i).kstack = some k ∧ (t.view p).job = .waitClear i ∧
        (l.view p).phase = .live ∧
        t.log = .kfree (l.view p).pid (some (l.view i).pid) k :: l.log) := by
  have hphase := @hb.phase_child
  have hidle := @hb.idle
  cases ht with
  | reap p j k hlive hp hj hz hk hx =>
    by_cases hij : i = j
    · subst hij
      refine ⟨by simp, .inr ⟨p, k, hk, by simp, hlive, rfl⟩⟩
    · refine ⟨by simp [hij], .inl ⟨by simp [hij], fun q hq => ?_⟩⟩
      simp only [Life.turn_view, Life.put_view, Life.emit_view]
      grind
  | clear p j hp hx =>
    by_cases hij : i = j
    · simp [hij] at hs
    · refine ⟨by simp [hij], .inl ⟨by simp [hij], fun q hq => ?_⟩⟩
      simp only [Life.turn_view, Life.put_view, Life.emit_view]
      grind [hb.clear]
  | _ =>
    simp only [Life.turn_view, Life.put_view, Life.emit_view] at hs ⊢
    grind [Place.child]

/-- The stack of a ZOMBIE is there until a `wait` frees it. -/
theorem step_exited_zombie (h : Chronicle l) (hb : Bonds l) (hg : Pages l) (ht : l.Step t)
    (hi : (t.view i).phase = .zombie) : ∃ k d,
      Event.exit (t.view i).pid (some k) (some d) ∈ t.log ∧ (t.view i).pgdir = some d ∧
      ((t.view i).kstack = some k ∨
        ∃ p, (t.view p).job = .waitClear i ∧ FreedBy t.log (t.view p).pid (t.view i).pid k) := by
  have hkeep : (l.view i).phase = .zombie → (t.view i).pid = (l.view i).pid → ∃ k d,
      Event.exit (t.view i).pid (some k) (some d) ∈ t.log ∧ (t.view i).pgdir = some d ∧
      ((t.view i).kstack = some k ∨
        ∃ p, (t.view p).job = .waitClear i ∧ FreedBy t.log (t.view p).pid (t.view i).pid k) := by
    intro hl hd
    obtain ⟨k, d, hexit, hdir, hor⟩ := h.exited hl
    obtain ⟨hpg, ⟨hks, hjobs⟩ | ⟨p, k', hk', hp, hlive, hlog⟩⟩ := zombie_keeps hb ht hl hi
    · refine ⟨k, d, hd ▸ mem_log ht hexit, hpg.trans hdir, hor.imp hks.trans ?_⟩
      rintro ⟨p, hp, hfreed⟩
      refine ⟨p, hjobs p hp, ?_⟩
      rw [live_pid hb ht (hb.live_of_job (by simp [hp])), hd]
      exact freedBy_step hg ht hfreed
    · -- the stack is freed in this step, for the first time
      refine ⟨k, d, hd ▸ mem_log ht hexit, hpg.trans hdir, .inr ⟨p, hp, ?_⟩⟩
      rcases hor with hk | ⟨q, hq, -⟩
      · obtain rfl := Option.some.inj (hk.symm.trans hk')
        rw [live_pid hb ht hlive, hd]
        rw [hlog]
        exact freedBy_first hg (r := .stack i) hk
      · rw [(hb.clear hq).2.2] at hk'
        cases hk'
  cases hb.step_change ht i with
  | same hs _ hd => exact hkeep (hs ▸ hi) hd
  | abandoned _ _ _ _ hs hd => exact hkeep (hs ▸ hi) hd
  | died _ hl _ _ _ _ hd hk hg hlog =>
    obtain ⟨hks, hpg⟩ := hb.live hl
    obtain ⟨k, hk'⟩ := Option.isSome_iff_exists.1 hks
    obtain ⟨d, hd'⟩ := Option.isSome_iff_exists.1 hpg
    refine ⟨k, d, ?_, hg.trans hd', .inl (hk.trans hk')⟩
    rw [hlog, hd, hk', hd']
    exact List.mem_cons_self ..
  | taken _ hs _ _ _ _ | filled _ _ hs _ _ _ | dropped _ hs | published _ _ hs _ _ _ _
  | cleared _ _ _ hs =>
    rw [hi] at hs
    cases hs

theorem step_not_reaped (h : Chronicle l) (hb : Bonds l) (ht : l.Step t)
    (hf : (t.view i).phase ≠ .free) : Event.reap w (t.view i).pid ∉ t.log := by
  intro hr
  rcases step_reap ht hr with hr | ⟨p, j, hp, -, hj, hs⟩
  · rcases pid_of hb ht hf with ⟨hl, hd⟩ | ⟨-, -, hd, -, -⟩
    · exact h.not_reaped hl (hd ▸ hr)
    · exact absurd (h.reap_lt hr) (by omega)
  · rcases pid_of hb ht hf with ⟨hl, hd⟩ | ⟨-, -, hd, -, -⟩
    · obtain rfl := h.pid_inj (j := j) hl (by simp [(hb.clear hp).1]) (by omega)
      exact hf hs
    · have := h.pid_lt (i := j) (by simp [(hb.clear hp).1])
      omega

/-- How a process comes to reap the child `c`. -/
theorem of_taken (hb : Bonds l) (ht : l.Step t) (hp : (t.view p).job.taken = some c) :
    (t.view p).job = (l.view p).job ∨
      (∃ i, (l.view p).job = .waitClear i ∧ (l.view i).pid = c ∧
        (t.view p).job = .freevm (l.view i).pgdir (.waitReturn c) ∧
        t.log = .reap (l.view p).pid c :: l.log) ∨
      ∃ d, (l.view p).job = .freevm (some d) (.waitReturn c) ∧ (t.view p).job = .waitReturn c ∧
        t.log = .kfree (l.view p).pid (some c) d :: l.log := by
  have hphase := @hb.phase_child
  have hidle := @hb.idle
  have hclear := @hb.clear
  cases ht with
  | clear q i hq hx =>
    by_cases hpq : p = q
    · subst hpq
      simp only [Life.turn_job, ↓reduceIte, Place.taken, Option.some.injEq] at hp
      subst hp
      exact .inr (.inl ⟨i, hq, rfl, by simp, rfl⟩)
    · left
      simp only [Life.turn_view, Life.put_view, Life.emit_view] at hp ⊢
      grind
  | freed q d k hq =>
    by_cases hpq : p = q
    · subst hpq
      cases k with
      | waitReturn b =>
        simp only [Life.turn_job, ↓reduceIte, After.place, Place.taken, Option.some.injEq] at hp
        subst hp
        exact .inr (.inr ⟨d, hq, by simp [After.place], rfl⟩)
      | user => simp [After.place, Place.taken] at hp
      | dropStack np => simp [After.place, Place.taken] at hp
    · left
      simp [hpq]
  | _ =>
    left
    simp only [Life.turn_view, Life.put_view, Life.emit_view] at hp ⊢
    grind [Place.child, Place.taken]

theorem step_taken_inj (h : Chronicle l) (hb : Bonds l) (ht : l.Step t)
    (hp : (t.view p).job.taken = some c) (hq : (t.view q).job.taken = some c) : p = q := by
  have hold : ∀ {p}, (t.view p).job.taken = some c → (l.view p).job.taken = some c ∨
      ∃ i, (l.view p).job = .waitClear i ∧ (l.view i).pid = c := by
    intro p hp
    rcases of_taken hb ht hp with hj | ⟨i, hi, hc, -⟩ | ⟨d, hd, -⟩
    · exact .inl (hj ▸ hp)
    · exact .inr ⟨i, hi, hc⟩
    · exact .inl (by rw [hd]; rfl)
  rcases hold hp with hp | ⟨i, hi, rfl⟩
  · rcases hold hq with hq | ⟨j, hj, rfl⟩
    · exact h.taken_inj hp hq
    · exact absurd (h.taken hp).1 (h.not_reaped (by simp [(hb.clear hj).1]))
  · rcases hold hq with hq | ⟨j, hj, hij⟩
    · exact absurd (h.taken hq).1 (h.not_reaped (by simp [(hb.clear hi).1]))
    · obtain rfl := h.pid_inj (by simp [(hb.clear hi).1]) (by simp [(hb.clear hj).1]) hij.symm
      exact Option.some.inj ((hb.clear hi).2.1.symm.trans (hb.clear hj).2.1)

theorem step_wait (ht : l.Step t) (hr : Event.wait w c ∈ t.log) :
    Event.wait w c ∈ l.log ∨ ∃ p, (l.view p).job = .waitReturn c ∧ (l.view p).pid = w ∧
      (t.view p).job = .user := by
  cases writes ht with
  | nothing hw => exact .inl (hw ▸ hr)
  | wait p c' hp hj hw =>
    rw [hw, List.mem_cons, Event.wait.injEq] at hr
    rcases hr with ⟨rfl, rfl⟩ | hr
    · exact .inr ⟨p, hp, rfl, hj⟩
    · exact .inl hr
  | fork _ _ _ _ _ hw | kfree _ _ _ _ _ hw | exit _ _ _ _ _ _ hw | reap _ _ _ _ _ _ hw =>
    rw [hw, List.mem_cons] at hr
    exact .inl (hr.resolve_left (by simp))

theorem handed_step (hg : Pages l) (ht : l.Step t) {job : Place} (hd : Handed l.log job w c d) :
    Handed t.log job w c d := by
  unfold Handed at *
  split at hd
  · exact hd
  · exact freedBy_step hg ht hd

theorem step_taken (h : Chronicle l) (hb : Bonds l) (hg : Pages l) (ht : l.Step t)
    (hp : (t.view p).job.taken = some c) :
    Event.reap (t.view p).pid c ∈ t.log ∧ (∀ w, Event.wait w c ∉ t.log) ∧
      ∃ k d, Event.exit c (some k) (some d) ∈ t.log ∧ FreedBy t.log (t.view p).pid c k ∧
        Handed t.log (t.view p).job (t.view p).pid c d := by
  have hpid : (l.view p).job ≠ .user → (t.view p).pid = (l.view p).pid := fun hu =>
    live_pid hb ht (hb.live_of_job hu)
  rcases of_taken hb ht hp with hj | ⟨i, hi, rfl, hj, hlog⟩ | ⟨d, hd, hj, hlog⟩
  · rw [hj] at hp ⊢
    obtain ⟨hreap, hwait, k, d, hexit, hk, hd⟩ := h.taken hp
    rw [hpid fun hu => by simp [hu, Place.taken] at hp]
    refine ⟨mem_log ht hreap, fun w hw => ?_, k, d, mem_log ht hexit, freedBy_step hg ht hk,
      handed_step hg ht hd⟩
    rcases step_wait ht hw with hw | ⟨q, hq, -, hq'⟩
    · exact hwait w hw
    · obtain rfl := h.taken_inj hp (q := q) (by rw [hq]; rfl)
      rw [hj, hq] at hq'
      cases hq'
  · have hclear := hb.clear hi
    rw [hpid (by simp [hi]), hj]
    obtain ⟨k, d, hexit, hdir, hk | ⟨q, hq, hk⟩⟩ := h.exited hclear.1
    · rw [hclear.2.2] at hk
      cases hk
    obtain rfl := Option.some.inj (hclear.2.1.symm.trans (hb.clear hq).2.1)
    refine ⟨hlog ▸ List.mem_cons_self .., fun w hw => ?_, k, d, mem_log ht hexit,
      freedBy_step hg ht hk, hdir⟩
    rw [hlog, List.mem_cons] at hw
    exact h.not_reaped (by simp [hclear.1]) (h.returned (hw.resolve_left (by simp))).1
  · obtain ⟨hreap, hwait, k, d', hexit, hk, hd'⟩ := h.taken (p := p) (c := c) (by rw [hd]; rfl)
    rw [hd] at hd'
    obtain rfl := Option.some.inj hd'
    rw [hpid (by simp [hd]), hj]
    refine ⟨mem_log ht hreap, fun w hw => ?_, k, d, mem_log ht hexit, freedBy_step hg ht hk, ?_⟩
    · rw [hlog, List.mem_cons] at hw
      exact hwait w (hw.resolve_left (by simp))
    · rw [hlog]
      exact freedBy_first hg (r := .code p) (by simp [Life.page, hd, Place.dir])

theorem step_returned (h : Chronicle l) (hg : Pages l) (ht : l.Step t)
    (hr : Event.wait w c ∈ t.log) : Event.reap w c ∈ t.log ∧
    ∃ k d, Event.exit c (some k) (some d) ∈ t.log ∧ FreedBy t.log w c k ∧ FreedBy t.log w c d := by
  rcases step_wait ht hr with hr | ⟨p, hp, rfl, -⟩
  · obtain ⟨hreap, k, d, hexit, hk, hd⟩ := h.returned hr
    exact ⟨mem_log ht hreap, k, d, mem_log ht hexit, freedBy_step hg ht hk, freedBy_step hg ht hd⟩
  · obtain ⟨hreap, -, k, d, hexit, hk, hd⟩ := h.taken (p := p) (c := c) (by rw [hp]; rfl)
    rw [hp] at hd
    exact ⟨mem_log ht hreap, k, d, mem_log ht hexit, freedBy_step hg ht hk, freedBy_step hg ht hd⟩

theorem step_once (h : Chronicle l) (ht : l.Step t) (c : ℕ) :
    (t.log.filter (Event.returns c)).length ≤ 1 := by
  cases writes ht with
  | nothing hw =>
    rw [hw]
    exact h.once c
  | wait p b hp hj hw =>
    rw [hw]
    by_cases hbc : b = c
    · subst hbc
      have hnone : l.log.filter (Event.returns b) = [] := by
        rw [List.filter_eq_nil_iff]
        intro e he hr
        cases e with
        | wait w b' =>
          simp only [Event.returns, decide_eq_true_eq] at hr
          exact (h.taken (p := p) (c := b) (by rw [hp]; rfl)).2.1 w (hr ▸ he)
        | _ => simp [Event.returns] at hr
      rw [List.filter_cons_of_pos (by simp [Event.returns]), hnone]
      rfl
    · rw [List.filter_cons_of_neg (by simp [Event.returns, hbc])]
      exact h.once c
  | fork _ _ _ _ _ hw | kfree _ _ _ _ _ hw | exit _ _ _ _ _ _ hw | reap _ _ _ _ _ _ hw =>
    rw [hw, List.filter_cons_of_neg (by simp [Event.returns])]
    exact h.once c

theorem step_rightful (h : Chronicle l) (hb : Bonds l) (ht : l.Step t) {post : List Event}
    (hlog : t.log = post ++ Event.reap w c :: pre) : Exited pre c ∧ IsParent pre w c := by
  have hold : ∀ {e}, t.log = e :: l.log → e ≠ .reap w c → Exited pre c ∧ IsParent pre w c := by
    intro e he hne
    rw [hlog] at he
    cases post with
    | nil => exact absurd (List.cons.inj he).1.symm hne
    | cons x post => exact h.rightful (List.cons.inj he).2.symm
  cases writes ht with
  | nothing hw => exact h.rightful (hw.symm.trans hlog)
  | reap p i hp hi hj hx hw =>
    rw [hlog] at hw
    cases post with
    | cons x post => exact h.rightful (List.cons.inj hw).2.symm
    | nil =>
      obtain ⟨he, rfl⟩ := List.cons.inj hw
      obtain ⟨rfl, rfl⟩ := Event.reap.inj he
      have hclear := hb.clear hp
      obtain ⟨k, d, hexit, -⟩ := h.exited hclear.1
      obtain ⟨f, hfork, hor⟩ := h.born (by simp [hclear.1]) (by simp [hclear.1]) hclear.2.1
      refine ⟨⟨_, _, hexit⟩, f, hfork, ?_⟩
      rcases hor with rfl | ⟨rfl, hex | ⟨q, n, hq, -⟩⟩
      · have hl := hb.live_of_job (p := p) (by simp [hp])
        exact .inl ⟨h.alive (by simp [hl]) (by simp [hl]), rfl⟩
      · exact .inr ⟨hex, h.init⟩
      · exact absurd hq (hx q n)
  | fork _ _ _ _ _ hw | kfree _ _ _ _ _ hw | exit _ _ _ _ _ _ hw | wait _ _ _ _ hw =>
    exact hold hw (by simp)

theorem step (h : Chronicle l) (hb : Bonds l) (hg : Pages l) (ht : l.Step t) : Chronicle t where
  init := h.step_init hb ht
  pid_lt hf := h.step_pid_lt hb ht hf
  pid_inj hi hj hij := h.step_pid_inj hb ht hi hj hij
  fork_lt hf := h.step_fork_lt hb ht hf
  exit_lt he := h.step_exit_lt hb ht he
  reap_lt hr := h.step_reap_lt hb ht hr
  unborn hi := h.step_unborn hb ht hi
  fork_unique hf hf' := h.step_fork_unique hb ht hf hf'
  alive hf hz := h.step_alive hb ht hf hz
  born hf he hp := h.step_born hb ht hf he hp
  exited hi := h.step_exited_zombie hb hg ht hi
  not_reaped hf := h.step_not_reaped hb ht hf
  taken hp := h.step_taken hb hg ht hp
  taken_inj hp hq := h.step_taken_inj hb ht hp hq
  returned hr := h.step_returned hg ht hr
  once := h.step_once ht
  rightful hlog := h.step_rightful hb ht hlog

end Chronicle

end Xv6Lab.Reap
