import Xv6Lab.Reap.Chronicle

/-! Processors and `ptable.lock`: one processor runs a process, the lock is held where the
code says so, and the directory that a processor has loaded is that of its process. -/

namespace Xv6Lab.Reap

open Sched (Slot NPROC ProcState)

variable {ncpu : ℕ} {s t : Machine ncpu} {c e : Fin ncpu} {p q i : Slot} {n : ℕ}

/-- The processor holds `ptable.lock`. -/
def Machine.holding (s : Machine ncpu) (c : Fin ncpu) : Prop :=
  match (s.cpu c).core with
  | .idle => False
  | .scan _ | .back _ | .panic _ => True
  | .run p => (s.proc p).locked = true

/-- The directory that processor `c` has loaded is that of `p`, but for the moment in which
`exec` has replaced it. -/
def Machine.loaded (s : Machine ncpu) (c : Fin ncpu) (p : Slot) : Prop :=
  (s.cpu c).cr3 = (s.proc p).pgdir ∨ (s.proc p).place = .switchuvm (s.cpu c).cr3

/-- The process has given up its processor. -/
def Proc.parked (p : Proc) : Prop := p.state = .RUNNABLE ∨ p.state = .SLEEPING

structure Cores (s : Machine ncpu) : Prop where
  holder : ∀ c, s.holding c ↔ s.lock = some c
  running : ∀ {c p}, (s.cpu c).core = .run p → (s.proc p).state = .RUNNING
  single : ∀ {c e p}, (s.cpu c).core = .run p → (s.cpu e).core = .run p → c = e
  off : ∀ {c}, (s.cpu c).core = .idle ∨ (∃ i, (s.cpu c).core = .scan i) → (s.cpu c).cr3 = none
  back : ∀ {c p}, (s.cpu c).core = .back p → (s.proc p).parked ∨ (s.proc p).state = .ZOMBIE
  loaded : ∀ {c p}, (s.cpu c).core = .run p ∨ (s.cpu c).core = .back p → s.loaded c p
  /-- A process that is not on a processor will hold the lock when it runs. -/
  parked : ∀ {p}, (s.proc p).parked ∨ (s.proc p).state = .EMBRYO ∧ (s.proc p).kstack ≠ none →
    (s.proc p).locked = true
  /-- Code under the lock is running, or waits in `sleep` to run. -/
  locked : ∀ {p}, (s.proc p).place.locked = true →
    (s.proc p).detour = .straight ∧ ((s.proc p).place = .waitWoken ∨ ∃ c, (s.cpu c).core = .run p)
  leaving : ∀ {p}, (s.proc p).place = .exit ∨ (s.proc p).place = .exitWake → p ≠ initproc

namespace Machine

@[simp] theorem set_proc (p : Slot) (f : Proc → Proc) :
    (s.set p f).proc i = if i = p then f (s.proc p) else s.proc i := Function.update_apply ..
@[simp] theorem set_lock (p : Slot) (f : Proc → Proc) : (s.set p f).lock = s.lock := rfl
@[simp] theorem set_cpu (p : Slot) (f : Proc → Proc) : (s.set p f).cpu = s.cpu := rfl

@[simp] theorem emit_proc (e : Event) : (s.emit e).proc = s.proc := rfl
@[simp] theorem emit_lock (e : Event) : (s.emit e).lock = s.lock := rfl
@[simp] theorem emit_cpu (e : Event) : (s.emit e).cpu = s.cpu := rfl

@[simp] theorem takePage_proc : s.takePage.proc = s.proc := rfl
@[simp] theorem takePage_lock : s.takePage.lock = s.lock := rfl
@[simp] theorem takePage_cpu : s.takePage.cpu = s.cpu := rfl

@[simp] theorem release_proc : s.release.proc = s.proc := rfl
@[simp] theorem release_lock : s.release.lock = none := rfl
@[simp] theorem release_cpu : s.release.cpu = s.cpu := rfl

@[simp] theorem setCore_proc (k : Core) : (s.setCore c k).proc = s.proc := rfl
@[simp] theorem setCore_lock (k : Core) : (s.setCore c k).lock = s.lock := rfl
@[simp] theorem setCore_cpu (k : Core) : (s.setCore c k).cpu e =
    if e = c then { s.cpu c with core := k } else s.cpu e := Function.update_apply ..

@[simp] theorem setCr3_proc (d : Option ℕ) : (s.setCr3 c d).proc = s.proc := rfl
@[simp] theorem setCr3_lock (d : Option ℕ) : (s.setCr3 c d).lock = s.lock := rfl
@[simp] theorem setCr3_cpu (d : Option ℕ) : (s.setCr3 c d).cpu e =
    if e = c then { s.cpu c with cr3 := d } else s.cpu e := Function.update_apply ..

theorem acquire_eq_some (h : s.acquire c = some t) : s.lock = none ∧ t =
    { s with lock := some c } := by
  unfold acquire at h
  split at h
  · rename_i hl
    exact ⟨hl, (Option.some.inj h).symm⟩
  · cases h

/-! What the operations are to the lives of the processes. -/

theorem life_set (p : Slot) (f : Proc → Proc) :
    (s.set p f).life = s.life.put p (f (s.proc p)).view := by
  unfold life Life.put
  congr 1
  funext i
  by_cases hi : i = p
  · simp [hi]
  · simp [hi]

theorem life_goto (p : Slot) (k : Place) : (s.goto p k).life = s.life.turn p k.job := life_set ..

theorem life_unlockTo (p : Slot) (k : Place) : (s.unlockTo p k).life = s.life.turn p k.job :=
  life_set ..

theorem life_emit (e : Event) : (s.emit e).life = s.life.emit e := rfl
theorem life_takePage : s.takePage.life = { s.life with nextpage := s.life.nextpage + 1 } := rfl
theorem life_setCore (k : Core) : (s.setCore c k).life = s.life := rfl
theorem life_setCr3 (d : Option ℕ) : (s.setCr3 c d).life = s.life := rfl

theorem life_set_same (p : Slot) (f : Proc → Proc) (h : (f (s.proc p)).view = (s.proc p).view) :
    (s.set p f).life = s.life := by
  rw [life_set, h]
  unfold life Life.put
  congr 1
  exact Function.update_eq_self ..

theorem life_goto_same (p : Slot) (k : Place) (h : k.job = (s.proc p).place.job) :
    (s.goto p k).life = s.life :=
  life_set_same p _ (by simp only [Proc.view, h])

theorem life_unlockTo_same (p : Slot) (k : Place) (h : k.job = (s.proc p).place.job) :
    (s.unlockTo p k).life = s.life :=
  life_set_same p _ (by simp only [Proc.view, h])

theorem life_wakeup1 (chan : Sched.Chan) : (s.wakeup1 chan).life = s.life := by
  unfold life wakeup1
  congr 1
  funext i
  dsimp only
  split_ifs with h
  · simp only [Proc.view, h.1, phaseOf]
  · rfl

end Machine

end Xv6Lab.Reap
