import Xv6Lab.Reap.Steps

/-! Reaping in every run: a `wait` frees the stack and the directory of a child that has left its
processor, and nobody frees them again. -/

namespace Xv6Lab.Reap

open Lib
open Sched (Slot NPROC ProcState)

variable {ncpu : ℕ} {s t u : Machine ncpu} {c e : Fin ncpu} {p q i : Slot} {n w d : ℕ} {b : Option ℕ}
  {a : Action} {ok : Bool} {l : Label ncpu} {h : List (Machine ncpu × Label ncpu)}

/-! ### Boot -/

theorem boot_view (i : Slot) : (Machine.boot : Machine ncpu).life.view i =
    if i = initproc then ⟨.live, 1, none, some 0, some 1, .user⟩
    else ⟨.free, 0, none, none, none, .user⟩ := by
  unfold Machine.life Machine.boot
  dsimp only
  rw [Function.update_apply]
  split_ifs
  · rfl
  · rfl

theorem boot_job (i : Slot) : ((Machine.boot : Machine ncpu).life.view i).job = .user := by
  rw [boot_view]
  split_ifs <;> rfl

theorem boot_live (hi : ((Machine.boot : Machine ncpu).life.view i).phase ≠ .free) :
    i = initproc := by
  by_contra hne
  rw [boot_view, if_neg hne] at hi
  exact hi rfl

theorem boot_phase {k : Phase} (hi : ((Machine.boot : Machine ncpu).life.view i).phase = k)
    (hk : k ≠ .free) : k = .live := by
  rw [← hi] at hk ⊢
  rw [boot_live hk, boot_view, if_pos rfl]

theorem bonds_boot : Bonds (Machine.boot : Machine ncpu).life := by
  constructor
  · exact fun _ => boot_job _
  · intro p i hp
    rw [boot_job] at hp
    cases hp
  · intro p q i hp
    rw [boot_job] at hp
    cases hp
  · intro i hi
    by_cases h0 : i = initproc
    · rw [boot_view, if_pos h0] at hi
      cases hi
    · rw [boot_view, if_neg h0]
      exact ⟨rfl, rfl, rfl⟩
  · intro p hp
    have hne : ((Machine.boot : Machine ncpu).life.view p).phase ≠ .free := by
      rw [hp]
      decide
    rw [boot_live hne, boot_view, if_pos rfl]
    exact ⟨rfl, rfl⟩
  · intro i hi
    cases boot_phase hi (by simp)
  · intro p i hp
    rw [boot_job] at hp
    cases hp
  · intro p i hi
    cases boot_phase hi (by simp)
  · intro p n hp
    rw [boot_job] at hp
    cases hp
  · intro p d hp
    rw [boot_job] at hp
    rcases hp with ⟨k, hp⟩ | hp <;> cases hp
  · refine ⟨?_, ?_, ?_⟩
    · rw [boot_view, if_pos rfl]
    · rw [boot_view, if_pos rfl]
    · intro n hp
      rw [boot_job] at hp
      cases hp
  · exact fun hi _ hne => absurd (boot_live hi) hne

theorem cores_boot : Cores (Machine.boot : Machine ncpu) := by
  constructor
  · intro c
    simp [Machine.holding, Machine.boot]
  · intro c p hc
    cases hc
  · intro c e p hc
    cases hc
  · intro c _
    rfl
  · intro c p hc
    cases hc
  · intro c p hc
    rcases hc with hc | hc <;> cases hc
  · intro p hp
    unfold Machine.boot at hp ⊢
    dsimp only at hp ⊢
    rw [Function.update_apply] at hp ⊢
    split_ifs at hp ⊢
    · rfl
    · simp [Proc.parked, Proc.zero] at hp
  · intro p hp
    unfold Machine.boot at hp
    dsimp only at hp
    rw [Function.update_apply] at hp
    split_ifs at hp <;> cases hp
  · intro p hp
    unfold Machine.boot at hp
    dsimp only at hp
    rw [Function.update_apply] at hp
    split_ifs at hp <;> rcases hp with hp | hp <;> cases hp

theorem boot_page {r : Holder} {a : ℕ} (hr : (Machine.boot : Machine ncpu).life.page r = some a) :
    r = .stack initproc ∧ a = 0 ∨ r = .dir initproc ∧ a = 1 := by
  unfold Life.page at hr
  cases r with
  | stack p =>
    dsimp only at hr
    rw [boot_view] at hr
    split_ifs at hr with hp
    cases hr
    exact .inl ⟨by rw [hp], rfl⟩
  | dir p =>
    dsimp only at hr
    rw [boot_view] at hr
    split_ifs at hr with hp
    cases hr
    exact .inr ⟨by rw [hp], rfl⟩
  | code p =>
    dsimp only at hr
    rw [boot_view] at hr
    split_ifs at hr <;> cases hr

theorem pages_boot : Pages (Machine.boot : Machine ncpu).life := by
  have hnone : ∀ a, ¬ Freed (Machine.boot : Machine ncpu).life.log a := by
    rintro a ⟨e, he, -⟩
    cases he
  constructor
  · intro r r' a hr hr'
    rcases boot_page hr with ⟨rfl, rfl⟩ | ⟨rfl, rfl⟩
    · rcases boot_page hr' with ⟨rfl, -⟩ | ⟨-, ha⟩
      · rfl
      · cases ha
    · rcases boot_page hr' with ⟨-, ha⟩ | ⟨rfl, -⟩
      · cases ha
      · rfl
  · intro r a hr
    have hnext : (Machine.boot : Machine ncpu).life.nextpage = 2 := rfl
    rcases boot_page hr with ⟨-, rfl⟩ | ⟨-, rfl⟩ <;> omega
  · exact fun _ => hnone _
  · exact fun ha => absurd ha (hnone _)

theorem chronicle_boot : Chronicle (Machine.boot : Machine ncpu).life := by
  have hlog : (Machine.boot : Machine ncpu).life.log = [] := rfl
  have hexit : ∀ c, ¬ Exited (Machine.boot : Machine ncpu).life.log c := by
    rintro c ⟨k, d, he⟩
    cases he
  constructor
  · rw [boot_view, if_pos rfl]
  · intro i hi
    rw [boot_live hi, boot_view, if_pos rfl]
    exact Nat.lt_succ_self 1
  · intro i j hi hj _
    rw [boot_live hi, boot_live hj]
  · exact fun he => by cases he
  · exact fun he => absurd he (hexit _)
  · exact fun he => by cases he
  · exact fun _ he => by cases he
  · exact fun he => by cases he
  · exact fun _ _ => hexit _
  · intro i p hi _ hp
    rw [boot_live hi, boot_view, if_pos rfl] at hp
    cases hp
  · intro i hi
    cases boot_phase hi (by simp)
  · exact fun _ he => by cases he
  · intro p c hp
    rw [boot_job] at hp
    cases hp
  · intro p q c hp
    rw [boot_job] at hp
    cases hp
  · exact fun he => by cases he
  · intro c
    rw [hlog]
    exact Nat.zero_le 1
  · intro pre post w c he
    rw [hlog] at he
    simp at he

/-- A process exits once, with one stack and one directory. -/
def ExitsOnce (log : List Event) : Prop :=
  ∀ {n k d k' d'}, Event.exit n k d ∈ log → Event.exit n k' d' ∈ log → k = k' ∧ d = d'

theorem ExitsOnce.cons {log : List Event} {v : Event} (hx : ExitsOnce log)
    (hv : ∀ n k d, v = .exit n k d → ¬ Exited log n) : ExitsOnce (v :: log) := by
  intro n k d k' d' he he'
  rw [List.mem_cons] at he he'
  rcases he with he | he
  · rcases he' with he' | he'
    · cases he.trans he'.symm
      exact ⟨rfl, rfl⟩
    · exact absurd ⟨k', d', he'⟩ (hv n k d he.symm)
  · rcases he' with he' | he'
    · exact absurd ⟨k, d, he⟩ (hv n k' d' he'.symm)
    · exact hx he he'

theorem ExitsOnce.step {l m : Life} (hx : ExitsOnce l.log) (hb : Bonds l) (h : Chronicle l)
    (ht : l.Step m) : ExitsOnce m.log := by
  cases Chronicle.writes ht with
  | nothing hw =>
    rw [hw]
    exact hx
  | exit p n hp hn hs hd hw =>
    have hl : (l.view p).phase = .live := hb.live_of_job (by simp [hp])
    rw [hw]
    apply hx.cons
    rintro _ _ _ ⟨⟩
    exact h.alive (by simp [hl]) (by simp [hl])
  | fork _ _ _ _ _ hw | kfree _ _ _ _ _ hw | reap _ _ _ _ _ _ hw | wait _ _ _ _ hw =>
    rw [hw]
    apply hx.cons
    intro n k d he
    cases he

/-- What every run keeps. -/
structure Sound (s : Machine ncpu) : Prop where
  cores : Cores s
  bonds : Bonds s.life
  pages : Pages s.life
  chronicle : Chronicle s.life
  exits : ExitsOnce s.log

theorem Sound.step (hs : Sound s) (ht : Step s l t) : Sound t := by
  have hc := hs.cores.step hs.bonds ht
  rcases hs.cores.step_life hs.bonds ht with hlife | hlife
  · have hlog : t.log = s.log := congrArg Life.log hlife
    constructor
    · exact hc
    · rw [hlife]
      exact hs.bonds
    · rw [hlife]
      exact hs.pages
    · rw [hlife]
      exact hs.chronicle
    · rw [hlog]
      exact hs.exits
  · constructor
    · exact hc
    · exact hs.bonds.step hlife
    · exact hs.pages.step hs.bonds hlife
    · exact hs.chronicle.step hs.bonds hs.pages hlife
    · exact ExitsOnce.step hs.exits hs.bonds hs.chronicle hlife

theorem sound (hh : History h s) : Sound s := by
  refine hh.invariant ?_ fun hs ht => hs.step ht
  constructor
  · exact cores_boot
  · exact bonds_boot
  · exact pages_boot
  · exact chronicle_boot
  · exact fun he => by cases he

/-! ### The steps that free a page -/

/-- Process `w` frees page `a`, for the `wait` that reaps `b` if there is one. -/
inductive Frees (s : Machine ncpu) (w : ℕ) (b : Option ℕ) (a : ℕ) : Prop
  | dropped (c : Fin ncpu) (p i : Slot) (hc : (s.cpu c).core = .run p)
      (hk : (s.proc p).place = .dropStack i) (hi : (s.proc i).kstack = some a) (hb : b = none)
  | dir (c : Fin ncpu) (p : Slot) (k : After) (hc : (s.cpu c).core = .run p)
      (hk : (s.proc p).place = .freevm (some a) k) (hb : b = k.child)
  | stack (c : Fin ncpu) (p i : Slot) (hc : (s.cpu c).core = .run p)
      (hl : (s.proc p).locked = true) (hz : (s.proc i).state = .ZOMBIE)
      (hi : (s.proc i).kstack = some a) (hb : b = some (s.proc i).pid)

open Machine in
theorem frees_place (hc : (s.cpu c).core = .run p) (hv : (s.proc p).detour = .straight)
    (ht : s.placeStep c p ok = some t) {a : ℕ} (hlog : t.log = .kfree w b a :: s.log) :
    Frees s w b a := by
  have hno : t.log ≠ s.log := by
    rw [hlog]
    exact List.cons_ne_self _ _
  unfold Machine.placeStep at ht
  cases hk : (s.proc p).place with
  | user | dead | panic msg =>
    rw [hk] at ht
    cases ht
  | dropStack i =>
    rw [hk] at ht
    cases hi : (s.proc i).kstack with
    | some d =>
      simp only [hi, Option.some.injEq] at ht
      subst ht
      have he := (List.cons.inj hlog).1
      cases he
      exact .dropped c p i hc hk hi rfl
    | none =>
      simp only [hi, Option.some.injEq] at ht
      subst ht
      exact absurd rfl hno
  | freevm d k =>
    rw [hk] at ht
    cases d with
    | none =>
      cases ht
      exact absurd rfl hno
    | some d =>
      cases ht
      have he := (List.cons.inj hlog).1
      cases he
      exact .dir c p k hc hk rfl
  | waitScan i havekids =>
    have hlocked : (s.proc p).locked = true := by
      rw [Cores.locked_of_place hv, hk]
      rfl
    rw [hk] at ht
    cases ht
    unfold Machine.waitStep at hlog hno
    split_ifs at hlog hno with hi hpar hz hkids
    · exact absurd rfl hno
    · cases hks : (s.proc ⟨i, hi⟩).kstack with
      | some d =>
        simp only [hks] at hlog
        have he := (List.cons.inj hlog).1
        cases he
        exact .stack c p ⟨i, hi⟩ hc hlocked hz hks rfl
      | none =>
        simp only [hks] at hno
        exact absurd rfl hno
    · exact absurd rfl hno
    · exact absurd rfl hno
    · exact absurd rfl hno
  | kalloc _ | copyuvm _ | copying _ _ | exec | build _ =>
    rw [hk] at ht
    cases ok <;> cases ht <;> exact absurd rfl hno
  | dropChild _ | fill _ | waitWoken =>
    rw [hk] at ht
    cases ht
    exact absurd rfl hno
  | publish _ | exit =>
    rw [hk] at ht
    obtain ⟨u, hu, rfl⟩ := Option.map_eq_some_iff.1 ht
    obtain ⟨-, rfl⟩ := acquire_eq_some hu
    exact absurd rfl hno
  | runnable _ | waitClear _ | waitReturn _ =>
    rw [hk] at ht
    cases ht
    cases (List.cons.inj hlog).1
  | allocproc i =>
    rw [hk] at ht
    cases ht
    unfold Machine.allocStep at hno
    split_ifs at hno <;> exact absurd rfl hno
  | killScan pid i =>
    rw [hk] at ht
    cases ht
    unfold Machine.killStep at hno
    split_ifs at hno <;> exact absurd rfl hno
  | switchuvm old =>
    rw [hk] at ht
    dsimp only at ht
    split_ifs at ht <;> cases ht <;> exact absurd rfl hno
  | exitWake =>
    rw [hk] at ht
    cases hpar : (s.proc p).parent <;> simp only [hpar, Option.some.injEq] at ht <;> subst ht <;>
      exact absurd rfl hno
  | exitScan i =>
    rw [hk] at ht
    dsimp only at ht
    split_ifs at ht with hi
    · cases ht
      unfold Machine.abandon at hno
      split_ifs at hno <;> exact absurd rfl hno
    · cases ht
      cases (List.cons.inj hlog).1

open Machine in
theorem frees_act (hc : (s.cpu c).core = .run p) (ht : s.act c p a = some t) {d : ℕ}
    (hlog : t.log = .kfree w b d :: s.log) : Frees s w b d := by
  have hno : t.log ≠ s.log := by
    rw [hlog]
    exact List.cons_ne_self _ _
  have hacquire : ∀ {f : Machine ncpu → Machine ncpu}, (∀ u, (f u).log = u.log) →
      (s.acquire c).map f ≠ some t := by
    intro f hf hmap
    obtain ⟨u, hu, rfl⟩ := Option.map_eq_some_iff.1 hmap
    obtain ⟨-, rfl⟩ := acquire_eq_some hu
    exact hno (hf _)
  unfold Machine.act at ht
  cases a with
  | sched => cases ht
  | step ok =>
    dsimp only at ht
    unfold Machine.procStep at ht
    cases hv : (s.proc p).detour with
    | straight =>
      rw [hv] at ht
      exact frees_place hc hv ht hlog
    | _ =>
      rw [hv] at ht
      cases ht
      exact absurd rfl hno
  | call f =>
    dsimp only at ht
    split_ifs at ht
    cases f with
    | fork | wait | kill => exact absurd ht (hacquire fun _ => rfl)
    | exec | exit =>
      cases ht
      exact absurd rfl hno
  | timer | doze n =>
    dsimp only at ht
    split_ifs at ht
    exact absurd ht (hacquire fun _ => rfl)

open Machine in
theorem frees (ht : Step s l t) {d : ℕ} (hlog : t.log = .kfree w b d :: s.log) : Frees s w b d := by
  have hno : t.log ≠ s.log := by
    rw [hlog]
    exact List.cons_ne_self _ _
  unfold Step Machine.step at ht
  cases l with
  | wakeup n =>
    dsimp only at ht
    split_ifs at ht
    cases ht
    exact absurd rfl hno
  | on c a =>
    dsimp only at ht
    split at ht
    · rename_i p hc
      exact frees_act hc ht hlog
    · split_ifs at ht
      exact absurd (congrArg Life.log (Cores.schedStep_life ht)) hno

/-- The other holders of pages do not hold the one that is freed. -/
theorem Frees.holder {d : ℕ} (hf : Frees s w b d) : ∃ r, s.life.page r = some d ∧
    (∀ q, r ≠ .dir q) ∧ ∀ q, r = .code q → ∀ old, (s.proc q).place ≠ .switchuvm old := by
  cases hf with
  | dropped c p i _ _ hi _ => exact ⟨.stack i, hi, by simp, by simp⟩
  | dir c p k _ hk _ =>
    refine ⟨.code p, ?_, by simp, ?_⟩
    · change (s.proc p).place.job.dir = _
      rw [hk]
      rfl
    · rintro q ⟨⟩ old
      simp [hk]
  | stack c p i _ _ _ hi _ => exact ⟨.stack i, hi, by simp, by simp⟩

section Sound

variable (hs : Sound s) {d : ℕ} (hf : Frees s w b d)

include hs hf

/-- The page is no process's directory. -/
theorem Frees.not_pgdir (q : Slot) : (s.proc q).pgdir ≠ some d := by
  intro hq
  have hheld : s.life.page (.dir q) = some d := hq
  obtain ⟨r, hr, hdir, -⟩ := hf.holder
  exact hdir q (hs.pages.inj hr hheld)

/-- No processor has loaded the page. -/
theorem Frees.not_loaded (hq : (s.cpu e).core = .run q ∨ (s.cpu e).core = .back q) :
    (s.cpu e).cr3 ≠ some d := by
  intro hcr3
  obtain ⟨r, hr, -, hcode⟩ := hf.holder
  rcases hs.cores.loaded hq with hpg | hsw
  · exact hf.not_pgdir hs q (hpg.symm.trans hcr3)
  · have hheld : s.life.page (.code q) = some d := by
      change (s.proc q).place.job.dir = _
      rw [hsw, hcr3]
      rfl
    exact hcode q (hs.pages.inj hr hheld) _ hsw

/-- The child has left its processor. -/
theorem Frees.left {n : ℕ} (hb : b = some n)
    (hq : (s.cpu e).core = .run q ∨ (s.cpu e).core = .back q) : (s.proc q).pid ≠ n := by
  have hphase : (s.life.view q).phase ≠ .free := by
    change phaseOf (s.proc q).state ≠ _
    rcases hq with hq | hq
    · rw [hs.cores.running hq]
      decide
    · rcases hs.cores.back hq with (hst | hst) | hst <;> rw [hst] <;> decide
  cases hf with
  | dropped _ _ _ _ _ _ hnone =>
    rw [hnone] at hb
    cases hb
  | dir c p k _ hk hchild =>
    have htaken : (s.life.view p).job.taken = some n := by
      rw [Cores.job hk, ← hb, hchild]
      cases k <;> rfl
    intro hpid
    exact hs.chronicle.not_reaped hphase (hpid ▸ (hs.chronicle.taken htaken).1)
  | stack c p i hc hl hz _ hchild =>
    intro hpid
    have hzf : (s.life.view i).phase ≠ .free := by
      change phaseOf (s.proc i).state ≠ _
      rw [hz]
      decide
    have hqi : q = i := by
      apply hs.chronicle.pid_inj hphase hzf
      exact hpid.trans (Option.some.inj (hb.symm.trans hchild))
    rw [hqi] at hq
    rcases hq with hq | hq
    · rw [hs.cores.running hq] at hz
      cases hz
    · -- both hold the lock
      have hle : s.lock = some e := (hs.cores.holder e).1 (by simp only [Machine.holding, hq])
      have hlc := hs.cores.holds_lock hc hl
      obtain rfl := Option.some.inj (hle.symm.trans hlc)
      rw [hc] at hq
      cases hq

end Sound

/-! ### Reaping -/

/-- What the log says about reaping: `wait` returns a process once. It has reaped it as a parent,
after the process has exited, and has freed its stack and its directory, each of which is freed
once. -/
structure ReapsOnce (log : List Event) : Prop where
  once : ∀ n, (log.filter (Event.returns n)).length ≤ 1
  reaped : ∀ {w n}, Event.wait w n ∈ log → Event.reap w n ∈ log
  parent : ∀ {pre post w n}, log = post ++ Event.reap w n :: pre → Exited pre n ∧ IsParent pre w n
  freed : ∀ {w n k d}, Event.wait w n ∈ log → Event.exit n k d ∈ log →
    ∃ a a', k = some a ∧ d = some a' ∧ FreedBy log w n a ∧ FreedBy log w n a'

/-- What a step from `s` to `t` frees is no process's directory and is not loaded, and a process
that it is freed for has left its processor; what it reaps is a child of the process that reaps. -/
structure FreesLate (s t : Machine ncpu) : Prop where
  unused : ∀ {w b a}, t.log = .kfree w b a :: s.log → (∀ q, (s.proc q).pgdir ≠ some a) ∧
    ∀ {e q}, (s.cpu e).core = .run q ∨ (s.cpu e).core = .back q →
      (s.cpu e).cr3 ≠ some a ∧ ∀ {n}, b = some n → (s.proc q).pid ≠ n
  child : ∀ {w n}, t.log = .reap w n :: s.log → ∃ p i, (s.proc p).pid = w ∧ (s.proc i).pid = n ∧
    (s.proc i).parent = some p ∧ (s.proc i).state = .ZOMBIE

theorem Sound.reapsOnce (hs : Sound s) : ReapsOnce s.log where
  once := hs.chronicle.once
  reaped hw := (hs.chronicle.returned hw).1
  parent hlog := hs.chronicle.rightful hlog
  freed hw he := by
    obtain ⟨-, a, a', he', hk, hd⟩ := hs.chronicle.returned hw
    obtain ⟨rfl, rfl⟩ := hs.exits he he'
    exact ⟨a, a', rfl, rfl, hk, hd⟩

theorem Sound.freesLate (hs : Sound s) (ht : Step s l t) : FreesLate s t := by
  constructor
  · intro w b a hlog
    have hf := frees ht hlog
    exact ⟨hf.not_pgdir hs, fun hq => ⟨hf.not_loaded hs hq, fun hb => hf.left hs hb hq⟩⟩
  · intro w n hlog
    rcases hs.cores.step_life hs.bonds ht with hlife | hlife
    · have hsame : t.log = s.log := congrArg Life.log hlife
      rw [hsame] at hlog
      exact absurd hlog.symm (List.cons_ne_self _ _)
    · have hlog' : t.life.log = .reap w n :: s.life.log := hlog
      cases Chronicle.writes hlife with
      | nothing hw => exact absurd (hlog'.symm.trans hw) (List.cons_ne_self _ _)
      | reap p i hp hi hj hx hw =>
        obtain ⟨hz, hpar, -⟩ := hs.bonds.clear hp
        cases (List.cons.inj (hw.symm.trans hlog')).1
        exact ⟨p, i, rfl, rfl, hpar, zombie_of_phase hz⟩
      | fork _ _ _ _ _ hw | exit _ _ _ _ _ _ hw | kfree _ _ _ _ _ hw | wait _ _ _ _ hw =>
        cases (List.cons.inj (hw.symm.trans hlog')).1

theorem reaping_exactly_once (hh : History h s) :
    ReapsOnce s.log ∧ ∀ l t, Step s l t → FreesLate s t :=
  ⟨(sound hh).reapsOnce, fun _ _ => (sound hh).freesLate⟩

/-- On one processor init forks, the child runs and exits, and init waits for it. -/
def reapDemo : List Action :=
  [.sched, .sched, .step true, .call .fork] ++ List.replicate 10 (.step true) ++
    [.timer, .step true, .sched, .sched, .step true, .call .exit] ++
    List.replicate 67 (.step true) ++ List.replicate 66 .sched ++ [.step true, .call .wait] ++
    List.replicate 6 (.step true)

theorem reapDemo_log : ((reapDemo.map (Label.on (0 : Fin 1))).foldlM Machine.step Machine.boot).map
    Machine.log = some [.wait 1 2, .kfree 1 (some 2) 3, .reap 1 2, .kfree 1 (some 2) 2,
      .exit 2 (some 2) (some 3), .fork 1 2] := by
  decide +kernel

theorem reaping_exactly_once_demo : ∃ (h : List (Machine 1 × Label 1)) (s : Machine 1),
    History h s ∧ Event.wait 1 2 ∈ s.log ∧ ReapsOnce s.log ∧ ∀ l t, Step s l t → FreesLate s t := by
  obtain ⟨s, hs, hlog⟩ := Option.map_eq_some_iff.mp reapDemo_log
  obtain ⟨h, -, hh⟩ := Trace.of_foldlM hs
  refine ⟨h, s, hh, ?_, reaping_exactly_once hh⟩
  rw [hlog]
  exact List.mem_cons_self

end Xv6Lab.Reap
