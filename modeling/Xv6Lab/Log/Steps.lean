import Mathlib.Tactic.Linarith
import Xv6Lab.Log.Machine

/-! What one step of the log machine can do, and what holds of it in every state: while a process
commits no operation is outstanding, and nobody else commits. -/

namespace Xv6Lab.Log

open Lib

variable {n : ℕ} {E : Env} {s t u : Kernel n} {p q : Fin n} {c : Choice} {i : Instr}
  {rest : List Instr} {b : ℕ}

/-! ### Components -/

@[simp] theorem then_toDisk (s : Kernel n) (p : Fin n) (l : List Instr) (d : Disk n) :
    (s.then p l d).toDisk = d := rfl

@[simp] theorem goto_toDisk (s : Kernel n) (p : Fin n) (l : List Instr) :
    (s.goto p l).toDisk = s.toDisk := rfl

@[simp] theorem sleep_toDisk (s : Kernel n) (p : Fin n) (w : Wait) :
    (s.sleep p w).toDisk = s.toDisk := rfl

@[simp] theorem wakeup_toDisk (s : Kernel n) : s.wakeup.toDisk = s.toDisk := rfl

theorem then_proc (s : Kernel n) (p q : Fin n) (l : List Instr) (d : Disk n) :
    (s.then p l d).proc q = if q = p then ⟨l, (s.proc p).wait⟩ else s.proc q := by
  unfold Kernel.then
  by_cases h : q = p
  · subst h
    simp
  · simp [h]

theorem goto_proc (s : Kernel n) (p q : Fin n) (l : List Instr) :
    (s.goto p l).proc q = if q = p then ⟨l, (s.proc p).wait⟩ else s.proc q :=
  then_proc s p q l s.toDisk

theorem sleep_proc (s : Kernel n) (p q : Fin n) (w : Wait) :
    (s.sleep p w).proc q = if q = p then ⟨(s.proc p).code, w⟩ else s.proc q := by
  unfold Kernel.sleep
  by_cases h : q = p
  · subst h
    simp
  · simp [h]

theorem wakeup_proc (s : Kernel n) (q : Fin n) :
    s.wakeup.proc q = ⟨(s.proc q).code, .awake⟩ := rfl

/-! ### One step -/

/-- The steps of process `p`, by what they do to the log. -/
inductive Moves (E : Env) (s : Kernel n) (p : Fin n) : Choice → Kernel n → Prop
  | wake : (s.proc p).wait ≠ .awake → Moves E s p .wake (s.sleep p .awake)
  | returns (rest : List Instr) : (s.proc p).wait = .awake →
    (s.proc p).code = .work :: rest → Moves E s p .go (s.goto p rest)
  | calls (rest : List Instr) (f : Call) : (s.proc p).wait = .awake →
    (s.proc p).code = .work :: rest → Moves E s p (.call f) (s.goto p (f.code ++ .work :: rest))
  | finds (rest : List Instr) (b : ℕ) : (s.proc p).wait = .awake →
    (s.proc p).code = .balloc :: rest → s.holder (E.bblock b) = none → s.FirstFree E b →
    Moves E s p (.pick b) (s.then p (ballocFound b ++ rest) (s.lock (E.bblock b) p))
  | exec (i : Instr) (rest : List Instr) (c : Choice) (d : Disk n) : (s.proc p).wait = .awake →
    (s.proc p).code = i :: rest → i.commits = false → s.exec E p i c = some d →
    Moves E s p c (s.then p rest d)
  | waitCommit (rest : List Instr) : (s.proc p).wait = .awake →
    (s.proc p).code = .beginOp :: rest → s.committing = true →
    Moves E s p .go (s.sleep p .commit)
  | waitSpace (rest : List Instr) : (s.proc p).wait = .awake →
    (s.proc p).code = .beginOp :: rest → s.committing = false →
    (LOGSIZE : ℤ) < s.lh.length + (s.outstanding + 1) * MAXOPBLOCKS →
    Moves E s p .go (s.sleep p .space)
  | begins (rest : List Instr) : (s.proc p).wait = .awake →
    (s.proc p).code = .beginOp :: rest → s.committing = false →
    (s.lh.length + (s.outstanding + 1) * MAXOPBLOCKS : ℤ) ≤ LOGSIZE →
    Moves E s p .go (s.then p rest { s.toDisk with outstanding := s.outstanding + 1 })
  | ends (rest : List Instr) : (s.proc p).wait = .awake →
    (s.proc p).code = .endOp :: rest → s.committing = false → s.outstanding ≠ 1 →
    Moves E s p .go (s.wakeup.then p rest { s.toDisk with outstanding := s.outstanding - 1 })
  | endsLast (rest : List Instr) : (s.proc p).wait = .awake →
    (s.proc p).code = .endOp :: rest → s.committing = false → s.outstanding = 1 →
    Moves E s p .go
      (s.then p (.commit :: rest) { s.toDisk with outstanding := 0, committing := true })
  | commits (i : Instr) (rest : List Instr) (t : Kernel n) : (s.proc p).wait = .awake →
    (s.proc p).code = i :: rest → i.commits = true → s.commit p rest i = some t →
    Moves E s p .go t

theorem beginOp_moves (ha : (s.proc p).wait = .awake) (hc : (s.proc p).code = .beginOp :: rest) :
    Moves E s p .go (s.beginOp p rest) := by
  unfold Kernel.beginOp
  by_cases hcom : s.committing = true
  · rw [if_pos hcom]
    exact .waitCommit rest ha hc hcom
  · rw [if_neg hcom]
    by_cases hsp : (LOGSIZE : ℤ) < s.lh.length + (s.outstanding + 1) * MAXOPBLOCKS
    · rw [if_pos hsp]
      exact .waitSpace rest ha hc (by simpa using hcom) hsp
    · rw [if_neg hsp]
      exact .begins rest ha hc (by simpa using hcom) (not_lt.1 hsp)

theorem endOp_moves (ha : (s.proc p).wait = .awake) (hc : (s.proc p).code = .endOp :: rest)
    (h : s.endOp p rest = some t) : Moves E s p .go t := by
  unfold Kernel.endOp at h
  by_cases hcom : s.committing = true
  · rw [if_pos hcom] at h
    cases h
  · rw [if_neg hcom] at h
    by_cases hlast : s.outstanding - 1 = 0
    · rw [if_pos hlast] at h
      cases h
      exact .endsLast rest ha hc (by simpa using hcom) (by omega)
    · rw [if_neg hlast] at h
      cases h
      exact .ends rest ha hc (by simpa using hcom) (by omega)

theorem run_moves (ha : (s.proc p).wait = .awake) (h : s.run E p (s.proc p).code c = some t) :
    Moves E s p c t := by
  cases hcode : (s.proc p).code with
  | nil =>
    rw [hcode] at h
    cases h
  | cons i rest =>
    rw [hcode] at h
    have plain : ∀ d, i.commits = false → (s.exec E p i c).map (s.then p rest) = some d →
        Moves E s p c d := by
      intro d hi hd
      obtain ⟨d', hd', rfl⟩ := Option.map_eq_some_iff.1 hd
      exact .exec i rest c d' ha hcode hi hd'
    have last : i.commits = true →
        (if c.isGo = true then s.commit p rest i else none) = some t → Moves E s p c t := by
      intro hi ht
      cases c with
      | go => exact .commits i rest t ha hcode hi ht
      | _ => cases ht
    cases i with
    | work =>
      cases c with
      | go =>
        cases h
        exact .returns rest ha hcode
      | call f =>
        cases h
        exact .calls rest f ha hcode
      | _ => exact plain t rfl h
    | balloc =>
      cases c with
      | pick b =>
        simp only [Kernel.run] at h
        by_cases hg : s.holder (E.bblock b) = none ∧ s.FirstFree E b
        · rw [if_pos hg] at h
          cases h
          exact .finds rest b ha hcode hg.1 hg.2
        · rw [if_neg hg] at h
          cases h
      | _ => exact plain t rfl h
    | beginOp =>
      cases c with
      | go =>
        cases h
        exact beginOp_moves ha hcode
      | _ => exact plain t rfl h
    | endOp =>
      cases c with
      | go => exact endOp_moves ha hcode h
      | _ => exact plain t rfl h
    | commit | writeLog | writeHead | installTrans | clearHead | endCommit => exact last rfl h
    | mark | bzero | bget | store | logWrite | bwrite | brelse | bfree => exact plain t rfl h

theorem step_moves (h : step E s (p, c) = some t) : Moves E s p c t := by
  cases c with
  | wake =>
    simp only [step] at h
    by_cases ha : (s.proc p).wait = .awake
    · rw [if_pos ha] at h
      cases h
    · rw [if_neg ha] at h
      cases h
      exact .wake ha
  | _ =>
    simp only [step] at h
    by_cases ha : (s.proc p).wait = .awake
    · rw [if_pos ha] at h
      exact run_moves ha h
    · rw [if_neg ha] at h
      cases h

/-! ### Instructions on buffers -/

/-- The block that an instruction puts into the log. -/
def Instr.logs (E : Env) : Instr → Option ℕ
  | .mark b => some (E.bblock b)
  | .bzero b | .logWrite b => some b
  | _ => none

variable {d d' : Disk n}

theorem logWrite_some (h : d.logWrite E b = some d') :
    1 ≤ d.outstanding ∧ d' = { d with lh := if b ∈ d.lh then d.lh else d.lh ++ [b] } := by
  unfold Disk.logWrite at h
  by_cases hfull : LOGSIZE ≤ d.lh.length ∨ E.nlog - 1 ≤ d.lh.length
  · rw [if_pos hfull] at h
    cases h
  · rw [if_neg hfull] at h
    by_cases hout : d.outstanding < 1
    · rw [if_pos hout] at h
      cases h
    · rw [if_neg hout] at h
      exact ⟨not_lt.1 hout, (Option.some.inj h).symm⟩

/-- What the instructions on buffers do to the log and to the locks. -/
structure Executed (E : Env) (s : Disk n) (p : Fin n) (i : Instr) (d : Disk n) : Prop where
  outstanding : d.outstanding = s.outstanding
  committing : d.committing = s.committing
  logged : d.logged = s.logged
  lh : d.lh = s.lh ∨ ∃ b, i.logs E = some b ∧ b ∉ s.lh ∧ d.lh = s.lh ++ [b] ∧ 1 ≤ s.outstanding
  logs : ∀ b, i.logs E = some b → b ∈ d.lh
  holder : ∀ b q, d.holder b = some q → s.holder b = some q ∨ q = p

theorem Executed.of_lock {s : Disk n} (hi : i.logs E = none) (hl : d.lh = s.lh)
    (ho : d.outstanding = s.outstanding) (hc : d.committing = s.committing)
    (hg : d.logged = s.logged) (hh : ∀ b q, d.holder b = some q → s.holder b = some q ∨ q = p) :
    Executed E s p i d where
  outstanding := ho
  committing := hc
  logged := hg
  lh := .inl hl
  logs b hb := by
    rw [hi] at hb
    cases hb
  holder := hh

theorem Executed.of_logWrite {s : Disk n} (hi : i.logs E = some b) (hl : d.lh = s.lh)
    (ho : d.outstanding = s.outstanding) (hc : d.committing = s.committing) (hg : d.logged = s.logged)
    (hh : d.holder = s.holder) (h : d.logWrite E b = some d') : Executed E s p i d' := by
  obtain ⟨hout, rfl⟩ := logWrite_some h
  by_cases hb : b ∈ d.lh
  · rw [if_pos hb]
    refine ⟨ho, hc, hg, .inl hl, fun x hx => ?_, fun x q hq => .inl ?_⟩
    · rw [hi] at hx
      rwa [← Option.some.inj hx]
    · rwa [← hh]
  · rw [if_neg hb]
    refine ⟨ho, hc, hg, .inr ⟨b, hi, ?_⟩, fun x hx => ?_, fun x q hq => .inl ?_⟩
    · rw [← hl, ← ho]
      exact ⟨hb, rfl, hout⟩
    · rw [hi] at hx
      rw [← Option.some.inj hx]
      exact List.mem_append_right _ (List.mem_singleton_self b)
    · rwa [← hh]

theorem unlock_holder {s : Disk n} {x : ℕ} (h : (s.unlock x).holder b = some q) :
    s.holder b = some q := by
  unfold Disk.unlock at h
  by_cases hx : b = x
  · subst hx
    simp at h
  · simpa [hx] using h

theorem lock_holder {s : Disk n} {x : ℕ} (h : (s.lock x p).holder b = some q) :
    s.holder b = some q ∨ q = p := by
  unfold Disk.lock at h
  by_cases hx : b = x
  · subst hx
    dsimp only at h
    rw [Function.update_self] at h
    exact .inr (Option.some.inj h).symm
  · exact .inl (by simpa [hx] using h)

theorem exec_some {s : Disk n} (h : s.exec E p i c = some d) : Executed E s p i d := by
  have guard : ∀ {P : Prop} [Decidable P] {x : Disk n}, (if P then some x else none) = some d → x = d := by
    intro P _ x hx
    split_ifs at hx
    exact Option.some.inj hx
  cases i with
  | mark b =>
    cases c with
    | go =>
      obtain ⟨d', hd', rfl⟩ := Option.map_eq_some_iff.1 h
      have hx : Executed E s p (.mark b) d' :=
        .of_logWrite (d := s.setBit E b true) rfl rfl rfl rfl rfl rfl hd'
      exact ⟨hx.outstanding, hx.committing, hx.logged, hx.lh, hx.logs,
        fun x q hq => hx.holder x q (unlock_holder hq)⟩
    | _ => cases h
  | bzero b =>
    cases c with
    | go =>
      simp only [Disk.exec] at h
      split_ifs at h
      exact .of_logWrite (d := s.setData b fun _ => false) rfl rfl rfl rfl rfl rfl h
    | _ => cases h
  | bget b =>
    cases c with
    | go =>
      rw [← guard h]
      exact .of_lock rfl rfl rfl rfl rfl fun x q hq => lock_holder hq
    | _ => cases h
  | store b =>
    cases c with
    | data x =>
      rw [← guard h]
      exact .of_lock rfl rfl rfl rfl rfl fun x q hq => .inl hq
    | _ => cases h
  | logWrite b =>
    cases c with
    | go =>
      simp only [Disk.exec] at h
      split_ifs at h
      exact .of_logWrite rfl rfl rfl rfl rfl rfl h
    | _ => cases h
  | bwrite b =>
    cases c with
    | go =>
      rw [← guard h]
      exact .of_lock rfl rfl rfl rfl rfl fun x q hq => .inl hq
    | _ => cases h
  | brelse b =>
    cases c with
    | go =>
      rw [← guard h]
      exact .of_lock rfl rfl rfl rfl rfl fun x q hq => .inl (unlock_holder hq)
    | _ => cases h
  | bfree b =>
    cases c with
    | go =>
      rw [← guard h]
      exact .of_lock rfl rfl rfl rfl rfl fun x q hq => .inl hq
    | _ => cases h
  | _ => cases c <;> cases h

/-! ### Commits -/

/-- No instruction is part of an `end_op` that commits. -/
def Plain (l : List Instr) : Prop := ∀ i ∈ l, i.commits = false

theorem plain_append {l l' : List Instr} (h : Plain l) (h' : Plain l') : Plain (l ++ l') := by
  intro i hi
  exact (List.mem_append.1 hi).elim (h i) (h' i)

theorem plain_ballocFound (b : ℕ) : Plain (ballocFound b) := by
  simp [Plain, ballocFound, Instr.commits]

theorem plain_call (f : Call) : Plain f.code := by
  have hwrite : ∀ b, Plain (writeBlock b) := by
    intro b
    simp [Plain, writeBlock, transaction, Instr.commits]
  cases f with
  | writePageToDisk b =>
    refine plain_append (by simp [Plain, transaction, Instr.commits]) ?_
    intro i hi
    obtain ⟨x, -, hx⟩ := List.mem_flatMap.1 hi
    exact hwrite _ i hx
  | bfreePage b =>
    intro i hi
    obtain ⟨x, -, rfl⟩ := List.mem_map.1 hi
    rfl
  | _ => simp [Plain, Call.code, transaction, update, bmap, Instr.commits]

/-- The process runs `commit`. -/
def Kernel.Committer (s : Kernel n) (p : Fin n) : Prop :=
  ∃ i rest, (s.proc p).code = i :: rest ∧ i.commits = true

structure Sound (s : Kernel n) : Prop where
  idle : s.committing = true → s.outstanding = 0
  committing : ∀ p, s.Committer p → s.committing = true
  tail : ∀ p i rest, (s.proc p).code = i :: rest → Plain rest
  one : ∀ p q, s.Committer p → s.Committer q → p = q
  asleep : ∀ p, (s.proc p).wait ≠ .awake → ∃ rest, (s.proc p).code = .beginOp :: rest
  waits : ∀ p, (s.proc p).wait = .commit → s.committing = true

theorem Plain.not_committer (h : Plain (s.proc p).code) : ¬ s.Committer p := by
  rintro ⟨i, rest, hc, hi⟩
  rw [hc] at h
  have := h i (List.mem_cons_self ..)
  rw [hi] at this
  cases this

theorem Plain.tail {l : List Instr} (h : Plain l) (hl : l = i :: rest) : Plain rest := by
  subst hl
  exact fun j hj => h j (List.mem_cons_of_mem _ hj)

theorem boot_sound (disk : ℕ → Block) : Sound (boot n disk) := by
  have hplain : ∀ p : Fin n, Plain ((boot n disk).proc p).code := by
    intro p
    simp [Plain, boot, Instr.commits]
  constructor
  · intro h
    cases h
  · exact fun p hp => absurd hp (hplain p).not_committer
  · exact fun p i rest hc => (hplain p).tail hc
  · exact fun p q hp => absurd hp (hplain p).not_committer
  · exact fun p hp => absurd rfl hp
  · intro p hp
    cases hp

/-- Process `p` goes on to plain code, and the log goes on as it was. -/
theorem Sound.moved {l : List Instr} {w : Wait} (h : Sound s)
    (hproc : ∀ q, t.proc q = if q = p then ⟨l, w⟩ else s.proc q) (hl : Plain l)
    (hw : w ≠ .awake → ∃ rest, l = .beginOp :: rest) (hwc : w = .commit → s.committing = true)
    (hcom : t.committing = s.committing) (hidle : s.committing = true → t.outstanding = 0) :
    Sound t := by
  have hself : t.proc p = ⟨l, w⟩ := by rw [hproc, if_pos rfl]
  have hother : ∀ q, q ≠ p → t.proc q = s.proc q := fun q hq => by rw [hproc, if_neg hq]
  have hnot : ¬ t.Committer p := Plain.not_committer (by rw [hself]; exact hl)
  have hcommitter : ∀ q, t.Committer q → s.Committer q := by
    intro q hq
    by_cases hqp : q = p
    · subst hqp
      exact absurd hq hnot
    · unfold Kernel.Committer at hq ⊢
      rwa [hother q hqp] at hq
  constructor
  · intro hc
    exact hidle (by rwa [← hcom])
  · intro q hq
    rw [hcom]
    exact h.committing q (hcommitter q hq)
  · intro q i rest hc
    by_cases hqp : q = p
    · subst hqp
      rw [hself] at hc
      exact hl.tail hc
    · rw [hother q hqp] at hc
      exact h.tail q i rest hc
  · exact fun q q' hq hq' => h.one q q' (hcommitter q hq) (hcommitter q' hq')
  · intro q hq
    by_cases hqp : q = p
    · subst hqp
      rw [hself] at hq ⊢
      exact hw hq
    · rw [hother q hqp] at hq ⊢
      exact h.asleep q hq
  · intro q hq
    rw [hcom]
    by_cases hqp : q = p
    · subst hqp
      rw [hself] at hq
      exact hwc hq
    · rw [hother q hqp] at hq
      exact h.waits q hq

theorem Sound.wakeup (h : Sound s) : Sound s.wakeup where
  idle := h.idle
  committing := h.committing
  tail := h.tail
  one := h.one
  asleep p hp := absurd rfl hp
  waits p hp := by cases hp

/-- Process `p` goes on with `commit`. -/
theorem Sound.commits {l : List Instr} (h : Sound s)
    (hproc : ∀ q, t.proc q = if q = p then ⟨i :: l, .awake⟩ else s.proc q) (hl : Plain l)
    (hothers : ∀ q, s.Committer q → q = p) (hcom : t.committing = true)
    (hout : t.outstanding = 0) : Sound t := by
  have hself : t.proc p = ⟨i :: l, .awake⟩ := by rw [hproc, if_pos rfl]
  have hother : ∀ q, q ≠ p → t.proc q = s.proc q := fun q hq => by rw [hproc, if_neg hq]
  have hcommitter : ∀ q, t.Committer q → q = p := by
    intro q hq
    by_contra hqp
    unfold Kernel.Committer at hq
    rw [hother q hqp] at hq
    exact hqp (hothers q hq)
  constructor
  · exact fun _ => hout
  · exact fun _ _ => hcom
  · intro q j rest hc
    by_cases hqp : q = p
    · subst hqp
      rw [hself] at hc
      cases hc
      exact hl
    · rw [hother q hqp] at hc
      exact h.tail q j rest hc
  · exact fun q q' hq hq' => (hcommitter q hq).trans (hcommitter q' hq').symm
  · intro q hq
    by_cases hqp : q = p
    · subst hqp
      rw [hself] at hq
      exact absurd rfl hq
    · rw [hother q hqp] at hq ⊢
      exact h.asleep q hq
  · exact fun _ _ => hcom

/-- The end of the `end_op` of process `p`, after its `commit`. -/
theorem Sound.committed (h : Sound s) (hp : s.Committer p) (hl : Plain rest) :
    Sound (s.wakeup.then p rest { s.toDisk with committing := false }) := by
  set t := s.wakeup.then p rest { s.toDisk with committing := false } with ht
  have hproc : ∀ q, t.proc q = if q = p then ⟨rest, .awake⟩ else s.wakeup.proc q :=
    fun q => then_proc s.wakeup p q rest _
  have hnot : ∀ q, ¬ t.Committer q := by
    intro q hq
    by_cases hqp : q = p
    · subst hqp
      refine absurd hq (Plain.not_committer ?_)
      rw [hproc, if_pos rfl]
      exact hl
    · unfold Kernel.Committer at hq
      rw [hproc, if_neg hqp] at hq
      exact hqp (h.one q p hq hp)
  have hawake : ∀ q, (t.proc q).wait = .awake := by
    intro q
    rw [hproc]
    by_cases hqp : q = p
    · rw [if_pos hqp]
    · rw [if_neg hqp]
      rfl
  constructor
  · intro hc
    cases hc
  · exact fun q hq => absurd hq (hnot q)
  · intro q i l hc
    rw [hproc] at hc
    by_cases hqp : q = p
    · rw [if_pos hqp] at hc
      exact hl.tail hc
    · rw [if_neg hqp] at hc
      exact h.tail q i l hc
  · exact fun q _ hq => absurd hq (hnot q)
  · exact fun q hq => absurd (hawake q) hq
  · intro q hq
    rw [hawake q] at hq
    cases hq

/-- The steps of `commit`, up to the end of its `end_op`. -/
inductive Commits (s : Kernel n) (p : Fin n) (rest : List Instr) : Instr → Kernel n → Prop
  | starts : 0 < s.lh.length → Commits s p rest .commit (s.goto p (.writeLog 0 :: rest))
  | skips : s.lh = [] → Commits s p rest .commit (s.goto p (.endCommit :: rest))
  | copies (tail b : ℕ) : s.lh[tail]? = some b → s.holder b = none →
    Commits s p rest (.writeLog tail) (s.then p (.writeLog (tail + 1) :: rest)
      { s.toDisk with logged := Function.update s.logged tail (s.data b) })
  | copied (tail : ℕ) : s.lh[tail]? = none →
    Commits s p rest (.writeLog tail) (s.goto p (.writeHead :: rest))
  | header : Commits s p rest .writeHead
      (s.then p (.installTrans 0 :: rest) { s.toDisk with head := s.lh })
  | installs (tail b : ℕ) : s.lh[tail]? = some b → s.holder b = none →
    Commits s p rest (.installTrans tail) (s.then p (.installTrans (tail + 1) :: rest)
      ((s.setData b (s.logged tail)).flush b))
  | installed (tail : ℕ) : s.lh[tail]? = none →
    Commits s p rest (.installTrans tail) (s.goto p (.clearHead :: rest))
  | clears : Commits s p rest .clearHead
      (s.then p (.endCommit :: rest) { s.toDisk with lh := [], head := [] })
  | ends : Commits s p rest .endCommit
      (s.wakeup.then p rest { s.toDisk with committing := false })

theorem commit_commits (h : s.commit p rest i = some t) : Commits s p rest i t := by
  cases i with
  | commit =>
    cases h
    by_cases hn : 0 < s.lh.length
    · rw [if_pos hn]
      exact .starts hn
    · rw [if_neg hn]
      exact .skips (List.length_eq_zero_iff.1 (by omega))
  | writeLog tail =>
    simp only [Kernel.commit] at h
    cases hb : s.lh[tail]? with
    | none =>
      simp only [hb] at h
      cases h
      exact .copied tail hb
    | some b =>
      simp only [hb] at h
      by_cases hh : s.holder b = none
      · rw [if_pos hh] at h
        cases h
        exact .copies tail b hb hh
      · rw [if_neg hh] at h
        cases h
  | writeHead =>
    cases h
    exact .header
  | installTrans tail =>
    simp only [Kernel.commit] at h
    cases hb : s.lh[tail]? with
    | none =>
      simp only [hb] at h
      cases h
      exact .installed tail hb
    | some b =>
      simp only [hb] at h
      by_cases hh : s.holder b = none
      · rw [if_pos hh] at h
        cases h
        exact .installs tail b hb hh
      · rw [if_neg hh] at h
        cases h
  | clearHead =>
    cases h
    exact .clears
  | endCommit =>
    cases h
    exact .ends
  | _ => cases h

/-- A step of `commit` is the last one of its `end_op`, or it leaves the counters and the locks
alone. -/
theorem Commits.ends_or (h : Commits s p rest i t) :
    t = s.wakeup.then p rest { s.toDisk with committing := false } ∨
    ∃ j d, t = s.then p (j :: rest) d ∧ j.commits = true ∧ d.committing = s.committing ∧
      d.outstanding = s.outstanding ∧ d.holder = s.holder ∧ (d.lh = s.lh ∨ d.lh = []) := by
  cases h with
  | ends => exact .inl rfl
  | starts | skips | copied | installed =>
    exact .inr ⟨_, s.toDisk, rfl, rfl, rfl, rfl, rfl, .inl rfl⟩
  | copies | header | installs => exact .inr ⟨_, _, rfl, rfl, rfl, rfl, rfl, .inl rfl⟩
  | clears => exact .inr ⟨_, _, rfl, rfl, rfl, rfl, rfl, .inr rfl⟩

theorem Sound.not_committer (h : Sound s) (hc : s.committing = false) : ¬ s.Committer p := by
  intro hp
  rw [h.committing p hp] at hc
  cases hc

theorem Sound.plain (h : Sound s) (hc : (s.proc p).code = i :: rest) (hi : i.commits = false) :
    Plain (i :: rest) := by
  intro j hj
  cases hj with
  | head => exact hi
  | tail _ hj => exact h.tail p i rest hc j hj

theorem Sound.step (h : Sound s) (hs : Step E s (p, c) t) : Sound t := by
  have goes : ∀ {i : Instr} {rest l : List Instr} {d : Disk n}, (s.proc p).wait = .awake →
      (s.proc p).code = i :: rest → Plain l → d.committing = s.committing →
      (s.committing = true → d.outstanding = 0) → Sound (s.then p l d) := by
    intro i rest l d ha hc hl hcom hout
    refine h.moved (then_proc s p · l d) hl ?_ ?_ hcom hout
    · exact fun hw => absurd ha hw
    · rw [ha]
      intro hw
      cases hw
  cases step_moves hs with
  | wake hw =>
    obtain ⟨rest, hc⟩ := h.asleep p hw
    refine h.moved (sleep_proc s p · .awake) ?_ (fun hw => absurd rfl hw) ?_ rfl h.idle
    · rw [hc]
      exact h.plain hc rfl
    · intro hw
      cases hw
  | returns rest ha hc => exact goes ha hc (h.tail p _ rest hc) rfl h.idle
  | calls rest f ha hc =>
    exact goes ha hc (plain_append (plain_call f) (h.plain hc rfl)) rfl h.idle
  | finds rest b ha hc =>
    exact goes ha hc (plain_append (plain_ballocFound b) (h.tail p _ rest hc)) rfl h.idle
  | exec i rest c d ha hc hi hd =>
    have hx := exec_some hd
    refine goes ha hc (h.tail p i rest hc) hx.committing fun hcom => ?_
    rw [hx.outstanding]
    exact h.idle hcom
  | waitCommit rest ha hc hcom =>
    refine h.moved (sleep_proc s p · .commit) ?_ (fun _ => ⟨rest, hc⟩) (fun _ => hcom) rfl h.idle
    rw [hc]
    exact h.plain hc rfl
  | waitSpace rest ha hc hcom =>
    refine h.moved (sleep_proc s p · .space) ?_ (fun _ => ⟨rest, hc⟩) ?_ rfl h.idle
    · rw [hc]
      exact h.plain hc rfl
    · intro hw
      cases hw
  | begins rest ha hc hcom =>
    refine goes ha hc (h.tail p _ rest hc) rfl fun hcom' => ?_
    rw [hcom] at hcom'
    cases hcom'
  | ends rest ha hc hcom =>
    refine h.wakeup.moved (then_proc s.wakeup p · rest _) (h.tail p _ rest hc)
      (fun hw => absurd rfl hw) ?_ rfl fun hcom' => ?_
    · intro hw
      cases hw
    · rw [wakeup_toDisk, hcom] at hcom'
      cases hcom'
  | endsLast rest ha hc hcom =>
    refine h.commits (p := p) (i := .commit) ?_ (h.tail p _ rest hc) ?_ rfl rfl
    · intro q
      rw [then_proc, ha]
    · exact fun q hq => absurd hq (h.not_committer hcom)
  | commits i rest t ha hc hi ht =>
    have hp : s.Committer p := ⟨i, rest, hc, hi⟩
    have hcom := h.committing p hp
    obtain rfl | ⟨j, d, rfl, hj, hd, hout, -⟩ := (commit_commits ht).ends_or
    · exact h.committed hp (h.tail p i rest hc)
    · refine h.commits (i := j) ?_ (h.tail p i rest hc) (fun q hq => h.one q p hq hp) ?_ ?_
      · intro q
        rw [then_proc, ha]
      · rw [← hcom]
        exact hd
      · rw [← h.idle hcom]
        exact hout

/-- A step of one process leaves the code of the others alone. -/
theorem step_code (hs : Step E s (p, c) t) (hqp : q ≠ p) :
    (t.proc q).code = (s.proc q).code := by
  cases step_moves hs with
  | wake | waitCommit | waitSpace => rw [sleep_proc, if_neg hqp]
  | returns | calls => rw [goto_proc, if_neg hqp]
  | finds | exec | begins | endsLast => rw [then_proc, if_neg hqp]
  | ends => rw [then_proc, if_neg hqp, wakeup_proc]
  | commits i rest t _ _ _ ht =>
    obtain rfl | ⟨j, d, rfl, -⟩ := (commit_commits ht).ends_or
    · rw [then_proc, if_neg hqp, wakeup_proc]
    · rw [then_proc, if_neg hqp]

/-- Instructions on buffers. -/
def Instr.onBuffer : Instr → Bool
  | .mark _ | .bzero _ | .bget _ | .store _ | .logWrite _ | .bwrite _ | .brelse _ | .bfree _ => true
  | _ => false

/-- The next step of a process at an instruction on buffers. -/
theorem Sound.step_exec (h : Sound s) (hc : (s.proc p).code = i :: rest) (hi : i.onBuffer = true)
    (hs : Step E s (p, c) t) : ∃ d, s.exec E p i c = some d ∧ t = s.then p rest d := by
  have head : ∀ {j : Instr} {l : List Instr}, (s.proc p).code = j :: l → j = i ∧ l = rest := by
    intro j l hc'
    rw [hc] at hc'
    exact ⟨(List.cons.inj hc').1.symm, (List.cons.inj hc').2.symm⟩
  have other : ∀ {j : Instr} {l : List Instr}, (s.proc p).code = j :: l → j.onBuffer = false →
      False := by
    intro j l hc' hj
    rw [(head hc').1, hi] at hj
    cases hj
  cases step_moves hs with
  | exec j l c d _ hc' _ hd =>
    obtain ⟨rfl, rfl⟩ := head hc'
    exact ⟨d, hd, rfl⟩
  | wake hw =>
    obtain ⟨l, hc'⟩ := h.asleep p hw
    exact (other hc' rfl).elim
  | commits j l t _ hc' hj =>
    refine (other hc' ?_).elim
    cases j with
    | mark | bzero | bget | store | logWrite | bwrite | brelse | bfree => cases hj
    | _ => rfl
  | returns l _ hc' => exact (other hc' rfl).elim
  | calls l f _ hc' => exact (other hc' rfl).elim
  | finds l b _ hc' => exact (other hc' rfl).elim
  | waitCommit l _ hc' => exact (other hc' rfl).elim
  | waitSpace l _ hc' => exact (other hc' rfl).elim
  | begins l _ hc' => exact (other hc' rfl).elim
  | ends l _ hc' => exact (other hc' rfl).elim
  | endsLast l _ hc' => exact (other hc' rfl).elim

end Xv6Lab.Log
