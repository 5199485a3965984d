import Xv6Lab.Log.Space

/-! The buffers that a commit needs. `balloc` and `write_page_to_disk` keep a buffer locked across
`begin_op` and `end_op`, and the commit they wait for or run may have to read that very block. -/

namespace Xv6Lab.Log

open Lib

variable {n : ℕ} {E : Env} {s t : Kernel n} {p : Fin n} {c : Choice} {i : Instr}
  {l rest : List Instr}

/-- The process has locked the buffer of a block of the log. -/
def Disk.LocksLogged (s : Disk n) (p : Fin n) : Prop := ∃ b ∈ s.lh, s.holder b = some p

instance (s : Disk n) (p : Fin n) : Decidable (s.LocksLogged p) :=
  inferInstanceAs (Decidable (∃ b ∈ s.lh, s.holder b = some p))

/-- A commit whose blocks are locked by a process that waits for its end, or that runs it. -/
def Kernel.Blocked (s : Kernel n) : Prop :=
  s.committing = true ∧ ∃ p, s.LocksLogged p ∧ ((s.proc p).wait ≠ .awake ∨ s.Committer p)

/-- Whoever calls `begin_op` during a commit has locked no block of the log, and when the last
operation ends, neither has its process nor one asleep in `begin_op`. -/
structure Unlocked (s : Kernel n) (a : Fin n × Choice) : Prop where
  begins : (s.proc a.1).wait = .awake → (s.proc a.1).code.head? = some .beginOp →
    s.committing = true → ¬ s.LocksLogged a.1
  ends : (s.proc a.1).code.head? = some .endOp → s.outstanding = 1 →
    ∀ p, p = a.1 ∨ (s.proc p).wait ≠ .awake → ¬ s.LocksLogged p

instance (s : Kernel n) (a : Fin n × Choice) : Decidable (Unlocked s a) :=
  decidable_of_iff (_ ∧ _) ⟨fun h => ⟨h.1, h.2⟩, fun h => ⟨h.begins, h.ends⟩⟩

theorem boot_not_blocked (disk : ℕ → Block) : ¬ (boot n disk).Blocked := by
  intro h
  cases h.1

theorem not_blocked_of_idle (h : s.committing = false) : ¬ s.Blocked := by
  intro hb
  have hcom := hb.1
  rw [h] at hcom
  cases hcom

/-- Process `p` goes on to plain code, and only `p` gets locks. -/
theorem not_blocked_moved {w : Wait} (h : ¬ s.Blocked)
    (hproc : ∀ q, t.proc q = if q = p then ⟨l, w⟩ else s.proc q) (hl : Plain l)
    (hw : w ≠ .awake → ¬ t.LocksLogged p) (hcom : t.committing = s.committing)
    (hlocks : ∀ q, q ≠ p → s.committing = true → t.LocksLogged q → s.LocksLogged q) :
    ¬ t.Blocked := by
  rintro ⟨hc, q, hq, hwait⟩
  have hc' : s.committing = true := by rwa [← hcom]
  by_cases hqp : q = p
  · subst hqp
    have hself : t.proc q = ⟨l, w⟩ := by rw [hproc, if_pos rfl]
    rw [hself] at hwait
    obtain hwait | hrun := hwait
    · exact hw hwait hq
    · refine absurd hrun (Plain.not_committer ?_)
      rw [hself]
      exact hl
  · unfold Kernel.Committer at hwait
    rw [hproc, if_neg hqp] at hwait
    exact h ⟨hc', q, hlocks q hqp hc' hq, hwait⟩

theorem Executed.locksLogged {s d : Disk n} {q : Fin n} (h : Executed E s p i d) (hqp : q ≠ p)
    (hout : s.outstanding = 0) (hq : d.LocksLogged q) : s.LocksLogged q := by
  obtain ⟨b, hb, hholder⟩ := hq
  refine ⟨b, ?_, (h.holder b q hholder).resolve_right hqp⟩
  obtain hl | ⟨-, -, -, -, hpos⟩ := h.lh
  · rwa [← hl]
  · rw [hout] at hpos
    omega

theorem not_blocked_step (hsound : Sound s) (h : ¬ s.Blocked) (hg : Unlocked s (p, c))
    (hs : Step E s (p, c) t) : ¬ t.Blocked := by
  have awake : ∀ {w : Wait}, w = .awake → w ≠ .awake → ¬ t.LocksLogged p :=
    fun hw hw' => absurd hw hw'
  cases step_moves hs with
  | wake hw =>
    obtain ⟨rest, hc⟩ := hsound.asleep p hw
    refine not_blocked_moved h (sleep_proc s p · .awake) ?_ (awake rfl) rfl fun _ _ _ hq => hq
    rw [hc]
    exact hsound.plain hc rfl
  | returns rest ha hc =>
    exact not_blocked_moved h (goto_proc s p · rest) (hsound.tail p _ rest hc) (awake ha) rfl
      fun _ _ _ hq => hq
  | calls rest f ha hc =>
    exact not_blocked_moved h (goto_proc s p · _) (plain_append (plain_call f) (hsound.plain hc rfl))
      (awake ha) rfl fun _ _ _ hq => hq
  | finds rest b ha hc =>
    refine not_blocked_moved h (then_proc s p · _ _)
      (plain_append (plain_ballocFound b) (hsound.tail p _ rest hc)) (awake ha) rfl ?_
    rintro q hqp - ⟨x, hx, hq⟩
    exact ⟨x, hx, (lock_holder hq).resolve_right hqp⟩
  | exec i rest c d ha hc hi hd =>
    have hx := exec_some hd
    refine not_blocked_moved h (then_proc s p · rest d) (hsound.tail p i rest hc) (awake ha)
      hx.committing ?_
    exact fun q hqp hcom hq => hx.locksLogged hqp (hsound.idle hcom) hq
  | waitCommit rest ha hc hcom =>
    refine not_blocked_moved h (sleep_proc s p · .commit) ?_ ?_ rfl fun _ _ _ hq => hq
    · rw [hc]
      exact hsound.plain hc rfl
    · refine fun _ => hg.begins ha ?_ hcom
      rw [hc]
      rfl
  | waitSpace rest ha hc hcom => exact not_blocked_of_idle hcom
  | begins rest ha hc hcom => exact not_blocked_of_idle hcom
  | ends rest ha hc hcom => exact not_blocked_of_idle hcom
  | endsLast rest ha hc hcom hlast =>
    rintro ⟨-, q, hq, hwait⟩
    have hhead : (s.proc p).code.head? = some .endOp := by rw [hc]; rfl
    by_cases hqp : q = p
    · exact hg.ends hhead hlast q (.inl hqp) hq
    · unfold Kernel.Committer at hwait
      rw [then_proc, if_neg hqp] at hwait
      obtain hwait | hrun := hwait
      · exact hg.ends hhead hlast q (.inr hwait) hq
      · exact hsound.not_committer hcom hrun
  | commits i rest t ha hc hi ht =>
    obtain rfl | ⟨j, d, rfl, hj, hd, -, hholder, hl⟩ := (commit_commits ht).ends_or
    · exact not_blocked_of_idle rfl
    · rintro ⟨hcom, q, ⟨b, hb, hq⟩, hwait⟩
      rw [then_toDisk] at hcom hb hq
      have hlocks : s.LocksLogged q := by
        refine ⟨b, ?_, by rwa [← hholder]⟩
        obtain hl | hl := hl
        · rwa [← hl]
        · rw [hl] at hb
          cases hb
      refine h ⟨hd ▸ hcom, q, hlocks, ?_⟩
      by_cases hqp : q = p
      · rw [hqp]
        exact .inr ⟨i, rest, hc, hi⟩
      · unfold Kernel.Committer at hwait
        rwa [then_proc, if_neg hqp] at hwait

/-- What an awake process does at `begin_op`. -/
theorem step_beginOp (ha : (s.proc p).wait = .awake) (hc : (s.proc p).code = .beginOp :: rest)
    (hs : Step E s (p, c) t) : t = s.beginOp p rest := by
  unfold Step Log.step at hs
  cases c with
  | go =>
    simp only [if_pos ha, hc] at hs
    exact (Option.some.inj hs).symm
  | _ =>
    simp only [if_pos ha, hc] at hs
    cases hs

theorem step_endOp (ha : (s.proc p).wait = .awake) (hc : (s.proc p).code = .endOp :: rest)
    (hs : Step E s (p, c) t) : s.endOp p rest = some t := by
  unfold Step Log.step at hs
  cases c with
  | go =>
    simp only [if_pos ha, hc] at hs
    exact hs
  | _ =>
    simp only [if_pos ha, hc] at hs
    cases hs

/-- The condition is exact: after any other step the commit is blocked. -/
theorem blocked_of_not_unlocked (hsound : Sound s) (hg : ¬ Unlocked s (p, c))
    (hs : Step E s (p, c) t) : t.Blocked := by
  by_contra hb
  refine hg ⟨fun ha hhead hcom hlocks => hb ?_, fun hhead hlast q hq hlocks => hb ?_⟩
  · obtain ⟨rest, hc⟩ := List.head?_eq_some_iff.1 hhead
    have ht : t = s.sleep p .commit := by
      rw [step_beginOp ha hc hs]
      exact if_pos hcom
    rw [ht]
    refine ⟨hcom, p, hlocks, .inl ?_⟩
    rw [sleep_proc, if_pos rfl]
    simp
  · obtain ⟨rest, hc⟩ := List.head?_eq_some_iff.1 hhead
    have ha : (s.proc p).wait = .awake := by
      by_contra ha
      obtain ⟨rest', hc'⟩ := hsound.asleep p ha
      rw [hc] at hc'
      cases hc'
    have ht := step_endOp ha hc hs
    have hcom : s.committing = false := by
      by_contra hcom
      have hidle := hsound.idle (by simpa using hcom)
      omega
    unfold Kernel.endOp at ht
    rw [hcom, hlast] at ht
    cases ht
    refine ⟨rfl, q, hlocks, ?_⟩
    by_cases hqp : q = p
    · refine .inr ⟨.commit, rest, ?_, rfl⟩
      rw [then_proc, if_pos hqp]
    · left
      rw [then_proc, if_neg hqp]
      exact hq.resolve_left hqp

/-- Commits are not blocked in a run in which nobody comes to a commit with a locked block of the
log. -/
theorem commit_not_blocked (disk : ℕ → Block)
    (h : Run (Step E) Unlocked (boot n disk) s) : ¬ s.Blocked := by
  have hs : Sound s ∧ ¬ s.Blocked := by
    refine h.invariant (P := fun s => Sound s ∧ ¬ s.Blocked)
      ⟨boot_sound disk, boot_not_blocked disk⟩ ?_
    intro s t a hs hg ht
    exact ⟨hs.1.step ht, not_blocked_step hs.1 hs.2 hg ht⟩
  exact hs.2

/-- Process 1 waits for the commit of process 0. -/
theorem commit_not_blocked_two : ∃ s : Kernel 2,
    Run (Step smallDisk) Unlocked (boot 2 (inUse 80)) s ∧ s.committing = true ∧
      (s.proc 1).wait = .commit ∧ ¬ s.Blocked := by
  let es : List (Fin 2 × Choice) :=
    callBegin 0 ++ [(0, .call .balloc), (0, .pick 80)] ++ List.replicate 6 (0, .go) ++ callBegin 1
  obtain ⟨s, hs, hcom⟩ : ∃ s, es.foldlM (step smallDisk) (boot 2 (inUse 80)) = some s ∧
      (s.committing, (s.proc 1).wait) = (true, .commit) :=
    Option.map_eq_some_iff.1 (by decide +kernel : (es.foldlM (step smallDisk)
      (boot 2 (inUse 80))).map (fun s => (s.committing, (s.proc 1).wait)) = some (true, .commit))
  have hrun : Run (Step smallDisk) Unlocked (boot 2 (inUse 80)) s :=
    (Trace.of_trail hs).run (by decide +kernel)
  exact ⟨s, hrun, congrArg Prod.fst hcom, congrArg Prod.snd hcom, commit_not_blocked _ hrun⟩

/-- No state of a run has a blocked commit exactly if nobody comes to a commit with a locked block
of the log in its steps. -/
theorem not_blocked_iff_unlocked (disk : ℕ → Block) {l : List (Kernel n × (Fin n × Choice))}
    (h : Trace (Step E) (boot n disk) l s) :
    (∀ y ∈ l, ¬ y.1.Blocked) ∧ ¬ s.Blocked ↔ ∀ y ∈ l, Unlocked y.1 y.2 := by
  have hall : Sound s ∧ ((∀ y ∈ l, ¬ y.1.Blocked) ∧ ¬ s.Blocked ↔ ∀ y ∈ l, Unlocked y.1 y.2) := by
    refine h.history (P := fun l s => Sound s ∧
      ((∀ y ∈ l, ¬ y.1.Blocked) ∧ ¬ s.Blocked ↔ ∀ y ∈ l, Unlocked y.1 y.2)) ?_ ?_
    · exact ⟨boot_sound disk, by simp [boot_not_blocked disk]⟩
    · intro l s t a _ ih hs
      obtain ⟨hsound, ih⟩ := ih
      refine ⟨hsound.step hs, ?_⟩
      rw [List.forall_mem_append, List.forall_mem_append, List.forall_mem_singleton,
        List.forall_mem_singleton, ih]
      refine and_congr_right fun hl => ?_
      have hb : ¬ s.Blocked := (ih.2 hl).2
      constructor
      · intro ht
        by_contra hg
        exact ht (blocked_of_not_unlocked hsound hg hs)
      · exact fun hg => not_blocked_step hsound hb hg hs
  exact hall.2

/-- Process 0 allocates a block in a transaction. Process 1 allocates one outside of all
transactions and has locked the bitmap block when process 0 commits. -/
def blockedRun : List (Fin 2 × Choice) :=
  callBegin 0 ++ [(0, .call .balloc), (0, .pick 80)] ++ List.replicate 5 (0, .go) ++
    [(1, .call .balloc), (1, .pick 81), (0, .go), (1, .go)]

theorem commit_blocked : ¬ ∀ (n : ℕ) (E : Env) (disk : ℕ → Block)
    (l : List (Kernel n × (Fin n × Choice))) (s : Kernel n),
    Trace (Step E) (boot n disk) l s → ¬ s.Blocked := by
  intro h
  obtain ⟨s, hs, hobs⟩ : ∃ s, blockedRun.foldlM (step smallDisk) (boot 2 (inUse 80)) = some s ∧
      (s.committing, decide (s.LocksLogged 1), (s.proc 1).wait) = (true, true, .commit) :=
    Option.map_eq_some_iff.1 (by decide +kernel : (blockedRun.foldlM (step smallDisk)
      (boot 2 (inUse 80))).map
        (fun s => (s.committing, decide (s.LocksLogged 1), (s.proc 1).wait)) =
      some (true, true, .commit))
  simp only [Prod.mk.injEq, decide_eq_true_eq] at hobs
  refine h 2 smallDisk (inUse 80) _ s (Trace.of_trail hs) ⟨hobs.1, 1, hobs.2.1, .inl ?_⟩
  rw [hobs.2.2]
  simp

/-- Process 0 commits while process 1 waits, and in `blockedRun` it cannot. -/
theorem not_blocked_iff_unlocked_two :
    let s₀ := boot 2 (inUse 80)
    let es := callBegin 0 ++ [(0, .call .balloc), (0, .pick 80)] ++ List.replicate 6 (0, .go) ++
      callBegin 1 ++ List.replicate 8 (0, .go)
    let s := after smallDisk s₀ es
    let l := Trace.trail (step smallDisk) s₀ blockedRun
    let t := after smallDisk s₀ blockedRun
    s.disk 58 80 = true ∧ ¬ s.Blocked ∧ ¬ ((∀ y ∈ l, ¬ y.1.Blocked) ∧ ¬ t.Blocked) := by
  intro s₀ es s l t
  have hs : Trace (Step smallDisk) s₀ (Trace.trail (step smallDisk) s₀ es) s :=
    Trace.of_isSome (by decide +kernel)
  have ht : Trace (Step smallDisk) s₀ l t := Trace.of_isSome (by decide +kernel)
  have hl : ¬ ∀ y ∈ l, Unlocked y.1 y.2 := by decide +kernel
  refine ⟨by decide +kernel, ?_, fun hb => hl ((not_blocked_iff_unlocked _ ht).1 hb)⟩
  exact ((not_blocked_iff_unlocked _ hs).2 (by decide +kernel)).2

end Xv6Lab.Log
