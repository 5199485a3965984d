import Mathlib.Algebra.Order.BigOperators.Group.Finset
import Mathlib.Tactic.Ring
import Xv6Lab.Log.Steps

/-! The operations that a process has begun and not ended, read off the code it still has to run:
`outstanding` counts them. -/

namespace Xv6Lab.Log

variable {n : ℕ} {E : Env} {s t : Kernel n} {p : Fin n} {c : Choice} {i : Instr}
  {l l' rest : List Instr}

/-- How an instruction changes the number of operations still to end. -/
def Instr.depth : Instr → ℤ
  | .endOp => 1
  | .beginOp => -1
  | _ => 0

/-- The operations that the code ends without having begun them. -/
def depth (l : List Instr) : ℤ := (l.map Instr.depth).sum

@[simp] theorem depth_nil : depth [] = 0 := rfl

@[simp] theorem depth_cons (i : Instr) (l : List Instr) : depth (i :: l) = i.depth + depth l := by
  simp [depth]

@[simp] theorem depth_append (l l' : List Instr) : depth (l ++ l') = depth l + depth l' := by
  simp [depth]

theorem depth_flatMap {α : Type} (f : α → List Instr) (hf : ∀ x, depth (f x) = 0) (xs : List α) :
    depth (xs.flatMap f) = 0 := by
  induction xs with
  | nil => rfl
  | cons x xs ih => rw [List.flatMap_cons, depth_append, hf, ih, add_zero]

theorem depth_call (f : Call) : depth f.code = 0 := by
  cases f with
  | writePageToDisk b =>
    have hwrite : ∀ i, depth (writeBlock (b + i)) = 0 := fun i => rfl
    calc depth (writePageToDisk b)
        = depth transaction + depth ((List.range 8).flatMap fun i => writeBlock (b + i)) :=
          depth_append _ _
      _ = 0 := by rw [depth_flatMap _ hwrite]; rfl
  | _ => rfl

theorem depth_ballocFound (b : ℕ) : depth (ballocFound b) = 0 := rfl

/-- Wherever the code is entered, it ends at least what it begins. -/
def Closed : List Instr → Prop
  | [] => True
  | i :: l => 0 ≤ depth (i :: l) ∧ Closed l

theorem Closed.depth_nonneg (h : Closed l) : 0 ≤ depth l := by
  cases l with
  | nil => exact le_rfl
  | cons i l => exact h.1

theorem Closed.append (h : Closed l) (h' : Closed l') : Closed (l ++ l') := by
  induction l with
  | nil => exact h'
  | cons i l ih =>
    refine ⟨?_, ih h.2⟩
    have h1 := h.1
    have h2 := h'.depth_nonneg
    change 0 ≤ depth (i :: l ++ l')
    rw [depth_append]
    omega

theorem closed_flatMap {α : Type} (f : α → List Instr) (hf : ∀ x, Closed (f x)) (xs : List α) :
    Closed (xs.flatMap f) := by
  induction xs with
  | nil => trivial
  | cons x xs ih =>
    rw [List.flatMap_cons]
    exact (hf x).append ih

theorem closed_transaction : Closed transaction := by
  simp [Closed, transaction, Instr.depth]

theorem closed_call (f : Call) : Closed f.code := by
  cases f with
  | writePageToDisk b =>
    refine closed_transaction.append (closed_flatMap _ (fun i => ?_) _)
    simp [Closed, writeBlock, transaction, Instr.depth]
  | transaction => exact closed_transaction
  | _ => simp [Closed, Call.code, update, bmap, bfreePage, Instr.depth, List.range_succ]

theorem closed_ballocFound (b : ℕ) : Closed (ballocFound b) := by
  simp [Closed, ballocFound, Instr.depth]

/-- The operations that the process owns. -/
def Proc.ops (x : Proc) : ℤ := depth x.code

theorem Instr.depth_of_commits (h : i.commits = true) : i.depth = 0 := by
  cases i with
  | commit | writeLog | writeHead | installTrans | clearHead | endCommit => rfl
  | _ => cases h

theorem exec_depth {d : Disk n} (h : s.exec E p i c = some d) : i.depth = 0 := by
  cases i with
  | beginOp | endOp => cases c <;> cases h
  | _ => rfl

/-- A sum over the processes when one of them changes. -/
theorem sum_proc (f : Proc → ℤ) {x : Proc}
    (h : ∀ q, t.proc q = if q = p then x else s.proc q) :
    ∑ q, f (t.proc q) = ∑ q, f (s.proc q) - f (s.proc p) + f x := by
  have hs := Finset.add_sum_erase Finset.univ (fun q => f (s.proc q)) (Finset.mem_univ p)
  have ht := Finset.add_sum_erase Finset.univ (fun q => f (t.proc q)) (Finset.mem_univ p)
  have hrest : ∑ q ∈ Finset.univ.erase p, f (t.proc q) = ∑ q ∈ Finset.univ.erase p, f (s.proc q) := by
    refine Finset.sum_congr rfl fun q hq => ?_
    rw [h, if_neg (Finset.ne_of_mem_erase hq)]
  simp only [h p, if_true] at hs ht
  rw [hrest] at ht
  linarith

/-- The processes own the outstanding operations. -/
structure Owned (s : Kernel n) : Prop where
  closed : ∀ p, Closed (s.proc p).code
  total : ∑ p, (s.proc p).ops = s.outstanding

theorem Owned.nonneg (h : Owned s) (p : Fin n) : 0 ≤ (s.proc p).ops := (h.closed p).depth_nonneg

theorem boot_owned (disk : ℕ → Block) : Owned (boot n disk) where
  closed _ := ⟨le_rfl, trivial⟩
  total := Finset.sum_eq_zero fun _ _ => rfl

theorem Owned.wakeup (h : Owned s) : Owned s.wakeup where
  closed := h.closed
  total := h.total

/-- Process `p` goes on to other code, and its operations are counted. -/
theorem Owned.moved {w : Wait} (h : Owned s)
    (hproc : ∀ q, t.proc q = if q = p then ⟨l, w⟩ else s.proc q) (hl : Closed l)
    (hout : t.outstanding = s.outstanding + depth l - (s.proc p).ops) : Owned t := by
  constructor
  · intro q
    rw [hproc]
    by_cases hqp : q = p
    · rw [if_pos hqp]
      exact hl
    · rw [if_neg hqp]
      exact h.closed q
  · have hops : (Proc.ops ⟨l, w⟩) = depth l := rfl
    rw [sum_proc Proc.ops hproc, h.total, hout, hops]
    ring

/-- Whoever is to end an operation owns one. -/
theorem ops_pos_of_endOp (h : Owned s) (hc : (s.proc p).code = .endOp :: rest) :
    0 < (s.proc p).ops := by
  have hcl := h.closed p
  unfold Proc.ops
  rw [hc] at hcl ⊢
  have hrest := hcl.2.depth_nonneg
  rw [depth_cons]
  change 0 < 1 + depth rest
  linarith

theorem Owned.step (h : Owned s) (hs : Step E s (p, c) t) : Owned t := by
  have hops : ∀ {i : Instr} {rest : List Instr}, (s.proc p).code = i :: rest →
      (s.proc p).ops = i.depth + depth rest ∧ Closed rest := by
    intro i rest hc
    have hcl := h.closed p
    rw [hc] at hcl
    refine ⟨?_, hcl.2⟩
    unfold Proc.ops
    rw [hc, depth_cons]
  have stays : ∀ {w : Wait}, Owned (s.sleep p w) := by
    intro w
    refine h.moved (sleep_proc s p · w) (h.closed p) ?_
    unfold Proc.ops
    rw [sleep_toDisk]
    ring
  cases step_moves hs with
  | wake | waitCommit | waitSpace => exact stays
  | returns rest ha hc =>
    refine h.moved (goto_proc s p · rest) (hops hc).2 ?_
    have hi : Instr.work.depth = 0 := rfl
    rw [(hops hc).1, goto_toDisk, hi]
    ring
  | calls rest f ha hc =>
    refine h.moved (goto_proc s p · _) ((closed_call f).append ?_) ?_
    · rw [← hc]
      exact h.closed p
    · rw [depth_append, depth_call, ← hc, goto_toDisk, Proc.ops]
      ring
  | finds rest b ha hc =>
    refine h.moved (then_proc s p · _ _) ((closed_ballocFound b).append (hops hc).2) ?_
    have hi : Instr.balloc.depth = 0 := rfl
    rw [depth_append, depth_ballocFound, (hops hc).1, hi]
    change s.outstanding = _
    ring
  | exec i rest c d ha hc hi hd =>
    refine h.moved (then_proc s p · rest d) (hops hc).2 ?_
    rw [(hops hc).1, exec_depth hd, then_toDisk, (exec_some hd).outstanding]
    ring
  | begins rest ha hc =>
    refine h.moved (then_proc s p · rest _) (hops hc).2 ?_
    rw [(hops hc).1, Instr.depth]
    change s.outstanding + 1 = _
    ring
  | ends rest ha hc =>
    refine h.wakeup.moved (then_proc s.wakeup p · rest _) (hops hc).2 ?_
    change s.outstanding - 1 = s.outstanding + depth rest - (s.proc p).ops
    rw [(hops hc).1, Instr.depth]
    ring
  | endsLast rest ha hc hcom hlast =>
    refine h.moved (then_proc s p · _ _) ⟨?_, (hops hc).2⟩ ?_
    · exact add_nonneg le_rfl (hops hc).2.depth_nonneg
    · rw [(hops hc).1, hlast, depth_cons]
      change (0 : ℤ) = 1 + (0 + depth rest) - (1 + depth rest)
      ring
  | commits i rest t ha hc hi ht =>
    obtain rfl | ⟨j, d, rfl, hj, -, hout, -⟩ := (commit_commits ht).ends_or
    · refine h.wakeup.moved (then_proc s.wakeup p · rest _) (hops hc).2 ?_
      change s.outstanding = s.outstanding + depth rest - (s.proc p).ops
      rw [(hops hc).1, Instr.depth_of_commits hi]
      ring
    · refine h.moved (then_proc s p · _ d) ⟨?_, (hops hc).2⟩ ?_
      · rw [depth_cons, Instr.depth_of_commits hj]
        exact add_nonneg le_rfl (hops hc).2.depth_nonneg
      · rw [(hops hc).1, depth_cons, Instr.depth_of_commits hj, Instr.depth_of_commits hi,
          then_toDisk, hout]
        ring

/-- A commit that is under way has a process that runs it. -/
theorem committer_step (hsound : Sound s) (h : s.committing = true → ∃ q, s.Committer q)
    (hs : Step E s (p, c) t) (hcom : t.committing = true) : ∃ q, t.Committer q := by
  -- the committer keeps its code unless it is the one that steps
  have keeps : s.committing = true → (∀ i rest, (s.proc p).code = i :: rest → i.commits = false) →
      ∃ q, t.Committer q := by
    intro hc hnot
    obtain ⟨q, i, rest, hcq, hi⟩ := h hc
    have hqp : q ≠ p := by
      rintro rfl
      rw [hnot i rest hcq] at hi
      cases hi
    exact ⟨q, i, rest, by rw [step_code hs hqp, hcq], hi⟩
  have at_head : ∀ {j : Instr} {l : List Instr}, (s.proc p).code = j :: l → j.commits = false →
      ∀ i rest, (s.proc p).code = i :: rest → i.commits = false := by
    intro j l hc hj i rest hc'
    rw [hc] at hc'
    rwa [← (List.cons.inj hc').1]
  cases step_moves hs with
  | wake hw =>
    obtain ⟨rest, hc⟩ := hsound.asleep p hw
    exact keeps hcom (at_head hc rfl)
  | returns rest _ hc => exact keeps hcom (at_head hc rfl)
  | calls rest f _ hc => exact keeps hcom (at_head hc rfl)
  | finds rest b _ hc => exact keeps hcom (at_head hc rfl)
  | exec i rest c d _ hc hi hd =>
    exact keeps ((exec_some hd).committing ▸ hcom) (at_head hc hi)
  | waitCommit rest _ hc => exact keeps hcom (at_head hc rfl)
  | waitSpace rest _ hc => exact keeps hcom (at_head hc rfl)
  | begins rest _ hc => exact keeps hcom (at_head hc rfl)
  | ends rest _ hc => exact keeps hcom (at_head hc rfl)
  | endsLast rest =>
    refine ⟨p, .commit, rest, ?_, rfl⟩
    rw [then_proc, if_pos rfl]
  | commits i rest t _ _ _ ht =>
    obtain rfl | ⟨j, d, rfl, hj, -⟩ := (commit_commits ht).ends_or
    · cases hcom
    · refine ⟨p, j, rest, ?_, hj⟩
      rw [then_proc, if_pos rfl]

/-- In every run commits are exclusive: `committing` is set while one process commits, no operation
is open then, `outstanding` counts the open operations, and `end_op` does not panic. -/
theorem commit_exclusive (disk : ℕ → Block)
    (h : Lib.Run (Step E) (fun _ _ => True) (boot n disk) s) :
    (s.committing = true ↔ ∃! p, s.Committer p) ∧ ∑ p, (s.proc p).ops = s.outstanding ∧
      (s.committing = true → ∀ p, (s.proc p).ops = 0) ∧
      ∀ p rest, (s.proc p).code = .endOp :: rest → (s.endOp p rest).isSome = true := by
  have hinv := h.invariant
    (P := fun s => Sound s ∧ Owned s ∧ (s.committing = true → ∃ q, s.Committer q))
    ⟨boot_sound disk, boot_owned disk, fun hc => by cases hc⟩
    fun hs _ ht => ⟨hs.1.step ht, hs.2.1.step ht, committer_step hs.1 hs.2.2 ht⟩
  obtain ⟨hsound, ho, hcommitter⟩ := hinv
  have hops : s.committing = true → ∀ p, (s.proc p).ops = 0 := by
    intro hc p
    have htotal := ho.total
    rw [hsound.idle hc, Finset.sum_eq_zero_iff_of_nonneg fun q _ => ho.nonneg q] at htotal
    exact htotal p (Finset.mem_univ p)
  refine ⟨⟨fun hc => ?_, fun hp => ?_⟩, ho.total, hops, fun p rest hc => ?_⟩
  · obtain ⟨p, hp⟩ := hcommitter hc
    exact ⟨p, hp, fun q hq => hsound.one q p hq hp⟩
  · obtain ⟨p, hp, -⟩ := hp
    exact hsound.committing p hp
  · have hpos := ops_pos_of_endOp ho hc
    have hcom : s.committing = false := by
      by_contra hcom
      rw [hops (by simpa using hcom) p] at hpos
      exact lt_irrefl 0 hpos
    unfold Kernel.endOp
    rw [hcom]
    by_cases hlast : s.outstanding - 1 = 0
    · rw [if_neg (by simp), if_pos hlast]
      rfl
    · rw [if_neg (by simp), if_neg hlast]
      rfl

theorem commit_exclusive_one :
    let s := after smallDisk (boot 1 (inUse 80))
      (callBegin 0 ++ callUpdate 0 60 ++ callEnd 0 ++ List.replicate 4 (0, .go))
    s.committing = true ∧ ∃! p, s.Committer p := by
  intro s
  have hcom : s.committing = true := by decide +kernel
  let es : List (Fin 1 × Choice) :=
    callBegin 0 ++ callUpdate 0 60 ++ callEnd 0 ++ List.replicate 4 (0, .go)
  have hes : (es.foldlM (step smallDisk) (boot 1 (inUse 80))).isSome = true := by decide +kernel
  have h := commit_exclusive (inUse 80) ((Lib.Trace.of_isSome hes).run fun _ _ => trivial)
  exact ⟨hcom, h.1.1 hcom⟩

end Xv6Lab.Log
