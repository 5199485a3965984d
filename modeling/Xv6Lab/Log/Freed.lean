import Xv6Lab.Log.Buffers

/-! The bits of freed blocks. `bfree` writes the bitmap past the log, and a commit that has copied
the block of the bitmap before puts the old one back. -/

namespace Xv6Lab.Log

open Lib

variable {n : ℕ} {E : Env} {s t u : Kernel n} {p : Fin n} {c : Choice} {i : Instr}
  {l : List (Kernel n × (Fin n × Choice))} {rest : List Instr} {b x : ℕ}

def Instr.frees : Instr → Option ℕ
  | .bfree b => some b
  | _ => none

def Instr.allocates : Instr → Option ℕ
  | .mark b => some b
  | _ => none

/-- The step is the `bfree` of a block. -/
def Frees (x : ℕ) (a : Kernel n × (Fin n × Choice)) : Prop :=
  (a.1.proc a.2.1).code.head?.bind Instr.frees = some x

/-- In the step a `balloc` sets the bit of the block. -/
def Allocates (x : ℕ) (a : Kernel n × (Fin n × Choice)) : Prop :=
  (a.1.proc a.2.1).code.head?.bind Instr.allocates = some x

/-- The copy at index `j` of the log is still to be installed. -/
def Instr.pending : Instr → ℕ → Bool
  | .writeLog tail, j => j < tail
  | .writeHead, _ => true
  | .installTrans tail, j => tail ≤ j
  | _, _ => false

/-- A commit has copied the block into the log, and has not installed it yet. -/
def Kernel.Staged (s : Kernel n) (b : ℕ) : Prop :=
  ∃ q, ∃ i ∈ (s.proc q).code.head?, ∃ j < s.lh.length, i.pending j = true ∧ s.lh[j]? = some b

instance (s : Kernel n) (b : ℕ) : Decidable (s.Staged b) :=
  inferInstanceAs (Decidable (∃ q, ∃ i ∈ (s.proc q).code.head?, ∃ j < s.lh.length,
    i.pending j = true ∧ s.lh[j]? = some b))

/-- No block is freed between the two copies that a commit makes of its part of the bitmap. -/
def Unstaged (E : Env) (s : Kernel n) (a : Fin n × Choice) : Prop :=
  ∀ b ∈ (s.proc a.1).code.head?.bind Instr.frees, ¬ s.Staged (E.bblock b)

instance (E : Env) (s : Kernel n) (a : Fin n × Choice) : Decidable (Unstaged E s a) :=
  inferInstanceAs (Decidable (∀ b ∈ (s.proc a.1).code.head?.bind Instr.frees,
    ¬ s.Staged (E.bblock b)))

/-- A commit holds a copy, still to be installed, in which the bit of the block is set. -/
def Kernel.Stale (E : Env) (s : Kernel n) (x : ℕ) : Prop :=
  ∃ q, ∃ i ∈ (s.proc q).code.head?, ∃ j < s.lh.length, i.pending j = true ∧
    s.lh[j]? = some (E.bblock x) ∧ s.logged j (x % BPB) = true

instance (E : Env) (s : Kernel n) (x : ℕ) : Decidable (s.Stale E x) :=
  inferInstanceAs (Decidable (∃ q, ∃ i ∈ (s.proc q).code.head?, ∃ j < s.lh.length,
    i.pending j = true ∧ s.lh[j]? = some (E.bblock x) ∧ s.logged j (x % BPB) = true))

theorem Kernel.Stale.staged (h : s.Stale E x) : s.Staged (E.bblock x) := by
  obtain ⟨q, i, hi, j, hj, hp, hb, -⟩ := h
  exact ⟨q, i, hi, j, hj, hp, hb⟩

instance (x : ℕ) (a : Kernel n × (Fin n × Choice)) : Decidable (Frees x a) :=
  inferInstanceAs (Decidable (_ = _))

instance (x : ℕ) (a : Kernel n × (Fin n × Choice)) : Decidable (Allocates x a) :=
  inferInstanceAs (Decidable (_ = _))

/-! ### Bits -/

theorem eq_of_bblock (h : E.bblock x = E.bblock b) (h' : x % BPB = b % BPB) : x = b := by
  unfold Env.bblock at h
  have hdiv : x / BPB = b / BPB := Nat.add_right_cancel h
  rw [← Nat.div_add_mod x BPB, ← Nat.div_add_mod b BPB, hdiv, h']

theorem bblock_inBitmap (hx : x < E.size) : E.inBitmap (E.bblock x) := by
  unfold Env.inBitmap Env.bblock
  have hle : x / BPB ≤ E.size / BPB := Nat.div_le_div_right hx.le
  exact ⟨Nat.le_add_left _ _, by linarith⟩

theorem setBit_bit (s : Disk n) (b : ℕ) (v : Bool) :
    (s.setBit E b v).bit E x = if x = b then v else s.bit E x := by
  unfold Disk.setBit Disk.setData Disk.bit
  dsimp only
  by_cases hb : E.bblock x = E.bblock b
  · rw [hb, Function.update_self]
    by_cases hm : x % BPB = b % BPB
    · rw [hm, Function.update_self, if_pos (eq_of_bblock hb hm)]
    · rw [Function.update_of_ne hm, if_neg fun hxb => hm (by rw [hxb])]
  · rw [Function.update_of_ne hb, if_neg fun hxb => hb (by rw [hxb])]

theorem setData_bit (s : Disk n) {y : Block} (h : E.bblock x = b → y (x % BPB) = false)
    (hbit : s.bit E x = false) : (s.setData b y).bit E x = false := by
  unfold Disk.setData Disk.bit at *
  by_cases hb : E.bblock x = b
  · dsimp only
    rw [hb, Function.update_self]
    exact h hb
  · dsimp only
    rwa [Function.update_of_ne hb]

theorem flush_diskBit (s : Disk n) (hbit : s.bit E x = false) (hdisk : s.diskBit E x = false) :
    (s.flush b).diskBit E x = false := by
  unfold Disk.flush Disk.diskBit at *
  by_cases hb : E.bblock x = b
  · dsimp only
    rw [← hb, Function.update_self]
    exact hbit
  · dsimp only
    rwa [Function.update_of_ne hb]

theorem flush_diskBit_self (s : Disk n) : (s.flush (E.bblock x)).diskBit E x = s.bit E x := by
  unfold Disk.flush Disk.diskBit
  dsimp only
  rw [Function.update_self]
  rfl

/-- The bit of a block is clear in the buffer cache and on disk. -/
def Disk.Free (E : Env) (s : Disk n) (x : ℕ) : Prop := s.bit E x = false ∧ s.diskBit E x = false

theorem Disk.Free.logWrite {s d : Disk n} (h : s.Free E x) (hd : s.logWrite E b = some d) :
    d.Free E x := by
  obtain ⟨-, rfl⟩ := logWrite_some hd
  exact h

theorem exec_free {s d : Disk n} (hx : x < E.size) (h : s.Free E x)
    (hi : i.allocates ≠ some x) (hd : s.exec E p i c = some d) : d.Free E x := by
  have guard : ∀ {P : Prop} [Decidable P] {y : Disk n},
      (if P then some y else none) = some d → y = d := by
    intro P _ y hy
    split_ifs at hy
    exact Option.some.inj hy
  cases i with
  | mark b =>
    cases c with
    | go =>
      obtain ⟨d', hd', rfl⟩ := Option.map_eq_some_iff.1 hd
      change d'.Free E x
      refine Disk.Free.logWrite (s := s.setBit E b true) ⟨?_, h.2⟩ hd'
      have hxb : x ≠ b := fun hxb => hi (by rw [hxb]; rfl)
      rw [setBit_bit, if_neg hxb]
      exact h.1
    | _ => cases hd
  | bzero b =>
    cases c with
    | go =>
      simp only [Disk.exec] at hd
      split_ifs at hd
      exact Disk.Free.logWrite (s := s.setData b fun _ => false)
        ⟨setData_bit s (fun _ => rfl) h.1, h.2⟩ hd
    | _ => cases hd
  | bget b | brelse b =>
    cases c with
    | go =>
      rw [← guard hd]
      exact h
    | _ => cases hd
  | store b =>
    cases c with
    | data y =>
      simp only [Disk.exec] at hd
      split_ifs at hd with hb
      cases hd
      refine ⟨setData_bit s (fun hxb => ?_) h.1, h.2⟩
      rw [← hxb] at hb
      exact absurd (bblock_inBitmap hx) hb.2
    | _ => cases hd
  | logWrite b =>
    cases c with
    | go =>
      simp only [Disk.exec] at hd
      split_ifs at hd
      exact h.logWrite hd
    | _ => cases hd
  | bwrite b =>
    cases c with
    | go =>
      rw [← guard hd]
      exact ⟨h.1, flush_diskBit s h.1 h.2⟩
    | _ => cases hd
  | bfree b =>
    cases c with
    | go =>
      rw [← guard hd]
      have hbit : (s.setBit E b false).bit E x = false := by
        rw [setBit_bit]
        by_cases hxb : x = b
        · rw [if_pos hxb]
        · rw [if_neg hxb]
          exact h.1
      exact ⟨hbit, flush_diskBit _ hbit h.2⟩
    | _ => cases hd
  | _ => cases c <;> cases hd

theorem exec_bfree {s d : Disk n} (hd : s.exec E p (.bfree x) c = some d) :
    d = (s.setBit E x false).flush (E.bblock x) := by
  cases c with
  | go =>
    simp only [Disk.exec] at hd
    split_ifs at hd
    exact (Option.some.inj hd).symm
  | _ => cases hd

theorem bfree_free (s : Disk n) : ((s.setBit E x false).flush (E.bblock x)).Free E x := by
  have hbit : (s.setBit E x false).bit E x = false := by rw [setBit_bit, if_pos rfl]
  exact ⟨hbit, (flush_diskBit_self _).trans hbit⟩

/-! ### Copies -/

/-- The bit is clear, also in the copies that are still to be installed. -/
structure Clear (E : Env) (x : ℕ) (s : Kernel n) : Prop where
  free : s.Free E x
  copy : ∀ q i rest j, (s.proc q).code = i :: rest → i.pending j = true →
    s.lh[j]? = some (E.bblock x) → s.logged j (x % BPB) = false

theorem commits_of_pending {j : ℕ} (h : i.pending j = true) : i.commits = true := by
  cases i with
  | writeLog | writeHead | installTrans => rfl
  | _ => cases h

theorem not_pending_of_plain {l : List Instr} {j : ℕ} (h : Plain l) (hl : l = i :: rest) :
    i.pending j ≠ true := by
  subst hl
  intro hp
  have hi := h i (List.mem_cons_self ..)
  rw [commits_of_pending hp] at hi
  cases hi

/-- Process `p` goes on to plain code; a commit that is under way keeps its blocks. -/
theorem Clear.moved {l : List Instr} {w : Wait} (h : Clear E x s) (hsound : Sound s)
    (hproc : ∀ q, t.proc q = if q = p then ⟨l, w⟩ else s.proc q) (hl : Plain l)
    (hfree : t.Free E x) (hlh : s.committing = true → t.lh = s.lh) (hlog : t.logged = s.logged) :
    Clear E x t := by
  refine ⟨hfree, fun q i rest j hc hj hb => ?_⟩
  rw [hproc] at hc
  by_cases hqp : q = p
  · rw [if_pos hqp] at hc
    exact absurd hj (not_pending_of_plain hl hc)
  · rw [if_neg hqp] at hc
    have hcom := hsound.committing q ⟨i, rest, hc, commits_of_pending hj⟩
    rw [hlh hcom] at hb
    rw [hlog]
    exact h.copy q i rest j hc hj hb

/-- Process `p` goes on with `commit`, and no other process commits. -/
theorem clear_commits {k : Instr} {d : Disk n} (hothers : ∀ q, s.Committer q → q = p)
    (hfree : d.Free E x)
    (hcopy : ∀ j, k.pending j = true → d.lh[j]? = some (E.bblock x) →
      d.logged j (x % BPB) = false) : Clear E x (s.then p (k :: rest) d) := by
  refine ⟨hfree, fun q i l j hc hj hb => ?_⟩
  rw [then_proc] at hc
  by_cases hqp : q = p
  · rw [if_pos hqp] at hc
    cases hc
    exact hcopy j hj hb
  · rw [if_neg hqp] at hc
    exact absurd (hothers q ⟨i, l, hc, commits_of_pending hj⟩) hqp

theorem Clear.commits (h : Clear E x s) (hsound : Sound s)
    (hc : (s.proc p).code = i :: rest) (hi : i.commits = true) (ht : Commits s p rest i t) :
    Clear E x t := by
  have hothers : ∀ q, s.Committer q → q = p := fun q hq => hsound.one q p hq ⟨i, rest, hc, hi⟩
  have hcopy := fun j => h.copy p i rest j hc
  cases ht with
  | starts | skips | installed =>
    refine clear_commits (d := s.toDisk) hothers h.free fun j hj => ?_
    simp [Instr.pending] at hj
  | copied tail hend =>
    refine clear_commits (d := s.toDisk) hothers h.free fun j _ hb => hcopy j ?_ hb
    have hlen := List.getElem?_eq_none_iff.1 hend
    have hj := (List.getElem?_eq_some_iff.1 hb).1
    simp only [Instr.pending, decide_eq_true_eq]
    omega
  | copies tail b hb hh =>
    refine clear_commits hothers h.free fun j hj hjb => ?_
    simp only [Instr.pending, decide_eq_true_eq] at hj
    dsimp only at hjb ⊢
    by_cases hjt : j = tail
    · subst hjt
      rw [hb] at hjb
      rw [Function.update_self, Option.some.inj hjb]
      exact h.free.1
    · rw [Function.update_of_ne hjt]
      refine hcopy j ?_ hjb
      simp only [Instr.pending, decide_eq_true_eq]
      omega
  | header => exact clear_commits hothers h.free fun j _ hb => hcopy j rfl hb
  | installs tail b hb hh =>
    have hbit : (s.setData b (s.logged tail)).bit E x = false := by
      refine setData_bit s.toDisk (fun hxb => hcopy tail ?_ ?_) h.free.1
      · simp [Instr.pending]
      · rw [hb, hxb]
    refine clear_commits hothers ⟨hbit, flush_diskBit _ hbit h.free.2⟩ fun j hj hjb => ?_
    refine hcopy j ?_ hjb
    simp only [Instr.pending, decide_eq_true_eq] at hj ⊢
    omega
  | clears =>
    refine clear_commits hothers h.free fun j hj => ?_
    simp [Instr.pending] at hj
  | ends =>
    refine ⟨h.free, fun q i l j hcq hj hb => ?_⟩
    rw [then_proc, wakeup_proc, wakeup_proc] at hcq
    by_cases hqp : q = p
    · rw [if_pos hqp] at hcq
      exact absurd hj (not_pending_of_plain (hsound.tail p _ rest hc) hcq)
    · rw [if_neg hqp] at hcq
      exact absurd (hothers q ⟨i, l, hcq, commits_of_pending hj⟩) hqp

/-- What is clear stays clear unless a `balloc` sets it. -/
theorem Clear.step (h : Clear E x s) (hsound : Sound s) (hx : x < E.size)
    (ha : ¬ Allocates x (s, (p, c))) (hs : Step E s (p, c) t) : Clear E x t := by
  have goes : ∀ {i : Instr} {rest l : List Instr} {d : Disk n}, (s.proc p).code = i :: rest →
      Plain l → d.Free E x → (s.committing = true → d.lh = s.lh) → d.logged = s.logged →
      Clear E x (s.then p l d) := by
    intro i rest l d hc hl hfree hlh hlog
    exact h.moved hsound (then_proc s p · l d) hl hfree hlh hlog
  have sleeps : ∀ {w : Wait} {i : Instr} {rest : List Instr}, (s.proc p).code = i :: rest →
      i.commits = false → Clear E x (s.sleep p w) := by
    intro w i rest hc hi
    refine h.moved hsound (sleep_proc s p · w) ?_ h.free (fun _ => rfl) rfl
    rw [hc]
    exact hsound.plain hc hi
  cases step_moves hs with
  | wake hw =>
    obtain ⟨rest, hc⟩ := hsound.asleep p hw
    exact sleeps hc rfl
  | returns rest _ hc => exact goes hc (hsound.tail p _ rest hc) h.free (fun _ => rfl) rfl
  | calls rest f _ hc =>
    exact goes hc (plain_append (plain_call f) (hsound.plain hc rfl)) h.free (fun _ => rfl) rfl
  | finds rest b _ hc =>
    exact goes hc (plain_append (plain_ballocFound b) (hsound.tail p _ rest hc)) h.free
      (fun _ => rfl) rfl
  | exec i rest c d _ hc hi hd =>
    have hx' := exec_some hd
    refine goes hc (hsound.tail p i rest hc) (exec_free hx h.free (fun hal => ha ?_) hd) ?_ hx'.logged
    · unfold Allocates
      rw [hc]
      exact hal
    · intro hcom
      obtain hl | ⟨-, -, -, -, hout⟩ := hx'.lh
      · exact hl
      · rw [hsound.idle hcom] at hout
        omega
  | waitCommit rest _ hc => exact sleeps hc rfl
  | waitSpace rest _ hc => exact sleeps hc rfl
  | begins rest _ hc => exact goes hc (hsound.tail p _ rest hc) h.free (fun _ => rfl) rfl
  | ends rest _ hc =>
    have hw : Clear E x s.wakeup := ⟨h.free, h.copy⟩
    exact hw.moved hsound.wakeup (then_proc s.wakeup p · rest _) (hsound.tail p _ rest hc) h.free
      (fun _ => rfl) rfl
  | endsLast rest _ hc hcom =>
    refine clear_commits (fun q hq => absurd hq (hsound.not_committer hcom)) h.free fun j hj => ?_
    cases hj
  | commits i rest t _ hc hi ht => exact h.commits hsound hc hi (commit_commits ht)

theorem eq_bfree (h : i.frees = some x) : i = .bfree x := by
  cases i with
  | bfree b => rw [Option.some.inj h]
  | _ => cases h

/-- A block is clear when it is freed while no commit holds a copy with its bit set. -/
theorem clear_of_frees (hsound : Sound s) (hf : Frees x (s, (p, c))) (hg : ¬ s.Stale E x)
    (hs : Step E s (p, c) t) : Clear E x t := by
  obtain ⟨i, hi, hix⟩ := Option.bind_eq_some_iff.1 hf
  obtain ⟨rest, hc⟩ := List.head?_eq_some_iff.1 hi
  obtain rfl := eq_bfree hix
  obtain ⟨d, hd, rfl⟩ := hsound.step_exec hc rfl hs
  obtain rfl := exec_bfree hd
  refine ⟨bfree_free s.toDisk, fun q j l k hcq hk hb => ?_⟩
  rw [then_proc] at hcq
  by_cases hqp : q = p
  · rw [if_pos hqp] at hcq
    exact absurd hk (not_pending_of_plain (hsound.tail p _ rest hc) hcq)
  · rw [if_neg hqp] at hcq
    by_contra hset
    refine hg ⟨q, j, ?_, k, (List.getElem?_eq_some_iff.1 hb).1, hk, hb, ?_⟩
    · rw [hcq]
      rfl
    · exact (Bool.eq_false_or_eq_true _).resolve_right hset

/-- A block is clear after its last `bfree` until a `balloc` sets its bit. -/
theorem clear_since {s₀ : Kernel n} (h₀ : Sound s₀) (hx : x < E.size) (h : Trace (Step E) s₀ l s)
    (hg : ∀ y ∈ l, Frees x y → ¬ y.1.Stale E x) (hf : Since (Frees x) (Allocates x) l) :
    Clear E x s := by
  have hall : (∀ y ∈ l, Frees x y → ¬ y.1.Stale E x) →
      Sound s ∧ (Since (Frees x) (Allocates x) l → Clear E x s) := by
    refine h.history (P := fun l s => (∀ y ∈ l, Frees x y → ¬ y.1.Stale E x) →
      Sound s ∧ (Since (Frees x) (Allocates x) l → Clear E x s)) ?_ ?_
    · exact fun _ => ⟨h₀, fun hs => absurd hs (not_since_nil _ _)⟩
    · intro l s t a _ ih hs hg
      rw [List.forall_mem_append, List.forall_mem_singleton] at hg
      obtain ⟨hsound, hclear⟩ := ih hg.1
      refine ⟨hsound.step hs, fun hf => ?_⟩
      obtain hf | ⟨hf, ha⟩ := since_snoc.1 hf
      · exact clear_of_frees hsound hf (hg.2 hf) hs
      · exact (hclear hf).step hsound hx ha hs
  exact (hall hg).2 hf

/-- The process is on its way through the calls of `bfree` for some blocks, or has come past them,
and the steps so far have freed those that it has left behind. -/
def Freeing (p : Fin n) (bs : List ℕ) (rest : List Instr) (l : List (Kernel n × (Fin n × Choice)))
    (t : Kernel n) : Prop :=
  (∃ done todo, bs = done ++ todo ∧ todo ≠ [] ∧ (t.proc p).code = todo.map .bfree ++ rest ∧
    ∀ b ∈ done, ∃ y ∈ l, Frees b y) ∨ ∀ b ∈ bs, ∃ y ∈ l, Frees b y

theorem Freeing.step {bs : List ℕ} (hsound : Sound s) (h : Freeing p bs rest l s)
    {a : Fin n × Choice} (hs : Step E s a t) : Freeing p bs rest (l ++ [(s, a)]) t := by
  have later : ∀ {b}, (∃ y ∈ l, Frees b y) → ∃ y ∈ l ++ [(s, a)], Frees b y := by
    intro b hb
    obtain ⟨y, hy, hfrees⟩ := hb
    exact ⟨y, List.mem_append_left _ hy, hfrees⟩
  obtain ⟨done, todo, rfl, hne, hcode, hdone⟩ | hall := h
  · by_cases hap : p = a.1
    · subst hap
      cases todo with
      | nil => exact absurd rfl hne
      | cons x todo =>
        obtain ⟨d, -, rfl⟩ := hsound.step_exec hcode rfl hs
        have hdone' : ∀ b ∈ done ++ [x], ∃ y ∈ l ++ [(s, a)], Frees b y := by
          intro b hb
          obtain hb | hb := List.mem_append.1 hb
          · exact later (hdone b hb)
          · refine ⟨(s, a), List.mem_append_right _ (List.mem_singleton_self _), ?_⟩
            unfold Frees
            rw [hcode, List.mem_singleton.1 hb]
            rfl
        by_cases htodo : todo = []
        · subst htodo
          exact .inr hdone'
        · refine .inl ⟨done ++ [x], todo, by simp, htodo, ?_, hdone'⟩
          rw [then_proc, if_pos rfl]
          rfl
    · refine .inl ⟨done, todo, rfl, hne, ?_, fun b hb => later (hdone b hb)⟩
      rw [step_code hs hap]
      exact hcode
  · exact .inr fun b hb => later (hall b hb)

/-- A process that has come past the calls of `bfree` for some blocks has freed them all. -/
theorem frees_of_return {bs : List ℕ} (hsound : Sound s) (h : Trace (Step E) s l t)
    (hcall : (s.proc p).code = bs.map .bfree ++ rest) (hret : (t.proc p).code = rest)
    (hb : b ∈ bs) : ∃ y ∈ l, Frees b y := by
  have hrun : Sound t ∧ Freeing p bs rest l t := by
    refine h.history (P := fun l t => Sound t ∧ Freeing p bs rest l t) ?_ ?_
    · exact ⟨hsound, .inl ⟨[], bs, rfl, List.ne_nil_of_mem hb, hcall, by simp⟩⟩
    · exact fun _ ih hs => ⟨ih.1.step hs, ih.2.step ih.1 hs⟩
  obtain ⟨done, todo, -, hne, hcode, -⟩ | hall := hrun.2
  · rw [hret] at hcode
    have hlen := congrArg List.length hcode
    rw [List.length_append, List.length_map] at hlen
    exact absurd (List.length_eq_zero_iff.1 (by omega)) hne
  · exact hall b hb

/-- A block of a page is clear once `bfree_page` has returned, as long as no `balloc` sets its bit
again. -/
theorem clear_of_return (hsound : Sound s) {l' : List (Kernel n × (Fin n × Choice))} {k : ℕ}
    (hb : b + 7 < E.size) (hcall : (s.proc p).code = bfreePage b ++ rest)
    (h : Trace (Step E) s l t) (hret : (t.proc p).code = rest) (h' : Trace (Step E) t l' u)
    (hk : k < 8) (hg : ∀ y ∈ l ++ l', Frees (b + k) y → ¬ y.1.Stale E (b + k))
    (hnot : ¬ Since (Allocates (b + k)) (Frees (b + k)) (l ++ l')) : Clear E (b + k) u := by
  have hcall' : (s.proc p).code = ((List.range 8).map (b + ·)).map .bfree ++ rest := by
    rw [hcall, List.map_map]
    rfl
  obtain ⟨y, hy, hfrees⟩ := frees_of_return hsound h hcall' hret
    (List.mem_map.2 ⟨k, List.mem_range.2 hk, rfl⟩)
  have hsince := since_of_mem ⟨y, List.mem_append_left l' hy, hfrees⟩ hnot
  exact clear_since hsound (by omega) (h.append h') hg hsince

/-- A page of blocks that `bfree_page` has freed stays free, in the buffer cache and on disk, as
long as no `balloc` sets a bit again, in a run in which no block is freed while a commit holds a
copy of its part of the bitmap. -/
theorem freed_page_stays_free (disk : ℕ → Block) {l₁ l₂ l₃ : List (Kernel n × (Fin n × Choice))}
    {s₁ s₂ s₃ : Kernel n} {k : ℕ} (hb : b + 7 < E.size)
    (h₁ : Trace (Step E) (boot n disk) l₁ s₁) (hcall : (s₁.proc p).code = bfreePage b ++ rest)
    (h₂ : Trace (Step E) s₁ l₂ s₂) (hret : (s₂.proc p).code = rest)
    (h₃ : Trace (Step E) s₂ l₃ s₃) (hg : ∀ y ∈ l₁ ++ (l₂ ++ l₃), Unstaged E y.1 y.2) (hk : k < 8)
    (hnot : ¬ Since (Allocates (b + k)) (Frees (b + k)) (l₂ ++ l₃)) :
    s₃.bit E (b + k) = false ∧ s₃.diskBit E (b + k) = false := by
  have hsound : Sound s₁ := h₁.invariant (boot_sound disk) fun hs ht => hs.step ht
  have hfresh : ∀ y ∈ l₂ ++ l₃, Frees (b + k) y → ¬ y.1.Stale E (b + k) := by
    intro y hy hf hst
    exact hg y (List.mem_append_right _ hy) (b + k) hf hst.staged
  exact (clear_of_return hsound hb hcall h₂ hret h₃ hk hfresh hnot).free

theorem freed_page_stays_free_two :
    let s₀ := boot 2 (inUse 80)
    let s₁ := after smallDisk s₀ (callBegin 0 ++ [(0, .call .balloc), (0, .pick 80)] ++
      List.replicate 4 (0, .go) ++ [(1, .call (.bfreePage 64))])
    let s₂ := after smallDisk s₁ (List.replicate 8 (1, .go))
    let s₃ := after smallDisk s₂ (List.replicate 12 (0, .go))
    s₃.lh = [] ∧ s₃.disk 58 80 = true ∧ s₃.bit smallDisk 67 = false ∧
      s₃.diskBit smallDisk 67 = false := by
  intro s₀ s₁ s₂ s₃
  have h₁ : Trace (Step smallDisk) s₀ (Trace.trail (step smallDisk) s₀ (callBegin 0 ++
      [(0, .call .balloc), (0, .pick 80)] ++ List.replicate 4 (0, .go) ++
      [(1, .call (.bfreePage 64))])) s₁ := Trace.of_isSome (by decide +kernel)
  have h₂ : Trace (Step smallDisk) s₁ (Trace.trail (step smallDisk) s₁
      (List.replicate 8 (1, .go))) s₂ := Trace.of_isSome (by decide +kernel)
  have h₃ : Trace (Step smallDisk) s₂ (Trace.trail (step smallDisk) s₂
      (List.replicate 12 (0, .go))) s₃ := Trace.of_isSome (by decide +kernel)
  have hcall : (s₁.proc 1).code = bfreePage 64 ++ [.work] := by decide +kernel
  refine ⟨by decide +kernel, by decide +kernel,
    freed_page_stays_free (k := 3) (inUse 80) (by decide) h₁ hcall h₂ (by decide +kernel) h₃
      (by decide +kernel) (by decide) (not_since_of_forall (by decide +kernel))⟩

/-- The blocks of a page that `bfree_page` has freed stay free until a `balloc` sets their bits,
unless one of them is freed while a commit holds a copy with its bit set. -/
theorem freed_bits_stay_clear (disk : ℕ → Block)
    {l₁ l₂ l₃ : List (Kernel n × (Fin n × Choice))} {s₁ s₂ s₃ : Kernel n} {k : ℕ}
    (hb : b + 7 < E.size) (h₁ : Trace (Step E) (boot n disk) l₁ s₁)
    (hcall : (s₁.proc p).code = bfreePage b ++ rest) (h₂ : Trace (Step E) s₁ l₂ s₂)
    (hret : (s₂.proc p).code = rest) (h₃ : Trace (Step E) s₂ l₃ s₃) (hk : k < 8)
    (hg : ∀ y ∈ l₂ ++ l₃, Frees (b + k) y → ¬ y.1.Stale E (b + k))
    (hnot : ¬ Since (Allocates (b + k)) (Frees (b + k)) (l₂ ++ l₃)) :
    s₃.bit E (b + k) = false ∧ s₃.diskBit E (b + k) = false := by
  have hsound : Sound s₁ := h₁.invariant (boot_sound disk) fun hs ht => hs.step ht
  exact (clear_of_return hsound hb hcall h₂ hret h₃ hk hg hnot).free

/-- Process 1 frees a page between the start of a commit and its copy of the bitmap block. -/
theorem freed_bits_stay_clear_two :
    let s₀ := boot 2 (inUse 80)
    let s₁ := after smallDisk s₀ (callBegin 0 ++ [(0, .call .balloc), (0, .pick 80)] ++
      List.replicate 7 (0, .go) ++ [(1, .call (.bfreePage 64))])
    let s₂ := after smallDisk s₁ (List.replicate 8 (1, .go))
    let s₃ := after smallDisk s₂ (List.replicate 9 (0, .go))
    s₁.committing = true ∧ s₃.committing = false ∧ s₃.bit smallDisk 67 = false ∧
      s₃.diskBit smallDisk 67 = false := by
  intro s₀ s₁ s₂ s₃
  have h₁ : Trace (Step smallDisk) s₀ (Trace.trail (step smallDisk) s₀ (callBegin 0 ++
      [(0, .call .balloc), (0, .pick 80)] ++ List.replicate 7 (0, .go) ++
      [(1, .call (.bfreePage 64))])) s₁ := Trace.of_isSome (by decide +kernel)
  have h₂ : Trace (Step smallDisk) s₁ (Trace.trail (step smallDisk) s₁
      (List.replicate 8 (1, .go))) s₂ := Trace.of_isSome (by decide +kernel)
  have h₃ : Trace (Step smallDisk) s₂ (Trace.trail (step smallDisk) s₂
      (List.replicate 9 (0, .go))) s₃ := Trace.of_isSome (by decide +kernel)
  have hcall : (s₁.proc 1).code = bfreePage 64 ++ [.work] := by decide +kernel
  refine ⟨by decide +kernel, by decide +kernel,
    freed_bits_stay_clear (k := 3) (inUse 80) (by decide) h₁ hcall h₂ (by decide +kernel) h₃
      (by decide) (by decide +kernel) (not_since_of_forall (by decide +kernel))⟩

/-- Process 1 frees a page after process 0 has copied the bitmap block into the log, and the copy
sets the bits again. -/
theorem freed_bits_set_again : ¬ ∀ (n : ℕ) (E : Env) (disk : ℕ → Block)
    (l₁ l₂ l₃ : List (Kernel n × (Fin n × Choice))) (s₁ s₂ s₃ : Kernel n) (p : Fin n)
    (rest : List Instr) (b k : ℕ), b + 7 < E.size → Trace (Step E) (boot n disk) l₁ s₁ →
    (s₁.proc p).code = bfreePage b ++ rest → Trace (Step E) s₁ l₂ s₂ → (s₂.proc p).code = rest →
    Trace (Step E) s₂ l₃ s₃ → k < 8 → ¬ Since (Allocates (b + k)) (Frees (b + k)) (l₂ ++ l₃) →
    s₃.bit E (b + k) = false ∧ s₃.diskBit E (b + k) = false := by
  intro h
  let s₀ := boot 2 (inUse 80)
  let s₁ := after smallDisk s₀ (callBegin 0 ++ [(0, .call .balloc), (0, .pick 80)] ++
    List.replicate 8 (0, .go) ++ [(1, .call (.bfreePage 64))])
  let s₂ := after smallDisk s₁ (List.replicate 8 (1, .go))
  let s₃ := after smallDisk s₂ (List.replicate 4 (0, .go))
  have h₁ : Trace (Step smallDisk) s₀ (Trace.trail (step smallDisk) s₀ (callBegin 0 ++
      [(0, .call .balloc), (0, .pick 80)] ++ List.replicate 8 (0, .go) ++
      [(1, .call (.bfreePage 64))])) s₁ := Trace.of_isSome (by decide +kernel)
  have h₂ : Trace (Step smallDisk) s₁ (Trace.trail (step smallDisk) s₁
      (List.replicate 8 (1, .go))) s₂ := Trace.of_isSome (by decide +kernel)
  have h₃ : Trace (Step smallDisk) s₂ (Trace.trail (step smallDisk) s₂
      (List.replicate 4 (0, .go))) s₃ := Trace.of_isSome (by decide +kernel)
  have hcall : (s₁.proc 1).code = bfreePage 64 ++ [.work] := by decide +kernel
  have hset : s₃.bit smallDisk 67 = true := by decide +kernel
  have hclear := h 2 smallDisk (inUse 80) _ _ _ s₁ s₂ s₃ 1 [.work] 64 3 (by decide) h₁ hcall h₂
    (by decide +kernel) h₃ (by decide) (not_since_of_forall (by decide +kernel))
  rw [hset] at hclear
  cases hclear.1

/-! ### Copies with the bit set -/

theorem not_stale_of_idle (hsound : Sound s) (hcom : s.committing = false) : ¬ s.Stale E x := by
  rintro ⟨q, i, hi, j, -, hp, -⟩
  obtain ⟨rest, hq⟩ := List.head?_eq_some_iff.1 hi
  exact hsound.not_committer hcom ⟨i, rest, hq, commits_of_pending hp⟩

/-- Steps of the other processes leave a copy as it is. -/
theorem Kernel.Stale.moved {l : List Instr} {w : Wait} (h : s.Stale E x) (hsound : Sound s)
    (hc : (s.proc p).code = i :: rest) (hi : i.commits = false)
    (hproc : ∀ q, t.proc q = if q = p then ⟨l, w⟩ else s.proc q)
    (hlh : s.committing = true → t.lh = s.lh) (hlog : t.logged = s.logged) : t.Stale E x := by
  obtain ⟨q, j, hj, k, hk, hp, hb, hset⟩ := h
  obtain ⟨rest', hq⟩ := List.head?_eq_some_iff.1 hj
  have hcom : s.committing = true := hsound.committing q ⟨j, rest', hq, commits_of_pending hp⟩
  have hqp : q ≠ p := by
    intro hqp
    rw [hqp, hc] at hq
    cases hq
    rw [commits_of_pending hp] at hi
    cases hi
  refine ⟨q, j, ?_, k, ?_, hp, ?_, ?_⟩
  · rwa [hproc, if_neg hqp]
  · rwa [hlh hcom]
  · rwa [hlh hcom]
  · rwa [hlog]

theorem Kernel.Stale.commits (h : s.Stale E x) (hsound : Sound s)
    (hc : (s.proc p).code = i :: rest) (hi : i.commits = true) (ht : Commits s p rest i t) :
    t.Stale E x ∨ t.bit E x = true ∧ t.diskBit E x = true := by
  obtain ⟨q, j, hj, k, hk, hp, hb, hset⟩ := h
  obtain ⟨rest', hq⟩ := List.head?_eq_some_iff.1 hj
  obtain rfl := hsound.one q p ⟨j, rest', hq, commits_of_pending hp⟩ ⟨i, rest, hc, hi⟩
  rw [hc] at hq
  cases hq
  have goes : ∀ {m : Instr} {d : Disk n}, d.lh = s.lh → m.pending k = true →
      d.logged k = s.logged k → (s.then q (m :: rest) d).Stale E x := by
    intro m d hlh hm hlog
    refine ⟨q, m, ?_, k, ?_, hm, ?_, ?_⟩
    · rw [then_proc, if_pos rfl]
      rfl
    · rwa [then_toDisk, hlh]
    · rwa [then_toDisk, hlh]
    · rwa [then_toDisk, hlog]
  cases ht with
  | starts | skips | clears | ends => cases hp
  | copied => exact .inl (goes (d := s.toDisk) rfl rfl rfl)
  | header => 
    refine .inl (goes rfl ?_ rfl)
    simp [Instr.pending]
  | copies tail b hbt =>
    simp only [Instr.pending, decide_eq_true_eq] at hp
    refine .inl (goes rfl ?_ (Function.update_of_ne hp.ne ..))
    simp only [Instr.pending, decide_eq_true_eq]
    omega
  | installed tail hend =>
    simp only [Instr.pending, decide_eq_true_eq] at hp
    have hlen := List.getElem?_eq_none_iff.1 hend
    omega
  | installs tail b hbt =>
    simp only [Instr.pending, decide_eq_true_eq] at hp
    by_cases hkt : tail = k
    · subst hkt
      rw [hb] at hbt
      cases hbt
      have hbit : (s.setData (E.bblock x) (s.logged tail)).bit E x = true := by
        unfold Disk.setData Disk.bit
        dsimp only
        rw [Function.update_self]
        exact hset
      exact .inr ⟨hbit, (flush_diskBit_self _).trans hbit⟩
    · refine .inl (goes rfl ?_ rfl)
      simp only [Instr.pending, decide_eq_true_eq]
      omega

/-- A copy with the bit set stays until the commit sets the bit again. -/
theorem Kernel.Stale.step (h : s.Stale E x) (hsound : Sound s) (hs : Step E s (p, c) t) :
    t.Stale E x ∨ t.bit E x = true ∧ t.diskBit E x = true := by
  cases step_moves hs with
  | wake hw =>
    obtain ⟨rest, hc⟩ := hsound.asleep p hw
    exact .inl (h.moved hsound hc rfl (sleep_proc s p · .awake) (fun _ => rfl) rfl)
  | returns rest _ hc =>
    exact .inl (h.moved hsound hc rfl (goto_proc s p · _) (fun _ => rfl) rfl)
  | calls rest f _ hc =>
    exact .inl (h.moved hsound hc rfl (goto_proc s p · _) (fun _ => rfl) rfl)
  | finds rest b _ hc =>
    exact .inl (h.moved hsound hc rfl (then_proc s p · _ _) (fun _ => rfl) rfl)
  | exec i rest c d _ hc hi hd =>
    have hx := exec_some hd
    refine .inl (h.moved hsound hc hi (then_proc s p · rest d) (fun hcom => ?_) hx.logged)
    obtain hl | ⟨-, -, -, -, hout⟩ := hx.lh
    · exact hl
    · rw [hsound.idle hcom] at hout
      omega
  | waitCommit rest _ hc =>
    exact .inl (h.moved hsound hc rfl (sleep_proc s p · .commit) (fun _ => rfl) rfl)
  | waitSpace rest _ hc =>
    exact .inl (h.moved hsound hc rfl (sleep_proc s p · .space) (fun _ => rfl) rfl)
  | begins rest _ hc =>
    exact .inl (h.moved hsound hc rfl (then_proc s p · _ _) (fun _ => rfl) rfl)
  | ends rest _ hc hcom | endsLast rest _ hc hcom =>
    exact absurd h (not_stale_of_idle hsound hcom)
  | commits i rest t _ hc hi ht => exact h.commits hsound hc hi (commit_commits ht)

/-- A block that is freed stays free to the end of the commit, if one is under way, exactly if the
commit holds no copy with its bit set. -/
theorem bfree_lasts_iff (disk : ℕ → Block) {l₁ : List (Kernel n × (Fin n × Choice))}
    (hx : x < E.size) (h₁ : Trace (Step E) (boot n disk) l₁ s) (hf : Frees x (s, (p, c)))
    (hs : Step E s (p, c) t) (h : Trace (Step E) t l u) (hnot : ∀ y ∈ l, ¬ Allocates x y)
    (hend : u.committing = false) :
    (∀ y ∈ l, y.1.Free E x) ∧ u.Free E x ↔ ¬ s.Stale E x := by
  have hsound : Sound s := h₁.invariant (boot_sound disk) fun hs ht => hs.step ht
  have set_not_free : ∀ {v : Kernel n}, v.Free E x →
      v.Stale E x ∨ v.bit E x = true ∧ v.diskBit E x = true → v.Stale E x := by
    intro v hv hset
    refine hset.resolve_right fun hbits => ?_
    rw [hv.1] at hbits
    cases hbits.1
  constructor
  · intro hfree hst
    have hall : Sound u ∧ ((∀ y ∈ l, y.1.Free E x) ∧ u.Free E x → u.Stale E x) := by
      refine h.history (P := fun l u => Sound u ∧
        ((∀ y ∈ l, y.1.Free E x) ∧ u.Free E x → u.Stale E x)) ?_ ?_
      · exact ⟨hsound.step hs, fun ht => set_not_free ht.2 (hst.step hsound hs)⟩
      · intro l v w a _ ih hw
        refine ⟨ih.1.step hw, fun hl => ?_⟩
        obtain ⟨hl, hwfree⟩ := hl
        rw [List.forall_mem_append, List.forall_mem_singleton] at hl
        exact set_not_free hwfree ((ih.2 hl).step ih.1 hw)
    exact not_stale_of_idle hall.1 hend (hall.2 hfree)
  · intro hg
    have hall : (∀ y ∈ l, ¬ Allocates x y) → Sound u ∧ Clear E x u ∧ ∀ y ∈ l, y.1.Free E x := by
      refine h.history (P := fun l u => (∀ y ∈ l, ¬ Allocates x y) →
        Sound u ∧ Clear E x u ∧ ∀ y ∈ l, y.1.Free E x) ?_ ?_
      · exact fun _ => ⟨hsound.step hs, clear_of_frees hsound hf hg hs, by simp⟩
      · intro l v w a _ ih hw ha
        rw [List.forall_mem_append, List.forall_mem_singleton] at ha
        obtain ⟨hv, hclear, hl⟩ := ih ha.1
        refine ⟨hv.step hw, hclear.step hv hx ha.2 hw, ?_⟩
        rw [List.forall_mem_append, List.forall_mem_singleton]
        exact ⟨hl, hclear.free⟩
    obtain ⟨-, hclear, hl⟩ := hall hnot
    exact ⟨hl, hclear.free⟩

end Xv6Lab.Log
