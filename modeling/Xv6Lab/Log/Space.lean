import Xv6Lab.Log.Operations

/-! The log space that `begin_op` waits for. A process that owns an operation and sleeps for space
is never admitted unless the operations of such processes fit into the log once more. -/

namespace Xv6Lab.Log

open Lib

variable {n : ℕ} {E : Env} {s t : Kernel n} {p : Fin n} {c : Choice} {l rest : List Instr}

/-- Operations outstanding, no commit, and all owners asleep for space. -/
def Kernel.Frozen (s : Kernel n) : Prop :=
  0 < s.outstanding ∧ s.committing = false ∧ ∀ p, 0 < (s.proc p).ops → (s.proc p).wait = .space

instance (s : Kernel n) : Decidable s.Frozen := inferInstanceAs (Decidable (_ ∧ _ ∧ _))

/-- The operations of a process that sleeps for space. -/
def Proc.held (x : Proc) : ℤ := if x.wait = .space then x.ops else 0

/-- The operations whose owners sleep for space. -/
def Kernel.held (s : Kernel n) : ℤ := ∑ p, (s.proc p).held

/-- Blocks in the log, with room for one more operation next to `k` others. -/
def fits (blocks : ℕ) (k : ℤ) : Prop := (blocks : ℤ) + (k + 1) * MAXOPBLOCKS ≤ LOGSIZE

/-- The step leaves room for the sleepers: an owner goes to sleep for space only if the sleepers
and its own operations fit, and a block is added only if the sleepers still fit. -/
structure Room (E : Env) (s : Kernel n) (a : Fin n × Choice) : Prop where
  nested : (s.proc a.1).code.head? = some .beginOp → (s.proc a.1).wait = .awake →
    s.committing = false → ¬ fits s.lh.length s.outstanding → 0 < (s.proc a.1).ops →
    fits s.lh.length (s.held + (s.proc a.1).ops)
  logs : ∀ b ∈ (s.proc a.1).code.head?.bind (Instr.logs E), b ∉ s.lh → 0 < s.held →
    fits (s.lh.length + 1) s.held

instance (x : ℕ) (k : ℤ) : Decidable (fits x k) := inferInstanceAs (Decidable (_ ≤ _))

instance (E : Env) (s : Kernel n) (a : Fin n × Choice) : Decidable (Room E s a) :=
  decidable_of_iff (_ ∧ _) ⟨fun h => ⟨h.1, h.2⟩, fun h => ⟨h.nested, h.logs⟩⟩

/-! ### Sleepers -/

theorem held_awake {x : Proc} (h : x.wait ≠ .space) : x.held = 0 := if_neg h

theorem held_space {x : Proc} (h : x.wait = .space) : x.held = x.ops := if_pos h

theorem held_of_awake {x : Proc} (h : x.wait = .awake) : x.held = 0 := by
  refine held_awake ?_
  rw [h]
  intro hw
  cases hw

/-- A process that sleeps for space found the log full, and it still is. -/
def Full (s : Kernel n) : Prop :=
  ∀ p, (s.proc p).wait = .space → s.committing = true ∨ ¬ fits s.lh.length s.outstanding

theorem boot_full (disk : ℕ → Block) : Full (boot n disk) := by
  intro p hp
  cases hp

theorem fits_mono {x y : ℕ} {j k : ℤ} (hxy : x ≤ y) (hjk : j ≤ k) (h : fits y k) : fits x j := by
  unfold fits at h ⊢
  have hM : (MAXOPBLOCKS : ℤ) = 10 := rfl
  rw [hM] at h ⊢
  have : (x : ℤ) ≤ y := by exact_mod_cast hxy
  linarith

theorem Full.moved {w : Wait} (h : Full s)
    (hproc : ∀ q, t.proc q = if q = p then ⟨l, w⟩ else s.proc q)
    (hw : w = .space → ¬ fits s.lh.length s.outstanding) (hcom : t.committing = s.committing)
    (hlh : s.lh.length ≤ t.lh.length) (hout : s.outstanding ≤ t.outstanding) : Full t := by
  have grows : ¬ fits s.lh.length s.outstanding → ¬ fits t.lh.length t.outstanding :=
    fun hf ht => hf (fits_mono hlh hout ht)
  intro q hq
  rw [hcom]
  by_cases hqp : q = p
  · rw [hproc, if_pos hqp] at hq
    exact .inr (grows (hw hq))
  · rw [hproc, if_neg hqp] at hq
    exact (h q hq).imp_right grows

/-- After `wakeup` nobody waits. -/
theorem wakeup_then_awake (s : Kernel n) (p q : Fin n) (l : List Instr) (d : Disk n) :
    ((s.wakeup.then p l d).proc q).wait = .awake := by
  rw [then_proc]
  by_cases hqp : q = p
  · rw [if_pos hqp, wakeup_proc]
  · rw [if_neg hqp, wakeup_proc]

theorem full_of_awake (h : ∀ q, (t.proc q).wait = .awake) : Full t := by
  intro q hq
  rw [h q] at hq
  cases hq

theorem Executed.lh_length {s d : Disk n} {i : Instr} (h : Executed E s p i d) :
    s.lh.length ≤ d.lh.length := by
  obtain hl | ⟨b, -, -, hl, -⟩ := h.lh
  · rw [hl]
  · rw [hl, List.length_append]
    omega

theorem Full.step (hsound : Sound s) (h : Full s) (hs : Step E s (p, c) t) : Full t := by
  have awake : ∀ {w : Wait}, w = .awake → w = .space → ¬ fits s.lh.length s.outstanding := by
    intro w hw hw'
    rw [hw] at hw'
    cases hw'
  cases step_moves hs with
  | wake => exact h.moved (sleep_proc s p · .awake) (awake rfl) rfl le_rfl le_rfl
  | returns rest ha => exact h.moved (goto_proc s p · _) (awake ha) rfl le_rfl le_rfl
  | calls rest f ha => exact h.moved (goto_proc s p · _) (awake ha) rfl le_rfl le_rfl
  | finds rest b ha => exact h.moved (then_proc s p · _ _) (awake ha) rfl le_rfl le_rfl
  | exec i rest c d ha hc hi hd =>
    have hx := exec_some hd
    exact h.moved (then_proc s p · _ d) (awake ha) hx.committing hx.lh_length hx.outstanding.ge
  | waitCommit =>
    refine h.moved (sleep_proc s p · .commit) (fun hw => ?_) rfl le_rfl le_rfl
    cases hw
  | waitSpace rest ha hc hcom hsp =>
    exact h.moved (sleep_proc s p · .space) (fun _ => not_le.2 hsp) rfl le_rfl le_rfl
  | begins rest ha =>
    exact h.moved (then_proc s p · _ _) (awake ha) rfl le_rfl (by simp)
  | ends => exact full_of_awake fun q => wakeup_then_awake s p q _ _
  | endsLast => exact fun _ _ => .inl rfl
  | commits i rest t ha hc hi ht =>
    obtain rfl | ⟨j, d, rfl, -, hd, -⟩ := (commit_commits ht).ends_or
    · exact full_of_awake fun q => wakeup_then_awake s p q _ _
    · refine fun _ _ => .inl ?_
      rw [then_toDisk, hd]
      exact hsound.committing p ⟨i, rest, hc, hi⟩

/-- The operations of the sleepers fit into the log once more. -/
def Reserved (s : Kernel n) : Prop := 0 < s.held → fits s.lh.length s.held

theorem boot_held (disk : ℕ → Block) : (boot n disk).held = 0 :=
  Finset.sum_eq_zero fun _ _ => held_of_awake rfl

theorem Reserved.mono (h : Reserved s) (hheld : t.held ≤ s.held)
    (hlh : t.lh.length ≤ s.lh.length) : Reserved t :=
  fun ht => fits_mono hlh hheld (h (by omega))

theorem reserved_of_awake (h : ∀ q, (t.proc q).wait = .awake) : Reserved t := by
  intro ht
  have hheld : t.held = 0 := Finset.sum_eq_zero fun q _ => held_of_awake (h q)
  omega

/-- The sleepers when an awake process goes on. -/
theorem held_moved {w : Wait} (ha : (s.proc p).wait = .awake)
    (hproc : ∀ q, t.proc q = if q = p then ⟨l, w⟩ else s.proc q) :
    t.held = s.held + Proc.held ⟨l, w⟩ := by
  unfold Kernel.held
  rw [sum_proc Proc.held hproc, held_of_awake ha, sub_zero]

theorem Reserved.step (ho : Owned s) (h : Reserved s) (hg : Room E s (p, c))
    (hs : Step E s (p, c) t) : Reserved t := by
  have goes : ∀ {l : List Instr} {d : Disk n}, (s.proc p).wait = .awake →
      (s.then p l d).held = s.held := by
    intro l d ha
    have hp : Proc.held ⟨l, (s.proc p).wait⟩ = 0 := held_of_awake ha
    rw [held_moved ha (then_proc s p · l d), hp, add_zero]
  cases step_moves hs with
  | wake =>
    refine h.mono ?_ le_rfl
    have hp : 0 ≤ (s.proc p).held := by
      unfold Proc.held
      by_cases hw : (s.proc p).wait = .space
      · rw [if_pos hw]
        exact ho.nonneg p
      · rw [if_neg hw]
    have hp' : Proc.held ⟨(s.proc p).code, .awake⟩ = 0 := held_of_awake rfl
    unfold Kernel.held
    rw [sum_proc Proc.held (sleep_proc s p · .awake), hp']
    linarith
  | returns rest ha => exact h.mono (goes (d := s.toDisk) ha).le le_rfl
  | calls rest f ha => exact h.mono (goes (d := s.toDisk) ha).le le_rfl
  | finds rest b ha => exact h.mono (goes ha).le le_rfl
  | exec i rest c d ha hc hi hd =>
    obtain hl | ⟨b, hb, hnot, hl, -⟩ := (exec_some hd).lh
    · refine h.mono (goes ha).le ?_
      rw [then_toDisk, hl]
    · intro hheld
      rw [goes ha] at hheld ⊢
      rw [then_toDisk, hl, List.length_append]
      refine hg.logs b ?_ hnot hheld
      rw [hc]
      exact hb
  | waitCommit rest ha =>
    refine h.mono ?_ le_rfl
    rw [held_moved ha (sleep_proc s p · .commit), held_awake (by simp), add_zero]
  | waitSpace rest ha hc hcom hsp =>
    have hheld : (s.sleep p .space).held = s.held + (s.proc p).ops := by
      rw [held_moved ha (sleep_proc s p · .space), held_space rfl]
      rfl
    by_cases hops : 0 < (s.proc p).ops
    · intro _
      rw [hheld]
      refine hg.nested ?_ ha hcom (not_le.2 hsp) hops
      rw [hc]
      rfl
    · refine h.mono ?_ le_rfl
      rw [hheld]
      linarith
  | begins rest ha => exact h.mono (goes ha).le le_rfl
  | ends => exact reserved_of_awake fun q => wakeup_then_awake s p q _ _
  | endsLast rest ha => exact h.mono (goes ha).le le_rfl
  | commits i rest t ha hc hi ht =>
    obtain rfl | ⟨j, d, rfl, -, -, -, -, hl | hl⟩ := (commit_commits ht).ends_or
    · exact reserved_of_awake fun q => wakeup_then_awake s p q _ _
    · refine h.mono (goes ha).le ?_
      rw [then_toDisk, hl]
    · refine h.mono (goes ha).le ?_
      rw [then_toDisk, hl]
      exact Nat.zero_le _

/-- Some sleeper owns an operation when all owners sleep. -/
theorem Kernel.Frozen.held (ho : Owned s) (h : s.Frozen) :
    s.held = s.outstanding ∧ ∃ p, (s.proc p).wait = .space := by
  have heach : ∀ p, (s.proc p).held = (s.proc p).ops := by
    intro p
    by_cases hp : 0 < (s.proc p).ops
    · exact held_space (h.2.2 p hp)
    · have hz : (s.proc p).ops = 0 := le_antisymm (not_lt.1 hp) (ho.nonneg p)
      unfold Proc.held
      rw [hz]
      exact ite_self 0
  have hsum : ∑ p, (s.proc p).held = ∑ p, (s.proc p).ops :=
    Finset.sum_congr rfl fun p _ => heach p
  refine ⟨hsum.trans ho.total, ?_⟩
  by_contra hnone
  have hzero : ∑ p, (s.proc p).ops ≤ 0 := by
    refine Finset.sum_nonpos fun p _ => ?_
    by_contra hp
    exact hnone ⟨p, h.2.2 p (not_le.1 hp)⟩
  rw [ho.total] at hzero
  exact absurd h.1 (not_lt.2 hzero)

/-- What holds in every state of a run whose steps leave room for the sleepers. -/
structure Spacious (s : Kernel n) : Prop where
  sound : Sound s
  owned : Owned s
  full : Full s
  reserved : Reserved s

theorem boot_spacious (disk : ℕ → Block) : Spacious (boot n disk) where
  sound := boot_sound disk
  owned := boot_owned disk
  full := boot_full disk
  reserved h := by
    rw [boot_held] at h
    exact absurd h (lt_irrefl 0)

theorem Spacious.step (h : Spacious s) (hg : Room E s (p, c)) (hs : Step E s (p, c) t) :
    Spacious t where
  sound := h.sound.step hs
  owned := h.owned.step hs
  full := h.full.step h.sound hs
  reserved := h.reserved.step h.owned hg hs

theorem Spacious.not_frozen (h : Spacious s) : ¬ s.Frozen := by
  intro hf
  obtain ⟨hheld, p, hp⟩ := hf.held h.owned
  have hcom := hf.2.1
  obtain hc | hnot := h.full p hp
  · rw [hcom] at hc
    cases hc
  · refine hnot ?_
    rw [← hheld]
    refine h.reserved ?_
    rw [hheld]
    exact hf.1

/-- Nested operations do not freeze the log in a run whose steps leave room for the sleepers. -/
theorem nested_operations_not_frozen (disk : ℕ → Block)
    (h : Run (Step E) (Room E) (boot n disk) s) : ¬ s.Frozen := by
  have hs : Spacious s := h.invariant (boot_spacious disk) fun hs hg ht => hs.step hg ht
  exact hs.not_frozen

/-- The blocks that process `p` logs in the steps of `l`. -/
def blocksLogged (E : Env) (p : Fin n) (l : List (Kernel n × (Fin n × Choice))) : List ℕ :=
  l.filterMap fun x => if x.2.1 = p then (x.1.proc p).code.head?.bind (Instr.logs E) else none

/-- Each process logs at most `MAXOPBLOCKS` distinct blocks while it owns an operation. -/
def Modest (E : Env) (l : List (Kernel n × (Fin n × Choice))) : Prop :=
  ∀ p k, k <:+: l → (∀ x ∈ k, 0 < (x.1.proc p).ops) →
    (blocksLogged E p k).toFinset.card ≤ MAXOPBLOCKS

theorem modest_of_total {l : List (Kernel n × (Fin n × Choice))}
    (h : ∀ p, (blocksLogged E p l).toFinset.card ≤ MAXOPBLOCKS) : Modest E l := by
  intro p k hk _
  refine (Finset.card_le_card fun b hb => ?_).trans (h p)
  rw [List.mem_toFinset] at hb ⊢
  exact (hk.sublist.filterMap _).subset hb

/-- Process 0 sleeps for space in the operation of `balloc`, with its own operation open and room
in the log for when process 1 ends. -/
theorem nested_operations_not_frozen_two : ∃ s : Kernel 2,
    Run (Step smallDisk) (Room smallDisk) (boot 2 (inUse 80)) s ∧ s.outstanding = 2 ∧
      (s.proc 0).wait = .space ∧ ¬ s.Frozen := by
  let es : List (Fin 2 × Choice) :=
    callBegin 0 ++ callUpdate 0 60 ++ callBegin 1 ++ [(0, .call .balloc), (0, .pick 80), (0, .go)]
  obtain ⟨s, hs, hwait⟩ : ∃ s, es.foldlM (step smallDisk) (boot 2 (inUse 80)) = some s ∧
      (s.outstanding, (s.proc 0).wait) = (2, .space) :=
    Option.map_eq_some_iff.1 (by decide +kernel : (es.foldlM (step smallDisk)
      (boot 2 (inUse 80))).map (fun s => (s.outstanding, (s.proc 0).wait)) = some (2, .space))
  have hrun : Run (Step smallDisk) (Room smallDisk) (boot 2 (inUse 80)) s :=
    (Trace.of_trail hs).run (by decide +kernel)
  exact ⟨s, hrun, congrArg Prod.fst hwait, congrArg Prod.snd hwait,
    nested_operations_not_frozen _ hrun⟩

/-- Another process logs ten blocks in one operation and one in the next while process 0 writes a
file; then process 0 allocates a block for it. -/
def frozenRun : List (Fin 3 × Choice) :=
  callBegin 0 ++ callBegin 1 ++ (List.range 10).flatMap (fun i => callUpdate 1 (60 + i)) ++
    callEnd 1 ++ callBegin 2 ++ callUpdate 2 70 ++ callEnd 2 ++
    [(0, .call .balloc), (0, .pick 80), (0, .go)]

theorem nested_operations_freeze : ¬ ∀ (n : ℕ) (E : Env) (disk : ℕ → Block)
    (l : List (Kernel n × (Fin n × Choice))) (s : Kernel n),
    Trace (Step E) (boot n disk) l s → Modest E l → ¬ s.Frozen := by
  intro h
  obtain ⟨s, hs, hfrozen⟩ : ∃ s, frozenRun.foldlM (step smallDisk) (boot 3 (inUse 80)) = some s ∧
      decide s.Frozen = true :=
    Option.map_eq_some_iff.1 (by decide +kernel : (frozenRun.foldlM (step smallDisk)
      (boot 3 (inUse 80))).map (fun s => decide s.Frozen) = some true)
  have hmodest : Modest smallDisk (Trace.trail (step smallDisk) (boot 3 (inUse 80)) frozenRun) :=
    modest_of_total (by decide +kernel)
  exact h 3 smallDisk (inUse 80) _ s (Trace.of_trail hs) hmodest (of_decide_eq_true hfrozen)

/-! ### Without room -/

/-- Owners of operations stand at a `begin_op` that cannot admit them as long as they do not end
their operations. -/
def Doomed (s : Kernel n) (D : Finset (Fin n)) : Prop :=
  (∀ p ∈ D, ∃ rest, (s.proc p).code = .beginOp :: rest) ∧ 0 < ∑ p ∈ D, (s.proc p).ops ∧
    ¬ fits s.lh.length (∑ p ∈ D, (s.proc p).ops) ∧ s.committing = false

theorem Owned.sum_le (h : Owned s) (D : Finset (Fin n)) :
    ∑ p ∈ D, (s.proc p).ops ≤ s.outstanding := by
  rw [← h.total]
  exact Finset.sum_le_sum_of_subset_of_nonneg (Finset.subset_univ D) fun p _ _ => h.nonneg p

/-- The doomed keep their code, and the log is not cleared. -/
theorem Doomed.of_code {D : Finset (Fin n)} (h : Doomed s D)
    (hcode : ∀ p ∈ D, (t.proc p).code = (s.proc p).code) (hlh : s.lh.length ≤ t.lh.length)
    (hcom : t.committing = false) : Doomed t D := by
  have hsum : ∑ p ∈ D, (t.proc p).ops = ∑ p ∈ D, (s.proc p).ops := by
    refine Finset.sum_congr rfl fun p hp => ?_
    unfold Proc.ops
    rw [hcode p hp]
  unfold Doomed
  rw [hsum]
  refine ⟨fun p hp => ?_, h.2.1, fun hf => h.2.2.1 (fits_mono hlh le_rfl hf), hcom⟩
  rw [hcode p hp]
  exact h.1 p hp

theorem Doomed.step {D : Finset (Fin n)} (hsound : Sound s) (ho : Owned s) (h : Doomed s D)
    (hs : Step E s (p, c) t) : Doomed t D := by
  have hfull : ¬ fits s.lh.length s.outstanding :=
    fun hf => h.2.2.1 (fits_mono le_rfl (ho.sum_le D) hf)
  have outside : ∀ {i : Instr} {rest : List Instr}, (s.proc p).code = i :: rest → i ≠ .beginOp →
      ∀ q ∈ D, q ≠ p := by
    intro i rest hc hi q hq hqp
    subst hqp
    obtain ⟨rest', hc'⟩ := h.1 q hq
    rw [hc] at hc'
    exact hi (List.cons.inj hc').1
  have keeps : ∀ {i : Instr} {rest l : List Instr} {d : Disk n}, (s.proc p).code = i :: rest →
      i ≠ .beginOp → s.lh.length ≤ d.lh.length → d.committing = false →
      Doomed (s.then p l d) D := by
    intro i rest l d hc hi hlh hcom
    refine h.of_code (fun q hq => ?_) hlh hcom
    rw [then_proc, if_neg (outside hc hi q hq)]
  have sleeps : ∀ {w : Wait}, Doomed (s.sleep p w) D := by
    intro w
    refine h.of_code (fun q _ => ?_) le_rfl h.2.2.2
    rw [sleep_proc]
    by_cases hqp : q = p
    · rw [if_pos hqp, hqp]
    · rw [if_neg hqp]
  cases step_moves hs with
  | wake | waitCommit | waitSpace => exact sleeps
  | returns rest ha hc => exact keeps hc (by simp) le_rfl h.2.2.2
  | calls rest f ha hc => exact keeps hc (by simp) le_rfl h.2.2.2
  | finds rest b ha hc => exact keeps hc (by simp) le_rfl h.2.2.2
  | exec i rest c d ha hc hi hd =>
    have hx := exec_some hd
    refine keeps hc (fun hb => ?_) hx.lh_length (hx.committing.trans h.2.2.2)
    subst hb
    cases c <;> cases hd
  | begins rest ha hc hcom hroom => exact absurd hroom hfull
  | ends rest ha hc =>
    refine h.of_code (fun q hq => ?_) le_rfl h.2.2.2
    rw [then_proc, if_neg (outside hc (by simp) q hq), wakeup_proc]
  | endsLast rest ha hc hcom hlast =>
    -- the operation that ends is not one of the doomed, and there is one of theirs besides
    have hp : p ∉ D := fun hp => outside hc (by simp) p hp rfl
    have hle := ho.sum_le (insert p D)
    rw [Finset.sum_insert hp, hlast] at hle
    have hops := ops_pos_of_endOp ho hc
    have := h.2.1
    omega
  | commits i rest t ha hc hi ht =>
    have hp : s.Committer p := ⟨i, rest, hc, hi⟩
    exact absurd hp (hsound.not_committer h.2.2.2)

theorem onBuffer_of_logs {i : Instr} {b : ℕ} (h : i.logs E = some b) : i.onBuffer = true := by
  cases i with
  | mark | bzero | logWrite => rfl
  | _ => cases h

/-- A step that leaves no room for the sleepers dooms them. -/
theorem doomed_of_not_room (h : Spacious s) (hg : ¬ Room E s (p, c)) (hs : Step E s (p, c) t) :
    ∃ D, Doomed t D := by
  let D : Finset (Fin n) := Finset.univ.filter fun q => (s.proc q).wait = .space
  have hmem : ∀ q, q ∈ D ↔ (s.proc q).wait = .space := fun q => by simp [D]
  have hsum : ∑ q ∈ D, (s.proc q).ops = s.held := Finset.sum_filter _ _
  have hbegin : ∀ q ∈ D, ∃ rest, (s.proc q).code = .beginOp :: rest := by
    intro q hq
    refine h.sound.asleep q ?_
    rw [(hmem q).1 hq]
    intro hw
    cases hw
  have hheld : 0 ≤ s.held := by
    rw [← hsum]
    exact Finset.sum_nonneg fun q _ => h.owned.nonneg q
  by_contra hnone
  refine hg ⟨?_, ?_⟩
  · intro hhead ha hcom hsp hops
    by_contra hf
    obtain ⟨rest, hc⟩ := List.head?_eq_some_iff.1 hhead
    have hp : p ∉ D := by
      rw [hmem, ha]
      intro hw
      cases hw
    have hD : Doomed s (insert p D) := by
      unfold Doomed
      rw [Finset.sum_insert hp, hsum, add_comm]
      refine ⟨fun q hq => ?_, by linarith, hf, hcom⟩
      obtain rfl | hq := Finset.mem_insert.1 hq
      · exact ⟨rest, hc⟩
      · exact hbegin q hq
    exact hnone ⟨_, hD.step h.sound h.owned hs⟩
  · intro b hb hnot hpos
    by_contra hf
    have hcom : s.committing = false := by
      by_contra hcom
      have hout := h.owned.sum_le D
      rw [hsum, h.sound.idle (by simpa using hcom)] at hout
      omega
    obtain ⟨i, hi, hib⟩ := Option.bind_eq_some_iff.1 hb
    obtain ⟨rest, hc⟩ := List.head?_eq_some_iff.1 hi
    obtain ⟨d, hd, rfl⟩ := h.sound.step_exec hc (onBuffer_of_logs hib) hs
    have hx := exec_some hd
    have hlh : s.lh.length + 1 ≤ d.lh.length := by
      have hin := hx.logs b hib
      obtain hl | ⟨b', -, -, hl, -⟩ := hx.lh
      · rw [hl] at hin
        exact absurd hin hnot
      · rw [hl, List.length_append]
        exact le_rfl
    have hcode : ∀ q ∈ D, (s.then p rest d).proc q = s.proc q := by
      intro q hq
      rw [then_proc]
      refine if_neg fun hqp => ?_
      obtain ⟨rest', hc'⟩ := hbegin q hq
      rw [hqp, hc] at hc'
      cases hc'
      cases hib
    have hsum' : ∑ q ∈ D, ((s.then p rest d).proc q).ops = s.held := by
      rw [← hsum]
      exact Finset.sum_congr rfl fun q hq => by rw [hcode q hq]
    refine hnone ⟨D, fun q hq => ?_, ?_, ?_, hx.committing.trans hcom⟩
    · rw [hcode q hq]
      exact hbegin q hq
    · rw [hsum']
      exact hpos
    · rw [hsum']
      exact fun hf' => hf (fits_mono hlh le_rfl hf')

/-- After the first step that leaves no room for the sleepers no commit ever begins. -/
theorem no_commit_without_room (disk : ℕ → Block) (h : Run (Step E) (Room E) (boot n disk) s)
    (hg : ¬ Room E s (p, c)) (hs : Step E s (p, c) t) {u : Kernel n}
    (hr : Run (Step E) (fun _ _ => True) t u) : 0 < u.outstanding ∧ u.committing = false := by
  have hspacious : Spacious s :=
    h.invariant (boot_spacious disk) fun hs hg ht => hs.step hg ht
  obtain ⟨D, hD⟩ := doomed_of_not_room hspacious hg hs
  obtain ⟨hsound, ho, hu⟩ := hr.invariant (P := fun u => Sound u ∧ Owned u ∧ Doomed u D)
    ⟨hspacious.sound.step hs, hspacious.owned.step hs, hD⟩
    fun hu _ hs => ⟨hu.1.step hs, hu.2.1.step hs, hu.2.2.step hu.1 hu.2.1 hs⟩
  exact ⟨hu.2.1.trans_le (ho.sum_le D), hu.2.2.2⟩

theorem no_commit_without_room_three :
    let s := after smallDisk (boot 3 (inUse 80)) frozenRun.dropLast
    ∃ t, step smallDisk s (0, .go) = some t ∧
      ∀ u, Run (Step smallDisk) (fun _ _ => True) t u → 0 < u.outstanding ∧ u.committing = false := by
  intro s
  have htrace : Trace (Step smallDisk) (boot 3 (inUse 80))
      (Trace.trail (step smallDisk) (boot 3 (inUse 80)) frozenRun.dropLast) s :=
    Trace.of_isSome (by decide +kernel)
  have hrun : Run (Step smallDisk) (Room smallDisk) (boot 3 (inUse 80)) s :=
    htrace.run (by decide +kernel)
  have hroom : ¬ Room smallDisk s (0, .go) := by decide +kernel
  obtain ⟨t, ht⟩ := Option.isSome_iff_exists.1
    (by decide +kernel : (step smallDisk s (0, .go)).isSome = true)
  refine ⟨t, ht, fun u hu => ?_⟩
  exact no_commit_without_room _ hrun hroom ht hu

/-- A run never reaches a frozen log while its steps leave room for the sleepers, and after a step
that leaves none it never commits again. -/
theorem room_or_no_commit (disk : ℕ → Block) {l : List (Kernel n × (Fin n × Choice))}
    (h : Trace (Step E) (boot n disk) l s) :
    ((∀ y ∈ l, Room E y.1 y.2) → ¬ s.Frozen) ∧
      ((∃ y ∈ l, ¬ Room E y.1 y.2) → 0 < s.outstanding ∧ s.committing = false) := by
  have hall : Sound s ∧ Owned s ∧ ((∀ y ∈ l, Room E y.1 y.2) → Spacious s) ∧
      ((∃ y ∈ l, ¬ Room E y.1 y.2) → ∃ D, Doomed s D) := by
    refine h.history (P := fun l s => Sound s ∧ Owned s ∧
      ((∀ y ∈ l, Room E y.1 y.2) → Spacious s) ∧
      ((∃ y ∈ l, ¬ Room E y.1 y.2) → ∃ D, Doomed s D)) ?_ ?_
    · exact ⟨boot_sound disk, boot_owned disk, fun _ => boot_spacious disk, by simp⟩
    · intro l s t a _ ih hs
      obtain ⟨hsound, ho, hroom, hdoomed⟩ := ih
      refine ⟨hsound.step hs, ho.step hs, ?_, ?_⟩
      · intro hg
        rw [List.forall_mem_append, List.forall_mem_singleton] at hg
        exact (hroom hg.1).step hg.2 hs
      · rintro ⟨y, hy, hg⟩
        by_cases hl : ∃ y ∈ l, ¬ Room E y.1 y.2
        · obtain ⟨D, hD⟩ := hdoomed hl
          exact ⟨D, hD.step hsound ho hs⟩
        · -- the first step without room
          have hl' : ∀ y ∈ l, Room E y.1 y.2 := by simpa using hl
          have hy' : y = (s, a) := by
            obtain hy | hy := List.mem_append.1 hy
            · exact absurd (hl' y hy) hg
            · exact List.mem_singleton.1 hy
          subst hy'
          exact doomed_of_not_room (hroom hl') hg hs
  obtain ⟨-, ho, hroom, hdoomed⟩ := hall
  refine ⟨fun hg => (hroom hg).not_frozen, fun hg => ?_⟩
  obtain ⟨D, hD⟩ := hdoomed hg
  exact ⟨hD.2.1.trans_le (ho.sum_le D), hD.2.2.2⟩

theorem room_or_no_commit_three :
    let s := after smallDisk (boot 3 (inUse 80)) frozenRun.dropLast
    let t := after smallDisk (boot 3 (inUse 80)) frozenRun
    (s.proc 0).code.head? = some .beginOp ∧ ¬ s.Frozen ∧ 0 < t.outstanding ∧
      t.committing = false := by
  intro s t
  have hs : Trace (Step smallDisk) (boot 3 (inUse 80))
      (Trace.trail (step smallDisk) (boot 3 (inUse 80)) frozenRun.dropLast) s :=
    Trace.of_isSome (by decide +kernel)
  have ht : Trace (Step smallDisk) (boot 3 (inUse 80))
      (Trace.trail (step smallDisk) (boot 3 (inUse 80)) frozenRun) t :=
    Trace.of_isSome (by decide +kernel)
  exact ⟨by decide +kernel, (room_or_no_commit _ hs).1 (by decide +kernel),
    (room_or_no_commit _ ht).2 (by decide +kernel)⟩

end Xv6Lab.Log
