import Xv6Lab.Lib.Overlay
import Xv6Lab.Log.Freed

/-! What a crash leaves. `recover_from_log` turns the disk into the buffers at the last commit, at
whatever write of the disk the crash comes, as long as blocks are changed within operations and
through the log. -/

namespace Xv6Lab.Log

open Lib

variable {n : ℕ} {E : Env} {s t : Kernel n} {p q : Fin n} {c : Choice} {i : Instr}
  {l rest : List Instr} {b : ℕ}

/-- The writes of `install_trans` for a log that was committed. -/
def Disk.installs (s : Disk n) : List (ℕ × Block) :=
  s.head.zipIdx.map fun x => (x.1, s.logged x.2)

/-- The disk after a crash and `recover_from_log`. -/
def Disk.recoverFromLog (s : Disk n) : ℕ → Block := overlay s.installs s.disk

theorem map_fst_installs (s : Disk n) : s.installs.map Prod.fst = s.head := by
  unfold Disk.installs
  rw [List.map_map]
  exact List.zipIdx_map_fst 0 s.head

theorem recover_of_head {s : Disk n} (h : s.head = []) : s.recoverFromLog = s.disk := by
  unfold Disk.recoverFromLog Disk.installs
  rw [h]
  rfl

theorem recover_of_not_mem {s : Disk n} (h : b ∉ s.head) : s.recoverFromLog b = s.disk b := by
  refine overlay_of_not_mem ?_ s.disk
  rwa [map_fst_installs]

theorem recover_of_get {s : Disk n} {j : ℕ} (hn : s.head.Nodup) (h : s.head[j]? = some b) :
    s.recoverFromLog b = s.logged j := by
  refine overlay_of_mem ?_ ?_ s.disk
  · rwa [map_fst_installs]
  · refine List.mem_map.2 ⟨(b, j), ?_, rfl⟩
    exact List.mem_zipIdx_iff_getElem?.2 h

/-- `d` is left after the crash in `s` if recovery was cut off any number of times, in the middle of
`install_trans` or behind the `write_head` that follows it. -/
inductive Recovers (s : Disk n) : Disk n → Prop
  | crash : Recovers s s
  | install {d : Disk n} (k : ℕ) :
    Recovers s d → Recovers s { d with disk := overlay (d.installs.take k) d.disk }
  | clear {d : Disk n} : Recovers s d → Recovers s { d with disk := d.recoverFromLog, head := [] }

/-- A crash during the recovery does no harm. -/
theorem Recovers.recover {s d : Disk n} (h : Recovers s d) :
    d.recoverFromLog = s.recoverFromLog := by
  induction h with
  | crash => rfl
  | install k _ ih => exact (overlay_overlay_take _ k _).trans ih
  | clear _ ih => exact (recover_of_head rfl).trans ih

/-! ### Changes within operations -/

/-- Code that changes buffers through the log and within operations, followed by code that still
has to end `k` of them. -/
def Disciplined (k : ℤ) : List Instr → Prop
  | [] => True
  | .store b :: l => (∃ l', l = .logWrite b :: l') ∧ Disciplined k l
  | .logWrite _ :: l => 0 < depth l + k ∧ Disciplined k l
  | .bwrite _ :: _ => False
  | .bfree _ :: _ => False
  | _ :: l => Disciplined k l

/-- Calls that change buffers through the log, by a process that owns `k` operations. -/
def Call.Logged (k : ℤ) : Call → Prop
  | .transaction | .balloc => True
  | .update _ | .bmap _ => 0 < k
  | .bfree _ | .bfreePage _ | .writePageToDisk _ => False

def Choice.Logged (k : ℤ) : Choice → Prop
  | .call f => f.Logged k
  | _ => True

/-- The step calls nothing that changes a buffer outside of an operation or past the log. -/
def Logged (s : Kernel n) (a : Fin n × Choice) : Prop := a.2.Logged (s.proc a.1).ops

instance (k : ℤ) (f : Call) : Decidable (f.Logged k) :=
  match f with
  | .transaction | .balloc => isTrue trivial
  | .update _ | .bmap _ => inferInstanceAs (Decidable (0 < k))
  | .bfree _ | .bfreePage _ | .writePageToDisk _ => isFalse id

instance (k : ℤ) (c : Choice) : Decidable (c.Logged k) :=
  match c with
  | .call f => inferInstanceAs (Decidable (f.Logged k))
  | .go | .pick _ | .data _ | .wake => isTrue trivial

instance (s : Kernel n) (a : Fin n × Choice) : Decidable (Logged s a) :=
  inferInstanceAs (Decidable (a.2.Logged (s.proc a.1).ops))

theorem disciplined_append {k : ℤ} {l l' : List Instr} (h : Disciplined (depth l' + k) l)
    (h' : Disciplined k l') : Disciplined k (l ++ l') := by
  induction l with
  | nil => exact h'
  | cons i l ih =>
    cases i with
    | store b =>
      obtain ⟨⟨l₁, rfl⟩, hl⟩ := h
      exact ⟨⟨l₁ ++ l', rfl⟩, ih hl⟩
    | logWrite b =>
      refine ⟨?_, ih h.2⟩
      change 0 < depth (l ++ l') + k
      rw [depth_append, add_assoc]
      exact h.1
    | bwrite | bfree => exact h.elim
    | _ => exact ih h

theorem disciplined_call {k : ℤ} {f : Call} (h : f.Logged k) : Disciplined k f.code := by
  cases f with
  | update b | bmap b =>
    change 0 < k at h
    simp [Call.code, update, bmap, Disciplined, Instr.depth, h]
  | transaction | balloc => simp [Call.code, transaction, Disciplined]
  | _ => exact h.elim

theorem disciplined_ballocFound (k : ℤ) (b : ℕ) : Disciplined k (ballocFound b) := by
  simp [ballocFound, Disciplined]

theorem Disciplined.tail {k : ℤ} (h : Disciplined k (i :: rest)) : Disciplined k rest := by
  cases i with
  | store | logWrite => exact h.2
  | bwrite | bfree => exact h.elim
  | _ => exact h

theorem Disciplined.cons {k : ℤ} (hi : i.commits = true) (h : Disciplined k rest) :
    Disciplined k (i :: rest) := by
  cases i with
  | commit | writeLog | writeHead | installTrans | clearHead | endCommit => exact h
  | _ => cases hi

theorem disciplined_step (h : ∀ p, Disciplined 0 (s.proc p).code) (hg : Logged s (p, c))
    (hs : Step E s (p, c) t) (q : Fin n) : Disciplined 0 (t.proc q).code := by
  by_cases hqp : q = p
  · subst hqp
    have hq := h q
    cases step_moves hs with
    | wake | waitCommit | waitSpace =>
      rw [sleep_proc, if_pos rfl]
      exact hq
    | returns rest _ hc =>
      rw [goto_proc, if_pos rfl]
      rw [hc] at hq
      exact hq.tail
    | calls rest f _ hc =>
      rw [goto_proc, if_pos rfl]
      refine disciplined_append (disciplined_call ?_) ?_
      · rw [← hc, add_zero]
        exact hg
      · rwa [← hc]
    | finds rest b _ hc =>
      rw [then_proc, if_pos rfl]
      rw [hc] at hq
      exact disciplined_append (disciplined_ballocFound _ b) hq.tail
    | exec i rest c d _ hc | begins rest _ hc =>
      rw [then_proc, if_pos rfl]
      rw [hc] at hq
      exact hq.tail
    | ends rest _ hc =>
      rw [then_proc, if_pos rfl]
      rw [hc] at hq
      exact hq.tail
    | endsLast rest _ hc =>
      rw [then_proc, if_pos rfl]
      rw [hc] at hq
      exact Disciplined.cons rfl hq.tail
    | commits i rest t _ hc hi ht =>
      rw [hc] at hq
      obtain rfl | ⟨j, d, rfl, hj, -⟩ := (commit_commits ht).ends_or
      · rw [then_proc, if_pos rfl]
        exact hq.tail
      · rw [then_proc, if_pos rfl]
        exact Disciplined.cons hj hq.tail
  · rw [step_code hs hqp]
    exact h q

/-- Whoever is to log a change owns an operation. -/
theorem ops_pos_of_logWrite (h : Disciplined 0 (s.proc p).code)
    (hc : (s.proc p).code = .logWrite b :: rest) : 0 < (s.proc p).ops := by
  unfold Proc.ops
  rw [hc] at h ⊢
  have hpos := h.1
  rw [depth_cons]
  change 0 < 0 + depth rest
  linarith

theorem ops_pos_of_store (h : Disciplined 0 (s.proc p).code)
    (hc : (s.proc p).code = .store b :: rest) : 0 < (s.proc p).ops := by
  unfold Proc.ops
  rw [hc] at h ⊢
  obtain ⟨⟨l, rfl⟩, hl⟩ := h
  have hpos := hl.1
  rw [depth_cons, depth_cons]
  change 0 < 0 + (0 + depth l)
  linarith

/-! ### Commits and crashes -/

/-- How far the disk is at an instruction of `commit`. -/
def Instr.Phase (d : Disk n) : Instr → Prop
  | .commit => d.head = [] ∧ ∀ b ∉ d.lh, d.disk b = d.data b
  | .writeLog tail => d.head = [] ∧ (∀ b ∉ d.lh, d.disk b = d.data b) ∧
    ∀ j < tail, ∀ b, d.lh[j]? = some b → d.logged j = d.data b
  | .writeHead => d.head = [] ∧ (∀ b ∉ d.lh, d.disk b = d.data b) ∧
    ∀ j b, d.lh[j]? = some b → d.logged j = d.data b
  | .installTrans tail => d.head = d.lh ∧ (∀ b ∉ d.lh, d.disk b = d.data b) ∧
    (∀ j b, d.lh[j]? = some b → d.logged j = d.data b) ∧
    ∀ j < tail, ∀ b, d.lh[j]? = some b → d.disk b = d.data b
  | .clearHead => d.head = d.lh ∧ (∀ j b, d.lh[j]? = some b → d.logged j = d.data b) ∧
    ∀ b, d.disk b = d.data b
  | .endCommit => d.head = [] ∧ d.lh = [] ∧ ∀ b, d.disk b = d.data b
  | _ => True

/-- While nothing commits, the buffers that differ from the disk are in the log, or on the way. -/
structure Recoverable (s : Kernel n) : Prop where
  sound : Sound s
  owned : Owned s
  disciplined : ∀ p, Disciplined 0 (s.proc p).code
  nodup : s.lh.Nodup
  header : s.committing = false → s.head = []
  dirty : s.committing = false → ∀ b, s.disk b ≠ s.data b →
    b ∈ s.lh ∨ ∃ p rest, (s.proc p).code = .logWrite b :: rest
  phase : ∀ p i rest, (s.proc p).code = i :: rest → i.commits = true → i.Phase s.toDisk

theorem boot_recoverable (disk : ℕ → Block) : Recoverable (boot n disk) where
  sound := boot_sound disk
  owned := boot_owned disk
  disciplined _ := trivial
  nodup := List.nodup_nil
  header _ := rfl
  dirty _ b h := absurd rfl h
  phase p i rest hc hi := by
    cases hc
    cases hi

theorem Instr.Phase.congr {d d' : Disk n} (h : i.Phase d) (hlh : d'.lh = d.lh)
    (hhead : d'.head = d.head) (hdata : d'.data = d.data) (hdisk : d'.disk = d.disk)
    (hlogged : d'.logged = d.logged) : i.Phase d' := by
  cases i with
  | commit | writeLog | writeHead | installTrans | clearHead | endCommit =>
    unfold Instr.Phase at *
    rw [hlh, hhead, hdata, hdisk]
    first
      | exact h
      | rw [hlogged]
        exact h
  | _ => trivial

theorem Owned.ops_le (h : Owned s) (p : Fin n) : (s.proc p).ops ≤ s.outstanding := by
  have hle := h.sum_le {p}
  rwa [Finset.sum_singleton] at hle

theorem Owned.ops_add_le (h : Owned s) (hqp : q ≠ p) :
    (s.proc q).ops + (s.proc p).ops ≤ s.outstanding := by
  have hle := h.sum_le {q, p}
  rwa [Finset.sum_pair hqp] at hle

/-- The step leaves the disk and the contents of buffers alone. -/
theorem Recoverable.same (h : Recoverable s) (hg : Logged s (p, c)) (hs : Step E s (p, c) t)
    (hnot : ∀ b rest, (s.proc p).code ≠ .logWrite b :: rest) (hplain : Plain (t.proc p).code)
    (hlh : t.lh = s.lh) (hhead : t.head = s.head) (hdata : t.data = s.data)
    (hdisk : t.disk = s.disk) (hlogged : t.logged = s.logged)
    (hcom : t.committing = s.committing) : Recoverable t where
  sound := h.sound.step hs
  owned := h.owned.step hs
  disciplined := disciplined_step h.disciplined hg hs
  nodup := by
    rw [hlh]
    exact h.nodup
  header hc := by
    rw [hhead]
    exact h.header (by rwa [← hcom])
  dirty hc b hb := by
    rw [hdisk, hdata] at hb
    rw [hlh]
    obtain hin | ⟨q, rest, hcq⟩ := h.dirty (by rwa [← hcom]) b hb
    · exact .inl hin
    · by_cases hqp : q = p
      · subst hqp
        exact absurd hcq (hnot b rest)
      · refine .inr ⟨q, rest, ?_⟩
        rwa [step_code hs hqp]
  phase q i rest hcq hi := by
    by_cases hqp : q = p
    · subst hqp
      exact absurd ⟨i, rest, hcq, hi⟩ hplain.not_committer
    · rw [step_code hs hqp] at hcq
      exact (h.phase q i rest hcq hi).congr hlh hhead hdata hdisk hlogged

/-- What the instructions on buffers do to the disk and to the contents of buffers. -/
theorem exec_changes {s d : Disk n} {k : ℤ} (h : Disciplined k (i :: rest))
    (hd : s.exec E p i c = some d) : d.disk = s.disk ∧ d.head = s.head ∧
      ∀ b, d.data b ≠ s.data b → b ∈ d.lh ∧ 1 ≤ s.outstanding ∨ i = .store b := by
  have hlogs := (exec_some hd).logs
  cases i with
  | mark x =>
    cases c with
    | go =>
      obtain ⟨d', hd', rfl⟩ := Option.map_eq_some_iff.1 hd
      obtain ⟨hout, rfl⟩ := logWrite_some hd'
      refine ⟨rfl, rfl, fun b hb => .inl ⟨?_, hout⟩⟩
      have hbx : b = E.bblock x := by
        by_contra hbx
        exact hb (Function.update_of_ne hbx _ _)
      rw [hbx]
      exact hlogs _ rfl
    | _ => cases hd
  | bzero x =>
    cases c with
    | go =>
      simp only [Disk.exec] at hd
      split_ifs at hd
      obtain ⟨hout, rfl⟩ := logWrite_some hd
      refine ⟨rfl, rfl, fun b hb => .inl ⟨?_, hout⟩⟩
      have hbx : b = x := by
        by_contra hbx
        exact hb (Function.update_of_ne hbx _ _)
      rw [hbx]
      exact hlogs _ rfl
    | _ => cases hd
  | bget x | brelse x =>
    cases c with
    | go =>
      simp only [Disk.exec] at hd
      split_ifs at hd
      cases hd
      exact ⟨rfl, rfl, fun b hb => absurd rfl hb⟩
    | _ => cases hd
  | store x =>
    cases c with
    | data y =>
      simp only [Disk.exec] at hd
      split_ifs at hd
      cases hd
      refine ⟨rfl, rfl, fun b hb => .inr ?_⟩
      by_contra hbx
      exact hb (Function.update_of_ne (fun hxb => hbx (by rw [hxb])) _ _)
    | _ => cases hd
  | logWrite x =>
    cases c with
    | go =>
      simp only [Disk.exec] at hd
      split_ifs at hd
      obtain ⟨-, rfl⟩ := logWrite_some hd
      exact ⟨rfl, rfl, fun b hb => absurd rfl hb⟩
    | _ => cases hd
  | bwrite x | bfree x => exact h.elim
  | _ => cases c <;> cases hd

theorem Executed.lh_nodup {s d : Disk n} (h : Executed E s p i d) (hn : s.lh.Nodup) :
    d.lh.Nodup := by
  obtain hl | ⟨b, -, hb, hl, -⟩ := h.lh
  · rwa [hl]
  · rw [hl, ← List.concat_eq_append]
    exact hn.concat hb

theorem Executed.lh_subset {s d : Disk n} (h : Executed E s p i d) (hb : b ∈ s.lh) :
    b ∈ d.lh := by
  obtain hl | ⟨b', -, -, hl, -⟩ := h.lh
  · rwa [hl]
  · rw [hl]
    exact List.mem_append_left _ hb

theorem Recoverable.exec {d : Disk n} (h : Recoverable s) (hg : Logged s (p, c))
    (hs : Step E s (p, c) (s.then p rest d)) (ha : (s.proc p).wait = .awake)
    (hc : (s.proc p).code = i :: rest) (hd : s.exec E p i c = some d) :
    Recoverable (s.then p rest d) := by
  have hx := exec_some hd
  have hdisc := h.disciplined p
  rw [hc] at hdisc
  obtain ⟨hdisk, hhead, hdata⟩ := exec_changes hdisc hd
  by_cases hcom : s.committing = true
  · -- nobody owns an operation, so nothing is changed or logged
    have hout := h.sound.idle hcom
    have hops : ¬ 0 < (s.proc p).ops := by
      have := h.owned.ops_le p
      omega
    have hdata' : d.data = s.data := by
      funext b
      by_contra hb
      obtain ⟨-, hpos⟩ | rfl := hdata b hb
      · omega
      · exact hops (ops_pos_of_store (h.disciplined p) hc)
    refine h.same hg hs ?_ ?_ ?_ hhead hdata' hdisk hx.logged hx.committing
    · exact fun b rest hc' => hops (ops_pos_of_logWrite (h.disciplined p) hc')
    · rw [then_proc, if_pos rfl]
      exact h.sound.tail p i rest hc
    · obtain hl | ⟨-, -, -, -, hpos⟩ := hx.lh
      · exact hl
      · omega
  · have hcom : s.committing = false := by simpa using hcom
    refine ⟨h.sound.step hs, h.owned.step hs, disciplined_step h.disciplined hg hs,
      hx.lh_nodup h.nodup, fun _ => hhead.trans (h.header hcom), fun _ b hb => ?_, ?_⟩
    · change d.disk b ≠ d.data b at hb
      change b ∈ d.lh ∨ _
      by_cases hsame : d.data b = s.data b
      · rw [hdisk, hsame] at hb
        obtain hin | ⟨q, l, hcq⟩ := h.dirty hcom b hb
        · exact .inl (hx.lh_subset hin)
        · by_cases hqp : q = p
          · subst hqp
            rw [hc] at hcq
            cases hcq
            exact .inl (hx.logs b rfl)
          · refine .inr ⟨q, l, ?_⟩
            rwa [step_code hs hqp]
      · obtain ⟨hin, -⟩ | rfl := hdata b hsame
        · exact .inl hin
        · obtain ⟨⟨l, rfl⟩, -⟩ := hdisc
          refine .inr ⟨p, l, ?_⟩
          rw [then_proc, if_pos rfl]
    · intro q j l hcq hj
      refine absurd ⟨j, l, hcq, hj⟩ ((h.sound.step hs).not_committer ?_)
      exact hx.committing.trans hcom

/-- Process `p` goes on with `commit`, and no other process commits. -/
theorem Recoverable.commits {k : Instr} {d : Disk n} (h : Recoverable s) (hg : Logged s (p, c))
    (hs : Step E s (p, c) (s.then p (k :: rest) d)) (hothers : ∀ q, s.Committer q → q = p)
    (hn : d.lh.Nodup) (hcom : d.committing = true) (hk : k.Phase d) :
    Recoverable (s.then p (k :: rest) d) := by
  refine ⟨h.sound.step hs, h.owned.step hs, disciplined_step h.disciplined hg hs, hn,
    fun hc => ?_, fun hc => ?_, fun q i l hcq hi => ?_⟩
  · rw [then_toDisk, hcom] at hc
    cases hc
  · rw [then_toDisk, hcom] at hc
    cases hc
  · by_cases hqp : q = p
    · rw [then_proc, if_pos hqp] at hcq
      cases hcq
      exact hk
    · rw [then_proc, if_neg hqp] at hcq
      exact absurd (hothers q ⟨i, l, hcq, hi⟩) hqp

/-- The last operation ends: the buffers that differ from the disk are in the log. -/
theorem Recoverable.last (h : Recoverable s) (hc : (s.proc p).code = .endOp :: rest)
    (hcom : s.committing = false) (hlast : s.outstanding = 1) : ∀ b ∉ s.lh, s.disk b = s.data b := by
  intro b hb
  by_contra hne
  obtain hin | ⟨q, l, hcq⟩ := h.dirty hcom b hne
  · exact hb hin
  · have hqp : q ≠ p := by
      rintro rfl
      rw [hc] at hcq
      cases hcq
    have hp := ops_pos_of_endOp h.owned hc
    have hq := ops_pos_of_logWrite (h.disciplined q) hcq
    have hle := h.owned.ops_add_le hqp
    omega

/-- A block is installed that its buffer holds already. -/
theorem install_eq {d : Disk n} {x : Block} (h : x = d.data b) :
    (d.setData b x).flush b = { d with disk := Function.update d.disk b (d.data b) } := by
  have hdata : Function.update d.data b x = d.data := by rw [h, Function.update_eq_self]
  unfold Disk.flush Disk.setData
  dsimp only
  rw [hdata]

theorem Recoverable.step (h : Recoverable s) (hg : Logged s (p, c)) (hs : Step E s (p, c) t) :
    Recoverable t := by
  have hsound := h.sound
  have sleeps : ∀ {w : Wait} {l : List Instr}, (s.proc p).code = .beginOp :: l →
      Step E s (p, c) (s.sleep p w) → Recoverable (s.sleep p w) := by
    intro w l hc hs
    refine h.same hg hs (by simp [hc]) ?_ rfl rfl rfl rfl rfl rfl
    rw [sleep_proc, if_pos rfl, hc]
    exact hsound.plain hc rfl
  have hmoves := step_moves hs
  cases hmoves with
  | wake hw =>
    obtain ⟨l, hc⟩ := hsound.asleep p hw
    exact sleeps hc hs
  | returns l _ hc =>
    refine h.same hg hs (by simp [hc]) ?_ rfl rfl rfl rfl rfl rfl
    rw [goto_proc, if_pos rfl]
    exact hsound.tail p _ l hc
  | calls l f _ hc =>
    refine h.same hg hs (by simp [hc]) ?_ rfl rfl rfl rfl rfl rfl
    rw [goto_proc, if_pos rfl]
    exact plain_append (plain_call f) (hsound.plain hc rfl)
  | finds l b _ hc =>
    refine h.same hg hs (by simp [hc]) ?_ rfl rfl rfl rfl rfl rfl
    rw [then_proc, if_pos rfl]
    exact plain_append (plain_ballocFound b) (hsound.tail p _ l hc)
  | exec i l c d ha hc hi hd => exact h.exec hg hs ha hc hd
  | waitCommit l _ hc => exact sleeps hc hs
  | waitSpace l _ hc => exact sleeps hc hs
  | begins l _ hc =>
    refine h.same hg hs (by simp [hc]) ?_ rfl rfl rfl rfl rfl rfl
    rw [then_proc, if_pos rfl]
    exact hsound.tail p _ l hc
  | ends l _ hc =>
    refine h.same hg hs (by simp [hc]) ?_ rfl rfl rfl rfl rfl rfl
    rw [then_proc, if_pos rfl]
    exact hsound.tail p _ l hc
  | endsLast l _ hc hcom hlast =>
    refine h.commits hg hs (fun q hq => absurd hq (hsound.not_committer hcom)) h.nodup rfl ?_
    exact ⟨h.header hcom, h.last hc hcom hlast⟩
  | commits i l t _ hc hi ht =>
    have hp : s.Committer p := ⟨i, l, hc, hi⟩
    have hothers : ∀ q, s.Committer q → q = p := fun q hq => hsound.one q p hq hp
    have hcom := hsound.committing p hp
    have hphase := h.phase p i l hc hi
    have hcommits := commit_commits ht
    cases hcommits with
    | starts hpos =>
      exact h.commits (d := s.toDisk) hg hs hothers h.nodup hcom ⟨hphase.1, hphase.2, by simp⟩
    | skips hnil =>
      refine h.commits (d := s.toDisk) hg hs hothers h.nodup hcom ⟨hphase.1, hnil, fun b => ?_⟩
      refine hphase.2 b ?_
      rw [hnil]
      exact List.not_mem_nil
    | copies tail b hb hh =>
      refine h.commits hg hs hothers h.nodup hcom ⟨hphase.1, hphase.2.1, fun j hj b' hb' => ?_⟩
      dsimp only at hb' ⊢
      by_cases hjt : j = tail
      · subst hjt
        rw [hb] at hb'
        rw [Function.update_self, Option.some.inj hb']
      · rw [Function.update_of_ne hjt]
        exact hphase.2.2 j (by omega) b' hb'
    | copied tail hend =>
      refine h.commits (d := s.toDisk) hg hs hothers h.nodup hcom
        ⟨hphase.1, hphase.2.1, fun j b hb => hphase.2.2 j ?_ b hb⟩
      have hlen := List.getElem?_eq_none_iff.1 hend
      have hj := (List.getElem?_eq_some_iff.1 hb).1
      omega
    | header =>
      exact h.commits hg hs hothers h.nodup hcom
        ⟨rfl, hphase.2.1, hphase.2.2, fun j hj => absurd hj (Nat.not_lt_zero j)⟩
    | installs tail b hb hh =>
      have hinst := install_eq (hphase.2.2.1 tail b hb)
      rw [hinst] at hs ⊢
      refine h.commits hg hs hothers h.nodup hcom
        ⟨hphase.1, fun b' hb' => ?_, hphase.2.2.1, fun j hj b' hb' => ?_⟩
      · have hne : b' ≠ b := by
          rintro rfl
          exact hb' (List.mem_of_getElem? hb)
        exact (Function.update_of_ne hne _ _).trans (hphase.2.1 b' hb')
      · by_cases hbb : b' = b
        · rw [hbb]
          exact Function.update_self ..
        · have hjt : j ≠ tail := by
            rintro rfl
            rw [hb] at hb'
            exact hbb (Option.some.inj hb').symm
          refine (Function.update_of_ne hbb _ _).trans (hphase.2.2.2 j ?_ b' hb')
          omega
    | installed tail hend =>
      refine h.commits (d := s.toDisk) hg hs hothers h.nodup hcom
        ⟨hphase.1, hphase.2.2.1, fun b => ?_⟩
      by_cases hb : b ∈ s.lh
      · obtain ⟨j, hj, hjb⟩ := List.getElem_of_mem hb
        have hlen := List.getElem?_eq_none_iff.1 hend
        exact hphase.2.2.2 j (by omega) b (List.getElem?_eq_some_iff.2 ⟨hj, hjb⟩)
      · exact hphase.2.1 b hb
    | clears =>
      exact h.commits hg hs hothers List.nodup_nil hcom ⟨rfl, rfl, hphase.2.2⟩
    | ends =>
      refine ⟨hsound.step hs, h.owned.step hs, disciplined_step h.disciplined hg hs, h.nodup,
        fun _ => hphase.1, fun _ b hb => absurd (hphase.2.2 b) hb, fun q j l' hcq hj => ?_⟩
      exact absurd ⟨j, l', hcq, hj⟩ ((hsound.step hs).not_committer rfl)

/-- Once the header is written, recovery gives what the buffers hold. -/
theorem recover_installing {d : Disk n} (hn : d.lh.Nodup) (hhead : d.head = d.lh)
    (hclean : ∀ b ∉ d.lh, d.disk b = d.data b)
    (hlog : ∀ j b, d.lh[j]? = some b → d.logged j = d.data b) : d.recoverFromLog = d.data := by
  funext b
  by_cases hb : b ∈ d.lh
  · obtain ⟨j, hj, hjb⟩ := List.getElem_of_mem hb
    have hget : d.lh[j]? = some b := List.getElem?_eq_some_iff.2 ⟨hj, hjb⟩
    rw [recover_of_get (by rwa [hhead]) (by rwa [hhead]), hlog j b hget]
  · rw [recover_of_not_mem (by rwa [hhead]), hclean b hb]

/-- The step is the one that writes the header, the commit point. -/
def Header (a : Kernel n × (Fin n × Choice)) : Prop :=
  (a.1.proc a.2.1).code.head? = some .writeHead

theorem recover_congr {d d' : Disk n} (hhead : d'.head = d.head) (hlogged : d'.logged = d.logged)
    (hdisk : d'.disk = d.disk) : d'.recoverFromLog = d.recoverFromLog := by
  unfold Disk.recoverFromLog Disk.installs
  rw [hhead, hlogged, hdisk]

/-- At the commit point the disk after a crash becomes what the buffers hold. -/
theorem Recoverable.recover_header (h : Recoverable s) (hhead : Header (s, (p, c)))
    (hs : Step E s (p, c) t) : t.recoverFromLog = t.data ∧ t.outstanding = 0 := by
  obtain ⟨rest, hc⟩ := List.head?_eq_some_iff.1 hhead
  have hphase := h.phase p _ rest hc rfl
  have hcom := h.sound.committing p ⟨_, rest, hc, rfl⟩
  have ht : t = s.then p (.installTrans 0 :: rest) { s.toDisk with head := s.lh } := by
    cases step_moves hs with
    | commits i l t _ hc' hi ht =>
      rw [hc] at hc'
      cases hc'
      cases commit_commits ht with
      | header => rfl
    | wake hw =>
      obtain ⟨l, hc'⟩ := h.sound.asleep p hw
      rw [hc] at hc'
      cases hc'
    | exec i l c d _ hc' hi =>
      rw [hc] at hc'
      cases hc'
      cases hi
    | _ => simp_all
  rw [ht]
  refine ⟨?_, h.sound.idle hcom⟩
  exact recover_installing (d := { s.toDisk with head := s.lh }) h.nodup rfl hphase.2.1 hphase.2.2

/-- No other step changes it. -/
theorem Recoverable.recover_other (h : Recoverable s) (hg : Logged s (p, c))
    (hhead : ¬ Header (s, (p, c))) (hs : Step E s (p, c) t) :
    t.recoverFromLog = s.recoverFromLog := by
  have ht := h.step hg hs
  have hmoves := step_moves hs
  cases hmoves with
  | wake | returns | calls | finds | waitCommit | waitSpace | begins | ends | endsLast => rfl
  | exec i l c d ha hc hi hd =>
    have hdisc := h.disciplined p
    rw [hc] at hdisc
    obtain ⟨hdisk, hhead', -⟩ := exec_changes hdisc hd
    exact recover_congr hhead' (exec_some hd).logged hdisk
  | commits i l t _ hc hi hct =>
    have hphase := h.phase p i l hc hi
    have hcommits := commit_commits hct
    cases hcommits with
    | starts | skips | copied | installed | ends => rfl
    | copies =>
      rw [recover_of_head hphase.1]
      exact recover_of_head hphase.1
    | header =>
      refine absurd ?_ hhead
      unfold Header
      rw [hc]
      rfl
    | installs tail b hb hh =>
      have hcode : ((s.then p (.installTrans (tail + 1) :: l)
          ((s.setData b (s.logged tail)).flush b)).proc p).code = .installTrans (tail + 1) :: l := by
        rw [then_proc, if_pos rfl]
      have hphase' := ht.phase p _ l hcode rfl
      rw [recover_installing h.nodup hphase.1 hphase.2.1 hphase.2.2.1,
        recover_installing ht.nodup hphase'.1 hphase'.2.1 hphase'.2.2.1, then_toDisk,
        install_eq (hphase.2.2.1 tail b hb)]
    | clears =>
      have hdata : s.recoverFromLog = s.data :=
        recover_installing h.nodup hphase.1 (fun b _ => hphase.2.2 b) hphase.2.1
      rw [hdata]
      exact (recover_of_head rfl).trans (funext hphase.2.2)

/-- Operations are atomic under crashes: at any point of a run, recovery gives what the buffers held
at the last write of a header, when no operation was outstanding, however often it is cut off itself. -/
theorem crash_atomic (disk : ℕ → Block) {l : List (Kernel n × (Fin n × Choice))}
    (h : Trace (Step E) (boot n disk) l s) (hg : ∀ x ∈ l, Logged x.1 x.2) :
    ∃ l₁ l₂ s₁, l = l₁ ++ l₂ ∧ Trace (Step E) (boot n disk) l₁ s₁ ∧ Trace (Step E) s₁ l₂ s ∧
      (l₁ = [] ∨ ∃ l₀ x, l₁ = l₀ ++ [x] ∧ Header x) ∧ (∀ x ∈ l₂, ¬ Header x) ∧
        s₁.outstanding = 0 ∧ ∀ d, Recovers s.toDisk d → d.recoverFromLog = s₁.data := by
  have hall : (∀ x ∈ l, Logged x.1 x.2) → Recoverable s ∧
      ∃ l₁ l₂ s₁, l = l₁ ++ l₂ ∧ Trace (Step E) (boot n disk) l₁ s₁ ∧ Trace (Step E) s₁ l₂ s ∧
        (l₁ = [] ∨ ∃ l₀ x, l₁ = l₀ ++ [x] ∧ Header x) ∧ (∀ x ∈ l₂, ¬ Header x) ∧
          s₁.outstanding = 0 ∧ s.recoverFromLog = s₁.data := by
    refine h.history (P := fun l s => (∀ x ∈ l, Logged x.1 x.2) → Recoverable s ∧
      ∃ l₁ l₂ s₁, l = l₁ ++ l₂ ∧ Trace (Step E) (boot n disk) l₁ s₁ ∧ Trace (Step E) s₁ l₂ s ∧
        (l₁ = [] ∨ ∃ l₀ x, l₁ = l₀ ++ [x] ∧ Header x) ∧ (∀ x ∈ l₂, ¬ Header x) ∧
          s₁.outstanding = 0 ∧ s.recoverFromLog = s₁.data) ?_ ?_
    · exact fun _ => ⟨boot_recoverable disk, [], [], boot n disk, rfl, .nil, .nil, .inl rfl, by simp,
        rfl, rfl⟩
    · intro l s t a hl ih hs hg
      obtain ⟨hrec, l₁, l₂, s₁, rfl, h₁, h₂, hlast, hno, hout, hdata⟩ :=
        ih fun x hx => hg x (List.mem_append_left _ hx)
      have hga := hg (s, a) (List.mem_append_right _ (List.mem_singleton_self _))
      refine ⟨hrec.step hga hs, ?_⟩
      by_cases hhead : Header (s, a)
      · obtain ⟨hdata', hout'⟩ := hrec.recover_header hhead hs
        exact ⟨_, [], t, (List.append_nil _).symm, hl.snoc hs, .nil, .inr ⟨_, _, rfl, hhead⟩, by simp,
          hout', hdata'⟩
      · refine ⟨l₁, l₂ ++ [(s, a)], s₁, List.append_assoc .., h₁, h₂.snoc hs, hlast, ?_, hout, ?_⟩
        · intro x hx
          obtain hx | hx := List.mem_append.1 hx
          · exact hno x hx
          · rwa [List.mem_singleton.1 hx]
        · rw [hrec.recover_other hga hhead hs, hdata]
  obtain ⟨-, l₁, l₂, s₁, hl, h₁, h₂, hlast, hno, hout, hdata⟩ := hall hg
  exact ⟨l₁, l₂, s₁, hl, h₁, h₂, hlast, hno, hout, fun d hd => hd.recover.trans hdata⟩

theorem crash_atomic_update :
    let s₀ := boot 1 fun _ _ => false
    let es := callBegin (0 : Fin 1) ++ callUpdate 0 60 ++ callEnd 0 ++ List.replicate 4 (0, .go)
    let s := after smallDisk s₀ es
    s.disk 60 0 = false ∧ s.recoverFromLog 60 0 = true ∧
      ∃ l₁ l₂ s₁, Trace.trail (step smallDisk) s₀ es = l₁ ++ l₂ ∧ Trace (Step smallDisk) s₀ l₁ s₁ ∧
        Trace (Step smallDisk) s₁ l₂ s ∧ (l₁ = [] ∨ ∃ l₀ x, l₁ = l₀ ++ [x] ∧ Header x) ∧
          (∀ x ∈ l₂, ¬ Header x) ∧ s₁.outstanding = 0 ∧ ∀ d, Recovers s.toDisk d → d.recoverFromLog = s₁.data :=
  ⟨by decide +kernel, by decide +kernel,
    crash_atomic _ (Trace.of_isSome (by decide +kernel)) (by decide +kernel)⟩

/-- `bfree` is not atomic: its change is on disk before the operation ends. -/
example : (after smallDisk (boot 1 (inUse 80)) (callBegin 0 ++
    [(0, .call (.bfree 64)), (0, .go)])).recoverFromLog 58 64 = false := by decide +kernel

end Xv6Lab.Log
