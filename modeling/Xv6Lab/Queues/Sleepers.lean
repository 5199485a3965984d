import Xv6Lab.Lib.Run
import Xv6Lab.Queues.Fifo

/-! Nobody sleeps on a pipe who could go on: a reader sleeps only while the pipe is empty and a
writer only while it is full. The exception is a killed writer that fills the pipe and returns
without a wakeup for the readers. -/

namespace Xv6Lab.Queues

open Lib

variable {n : ℕ} {s t : Kernel n} {p q : Fin n} {k m : ℕ} {a : Act n} {o : Out}
  {left : List UInt8} {w z : Bool} {f : Option Call}

/-- A killed process does not write all its bytes, while a reader sleeps. -/
def Kernel.GivesUp (s : Kernel n) (p : Fin n) (left : List UInt8) : Prop :=
  (s.proc p).killed = true ∧ (s.pipe.fill left).2.2 ≠ [] ∧ ∃ q, (s.proc q).sleepsIn false = true

/-- The step is not a `pipewrite` that gives up so. -/
def Heard (s : Kernel n) : Act n → Prop
  | .write p bytes => ¬ s.GivesUp p bytes
  | .resume p => ∀ f ∈ (s.proc p).call, ∀ m left, f = .write m left → ¬ s.GivesUp p left
  | _ => True

/-- A process sleeps in a call that cannot go on. -/
structure Settled (s : Kernel n) : Prop where
  counts : ∃ L H, Counts s.pipe L H
  ends : ∀ p, ∀ f, (s.proc p).call = some f →
    (f.isWrite = true → s.pipe.writeopen = true) ∧ (f.isWrite = false → s.pipe.readopen = true)
  asleep : ∀ p, (s.proc p).asleep = true → (s.proc p).call ≠ none ∧ (s.proc p).killed = false
  readers : ∀ p k, (s.proc p).call = some (.read k) → (s.proc p).asleep = true →
    s.pipe.nread = s.pipe.nwrite ∧ s.pipe.writeopen = true
  writers : ∀ p m left, (s.proc p).call = some (.write m left) → (s.proc p).asleep = true →
    s.pipe.nwrite = s.pipe.nread + BitVec.ofNat 32 PIPESIZE ∧ s.pipe.readopen = true

theorem boot_settled (data : ℕ → UInt8) : Settled (boot n data) where
  counts := ⟨0, 0, pipealloc_counts data⟩
  ends p f h := by cases h
  asleep p h := by cases h
  readers p k h := by cases h
  writers p m left h := by cases h

theorem goto_proc (s : Kernel n) (p q : Fin n) (f : Option Call) (z : Bool) :
    (s.goto p f z).proc q = if q = p then ⟨f, z, (s.proc p).killed⟩ else s.proc q := by
  unfold Kernel.goto
  by_cases h : q = p
  · subst h
    simp
  · simp [h]

theorem sleepsIn_iff (x : Proc) :
    x.sleepsIn w = true ↔ x.asleep = true ∧ ∃ f, x.call = some f ∧ f.isWrite = w := by
  unfold Proc.sleepsIn
  cases x.call <;> simp

/-- Who still sleeps after a wakeup slept before, in the other kind of call. -/
theorem asleep_of_wakeup (h : ((s.wakeup w).proc q).asleep = true) :
    (s.proc q).asleep = true ∧ ∀ f, (s.proc q).call = some f → f.isWrite ≠ w := by
  have h' : ((s.proc q).asleep && !(s.proc q).sleepsIn w) = true := h
  rw [Bool.and_eq_true, Bool.not_eq_true'] at h'
  refine ⟨h'.1, fun f hf hw => ?_⟩
  have hin := (sleepsIn_iff (s.proc q)).2 ⟨h'.1, f, hf, hw⟩
  rw [h'.2] at hin
  cases hin

/-- The pipe of `s` changes, and no process but `p` falls asleep or changes its call. -/
structure Follows (s : Kernel n) (p : Fin n) (t : Kernel n) : Prop where
  counts : ∃ L H, Counts t.pipe L H
  readopen : t.pipe.readopen = s.pipe.readopen
  writeopen : t.pipe.writeopen = s.pipe.writeopen
  call : ∀ q, q ≠ p → (t.proc q).call = (s.proc q).call
  killed : ∀ q, q ≠ p → (t.proc q).killed = (s.proc q).killed
  asleep : ∀ q, q ≠ p → (t.proc q).asleep = true → (s.proc q).asleep = true

/-- The rule for a step of process `p`: what is to be shown of the sleepers afterwards. -/
theorem Settled.follows (h : Settled s) (ht : Follows s p t)
    (hcall : ∀ f, (t.proc p).call = some f →
      (f.isWrite = true → t.pipe.writeopen = true) ∧ (f.isWrite = false → t.pipe.readopen = true))
    (hp : (t.proc p).asleep = true → (t.proc p).call ≠ none ∧ (t.proc p).killed = false)
    (hr : ∀ q k, (t.proc q).call = some (.read k) → (t.proc q).asleep = true →
      t.pipe.nread = t.pipe.nwrite ∧ t.pipe.writeopen = true)
    (hw : ∀ q m left, (t.proc q).call = some (.write m left) → (t.proc q).asleep = true →
      t.pipe.nwrite = t.pipe.nread + BitVec.ofNat 32 PIPESIZE ∧ t.pipe.readopen = true) :
    Settled t where
  counts := ht.counts
  ends q f hf := by
    by_cases hqp : q = p
    · subst hqp
      exact hcall f hf
    · rw [ht.call q hqp] at hf
      rw [ht.writeopen, ht.readopen]
      exact h.ends q f hf
  asleep q hq := by
    by_cases hqp : q = p
    · subst hqp
      exact hp hq
    · rw [ht.call q hqp, ht.killed q hqp]
      exact h.asleep q (ht.asleep q hqp hq)
  readers := hr
  writers := hw

theorem follows_goto {x : Pipe} (hc : ∃ L H, Counts x L H) (hr : x.readopen = s.pipe.readopen)
    (hw : x.writeopen = s.pipe.writeopen) : Follows s p ((s.setPipe x).goto p f z) where
  counts := hc
  readopen := hr
  writeopen := hw
  call q hqp := by
    rw [goto_proc, if_neg hqp]
    rfl
  killed q hqp := by
    rw [goto_proc, if_neg hqp]
    rfl
  asleep q hqp hq := by
    rw [goto_proc, if_neg hqp] at hq
    exact hq

theorem follows_wakeup {x : Pipe} (hc : ∃ L H, Counts x L H) (hr : x.readopen = s.pipe.readopen)
    (hw : x.writeopen = s.pipe.writeopen) :
    Follows s p (((s.setPipe x).wakeup w).goto p f z) where
  counts := hc
  readopen := hr
  writeopen := hw
  call q hqp := by
    rw [goto_proc, if_neg hqp]
    rfl
  killed q hqp := by
    rw [goto_proc, if_neg hqp]
    rfl
  asleep q hqp hq := by
    rw [goto_proc, if_neg hqp] at hq
    exact (asleep_of_wakeup hq).1

/-- After a wakeup nobody but `p` sleeps in that kind of call. -/
theorem not_asleep_of_wakeup {c : Call} (hqp : q ≠ p) (hw : c.isWrite = w)
    (hc : (((s.wakeup w).goto p f z).proc q).call = some c)
    (hz : (((s.wakeup w).goto p f z).proc q).asleep = true) : False := by
  rw [goto_proc, if_neg hqp] at hc hz
  exact (asleep_of_wakeup hz).2 c hc hw

/-- A full pipe stays full in the loop of `pipewrite`. -/
theorem full_of_full {x : Pipe} {L H : ℕ} {bytes : List UInt8} {r : Pipe × List UInt8 × List UInt8}
    (h : Counts x L H) (hf : Filled x L H bytes r)
    (hfull : x.nwrite = x.nread + BitVec.ofNat 32 PIPESIZE) :
    r.1.nwrite = r.1.nread + BitVec.ofNat 32 PIPESIZE := by
  have hH := h.full_iff.1 hfull
  have hle := hf.counts.le_size
  exact hf.counts.full_iff.2 (by omega)

/-- The call of process `p` returns. -/
theorem Settled.returns (h : Settled s) (ht : Follows s p t) (hcall : (t.proc p).call = none)
    (hz : (t.proc p).asleep = false)
    (hr : ∀ q k, q ≠ p → (t.proc q).call = some (.read k) → (t.proc q).asleep = true →
      t.pipe.nread = t.pipe.nwrite ∧ t.pipe.writeopen = true)
    (hw : ∀ q m left, q ≠ p → (t.proc q).call = some (.write m left) → (t.proc q).asleep = true →
      t.pipe.nwrite = t.pipe.nread + BitVec.ofNat 32 PIPESIZE ∧ t.pipe.readopen = true) :
    Settled t := by
  have hne : ∀ q, (t.proc q).asleep = true → q ≠ p := by
    rintro q hq rfl
    rw [hz] at hq
    cases hq
  refine h.follows ht (fun f hf => ?_) (fun hp => ?_) ?_ ?_
  · rw [hcall] at hf
    cases hf
  · rw [hz] at hp
    cases hp
  · exact fun q k hc hq => hr q k (hne q hq) hc hq
  · exact fun q m left hc hq => hw q m left (hne q hq) hc hq

/-- Sleeping writers find the pipe full after another `pipewrite`, too. -/
theorem Settled.writers_fill (h : Settled s) {L H : ℕ} {bytes : List UInt8}
    {r : Pipe × List UInt8 × List UInt8} (hc : Counts s.pipe L H)
    (hf : Filled s.pipe L H bytes r) (hcall : (s.proc q).call = some (.write m left))
    (hz : (s.proc q).asleep = true) :
    r.1.nwrite = r.1.nread + BitVec.ofNat 32 PIPESIZE ∧ r.1.readopen = true := by
  obtain ⟨hfull, hro⟩ := h.writers q m left hcall hz
  exact ⟨full_of_full hc hf hfull, hf.readopen.trans hro⟩

theorem Settled.write (h : Settled s) (hopen : s.pipe.writeopen = true)
    (hg : ¬ s.GivesUp p left) : Settled (s.write p m left).1 := by
  obtain ⟨L, H, hcounts⟩ := h.counts
  have hf := fill_filled hcounts left
  unfold Kernel.GivesUp at hg
  unfold Kernel.write
  dsimp only
  generalize s.pipe.fill left = r at hf hg
  have hr : ∃ L H, Counts r.1 L H := ⟨_, _, hf.counts⟩
  by_cases hdone : r.2.2 = []
  · rw [if_pos hdone]
    change Settled (((s.setPipe r.1).wakeup false).goto p none false)
    have ht : Follows s p (((s.setPipe r.1).wakeup false).goto p none false) :=
      follows_wakeup hr hf.readopen hf.writeopen
    refine h.returns ht ?_ ?_ ?_ ?_
    · rw [goto_proc, if_pos rfl]
    · rw [goto_proc, if_pos rfl]
    · intro q k hqp hc hz
      exact (not_asleep_of_wakeup (c := .read k) hqp rfl hc hz).elim
    · intro q m left hqp hc hz
      rw [goto_proc, if_neg hqp] at hc hz
      exact h.writers_fill hcounts hf hc (asleep_of_wakeup hz).1
  · rw [if_neg hdone]
    by_cases hfail : s.pipe.readopen = false ∨ (s.proc p).killed = true
    · rw [if_pos hfail]
      change Settled ((s.setPipe r.1).goto p none false)
      refine h.returns (p := p) (follows_goto hr hf.readopen hf.writeopen) ?_ ?_ ?_ ?_
      · rw [goto_proc, if_pos rfl]
      · rw [goto_proc, if_pos rfl]
      · intro q k hqp hc hz
        rw [goto_proc, if_neg hqp] at hc hz
        obtain hro | hk := hfail
        · have hopen := (h.ends q _ hc).2 rfl
          rw [hro] at hopen
          cases hopen
        · exact absurd ⟨hk, hdone, q, (sleepsIn_iff _).2 ⟨hz, _, hc, rfl⟩⟩ hg
      · intro q m left hqp hc hz
        rw [goto_proc, if_neg hqp] at hc hz
        exact h.writers_fill hcounts hf hc hz
    · rw [if_neg hfail]
      rw [not_or, Bool.not_eq_false, Bool.not_eq_true] at hfail
      change Settled (((s.setPipe r.1).wakeup false).goto p (some (.write m r.2.2)) true)
      refine h.follows (p := p) (follows_wakeup hr hf.readopen hf.writeopen) ?_ ?_ ?_ ?_
      · intro f hf'
        rw [goto_proc, if_pos rfl] at hf'
        cases hf'
        refine ⟨fun _ => hf.writeopen.trans hopen, fun hw => ?_⟩
        cases hw
      · intro _
        rw [goto_proc, if_pos rfl]
        exact ⟨by simp, hfail.2⟩
      · intro q k hc hz
        by_cases hqp : q = p
        · rw [goto_proc, if_pos hqp] at hc
          cases hc
        · exact (not_asleep_of_wakeup (c := .read k) hqp rfl hc hz).elim
      · intro q m left hc hz
        by_cases hqp : q = p
        · exact ⟨hf.counts.full_iff.2 (hf.full hdone), hf.readopen.trans hfail.1⟩
        · rw [goto_proc, if_neg hqp] at hc hz
          exact h.writers_fill hcounts hf hc (asleep_of_wakeup hz).1

theorem Settled.read (h : Settled s) (hopen : s.pipe.readopen = true) (k : ℕ) :
    Settled (s.read p k).1 := by
  obtain ⟨L, H, hcounts⟩ := h.counts
  unfold Kernel.read
  by_cases hempty : s.pipe.nread = s.pipe.nwrite ∧ s.pipe.writeopen = true
  · rw [if_pos hempty]
    have hsame : ∀ {f z}, Follows s p (s.goto p f z) :=
      follows_goto (x := s.pipe) h.counts rfl rfl
    have hothers : ∀ {f z} q m left, q ≠ p → ((s.goto p f z).proc q).call = some (.write m left) →
        ((s.goto p f z).proc q).asleep = true →
        s.pipe.nwrite = s.pipe.nread + BitVec.ofNat 32 PIPESIZE ∧ s.pipe.readopen = true := by
      intro f z q m left hqp hc hz
      rw [goto_proc, if_neg hqp] at hc hz
      exact h.writers q m left hc hz
    by_cases hk : (s.proc p).killed = true
    · rw [if_pos hk]
      change Settled (s.goto p none false)
      refine h.returns (p := p) hsame ?_ ?_ (fun _ _ _ _ _ => hempty) hothers
      · rw [goto_proc, if_pos rfl]
      · rw [goto_proc, if_pos rfl]
    · rw [if_neg hk]
      change Settled (s.goto p (some (.read k)) true)
      refine h.follows (p := p) hsame ?_ ?_ (fun _ _ _ _ => hempty) ?_
      · intro f hf
        rw [goto_proc, if_pos rfl] at hf
        cases hf
        refine ⟨fun hw => ?_, fun _ => hopen⟩
        cases hw
      · intro _
        rw [goto_proc, if_pos rfl]
        exact ⟨by simp, by simpa using hk⟩
      · intro q m left hc hz
        by_cases hqp : q = p
        · rw [goto_proc, if_pos hqp] at hc
          cases hc
        · exact hothers q m left hqp hc hz
  · rw [if_neg hempty]
    dsimp only
    have hd := drain_drained hcounts k
    generalize s.pipe.drain k = r at hd
    change Settled (((s.setPipe r.1).wakeup true).goto p none false)
    refine h.returns (p := p) (follows_wakeup ⟨_, _, hd.counts⟩ hd.readopen hd.writeopen) ?_ ?_ ?_ ?_
    · rw [goto_proc, if_pos rfl]
    · rw [goto_proc, if_pos rfl]
    · intro q j hqp hc hz
      rw [goto_proc, if_neg hqp] at hc hz
      exact absurd (h.readers q j hc (asleep_of_wakeup hz).1) hempty
    · intro q m left hqp hc hz
      exact (not_asleep_of_wakeup (c := .write m left) hqp rfl hc hz).elim

theorem Settled.kill (h : Settled s) (p : Fin n) : Settled (s.kill p) := by
  have hproc : ∀ q, (s.kill p).proc q =
      if q = p then ⟨(s.proc p).call, false, true⟩ else s.proc q := by
    intro q
    unfold Kernel.kill
    by_cases hqp : q = p
    · subst hqp
      simp
    · simp [hqp]
  have hcall : ∀ q, ((s.kill p).proc q).call = (s.proc q).call := by
    intro q
    rw [hproc]
    by_cases hqp : q = p
    · rw [if_pos hqp, hqp]
    · rw [if_neg hqp]
  have hsame : ∀ q, ((s.kill p).proc q).asleep = true → (s.kill p).proc q = s.proc q := by
    intro q hq
    rw [hproc] at hq ⊢
    by_cases hqp : q = p
    · rw [if_pos hqp] at hq
      cases hq
    · rw [if_neg hqp]
  refine ⟨h.counts, fun q f hf => ?_, fun q hq => ?_, fun q k hc hz => ?_,
    fun q m left hc hz => ?_⟩
  · rw [hcall] at hf
    exact h.ends q f hf
  · have hq' := hq
    rw [hsame q hq] at hq' ⊢
    exact h.asleep q hq'
  · have hz' := hz
    rw [hsame q hz] at hc hz'
    exact h.readers q k hc hz'
  · have hz' := hz
    rw [hsame q hz] at hc hz'
    exact h.writers q m left hc hz'

theorem Settled.close (h : Settled s) (hu : s.unused w) : Settled (s.close w) := by
  obtain ⟨L, H, hc⟩ := h.counts
  unfold Kernel.close
  cases w with
  | true =>
    rw [if_pos rfl]
    refine ⟨⟨L, H, hc.nread, hc.nwrite, hc.le, hc.le_size⟩, fun q f hf => ?_, fun q hq => ?_,
      fun q k hf hz => ?_, fun q m left hf hz => ?_⟩
    · exact ⟨fun hw => absurd hw (hu q f hf), (h.ends q f hf).2⟩
    · exact h.asleep q (asleep_of_wakeup hq).1
    · exact absurd rfl ((asleep_of_wakeup hz).2 _ hf)
    · exact absurd rfl (hu q _ hf)
  | false =>
    rw [if_neg (by simp)]
    refine ⟨⟨L, H, hc.nread, hc.nwrite, hc.le, hc.le_size⟩, fun q f hf => ?_, fun q hq => ?_,
      fun q k hf hz => ?_, fun q m left hf hz => ?_⟩
    · exact ⟨(h.ends q f hf).1, fun hw => absurd hw (hu q f hf)⟩
    · exact h.asleep q (asleep_of_wakeup hq).1
    · exact absurd rfl (hu q _ hf)
    · exact absurd rfl ((asleep_of_wakeup hz).2 _ hf)

theorem Settled.step {r : Kernel n × Out} (h : Settled s) (hg : Heard s a)
    (hs : step s a = some r) : Settled r.1 := by
  cases step_does hs with
  | write p bytes _ hopen => exact h.write hopen hg
  | read p k _ hopen => exact h.read hopen k
  | rewrite p m left hc =>
    exact h.write ((h.ends p _ hc).1 rfl) (hg _ hc m left rfl)
  | reread p k hc => exact h.read ((h.ends p _ hc).2 rfl) k
  | kill p => exact h.kill p
  | close w hu => exact h.close hu

/-- Nobody sleeps on the pipe who could go on. -/
theorem pipe_sleepers (data : ℕ → UInt8)
    (h : Run Step (fun s a => Heard s a.1) (boot n data) s) (hz : (s.proc p).asleep = true) :
    (∃ k, (s.proc p).call = some (.read k) ∧ s.pipe.contents = [] ∧ s.pipe.writeopen = true) ∨
    ∃ m left, (s.proc p).call = some (.write m left) ∧ s.pipe.contents.length = PIPESIZE ∧
      s.pipe.readopen = true := by
  have hs : Settled s := by
    refine h.invariant (boot_settled data) ?_
    intro s t a h hg hs
    exact h.step hg hs
  obtain ⟨L, H, hcounts⟩ := hs.counts
  have hle := hcounts.le
  cases hc : (s.proc p).call with
  | none => exact absurd hc (hs.asleep p hz).1
  | some f =>
    cases f with
    | read k =>
      obtain ⟨hempty, hw⟩ := hs.readers p k hc hz
      have hLH := hcounts.empty_iff.1 hempty
      refine .inl ⟨k, rfl, ?_, hw⟩
      rw [hcounts.contents, hLH, Nat.sub_self, Ring.slice_zero]
    | write m left =>
      obtain ⟨hfull, hr⟩ := hs.writers p m left hc hz
      have hH := hcounts.full_iff.1 hfull
      refine .inr ⟨m, left, rfl, ?_, hr⟩
      rw [hcounts.contents, Ring.length_slice]
      omega

/-- A reader sleeps, is woken by a writer, reads what there is and sleeps again. -/
theorem pipe_sleepers_reader : ∃ s : Kernel 2, (s.proc 0).asleep = true ∧
    ((∃ k, (s.proc 0).call = some (.read k) ∧ s.pipe.contents = [] ∧ s.pipe.writeopen = true) ∨
    ∃ m left, (s.proc 0).call = some (.write m left) ∧ s.pipe.contents.length = PIPESIZE ∧
      s.pipe.readopen = true) := by
  have h₁ : Run Step (fun s a => Heard s a.1) (boot 2 fun _ => 0) _ :=
    .single (i := (.read 0 5, _)) trivial rfl
  have h₂ : Run Step (fun s a => Heard s a.1) (boot 2 fun _ => 0) _ :=
    .tail h₁ (i := (.write 1 [1, 2, 3], _)) (fun h => by cases h.1) rfl
  have h₃ : Run Step (fun s a => Heard s a.1) (boot 2 fun _ => 0) _ :=
    .tail h₂ (i := (.resume 0, _)) (by
      rintro f hf m left rfl
      cases hf) rfl
  have h₄ : Run Step (fun s a => Heard s a.1) (boot 2 fun _ => 0) _ :=
    .tail h₃ (i := (.read 0 2, _)) trivial rfl
  exact ⟨_, rfl, pipe_sleepers _ h₄ rfl⟩

/-- A killed writer leaves a reader asleep beside a full pipe. -/
example : (([.read 0 1, .kill 1, .write 1 (List.replicate 513 7)] : List (Act 2)).foldlM
    (fun s a => (step s a).map Prod.fst) (boot 2 fun _ => 0)).map
      (fun s => ((s.proc 0).asleep, s.pipe.contents.length)) = some (true, 512) := by
  decide +kernel

end Xv6Lab.Queues
