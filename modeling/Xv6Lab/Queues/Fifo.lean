import Xv6Lab.Queues.Pipe

/-! What a pipe is for: the bytes come out in the order they went in, none lost and none twice,
although the counters of the pipe wrap; and nobody sleeps who could go on. -/

namespace Xv6Lab.Queues

open Lib

variable {n : ℕ} {s t : Kernel n} {p q : Fin n} {x : Pipe} {L H k : ℕ} {a : Act n} {o : Out}
  {l : List (Kernel n × (Act n × Out))}

/-! ### Counters -/

theorem pipesize_dvd : PIPESIZE ∣ 2 ^ 32 := by decide

/-- The counters of the pipe, if they did not wrap. -/
structure Counts (x : Pipe) (L H : ℕ) : Prop where
  nread : x.nread = BitVec.ofNat 32 L
  nwrite : x.nwrite = BitVec.ofNat 32 H
  le : L ≤ H
  le_size : H ≤ L + PIPESIZE

theorem pipealloc_counts (data : ℕ → UInt8) : Counts (pipealloc data) 0 0 where
  nread := rfl
  nwrite := rfl
  le := le_rfl
  le_size := Nat.zero_le _

theorem lt_of_close {j : ℕ} (hj : L ≤ j) (hk : k ≤ L + PIPESIZE) : k < j + 2 ^ 32 := by
  have : PIPESIZE < 2 ^ 32 := by decide
  omega

theorem Counts.contents (h : Counts x L H) :
    x.contents = Ring.slice PIPESIZE x.data L (H - L) := by
  unfold Pipe.contents
  rw [h.nread, h.nwrite, Ring.word_sub h.le (lt_of_close le_rfl h.le_size),
    Ring.slice_word pipesize_dvd]

theorem Counts.empty_iff (h : Counts x L H) : x.nread = x.nwrite ↔ L = H := by
  rw [h.nread, h.nwrite]
  exact Ring.word_eq_iff h.le (lt_of_close le_rfl h.le_size)

theorem Counts.full_iff (h : Counts x L H) :
    x.nwrite = x.nread + BitVec.ofNat 32 PIPESIZE ↔ H = L + PIPESIZE := by
  rw [h.nread, h.nwrite, Ring.word_add]
  exact Ring.word_eq_iff h.le_size (lt_of_close h.le le_rfl)

/-! ### The loops -/

theorem Counts.put (h : Counts x L H) (hlt : H < L + PIPESIZE) (b : UInt8) :
    Counts (x.put b) L (H + 1) where
  nread := h.nread
  nwrite := by
    change x.nwrite + BitVec.ofNat 32 1 = _
    rw [h.nwrite, Ring.word_add]
  le := h.le.trans (Nat.le_succ H)
  le_size := hlt

theorem Counts.contents_put (h : Counts x L H) (hlt : H < L + PIPESIZE) (b : UInt8) :
    (x.put b).contents = x.contents ++ [b] := by
  have hle := h.le
  have hlen : H - L < PIPESIZE := by omega
  have hpush := @Ring.slice_push _ _ L _ x.data hlen b
  rw [(h.put hlt b).contents, h.contents, ← hpush, show H + 1 - L = (H - L) + 1 by omega,
    show L + (H - L) = H by omega]
  unfold Pipe.put
  rw [h.nwrite, Ring.mod_of_dvd pipesize_dvd]

theorem Counts.get (h : Counts x L H) (hlt : L < H) : Counts x.get.2 (L + 1) H where
  nread := by
    change x.nread + BitVec.ofNat 32 1 = _
    rw [h.nread, Ring.word_add]
  nwrite := h.nwrite
  le := hlt
  le_size := h.le_size.trans (by omega)

theorem Counts.contents_get (h : Counts x L H) (hlt : L < H) :
    x.contents = x.get.1 :: x.get.2.contents := by
  rw [(h.get hlt).contents, h.contents, show H - L = (H - (L + 1)) + 1 by omega, Ring.slice_cons]
  unfold Pipe.get
  rw [h.nread, Ring.mod_of_dvd pipesize_dvd]

/-- What the loop of `pipewrite` does. -/
structure Filled (x : Pipe) (L H : ℕ) (bytes : List UInt8) (r : Pipe × List UInt8 × List UInt8) :
    Prop where
  split : bytes = r.2.1 ++ r.2.2
  counts : Counts r.1 L (H + r.2.1.length)
  contents : r.1.contents = x.contents ++ r.2.1
  full : r.2.2 ≠ [] → H + r.2.1.length = L + PIPESIZE
  readopen : r.1.readopen = x.readopen
  writeopen : r.1.writeopen = x.writeopen

theorem fill_filled (h : Counts x L H) (bytes : List UInt8) :
    Filled x L H bytes (x.fill bytes) := by
  induction bytes generalizing x H with
  | nil => exact ⟨rfl, h, (List.append_nil _).symm, fun hne => absurd rfl hne, rfl, rfl⟩
  | cons b bytes ih =>
    unfold Pipe.fill
    by_cases hfull : x.nwrite = x.nread + BitVec.ofNat 32 PIPESIZE
    · rw [if_pos hfull]
      exact ⟨rfl, h, (List.append_nil _).symm, fun _ => h.full_iff.1 hfull, rfl, rfl⟩
    · rw [if_neg hfull]
      have hlt : H < L + PIPESIZE := lt_of_le_of_ne h.le_size fun he => hfull (h.full_iff.2 he)
      have hr := ih (h.put hlt b)
      generalize (x.put b).fill bytes = r at hr
      have hlen : H + 1 + r.2.1.length = H + (b :: r.2.1).length := by
        rw [List.length_cons]
        omega
      refine ⟨congrArg (b :: ·) hr.split, ?_, ?_, fun hne => ?_, hr.readopen, hr.writeopen⟩
      · rw [← hlen]
        exact hr.counts
      · rw [hr.contents, h.contents_put hlt, List.append_assoc]
        rfl
      · rw [← hlen]
        exact hr.full hne

/-- What the loop of `piperead` that copies does. -/
structure Drained (x : Pipe) (L H k : ℕ) (r : Pipe × List UInt8) : Prop where
  counts : Counts r.1 (L + r.2.length) H
  contents : x.contents = r.2 ++ r.1.contents
  length : r.2.length = min k (H - L)
  readopen : r.1.readopen = x.readopen
  writeopen : r.1.writeopen = x.writeopen

theorem drain_drained (h : Counts x L H) (k : ℕ) : Drained x L H k (x.drain k) := by
  induction k generalizing x L with
  | zero => exact ⟨h, rfl, (Nat.zero_min _).symm, rfl, rfl⟩
  | succ k ih =>
    unfold Pipe.drain
    by_cases hempty : x.nread = x.nwrite
    · rw [if_pos hempty]
      have hLH := h.empty_iff.1 hempty
      refine ⟨h, rfl, ?_, rfl, rfl⟩
      rw [hLH, Nat.sub_self, Nat.min_zero]
      rfl
    · rw [if_neg hempty]
      have hlt : L < H := lt_of_le_of_ne h.le fun he => hempty (h.empty_iff.2 he)
      have hr := ih (h.get hlt)
      generalize x.get.2.drain k = r at hr
      have hlen : L + 1 + r.2.length = L + (x.get.1 :: r.2).length := by
        rw [List.length_cons]
        omega
      refine ⟨?_, ?_, ?_, hr.readopen, hr.writeopen⟩
      · rw [← hlen]
        exact hr.counts
      · rw [h.contents_get hlt, List.cons_append, ← hr.contents]
      · have := hr.length
        rw [List.length_cons]
        omega

/-! ### Steps -/

@[simp] theorem setPipe_pipe (s : Kernel n) (x : Pipe) : (s.setPipe x).pipe = x := rfl

@[simp] theorem wakeup_pipe (s : Kernel n) (w : Bool) : (s.wakeup w).pipe = s.pipe := rfl

@[simp] theorem goto_pipe (s : Kernel n) (p : Fin n) (f : Option Call) (z : Bool) :
    (s.goto p f z).pipe = s.pipe := rfl

theorem write_pipe (s : Kernel n) (p : Fin n) (m : ℕ) (left : List UInt8) :
    (s.write p m left).1.pipe = (s.pipe.fill left).1 ∧
      (s.write p m left).2.queued = (s.pipe.fill left).2.1 ∧ (s.write p m left).2.taken = [] := by
  unfold Kernel.write
  by_cases hdone : (s.pipe.fill left).2.2 = []
  · rw [if_pos hdone]
    exact ⟨rfl, rfl, rfl⟩
  · rw [if_neg hdone]
    by_cases hfail : s.pipe.readopen = false ∨ (s.proc p).killed = true
    · rw [if_pos hfail]
      exact ⟨rfl, rfl, rfl⟩
    · rw [if_neg hfail]
      exact ⟨rfl, rfl, rfl⟩

/-- What a call or the rest of one does to the bytes in the pipe. -/
def Moves (x : Pipe) (r : Kernel n × Out) : Prop :=
  (∃ L H, Counts r.1.pipe L H) ∧ x.contents ++ r.2.queued = r.2.taken ++ r.1.pipe.contents

theorem write_moves (h : Counts s.pipe L H) (p : Fin n) (m : ℕ) (left : List UInt8) :
    Moves s.pipe (s.write p m left) := by
  obtain ⟨hpipe, hqueued, htaken⟩ := write_pipe s p m left
  have hf := fill_filled h left
  unfold Moves
  rw [hpipe, hqueued, htaken]
  exact ⟨⟨_, _, hf.counts⟩, hf.contents.symm⟩

theorem moves_of_same {r : Kernel n × Out} (hpipe : r.1.pipe.contents = x.contents)
    (hcounts : Counts r.1.pipe L H) (hqueued : r.2.queued = []) (htaken : r.2.taken = []) :
    Moves x r := by
  unfold Moves
  rw [hqueued, htaken, hpipe, List.append_nil]
  exact ⟨⟨L, H, hcounts⟩, rfl⟩

theorem read_moves (h : Counts s.pipe L H) (p : Fin n) (k : ℕ) : Moves s.pipe (s.read p k) := by
  unfold Kernel.read
  by_cases hempty : s.pipe.nread = s.pipe.nwrite ∧ s.pipe.writeopen = true
  · rw [if_pos hempty]
    by_cases hk : (s.proc p).killed = true
    · rw [if_pos hk]
      exact moves_of_same rfl h rfl rfl
    · rw [if_neg hk]
      exact moves_of_same rfl h rfl rfl
  · rw [if_neg hempty]
    have hd := drain_drained h k
    exact ⟨⟨_, _, hd.counts⟩, (List.append_nil _).trans hd.contents⟩

/-- The steps, by the code that they run. -/
inductive Does (s : Kernel n) : Act n → Kernel n × Out → Prop
  | write (p : Fin n) (bytes : List UInt8) : (s.proc p).call = none → s.pipe.writeopen = true →
    Does s (.write p bytes) (s.write p bytes.length bytes)
  | read (p : Fin n) (k : ℕ) : (s.proc p).call = none → s.pipe.readopen = true →
    Does s (.read p k) (s.read p k)
  | rewrite (p : Fin n) (m : ℕ) (left : List UInt8) : (s.proc p).call = some (.write m left) →
    (s.proc p).asleep = false → Does s (.resume p) (s.write p m left)
  | reread (p : Fin n) (k : ℕ) : (s.proc p).call = some (.read k) → (s.proc p).asleep = false →
    Does s (.resume p) (s.read p k)
  | kill (p : Fin n) : Does s (.kill p) (s.kill p, ⟨[], [], none⟩)
  | close (w : Bool) : s.unused w → Does s (.close w) (s.close w, ⟨[], [], none⟩)

theorem step_does {r : Kernel n × Out} (hs : step s a = some r) : Does s a r := by
  cases a with
  | write p bytes =>
    simp only [step] at hs
    split_ifs at hs with hc
    rw [← Option.some.inj hs]
    exact .write p bytes hc.1 hc.2
  | read p k =>
    simp only [step] at hs
    split_ifs at hs with hc
    rw [← Option.some.inj hs]
    exact .read p k hc.1 hc.2
  | resume p =>
    simp only [step] at hs
    split_ifs at hs with ha
    obtain ⟨f, hf, rfl⟩ := Option.map_eq_some_iff.1 hs
    cases f with
    | write m left => exact .rewrite p m left hf (by simpa using ha)
    | read k => exact .reread p k hf (by simpa using ha)
  | kill p =>
    rw [← Option.some.inj hs]
    exact .kill p
  | close w =>
    simp only [step] at hs
    split_ifs at hs with hc
    rw [← Option.some.inj hs]
    exact .close w hc

theorem step_bytes {r : Kernel n × Out} (h : Counts s.pipe L H) (hs : step s a = some r) :
    Moves s.pipe r := by
  cases step_does hs with
  | write p bytes => exact write_moves h p _ bytes
  | read p k => exact read_moves h p k
  | rewrite p m left => exact write_moves h p m left
  | reread p k => exact read_moves h p k
  | kill p => exact moves_of_same rfl h rfl rfl
  | close w =>
    cases w with
    | true => exact moves_of_same rfl ⟨h.nread, h.nwrite, h.le, h.le_size⟩ rfl rfl
    | false => exact moves_of_same rfl ⟨h.nread, h.nwrite, h.le, h.le_size⟩ rfl rfl

theorem fifo_trace (data : ℕ → UInt8) (h : Trace Step (boot n data) l s) :
    (∃ L H, Counts s.pipe L H) ∧ queued l = taken l ++ s.pipe.contents := by
  refine h.history
    (P := fun l s => (∃ L H, Counts s.pipe L H) ∧ queued l = taken l ++ s.pipe.contents) ?_ ?_
  · exact ⟨⟨0, 0, pipealloc_counts data⟩, (pipealloc_counts data).contents.symm⟩
  · intro l s t a _ ih hs
    obtain ⟨⟨L, H, hc⟩, hl⟩ := ih
    obtain ⟨hc', hmoved⟩ := step_bytes hc hs
    refine ⟨hc', ?_⟩
    unfold queued taken at *
    rw [List.flatMap_append, List.flatMap_append, hl, List.flatMap_singleton,
      List.flatMap_singleton, List.append_assoc, hmoved, List.append_assoc]

/-- The bytes come out in the order in which they went in, none lost and none twice, and the pipe
holds the others, `PIPESIZE` at most. -/
theorem pipe_fifo (data : ℕ → UInt8) (h : Trace Step (boot n data) l s) :
    queued l = taken l ++ s.pipe.contents ∧ s.pipe.contents.length ≤ PIPESIZE := by
  obtain ⟨⟨L, H, hc⟩, hl⟩ := fifo_trace data h
  refine ⟨hl, ?_⟩
  have hsize := hc.le_size
  rw [hc.contents, Ring.length_slice]
  omega

theorem pipe_fifo_three : ∃ l s, Trace Step (boot 2 fun _ => 0) l s ∧ taken l = [1, 2] ∧
    queued l = taken l ++ s.pipe.contents ∧ s.pipe.contents.length ≤ PIPESIZE := by
  have h : Trace Step (boot 2 fun _ => 0) [_, _] _ :=
    .snoc (.snoc .nil (i := (.write 0 [1, 2, 3], _)) rfl) (i := (.read 1 2, _)) rfl
  exact ⟨_, _, h, rfl, pipe_fifo _ h⟩

/-- A `piperead` returns 0 only at the end of the file: the writers are gone, and all that they
wrote has been read. -/
theorem pipe_eof (data : ℕ → UInt8) {k : ℕ} (h : Trace Step (boot n data) l s) (hk : 0 < k)
    (hr : (s.read p k).2.result = some 0) : s.pipe.writeopen = false ∧ queued l = taken l := by
  obtain ⟨⟨L, H, hc⟩, hl⟩ := fifo_trace data h
  unfold Kernel.read at hr
  by_cases hempty : s.pipe.nread = s.pipe.nwrite ∧ s.pipe.writeopen = true
  · rw [if_pos hempty] at hr
    by_cases hkilled : (s.proc p).killed = true
    · rw [if_pos hkilled] at hr
      cases hr
    · rw [if_neg hkilled] at hr
      cases hr
  · rw [if_neg hempty] at hr
    have hd := drain_drained hc k
    have hlen : (s.pipe.drain k).2.length = 0 := by simpa using hr
    rw [hd.length] at hlen
    have hLH : L = H := by
      have := hc.le
      omega
    have heq := hc.empty_iff.2 hLH
    refine ⟨by simpa [heq] using hempty, ?_⟩
    rw [hl, hc.contents, hLH, Nat.sub_self, Ring.slice_zero, List.append_nil]

theorem pipe_eof_closed : ∃ l s, Trace Step (boot 2 fun _ => 0) l s ∧ queued l = [7] ∧
    (s.pipe.writeopen = false ∧ queued l = taken l) := by
  have h : Trace Step (boot 2 fun _ => 0) [_, _, _] _ :=
    .snoc (.snoc (.snoc .nil (i := (.write 0 [7], _)) rfl) (i := (.close true, _)) rfl)
      (i := (.read 1 5, _)) rfl
  exact ⟨_, _, h, rfl, pipe_eof (p := 1) (k := 3) _ h (by decide) rfl⟩

end Xv6Lab.Queues
