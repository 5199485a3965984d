import Xv6Lab.Bio.Steps

/-! What the buffer cache is for: blocks that one process at a time has locked, reads and changes,
and writes to the disk. The cache refines that, so a process finds in a buffer what the last one
left in the block, whatever was recycled in between. -/

namespace Xv6Lab.Bio

open Lib

variable {n : ℕ} {α : Type} {size : ℕ} {s t u : Cache n α} {p q : Fin n} {i j : Fin NBUF}
  {a : Act α} {l : List (Fin NBUF)} {b blockno : ℕ}

structure Blocks (n : ℕ) (α : Type) where
  holder : ℕ → Option (Fin n)
  data : ℕ → α
  disk : ℕ → α

inductive Op (α : Type)
  | lock (b : ℕ)
  | store (b : ℕ) (x : α)
  | flush (b : ℕ)
  | unlock (b : ℕ)

def Blocks.boot (n : ℕ) (disk : ℕ → α) : Blocks n α := ⟨fun _ => none, disk, disk⟩

def Blocks.exec (B : Blocks n α) (a : Fin n × Op α) : Option (Blocks n α) :=
  match a.2 with
  | .lock b =>
    if B.holder b = none then some { B with holder := Function.update B.holder b (some a.1) } else none
  | .store b x =>
    if B.holder b = some a.1 then some { B with data := Function.update B.data b x } else none
  | .flush b =>
    if B.holder b = some a.1 then some { B with disk := Function.update B.disk b (B.data b) } else none
  | .unlock b =>
    if B.holder b = some a.1 then some { B with holder := Function.update B.holder b none } else none

/-- The data of the buffer count: they were read, or are to be written. -/
def Buf.known (b : Buf n α) : Bool := b.valid || b.dirty

/-- What the block of a buffer holds. -/
def Buf.view (disk : ℕ → α) (b : Buf n α) : α := if b.known then b.data else disk b.blockno

/-- The buffer of a block. -/
def Cache.find (s : Cache n α) (b : ℕ) : Option (Fin NBUF) :=
  (List.finRange NBUF).find? fun i => (s.buf i).holds ROOTDEV b

/-- The blocks as the cache and the disk hold them. -/
def Cache.blocks (s : Cache n α) : Blocks n α where
  holder b := (s.find b).bind fun i => (s.buf i).lock
  data b := (s.find b).elim (s.disk b) fun i => (s.buf i).view s.disk
  disk := s.disk

/-- Setting `B_DIRTY` makes the data of the buffer count. -/
def Cache.opDirty (s : Cache n α) (p : Fin n) (i : Fin NBUF) : Option (Fin n × Op α) :=
  if (s.buf i).known then none else some (p, .store (s.buf i).blockno (s.buf i).data)

/-- What a step does to the blocks. -/
def op (x : Cache n α × (Fin n × Act α)) : Option (Fin n × Op α) :=
  let s := x.1
  let p := x.2.1
  match x.2.2 with
  | .bget _ _ _ => none
  | .go =>
    match s.status p with
    | .locking i _ => some (p, .lock (s.buf i).blockno)
    | .iderw i => if (s.buf i).dirty then some (p, .flush (s.buf i).blockno) else none
    | _ => none
  | .store i y => if (s.buf i).known then some (p, .store (s.buf i).blockno y) else none
  | .logWrite i => s.opDirty p i
  | .bwrite i => s.opDirty p i
  | .brelse i => some (p, .unlock (s.buf i).blockno)

/-! ### The blocks of a state -/

variable {B B' : Blocks n α}

theorem blocks_holder (s : Cache n α) (b : ℕ) :
    s.blocks.holder b = (s.find b).bind fun i => (s.buf i).lock := rfl

theorem blocks_data (s : Cache n α) (b : ℕ) :
    s.blocks.data b = (s.find b).elim (s.disk b) fun i => (s.buf i).view s.disk := rfl

/-- The blocks as seen from the buffers. -/
structure Shows (s : Cache n α) (B : Blocks n α) : Prop where
  disk : B.disk = s.disk
  cached : ∀ i, (s.buf i).dev = ROOTDEV → B.holder (s.buf i).blockno = (s.buf i).lock ∧
    B.data (s.buf i).blockno = (s.buf i).view s.disk
  absent : ∀ b, (∀ i, (s.buf i).holds ROOTDEV b = false) → B.holder b = none ∧ B.data b = s.disk b

theorem find_none : s.find b = none ↔ ∀ i, (s.buf i).holds ROOTDEV b = false := by
  unfold Cache.find
  rw [List.find?_eq_none]
  constructor
  · intro h i
    exact Bool.eq_false_iff.2 (h i (List.mem_finRange i))
  · intro h i _
    exact Bool.eq_false_iff.1 (h i)

theorem find_some (h : s.find b = some i) : (s.buf i).dev = ROOTDEV ∧ (s.buf i).blockno = b := by
  have hi := List.find?_some h
  exact holds_iff.1 hi

theorem Sound.find (h : Sound s) (hi : (s.buf i).dev = ROOTDEV) :
    s.find (s.buf i).blockno = some i := by
  cases hf : s.find (s.buf i).blockno with
  | none =>
    have hnot := find_none.1 hf i
    rw [Bool.eq_false_iff, ne_eq, holds_iff] at hnot
    exact absurd ⟨hi, rfl⟩ hnot
  | some j =>
    have hj := find_some hf
    rw [h.one j i hj.1 hi hj.2]

theorem Sound.shows (h : Sound s) : Shows s s.blocks where
  disk := rfl
  cached i hi := by
    rw [blocks_holder, blocks_data, h.find hi]
    exact ⟨rfl, rfl⟩
  absent b hb := by
    rw [blocks_holder, blocks_data, find_none.2 hb]
    exact ⟨rfl, rfl⟩

theorem Shows.eq (h : Shows s B) : B = s.blocks := by
  have hboth : ∀ b, B.holder b = s.blocks.holder b ∧ B.data b = s.blocks.data b := by
    intro b
    rw [blocks_holder, blocks_data]
    cases hf : s.find b with
    | none => exact h.absent b (find_none.1 hf)
    | some i =>
      obtain ⟨hi, rfl⟩ := find_some hf
      exact h.cached i hi
  have hholder : B.holder = s.blocks.holder := funext fun b => (hboth b).1
  have hdata : B.data = s.blocks.data := funext fun b => (hboth b).2
  cases B with
  | mk holder data disk =>
    obtain rfl := hholder
    obtain rfl := hdata
    obtain rfl := h.disk
    rfl

/-- Buffer `i` changes, and its block with it. -/
theorem Shows.moved (h : Shows s B) (hs : Sound s) (hi : (s.buf i).dev = ROOTDEV)
    (hbuf : ∀ j ≠ i, t.buf j = s.buf j) (hdev : (t.buf i).dev = (s.buf i).dev)
    (hblock : (t.buf i).blockno = (s.buf i).blockno)
    (hdisk : ∀ b ≠ (s.buf i).blockno, t.disk b = s.disk b) (hB : B'.disk = t.disk)
    (hholder : B'.holder = Function.update B.holder (s.buf i).blockno (t.buf i).lock)
    (hdata : B'.data = Function.update B.data (s.buf i).blockno ((t.buf i).view t.disk)) :
    Shows t B' where
  disk := hB
  cached j hj := by
    by_cases hji : j = i
    · subst hji
      rw [hblock, hholder, hdata, Function.update_self, Function.update_self]
      exact ⟨rfl, rfl⟩
    · rw [hbuf j hji] at hj ⊢
      have hne : (s.buf j).blockno ≠ (s.buf i).blockno := fun he => hji (hs.one j i hj hi he)
      rw [hholder, hdata, Function.update_of_ne hne, Function.update_of_ne hne]
      unfold Buf.view
      rw [hdisk _ hne]
      exact h.cached j hj
  absent b hb := by
    have hnone : ∀ j, (s.buf j).holds ROOTDEV b = false := by
      intro j
      by_cases hji : j = i
      · have hj := hb j
        unfold Buf.holds at hj ⊢
        rw [hji] at hj ⊢
        rwa [← hdev, ← hblock]
      · rw [← hbuf j hji]
        exact hb j
    have hne : b ≠ (s.buf i).blockno := by
      rintro rfl
      have hii := hnone i
      rw [Bool.eq_false_iff, ne_eq, holds_iff] at hii
      exact hii ⟨hi, rfl⟩
    rw [hholder, hdata, Function.update_of_ne hne, Function.update_of_ne hne, hdisk b hne]
    exact h.absent b hnone

/-- The same for a change that does not show. -/
theorem Shows.kept (h : Shows s B) (hs : Sound s) (hi : (s.buf i).dev = ROOTDEV)
    (hbuf : ∀ j ≠ i, t.buf j = s.buf j) (hdev : (t.buf i).dev = (s.buf i).dev)
    (hblock : (t.buf i).blockno = (s.buf i).blockno) (hdisk : t.disk = s.disk)
    (hlock : (t.buf i).lock = (s.buf i).lock)
    (hview : (t.buf i).view t.disk = (s.buf i).view s.disk) : Shows t B := by
  obtain ⟨hholder, hdata⟩ := h.cached i hi
  refine h.moved hs hi hbuf hdev hblock (fun b _ => by rw [hdisk]) (h.disk.trans hdisk.symm) ?_ ?_
  · rw [hlock, ← hholder, Function.update_eq_self]
  · rw [hview, ← hdata, Function.update_eq_self]

/-- An unused buffer is taken for a block that no buffer holds. -/
theorem Shows.recycled (h : Shows s B) (hs : Sound s) (hunused : (s.buf i).unused = true)
    (hnone : ∀ j, (s.buf j).holds ROOTDEV b = false) (hbuf : ∀ j ≠ i, t.buf j = s.buf j)
    (hblock : (t.buf i).blockno = b) (hlock : (t.buf i).lock = (s.buf i).lock)
    (hknown : (t.buf i).known = false) (hdisk : t.disk = s.disk) : Shows t B := by
  obtain ⟨hzero, hclean⟩ := unused_iff.1 hunused
  have hfree : (s.buf i).lock = none := by
    by_contra hl
    have := hs.counted.lock_pos hl
    omega
  refine ⟨h.disk.trans hdisk.symm, fun j hj => ?_, fun b' hb' => ?_⟩
  · by_cases hji : j = i
    · obtain ⟨hholder, hdata⟩ := h.absent b hnone
      unfold Buf.view
      rw [hji, hblock, hholder, hlock, hfree, hdata, hknown, hdisk]
      exact ⟨rfl, rfl⟩
    · rw [hbuf j hji] at hj ⊢
      rw [hdisk]
      exact h.cached j hj
  · rw [hdisk]
    by_cases hold : (s.buf i).holds ROOTDEV b' = true
    · -- the block that is no longer cached is on the disk
      obtain ⟨hdev, rfl⟩ := holds_iff.1 hold
      obtain ⟨hholder, hdata⟩ := h.cached i hdev
      refine ⟨hholder.trans hfree, ?_⟩
      rw [hdata]
      unfold Buf.view Buf.known
      rw [hclean, Bool.or_false]
      cases hvalid : (s.buf i).valid with
      | false => rfl
      | true =>
        obtain hd | hd := hs.clean i hfree hvalid
        · rw [hclean] at hd
          cases hd
        · exact hd
    · refine h.absent b' fun j => ?_
      by_cases hji : j = i
      · rw [hji]
        exact Bool.eq_false_iff.2 hold
      · rw [← hbuf j hji]
        exact hb' j

theorem view_of_known {b : Buf n α} {disk : ℕ → α} (h : b.known = true) : b.view disk = b.data :=
  if_pos h

theorem view_of_not_known {b : Buf n α} {disk : ℕ → α} (h : b.known = false) :
    b.view disk = disk b.blockno := if_neg (Bool.eq_false_iff.1 h)

theorem known_of_dirty {b : Buf n α} (h : b.dirty = true) : b.known = true := by
  unfold Buf.known
  rw [h, Bool.or_true]

theorem known_of_valid {b : Buf n α} (h : b.valid = true) : b.known = true := by
  unfold Buf.known
  rw [h, Bool.true_or]

/-! ### Refinement -/

/-- `B_DIRTY` is set in a locked buffer. -/
theorem blocks_dirty (hs : Sound s) (hlock : (s.buf i).lock = some p)
    (hbuf : t.buf = (s.setBuf i { s.buf i with dirty := true }).buf) (hdisk : t.disk = s.disk) :
    (s.opDirty p i).elim (some s.blocks) s.blocks.exec = some t.blocks := by
  have hi := hs.dev_of_lock hlock
  have hself : t.buf i = { s.buf i with dirty := true } := by rw [hbuf, setBuf_self]
  have hother : ∀ j ≠ i, t.buf j = s.buf j := fun j hj => by rw [hbuf, setBuf_of_ne hj]
  have hview : (t.buf i).view t.disk = (s.buf i).data := by
    rw [hself]
    exact view_of_known (known_of_dirty rfl)
  unfold Cache.opDirty
  cases hknown : (s.buf i).known with
  | true =>
    rw [if_pos rfl]
    refine congrArg some (Shows.eq (hs.shows.kept hs hi hother ?_ ?_ hdisk ?_ ?_))
    · rw [hself]
    · rw [hself]
    · rw [hself]
    · rw [hview, view_of_known hknown]
  | false =>
    have hholder := (hs.shows.cached i hi).1
    change (if s.blocks.holder (s.buf i).blockno = some p then _ else _) = _
    rw [if_pos (hholder.trans hlock)]
    refine congrArg some (Shows.eq (hs.shows.moved hs hi hother ?_ ?_ (fun b _ => by rw [hdisk])
      hdisk.symm ?_ ?_))
    · rw [hself]
    · rw [hself]
    · rw [hself]
      change s.blocks.holder = Function.update s.blocks.holder (s.buf i).blockno (s.buf i).lock
      rw [← hholder, Function.update_eq_self]
    · rw [hview]

/-- One step of the cache is one step on the blocks, or none. -/
theorem Does.blocks (h : Does size s l p a t) (hk : Kept s (p, a)) (hs : Sound s) :
    (op (s, (p, a))).elim (some s.blocks) s.blocks.exec = some t.blocks := by
  have hshows := hs.shows
  cases h with
  | hit i dev blockno read _ hi =>
    have hdev : (s.buf i).dev = ROOTDEV := (holds_iff.1 hi).1.trans hk
    refine congrArg some (Shows.eq (hshows.kept hs hdev (fun j hj => setBuf_of_ne hj _) ?_ ?_ rfl
      ?_ ?_)) <;> rw [setStatus_buf, setBuf_self]
    rfl
  | recycle i dev blockno read _ hnone hfind =>
    have hi := List.find?_some (p := fun j => (s.buf j).unused) hfind
    obtain rfl : dev = ROOTDEV := hk
    refine congrArg some (Shows.eq (hshows.recycled (b := blockno) hs hi hnone
      (fun j hj => setBuf_of_ne hj _) ?_ ?_ ?_ rfl)) <;> rw [setStatus_buf, setBuf_self]
    rfl
  | lock i read hst hlock =>
    have hcount := hs.counted.refs_le p i
    rw [hst, refs_locking, if_pos rfl] at hcount
    have hi := hs.dev_of_refcnt (i := i) (by omega)
    have hop : op (s, (p, Act.go)) = some (p, .lock (s.buf i).blockno) := by
      unfold op
      simp only [hst]
    rw [hop]
    change (if s.blocks.holder (s.buf i).blockno = none then _ else _) = _
    rw [if_pos ((hshows.cached i hi).1.trans hlock)]
    refine congrArg some (Shows.eq (hshows.moved hs hi (fun j hj => setBuf_of_ne hj _) ?_ ?_
      (fun b _ => rfl) rfl ?_ ?_)) <;> rw [setStatus_buf, setBuf_self]
    change s.blocks.data = Function.update s.blocks.data _ ((s.buf i).view s.disk)
    rw [← (hshows.cached i hi).2, Function.update_eq_self]
  | write i hst hdirty hi =>
    have hlock := (hs.io p i hst).1
    obtain ⟨hholder, hdata⟩ := hshows.cached i hi
    rw [view_of_known (known_of_dirty hdirty)] at hdata
    have hop : op (s, (p, Act.go)) = some (p, .flush (s.buf i).blockno) := by
      unfold op
      simp only [hst]
      rw [if_pos hdirty]
    rw [hop]
    change (if s.blocks.holder (s.buf i).blockno = some p then _ else _) = _
    rw [if_pos (hholder.trans hlock)]
    refine congrArg some (Shows.eq (hshows.moved hs hi (fun j hj => setBuf_of_ne hj _) ?_ ?_
      (fun b hb => Function.update_of_ne hb _ _) ?_ ?_ ?_))
    · rw [setStatus_buf, setDisk_buf, setBuf_self]
    · rw [setStatus_buf, setDisk_buf, setBuf_self]
    · rw [hdata]
      rfl
    · rw [setStatus_buf, setDisk_buf, setBuf_self, ← hholder]
      exact (Function.update_eq_self ..).symm
    · rw [setStatus_buf, setDisk_buf, setBuf_self, view_of_known (known_of_valid rfl), ← hdata]
      exact (Function.update_eq_self ..).symm
  | fill i hst hdirty hvalid hi =>
    have hop : op (s, (p, Act.go)) = none := by
      unfold op
      simp only [hst]
      rw [if_neg (Bool.eq_false_iff.1 hdirty)]
    rw [hop]
    refine congrArg some (Shows.eq (hshows.kept hs hi (fun j hj => setBuf_of_ne hj _) ?_ ?_ rfl
      ?_ ?_)) <;> rw [setStatus_buf, setBuf_self]
    have hknown : (s.buf i).known = false := by
      unfold Buf.known
      rw [hvalid, hdirty]
      rfl
    rw [view_of_known (known_of_valid rfl), view_of_not_known hknown]
  | putBack i hst =>
    have hcount := hs.counted.refs_le p i
    rw [hst, refs_unlocked, if_pos rfl] at hcount
    have hi := hs.dev_of_refcnt (i := i) (by omega)
    have hop : op (s, (p, Act.go)) = none := by
      unfold op
      simp only [hst]
    rw [hop]
    have hself : (s.putBack p i).buf i = { s.buf i with refcnt := (s.buf i).refcnt - 1 } := by
      rw [putBack_buf, setBuf_self]
    refine congrArg some (Shows.eq (hshows.kept hs hi (fun j hj => ?_) ?_ ?_
      (putBack_disk s p i) ?_ ?_))
    · rw [putBack_buf, setBuf_of_ne hj]
    · rw [hself]
    · rw [hself]
    · rw [hself]
    · rw [hself, putBack_disk]
      rfl
  | store i x _ hlock =>
    have hi := hs.dev_of_lock hlock
    obtain ⟨hholder, hdata⟩ := hshows.cached i hi
    change (if (s.buf i).known = true then _ else _ : Option (Fin n × Op α)).elim _ _ = _
    cases hknown : (s.buf i).known with
    | true =>
      rw [if_pos rfl]
      change (if s.blocks.holder (s.buf i).blockno = some p then _ else _) = _
      rw [if_pos (hholder.trans hlock)]
      refine congrArg some (Shows.eq (hshows.moved hs hi (fun j hj => setBuf_of_ne hj _) ?_ ?_
        (fun b _ => rfl) rfl ?_ ?_)) <;> rw [setBuf_self]
      · rw [← hholder]
        exact (Function.update_eq_self ..).symm
      · have hknown' : ({ s.buf i with data := x } : Buf n α).known = true := hknown
        exact congrArg (Function.update s.blocks.data _) (view_of_known hknown').symm
    | false =>
      rw [if_neg (by simp)]
      refine congrArg some (Shows.eq (hshows.kept hs hi (fun j hj => setBuf_of_ne hj _) ?_ ?_ rfl
        ?_ ?_)) <;> rw [setBuf_self]
      have hknown' : ({ s.buf i with data := x } : Buf n α).known = false := hknown
      rw [view_of_not_known hknown]
      exact view_of_not_known hknown'
  | logWrite i _ hlock => exact blocks_dirty hs hlock rfl rfl
  | bwrite i _ hlock => exact blocks_dirty hs hlock rfl rfl
  | brelse i _ hlock =>
    have hi := hs.dev_of_lock hlock
    obtain ⟨hholder, hdata⟩ := hshows.cached i hi
    change (if s.blocks.holder (s.buf i).blockno = some p then _ else _) = _
    rw [if_pos (hholder.trans hlock)]
    refine congrArg some (Shows.eq (hshows.moved hs hi (fun j hj => setBuf_of_ne hj _) ?_ ?_
      (fun b _ => rfl) rfl ?_ ?_)) <;> rw [setStatus_buf, setBuf_self]
    change s.blocks.data = Function.update s.blocks.data _ ((s.buf i).view s.disk)
    rw [← hdata, Function.update_eq_self]

theorem binit_blocks (n : ℕ) (zero : α) (disk : ℕ → α) :
    Blocks.boot n disk = (binit n zero disk).blocks := by
  refine Shows.eq ⟨rfl, fun i hi => ?_, fun b _ => ⟨rfl, rfl⟩⟩
  cases hi

theorem trace_blocks {zero : α} {disk : ℕ → α} {steps : List (Cache n α × (Fin n × Act α))}
    (h : Trace (Step size) (binit n zero disk) steps t) (hk : ∀ x ∈ steps, Kept x.1 x.2) :
    (steps.filterMap op).foldlM Blocks.exec (Blocks.boot n disk) = some t.blocks := by
  induction h with
  | nil => exact congrArg some (binit_blocks n zero disk)
  | @snoc l' s t a htrace hstep ih =>
    have hk' := fun x hx => hk x (List.mem_append_left _ hx)
    have hs := run_sound (htrace.run hk')
    have ha : Kept s a := hk (s, a) (List.mem_append_right _ (List.mem_singleton_self _))
    obtain ⟨order, horder⟩ := hs.listed
    have hdoes := (step_does horder hstep).blocks ha hs
    rw [List.filterMap_append, List.foldlM_append, ih hk', ← hdoes]
    change List.foldlM Blocks.exec s.blocks ([(s, a)].filterMap op) = _
    rw [List.filterMap_cons, List.filterMap_nil]
    cases op (s, (a.1, a.2)) with
    | none => rfl
    | some o => exact bind_pure _

/-- The cache refines the blocks: the operations of a run, in their order, are possible on the
blocks, and whoever has locked a buffer with data has locked its block and finds there what the
operations have left. -/
theorem cache_refines {zero : α} {disk : ℕ → α} {steps : List (Cache n α × (Fin n × Act α))}
    (h : Trace (Step size) (binit n zero disk) steps t) (hk : ∀ x ∈ steps, Kept x.1 x.2) :
    ∃ B, (steps.filterMap op).foldlM Blocks.exec (Blocks.boot n disk) = some B ∧
      B.disk = t.disk ∧ ∀ p i, (t.buf i).lock = some p →
        B.holder (t.buf i).blockno = some p ∧
        ((t.buf i).valid = true → B.data (t.buf i).blockno = (t.buf i).data) := by
  have hs := run_sound (h.run hk)
  refine ⟨t.blocks, trace_blocks h hk, rfl, fun p i hlock => ?_⟩
  obtain ⟨hholder, hdata⟩ := hs.shows.cached i (hs.dev_of_lock hlock)
  refine ⟨hholder.trans hlock, fun hvalid => ?_⟩
  rw [hdata, view_of_known (known_of_valid hvalid)]

theorem cache_refines_two :
    let s := after 1000 (numbered 2)
      (change 0 5 firstBuf 7 ++ [(1, .bget ROOTDEV 5 true), (1, .go)])
    ∃ B : Blocks 2 ℕ, B.disk = s.disk ∧ B.holder 5 = some 1 ∧ B.data 5 = 7 := by
  intro s
  have h : Trace (Step 1000) (numbered 2) (Trace.trail (step 1000) (numbered 2)
      (change 0 5 firstBuf 7 ++ [(1, .bget ROOTDEV 5 true), (1, .go)])) s :=
    Trace.of_isSome (by decide +kernel)
  obtain ⟨B, -, hdisk, hB⟩ := cache_refines h (by decide +kernel)
  have hlock : (s.buf firstBuf).lock = some 1 := by decide +kernel
  have hblock : (s.buf firstBuf).blockno = 5 := by decide +kernel
  have hdata : (s.buf firstBuf).data = 7 := by decide +kernel
  obtain ⟨hholder, hvalid⟩ := hB 1 firstBuf hlock
  rw [hblock] at hholder hvalid
  exact ⟨B, hdisk, hholder, (hvalid (by decide +kernel)).trans hdata⟩

/-! ### A buffer in use -/

/-- No other step takes the lock away. -/
theorem Does.lock_kept (h : Does size s l q a t) (hs : Sound s) (hi : (s.buf i).lock = some p)
    (ha : (q, a) ≠ (p, .brelse i)) : (t.buf i).lock = some p := by
  have hkeep : ∀ {j : Fin NBUF} {b : Buf n α}, b.lock = (s.buf j).lock →
      ((s.setBuf j b).buf i).lock = some p := by
    intro j b hb
    refine setBuf_cases (P := fun x b => x = i → b.lock = some p) (fun _ hx => hx ▸ hi)
      (fun hx => ?_) i rfl
    rw [hb, hx]
    exact hi
  have hpos := hs.counted.lock_pos (i := i) (by simp [hi])
  cases h with
  | lock j read _ hnone =>
    have hne : i ≠ j := by
      rintro rfl
      rw [hi] at hnone
      cases hnone
    rwa [setStatus_buf, setBuf_of_ne hne]
  | brelse j _ hlock =>
    have hne : i ≠ j := by
      rintro rfl
      rw [hi] at hlock
      cases hlock
      exact ha rfl
    rwa [setStatus_buf, setBuf_of_ne hne]
  | putBack j _ =>
    rw [putBack_buf]
    exact hkeep rfl
  | _ => exact hkeep rfl

/-- A buffer in use is not recycled. -/
theorem Does.block_kept (h : Does size s l q a t) (hpos : (s.buf i).refcnt ≠ 0) :
    (t.buf i).dev = (s.buf i).dev ∧ (t.buf i).blockno = (s.buf i).blockno := by
  obtain ⟨k, _, _, _, -, hunused, -, -, -, hsame⟩ | hsame := h.block
  · have hne : i ≠ k := by
      rintro rfl
      exact hpos (unused_iff.1 hunused).1
    rw [hsame i hne]
    exact ⟨rfl, rfl⟩
  · exact hsame i

/-- Once read, the data of a buffer in use stay valid. -/
theorem Does.valid_kept (h : Does size s l q a t) (hpos : (s.buf i).refcnt ≠ 0)
    (hi : (s.buf i).valid = true) : (t.buf i).valid = true := by
  have hkeep : ∀ {j : Fin NBUF} {b : Buf n α}, ((s.buf j).valid = true → b.valid = true) →
      ((s.setBuf j b).buf i).valid = true := by
    intro j b hb
    refine setBuf_cases (P := fun x b => x = i → b.valid = true) (fun _ hx => hx ▸ hi)
      (fun hx => hb ?_) i rfl
    rw [hx]
    exact hi
  cases h with
  | recycle j _ _ _ _ _ hfind =>
    have hunused := List.find?_some (p := fun j => (s.buf j).unused) hfind
    have hne : i ≠ j := by
      rintro rfl
      exact hpos (unused_iff.1 hunused).1
    rwa [setStatus_buf, setBuf_of_ne hne]
  | putBack j _ =>
    rw [putBack_buf]
    exact hkeep id
  | write j _ _ _ => exact hkeep fun _ => rfl
  | fill j _ _ _ _ => exact hkeep fun _ => rfl
  | _ => exact hkeep id

/-- Process `p` has called `bread` or `bget` for block `b`, and not released the buffer. -/
structure Has (p : Fin n) (b : ℕ) (read : Bool) (i : Fin NBUF) (s : Cache n α) : Prop where
  dev : (s.buf i).dev = ROOTDEV
  blockno : (s.buf i).blockno = b
  state : s.status p = .locking i read ∨ (s.buf i).lock = some p ∧
    (read = true → (s.buf i).valid = true ∨ s.status p = .iderw i)

theorem Has.pos {read : Bool} (h : Has p b read i s) (hs : Sound s) : (s.buf i).refcnt ≠ 0 := by
  obtain hst | ⟨hlock, -⟩ := h.state
  · have hcount := hs.counted.refs_le p i
    rw [hst, refs_locking, if_pos rfl] at hcount
    omega
  · exact (hs.counted.lock_pos (by simp [hlock])).ne'

theorem Does.has {read : Bool} (h : Does size s l q a t) (hs : Sound s)
    (ha : (q, a) ≠ (p, .brelse i)) (hp : Has p b read i s) : Has p b read i t := by
  obtain ⟨hdev, hblock⟩ := h.block_kept (hp.pos hs)
  refine ⟨hdev.trans hp.dev, hblock.trans hp.blockno, ?_⟩
  obtain hst | ⟨hlock, hread⟩ := hp.state
  · by_cases hqp : p = q
    · subst hqp
      right
      cases h with
      | lock j read' hst' hnone =>
        cases hst'.symm.trans hst
        rw [setStatus_buf, setBuf_self, setStatus_self]
        refine ⟨rfl, fun hr => ?_⟩
        cases hv : (s.buf i).valid with
        | true => exact .inl rfl
        | false =>
          right
          rw [if_pos ⟨hr, rfl⟩]
      | hit j _ _ _ hst' _ | recycle j _ _ _ hst' _ _ | write j hst' _ _ | fill j hst' _ _ _
      | putBack j hst' | store j _ hst' _ | logWrite j hst' _ | bwrite j hst' _
      | brelse j hst' _ => cases hst'.symm.trans hst
    · exact .inl ((h.status hqp).trans hst)
  · refine .inr ⟨h.lock_kept hs hlock ha, fun hr => ?_⟩
    obtain hvalid | hio := hread hr
    · exact .inl (h.valid_kept (hp.pos hs) hvalid)
    · by_cases hqp : p = q
      · subst hqp
        left
        cases h with
        | write j hst' _ _ =>
          cases hst'.symm.trans hio
          rw [setStatus_buf, setDisk_buf, setBuf_self]
        | fill j hst' _ _ _ =>
          cases hst'.symm.trans hio
          rw [setStatus_buf, setBuf_self]
        | hit j _ _ _ hst' _ | recycle j _ _ _ hst' _ _ | lock j _ hst' _ | putBack j hst'
        | store j _ hst' _ | logWrite j hst' _ | bwrite j hst' _ | brelse j hst' _ =>
          cases hst'.symm.trans hio
      · exact .inr ((h.status hqp).trans hio)

theorem bget_has {read : Bool} (hs : Sound s) (h : step size s (p, .bget ROOTDEV b read) = some t) :
    ∃ i, t.status p = .locking i read ∧ Has p b read i t := by
  obtain ⟨l, hl⟩ := hs.listed
  cases step_does hl h with
  | hit i dev blockno read hst hi =>
    refine ⟨i, setStatus_self .., ?_, ?_, .inl (setStatus_self ..)⟩
    · rw [setStatus_buf, setBuf_self]
      exact (holds_iff.1 hi).1
    · rw [setStatus_buf, setBuf_self]
      exact (holds_iff.1 hi).2
  | recycle i dev blockno read hst _ _ =>
    refine ⟨i, setStatus_self .., ?_, ?_, .inl (setStatus_self ..)⟩ <;>
      rw [setStatus_buf, setBuf_self]

theorem Has.run {read : Bool} (hp : Has p b read i s) (hs : Sound s)
    (h : Run (Step size) (fun s a => Kept s a ∧ a ≠ (p, .brelse i)) s t) :
    Sound t ∧ Has p b read i t := by
  induction h with
  | refl => exact ⟨hs, hp⟩
  | tail _ hg hstep ih =>
    obtain ⟨l, hl⟩ := ih.1.listed
    exact ⟨step_sound ih.1 hg.1 hstep, (step_does hl hstep).has ih.1 hg.2 ih.2⟩

/-- From `bread` to `brelse` the process has the buffer for itself and it stays the buffer of the
block, with the contents that all operations so far have left there. -/
theorem bread_returns {zero : α} {disk : ℕ → α} {read : Bool}
    {steps : List (Cache n α × (Fin n × Act α))}
    (h : Trace (Step size) (binit n zero disk) steps s) (hk : ∀ x ∈ steps, Kept x.1 x.2)
    (hb : step size s (p, .bget ROOTDEV b read) = some t) :
    ∃ i, t.status p = .locking i read ∧
      ∀ {steps' : List (Cache n α × (Fin n × Act α))} {u : Cache n α},
        Trace (Step size) t steps' u → (∀ x ∈ steps', Kept x.1 x.2 ∧ x.2 ≠ (p, .brelse i)) →
        u.status p = .idle →
        (u.buf i).lock = some p ∧ (u.buf i).dev = ROOTDEV ∧ (u.buf i).blockno = b ∧
          ∃ B, ((steps ++ (s, (p, .bget ROOTDEV b read)) :: steps').filterMap op).foldlM
            Blocks.exec (Blocks.boot n disk) = some B ∧ B.holder b = some p ∧
            (read = true → B.data b = (u.buf i).data) := by
  have hs := run_sound (h.run hk)
  obtain ⟨i, hst, hhas⟩ := bget_has hs hb
  refine ⟨i, hst, fun h' hk' hidle => ?_⟩
  have hbget : Kept s (p, .bget ROOTDEV b read) := rfl
  obtain ⟨hsu, hu⟩ := hhas.run (step_sound hs hbget hb) (h'.run hk')
  obtain hlocking | ⟨hlock, hread⟩ := hu.state
  · rw [hidle] at hlocking
    cases hlocking
  · have hall := trace_blocks (h.append (.cons hb h')) fun x hx => by
      obtain hx | hx := List.mem_append.1 hx
      · exact hk x hx
      · obtain rfl | hx := List.mem_cons.1 hx
        · exact hbget
        · exact (hk' x hx).1
    obtain ⟨hholder, hdata⟩ := hsu.shows.cached i hu.dev
    rw [hu.blockno] at hholder hdata
    refine ⟨hlock, hu.dev, hu.blockno, _, hall, hholder.trans hlock, fun hr => ?_⟩
    obtain hvalid | hio := hread hr
    · rw [hdata, view_of_known (known_of_valid hvalid)]
    · rw [hidle] at hio
      cases hio

theorem bread_returns_two :
    let s := after 1000 (numbered 2) (change 0 5 firstBuf 7)
    let t := after 1000 s [(1, .bget ROOTDEV 5 true)]
    let u := after 1000 t [(1, .go)]
    (u.buf firstBuf).lock = some 1 ∧ (u.buf firstBuf).blockno = 5 ∧
      ∃ B : Blocks 2 ℕ, B.holder 5 = some 1 ∧ B.data 5 = (u.buf firstBuf).data := by
  intro s t u
  have h : Trace (Step 1000) (numbered 2) (Trace.trail (step 1000) (numbered 2)
      (change 0 5 firstBuf 7)) s := Trace.of_isSome (by decide +kernel)
  have ht : (step 1000 s (1, .bget ROOTDEV 5 true)).isSome = true := by decide +kernel
  have hget : step 1000 s (1, .bget ROOTDEV 5 true) = some t := by
    obtain ⟨t', ht'⟩ := Option.isSome_iff_exists.1 ht
    have he : t = t' := by
      change (step 1000 s (1, .bget ROOTDEV 5 true) >>= pure).getD s = t'
      rw [ht']
      rfl
    rw [he, ht']
  obtain ⟨i, hst, hi⟩ := bread_returns h (by decide +kernel) hget
  have hfirst : t.status 1 = .locking firstBuf true := by decide +kernel
  rw [hfirst] at hst
  cases hst
  have h' : Trace (Step 1000) t (Trace.trail (step 1000) t [(1, .go)]) u :=
    Trace.of_isSome (by decide +kernel)
  have hk : ∀ x ∈ Trace.trail (step 1000) t [(1, .go)], Kept x.1 x.2 ∧
      x.2 ≠ (1, .brelse firstBuf) := by
    intro x hx
    rw [List.mem_singleton.1 hx]
    exact ⟨trivial, by simp⟩
  obtain ⟨hlock, -, hblock, B, -, hholder, hdata⟩ := hi h' hk (by decide +kernel)
  exact ⟨hlock, hblock, B, hholder, hdata rfl⟩

end Xv6Lab.Bio
