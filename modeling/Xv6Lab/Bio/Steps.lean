import Mathlib.Algebra.BigOperators.Group.Finset.Basic
import Mathlib.Data.Fintype.BigOperators
import Xv6Lab.Bio.Cache

/-! What one step of the buffer cache can do, and what holds in every state: the list has every
buffer once, a block is in one buffer at most, the reference counts are the number of users, and
an unlocked buffer has nothing that is not on the disk, unless it is dirty. -/

namespace Xv6Lab.Bio

open Lib

variable {n : ℕ} {α : Type} {size : ℕ} {s t : Cache n α} {p q : Fin n} {i j : Fin NBUF}
  {a : Act α} {l : List (Fin NBUF)} {dev blockno : ℕ} {read : Bool}

/-! ### Components -/

@[simp] theorem setBuf_self (s : Cache n α) (i : Fin NBUF) (b : Buf n α) :
    (s.setBuf i b).buf i = b := Function.update_self ..

theorem setBuf_of_ne (h : j ≠ i) (b : Buf n α) : (s.setBuf i b).buf j = s.buf j :=
  Function.update_of_ne h ..

@[simp] theorem setBuf_status (s : Cache n α) (i : Fin NBUF) (b : Buf n α) :
    (s.setBuf i b).status = s.status := rfl

@[simp] theorem setBuf_disk (s : Cache n α) (i : Fin NBUF) (b : Buf n α) :
    (s.setBuf i b).disk = s.disk := rfl

@[simp] theorem setBuf_links (s : Cache n α) (i : Fin NBUF) (b : Buf n α) :
    (s.setBuf i b).links = s.links := rfl

@[simp] theorem setStatus_buf (s : Cache n α) (p : Fin n) (x : Status) :
    (s.setStatus p x).buf = s.buf := rfl

@[simp] theorem setStatus_disk (s : Cache n α) (p : Fin n) (x : Status) :
    (s.setStatus p x).disk = s.disk := rfl

@[simp] theorem setStatus_links (s : Cache n α) (p : Fin n) (x : Status) :
    (s.setStatus p x).links = s.links := rfl

@[simp] theorem setStatus_self (s : Cache n α) (p : Fin n) (x : Status) :
    (s.setStatus p x).status p = x := Function.update_self ..

theorem setStatus_of_ne (h : q ≠ p) (x : Status) : (s.setStatus p x).status q = s.status q :=
  Function.update_of_ne h ..

@[simp] theorem setDisk_buf (s : Cache n α) (b : ℕ) (x : α) : (s.setDisk b x).buf = s.buf := rfl

@[simp] theorem setDisk_status (s : Cache n α) (b : ℕ) (x : α) :
    (s.setDisk b x).status = s.status := rfl

@[simp] theorem setDisk_links (s : Cache n α) (b : ℕ) (x : α) :
    (s.setDisk b x).links = s.links := rfl

theorem putBack_buf (s : Cache n α) (p : Fin n) (i : Fin NBUF) :
    (s.putBack p i).buf =
      (s.setBuf i { s.buf i with refcnt := (s.buf i).refcnt - 1 }).buf := by
  unfold Cache.putBack
  by_cases h : (s.buf i).refcnt - 1 = 0
  · rw [if_pos h]
    rfl
  · rw [if_neg h]
    rfl

theorem putBack_status (s : Cache n α) (p : Fin n) (i : Fin NBUF) :
    (s.putBack p i).status = (s.setStatus p .idle).status := by
  unfold Cache.putBack
  by_cases h : (s.buf i).refcnt - 1 = 0
  · rw [if_pos h]
    rfl
  · rw [if_neg h]
    rfl

theorem putBack_disk (s : Cache n α) (p : Fin n) (i : Fin NBUF) :
    (s.putBack p i).disk = s.disk := by
  unfold Cache.putBack
  by_cases h : (s.buf i).refcnt - 1 = 0
  · rw [if_pos h]
    rfl
  · rw [if_neg h]
    rfl

theorem holds_iff {b : Buf n α} : b.holds dev blockno = true ↔ b.dev = dev ∧ b.blockno = blockno := by
  simp [Buf.holds]

theorem unused_iff {b : Buf n α} : b.unused = true ↔ b.refcnt = 0 ∧ b.dirty = false := by
  simp [Buf.unused]

/-! ### One step -/

/-- The list has every buffer once, in the order of `l`. -/
structure Listed (s : Cache n α) (l : List (Fin NBUF)) : Prop where
  ring : s.links.Ring l
  all : ∀ i, i ∈ l

theorem Listed.length_lt (h : Listed s l) : l.length < NBUF + 1 := by
  have hle := h.ring.nodup.length_le_card
  rw [Fintype.card_fin] at hle
  exact Nat.lt_succ_of_le hle

/-- The steps of process `p`, when the list has the order `l`. -/
inductive Does (size : ℕ) (s : Cache n α) (l : List (Fin NBUF)) (p : Fin n) :
    Act α → Cache n α → Prop
  | hit (i : Fin NBUF) (dev blockno : ℕ) (read : Bool) : s.status p = .idle →
    (s.buf i).holds dev blockno = true →
    Does size s l p (.bget dev blockno read)
      ((s.setBuf i { s.buf i with refcnt := (s.buf i).refcnt + 1 }).setStatus p (.locking i read))
  | recycle (i : Fin NBUF) (dev blockno : ℕ) (read : Bool) : s.status p = .idle →
    (∀ j, (s.buf j).holds dev blockno = false) →
    l.reverse.find? (fun j => (s.buf j).unused) = some i →
    Does size s l p (.bget dev blockno read)
      ((s.setBuf i { s.buf i with
        dev := dev, blockno := blockno, valid := false, dirty := false, refcnt := 1 }).setStatus p
          (.locking i read))
  | lock (i : Fin NBUF) (read : Bool) : s.status p = .locking i read → (s.buf i).lock = none →
    Does size s l p .go
      ((s.setBuf i { s.buf i with lock := some p }).setStatus p
        (if read ∧ (s.buf i).valid = false then .iderw i else .idle))
  | write (i : Fin NBUF) : s.status p = .iderw i → (s.buf i).dirty = true → (s.buf i).dev = ROOTDEV →
    Does size s l p .go
      (((s.setBuf i { s.buf i with dirty := false, valid := true }).setDisk (s.buf i).blockno
        (s.buf i).data).setStatus p .idle)
  | fill (i : Fin NBUF) : s.status p = .iderw i → (s.buf i).dirty = false →
    (s.buf i).valid = false → (s.buf i).dev = ROOTDEV →
    Does size s l p .go
      ((s.setBuf i { s.buf i with data := s.disk (s.buf i).blockno, valid := true }).setStatus p
        .idle)
  | putBack (i : Fin NBUF) : s.status p = .unlocked i → Does size s l p .go (s.putBack p i)
  | store (i : Fin NBUF) (x : α) : s.status p = .idle → (s.buf i).lock = some p →
    Does size s l p (.store i x) (s.setBuf i { s.buf i with data := x })
  | logWrite (i : Fin NBUF) : s.status p = .idle → (s.buf i).lock = some p →
    Does size s l p (.logWrite i) (s.setBuf i { s.buf i with dirty := true })
  | bwrite (i : Fin NBUF) : s.status p = .idle → (s.buf i).lock = some p →
    Does size s l p (.bwrite i)
      ((s.setBuf i { s.buf i with dirty := true }).setStatus p (.iderw i))
  | brelse (i : Fin NBUF) : s.status p = .idle → (s.buf i).lock = some p →
    Does size s l p (.brelse i)
      ((s.setBuf i { s.buf i with lock := none }).setStatus p (.unlocked i))

theorem bget_does (hl : Listed s l) (hst : s.status p = .idle)
    (h : s.bget p dev blockno read = some t) : Does size s l p (.bget dev blockno read) t := by
  unfold Cache.bget at h
  rw [hl.ring.scan_next hl.length_lt, hl.ring.scan_prev hl.length_lt] at h
  cases hf : l.find? (fun i => (s.buf i).holds dev blockno) with
  | some i =>
    rw [hf] at h
    cases h
    have hi := List.find?_some hf
    exact .hit i dev blockno read hst hi
  | none =>
    rw [hf] at h
    cases hr : l.reverse.find? (fun i => (s.buf i).unused) with
    | some i =>
      rw [hr] at h
      cases h
      refine .recycle i dev blockno read hst (fun j => ?_) hr
      exact Bool.eq_false_iff.2 (List.find?_eq_none.1 hf j (hl.all j))
    | none =>
      rw [hr] at h
      cases h

theorem acquire_does (hst : s.status p = .locking i read) (h : s.acquire p i read = some t) :
    Does size s l p .go t := by
  unfold Cache.acquire at h
  by_cases hlock : (s.buf i).lock = none
  · rw [if_pos hlock] at h
    cases h
    exact .lock i read hst hlock
  · rw [if_neg hlock] at h
    cases h

theorem iderw_does (hst : s.status p = .iderw i) (h : s.iderw size p i = some t) :
    Does size s l p .go t := by
  unfold Cache.iderw at h
  by_cases hlock : (s.buf i).lock = none
  · rw [if_pos hlock] at h
    cases h
  rw [if_neg hlock] at h
  by_cases hnothing : (s.buf i).valid = true ∧ (s.buf i).dirty = false
  · rw [if_pos hnothing] at h
    cases h
  rw [if_neg hnothing] at h
  by_cases hdev : (s.buf i).dev ≠ 1
  · rw [if_pos hdev] at h
    cases h
  rw [if_neg hdev] at h
  by_cases hsize : size ≤ (s.buf i).blockno
  · rw [if_pos hsize] at h
    cases h
  rw [if_neg hsize] at h
  cases hdirty : (s.buf i).dirty with
  | true =>
    rw [if_pos hdirty] at h
    cases h
    exact .write i hst hdirty (not_not.1 hdev)
  | false =>
    rw [if_neg (by simp [hdirty])] at h
    cases h
    have hvalid : (s.buf i).valid = false := by simpa [hdirty] using hnothing
    exact .fill i hst hdirty hvalid (not_not.1 hdev)

theorem step_bget (h : s.status p = .idle) :
    step size s (p, .bget dev blockno read) = s.bget p dev blockno read := by
  unfold step
  simp only [h]

theorem step_locking (h : s.status p = .locking i read) :
    step size s (p, .go) = s.acquire p i read := by
  unfold step
  simp only [h]

theorem step_iderw (h : s.status p = .iderw i) : step size s (p, .go) = s.iderw size p i := by
  unfold step
  simp only [h]

theorem step_unlocked (h : s.status p = .unlocked i) :
    step size s (p, .go) = some (s.putBack p i) := by
  unfold step
  simp only [h]

/-- Only a process that is not in the cache calls it, or works on a buffer. -/
theorem idle_of_step (ha : a ≠ .go) (h : step size s (p, a) = some t) : s.status p = .idle := by
  unfold step at h
  cases hst : s.status p with
  | idle => rfl
  | _ =>
    simp only [hst] at h
    cases a with
    | go => exact absurd rfl ha
    | _ => simp only [reduceCtorEq] at h

theorem step_does (hl : Listed s l) (h : step size s (p, a) = some t) : Does size s l p a t := by
  have hidle := fun ha => idle_of_step ha h
  cases a with
  | bget dev blockno read =>
    have hst := hidle (by simp)
    rw [step_bget hst] at h
    exact bget_does hl hst h
  | go =>
    cases hst : s.status p with
    | idle =>
      unfold step at h
      simp only [hst, reduceCtorEq] at h
    | locking i read =>
      rw [step_locking hst] at h
      exact acquire_does hst h
    | iderw i =>
      rw [step_iderw hst] at h
      exact iderw_does hst h
    | unlocked i =>
      rw [step_unlocked hst] at h
      cases h
      exact .putBack i hst
  | store i x =>
    have hst := hidle (by simp)
    unfold step at h
    simp only [hst, Option.ite_none_right_eq_some] at h
    cases h.2
    exact .store i x hst h.1
  | logWrite i =>
    have hst := hidle (by simp)
    unfold step at h
    simp only [hst, Option.ite_none_right_eq_some] at h
    cases h.2
    exact .logWrite i hst h.1
  | bwrite i =>
    have hst := hidle (by simp)
    unfold step at h
    simp only [hst, Option.ite_none_right_eq_some] at h
    cases h.2
    exact .bwrite i hst h.1
  | brelse i =>
    have hst := hidle (by simp)
    unfold step at h
    simp only [hst, Option.ite_none_right_eq_some] at h
    cases h.2
    exact .brelse i hst h.1

theorem Does.status (h : Does size s l p a t) (hq : q ≠ p) : t.status q = s.status q := by
  cases h with
  | putBack i _ => rw [putBack_status, setStatus_of_ne hq]
  | store | logWrite => rfl
  | _ => exact setStatus_of_ne hq _

/-! ### The list -/

/-- The step is the last one of a `brelse` that leaves buffer `i` unused. -/
def Freed (i : Fin NBUF) (x : Cache n α × (Fin n × Act α)) : Prop :=
  x.1.status x.2.1 = .unlocked i ∧ (x.1.buf i).refcnt - 1 = 0 ∧ ∃ p, x.2 = (p, .go)

theorem Freed.eq {x : Cache n α × (Fin n × Act α)} (hi : Freed i x) (hj : Freed j x) : i = j := by
  cases hi.1.symm.trans hj.1
  rfl

theorem Listed.toFront (h : Listed s l) (i : Fin NBUF)
    (ht : t.links = (s.links.unlink i).pushFront i) : Listed t (i :: l.erase i) where
  ring := ht ▸ h.ring.toFront (h.all i)
  all j := by
    by_cases hji : j = i
    · rw [hji]
      exact List.mem_cons_self ..
    · exact List.mem_cons_of_mem _ ((List.mem_erase_of_ne hji).2 (h.all j))

/-- A freed buffer goes to the front, and nothing else changes the list. -/
theorem Does.listed (h : Does size s l p a t) (hl : Listed s l) :
    (∀ i, ¬ Freed i (s, (p, a))) ∧ Listed t l ∨
      ∃ i, Freed i (s, (p, a)) ∧ Listed t (i :: l.erase i) := by
  cases h with
  | putBack i hst =>
    by_cases hzero : (s.buf i).refcnt - 1 = 0
    · refine .inr ⟨i, ⟨hst, hzero, p, rfl⟩, hl.toFront i ?_⟩
      unfold Cache.putBack
      rw [if_pos hzero]
    · refine .inl ⟨fun j hj => ?_, ?_⟩
      · cases hst.symm.trans hj.1
        exact hzero hj.2.1
      · unfold Cache.putBack
        rw [if_neg hzero]
        exact ⟨hl.ring, hl.all⟩
  | lock i read hst _ | write i hst _ _ | fill i hst _ _ _ =>
    refine .inl ⟨fun j hj => ?_, hl.ring, hl.all⟩
    cases hst.symm.trans hj.1
  | _ =>
    refine .inl ⟨fun j hj => ?_, hl.ring, hl.all⟩
    obtain ⟨q, hq⟩ := hj.2.2
    cases hq

theorem binit_listed (n : ℕ) (zero : α) (disk : ℕ → α) :
    Listed (binit n zero disk) (List.finRange NBUF).reverse where
  ring := by
    have h := Links.ring_empty.foldl (List.nodup_finRange NBUF) fun c _ => List.not_mem_nil
    rwa [List.append_nil] at h
  all i := List.mem_reverse.2 (List.mem_finRange i)

/-! ### Reference counts -/

/-- The references to buffer `i` of a process that has not locked it, or not any more. -/
def Status.refs (x : Status) (i : Fin NBUF) : ℕ :=
  match x with
  | .locking j _ => if j = i then 1 else 0
  | .unlocked j => if j = i then 1 else 0
  | _ => 0

def Buf.locks (b : Buf n α) : ℕ := if b.lock = none then 0 else 1

/-- The reference counts are exact. -/
def Counted (s : Cache n α) : Prop :=
  ∀ i, (s.buf i).refcnt = (s.buf i).locks + ∑ p, (s.status p).refs i

theorem locks_of_none {b : Buf n α} (h : b.lock = none) : b.locks = 0 := if_pos h

@[simp] theorem refs_idle (i : Fin NBUF) : Status.idle.refs i = 0 := rfl

@[simp] theorem refs_iderw (j i : Fin NBUF) : (Status.iderw j).refs i = 0 := rfl

@[simp] theorem refs_locking (j i : Fin NBUF) (read : Bool) :
    (Status.locking j read).refs i = if j = i then 1 else 0 := rfl

@[simp] theorem refs_unlocked (j i : Fin NBUF) :
    (Status.unlocked j).refs i = if j = i then 1 else 0 := rfl

/-- Process `p` changes its status, and buffer `i` its count and lock. -/
theorem Counted.moved (h : Counted s) (hbuf : ∀ j ≠ i, t.buf j = s.buf j)
    (hst : ∀ q ≠ p, t.status q = s.status q)
    (hother : ∀ j ≠ i, (t.status p).refs j = (s.status p).refs j)
    (hi : (t.buf i).refcnt + (s.status p).refs i + (s.buf i).locks =
      (s.buf i).refcnt + (t.status p).refs i + (t.buf i).locks) : Counted t := by
  intro j
  have hs := Finset.add_sum_erase Finset.univ (fun q => (s.status q).refs j) (Finset.mem_univ p)
  have ht := Finset.add_sum_erase Finset.univ (fun q => (t.status q).refs j) (Finset.mem_univ p)
  have hrest : ∑ q ∈ Finset.univ.erase p, (t.status q).refs j =
      ∑ q ∈ Finset.univ.erase p, (s.status q).refs j := by
    refine Finset.sum_congr rfl fun q hq => ?_
    rw [hst q (Finset.ne_of_mem_erase hq)]
  have hj := h j
  by_cases hji : j = i
  · subst hji
    omega
  · rw [hbuf j hji]
    have := hother j hji
    omega

theorem Counted.lock_pos (h : Counted s) (hlock : (s.buf i).lock ≠ none) :
    0 < (s.buf i).refcnt := by
  have hlocks : (s.buf i).locks = 1 := if_neg hlock
  rw [h i]
  omega

theorem Counted.refs_le (h : Counted s) (p : Fin n) (i : Fin NBUF) :
    (s.buf i).locks + (s.status p).refs i ≤ (s.buf i).refcnt := by
  have hs := Finset.add_sum_erase Finset.univ (fun q => (s.status q).refs i) (Finset.mem_univ p)
  have hi := h i
  omega

/-- A step changes one buffer. -/
theorem Does.counted (h : Does size s l p a t) (hc : Counted s) : Counted t := by
  have hstatus := fun q (hq : q ≠ p) => h.status hq
  cases h with
  | hit i dev blockno read hst _ =>
    refine hc.moved (fun j hj => setBuf_of_ne hj _) hstatus (fun j hj => ?_) ?_
    · simp [hst, Ne.symm hj]
    · simp [hst, Buf.locks]
  | recycle i dev blockno read hst _ hfind =>
    have hzero := (unused_iff.1 (List.find?_some (p := fun j => (s.buf j).unused) hfind)).1
    refine hc.moved (fun j hj => setBuf_of_ne hj _) hstatus (fun j hj => ?_) ?_
    · simp [hst, Ne.symm hj]
    · simp [hst, Buf.locks, hzero]
  | lock i read hst hlock =>
    have hx : ∀ j, (if read = true ∧ (s.buf i).valid = false then Status.iderw i
        else Status.idle).refs j = 0 := by
      intro j
      by_cases hr : read = true ∧ (s.buf i).valid = false
      · rw [if_pos hr]
        rfl
      · rw [if_neg hr]
        rfl
    refine hc.moved (fun j hj => setBuf_of_ne hj _) hstatus (fun j hj => ?_) ?_
    · rw [setStatus_self, hx, hst, refs_locking, if_neg (Ne.symm hj)]
    · rw [setStatus_self, hx, hst, refs_locking, if_pos rfl, locks_of_none hlock]
      simp [Buf.locks]
  | write i hst _ _ =>
    refine hc.moved (fun j hj => setBuf_of_ne hj _) hstatus (fun j _ => ?_) ?_
    · simp [hst]
    · simp [hst, Buf.locks]
  | fill i hst _ _ _ =>
    refine hc.moved (fun j hj => setBuf_of_ne hj _) hstatus (fun j _ => ?_) ?_
    · simp [hst]
    · simp [hst, Buf.locks]
  | putBack i hst =>
    have hle := hc.refs_le p i
    rw [hst, refs_unlocked, if_pos rfl] at hle
    refine hc.moved (i := i) (fun j hj => ?_) hstatus (fun j hj => ?_) ?_
    · rw [putBack_buf, setBuf_of_ne hj]
    · rw [putBack_status, setStatus_self, hst, refs_unlocked, if_neg (Ne.symm hj)]
      rfl
    · rw [putBack_buf, putBack_status, setBuf_self, setStatus_self, hst, refs_unlocked, if_pos rfl]
      change (s.buf i).refcnt - 1 + 1 + (s.buf i).locks = (s.buf i).refcnt + 0 + (s.buf i).locks
      omega
  | store i x hst _ =>
    refine hc.moved (p := p) (fun j hj => setBuf_of_ne hj _) (fun q _ => rfl) (fun j _ => rfl) ?_
    simp [Buf.locks]
  | logWrite i hst _ =>
    refine hc.moved (p := p) (fun j hj => setBuf_of_ne hj _) (fun q _ => rfl) (fun j _ => rfl) ?_
    simp [Buf.locks]
  | bwrite i hst _ =>
    refine hc.moved (fun j hj => setBuf_of_ne hj _) hstatus (fun j _ => ?_) ?_
    · simp [hst]
    · simp [hst, Buf.locks]
  | brelse i hst hlock =>
    refine hc.moved (fun j hj => setBuf_of_ne hj _) hstatus (fun j hj => ?_) ?_
    · simp [hst, Ne.symm hj]
    · simp [hst, Buf.locks, hlock]

theorem binit_counted (n : ℕ) (zero : α) (disk : ℕ → α) : Counted (binit n zero disk) := by
  intro i
  have hsum : ∑ p : Fin n, ((binit n zero disk).status p).refs i = 0 :=
    Finset.sum_eq_zero fun _ _ => rfl
  rw [hsum]
  rfl

/-! ### Every state -/

/-- A buffer without a block was never used. -/
def Buf.Fresh (b : Buf n α) : Prop :=
  b.dev ≠ ROOTDEV → b.refcnt = 0 ∧ b.valid = false ∧ b.dirty = false

/-- An unlocked buffer has nothing to be saved. -/
def Buf.Clean (disk : ℕ → α) (b : Buf n α) : Prop :=
  b.lock = none → b.valid = true → b.dirty = true ∨ b.data = disk b.blockno

structure Sound (s : Cache n α) : Prop where
  listed : ∃ l, Listed s l
  counted : Counted s
  other : ∀ i, (s.buf i).Fresh
  one : ∀ i j, (s.buf i).dev = ROOTDEV → (s.buf j).dev = ROOTDEV →
    (s.buf i).blockno = (s.buf j).blockno → i = j
  /-- `iderw` finds something to do. -/
  io : ∀ p i, s.status p = .iderw i →
    (s.buf i).lock = some p ∧ ((s.buf i).valid = true → (s.buf i).dirty = true)
  clean : ∀ i, (s.buf i).Clean s.disk

theorem Sound.dev_of_refcnt (h : Sound s) (hi : (s.buf i).refcnt ≠ 0) : (s.buf i).dev = ROOTDEV := by
  by_contra hdev
  exact hi (h.other i hdev).1

theorem Sound.dev_of_lock (h : Sound s) (hi : (s.buf i).lock = some p) :
    (s.buf i).dev = ROOTDEV :=
  h.dev_of_refcnt (h.counted.lock_pos (by simp [hi])).ne'

theorem setBuf_cases {P : Fin NBUF → Buf n α → Prop} {b : Buf n α} (h : ∀ j, P j (s.buf j))
    (hi : P i b) : ∀ j, P j ((s.setBuf i b).buf j) := by
  intro j
  by_cases hji : j = i
  · subst hji
    rwa [setBuf_self]
  · rw [setBuf_of_ne hji]
    exact h j

theorem setBuf_forall {P : Buf n α → Prop} {b : Buf n α} (h : ∀ j, P (s.buf j)) (hi : P b) :
    ∀ j, P ((s.setBuf i b).buf j) := setBuf_cases (P := fun _ => P) h hi

theorem Does.other (h : Does size s l p a t) (hk : Kept s (p, a)) (hs : Sound s) :
    ∀ i, (t.buf i).Fresh := by
  cases h with
  | hit i dev blockno read hst hi =>
    refine setBuf_forall hs.other fun hdev => absurd ?_ hdev
    exact (holds_iff.1 hi).1.trans hk
  | recycle i dev blockno read hst _ _ =>
    exact setBuf_forall hs.other fun hdev => absurd hk hdev
  | write i hst _ hi => exact setBuf_forall hs.other fun hdev => absurd hi hdev
  | fill i hst _ _ hi => exact setBuf_forall hs.other fun hdev => absurd hi hdev
  | putBack i hst =>
    rw [putBack_buf]
    refine setBuf_forall hs.other fun hdev => ?_
    have hi := hs.other i hdev
    refine ⟨?_, hi.2⟩
    change (s.buf i).refcnt - 1 = 0
    rw [hi.1]
  | lock i read hst hlock => exact setBuf_forall hs.other (hs.other i)
  | store i x hst hlock => exact setBuf_forall hs.other (hs.other i)
  | logWrite i hst hlock =>
    exact setBuf_forall hs.other fun hdev => absurd (hs.dev_of_lock hlock) hdev
  | bwrite i hst hlock =>
    exact setBuf_forall hs.other fun hdev => absurd (hs.dev_of_lock hlock) hdev
  | brelse i hst hlock => exact setBuf_forall hs.other (hs.other i)

/-- The block of a buffer, if it is not recycled. -/
theorem setBuf_block {b : Buf n α} (hdev : b.dev = (s.buf i).dev)
    (hblock : b.blockno = (s.buf i).blockno) (j : Fin NBUF) :
    ((s.setBuf i b).buf j).dev = (s.buf j).dev ∧
      ((s.setBuf i b).buf j).blockno = (s.buf j).blockno :=
  setBuf_cases (P := fun j x => x.dev = (s.buf j).dev ∧ x.blockno = (s.buf j).blockno)
    (fun _ => ⟨rfl, rfl⟩) ⟨hdev, hblock⟩ j

/-- Only an unused buffer gets another block. -/
theorem Does.block (h : Does size s l p a t) :
    (∃ i dev blockno read, a = .bget dev blockno read ∧ (s.buf i).unused = true ∧
      (∀ j, (s.buf j).holds dev blockno = false) ∧ (t.buf i).dev = dev ∧
      (t.buf i).blockno = blockno ∧ ∀ j ≠ i, t.buf j = s.buf j) ∨
    ∀ j, (t.buf j).dev = (s.buf j).dev ∧ (t.buf j).blockno = (s.buf j).blockno := by
  cases h with
  | recycle i dev blockno read hst hnone hfind =>
    have hi := List.find?_some (p := fun j => (s.buf j).unused) hfind
    refine .inl ⟨i, dev, blockno, read, rfl, hi, hnone, ?_, ?_, fun j hj => setBuf_of_ne hj _⟩
    · rw [setStatus_buf, setBuf_self]
    · rw [setStatus_buf, setBuf_self]
  | putBack i _ =>
    rw [putBack_buf]
    exact .inr (setBuf_block rfl rfl)
  | _ => exact .inr (setBuf_block rfl rfl)

theorem Does.one (h : Does size s l p a t) (hs : Sound s) :
    ∀ i j, (t.buf i).dev = ROOTDEV → (t.buf j).dev = ROOTDEV →
      (t.buf i).blockno = (t.buf j).blockno → i = j := by
  intro i j hi hj he
  obtain ⟨k, dev, blockno, read, -, -, hnone, hdev, hblock, hsame⟩ | hsame := h.block
  · -- no other buffer has the block that `k` gets
    have hk : ∀ x ≠ k, (t.buf x).dev = ROOTDEV → (t.buf k).dev = ROOTDEV →
        (t.buf x).blockno ≠ (t.buf k).blockno := by
      intro x hx hxdev hkdev hxk
      have hx' := hnone x
      rw [← hsame x hx, Bool.eq_false_iff, ne_eq, holds_iff] at hx'
      exact hx' ⟨hxdev.trans (hkdev.symm.trans hdev), hxk.trans hblock⟩
    by_cases hik : i = k
    · by_cases hjk : j = k
      · rw [hik, hjk]
      · rw [hik] at hi he
        exact absurd he.symm (hk j hjk hj hi)
    · by_cases hjk : j = k
      · rw [hjk] at hj he
        exact absurd he (hk i hik hi hj)
      · rw [hsame i hik] at hi he
        rw [hsame j hjk] at hj he
        exact hs.one i j hi hj he
  · rw [(hsame i).1] at hi
    rw [(hsame j).1] at hj
    rw [(hsame i).2, (hsame j).2] at he
    exact hs.one i j hi hj he

theorem Does.io (h : Does size s l p a t) (hs : Sound s) :
    ∀ q j, t.status q = .iderw j →
      (t.buf j).lock = some q ∧ ((t.buf j).valid = true → (t.buf j).dirty = true) := by
  intro q j hq
  by_cases hqp : q = p
  · subst hqp
    cases h with
    | lock i read hst hlock =>
      rw [setStatus_self] at hq
      by_cases hr : read = true ∧ (s.buf i).valid = false
      · rw [if_pos hr] at hq
        cases hq
        rw [setStatus_buf, setBuf_self]
        exact ⟨rfl, fun hv => absurd hv (by simp [hr.2])⟩
      · rw [if_neg hr] at hq
        cases hq
    | bwrite i hst hlock =>
      rw [setStatus_self] at hq
      cases hq
      rw [setStatus_buf, setBuf_self]
      exact ⟨hlock, fun _ => rfl⟩
    | putBack i _ =>
      rw [putBack_status, setStatus_self] at hq
      cases hq
    | store i x hst _ => exact absurd (hst.symm.trans hq) (by simp)
    | logWrite i hst _ => exact absurd (hst.symm.trans hq) (by simp)
    | _ =>
      rw [setStatus_self] at hq
      cases hq
  · -- the buffer of another process is locked, so that only its count can change
    rw [h.status hqp] at hq
    have hj := hs.io q j hq
    have hpos := hs.counted.lock_pos (i := j) (by simp [hj.1])
    have hne : ∀ {i}, (s.buf i).lock = some p → j ≠ i := by
      rintro i hi rfl
      exact hqp (Option.some.inj (hj.1.symm.trans hi))
    cases h with
    | hit i dev blockno read _ _ =>
      exact setBuf_cases (P := fun x b => x = j → b.lock = some q ∧
        (b.valid = true → b.dirty = true)) (fun _ hx => hx ▸ hj) (fun hx => hx ▸ hj) j rfl
    | recycle i dev blockno read _ _ hfind =>
      have hi := (unused_iff.1 (List.find?_some (p := fun j => (s.buf j).unused) hfind)).1
      have hji : j ≠ i := by
        rintro rfl
        omega
      rwa [setStatus_buf, setBuf_of_ne hji]
    | lock i read _ hlock =>
      have hji : j ≠ i := by
        rintro rfl
        rw [hlock] at hj
        cases hj.1
      rwa [setStatus_buf, setBuf_of_ne hji]
    | putBack i _ =>
      rw [putBack_buf]
      exact setBuf_cases (P := fun x b => x = j → b.lock = some q ∧
        (b.valid = true → b.dirty = true)) (fun _ hx => hx ▸ hj) (fun hx => hx ▸ hj) j rfl
    | write i hst _ _ => rwa [setStatus_buf, setDisk_buf, setBuf_of_ne (hne (hs.io p i hst).1)]
    | fill i hst _ _ _ => rwa [setStatus_buf, setBuf_of_ne (hne (hs.io p i hst).1)]
    | store i x _ hlock => rwa [setBuf_of_ne (hne hlock)]
    | logWrite i _ hlock => rwa [setBuf_of_ne (hne hlock)]
    | bwrite i _ hlock => rwa [setStatus_buf, setBuf_of_ne (hne hlock)]
    | brelse i _ hlock => rwa [setStatus_buf, setBuf_of_ne (hne hlock)]

theorem Does.clean (h : Does size s l p a t) (hk : Kept s (p, a)) (hs : Sound s) :
    ∀ i, (t.buf i).Clean t.disk := by
  have hlocked : ∀ {b : Buf n α} {disk : ℕ → α}, b.lock = some p → b.Clean disk := by
    intro b disk hb hnone
    rw [hb] at hnone
    cases hnone
  cases h with
  | hit i dev blockno read _ _ => exact setBuf_forall hs.clean (hs.clean i)
  | recycle i dev blockno read _ _ _ => exact setBuf_forall hs.clean fun _ hv => absurd hv (by simp)
  | lock i read _ _ => exact setBuf_forall hs.clean (hlocked rfl)
  | write i hst _ hdev =>
    intro j
    by_cases hji : j = i
    · subst hji
      rw [setStatus_buf, setDisk_buf, setBuf_self]
      exact hlocked (hs.io p j hst).1
    · rw [setStatus_buf, setDisk_buf, setBuf_of_ne hji]
      intro hlock hvalid
      obtain hd | hd := hs.clean j hlock hvalid
      · exact .inl hd
      · right
        have hj : (s.buf j).dev = ROOTDEV := by
          by_contra hj
          simp [(hs.other j hj).2.1] at hvalid
        have hne : (s.buf j).blockno ≠ (s.buf i).blockno := fun he => hji (hs.one j i hj hdev he)
        exact hd.trans (Function.update_of_ne hne _ _).symm
  | fill i hst _ _ _ => exact setBuf_forall hs.clean (hlocked (hs.io p i hst).1)
  | putBack i _ =>
    rw [putBack_buf, putBack_disk]
    exact setBuf_forall hs.clean (hs.clean i)
  | store i x _ hlock => exact setBuf_forall hs.clean (hlocked hlock)
  | logWrite i _ hlock => exact setBuf_forall hs.clean (hlocked hlock)
  | bwrite i _ hlock => exact setBuf_forall hs.clean (hlocked hlock)
  | brelse i _ hlock => exact setBuf_forall hs.clean fun _ hv => hk hv

theorem Does.sound (h : Does size s l p a t) (hl : Listed s l) (hk : Kept s (p, a))
    (hs : Sound s) : Sound t where
  listed := by
    obtain ⟨-, hl⟩ | ⟨i, -, hl⟩ := h.listed hl
    · exact ⟨l, hl⟩
    · exact ⟨_, hl⟩
  counted := h.counted hs.counted
  other := h.other hk hs
  one := h.one hs
  io := h.io hs
  clean := h.clean hk hs

theorem step_sound (hs : Sound s) {a : Fin n × Act α} (hk : Kept s a) (h : Step size s a t) :
    Sound t := by
  obtain ⟨l, hl⟩ := hs.listed
  exact (step_does hl h).sound hl hk hs

theorem binit_sound (n : ℕ) (zero : α) (disk : ℕ → α) : Sound (binit n zero disk) where
  listed := ⟨_, binit_listed n zero disk⟩
  counted := binit_counted n zero disk
  other _ _ := ⟨rfl, rfl, rfl⟩
  one _ _ h := by cases h
  io _ _ h := by cases h
  clean _ _ h := by cases h

theorem run_sound {zero : α} {disk : ℕ → α} (h : Run (Step size) Kept (binit n zero disk) t) :
    Sound t :=
  h.invariant (binit_sound n zero disk) fun hs hk ht => step_sound hs hk ht

end Xv6Lab.Bio
