import Xv6Lab.Lib.Links
import Xv6Lab.Lib.Trace

/-! The buffer cache of `Part_B` (`bio.c`) and the disk under it (`memide.c`). Any number of
processes get buffers, change and release them; `bread`, `bwrite` and `brelse` go on in several
steps, since other processes run between the lock of the list, the lock of a buffer and the disk. -/

namespace Xv6Lab.Bio

open Lib

def NBUF : ℕ := 30
def ROOTDEV : ℕ := 1

variable {n : ℕ} {α : Type}

/-- `struct buf`, for blocks with contents in `α`; `lock` is the process that has the sleep lock. -/
structure Buf (n : ℕ) (α : Type) where
  valid : Bool
  dirty : Bool
  dev : ℕ
  blockno : ℕ
  lock : Option (Fin n)
  refcnt : ℕ
  data : α

/-- Where a process is in the code of the cache. -/
inductive Status
  | idle
  /-- At `acquiresleep` in `bget`, which `bread` has called or not. -/
  | locking (i : Fin NBUF) (read : Bool)
  | iderw (i : Fin NBUF)
  /-- In `brelse`, after `releasesleep`. -/
  | unlocked (i : Fin NBUF)
  deriving DecidableEq, Repr

structure Cache (n : ℕ) (α : Type) where
  buf : Fin NBUF → Buf n α
  links : Links (Fin NBUF)
  disk : ℕ → α
  status : Fin n → Status

def Cache.setBuf (s : Cache n α) (i : Fin NBUF) (b : Buf n α) : Cache n α :=
  { s with buf := Function.update s.buf i b }

def Cache.setStatus (s : Cache n α) (p : Fin n) (x : Status) : Cache n α :=
  { s with status := Function.update s.status p x }

def Cache.setDisk (s : Cache n α) (b : ℕ) (x : α) : Cache n α :=
  { s with disk := Function.update s.disk b x }

/-- The kernel after `binit`. -/
def binit (n : ℕ) (zero : α) (disk : ℕ → α) : Cache n α where
  buf _ := ⟨false, false, 0, 0, none, 0, zero⟩
  links := (List.finRange NBUF).foldl Links.pushFront Links.empty
  disk := disk
  status _ := .idle

/-- The buffer holds this block. -/
def Buf.holds (dev blockno : ℕ) (b : Buf n α) : Bool := b.dev == dev && b.blockno == blockno

/-- The buffer may be recycled. -/
def Buf.unused (b : Buf n α) : Bool := b.refcnt == 0 && !b.dirty

/-- `bget` up to `acquiresleep`; `none` is its panic. -/
def Cache.bget (s : Cache n α) (p : Fin n) (dev blockno : ℕ) (read : Bool) : Option (Cache n α) :=
  match Links.scan s.links.next (fun i => (s.buf i).holds dev blockno) (NBUF + 1)
    (s.links.next none) with
  | some i =>
    some ((s.setBuf i { s.buf i with refcnt := (s.buf i).refcnt + 1 }).setStatus p
      (.locking i read))
  | none =>
    match Links.scan s.links.prev (fun i => (s.buf i).unused) (NBUF + 1) (s.links.prev none) with
    | some i =>
      some ((s.setBuf i { s.buf i with
        dev := dev, blockno := blockno, valid := false, dirty := false, refcnt := 1 }).setStatus p
          (.locking i read))
    | none => none

/-- `acquiresleep`, and `bread` up to `iderw`. -/
def Cache.acquire (s : Cache n α) (p : Fin n) (i : Fin NBUF) (read : Bool) : Option (Cache n α) :=
  if (s.buf i).lock = none then
    some ((s.setBuf i { s.buf i with lock := some p }).setStatus p
      (if read ∧ (s.buf i).valid = false then .iderw i else .idle))
  else none

/-- `iderw`; `none` is one of its panics. -/
def Cache.iderw (size : ℕ) (s : Cache n α) (p : Fin n) (i : Fin NBUF) : Option (Cache n α) :=
  let b := s.buf i
  if b.lock = none then none
  else if b.valid = true ∧ b.dirty = false then none
  else if b.dev ≠ 1 then none
  else if size ≤ b.blockno then none
  else if b.dirty then
    some (((s.setBuf i { b with dirty := false, valid := true }).setDisk b.blockno b.data).setStatus
      p .idle)
  else
    some ((s.setBuf i { b with data := s.disk b.blockno, valid := true }).setStatus p .idle)

/-- The end of `brelse`, under the lock of the list. -/
def Cache.putBack (s : Cache n α) (p : Fin n) (i : Fin NBUF) : Cache n α :=
  let t := (s.setBuf i { s.buf i with refcnt := (s.buf i).refcnt - 1 }).setStatus p .idle
  if (s.buf i).refcnt - 1 = 0 then { t with links := (s.links.unlink i).pushFront i } else t

inductive Act (α : Type)
  /-- `bread`, or `bget` alone. -/
  | bget (dev blockno : ℕ) (read : Bool)
  /-- The process goes on in the code of the cache. -/
  | go
  | store (i : Fin NBUF) (x : α)
  /-- `log_write` sets `B_DIRTY`. -/
  | logWrite (i : Fin NBUF)
  | bwrite (i : Fin NBUF)
  | brelse (i : Fin NBUF)

/-- A step of process `a.1`. Outside the cache it works on buffers that it has locked. -/
def step (size : ℕ) (s : Cache n α) (a : Fin n × Act α) : Option (Cache n α) :=
  let p := a.1
  match a.2, s.status p with
  | .bget dev blockno read, .idle => s.bget p dev blockno read
  | .go, .locking i read => s.acquire p i read
  | .go, .iderw i => s.iderw size p i
  | .go, .unlocked i => some (s.putBack p i)
  | .store i x, .idle =>
    if (s.buf i).lock = some p then some (s.setBuf i { s.buf i with data := x }) else none
  | .logWrite i, .idle =>
    if (s.buf i).lock = some p then some (s.setBuf i { s.buf i with dirty := true }) else none
  | .bwrite i, .idle =>
    if (s.buf i).lock = some p then
      some ((s.setBuf i { s.buf i with dirty := true }).setStatus p (.iderw i))
    else none
  | .brelse i, .idle =>
    if (s.buf i).lock = some p then
      some ((s.setBuf i { s.buf i with lock := none }).setStatus p (.unlocked i))
    else none
  | _, _ => none

abbrev Step (size : ℕ) (s : Cache n α) (a : Fin n × Act α) (t : Cache n α) : Prop :=
  step size s a = some t

/-- What the rest of the kernel keeps to: there is one disk, and a buffer is not released with
changes that were neither logged nor written. -/
def Kept (s : Cache n α) (a : Fin n × Act α) : Prop :=
  match a.2 with
  | .bget dev _ _ => dev = ROOTDEV
  | .brelse i =>
    (s.buf i).valid = true → (s.buf i).dirty = true ∨ (s.buf i).data = s.disk (s.buf i).blockno
  | _ => True

instance [DecidableEq α] (s : Cache n α) : ∀ a, Decidable (Kept s a)
  | (_, .bget dev _ _) => inferInstanceAs (Decidable (dev = ROOTDEV))
  | (_, .brelse _) => inferInstanceAs (Decidable (_ → _ ∨ _))
  | (_, .go) => isTrue trivial
  | (_, .store _ _) => isTrue trivial
  | (_, .logWrite _) => isTrue trivial
  | (_, .bwrite _) => isTrue trivial

/-! ### Small runs -/

/-- Where the steps lead. -/
def after (size : ℕ) (s : Cache n α) (es : List (Fin n × Act α)) : Cache n α :=
  (es.foldlM (step size) s).getD s

/-- Process `p` changes block `b`, which is not cached, in buffer `i`. -/
def change (p : Fin n) (b : ℕ) (i : Fin NBUF) (x : α) : List (Fin n × Act α) :=
  [(p, .bget ROOTDEV b true), (p, .go), (p, .go), (p, .store i x), (p, .logWrite i), (p, .brelse i),
    (p, .go)]

/-- A disk whose blocks hold their numbers. -/
def numbered (n : ℕ) : Cache n ℕ := binit n 0 id

/-- The buffer that is recycled first. -/
def firstBuf : Fin NBUF := ⟨0, by decide⟩

end Xv6Lab.Bio
