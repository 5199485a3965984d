import Mathlib.Data.List.FinRange
import Xv6Lab.Lib.Wp

/-! The free-block bitmap, the table of cached inodes and the file table (`fs.c`, `file.c`), for
every state that keeps them. What a block, an inode or an open file is otherwise is up to the
state. -/

namespace Xv6Lab.Disk

open Lib

def NINODE : ℕ := 50
def NFILE : ℕ := 100
def DIRSIZ : ℕ := 14

theorem NINODE_pos : 0 < NINODE := by decide

inductive InodeType
  | free | T_DIR | T_FILE | T_DEV
  deriving DecidableEq

inductive FileType
  | FD_NONE | FD_PIPE | FD_INODE
  deriving DecidableEq

/-- How a program on the states `σ` stops when it calls `panic`. -/
class Panics (σ : Type) (ε : outParam Type) where
  panic : String → ε

/-! ### Blocks -/

/-- States with the bitmap and the blocks of a disk. -/
class Bitmap (σ : Type) where
  bit : σ → ℕ → Bool
  setBit : σ → ℕ → Bool → σ
  bzero : σ → ℕ → σ

/-- The first free block among the `n` blocks from `b` on. -/
def firstFree (bit : ℕ → Bool) : (n b : ℕ) → Option ℕ
  | 0, _ => none
  | n + 1, b => if bit b = false then some b else firstFree bit n (b + 1)

/-- The place of block `b` in the run of consecutive blocks: a block that does not
follow the previous one starts the run again. -/
def runIndex (i b : ℕ) : List ℕ → ℕ
  | prev :: _ => if 0 < i ∧ b ≠ prev + 1 then 0 else i
  | [] => i

section Blocks

variable {σ ε : Type} [Bitmap σ] [Panics σ ε]

/-- Allocate a zeroed disk block; `size` is `sb.size`. -/
def balloc (size : ℕ) : StateT σ (Except ε) ℕ := do
  let s ← get
  match firstFree (Bitmap.bit s) size 0 with
  | none => throw (Panics.panic σ "balloc: out of blocks")
  | some b => do
    modify (Bitmap.setBit · b true)
    modify (Bitmap.bzero · b)
    pure b

/-- Free a disk block. -/
def bfree (b : ℕ) : StateT σ (Except ε) Unit := do
  let s ← get
  if Bitmap.bit s b = false then throw (Panics.panic σ "freeing free block")
  else modify (Bitmap.setBit · b false)

/-- The allocation loop of `balloc_page`, `alloc` holding `alloc_b` latest first.
Each round takes a free block, so `fuel` rounds are enough when `fuel` exceeds
the number of blocks. -/
def ballocPageLoop (size : ℕ) : (fuel i : ℕ) → List ℕ → StateT σ (Except ε) (List ℕ)
  | 0, _, _ => throw (Panics.panic σ "balloc: out of blocks")
  | fuel + 1, i, alloc =>
    if i < 8 then do
      let b ← balloc size
      ballocPageLoop size fuel (runIndex i b alloc + 1) (b :: alloc)
    else pure alloc

/-- Free the listed blocks in order. -/
def bfreeAll : List ℕ → StateT σ (Except ε) Unit
  | [] => pure ()
  | b :: bs => do
    bfree b
    bfreeAll bs

end Blocks

theorem firstFree_some {bit : ℕ → Bool} {n b0 b : ℕ} (h : firstFree bit n b0 = some b) :
    bit b = false ∧ b0 ≤ b ∧ b < b0 + n := by
  induction n generalizing b0 with
  | zero => cases h
  | succ n ih =>
    unfold firstFree at h
    split_ifs at h with h0
    · cases h
      exact ⟨h0, le_rfl, by omega⟩
    · obtain ⟨h1, h2, h3⟩ := ih h
      exact ⟨h1, by omega, by omega⟩

theorem firstFree_least {bit : ℕ → Bool} {n b0 b : ℕ} (h : firstFree bit n b0 = some b) {x : ℕ}
    (h1 : b0 ≤ x) (h2 : x < b) : bit x = true := by
  induction n generalizing b0 with
  | zero => cases h
  | succ n ih =>
    rw [firstFree] at h
    split_ifs at h with h0
    · cases h
      omega
    · rcases Nat.eq_or_lt_of_le h1 with rfl | hlt
      · simpa using h0
      · exact ih h hlt

theorem firstFree_none {bit : ℕ → Bool} {n b0 : ℕ} (h : firstFree bit n b0 = none) {x : ℕ}
    (h1 : b0 ≤ x) (h2 : x < b0 + n) : bit x = true := by
  induction n generalizing b0 with
  | zero => omega
  | succ n ih =>
    rw [firstFree] at h
    split_ifs at h with h0
    rcases Nat.eq_or_lt_of_le h1 with rfl | hlt
    · simpa using h0
    · exact ih h hlt (by omega)

section Rules

variable {σ ε τ : Type} [Bitmap σ] [Panics σ ε] {size b : ℕ} {s : σ} {f : σ → τ}

theorem balloc_of_none (h : firstFree (Bitmap.bit s) size 0 = none) :
    (balloc size : StateT σ (Except ε) ℕ) s = .error (Panics.panic σ "balloc: out of blocks") := by
  unfold balloc
  rw [bind_apply, get_apply]
  simp only [h]
  rfl

theorem balloc_of_some (h : firstFree (Bitmap.bit s) size 0 = some b) :
    (balloc size : StateT σ (Except ε) ℕ) s =
      .ok (b, Bitmap.bzero (Bitmap.setBit s b true) b) := by
  unfold balloc
  rw [bind_apply, get_apply]
  simp only [h]
  rfl

theorem bfree_of_used (h : Bitmap.bit s b = true) :
    (bfree b : StateT σ (Except ε) Unit) s = .ok ((), Bitmap.setBit s b false) := by
  unfold bfree
  rw [bind_apply, get_apply]
  simp only [h]
  rfl

theorem wp_balloc {Q : ℕ → σ → Prop} (h : ∀ b, Bitmap.bit s b = false → b < size →
    Q b (Bitmap.bzero (Bitmap.setBit s b true) b)) :
    wp (balloc size : StateT σ (Except ε) ℕ) Q s := by
  cases hb : firstFree (Bitmap.bit s) size 0 with
  | none =>
    intro b t ht
    rw [balloc_of_none hb] at ht
    cases ht
  | some b =>
    obtain ⟨hfree, -, hlt⟩ := firstFree_some hb
    exact wp_of_eq (balloc_of_some hb) (h b hfree (by omega))

theorem balloc_stops (size : ℕ) (s : σ) :
    stops (balloc size) (· = Panics.panic σ "balloc: out of blocks") s := by
  cases hb : firstFree (Bitmap.bit s) size 0 with
  | none =>
    intro e he
    rw [balloc_of_none hb] at he
    cases he
    rfl
  | some b => exact stops_of_eq (balloc_of_some hb)

theorem ballocPageLoop_stops (size fuel i : ℕ) (alloc : List ℕ) (s : σ) :
    stops (ballocPageLoop size fuel i alloc)
      (· = Panics.panic σ "balloc: out of blocks") s := by
  induction fuel generalizing i alloc s with
  | zero =>
    unfold ballocPageLoop
    rw [stops_throw]
  | succ fuel ih =>
    unfold ballocPageLoop
    split_ifs
    · rw [stops_bind]
      exact ⟨balloc_stops size s, fun b t _ => ih _ _ t⟩
    · rw [stops_pure]
      trivial

/-! Nothing but bits and blocks changes. -/

section Preserves

variable (hbit : ∀ s b v, f (Bitmap.setBit s b v) = f s) (hzero : ∀ s b, f (Bitmap.bzero s b) = f s)
include hbit

theorem bfree_preserves (b : ℕ) : Preserves f (bfree b : StateT σ (Except ε) Unit) := by
  unfold bfree
  apply preserves_get.bind
  exact fun s => (preserves_throw _).ite (preserves_modify fun s => hbit s b false)

theorem bfreeAll_preserves (bs : List ℕ) :
    Preserves f (bfreeAll bs : StateT σ (Except ε) Unit) := by
  induction bs with
  | nil => exact preserves_pure _
  | cons b bs ih => exact (bfree_preserves hbit b).bind fun _ => ih

include hzero

theorem balloc_preserves (size : ℕ) : Preserves f (balloc size : StateT σ (Except ε) ℕ) := by
  intro s
  apply wp_balloc
  intro b _ _
  rw [hzero, hbit]

theorem ballocPageLoop_preserves (size fuel i : ℕ) (alloc : List ℕ) :
    Preserves f (ballocPageLoop size fuel i alloc : StateT σ (Except ε) (List ℕ)) := by
  induction fuel generalizing i alloc with
  | zero => exact preserves_throw _
  | succ fuel ih =>
    unfold ballocPageLoop
    apply Preserves.ite _ (preserves_pure _)
    exact (balloc_preserves hbit hzero size).bind fun b => ih _ _

end Preserves

end Rules

/-! ### Inodes and files -/

/-- First index that satisfies `q`. -/
def findIndex {n : ℕ} (q : Fin n → Bool) : Option (Fin n) := (List.finRange n).find? q

theorem findIndex_eq {n : ℕ} {q : Fin n → Bool} {k : Fin n} (h : findIndex q = some k) :
    q k = true := List.find?_some h

theorem findIndex_none {n : ℕ} {q : Fin n → Bool} (h : findIndex q = none) (k : Fin n) :
    q k = false := by
  have hk := List.find?_eq_none.1 h k (List.mem_finRange k)
  simpa using hk

/-- States with a table of cached inodes; an entry is free when `ref` is 0. -/
class Icache (σ : Type) where
  inum : σ → Fin NINODE → ℕ
  ref : σ → Fin NINODE → ℕ
  /-- `ip->ref++`. -/
  dup : σ → Fin NINODE → σ
  /-- `ip->inum = inum; ip->ref = 1; ip->valid = 0`. -/
  recycle : σ → Fin NINODE → ℕ → σ

/-- States with a table of open files; an entry is free when `ref` is 0. -/
class Ftable (σ : Type) where
  ref : σ → Fin NFILE → ℕ
  /-- `f->ref = 1`. -/
  take : σ → Fin NFILE → σ

section Tables

variable {σ ε : Type}

/-- A reference to the cached copy of inode `inum`. -/
def iget [Icache σ] [Panics σ ε] (inum : ℕ) : StateT σ (Except ε) (Fin NINODE) := do
  let s ← get
  match findIndex fun j => 0 < Icache.ref s j ∧ Icache.inum s j = inum with
  | some j => do
    modify (Icache.dup · j)
    pure j
  | none =>
    match findIndex fun j => Icache.ref s j = 0 with
    | none => throw (Panics.panic σ "iget: no inodes")
    | some j => do
      modify (Icache.recycle · j inum)
      pure j

def idup [Icache σ] (j : Fin NINODE) : StateT σ (Except ε) (Fin NINODE) := do
  modify (Icache.dup · j)
  pure j

/-- Take a free entry of the file table; its type stays what it is. -/
def filealloc [Ftable σ] : StateT σ (Except ε) (Option (Fin NFILE)) := do
  let s ← get
  match findIndex fun f => Ftable.ref s f = 0 with
  | none => pure none
  | some f => do
    modify (Ftable.take · f)
    pure (some f)

theorem wp_iget [Icache σ] [Panics σ ε] {inum : ℕ} {Q : Fin NINODE → σ → Prop} {s : σ}
    (hhit : ∀ j, 0 < Icache.ref s j → Icache.inum s j = inum → Q j (Icache.dup s j))
    (hmiss : ∀ j, Icache.ref s j = 0 → (∀ i, 0 < Icache.ref s i → Icache.inum s i ≠ inum) →
      Q j (Icache.recycle s j inum)) :
    wp (iget inum : StateT σ (Except ε) (Fin NINODE)) Q s := by
  unfold iget
  rw [wp_bind, wp_get]
  cases hf : findIndex fun j => 0 < Icache.ref s j ∧ Icache.inum s j = inum with
  | some j =>
    have hj := findIndex_eq hf
    rw [decide_eq_true_eq] at hj
    simp only [wp_bind, wp_modify, wp_pure]
    exact hhit j hj.1 hj.2
  | none =>
    cases hf0 : findIndex fun j => Icache.ref s j = 0 with
    | none =>
      rw [wp_throw]
      trivial
    | some j =>
      have hj := findIndex_eq hf0
      rw [decide_eq_true_eq] at hj
      simp only [wp_bind, wp_modify, wp_pure]
      refine hmiss j hj fun i hi he => ?_
      have hnone := findIndex_none hf i
      rw [decide_eq_false_iff_not] at hnone
      exact hnone ⟨hi, he⟩

theorem iget_stops [Icache σ] [Panics σ ε] (inum : ℕ) (s : σ) :
    stops (iget inum) (· = Panics.panic σ "iget: no inodes") s := by
  unfold iget
  rw [stops_bind, wp_get]
  refine ⟨by rw [stops_get]; trivial, ?_⟩
  cases findIndex fun j => 0 < Icache.ref s j ∧ Icache.inum s j = inum with
  | some j => simp only [stops_bind, stops_modify, stops_pure, wp_modify, and_self]
  | none =>
    cases findIndex fun j => Icache.ref s j = 0 with
    | some j => simp only [stops_bind, stops_modify, stops_pure, wp_modify, and_self]
    | none => rw [stops_throw]

theorem wp_filealloc [Ftable σ] {Q : Option (Fin NFILE) → σ → Prop} {s : σ} (hnone : Q none s)
    (htake : ∀ f, Ftable.ref s f = 0 → Q (some f) (Ftable.take s f)) :
    wp (filealloc : StateT σ (Except ε) (Option (Fin NFILE))) Q s := by
  unfold filealloc
  rw [wp_bind, wp_get]
  cases hf : findIndex fun f => Ftable.ref s f = 0 with
  | none =>
    rw [wp_pure]
    exact hnone
  | some f =>
    have hfree := findIndex_eq hf
    rw [decide_eq_true_eq] at hfree
    simp only [wp_bind, wp_modify, wp_pure]
    exact htake f hfree

end Tables

end Xv6Lab.Disk
