import Mathlib.Data.List.Nodup
import Mathlib.Data.Option.Basic
import Mathlib.Logic.Function.Basic
import Mathlib.Tactic.Common

/-! Doubly linked rings with a sentinel. A node is `some b`, the sentinel is `none`; `next` and
`prev` are the pointers, and every operation is the sequence of assignments that a program makes. -/

namespace Xv6Lab.Lib

variable {β : Type} [DecidableEq β]

structure Links (β : Type) where
  next : Option β → Option β
  prev : Option β → Option β

namespace Links

variable {L L' : Links β} {x y z : Option β} {l m : List β} {b c : β}

def setNext (L : Links β) (x y : Option β) : Links β :=
  { L with next := Function.update L.next x y }

def setPrev (L : Links β) (x y : Option β) : Links β :=
  { L with prev := Function.update L.prev x y }

/-- `b->next->prev = b->prev; b->prev->next = b->next`. -/
def unlink (L : Links β) (b : β) : Links β :=
  let L₁ := L.setPrev (L.next (some b)) (L.prev (some b))
  L₁.setNext (L₁.prev (some b)) (L₁.next (some b))

/-- `b->next = head.next; b->prev = &head; head.next->prev = b; head.next = b`. -/
def pushFront (L : Links β) (b : β) : Links β :=
  let L₁ := L.setNext (some b) (L.next none)
  let L₂ := L₁.setPrev (some b) none
  let L₃ := L₂.setPrev (L₂.next none) (some b)
  L₃.setNext none (some b)

/-- The sentinel alone: `head.prev = &head; head.next = &head`. -/
def empty : Links β := ⟨fun _ => none, fun _ => none⟩

def flip (L : Links β) : Links β := ⟨L.prev, L.next⟩

/-- The first node with `p` on the way along `r`; the way ends at the sentinel. -/
def scan (r : Option β → Option β) (p : β → Bool) : ℕ → Option β → Option β
  | 0, _ => none
  | _, none => none
  | k + 1, some b => if p b then some b else scan r p k (r (some b))

/-- The nodes `l` lie between `x` and `y`, in this order. -/
def Path (L : Links β) (x : Option β) : List β → Option β → Prop
  | [], y => L.next x = y ∧ L.prev y = x
  | b :: l, y => (L.next x = some b ∧ L.prev (some b) = x) ∧ Path L (some b) l y

/-- The ring consists of the sentinel and `l`. -/
structure Ring (L : Links β) (l : List β) : Prop where
  path : Path L none l none
  nodup : l.Nodup

/-! ### Paths -/

omit [DecidableEq β] in
theorem path_append : Path L x (l ++ b :: m) y ↔ Path L x l (some b) ∧ Path L (some b) m y := by
  induction l generalizing x with
  | nil => exact Iff.rfl
  | cons c l ih =>
    exact (and_congr_right fun _ => ih (x := some c)).trans and_assoc.symm

omit [DecidableEq β] in
theorem Path.flip (h : Path L x l y) : Path L.flip y l.reverse x := by
  induction l generalizing x with
  | nil => exact ⟨h.2, h.1⟩
  | cons c l ih =>
    rw [List.reverse_cons, path_append]
    exact ⟨ih h.2, h.1.2, h.1.1⟩

omit [DecidableEq β] in
/-- A path does not see changes elsewhere. -/
theorem Path.frame (h : Path L x l y) (hx : L'.next x = L.next x) (hy : L'.prev y = L.prev y)
    (hl : ∀ c ∈ l, L'.next (some c) = L.next (some c) ∧ L'.prev (some c) = L.prev (some c)) :
    Path L' x l y := by
  induction l generalizing x with
  | nil => exact ⟨hx.trans h.1, hy.trans h.2⟩
  | cons c l ih =>
    have hc := hl c (List.mem_cons_self ..)
    refine ⟨⟨hx.trans h.1.1, hc.2.trans h.1.2⟩, ?_⟩
    exact ih h.2 hc.1 fun d hd => hl d (List.mem_cons_of_mem _ hd)

omit [DecidableEq β] in
/-- The node in front of the end of a path. -/
theorem Path.prev_mem (h : Path L x l y) : L.prev y ∈ x :: l.map some := by
  induction l generalizing x with
  | nil => exact List.mem_singleton.2 h.2
  | cons c l ih => exact List.mem_cons_of_mem _ (ih h.2)

omit [DecidableEq β] in
/-- The last link of a path is led to another end. -/
theorem Path.retarget (h : Path L x l z) (hn : (x :: l.map some).Nodup)
    (hnext : ∀ w ∈ x :: l.map some, w ≠ L.prev z → L'.next w = L.next w)
    (hprev : ∀ c ∈ l, L'.prev (some c) = L.prev (some c))
    (hy : L'.next (L.prev z) = y) (hy' : L'.prev y = L.prev z) : Path L' x l y := by
  induction l generalizing x with
  | nil =>
    rw [h.2] at hy hy'
    exact ⟨hy, hy'⟩
  | cons c l ih =>
    have hne : x ≠ L.prev z := by
      intro he
      refine (List.nodup_cons.1 hn).1 ?_
      rw [he]
      exact h.2.prev_mem
    have hx := hnext x (List.mem_cons_self ..) hne
    refine ⟨⟨hx.trans h.1.1, (hprev c (List.mem_cons_self ..)).trans h.1.2⟩, ?_⟩
    exact ih h.2 (List.nodup_cons.1 hn).2 (fun w hw => hnext w (List.mem_cons_of_mem _ hw))
      fun d hd => hprev d (List.mem_cons_of_mem _ hd)

/-! ### Operations on rings -/

omit [DecidableEq β] in
theorem ring_empty : Ring (empty : Links β) [] := ⟨⟨rfl, rfl⟩, List.nodup_nil⟩

@[simp] theorem setNext_self : (L.setNext x y).next x = y := Function.update_self ..

@[simp] theorem setPrev_self : (L.setPrev x y).prev x = y := Function.update_self ..

theorem setNext_of_ne (h : z ≠ x) : (L.setNext x y).next z = L.next z := Function.update_of_ne h ..

theorem setPrev_of_ne (h : z ≠ x) : (L.setPrev x y).prev z = L.prev z := Function.update_of_ne h ..

@[simp] theorem setNext_prev : (L.setNext x y).prev = L.prev := rfl

@[simp] theorem setPrev_next : (L.setPrev x y).next = L.next := rfl

/-- What `pushFront` leaves, while `b` is not at the front. -/
theorem pushFront_next_none : (L.pushFront b).next none = some b := setNext_self

theorem pushFront_next_self : (L.pushFront b).next (some b) = L.next none := by
  unfold pushFront
  rw [setNext_of_ne (by simp), setPrev_next, setPrev_next, setNext_self]

theorem pushFront_next_of_ne (h : x ≠ none) (hb : x ≠ some b) :
    (L.pushFront b).next x = L.next x := by
  unfold pushFront
  rw [setNext_of_ne h, setPrev_next, setPrev_next, setNext_of_ne hb]

theorem pushFront_prev_next : (L.pushFront b).prev (L.next none) = some b := by
  unfold pushFront
  simp only [setNext_prev, setPrev_next]
  rw [setNext_of_ne (by simp), setPrev_self]

theorem pushFront_prev_self (h : some b ≠ L.next none) : (L.pushFront b).prev (some b) = none := by
  unfold pushFront
  simp only [setNext_prev, setPrev_next]
  rw [setNext_of_ne (by simp), setPrev_of_ne h, setPrev_self]

theorem pushFront_prev_of_ne (h : x ≠ L.next none) (hb : x ≠ some b) :
    (L.pushFront b).prev x = L.prev x := by
  unfold pushFront
  simp only [setNext_prev, setPrev_next]
  rw [setNext_of_ne (by simp), setPrev_of_ne h, setPrev_of_ne hb, setNext_prev]

theorem Ring.pushFront (h : Ring L l) (hb : b ∉ l) : Ring (L.pushFront b) (b :: l) := by
  have hne : ∀ c ∈ l, some c ≠ some b := by
    intro c hc he
    rw [Option.some.inj he] at hc
    exact hb hc
  refine ⟨⟨⟨pushFront_next_none, pushFront_prev_self fun he => ?_⟩, ?_⟩,
    List.nodup_cons.2 ⟨hb, h.nodup⟩⟩
  · cases l with
    | nil => cases he.trans h.path.1
    | cons c l => exact hne c (List.mem_cons_self ..) (he.trans h.path.1.1).symm
  · have hself := pushFront_next_self (L := L) (b := b)
    have hback := pushFront_prev_next (L := L) (b := b)
    cases l with
    | nil =>
      rw [h.path.1] at hself hback
      exact ⟨hself, hback⟩
    | cons c l =>
      have hn := List.nodup_cons.1 h.nodup
      have hfirst := h.path.1.1
      rw [hfirst] at hself hback
      refine ⟨⟨hself, hback⟩, h.path.2.frame ?_ ?_ fun d hd => ⟨?_, ?_⟩⟩
      · exact pushFront_next_of_ne (by simp) (hne c (List.mem_cons_self ..))
      · exact pushFront_prev_of_ne (by simp [hfirst]) (by simp)
      · exact pushFront_next_of_ne (by simp) (hne d (List.mem_cons_of_mem _ hd))
      · refine pushFront_prev_of_ne ?_ (hne d (List.mem_cons_of_mem _ hd))
        rw [hfirst]
        intro he
        rw [Option.some.inj he] at hd
        exact hn.1 hd

theorem unlink_prev_next : (L.unlink b).prev (L.next (some b)) = L.prev (some b) := setPrev_self

theorem unlink_prev_of_ne (h : x ≠ L.next (some b)) : (L.unlink b).prev x = L.prev x :=
  setPrev_of_ne h

theorem unlink_next_prev (h : some b ≠ L.next (some b)) :
    (L.unlink b).next (L.prev (some b)) = L.next (some b) := by
  unfold unlink
  simp only [setPrev_next]
  rw [setPrev_of_ne h, setNext_self]

theorem unlink_next_of_ne (h : some b ≠ L.next (some b)) (hx : x ≠ L.prev (some b)) :
    (L.unlink b).next x = L.next x := by
  unfold unlink
  simp only [setPrev_next]
  rw [setPrev_of_ne h, setNext_of_ne hx, setPrev_next]

omit [DecidableEq β] in
theorem Ring.next_ne_self (h : Ring L (l ++ b :: m)) : some b ≠ L.next (some b) := by
  intro he
  have hmem : L.next (some b) ∈ none :: m.reverse.map some := (path_append.1 h.path).2.flip.prev_mem
  rw [← he] at hmem
  have hb : b ∈ m := by simpa using hmem
  exact (List.nodup_cons.1 (List.nodup_append.1 h.nodup).2.1).1 hb

theorem Ring.unlink (h : Ring L (l ++ b :: m)) : Ring (L.unlink b) (l ++ m) := by
  have hself := h.next_ne_self
  obtain ⟨hl, hm⟩ := path_append.1 h.path
  obtain ⟨hnl, hnm, hdis⟩ := List.nodup_append.1 h.nodup
  have hb := List.nodup_cons.1 hnm
  have hnone : (none :: l.map some).Nodup :=
    List.nodup_cons.2 ⟨by simp, hnl.map (Option.some_injective _)⟩
  refine ⟨?_, List.nodup_append.2 ⟨hnl, hb.2, fun c hc d hd => ?_⟩⟩
  · have hto := unlink_next_prev hself
    have hfrom := unlink_prev_next (L := L) (b := b)
    have hnext : ∀ w ∈ none :: l.map some, w ≠ L.prev (some b) → (L.unlink b).next w = L.next w :=
      fun w _ hw => unlink_next_of_ne hself hw
    cases m with
    | nil =>
      rw [hm.1] at hto hfrom
      rw [List.append_nil]
      refine hl.retarget hnone hnext (fun c _ => unlink_prev_of_ne ?_) hto hfrom
      simp [hm.1]
    | cons d m =>
      have hnd := List.nodup_cons.1 hb.2
      have hd := hm.1.1
      rw [hd] at hto hfrom
      rw [path_append]
      constructor
      · refine hl.retarget hnone hnext (fun c hc => unlink_prev_of_ne ?_) hto hfrom
        rw [hd]
        intro he
        exact hdis c hc d (by simp) (Option.some.inj he)
      · have hout : ∀ c ∈ d :: m, some c ≠ L.prev (some b) := by
          intro c hc he
          have hmem := hl.prev_mem
          rw [← he] at hmem
          have hcl : c ∈ l := by simpa using hmem
          exact hdis c hcl c (List.mem_cons_of_mem _ hc) rfl
        refine hm.2.frame (unlink_next_of_ne hself (hout d (List.mem_cons_self ..)))
          (unlink_prev_of_ne (by simp [hd])) fun c hc => ⟨?_, unlink_prev_of_ne ?_⟩
        · exact unlink_next_of_ne hself (hout c (List.mem_cons_of_mem _ hc))
        · rw [hd]
          intro he
          rw [Option.some.inj he] at hc
          exact hnd.1 hc
  · exact hdis c hc d (List.mem_cons_of_mem _ hd)

/-- A node is moved to the front. -/
theorem Ring.toFront (h : Ring L l) (hb : b ∈ l) :
    Ring ((L.unlink b).pushFront b) (b :: l.erase b) := by
  obtain ⟨l₁, l₂, hb₁, rfl, he⟩ := List.exists_erase_eq hb
  rw [he]
  refine Ring.pushFront h.unlink ?_
  have hn := List.nodup_append.1 h.nodup
  rw [List.mem_append, not_or]
  exact ⟨hb₁, (List.nodup_cons.1 hn.2.1).1⟩

/-- Nodes put in front one after the other. -/
theorem Ring.foldl (h : Ring L l) (hm : m.Nodup) (hd : ∀ c ∈ m, c ∉ l) :
    Ring (m.foldl Links.pushFront L) (m.reverse ++ l) := by
  induction m generalizing L l with
  | nil => exact h
  | cons b m ih =>
    have hb := List.nodup_cons.1 hm
    rw [List.foldl_cons, List.reverse_cons, List.append_assoc]
    refine ih (h.pushFront (hd b (List.mem_cons_self ..))) hb.2 fun c hc hcl => ?_
    obtain rfl | hcl := List.mem_cons.1 hcl
    · exact hb.1 hc
    · exact hd c (List.mem_cons_of_mem _ hc) hcl

/-! ### Scans -/

omit [DecidableEq β] in
theorem Path.scan (h : Path L x l none) {k : ℕ} (hk : l.length < k) (p : β → Bool) :
    scan L.next p k (L.next x) = l.find? p := by
  induction l generalizing x k with
  | nil =>
    obtain ⟨k, rfl⟩ := Nat.exists_eq_succ_of_ne_zero (Nat.ne_of_gt hk)
    rw [h.1]
    rfl
  | cons b l ih =>
    obtain ⟨k, rfl⟩ := Nat.exists_eq_succ_of_ne_zero (Nat.ne_of_gt (Nat.zero_lt_of_lt hk))
    rw [h.1.1, List.find?_cons]
    unfold Links.scan
    cases p b with
    | true => rfl
    | false => exact ih h.2 (Nat.lt_of_succ_lt_succ hk)

omit [DecidableEq β] in
theorem Ring.scan_next (h : Ring L l) {k : ℕ} (hk : l.length < k) (p : β → Bool) :
    scan L.next p k (L.next none) = l.find? p := h.path.scan hk p

omit [DecidableEq β] in
theorem Ring.scan_prev (h : Ring L l) {k : ℕ} (hk : l.length < k) (p : β → Bool) :
    scan L.prev p k (L.prev none) = l.reverse.find? p :=
  h.path.flip.scan (by rwa [List.length_reverse]) p

end Links

end Xv6Lab.Lib
