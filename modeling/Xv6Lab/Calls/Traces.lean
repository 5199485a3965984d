import Mathlib.Algebra.Group.Pi.Basic
import Mathlib.Algebra.Order.Group.Nat
import Mathlib.Algebra.Ring.Int.Defs
import Xv6Lab.Calls.Files

/-! What the functions of the file system do to the counts and locks that a system call must
leave as it found them. -/

namespace Xv6Lab.Calls

open Disk Lib

variable {E : Env} {s t u : Kernel} {j ip : Fin NINODE} {f : Fin NFILE}

/-- The counts and locks of a state. -/
structure View where
  ofile : Fin NOFILE → Option (Fin NFILE)
  ftable : Ftable
  ref : Fin NINODE → ℕ
  lock : Fin NINODE → Option ℕ
  outstanding : ℤ

def Kernel.view (s : Kernel) : View where
  ofile := s.ofile
  ftable := s.ftable
  ref j := (s.icache j).ref
  lock j := (s.icache j).lock
  outstanding := s.log.outstanding

namespace View

/-- One more reference to a cached inode. -/
def addRef (w : View) (j : Fin NINODE) : View := { w with ref := w.ref + Pi.single j 1 }

def setLock (w : View) (j : Fin NINODE) (x : Option ℕ) : View :=
  { w with lock := Function.update w.lock j x }

/-- `n` more operations under way. -/
def addOps (w : View) (n : ℤ) : View := { w with outstanding := w.outstanding + n }

theorem addRef_cancel {w w' : View} (h : w.addRef j = w'.addRef j) : w = w' := by
  cases w
  cases w'
  simpa [addRef] using h

theorem addRef_comm (w : View) (i j : Fin NINODE) :
    (w.addRef i).addRef j = (w.addRef j).addRef i := by
  unfold addRef
  rw [add_right_comm]

theorem ref_addRef_ne_zero {w : View} {k : Fin NINODE} (h : w.ref k ≠ 0) :
    (w.addRef j).ref k ≠ 0 :=
  Nat.ne_of_gt ((Nat.pos_of_ne_zero h).trans_le (Nat.le_add_right _ _))

/-- Locking and unlocking. -/
theorem setLock_setLock {w : View} (h : w.lock j = none) (x : Option ℕ) :
    (w.setLock j x).setLock j none = w := by
  unfold setLock
  rw [Function.update_idem, ← h, Function.update_eq_self]

end View

/-- The cache entries in use, those of `ip` and a reference to it apart, keep their inodes. -/
def KeepsInodes (s : Kernel) (own : Fin NINODE → ℕ) (t : Kernel) : Prop :=
  ∀ k, own k < (s.icache k).ref → (t.icache k).inum = (s.icache k).inum

/-- A step from `s` that makes the view `w` and keeps the inodes of all entries in use. -/
structure Makes (s : Kernel) (w : View) (t : Kernel) : Prop where
  view : t.view = w
  inodes : KeepsInodes s 0 t

theorem Makes.refl (s : Kernel) : Makes s s.view s := ⟨rfl, fun _ _ => rfl⟩

/-- A change of cache entry `j` that keeps its inode. -/
theorem Makes.setCached {x : CachedInode} {w : View} (hx : x.inum = (s.icache j).inum)
    (hr : Function.update s.view.ref j x.ref = w.ref)
    (hl : Function.update s.view.lock j x.lock = w.lock)
    (hw : w = { s.view with ref := w.ref, lock := w.lock }) : Makes s w (s.setCached j x) := by
  constructor
  · rw [hw, ← hr, ← hl]
    unfold Kernel.view Kernel.setCached
    congr 1 <;>
    · funext k
      by_cases hk : k = j
      · subst hk
        simp
      · simp [hk]
  · intro k _
    by_cases hk : k = j
    · subst hk
      simp [Kernel.setCached, hx]
    · simp [Kernel.setCached, hk]

theorem update_ref_self (s : Kernel) (j : Fin NINODE) :
    Function.update s.view.ref j (s.icache j).ref = s.view.ref := Function.update_eq_self j s.view.ref

theorem update_lock_self (s : Kernel) (j : Fin NINODE) :
    Function.update s.view.lock j (s.icache j).lock = s.view.lock :=
  Function.update_eq_self j s.view.lock

theorem update_ref (s : Kernel) (j : Fin NINODE) :
    Function.update s.view.ref j ((s.icache j).ref + 1) = (s.view.addRef j).ref := by
  funext k
  by_cases hk : k = j
  · subst hk
    simp [View.addRef, Kernel.view]
  · simp [View.addRef, hk]

theorem Makes.trans {w w' : View} (h : Makes s w t) (h' : Makes t w' u)
    (hle : ∀ k, s.view.ref k ≠ 0 → w.ref k ≠ 0) : Makes s w' u := by
  refine ⟨h'.view, fun k hk => ?_⟩
  have ht : (t.icache k).ref ≠ 0 := by
    have := hle k (Nat.ne_of_gt hk)
    rwa [← h.view] at this
  rw [h'.inodes k (Nat.pos_of_ne_zero ht), h.inodes k hk]

/-! ### The log -/

theorem begin_op_spec (E : Env) (s : Kernel) :
    wp (begin_op E) (fun _ t => Makes s (s.view.addOps 1) t) s := by
  unfold begin_op
  rw [wp_bind, wp_get]
  split_ifs
  · rw [wp_throw]
    trivial
  · rw [wp_modify]
    exact ⟨rfl, fun _ _ => rfl⟩

theorem end_op_spec (s : Kernel) :
    wp end_op (fun _ t => t.view = s.view.addOps (-1) ∧ t.icache = s.icache) s := by
  unfold end_op
  simp only [wp_bind, wp_modify, wp_get]
  split_ifs
  · rw [wp_throw]
    trivial
  · simp only [wp_bind, wp_modify]
    exact ⟨rfl, rfl⟩
  · rw [wp_pure]
    exact ⟨rfl, rfl⟩

/-! ### Inodes -/

theorem acquiresleep_spec (s : Kernel) (j : Fin NINODE) :
    wp (acquiresleep j) (fun _ t => (s.icache j).lock = none ∧
      Makes s (s.view.setLock j (some s.pid)) t) s := by
  unfold acquiresleep
  rw [wp_bind, wp_get]
  simp only
  split
  · rw [wp_throw]
    trivial
  · rename_i hl
    rw [wp_modify]
    exact ⟨hl, .setCached rfl (update_ref_self s j) rfl rfl⟩

theorem releasesleep_spec (s : Kernel) (j : Fin NINODE) :
    wp (releasesleep j) (fun _ t => Makes s (s.view.setLock j none) t) s := by
  unfold releasesleep
  rw [wp_modify]
  exact .setCached rfl (update_ref_self s j) rfl rfl

theorem addRef_spec (s : Kernel) (j : Fin NINODE) :
    Makes s (s.view.addRef j) (s.setCached j { s.icache j with ref := (s.icache j).ref + 1 }) :=
  .setCached rfl (update_ref s j) (update_lock_self s j) rfl

theorem idup_spec (s : Kernel) (j : Fin NINODE) :
    wp (idup j : K (Fin NINODE)) (fun r t => r = j ∧ Makes s (s.view.addRef j) t) s := by
  unfold idup
  simp only [wp_bind, wp_modify, wp_pure]
  exact ⟨trivial, addRef_spec s j⟩

theorem iget_spec (s : Kernel) (inum : ℕ) :
    wp (iget inum) (fun r t => Makes s (s.view.addRef r) t) s := by
  apply wp_iget
  · exact fun j _ _ => addRef_spec s j
  · intro j (hfree : (s.icache j).ref = 0) _
    change Makes s _ (s.setCached j { s.icache j with inum := inum, ref := 1, valid := false })
    -- a recycled entry is not in use
    constructor
    · rw [← (addRef_spec s j).view, hfree]
      unfold Kernel.view Kernel.setCached
      congr 1 <;>
      · funext k
        by_cases hk : k = j
        · subst hk
          simp
        · simp [hk]
    · intro k hk
      have hne : k ≠ j := by
        rintro rfl
        rw [hfree] at hk
        exact lt_irrefl _ hk
      simp [Kernel.setCached, hne]

theorem ilock_spec (s : Kernel) (j : Fin NINODE) :
    wp (ilock j) (fun _ t => (s.icache j).lock = none ∧ 1 ≤ (s.icache j).ref ∧
      Makes s (s.view.setLock j (some s.pid)) t) s := by
  unfold ilock
  rw [wp_bind, wp_get]
  split_ifs with href
  · rw [wp_throw]
    trivial
  rw [wp_bind]
  refine wp_mono (acquiresleep_spec s j) fun _ t ⟨hl, h⟩ => ?_
  have hvalid : Makes t t.view (t.setCached j { t.icache j with valid := true }) :=
    .setCached rfl (update_ref_self t j) (update_lock_self t j) rfl
  have hmake := h.trans hvalid fun _ hk => hk
  rw [h.view] at hmake
  rw [wp_bind, wp_get]
  split_ifs
  · rw [wp_pure]
    exact ⟨hl, by omega, h⟩
  · rw [wp_bind, wp_modify, wp_throw]
    trivial
  · rw [wp_bind, wp_modify, wp_pure]
    exact ⟨hl, by omega, hmake⟩

theorem iunlock_spec (s : Kernel) (j : Fin NINODE) :
    wp (iunlock j) (fun _ t => 1 ≤ (s.icache j).ref ∧ Makes s (s.view.setLock j none) t) s := by
  unfold iunlock
  rw [wp_bind, wp_get]
  split_ifs with h
  · rw [wp_throw]
    trivial
  · rw [not_or] at h
    exact wp_mono (releasesleep_spec s j) fun _ t ht => ⟨by omega, ht⟩

theorem Makes.ref {w : View} (h : Makes s w t) (j : Fin NINODE) : (t.icache j).ref = w.ref j :=
  congrFun (congrArg View.ref h.view) j

/-- The reference that `iput` drops. -/
theorem iput_spec (s : Kernel) (j : Fin NINODE) (href : 1 ≤ (s.icache j).ref) :
    wp (iput j) (fun _ t => (s.icache j).lock = none ∧ t.view.addRef j = s.view ∧
      KeepsInodes s 0 t) s := by
  unfold iput
  rw [wp_bind]
  refine wp_mono (acquiresleep_spec s j) fun _ t ⟨hl, h⟩ => ?_
  rw [wp_bind, wp_get]
  simp only
  -- what is left to do, with the inode freed or not
  have hrest : ∀ t' : Kernel, Makes s (s.view.setLock j (some s.pid)) t' →
      wp (do
        releasesleep j
        modify fun s => s.setCached j { s.icache j with ref := (s.icache j).ref - 1 })
        (fun _ u => (s.icache j).lock = none ∧ u.view.addRef j = s.view ∧ KeepsInodes s 0 u) t' := by
    intro t' h'
    rw [wp_bind]
    refine wp_mono (releasesleep_spec t' j) fun _ u hu => ?_
    have hunlocked : Makes s s.view u := by
      have hmake := h'.trans hu fun _ hk => hk
      have hw : t'.view.setLock j none = s.view := by
        rw [h'.view]
        unfold View.setLock
        simp only [Function.update_idem]
        rw [← hl, update_lock_self]
      rwa [hw] at hmake
    rw [wp_modify]
    have hdrop : Makes u { s.view with ref := Function.update s.view.ref j ((s.icache j).ref - 1) }
        (u.setCached j { u.icache j with ref := (u.icache j).ref - 1 }) := by
      refine .setCached rfl ?_ ?_ ?_
      · rw [hunlocked.view, hunlocked.ref]
        rfl
      · rw [update_lock_self, hunlocked.view]
      · rw [hunlocked.view]
    have hmake := hunlocked.trans hdrop fun _ hk => hk
    refine ⟨hl, ?_, hmake.inodes⟩
    rw [hmake.view]
    unfold View.addRef
    congr 1
    funext k
    by_cases hk : k = j
    · subst hk
      simp only [Pi.add_apply, Function.update_self, Pi.single_eq_same]
      exact Nat.sub_add_cancel href
    · simp [hk, Kernel.view]
  split_ifs with hfree
  · rw [wp_bind, wp_modify, wp_bind, wp_modify]
    refine hrest _ ?_
    set t' := t.setInode (t.icache j).inum { t.inodeOf j with type := .free, data := [] }
    have hfreed : Makes t t.view t' := ⟨rfl, fun _ _ => rfl⟩
    have hvalid : Makes t' t'.view (t'.setCached j { t'.icache j with valid := false }) :=
      .setCached rfl (update_ref_self t' j) (update_lock_self t' j) rfl
    have hmake := h.trans (hfreed.trans hvalid fun _ hk => hk) fun _ hk => hk
    rwa [show t'.view = t.view from rfl, h.view] at hmake
  · exact hrest t h

theorem iunlockput_spec (s : Kernel) (j : Fin NINODE) :
    wp (iunlockput j) (fun _ t => t.view.addRef j = s.view.setLock j none ∧ KeepsInodes s 0 t) s := by
  unfold iunlockput
  rw [wp_bind]
  refine wp_mono (iunlock_spec s j) fun _ t ⟨href, h⟩ => ?_
  have hreft : 1 ≤ (t.icache j).ref := href.trans_eq (h.ref j).symm
  refine wp_mono (iput_spec t j hreft) fun _ u ⟨_, hu, hk⟩ => ?_
  refine ⟨hu.trans h.view, fun k hpos => ?_⟩
  rw [hk k (hpos.trans_eq (h.ref k).symm), h.inodes k hpos]

/-! ### Paths -/

theorem dirlookup_spec (s : Kernel) (dp : Fin NINODE) (name : List Char) :
    wp (dirlookup dp name) (fun r t => Makes s (r.elim s.view s.view.addRef) t) s := by
  unfold dirlookup
  rw [wp_bind, wp_get]
  split
  · rw [wp_pure]
    exact .refl s
  · rename_i e _
    rw [wp_bind]
    refine wp_mono (iget_spec s e.2) fun ip t h => ?_
    rw [wp_pure]
    exact h

/-- The loop of `namex` gives up its reference to `ip` for one to what it finds. -/
theorem namexLoop_spec (names : List (List Char)) (s : Kernel) (ip : Fin NINODE) :
    wp (namexLoop names ip) (fun r t => t.view.addRef ip = r.elim s.view s.view.addRef ∧
      KeepsInodes s (Pi.single ip 1) t) s := by
  induction names generalizing s ip with
  | nil =>
    unfold namexLoop
    rw [wp_pure]
    exact ⟨rfl, fun _ _ => rfl⟩
  | cons name names ih =>
    unfold namexLoop
    rw [wp_bind]
    refine wp_mono (ilock_spec s ip) fun _ t ⟨hl, href, h⟩ => ?_
    -- the lookup has failed
    have hfail : ∀ t', Makes s (s.view.setLock ip (some s.pid)) t' → wp (do
        iunlockput ip
        pure none) (fun r u => u.view.addRef ip = r.elim s.view s.view.addRef ∧
          KeepsInodes s (Pi.single ip 1) u) t' := by
      intro t' h'
      rw [wp_bind]
      refine wp_mono (iunlockput_spec t' ip) fun _ u ⟨hu, hk⟩ => ?_
      rw [wp_pure]
      rw [h'.view, View.setLock_setLock hl] at hu
      refine ⟨hu, fun k hpos => ?_⟩
      have hs : 0 < (s.icache k).ref := (Nat.zero_le _).trans_lt hpos
      rw [hk k (hs.trans_eq (h'.ref k).symm), h'.inodes k hs]
    rw [wp_bind, wp_get]
    split_ifs
    · exact hfail t h
    rw [wp_bind]
    refine wp_mono (dirlookup_spec t ip name) fun r u hu => ?_
    have hmake := h.trans hu fun _ hk => hk
    cases r with
    | none =>
      rw [Option.elim_none, h.view] at hmake
      exact hfail u hmake
    | some next =>
      rw [Option.elim_some, h.view] at hmake
      simp only
      rw [wp_bind]
      refine wp_mono (iunlockput_spec u ip) fun _ v ⟨hv, hkv⟩ => ?_
      have hnext : v.view.addRef ip = s.view.addRef next := by
        rw [hv, hmake.view]
        exact congrArg (·.addRef next) (View.setLock_setLock (w := s.view) hl (some s.pid))
      refine wp_mono (ih v next) fun r x ⟨hx, hkx⟩ => ⟨?_, fun k hpos => ?_⟩
      · -- the reference to `next` has been given up again
        apply View.addRef_cancel (j := next)
        rw [View.addRef_comm, hx]
        cases r with
        | none => exact hnext
        | some q => rw [Option.elim_some, Option.elim_some, View.addRef_comm, hnext, View.addRef_comm]
      · have hs : 0 < (s.icache k).ref := (Nat.zero_le _).trans_lt hpos
        have hcount : (v.icache k).ref + (Pi.single ip 1 : Fin NINODE → ℕ) k =
            (s.icache k).ref + (Pi.single next 1 : Fin NINODE → ℕ) k :=
          congrFun (congrArg View.ref hnext) k
        have hu0 : (u.icache k).ref = (s.icache k).ref + (Pi.single next 1 : Fin NINODE → ℕ) k :=
          hmake.ref k
        rw [hkx k (by omega), hkv k (by simp only [Pi.zero_apply]; omega), hmake.inodes k hs]

theorem namei_spec (path : List Char) (s : Kernel) :
    wp (namei path) (fun r t => Makes s (r.elim s.view s.view.addRef) t) s := by
  have hloop : ∀ ip t, Makes s (s.view.addRef ip) t →
      wp (namexLoop (elements path) ip) (fun r u => Makes s (r.elim s.view s.view.addRef) u) t := by
    intro ip t h
    refine wp_mono (namexLoop_spec (elements path) t ip) fun r u ⟨hu, hk⟩ => ⟨?_, fun k hpos => ?_⟩
    · apply View.addRef_cancel (j := ip)
      rw [hu, h.view]
      cases r with
      | none => rfl
      | some q => exact View.addRef_comm _ _ _
    · have hcount : (t.icache k).ref = (s.icache k).ref + (Pi.single ip 1 : Fin NINODE → ℕ) k :=
        h.ref k
      rw [Pi.zero_apply] at hpos
      rw [hk k (by omega), h.inodes k hpos]
  unfold namei
  rw [wp_bind, wp_get]
  split_ifs
  · rw [wp_bind]
    exact wp_mono (iget_spec s ROOTINO) hloop
  · rw [wp_bind]
    refine wp_mono (idup_spec s s.cwd) fun ip t ⟨hip, h⟩ => ?_
    exact hloop ip t (hip ▸ h)

/-! ### Files -/

theorem filealloc_spec (s : Kernel) :
    wp (filealloc : K (Option (Fin NFILE))) (fun r t =>
      t = r.elim s (fun f => s.setFile f { s.ftable f with ref := 1 }) ∧
        ∀ f ∈ r, (s.ftable f).ref = 0) s := by
  apply wp_filealloc
  · exact ⟨rfl, by simp⟩
  · intro f hfree
    refine ⟨rfl, ?_⟩
    rintro _ ⟨⟩
    exact hfree

theorem fdalloc_spec (s : Kernel) (f : Fin NFILE) :
    wp (fdalloc f) (fun r t => t = r.elim s (fun fd => s.setFd fd (some f)) ∧
      ∀ fd ∈ r, s.ofile fd = none) s := by
  unfold fdalloc
  rw [wp_bind, wp_get]
  split
  · rw [wp_pure]
    exact ⟨rfl, by simp⟩
  · rename_i fd hfd
    rw [wp_bind, wp_modify, wp_pure]
    refine ⟨rfl, ?_⟩
    simpa using findIndex_eq hfd

theorem readi_spec (E : Env) (j : Fin NINODE) (dst off n : Word) (s : Kernel) :
    wp (readi E j dst off n) (fun _ t => Makes s s.view t) s := by
  have hstore : ∀ bs : List Byte, wp (do
      modify (·.store dst bs)
      pure (bs.length : ℤ) : K ℤ) (fun _ t => Makes s s.view t) s := by
    intro bs
    rw [wp_bind, wp_modify, wp_pure]
    exact ⟨rfl, fun _ _ => rfl⟩
  have hfail : wp (pure (-1) : K ℤ) (fun _ t => Makes s s.view t) s := by
    rw [wp_pure]
    exact .refl s
  unfold readi
  rw [wp_bind, wp_get]
  simp only
  split_ifs
  · split
    · exact hfail
    · split
      · exact hfail
      · exact hstore _
  · exact hfail
  · exact hstore _

end Xv6Lab.Calls
