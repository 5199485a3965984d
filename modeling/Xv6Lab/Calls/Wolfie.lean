import Mathlib.Logic.Relation
import Xv6Lab.Calls.Traces

/-! `sys_wolfie` gives back what it takes: an operation of the log, a reference to an inode and
its lock, an entry of the file table and a descriptor. On its way out of a full descriptor
table it closes an entry whose type it has not set, which is right because a free entry has
none. -/

namespace Xv6Lab.Calls

open Disk Lib

variable {E : Env} {s t u : Kernel} {ip : Fin NINODE} {f : Fin NFILE} {fd : Fin NOFILE}

/-! ### The file table -/

/-- What the kernel does to the file table: the holder of a reference to an entry may set its
other fields, as `sys_open` and `pipealloc` do. -/
inductive FtableStep (t : Ftable) : Ftable → Prop
  | filealloc {f : Fin NFILE} (h : (t f).ref = 0) :
    FtableStep t (Function.update t f { t f with ref := 1 })
  | filedup {f : Fin NFILE} (h : 1 ≤ (t f).ref) :
    FtableStep t (Function.update t f { t f with ref := (t f).ref + 1 })
  | fileclose {f : Fin NFILE} (h : 1 < (t f).ref) :
    FtableStep t (Function.update t f { t f with ref := (t f).ref - 1 })
  | fileclose_last {f : Fin NFILE} (h : (t f).ref = 1) :
    FtableStep t (Function.update t f { t f with ref := 0, type := .FD_NONE })
  | set {f : Fin NFILE} (x : File) (h : 1 ≤ (t f).ref) (hx : x.ref = (t f).ref) :
    FtableStep t (Function.update t f x)

/-- The table at boot. -/
def Ftable.zero : Ftable := fun _ => ⟨.FD_NONE, 0, false, false, ⟨0, by decide⟩, 0#32⟩

/-- The kernel can get to the table. -/
def Ftable.Reachable (t : Ftable) : Prop := Relation.ReflTransGen FtableStep Ftable.zero t

/-- A free entry of the file table has no type. -/
def FtableOk (t : Ftable) : Prop := ∀ f, (t f).ref = 0 → (t f).type = .FD_NONE

theorem FtableOk.step {t u : Ftable} (h : FtableOk t) (hs : FtableStep t u) : FtableOk u := by
  have hupdate : ∀ (f : Fin NFILE) (x : File), (x.ref = 0 → x.type = .FD_NONE) →
      FtableOk (Function.update t f x) := by
    intro f x hx g hg
    by_cases hgf : g = f
    · subst hgf
      rw [Function.update_self] at hg ⊢
      exact hx hg
    · rw [Function.update_of_ne hgf] at hg ⊢
      exact h g hg
  cases hs with
  | filealloc h => exact hupdate _ _ fun h0 => by cases h0
  | filedup h => exact hupdate _ _ fun h0 => by cases h0
  | fileclose h => exact hupdate _ _ fun h0 => absurd h0 (Nat.sub_ne_zero_of_lt h)
  | fileclose_last h => exact hupdate _ _ fun _ => rfl
  | set x h hx => exact hupdate _ _ fun h0 => by omega

theorem Ftable.Reachable.ok {t : Ftable} (h : t.Reachable) : FtableOk t := by
  induction h with
  | refl => exact fun _ _ => rfl
  | tail _ hs ih => exact ih.step hs

/-- `filealloc` finds an entry without a type, and `fileclose` takes its reference back. -/
theorem fileclose_fresh (h : (s.ftable f).ref = 1) (ht : (s.ftable f).type = .FD_NONE) :
    wp (fileclose E f) (fun _ t => t = s.setFile f { s.ftable f with ref := 0 }) s := by
  unfold fileclose
  rw [wp_bind, wp_get]
  simp only [h, ht]
  rw [if_neg (by decide), if_neg (by decide), wp_bind, wp_modify, wp_pure]

/-- The last `fileclose` of an open inode drops its reference in an operation of its own. -/
theorem fileclose_last (h : (s.ftable f).ref = 1) (ht : (s.ftable f).type = .FD_INODE)
    (href : 1 ≤ (s.icache (s.ftable f).ip).ref) :
    wp (fileclose E f) (fun _ t => t.view.addRef (s.ftable f).ip = { s.view with
      ftable := Function.update s.ftable f { s.ftable f with ref := 0, type := .FD_NONE } } ∧
        KeepsInodes s 0 t) s := by
  unfold fileclose
  rw [wp_bind, wp_get]
  simp only [h, ht]
  rw [if_neg (by decide), if_neg (by decide), wp_bind, wp_modify, wp_bind]
  set s1 := s.setFile f { s.ftable f with ref := 0, type := .FD_NONE } with hs1
  refine wp_mono (begin_op_spec E s1) fun _ t1 h1 => ?_
  rw [wp_bind]
  have href1 : 1 ≤ (t1.icache (s.ftable f).ip).ref := href.trans_eq (h1.ref _).symm
  refine wp_mono (iput_spec t1 _ href1) fun _ t2 ⟨_, h2, hk2⟩ => ?_
  refine wp_mono (end_op_spec t2) fun _ t3 ⟨h3, hi3⟩ => ⟨?_, fun k hpos => ?_⟩
  · calc t3.view.addRef (s.ftable f).ip
        = (t2.view.addRef (s.ftable f).ip).addOps (-1) := by rw [h3]; rfl
      _ = s1.view := by
        rw [h2, h1.view]
        unfold View.addOps
        simp only [add_neg_cancel_right]
  · have hpos1 : 0 < (t1.icache k).ref := hpos.trans_eq (h1.ref k).symm
    rw [hi3, hk2 k hpos1]
    exact h1.inodes k hpos

/-- A view in which an entry of the file table is `x`. -/
def View.setFile (w : View) (f : Fin NFILE) (x : File) : View :=
  { w with ftable := Function.update w.ftable f x }

def View.setFd (w : View) (fd : Fin NOFILE) (x : Option (Fin NFILE)) : View :=
  { w with ofile := Function.update w.ofile fd x }

/-- `fileread` of an open inode moves the offset at most. -/
theorem fileread_spec {x : File} (hx : s.ftable f = x) (ht : x.type = .FD_INODE)
    (hr : x.readable = true) (addr n : Word) :
    wp (fileread E f addr n) (fun _ t =>
      ∃ off, Makes s (s.view.setFile f { x with off := off }) t) s := by
  -- what is left once the offset has been set
  have hunlock : ∀ (r : ℤ) (v : Kernel) (off : Word), (s.icache x.ip).lock = none →
      Makes s ((s.view.setFile f { x with off := off }).setLock x.ip (some s.pid)) v →
      wp (do
        iunlock x.ip
        pure r) (fun _ t => ∃ off, Makes s (s.view.setFile f { x with off := off }) t) v := by
    intro r v off hl hv
    rw [wp_bind]
    refine wp_mono (iunlock_spec v x.ip) fun _ y hy => ?_
    rw [wp_pure]
    have hmake := hv.trans hy.2 fun _ hk => hk
    rw [hv.view, View.setLock_setLock hl] at hmake
    exact ⟨off, hmake⟩
  generalize hQ : (fun (_ : ℤ) (t : Kernel) =>
    ∃ off, Makes s (s.view.setFile f { x with off := off }) t) = Q at hunlock ⊢
  unfold fileread
  rw [wp_bind, wp_get]
  simp only [hx, ht, hr]
  rw [if_neg (by decide), wp_bind]
  refine wp_mono (ilock_spec s x.ip) fun _ t hlock => ?_
  rw [wp_bind]
  refine wp_mono (readi_spec E x.ip addr x.off n t) fun r u hread => ?_
  have hu := hlock.2.2.trans hread fun _ hk => hk
  rw [hlock.2.2.view] at hu
  have hftable : u.ftable = s.ftable := congrArg View.ftable hu.view
  split_ifs
  · rw [wp_bind, wp_modify]
    apply hunlock r _ (x.off + BitVec.ofInt 32 r) hlock.1
    constructor
    · have hfile : u.ftable f = x := by rw [hftable, hx]
      rw [hfile]
      exact congrArg (·.setFile f { x with off := x.off + BitVec.ofInt 32 r }) hu.view
    · exact hu.inodes
  · apply hunlock r u x.off hlock.1
    have hself : s.view.setFile f { x with off := x.off } = s.view := by
      unfold View.setFile
      rw [← hx]
      exact congrArg (fun w => { s.view with ftable := w }) (Function.update_eq_self f s.ftable)
    rwa [hself]

/-! ### The system call -/

/-- `t` has the descriptors, the references to files and inodes, the locks and the operations
of the log that `s` has. -/
structure NoTrace (s t : Kernel) : Prop where
  ofile : t.ofile = s.ofile
  file (f : Fin NFILE) : (t.ftable f).ref = (s.ftable f).ref
  inode (j : Fin NINODE) : (t.icache j).ref = (s.icache j).ref
  lock (j : Fin NINODE) : (t.icache j).lock = (s.icache j).lock
  inodes : KeepsInodes s 0 t
  outstanding : t.log.outstanding = s.log.outstanding

/-- The arguments of `sys_wolfie` do not name a buffer in which the picture fits. -/
def Refused (u : Caller) : Prop :=
  ∀ n ∈ u.argint 1#32, ∀ buf ∈ u.argptr 0#32 n, n.toInt < 7461

theorem NoTrace.of_makes {x : File} (h : Makes s (s.view.setFile f x) t)
    (hx : x.ref = (s.ftable f).ref) : NoTrace s t where
  ofile := congrArg View.ofile h.view
  file g := by
    have hg : t.ftable g = Function.update s.ftable f x g :=
      congrFun (congrArg View.ftable h.view) g
    rw [hg]
    by_cases hgf : g = f
    · subst hgf
      rw [Function.update_self, hx]
    · rw [Function.update_of_ne hgf]
  inode j := h.ref j
  lock j := congrFun (congrArg View.lock h.view) j
  inodes := h.inodes
  outstanding := congrArg View.outstanding h.view

theorem NoTrace.of_view (h : Makes s s.view t) : NoTrace s t := by
  apply NoTrace.of_makes (f := ⟨0, by decide⟩) (x := s.ftable ⟨0, by decide⟩)
  · unfold View.setFile
    have hself := Function.update_eq_self (⟨0, by decide⟩ : Fin NFILE) s.ftable
    exact (congrArg (fun w => Makes s { s.view with ftable := w } t) hself).mpr h
  · rfl

/-- The operation of the log is over. -/
theorem end_op_closes {w : View} (h : Makes s (w.addOps 1) t) :
    wp end_op (fun _ u => Makes s w u) t := by
  refine wp_mono (end_op_spec t) fun _ u hu => ⟨?_, ?_⟩
  · rw [hu.1, h.view]
    unfold View.addOps
    simp only [add_neg_cancel_right]
  · intro k hk
    rw [hu.2, h.inodes k hk]

/-- The way out with the inode locked. -/
theorem iunlockput_closes {w : View} (hl : w.lock ip = none) {pid : ℕ}
    (hle : ∀ k, (s.icache k).ref ≤ w.ref k)
    (h : Makes s (((w.addOps 1).addRef ip).setLock ip (some pid)) t) :
    wp (iunlockput ip) (fun _ u => wp end_op (fun _ v => Makes s w v) u) t := by
  refine wp_mono (iunlockput_spec t ip) fun _ u hu => ?_
  apply end_op_closes
  rw [h.view, View.setLock_setLock (w := (w.addOps 1).addRef ip) hl] at hu
  constructor
  · exact View.addRef_cancel hu.1
  · intro k hk
    have hpos : 0 < (t.icache k).ref := by
      rw [h.ref k]
      exact hk.trans_le ((hle k).trans (Nat.le_add_right _ _))
    rw [hu.2 k hpos, h.inodes k hk]

/-- The way on with a descriptor. -/
theorem iunlock_closes {w : View} (hl : w.lock ip = none) {pid : ℕ}
    (hle : ∀ k, s.view.ref k ≠ 0 → w.ref k ≠ 0)
    (h : Makes s ((w.addOps 1).setLock ip (some pid)) t) :
    wp (iunlock ip) (fun _ u => wp end_op (fun _ v => Makes s w v) u) t := by
  refine wp_mono (iunlock_spec t ip) fun _ u hu => ?_
  apply end_op_closes
  have hmake := h.trans hu.2 hle
  rwa [h.view, View.setLock_setLock (w := w.addOps 1) hl] at hmake

/-- A file that has just been allocated is closed again. -/
theorem fileclose_filealloc (h : FtableOk s.ftable) (hfree : (s.ftable f).ref = 0) :
    wp (fileclose E f) (fun _ t => t = s) (s.setFile f { s.ftable f with ref := 1 }) := by
  set u := s.setFile f { s.ftable f with ref := 1 } with hu
  have hentry : u.ftable f = { s.ftable f with ref := 1 } := by
    rw [hu]
    exact Function.update_self ..
  have hone : (u.ftable f).ref = 1 := by rw [hentry]
  have hnone : (u.ftable f).type = .FD_NONE := by
    rw [hentry]
    exact h f hfree
  refine wp_mono (fileclose_fresh hone hnone) fun _ t ht => ?_
  have hself : Function.update s.ftable f { s.ftable f with ref := 0 } = s.ftable := by
    rw [← hfree]
    exact Function.update_eq_self f s.ftable
  rw [ht, hentry, hu]
  unfold Kernel.setFile
  simp only [Function.update_idem]
  rw [hself]

/-- `sys_wolfie` once it has its descriptor and the inode is unlocked. -/
theorem read_closes (hfree : (s.ftable f).ref = 0) (hfd : s.ofile fd = none) (buf n : Word)
    (h : Makes s (((s.view.addRef ip).setFile f { s.ftable f with ref := 1 }).setFd fd (some f)) t) :
    wp (do
      modify fun s => s.setFile f { s.ftable f with
        type := .FD_INODE, ip := ip, off := 0#32, readable := true, writable := false }
      let bytesRead ← fileread E f buf n
      modify (·.setFd fd none)
      fileclose E f
      pure bytesRead) (fun _ u => NoTrace s u) t := by
  rw [wp_bind, wp_modify, wp_bind]
  set x : File := { s.ftable f with
    ref := 1, type := .FD_INODE, ip := ip, off := 0#32, readable := true, writable := false } with hx
  have hfile : t.ftable f = { s.ftable f with ref := 1 } := by
    have htable : t.ftable = Function.update s.ftable f { s.ftable f with ref := 1 } :=
      congrArg View.ftable h.view
    rw [htable, Function.update_self]
  rw [hfile]
  set v := t.setFile f x with hv
  have hopen : Makes s (((s.view.addRef ip).setFile f x).setFd fd (some f)) v := by
    constructor
    · have hview : v.view = t.view.setFile f x := rfl
      rw [hview, h.view]
      unfold View.setFile View.setFd
      simp only [Function.update_idem]
    · exact h.inodes
  have hxv : v.ftable f = x := by
    unfold v Kernel.setFile
    exact Function.update_self ..
  refine wp_mono (fileread_spec hxv rfl rfl buf n) fun r u ⟨off, hu⟩ => ?_
  rw [wp_bind, wp_modify, wp_bind]
  set x' : File := { x with off := off }
  set y := u.setFd fd none with hy
  have hread : Makes s ((s.view.addRef ip).setFile f x') y := by
    have hmake := hopen.trans hu fun _ hk => View.ref_addRef_ne_zero hk
    rw [hopen.view] at hmake
    constructor
    · have hview : y.view = u.view.setFd fd none := rfl
      rw [hview, hmake.view]
      unfold View.setFile View.setFd View.addRef
      simp only [Function.update_idem]
      have hself : Function.update s.view.ofile fd none = s.view.ofile := by
        rw [← hfd]
        exact Function.update_eq_self fd s.ofile
      rw [hself]
    · exact hmake.inodes
  have hxy : y.ftable f = x' := by
    have htable : y.ftable = Function.update s.ftable f x' := congrArg View.ftable hread.view
    rw [htable, Function.update_self]
  have href : 1 ≤ (y.icache (y.ftable f).ip).ref := by
    rw [hxy, hread.ref ip]
    unfold View.setFile View.addRef
    simp only [Pi.add_apply, Pi.single_eq_same]
    exact Nat.le_add_left 1 _
  have hclose := fileclose_last (E := E) (congrArg File.ref hxy) (congrArg File.type hxy) href
  refine wp_mono hclose fun _ z hz => ?_
  rw [wp_pure]
  rw [hxy] at hz
  apply NoTrace.of_makes (f := f) (x := { x' with ref := 0, type := .FD_NONE })
  · constructor
    · apply View.addRef_cancel (j := ip)
      have hftable : y.ftable = Function.update s.ftable f x' := congrArg View.ftable hread.view
      rw [hz.1, hftable, Function.update_idem, hread.view]
      rfl
    · intro k hk
      have hpos : 0 < (y.icache k).ref := by
        rw [hread.ref k]
        exact hk.trans_le (Nat.le_add_right _ _)
      rw [hz.2 k hpos, hread.inodes k hk]
  · exact hfree.symm

/-- `sys_wolfie` once it has found the file and locked its inode. -/
theorem locked_closes {pid : ℕ} (hok : FtableOk s.ftable) (hl : s.view.lock ip = none)
    (h : Makes s (((s.view.addOps 1).addRef ip).setLock ip (some pid)) t) (buf n : Word) :
    wp (do
      match ← filealloc with
      | none => do
        iunlockput ip
        end_op
        pure (-1)
      | some f =>
        match ← fdalloc f with
        | none => do
          fileclose E f
          iunlockput ip
          end_op
          pure (-1)
        | some fd => do
          iunlock ip
          end_op
          modify fun s => s.setFile f { s.ftable f with
            type := .FD_INODE, ip := ip, off := 0#32, readable := true, writable := false }
          let bytesRead ← fileread E f buf n
          modify (·.setFd fd none)
          fileclose E f
          pure bytesRead) (fun _ u => NoTrace s u) t := by
  have hback : wp (do
      iunlockput ip
      end_op
      pure (-1) : K ℤ) (fun _ t => NoTrace s t) t := by
    rw [wp_bind]
    refine wp_mono (iunlockput_closes hl (fun _ => le_rfl) h) fun _ u hu => ?_
    rw [wp_bind]
    refine wp_mono hu fun _ v hv => ?_
    rw [wp_pure]
    exact .of_view hv
  have hftable : t.ftable = s.ftable := congrArg View.ftable h.view
  rw [wp_bind]
  refine wp_mono (filealloc_spec t) fun f u hu => ?_
  cases f with
  | none =>
    rw [Option.elim_none] at hu
    rw [hu.1]
    exact hback
  | some f =>
    have hfree : (t.ftable f).ref = 0 := hu.2 f rfl
    rw [Option.elim_some] at hu
    simp only
    rw [wp_bind, hu.1]
    refine wp_mono (fdalloc_spec _ f) fun fd v hv => ?_
    cases fd with
    | none =>
      rw [Option.elim_none] at hv
      simp only
      rw [hv.1, wp_bind]
      refine wp_mono (fileclose_filealloc (hftable ▸ hok) hfree) fun _ x hx => ?_
      rw [hx]
      exact hback
    | some fd =>
      have hfd : s.ofile fd = none := by
        have hofile : t.ofile = s.ofile := congrArg View.ofile h.view
        rw [← hofile]
        exact hv.2 fd rfl
      rw [hftable] at hfree
      rw [Option.elim_some, hftable] at hv
      have hopen : Makes s (((((s.view.addRef ip).setFile f { s.ftable f with ref := 1 }).setFd fd
          (some f)).addOps 1).setLock ip (some pid)) v := by
        rw [hv.1]
        constructor
        · have hview := congrArg
            (fun w => (w.setFile f { s.ftable f with ref := 1 }).setFd fd (some f)) h.view
          exact hview
        · exact h.inodes
      simp only
      rw [wp_bind]
      have hkeep : ∀ k, s.view.ref k ≠ 0 → (s.view.addRef ip).ref k ≠ 0 :=
        fun _ hk => View.ref_addRef_ne_zero hk
      refine wp_mono (iunlock_closes (w := ((s.view.addRef ip).setFile f
        { s.ftable f with ref := 1 }).setFd fd (some f)) hl hkeep hopen) fun _ x hx => ?_
      rw [wp_bind]
      refine wp_mono hx fun _ y hy => ?_
      exact read_closes hfree hfd buf n hy

/-- Every exit of `sys_wolfie` gives back what has been taken. -/
theorem sysWolfie_leaves_no_trace {r : ℤ} (h : s.ftable.Reachable)
    (hr : sysWolfie E s = .ok (r, t)) :
    NoTrace s t ∧ (Refused s.caller → r = -1 ∧ t.caller.mem = s.caller.mem) := by
  suffices hwp : wp (sysWolfie E) (fun r t =>
      NoTrace s t ∧ (Refused s.caller → r = -1 ∧ t.caller.mem = s.caller.mem)) s from hwp r t hr
  have hrefuse : wp (pure (-1) : K ℤ) (fun r t =>
      NoTrace s t ∧ (Refused s.caller → r = -1 ∧ t.caller.mem = s.caller.mem)) s := by
    rw [wp_pure]
    exact ⟨.of_view (.refl s), fun _ => ⟨rfl, rfl⟩⟩
  unfold sysWolfie
  rw [wp_bind, wp_get]
  split
  · exact hrefuse
  rename_i n hn
  split
  · exact hrefuse
  rename_i buf hbuf
  split_ifs with hsize
  · exact hrefuse
  have haccepted : ¬ Refused s.caller := fun href => hsize (href n hn buf hbuf)
  simp only [haccepted, false_implies, and_true]
  rw [wp_bind]
  refine wp_mono (begin_op_spec E s) fun _ s1 h1 => ?_
  rw [wp_bind]
  refine wp_mono (namei_spec _ s1) fun ip s2 hnamei => ?_
  have h2 := h1.trans hnamei fun _ hk => hk
  rw [h1.view] at h2
  cases ip with
  | none =>
    -- the file is missing
    rw [wp_bind]
    refine wp_mono (end_op_closes h2) fun _ t ht => ?_
    rw [wp_pure]
    exact .of_view ht
  | some ip =>
    simp only
    rw [wp_bind]
    refine wp_mono (ilock_spec s2 ip) fun _ s3 hlocked => ?_
    have hl : s.view.lock ip = none :=
      (congrFun (congrArg View.lock h2.view) ip).symm.trans hlocked.1
    have h3 := h2.trans hlocked.2.2 fun _ hk => View.ref_addRef_ne_zero hk
    rw [h2.view, Option.elim_some] at h3
    exact locked_closes h.ok hl h3 buf n

/-- An empty log, no devices and no pipes. -/
def Env.plain : Env where
  logFull s := decide (30 < (s.log.outstanding + 1) * 10)
  devread _ := none
  pipeclose _ := pure ()
  piperead _ _ _ := pure (-1)

/-- A process that asks for the picture in a root directory that has a short one. -/
def Kernel.gallery : Kernel where
  caller := ⟨8000#32, 0#32, fun a =>
    if a = 4#32 then 12#8 else if a = 8#32 then 0x25#8 else if a = 9#32 then 0x1d#8 else 0#8⟩
  pid := 3
  cwd := ⟨0, by decide⟩
  ofile _ := none
  ftable := Ftable.zero
  icache j := if j.val = 0 then ⟨ROOTINO, 1, true, none⟩ else ⟨0, 0, false, none⟩
  inode i := if i = ROOTINO then ⟨.T_DIR, 1, 0, []⟩ else ⟨.T_FILE, 1, 0, [0x23#8, 0x2e#8]⟩
  entries _ := [("wolfie_ascii.t".toList, 2)]
  log := ⟨0, false⟩

theorem sysWolfie_leaves_no_trace_gallery :
    ∃ t, sysWolfie .plain .gallery = .ok (2, t) ∧ NoTrace .gallery t := by
  have hrun : (sysWolfie .plain .gallery).toOption.map Prod.fst = some 2 := by decide +kernel
  obtain ⟨⟨n, t⟩, hr, h2⟩ := Option.map_eq_some_iff.mp hrun
  have hok := Lib.ok_of_toOption hr
  dsimp only at h2
  subst h2
  exact ⟨t, hok, (sysWolfie_leaves_no_trace (s := .gallery) Relation.ReflTransGen.refl hok).1⟩

end Xv6Lab.Calls
