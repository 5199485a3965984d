import Xv6Lab.Files.Trunc
import Xv6Lab.Lib.Trace

/-! Runs of operations on inodes: what a read returns is what the writes before it have left on
plain sequences of bytes, and the bitmap says which blocks the files have. -/

namespace Xv6Lab.Files

open Disk Lib

variable {R : Set ℕ} {s t : Fs} {ip b i m : ℕ} {j : Fin NINODE}

inductive Op
  /-- `ialloc` of a file or a directory. -/
  | alloc (dir : Bool)
  | get (inum : ℕ)
  | dup (j : Fin NINODE)
  | put (j : Fin NINODE)
  /-- `ip->nlink = n; iupdate(ip)`. -/
  | links (j : Fin NINODE) (n : ℕ)
  | read (j : Fin NINODE) (off n : ℕ)
  | write (j : Fin NINODE) (bytes : List Byte) (off : ℕ)

inductive Out
  | inode (j : Fin NINODE)
  | done
  | bytes (r : Option (List Byte))
  | count (r : Option ℕ)

/-- An operation on a locked inode. -/
def locked (j : Fin NINODE) (f : ℕ → F Out) : F Out := do
  ilock j
  let s ← get
  f (s.icache j).inum

def exec : Op → F Out
  | .alloc dir => do
    let j ← ialloc (if dir then .T_DIR else .T_FILE)
    pure (.inode j)
  | .get inum => do
    let j ← iget inum
    pure (.inode j)
  | .dup j => do
    let j ← idup j
    pure (.inode j)
  | .put j => do
    iput j
    pure .done
  | .links j n => locked j fun ip => do
    modify fun s => s.setInode ip { s.inode ip with nlink := n }
    pure .done
  | .read j off n => locked j fun ip => do
    let r ← readi ip off n
    pure (.bytes r)
  | .write j bytes off => locked j fun ip => do
    let r ← writei ip (fun k => bytes.getD k 0) off bytes.length
    pure (.count r)

/-- A reference is copied or dropped by somebody who has it. -/
def Held (s : Fs) : Op → Prop
  | .dup j | .put j => 0 < (s.icache j).ref
  | _ => True

instance (s : Fs) (op : Op) : Decidable (Held s op) :=
  match op with
  | .dup _ | .put _ => inferInstanceAs (Decidable (_ < _))
  | .alloc _ | .get _ | .links _ _ | .read _ _ _ | .write _ _ _ => inferInstanceAs (Decidable True)

abbrev Step (s : Fs) (a : Op × Out) (t : Fs) : Prop := Held s a.1 ∧ exec a.1 s = .ok (a.2, t)

/-- `iput` frees the inode. -/
def Fs.Frees (s : Fs) (j : Fin NINODE) : Prop :=
  (s.icache j).valid = true ∧ (s.inode (s.icache j).inum).nlink = 0 ∧ (s.icache j).ref = 1

instance (s : Fs) (j : Fin NINODE) : Decidable (s.Frees j) := inferInstanceAs (Decidable (_ ∧ _ ∧ _))

/-- What an operation does to the contents of all files. -/
def effect (x : Fs × Op) (c : ℕ → List Byte) : ℕ → List Byte :=
  match x.2 with
  | .write j bytes off =>
    let ip := (x.1.icache j).inum
    Function.update c ip (listWritei (c ip) bytes off).2
  | .put j => if x.1.Frees j then Function.update c (x.1.icache j).inum [] else c
  | _ => c

/-- What a read or a write returns. -/
def answer (x : Fs × Op) (c : ℕ → List Byte) : Option Out :=
  match x.2 with
  | .read j off n => some (.bytes (listReadi (c (x.1.icache j).inum) off n))
  | .write j bytes off => some (.count (listWritei (c (x.1.icache j).inum) bytes off).1)
  | _ => none

/-- The contents after the operations of a run. -/
def replay (l : List (Fs × (Op × Out))) (c : ℕ → List Byte) : ℕ → List Byte :=
  l.foldl (fun c x => effect (x.1, x.2.1) c) c

/-- Operations carried out one after the other, up to a panic or a reference that nobody has. -/
def perform (s : Fs) : List Op → List (Fs × (Op × Out)) × Fs
  | [] => ([], s)
  | op :: ops =>
    if Held s op then
      match exec op s with
      | .ok (out, t) => ((s, (op, out)) :: (perform t ops).1, (perform t ops).2)
      | .error _ => ([], s)
    else ([], s)

/-- A disk of 200 blocks without files; the first 60 are not for them. -/
def fresh : Fs where
  size := 200
  ninodes := 20
  bit b := b < 60
  block _ _ := 0#8
  inode _ := ⟨.free, 0, 0, fun _ => 0⟩
  entries _ := []
  icache _ := ⟨0, 0, false⟩
  ftable _ := ⟨.FD_NONE, 0, 0, 0, ⟨0, NINODE_pos⟩, 0⟩
  cwd := ⟨0, NINODE_pos⟩

/-! ### One operation -/

/-- Nothing but the cache, types and link counts changes. -/
structure Restats (s t : Fs) : Prop where
  bit : t.bit = s.bit
  block : t.block = s.block
  size : t.size = s.size
  inode : ∀ i, (t.inode i).addrs = (s.inode i).addrs ∧ (t.inode i).size = (s.inode i).size

theorem Restats.ptr (h : Restats s t) (i m : ℕ) : t.ptr i m = s.ptr i m := by
  have haddr : t.addr i = s.addr i := (h.inode i).1
  exact ptr_congr haddr (fun _ => by rw [h.block]) m

theorem Restats.bytes (h : Restats s t) (i : ℕ) : t.bytes i = s.bytes i := by
  unfold Fs.bytes Fs.byteAt
  simp only [h.ptr, h.block, (h.inode i).2]

theorem Restats.good (h : Restats s t) (hs : Good R s) (hplain : ∀ i, (t.inode i).type ≠ .T_DEV)
    (hfree : ∀ i, (t.inode i).type = .free → (s.inode i).size = 0 ∧ ∀ m < PTRS, s.ptr i m = 0) :
    Good R t where
  owned := hs.owned.congr h.bit h.size h.ptr
  covered i k hk := by
    rw [(h.inode i).2] at hk
    rw [h.ptr]
    exact hs.covered i k hk
  small i := by
    rw [(h.inode i).2]
    exact hs.small i
  plain := hplain
  free i hi := by
    rw [(h.inode i).2]
    simp only [h.ptr]
    exact hfree i hi

/-- What every operation gives. -/
structure Done (R : Set ℕ) (s : Fs) (op : Op) (out : Out) (t : Fs) : Prop where
  good : Good R t
  bytes : t.bytes = effect (s, op) s.bytes
  answer : ∀ o ∈ answer (s, op) s.bytes, out = o
  reserved : ∀ b ∈ R, t.block b = s.block b

/-- An operation that leaves all contents alone and returns no data. -/
theorem Restats.done {op : Op} {out : Out} (h : Restats s t) (hs : Good R s)
    (hplain : ∀ i, (t.inode i).type ≠ .T_DEV)
    (hfree : ∀ i, (t.inode i).type = .free → (s.inode i).size = 0 ∧ ∀ m < PTRS, s.ptr i m = 0)
    (heffect : effect (s, op) s.bytes = s.bytes) (hanswer : Files.answer (s, op) s.bytes = none) :
    Done R s op out t where
  good := h.good hs hplain hfree
  bytes := by
    rw [heffect]
    exact funext h.bytes
  answer o ho := by
    rw [hanswer] at ho
    cases ho
  reserved b _ := by rw [h.block]

/-- Only the cache of inodes changes. -/
theorem done_icache {op : Op} {out : Out} (hs : Good R s) (hblock : t.block = s.block)
    (hbit : t.bit = s.bit) (hsize : t.size = s.size) (hinode : t.inode = s.inode)
    (heffect : effect (s, op) s.bytes = s.bytes) (hanswer : Files.answer (s, op) s.bytes = none) :
    Done R s op out t := by
  refine Restats.done ⟨hbit, hblock, hsize, fun i => ?_⟩ hs (fun i => ?_) (fun i => ?_) heffect
    hanswer <;> rw [hinode]
  · exact ⟨rfl, rfl⟩
  · exact hs.plain i
  · exact hs.free i

theorem iget_inode (inum : ℕ) (s : Fs) : wp (iget inum) (fun _ t =>
    t.block = s.block ∧ t.bit = s.bit ∧ t.size = s.size ∧ t.inode = s.inode) s := by
  apply wp_iget
  · exact fun _ _ _ => ⟨rfl, rfl, rfl, rfl⟩
  · exact fun _ _ _ => ⟨rfl, rfl, rfl, rfl⟩

/-- The entries of the inode cache that are in use are of different inodes, and the valid ones of
inodes in use. -/
structure Cached (s : Fs) : Prop where
  apart : ∀ i j, 0 < (s.icache i).ref → 0 < (s.icache j).ref →
    (s.icache i).inum = (s.icache j).inum → i = j
  live : ∀ j, 0 < (s.icache j).ref → (s.icache j).valid = true →
    (s.inode (s.icache j).inum).type ≠ .free

theorem wp_locked {Q : Out → Fs → Prop} {f : ℕ → F Out} (hc : Cached s)
    (h : 0 < (s.icache j).ref → (s.inode (s.icache j).inum).type ≠ .free →
      wp (f (s.icache j).inum) Q (s.setValid j true)) : wp (locked j f) Q s := by
  unfold locked
  rw [wp_bind]
  apply wp_ilock
  intro ⟨hr, hl⟩
  rw [wp_bind, wp_get, Fs.setValid_inum]
  exact h hr (hl.elim (hc.live j hr) id)

theorem freeInode_type {n a : ℕ} (h : freeInode s n a = some ip) : (s.inode ip).type = .free := by
  induction n generalizing a with
  | zero => cases h
  | succ n ih =>
    unfold freeInode at h
    by_cases ha : (s.inode a).type = .free
    · rw [if_pos ha] at h
      cases h
      exact ha
    · rw [if_neg ha] at h
      exact ih h

theorem ialloc_done (hs : Good R s) {type : InodeType} (htype : type ≠ .T_DEV)
    (hlive : type ≠ .free) (dir : Bool) (out : Fin NINODE → Out) :
    wp (ialloc type) (fun j t => Done R s (.alloc dir) (out j) t) s := by
  unfold ialloc
  rw [wp_bind, wp_get]
  cases hf : freeInode s (s.ninodes - 1) 1 with
  | none =>
    rw [wp_throw]
    trivial
  | some inum =>
    simp only [wp_bind, wp_modify]
    obtain ⟨hsize, hptr⟩ := hs.free inum (freeInode_type hf)
    refine wp_mono (iget_inode inum _) ?_
    rintro j t ⟨hblock, hbit, hsz, hinode⟩
    -- a free inode is empty already
    have haddrs : (s.inode inum).addrs = fun _ => 0 := by
      funext k
      have hk := hptr k.val (k.isLt.trans (by decide))
      rwa [ptr_direct s inum k.isLt] at hk
    have hinode' : ∀ i, i ≠ inum → t.inode i = s.inode i := by
      intro i hi
      rw [hinode]
      exact Function.update_of_ne hi ..
    have hself : t.inode inum = ⟨type, 0, 0, fun _ => 0⟩ := by
      rw [hinode]
      exact Function.update_self ..
    refine Restats.done ⟨hbit, hblock, hsz, fun i => ?_⟩ hs (fun i => ?_) (fun i hi => ?_) rfl rfl <;>
      by_cases hne : i = inum
    · rw [hne, hself, haddrs, hsize]
      exact ⟨rfl, rfl⟩
    · rw [hinode' i hne]
      exact ⟨rfl, rfl⟩
    · rw [hne, hself]
      exact htype
    · rw [hinode' i hne]
      exact hs.plain i
    · rw [hne, hself] at hi
      exact absurd hi hlive
    · rw [hinode' i hne] at hi
      exact hs.free i hi

/-- Inode `ip` gets a type and a link count. -/
theorem setInode_restats {x : Inode} (haddrs : x.addrs = (s.inode ip).addrs)
    (hsize : x.size = (s.inode ip).size) : Restats s (s.setInode ip x) := by
  refine ⟨rfl, rfl, rfl, fun i => ?_⟩
  change (Function.update s.inode ip x i).addrs = _ ∧ (Function.update s.inode ip x i).size = _
  by_cases hi : i = ip
  · rw [hi, Function.update_self]
    exact ⟨haddrs, hsize⟩
  · rw [Function.update_of_ne hi]
    exact ⟨rfl, rfl⟩

/-- Inode `ip` is freed with its blocks. -/
def Fs.freed (s : Fs) (ip : ℕ) : Fs :=
  (s.emptied ip).setInode ip { (s.emptied ip).inode ip with type := .free }

def Fs.dropRef (s : Fs) (j : Fin NINODE) : Fs :=
  s.setCached j { s.icache j with ref := (s.icache j).ref - 1 }

/-- The file system after the `iput` of a reference. -/
def Fs.putInode (s : Fs) (j : Fin NINODE) : Fs :=
  (if s.Frees j then (s.freed (s.icache j).inum).setValid j false else s).dropRef j

theorem iput_eq (ho : Owned R s) (j : Fin NINODE) : iput j s = .ok ((), s.putInode j) := by
  unfold iput Fs.putInode
  simp only [bind_apply, get_apply]
  by_cases hf : s.Frees j
  · have hc : (s.icache j).valid = true ∧ (s.inode (s.icache j).inum).nlink = 0 ∧
      (s.icache j).ref = 1 := hf
    rw [if_pos hc, if_pos hf]
    simp only [bind_apply, itrunc_eq ho, modify_apply]
    rfl
  · have hc : ¬ ((s.icache j).valid = true ∧ (s.inode (s.icache j).inum).nlink = 0 ∧
      (s.icache j).ref = 1) := hf
    rw [if_neg hc, if_neg hf]
    simp only [modify_apply]
    rfl

theorem putInode_done (hs : Good R s) (j : Fin NINODE) :
    Done R s (.put j) .done (s.putInode j) := by
  unfold Fs.putInode
  by_cases hf : s.Frees j
  · have hrew := emptied_rewrites hs (s.icache j).inum
    obtain ⟨ip, hip⟩ : ∃ ip, ip = (s.icache j).inum := ⟨_, rfl⟩
    rw [if_pos hf, ← hip]
    rw [← hip] at hrew
    have hset : Restats (s.emptied ip) (s.freed ip) := setInode_restats rfl rfl
    have hstat : Restats (s.emptied ip) (((s.freed ip).setValid j false).dropRef j) :=
      ⟨rfl, rfl, rfl, hset.inode⟩
    have htype : ∀ i, i ≠ ip →
        (((s.freed ip).setValid j false).dropRef j).inode i = (s.emptied ip).inode i :=
      fun i hi => Function.update_of_ne hi ..
    have hself : ((((s.freed ip).setValid j false).dropRef j).inode ip).type = .free := by
      change (Function.update (s.emptied ip).inode ip _ ip).type = _
      rw [Function.update_self]
    refine ⟨hstat.good hrew.good (fun i => ?_) (fun i hi => ?_), ?_, fun _ ho => ?_,
      fun _ _ => rfl⟩
    · by_cases hne : i = ip
      · rw [hne, hself]
        simp
      · rw [htype i hne]
        exact hrew.good.plain i
    · by_cases hne : i = ip
      · rw [hne, emptied_inode_self]
        exact ⟨rfl, fun m _ => emptied_ptr_self s ip m⟩
      · rw [htype i hne] at hi
        exact hrew.good.free i hi
    · change _ = if s.Frees j then Function.update s.bytes (s.icache j).inum [] else s.bytes
      rw [if_pos hf, ← hip]
      funext i
      rw [hstat.bytes]
      by_cases hi : i = ip
      · rw [hi, Function.update_self]
        exact hrew.self
      · rw [Function.update_of_ne hi]
        exact hrew.others i hi
    · cases ho
  · rw [if_neg hf]
    refine done_icache hs rfl rfl rfl rfl ?_ rfl
    exact if_neg hf

theorem setValid_good (hs : Good R s) (j : Fin NINODE) : Good R (s.setValid j true) := by
  have h : Restats s (s.setValid j true) := ⟨rfl, rfl, rfl, fun _ => ⟨rfl, rfl⟩⟩
  exact h.good hs hs.plain hs.free

/-- A locked inode is read. -/
theorem read_done (hs : Good R s) (j : Fin NINODE) (off n : ℕ) :
    Done R s (.read j off n) (.bytes (listReadi (s.bytes (s.icache j).inum) off n))
      (s.setValid j true) where
  good := setValid_good hs j
  bytes := rfl
  answer _ ho := Option.some.inj ho
  reserved _ _ := rfl

theorem write_done {r : Option ℕ} {bytes : List Byte} {off : ℕ}
    (hr : r = (listWritei (s.bytes (s.icache j).inum) bytes off).1)
    (h : Rewrites R (s.icache j).inum (listWritei (s.bytes (s.icache j).inum) bytes off).2
      (s.setValid j true) t) :
    Done R s (.write j bytes off) (.count r) t where
  good := h.good
  bytes := by
    funext i
    change _ = Function.update s.bytes (s.icache j).inum _ i
    by_cases hi : i = (s.icache j).inum
    · rw [hi, Function.update_self]
      exact h.self
    · rw [Function.update_of_ne hi]
      exact h.others i hi
  answer o ho := by
    rw [hr]
    exact Option.some.inj ho
  reserved := h.reserved

theorem exec_done (hs : Good R s) (hc : Cached s) (op : Op) :
    wp (exec op) (fun out t => Done R s op out t) s := by
  cases op with
  | alloc dir =>
    unfold exec
    simp only [wp_bind, wp_pure]
    cases dir with
    | true =>
      exact ialloc_done hs (by decide : InodeType.T_DIR ≠ .T_DEV) (by decide) true .inode
    | false =>
      exact ialloc_done hs (by decide : InodeType.T_FILE ≠ .T_DEV) (by decide) false .inode
  | get inum =>
    unfold exec
    rw [wp_bind]
    refine wp_mono (iget_inode inum s) ?_
    rintro j t ⟨hblock, hbit, hsize, hinode⟩
    rw [wp_pure]
    exact done_icache hs hblock hbit hsize hinode rfl rfl
  | dup j =>
    unfold exec idup
    simp only [wp_bind, wp_modify, wp_pure]
    exact done_icache hs rfl rfl rfl rfl rfl rfl
  | put j =>
    unfold exec
    rw [wp_bind]
    refine wp_of_eq (iput_eq hs.owned j) ?_
    rw [wp_pure]
    exact putInode_done hs j
  | links j n =>
    unfold exec
    refine wp_locked hc fun _ hlive => ?_
    simp only [wp_bind, wp_modify, wp_pure]
    have htype : ∀ i, (((s.setValid j true).setInode (s.icache j).inum
        { s.inode (s.icache j).inum with nlink := n }).inode i).type = (s.inode i).type := by
      intro i
      change (Function.update s.inode (s.icache j).inum _ i).type = _
      by_cases hi : i = (s.icache j).inum
      · rw [hi, Function.update_self]
      · rw [Function.update_of_ne hi]
    have hstat : Restats s (s.setInode (s.icache j).inum
        { s.inode (s.icache j).inum with nlink := n }) := setInode_restats rfl rfl
    refine Restats.done ⟨rfl, rfl, rfl, hstat.inode⟩ hs (fun i => ?_) (fun i hi => ?_) rfl rfl
    · exact (htype i).trans_ne (hs.plain i)
    · exact hs.free i ((htype i).symm.trans hi)
  | read j off n =>
    unfold exec
    refine wp_locked hc fun _ _ => ?_
    rw [wp_bind]
    refine wp_of_eq (readi_eq (setValid_good hs j) _ off n) ?_
    rw [wp_pure]
    exact read_done hs j off n
  | write j bytes off =>
    unfold exec
    refine wp_locked hc fun _ hlive => ?_
    rw [wp_bind]
    refine wp_mono (writei_spec (setValid_good hs j) hlive bytes off fun _ _ => rfl).1 ?_
    rintro r t ⟨hr, ht⟩
    rw [wp_pure]
    exact write_done hr ht

/-! ### The inode cache -/

/-- Entry `j` is changed, for an inode that no other entry in use is of. -/
theorem Cached.setCached (h : Cached s) {x : CachedInode}
    (hapart : ∀ i ≠ j, 0 < (s.icache i).ref → (s.icache i).inum ≠ x.inum)
    (hlive : x.valid = true → (s.inode x.inum).type ≠ .free) : Cached (s.setCached j x) where
  apart i k hi hk he := by
    rw [Fs.setCached_icache, Function.update_apply] at hi hk he
    rw [Function.update_apply] at he
    by_cases hij : i = j <;> by_cases hkj : k = j
    · rw [hij, hkj]
    · rw [if_pos hij, if_neg hkj] at he
      rw [if_neg hkj] at hk
      exact absurd he.symm (hapart k hkj hk)
    · rw [if_neg hij, if_pos hkj] at he
      rw [if_neg hij] at hi
      exact absurd he (hapart i hij hi)
    · rw [if_neg hij, if_neg hkj] at he
      rw [if_neg hij] at hi
      rw [if_neg hkj] at hk
      exact h.apart i k hi hk he
  live i hi hv := by
    rw [Fs.setCached_icache, Function.update_apply] at hi hv ⊢
    by_cases hij : i = j
    · rw [if_pos hij] at hv ⊢
      exact hlive hv
    · rw [if_neg hij] at hi hv ⊢
      exact h.live i hi hv

/-- The entry of an inode in the cache is changed. -/
theorem Cached.setEntry (h : Cached s) (hr : 0 < (s.icache j).ref) {x : CachedInode}
    (hinum : x.inum = (s.icache j).inum)
    (hlive : x.valid = true → (s.inode (s.icache j).inum).type ≠ .free) :
    Cached (s.setCached j x) := by
  refine h.setCached (fun i hij hi he => hij ?_) (by rwa [hinum])
  exact h.apart i j hi hr (he.trans hinum)

theorem Cached.congr (h : Cached s) (hicache : t.icache = s.icache)
    (htype : ∀ i, (t.inode i).type = .free → (s.inode i).type = .free) : Cached t where
  apart := by
    rw [hicache]
    exact h.apart
  live j hr hv hf := by
    rw [hicache] at hr hv hf
    exact h.live j hr hv (htype _ hf)

theorem iget_cached (h : Cached s) (inum : ℕ) : wp (iget inum) (fun _ t => Cached t) s := by
  apply wp_iget
  · exact fun j hj _ => h.setEntry hj rfl (h.live j hj)
  · intro j _ hnone
    exact h.setCached (fun i _ hi => hnone i hi) fun hv => absurd hv Bool.false_ne_true

theorem ialloc_cached (h : Cached s) (type : InodeType) :
    wp (ialloc type) (fun _ t => Cached t) s := by
  unfold ialloc
  rw [wp_bind, wp_get]
  cases hf : freeInode s (s.ninodes - 1) 1 with
  | none =>
    rw [wp_throw]
    trivial
  | some inum =>
    simp only [wp_bind, wp_modify]
    have hset : Cached (s.setInode inum ⟨type, 0, 0, fun _ => 0⟩) := by
      refine h.congr rfl fun i hi => ?_
      by_cases hne : i = inum
      · rw [hne]
        exact freeInode_type hf
      · rwa [Fs.setInode_inode, Function.update_of_ne hne] at hi
    exact iget_cached hset inum

/-- An inode that is freed loses its entry in the cache. -/
theorem putInode_cached (h : Cached s) (hr : 0 < (s.icache j).ref) : Cached (s.putInode j) := by
  unfold Fs.putInode
  by_cases hf : s.Frees j
  · rw [if_pos hf]
    obtain ⟨ip, hip⟩ : ∃ ip, ip = (s.icache j).inum := ⟨_, rfl⟩
    rw [← hip]
    set t := ((s.freed ip).setValid j false).dropRef j with ht
    have hlast : (t.icache j).ref = 0 := by
      rw [ht, Fs.dropRef, Fs.setCached_icache, Function.update_self]
      change (((s.freed ip).setValid j false).icache j).ref - 1 = 0
      rw [Fs.setValid_ref]
      change (s.icache j).ref - 1 = 0
      rw [hf.2.2]
    have hother : ∀ i ≠ j, t.icache i = s.icache i := by
      intro i hi
      rw [ht, Fs.dropRef, Fs.setCached_icache, Function.update_of_ne hi, Fs.setValid,
        Fs.setCached_icache, Function.update_of_ne hi]
      rfl
    have hused : ∀ i, 0 < (t.icache i).ref → i ≠ j := by
      rintro i hi rfl
      exact absurd hlast hi.ne'
    refine ⟨fun i k hi hk he => ?_, fun i hi hv => ?_⟩
    · have hij := hused i hi
      have hkj := hused k hk
      rw [hother i hij] at hi he
      rw [hother k hkj] at hk he
      exact h.apart i k hi hk he
    · have hij := hused i hi
      rw [hother i hij] at hi hv ⊢
      have hne : (s.icache i).inum ≠ ip := fun he => hij (h.apart i j hi hr (he.trans hip))
      have hinode : t.inode (s.icache i).inum = s.inode (s.icache i).inum :=
        (Function.update_of_ne hne _ _).trans (emptied_inode_of_ne hne)
      rw [hinode]
      exact h.live i hi hv
  · rw [if_neg hf]
    exact h.setEntry hr rfl (h.live j hr)

theorem exec_cached (hs : Good R s) (h : Cached s) {op : Op} (hheld : Held s op) :
    wp (exec op) (fun _ t => Cached t) s := by
  have hlock : ∀ j, 0 < (s.icache j).ref → (s.inode (s.icache j).inum).type ≠ .free →
      Cached (s.setValid j true) := fun j hr hl => h.setEntry hr rfl fun _ => hl
  cases op with
  | alloc dir =>
    unfold exec
    simp only [wp_bind, wp_pure]
    exact ialloc_cached h _
  | get inum =>
    unfold exec
    simp only [wp_bind, wp_pure]
    exact iget_cached h inum
  | dup j =>
    unfold exec idup
    simp only [wp_bind, wp_modify, wp_pure]
    exact h.setEntry hheld rfl (h.live j hheld)
  | put j =>
    unfold exec
    rw [wp_bind]
    refine wp_of_eq (iput_eq hs.owned j) ?_
    rw [wp_pure]
    exact putInode_cached h hheld
  | links j n =>
    unfold exec
    refine wp_locked h fun hr hl => ?_
    simp only [wp_bind, wp_modify, wp_pure]
    refine (hlock j hr hl).congr rfl fun i hi => ?_
    by_cases hne : i = (s.icache j).inum
    · rw [hne] at hi ⊢
      rwa [Fs.setInode_inode, Function.update_self] at hi
    · rwa [Fs.setInode_inode, Function.update_of_ne hne] at hi
  | read j off n =>
    unfold exec
    refine wp_locked h fun hr hl => ?_
    rw [wp_bind]
    refine wp_of_eq (readi_eq (setValid_good hs j) _ off n) ?_
    rw [wp_pure]
    exact hlock j hr hl
  | write j bytes off =>
    unfold exec
    refine wp_locked h fun hr hl => ?_
    rw [wp_bind]
    refine wp_mono (writei_spec (setValid_good hs j) hl bytes off fun _ _ => rfl).1 ?_
    rintro r t ⟨-, ht⟩
    rw [wp_pure]
    exact (hlock j hr hl).congr ht.icache fun i hi => (ht.stat i).1.symm.trans hi

/-! ### Runs -/

theorem perform_trace (s : Fs) (ops : List Op) :
    Trace Step s (perform s ops).1 (perform s ops).2 := by
  induction ops generalizing s with
  | nil => exact .nil
  | cons op ops ih =>
    unfold perform
    by_cases hheld : Held s op
    · rw [if_pos hheld]
      cases h : exec op s with
      | ok r => exact .cons ⟨hheld, h⟩ (ih r.2)
      | error e => exact .nil
    · rw [if_neg hheld]
      exact .nil

theorem fresh_ptr (i m : ℕ) : fresh.ptr i m = 0 := by
  by_cases hm : m < 13
  · exact ptr_direct fresh i hm
  · exact ptr_none (by omega) rfl

theorem fresh_good : Good {b | b < 60} fresh where
  owned := by
    refine ⟨by decide, by decide, fun b => ?_, fun i m _ _ _ _ hne _ => ?_, fun i m _ hne => ?_⟩
    · refine ⟨fun h => .inl (of_decide_eq_true h), ?_⟩
      rintro (h | ⟨i, m, -, rfl, hne⟩)
      · exact decide_eq_true h
      · exact absurd (fresh_ptr i m) hne
    · exact absurd (fresh_ptr i m) hne
    · exact absurd (fresh_ptr i m) hne
  covered _ k hk := absurd hk (Nat.not_lt_zero k)
  small _ := Nat.zero_le _
  plain _ := (by decide : InodeType.free ≠ .T_DEV)
  free i _ := ⟨rfl, fun m _ => fresh_ptr i m⟩

theorem fresh_cached : Cached fresh :=
  ⟨fun _ _ h => absurd h (lt_irrefl 0), fun _ h => absurd h (lt_irrefl 0)⟩

variable {l : List (Fs × (Op × Out))}

theorem step_done (hs : Good R s) (hc : Cached s) {a : Op × Out} (h : Step s a t) :
    Done R s a.1 a.2 t ∧ Cached t :=
  ⟨exec_done hs hc a.1 a.2 t h.2, exec_cached hs hc h.1 a.2 t h.2⟩

theorem trace_good (hs : Good R s) (hc : Cached s) (h : Trace Step s l t) :
    Good R t ∧ Cached t ∧ t.bytes = replay l s.bytes := by
  induction h with
  | nil => exact ⟨hs, hc, rfl⟩
  | snoc _ hstep ih =>
    obtain ⟨hdone, hcached⟩ := step_done ih.1 ih.2.1 hstep
    refine ⟨hdone.good, hcached, ?_⟩
    unfold replay
    rw [List.foldl_append, hdone.bytes, ih.2.2]
    rfl

/-- Files are sequences of bytes: in every run the reads and writes return what they return on the
sequences that the steps before them have left, whatever blocks the files are in, and the blocks
that no file has keep their contents. -/
theorem files_replay (hs : Good R s) (hc : Cached s) (h : Trace Step s l t) :
    t.bytes = replay l s.bytes ∧
    (∀ l₁ x l₂, l = l₁ ++ x :: l₂ →
      ∀ o ∈ answer (x.1, x.2.1) (replay l₁ s.bytes), x.2.2 = o) ∧
    ∀ b ∈ R, t.block b = s.block b := by
  refine ⟨(trace_good hs hc h).2.2, ?_, fun b hb => ?_⟩
  · rintro l₁ ⟨u, a⟩ l₂ rfl o ho
    obtain ⟨v, h₁, h₂⟩ := h.of_append
    obtain ⟨rfl, w, hstep, -⟩ := h₂.of_cons
    obtain ⟨hv, hcv, hbytes⟩ := trace_good hs hc h₁
    rw [← hbytes] at ho
    exact (step_done hv hcv hstep).1.answer o ho
  · induction h with
    | nil => rfl
    | snoc h hstep ih =>
      obtain ⟨hgood, hcached, -⟩ := trace_good hs hc h
      rw [(step_done hgood hcached hstep).1.reserved b hb, ih]

/-- A file is made, and three bytes are written. -/
theorem files_replay_three :
    let ops : List Op := [.alloc false, .links ⟨0, by decide⟩ 1,
      .write ⟨0, by decide⟩ [1#8, 2#8, 3#8] 0, .read ⟨0, by decide⟩ 1 7]
    (perform fresh ops).2.bytes = replay (perform fresh ops).1 fresh.bytes ∧
      (perform fresh ops).2.bytes 1 = [1#8, 2#8, 3#8] := by
  intro ops
  exact ⟨(files_replay fresh_good fresh_cached (perform_trace fresh ops)).1, by decide +kernel⟩

/-- A file that nobody has locked outlives its last reference. -/
example : (perform fresh [.alloc false, .put ⟨0, by decide⟩, .get 1,
    .read ⟨0, by decide⟩ 0 1]).1.length = 4 := by decide +kernel

/-- In every state of a run a block is in use if it is reserved, or else if a file has it, and then
in one place of one file. -/
theorem blocks_owned (hs : Good R s) (hc : Cached s) (h : Trace Step s l t) (b : ℕ) :
    t.bit b = true ↔ b ∈ R ∨ b ≠ 0 ∧ ∃! x : ℕ × ℕ, x.2 < PTRS ∧ t.ptr x.1 x.2 = b := by
  have ho := (trace_good hs hc h).1.owned
  rw [ho.used b]
  refine or_congr Iff.rfl ⟨?_, ?_⟩
  · rintro ⟨i, m, hm, rfl, hne⟩
    refine ⟨hne, (i, m), ⟨hm, rfl⟩, ?_⟩
    rintro ⟨j, k⟩ ⟨hk, he⟩
    obtain ⟨rfl, rfl⟩ := ho.apart j k i m hk hm (he.trans_ne hne) he
    rfl
  · rintro ⟨hne, ⟨i, m⟩, ⟨hm, he⟩, -⟩
    exact ⟨i, m, hm, he, hne⟩

theorem blocks_owned_sixty :
    let t := (perform fresh [.alloc false, .write ⟨0, by decide⟩ [1#8] 0]).2
    ∃! x : ℕ × ℕ, x.2 < PTRS ∧ t.ptr x.1 x.2 = 60 := by
  intro t
  have hused : t.bit 60 = true := by decide +kernel
  have h := (blocks_owned fresh_good fresh_cached (perform_trace fresh _) 60).1 hused
  obtain hR | ⟨-, hx⟩ := h
  · exact absurd hR (by decide)
  · exact hx

/-- What the callers of an operation see to. -/
def Legal (s : Fs) : Op → Prop
  | .links j _ | .read j _ _ | .write j _ _ =>
    0 < (s.icache j).ref ∧ (s.inode (s.icache j).inum).type ≠ .free
  | op => Held s op

/-- The panics for which there is too little of something. -/
def Short (e : String) : Prop :=
  e = "balloc: out of blocks" ∨ e = "ialloc: no inodes" ∨ e = "iget: no inodes"

theorem stops_mono {α : Type} {f : F α} {P Q : String → Prop} (h : stops f P s)
    (hPQ : ∀ e, P e → Q e) : stops f Q s := fun e he => hPQ e (h e he)

/-- Returning stops nowhere. -/
theorem stops_returns {α β : Type} {f : F α} {P : String → Prop} (g : α → β) (h : stops f P s) :
    stops (do let a ← f; pure (g a)) P s := by
  rw [stops_bind]
  refine ⟨h, fun a t _ => ?_⟩
  change stops (pure (g a)) P t
  rw [stops_pure]
  trivial

theorem iget_stops (inum : ℕ) (s : Fs) : stops (iget inum) Short s := by
  exact fun e he => .inr (.inr (Disk.iget_stops inum s e he))

theorem ialloc_stops (type : InodeType) (s : Fs) : stops (ialloc type) Short s := by
  unfold ialloc
  rw [stops_bind, wp_get]
  refine ⟨by rw [stops_get]; trivial, ?_⟩
  cases freeInode s (s.ninodes - 1) 1 with
  | none =>
    rw [stops_throw]
    exact .inr (.inl rfl)
  | some inum =>
    simp only [stops_bind, stops_modify, wp_modify, true_and]
    exact iget_stops inum _

theorem stops_locked {P : String → Prop} {f : ℕ → F Out} (hl : 0 < (s.icache j).ref ∧
    (s.inode (s.icache j).inum).type ≠ .free) (h : stops (f (s.icache j).inum) P (s.setValid j true)) :
    stops (locked j f) P s := by
  have hlock := ilock_eq hl.1 (.inr hl.2)
  unfold locked
  rw [stops_bind]
  refine ⟨stops_of_eq hlock, wp_of_eq hlock ?_⟩
  rw [stops_bind, wp_get, Fs.setValid_inum]
  exact ⟨by rw [stops_get]; trivial, h⟩

/-- In every state of a run an operation panics only for want of blocks or inodes: no block is freed
twice, and no file has more blocks than its inode can name. -/
theorem files_progress (hs : Good R s) (hc : Cached s) (h : Trace Step s l t) {op : Op}
    (hl : Legal t op) : ∀ e, exec op t = .error e → Short e := by
  have ht := (trace_good hs hc h).1
  change stops (exec op) Short t
  cases op with
  | alloc dir => exact stops_returns _ (ialloc_stops _ t)
  | get inum => exact stops_returns _ (iget_stops inum t)
  | dup j =>
    unfold exec idup
    simp only [stops_bind, stops_modify, stops_pure, wp_bind, wp_modify, wp_pure, and_self]
  | put j => exact stops_returns _ (stops_of_eq (iput_eq ht.owned j))
  | links j n =>
    unfold exec
    refine stops_locked hl ?_
    simp only [stops_bind, stops_modify, stops_pure, wp_modify, and_self]
  | read j off n =>
    unfold exec
    exact stops_locked hl (stops_returns _ (stops_of_eq (readi_eq (setValid_good ht j) _ off n)))
  | write j bytes off =>
    unfold exec
    refine stops_locked hl (stops_returns _ ?_)
    exact stops_mono (writei_spec (setValid_good ht j) hl.2 bytes off fun _ _ => rfl).2 fun _ => .inl

theorem files_progress_put :
    let t := (perform fresh [.alloc false, .write ⟨0, by decide⟩ [1#8] 0]).2
    ∀ e, exec (.put ⟨0, by decide⟩) t = .error e → Short e := by
  intro t
  have hheld : Held t (.put ⟨0, by decide⟩) := by decide +kernel
  exact files_progress fresh_good fresh_cached (perform_trace fresh _) hheld

end Xv6Lab.Files
