import Xv6Lab.Files.Spec

/-! Opening a swap file: the disk stays consistent, and the file is a regular one. -/

namespace Xv6Lab.Files

open Disk Lib

variable {R : Set ℕ} {s t : Fs} {E : Env} {j : Fin NINODE} {inum : ℕ}

/-- What opening a file keeps: the blocks `R`, and the references that are held
already. -/
structure Opens (R : Set ℕ) (s t : Fs) : Prop where
  fits : Fits R t
  block : ∀ b ∈ R, t.block b = s.block b
  held : ∀ j, 0 < (s.icache j).ref →
    (t.icache j).inum = (s.icache j).inum ∧ 0 < (t.icache j).ref

theorem Opens.refl (h : Fits R s) : Opens R s s :=
  ⟨h, fun _ _ => rfl, fun _ hj => ⟨rfl, hj⟩⟩

theorem Opens.trans {u : Fs} (h : Opens R s t) (h' : Opens R t u) : Opens R s u where
  fits := h'.fits
  block b hb := (h'.block b hb).trans (h.block b hb)
  held j hj := by
    obtain ⟨hi, hr⟩ := h.held j hj
    obtain ⟨hi', hr'⟩ := h'.held j hr
    exact ⟨hi'.trans hi, hr'⟩

/-- A change of one reference count that is not dropped. -/
theorem Opens.setCached (h : Fits R s) {x : CachedInode} (hx : 0 < x.ref)
    (hi : 0 < (s.icache j).ref → x.inum = (s.icache j).inum) : Opens R s (s.setCached j x) where
  fits := h.congr rfl rfl
  block _ _ := rfl
  held i hr := by
    rw [Fs.setCached_icache, Function.update_apply]
    split_ifs with e
    · subst e
      exact ⟨hi hr, hx⟩
    · exact ⟨rfl, hr⟩

/-- `iget` drops no reference. -/
theorem iget_spec (h : Fits R s) (inum : ℕ) : wp (iget inum) (fun j t =>
    Opens R s t ∧ (t.icache j).inum = inum ∧ (∀ i, (s.icache i).ref ≤ (t.icache i).ref) ∧
      0 < (t.icache j).ref ∧ t.inode = s.inode ∧ t.entries = s.entries) s := by
  have hset : ∀ j (x : CachedInode), x.inum = inum → x.ref = (s.icache j).ref + 1 →
      ((s.icache j).ref = 0 ∨ (s.icache j).inum = inum) →
      Opens R s (s.setCached j x) ∧ ((s.setCached j x).icache j).inum = inum ∧
      (∀ i, (s.icache i).ref ≤ ((s.setCached j x).icache i).ref) ∧
      0 < ((s.setCached j x).icache j).ref ∧ (s.setCached j x).inode = s.inode ∧
      (s.setCached j x).entries = s.entries := by
    intro j x hi hr hj
    have hpos : 0 < x.ref := hr ▸ Nat.succ_pos _
    refine ⟨Opens.setCached h hpos fun hr0 => ?_, ?_, fun i => ?_, ?_, rfl, rfl⟩
    · rw [hi, hj.resolve_left hr0.ne']
    · rwa [Fs.setCached_icache, Function.update_self]
    · rw [Fs.setCached_icache, Function.update_apply]
      split_ifs with e
      · rw [e, hr]
        exact Nat.le_succ _
      · exact le_rfl
    · rwa [Fs.setCached_icache, Function.update_self]
  apply wp_iget
  · exact fun j _ hi => hset j _ hi rfl (.inr hi)
  · intro j (hj : (s.icache j).ref = 0) _
    exact hset j ⟨inum, 1, false⟩ rfl (by rw [hj]) (.inl hj)

/-- Dropping a reference that is not the last one. -/
theorem iput_spec (h : Fits R s) (hr : 1 < (s.icache j).ref) : wp (iput j) (fun _ t =>
    Opens R s t ∧ t.inode = s.inode ∧ ∀ i, (t.icache i).inum = (s.icache i).inum) s := by
  have hne : ¬ ((s.icache j).valid = true ∧ (s.inode (s.icache j).inum).nlink = 0 ∧
      (s.icache j).ref = 1) := fun hc => by omega
  unfold iput
  rw [wp_bind, wp_get]
  simp only [if_neg hne, wp_modify]
  refine ⟨Opens.setCached h (Nat.sub_pos_of_lt hr) fun _ => rfl, rfl, fun i => ?_⟩
  rw [Fs.setCached_icache, Function.update_apply]
  split_ifs with e
  · rw [e]
  · rfl

/-- A fresh inode has no blocks. -/
theorem Fits.fresh (h : Fits R s) (i : ℕ) {x : Inode} (hx : x.addrs = fun _ => 0) :
    Fits R (s.setInode i x) := by
  have haddr : ∀ l k, (s.setInode i x).addr l k = if l = i then 0 else s.addr l k := by
    intro l k
    simp only [Fs.addr, Fs.setInode_inode, Function.update_apply]
    split_ifs
    · rw [hx]
    · rfl
  refine ⟨h.boot, fun l k hne => ?_, fun l k l' k' hne he => ?_, h.taken, fun l k hne => ?_⟩
  · rw [haddr] at hne ⊢
    split_ifs at hne ⊢
    · exact absurd rfl hne
    · exact h.used l k hne
  · rw [haddr] at hne
    rw [haddr, haddr] at he
    split_ifs at hne he
    · exact absurd rfl hne
    · exact absurd rfl hne
    · exact absurd he hne
    · exact h.apart l k l' k' hne he
  · rw [haddr] at hne ⊢
    split_ifs at hne ⊢
    · exact absurd rfl hne
    · exact h.unnamed l k hne

theorem Opens.fresh (h : Fits R s) (i : ℕ) {x : Inode} (hx : x.addrs = fun _ => 0) :
    Opens R s (s.setInode i x) :=
  ⟨h.fresh i hx, fun _ _ => rfl, fun _ hj => ⟨rfl, hj⟩⟩

theorem Opens.setValid (h : Fits R s) (j : Fin NINODE) (v : Bool) : Opens R s (s.setValid j v) where
  fits := h.congr rfl rfl
  block _ _ := rfl
  held i hi := by
    rw [Fs.setValid_inum, Fs.setValid_ref]
    exact ⟨rfl, hi⟩

/-- A new file: its inode is fresh. -/
theorem ialloc_spec (h : Fits R s) (type : InodeType) : wp (ialloc type) (fun j t =>
    Opens R s t ∧ (∀ i, (s.icache i).ref ≤ (t.icache i).ref) ∧ 0 < (t.icache j).ref ∧
      t.entries = s.entries ∧ (t.inode (t.icache j).inum).type = type ∧
      (t.inode (t.icache j).inum).addrs = fun _ => 0) s := by
  unfold ialloc
  rw [wp_bind, wp_get]
  cases hi : freeInode s (s.ninodes - 1) 1 with
  | none =>
    rw [wp_throw]
    trivial
  | some inum =>
    simp only [wp_bind, wp_modify]
    have h1 : Opens R s (s.setInode inum ⟨type, 0, 0, fun _ => 0⟩) := Opens.fresh h inum rfl
    refine wp_mono (iget_spec h1.fits inum) ?_
    rintro j t ⟨ho, hinum, hle, hr, hinode, hent⟩
    refine ⟨h1.trans ho, hle, hr, hent, ?_, ?_⟩
    · rw [hinum, hinode, Fs.setInode_inode, Function.update_self]
    · rw [hinum, hinode, Fs.setInode_inode, Function.update_self]

/-- The name is not in the directory, so an entry for it is added. -/
theorem dirlink_spec (h : Fits R s) {dp : Fin NINODE} {name : List Char}
    (hnone : ((s.entries (s.icache dp).inum).find? fun e => e.1 = name) = none) :
    wp (dirlink E dp name inum) (fun r t =>
      Opens R s t ∧ r = true ∧ t.inode = s.inode ∧ t.icache = s.icache) s := by
  unfold dirlink dirlookup
  simp only [wp_bind, wp_get, hnone, wp_pure]
  split_ifs
  · simp only [wp_bind, wp_modify, wp_pure]
    refine wp_mono (balloc_spec s) ?_
    rintro b t ⟨hb, rfl⟩
    refine ⟨⟨h.alloc.congr rfl rfl, fun c hc => ?_, fun _ hj => ⟨rfl, hj⟩⟩, by trivial, by trivial, by trivial⟩
    exact Fs.alloc_block hb (h.taken c hc)
  · simp only [wp_bind, wp_modify, wp_pure]
    exact ⟨⟨h.congr rfl rfl, fun _ _ => rfl, fun _ hj => ⟨rfl, hj⟩⟩, by trivial, by trivial, by trivial⟩

/-- The working directory, with one more reference and locked. -/
def Fs.entered (s : Fs) : Fs :=
  (s.setCached s.cwd { s.icache s.cwd with ref := (s.icache s.cwd).ref + 1 }).setValid s.cwd true

theorem entered_ref (s : Fs) (i : Fin NINODE) :
    (s.entered.icache i).ref = (s.icache i).ref + if i = s.cwd then 1 else 0 := by
  unfold Fs.entered
  rw [Fs.setValid_ref, Fs.setCached_icache, Function.update_apply]
  split_ifs with e
  · rw [e]
  · rfl

theorem Opens.entered (h : Fits R s) : Opens R s s.entered := by
  have hdup : Opens R s (s.setCached s.cwd { s.icache s.cwd with ref := (s.icache s.cwd).ref + 1 }) :=
    Opens.setCached h (Nat.succ_pos _) fun _ => rfl
  exact hdup.trans (Opens.setValid hdup.fits s.cwd true)

theorem wp_nameiparent {Q : Option (Fin NINODE × List Char) → Fs → Prop} {path : List Char}
    (hnone : ∀ t, Q none t) (h : Q (some (s.cwd, path.take DIRSIZ)) s.entered) :
    wp (nameiparent path) Q s := by
  unfold nameiparent idup
  simp only [wp_bind, wp_get, wp_modify, wp_pure]
  apply wp_ilock
  intro _
  split_ifs
  · rw [wp_pure]
    exact h
  · simp only [wp_bind, wp_pure]
    exact fun _ t _ => hnone t

/-- Opening a file for a process whose working directory is in the cache. -/
theorem create_spec (h : Fits R s) (hcwd : 0 < (s.icache s.cwd).ref) (path : List Char) :
    wp (create E path) (fun r t => ∀ ip ∈ r,
      Opens R s t ∧ (t.inode (t.icache ip).inum).type = .T_FILE) s := by
  set dp := s.cwd with hdp
  unfold create
  rw [wp_bind]
  refine wp_nameiparent (fun t => ?_) ?_
  · rw [wp_pure]
    rintro ip ⟨⟩
  rw [← hdp, wp_bind]
  apply wp_ilock
  intro _
  set s1 := s.entered.setValid dp true with hs1
  have hopen0 := Opens.entered h
  have hopen1 : Opens R s s1 := hopen0.trans (Opens.setValid hopen0.fits dp true)
  have href1 : (s1.icache dp).ref = (s.icache dp).ref + 1 := by
    rw [hs1, Fs.setValid_ref, entered_ref, if_pos rfl]
  rw [wp_bind]
  unfold dirlookup
  rw [wp_bind, wp_get]
  cases hfind : (s1.entries (s1.icache dp).inum).find? fun e => e.1 = path.take DIRSIZ with
  | some e =>
    simp only [wp_bind, wp_pure]
    refine wp_mono (iget_spec hopen1.fits e.2) ?_
    rintro ip t2 ⟨ho2, -, hle2, -, -, -⟩
    have hdp2 : 1 < (t2.icache dp).ref := by
      have := hle2 dp
      omega
    refine wp_mono (iput_spec ho2.fits hdp2) ?_
    rintro - t3 ⟨ho3, -, -⟩
    apply wp_ilock
    intro _
    rw [wp_get]
    split_ifs with htype
    · rw [wp_pure]
      rintro _ ⟨⟩
      exact ⟨hopen1.trans (ho2.trans (ho3.trans (Opens.setValid ho3.fits ip true))), htype⟩
    · simp only [wp_bind, wp_pure]
      rintro _ _ _ ip ⟨⟩
  | none =>
    simp only [wp_bind, wp_pure]
    refine wp_mono (ialloc_spec hopen1.fits .T_FILE) ?_
    rintro ip t2 ⟨ho2, hle2, -, hent2, htype2, haddr2⟩
    apply wp_ilock
    intro _
    simp only [wp_get, wp_modify, Fs.setValid_inum]
    set t3 := (t2.setValid ip true).setInode (t2.icache ip).inum
      { (t2.setValid ip true).inode (t2.icache ip).inum with nlink := 1 } with ht3
    have hlock := Opens.setValid ho2.fits ip true
    have ho3 : Opens R t2 t3 := hlock.trans (Opens.fresh hlock.fits _ haddr2)
    have hinum3 : ∀ i, (t3.icache i).inum = (t2.icache i).inum := fun i => t2.setValid_inum ip i true
    have hnone : ((t3.entries (t3.icache dp).inum).find? fun e => e.1 = path.take DIRSIZ) = none := by
      have hinum : (t2.icache dp).inum = (s1.icache dp).inum :=
        (ho2.held dp (by rw [href1]; exact Nat.succ_pos _)).1
      have hent : t3.entries (t3.icache dp).inum = s1.entries (s1.icache dp).inum := by
        rw [hinum3, ← hinum, ← hent2]
        rfl
      rw [hent]
      exact hfind
    refine wp_mono (dirlink_spec ho3.fits hnone) ?_
    rintro ok t4 ⟨ho4, rfl, hinode4, hicache4⟩
    have hdp4 : 1 < (t4.icache dp).ref := by
      have hle := hle2 dp
      have hr3 : (t3.icache dp).ref = (t2.icache dp).ref := t2.setValid_ref ip dp true
      rw [hicache4, hr3]
      omega
    simp only [if_true, wp_bind, wp_pure]
    refine wp_mono (iput_spec ho4.fits hdp4) ?_
    rintro - t5 ⟨ho5, hinode5, hinum5⟩
    rintro _ ⟨⟩
    have hinum : (t5.icache ip).inum = (t2.icache ip).inum := by
      rw [hinum5, hicache4, hinum3]
    refine ⟨hopen1.trans (ho2.trans (ho3.trans (ho4.trans ho5))), ?_⟩
    rw [hinum, hinode5, hinode4, ht3, Fs.setInode_inode, Function.update_self]
    exact htype2

/-- An open swap file: a regular file, open for writing. -/
structure SwapFile (R : Set ℕ) (s : Fs) (f : Fin NFILE) (t : Fs) : Prop where
  fits : Fits R t
  block : ∀ b ∈ R, t.block b = s.block b
  file : (t.ftable f).type = .FD_INODE ∧ (t.ftable f).writable ≠ 0
  type : (t.inode (t.icache (t.ftable f).ip).inum).type = .T_FILE

/-- What `createSwapFile` returns. -/
theorem createSwapFile_spec (h : Fits R s) (hcwd : 0 < (s.icache s.cwd).ref) (pid x : ℕ) :
    wp (createSwapFile E pid x) (SwapFile R s) s := by
  unfold createSwapFile
  rw [wp_bind]
  refine wp_mono (create_spec h hcwd _) fun r t hr => ?_
  cases r with
  | none =>
    rw [wp_throw]
    trivial
  | some ip =>
    obtain ⟨ho, htype⟩ := hr ip rfl
    rw [wp_bind]
    apply wp_filealloc
    · rw [wp_throw]
      trivial
    · intro f _
      simp only [wp_bind, wp_modify, wp_pure]
      refine ⟨ho.fits.congr rfl rfl, ho.block, ?_, ?_⟩
      · simp only [Fs.setFile_ftable, Function.update_self]
        decide
      · simp only [Fs.setFile_ftable, Function.update_self]
        exact htype

end Xv6Lab.Files
