import Xv6Lab.Files.Record
import Mathlib.Algebra.BigOperators.Fin
import Mathlib.Algebra.Order.BigOperators.Group.Finset

/-! The file that a page is written to is never closed. Every page that is swapped
out takes an entry of the file table and a reference in the inode cache for good, so
that no run swaps out more pages than the file table has entries. -/

namespace Xv6Lab.Files

open Disk Lib

variable {E : Env} {s t : Fs} {j : Fin NINODE} {f : Fin NFILE}

/-- The reference counts of the inode cache and the file table. -/
def counts (s : Fs) : (Fin NINODE → CachedInode) × (Fin NFILE → ℕ) :=
  (s.icache, fun f => (s.ftable f).ref)

/-- `m` leaves the reference counts alone. -/
abbrev KeepsCounts {α : Type} (m : F α) : Prop := Preserves counts m

/-! ### What leaves them alone -/

theorem balloc_counts : KeepsCounts balloc := by
  unfold balloc
  apply preserves_get.bind
  exact fun s => balloc_preserves (fun _ _ _ => rfl) (fun _ _ => rfl) s.size

theorem bfree_counts (b : ℕ) : KeepsCounts (bfree b) := bfree_preserves (fun _ _ _ => rfl) b

theorem bmap_counts (ip bn : ℕ) : KeepsCounts (bmap ip bn) := by
  unfold bmap
  split_ifs
  · apply preserves_get.bind
    intro s
    simp only
    split_ifs
    · apply balloc_counts.bind
      exact fun b => Preserves.bind (preserves_modify fun _ => rfl) fun _ => preserves_pure _
    · exact preserves_pure _
  · have hentry : KeepsCounts (do
        let s ← get
        let addr := s.addr ip 12
        if (s.block addr).word (bn - NDIRECT) = 0 then do
          let b ← balloc
          modify fun s => s.setBlock addr ((s.block addr).setWord (bn - NDIRECT) b)
          pure b
        else pure ((s.block addr).word (bn - NDIRECT))) := by
      apply preserves_get.bind
      intro s
      apply Preserves.ite _ (preserves_pure _)
      apply balloc_counts.bind
      exact fun b => Preserves.bind (preserves_modify fun _ => rfl) fun _ => preserves_pure _
    apply preserves_get.bind
    intro s
    split_ifs
    · apply balloc_counts.bind
      exact fun b => Preserves.bind (preserves_modify fun _ => rfl) fun _ => hentry
    · exact hentry
  · exact preserves_throw _

theorem bfreeAddrs_counts (bs : List ℕ) : KeepsCounts (bfreeAddrs bs) := by
  induction bs with
  | nil => exact preserves_pure _
  | cons b bs ih =>
    unfold bfreeAddrs
    split_ifs
    · exact (bfree_counts b).bind fun _ => ih
    · exact ih

theorem itrunc_counts (ip : ℕ) : KeepsCounts (itrunc ip) := by
  unfold itrunc
  apply preserves_get.bind
  intro s
  apply (bfreeAddrs_counts _).bind
  intro _
  split_ifs
  · apply (bfreeAddrs_counts _).bind
    intro _
    exact (bfree_counts _).bind fun _ => (preserves_modify fun _ => rfl)
  · exact preserves_modify fun _ => rfl

theorem writeiLoop_counts (ip : ℕ) (src : ℕ → Byte) (fuel left off tot : ℕ) :
    KeepsCounts (writeiLoop ip src fuel left off tot) := by
  induction fuel generalizing left off tot with
  | zero => exact preserves_pure _
  | succ fuel ih =>
    unfold writeiLoop
    apply (preserves_pure _).ite
    apply (bmap_counts ip _).bind
    exact fun b => Preserves.bind (preserves_modify fun _ => rfl) fun _ => ih _ _ _

theorem writei_counts (ip : ℕ) (src : ℕ → Byte) (off n : ℕ) :
    KeepsCounts (writei ip src off n) := by
  unfold writei
  apply preserves_get.bind
  intro s
  apply (preserves_throw _).ite
  apply (preserves_pure _).ite
  apply (preserves_pure _).ite
  apply (writeiLoop_counts ip src _ _ _ _).bind
  intro _
  apply preserves_get.bind
  intro t
  split_ifs
  · exact Preserves.bind (preserves_modify fun _ => rfl) fun _ => preserves_pure _
  · exact preserves_pure _

/-- Moving the offset of a file keeps its reference count. -/
theorem counts_setFile {x : File} (hx : x.ref = (s.ftable f).ref) :
    counts (s.setFile f x) = counts s := by
  unfold counts
  congr 1
  funext g
  rw [Fs.setFile_ftable, Function.update_apply]
  split_ifs with hg
  · rw [hx, hg]
  · rfl

theorem filewriteLoop_counts (f : Fin NFILE) (addr : ℕ → Byte) (n fuel i : ℕ) :
    KeepsCounts (filewriteLoop f addr n fuel i) := by
  induction fuel generalizing i with
  | zero => exact preserves_pure _
  | succ fuel ih =>
    unfold filewriteLoop
    apply Preserves.ite _ (preserves_pure _)
    intro s
    rw [wp_bind, wp_get]
    simp only
    rw [wp_bind]
    refine wp_mono (writei_counts _ _ _ _ s) fun r t ht => ?_
    cases r with
    | none =>
      rw [wp_pure]
      exact ht
    | some r =>
      rw [wp_bind, wp_modify]
      split_ifs
      · rw [wp_throw]
        trivial
      · refine wp_mono (ih _ _) fun _ u hu => ?_
        have hset := counts_setFile (s := t) (f := f) (x := { t.ftable f with off := (s.ftable f).off + r }) rfl
        exact hu.trans (hset.trans ht)

theorem filewrite_counts (f : Fin NFILE) (addr : ℕ → Byte) (n : ℕ) :
    KeepsCounts (filewrite f addr n) := by
  unfold filewrite
  apply preserves_get.bind
  intro s
  apply (preserves_pure _).ite
  cases (s.ftable f).type with
  | FD_PIPE => exact preserves_throw _
  | FD_INODE => exact filewriteLoop_counts f addr n _ _
  | FD_NONE => exact preserves_throw _

theorem writeParts_counts (cache : Fin 8 → BufHeader) (f : Fin NFILE) (pg : Fin 8 → Data)
    (blk : ℕ) (is : List (Fin 8)) : KeepsCounts (writeParts cache f pg blk is) := by
  induction is with
  | nil => exact preserves_pure _
  | cons i is ih =>
    unfold writeParts
    simp only
    refine Preserves.bind (preserves_modify fun s => counts_setFile rfl) fun _ => ?_
    refine Preserves.bind (preserves_modify fun _ => rfl) fun _ => ?_
    exact (filewrite_counts f _ _).bind fun _ => ih

theorem bfreeAll_counts (bs : List ℕ) : KeepsCounts (bfreeAll bs) :=
  bfreeAll_preserves (fun _ _ _ => rfl) bs

theorem ballocPage_counts : KeepsCounts ballocPage := by
  unfold ballocPage
  apply preserves_get.bind
  intro s
  apply (ballocPageLoop_preserves (fun _ _ _ => rfl) (fun _ _ => rfl) s.size _ _ _).bind
  exact fun alloc => (bfreeAll_counts _).bind fun _ => preserves_pure _

/-! ### What does not -/

/-- Changing one entry of a table changes a sum over it by that entry. -/
theorem sum_update {α : Type} {n : ℕ} (v : Fin n → α) (g : α → ℕ) (j : Fin n) (x : α) :
    ∑ i, g (Function.update v j x i) + g (v j) = ∑ i, g (v i) + g x := by
  have hrest : ∑ i ∈ Finset.univ.erase j, g (Function.update v j x i) =
      ∑ i ∈ Finset.univ.erase j, g (v i) := by
    apply Finset.sum_congr rfl
    intro i hi
    rw [Function.update_of_ne (Finset.ne_of_mem_erase hi)]
  rw [← Finset.add_sum_erase _ _ (Finset.mem_univ j),
    ← Finset.add_sum_erase _ (fun i => g (v i)) (Finset.mem_univ j), hrest, Function.update_self]
  omega

/-- References held in the inode cache. -/
def Fs.refs (s : Fs) : ℕ := ∑ j, (s.icache j).ref

theorem refs_setCached (s : Fs) (j : Fin NINODE) (x : CachedInode) :
    (s.setCached j x).refs + (s.icache j).ref = s.refs + x.ref := sum_update s.icache (·.ref) j x

theorem refs_setValid (s : Fs) (j : Fin NINODE) (v : Bool) : (s.setValid j v).refs = s.refs := by
  unfold Fs.refs
  simp only [Fs.setValid_ref]

theorem refs_drop (h : 0 < (s.icache j).ref) :
    (s.setCached j { s.icache j with ref := (s.icache j).ref - 1 }).refs + 1 = s.refs := by
  set t := s.setCached j { s.icache j with ref := (s.icache j).ref - 1 } with ht
  have hrefs : t.refs + (s.icache j).ref = s.refs + ((s.icache j).ref - 1) := refs_setCached s j _
  omega

theorem refs_of_counts (h : counts t = counts s) : t.refs = s.refs := by
  have hic : t.icache = s.icache := congrArg Prod.fst h
  unfold Fs.refs
  rw [hic]

/-- One more reference in the inode cache, and the file table as it was. -/
structure Gains (s t : Fs) : Prop where
  refs : t.refs = s.refs + 1
  le : ∀ i, (s.icache i).ref ≤ (t.icache i).ref
  files : (counts t).2 = (counts s).2

theorem iget_gains (inum : ℕ) (s : Fs) :
    wp (iget inum) (fun j t => Gains s t ∧ 0 < (t.icache j).ref) s := by
  have hset : ∀ j (x : CachedInode), x.ref = (s.icache j).ref + 1 →
      Gains s (s.setCached j x) ∧ 0 < ((s.setCached j x).icache j).ref := by
    intro j x hr
    have hrefs := refs_setCached s j x
    refine ⟨⟨by omega, fun i => ?_, rfl⟩, ?_⟩
    · rw [Fs.setCached_icache, Function.update_apply]
      split_ifs with e
      · rw [e, hr]
        exact Nat.le_succ _
      · exact le_rfl
    · rw [Fs.setCached_icache, Function.update_self, hr]
      exact Nat.succ_pos _
  apply wp_iget
  · exact fun j _ _ => hset j _ rfl
  · intro j (hj : (s.icache j).ref = 0) _
    exact hset j ⟨inum, 1, false⟩ (by rw [hj])

/-- A reference is dropped, whether or not the inode is freed with it. -/
theorem iput_refs (hj : 0 < (s.icache j).ref) :
    wp (iput j) (fun _ t => t.refs + 1 = s.refs ∧ (counts t).2 = (counts s).2) s := by
  have hdrop : ∀ u : Fs, 0 < (u.icache j).ref → u.refs = s.refs → (counts u).2 = (counts s).2 →
      (u.setCached j { u.icache j with ref := (u.icache j).ref - 1 }).refs + 1 = s.refs ∧
        (counts (u.setCached j { u.icache j with ref := (u.icache j).ref - 1 })).2 = (counts s).2 :=
    fun u hu hrefs hfiles => ⟨(refs_drop hu).trans hrefs, hfiles⟩
  unfold iput
  rw [wp_bind, wp_get]
  simp only
  split_ifs
  · simp only [wp_bind, wp_modify]
    refine wp_mono (itrunc_counts _ s) fun _ u hu => ?_
    have hic : u.icache = s.icache := congrArg Prod.fst hu
    have hrefs := refs_of_counts hu
    refine hdrop ((u.setInode _ _).setValid j false) ?_ ?_ (congrArg Prod.snd hu :)
    · rw [Fs.setValid_ref]
      change 0 < (u.icache j).ref
      rwa [hic]
    · rw [refs_setValid]
      exact hrefs
  · rw [wp_modify]
    exact hdrop s hj rfl rfl

theorem ialloc_gains (type : InodeType) (s : Fs) :
    wp (ialloc type) (fun j t => Gains s t ∧ 0 < (t.icache j).ref) s := by
  unfold ialloc
  rw [wp_bind, wp_get]
  cases freeInode s (s.ninodes - 1) 1 with
  | none =>
    rw [wp_throw]
    trivial
  | some inum =>
    simp only [wp_bind, wp_modify]
    refine wp_mono (iget_gains inum _) ?_
    rintro j t ⟨h, hj⟩
    exact ⟨⟨h.refs, h.le, h.files⟩, hj⟩

theorem dirlink_counts (dp : Fin NINODE) (name : List Char) (inum : ℕ) (s : Fs) :
    wp (dirlink E dp name inum) (fun r t => r = true → counts t = counts s) s := by
  unfold dirlink dirlookup
  rw [wp_bind, wp_bind, wp_get]
  cases (s.entries (s.icache dp).inum).find? fun e => e.1 = name with
  | some e =>
    simp only [wp_bind, wp_pure]
    rintro ip t - _ u - ⟨⟩
  | none =>
    simp only [wp_bind, wp_pure, wp_get]
    split_ifs
    · simp only [wp_bind, wp_modify, wp_pure]
      exact wp_mono (balloc_counts s) fun b t ht _ => ht
    · simp only [wp_bind, wp_modify, wp_pure]
      exact fun _ => rfl

/-- Opening the inode of a file takes one reference. -/
theorem create_refs (path : List Char) (s : Fs) : wp (create E path) (fun r t =>
    r ≠ none → t.refs = s.refs + 1 ∧ (counts t).2 = (counts s).2) s := by
  set dp := s.cwd with hdp
  unfold create
  rw [wp_bind]
  refine wp_nameiparent (fun t => ?_) ?_
  · rw [wp_pure]
    exact fun h => absurd rfl h
  rw [← hdp, wp_bind]
  apply wp_ilock
  intro _
  set s1 := s.entered.setValid dp true with hs1
  have hrefs1 : s1.refs = s.refs + 1 := by
    rw [hs1, refs_setValid, Fs.entered, refs_setValid]
    set s0 := s.setCached s.cwd { s.icache s.cwd with ref := (s.icache s.cwd).ref + 1 } with hs0
    have hdup : s0.refs + (s.icache s.cwd).ref = s.refs + ((s.icache s.cwd).ref + 1) :=
      refs_setCached s s.cwd _
    omega
  have href1 : 0 < (s1.icache dp).ref := by
    rw [hs1, Fs.setValid_ref, entered_ref, if_pos rfl]
    exact Nat.succ_pos _
  rw [wp_bind]
  unfold dirlookup
  rw [wp_bind, wp_get]
  cases (s1.entries (s1.icache dp).inum).find? fun e => e.1 = path.take DIRSIZ with
  | some e =>
    simp only [wp_bind, wp_pure]
    refine wp_mono (iget_gains e.2 s1) ?_
    rintro ip t2 ⟨h2, -⟩
    refine wp_mono (iput_refs (href1.trans_le (h2.le dp))) ?_
    rintro - t3 ⟨h3, hf3⟩
    apply wp_ilock
    intro _
    rw [wp_get]
    split_ifs
    · rw [wp_pure]
      have hrefs2 := h2.refs
      rw [refs_setValid]
      exact fun _ => ⟨by omega, hf3.trans h2.files⟩
    · simp only [wp_bind, wp_pure]
      exact fun _ _ _ h => absurd rfl h
  | none =>
    simp only [wp_bind, wp_pure]
    refine wp_mono (ialloc_gains .T_FILE s1) ?_
    rintro ip t2 ⟨h2, -⟩
    apply wp_ilock
    intro _
    simp only [wp_get, wp_modify]
    refine wp_mono (dirlink_counts dp _ _ _) fun ok t4 h4 => ?_
    cases ok with
    | false =>
      simp only [Bool.false_eq_true, if_false, wp_throw]
    | true =>
      have hc : counts t4 = counts (t2.setValid ip true) := h4 rfl
      have hic : t4.icache = (t2.setValid ip true).icache := congrArg Prod.fst hc
      simp only [if_true, wp_bind, wp_pure]
      refine wp_mono (iput_refs (by
        rw [hic, Fs.setValid_ref]
        exact href1.trans_le (h2.le dp))) ?_
      rintro - t5 ⟨h5, hf5⟩ -
      have hrefs4 := refs_of_counts hc
      have hrefs2 := h2.refs
      rw [refs_setValid] at hrefs4
      refine ⟨by omega, ?_⟩
      rw [hf5, hc]
      exact h2.files

/-! ### Every page that goes out -/

/-- Entries of the file table in use. -/
def Fs.used (s : Fs) : ℕ := ∑ f, if (s.ftable f).ref = 0 then 0 else 1

theorem used_le (s : Fs) : s.used ≤ NFILE := by
  have hle : s.used ≤ ∑ _ : Fin NFILE, 1 := Finset.sum_le_sum fun f _ => by
    split_ifs
    · exact Nat.zero_le 1
    · exact le_rfl
  rwa [Finset.sum_const, Finset.card_univ, Fintype.card_fin, smul_eq_mul, mul_one] at hle

theorem used_of_files (h : (counts t).2 = (counts s).2) : t.used = s.used := by
  have hf : ∀ f, (t.ftable f).ref = (s.ftable f).ref := congrFun h
  unfold Fs.used
  simp only [hf]

/-- References held in the file table. -/
def Fs.opens (s : Fs) : ℕ := ∑ f, (s.ftable f).ref

theorem opens_of_files (h : (counts t).2 = (counts s).2) : t.opens = s.opens := by
  have hf : ∀ f, (t.ftable f).ref = (s.ftable f).ref := congrFun h
  unfold Fs.opens
  simp only [hf]

/-- `createSwapFile` takes an inode reference and a free entry of the file table. -/
theorem createSwapFile_takes (pid x : ℕ) (s : Fs) : wp (createSwapFile E pid x) (fun _ t =>
    t.refs = s.refs + 1 ∧ t.opens = s.opens + 1 ∧ t.used = s.used + 1) s := by
  unfold createSwapFile
  rw [wp_bind]
  refine wp_mono (create_refs _ s) fun r t hr => ?_
  cases r with
  | none =>
    rw [wp_throw]
    trivial
  | some ip =>
    obtain ⟨hrefs, hfiles⟩ := hr (Option.some_ne_none ip)
    rw [wp_bind]
    apply wp_filealloc
    · rw [wp_throw]
      trivial
    · intro f (hfree : (t.ftable f).ref = 0)
      simp only [wp_bind, wp_modify, wp_pure]
      set u := (Ftable.take t f).setFile f
        ⟨.FD_INODE, ((Ftable.take t f).ftable f).ref, 1, 2, ip, 0⟩ with hu
      have htake : (Ftable.take t f).ftable = Function.update t.ftable f { t.ftable f with ref := 1 } :=
        rfl
      have hft : u.ftable = Function.update t.ftable f ⟨.FD_INODE, 1, 1, 2, ip, 0⟩ := by
        simp only [hu, Fs.setFile_ftable, htake, Function.update_self, Function.update_idem]
      have hopens : u.opens = t.opens + 1 := by
        have h := sum_update t.ftable (·.ref) f ⟨.FD_INODE, 1, 1, 2, ip, 0⟩
        unfold Fs.opens
        rw [hft]
        simpa only [hfree, Nat.add_zero] using h
      have hused : u.used = t.used + 1 := by
        have h := sum_update t.ftable (fun x => if x.ref = 0 then 0 else 1) f
          ⟨.FD_INODE, 1, 1, 2, ip, 0⟩
        unfold Fs.used
        rw [hft]
        simpa only [hfree, if_true, Nat.one_ne_zero, if_false, Nat.add_zero] using h
      rw [hopens, hused, opens_of_files hfiles, used_of_files hfiles]
      exact ⟨hrefs, rfl, rfl⟩

theorem swapPageFromPte_takes (cache : Fin 8 → BufHeader) (pg : Fin 8 → Data) (pid x : ℕ) (s : Fs) :
    wp (swapPageFromPte E cache pg pid x) (fun _ t =>
      t.refs = s.refs + 1 ∧ t.opens = s.opens + 1 ∧ t.used = s.used + 1) s := by
  unfold swapPageFromPte writePageToDisk
  simp only [wp_bind, wp_pure]
  refine wp_mono (ballocPage_counts s) fun blk t ht => ?_
  refine wp_mono (createSwapFile_takes pid x t) ?_
  rintro f u ⟨hr, ho, hu⟩
  refine wp_mono (writeParts_counts cache f pg blk _ u) fun _ v hv => ?_
  have hfu := congrArg Prod.snd ht
  have hfv := congrArg Prod.snd hv
  rw [refs_of_counts hv, opens_of_files hfv, used_of_files hfv, hr, ho, hu, refs_of_counts ht,
    opens_of_files hfu, used_of_files hfu]
  exact ⟨rfl, rfl, rfl⟩

/-- A page with its name, and the headers of the buffers it goes through. -/
structure Swap where
  cache : Fin 8 → BufHeader
  pg : Fin 8 → Data
  pid : ℕ
  x : ℕ

/-- Pages that are swapped out, each brought back before the next. -/
def swaps (E : Env) : List Swap → F Unit
  | [] => pure ()
  | a :: as => do
    let blk ← swapPageFromPte E a.cache a.pg a.pid a.x
    swapIn blk
    swaps E as

theorem swaps_take (l : List Swap) (s : Fs) :
    wp (swaps E l) (fun _ t => t.used = s.used + l.length) s := by
  induction l generalizing s with
  | nil =>
    rw [swaps, wp_pure, List.length_nil, Nat.add_zero]
  | cons a l ih =>
    unfold swaps
    rw [wp_bind]
    refine wp_mono (swapPageFromPte_takes a.cache a.pg a.pid a.x s) ?_
    rintro blk t ⟨-, -, ht⟩
    rw [wp_bind]
    refine wp_mono (bfreeAll_counts _ t) fun _ u hu => ?_
    refine wp_mono (ih u) fun _ v hv => ?_
    rw [hv, used_of_files (congrArg Prod.snd hu), ht, List.length_cons]
    omega

/-- The multisets of the reference counts of the two tables. -/
def Fs.fileRefs (s : Fs) : Multiset ℕ := Finset.univ.val.map fun f => (s.ftable f).ref
def Fs.inodeRefs (s : Fs) : Multiset ℕ := Finset.univ.val.map fun j => (s.icache j).ref

theorem sum_fileRefs (s : Fs) : s.fileRefs.sum = s.opens := by
  rw [Fs.fileRefs, Fs.opens, Finset.sum_eq_multiset_sum]

theorem sum_inodeRefs (s : Fs) : s.inodeRefs.sum = s.refs := by
  rw [Fs.inodeRefs, Fs.refs, Finset.sum_eq_multiset_sum]

/-- In every state a page that is swapped out leaves both multisets changed, and no run
of more swap-outs than the file table has entries completes. -/
theorem swap_leaks (E : Env) (s : Fs) :
    (∀ cache pg pid x, wp (swapPageFromPte E cache pg pid x)
      (fun _ t => t.fileRefs ≠ s.fileRefs ∧ t.inodeRefs ≠ s.inodeRefs) s) ∧
    ∀ l : List Swap, NFILE < l.length → ∀ t, swaps E l s ≠ .ok ((), t) := by
  constructor
  · intro cache pg pid x
    refine wp_mono (swapPageFromPte_takes cache pg pid x s) ?_
    rintro blk t ⟨hr, ho, -⟩
    constructor
    · intro he
      rw [← sum_fileRefs, he, sum_fileRefs] at ho
      omega
    · intro he
      rw [← sum_inodeRefs, he, sum_inodeRefs] at hr
      omega
  · intro l hl t ht
    have hused := swaps_take l s () t ht
    have := used_le t
    omega

/-- The small disk with one free entry in its file table. -/
def crowded : Fs :=
  { demo with ftable := fun f => if f.val < 99 then ⟨.FD_INODE, 1, 1, 1, 0, 0⟩ else ⟨.FD_NONE, 0, 0, 0, 0, 0⟩ }

/-- The second page that is swapped out finds no entry. -/
theorem swap_out_of_files : swaps demoEnv
    [⟨demoCache, fun _ _ => 0#8, 1, 5⟩, ⟨demoCache, fun _ _ => 0#8, 1, 6⟩] crowded =
      .error "no slot for files on store" := by
  have hrun : (match swaps demoEnv
      [⟨demoCache, fun _ _ => 0#8, 1, 5⟩, ⟨demoCache, fun _ _ => 0#8, 1, 6⟩] crowded with
    | .ok _ => false
    | .error e => decide (e = "no slot for files on store")) = true := by
    decide +kernel
  cases h : swaps demoEnv [⟨demoCache, fun _ _ => 0#8, 1, 5⟩, ⟨demoCache, fun _ _ => 0#8, 1, 6⟩] crowded with
  | ok r =>
    rw [h] at hrun
    cases hrun
  | error e =>
    rw [h] at hrun
    rw [of_decide_eq_true hrun]

end Xv6Lab.Files
