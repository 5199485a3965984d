import Xv6Lab.Paging.Owner

/-! What the block allocator, the file layer and the copies between a frame and
its swap blocks do to the disk. None of them touches physical memory or the
process table. -/

namespace Xv6Lab.Paging

open Disk Lib

variable {E : Env} {g : Ghost} {s t u : Kernel} {size : ℕ}

/-- The process table and the global pointers stay. -/
structure SameProc (s t : Kernel) : Prop where
  proc : t.proc = s.proc
  kpgdir : t.kpgdir = s.kpgdir
  initproc : t.initproc = s.initproc
  nextpid : t.nextpid = s.nextpid

/-- Only the disk changes. -/
structure SameMem (s t : Kernel) : Prop extends SameProc s t where
  mem : t.mem = s.mem
  freelist : t.freelist = s.freelist

theorem SameProc.refl (s : Kernel) : SameProc s s := ⟨rfl, rfl, rfl, rfl⟩

theorem SameProc.trans (h : SameProc s t) (h' : SameProc t u) : SameProc s u :=
  ⟨h'.proc.trans h.proc, h'.kpgdir.trans h.kpgdir, h'.initproc.trans h.initproc,
    h'.nextpid.trans h.nextpid⟩

theorem SameMem.refl (s : Kernel) : SameMem s s := ⟨.refl s, rfl, rfl⟩

theorem SameMem.trans (h : SameMem s t) (h' : SameMem t u) : SameMem s u :=
  ⟨h.toSameProc.trans h'.toSameProc, h'.mem.trans h.mem, h'.freelist.trans h.freelist⟩

theorem SameMem.pte (h : SameMem s t) (d v : ℕ) : t.pte d v = s.pte d v := by
  simp only [Kernel.pte, h.mem]

theorem SameMem.setBit (s : Kernel) (b : ℕ) (v : Bool) : SameMem s (s.setBit b v) :=
  ⟨⟨rfl, rfl, rfl, rfl⟩, rfl, rfl⟩

theorem SameMem.setBlock (s : Kernel) (b : ℕ) (data : Block) : SameMem s (s.setBlock b data) :=
  ⟨⟨rfl, rfl, rfl, rfl⟩, rfl, rfl⟩

/-! ### One block -/

theorem balloc_spec (size : ℕ) (s : Kernel) :
    wp (balloc size) (fun b t => s.bit b = false ∧ b < size ∧
      t = (s.setBit b true).setBlock b fun _ => 0#32) s := by
  apply wp_balloc
  exact fun b hfree hlt => ⟨hfree, hlt, rfl⟩

theorem balloc_some {b : ℕ} (h : firstFree s.bit size 0 = some b) :
    balloc size s = .ok (b, (s.setBit b true).setBlock b fun _ => 0#32) := balloc_of_some h

theorem balloc_none (h : firstFree s.bit size 0 = none) :
    balloc size s = .error (.panic "balloc: out of blocks") := balloc_of_none h

/-- The map with the blocks of `l` marked `v`. -/
def markBits (bit : ℕ → Bool) (l : List ℕ) (v : Bool) : ℕ → Bool :=
  fun x => if x ∈ l then v else bit x

theorem bfreeAll_apply (l : List ℕ) (s : Kernel) (hn : l.Nodup) (hb : ∀ b ∈ l, s.bit b = true) :
    bfreeAll l s = .ok ((), { s with bit := markBits s.bit l false }) := by
  induction l generalizing s with
  | nil =>
    have hnil : markBits s.bit [] false = s.bit := by
      funext x
      simp [markBits]
    rw [hnil]
    rfl
  | cons b l ih =>
    rw [List.nodup_cons] at hn
    have h1 : bfree b s = .ok ((), s.setBit b false) := bfree_of_used (hb b (by simp))
    rw [bfreeAll, bind_apply, h1]
    simp only
    rw [ih (s.setBit b false) hn.2 fun x hx => by
      have hne : x ≠ b := fun e => hn.1 (e ▸ hx)
      simpa [hne] using hb x (by simp [hx])]
    congr 2
    simp only [Kernel.setBit, Kernel.mk.injEq, true_and, and_true]
    funext x
    by_cases hx : x = b <;> simp [markBits, hx]

/-! ### A group of eight -/

theorem mem_group {b x : ℕ} : x ∈ group b ↔ b ≤ x ∧ x < b + 8 := by
  simp only [group, List.mem_map, List.mem_range]
  constructor
  · rintro ⟨i, hi, rfl⟩; omega
  · rintro ⟨h1, h2⟩; exact ⟨x - b, by omega, by omega⟩

theorem nodup_group (b : ℕ) : (group b).Nodup :=
  (List.nodup_range).map fun _ _ h => Nat.add_left_cancel h

/-- The blocks tried so far, latest first: all were free, and the first `i` of
the list are consecutive. -/
structure Tried (size : ℕ) (s : Kernel) (i : ℕ) (alloc : List ℕ) (t : Kernel) : Prop where
  mem : SameMem s t
  count : t.numallocblocks = s.numallocblocks
  files : t.files = s.files
  nodup : alloc.Nodup
  free : ∀ b ∈ alloc, s.bit b = false ∧ b < size
  bit : t.bit = markBits s.bit alloc true
  block : ∀ b, s.bit b = true → t.block b = s.block b
  le : i ≤ alloc.length
  next : ∀ k, k + 1 < i → alloc[k]? = alloc[k + 1]?.map (· + 1)

theorem Tried.start (size : ℕ) (s : Kernel) : Tried size s 0 [] s where
  mem := .refl s
  count := rfl
  files := rfl
  nodup := List.nodup_nil
  free := by simp
  bit := by funext x; simp [markBits]
  block _ _ := rfl
  le := le_rfl
  next := by simp

theorem runIndex_le (i b : ℕ) (alloc : List ℕ) : runIndex i b alloc ≤ i := by
  unfold runIndex
  split
  · split_ifs <;> omega
  · exact le_rfl

/-- `balloc` extends the run by one block, or starts it again. -/
theorem Tried.balloc {i b : ℕ} {alloc : List ℕ} (h : Tried size s i alloc t) (hb : t.bit b = false)
    (hlt : b < size) :
    Tried size s (runIndex i b alloc + 1) (b :: alloc)
      ((t.setBit b true).setBlock b fun _ => 0#32) := by
  have hfree : b ∉ alloc ∧ s.bit b = false := by
    simp only [h.bit, markBits] at hb
    split_ifs at hb with hm
    exact ⟨hm, hb⟩
  have hi := h.le
  refine ⟨h.mem.trans ((SameMem.setBit _ _ _).trans (SameMem.setBlock _ _ _)), h.count, h.files,
    List.nodup_cons.2 ⟨hfree.1, h.nodup⟩, ?_, ?_, ?_, ?_, ?_⟩
  · intro x hx
    rcases List.mem_cons.1 hx with rfl | hx
    · exact ⟨hfree.2, hlt⟩
    · exact h.free x hx
  · funext x
    by_cases hx : x = b <;> simp [markBits, hx, h.bit]
  · intro x hx
    have hne : x ≠ b := by rintro rfl; rw [hfree.2] at hx; cases hx
    simpa [hne] using h.block x hx
  · have := runIndex_le i b alloc
    simp only [List.length_cons]
    omega
  · intro k hk
    cases alloc with
    | nil =>
      simp only [List.length_nil, Nat.le_zero] at hi
      rw [runIndex] at hk
      omega
    | cons prev rest =>
      rw [runIndex] at hk
      split_ifs at hk with hc
      · omega
      · cases k with
        | zero =>
          have : b = prev + 1 := by
            by_contra hne; exact hc ⟨by omega, hne⟩
          simp [this]
        | succ k =>
          rw [List.getElem?_cons_succ, List.getElem?_cons_succ]
          exact h.next k (by omega)

theorem ballocPageLoop_spec (fuel i : ℕ) (alloc : List ℕ) (t : Kernel)
    (h : Tried size s i alloc t) :
    wp (ballocPageLoop size fuel i alloc) (fun l u => Tried size s 8 l u ∨ 8 < i) t := by
  induction fuel generalizing i alloc t with
  | zero => simp [ballocPageLoop]
  | succ fuel ih =>
    rw [ballocPageLoop]
    split_ifs with hi
    · rw [wp_bind]
      refine wp_mono (balloc_spec size t) ?_
      rintro b u ⟨hb, hlt, rfl⟩
      refine wp_mono (ih _ _ _ (h.balloc hb hlt)) ?_
      rintro l u (hr | hgt)
      · exact .inl hr
      · have := runIndex_le i b alloc
        omega
    · rw [wp_pure]
      rcases Nat.lt_or_ge 8 i with h8 | h8
      · exact .inr h8
      · obtain rfl : i = 8 := by omega
        exact .inl h

/-- The first eight blocks of a finished run are a group. -/
theorem Tried.group {alloc : List ℕ} (h : Tried size s 8 alloc t) :
    (alloc.take 8).Perm (group (alloc.getD 7 0)) := by
  have hle := h.le
  obtain ⟨b, hb⟩ : ∃ b, alloc[7]? = some b := ⟨alloc[7], List.getElem?_eq_getElem (by omega)⟩
  have hk : ∀ k, k ≤ 7 → alloc[7 - k]? = some (b + k) := by
    intro k hk
    induction k with
    | zero => simpa using hb
    | succ k ih =>
      have := h.next (7 - (k + 1)) (by omega)
      rw [show 7 - (k + 1) + 1 = 7 - k by omega, ih (by omega)] at this
      rw [this]
      rfl
  have hrev : alloc.take 8 = (Paging.group b).reverse := by
    apply List.ext_getElem?
    intro k
    rcases Nat.lt_or_ge k 8 with h8 | h8
    · rw [List.getElem?_take_of_lt h8, List.getElem?_reverse (by simpa [Paging.group] using h8)]
      have := hk (7 - k) (by omega)
      rw [show 7 - (7 - k) = k by omega] at this
      rw [this]
      simp [Paging.group, show 8 - 1 - k < 8 by omega]
    · rw [List.getElem?_eq_none (by simp; omega), List.getElem?_eq_none (by simpa [Paging.group] using h8)]
  have hget : alloc.getD 7 0 = b := by simp [List.getD, hb]
  rw [hget, hrev]
  exact List.reverse_perm _

/-- The blocks before the last eight can be freed. -/
theorem Tried.bfreeAll {i : ℕ} {alloc : List ℕ} (h : Tried size s i alloc t) :
    bfreeAll (alloc.drop 8).reverse t =
      .ok ((), { t with bit := markBits t.bit (alloc.drop 8).reverse false }) := by
  apply bfreeAll_apply
  · exact List.nodup_reverse.2 (h.nodup.sublist (List.drop_sublist 8 alloc))
  · intro x hx
    simp [h.bit, markBits, List.mem_of_mem_drop (List.mem_reverse.1 hx)]

/-- `balloc_page` marks one group of free blocks and leaves every block in use alone. -/
structure TookGroup (size : ℕ) (s : Kernel) (b : ℕ) (t : Kernel) : Prop where
  mem : SameMem s t
  count : t.numallocblocks = s.numallocblocks + 1
  files : t.files = s.files
  free : ∀ x ∈ group b, s.bit x = false ∧ x < size
  bit : t.bit = markBits s.bit (group b) true
  block : ∀ x, s.bit x = true → t.block x = s.block x

theorem ballocPage_spec (size : ℕ) (s : Kernel) : wp (ballocPage size) (TookGroup size s) s := by
  simp only [ballocPage, wp_bind]
  refine wp_mono (ballocPageLoop_spec _ 0 [] s (Tried.start size s)) ?_
  rintro alloc t (h | h)
  swap
  · omega
  have hperm := h.group
  have hsplit : alloc.take 8 ++ alloc.drop 8 = alloc := List.take_append_drop 8 alloc
  have hnd : (alloc.take 8 ++ alloc.drop 8).Nodup := hsplit.symm ▸ h.nodup
  rw [List.nodup_append] at hnd
  have hdrop : ∀ x ∈ alloc.drop 8, x ∈ alloc := fun x hx => List.mem_of_mem_drop hx
  have hfree := h.bfreeAll
  refine wp_of_eq hfree ?_
  rw [wp_modify, wp_pure]
  have hmem : ∀ x, x ∈ alloc ↔ x ∈ group (alloc.getD 7 0) ∨ x ∈ alloc.drop 8 := fun x => by
    rw [← hperm.mem_iff, ← List.mem_append, hsplit]
  refine ⟨⟨⟨h.mem.proc, h.mem.kpgdir, h.mem.initproc, h.mem.nextpid⟩, h.mem.mem, h.mem.freelist⟩,
    by simp [h.count], h.files, fun x hx => h.free x ((hmem x).2 (.inl hx)), ?_, h.block⟩
  funext x
  simp only [markBits, List.mem_reverse, h.bit]
  by_cases hx : x ∈ alloc.drop 8
  · have hng : x ∉ group (alloc.getD 7 0) := fun hg =>
      hnd.2.2 x (hperm.mem_iff.2 hg) x hx rfl
    rw [if_pos hx, if_neg hng, (h.free x (hdrop x hx)).1]
  · simp [hx, hmem x]

/-- `bfree_page` of a group that is in use. -/
theorem bfreePage_apply {s : Kernel} {b : ℕ} (h : ∀ x ∈ group b, s.bit x = true) :
    bfreePage b s = .ok ((), { s with
      bit := markBits s.bit (group b) false, numallocblocks := s.numallocblocks - 1 }) := by
  rw [bfreePage, bind_apply, bfreeAll_apply _ _ (nodup_group b) h]
  rfl

/-! ### The file layer -/

/-- File operations move blocks between free and file; what the swap area owns stays. -/
structure FileStep (E : Env) (g : Ghost) (s : Kernel) (g' : Ghost) (t : Kernel) : Prop where
  base : Base E g' t
  mem : SameMem s t
  count : t.numallocblocks = s.numallocblocks
  frame : g'.frame = g.frame
  loose : ∀ b, g.block b = .loose → g'.block b = .loose ∧ t.block b = s.block b
  swap : ∀ b d v, g.block b = .swap d v → g'.block b = .swap d v ∧ t.block b = s.block b

theorem FileStep.refl (h : Base E g s) : FileStep E g s g s :=
  ⟨h, .refl s, rfl, rfl, fun _ hb => ⟨hb, rfl⟩, fun _ _ _ hb => ⟨hb, rfl⟩⟩

theorem FileStep.trans {g' g'' : Ghost} (h : FileStep E g s g' t) (h' : FileStep E g' t g'' u) :
    FileStep E g s g'' u where
  base := h'.base
  mem := h.mem.trans h'.mem
  count := h'.count.trans h.count
  frame := h'.frame.trans h.frame
  loose b hb := by
    obtain ⟨h1, h2⟩ := h.loose b hb
    obtain ⟨h3, h4⟩ := h'.loose b h1
    exact ⟨h3, h4.trans h2⟩
  swap b d v hb := by
    obtain ⟨h1, h2⟩ := h.swap b d v hb
    obtain ⟨h3, h4⟩ := h'.swap b d v h1
    exact ⟨h3, h4.trans h2⟩

def Ghost.setBlock (g : Ghost) (b : ℕ) (o : BOwner) : Ghost :=
  { g with block := Function.update g.block b o }

theorem fileAct_spec (h : Base E g s) (a : FileAct) :
    wp (fileAct E a) (fun _ t => ∃ g', FileStep E g s g' t) s := by
  cases a with
  | balloc =>
    simp only [fileAct, wp_bind]
    refine wp_mono (balloc_spec E.size s) ?_
    rintro b t ⟨hb, -, rfl⟩
    rw [wp_modify]
    have hgb : g.block b = .free := by
      by_contra hne
      rw [h.used b hne] at hb; cases hb
    refine ⟨g.setBlock b .file, ⟨⟨h.nodup, h.free, h.range, ?_, ?_, ?_, ?_⟩,
      ⟨⟨rfl, rfl, rfl, rfl⟩, rfl, rfl⟩, rfl, rfl, ?_, ?_⟩⟩
    · intro x hx
      by_cases hxb : x = b
      · simp [hxb]
      · simpa [hxb] using h.used x (by simpa [Ghost.setBlock, hxb] using hx)
    · intro x
      by_cases hxb : x = b
      · simp [Ghost.setBlock, hxb]
      · simp [Ghost.setBlock, hxb, h.files x]
    · refine List.nodup_cons.2 ⟨fun hm => ?_, h.filesNodup⟩
      rw [Kernel.setBlock_files, Kernel.setBit_files, h.files, hgb] at hm
      cases hm
    · intro x hx
      have hxb : x ≠ b := by rintro rfl; rw [h.sys x hx] at hgb; cases hgb
      simpa [Ghost.setBlock, hxb] using h.sys x hx
    · intro x hx
      have hxb : x ≠ b := by rintro rfl; rw [hx] at hgb; cases hgb
      simp [Ghost.setBlock, hxb, hx]
    · intro x d v hx
      have hxb : x ≠ b := by rintro rfl; rw [hx] at hgb; cases hgb
      simp [Ghost.setBlock, hxb, hx]
  | bfree b =>
    simp only [fileAct, wp_bind, wp_get]
    split_ifs with hb
    · simp only [wp_bind, wp_modify]
      have hgb := (h.files b).1 hb
      have hbit : bfree b { s with files := s.files.erase b } =
          .ok ((), { s with files := s.files.erase b }.setBit b false) :=
        bfree_of_used (h.used b (by rw [hgb]; simp))
      refine wp_of_eq hbit ⟨g.setBlock b .free, ⟨⟨h.nodup, h.free, h.range, ?_, ?_, ?_, ?_⟩,
        ⟨⟨rfl, rfl, rfl, rfl⟩, rfl, rfl⟩, rfl, rfl, ?_, ?_⟩⟩
      · intro x hx
        have hxb : x ≠ b := by rintro rfl; simp [Ghost.setBlock] at hx
        simpa [hxb] using h.used x (by simpa [Ghost.setBlock, hxb] using hx)
      · intro x
        rw [Kernel.setBit_files, h.filesNodup.mem_erase_iff, h.files x]
        by_cases hxb : x = b <;> simp [Ghost.setBlock, hxb]
      · exact h.filesNodup.erase b
      · intro x hx
        have hxb : x ≠ b := by rintro rfl; rw [h.sys x hx] at hgb; cases hgb
        simpa [Ghost.setBlock, hxb] using h.sys x hx
      · intro x hx
        have hxb : x ≠ b := by rintro rfl; rw [hx] at hgb; cases hgb
        simp [Ghost.setBlock, hxb, hx]
      · intro x d v hx
        have hxb : x ≠ b := by rintro rfl; rw [hx] at hgb; cases hgb
        simp [Ghost.setBlock, hxb, hx]
    · simp
  | write b data =>
    simp only [fileAct, wp_bind, wp_get]
    split_ifs with hb
    · rw [wp_modify]
      have hgb : g.block b = .file ∨ g.block b = .sys :=
        hb.imp (fun hm => (h.files b).1 hm) fun hlt => h.sys b hlt
      refine ⟨g, ⟨⟨h.nodup, h.free, h.range, h.used, h.files, h.filesNodup, h.sys⟩,
        SameMem.setBlock _ _ _, rfl, rfl, ?_, ?_⟩⟩
      · intro x hx
        have hxb : x ≠ b := by rintro rfl; rw [hx] at hgb; simp at hgb
        simp [hx, hxb]
      · intro x d v hx
        have hxb : x ≠ b := by rintro rfl; rw [hx] at hgb; simp at hgb
        simp [hx, hxb]
    · simp

theorem fileActs_spec (as : List FileAct) (h : Base E g s) :
    wp (fileActs E as) (fun _ t => ∃ g', FileStep E g s g' t) s := by
  induction as generalizing g s with
  | nil =>
    rw [fileActs, wp_pure]
    exact ⟨g, .refl h⟩
  | cons a as ih =>
    rw [fileActs, wp_bind]
    refine wp_mono (fileAct_spec h a) ?_
    rintro - t ⟨g', h'⟩
    refine wp_mono (ih h'.base) ?_
    rintro - u ⟨g'', h''⟩
    exact ⟨g'', h'.trans h''⟩

theorem fileLayer_spec (h : Base E g s) (c : FsCall) :
    wp (fileLayer E c) (fun _ t => ∃ g', FileStep E g s g' t) s := by
  simp only [fileLayer, wp_bind, wp_get]
  exact fileActs_spec _ h

/-! ### A page on disk -/

/-- A page written to disk: the group keeps its owner and reads back as the page. -/
structure WroteGroup (E : Env) (g : Ghost) (s : Kernel) (blk : ℕ) (g' : Ghost) (t : Kernel) :
    Prop where
  base : Base E g' t
  mem : SameMem s t
  count : t.numallocblocks = s.numallocblocks
  frame : g'.frame = g.frame
  loose : ∀ b ∈ group blk, g'.block b = .loose
  swap : ∀ b d v, g.block b = .swap d v → g'.block b = .swap d v ∧ t.block b = s.block b

theorem Base.setBlock {b : ℕ} (data : Block) (h : Base E g s) : Base E g (s.setBlock b data) :=
  ⟨h.nodup, h.free, h.range, h.used, h.files, h.filesNodup, h.sys⟩

theorem writeParts_spec {frame blk : ℕ} (ps : List (Fin 8)) (h : Base E g s)
    (hl : ∀ b ∈ group blk, g.block b = .loose) :
    wp (writeParts E frame blk ps) (fun _ t => ∃ g', WroteGroup E g s blk g' t ∧
      ∀ i : Fin 8, (i ∈ ps ∨ s.block (blk + i) = part (s.mem frame) i) →
        t.block (blk + i) = part (s.mem frame) i) s := by
  induction ps generalizing g s with
  | nil =>
    rw [writeParts, wp_pure]
    exact ⟨g, ⟨h, .refl s, rfl, rfl, hl, fun b d v hb => ⟨hb, rfl⟩⟩, by simp⟩
  | cons i ps ih =>
    simp only [writeParts, wp_bind, wp_get]
    refine wp_mono (fileLayer_spec h _) ?_
    rintro - t ⟨g1, h1⟩
    simp only [wp_modify]
    have hl1 : ∀ b ∈ group blk, g1.block b = .loose := fun b hb => (h1.loose b (hl b hb)).1
    refine wp_mono (ih (h1.base.setBlock _) hl1) ?_
    rintro - u ⟨g2, h2, hps⟩
    have hmem : (t.setBlock (blk + i) (part (s.mem frame) i)).mem = s.mem := h1.mem.mem
    refine ⟨g2, ⟨h2.base, h1.mem.trans ((SameMem.setBlock _ _ _).trans h2.mem),
      h2.count.trans h1.count, h2.frame.trans h1.frame, h2.loose, ?_⟩, ?_⟩
    · intro b d v hb
      obtain ⟨ha, hb'⟩ := h1.swap b d v hb
      obtain ⟨hc, hd⟩ := h2.swap b d v ha
      have hne : b ≠ blk + i := by
        rintro rfl
        rw [hl _ (mem_group.2 ⟨by omega, by omega⟩)] at hb; cases hb
      exact ⟨hc, by rw [hd]; simpa [hne] using hb'⟩
    · intro j hj
      rw [hmem] at hps
      refine hps j ?_
      by_cases hji : j = i
      · subst hji; simp
      · have hne : blk + j.val ≠ blk + i.val := fun e => hji (Fin.ext (by omega))
        rcases hj with hj | hj
        · exact .inl ((List.mem_cons.1 hj).resolve_left hji)
        · refine .inr ?_
          simp only [Kernel.setBlock_block, Function.update_of_ne hne]
          rw [(h1.loose _ (hl _ (mem_group.2 ⟨by omega, by omega⟩))).2, hj]

/-- The parts of a page read back as the page. -/
theorem readPage_of_parts {blk : ℕ} {p : Page}
    (h : ∀ i : Fin 8, t.block (blk + i) = part p i) : t.readPage blk = p := by
  funext k
  have := h ⟨k.val / 128, by omega⟩
  simp only at this
  rw [Kernel.readPage, this, part]
  congr 1
  apply Fin.ext
  simp only
  omega

theorem writePageToDisk_spec {frame blk pid pfn : ℕ} (h : Base E g s)
    (hl : ∀ b ∈ group blk, g.block b = .loose) :
    wp (writePageToDisk E frame blk pid pfn)
      (fun _ t => ∃ g', WroteGroup E g s blk g' t ∧ t.readPage blk = s.mem frame) s := by
  rw [writePageToDisk, wp_bind]
  refine wp_mono (fileLayer_spec h _) ?_
  rintro - t ⟨g1, h1⟩
  refine wp_mono (writeParts_spec _ h1.base fun b hb => (h1.loose b (hl b hb)).1) ?_
  rintro - u ⟨g2, h2, hps⟩
  refine ⟨g2, ⟨h2.base, h1.mem.trans h2.mem, h2.count.trans h1.count, h2.frame.trans h1.frame,
    h2.loose, fun b d v hb => ?_⟩, ?_⟩
  · obtain ⟨ha, hb'⟩ := h1.swap b d v hb
    obtain ⟨hc, hd⟩ := h2.swap b d v ha
    exact ⟨hc, hd.trans hb'⟩
  · rw [h1.mem.mem] at hps
    exact readPage_of_parts fun i => hps i (.inl (List.mem_finRange i))

end Xv6Lab.Paging
