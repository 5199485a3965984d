import Mathlib.Data.List.Intervals
import Xv6Lab.Paging.Drain

/-! What `deallocuvm` and `freevm` give back, counted: the frames that they hand to `kfree` and the
groups that they hand to `bfree_page`. -/

namespace Xv6Lab.Paging

open Lib

variable {E : Env} {g : Ghost} {s t u : Kernel} {d f lo mid hi v : ℕ}

/-- The entry is that of a resident page. An entry with the flag `PTE_SWAPPED` names blocks. -/
def held (w : Word) : Bool := present w && !swapped w

/-- The frames of the resident pages from `lo` up to `hi`. -/
def Kernel.framesIn (s : Kernel) (d lo hi : ℕ) : List ℕ :=
  ((List.Ico lo hi).filter fun v => held (s.pte d v)).map fun v => PTE_ADDR (s.pte d v)

/-- The swap groups of the pages from `lo` up to `hi`. -/
def Kernel.groupsIn (s : Kernel) (d lo hi : ℕ) : List ℕ :=
  ((List.Ico lo hi).filter fun v => swapped (s.pte d v)).map fun v => PTE_ADDR (s.pte d v)

/-- The page tables of both halves. -/
def Kernel.tablesOf (s : Kernel) (d : ℕ) : List ℕ :=
  ((List.finRange 1024).filter fun i => present (s.mem d i)).map fun i => PTE_ADDR (s.mem d i)

/-- The blocks of some groups. -/
def blocksOf (groups : List ℕ) : List ℕ := groups.flatMap group

/-- The frames and the swap groups of the pages from `lo` up to `hi` are allocated, and no two of
them are the same, nor a frame one of the page tables. -/
structure Owns (E : Env) (s : Kernel) (d lo hi : ℕ) : Prop where
  apart : (d :: (s.tablesOf d ++ s.framesIn d lo hi)).Nodup
  range : ∀ f ∈ s.framesIn d lo hi, E.kend ≤ f ∧ f < NFRAMES
  blocks : (blocksOf (s.groupsIn d lo hi)).Nodup
  used : ∀ b ∈ blocksOf (s.groupsIn d lo hi), s.bit b = true

/-- What has changed when the pages from `lo` up to `hi` have been given back. -/
structure Released (s : Kernel) (d lo hi : ℕ) (t : Kernel) : Prop where
  freelist : t.freelist.Perm (s.framesIn d lo hi ++ s.freelist)
  bit : t.bit = markBits s.bit (blocksOf (s.groupsIn d lo hi)) false
  count : t.numallocblocks = s.numallocblocks - (s.groupsIn d lo hi).length
  dir : t.mem d = s.mem d
  pte : ∀ v < 2 ^ 20, t.pte d v =
    if lo ≤ v ∧ v < hi ∧ held (s.pte d v) = true then 0#32 else s.pte d v

theorem tablesOf_congr (h : t.mem d = s.mem d) : t.tablesOf d = s.tablesOf d := by
  unfold Kernel.tablesOf
  rw [h]

theorem mem_tablesOf : f ∈ s.tablesOf d ↔
    ∃ i, present (s.mem d i) = true ∧ PTE_ADDR (s.mem d i) = f := by
  simp [Kernel.tablesOf]

theorem mem_framesIn : f ∈ s.framesIn d lo hi ↔
    ∃ v, lo ≤ v ∧ v < hi ∧ held (s.pte d v) = true ∧ PTE_ADDR (s.pte d v) = f := by
  simp [Kernel.framesIn, and_assoc]

theorem mem_blocksOf_groupsIn {b : ℕ} : b ∈ blocksOf (s.groupsIn d lo hi) ↔
    ∃ v, lo ≤ v ∧ v < hi ∧ swapped (s.pte d v) = true ∧ b ∈ group (PTE_ADDR (s.pte d v)) := by
  simp [blocksOf, Kernel.groupsIn, and_assoc]

theorem framesIn_congr (h : ∀ v, lo ≤ v → v < hi → t.pte d v = s.pte d v) :
    t.framesIn d lo hi = s.framesIn d lo hi := by
  unfold Kernel.framesIn
  rw [List.filter_congr fun v hv => by rw [h v (List.Ico.mem.1 hv).1 (List.Ico.mem.1 hv).2]]
  apply List.map_congr_left
  intro v hv
  have hm := List.Ico.mem.1 (List.mem_filter.1 hv).1
  rw [h v hm.1 hm.2]

theorem groupsIn_congr (h : ∀ v, lo ≤ v → v < hi → t.pte d v = s.pte d v) :
    t.groupsIn d lo hi = s.groupsIn d lo hi := by
  unfold Kernel.groupsIn
  rw [List.filter_congr fun v hv => by rw [h v (List.Ico.mem.1 hv).1 (List.Ico.mem.1 hv).2]]
  apply List.map_congr_left
  intro v hv
  have hm := List.Ico.mem.1 (List.mem_filter.1 hv).1
  rw [h v hm.1 hm.2]

theorem framesIn_append (h1 : lo ≤ mid) (h2 : mid ≤ hi) :
    s.framesIn d lo mid ++ s.framesIn d mid hi = s.framesIn d lo hi := by
  unfold Kernel.framesIn
  rw [← List.map_append, ← List.filter_append, List.Ico.append_consecutive h1 h2]

theorem groupsIn_append (h1 : lo ≤ mid) (h2 : mid ≤ hi) :
    s.groupsIn d lo mid ++ s.groupsIn d mid hi = s.groupsIn d lo hi := by
  unfold Kernel.groupsIn
  rw [← List.map_append, ← List.filter_append, List.Ico.append_consecutive h1 h2]

theorem blocksOf_append (l l' : List ℕ) : blocksOf (l ++ l') = blocksOf l ++ blocksOf l' :=
  List.flatMap_append

theorem framesIn_nil (h : ∀ v, lo ≤ v → v < hi → held (s.pte d v) = false) :
    s.framesIn d lo hi = [] := by
  unfold Kernel.framesIn
  rw [List.map_eq_nil_iff, List.filter_eq_nil_iff]
  intro v hv
  rw [h v (List.Ico.mem.1 hv).1 (List.Ico.mem.1 hv).2]
  simp

theorem groupsIn_nil (h : ∀ v, lo ≤ v → v < hi → swapped (s.pte d v) = false) :
    s.groupsIn d lo hi = [] := by
  unfold Kernel.groupsIn
  rw [List.map_eq_nil_iff, List.filter_eq_nil_iff]
  intro v hv
  rw [h v (List.Ico.mem.1 hv).1 (List.Ico.mem.1 hv).2]
  simp

theorem framesIn_one (h : held (s.pte d v) = true) :
    s.framesIn d v (v + 1) = [PTE_ADDR (s.pte d v)] := by
  unfold Kernel.framesIn
  rw [List.Ico.succ_singleton, List.filter_singleton, h]
  rfl

theorem groupsIn_one (h : swapped (s.pte d v) = true) :
    s.groupsIn d v (v + 1) = [PTE_ADDR (s.pte d v)] := by
  unfold Kernel.groupsIn
  rw [List.Ico.succ_singleton, List.filter_singleton, h]
  rfl

theorem markBits_append (bit : ℕ → Bool) (l l' : List ℕ) (b : Bool) :
    markBits (markBits bit l b) l' b = markBits bit (l ++ l') b := by
  funext x
  by_cases h : x ∈ l
  · simp [markBits, h]
  · simp [markBits, h]

namespace Owns

/-- The rest of the range still owns what it names. -/
theorem rest (h : Owns E s d lo hi) (h1 : lo ≤ mid) (h2 : mid ≤ hi) (ht : Released s d lo mid t)
    (hhi : hi ≤ 2 ^ 20) : Owns E t d mid hi := by
  have hpte : ∀ v, mid ≤ v → v < hi → t.pte d v = s.pte d v := by
    intro v h3 h4
    rw [ht.pte v (by omega), if_neg (by omega)]
  have hapart := h.apart
  rw [← framesIn_append h1 h2, ← List.append_assoc] at hapart
  have hblocks := h.blocks
  rw [← groupsIn_append h1 h2, blocksOf_append] at hblocks
  constructor
  · rw [tablesOf_congr ht.dir, framesIn_congr hpte]
    refine List.Nodup.sublist ?_ hapart
    exact ((List.sublist_append_left _ _).append_right _).cons_cons _
  · intro f hf
    rw [framesIn_congr hpte] at hf
    apply h.range
    rw [← framesIn_append h1 h2]
    exact List.mem_append_right _ hf
  · rw [groupsIn_congr hpte]
    exact hblocks.of_append_right
  · intro b hb
    rw [groupsIn_congr hpte] at hb
    rw [ht.bit, markBits, if_neg fun hm => List.disjoint_of_nodup_append hblocks hm hb]
    apply h.used
    rw [← groupsIn_append h1 h2, blocksOf_append]
    exact List.mem_append_right _ hb

end Owns

namespace Released

theorem trans (h : Released s d lo mid t) (h' : Released t d mid hi u) (h1 : lo ≤ mid)
    (h2 : mid ≤ hi) (hhi : hi ≤ 2 ^ 20) : Released s d lo hi u := by
  have hpte : ∀ v, mid ≤ v → v < hi → t.pte d v = s.pte d v := by
    intro v h3 h4
    rw [h.pte v (by omega), if_neg (by omega)]
  constructor
  · calc u.freelist.Perm (t.framesIn d mid hi ++ t.freelist) := h'.freelist
      _ |>.Perm (t.framesIn d mid hi ++ (s.framesIn d lo mid ++ s.freelist)) :=
        h.freelist.append_left _
      _ |>.Perm (s.framesIn d lo hi ++ s.freelist) := by
        rw [framesIn_congr hpte, ← framesIn_append h1 h2, ← List.append_assoc]
        exact List.perm_append_comm.append_right _
  · rw [h'.bit, h.bit, markBits_append, groupsIn_congr hpte, ← blocksOf_append, groupsIn_append h1 h2]
  · rw [h'.count, h.count, groupsIn_congr hpte, ← groupsIn_append h1 h2, List.length_append]
    push_cast
    ring
  · exact h'.dir.trans h.dir
  · intro v hv
    rw [h'.pte v hv]
    by_cases hm : mid ≤ v ∧ v < hi
    · rw [hpte v hm.1 hm.2]
      by_cases hh : held (s.pte d v) = true
      · rw [if_pos ⟨hm.1, hm.2, hh⟩, if_pos ⟨by omega, hm.2, hh⟩]
      · rw [if_neg fun hc => hh hc.2.2, if_neg fun hc => hh hc.2.2]
    · rw [if_neg fun hc => hm ⟨hc.1, hc.2.1⟩, h.pte v hv]
      by_cases hc : lo ≤ v ∧ v < mid ∧ held (s.pte d v) = true
      · rw [if_pos hc, if_pos ⟨hc.1, by omega, hc.2.2⟩]
      · rw [if_neg hc, if_neg fun hc' => hc ⟨hc'.1, by omega, hc'.2.2⟩]

/-- Pages with empty entries have nothing to give back. -/
theorem skip (h : ∀ v, lo ≤ v → v < hi → held (s.pte d v) = false ∧ swapped (s.pte d v) = false) :
    Released s d lo hi s := by
  have hframes := framesIn_nil fun v h1 h2 => (h v h1 h2).1
  have hgroups := groupsIn_nil fun v h1 h2 => (h v h1 h2).2
  constructor
  · rw [hframes, List.nil_append]
  · rw [hgroups]
    funext b
    simp [markBits, blocksOf]
  · simp [hgroups]
  · rfl
  · intro v _
    split_ifs with hc
    · rw [(h v hc.1 hc.2.1).1] at hc
      cases hc.2.2
    · rfl

theorem one_swapped (h : swapped (s.pte d v) = true) :
    Released s d v (v + 1) (s.bfreed (PTE_ADDR (s.pte d v))) := by
  have hheld : held (s.pte d v) = false := by simp [held, h]
  have hframes : s.framesIn d v (v + 1) = [] := framesIn_nil fun v' h1 h2 => by
    obtain rfl : v' = v := by omega
    exact hheld
  constructor
  · rw [hframes]
    rfl
  · rw [groupsIn_one h]
    simp [Kernel.bfreed, blocksOf]
  · rw [groupsIn_one h]
    rfl
  · rfl
  · intro v' _
    rw [if_neg]
    · rfl
    · rintro ⟨h1, h2, h3⟩
      obtain rfl : v' = v := by omega
      rw [hheld] at h3
      cases h3

theorem one_held (ho : Owns E s d v hi) (hv : v < hi) (hhi : hi ≤ 2 ^ 20)
    (h : held (s.pte d v) = true) :
    Released s d v (v + 1)
      ((s.kfreed E (PTE_ADDR (s.pte d v))).setWord (s.ptr d v).1 (s.ptr d v).2 0#32) := by
  have hsw : swapped (s.pte d v) = false := by
    have := h
    simp only [held, Bool.and_eq_true, Bool.not_eq_true'] at this
    exact this.2
  have hp : present (s.pte d v) = true := by
    have := h
    simp only [held, Bool.and_eq_true] at this
    exact this.1
  have htab := present_table_of_entry hp
  set f := PTE_ADDR (s.pte d v) with hf
  have hmem : f ∈ s.framesIn d v hi := mem_framesIn.2 ⟨v, le_rfl, hv, h, rfl⟩
  have hapart := ho.apart
  rw [List.nodup_cons, List.nodup_append] at hapart
  obtain ⟨hd, htabs, -, hdisj⟩ := hapart
  have hdf : d ≠ f := fun e => hd (List.mem_append_right _ (e ▸ hmem))
  have hnt : ∀ i, present (s.mem d i) = true → PTE_ADDR (s.mem d i) ≠ f ∧ PTE_ADDR (s.mem d i) ≠ d :=
    fun i hi => ⟨fun e => hdisj _ (mem_tablesOf.2 ⟨i, hi, rfl⟩) _ hmem e,
      fun e => hd (List.mem_append_left _ (mem_tablesOf.2 ⟨i, hi, e⟩))⟩
  have hgroups : s.groupsIn d v (v + 1) = [] := groupsIn_nil fun v' h1 h2 => by
    obtain rfl : v' = v := by omega
    exact hsw
  have hdir : ((s.kfreed E f).setWord (s.ptr d v).1 (s.ptr d v).2 0#32).mem d = s.mem d := by
    have hdt : d ≠ (s.ptr d v).1 := (hnt _ htab).2.symm
    simp [Kernel.kfreed, hdf, hdt]
  constructor
  · rw [framesIn_one h]
    rfl
  · rw [hgroups]
    funext b
    simp [markBits, blocksOf, Kernel.kfreed]
  · rw [hgroups]
    simp [Kernel.kfreed]
  · exact hdir
  · intro v' hv'
    by_cases htab' : present (s.mem d (pdx v')) = true
    · rw [Kernel.pte_of_present (by rwa [hdir]), hdir]
      by_cases hvv : v' = v
      · subst hvv
        rw [if_pos ⟨le_rfl, by omega, h⟩]
        simp [Kernel.ptr]
      · rw [if_neg (by omega), Kernel.pte_of_present htab']
        have hne := (hnt _ htab').1
        by_cases hpd : PTE_ADDR (s.mem d (pdx v')) = (s.ptr d v).1
        · -- the same table, and so another place in it
          have hpdx : pdx v' = pdx v := List.inj_on_of_nodup_map htabs
            (by simpa using htab') (by simpa using htab) hpd
          have hptx : ptx v' ≠ ptx v := fun e => hvv (page_eq_of_index hv' (by omega) hpdx e)
          have hptx' : ptx v' ≠ (s.ptr d v).2 := hptx
          rw [hpd] at hne ⊢
          simp only [Kernel.setWord_mem, Function.update_self, Function.update_of_ne hptx',
            Kernel.kfreed, Kernel.setFrame_mem]
          rw [Function.update_of_ne hne]
        · simp [Kernel.kfreed, hpd, hne]
    · have htab'' : present (s.mem d (pdx v')) = false := by simpa using htab'
      rw [Kernel.pte_of_not_present (by rwa [hdir]), Kernel.pte_of_not_present htab'', ite_self]

end Released

/-- The loop of `deallocuvm` returns and gives back the pages of its range. -/
theorem deallocuvmLoop_release (fuel v : ℕ) (hle : hi ≤ fuel + v) (hhi : hi ≤ 2 ^ 20)
    (ho : Owns E s d v hi) (h0 : 0 < E.kend) :
    ∃ t, deallocuvmLoop E d hi fuel v s = .ok ((), t) ∧ Released s d v hi t := by
  induction fuel generalizing v s with
  | zero =>
    exact ⟨s, rfl, .skip fun v' h1 h2 => by omega⟩
  | succ fuel ih =>
    -- one page is done, and the loop goes on
    have next : ∀ {s1 : Kernel}, v < hi → Released s d v (v + 1) s1 →
        ∃ t, deallocuvmLoop E d hi fuel (v + 1) s1 = .ok ((), t) ∧ Released s d v hi t := by
      intro s1 hv h1
      obtain ⟨t, ht, h2⟩ := ih (v + 1) (by omega) (ho.rest (by omega) hv h1 hhi)
      exact ⟨t, ht, h1.trans h2 (by omega) hv hhi⟩
    rw [deallocuvmLoop]
    split_ifs with hv
    swap
    · exact ⟨s, rfl, .skip fun v' h1 h2 => by omega⟩
    rw [bind_apply, get_apply]
    by_cases ht : present (s.mem d (pdx v)) = true
    · simp only [Kernel.lookup_of_present ht, readPte, bind_apply, get_apply, pure_apply,
        Kernel.mem_ptr ht]
      by_cases hs : swapped (s.pte d v) = true
      · have hfree : bfreePage (PTE_ADDR (s.pte d v)) s =
            .ok ((), s.bfreed (PTE_ADDR (s.pte d v))) := by
          apply bfreePage_apply
          intro b hb
          exact ho.used b (mem_blocksOf_groupsIn.2 ⟨v, le_rfl, hv, hs, hb⟩)
        rw [if_pos hs, bind_apply, hfree]
        exact next hv (.one_swapped hs)
      · rw [if_neg hs]
        by_cases hp : present (s.pte d v) = true
        · have hh : held (s.pte d v) = true := by simp [held, hp, hs]
          obtain ⟨hr1, hr2⟩ := ho.range _ (mem_framesIn.2 ⟨v, le_rfl, hv, hh, rfl⟩)
          rw [if_pos hp, if_neg (by omega), bind_apply, kfree_apply hr1 hr2]
          exact next hv (.one_held ho hv hhi hh)
        · rw [if_neg hp]
          refine next hv (.skip fun v' h1 h2 => ?_)
          obtain rfl : v' = v := by omega
          simp [held, hp, hs]
    · have hzero : ∀ v', v ≤ v' → v' < nextTable v → s.pte d v' = 0#32 := by
        intro v' h1 h2
        apply Kernel.pte_of_not_present
        rw [pdx_of_lt_nextTable h1 h2]
        simpa using ht
      simp only [Kernel.lookup_page, if_neg ht]
      have hlt := le_nextTable v
      rcases Nat.le_total (nextTable v) hi with hn | hn
      · have hskip : Released s d v (nextTable v) s := .skip fun v' h1 h2 => by
          rw [hzero v' h1 h2]
          exact ⟨rfl, rfl⟩
        obtain ⟨t, ht, h2⟩ := ih (nextTable v) (by omega) (ho.rest (by omega) hn hskip hhi)
        exact ⟨t, ht, hskip.trans h2 (by omega) hn hhi⟩
      · have hskip : Released s d v hi s := .skip fun v' h1 h2 => by
          rw [hzero v' h1 (by omega)]
          exact ⟨rfl, rfl⟩
        refine ⟨s, ?_, hskip⟩
        cases fuel with
        | zero => rfl
        | succ fuel =>
          rw [deallocuvmLoop, if_neg (by omega)]
          rfl

theorem Env.kend_pos (E : Env) : 0 < E.kend := (Nat.zero_le _).trans_lt (E.kdata_gt.trans E.kdata_lt)

theorem deallocuvm_release {oldsz newsz : ℕ} (hlt : newsz < oldsz) (hk : oldsz ≤ KERNBASE)
    (ho : Owns E s d (npages newsz) (npages oldsz)) :
    ∃ t, deallocuvm E d oldsz newsz s = .ok (newsz, t) ∧
      Released s d (npages newsz) (npages oldsz) t := by
  obtain ⟨t, ht, hr⟩ := deallocuvmLoop_release (npages oldsz - npages newsz) (npages newsz)
    (by omega) ((npages_le hk).trans (by decide)) ho E.kend_pos
  refine ⟨t, ?_, hr⟩
  rw [deallocuvm, if_neg (by omega), bind_apply, ht]
  rfl

/-- A well-formed address space owns what it names. -/
theorem Space.owns (hB : Base E g s) (hS : Space g s d Set.univ) (hu : hi ≤ UVPN) :
    Owns E s d lo hi := by
  have hframe : ∀ v, lo ≤ v → v < hi → held (s.pte d v) = true →
      g.frame (PTE_ADDR (s.pte d v)) = .page d v := by
    intro v _ h2 h
    rw [held, Bool.and_eq_true] at h
    exact (hS.entry v (by omega) trivial).frame h.1
  have hblock : ∀ v, lo ≤ v → v < hi → swapped (s.pte d v) = true →
      ∀ b ∈ group (PTE_ADDR (s.pte d v)), g.block b = .swap d v := fun v _ h2 h =>
    (hS.entry v (by omega) trivial).block h
  constructor
  · rw [List.nodup_cons, List.nodup_append]
    refine ⟨fun hd => ?_, ?_, ?_, fun f hf f' hf' he => ?_⟩
    · have howner := hS.dir
      rcases List.mem_append.1 hd with hd | hd
      · obtain ⟨i, hi, he⟩ := mem_tablesOf.1 hd
        rw [← he, hS.tab i hi] at howner
        cases howner
      · obtain ⟨v, h1, h2, h3, he⟩ := mem_framesIn.1 hd
        rw [← he, hframe v h1 h2 h3] at howner
        cases howner
    · refine List.Nodup.map_on (fun i hi j hj he => ?_) ((List.nodup_finRange 1024).filter _)
      have howner := hS.tab i (by simpa using hi)
      rw [he, hS.tab j (by simpa using hj)] at howner
      injection howner with _ hij
      exact hij.symm
    · refine List.Nodup.map_on (fun v hv w hw he => ?_) ((List.Ico.nodup lo hi).filter _)
      rw [List.mem_filter, List.Ico.mem] at hv hw
      have howner := hframe v hv.1.1 hv.1.2 hv.2
      rw [he, hframe w hw.1.1 hw.1.2 hw.2] at howner
      injection howner with _ hvw
      exact hvw.symm
    · subst he
      obtain ⟨i, hi, he⟩ := mem_tablesOf.1 hf
      obtain ⟨v, h1, h2, h3, he'⟩ := mem_framesIn.1 hf'
      have howner := hS.tab i hi
      rw [he, ← he', hframe v h1 h2 h3] at howner
      cases howner
  · intro f hf
    obtain ⟨v, h1, h2, h3, rfl⟩ := mem_framesIn.1 hf
    apply hB.range
    rw [hframe v h1 h2 h3]
    simp
  · unfold blocksOf Kernel.groupsIn
    rw [List.nodup_flatMap]
    refine ⟨fun b _ => nodup_group b, ?_⟩
    rw [List.pairwise_map]
    refine List.Pairwise.imp_of_mem (fun {v w} hv hw hvw => ?_)
      ((List.Ico.pairwise_lt lo hi).filter _)
    rw [List.mem_filter, List.Ico.mem] at hv hw
    intro b hb hb'
    have howner := hblock v hv.1.1 hv.1.2 hv.2 b hb
    rw [hblock w hw.1.1 hw.1.2 hw.2 b hb'] at howner
    injection howner with _ hwv
    omega
  · intro b hb
    obtain ⟨v, h1, h2, h3, hb⟩ := mem_blocksOf_groupsIn.1 hb
    apply hB.used
    rw [hblock v h1 h2 h3 b hb]
    simp

/-! ### Removing a range -/

/-- Page `v` starts in the range that `deallocuvm(pgdir, oldsz, newsz)` removes. -/
def InRange (oldsz newsz v : ℕ) : Prop := PGROUNDUP newsz ≤ v * PGSIZE ∧ v * PGSIZE < oldsz

theorem inRange_iff {oldsz newsz : ℕ} :
    InRange oldsz newsz v ↔ npages newsz ≤ v ∧ v < npages oldsz := by
  simp only [InRange, PGROUNDUP, npages, PGSIZE]
  omega

/-- `deallocuvm` returns with no entry in the range and all others as before, and once more it
frees nothing. -/
def Removes (E : Env) (s : Kernel) (d oldsz newsz : ℕ) : Prop :=
  ∃ t, deallocuvm E d oldsz newsz s = .ok (newsz, t) ∧
    (∀ v, InRange oldsz newsz v → present (t.pte d v) = false ∧ swapped (t.pte d v) = false) ∧
    (∀ v < 2 ^ 20, ¬ InRange oldsz newsz v → t.pte d v = s.pte d v) ∧
    ∃ u, deallocuvm E d oldsz newsz t = .ok (newsz, u) ∧ u.freelist.Perm t.freelist ∧ u.bit = t.bit

/-- A range without resident and swapped pages owns nothing. -/
theorem Owns.of_empty (hn : (d :: s.tablesOf d).Nodup)
    (h : ∀ v, lo ≤ v → v < hi → held (s.pte d v) = false ∧ swapped (s.pte d v) = false) :
    Owns E s d lo hi := by
  have hframes := framesIn_nil fun v h1 h2 => (h v h1 h2).1
  have hgroups := groupsIn_nil fun v h1 h2 => (h v h1 h2).2
  constructor
  · rwa [hframes, List.append_nil]
  · simp [hframes]
  · simp [hgroups, blocksOf]
  · simp [hgroups, blocksOf]

/-- `deallocuvm` removes a range exactly where no page of it is swapped out: it frees the blocks of
a swapped page and keeps the entry. -/
theorem deallocuvm_removes_iff (E : Env) (s : Kernel) (d oldsz newsz : ℕ) (hlt : newsz < oldsz)
    (hk : oldsz ≤ KERNBASE) (ho : Owns E s d (npages newsz) (npages oldsz)) :
    Removes E s d oldsz newsz ↔ ∀ v, InRange oldsz newsz v → swapped (s.pte d v) = false := by
  have hpages : npages oldsz ≤ 2 ^ 20 := (npages_le hk).trans (by decide)
  obtain ⟨t, ht, hr⟩ := deallocuvm_release hlt hk ho
  constructor
  · rintro ⟨t', ht', hin, -⟩ v hv
    rw [ht] at ht'
    cases ht'
    by_contra hs
    have hnot : ¬ held (s.pte d v) = true := by simp [held, Bool.eq_true_of_not_eq_false hs]
    have hpte := hr.pte v ((inRange_iff.1 hv).2.trans_le hpages)
    rw [if_neg fun hc => hnot hc.2.2] at hpte
    exact hs (hpte ▸ (hin v hv).2)
  · intro hno
    have hempty : ∀ v, InRange oldsz newsz v →
        present (t.pte d v) = false ∧ swapped (t.pte d v) = false := by
      intro v hv
      have hv' := inRange_iff.1 hv
      rw [hr.pte v (hv'.2.trans_le hpages)]
      split_ifs with hc
      · exact ⟨rfl, rfl⟩
      · refine ⟨?_, hno v hv⟩
        by_contra hp
        exact hc ⟨hv'.1, hv'.2, by simp [held, hno v hv, Bool.eq_true_of_not_eq_false hp]⟩
    have hheld : ∀ v, npages newsz ≤ v → v < npages oldsz →
        held (t.pte d v) = false ∧ swapped (t.pte d v) = false := by
      intro v h1 h2
      obtain ⟨hp, hs⟩ := hempty v (inRange_iff.2 ⟨h1, h2⟩)
      exact ⟨by simp [held, hp], hs⟩
    refine ⟨t, ht, hempty, ?_, ?_⟩
    · intro v hv hout
      rw [inRange_iff] at hout
      rw [hr.pte v hv, if_neg fun hc => hout ⟨hc.1, hc.2.1⟩]
    · have hnodup : (d :: t.tablesOf d).Nodup := by
        rw [tablesOf_congr hr.dir]
        exact List.Nodup.sublist ((List.sublist_append_left _ _).cons_cons _) ho.apart
      obtain ⟨u, hu, hru⟩ := deallocuvm_release hlt hk (Owns.of_empty hnodup hheld)
      refine ⟨u, hu, ?_, ?_⟩
      · have hf := hru.freelist
        rwa [framesIn_nil fun v h1 h2 => (hheld v h1 h2).1, List.nil_append] at hf
      · rw [hru.bit, groupsIn_nil fun v h1 h2 => (hheld v h1 h2).2]
        funext b
        simp [markBits, blocksOf]

theorem deallocuvm_removes_boot : ∃ s d, boot demo (fun _ => 0#32)
    (demo.powerOn (fun _ _ => 0#32) fun _ _ => 0#32) = .ok ((), s) ∧ Removes demo s d PGSIZE 0 := by
  obtain ⟨g, s, d, hb, h⟩ := boot_total demo (fun _ => 0#32) (fun _ _ => 0#32) fun _ _ => 0#32
  have hS : Space g s d Set.univ := h.dir ▸ h.inv.space 0 (by rw [Proc.live, h.state]; decide)
  refine ⟨s, d, hb, (deallocuvm_removes_iff demo s d PGSIZE 0 (by decide) (by decide)
    (hS.owns h.inv.base (by decide))).2 fun v hv => ?_⟩
  have hv' : v < 1 := (inRange_iff.1 hv).2
  obtain rfl : v = 0 := by omega
  by_contra hs
  have honly := (hS.entry 0 (by decide) trivial).only h.present
  exact hs honly

/-- A directory in frame 300 with a table in frame 301, in which page 1 is swapped out to the group
at 200. -/
def oneSwapped : Kernel where
  mem f := if f = 300 then Function.update (fun _ => 0#32) 0 (userPte 301)
    else if f = 301 then Function.update (fun _ => 0#32) 1 (swappedPte 200)
    else fun _ => 0#32
  freelist := []
  bit := fun b => b < 208
  block := fun _ _ => 0#32
  numallocblocks := 1
  files := []
  kpgdir := 299
  proc := fun _ => ⟨.RUNNABLE, 1, none, 300, 304, 0x2000⟩
  nextpid := 2
  initproc := 0

/-- The blocks of a swapped page are free after the first call, the entry still names them, and
the second call panics. -/
theorem deallocuvm_keeps_swapped : ¬ Removes demo oneSwapped 300 0x2000 0x1000 ∧
    ∃ t, deallocuvm demo 300 0x2000 0x1000 oneSwapped = .ok (0x1000, t) ∧
      t.pte 300 1 = swappedPte 200 ∧ t.bit 200 = false ∧
      deallocuvm demo 300 0x2000 0x1000 t = .error (.panic "freeing free block") := by
  have hfirst : ((deallocuvm demo 300 0x2000 0x1000 oneSwapped).toOption.map fun r =>
      (r.1, r.2.pte 300 1, r.2.bit 200,
        Lib.errorOf (deallocuvm demo 300 0x2000 0x1000 r.2))) =
      some (0x1000, swappedPte 200, false, some (.panic "freeing free block")) := by decide +kernel
  obtain ⟨⟨n, t⟩, hr, heq⟩ := Option.map_eq_some_iff.mp hfirst
  have h := Lib.ok_of_toOption hr
  simp only [Prod.mk.injEq] at heq
  obtain ⟨rfl, hpte, hbit, hagain⟩ := heq
  refine ⟨?_, t, h, hpte, hbit, Lib.eq_error_of_errorOf hagain⟩
  rintro ⟨t', ht', hin, -⟩
  rw [h] at ht'
  cases ht'
  have hs := (hin 1 ⟨by decide, by decide⟩).2
  rw [hpte] at hs
  revert hs
  decide

/-! ### Freeing a whole address space -/

/-- The page tables in `is` go back, and the disk stays. -/
theorem freeTables_release (is : List (Fin 1024))
    (hn : ((is.filter fun i => present (s.mem d i)).map fun i => PTE_ADDR (s.mem d i)).Nodup)
    (hr : ∀ i ∈ is, present (s.mem d i) = true →
      E.kend ≤ PTE_ADDR (s.mem d i) ∧ PTE_ADDR (s.mem d i) < NFRAMES ∧ PTE_ADDR (s.mem d i) ≠ d) :
    ∃ t, freeTables E d is s = .ok ((), t) ∧ SameDisk s t ∧ t.freelist.Perm
      (((is.filter fun i => present (s.mem d i)).map fun i => PTE_ADDR (s.mem d i)) ++ s.freelist) := by
  induction is generalizing s with
  | nil => exact ⟨s, rfl, .refl s, .refl _⟩
  | cons i is ih =>
    rw [freeTables, bind_apply, get_apply]
    dsimp only
    by_cases hp : present (s.mem d i) = true
    · obtain ⟨h1, h2, hne⟩ := hr i (List.mem_cons_self ..) hp
      simp only [List.filter_cons, hp, ↓reduceIte, List.map_cons] at hn ⊢
      have hdir : (s.kfreed E (PTE_ADDR (s.mem d i))).mem d = s.mem d := by
        simp [Kernel.kfreed, hne.symm]
      obtain ⟨t, ht, hdisk, hperm⟩ := ih (s := s.kfreed E (PTE_ADDR (s.mem d i)))
        (by rw [hdir]; exact (List.nodup_cons.1 hn).2)
        (by rw [hdir]; exact fun j hj => hr j (List.mem_cons_of_mem _ hj))
      refine ⟨t, ?_, ⟨hdisk.bit, hdisk.block, hdisk.files, hdisk.count⟩, ?_⟩
      · rw [bind_apply, kfree_apply h1 h2]
        exact ht
      · rw [hdir] at hperm
        exact hperm.trans List.perm_middle
    · simp only [List.filter_cons, hp, Bool.false_eq_true, ↓reduceIte] at hn ⊢
      exact ih hn fun j hj => hr j (List.mem_cons_of_mem _ hj)

/-- The frame is the directory `d`, one of its page tables or the frame of a user page. -/
def Kernel.OwnsFrame (s : Kernel) (d f : ℕ) : Prop :=
  f = d ∨ (∃ i, present (s.mem d i) = true ∧ PTE_ADDR (s.mem d i) = f) ∨
    ∃ v < UVPN, held (s.pte d v) = true ∧ PTE_ADDR (s.pte d v) = f

/-- The block is one of the swap group of a user page. -/
def Kernel.OwnsBlock (s : Kernel) (d b : ℕ) : Prop :=
  ∃ v < UVPN, swapped (s.pte d v) = true ∧ b ∈ group (PTE_ADDR (s.pte d v))

theorem ownsFrame_iff : s.OwnsFrame d f ↔ f ∈ d :: (s.tablesOf d ++ s.framesIn d 0 UVPN) := by
  rw [List.mem_cons, List.mem_append, mem_tablesOf, mem_framesIn]
  simp only [Kernel.OwnsFrame, Nat.zero_le, true_and]

theorem ownsBlock_iff {b : ℕ} : s.OwnsBlock d b ↔ b ∈ blocksOf (s.groupsIn d 0 UVPN) := by
  rw [mem_blocksOf_groupsIn]
  simp only [Kernel.OwnsBlock, Nat.zero_le, true_and]

theorem length_groupsIn (s : Kernel) (d lo hi : ℕ) :
    (s.groupsIn d lo hi).length = s.nswappedIn d lo hi := by
  have hq : (fun v => swapped (s.pte d v)) = fun v => decide (swapped (s.pte d v) = true) := by
    funext v
    rw [Bool.decide_eq_true]
  unfold Kernel.groupsIn
  rw [List.length_map, hq]
  rfl

theorem Space.range (hB : Base E g s) (hS : Space g s d Set.univ) (hf : s.OwnsFrame d f) :
    E.kend ≤ f ∧ f < NFRAMES := by
  apply hB.range
  rcases hf with rfl | ⟨i, hi, rfl⟩ | ⟨v, hv, hh, rfl⟩
  · rw [hS.dir]
    simp
  · rw [hS.tab i hi]
    simp
  · rw [held, Bool.and_eq_true] at hh
    rw [(hS.entry v hv trivial).frame hh.1]
    simp

theorem count_append_of_nodup {l l' : List ℕ} (h : l.Nodup) (f : ℕ) :
    (l ++ l').count f = l'.count f + if f ∈ l then 1 else 0 := by
  rw [List.count_append, h.count, add_comm]

/-- `freevm` returns; the free list has grown by the directory, the page tables and the user frames. -/
theorem freevm_release (ho : Owns E s d 0 UVPN)
    (hr : ∀ f, s.OwnsFrame d f → E.kend ≤ f ∧ f < NFRAMES) :
    ∃ t, freevm E d s = .ok ((), t) ∧
      t.freelist.Perm ((d :: (s.tablesOf d ++ s.framesIn d 0 UVPN)) ++ s.freelist) ∧
      t.bit = markBits s.bit (blocksOf (s.groupsIn d 0 UVPN)) false ∧
      t.numallocblocks = s.numallocblocks - s.nswapped d := by
  have hdr := hr d (.inl rfl)
  obtain ⟨t1, ht1, h1⟩ := deallocuvm_release (by decide : 0 < KERNBASE) le_rfl ho
  have hapart := ho.apart
  rw [List.nodup_cons, List.nodup_append] at hapart
  obtain ⟨hd, htabs, -, -⟩ := hapart
  obtain ⟨t2, ht2, hdisk, hperm⟩ := freeTables_release (E := E) (s := t1) (d := d)
    (List.finRange 1024) (by rw [h1.dir]; exact htabs) (by
      rw [h1.dir]
      intro i _ hi
      have hf := hr _ (.inr (.inl ⟨i, hi, rfl⟩))
      refine ⟨hf.1, hf.2, fun he => hd ?_⟩
      exact List.mem_append_left _ (mem_tablesOf.2 ⟨i, hi, he⟩))
  rw [h1.dir] at hperm
  refine ⟨t2.kfreed E d, ?_, ?_, hdisk.bit.trans h1.bit, ?_⟩
  · rw [freevm, if_neg (by have := E.kend_pos; omega), bind_apply, ht1]
    simp only [bind_apply, ht2, kfree_apply hdr.1 hdr.2]
  · have hrest : t2.freelist.Perm (s.tablesOf d ++ (s.framesIn d 0 UVPN ++ s.freelist)) :=
      hperm.trans (h1.freelist.append_left _)
    rw [List.cons_append, List.append_assoc]
    exact hrest.cons d
  · change t2.numallocblocks = _
    rw [hdisk.count, h1.count, length_groupsIn]
    rfl

/-- `freevm` hands the directory, each page table and each user frame to `kfree` once and each swap
group to `bfree_page` once, and nothing else. -/
theorem freevm_exactly_once (E : Env) (s : Kernel) (d : ℕ) (ho : Owns E s d 0 UVPN)
    (hr : ∀ f, s.OwnsFrame d f → E.kend ≤ f ∧ f < NFRAMES) :
    ∃ t, freevm E d s = .ok ((), t) ∧
      (∀ f, s.OwnsFrame d f → t.freelist.count f = s.freelist.count f + 1) ∧
      (∀ f, ¬ s.OwnsFrame d f → t.freelist.count f = s.freelist.count f) ∧
      (∀ b, s.OwnsBlock d b → t.bit b = false) ∧
      (∀ b, ¬ s.OwnsBlock d b → t.bit b = s.bit b) ∧
      t.numallocblocks = s.numallocblocks - s.nswapped d := by
  obtain ⟨t, ht, hfree, hbit, hcnt⟩ := freevm_release ho hr
  have hcount : ∀ f, t.freelist.count f =
      s.freelist.count f + if f ∈ d :: (s.tablesOf d ++ s.framesIn d 0 UVPN) then 1 else 0 :=
    fun f => (hfree.count_eq f).trans (count_append_of_nodup ho.apart f)
  refine ⟨t, ht, fun f hf => ?_, fun f hf => ?_, fun b hb => ?_, fun b hb => ?_, hcnt⟩
  · rw [hcount, if_pos (ownsFrame_iff.1 hf)]
  · rw [hcount, if_neg fun hm => hf (ownsFrame_iff.2 hm), add_zero]
  · rw [hbit, markBits, if_pos (ownsBlock_iff.1 hb)]
  · rw [hbit, markBits, if_neg fun hm => hb (ownsBlock_iff.2 hm)]

/-- The first process after boot, which has swapped its only page out. -/
theorem freevm_exactly_once_boot : ∃ s t u, boot demo (fun _ => 0#32)
    (demo.powerOn (fun _ _ => 0#32) fun _ _ => 0#32) = .ok ((), s) ∧
      (Op.sysSwap 0 0).run demo s = .ok (none, t) ∧ freevm demo (t.dir 0) t = .ok ((), u) ∧
      u.freelist.count (t.dir 0) = t.freelist.count (t.dir 0) + 1 ∧
      t.OwnsBlock (t.dir 0) (PTE_ADDR (t.pte (t.dir 0) 0)) ∧
      u.bit (PTE_ADDR (t.pte (t.dir 0) 0)) = false := by
  obtain ⟨g, s, d, hb, h⟩ := boot_total demo (fun _ => 0#32) (fun _ _ => 0#32) fun _ _ => 0#32
  obtain ⟨t, ht⟩ := h.swapFirst
  have hsafe : Safe demo s (.sysSwap 0 0) := ⟨show 0 < KERNBASE by decide, ht.followsNoNull⟩
  obtain ⟨g', hI⟩ := Sound.step ⟨g, h.inv⟩ hsafe ⟨none, ht.run⟩
  have hlive : (t.proc 0).live := by
    rw [ht.proc.proc]
    exact h.running.live
  have hS := hI.space 0 hlive
  have hdir : t.dir 0 = s.dir 0 := by rw [Kernel.dir, Kernel.dir, ht.proc.proc]
  have hblock : t.OwnsBlock (t.dir 0) (PTE_ADDR (t.pte (t.dir 0) 0)) := by
    refine ⟨0, by decide, ?_, self_mem_group _⟩
    rw [hdir]
    exact ht.swapped
  obtain ⟨u, hu, howned, -, hfreed, -⟩ := freevm_exactly_once demo t (t.dir 0)
    (hS.owns hI.base le_rfl) fun f hf => hS.range hI.base hf
  exact ⟨s, t, u, hb, ht.run, hu, howned _ (.inl rfl), hblock, hfreed _ hblock⟩

end Xv6Lab.Paging
