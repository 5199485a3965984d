import Xv6Lab.Paging.FrameSpec

/-! Moving one page between memory and disk. `SwappedOut` and `SwappedIn` say all
that `swap_page_from_pte` and the swap-in path of `map_address` do: which entry
changes and how, which frame and which blocks change owner, and that the page
holds the same bytes before and after. -/

namespace Xv6Lab.Paging

open Lib

variable {E : Env} {g g' : Ghost} {s t : Kernel} {d v : ℕ}

/-! ### Groups of blocks -/

def Ghost.setGroup (g : Ghost) (b : ℕ) (o : BOwner) : Ghost :=
  { g with block := fun x => if x ∈ group b then o else g.block x }

@[simp] theorem Ghost.setGroup_frame (g : Ghost) (b : ℕ) (o : BOwner) :
    (g.setGroup b o).frame = g.frame := rfl

theorem Ghost.setGroup_mem (g : Ghost) {b x : ℕ} (o : BOwner) (h : x ∈ group b) :
    (g.setGroup b o).block x = o := if_pos h

theorem Ghost.setGroup_not_mem (g : Ghost) {b x : ℕ} (o : BOwner) (h : x ∉ group b) :
    (g.setGroup b o).block x = g.block x := if_neg h

theorem Base.setGroup {b : ℕ} {o : BOwner} (h : Base E g s)
    (hg : ∀ x ∈ group b, g.block x ≠ .free ∧ g.block x ≠ .file ∧ g.block x ≠ .sys)
    (ho : o ≠ .file) : Base E (g.setGroup b o) s := by
  refine ⟨h.nodup, h.free, h.range, fun x hx => ?_, fun x => ?_, h.filesNodup, fun x hx => ?_⟩
  · by_cases hxb : x ∈ group b
    · exact h.used x (hg x hxb).1
    · rw [g.setGroup_not_mem _ hxb] at hx
      exact h.used x hx
  · by_cases hxb : x ∈ group b
    · simp [g.setGroup_mem _ hxb, h.files x, (hg x hxb).2.1, ho]
    · rw [g.setGroup_not_mem _ hxb, h.files x]
  · by_cases hxb : x ∈ group b
    · exact absurd (h.sys x hx) (hg x hxb).2.2
    · rw [g.setGroup_not_mem _ hxb, h.sys x hx]

/-- After `balloc_page` the group is allocated and not yet named. -/
theorem TookGroup.base {b : ℕ} (ht : TookGroup E.size s b t) (h : Base E g s) :
    (∀ x ∈ group b, g.block x = .free) ∧ Base E (g.setGroup b .loose) t := by
  have hfree : ∀ x ∈ group b, g.block x = .free := fun x hx => by
    by_contra hne
    have := h.used x hne
    rw [(ht.free x hx).1] at this
    cases this
  refine ⟨hfree, ?_, ?_, h.range, fun x hx => ?_, fun x => ?_, ?_, fun x hx => ?_⟩
  · rw [ht.mem.freelist]; exact h.nodup
  · rw [ht.mem.freelist]; exact h.free
  · rw [ht.bit, markBits]
    split_ifs with hxb
    · rfl
    · rw [g.setGroup_not_mem _ hxb] at hx
      exact h.used x hx
  · rw [ht.files, h.files x]
    by_cases hxb : x ∈ group b
    · simp [g.setGroup_mem _ hxb, hfree x hxb]
    · rw [g.setGroup_not_mem _ hxb]
  · rw [ht.files]; exact h.filesNodup
  · have hxb : x ∉ group b := fun hxb => by
      have := hfree x hxb
      rw [h.sys x hx] at this
      cases this
    rw [g.setGroup_not_mem _ hxb, h.sys x hx]

/-- The state after `bfree_page`. -/
def Kernel.bfreed (s : Kernel) (b : ℕ) : Kernel :=
  { s with bit := markBits s.bit (group b) false, numallocblocks := s.numallocblocks - 1 }

/-- `bfree_page` of a group that belongs to the swap area. -/
theorem Base.bfreePage {b : ℕ} (h : Base E g s) (hg : ∀ x ∈ group b, g.block x = .swap d v) :
    bfreePage b s = .ok ((), s.bfreed b) ∧ Base E (g.setGroup b .free) (s.bfreed b) := by
  refine ⟨bfreePage_apply fun x hx => h.used x (by rw [hg x hx]; simp), h.nodup, h.free, h.range,
    fun x hx => ?_, fun x => ?_, h.filesNodup, fun x hx => ?_⟩
  · by_cases hxb : x ∈ group b
    · exact absurd (g.setGroup_mem _ hxb) hx
    · rw [g.setGroup_not_mem _ hxb] at hx
      simpa [Kernel.bfreed, markBits, hxb] using h.used x hx
  · by_cases hxb : x ∈ group b
    · simp [Kernel.bfreed, g.setGroup_mem _ hxb, h.files x, hg x hxb]
    · rw [g.setGroup_not_mem _ hxb]
      exact h.files x
  · by_cases hxb : x ∈ group b
    · have := hg x hxb
      rw [h.sys x hx] at this
      cases this
    · rw [g.setGroup_not_mem _ hxb, h.sys x hx]

/-! ### Out -/

/-- Page `v` of `d` has gone to the group at `b`, and its frame to the free list. -/
structure SwappedOut (E : Env) (g : Ghost) (s : Kernel) (d v b : ℕ) (g' : Ghost) (t : Kernel) :
    Prop where
  base : Base E g' t
  proc : SameProc s t
  store : Store g s d v g' t {PTE_ADDR (s.pte d v)} (swappedPte b)
  lt : b < 2 ^ 20
  frame : g'.frame = Function.update g.frame (PTE_ADDR (s.pte d v)) .free
  freelist : t.freelist = PTE_ADDR (s.pte d v) :: s.freelist
  fill : t.mem (PTE_ADDR (s.pte d v)) = E.fill (PTE_ADDR (s.pte d v)) (s.mem (PTE_ADDR (s.pte d v)))
  count : t.numallocblocks = s.numallocblocks + 1
  group : ∀ x ∈ group b, g'.block x = .swap d v
  read : t.readPage b = s.mem (PTE_ADDR (s.pte d v))

theorem self_mem_group (b : ℕ) : b ∈ group b := mem_group.2 ⟨le_rfl, by omega⟩

theorem swapPageFromPte_spec (hB : Base E g s) (hT : Tree g s d) (hv : v < 2 ^ 20)
    (hp : present (s.pte d v) = true) (hown : g.frame (PTE_ADDR (s.pte d v)) = .page d v)
    (pgdir pid : ℕ) :
    wp (swapPageFromPte E pgdir (some (s.ptr d v)) pid)
      (fun _ t => ∃ b g', SwappedOut E g s d v b g' t) s := by
  have htab := present_table_of_entry hp
  have hptr := Kernel.mem_ptr htab
  have hload : ∀ u : Kernel, u.mem = s.mem → ∀ pg,
      loadPte E pg (some (s.ptr d v)) u = .ok (s.pte d v, u) := fun u hu pg => by
    simp only [loadPte, readPte, bind_apply, get_apply, pure_apply, hu, hptr]
  have hr := hB.range _ (by rw [hown]; simp)
  simp only [swapPageFromPte, wp_bind]
  refine wp_of_eq (hload s rfl pgdir) ?_
  refine wp_mono (ballocPage_spec E.size s) ?_
  intro b t1 h1
  obtain ⟨hfree, hB1⟩ := h1.base hB
  rw [if_neg (by omega)]
  simp only [wp_bind]
  refine wp_of_eq (hload t1 h1.mem.mem pgdir) ?_
  refine wp_mono (writePageToDisk_spec hB1 fun x hx => g.setGroup_mem _ hx) ?_
  rintro - t2 ⟨g2, h2, hread⟩
  have hmem2 : t2.mem = s.mem := h2.mem.mem.trans h1.mem.mem
  have hfr2 : g2.frame = g.frame := h2.frame
  simp only [storePte, writePte, wp_modify]
  have hB3 : Base E g2 (t2.setWord (s.ptr d v).1 (s.ptr d v).2 (swappedPte b)) :=
    h2.base.congr_mem rfl rfl rfl
  obtain ⟨happ, hB4⟩ := hB3.kfree (f := PTE_ADDR (s.pte d v)) (by rw [hfr2, hown]; simp) (by rw [hfr2, hown]; simp)
  refine wp_of_eq happ ?_
  have hne : (s.ptr d v).1 ≠ PTE_ADDR (s.pte d v) := fun e => by
    have := hT.tab _ htab
    rw [show PTE_ADDR (s.mem d (pdx v)) = PTE_ADDR (s.pte d v) from e, hown] at this
    cases this
  have hnotgrp : ∀ x d' v', g.block x = .swap d' v' → x ∉ group b := fun x d' v' hx hxb => by
    rw [hfree x hxb] at hx; cases hx
  have hswap : ∀ x d' v', g.block x = .swap d' v' →
      g2.block x = .swap d' v' ∧ t2.block x = s.block x := fun x d' v' hx => by
    have hng := hnotgrp x d' v' hx
    obtain ⟨ha, hb⟩ := h2.swap x d' v' (by rw [g.setGroup_not_mem _ hng, hx])
    exact ⟨ha, hb.trans (h1.block x (hB.used x (by rw [hx]; simp)))⟩
  refine ⟨b, (g2.setFrame (PTE_ADDR (s.pte d v)) .free).setGroup b (.swap d v), ?_⟩
  refine ⟨?_, ?_, ⟨hv, htab, by rintro x rfl; exact .inl hown, fun x hxf hxt => ?_, ?_,
    fun x hx => ?_, ?_⟩, ?_, ?_, ?_,
    ?_, ?_, fun x hx => Ghost.setGroup_mem _ _ hx, ?_⟩
  · refine hB4.setGroup (fun x hx => ?_) (by simp)
    rw [Ghost.setFrame_block, h2.loose x hx]
    simp
  · exact ⟨h2.mem.proc.trans h1.mem.proc, h2.mem.kpgdir.trans h1.mem.kpgdir,
      h2.mem.initproc.trans h1.mem.initproc, h2.mem.nextpid.trans h1.mem.nextpid⟩
  · have hxt' : x ≠ (s.ptr d v).1 := hxt
    have hxf' : x ≠ PTE_ADDR (s.pte d v) := hxf
    simp [Kernel.kfreed, hxf', hxt', hmem2]
  · simp only [Kernel.kfreed, Kernel.setFrame_mem, Kernel.setWord_mem]
    rw [show PTE_ADDR (s.mem d (pdx v)) = (s.ptr d v).1 from rfl, Function.update_of_ne hne,
      Function.update_self, hmem2]
    rfl
  · rw [Ghost.setGroup_frame, g2.setFrame_of_ne _ hx, hfr2]
  · intro x d' v' _ hx
    obtain ⟨ha, hb⟩ := hswap x d' v' hx
    exact ⟨by rw [Ghost.setGroup_not_mem _ _ (hnotgrp x d' v' hx), Ghost.setFrame_block, ha], hb⟩
  · have := (h1.free b (self_mem_group b)).2
    have := E.size_le
    simp only [FSSIZE] at this
    omega
  · rw [Ghost.setGroup_frame, Ghost.setFrame, hfr2]
  · simp only [Kernel.kfreed, Kernel.setWord_freelist, h2.mem.freelist, h1.mem.freelist]
  · simp only [Kernel.kfreed, Kernel.setFrame_mem, Function.update_self, Kernel.setWord_mem]
    rw [Function.update_of_ne hne.symm, hmem2]
  · exact h2.count.trans h1.count
  · rw [h1.mem.mem] at hread
    exact hread

namespace SwappedOut

variable {b : ℕ}

theorem keeps (h : SwappedOut E g s d v b g' t) (hT : Tree g s d) : Keeps {d} g s g' t :=
  h.store.keeps hT

theorem entry (h : SwappedOut E g s d v b g' t) : EntryOk g' d v (swappedPte b) where
  frame hp := by simp at hp
  only hp := by simp at hp
  write hu := by simp at hu
  block _ x hx := h.group x (by rwa [PTE_ADDR_swappedPte h.lt] at hx)

theorem space (h : SwappedOut E g s d v b g' t) (hS : Space g s d Set.univ) (hv : v < UVPN) :
    Space g' t d Set.univ :=
  h.store.space hS (fun _ _ => h.entry) fun hu => absurd hv (by omega)

theorem content (h : SwappedOut E g s d v b g' t) (hS : Space g s d Set.univ)
    (hp : present (s.pte d v) = true) {v' : ℕ} (hv' : v' < UVPN) :
    t.content d v' = s.content d v' := by
  obtain ⟨-, hpv, -⟩ := h.store.entries hS.toTree
  by_cases hne : v' = v
  · subst hne
    rw [Kernel.content_present hp, Kernel.content_swapped (by simp [hpv]) (by simp [hpv]), hpv,
      PTE_ADDR_swappedPte h.lt, h.read]
  · exact h.store.content hS hv' trivial hne

theorem balance (h : SwappedOut E g s d v b g' t) (hS : Space g s d Set.univ) (hv : v < UVPN)
    (hp : present (s.pte d v) = true) :
    t.numallocblocks - t.nswapped d = s.numallocblocks - s.nswapped d := by
  obtain ⟨-, hpv, hpo⟩ := h.store.entries hS.toTree
  have hs := (hS.entry v hv trivial).only hp
  rw [h.count, nswapped_store hv fun v' hv' => hpo v' (hv'.trans (by decide)), hpv, hs]
  simp

end SwappedOut

/-! ### In -/

/-- The entry that `swapIn` writes is the one of a freshly mapped page. -/
theorem userPte_and_not_swapped (m : ℕ) :
    (V2P m ||| PTE_W ||| PTE_U ||| PTE_P) &&& ~~~PTE_SWAPPED = userPte m := by
  rw [show V2P m ||| PTE_W ||| PTE_U ||| PTE_P = userPte m from rfl]
  apply BitVec.eq_of_getLsbD_eq
  intro i hi
  have hbit : ∀ i < 32, i ≠ 9 → PTE_SWAPPED.getLsbD i = false := by decide
  rw [BitVec.getLsbD_and, BitVec.getLsbD_not]
  by_cases h9 : i = 9
  · subst h9
    rw [show (userPte m).getLsbD 9 = false from swapped_userPte m, Bool.false_and]
  · rw [hbit i hi h9]
    simp [hi]

/-- Page `v` of `d` has come from its swap blocks into the frame `m`. -/
structure SwappedIn (E : Env) (g : Ghost) (s : Kernel) (d v m : ℕ) (g' : Ghost) (t : Kernel) :
    Prop where
  base : Base E g' t
  proc : SameProc s t
  store : Store g s d v g' t {m} (userPte m)
  frame : g'.frame = Function.update g.frame m (.page d v)
  freelist : t.freelist = s.freelist
  read : t.mem m = s.content d v
  count : t.numallocblocks = s.numallocblocks - 1

theorem swapIn_apply (hB : Base E g s) (hS : Space g s d Set.univ) (hv : v < UVPN)
    (hs : swapped (s.pte d v) = true) {m : ℕ} (hm : g.frame m = .loose) :
    ∃ g' t, swapIn d (v * PGSIZE) (s.ptr d v) m s = .ok ((), t) ∧ SwappedIn E g s d v m g' t := by
  have htab := present_table_of_swapped hs
  have hE := hS.entry v hv trivial
  have hp : present (s.pte d v) = false := by
    cases hp : present (s.pte d v) with
    | false => rfl
    | true => rw [hE.only hp] at hs; cases hs
  set b := PTE_ADDR (s.pte d v) with hb
  have hne : (s.ptr d v).1 ≠ m := fun e => by
    have := hS.tab _ htab
    rw [show PTE_ADDR (s.mem d (pdx v)) = m from e, hm] at this
    cases this
  have hblk : ∀ x ∈ group b, g.block x = .swap d v := hE.block hs
  set t2 := (s.setFrame m (s.readPage b)).setWord (s.ptr d v).1 (s.ptr d v).2 (userPte m) with ht2
  have hB2 : Base E (g.setFrame m (.page d v)) t2 :=
    (hB.setOwner (by rw [hm]; simp) (by rw [hm]; simp) (by simp)).congr_mem rfl rfl rfl
  obtain ⟨happ, hB3⟩ := hB2.bfreePage hblk
  refine ⟨(g.setFrame m (.page d v)).setGroup b .free, t2.bfreed b, ?_, hB3, ⟨rfl, rfl, rfl, rfl⟩,
    ⟨hv.trans (by decide), htab, by rintro x rfl; exact .inr hm, fun x hxm hxt => ?_, ?_,
      fun x hx => ?_, ?_⟩, rfl, rfl, ?_, rfl⟩
  · have hget : getswappedblk d (v * PGSIZE) s = .ok (b, s) := by
      simp [getswappedblk, Kernel.lookup_of_present htab, readPte, Kernel.mem_ptr htab, hb]
    rw [swapIn, bind_apply, hget]
    simp only [readPageFromDisk, writePte, bind_apply, modify_apply, userPte_and_not_swapped]
    exact happ
  · have hxt' : x ≠ (s.ptr d v).1 := hxt
    have hxm' : x ≠ m := hxm
    simp [ht2, Kernel.bfreed, hxm', hxt']
  · simp only [ht2, Kernel.bfreed, Kernel.setWord_mem, Kernel.setFrame_mem]
    rw [show PTE_ADDR (s.mem d (pdx v)) = (s.ptr d v).1 from rfl, Function.update_self,
      Function.update_of_ne hne]
    rfl
  · rw [Ghost.setGroup_frame, g.setFrame_of_ne _ hx]
  · intro x d' v' hdv hx
    have hng : x ∉ group b := fun hxb => hdv (by
      rw [hblk x hxb] at hx
      injection hx with h1 h2
      rw [h1, h2])
    exact ⟨by rw [Ghost.setGroup_not_mem _ _ hng, Ghost.setFrame_block, hx], rfl⟩
  · rw [Kernel.content_swapped hp hs]
    simp only [ht2, Kernel.bfreed, Kernel.setWord_mem, Kernel.setFrame_mem]
    rw [Function.update_of_ne hne.symm, Function.update_self]

namespace SwappedIn

variable {m : ℕ}

theorem entry (h : SwappedIn E g s d v m g' t) (hm : m < 2 ^ 20) : EntryOk g' d v (userPte m) where
  frame _ := by rw [PTE_ADDR_userPte hm, h.frame, Function.update_self]
  only _ := swapped_userPte m
  write _ := writable_userPte m
  block hs := by simp at hs

end SwappedIn

end Xv6Lab.Paging
