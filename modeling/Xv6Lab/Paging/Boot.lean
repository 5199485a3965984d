import Xv6Lab.Paging.Runs

/-! The boot sequence. With the frames that the kernel image leaves it always
succeeds, and the first process starts with one page, whose page table covers the
first four megabytes. -/

namespace Xv6Lab.Paging

open Lib

variable {E : Env} {g g' : Ghost} {s t : Kernel} {d k : ℕ} {init : Page} {mem : ℕ → Page}
  {block : ℕ → Block}

/-- The owners at power on. -/
def Env.owners (E : Env) : Ghost where
  frame f := if E.kend ≤ f ∧ f < NFRAMES then .free else .kernel
  block b := if b < E.nmeta then .sys else if b < E.used then .file else .free

theorem powerOn_base (E : Env) (mem : ℕ → Page) (block : ℕ → Block) :
    Base E E.owners (E.powerOn mem block) where
  nodup := List.nodup_reverse.2 (List.nodup_range' ..)
  free f := by
    have := E.kend_le
    simp only [Env.powerOn, Env.owners, List.mem_reverse, List.mem_range'_1]
    split_ifs with h
    · simp only [iff_true]
      omega
    · simp only [iff_false]
      omega
  range f h := by
    simp only [Env.owners] at h
    split_ifs at h with hf
    · exact hf
    · exact absurd rfl h
  used b h := by
    simp only [Env.owners] at h
    have := E.nmeta_le
    simp only [Env.powerOn, decide_eq_true_eq]
    split_ifs at h <;> first | omega | exact absurd rfl h
  files b := by
    have := E.nmeta_le
    simp only [Env.powerOn, Env.owners, List.mem_range'_1]
    split_ifs <;> simp only [iff_false, iff_true] <;> omega
  filesNodup := List.nodup_range' ..
  sys b h := if_pos h

/-- The state of the machine after boot: process 0 runs in the directory `d`, in
which page 0 alone is mapped. -/
structure Booted (E : Env) (init : Page) (g : Ghost) (s : Kernel) (d : ℕ) : Prop where
  inv : Inv E g s
  state : (s.proc 0).state = .RUNNABLE
  dir : s.dir 0 = d
  sz : (s.proc 0).sz = PGSIZE
  unused : ∀ q, q ≠ 0 → (s.proc q).state = .UNUSED
  initproc : s.initproc = 0
  present : present (s.pte d 0) = true
  user : user (s.pte d 0) = true
  writable : writable (s.pte d 0) = true
  content : s.content d 0 = init
  table : Paging.present (s.mem d 0) = true
  low : ∀ i : Fin 1024, i.val < 512 → i ≠ 0 → Paging.present (s.mem d i) = false
  empty : ∀ v < UVPN, v ≠ 0 → s.pte d v = 0#32
  free : s.freelist.length + 23 = NFRAMES - E.kend
  bit : ∀ b, s.bit b = decide (b < E.used)
  count : s.numallocblocks = 0

theorem findSlot_zero {f : Slot → Bool} (h : f 0 = true) : findSlot f = some 0 := by
  rw [findSlot, show List.finRange 64 = 0 :: (List.finRange 64).tail by rfl, List.find?_cons, h]

theorem allocproc_first (hu : ∀ q, s.proc q = Proc.unused) (hf : s.freelist ≠ []) :
    ∃ k l, s.freelist.Perm (k :: l) ∧
      allocproc E s = .ok (some 0, { s with
        freelist := l, nextpid := s.nextpid + 1
        proc := Function.update s.proc 0 { Proc.unused with
          state := .EMBRYO, pid := s.nextpid, kstack := k } }) := by
  have hz : findSlot (fun q => (s.proc q).state = .UNUSED) = some 0 :=
    findSlot_zero (by simp [hu, Proc.unused])
  rw [allocproc, bind_apply, get_apply]
  simp only [hz, bind_apply, modify_apply]
  rcases kalloc_cases E { s.setProc 0 { s.proc 0 with state := .EMBRYO, pid := s.nextpid } with
    nextpid := s.nextpid + 1 } with ⟨h0, -⟩ | ⟨k, l, hp, hk⟩
  · exact absurd h0 hf
  · refine ⟨k, l, hp, ?_⟩
    rw [hk]
    simp only [bind_apply, modify_apply, pure_apply, Kernel.setProc, Function.update_idem, hu]

/-- Load the initcode into an empty address space. -/
theorem inituvm_total (hB : Base E g s) (hS : Space g s d Set.univ) (he : ∀ v < UVPN, s.pte d v = 0#32)
    (hl : ∀ i : Fin 1024, i.val < 512 → present (s.mem d i) = false) (hf : 2 ≤ s.freelist.length)
    (init : Page) : ∃ g' t, inituvm E d init s = .ok ((), t) ∧ Base E g' t ∧ SameProc s t ∧
      SameDisk s t ∧ Keeps {d} g s g' t ∧ Space g' t d Set.univ ∧
      (∃ m, t.pte d 0 = mapPte m (PTE_W ||| PTE_U)) ∧ t.content d 0 = init ∧
      present (t.mem d 0) = true ∧ (∀ i : Fin 1024, i ≠ 0 → t.mem d i = s.mem d i) ∧
      (∀ v < UVPN, v ≠ 0 → t.pte d v = 0#32) ∧ t.freelist.length + 2 = s.freelist.length := by
  rcases kalloc_cases E s with ⟨h0, -⟩ | ⟨m, l, hp, hk⟩
  · rw [h0] at hf
    simp at hf
  obtain ⟨hfree, hB1⟩ := hB.kalloc hp
  set s1 : Kernel := { s with freelist := l } with hs1
  have hK1 : Keeps ∅ g s (g.setFrame m .loose) s1 :=
    ⟨fun x hx => g.setFrame_of_ne _ (by rintro rfl; rw [hfree] at hx; exact hx), fun _ _ => rfl,
      fun _ _ => rfl, fun _ _ => rfl⟩
  obtain ⟨hS1, -⟩ := hS.keeps hK1 (Set.notMem_empty d)
  have hlen : s.freelist.length = l.length + 1 := by rw [hp.length_eq, List.length_cons]
  have hlt : m < 2 ^ 20 := frame_lt hB (by rw [hfree]; simp)
  rcases mappages_page_cases (v := 0) hB1 hS1.toTree (by norm_num) (Ghost.setFrame_self g m .loose)
    (PTE_W ||| PTE_U) with ⟨h0, -⟩ | ⟨hpr, -⟩ | ⟨g2, t2, happ, h2⟩
  · rw [hs1] at h0
    simp only at h0
    rw [h0] at hlen
    simp only [List.length_nil] at hlen
    omega
  · have : s1.pte d 0 = 0#32 := he 0 (by decide)
    rw [this] at hpr
    simp at hpr
  obtain ⟨hu, hw⟩ := user_mapPte_WU m
  have hself := h2.self
  have haddr : PTE_ADDR (t2.pte d 0) = m := by rw [hself, PTE_ADDR_mapPte hlt (by decide)]
  have hpr2 : present (t2.pte d 0) = true := by rw [hself, present_mapPte]
  obtain ⟨hS2, -⟩ := h2.space _ hS1 (fun _ _ => ⟨fun _ => by
    rw [PTE_ADDR_mapPte hlt (by decide), h2.own], fun _ => hw.2, fun _ => hw.1, fun h => by
    rw [hw.2] at h; cases h⟩) fun h => absurd h (by decide)
  obtain ⟨hB3, hK3, hS3, hpte3, hc3, -⟩ := hS2.write h2.base (by decide) hpr2 init
  rw [haddr] at hB3 hK3 hS3 hpte3 hc3
  have htab : t2.tables d = s1.tables d + 1 := by
    have h0 : pdx 0 = 0 := rfl
    refine tables_update (i := 0) (w := t2.mem d 0) (hl 0 (by norm_num)) h2.table ?_
    funext i
    by_cases hi : i = 0
    · subst hi; simp
    · rw [Function.update_of_ne hi, h2.other i (by rwa [h0])]
  have hmd : m ≠ d := by
    rintro rfl
    rw [hS.dir] at hfree
    cases hfree
  refine ⟨g2, t2.setFrame m init, ?_, hB3, ⟨h2.proc.proc, h2.proc.kpgdir, h2.proc.initproc,
    h2.proc.nextpid⟩, ⟨h2.disk.bit, h2.disk.block, h2.disk.files, h2.disk.count⟩,
    ((hK1.mono (Set.empty_subset _)).trans h2.keeps).trans hK3, hS3, ⟨m, by rw [hpte3, hself]⟩, hc3,
    ?_, fun i hi => ?_, fun v hv hv0 => ?_, ?_⟩
  · rw [inituvm, bind_apply, hk]
    simp only [bind_apply]
    rw [show (0 : ℕ) = 0 * PGSIZE by rfl, happ]
    rfl
  · rw [Kernel.setFrame_mem, Function.update_of_ne hmd.symm]
    exact h2.table
  · rw [Kernel.setFrame_mem, Function.update_of_ne hmd.symm]
    exact h2.other i hi
  · rw [hpte3, h2.pte v (hv.trans (by decide)) hv0]
    exact he v hv
  · have := h2.measure
    rw [htab] at this
    change t2.freelist.length + 2 = _
    have hl1 : s1.freelist.length = l.length := rfl
    omega

/-- Boot succeeds. -/
theorem boot_total (E : Env) (init : Page) (mem : ℕ → Page) (block : ℕ → Block) :
    ∃ g s d, boot E init (E.powerOn mem block) = .ok ((), s) ∧ Booted E init g s d := by
  set s0 := E.powerOn mem block with hs0
  have hB0 : Base E E.owners s0 := powerOn_base E mem block
  have hlen0 : s0.freelist.length = NFRAMES - E.kend := by simp [hs0, Env.powerOn]
  have hkend := E.kend_le
  obtain ⟨d0, g1, s1, happ1, h1, hlen1⟩ := setupkvm_total hB0 (by omega)
  set s1' : Kernel := { s1 with kpgdir := d0 } with hs1'
  have hproc1 : ∀ q, s1'.proc q = Proc.unused := fun q => by
    rw [hs1']
    simp only [h1.proc.proc, hs0, Env.powerOn]
  obtain ⟨k, l, hp2, happ2⟩ := allocproc_first (E := E) hproc1
    (List.ne_nil_of_length_pos (show 0 < s1.freelist.length by omega))
  have hlen2 : s1.freelist.length = l.length + 1 := by
    rw [show s1.freelist = s1'.freelist from rfl, hp2.length_eq, List.length_cons]
  have hB1 : Base E g1 s1' := h1.base.congr_mem rfl rfl rfl
  obtain ⟨hfree2, hB2⟩ := hB1.kalloc hp2
  set g2 := g1.setFrame k (.kstack 0) with hg2
  have hB2' : Base E g2 { s1' with freelist := l } := by
    have := hB2.setOwner (f := k) (o := .kstack 0) (by simp) (by simp) (by simp)
    rwa [show (g1.setFrame k .loose).setFrame k (.kstack 0) = g2 by simp [hg2, Ghost.setFrame]] at this
  set x : Proc := { Proc.unused with state := .EMBRYO, pid := s1'.nextpid, kstack := k } with hx
  set s2 : Kernel := { s1' with
    freelist := l, nextpid := s1'.nextpid + 1, proc := Function.update s1'.proc 0 x, initproc := 0 }
    with hs2
  have hK2 : Keeps ∅ g1 s1 g2 s2 :=
    ⟨fun y hy => g1.setFrame_of_ne _ fun e => by rw [e, hfree2] at hy; exact hy, fun _ _ => rfl,
      fun _ _ => rfl, fun _ _ => rfl⟩
  obtain ⟨d, g3, s3, happ3, h3, hlen3⟩ := setupkvm_total (s := s2) (g := g2)
    (hB2'.congr_mem rfl rfl rfl) (by change 10 ≤ l.length; omega)
  set s3' := s3.setProc 0 { s3.proc 0 with pgdir := d } with hs3'
  have hK3 : Keeps ∅ g3 s3 g3 s3' := .of_same rfl rfl
  obtain ⟨g4, s4, happ4, hB4, hP4, hD4, hK4, hS4, ⟨m, hself⟩, hc4, ht4, hl4, he4, hlen4⟩ :=
    inituvm_total (s := s3') (g := g3) (d := d) (h3.base.congr_mem rfl rfl rfl) (h3.space.of_mem rfl)
      (fun v hv => h3.empty hv) h3.low (by
        change 2 ≤ s3.freelist.length
        have : s2.freelist.length = l.length := rfl
        omega) init
  set s5 := s4.setProc 0 { s4.proc 0 with sz := PGSIZE, state := .RUNNABLE } with hs5
  have hK5 : Keeps ∅ g4 s4 g4 s5 := .of_same rfl rfl
  have hself5 : s5.proc 0 = { x with pgdir := d, sz := PGSIZE, state := .RUNNABLE } := by
    simp [hs5, hP4.proc, hs3', h3.proc.proc, hs2]
  have hoth5 : ∀ q, q ≠ 0 → s5.proc q = Proc.unused := fun q hq => by
    simp [hs5, hP4.proc, hs3', h3.proc.proc, hs2, hq, hproc1]
  have hd0 : d0 ≠ d := by
    rintro rfl
    have := h3.old
    rw [hg2, g1.setFrame_of_ne _ (by rintro rfl; rw [h1.space.dir] at hfree2; cases hfree2),
      h1.space.dir] at this
    cases this
  have hL2 : Leaves {d} g2 s2 g4 s5 :=
    ((h3.keeps.trans hK3).leaves.mono (Set.empty_subset _)).trans
      (hK4.leaves.trans (hK5.leaves.mono (Set.empty_subset _)))
  have hL : Leaves {d} g1 s1 g4 s5 := (hK2.leaves.mono (Set.empty_subset _)).trans hL2
  obtain ⟨hT5, -, hpte5⟩ := hL.tree d0 (by simpa using hd0) h1.space.toTree
  have hk5 : s5.kpgdir = d0 := by
    rw [show s5.kpgdir = s4.kpgdir from rfl, hP4.kpgdir]
    exact h3.proc.kpgdir
  have hdir5 : s5.dir 0 = d := by rw [Kernel.dir, hself5]
  have hlive : ∀ q, (s5.proc q).live → q = 0 := fun q hq => by
    by_contra h0
    rw [hoth5 q h0] at hq
    exact hq rfl
  have hnum : s5.numallocblocks = 0 := by
    rw [show s5.numallocblocks = s4.numallocblocks from rfl, hD4.count]
    exact h3.disk.count.trans h1.disk.count
  have hS5 : Space g4 s5 d Set.univ := hS4.of_mem rfl
  obtain ⟨hu, hw⟩ := user_mapPte_WU m
  have hswap : ∀ v < UVPN, swapped (s5.pte d v) = false := fun v hv => by
    by_cases hv0 : v = 0
    · subst hv0
      rw [show s5.pte d 0 = s4.pte d 0 from rfl, hself, hw.2]
    · rw [show s5.pte d v = s4.pte d v from rfl, he4 v hv hv0]
      decide
  refine ⟨g4, s5, d, ?_, ⟨⟨hB4.congr_mem rfl rfl rfl, fun q hq => ?_, fun q hq => ?_,
    fun q r hq hr _ => ?_, fun q hq => ?_, fun q => ?_, ?_, fun q hq => ?_, fun v hv => ?_, ?_⟩,
    ?_, hdir5, ?_, fun q hq => ?_, ?_, ?_, ?_, ?_, hc4, ht4, fun i hi hi0 => ?_, he4, ?_, fun b => ?_,
    hnum⟩⟩
  · rw [boot, bind_apply, happ1]
    simp only [bind_apply, modify_apply]
    rw [happ2]
    simp only [bind_apply, modify_apply]
    rw [happ3]
    simp only [bind_apply, modify_apply]
    rw [happ4]
  · rw [hlive q hq, hdir5]
    exact hS5
  · rw [hlive q hq, hself5]
    exact hL2.kstack _ _ (Ghost.setFrame_self _ _ _)
  · rw [hlive q hq, hlive r hr]
  · rw [hlive q hq, hself5]
    exact show PGSIZE ≤ KERNBASE by decide
  · by_cases hq : q = 0
    · rw [hq, hself5]; simp
    · rw [hoth5 q hq]; simp [Proc.unused]
  · rw [hk5]
    exact hT5
  · rw [hlive q hq, hdir5, hk5]
    exact hd0.symm
  · rw [hk5, hpte5]
    by_cases hlt : v < UVPN
    · rw [h1.empty hlt]
      decide
    · exact h1.space.kern v (by omega) hv
  · rw [hnum]
    refine (Finset.sum_eq_zero fun q _ => ?_).symm
    split_ifs with hq
    · rw [hlive q hq, hdir5, nswapped_eq_zero hswap]
      rfl
    · rfl
  · rw [hself5]
  · rw [hself5]
  · rw [hoth5 q hq]
    rfl
  · rw [show s5.initproc = s4.initproc from rfl, hP4.initproc]
    exact h3.proc.initproc
  · rw [show s5.pte d 0 = s4.pte d 0 from rfl, hself, present_mapPte]
  · rw [show s5.pte d 0 = s4.pte d 0 from rfl, hself, hu]
  · rw [show s5.pte d 0 = s4.pte d 0 from rfl, hself, hw.1]
  · rw [show s5.mem d i = s4.mem d i from rfl, hl4 i hi0]
    exact h3.low i hi
  · rw [show s5.freelist = s4.freelist from rfl]
    have e3 : s3'.freelist.length = s3.freelist.length := rfl
    have e2 : s2.freelist.length = l.length := rfl
    omega
  · rw [show s5.bit = s4.bit from rfl, hD4.bit, show s3'.bit = s3.bit from rfl, h3.disk.bit,
      show s2.bit = s1.bit from rfl, h1.disk.bit]
    rfl

end Xv6Lab.Paging
