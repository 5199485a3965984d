import Xv6Lab.Paging.Entries
import Xv6Lab.Paging.Fault
import Xv6Lab.Paging.ForkRounds

/-! `copyuvm` as a whole: what it does to the parent and to everybody else, and
exactly when the child gets the bytes of the parent. -/

namespace Xv6Lab.Paging

open Lib

variable {E : Env} {g g' g'' : Ghost} {s t u : Kernel} {c d v m sz pid : ℕ}

/-! ### A page that is lost -/

/-- With a frame for the copy, and one for the page table of the child if it has
none, a round succeeds. -/
theorem copyOut_total (hC : Space g s c Set.univ) (hcd : c ≠ d) (hv : v < UVPN)
    (ht : present (s.mem d (pdx v)) = true) (hcv : present (s.pte c v) = false) {g1 : Ghost} {t1 : Kernel}
    (hk : kallocOrSwap E d pid s = .ok (m, t1)) (h1 : Supplied E g s d m g1 t1)
    (hfree : t1.freelist ≠ [] ∨ present (s.mem c (pdx v)) = true) :
    ∃ g' t, copyOut E d c pid v (s.ptr d v) s = .ok (true, t) ∧
      MappedPage E g1 (t1.setFrame m (t1.mem (PTE_ADDR (s.pte d v)))) c v m
        (mapPte m (PTE_FLAGS (s.pte d v))) g' t := by
  have hm1 : g1.frame m = .loose := by rw [h1.frame, Function.update_self]
  set pg := t1.mem (PTE_ADDR (s.pte d v)) with hpg
  obtain ⟨hC1, -⟩ := hC.keeps h1.keeps (by simpa using hcd)
  obtain ⟨-, hmem1, hpte1⟩ := hC.toTree.keeps h1.keeps (by simpa using hcd)
  have hk2 : Keeps ∅ g1 t1 g1 (t1.setFrame m pg) := .setFrame hm1 pg
  obtain ⟨hC2, -⟩ := hC1.keeps hk2 (Set.notMem_empty c)
  obtain ⟨-, hmem2, hpte2⟩ := hC1.toTree.keeps hk2 (Set.notMem_empty c)
  have hB2 : Base E g1 (t1.setFrame m pg) := h1.base.congr_mem rfl rfl rfl
  rcases mappages_page_cases hB2 hC2.toTree (hv.trans (by decide)) hm1
    (PTE_FLAGS (s.pte d v)) with ⟨h0, ha, -⟩ | ⟨hpr, -⟩ | ⟨g3, t3, happ, h3⟩
  · rcases hfree with hne | hpt
    · exact absurd h0 hne
    · rw [hmem2, hmem1, hpt] at ha
      cases ha
  · rw [hpte2, hpte1, hcv] at hpr
    cases hpr
  · refine ⟨g3, t3, ?_, h3⟩
    rw [copyOut, bind_apply, readPte, bind_apply, get_apply]
    simp only [pure_apply, Kernel.mem_ptr ht, bind_apply, hk, get_apply, setFrame, modify_apply]
    exact happ

/-- A round of the copy with enough free frames: neither address space loses anything. -/
structure CopiedRound (E : Env) (s : Kernel) (d c v : ℕ) (g' : Ghost) (t : Kernel) : Prop where
  base : Base E g' t
  parent : Space g' t d Set.univ
  child : Space g' t c Set.univ
  dir : t.mem d = s.mem d
  pte : ∀ w, t.pte d w = s.pte d w
  table : present (t.mem c (pdx v)) = true
  other : ∀ w < 2 ^ 20, w ≠ v → t.pte c w = s.pte c w
  disk : SameDisk s t
  length : t.freelist.length + (if present (s.mem c (pdx v)) = true then 1 else 2) = s.freelist.length

theorem copyOut_free (hB : Base E g s) (hS : Space g s d Set.univ) (hC : Space g s c Set.univ)
    (hcd : c ≠ d) (hv : v < UVPN) (ht : present (s.mem d (pdx v)) = true)
    (hns : swapped (s.pte d v) = false) (hcv : present (s.pte c v) = false)
    (hlen : (if present (s.mem c (pdx v)) = true then 1 else 2) ≤ s.freelist.length) (pid : ℕ) :
    ∃ g' t, copyOut E d c pid v (s.ptr d v) s = .ok (true, t) ∧ CopiedRound E s d c v g' t := by
  have hpos : 1 ≤ s.freelist.length := by
    split_ifs at hlen <;> omega
  obtain ⟨m, l, hperm, hk⟩ := kallocOrSwap_of_free (E := E) (d := d)
    (List.ne_nil_of_length_pos hpos) pid
  have hl : s.freelist.length = l.length + 1 := by rw [hperm.length_eq, List.length_cons]
  have hsup := Supplied.of_free hB hS hperm
  have hfree : l ≠ [] ∨ present (s.mem c (pdx v)) = true := by
    split_ifs at hlen with h
    · exact .inr h
    · exact .inl (List.ne_nil_of_length_pos (by omega))
  obtain ⟨g', t, hout, h⟩ := copyOut_total hC hcd hv ht hcv hk hsup hfree
  refine ⟨g', t, hout, ?_⟩
  set t1 : Kernel := { s with freelist := l } with ht1
  set t2 := t1.setFrame m (t1.mem (PTE_ADDR (s.pte d v))) with ht2
  have hml : (g.setFrame m .loose).frame m = .loose := Ghost.setFrame_self _ _ _
  have hks : Keeps ∅ (g.setFrame m .loose) t1 (g.setFrame m .loose) t2 := .setFrame hml _
  obtain ⟨hS2, -⟩ := hsup.space.keeps hks (Set.notMem_empty d)
  obtain ⟨-, hmem2, hpte2⟩ := hsup.space.toTree.keeps hks (Set.notMem_empty d)
  obtain ⟨hC1, -⟩ := hC.keeps hsup.keeps (by simpa using hcd)
  obtain ⟨hC2, -⟩ := hC1.keeps hks (Set.notMem_empty c)
  obtain ⟨-, hmc2, hpc2⟩ := hC1.toTree.keeps hks (Set.notMem_empty c)
  obtain ⟨hS3, -⟩ := hS2.keeps h.keeps (by simpa using hcd.symm)
  obtain ⟨-, hmem3, hpte3⟩ := hS2.toTree.keeps h.keeps (by simpa using hcd.symm)
  have hE : EntryOk g' c v (mapPte m (PTE_FLAGS (s.pte d v))) := by
    have hlt : m < 2 ^ 20 := frame_lt hsup.base (by rw [hml]; simp)
    refine ⟨fun _ => by rw [PTE_ADDR_mapPte hlt (PTE_FLAGS_shift _), h.own], fun _ => ?_,
      fun hu => ?_, fun hs => ?_⟩
    · rw [swapped_mapPte, swapped_PTE_FLAGS, hns]
    · rw [user_mapPte, user_PTE_FLAGS] at hu
      rw [writable_mapPte, writable_PTE_FLAGS, (hS.entry v hv trivial).write hu]
    · rw [swapped_mapPte, swapped_PTE_FLAGS, hns] at hs
      cases hs
  obtain ⟨hC3, -⟩ := h.space _ hC2 (fun _ _ => hE) fun hu => absurd hv (by omega)
  refine ⟨h.base, hS3, hC3, by rw [hmem3, hmem2], fun w => by rw [hpte3, hpte2]; rfl, h.table,
    fun w hw hwv => by rw [h.pte w hw hwv, hpc2]; rfl,
    ⟨h.disk.bit, h.disk.block, h.disk.files, h.disk.count⟩, ?_⟩
  have hmeas := h.measure
  have hlt2 : t2.freelist.length = l.length := rfl
  split_ifs with hpt
  · have htab : t.tables c = t2.tables c := by
      refine congrArg Finset.card (Finset.filter_congr fun i _ => ?_)
      by_cases hi : i = pdx v
      · rw [hi, h.table, hmc2, show t1.mem c (pdx v) = s.mem c (pdx v) from rfl, hpt]
      · rw [h.other i hi]
    omega
  · have htab : t.tables c = t2.tables c + 1 := by
      refine tables_update (i := pdx v) (w := t.mem c (pdx v)) ?_ h.table ?_
      · rw [hmc2]
        simpa using hpt
      · funext i
        by_cases hi : i = pdx v
        · subst hi
          rw [Function.update_self]
        · rw [Function.update_of_ne hi, h.other i hi]
    omega

/-- A process of two pages, with twelve frames left on the free list. -/
structure Squeezed (g : Ghost) (s : Kernel) : Prop where
  inv : Inv demo g s
  running : (s.proc 0).running
  sz : (s.proc 0).sz = 0x2000
  free : s.freelist.length = 12
  present : ∀ v < 2, present (s.pte (s.dir 0) v) = true
  content : s.content (s.dir 0) 1 = fun _ => 0#32
  packed : Packed s 600

theorem exists_squeezed : ∃ g s₀ s, boot demo (fun _ => 0#32)
    (demo.powerOn (fun _ _ => 0#32) fun _ _ => 0#32) = .ok ((), s₀) ∧
      Lib.Run (Step demo) (fun s op => op.Permitted s) s₀ s ∧ Squeezed g s := by
  obtain ⟨g, s₀, d, hb, h⟩ := boot_total demo (fun _ => 0#32) (fun _ _ => 0#32) fun _ _ => 0#32
  obtain ⟨hgrow, hI⟩ := h.grow 0x2000 (by decide) (by decide)
  obtain ⟨hnp, htab⟩ := h.second_page 0x2000
  set s₁ := s₀.grown 0x2000 with hs₁
  have hdir₁ : s₁.dir 0 = d := h.grown_dir
  obtain ⟨s₂, hf, hr, hproc, hmem, hpte, hlen, hbit⟩ := handlePgfault_resolves hI.stopAtNull
    h.grown_running.live (by norm_num) hnp h.freelist_ne_nil htab
  have hstop : (Op.pagefault 0 0x1000 false).run demo.stopAtNull s₁ = .ok (none, s₂) :=
    pagefault_run h.grown_running (by norm_num) (by simp [faults, hnp]) hf
  have hnn : FollowsNoNull demo s₁ (.pagefault 0 0x1000 false) := followsNoNull_of_run hstop
  have hrun : (Op.pagefault 0 0x1000 false).run demo s₁ = .ok (none, s₂) := by
    rw [← ((Op.pagefault 0 0x1000 false).run_agrees demo).eq_of_not_bad fun e he => he ▸ hnn, hstop]
  have hperm : (Op.pagefault 0 0x1000 false).Permitted s₁ := .inl (by decide)
  obtain ⟨g₂, hI₂⟩ := Sound.step ⟨g, hI⟩ ⟨hperm, hnn⟩ ⟨none, hrun⟩
  have hdir₂ : s₂.dir 0 = d := by rw [Kernel.dir, hproc.proc]; exact hdir₁
  have hrun₂ : (s₂.proc 0).running := by rw [hproc.proc]; exact h.grown_running
  rw [hdir₁] at hmem hpte hr hbit
  have hlen₁ : s₁.freelist.length = s₀.freelist.length := rfl
  have hfree := h.free
  have hkend := demo.kend_le
  obtain ⟨g₃, l, hdr, hI₃, hl, -⟩ := drain demo s₂ 0 12 0x400000 (fun s op => op.Permitted s)
    (by norm_num) (fun _ => .inl (by decide)) hrun₂ (by rw [hdir₂, hmem]; exact h.no_table)
    (s₂.freelist.length - 12) (g := g₂) (l := s₂.freelist) hI₂ (by
      have : demo.kend = 300 := rfl
      have : NFRAMES = 1024 := by decide
      omega)
  refine ⟨g₃, s₀, { s₂ with freelist := l }, hb, ?_, hI₃, hrun₂, ?_, hl, fun v hv => ?_, ?_, ?_⟩
  · exact (Lib.Run.single (i := .sbrk 0 ((0x2000 - PGSIZE : ℕ) : ℤ)) trivial ⟨none, hgrow⟩).trans
      ((Lib.Run.single (i := .pagefault 0 0x1000 false) hperm ⟨none, hrun⟩).trans hdr)
  · rw [show (({ s₂ with freelist := l } : Kernel).proc 0).sz = (s₂.proc 0).sz from rfl, hproc.proc,
      Booted.grown_sz]
  · rw [show Kernel.pte { s₂ with freelist := l } (Kernel.dir { s₂ with freelist := l } 0) v =
      s₂.pte (s₂.dir 0) v from rfl, hdir₂]
    by_cases hv0 : v = 0
    · rw [hv0, hpte 0 (by norm_num) (by decide)]
      exact h.present
    · obtain rfl : v = 0x1000 / PGSIZE := by
        rw [show 0x1000 / PGSIZE = 1 by decide]
        omega
      exact hr.present
  · rw [show Kernel.content { s₂ with freelist := l } (Kernel.dir { s₂ with freelist := l } 0) 1 =
      s₂.content (s₂.dir 0) (0x1000 / PGSIZE) from rfl, hdir₂, Kernel.content_present hr.present]
    exact hr.bytes.trans (Kernel.content_unmapped (by rw [← hdir₁]; exact hnp) (by
      rw [show s₁.pte d (0x1000 / PGSIZE) = 0#32 from h.empty 1 (by decide) (by decide)]
      decide))
  · refine ⟨600, le_rfl, fun b => ?_⟩
    rw [show ({ s₂ with freelist := l } : Kernel).bit = s₂.bit from rfl, hbit (by
      rw [show s₁.pte d (0x1000 / PGSIZE) = 0#32 from h.empty 1 (by decide) (by decide)]
      decide)]
    exact h.bit b

theorem copyBring_present (hp : present (s.pte d v) = true)
    (hns : swapped (s.pte d v) = false) : copyBring E d pid v s = .ok (s.ptr d v, s) := by
  have ht := present_table_of_entry hp
  rw [copyBring, bind_apply, get_apply]
  simp only [Kernel.lookup_of_present ht, readPte, bind_apply, get_apply, pure_apply, Kernel.mem_ptr ht,
    hns, Bool.false_eq_true, ↓reduceIte]

/-- With twelve frames left, the directory of the child, the copy of page 0 and its
page table take all of them; page 1 is then evicted to make room for its own copy. -/
theorem Squeezed.copyuvm (h : Squeezed g s) (pid : ℕ) :
    ∃ c t, copyuvm demo.stopAtNull (s.dir 0) 0x2000 pid s = .ok (some c, t) ∧
      ¬ CopiedTo s (s.dir 0) c t 1 := by
  have hB := h.inv.base.stopAtNull
  have hS := h.inv.space 0 h.running.live
  set d := s.dir 0 with hd
  obtain ⟨c, g1, t1, hset, hN, hlen⟩ := setupkvm_total hB (by rw [h.free]; norm_num)
  rw [h.free] at hlen
  obtain ⟨hcd, hS1, hpte1, hcont1⟩ := hN.copying hS
  have hp1 : ∀ v < 2, Paging.present (t1.pte d v) = true := fun v hv => by
    rw [hpte1]
    exact h.present v hv
  have hns1 : ∀ v < 2, swapped (t1.pte d v) = false := fun v hv =>
    (hS1.entry v (by rw [UVPN_eq]; omega) trivial).only (hp1 v hv)
  -- page 0: one frame for the copy, one for the page table of the child
  have hu0 : 0 < UVPN := by decide
  have hno : Paging.present (t1.mem c (pdx 0)) = false := hN.low _ (by decide)
  obtain ⟨g2, t2, hout0, h2⟩ := copyOut_free (E := demo.stopAtNull) (v := 0) hN.base hS1 hN.space hcd hu0
    (present_table_of_entry (hp1 0 (by norm_num))) (hns1 0 (by norm_num))
    (by rw [hN.empty hu0]; decide) (by rw [hno]; simp; omega) pid
  have hfree2 : t2.freelist = [] := by
    have hlen2 := h2.length
    rw [hno] at hlen2
    simp only [Bool.false_eq_true, ↓reduceIte] at hlen2
    exact List.eq_nil_of_length_eq_zero (by omega)
  -- page 1 is its own victim
  have hS2 := h2.parent
  have hp2 : Paging.present (t2.pte d 1) = true := by
    rw [h2.pte]
    exact hp1 1 (by norm_num)
  have hns2 : swapped (t2.pte d 1) = false := (hS2.entry 1 (by decide) trivial).only hp2
  have ht2 := present_table_of_entry hp2
  have hvic : Victim t2 d 1 := ⟨le_rfl, by decide, hp2, fun v' h1 h2 => by omega⟩
  have hpk : Packed t2 600 := by
    obtain ⟨k, hk, hb⟩ := h.packed
    refine ⟨k, hk, fun b => ?_⟩
    rw [h2.disk.bit, hN.disk.bit, hb]
  have hB2 : Base demo g2 t2 := h2.base.of_stopAtNull
  obtain ⟨m', t3, hk3⟩ := demo_evict hB2 hS2 hfree2 hpk (by decide) hvic pid
  obtain ⟨g3, h3⟩ := kallocOrSwap_spec h2.base hS2 (.inl rfl) pid _ _ hk3
  have hcv2 : Paging.present (t2.pte c 1) = false := by
    rw [h2.other 1 (by norm_num) (by norm_num), hN.empty (by decide)]
    decide
  have hCt := h2.child
  obtain ⟨g4, t4, hout1, -⟩ := copyOut_total hCt hcd (by decide) ht2 hcv2 hk3 h3 (.inr h2.table)
  obtain ⟨g4', -, hhas⟩ := copyOut_spec rfl h2.base hS2 hCt hcd (by decide) ht2 hns2 pid _ _ hout1
  obtain ⟨pg, hchild, hpg⟩ := hhas rfl
  refine ⟨c, t4, ?_, fun hcp => ?_⟩
  · rw [Paging.copyuvm, bind_apply, hset]
    simp only [bind_apply]
    rw [show npages 0x2000 = 2 by decide]
    simp only [copyuvmLoop, bind_apply, copyBring_present (hp1 0 (by norm_num)) (hns1 0 (by norm_num)),
      hout0, ↓reduceIte, copyBring_present hp2 hns2, hout1, pure_apply]
  · have hself := hchild.self
    rw [hpg hp2, copied, if_pos ⟨hfree2, (selectAVictim_eq_iff hS2.toTree (by norm_num) ht2).2 hvic⟩,
      hcp.2, h.content] at hself
    have := congrFun hself 0
    simp [demo, Env.stopAtNull] at this

/-! ### When the copy is exact -/

/-- `setupkvm` takes ten frames for a new directory. -/
theorem setupkvm_length (hB : Base E g s) (h : setupkvm E s = .ok (some c, t)) :
    t.freelist.length + 10 = s.freelist.length := by
  obtain ⟨d, g', u, hset, -, hlen⟩ := setupkvm_total hB (setupkvm_some hB h)
  rw [h] at hset
  cases hset
  exact hlen

/-- The fork has a frame for the copy of page `v` other than its own: the free frames and those of
the pages from 1 up to `v` that are present or swapped are more than the directory of the child,
the pages before `v` and page `v` itself need. -/
def Kernel.FramesFor (s : Kernel) (d v : ℕ) : Prop :=
  10 + s.copyNeeds d v + s.owed d v < s.freelist.length + s.nmapped d v

instance (s : Kernel) (d v : ℕ) : Decidable (s.FramesFor d v) := inferInstanceAs (Decidable (_ < _))

theorem copyNeeds_congr (hpte : ∀ v, t.pte d v = s.pte d v) (v : ℕ) :
    t.copyNeeds d v = s.copyNeeds d v := by
  unfold Kernel.copyNeeds
  simp only [hpte]

theorem affords_iff (hlen : t.freelist.length + 10 = s.freelist.length)
    (hpte : ∀ v, t.pte d v = s.pte d v) : t.Affords d v ↔ s.FramesFor d v := by
  have ho : t.owed d v = s.owed d v := by
    unfold Kernel.owed
    rw [hpte]
  have hm : t.nmapped d v = s.nmapped d v := by
    unfold Kernel.nmapped
    exact count_congr fun w _ => by rw [Kernel.Mapped, Kernel.Mapped, hpte]
  unfold Kernel.Affords Kernel.FramesFor
  rw [copyNeeds_congr hpte, ho, hm]
  omega

/-- The child `c` holds the bytes that each page of the parent held, and the parent holds them
still. -/
def ForkFaithful (s : Kernel) (d sz c : ℕ) (t : Kernel) : Prop :=
  ∀ v < npages sz, s.Mapped d v →
    CopiedTo s d c t v ∧ t.Mapped d v ∧ t.content d v = s.content d v

/-- Page 0 is never evicted; every other page finds a frame. -/
def EnoughFrames (s : Kernel) (d sz : ℕ) : Prop :=
  ∀ v < npages sz, 1 ≤ v → s.Mapped d v → s.FramesFor d v

/-- A fork that returns a child is faithful when the frames are enough at the call, and only then
if `kfree` changes the bytes of the pages that are copied. -/
theorem copyuvm_copies_iff (hB : Base E g s) (hS : Space g s d Set.univ) (hsz : sz ≤ KERNBASE)
    (hn : copyuvm E.stopAtNull d sz pid s ≠ .error .nullPte)
    (h : copyuvm E d sz pid s = .ok (some c, t)) :
    (EnoughFrames s d sz → ForkFaithful s d sz c t) ∧
      ((∀ v < npages sz, 1 ≤ v → s.Mapped d v → ∀ f, E.fill f (s.content d v) ≠ s.content d v) →
        ForkFaithful s d sz c t → EnoughFrames s d sz) := by
  have hstop : copyuvm E.stopAtNull d sz pid s = .ok (some c, t) := by
    rw [(copyuvm_agrees E d sz pid).eq_of_not_bad fun e he => he ▸ hn, h]
  have hu := npages_le hsz
  obtain ⟨s1, hset, hloop⟩ := copyuvm_some hstop
  rw [setupkvm_stop] at hset
  have hlen := setupkvm_length hB hset
  obtain ⟨g1, hN⟩ := setupkvm_spec hB _ _ hset
  obtain ⟨hcd, hS1, hpte1, hcont1⟩ := hN.copying hS
  obtain ⟨g2, hR⟩ :=
    copyuvmLoop_rounds rfl hN.base.stopAtNull hS1 hN.space hcd hN.low hu hloop
  have hmap : ∀ v, s1.Mapped d v ↔ s.Mapped d v := fun v => by
    rw [Kernel.Mapped, Kernel.Mapped, hpte1]
  constructor
  · intro henough v hv hm
    have hm1 := (hmap v).2 hm
    have hfirst : v = 0 ∨ s1.Affords d v := by
      by_cases h0 : v = 0
      · exact .inl h0
      · exact .inr ((affords_iff hlen hpte1).2 (henough v hv (by omega) hm))
    obtain ⟨hp, hc⟩ := (hR.pages v hv hm1).1 hfirst
    refine ⟨⟨hp, ?_⟩, (hR.copying.mapped v (by omega)).2 hm1, ?_⟩
    · rw [hc, hcont1 v (by omega)]
    · rw [hR.copying.content v (by omega), hcont1 v (by omega)]
  · intro hfill hfaith v hv h1 hm
    by_contra hshort
    obtain ⟨f, hf⟩ :=
      (hR.pages v hv ((hmap v).2 hm)).2 h1 fun ha => hshort ((affords_iff hlen hpte1).1 ha)
    obtain ⟨⟨-, hc⟩, -⟩ := hfaith v hv hm
    rw [hc, hcont1 v (by omega)] at hf
    exact hfill v hv h1 hm f hf.symm

/-- Two pages and twelve frames: the copy of page 0 takes the last of them. -/
theorem Squeezed.not_enoughFrames (h : Squeezed g s) : ¬ EnoughFrames s (s.dir 0) 0x2000 := by
  intro henough
  have hS := h.inv.space 0 h.running.live
  have hframes := henough 1 (by decide) le_rfl (.inl (h.present 1 (by norm_num)))
  have h0 : swapped (s.pte (s.dir 0) 0) = false :=
    (hS.entry 0 (by decide) trivial).only (h.present 0 (by norm_num))
  have h1 : swapped (s.pte (s.dir 0) 1) = false :=
    (hS.entry 1 (by decide) trivial).only (h.present 1 (by norm_num))
  simp [Kernel.FramesFor, Kernel.copyNeeds, Kernel.owed, Kernel.nmapped, h.free, h0, h1,
    Nat.count_succ] at hframes

theorem copyuvm_copies_squeezed : ∃ s₀ s c t, boot demo (fun _ => 0#32)
    (demo.powerOn (fun _ _ => 0#32) fun _ _ => 0#32) = .ok ((), s₀) ∧
      Lib.Run (Step demo) (fun s op => op.Permitted s) s₀ s ∧
      copyuvm demo (s.dir 0) 0x2000 (s.proc 0).pid s = .ok (some c, t) ∧
      ¬ EnoughFrames s (s.dir 0) 0x2000 ∧ ¬ ForkFaithful s (s.dir 0) 0x2000 c t := by
  obtain ⟨g, s₀, s, hb, hr, h⟩ := exists_squeezed
  obtain ⟨c, t, hc, -⟩ := h.copyuvm (s.proc 0).pid
  have hn : copyuvm demo.stopAtNull (s.dir 0) 0x2000 (s.proc 0).pid s ≠ .error .nullPte := by
    rw [hc]
    simp
  have hc' : copyuvm demo (s.dir 0) 0x2000 (s.proc 0).pid s = .ok (some c, t) := by
    rw [← (copyuvm_agrees demo _ _ _).eq_of_not_bad fun e he => he ▸ hn, hc]
  obtain ⟨-, honly⟩ :=
    copyuvm_copies_iff h.inv.base (h.inv.space 0 h.running.live) (by decide) hn hc'
  refine ⟨s₀, s, c, t, hb, hr, hc', h.not_enoughFrames, fun hfaith => ?_⟩
  refine h.not_enoughFrames (honly (fun v hv h1 _ f he => ?_) hfaith)
  obtain rfl : v = 1 := by
    rw [show npages 0x2000 = 2 by decide] at hv
    omega
  rw [h.content] at he
  have := congrFun he 0
  simp [demo] at this

/-- A fork under memory pressure loses a page: the child gets what `kfree` has left
in the frame. -/
theorem copyuvm_loses_a_page : ∃ s₀ s c t, boot demo (fun _ => 0#32)
    (demo.powerOn (fun _ _ => 0#32) fun _ _ => 0#32) = .ok ((), s₀) ∧
      Lib.Run (Step demo) (fun s op => op.Permitted s) s₀ s ∧
      copyuvm demo (s.dir 0) (s.proc 0).sz (s.proc 0).pid s = .ok (some c, t) ∧
      1 < npages (s.proc 0).sz ∧ s.Mapped (s.dir 0) 1 ∧ ¬ CopiedTo s (s.dir 0) c t 1 := by
  obtain ⟨g, s₀, s, hb, hr, h⟩ := exists_squeezed
  obtain ⟨c, t, hc, hlost⟩ := h.copyuvm (s.proc 0).pid
  have hc' : copyuvm demo (s.dir 0) 0x2000 (s.proc 0).pid s = .ok (some c, t) := by
    rw [← (copyuvm_agrees demo _ _ _).eq_of_not_bad fun e he => by rw [hc]; simp, hc]
  refine ⟨s₀, s, c, t, hb, hr, ?_, ?_, .inl (h.present 1 (by norm_num)), hlost⟩
  · rw [h.sz, hc']
  · rw [h.sz]
    decide

end Xv6Lab.Paging
