import Xv6Lab.Paging.Drain

/-! Who owns the swap groups and the frames, after every run from boot: no group
and no frame has two owners, and the counter of swapped pages is right. -/

namespace Xv6Lab.Paging

open Lib

variable {E : Env} {g : Ghost} {s t : Kernel} {d v : ℕ} {init : Page} {mem : ℕ → Page}
  {block : ℕ → Block}

/-! ### Swap groups -/

/-- The swapped pages of the directory `d`. -/
def Kernel.swapEntries (s : Kernel) (d : ℕ) : Finset ℕ :=
  (Finset.range (2 ^ 20)).filter fun v => swapped (s.pte d v) = true

/-- The entries with `PTE_SWAPPED` in the page tables of the slots in use name
groups of blocks that are pairwise disjoint, hold no file block and are marked in
the bitmap, and `numallocblocks` counts them. -/
structure SwapOwned (s : Kernel) : Prop where
  disjoint : ∀ p q v w, (s.proc p).live → (s.proc q).live → v ∈ s.swapEntries (s.dir p) →
    w ∈ s.swapEntries (s.dir q) → (p, v) ≠ (q, w) →
    (group (PTE_ADDR (s.pte (s.dir p) v))).Disjoint (group (PTE_ADDR (s.pte (s.dir q) w)))
  files : ∀ p v, (s.proc p).live → v ∈ s.swapEntries (s.dir p) →
    (group (PTE_ADDR (s.pte (s.dir p) v))).Disjoint s.files
  marked : ∀ p v, (s.proc p).live → v ∈ s.swapEntries (s.dir p) →
    ∀ b ∈ group (PTE_ADDR (s.pte (s.dir p) v)), s.bit b = true
  absent : ∀ p v, (s.proc p).live → v ∈ s.swapEntries (s.dir p) →
    present (s.pte (s.dir p) v) = false
  kernel : s.swapEntries s.kpgdir = ∅
  count : s.numallocblocks = ∑ p : Slot, if (s.proc p).live then ((s.swapEntries (s.dir p)).card : ℤ) else 0

theorem Space.swapped_lt (hS : Space g s d Set.univ) (hv : v ∈ s.swapEntries d) :
    v < UVPN ∧ swapped (s.pte d v) = true := by
  obtain ⟨hlt, hsw⟩ := Finset.mem_filter.1 hv
  refine ⟨?_, hsw⟩
  by_contra hge
  rw [(hS.kern v (by omega) (Finset.mem_range.1 hlt)).2] at hsw
  cases hsw

theorem Space.card_swapEntries (hS : Space g s d Set.univ) :
    (s.swapEntries d).card = s.nswapped d := by
  rw [Kernel.nswapped, Kernel.nswappedIn]
  refine congrArg Finset.card (Finset.ext fun v => ⟨fun hv => ?_, fun hv => ?_⟩)
  · obtain ⟨hlt, hsw⟩ := hS.swapped_lt hv
    exact Finset.mem_filter.2 ⟨Finset.mem_Ico.2 ⟨Nat.zero_le v, hlt⟩, hsw⟩
  · obtain ⟨hlt, hsw⟩ := Finset.mem_filter.1 hv
    exact Finset.mem_filter.2
      ⟨Finset.mem_range.2 ((Finset.mem_Ico.1 hlt).2.trans (by decide)), hsw⟩

theorem Inv.swapOwned (hI : Inv E g s) : SwapOwned s := by
  have hown : ∀ p v, (s.proc p).live → v ∈ s.swapEntries (s.dir p) →
      present (s.pte (s.dir p) v) = false ∧
      ∀ b ∈ group (PTE_ADDR (s.pte (s.dir p) v)), g.block b = .swap (s.dir p) v := by
    intro p v hp hv
    obtain ⟨hlt, hsw⟩ := (hI.space p hp).swapped_lt hv
    have hE := (hI.space p hp).entry v hlt trivial
    refine ⟨?_, hE.block hsw⟩
    by_contra hpr
    rw [hE.only (by simpa using hpr)] at hsw
    cases hsw
  refine ⟨fun p q v w hp hq hv hw hne b hb hb' => ?_, fun p v hp hv b hb hf => ?_,
    fun p v hp hv b hb => ?_, fun p v hp hv => (hown p v hp hv).1, ?_, ?_⟩
  · have h1 := (hown p v hp hv).2 b hb
    rw [(hown q w hq hw).2 b hb'] at h1
    injection h1 with h2 h3
    exact hne (by rw [hI.inj q p hq hp h2, h3])
  · have h1 := (hown p v hp hv).2 b hb
    rw [(hI.base.files b).1 hf] at h1
    cases h1
  · exact hI.base.used b (by rw [(hown p v hp hv).2 b hb]; simp)
  · refine Finset.filter_eq_empty_iff.2 fun v hv => ?_
    rw [(hI.kentry v (Finset.mem_range.1 hv)).2]
    simp
  · rw [hI.count]
    refine Finset.sum_congr rfl fun p _ => ?_
    split_ifs with hp
    · rw [(hI.space p hp).card_swapEntries]
    · rfl

/-! ### Frames -/

/-- The frame `f` belongs to the address space of slot `p`: it is its directory, one
of its page tables, its kernel stack, or named by an entry below `KERNBASE`. -/
inductive Kernel.Refers (s : Kernel) (p : Slot) (f : ℕ) : Prop
  | dir (h : s.dir p = f)
  | tab (i : Fin 1024) (hi : present (s.mem (s.dir p) i) = true) (h : PTE_ADDR (s.mem (s.dir p) i) = f)
  | kstack (h : (s.proc p).kstack = f)
  | page (v : ℕ) (hv : v < UVPN) (hp : present (s.pte (s.dir p) v) = true)
      (h : PTE_ADDR (s.pte (s.dir p) v) = f)

/-- No frame on the free list belongs to a slot in use or to the kernel's page
tables, and no frame is named by two entries below `KERNBASE`. -/
structure FramesOwned (s : Kernel) : Prop where
  free : ∀ f ∈ s.freelist, ∀ p, (s.proc p).live → ¬ s.Refers p f
  kernel : ∀ f ∈ s.freelist, s.kpgdir ≠ f ∧
    ∀ i, present (s.mem s.kpgdir i) = true → PTE_ADDR (s.mem s.kpgdir i) ≠ f
  user : ∀ p q v w, (s.proc p).live → (s.proc q).live → v < UVPN → w < UVPN →
    present (s.pte (s.dir p) v) = true → present (s.pte (s.dir q) w) = true →
    PTE_ADDR (s.pte (s.dir p) v) = PTE_ADDR (s.pte (s.dir q) w) → (p, v) = (q, w)

theorem Inv.framesOwned (hI : Inv E g s) : FramesOwned s := by
  refine ⟨fun f hf p hp hr => ?_, fun f hf => ⟨?_, ?_⟩, fun p q v w hp hq hv hw hpv hpw he => ?_⟩
  · have hfree := (hI.base.free f).1 hf
    have hS := hI.space p hp
    cases hr with
    | dir h => rw [← h, hS.dir] at hfree; cases hfree
    | tab i hi h => rw [← h, hS.tab i hi] at hfree; cases hfree
    | kstack h => rw [← h, hI.kstack p hp] at hfree; cases hfree
    | page v hv hpr h => rw [← h, (hS.entry v hv trivial).frame hpr] at hfree; cases hfree
  · rintro rfl
    have := (hI.base.free _).1 hf
    rw [hI.ktree.dir] at this
    cases this
  · rintro i hi rfl
    have := (hI.base.free _).1 hf
    rw [hI.ktree.tab i hi] at this
    cases this
  · have h1 := ((hI.space p hp).entry v hv trivial).frame hpv
    rw [he, ((hI.space q hq).entry w hw trivial).frame hpw] at h1
    injection h1 with h2 h3
    rw [hI.inj q p hq hp h2, h3]

/-! ### From boot -/

theorem Step.permitted {op : Op} (h : Step E s op t) (hI : Inv E g s) (hok : op.InSize s) :
    op.Permitted s := by
  cases op with
  | pagefault p va write =>
    obtain ⟨r, hr⟩ := h
    have hsz := hI.size p (entry_running hr).live
    exact .inl (hok.trans_le hsz)
  | sysSwap p addr => exact hok
  | load p va => exact hok
  | store p va b => exact hok
  | _ => trivial

theorem booted_of_boot (hb : boot E init (E.powerOn mem block) = .ok ((), s)) :
    ∃ g d, Booted E init g s d := by
  obtain ⟨g, s', d, hs, h⟩ := boot_total E init mem block
  rw [hs] at hb
  cases hb
  exact ⟨g, d, h⟩

/-- After every run from boot whose steps follow no null entry pointer, each swap
group has one owner and the counter is right. -/
theorem swap_slots_owned (hb : boot E init (E.powerOn mem block) = .ok ((), s))
    (hr : Lib.Run (Step E) (fun s op => op.InSize s ∧ FollowsNoNull E s op) s t) : SwapOwned t := by
  obtain ⟨g, d, h⟩ := booted_of_boot hb
  have hS : Sound E t := hr.invariant ⟨g, h.inv⟩ fun {t u op} ⟨g, hI⟩ hg hs =>
    Sound.step ⟨g, hI⟩ ⟨hs.permitted hI hg.1, hg.2⟩ hs
  obtain ⟨g', hI⟩ := hS
  exact hI.swapOwned

theorem swap_slots_owned_first : ∃ s t, boot demo (fun _ => 0#32)
    (demo.powerOn (fun _ _ => 0#32) fun _ _ => 0#32) = .ok ((), s) ∧
      (Op.sysSwap 0 0).run demo s = .ok (none, t) ∧ swapped (t.pte (s.dir 0) 0) = true ∧
      SwapOwned t := by
  obtain ⟨g, s, d, hb, h⟩ := boot_total demo (fun _ => 0#32) (fun _ _ => 0#32) fun _ _ => 0#32
  obtain ⟨t, ht⟩ := h.swapFirst
  refine ⟨s, t, hb, ht.run, ht.swapped, swap_slots_owned hb ?_⟩
  exact .single (i := .sysSwap 0 0) ⟨show 0 < KERNBASE by decide, ht.followsNoNull⟩ ⟨none, ht.run⟩

/-- Without a free frame `sys_swap` takes the first word of page 0 for an entry. The
page it names is counted as swapped, and no entry says so. -/
theorem swap_slots_not_owned : ∃ s t, boot demo (fun _ => 0#32)
    (demo.powerOn (fun _ _ => 0#32) fun _ _ => 0#32) = .ok ((), s) ∧
      Lib.Run (Step demo) (fun s op => op.InSize s) s t ∧ ¬ SwapOwned t := by
  obtain ⟨g, s, d, hb, h⟩ := boot_total demo (fun _ => 0#32) (fun _ _ => 0#32) fun _ _ => 0#32
  obtain ⟨f, l, hl⟩ := List.exists_cons_of_length_pos (show 0 < s.freelist.length by
    have := h.free
    have := demo.kend_le
    omega)
  have hfree : g.frame f = .free := (h.inv.base.free f).1 (by simp [hl])
  obtain ⟨h1, h2⟩ := h.inv.base.range f (by simp [hfree])
  obtain ⟨g', u, m', hrun, hc, -⟩ := h.cornered (userPte f) fun _ => 0#8
  obtain ⟨b, t, ht⟩ := hc.nullSwapped h.bit h1 h2
  have hcornered : Lib.Run (Step demo) (fun s op => op.InSize s) s u :=
    hrun.map Prod.fst (fun _ _ hm => hm.2.1) fun _ hs => hs.1
  refine ⟨s, t, hb, .tail hcornered (i := .sysSwap 0 0x400000)
    (show 0x400000 < KERNBASE by decide) ⟨none, ht.run⟩, fun hO => ?_⟩
  have hpte := (ht.free_frame hc (by simp [hl])).1
  have hcount : t.numallocblocks = u.numallocblocks := by
    rw [hO.count, hc.inv.swapOwned.count]
    refine Finset.sum_congr rfl fun p _ => ?_
    rw [ht.proc.proc]
    split_ifs with hp
    · have : t.swapEntries (t.dir p) = u.swapEntries (u.dir p) := by
        rw [Kernel.swapEntries, Kernel.swapEntries,
          show t.dir p = u.dir p by rw [Kernel.dir, Kernel.dir, ht.proc.proc]]
        exact Finset.filter_congr fun v _ => by rw [hpte p hp v]
      rw [this]
    · rfl
  rw [ht.count] at hcount
  omega

/-- After every run from boot whose steps follow no null entry pointer and do not
map over the kernel half, each frame has one owner. -/
theorem frames_owned (hb : boot E init (E.powerOn mem block) = .ok ((), s))
    (hr : Lib.Run (Step E) (Safe E) s t) : FramesOwned t := by
  obtain ⟨g, d, h⟩ := booted_of_boot hb
  obtain ⟨g', hI⟩ := Sound.run ⟨g, h.inv⟩ hr
  exact hI.framesOwned

theorem frames_owned_grown : ∃ s t, boot demo (fun _ => 0#32)
    (demo.powerOn (fun _ _ => 0#32) fun _ _ => 0#32) = .ok ((), s) ∧ (t.proc 0).sz = 0x800000 ∧
      FramesOwned t := by
  obtain ⟨g, s, d, hb, h⟩ := boot_total demo (fun _ => 0#32) (fun _ _ => 0#32) fun _ _ => 0#32
  obtain ⟨t, hr, hsz⟩ := h.grow_and_fault
  exact ⟨s, t, hb, hsz, frames_owned hb (hr.mono fun _ _ h => h.2)⟩

/-- Without a free frame `sys_swap` takes the first word of page 0 for an entry and
frees the frame it names: the page directory of the process. -/
theorem frames_not_owned : ∃ s t, boot demo (fun _ => 0#32)
    (demo.powerOn (fun _ _ => 0#32) fun _ _ => 0#32) = .ok ((), s) ∧
      Lib.Run (Step demo) (fun s op => op.Permitted s) s t ∧ ¬ FramesOwned t := by
  obtain ⟨g, s, d, hb, h⟩ := boot_total demo (fun _ => 0#32) (fun _ _ => 0#32) fun _ _ => 0#32
  have hdir : g.frame (s.dir 0) = .dir (s.dir 0) := (h.inv.space 0 h.running.live).dir
  obtain ⟨h1, h2⟩ := h.inv.base.range (s.dir 0) (by simp [hdir])
  obtain ⟨g', u, m', hrun, hc, -⟩ := h.cornered (userPte (s.dir 0)) fun _ => 0#8
  obtain ⟨b, t, ht⟩ := hc.nullSwapped h.bit h1 h2
  have hcornered : Lib.Run (Step demo) (fun s op => op.Permitted s) s u :=
    hrun.map Prod.fst (fun _ _ hm => hm.2.2) fun _ hs => hs.1
  refine ⟨s, t, hb, .tail hcornered (i := .sysSwap 0 0x400000)
    (show 0x400000 < KERNBASE by decide) ⟨none, ht.run⟩, fun hO => ?_⟩
  have htdir : t.dir 0 = s.dir 0 := by
    rw [Kernel.dir, ht.proc.proc]
    exact hc.dir
  exact hO.free (s.dir 0) (by simp [ht.freelist]) 0 (by rw [ht.proc.proc]; exact hc.running.live)
    (.dir htdir)

end Xv6Lab.Paging
