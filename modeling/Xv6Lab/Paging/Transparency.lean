import Xv6Lab.Paging.Fault
import Xv6Lab.Paging.Ownership

/-! Swapping is invisible: a process that runs among others reads back what it has
stored. The abstract memory of a process is a function from addresses to bytes that
its own stores alone change; the machine refines it in every run that follows no
null entry pointer. -/

namespace Xv6Lab.Paging

open Lib

variable {E : Env} {g : Ghost} {s t : Kernel} {p : Slot} {d v va : ℕ} {op : Op}

/-- The byte at `va` of the address space `d`. -/
def Kernel.byte (s : Kernel) (d va : ℕ) : Byte := byteAt (s.content d (va / PGSIZE)) va

/-- A process as `exec` leaves it: the pages that user code cannot reach hold
zeros, and no page is mapped beyond its size. -/
structure Fresh (s : Kernel) (p : Slot) : Prop where
  running : (s.proc p).running
  guard : ∀ v < UVPN, present (s.pte (s.dir p) v) = true → user (s.pte (s.dir p) v) = false →
    s.content (s.dir p) v = fun _ => 0#32
  above : ∀ v < UVPN, npages (s.proc p).sz ≤ v → s.pte (s.dir p) v = 0#32

/-- The initial image of a process: what its pages hold, and zeros beyond them. -/
def Kernel.image (s : Kernel) (p : Slot) : Memory := fun va =>
  if va / PGSIZE < npages (s.proc p).sz then s.byte (s.dir p) va else 0#8

/-- The memory of `p` is what its address space holds. -/
structure Shows (E : Env) (p : Slot) (x : Kernel × Memory) : Prop where
  sound : Sound E x.1
  running : (x.1.proc p).running
  guard : ∀ v < UVPN, present (x.1.pte (x.1.dir p) v) = true → user (x.1.pte (x.1.dir p) v) = false →
    x.1.content (x.1.dir p) v = fun _ => 0#32
  bytes : ∀ va < KERNBASE, x.1.byte (x.1.dir p) va = x.2 va

theorem Fresh.shows (h : Fresh s p) (hs : Sound E s) : Shows E p (s, s.image p) where
  sound := hs
  running := h.running
  guard := h.guard
  bytes va hva := by
    simp only [Kernel.image]
    split_ifs with hlt
    · rfl
    · have h0 := h.above (va / PGSIZE) (page_lt_UVPN hva) (by omega)
      rw [Kernel.byte, Kernel.content_unmapped (by rw [h0]; decide) (by rw [h0]; decide), byteAt_zero]

/-! ### One step -/

theorem Op.Around.inSize (h : op.Around p s) (hI : Inv E g s) (hst : Step E s op t) :
    op.InSize s := by
  have hlt : ∀ q va, (s.proc q).running → va < (s.proc q).sz → va < 2 ^ 32 := fun q va hq hva =>
    (hva.trans_le (hI.size q hq.live)).trans (by decide)
  obtain ⟨r, hr⟩ := hst
  cases op with
  | pagefault q va write => exact h
  | sysSwap q addr => exact h
  | load q va => exact hlt q va (entry_running hr) h
  | store q va b => exact hlt q va (entry_running hr) h
  | _ => trivial

/-- An operation that leaves the pages of `p` alone. -/
theorem Kept.shows {m : Memory} (hK : Kept p s t) (h : Shows E p (s, m)) (hs : Sound E t) :
    Shows E p (t, m) where
  sound := hs
  running := hK.running h.running
  guard v hv hp hu := by
    rw [hK.dir] at hp hu ⊢
    have e := hK.guard v hv hp hu
    rw [e] at hp hu
    rw [hK.content v hv, h.guard v hv hp hu]
  bytes va hva := by
    rw [hK.dir, Kernel.byte, hK.content _ (page_lt_UVPN hva)]
    exact h.bytes va hva

/-- A fault of `p` changes no byte of `p`. -/
theorem takeFault_kept {write : Bool} (hst : E.strict = true) (hI : Inv E g s)
    (hp : (s.proc p).running) (hva : va < KERNBASE)
    (hguard : ∀ v < UVPN, present (s.pte (s.dir p) v) = true → user (s.pte (s.dir p) v) = false →
      s.content (s.dir p) v = fun _ => 0#32) :
    wp (takeFault E p va write) (fun _ t => Kept p s t) s := by
  have hS := hI.space p hp.live
  have hv := page_lt_UVPN hva
  rw [takeFault, wp_bind, wp_get]
  split_ifs with hf
  · rw [handlePgfault, wp_bind, wp_get]
    refine wp_mono (mapAddress_lives hst hI.base hS (PGROUNDDOWN_lt hf.1) (.inl ?_) fun hpr => ?_) ?_
    · rwa [PGROUNDDOWN_div]
    · rw [PGROUNDDOWN_div] at hpr ⊢
      exact hguard _ hv hpr (user_of_faults hS (hv.trans (by decide)) hf.2 hpr)
    · rintro - t ⟨g', h⟩
      exact h.kept
  · simp

/-- A store of `p` changes the byte that is stored. -/
theorem Shows.store {m : Memory} {b : Byte} (h : Shows E p (s, m))
    (hva : va < 2 ^ 32) :
    wp (userStore p va b) (fun _ t => Sound E t → Shows E p (t, Function.update m va b)) s := by
  obtain ⟨g, hI⟩ := h.sound
  refine wp_mono (userStore_spec hI.base (hI.space p h.running.live) hva) ?_
  rintro - t ⟨g', hT, hguard, hself⟩ hs
  have hdir : t.dir p = s.dir p := by rw [Kernel.dir, Kernel.dir, hT.proc.proc]
  refine ⟨hs, by rw [hT.proc.proc]; exact h.running, fun v hv hp hu => ?_, fun a ha => ?_⟩
  · rw [hdir] at hp hu ⊢
    obtain ⟨e, hne⟩ := hguard v hv hp hu
    rw [e] at hp hu
    rw [hT.content v hv hne]
    exact h.guard v hv hp hu
  · have ha' := h.bytes a ha
    simp only [Kernel.byte] at ha' ⊢
    rw [hdir]
    by_cases hpg : a / PGSIZE = va / PGSIZE
    · rw [hpg] at ha' ⊢
      rw [hself, byteAt_setByte, ha']
      by_cases hav : a = va
      · rw [hav, Function.update_self, if_pos rfl]
      · rw [Function.update_of_ne hav, if_neg fun he => hav ?_]
        rw [← Nat.div_add_mod a PGSIZE, ← Nat.div_add_mod va PGSIZE, hpg, he]
    · rw [hT.content _ (page_lt_UVPN ha) hpg, ha', Function.update_of_ne]
      rintro rfl
      exact hpg rfl

theorem Shows.step {x y : Kernel × Memory} (h : Shows E p x) (hop : op.Around p x.1)
    (hn : FollowsNoNull E x.1 op) (hst : MemStep E p x op y) : Shows E p y := by
  obtain ⟨s, m⟩ := x
  obtain ⟨t, m'⟩ := y
  obtain ⟨hs, rfl⟩ := hst
  obtain ⟨g, hI⟩ := h.sound
  have hok := hs.permitted hI (hop.inSize hI hs)
  obtain ⟨g', hG⟩ := hs.goes hn hI hok
  have ht : Sound E t := ⟨g', hG.inv⟩
  have hkept : p ∉ op.changes → op.onMemory p m = m → Shows E p (t, op.onMemory p m) :=
    fun hp hm => by
      rw [hm]
      exact (hG.kept p hp h.running).shows h ht
  obtain ⟨r, hr⟩ := hs.stop hn
  cases op with
  | pagefault q va write =>
    by_cases hq : q = p
    · subst hq
      have hrun := entry_running hr
      have hK : wp ((Op.pagefault q va write).run E.stopAtNull) (fun _ t => Kept q s t) s :=
        wp_entry.2 fun hp => by
          simp only [wp_bind, wp_pure]
          exact takeFault_kept rfl hI.stopAtNull hp
            ((show va < (s.proc q).sz from hop).trans_le (hI.size q hp.live)) h.guard
      exact (hK r t hr).shows h ht
    · exact hkept (by simpa [Op.changes] using Ne.symm hq) rfl
  | store q va b =>
    by_cases hq : q = p
    · subst hq
      have hw : wp ((Op.store q va b).run E.stopAtNull)
          (fun _ t => Sound E t → Shows E q (t, Function.update m va b)) s :=
        wp_entry.2 fun _ => by
          simp only [wp_bind, wp_pure]
          exact h.store (hop.inSize hI hs)
      simpa [Op.onMemory] using hw r t hr ht
    · exact hkept (by simpa [Op.changes] using Ne.symm hq) (by simp [Op.onMemory, hq])
  | exec q ip argv => exact hkept (by simpa [Op.changes] using Ne.symm hop) rfl
  | exit q => exact hkept (by simpa [Op.changes] using Ne.symm hop) rfl
  | _ => exact hkept (Set.notMem_empty p) rfl

/-- A load of `p` that completes returns the byte of its memory. -/
theorem Shows.load {x : Kernel × Memory} (h : Shows E p x) (hva : va < (x.1.proc p).sz) {b : Byte}
    (hl : (Op.load p va).run E x.1 = .ok (some b, t)) : b = x.2 va := by
  obtain ⟨g, hI⟩ := h.sound
  have hsz := hva.trans_le (hI.size p h.running.live)
  have hw : wp ((Op.load p va).run E) (fun r _ => r = some (x.2 va)) x.1 :=
    wp_entry.2 fun hp => by
      simp only [wp_bind, wp_pure]
      refine wp_mono (userLoad_spec hI.base (hI.space p hp.live) (hsz.trans (by decide))) ?_
      rintro b t ⟨g', -, -, rfl⟩
      rw [← h.bytes va hsz, Kernel.byte]
  exact Option.some.inj (hw (some b) t hl)

/-! ### Runs -/

theorem Booted.fresh {init : Page} (h : Booted E init g s d) : Fresh s 0 := by
  refine ⟨h.running, fun v hv hp hu => ?_, fun v hv hge => ?_⟩
  · rw [h.dir] at hp hu
    by_cases hv0 : v = 0
    · subst hv0
      rw [h.user] at hu
      cases hu
    · rw [h.empty v hv hv0] at hp
      simp at hp
  · rw [h.dir]
    refine h.empty v hv ?_
    rintro rfl
    rw [h.sz] at hge
    exact absurd hge (by decide)

/-- An `exec` that replaces the address space leaves a fresh process. -/
theorem Step.exec_fresh {ip : Image} {argv : List ℕ} (h : Step E s (.exec p ip argv) t)
    (hn : FollowsNoNull E s (.exec p ip argv)) (hs : Sound E s) (hd : t.dir p ≠ s.dir p) :
    Fresh t p := by
  obtain ⟨g, hI⟩ := hs
  obtain ⟨r, hr⟩ := h.stop hn
  have hrun := entry_running hr
  have hw : wp ((Op.exec p ip argv).run E.stopAtNull) (fun _ t => t.dir p ≠ s.dir p → Fresh t p) s :=
    wp_entry.2 fun hp => by
      simp only [wp_bind, wp_pure]
      refine wp_mono (exec_spec rfl hI.stopAtNull.base (hI.space p hp.live) (hI.size p hp.live)) ?_
      rintro - u (⟨g', hl⟩ | ⟨n, sz, g', he⟩) hne
      · exact absurd hl.kept.dir hne
      · have hself : u.proc p = { s.proc p with pgdir := n, sz := sz } := by
          rw [he.proc, Function.update_self]
        have hdir : u.dir p = n := by rw [Kernel.dir, hself]
        refine ⟨?_, ?_, ?_⟩
        · rw [hself]
          exact hp
        · rw [hdir]
          exact he.loaded.guard
        · rw [hdir, hself]
          exact he.loaded.above
  exact hw r t hr hd

theorem Shows.run {x y : Kernel × Memory} (h : Shows E p x)
    (hr : Lib.Run (MemStep E p) (fun x op => op.Around p x.1 ∧ FollowsNoNull E x.1 op) x y) :
    Shows E p y :=
  hr.invariant h fun hP hg hs => hP.step hg.1 hg.2 hs

/-- In every run from boot that follows no null entry pointer, a process that has
started from a fresh image reads at every address below its size the byte that it
stored there last, or the byte of the image. -/
theorem loads_read_back {init : Page} {mem : ℕ → Page} {block : ℕ → Block} {s₀ : Kernel}
    (hb : boot E init (E.powerOn mem block) = .ok ((), s₀))
    (hr : Lib.Run (Step E) (Safe E) s₀ s) (hf : Fresh s p) {x : Kernel × Memory}
    (hx : Lib.Run (MemStep E p) (fun x op => op.Around p x.1 ∧ FollowsNoNull E x.1 op)
      (s, s.image p) x) (hva : va < (x.1.proc p).sz) {b : Byte}
    (hl : (Op.load p va).run E x.1 = .ok (some b, t)) : b = x.2 va := by
  obtain ⟨g, d, h⟩ := booted_of_boot hb
  exact ((hf.shows (Sound.run ⟨g, h.inv⟩ hr)).run hx).load hva hl

theorem getLsbD_wordByte_zero (w : Word) : (wordByte w 0).getLsbD 0 = present w := by
  simp [wordByte, present]

/-- A fault brings a swapped page back, and it can be read. -/
theorem fault_and_load (hI : Inv demo g s) (hp : (s.proc p).running) (hva : va / PGSIZE < UVPN)
    (hout : swapped (s.pte (s.dir p) (va / PGSIZE)) = true) (hf : s.freelist ≠ []) :
    ∃ t u b, (Op.pagefault p va false).run demo s = .ok (none, t) ∧
      FollowsNoNull demo s (.pagefault p va false) ∧ SameProc s t ∧
      (Op.load p va).run demo t = .ok (some b, u) := by
  have hlt : va < 2 ^ 32 := by
    have : UVPN = 2 ^ 19 := by decide
    simp only [PGSIZE] at hva
    omega
  have hnp : present (s.pte (s.dir p) (va / PGSIZE)) = false := by
    rw [Bool.eq_false_iff]
    intro hpr
    rw [((hI.space p hp.live).entry _ hva trivial).only hpr] at hout
    cases hout
  obtain ⟨t, hfault, hr, hproc, -⟩ := handlePgfault_resolves hI.stopAtNull hp.live hlt hnp hf (by
    rw [PDX_eq]
    exact present_table_of_swapped hout)
  have hstop : (Op.pagefault p va false).run demo.stopAtNull s = .ok (none, t) :=
    pagefault_run hp hlt (by simp [faults, hnp]) hfault
  have hnn : FollowsNoNull demo s (.pagefault p va false) := followsNoNull_of_run hstop
  have hrun : (Op.pagefault p va false).run demo s = .ok (none, t) := by
    rw [← ((Op.pagefault p va false).run_agrees demo).eq_of_not_bad fun e he => he ▸ hnn, hstop]
  have hdir : t.dir p = s.dir p := by rw [Kernel.dir, Kernel.dir, hproc.proc]
  obtain ⟨u, hu⟩ := load_total (E := demo) (s := t) (p := p) (by rw [hproc.proc]; exact hp) va
    (by
      rw [hdir]
      exact hr.present)
    (by
      rw [hdir]
      exact hr.user)
  exact ⟨t, u, _, hrun, hnn, hproc, hu⟩

/-- A byte is stored, its page is swapped out and comes back with a fault. -/
theorem loads_read_back_store : ∃ s x y z t, boot demo (fun _ => 0#32)
    (demo.powerOn (fun _ _ => 0#32) fun _ _ => 0#32) = .ok ((), s) ∧
      MemStep demo 0 (s, s.image 0) (.store 0 5 0x2A#8) x ∧
      MemStep demo 0 x (.sysSwap 0 0) y ∧ swapped (y.1.pte (s.dir 0) 0) = true ∧
      MemStep demo 0 y (.pagefault 0 5 false) z ∧
      (Op.load 0 5).run demo z.1 = .ok (some 0x2A#8, t) := by
  obtain ⟨g, s, d, hb, h⟩ := boot_total demo (fun _ => 0#32) (fun _ _ => 0#32) fun _ _ => 0#32
  have hpte : s.pte (s.dir 0) (5 / PGSIZE) = s.pte d 0 := by
    rw [h.dir]
    rfl
  obtain ⟨u, hu⟩ := store_total h.inv h.running 5 (by decide) (by rw [hpte]; exact h.present)
    (by rw [hpte]; exact h.writable) (by rw [hpte]; exact h.user) 0x2A#8
  have hstore : Safe demo s (.store 0 5 0x2A#8) :=
    ⟨show 5 < 2 ^ 32 by decide, followsNoNull_of_run hu.run⟩
  obtain ⟨g₁, hI₁⟩ := Sound.step ⟨g, h.inv⟩ hstore ⟨none, hu.run⟩
  have hdir : u.dir 0 = s.dir 0 := by rw [Kernel.dir, Kernel.dir, hu.proc.proc]
  have hrunning : ∀ x : Kernel, x.proc = s.proc → (x.proc 0).running := fun x hx => by
    rw [hx]
    exact h.running
  obtain ⟨v, hv⟩ := demo_sysSwap hI₁ (hrunning u hu.proc.proc) (by
    rw [hdir]
    exact (hu.flags 0 (by simp)).trans (by rw [hpte]; exact h.present))
    ⟨600, le_rfl, fun b => by rw [hu.disk.bit]; exact h.bit b⟩
  have hswap : Safe demo u (.sysSwap 0 0) := ⟨show 0 < KERNBASE by decide, hv.followsNoNull⟩
  obtain ⟨g₂, hI₂⟩ := Sound.step ⟨g₁, hI₁⟩ hswap ⟨none, hv.run⟩
  have hv₀ : v.proc = s.proc := hv.proc.proc.trans hu.proc.proc
  obtain ⟨w, t, b, hfault, hnn, hw, ht⟩ := fault_and_load hI₂ (hrunning v hv₀)
    (show 5 / PGSIZE < UVPN by decide) (by
      rw [Kernel.dir, hv.proc.proc]
      exact hv.swapped) hv.freelist
  set m := Function.update (s.image 0) 5 0x2A#8 with hm
  have hst : MemStep demo 0 (s, s.image 0) (.store 0 5 0x2A#8) (u, m) :=
    ⟨⟨none, hu.run⟩, by simp [Op.onMemory, hm]⟩
  have hsw : MemStep demo 0 (u, m) (.sysSwap 0 0) (v, m) := ⟨⟨none, hv.run⟩, rfl⟩
  have hpf : MemStep demo 0 (v, m) (.pagefault 0 5 false) (w, m) := ⟨⟨none, hfault⟩, rfl⟩
  have hsz : ∀ x : Kernel, x.proc = s.proc → 5 < (x.proc 0).sz := fun x hx => by
    rw [hx, h.sz]
    decide
  have hall : Lib.Run (MemStep demo 0)
      (fun x op => op.Around 0 x.1 ∧ FollowsNoNull demo x.1 op) (s, s.image 0) (w, m) :=
    .tail (.tail (.single (i := .store 0 5 0x2A#8) ⟨hsz s rfl, hstore.2⟩ hst)
      (i := .sysSwap 0 0) hswap hsw) (i := .pagefault 0 5 false) ⟨hsz v hv₀, hnn⟩ hpf
  have hread := loads_read_back hb .refl h.fresh hall (hsz w (hw.proc.trans hv₀)) ht
  have hm5 : b = 0x2A#8 := hread.trans (by simp only [hm, Function.update_self])
  rw [hm5] at ht
  refine ⟨s, _, _, _, t, hb, hst, hsw, ?_, hpf, ht⟩
  rw [← hdir]
  exact hv.swapped

/-- Without a free frame `sys_swap` takes the first word of page 0 for an entry and
overwrites it: the process no longer reads the byte that it has stored. -/
theorem loads_not_read_back : ∃ s x t b, boot demo (fun _ => 0#32)
    (demo.powerOn (fun _ _ => 0#32) fun _ _ => 0#32) = .ok ((), s) ∧ Fresh s 0 ∧
      Lib.Run (MemStep demo 0) (fun x op => op.Around 0 x.1) (s, s.image 0) x ∧
      (Op.load 0 0).run demo x.1 = .ok (some b, t) ∧ b ≠ x.2 0 := by
  obtain ⟨g, s, d, hb, h⟩ := boot_total demo (fun _ => 0#32) (fun _ _ => 0#32) fun _ _ => 0#32
  obtain ⟨f, l, hl⟩ := List.exists_cons_of_length_pos (show 0 < s.freelist.length by
    have := h.free
    have := demo.kend_le
    omega)
  have hfree : g.frame f = .free := (h.inv.base.free f).1 (by simp [hl])
  obtain ⟨h1, h2⟩ := h.inv.base.range f (by simp [hfree])
  obtain ⟨g', u, m', hrun, hc, hm'⟩ := h.cornered (userPte f) (s.image 0)
  obtain ⟨b, t, ht⟩ := hc.nullSwapped h.bit h1 h2
  obtain ⟨hpte, hword⟩ := ht.free_frame hc (by simp [hl])
  have hdir : t.dir 0 = u.dir 0 := by rw [Kernel.dir, Kernel.dir, ht.proc.proc]
  have hpte0 : t.pte (t.dir 0) (0 / PGSIZE) = u.pte (s.dir 0) 0 := by
    rw [hdir, hpte 0 hc.running.live, hc.dir]
    rfl
  obtain ⟨v, hv⟩ := load_total (E := demo) (s := t) (p := 0)
    (by rw [ht.proc.proc]; exact hc.running) 0 (by rw [hpte0]; exact hc.present)
    (by rw [hpte0]; exact hc.user)
  rw [hpte0] at hv
  have hst : MemStep demo 0 (u, m') (.sysSwap 0 0x400000) (t, m') := ⟨⟨none, ht.run⟩, rfl⟩
  refine ⟨s, (t, m'), v, _, hb, h.fresh, .tail (hrun.mono fun _ _ hm => hm.1)
    (i := .sysSwap 0 0x400000) (show 0x400000 < KERNBASE by decide) hst, hv, ?_⟩
  change byteAt _ 0 ≠ m' 0
  rw [hm', byteAt, show wordIx 0 = 0 from rfl, hword, Nat.zero_mod]
  intro he
  have hbit := congrArg (·.getLsbD 0) he
  simp only [getLsbD_wordByte_zero, present_swappedPte, present_userPte] at hbit
  cases hbit

end Xv6Lab.Paging
