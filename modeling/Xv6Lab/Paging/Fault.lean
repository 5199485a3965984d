import Xv6Lab.Paging.Drain

/-! What one run of the page-fault handler achieves, and what it leaves alone. -/

namespace Xv6Lab.Paging

open Lib

variable {E : Env} {g g' : Ghost} {s t : Kernel} {p : Slot} {va : ℕ}

/-! ### A fault inside the process -/

/-- In `t` the page of `va` is present, user and writable, its frame holds what
the page held in `s` (the swapped bytes, or zeros), and every frame that left the
free list is the frame of the page. -/
structure Resolved (s : Kernel) (d va : ℕ) (t : Kernel) : Prop where
  present : present (t.pte d (va / PGSIZE)) = true
  user : user (t.pte d (va / PGSIZE)) = true
  writable : writable (t.pte d (va / PGSIZE)) = true
  bytes : t.mem (PTE_ADDR (t.pte d (va / PGSIZE))) = s.content d (va / PGSIZE)
  frames : ∀ f ∈ s.freelist, f ∉ t.freelist → f = PTE_ADDR (t.pte d (va / PGSIZE))

/-- With a free frame at hand, the handler resolves a fault on a missing page whose
page table exists. -/
theorem handlePgfault_resolves (hI : Inv E g s) (hp : (s.proc p).live) (hva : va < 2 ^ 32)
    (hnp : present (s.pte (s.dir p) (va / PGSIZE)) = false) (hf : s.freelist ≠ [])
    (htab : present (s.mem (s.dir p) (PDX va)) = true) :
    ∃ t, handlePgfault E p va s = .ok ((), t) ∧ Resolved s (s.dir p) va t ∧ SameProc s t ∧
      t.mem (s.dir p) = s.mem (s.dir p) ∧
      (∀ v < 2 ^ 20, v ≠ va / PGSIZE → t.pte (s.dir p) v = s.pte (s.dir p) v) ∧
      t.freelist.length + 1 = s.freelist.length ∧
      (swapped (s.pte (s.dir p) (va / PGSIZE)) = false → t.bit = s.bit) := by
  have hS := hI.space p hp
  have hvp : va / PGSIZE < 2 ^ 20 := by simp only [PGSIZE]; omega
  rw [PDX_eq] at htab
  obtain ⟨m, l, hperm, hk⟩ := kallocOrSwap_of_free (E := E) (d := s.dir p) hf (s.proc p).pid
  have hsup := Supplied.of_free hI.base hS hperm
  obtain ⟨g2, u, happ, hfill⟩ := fillPage_apply hsup.base hsup.space hvp htab
    (by rw [hsup.frame, Function.update_self])
  obtain ⟨hdir, hpv, hpo⟩ := hfill.store.entries hsup.space.toTree
  refine ⟨u, ?_, ⟨by simp [hpv], by simp [hpv], by simp [hpv], ?_, fun f hfs hft => ?_⟩,
    hsup.proc.trans hfill.proc, hdir.trans hsup.dir, hpo, by rw [hfill.freelist, hperm.length_eq]; rfl,
    hfill.bit⟩
  · rw [handlePgfault, bind_apply, get_apply]
    simp only
    rw [show (s.proc p).pgdir = s.dir p from rfl, mapAddress_eq, PGROUNDDOWN_div, hk]
    simp only
    rw [Kernel.lookup_of_present htab]
    exact happ
  · rw [hpv, PTE_ADDR_userPte hfill.lt, hfill.read]
    cases hs : swapped (s.pte (s.dir p) (va / PGSIZE)) with
    | true => exact if_pos hs
    | false =>
      rw [Kernel.content_unmapped hnp hs]
      exact if_neg (by
        rw [show Kernel.pte { s with freelist := l } (s.dir p) (va / PGSIZE) =
          s.pte (s.dir p) (va / PGSIZE) from rfl, hs]
        simp)
  · rw [hpv, PTE_ADDR_userPte hfill.lt]
    rw [hfill.freelist] at hft
    exact (List.mem_cons.1 (hperm.mem_iff.1 hfs)).resolve_right hft

/-- Without a page table the handler drops the frame that it has taken. -/
theorem handlePgfault_no_table (hf : s.freelist ≠ [])
    (htab : present (s.mem (s.dir p) (PDX va)) = false) :
    ∃ m l, s.freelist.Perm (m :: l) ∧
      handlePgfault E p va s = .ok ((), { s with freelist := l }) := by
  obtain ⟨m, l, hperm, hk⟩ := kallocOrSwap_of_free (E := E) (d := s.dir p) hf (s.proc p).pid
  refine ⟨m, l, hperm, ?_⟩
  rw [handlePgfault, bind_apply, get_apply]
  simp only
  rw [show (s.proc p).pgdir = s.dir p from rfl, mapAddress_eq, PGROUNDDOWN_div, hk]
  simp only
  rw [Kernel.lookup_page, if_neg (by rw [← PDX_eq, htab]; simp)]
  rfl

/-- With a free frame at hand, the handler resolves a fault on a missing page of
the process exactly when the page's table exists. -/
theorem handlePgfault_resolves_iff (hI : Inv E g s) (hp : (s.proc p).running)
    (hva : va < (s.proc p).sz) (hnp : present (s.pte (s.dir p) (va / PGSIZE)) = false)
    (hf : s.freelist ≠ []) :
    (∃ t, handlePgfault E p va s = .ok ((), t) ∧ Resolved s (s.dir p) va t) ↔
      present (s.mem (s.dir p) (PDX va)) = true := by
  have hlt : va < 2 ^ 32 := (hva.trans_le (hI.size p hp.live)).trans (by decide)
  constructor
  · rintro ⟨t, ht, hr⟩
    by_contra hno
    obtain ⟨m, l, -, happ⟩ := handlePgfault_no_table (E := E) hf (by simpa using hno)
    rw [happ] at ht
    cases ht
    have hpr := hr.present
    rw [show Kernel.pte { s with freelist := l } (s.dir p) (va / PGSIZE) =
      s.pte (s.dir p) (va / PGSIZE) from rfl, hnp] at hpr
    cases hpr
  · intro htab
    obtain ⟨t, ht, hr, -⟩ := handlePgfault_resolves hI hp.live hlt hnp hf htab
    exact ⟨t, ht, hr⟩

theorem handlePgfault_resolves_second_page : ∃ s t, boot demo (fun _ => 0#32)
    (demo.powerOn (fun _ _ => 0#32) fun _ _ => 0#32) = .ok ((), s) ∧
      handlePgfault demo 0 0x1000 (s.grown 0x2000) = .ok ((), t) ∧
      Resolved (s.grown 0x2000) ((s.grown 0x2000).dir 0) 0x1000 t := by
  obtain ⟨g, s, d, hb, h⟩ := boot_total demo (fun _ => 0#32) (fun _ _ => 0#32) fun _ _ => 0#32
  obtain ⟨-, hI⟩ := h.grow 0x2000 (by decide) (by decide)
  obtain ⟨hnp, htab⟩ := h.second_page 0x2000
  obtain ⟨t, ht⟩ := (handlePgfault_resolves_iff hI h.grown_running
    (by rw [Booted.grown_sz]; norm_num) hnp h.freelist_ne_nil).2 htab
  exact ⟨s, t, hb, ht⟩

/-- A process that has grown beyond its only page table faults there for ever, and
each fault loses a frame. -/
theorem handlePgfault_not_resolved : ∃ g s, boot demo (fun _ => 0#32)
    (demo.powerOn (fun _ _ => 0#32) fun _ _ => 0#32) = .ok ((), s) ∧ Inv demo g (s.grown 0x800000) ∧
      ((s.grown 0x800000).proc 0).running ∧ 0x400000 < ((s.grown 0x800000).proc 0).sz ∧
      present ((s.grown 0x800000).pte ((s.grown 0x800000).dir 0) (0x400000 / PGSIZE)) = false ∧
      (s.grown 0x800000).freelist ≠ [] ∧
      ¬ ∃ t, handlePgfault demo 0 0x400000 (s.grown 0x800000) = .ok ((), t) ∧
        Resolved (s.grown 0x800000) ((s.grown 0x800000).dir 0) 0x400000 t := by
  obtain ⟨g, s, d, hb, h⟩ := boot_total demo (fun _ => 0#32) (fun _ _ => 0#32) fun _ _ => 0#32
  obtain ⟨-, hI⟩ := h.grow 0x800000 (by decide) (by decide)
  have htab : present ((s.grown 0x800000).mem ((s.grown 0x800000).dir 0) (PDX 0x400000)) = false := by
    rw [h.grown_dir]
    exact h.no_table
  have hnp : present ((s.grown 0x800000).pte ((s.grown 0x800000).dir 0) (0x400000 / PGSIZE)) = false := by
    rw [Kernel.pte_of_not_present (by rwa [← PDX_eq])]
    decide
  refine ⟨g, s, hb, hI, h.grown_running, by rw [Booted.grown_sz]; norm_num, hnp, h.freelist_ne_nil, ?_⟩
  rintro ⟨t, ht, hr⟩
  obtain ⟨m, l, -, happ⟩ := handlePgfault_no_table (E := demo) (p := 0) (s := s.grown 0x800000)
    h.freelist_ne_nil htab
  rw [happ] at ht
  cases ht
  have hpr := hr.present
  rw [show Kernel.pte { s.grown 0x800000 with freelist := l } ((s.grown 0x800000).dir 0)
    (0x400000 / PGSIZE) = (s.grown 0x800000).pte ((s.grown 0x800000).dir 0) (0x400000 / PGSIZE) from rfl,
    hnp] at hpr
  cases hpr

/-! ### What a fault must leave alone -/

/-- From `s` to `t` no entry from `KERNBASE` on changes, no page beyond the size
of the process gets mapped, and a page that was present at the fault leaves the
page table and the free list as they were. -/
structure Harmless (s : Kernel) (d sz va : ℕ) (t : Kernel) : Prop where
  kernel : ∀ v, UVPN ≤ v → v < 2 ^ 20 → t.pte d v = s.pte d v
  size : ∀ v < 2 ^ 20, npages sz ≤ v → present (s.pte d v) = false → present (t.pte d v) = false
  present : present (s.pte d (va / PGSIZE)) = true →
    (∀ v < 2 ^ 20, t.pte d v = s.pte d v) ∧ t.freelist = s.freelist

/-- A fault is harmless exactly when there is no page table for the address, or
the address is in a missing page of the process. -/
theorem handlePgfault_harmless_iff {write : Bool} (hI : Inv E g s) (hp : (s.proc p).running)
    (hva : va < 2 ^ 32) (hf : faults (s.pte (s.dir p) (va / PGSIZE)) write = true)
    (hn : NoNull E s (s.dir p)) (ht : handlePgfault E p va s = .ok ((), t)) :
    Harmless s (s.dir p) (s.proc p).sz va t ↔
      present (s.mem (s.dir p) (PDX va)) = false ∨
        va / PGSIZE < npages (s.proc p).sz ∧ present (s.pte (s.dir p) (va / PGSIZE)) = false := by
  have hS := hI.space p hp.live
  have hsz := npages_le (hI.size p hp.live)
  have hvp : va / PGSIZE < 2 ^ 20 := by simp only [PGSIZE]; omega
  have hmap : mapAddress E (s.dir p) (PGROUNDDOWN va) (s.proc p).pid s = .ok ((), t) := by
    rw [handlePgfault, bind_apply, get_apply] at ht
    exact ht
  obtain ⟨m, g1, t1, hsup, hcase⟩ :=
    mapAddress_spec hI.base hS hn (PGROUNDDOWN_lt hva) _ () t hmap
  rw [PGROUNDDOWN_div] at hcase
  rw [PDX_eq]
  have hkern : ∀ v, UVPN ≤ v → v < 2 ^ 20 → t1.pte (s.dir p) v = s.pte (s.dir p) v := by
    intro v hv hlt
    rcases hsup.entry v hlt with h | ⟨-, hvic, -⟩
    · exact h
    · exact absurd hvic.lt (by omega)
  have hpres : ∀ v < 2 ^ 20, present (s.pte (s.dir p) v) = false →
      present (t1.pte (s.dir p) v) = false := by
    intro v hlt h0
    rcases hsup.entry v hlt with h | ⟨-, -, -, b, -, hb⟩
    · rw [h, h0]
    · rw [hb, present_swappedPte]
  rcases hcase with ⟨hno, rfl⟩ | ⟨htab, g', hfill⟩
  · refine ⟨fun _ => .inl hno, fun _ => ⟨hkern, fun v hlt _ => hpres v hlt, fun hpr => ?_⟩⟩
    rw [Kernel.pte_of_not_present hno] at hpr
    simp at hpr
  · obtain ⟨-, hpv, hpo⟩ := hfill.store.entries hsup.space.toTree
    constructor
    · intro hL
      refine .inr ⟨?_, ?_⟩
      · by_contra hge
        cases hpr : present (s.pte (s.dir p) (va / PGSIZE)) with
        | false =>
          have := hL.size _ hvp (by omega) hpr
          rw [hpv] at this
          simp at this
        | true =>
          have hu := user_of_faults hS hvp hf hpr
          rw [← (hL.present hpr).1 _ hvp, hpv] at hu
          simp at hu
      · by_contra hpr
        have hpr' : present (s.pte (s.dir p) (va / PGSIZE)) = true := by simpa using hpr
        have hu := user_of_faults hS hvp hf hpr'
        rw [← (hL.present hpr').1 _ hvp, hpv] at hu
        simp at hu
    · rintro (hno | ⟨hlt, hnp⟩)
      · rw [htab] at hno; cases hno
      · refine ⟨fun v hv hv' => ?_, fun v hv' hge h0 => ?_, fun hpr => ?_⟩
        · rw [hpo v hv' (by omega), hkern v hv hv']
        · rw [hpo v hv' (by omega), hpres v hv' h0]
        · rw [hnp] at hpr; cases hpr

theorem handlePgfault_harmless_second_page : ∃ s t, boot demo (fun _ => 0#32)
    (demo.powerOn (fun _ _ => 0#32) fun _ _ => 0#32) = .ok ((), s) ∧
      handlePgfault demo 0 0x1000 (s.grown 0x2000) = .ok ((), t) ∧
      Harmless (s.grown 0x2000) ((s.grown 0x2000).dir 0) 0x2000 0x1000 t := by
  obtain ⟨g, s, d, hb, h⟩ := boot_total demo (fun _ => 0#32) (fun _ _ => 0#32) fun _ _ => 0#32
  obtain ⟨-, hI⟩ := h.grow 0x2000 (by decide) (by decide)
  obtain ⟨hnp, htab⟩ := h.second_page 0x2000
  obtain ⟨t, ht, -⟩ := handlePgfault_resolves hI h.grown_running.live (by norm_num) hnp
    h.freelist_ne_nil htab
  have hH := (handlePgfault_harmless_iff hI h.grown_running (by norm_num)
    (show faults _ false = true by simp [faults, hnp]) (.inr (.inl h.freelist_ne_nil)) ht).2
    (.inr ⟨by rw [Booted.grown_sz]; decide, hnp⟩)
  rw [Booted.grown_sz] at hH
  exact ⟨s, t, hb, ht, hH⟩

/-- A fault just beyond the end of the process maps a page there. -/
theorem handlePgfault_not_harmless : ∃ g s t, boot demo (fun _ => 0#32)
    (demo.powerOn (fun _ _ => 0#32) fun _ _ => 0#32) = .ok ((), s) ∧ Inv demo g s ∧
      (s.proc 0).running ∧ faults (s.pte (s.dir 0) (0x1000 / PGSIZE)) false = true ∧
      handlePgfault demo 0 0x1000 s = .ok ((), t) ∧
      ¬ Harmless s (s.dir 0) (s.proc 0).sz 0x1000 t := by
  obtain ⟨g, s, d, hb, h⟩ := boot_total demo (fun _ => 0#32) (fun _ _ => 0#32) fun _ _ => 0#32
  have hnp : present (s.pte (s.dir 0) (0x1000 / PGSIZE)) = false := by
    rw [h.dir, show s.pte d (0x1000 / PGSIZE) = 0#32 from h.empty 1 (by decide) (by decide)]
    decide
  obtain ⟨t, ht, hr, -⟩ := handlePgfault_resolves h.inv h.running.live (show 0x1000 < 2 ^ 32 by norm_num)
    hnp h.freelist_ne_nil (by rw [h.dir]; exact h.table)
  refine ⟨g, s, t, hb, h.inv, h.running, by simp [faults, hnp], ht, fun hH => ?_⟩
  have := hH.size (0x1000 / PGSIZE) (by decide) (by rw [h.sz]; decide) hnp
  rw [hr.present] at this
  cases this

end Xv6Lab.Paging
