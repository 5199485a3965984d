import Xv6Lab.Paging.Entries

/-! Access rights across a round trip through the disk. A swapped entry keeps the
block number alone, and both functions that bring a page back make it writable and
accessible to the user. -/

namespace Xv6Lab.Paging

open Lib

variable {E : Env} {g g' : Ghost} {s t u u' : Kernel} {c d d' v sz pid cur : ℕ}

/-- The entry `w'` is present, with the rights of `w`. -/
structure Restored (w w' : Word) : Prop where
  present : present w' = true
  writable : writable w' = writable w
  user : user w' = user w

/-- Page `v` of `d` has come back from the disk between `u` and `u'`: through a page
fault, or in a fork, and then both in the parent (unless it has been evicted once
more) and in the child. No null entry pointer has been followed on the way. -/
inductive BroughtBack (E : Env) (u : Kernel) (d v : ℕ) : ℕ → Kernel → Prop
  | fault {addr pid : ℕ} {u' : Kernel} (ha : addr < 2 ^ 32) (hv : addr / PGSIZE = v)
      (hn : mapAddress E.stopAtNull d addr pid u ≠ .error .nullPte)
      (h : mapAddress E d addr pid u = .ok ((), u')) : BroughtBack E u d v d u'
  | parent {sz pid c : ℕ} {u' : Kernel} (hsz : sz ≤ KERNBASE) (hv : v < npages sz)
      (hn : copyuvm E.stopAtNull d sz pid u ≠ .error .nullPte)
      (h : copyuvm E d sz pid u = .ok (some c, u')) (hp : present (u'.pte d v) = true) :
      BroughtBack E u d v d u'
  | child {sz pid c : ℕ} {u' : Kernel} (hsz : sz ≤ KERNBASE) (hv : v < npages sz)
      (hn : copyuvm E.stopAtNull d sz pid u ≠ .error .nullPte)
      (h : copyuvm E d sz pid u = .ok (some c, u')) : BroughtBack E u d v c u'

theorem copyuvm_stop_some (hn : copyuvm E.stopAtNull d sz pid s ≠ .error .nullPte)
    (h : copyuvm E d sz pid s = .ok (some c, t)) :
    copyuvm E.stopAtNull d sz pid s = .ok (some c, t) := by
  rw [(copyuvm_agrees E d sz pid).eq_of_not_bad fun e he => he ▸ hn, h]

/-- A page comes back with both rights. -/
theorem BroughtBack.rights (h : BroughtBack E u d v d' u') (hB : Base E g u)
    (hS : Space g u d Set.univ) (hv : v < UVPN) (hs : swapped (u.pte d v) = true) :
    present (u'.pte d' v) = true ∧ user (u'.pte d' v) = true ∧ writable (u'.pte d' v) = true := by
  have hnp : present (u.pte d v) = false := by
    cases hp : present (u.pte d v) with
    | false => rfl
    | true =>
      rw [(hS.entry v hv trivial).only hp] at hs
      cases hs
  cases h with
  | fault ha hva hn h =>
    rename_i addr pid
    have hstop : mapAddress E.stopAtNull d addr pid u = .ok ((), u') := by
      rw [(mapAddress_agrees E d addr pid).eq_of_not_bad fun e he => he ▸ hn, h]
    obtain ⟨m, g1, t, hsup, hcase⟩ :=
      mapAddress_spec hB.stopAtNull hS (.inl rfl) ha pid _ _ hstop
    rw [hva] at hcase
    rcases hcase with ⟨hno, -⟩ | ⟨-, g', hfill⟩
    · rw [present_table_of_swapped hs] at hno
      cases hno
    · obtain ⟨-, hpv, -⟩ := hfill.store.entries hsup.space.toTree
      rw [hpv]
      exact ⟨present_userPte m, user_userPte m, writable_userPte m⟩
  | parent hsz hvn hn h hp =>
    obtain ⟨hd, -⟩ := copyuvm_entries rfl hB.stopAtNull hS hsz (copyuvm_stop_some hn h)
    exact ⟨hp, (hd v hv).of_not_present hnp hp⟩
  | child hsz hvn hn h =>
    obtain ⟨-, hf⟩ := copyuvm_entries rfl hB.stopAtNull hS hsz (copyuvm_stop_some hn h)
    obtain ⟨w, m, hw, hns, he⟩ := hf v hvn
    obtain ⟨hu, hwr⟩ := hw.of_swapped hs hns
    rw [he, present_mapPte, user_mapPte, writable_mapPte, user_PTE_FLAGS, writable_PTE_FLAGS]
    exact ⟨rfl, hu, hwr⟩

/-- A page that is swapped out comes back with the rights it had exactly when it had
both: in a later state `u` that still has its swapped entry, through a fault or in a
fork, in the parent and in the child. -/
theorem swap_restores_rights_iff (hB : Base E g s) (hT : Tree g s d) (hv : v < UVPN)
    (hp : present (s.pte d v) = true) (hown : g.frame (PTE_ADDR (s.pte d v)) = .page d v)
    (hout : swapPageFromPte E cur (some (s.ptr d v)) pid s = .ok ((), t))
    (hB' : Base E g' u) (hS' : Space g' u d Set.univ) (hu : u.pte d v = t.pte d v)
    (hin : BroughtBack E u d v d' u') :
    Restored (s.pte d v) (u'.pte d' v) ↔
      writable (s.pte d v) = true ∧ user (s.pte d v) = true := by
  obtain ⟨b, g1, h⟩ := swapPageFromPte_spec hB hT (hv.trans (by decide)) hp hown cur pid _ _ hout
  obtain ⟨-, hpv, -⟩ := h.store.entries hT
  have hs : swapped (u.pte d v) = true := by rw [hu, hpv, swapped_swappedPte]
  obtain ⟨hpr, hus, hwr⟩ := hin.rights hB' hS' hv hs
  constructor
  · intro hr
    rw [← hr.writable, ← hr.user]
    exact ⟨hwr, hus⟩
  · rintro ⟨h1, h2⟩
    exact ⟨hpr, by rw [hwr, h1], by rw [hus, h2]⟩

/-- Swap page 0 of a machine out and, by a fault, in again. -/
theorem demo_round_trip (hB : Base demo g s) (hS : Space g s d Set.univ)
    (hp : present (s.pte d 0) = true) (hpk : Packed s 600) (pid : ℕ) :
    ∃ g' t u, swapPageFromPte demo d (some (s.ptr d 0)) pid s = .ok ((), t) ∧ Base demo g' t ∧
      Space g' t d Set.univ ∧ mapAddress demo d 0 pid t = .ok ((), u) ∧
      BroughtBack demo t d 0 d u := by
  have hown := (hS.entry 0 (by decide) trivial).frame hp
  obtain ⟨t, hout⟩ := demo_swapOut hB hpk (by decide) hp hown d pid
  obtain ⟨b, g', h⟩ := swapPageFromPte_spec hB hS.toTree (by decide) hp hown d pid _ _ hout
  have hS' := h.space hS (by decide)
  obtain ⟨-, hpv, -⟩ := h.store.entries hS.toTree
  have htab : present (t.mem d (pdx (0 / PGSIZE))) = true :=
    present_table_of_swapped (by rw [Nat.zero_div, hpv, swapped_swappedPte])
  have hf : t.freelist ≠ [] := by
    rw [h.freelist]
    simp
  obtain ⟨u, hu⟩ := mapAddress_of_free h.base hS' (by norm_num) hf htab pid
  obtain ⟨u', hu'⟩ := mapAddress_of_free h.base.stopAtNull hS' (by norm_num) hf htab pid
  refine ⟨g', t, u, hout, h.base, hS', hu, .fault (by norm_num) rfl ?_ hu⟩
  rw [hu']
  simp

theorem Booted.packed {init : Page} (h : Booted demo init g s d) : Packed s 600 :=
  ⟨600, le_rfl, h.bit⟩

theorem swap_restores_rights_booted : ∃ s t u, boot demo (fun _ => 0#32)
    (demo.powerOn (fun _ _ => 0#32) fun _ _ => 0#32) = .ok ((), s) ∧
      swapPageFromPte demo (s.dir 0) (some (s.ptr (s.dir 0) 0)) (s.proc 0).pid s = .ok ((), t) ∧
      mapAddress demo (s.dir 0) 0 (s.proc 0).pid t = .ok ((), u) ∧
      (Restored (s.pte (s.dir 0) 0) (u.pte (s.dir 0) 0) ↔
        writable (s.pte (s.dir 0) 0) = true ∧ user (s.pte (s.dir 0) 0) = true) := by
  obtain ⟨g, s, d, hb, h⟩ := boot_total demo (fun _ => 0#32) (fun _ _ => 0#32) fun _ _ => 0#32
  have hS := h.inv.space 0 h.running.live
  have hp : present (s.pte (s.dir 0) 0) = true := by
    rw [h.dir]
    exact h.present
  obtain ⟨g', t, u, hout, hB', hS', hu, hin⟩ :=
    demo_round_trip h.inv.base hS hp h.packed (s.proc 0).pid
  exact ⟨s, t, u, hb, hout, hu, swap_restores_rights_iff h.inv.base hS.toTree (by decide) hp
    ((hS.entry 0 (by decide) trivial).frame hp) hout hB' hS' rfl hin⟩

theorem clearpteu_apply (h : present (s.mem d (pdx v)) = true) :
    clearpteu d (v * PGSIZE) s =
      .ok ((), s.setWord (s.ptr d v).1 (s.ptr d v).2 (s.pte d v &&& ~~~PTE_U)) := by
  rw [clearpteu, bind_apply, get_apply]
  simp only [Kernel.lookup_of_present h, readPte, bind_apply, get_apply, pure_apply,
    Kernel.mem_ptr h, writePte, modify_apply]

/-- A guard page, whose `PTE_U` has been cleared the way `exec` does it, is swapped out
and brought back by a fault: the user can now write to it. -/
theorem guard_page_not_restored : ∃ s₀ s t u, boot demo (fun _ => 0#32)
    (demo.powerOn (fun _ _ => 0#32) fun _ _ => 0#32) = .ok ((), s₀) ∧
      clearpteu (s₀.dir 0) 0 s₀ = .ok ((), s) ∧ present (s.pte (s.dir 0) 0) = true ∧
      user (s.pte (s.dir 0) 0) = false ∧
      swapPageFromPte demo (s.dir 0) (some (s.ptr (s.dir 0) 0)) (s.proc 0).pid s = .ok ((), t) ∧
      mapAddress demo (s.dir 0) 0 (s.proc 0).pid t = .ok ((), u) ∧
      ¬ Restored (s.pte (s.dir 0) 0) (u.pte (s.dir 0) 0) := by
  obtain ⟨g, s₀, d, hb, h⟩ := boot_total demo (fun _ => 0#32) (fun _ _ => 0#32) fun _ _ => 0#32
  have hS := h.inv.space 0 h.running.live
  rw [h.dir] at hS
  have hsh : Shape s₀ d PGSIZE := by
    refine ⟨fun v hv => ?_, fun v hv hge => h.empty v hv ?_, by decide⟩
    · obtain rfl : v = 0 := Nat.lt_one_iff.1 hv
      exact ⟨h.present, h.user⟩
    · rintro rfl
      exact absurd hge (by decide)
  have hclear := clearpteu_apply (v := 0) h.table
  rw [Nat.zero_mul] at hclear
  set s := s₀.setWord (s₀.ptr d 0).1 (s₀.ptr d 0).2 (s₀.pte d 0 &&& ~~~PTE_U) with hs
  obtain ⟨hbld, -⟩ := clearpteu_spec h.inv.base hS hsh (show 0 / PGSIZE < _ by decide)
    h.content _ _ hclear
  have hst := Store.of_setWord (g := g) (v := 0) (w := s₀.pte d 0 &&& ~~~PTE_U) (by norm_num) h.table
  obtain ⟨-, hpv, -⟩ := hst.entries hS.toTree
  have hp : present (s.pte d 0) = true := by
    rw [hpv, present, BitVec.getLsbD_and, show (s₀.pte d 0).getLsbD 0 = true from h.present]
    decide
  have hu : user (s.pte d 0) = false := by
    rw [hpv, user, BitVec.getLsbD_and]
    simp [PTE_U]
  obtain ⟨g', t, u, hout, hB', hS', hmap, hin⟩ := demo_round_trip hbld.base hbld.space hp
    (show Packed s 600 from h.packed) (s.proc 0).pid
  have hdir : s.dir 0 = d := h.dir
  refine ⟨s₀, s, t, u, hb, ?_⟩
  rw [hdir, h.dir]
  refine ⟨hclear, hp, hu, hout, hmap, fun hr => ?_⟩
  obtain ⟨b, g1, hsw⟩ := swapPageFromPte_spec hbld.base hbld.space.toTree (by decide) hp
    ((hbld.space.entry 0 (by decide) trivial).frame hp) d (s.proc 0).pid _ _ hout
  obtain ⟨-, hpt, -⟩ := hsw.store.entries hbld.space.toTree
  obtain ⟨-, hus, -⟩ := hin.rights hB' hS' (by decide) (by rw [hpt, swapped_swappedPte])
  rw [hr.user, hu] at hus
  cases hus

end Xv6Lab.Paging
