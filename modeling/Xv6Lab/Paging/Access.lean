import Xv6Lab.Paging.Ops

/-! User-mode loads and stores: what they read, and what they leave alone. -/

namespace Xv6Lab.Paging

open Lib

variable {E : Env} {g : Ghost} {s : Kernel} {p : Slot} {d v : ℕ}

/-- Setting the access and dirty bits of an entry. -/
theorem setFlags_lives (fl : Word) (hB : Base E g s) (hS : Space g s d Set.univ) (hv : v < UVPN)
    (hp : present (s.pte d v) = true) (hu : user (s.pte d v) = true)
    (hfl : fl >>> 12 = 0#32 ∧ ∀ k ∈ [0, 1, 2, 9], fl.getLsbD k = false) :
    Lives E g s d g (s.setWord (s.ptr d v).1 (s.ptr d v).2 (s.pte d v ||| fl)) ∧
      PTE_ADDR ((s.setWord (s.ptr d v).1 (s.ptr d v).2 (s.pte d v ||| fl)).pte d v) =
        PTE_ADDR (s.pte d v) ∧
      present ((s.setWord (s.ptr d v).1 (s.ptr d v).2 (s.pte d v ||| fl)).pte d v) = true := by
  have ht := present_table_of_entry hp
  have hE := hS.entry v hv trivial
  set w := s.pte d v ||| fl with hw
  have hbit : ∀ k ∈ [0, 1, 2, 9], w.getLsbD k = (s.pte d v).getLsbD k := fun k hk => by
    rw [hw, BitVec.getLsbD_or, hfl.2 k hk, Bool.or_false]
  have hpw : present w = true := (hbit 0 (by simp)).trans hp
  have huw : user w = true := (hbit 2 (by simp)).trans hu
  have hsw : swapped w = false := (hbit 9 (by simp)).trans (hE.only hp)
  have haw : PTE_ADDR w = PTE_ADDR (s.pte d v) := PTE_ADDR_or hfl.1
  have hst := Store.of_setWord (g := g) (w := w) (hv.trans (by decide)) ht
  obtain ⟨-, hpv, hpo⟩ := hst.entries hS.toTree
  have hEw : EntryOk g d v w :=
    ⟨fun _ => by rw [haw, hE.frame hp], fun _ => hsw,
      fun _ => (hbit 1 (by simp)).trans (hE.write hu), fun h => absurd h (by rw [hsw]; simp)⟩
  have hne : PTE_ADDR (s.pte d v) ≠ (s.ptr d v).1 := fun e => by
    have := hS.tab _ ht
    rw [show PTE_ADDR (s.mem d (pdx v)) = PTE_ADDR (s.pte d v) from e.symm, hE.frame hp] at this
    cases this
  refine ⟨⟨hB.congr_mem rfl rfl rfl, ⟨rfl, rfl, rfl, rfl⟩, (hst.keeps hS.toTree).leaves,
    hst.space hS (fun _ _ => hEw) fun h => absurd hv (by omega), fun x hx => ?_, fun x hx hpx hux => ?_,
    ?_⟩, by rw [hpv, haw], by rw [hpv, hpw]⟩
  · by_cases hxv : x = v
    · subst hxv
      rw [Kernel.content_present hp, Kernel.content_present (by rwa [hpv]), hpv, haw,
        Kernel.setWord_mem, Function.update_of_ne hne]
    · exact hst.content hS hx trivial hxv
  · by_cases hxv : x = v
    · subst hxv
      rw [hpv, huw] at hux
      cases hux
    · exact hpo x (hx.trans (by decide)) hxv
  · have : (s.setWord (s.ptr d v).1 (s.ptr d v).2 w).nswapped d = s.nswapped d :=
      nswapped_congr fun x hx => by
        by_cases hxv : x = v
        · subst hxv
          rw [hpv, hsw, hE.only hp]
        · rw [hpo x (hx.trans (by decide)) hxv]
    rw [this]
    rfl

/-- A present page on which the hardware faults is not accessible from user mode. -/
theorem user_of_faults {d v : ℕ} {write : Bool} (hS : Space g s d Set.univ) (hv : v < 2 ^ 20)
    (hf : faults (s.pte d v) write = true) (hp : present (s.pte d v) = true) :
    user (s.pte d v) = false := by
  by_contra hu
  have hu' : user (s.pte d v) = true := by simpa using hu
  rcases Nat.lt_or_ge v UVPN with h | h
  · have := (hS.entry v h trivial).write hu'
    simp [faults, hp, hu', this] at hf
  · rw [(hS.kern v h hv).1] at hu'
    cases hu'

theorem faults_false {w : Word} {write : Bool} (h : ¬ faults w write = true) :
    present w = true ∧ user w = true := by
  simp only [faults, Bool.not_eq_true', Bool.not_eq_false, Bool.and_eq_true] at h
  exact h.1

theorem accessible_lt (hS : Space g s d Set.univ) (hv : v < 2 ^ 20) (hu : user (s.pte d v) = true) :
    v < UVPN := by
  by_contra hge
  rw [(hS.kern v (by omega) hv).1] at hu
  cases hu

theorem userLoad_spec (hB : Base E g s) (hS : Space g s (s.dir p) Set.univ) {va : ℕ}
    (hva : va < 2 ^ 32) :
    wp (userLoad p va) (fun b t => ∃ g', Lives E g s (s.dir p) g' t ∧ va / PGSIZE < UVPN ∧
      b = byteAt (s.content (s.dir p) (va / PGSIZE)) va) s := by
  rw [userLoad, wp_bind, wp_get]
  rw [Kernel.lookup_va]
  split_ifs with ht
  swap
  · simp
  simp only [wp_bind, readPte, wp_get, wp_pure, Kernel.mem_ptr ht]
  split_ifs with hf
  · simp
  obtain ⟨hp, hu⟩ := faults_false hf
  have hv := accessible_lt hS (show va / PGSIZE < 2 ^ 20 by simp only [PGSIZE]; omega) hu
  simp only [wp_bind, writePte, wp_modify, wp_pure]
  obtain ⟨hl, -, -⟩ := setFlags_lives PTE_A hB hS hv hp hu (by decide)
  exact ⟨g, hl, hv, by rw [Kernel.content_present hp]⟩

theorem userStore_spec (hB : Base E g s) (hS : Space g s (s.dir p) Set.univ) {va : ℕ} {b : Byte}
    (hva : va < 2 ^ 32) :
    wp (userStore p va b) (fun _ t => ∃ g', Touches E g s (s.dir p) (va / PGSIZE) g' t ∧
      (∀ w < UVPN, present (t.pte (s.dir p) w) = true → user (t.pte (s.dir p) w) = false →
        t.pte (s.dir p) w = s.pte (s.dir p) w ∧ w ≠ va / PGSIZE) ∧
      t.content (s.dir p) (va / PGSIZE) =
        setByte (s.content (s.dir p) (va / PGSIZE)) va b) s := by
  rw [userStore, wp_bind, wp_get]
  rw [Kernel.lookup_va]
  split_ifs with ht
  swap
  · simp
  simp only [wp_bind, readPte, wp_get, wp_pure, Kernel.mem_ptr ht]
  split_ifs with hf
  · simp
  obtain ⟨hp, hu⟩ := faults_false hf
  have hv := accessible_lt hS (show va / PGSIZE < 2 ^ 20 by simp only [PGSIZE]; omega) hu
  simp only [wp_bind, writePte, wp_modify]
  rw [BitVec.or_assoc]
  obtain ⟨hl, haddr, hp1⟩ := setFlags_lives (PTE_A ||| PTE_D) hB hS hv hp hu (by decide)
  set t1 := s.setWord (s.ptr (s.dir p) (va / PGSIZE)).1 (s.ptr (s.dir p) (va / PGSIZE)).2
    (s.pte (s.dir p) (va / PGSIZE) ||| (PTE_A ||| PTE_D)) with ht1
  rw [← haddr]
  obtain ⟨hB2, hk2, hS2, hpte2, hself, hoth⟩ := hl.space.write hl.base hv hp1
    (setByte (t1.mem (PTE_ADDR (t1.pte (s.dir p) (va / PGSIZE)))) va b)
  have hdir : s.dir p = t1.dir p := rfl
  refine ⟨g, ⟨hB2, ⟨rfl, rfl, rfl, rfl⟩, hl.leaves.trans hk2.leaves, hS2, fun w hw hne => ?_, ?_⟩,
    fun w hw hpw huw => ?_, ?_⟩
  · rw [hoth w hw hne, hl.content w hw]
  · have hns : (t1.setFrame (PTE_ADDR (t1.pte (s.dir p) (va / PGSIZE)))
        (setByte (t1.mem (PTE_ADDR (t1.pte (s.dir p) (va / PGSIZE)))) va b)).nswapped (s.dir p) =
        t1.nswapped (s.dir p) := nswapped_congr fun w _ => by rw [hpte2 w]
    rw [hns]
    exact hl.balance
  · rw [hpte2] at hpw huw ⊢
    have e := hl.guard w hw hpw huw
    refine ⟨e, ?_⟩
    rintro rfl
    rw [e, hu] at huw
    cases huw
  · rw [hself, ← Kernel.content_present hp1, hl.content _ hv]

end Xv6Lab.Paging
