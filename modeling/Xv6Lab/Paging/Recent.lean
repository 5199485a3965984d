import Xv6Lab.Paging.FaultSpec

/-! Which page `swap_page` evicts, set against the rule that it is to follow: a page that has not
been accessed recently, and access bits are cleared where there is none. -/

namespace Xv6Lab.Paging

open Lib

variable {E : Env} {s t : Kernel} {d v : ℕ} {p : PtePtr}

/-- The hardware sets this bit when it uses the entry. -/
def accessed (w : Word) : Bool := w.getLsbD 5

/-- Page `v` is present and one of those that `select_a_victim` looks at. -/
structure Resident (s : Kernel) (d v : ℕ) : Prop where
  pos : 1 ≤ v
  lt : v < UVPN
  present : present (s.pte d v) = true

/-- The entries whose access bits are to be cleared: those of the first 103 accessed pages. -/
def Kernel.aged (s : Kernel) (d : ℕ) : List PtePtr :=
  (((List.range' 1 (UVPN - 1)).filter fun v =>
    present (s.pte d v) && accessed (s.pte d v)).take 103).map (s.ptr d)

/-- The entry that `swap_page` hands to `swap_page_from_pte`. -/
def Kernel.evicts (s : Kernel) (d : ℕ) : Option PtePtr :=
  match s.selectAVictim d with
  | some p => some p
  | none =>
    match clearaccessbit d s with
    | .ok (_, t) => t.selectAVictim d
    | .error _ => none

/-- `select_a_victim` returns the entry of an unaccessed page, null if there is none. -/
def Selects (s : Kernel) (d : ℕ) : Prop :=
  match s.selectAVictim d with
  | some p => ∃ v, Resident s d v ∧ accessed (s.pte d v) = false ∧ p = s.ptr d v
  | none => ∀ v, Resident s d v → accessed (s.pte d v) = true

/-- Where all pages are accessed, `clearaccessbit` clears the access bits of the first 103 and
no other bit, and then there is a victim. -/
def Ages (s : Kernel) (d : ℕ) : Prop :=
  (∀ v, Resident s d v → accessed (s.pte d v) = true) →
    ∃ t, clearaccessbit d s = .ok ((), t) ∧
      (∀ p : PtePtr, t.mem p.1 p.2 =
        if p ∈ s.aged d then s.mem p.1 p.2 &&& ~~~PTE_A else s.mem p.1 p.2) ∧
      t.selectAVictim d ≠ none

/-- No accessed page goes while there is an unaccessed one. -/
def SparesRecent (s : Kernel) (d : ℕ) : Prop :=
  ∀ p, s.evicts d = some p → accessed (s.mem p.1 p.2) = true →
    ∀ v, Resident s d v → accessed (s.pte d v) = true

theorem evicts_eq (s : Kernel) (d : ℕ) : s.evicts d = s.selectAVictim d := by
  unfold Kernel.evicts
  rw [clearaccessbit_apply]
  cases h : s.selectAVictim d with
  | some p => rfl
  | none => exact h

/-- The retry of `swap_page` finds what the first attempt found. -/
theorem swapPage_eq (E : Env) (s : Kernel) (d pid : ℕ) :
    swapPage E d pid s = swapPageFromPte E d (s.evicts d) pid s := by
  rw [evicts_eq]
  cases h : s.selectAVictim d with
  | some p => exact swapPage_apply h pid
  | none =>
    rw [swapPage, bind_apply, get_apply]
    simp only [h, bind_apply, clearaccessbit_apply, get_apply]

namespace Victim

theorem resident (h : Victim s d v) : Resident s d v := ⟨h.pos, h.lt, h.present⟩

theorem mem_ptr (h : Victim s d v) : s.mem (s.ptr d v).1 (s.ptr d v).2 = s.pte d v :=
  Kernel.mem_ptr (present_table_of_entry h.present)

end Victim

theorem Resident.mem_ptr (h : Resident s d v) : s.mem (s.ptr d v).1 (s.ptr d v).2 = s.pte d v :=
  Kernel.mem_ptr (present_table_of_entry h.present)

/-- With a resident page the first one is the choice, whatever its access bit. -/
theorem selectAVictim_first (h : ∃ v, Resident s d v) :
    ∃ v, Victim s d v ∧ s.selectAVictim d = some (s.ptr d v) := by
  obtain ⟨v, hv⟩ := h
  cases hs : s.selectAVictim d with
  | none =>
    have hp := selectAVictim_none hs hv.pos hv.lt
    rw [hv.present] at hp
    cases hp
  | some p =>
    obtain ⟨v', hv', rfl⟩ := selectAVictim_some hs
    exact ⟨v', hv', rfl⟩

section

variable (hv : Victim s d v) (hs : s.selectAVictim d = some (s.ptr d v))

include hv hs

theorem selects_iff : Selects s d ↔ accessed (s.pte d v) = false := by
  unfold Selects
  rw [hs]
  constructor
  · rintro ⟨v', hv', ha, hp⟩
    rw [← hv.mem_ptr, hp, hv'.mem_ptr]
    exact ha
  · intro ha
    exact ⟨v, hv.resident, ha, rfl⟩

theorem sparesRecent_iff : SparesRecent s d ↔
    (accessed (s.pte d v) = true → ∀ v', Resident s d v' → accessed (s.pte d v') = true) := by
  unfold SparesRecent
  rw [evicts_eq, hs]
  constructor
  · intro h ha
    exact h _ rfl (by rw [hv.mem_ptr, ha])
  · rintro h p hp ha
    cases hp
    rw [hv.mem_ptr] at ha
    exact h ha

end

theorem accessed_and_not (w : Word) : accessed (w &&& ~~~PTE_A) = false := by
  unfold accessed
  rw [BitVec.getLsbD_and]
  simp [PTE_A]

theorem ages_iff (hr : ∃ v, Resident s d v) :
    Ages s d ↔ ∃ v, Resident s d v ∧ accessed (s.pte d v) = false := by
  constructor
  · intro h
    by_contra hno
    have hall : ∀ v, Resident s d v → accessed (s.pte d v) = true := by
      intro v hv
      by_contra ha
      exact hno ⟨v, hv, by simpa using ha⟩
    obtain ⟨t, ht, hmem, -⟩ := h hall
    rw [clearaccessbit_apply] at ht
    cases ht
    -- the first accessed page was to lose its access bit
    obtain ⟨v, hv⟩ := hr
    have hin : v ∈ (List.range' 1 (UVPN - 1)).filter fun v =>
        present (s.pte d v) && accessed (s.pte d v) := by
      rw [List.mem_filter, List.mem_range'_1, hv.present, hall v hv]
      refine ⟨⟨hv.pos, ?_⟩, rfl⟩
      have := hv.lt
      rw [UVPN_eq] at this ⊢
      omega
    obtain ⟨u, us, hus⟩ := List.exists_cons_of_ne_nil (List.ne_nil_of_mem hin)
    have hu : u ∈ (List.range' 1 (UVPN - 1)).filter fun v =>
        present (s.pte d v) && accessed (s.pte d v) := by simp only [hus, List.mem_cons, true_or]
    rw [List.mem_filter, Bool.and_eq_true] at hu
    have hptr := hmem (s.ptr d u)
    rw [if_pos (by simp only [Kernel.aged, hus, List.take_succ_cons, List.map_cons, List.mem_cons,
      true_or]), Kernel.mem_ptr (present_table_of_entry hu.2.1)] at hptr
    have hbit := accessed_and_not (s.pte d u)
    rw [← hptr, hu.2.2] at hbit
    cases hbit
  · rintro ⟨v, hv, ha⟩ hall
    rw [hall v hv] at ha
    cases ha

/-- With a resident page, the rule is kept exactly where the first resident page has not been
accessed. The part that clears access bits is kept only where nothing needs clearing. -/
theorem not_recently_used_iff (s : Kernel) (d : ℕ) (h : ∃ v, Resident s d v) :
    (∀ E pid, swapPage E d pid s = swapPageFromPte E d (s.evicts d) pid s) ∧
    (Ages s d ↔ ∃ v, Resident s d v ∧ accessed (s.pte d v) = false) ∧
    (Selects s d ∧ Ages s d ∧ SparesRecent s d ↔
      ∃ v, Resident s d v ∧ accessed (s.pte d v) = false ∧ ∀ v', Resident s d v' → v ≤ v') := by
  refine ⟨fun E pid => swapPage_eq E s d pid, ages_iff h, ?_⟩
  obtain ⟨v, hv, hs⟩ := selectAVictim_first h
  rw [selects_iff hv hs, ages_iff h, sparesRecent_iff hv hs]
  have hfirst : ∀ v', Resident s d v' → v ≤ v' := by
    intro v' hv'
    by_contra hlt
    have hp := hv.first v' hv'.pos (Nat.lt_of_not_le hlt)
    rw [hv'.present] at hp
    cases hp
  constructor
  · rintro ⟨ha, -, -⟩
    exact ⟨v, hv.resident, ha, hfirst⟩
  · rintro ⟨v', hv', ha, hle⟩
    obtain rfl := Nat.le_antisymm (hfirst v' hv') (hle v hv.resident)
    refine ⟨ha, ⟨v, hv', ha⟩, fun ha' => ?_⟩
    rw [ha] at ha'
    cases ha'

/-- A directory in frame 300 with a table in frame 301, in which pages 1 and 2 are present with the
flags `fl` and `fl'`. -/
def twoResident (fl fl' : Word) : Kernel where
  mem f := if f = 300 then Function.update (fun _ => 0#32) 0 (userPte 301)
    else if f = 301 then
      Function.update (Function.update (fun _ => 0#32) 1 (userPte 302 ||| fl)) 2 (userPte 303 ||| fl')
    else fun _ => 0#32
  freelist := []
  bit := fun b => b < 100
  block := fun _ _ => 0#32
  numallocblocks := 0
  files := []
  kpgdir := 299
  proc := fun _ => ⟨.RUNNABLE, 1, none, 300, 304, 0x3000⟩
  nextpid := 2
  initproc := 0

theorem not_recently_used_unaccessed :
    Selects (twoResident 0#32 PTE_A) 300 ∧ Ages (twoResident 0#32 PTE_A) 300 ∧
      SparesRecent (twoResident 0#32 PTE_A) 300 :=
  have h1 : Resident (twoResident 0#32 PTE_A) 300 1 := ⟨le_rfl, by decide, by decide +kernel⟩
  (not_recently_used_iff _ _ ⟨1, h1⟩).2.2.2 ⟨1, h1, by decide +kernel, fun _ h => h.pos⟩

/-- Page 1 has been accessed and page 2 has not, and `swap_page` evicts page 1. -/
theorem swapPage_evicts_accessed :
    Resident (twoResident PTE_A 0#32) 300 2 ∧
      accessed ((twoResident PTE_A 0#32).pte 300 2) = false ∧
      (twoResident PTE_A 0#32).evicts 300 = some ((twoResident PTE_A 0#32).ptr 300 1) ∧
      accessed ((twoResident PTE_A 0#32).pte 300 1) = true ∧
      ¬ (Selects (twoResident PTE_A 0#32) 300 ∧ Ages (twoResident PTE_A 0#32) 300 ∧
        SparesRecent (twoResident PTE_A 0#32) 300) := by
  have h1 : Resident (twoResident PTE_A 0#32) 300 1 := ⟨le_rfl, by decide, by decide +kernel⟩
  have h2 : Resident (twoResident PTE_A 0#32) 300 2 :=
    ⟨by norm_num, by decide, by decide +kernel⟩
  have ha1 : accessed ((twoResident PTE_A 0#32).pte 300 1) = true := by decide +kernel
  have ha2 : accessed ((twoResident PTE_A 0#32).pte 300 2) = false := by decide +kernel
  obtain ⟨v, hv, hs⟩ := selectAVictim_first ⟨1, h1⟩
  obtain rfl : v = 1 := by
    by_contra hne
    have hp := hv.first 1 le_rfl (Nat.lt_of_le_of_ne hv.pos (Ne.symm hne))
    rw [h1.present] at hp
    cases hp
  refine ⟨h2, ha2, by rw [evicts_eq, hs], ha1, ?_⟩
  rintro ⟨hsel, -⟩
  rw [selects_iff hv hs, ha1] at hsel
  cases hsel

end Xv6Lab.Paging
