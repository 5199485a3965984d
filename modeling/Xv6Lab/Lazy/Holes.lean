import Xv6Lab.Lazy.Refine

/-! The `T_PGFLT` branch of `trap` on every page fault. It maps a page before it looks at the
size, at what is mapped or at the memory left, and kills no process. -/

namespace Xv6Lab.Lazy

open Paging Lib

variable {E : Env} {s t : Machine} {v m cr2 : ℕ}

/-- There is a free frame for page `v`, and one for its page table if that is missing. -/
def Available (s : Machine) (v : ℕ) : Prop :=
  (if (s.pgdir (pdx v)).isSome = true then 1 else 2) ≤ s.freelist.length

/-- The page of `cr2`, a hole of the process, has been filled with a page of zeros, and nothing
else has changed. -/
structure FillsHole (E : Env) (s : Machine) (cr2 : ℕ) (t : Machine) : Prop where
  below : cr2 < s.sz
  user : cr2 < KERNBASE
  hole : present (s.pte (cr2 / PGSIZE)) = false
  available : Available s (cr2 / PGSIZE)
  mapped : Mapped E s (cr2 / PGSIZE) t

/-- A page fault fills a hole or kills the process. -/
def FaultHandled (E : Env) (s : Machine) (cr2 : ℕ) : Prop :=
  (∃ t, trapPgflt E cr2 s = .ok ((), t) ∧ FillsHole E s cr2 t) ∨ trapPgflt E cr2 s = .error .killed

theorem walkpgdir_returns (E : Env) (va : ℕ) (alloc : Bool) (s : Machine) :
    ∃ b t, walkpgdir E va alloc s = .ok (b, t) := by
  rw [walkpgdir, bind_apply, get_apply]
  simp only
  cases s.pgdir (pdx (va / PGSIZE)) with
  | some tb => exact ⟨true, s, rfl⟩
  | none =>
    cases alloc with
    | false => exact ⟨false, s, rfl⟩
    | true =>
      simp only [↓reduceIte, bind_apply]
      rcases kalloc_cases E s with ⟨-, hk⟩ | ⟨f, l, -, hk⟩
      · rw [hk]
        exact ⟨false, s, rfl⟩
      · rw [hk]
        exact ⟨true, _, rfl⟩

/-- `mappages` of one page returns or panics. -/
theorem mappages_returns (E : Env) (v m : ℕ) (perm : Word) (s : Machine) :
    (∃ b t, mappages E (v * PGSIZE) PGSIZE m perm s = .ok (b, t)) ∨
      mappages E (v * PGSIZE) PGSIZE m perm s = .error (.panic "remap") := by
  rw [mappages, one_page, page_of_va, mappagesLoop, bind_apply]
  obtain ⟨b, t, hw⟩ := walkpgdir_returns E (v * PGSIZE) true s
  rw [hw]
  cases b with
  | false => exact .inl ⟨false, t, rfl⟩
  | true =>
    simp only [↓reduceIte, bind_apply, get_apply]
    split_ifs
    · exact .inr rfl
    · exact .inl ⟨true, _, rfl⟩

/-- The handler kills no process. -/
theorem trapPgflt_ne_killed (E : Env) (cr2 : ℕ) (s : Machine) :
    trapPgflt E cr2 s ≠ .error .killed := by
  have hmap : ∀ (m : ℕ) (u : Machine), (do
      let _ ← mappages E (PGROUNDDOWN cr2) PGSIZE m (PTE_W ||| PTE_U) : K Unit) u ≠
        .error .killed := by
    intro m u
    rw [PGROUNDDOWN, bind_apply]
    rcases mappages_returns E (cr2 / PGSIZE) m (PTE_W ||| PTE_U) u with ⟨b, t, h⟩ | h
    · rw [h]
      simp [pure_apply]
    · rw [h]
      simp
  rw [trapPgflt, bind_apply]
  rcases kalloc_cases E s with ⟨-, hk⟩ | ⟨f, l, -, hk⟩
  · rw [hk]
    simp only [memset, bind_apply, get_apply]
    split_ifs
    · have h := hmap (frameOf none) (s.setFrame (PTE_ADDR (s.pte 0)) fun _ => 0#32)
      rwa [bind_apply] at h
    · exact fun h => by cases h
  · rw [hk]
    have h := hmap f (({ s with freelist := l } : Machine).setFrame f fun _ => 0#32)
    rw [bind_apply] at h
    simp only [memset, bind_apply, modify_apply]
    exact h

/-- In every state of a process the handler does right exactly on a fault below the size, in user
space, at a page that is not present, and with frames for the page and its table. -/
theorem faultHandled_iff (hW : WF E s) (cr2 : ℕ) :
    FaultHandled E s cr2 ↔ cr2 < s.sz ∧ cr2 < KERNBASE ∧
      present (s.pte (cr2 / PGSIZE)) = false ∧ Available s (cr2 / PGSIZE) := by
  constructor
  · rintro (⟨t, -, h⟩ | h)
    · exact ⟨h.below, h.user, h.hole, h.available⟩
    · exact absurd h (trapPgflt_ne_killed E cr2 s)
  · rintro ⟨hsz, huser, hhole, hav⟩
    have hv : cr2 / PGSIZE < UVPN := Nat.div_lt_of_lt_mul (by
      rw [show PGSIZE * UVPN = KERNBASE from rfl]
      exact huser)
    obtain ⟨m, l, t, hk, hmap, h⟩ := mapFresh hW hv hhole hav
    refine .inl ⟨t, ?_, hsz, huser, hhole, hav, h⟩
    rw [trapPgflt, bind_apply, hk]
    simp only [memset, bind_apply, modify_apply, frameOf, Option.getD_some, PGROUNDDOWN]
    rw [hmap]
    rfl

/-- The process has grown by a page. -/
def grown : Machine := { demo with sz := 2 * PGSIZE }

theorem grown_wf : WF demoEnv grown :=
  ⟨demo_image.wf.nodup, demo_image.wf.range, demo_image.wf.own, demo_image.wf.inj⟩

theorem faultHandled_grown : FaultHandled demoEnv grown PGSIZE := by
  have htable : (grown.pgdir (pdx (PGSIZE / PGSIZE))).isSome = true := rfl
  refine (faultHandled_iff grown_wf PGSIZE).2 ⟨by decide, by decide, by decide, ?_⟩
  rw [Available, if_pos htable]
  exact (show 1 ≤ 722 by decide).trans_eq List.length_range'.symm

/-- A process touches the page above its memory, which is mapped for it. -/
theorem fault_beyond_size : WF demoEnv demo ∧ ¬ FaultHandled demoEnv demo PGSIZE := by
  refine ⟨demo_image.wf, ?_⟩
  rintro (⟨t, -, h⟩ | h)
  · exact absurd h.below (by decide)
  · exact trapPgflt_ne_killed _ _ _ h

end Xv6Lab.Lazy
