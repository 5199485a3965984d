import Xv6Lab.Paging.Release

/-! The frames that `setupkvm` takes. It succeeds only if it finds ten, and when it fails the free
list has the frames that it had. -/

namespace Xv6Lab.Paging

open Lib

variable {E : Env} {g : Ghost} {s t : Kernel} {c d v : ℕ} {perm : Word}

theorem length_tablesOf (s : Kernel) (d : ℕ) : (s.tablesOf d).length = s.tables d := by
  have hn : ((List.finRange 1024).filter fun i => present (s.mem d i)).Nodup :=
    (List.nodup_finRange 1024).filter _
  rw [Kernel.tablesOf, List.length_map, Kernel.tables, ← List.toFinset_card_of_nodup hn]
  refine congrArg Finset.card (Finset.ext fun i => ?_)
  simp only [List.mem_toFinset, List.mem_filter, List.mem_finRange, true_and, Finset.mem_filter,
    Finset.mem_univ]

/-- When the rounds of `mappages` succeed their pages are present. -/
theorem mappagesLoop_kernel_maps (hperm : KPerm perm) (n v pa : ℕ) (hB : Base E g s)
    (hT : Tree g s d) (h1 : UVPN ≤ v) (h2 : v + n ≤ 2 ^ 20) :
    wp (mappagesLoop E true d perm n (v * PGSIZE) pa) (fun b t => ∃ g', KMapped E g s d g' t ∧
      (∀ w < 2 ^ 20, present (s.pte d w) = true → present (t.pte d w) = true) ∧
      (b = true → ∀ w, v ≤ w → w < v + n → present (t.pte d w) = true)) s := by
  induction n generalizing v pa g s with
  | zero =>
    rw [mappagesLoop, wp_pure]
    exact ⟨g, .refl hB hT, fun _ _ h => h, fun _ w h3 h4 => by omega⟩
  | succ n ih =>
    rcases mappagesLoop_cases hB hT (show v < 2 ^ 20 by omega) perm n pa with
      ⟨-, -, hw⟩ | ⟨g1, t, hW, hw⟩
    · exact wp_of_eq hw ⟨g, .refl hB hT, fun _ _ h => h, by simp⟩
    · intro b u hu
      rw [hw] at hu
      split_ifs at hu
      obtain ⟨hk, -, hkv, hko⟩ := KMapped.one pa h1 (by omega) hperm hW
      obtain ⟨g', hk', hstay, hall⟩ :=
        ih (v + 1) (pa + 1) hk.base hk.tree (by omega) (by omega) b u hu
      refine ⟨g', hk.trans hk', ?_, ?_⟩
      · intro w hlt hp
        apply hstay w hlt
        by_cases hwv : w = v
        · rw [hwv, hkv, present_mapPte]
        · rwa [hko w hlt hwv]
      · intro hb w hw1 hw2
        by_cases hwv : w = v
        · subst hwv
          apply hstay w (by omega)
          rw [hkv, present_mapPte]
        · exact hall hb w (by omega) (by omega)

theorem setupkvmLoop_maps (rows : List (ℕ × ℕ × ℕ × Word)) (hr : ∀ r ∈ rows, r ∈ E.rows)
    (hB : Base E g s) (hT : Tree g s d) :
    wp (setupkvmLoop E d (rows.map fun r => ⟨r.1 * PGSIZE, r.2.2.1, r.2.1 * PGSIZE, r.2.2.2⟩))
      (fun b t => ∃ g', KMapped E g s d g' t ∧
        (∀ w < 2 ^ 20, present (s.pte d w) = true → present (t.pte d w) = true) ∧
        (b = true → ∀ r ∈ rows, ∀ w, r.1 ≤ w → w < r.1 + r.2.1 → present (t.pte d w) = true)) s := by
  induction rows generalizing g s with
  | nil =>
    rw [List.map_nil, setupkvmLoop, wp_pure]
    exact ⟨g, .refl hB hT, fun _ _ h => h, by simp⟩
  | cons r rows ih =>
    obtain ⟨h0, h1, h2, h3⟩ := rows_ok (hr r (List.mem_cons_self ..))
    rw [List.map_cons, setupkvmLoop, wp_bind]
    dsimp only
    rw [mappages_row h0]
    refine wp_mono (mappagesLoop_kernel_maps h3 _ _ _ hB hT h1 h2) ?_
    intro b t ht
    obtain ⟨g1, hk, hstay, hall⟩ := ht
    by_cases hb : b = true
    · rw [if_pos hb]
      refine wp_mono (ih (fun r' hr' => hr r' (List.mem_cons_of_mem _ hr')) hk.base hk.tree) ?_
      intro b' u hu
      obtain ⟨g', hk', hstay', hall'⟩ := hu
      refine ⟨g', hk.trans hk', fun w hlt hp => hstay' w hlt (hstay w hlt hp), ?_⟩
      intro hb' r' hr' w hw1 hw2
      rcases List.mem_cons.1 hr' with rfl | hr'
      · exact hstay' w (hw2.trans_le h2) (hall hb w hw1 hw2)
      · exact hall' hb' r' hr' w hw1 hw2
    · rw [if_neg hb, wp_pure]
      exact ⟨g1, hk, hstay, by simp⟩

/-- With fewer than ten free frames `setupkvm` fails. -/
theorem setupkvm_some (hB : Base E g s) (h : setupkvm E s = .ok (some c, t)) :
    10 ≤ s.freelist.length := by
  rw [setupkvm, bind_apply] at h
  rcases kalloc_cases E s with ⟨-, hk⟩ | ⟨d, l, hp, hk⟩
  · rw [hk] at h
    cases h
  · have hD := NewDir.of_perm hB hp
    rw [hk] at h
    simp only [setFrame, bind_apply, modify_apply] at h
    rw [Env.kmap_eq] at h
    cases hl : setupkvmLoop E d (E.rows.map fun r => ⟨r.1 * PGSIZE, r.2.2.1, r.2.1 * PGSIZE, r.2.2.2⟩)
        (Kernel.setFrame { s with freelist := l } d fun _ => 0#32) with
    | error e =>
      rw [hl] at h
      cases h
    | ok r =>
      obtain ⟨g', hK, -, hall⟩ := setupkvmLoop_maps E.rows (fun _ h => h) hD.base hD.tree _ _ hl
      rw [hl] at h
      dsimp only at h
      by_cases hb : r.1 = true
      · have htables : kernelTables.card ≤ r.2.tables d := by
          apply Finset.card_le_card
          intro i hi
          obtain ⟨row, hrow, h1, h2⟩ := kernelTables_row (E := E) hi
          have hpt := present_table_of_entry (hall hb row hrow _ h1 h2)
          rw [show pdx (i.val * 1024) = i by simp only [pdx]; ext; dsimp only; omega] at hpt
          exact Finset.mem_filter.2 ⟨Finset.mem_univ i, hpt⟩
        have hm := hK.measure
        have hm' := hD.measure
        rw [hD.tables] at hm
        rw [card_kernelTables] at htables
        omega
      · rw [if_neg hb, bind_apply] at h
        cases hf : freevm E d r.2 with
        | error e =>
          rw [hf] at h
          cases h
        | ok r' =>
          rw [hf] at h
          cases h

/-- When `setupkvm` fails the free list has the same frames as before. -/
theorem setupkvm_none (hB : Base E g s) (h : setupkvm E s = .ok (none, t)) :
    t.freelist.Perm s.freelist := by
  rw [setupkvm, bind_apply] at h
  rcases kalloc_cases E s with ⟨-, hk⟩ | ⟨d, l, hp, hk⟩
  · rw [hk] at h
    cases h
    exact .refl _
  · have hD := NewDir.of_perm hB hp
    rw [hk] at h
    simp only [setFrame, bind_apply, modify_apply] at h
    rw [Env.kmap_eq] at h
    cases hl : setupkvmLoop E d (E.rows.map fun r => ⟨r.1 * PGSIZE, r.2.2.1, r.2.1 * PGSIZE, r.2.2.2⟩)
        (Kernel.setFrame { s with freelist := l } d fun _ => 0#32) with
    | error e =>
      rw [hl] at h
      cases h
    | ok r =>
      obtain ⟨g1, hK⟩ := setupkvmLoop_spec E.rows (fun _ h => h) hD.base hD.tree _ _ hl
      have hN := hD.newSpace hK
      rw [hl] at h
      dsimp only at h
      by_cases hb : r.1 = true
      · rw [if_pos hb] at h
        cases h
      · obtain ⟨u, hu, hperm, -⟩ :=
          freevm_release (hN.space.owns hN.base le_rfl) fun f hf => hN.space.range hN.base hf
        obtain ⟨g2, hF⟩ := freevm_spec hN.base hN.space _ _ hu
        rw [if_neg hb, bind_apply, hu] at h
        cases h
        have hno : r.2.framesIn d 0 UVPN = [] := by
          apply framesIn_nil
          intro v _ hv
          rw [hN.empty hv]
          decide
        rw [hno, List.append_nil] at hperm
        apply List.Subperm.perm_of_length_le
        · apply List.Nodup.subperm hF.base.nodup
          intro x hx
          rw [hperm.mem_iff, List.cons_append, List.mem_cons, List.mem_append, mem_tablesOf] at hx
          rw [hB.free]
          rcases hx with rfl | ⟨i, hi, rfl⟩ | hx
          · exact hN.old
          · by_contra hne
            have hown := (hN.frame _ hne).1
            rw [hN.space.tab i hi] at hown
            rcases hK.tabs i hi with he | hfree
            · rw [he, hD.zero] at hi
              simp at hi
            · rw [hD.frames, Ghost.setFrame] at hfree
              dsimp only at hfree
              by_cases hd : PTE_ADDR (r.2.mem d i) = d
              · rw [hd, Function.update_self] at hfree
                cases hfree
              · rw [Function.update_of_ne hd] at hfree
                exact hne hfree
          · by_contra hne
            rw [hN.base.free, (hN.frame _ hne).1] at hx
            exact hne hx
        · have hm := hK.measure
          have hm' := hD.measure
          rw [hD.tables] at hm
          rw [hperm.length_eq, List.length_append, List.length_cons, length_tablesOf]
          omega

end Xv6Lab.Paging
