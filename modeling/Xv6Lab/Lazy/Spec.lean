import Xv6Lab.Lazy.Machine
import Xv6Lab.Paging.ExecSpec

/-! What mapping and unmapping pages does to the memory of the process. Every frame is
free, holds a page of the process or is one of its page tables, so their number tells
how much more can be mapped. -/

namespace Xv6Lab.Lazy

open Paging Lib

variable {E : Env} {s t u : Machine} {v w f m N lo hi mid : ℕ} {x : Word}

namespace Machine

/-- The bytes of page `v`; zeros where nothing is mapped. -/
def content (s : Machine) (v : ℕ) : Page :=
  if present (s.pte v) then s.mem (PTE_ADDR (s.pte v)) else fun _ => 0#32

/-- The pages of the process that are mapped. -/
def pages (s : Machine) : Finset ℕ := (Finset.range UVPN).filter fun v => present (s.pte v) = true

/-- The page tables of the user half. -/
def tables (s : Machine) : Finset (Fin 1024) :=
  Finset.univ.filter fun i => i.val < 512 ∧ (s.pgdir i).isSome = true

/-- The frames that are free, hold a page or are a page table. -/
def frames (s : Machine) : ℕ := s.freelist.length + s.pages.card + s.tables.card

theorem mem_pages : v ∈ s.pages ↔ v < UVPN ∧ present (s.pte v) = true := by
  rw [pages, Finset.mem_filter, Finset.mem_range]

theorem content_present (h : present (s.pte v) = true) : s.content v = s.mem (PTE_ADDR (s.pte v)) :=
  if_pos h

theorem content_not_present (h : present (s.pte v) = false) : s.content v = fun _ => 0#32 :=
  if_neg (by simp [h])

theorem pte_of_none (h : s.pgdir (pdx v) = none) : s.pte v = 0#32 := by
  rw [pte, h]

theorem table_of_present (h : present (s.pte v) = true) : (s.pgdir (pdx v)).isSome = true := by
  cases hd : s.pgdir (pdx v) with
  | none =>
    rw [pte_of_none hd, present_zero] at h
    cases h
  | some t => rfl

theorem pte_setPte_self (h : (s.pgdir (pdx v)).isSome = true) : (s.setPte v x).pte v = x := by
  obtain ⟨t, ht⟩ := Option.isSome_iff_exists.1 h
  simp only [setPte, pte, Function.update_self, ht, Option.map_some]

theorem pte_setPte_of_ne (hv : v < 2 ^ 20) (hw : w < 2 ^ 20) (hne : w ≠ v) :
    (s.setPte v x).pte w = s.pte w := by
  simp only [setPte, pte]
  by_cases hd : pdx w = pdx v
  · have ht : ptx w ≠ ptx v := fun e => hne (page_eq_of_index hw hv hd e)
    rw [hd, Function.update_self]
    cases s.pgdir (pdx v) with
    | none => rfl
    | some t => exact Function.update_of_ne ht ..
  · rw [Function.update_of_ne hd]

theorem tables_setPte (s : Machine) (v : ℕ) (x : Word) : (s.setPte v x).tables = s.tables := by
  unfold tables setPte
  apply Finset.filter_congr
  intro i _
  by_cases hi : i = pdx v
  · subst hi
    simp
  · simp [hi]

end Machine

/-- The free list, and the frames that entries of the process name, are disjoint and
without repetition. -/
structure WF (E : Env) (s : Machine) : Prop where
  nodup : s.freelist.Nodup
  range : ∀ f ∈ s.freelist, E.kend ≤ f ∧ f < E.nframes
  own : ∀ v < UVPN, present (s.pte v) = true →
    E.kend ≤ PTE_ADDR (s.pte v) ∧ PTE_ADDR (s.pte v) < E.nframes ∧ PTE_ADDR (s.pte v) ∉ s.freelist
  inj : ∀ v < UVPN, ∀ w < UVPN, present (s.pte v) = true → present (s.pte w) = true →
    PTE_ADDR (s.pte v) = PTE_ADDR (s.pte w) → v = w

/-- There are frames enough for the first `N` pages and for every page table. -/
structure Supply (s : Machine) (N : ℕ) : Prop where
  le : N ≤ UVPN
  pages : ∀ v < UVPN, present (s.pte v) = true → v < N
  enough : N + 512 ≤ s.frames

theorem kalloc_cases (E : Env) (s : Machine) :
    (s.freelist = [] ∧ kalloc E s = .ok (none, s)) ∨
      ∃ f l, s.freelist.Perm (f :: l) ∧ kalloc E s = .ok (some f, { s with freelist := l }) := by
  by_cases h : s.freelist = []
  · left
    refine ⟨h, ?_⟩
    rw [kalloc, bind_apply, get_apply]
    simp only [h, ↓reduceDIte, pure_apply]
  · right
    have hi : E.pick s.freelist % s.freelist.length < s.freelist.length :=
      Nat.mod_lt _ (List.length_pos_iff.mpr h)
    refine ⟨_, _, (List.getElem_cons_eraseIdx_perm hi).symm, ?_⟩
    rw [kalloc, bind_apply, get_apply]
    simp only [h, ↓reduceDIte, bind_apply, modify_apply, pure_apply]

theorem card_tables_le (s : Machine) : s.tables.card ≤ 512 := by
  have hsub : s.tables ⊆ Finset.univ.filter fun i : Fin 1024 => i.val < 512 := by
    intro i hi
    rw [Machine.tables, Finset.mem_filter] at hi
    rw [Finset.mem_filter]
    exact ⟨Finset.mem_univ i, hi.2.1⟩
  calc s.tables.card ≤ (Finset.univ.filter fun i : Fin 1024 => i.val < 512).card :=
        Finset.card_le_card hsub
    _ = 512 := by decide +kernel

/-- A page that is not mapped finds a frame for itself and one for its table. -/
theorem Supply.free (h : Supply s N) (hv : v < N) (hnp : present (s.pte v) = false) :
    (if (s.pgdir (pdx v)).isSome = true then 1 else 2) ≤ s.freelist.length := by
  have hN := h.le
  have hpages : s.pages.card + 1 ≤ N := by
    have hsub : insert v s.pages ⊆ Finset.range N := by
      intro w hw
      rw [Finset.mem_range]
      rcases Finset.mem_insert.1 hw with rfl | hw
      · exact hv
      · obtain ⟨hlt, hp⟩ := Machine.mem_pages.1 hw
        exact h.pages w hlt hp
    have hnot : v ∉ s.pages := fun hm => by
      rw [(Machine.mem_pages.1 hm).2] at hnp
      cases hnp
    have := Finset.card_le_card hsub
    rwa [Finset.card_insert_of_notMem hnot, Finset.card_range] at this
  have henough := h.enough
  unfold Machine.frames at henough
  split_ifs with ht
  · have := card_tables_le s
    omega
  · have htab : s.tables.card + 1 ≤ 512 := by
      have hnot : pdx v ∉ s.tables := fun hm => ht (Finset.mem_filter.1 hm).2.2
      have hlow : (pdx v).val < 512 := (pdx_lt_iff (by
        have := UVPN_eq
        omega)).2 (by omega)
      have hsub : insert (pdx v) s.tables ⊆ Finset.univ.filter fun i : Fin 1024 => i.val < 512 := by
        intro i hi
        rw [Finset.mem_filter]
        rcases Finset.mem_insert.1 hi with rfl | hi
        · exact ⟨Finset.mem_univ _, hlow⟩
        · exact ⟨Finset.mem_univ _, (Finset.mem_filter.1 hi).2.1⟩
      have hcard := Finset.card_le_card hsub
      rw [Finset.card_insert_of_notMem hnot] at hcard
      have h512 : (Finset.univ.filter fun i : Fin 1024 => i.val < 512).card = 512 := by
        decide +kernel
      omega
    omega

/-! ### Mapping one page -/

/-- Page `v`, not mapped in `s`, is mapped in `t` and holds zeros; nothing else has
changed for the process. -/
structure Mapped (E : Env) (s : Machine) (v : ℕ) (t : Machine) : Prop where
  wf : WF E t
  present : present (t.pte v) = true
  user : user (t.pte v) = true
  writable : writable (t.pte v) = true
  pte : ∀ w < 2 ^ 20, w ≠ v → t.pte w = s.pte w
  content : ∀ w < UVPN, t.content w = s.content w
  sz : t.sz = s.sz
  frames : t.frames = s.frames

/-- The state with page `v` mapped to the frame `m`, `l` being the free list left, and
with an empty page table if there was none. -/
theorem mapped_of {l : List ℕ} (tab : Option ℕ) (hW : WF E s) (hv : v < UVPN)
    (hnp : present (s.pte v) = false) (hperm : s.freelist.Perm (m :: (tab.toList ++ l)))
    (htab : tab.isSome = true ↔ s.pgdir (pdx v) = none) :
    Mapped E s v (({ s.setFrame m (fun _ => 0#32) with
      freelist := l
      pgdir := Function.update s.pgdir (pdx v)
        ((s.pgdir (pdx v)).or (tab.map fun f => ⟨f, fun _ => 0#32⟩)) } : Machine).setPte v
          (mapPte m (PTE_W ||| PTE_U))) := by
  set s1 : Machine := { s.setFrame m (fun _ => 0#32) with
    freelist := l
    pgdir := Function.update s.pgdir (pdx v)
      ((s.pgdir (pdx v)).or (tab.map fun f => ⟨f, fun _ => 0#32⟩)) } with hs1
  have hv20 : v < 2 ^ 20 := hv.trans (by decide)
  have hmem : m ∈ s.freelist := hperm.mem_iff.2 (by simp)
  obtain ⟨hm1, hm2⟩ := hW.range m hmem
  have hlt : m < 2 ^ 20 := hm2.trans_le E.nframes_le
  have hsub : ∀ x ∈ l, x ∈ s.freelist := fun x hx => hperm.mem_iff.2 (by simp [hx])
  have hnd : (m :: (tab.toList ++ l)).Nodup := hperm.nodup_iff.1 hW.nodup
  rw [List.nodup_cons, List.nodup_append] at hnd
  -- a new table is empty, so that entries are as before
  have hpte1 : ∀ w, s1.pte w = s.pte w := by
    intro w
    unfold Machine.pte
    rw [hs1]
    simp only
    by_cases hd : pdx w = pdx v
    · rw [hd, Function.update_self]
      cases hp : s.pgdir (pdx v) with
      | some t => rfl
      | none =>
        obtain ⟨f, rfl⟩ := Option.isSome_iff_exists.1 (htab.2 hp)
        rfl
    · rw [Function.update_of_ne hd]
  have hsome : (s1.pgdir (pdx v)).isSome = true := by
    rw [hs1]
    simp only [Function.update_self]
    cases hp : s.pgdir (pdx v) with
    | some t => rfl
    | none =>
      obtain ⟨f, rfl⟩ := Option.isSome_iff_exists.1 (htab.2 hp)
      rfl
  set t := s1.setPte v (mapPte m (PTE_W ||| PTE_U)) with ht
  have hself : t.pte v = mapPte m (PTE_W ||| PTE_U) := Machine.pte_setPte_self hsome
  have haddr : PTE_ADDR (t.pte v) = m := by rw [hself, PTE_ADDR_mapPte hlt (by decide)]
  have hother : ∀ w < 2 ^ 20, w ≠ v → t.pte w = s.pte w := fun w hw hne => by
    rw [Machine.pte_setPte_of_ne hv20 hw hne, hpte1]
  obtain ⟨hu, hw, -⟩ := user_mapPte_WU m
  have hpv : present (t.pte v) = true := by rw [hself, present_mapPte]
  have hfree : t.freelist = l := rfl
  have hown : ∀ w < UVPN, w ≠ v → present (t.pte w) = true →
      present (s.pte w) = true ∧ PTE_ADDR (t.pte w) ≠ m := fun w hwu hne hp => by
    rw [hother w (hwu.trans (by decide)) hne] at hp ⊢
    exact ⟨hp, fun e => (hW.own w hwu hp).2.2 (e ▸ hmem)⟩
  refine ⟨⟨?_, ?_, ?_, ?_⟩, hpv, by rw [hself, hu], by rw [hself, hw], hother, ?_, rfl, ?_⟩
  · rw [hfree]
    exact hnd.2.2.1
  · intro x hx
    exact hW.range x (hsub x hx)
  · intro w hwu hp
    by_cases hwv : w = v
    · rw [hwv, haddr]
      exact ⟨hm1, hm2, fun hml => hnd.1 (by simp [hfree ▸ hml])⟩
    · obtain ⟨hp', -⟩ := hown w hwu hwv hp
      rw [hother w (hwu.trans (by decide)) hwv]
      obtain ⟨h1, h2, h3⟩ := hW.own w hwu hp'
      exact ⟨h1, h2, fun hml => h3 (hsub _ (hfree ▸ hml))⟩
  · intro a ha b hb hpa hpb hab
    by_cases hav : a = v
    · by_cases hbv : b = v
      · rw [hav, hbv]
      · rw [hav, haddr] at hab
        exact absurd hab.symm (hown b hb hbv hpb).2
    · by_cases hbv : b = v
      · rw [hbv, haddr] at hab
        exact absurd hab (hown a ha hav hpa).2
      · have ha' := (hown a ha hav hpa).1
        have hb' := (hown b hb hbv hpb).1
        rw [hother a (ha.trans (by decide)) hav, hother b (hb.trans (by decide)) hbv] at hab
        exact hW.inj a ha b hb ha' hb' hab
  · intro w hwu
    by_cases hwv : w = v
    · rw [hwv, Machine.content_present hpv, haddr, Machine.content_not_present hnp]
      exact Function.update_self ..
    · have he := hother w (hwu.trans (by decide)) hwv
      cases hp : present (s.pte w) with
      | true =>
        have hp' : present (t.pte w) = true := by rw [he, hp]
        rw [Machine.content_present hp', Machine.content_present hp, ← he]
        exact Function.update_of_ne (hown w hwu hwv hp').2 ..
      | false =>
        rw [Machine.content_not_present hp, Machine.content_not_present (by rw [he, hp])]
  · have hpages : t.pages = insert v s.pages := by
      ext w
      rw [Finset.mem_insert, Machine.mem_pages, Machine.mem_pages]
      by_cases hwv : w = v
      · subst hwv
        simp [hv, hpv]
      · simp only [hwv, false_or]
        refine and_congr_right fun hwu => ?_
        rw [hother w (hwu.trans (by decide)) hwv]
    have hnot : v ∉ s.pages := fun h => by
      rw [(Machine.mem_pages.1 h).2] at hnp
      cases hnp
    have htables : t.tables.card = s.tables.card + tab.toList.length := by
      rw [ht, Machine.tables_setPte]
      have hlow : (pdx v).val < 512 := (pdx_lt_iff hv20).2 hv
      cases tab with
      | some f =>
        have hnone : s.pgdir (pdx v) = none := htab.1 rfl
        have hins : s1.tables = insert (pdx v) s.tables := by
          ext i
          rw [Finset.mem_insert, Machine.tables, Machine.tables, Finset.mem_filter,
            Finset.mem_filter, hs1]
          by_cases hi : i = pdx v
          · subst hi
            simp [hlow]
          · simp [hi]
        have hnot' : pdx v ∉ s.tables := fun h => by
          have := (Finset.mem_filter.1 h).2.2
          rw [hnone] at this
          cases this
        rw [hins, Finset.card_insert_of_notMem hnot']
        rfl
      | none =>
        have hsame : s1.tables = s.tables := by
          unfold Machine.tables
          refine Finset.filter_congr fun i _ => ?_
          rw [hs1]
          by_cases hi : i = pdx v
          · subst hi
            simp
          · simp [hi]
        rw [hsame, Option.toList_none, List.length_nil, Nat.add_zero]
    have hlen := hperm.length_eq
    rw [List.length_cons, List.length_append] at hlen
    unfold Machine.frames
    rw [hpages, Finset.card_insert_of_notMem hnot, htables, hfree]
    omega

theorem page_of_va (v : ℕ) : v * PGSIZE / PGSIZE = v := page_mul v

/-- `kalloc`, `memset` and `mappages` of a page that is not mapped. -/
theorem mapFresh (hW : WF E s) (hv : v < UVPN) (hnp : present (s.pte v) = false)
    (hlen : (if (s.pgdir (pdx v)).isSome = true then 1 else 2) ≤ s.freelist.length) :
    ∃ m l t, kalloc E s = .ok (some m, { s with freelist := l }) ∧
      mappages E (v * PGSIZE) PGSIZE m (PTE_W ||| PTE_U)
        (({ s with freelist := l } : Machine).setFrame m fun _ => 0#32) = .ok (true, t) ∧
      Mapped E s v t := by
  rcases kalloc_cases E s with ⟨h0, -⟩ | ⟨m, l, hperm, hk⟩
  · rw [h0] at hlen
    split_ifs at hlen <;> simp at hlen
  set s1 : Machine := ({ s with freelist := l } : Machine).setFrame m fun _ => 0#32 with hs1
  cases hd : s.pgdir (pdx v) with
  | some tb =>
    have hwalk : walkpgdir E (v * PGSIZE) true s1 = .ok (true, s1) := by
      rw [walkpgdir, bind_apply, get_apply]
      simp only [page_of_va]
      rw [show s1.pgdir (pdx v) = some tb from hd]
      rfl
    refine ⟨m, l, s1.setPte v (mapPte m (PTE_W ||| PTE_U)), hk, ?_, ?_⟩
    · rw [mappages, one_page, page_of_va, mappagesLoop, bind_apply, hwalk]
      simp only [↓reduceIte, bind_apply, get_apply]
      rw [if_neg (by rw [show s1.pte v = s.pte v from rfl, hnp]; simp)]
      rfl
    · have h := mapped_of Option.none hW hv hnp hperm (by simp [hd])
      have he : ({ s.setFrame m (fun _ => 0#32) with
          freelist := l
          pgdir := Function.update s.pgdir (pdx v) ((s.pgdir (pdx v)).or
            (Option.map (fun f => (⟨f, fun _ => 0#32⟩ : PageTable)) Option.none)) } : Machine) = s1 := by
        rw [hs1, Option.map_none, Option.or_none, Function.update_eq_self]
        rfl
      rwa [he] at h
  | none =>
    rw [hd] at hlen
    have hlen1 := hperm.length_eq
    rw [List.length_cons] at hlen1
    rcases kalloc_cases E s1 with ⟨h0, -⟩ | ⟨f, l', hperm', hk'⟩
    · rw [show l = [] from h0] at hlen1
      simp only [Option.isSome_none, Bool.false_eq_true, ↓reduceIte, List.length_nil] at hlen hlen1
      omega
    set s2 : Machine := { s1 with
      freelist := l', pgdir := Function.update s.pgdir (pdx v) (some ⟨f, fun _ => 0#32⟩) } with hs2
    have hwalk : walkpgdir E (v * PGSIZE) true s1 = .ok (true, s2) := by
      rw [walkpgdir, bind_apply, get_apply]
      simp only [page_of_va]
      rw [show s1.pgdir (pdx v) = none from hd]
      simp only [↓reduceIte, bind_apply, hk', modify_apply, pure_apply]
      rfl
    have hpte2 : s2.pte v = 0#32 := by
      unfold Machine.pte
      rw [hs2]
      simp only [Function.update_self]
    refine ⟨m, l, s2.setPte v (mapPte m (PTE_W ||| PTE_U)), hk, ?_, ?_⟩
    · rw [mappages, one_page, page_of_va, mappagesLoop, bind_apply, hwalk]
      simp only [↓reduceIte, bind_apply, get_apply]
      rw [if_neg (by rw [hpte2, present_zero]; simp)]
      rfl
    · have h := mapped_of (l := l') (some f) hW hv hnp
        (hperm.trans (List.Perm.cons m hperm')) (by simp [hd])
      have he : ({ s.setFrame m (fun _ => 0#32) with
          freelist := l'
          pgdir := Function.update s.pgdir (pdx v) ((s.pgdir (pdx v)).or
            (Option.map (fun f => (⟨f, fun _ => 0#32⟩ : PageTable)) (some f))) } : Machine) = s2 := by
        rw [hs2, hs1, hd]
        rfl
      rwa [he] at h

theorem Mapped.supply (h : Mapped E s v t) (hS : Supply s N) (hv : v < N) : Supply t N where
  le := hS.le
  pages w hw hp := by
    by_cases hwv : w = v
    · rw [hwv]
      exact hv
    · rw [h.pte w (hw.trans (by decide)) hwv] at hp
      exact hS.pages w hw hp
  enough := by
    rw [h.frames]
    exact hS.enough

/-! ### Unmapping one page -/

/-- Page `v`, mapped in `s`, is not in `t`; its frame is free. -/
structure Unmapped (E : Env) (s : Machine) (v : ℕ) (t : Machine) : Prop where
  wf : WF E t
  present : present (t.pte v) = false
  pte : ∀ w < 2 ^ 20, w ≠ v → t.pte w = s.pte w
  content : ∀ w < UVPN, w ≠ v → t.content w = s.content w
  sz : t.sz = s.sz
  frames : t.frames = s.frames

theorem unmap (hW : WF E s) (hv : v < UVPN) (hp : present (s.pte v) = true) :
    ∃ s1, kfree E (PTE_ADDR (s.pte v)) s = .ok ((), s1) ∧ Unmapped E s v (s1.setPte v 0#32) := by
  obtain ⟨h1, h2, h3⟩ := hW.own v hv hp
  set f := PTE_ADDR (s.pte v) with hf
  have hv20 : v < 2 ^ 20 := hv.trans (by decide)
  set s1 : Machine := { s.setFrame f (E.fill f (s.mem f)) with freelist := f :: s.freelist } with hs1
  have hkfree : kfree E f s = .ok ((), s1) := by
    rw [kfree, if_neg (by omega), modify_apply]
  set t := s1.setPte v 0#32 with ht
  have hself : t.pte v = 0#32 := Machine.pte_setPte_self (Machine.table_of_present hp)
  have hpv : present (t.pte v) = false := by rw [hself, present_zero]
  have hother : ∀ w < 2 ^ 20, w ≠ v → t.pte w = s.pte w := fun w hw hne =>
    Machine.pte_setPte_of_ne hv20 hw hne
  have hown : ∀ w < UVPN, present (t.pte w) = true →
      w ≠ v ∧ present (s.pte w) = true ∧ t.pte w = s.pte w ∧ PTE_ADDR (s.pte w) ≠ f := by
    intro w hw hpw
    have hwv : w ≠ v := by
      rintro rfl
      rw [hpv] at hpw
      cases hpw
    have he := hother w (hw.trans (by decide)) hwv
    rw [he] at hpw
    exact ⟨hwv, hpw, he, fun e => hwv (hW.inj w hw v hv hpw hp e)⟩
  refine ⟨s1, hkfree, ⟨List.nodup_cons.2 ⟨h3, hW.nodup⟩, ?_, ?_, ?_⟩, hpv, hother, ?_, rfl, ?_⟩
  · intro x hx
    rcases List.mem_cons.1 hx with rfl | hx
    · exact ⟨h1, h2⟩
    · exact hW.range x hx
  · intro w hw hpw
    obtain ⟨-, hps, he, hne⟩ := hown w hw hpw
    obtain ⟨ha, hb, hc⟩ := hW.own w hw hps
    rw [he]
    refine ⟨ha, hb, fun hm => ?_⟩
    rcases List.mem_cons.1 hm with hm | hm
    · exact hne hm
    · exact hc hm
  · intro a ha b hb hpa hpb hab
    obtain ⟨-, hpa', hea, -⟩ := hown a ha hpa
    obtain ⟨-, hpb', heb, -⟩ := hown b hb hpb
    rw [hea, heb] at hab
    exact hW.inj a ha b hb hpa' hpb' hab
  · intro w hw hwv
    have he := hother w (hw.trans (by decide)) hwv
    cases hpw : present (s.pte w) with
    | false => rw [Machine.content_not_present hpw, Machine.content_not_present (by rw [he, hpw])]
    | true =>
      have hpt : present (t.pte w) = true := by rw [he, hpw]
      rw [Machine.content_present hpt, Machine.content_present hpw, he]
      exact Function.update_of_ne (hown w hw hpt).2.2.2 ..
  · have hpages : s.pages = insert v t.pages := by
      ext w
      rw [Finset.mem_insert, Machine.mem_pages, Machine.mem_pages]
      by_cases hwv : w = v
      · subst hwv
        simp [hv, hp]
      · simp only [hwv, false_or]
        refine and_congr_right fun hwu => ?_
        rw [hother w (hwu.trans (by decide)) hwv]
    have hnot : v ∉ t.pages := fun h => by
      rw [(Machine.mem_pages.1 h).2] at hpv
      cases hpv
    have htables : t.tables = s.tables := Machine.tables_setPte s1 v 0#32
    have hcard : s.pages.card = t.pages.card + 1 := by
      rw [hpages, Finset.card_insert_of_notMem hnot]
    change s.freelist.length + 1 + t.pages.card + t.tables.card = _
    rw [htables, Machine.frames, hcard]
    omega

/-! ### Shrinking -/

/-- The pages from `lo` up to `hi` are not mapped any more. -/
structure Dealloced (E : Env) (s : Machine) (lo hi : ℕ) (t : Machine) : Prop where
  wf : WF E t
  inside : ∀ w, lo ≤ w → w < hi → present (t.pte w) = false
  pte : ∀ w < 2 ^ 20, ¬ (lo ≤ w ∧ w < hi) → t.pte w = s.pte w
  content : ∀ w < UVPN, ¬ (lo ≤ w ∧ w < hi) → t.content w = s.content w
  sz : t.sz = s.sz
  frames : t.frames = s.frames

namespace Dealloced

theorem refl (hW : WF E s) (h : ∀ w, lo ≤ w → w < hi → present (s.pte w) = false) :
    Dealloced E s lo hi s :=
  ⟨hW, h, fun _ _ _ => rfl, fun _ _ _ => rfl, rfl, rfl⟩

theorem trans (h1 : lo ≤ mid) (h2 : mid ≤ hi) (hu : hi ≤ UVPN) (h : Dealloced E s lo mid t)
    (h' : Dealloced E t mid hi u) : Dealloced E s lo hi u where
  wf := h'.wf
  inside w hlo hhi := by
    by_cases hm : mid ≤ w
    · exact h'.inside w hm hhi
    · rw [h'.pte w (hhi.trans (hu.trans_lt (by decide))) (by omega)]
      exact h.inside w hlo (by omega)
  pte w hw hne := by rw [h'.pte w hw (by omega), h.pte w hw (by omega)]
  content w hw hne := by rw [h'.content w hw (by omega), h.content w hw (by omega)]
  sz := h'.sz.trans h.sz
  frames := h'.frames.trans h.frames

end Dealloced

theorem Unmapped.dealloced (h : Unmapped E s v t) : Dealloced E s v (v + 1) t where
  wf := h.wf
  inside w hlo hhi := by
    obtain rfl : w = v := by omega
    exact h.present
  pte w hw hne := h.pte w hw (by omega)
  content w hw hne := h.content w hw (by omega)
  sz := h.sz
  frames := h.frames

theorem walkpgdir_false (v : ℕ) :
    walkpgdir E (v * PGSIZE) false s = .ok ((s.pgdir (pdx v)).isSome, s) := by
  rw [walkpgdir, bind_apply, get_apply]
  simp only [page_of_va]
  cases s.pgdir (pdx v) <;> rfl

theorem deallocuvmLoop_spec (hu : hi ≤ UVPN) (fuel v : ℕ) (hW : WF E s) (hle : hi ≤ fuel + v) :
    ∃ t, deallocuvmLoop E hi fuel v s = .ok ((), t) ∧ Dealloced E s v hi t := by
  induction fuel generalizing v s with
  | zero => exact ⟨s, rfl, .refl hW fun w _ _ => by omega⟩
  | succ fuel ih =>
    rw [deallocuvmLoop]
    split_ifs with hv
    swap
    · exact ⟨s, rfl, .refl hW fun w _ _ => by omega⟩
    rw [bind_apply, walkpgdir_false]
    cases hd : (s.pgdir (pdx v)).isSome with
    | false =>
      -- without a page table the whole region is skipped
      have hnext := le_nextTable v
      obtain ⟨t, ht, h⟩ := ih (nextTable v) hW (by omega)
      refine ⟨t, ht, ?_⟩
      have hskip : Dealloced E s v (min (nextTable v) hi) s := by
        refine .refl hW fun w hw hw' => ?_
        rw [Machine.pte_of_none, present_zero]
        rw [pdx_of_lt_nextTable hw (by omega)]
        simpa using hd
      rcases Nat.le_total (nextTable v) hi with hn | hn
      · rw [min_eq_left hn] at hskip
        exact hskip.trans (by omega) hn hu h
      · rw [min_eq_right hn] at hskip
        exact ⟨h.wf, fun w hw hw' => by
            rw [h.pte w (hw'.trans (hu.trans_lt (by decide))) (by omega)]
            exact hskip.inside w hw hw',
          fun w hw _ => h.pte w hw (by omega), fun w hw _ => h.content w hw (by omega), h.sz, h.frames⟩
    | true =>
      simp only [↓reduceIte, bind_apply, get_apply]
      cases hp : present (s.pte v) with
      | true =>
        obtain ⟨s1, hk, hU⟩ := unmap hW (by omega) hp
        obtain ⟨h1, -, -⟩ := hW.own v (by omega) hp
        have hpos := E.kend_pos
        obtain ⟨t, ht, h⟩ := ih (v + 1) hU.wf (by omega)
        refine ⟨t, ?_, hU.dealloced.trans (by omega) (by omega) hu h⟩
        simp only [↓reduceIte]
        rw [if_neg (by omega), bind_apply, hk]
        simp only [bind_apply, modify_apply]
        exact ht
      | false =>
        obtain ⟨t, ht, h⟩ := ih (v + 1) hW (by omega)
        have hone : Dealloced E s v (v + 1) s := .refl hW fun w hw hw' => by
          obtain rfl : w = v := by omega
          exact hp
        exact ⟨t, by simpa using ht, hone.trans (by omega) (by omega) hu h⟩

theorem deallocuvm_spec {oldsz newsz : ℕ} (hW : WF E s) (h : newsz < oldsz) (hu : oldsz ≤ KERNBASE) :
    ∃ t, deallocuvm E oldsz newsz s = .ok (newsz, t) ∧
      Dealloced E s (npages newsz) (npages oldsz) t := by
  obtain ⟨t, ht, hD⟩ := deallocuvmLoop_spec (npages_le hu) (npages oldsz - npages newsz)
    (npages newsz) hW (by omega)
  refine ⟨t, ?_, hD⟩
  rw [deallocuvm, if_neg (by omega), bind_apply, ht]
  rfl

/-! ### Growing -/

/-- The pages from `lo` up to `hi` have been mapped and hold zeros. -/
structure Alloced (E : Env) (s : Machine) (lo hi : ℕ) (t : Machine) : Prop where
  wf : WF E t
  inside : ∀ w, lo ≤ w → w < hi →
    present (t.pte w) = true ∧ user (t.pte w) = true ∧ writable (t.pte w) = true
  pte : ∀ w < 2 ^ 20, ¬ (lo ≤ w ∧ w < hi) → t.pte w = s.pte w
  content : ∀ w < UVPN, t.content w = s.content w
  sz : t.sz = s.sz
  frames : t.frames = s.frames

theorem allocuvmLoop_spec (newsz oldsz n v : ℕ) (hW : WF E s) (hS : Supply s N)
    (hN : v + n ≤ N) (hnp : ∀ w, v ≤ w → w < v + n → present (s.pte w) = false) :
    ∃ t, allocuvmLoop E newsz oldsz n v s = .ok (newsz, t) ∧ Alloced E s v (v + n) t := by
  induction n generalizing v s with
  | zero =>
    exact ⟨s, rfl, hW, fun w _ _ => by omega, fun _ _ _ => rfl, fun _ _ => rfl, rfl, rfl⟩
  | succ n ih =>
    have hle := hS.le
    have hvN : v < N := by omega
    have h0 := hnp v le_rfl (by omega)
    obtain ⟨m, l, t1, hk, hmap, h1⟩ := mapFresh hW (by omega) h0 (hS.free hvN h0)
    have h20 : ∀ w, w < v + (n + 1) → w < 2 ^ 20 := fun w hw =>
      (show w < UVPN by omega).trans (by decide)
    obtain ⟨t, ht, h⟩ := ih (v + 1) h1.wf (h1.supply hS hvN) (by omega) fun w hw hw' => by
      rw [h1.pte w (h20 w (by omega)) (by omega)]
      exact hnp w (by omega) (by omega)
    refine ⟨t, ?_, h.wf, fun w hw hw' => ?_, fun w hw hne => ?_, fun w hw => ?_, ?_, ?_⟩
    · rw [allocuvmLoop, bind_apply, hk]
      simp only [memset, bind_apply, modify_apply, hmap, ↓reduceIte]
      exact ht
    · by_cases hwv : w = v
      · rw [hwv, h.pte v (h20 v (by omega)) (by omega)]
        exact ⟨h1.present, h1.user, h1.writable⟩
      · exact h.inside w (by omega) (by omega)
    · rw [h.pte w hw (by omega), h1.pte w hw (by omega)]
    · rw [h.content w hw, h1.content w hw]
    · rw [h.sz, h1.sz]
    · rw [h.frames, h1.frames]

theorem allocuvm_spec {newsz oldsz : ℕ} (hW : WF E s) (hS : Supply s N) (hle : oldsz ≤ newsz)
    (hk : newsz < KERNBASE) (hN : npages newsz ≤ N)
    (hnp : ∀ w, npages oldsz ≤ w → w < npages newsz → present (s.pte w) = false) :
    ∃ t, allocuvm E oldsz newsz s = .ok (newsz, t) ∧
      Alloced E s (npages oldsz) (npages newsz) t := by
  have hmono := npages_mono hle
  have hsum : npages oldsz + (npages newsz - npages oldsz) = npages newsz := by omega
  obtain ⟨t, ht, h⟩ := allocuvmLoop_spec newsz oldsz
    (npages newsz - npages oldsz) (npages oldsz) hW hS (by omega) (by rwa [hsum])
  rw [hsum] at h
  refine ⟨t, ?_, h⟩
  rw [allocuvm, if_neg (by omega), if_neg (by omega), ht]

/-! ### A page fault -/

theorem trapPgflt_spec {va : ℕ} (hW : WF E s) (hS : Supply s N) (hv : va / PGSIZE < N)
    (hnp : present (s.pte (va / PGSIZE)) = false) :
    ∃ t, trapPgflt E va s = .ok ((), t) ∧ Mapped E s (va / PGSIZE) t := by
  have hle := hS.le
  obtain ⟨m, l, t, hk, hmap, h⟩ := mapFresh hW (by omega) hnp (hS.free hv hnp)
  refine ⟨t, ?_, h⟩
  rw [trapPgflt, bind_apply, hk]
  simp only [memset, bind_apply, modify_apply, frameOf, Option.getD_some, PGROUNDDOWN]
  rw [hmap]
  rfl

end Xv6Lab.Lazy
