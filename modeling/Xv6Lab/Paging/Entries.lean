import Xv6Lab.Paging.Drain

/-! What becomes of single page-table entries while an address space is copied.
The entry of a page that has been touched stays, or becomes the one of a page that
has been swapped out or brought back in; an entry of the child has the flags of
the parent's entry at the time the page was copied. -/

namespace Xv6Lab.Paging

open Lib

variable {E : Env} {g g' : Ghost} {s t : Kernel} {c d v m sz pid : ℕ} {w w' w'' : Word}

/-- The entry `w` has stayed, or its page has been swapped out, and maybe in, since. -/
def Drifts (w w' : Word) : Prop :=
  w' = w ∨ (present w = true ∨ swapped w = true) ∧
    (present w' = false ∧ swapped w' = true ∨
      present w' = true ∧ user w' = true ∧ writable w' = true)

namespace Drifts

@[refl] theorem refl (w : Word) : Drifts w w := .inl rfl

theorem trans (h : Drifts w w') (h' : Drifts w' w'') : Drifts w w'' := by
  unfold Drifts at h h' ⊢
  rcases h with rfl | ⟨hm, h⟩
  · exact h'
  · right
    rcases h' with rfl | ⟨-, h'⟩
    · exact ⟨hm, h⟩
    · exact ⟨hm, h'⟩

/-- A page that was never touched stays so. -/
theorem zero (h : Drifts 0#32 w) : w = 0#32 := by
  rcases h with h | ⟨h | h, -⟩
  · exact h
  · rw [present_zero] at h
    cases h
  · rw [swapped_zero] at h
    cases h

/-- A page that comes back gets both rights. -/
theorem of_swapped (h : Drifts w w') (hs : swapped w = true) (hn : swapped w' = false) :
    user w' = true ∧ writable w' = true := by
  rcases h with rfl | ⟨-, h | h⟩
  · rw [hs] at hn
    cases hn
  · rw [h.2] at hn
    cases hn
  · exact h.2

theorem of_not_present (h : Drifts w w') (hw : present w = false) (hw' : present w' = true) :
    user w' = true ∧ writable w' = true := by
  rcases h with rfl | ⟨-, h | h⟩
  · rw [hw] at hw'
    cases hw'
  · rw [h.1] at hw'
    cases hw'
  · exact h.2

end Drifts

theorem Supplied.drifts (h : Supplied E g s d m g' t) (hv : v < 2 ^ 20) :
    Drifts (s.pte d v) (t.pte d v) := by
  rcases h.entry v hv with e | ⟨-, hvic, -, b, -, e⟩
  · exact .inl e
  · right
    rw [e, present_swappedPte, swapped_swappedPte]
    exact ⟨.inl hvic.present, .inl ⟨rfl, rfl⟩⟩

/-! ### One round -/

theorem copyBring_drifts (hst : E.strict = true) (hB : Base E g s) (hS : Space g s d Set.univ)
    (hv : v < UVPN) (pid : ℕ) :
    wp (copyBring E d pid v) (fun _ t => ∀ x < UVPN, Drifts (s.pte d x) (t.pte d x)) s := by
  simp only [copyBring, wp_bind, wp_get]
  by_cases ht : present (s.mem d (pdx v)) = true
  swap
  · rw [Kernel.lookup_page, if_neg ht, wp_throw]
    trivial
  simp only [Kernel.lookup_of_present ht, wp_bind, readPte, wp_get, wp_pure, Kernel.mem_ptr ht]
  split_ifs with hs
  swap
  · rw [wp_pure]
    exact fun x _ => .refl _
  simp only [wp_bind]
  refine wp_mono (kallocOrSwap_spec hB hS (.inl hst) pid) ?_
  rintro m t1 ⟨g1, h1⟩
  have hpte1 : t1.pte d v = s.pte d v := by
    rcases h1.entry v (hv.trans (by decide)) with e | ⟨-, hvic, -⟩
    · exact e
    · rw [(hS.entry v hv trivial).only hvic.present] at hs
      cases hs
  have hptr1 : t1.ptr d v = s.ptr d v := by rw [Kernel.ptr, Kernel.ptr, h1.dir]
  obtain ⟨g2, t2, happ, h2⟩ := swapIn_apply h1.base h1.space hv (by rwa [hpte1])
    (by rw [h1.frame, Function.update_self])
  rw [← hptr1]
  refine wp_of_eq happ ?_
  rw [wp_pure]
  obtain ⟨-, hpv, hpo⟩ := h2.store.entries h1.space.toTree
  intro x hx
  by_cases hxv : x = v
  · subst hxv
    right
    rw [hpv, present_userPte, user_userPte, writable_userPte]
    exact ⟨.inr hs, .inr ⟨rfl, rfl, rfl⟩⟩
  · rw [hpo x (hx.trans (by decide)) hxv]
    exact h1.drifts (hx.trans (by decide))

theorem copyOut_entries (hst : E.strict = true) (hB : Base E g s) (hS : Space g s d Set.univ)
    (hC : Space g s c Set.univ) (hcd : c ≠ d) (hv : v < UVPN)
    (ht : present (s.mem d (pdx v)) = true) (pid : ℕ) :
    wp (copyOut E d c pid v (s.ptr d v)) (fun r t =>
      (∀ x < UVPN, Drifts (s.pte d x) (t.pte d x)) ∧
      (r = true → (∃ m, t.pte c v = mapPte m (PTE_FLAGS (s.pte d v))) ∧
        ∀ x < UVPN, x ≠ v → t.pte c x = s.pte c x)) s := by
  simp only [copyOut, wp_bind, readPte, wp_get, wp_pure, Kernel.mem_ptr ht]
  refine wp_mono (kallocOrSwap_spec hB hS (.inl hst) pid) ?_
  rintro m t1 ⟨g1, h1⟩
  have hm1 : g1.frame m = .loose := by rw [h1.frame, Function.update_self]
  obtain ⟨hC1, -⟩ := hC.keeps h1.keeps (by simpa using hcd)
  obtain ⟨-, -, hpte1⟩ := hC.toTree.keeps h1.keeps (by simpa using hcd)
  simp only [setFrame, wp_modify]
  set t2 := t1.setFrame m (t1.mem (PTE_ADDR (s.pte d v))) with ht2
  have hk2 : Keeps ∅ g1 t1 g1 t2 := .setFrame hm1 _
  have hB2 : Base E g1 t2 := h1.base.congr_mem rfl rfl rfl
  obtain ⟨hS2, -, hpted2⟩ := h1.space.toTree.keeps hk2 (Set.notMem_empty d)
  obtain ⟨hC2, -, hpte2⟩ := hC1.toTree.keeps hk2 (Set.notMem_empty c)
  have hdrift : ∀ x < UVPN, Drifts (s.pte d x) (t2.pte d x) := fun x hx => by
    rw [hpted2]
    exact h1.drifts (hx.trans (by decide))
  rcases mappages_page_cases hB2 hC2 (hv.trans (by decide)) hm1 (PTE_FLAGS (s.pte d v)) with
    ⟨-, -, happ⟩ | ⟨-, happ⟩ | ⟨g3, t3, happ, h3⟩
  · refine wp_of_eq happ ?_
    exact ⟨hdrift, by simp⟩
  · intro a u hu
    rw [happ] at hu
    cases hu
  · obtain ⟨-, -, hpted3⟩ := hS2.keeps h3.keeps (by simpa using hcd.symm)
    refine wp_of_eq happ ?_
    refine ⟨fun x hx => ?_, fun _ => ⟨⟨m, h3.self⟩, fun x hx hxv => ?_⟩⟩
    · rw [hpted3]
      exact hdrift x hx
    · rw [h3.pte x (hx.trans (by decide)) hxv, hpte2, hpte1]

/-! ### The loop -/

/-- Page `v` of the child `c` has the flags that the parent's entry, `w` at first, had
when it was copied. -/
def HasFlags (w : Word) (t : Kernel) (c v : ℕ) : Prop :=
  ∃ w' m, Drifts w w' ∧ swapped w' = false ∧ t.pte c v = mapPte m (PTE_FLAGS w')

theorem copyuvmLoop_entries (hst : E.strict = true) (hcd : c ≠ d) (pid n v : ℕ) (hB : Base E g s)
    (hS : Space g s d Set.univ) (hC : Space g s c Set.univ) (hv : v + n ≤ UVPN) :
    wp (copyuvmLoop E d c pid n v) (fun r t =>
      (∀ x < UVPN, Drifts (s.pte d x) (t.pte d x)) ∧
      (r = true → (∀ x, v ≤ x → x < v + n → HasFlags (s.pte d x) t c x) ∧
        ∀ x < v, t.pte c x = s.pte c x)) s := by
  induction n generalizing v g s with
  | zero =>
    rw [copyuvmLoop, wp_pure]
    exact ⟨fun x _ => .refl _, fun _ => ⟨fun x _ _ => by omega, fun _ _ => rfl⟩⟩
  | succ n ih =>
    have hvu : v < UVPN := by omega
    simp only [copyuvmLoop, wp_bind]
    refine wp_mono (wp_and (copyBring_spec hst hB hS hvu pid) (copyBring_drifts hst hB hS hvu pid)) ?_
    rintro p t1 ⟨⟨g1, h1, rfl, ht1, hns1, hm1⟩, hd1⟩
    have hc1 := h1.copying hC hcd hm1
    obtain ⟨-, -, hptec1⟩ := hC.toTree.keeps h1.keeps (by simpa using hcd)
    refine wp_mono (wp_and
      (copyOut_spec hst hc1.base hc1.parent hc1.child hcd hvu ht1 hns1 pid)
      (copyOut_entries hst hc1.base hc1.parent hc1.child hcd hvu ht1 pid)) ?_
    rintro r t2 ⟨⟨g2, h2, -⟩, hd2, hr2⟩
    have hd : ∀ x < UVPN, Drifts (s.pte d x) (t2.pte d x) := fun x hx => (hd1 x hx).trans (hd2 x hx)
    split_ifs with hr
    · obtain ⟨⟨m, hm⟩, hother⟩ := hr2 hr
      refine wp_mono (ih (v + 1) h2.base h2.parent h2.child (by omega)) ?_
      rintro r' t3 ⟨hd3, hr3⟩
      refine ⟨fun x hx => (hd x hx).trans (hd3 x hx), fun hr' => ?_⟩
      obtain ⟨hnew, hold⟩ := hr3 hr'
      refine ⟨fun x hx1 hx2 => ?_, fun x hx => ?_⟩
      · rcases Nat.eq_or_lt_of_le hx1 with rfl | hlt
        · exact ⟨_, m, hd1 v hvu, hns1, by rw [hold v (by omega), hm]⟩
        · obtain ⟨w', m', hw, hns, he⟩ := hnew x hlt (by omega)
          exact ⟨w', m', (hd x (by omega)).trans hw, hns, he⟩
      · rw [hold x (by omega), hother x (by omega) (by omega), hptec1]
    · rw [wp_pure]
      exact ⟨hd, by simp⟩

/-- A returned child went through the whole loop. -/
theorem copyuvm_some (h : copyuvm E d sz pid s = .ok (some c, t)) :
    ∃ s1, setupkvm E s = .ok (some c, s1) ∧
      copyuvmLoop E d c pid (npages sz) 0 s1 = .ok (true, t) := by
  rw [copyuvm, bind_apply] at h
  cases hset : setupkvm E s with
  | error e => rw [hset] at h; cases h
  | ok r =>
  obtain ⟨r, s1⟩ := r
  rw [hset] at h
  cases r with
  | none =>
    simp only [pure_apply] at h
    cases h
  | some c1 =>
  simp only [bind_apply] at h
  cases hloop : copyuvmLoop E d c1 pid (npages sz) 0 s1 with
  | error e => rw [hloop] at h; cases h
  | ok r =>
  obtain ⟨b, t1⟩ := r
  rw [hloop] at h
  cases b with
  | false =>
    simp only [Bool.false_eq_true, ↓reduceIte, bind_apply] at h
    cases hfree : freevm E c1 t1 with
    | error e => rw [hfree] at h; cases h
    | ok r => rw [hfree] at h; simp only [pure_apply] at h; cases h
  | true =>
    simp only [↓reduceIte, pure_apply] at h
    cases h
    exact ⟨s1, rfl, hloop⟩

theorem copyuvm_entries (hst : E.strict = true) (hB : Base E g s) (hS : Space g s d Set.univ)
    (hsz : sz ≤ KERNBASE) (h : copyuvm E d sz pid s = .ok (some c, t)) :
    (∀ x < UVPN, Drifts (s.pte d x) (t.pte d x)) ∧
      ∀ x < npages sz, HasFlags (s.pte d x) t c x := by
  obtain ⟨s1, hset, hloop⟩ := copyuvm_some h
  obtain ⟨g1, hN⟩ := setupkvm_spec hB _ _ hset
  obtain ⟨hcd, hS1, hpte1, -⟩ := hN.copying hS
  have hu : 0 + npages sz ≤ UVPN := by
    rw [Nat.zero_add]
    exact npages_le hsz
  obtain ⟨hd, hf⟩ := copyuvmLoop_entries hst hcd pid _ _ hN.base hS1 hN.space hu _ _ hloop
  constructor
  · intro x hx
    rw [← hpte1]
    exact hd x hx
  · intro x hx
    rw [← hpte1]
    exact (hf rfl).1 x (Nat.zero_le x) (by omega)

end Xv6Lab.Paging
