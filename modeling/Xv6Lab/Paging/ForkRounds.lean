import Xv6Lab.Paging.ForkFrames

/-! The rounds of `copyuvm` by the frames they take: which pages of the parent reach the child as
they are, and up to which page the frames last. -/

namespace Xv6Lab.Paging

open Lib

variable {E : Env} {g g' g1 : Ghost} {s t x z : Kernel} {c d k m n u v w pid : ℕ}

/-! ### The loop in two parts -/

theorem copyuvmLoop_add (a b v : ℕ) (s : Kernel) :
    copyuvmLoop E d c pid (a + b) v s = match copyuvmLoop E d c pid a v s with
      | .ok (true, t) => copyuvmLoop E d c pid b (v + a) t
      | .ok (false, t) => .ok (false, t)
      | .error e => .error e := by
  induction a generalizing v s with
  | zero => rw [Nat.zero_add, copyuvmLoop, pure_apply, Nat.add_zero]
  | succ a ih =>
    rw [Nat.succ_add, copyuvmLoop, copyuvmLoop, bind_apply, bind_apply]
    cases copyBring E d pid v s with
    | error e => rfl
    | ok r =>
    simp only [bind_apply]
    cases copyOut E d c pid v r.1 r.2 with
    | error e => rfl
    | ok r' =>
    obtain ⟨b', t⟩ := r'
    cases b' with
    | false => rfl
    | true =>
      simp only [↓reduceIte]
      rw [ih, show v + 1 + a = v + (a + 1) by omega]

/-- A finished loop has finished its first rounds. -/
theorem copyuvmLoop_prefix (h : copyuvmLoop E d c pid n v s = .ok (true, t)) (hk : k ≤ n) :
    ∃ u, copyuvmLoop E d c pid k v s = .ok (true, u) := by
  rw [show n = k + (n - k) by omega, copyuvmLoop_add] at h
  cases hl : copyuvmLoop E d c pid k v s with
  | error e =>
    rw [hl] at h
    cases h
  | ok r =>
    obtain ⟨b, u⟩ := r
    cases b with
    | true => exact ⟨u, rfl⟩
    | false =>
      rw [hl] at h
      cases h

/-- The last round of a loop. -/
theorem copyuvmLoop_last (h : copyuvmLoop E d c pid (v + 1) 0 s = .ok (true, z)) :
    ∃ x p y, copyuvmLoop E d c pid v 0 s = .ok (true, x) ∧ copyBring E d pid v x = .ok (p, y) ∧
      copyOut E d c pid v p y = .ok (true, z) := by
  obtain ⟨x, hx⟩ := copyuvmLoop_prefix h (Nat.le_succ v)
  rw [copyuvmLoop_add, hx] at h
  simp only at h
  rw [Nat.zero_add, copyuvmLoop, bind_apply] at h
  cases hbr : copyBring E d pid v x with
  | error e =>
    rw [hbr] at h
    cases h
  | ok r =>
  rw [hbr] at h
  simp only [bind_apply] at h
  cases hout : copyOut E d c pid v r.1 r.2 with
  | error e =>
    rw [hout] at h
    cases h
  | ok r' =>
  obtain ⟨b, z'⟩ := r'
  rw [hout] at h
  cases b with
  | false => cases h
  | true =>
    cases h
    exact ⟨x, r.1, r.2, hx, hbr, hout⟩

/-! ### The two halves of a round -/

/-- Page `v` of the parent has come back. -/
structure Brought (s : Kernel) (d c v : ℕ) (x : Kernel) : Prop where
  reserve : ∀ k ≤ v, x.reserve d k = s.reserve d k - s.owed d v
  later : ∀ k, s.owed d v ≤ s.reserve d k → ∀ w < UVPN, k ≤ w → w ≠ v → x.pte d w = s.pte d w
  swapped : ∀ w < UVPN, w ≠ v → Paging.swapped (s.pte d w) = true → Paging.swapped (x.pte d w) = true
  child : x.mem c = s.mem c
  childPte : ∀ w, x.pte c w = s.pte c w
  childContent : ∀ w < UVPN, x.content c w = s.content c w

theorem copyBring_brought (hst : E.strict = true) (hB : Base E g s) (hS : Space g s d Set.univ)
    (hC : Space g s c Set.univ) (hcd : c ≠ d) (hv : v < UVPN) (pid : ℕ) :
    wp (copyBring E d pid v) (fun _ x => Brought s d c v x) s := by
  intro p x hx
  obtain ⟨g', hev, -⟩ := copyBring_spec hst hB hS hv pid _ _ hx
  obtain ⟨-, hmem, hpte⟩ := hC.toTree.keeps hev.keeps (by simpa using hcd)
  obtain ⟨-, hcont⟩ := hC.keeps hev.keeps (by simpa using hcd)
  have hlt : ∀ w < UVPN, w < 2 ^ 20 := fun w hw => hw.trans (by decide)
  obtain ⟨-, -, ⟨hs, rfl⟩ | ⟨hs, m, g1, t1, g2, h1, hpte1, h2⟩⟩ :=
    copyBring_cases hst hB hS hv pid _ _ hx
  · have howed : x.owed d v = 0 := if_neg (by rw [hs]; exact Bool.false_ne_true)
    exact ⟨fun k _ => by rw [howed, Nat.sub_zero], fun _ _ _ _ _ _ => rfl, fun _ _ _ h => h, rfl,
      fun _ => rfl, fun _ _ => rfl⟩
  · have howed : s.owed d v = 1 := if_pos hs
    obtain ⟨-, -, hpo⟩ := h2.store.entries h1.space.toTree
    refine ⟨fun k hk => ?_, fun k hr w hw hkw hne => ?_, fun w hw hne hsw => ?_, hmem, hpte,
      fun w hw => hcont w hw trivial⟩
    · have hsame : x.reserve d k = t1.reserve d k := by
        refine reserve_congr (congrArg List.length h2.freelist) fun w hw => ?_
        rw [hpo w (hlt w (by omega)) (by omega)]
      rw [hsame, h1.reserve (by omega), howed]
    · rw [howed] at hr
      rw [hpo w (hlt w hw) hne, h1.later hr w (hlt w hw) hkw]
    · rw [hpo w (hlt w hw) hne]
      exact h1.swapped (hlt w hw) hsw

/-- A frame has been found for the copy of page `v`, and for its page table. -/
structure CopiedOut (E : Env) (s : Kernel) (d c v : ℕ) (z : Kernel) : Prop where
  reserve : ∀ k ≤ UVPN, z.reserve d k + s.lacks c v = s.reserve d k - 1
  later : ∀ k, 0 < s.reserve d k → ∀ w < UVPN, k ≤ w → z.pte d w = s.pte d w
  swapped : ∀ w < UVPN, Paging.swapped (s.pte d w) = true → Paging.swapped (z.pte d w) = true
  tables : ∀ i, Paging.present (z.mem c i) = true ↔
    Paging.present (s.mem c i) = true ∨ i = pdx v
  present : Paging.present (z.pte c v) = true
  others : ∀ w < UVPN, w ≠ v →
    z.content c w = s.content c w ∧ Paging.present (z.pte c w) = Paging.present (s.pte c w)
  copies : Paging.present (s.pte d v) = true → 0 < s.reserve d v ∨ v = 0 →
    z.content c v = s.content d v
  spoils : Paging.present (s.pte d v) = true → 1 ≤ v → s.reserve d v = 0 →
    (∃ f, z.content c v = E.fill f (s.content d v)) ∧ Paging.present (z.pte d v) = false

/-- The second half fails only for want of a frame for the page table. -/
theorem copyOut_rounds (hst : E.strict = true) (hB : Base E g s) (hS : Space g s d Set.univ)
    (hC : Space g s c Set.univ) (hcd : c ≠ d) (hv : v < UVPN)
    (ht : present (s.mem d (pdx v)) = true) (hns : swapped (s.pte d v) = false) (pid : ℕ) :
    wp (copyOut E d c pid v (s.ptr d v)) (fun r z =>
      (r = true → CopiedOut E s d c v z) ∧
      (r = false → s.freelist.length ≤ 1 ∧ s.lacks c v = 1)) s := by
  intro r z hz
  obtain ⟨g', -, hhas⟩ := copyOut_spec hst hB hS hC hcd hv ht hns pid _ _ hz
  have hlt : ∀ w < UVPN, w < 2 ^ 20 := fun w hw => hw.trans (by decide)
  obtain ⟨m, g1, t1, h1, ⟨⟨rfl, hl, hab⟩, rfl⟩ | ⟨rfl, g3, h3⟩⟩ :=
    copyOut_cases hst hB hS hC hcd hv ht pid _ _ hz
  · refine ⟨fun h => (by cases h), fun _ => ⟨?_, if_neg (by rw [hab]; exact Bool.false_ne_true)⟩⟩
    rcases h1.source with ⟨hlen, -⟩ | ⟨hs, -⟩
    · rw [hlen, hl, List.length_nil]
    · rw [hs, List.length_nil]
      exact Nat.zero_le 1
  · refine ⟨fun _ => ?_, fun h => (by cases h)⟩
    have hm1 : g1.frame m = .loose := by rw [h1.frame, Function.update_self]
    set t2 := t1.setFrame m (t1.mem (PTE_ADDR (s.pte d v))) with ht2
    have hk2 : Keeps ∅ g1 t1 g1 t2 := .setFrame hm1 _
    obtain ⟨hS2, -⟩ := h1.space.keeps hk2 (Set.notMem_empty d)
    obtain ⟨-, -, hpted2⟩ := h1.space.toTree.keeps hk2 (Set.notMem_empty d)
    obtain ⟨-, -, hpted3⟩ := hS2.toTree.keeps h3.keeps (by simpa using hcd.symm)
    obtain ⟨hC1, -⟩ := hC.keeps h1.keeps (by simpa using hcd)
    obtain ⟨-, hmem1, -⟩ := hC.toTree.keeps h1.keeps (by simpa using hcd)
    obtain ⟨-, hmem2, -⟩ := hC1.toTree.keeps hk2 (Set.notMem_empty c)
    have hpte : ∀ w, z.pte d w = t1.pte d w := fun w => by rw [hpted3, hpted2]
    have hother : ∀ i ≠ pdx v, z.mem c i = s.mem c i := fun i hi => by
      rw [h3.other i hi, hmem2, hmem1]
    have hlen : z.freelist.length + s.lacks c v = t1.freelist.length := by
      have hmeas := h3.measure
      have hlen2 : t2.freelist.length = t1.freelist.length := rfl
      have hmem : t2.mem c = s.mem c := by rw [hmem2, hmem1]
      unfold Kernel.lacks
      split_ifs with hpt
      · have htab : z.tables c = t2.tables c := by
          refine congrArg Finset.card (Finset.filter_congr fun i _ => ?_)
          by_cases hi : i = pdx v
          · rw [hi, h3.table, hmem, hpt]
          · rw [hother i hi, hmem]
        omega
      · have htab : z.tables c = t2.tables c + 1 := by
          refine tables_update (i := pdx v) (w := z.mem c (pdx v)) ?_ h3.table ?_
          · rw [hmem]
            simpa using hpt
          · funext i
            by_cases hi : i = pdx v
            · rw [hi, Function.update_self]
            · rw [Function.update_of_ne hi, h3.other i hi]
        omega
    obtain ⟨pg, hchild, hpg⟩ := hhas rfl
    refine ⟨fun k hk => ?_, fun k hr w hw hkw => ?_, fun w hw hs => ?_, fun i => ?_,
      hchild.present, hchild.other, fun hp hr => ?_, fun hp h1v hr => ?_⟩
    · rw [← h1.reserve hk]
      unfold Kernel.reserve
      rw [count_congr fun w hw => by rw [hpte]]
      omega
    · rw [hpte, h1.later hr w (hlt w hw) hkw]
    · rw [hpte]
      exact h1.swapped (hlt w hw) hs
    · by_cases hi : i = pdx v
      · rw [hi]
        exact iff_of_true h3.table (.inr rfl)
      · rw [hother i hi, or_iff_left hi]
    · have hself : ¬ (s.freelist = [] ∧ s.selectAVictim d = some (s.ptr d v)) := by
        rw [selectAVictim_eq_iff hS.toTree (hlt v hv) ht, self_victim_iff hv hp]
        omega
      rw [hchild.self, hpg hp, copied, if_neg hself, Kernel.content_present hp]
    · have hboth := (self_victim_iff hv hp).2 ⟨h1v, hr⟩
      have hsel := (selectAVictim_eq_iff hS.toTree (hlt v hv) ht).2 hboth.2
      constructor
      · refine ⟨PTE_ADDR (s.pte d v), ?_⟩
        rw [hchild.self, hpg hp, copied, if_pos ⟨hboth.1, hsel⟩, Kernel.content_present hp]
      · rw [hpte]
        rcases h1.source with ⟨hlen1, -⟩ | ⟨-, -, w, b, hw, hb, -⟩
        · rw [hboth.1] at hlen1
          cases hlen1
        · rw [hboth.2.unique hw, hb, present_swappedPte]

/-! ### The rounds before page `v` -/

/-- There is a frame for the copy of page `v` other than its own. -/
def Kernel.Affords (s : Kernel) (d v : ℕ) : Prop :=
  s.copyNeeds d v + s.owed d v < s.freelist.length + s.nmapped d v

theorem copyNeeds_mono (h : v ≤ w) : s.copyNeeds d v ≤ s.copyNeeds d w := by
  induction h with
  | refl => exact le_rfl
  | step _ ih =>
    rw [copyNeeds_succ]
    omega

/-- What suffices for a page suffices for those before it. -/
theorem Kernel.Affords.mono (h : s.Affords d w) (hvw : v ≤ w) : s.Affords d v := by
  induction hvw with
  | refl => exact h
  | step _ ih =>
    apply ih
    unfold Kernel.Affords at h ⊢
    rw [copyNeeds_succ, nmapped_succ] at h
    split_ifs at h <;> omega

/-- The pages of the parent `d` before page `v` have been copied to the child `c`, which had none. -/
structure Rounds (E : Env) (g : Ghost) (s : Kernel) (d c v : ℕ) (g' : Ghost) (x : Kernel) :
    Prop where
  copying : Copying E g s d c g' x
  tables : ∀ i : Fin 1024, i.val < 512 → (present (x.mem c i) = true ↔ ∃ y < v, pdx y = i)
  swapped : ∀ w < UVPN, v ≤ w → Paging.swapped (s.pte d w) = true →
    Paging.swapped (x.pte d w) = true
  upper : x.reserve d v ≤ s.freelist.length + s.nmapped d v - s.copyNeeds d v
  lower : ∀ u, v ≤ u → s.Affords d u →
    s.freelist.length + s.nmapped d v ≤ x.reserve d v + s.copyNeeds d v ∧
      ∀ w < UVPN, v ≤ w → x.pte d w = s.pte d w
  free : ∀ u, v ≤ u → s.copyNeeds d u ≤ s.freelist.length →
    x.freelist.length + s.copyNeeds d v = s.freelist.length ∧
      ∀ w < UVPN, v ≤ w → x.pte d w = s.pte d w
  fewer : x.freelist.length ≤ s.freelist.length - s.copyNeeds d v
  tabled : ∀ w < v, w % 1024 = 0 → s.copyNeeds d (w + 1) ≤ s.freelist.length
  pages : ∀ w < v, s.Mapped d w → (w = 0 ∨ s.Affords d w → CopiedTo s d c x w) ∧
    (1 ≤ w → ¬ s.Affords d w → ∃ f, x.content c w = E.fill f (s.content d w))

/-- The child gets a page table with each page whose number is a multiple of 1024. -/
theorem Rounds.lacks (h : Rounds E g s d c v g' x) (hv : v < UVPN) :
    x.lacks c v = if v % 1024 = 0 then 1 else 0 := by
  have hlow : (pdx v).val < 512 := (pdx_lt_iff (hv.trans (by decide))).2 hv
  have htab : present (x.mem c (pdx v)) = true ↔ v % 1024 ≠ 0 := by
    rw [h.tables _ hlow]
    have hpdx : ∀ y < UVPN, (pdx y).val = y / 1024 := fun y hy => by
      have : UVPN = 512 * 1024 := by decide
      simp only [pdx]
      omega
    constructor
    · rintro ⟨y, hy, he⟩ h0
      have := congrArg Fin.val he
      rw [hpdx y (hy.trans hv), hpdx v hv] at this
      omega
    · intro h0
      refine ⟨v - 1, by omega, Fin.ext ?_⟩
      rw [hpdx _ (by omega), hpdx v hv]
      omega
  unfold Kernel.lacks
  by_cases h0 : v % 1024 = 0
  · rw [if_pos h0, if_neg fun hp => (htab.1 hp) h0]
  · rw [if_neg h0, if_pos (htab.2 h0)]

theorem Rounds.start (hC : Copying E g s d c g s) (hlow : ∀ i : Fin 1024, i.val < 512 →
    present (s.mem c i) = false) : Rounds E g s d c 0 g s where
  copying := hC
  tables i hi := by
    rw [hlow i hi]
    exact iff_of_false Bool.false_ne_true fun ⟨_, hy, _⟩ => Nat.not_lt_zero _ hy
  swapped _ _ _ h := h
  upper := le_rfl
  lower _ _ _ := ⟨le_rfl, fun _ _ _ => rfl⟩
  free _ _ _ := ⟨rfl, fun _ _ _ => rfl⟩
  fewer := le_rfl
  tabled w hw := absurd hw (Nat.not_lt_zero w)
  pages w hw := absurd hw (Nat.not_lt_zero w)

/-- The numbers of a round: page `v` of `x` is brought back in `y` and copied in `z`. -/
structure Round (s x : Kernel) (d c v : ℕ) (y z : Kernel) : Prop where
  owed : s.owed d v ≤ x.owed d v
  brought : ∀ k ≤ v, y.reserve d k = x.reserve d k - x.owed d v
  reserve : ∀ k ≤ v, z.reserve d k + (if v % 1024 = 0 then 1 else 0) =
    x.reserve d k - x.owed d v - 1
  later : ∀ k ≤ v, x.owed d v < x.reserve d k → ∀ w < UVPN, k ≤ w → w ≠ v → z.pte d w = x.pte d w
  present : Paging.present (z.pte d v) = true ∧ 1 ≤ v →
    s.Mapped d v ∧ x.owed d v < x.reserve d v
  stays : s.Mapped d v → x.owed d v < x.reserve d v → Paging.present (z.pte d v) = true

theorem Rounds.round (h : Rounds E g s d c v g' x) (hv : v < UVPN) {y : Kernel}
    (hy : Brought x d c v y) (hz : CopiedOut E y d c v z)
    (hmy : y.Mapped d v ↔ x.Mapped d v) (hmz : z.Mapped d v ↔ y.Mapped d v)
    (hns : Paging.swapped (y.pte d v) = false) : Round s x d c v y z := by
  have hlacks : y.lacks c v = if v % 1024 = 0 then 1 else 0 := by
    unfold Kernel.lacks
    rw [hy.child]
    exact h.lacks hv
  have hmapped : s.Mapped d v → Paging.present (y.pte d v) = true := fun hm => by
    have := hmy.2 ((h.copying.mapped v hv).2 hm)
    exact this.resolve_right (by rw [hns]; exact Bool.false_ne_true)
  refine ⟨?_, hy.reserve, fun k hk => ?_, fun k hk hr w hw hkw hne => ?_, fun hp => ?_,
    fun hm hr => ?_⟩
  · unfold Kernel.owed
    by_cases hs : Paging.swapped (s.pte d v) = true
    · rw [if_pos hs, if_pos (h.swapped v hv le_rfl hs)]
    · rw [if_neg hs]
      exact Nat.zero_le _
  · rw [← hlacks, ← hy.reserve k hk]
    exact hz.reserve k (by omega)
  · rw [hz.later k (by rw [hy.reserve k hk]; omega) w hw hkw]
    exact hy.later k hr.le w hw hkw hne
  · have hm : s.Mapped d v := (h.copying.mapped v hv).1 (hmy.1 (hmz.1 (.inl hp.1)))
    refine ⟨hm, ?_⟩
    by_contra hr
    have hgone := (hz.spoils (hmapped hm) hp.2 (by rw [hy.reserve v le_rfl]; omega)).2
    rw [hp.1] at hgone
    cases hgone
  · rw [hz.later v (by rw [hy.reserve v le_rfl]; omega) v hv le_rfl]
    exact hmapped hm

theorem Round.upper {y : Kernel} (h : Round s x d c v y z)
    (hup : x.reserve d v ≤ s.freelist.length + s.nmapped d v - s.copyNeeds d v) :
    z.reserve d (v + 1) ≤ s.freelist.length + s.nmapped d (v + 1) - s.copyNeeds d (v + 1) := by
  have howed := h.owed
  have hreserve := h.reserve v le_rfl
  rw [reserve_succ, nmapped_succ, copyNeeds_succ]
  by_cases hp : Paging.present (z.pte d v) = true ∧ 1 ≤ v
  · obtain ⟨hm, hr⟩ := h.present hp
    rw [if_pos hp.symm, if_pos ⟨hp.2, hm⟩]
    omega
  · rw [if_neg fun hc => hp hc.symm]
    omega

theorem Round.lower {y : Kernel} (h : Round s x d c v y z) (haff : s.Affords d v)
    (hlow : s.freelist.length + s.nmapped d v ≤ x.reserve d v + s.copyNeeds d v)
    (hpte : ∀ w < UVPN, v ≤ w → x.pte d w = s.pte d w) (hv : v < UVPN) :
    s.freelist.length + s.nmapped d (v + 1) ≤ z.reserve d (v + 1) + s.copyNeeds d (v + 1) ∧
      ∀ w < UVPN, v + 1 ≤ w → z.pte d w = s.pte d w := by
  have howed : x.owed d v = s.owed d v := by
    unfold Kernel.owed
    rw [hpte v hv le_rfl]
  have hreserve := h.reserve v le_rfl
  unfold Kernel.Affords at haff
  have hr : x.owed d v < x.reserve d v := by omega
  constructor
  · rw [reserve_succ, nmapped_succ, copyNeeds_succ]
    by_cases hm : 1 ≤ v ∧ s.Mapped d v
    · rw [if_pos hm, if_pos ⟨hm.1, h.stays hm.2 hr⟩]
      omega
    · rw [if_neg hm]
      omega
  · intro w hw hvw
    rw [h.later v le_rfl hr w hw (by omega) (by omega), hpte w hw (by omega)]

theorem Round.free {y : Kernel} (h : Round s x d c v y z)
    (hneeds : s.copyNeeds d (v + 1) ≤ s.freelist.length)
    (hfree : x.freelist.length + s.copyNeeds d v = s.freelist.length)
    (hpte : ∀ w < UVPN, v ≤ w → x.pte d w = s.pte d w) (hv : v < UVPN) :
    z.freelist.length + s.copyNeeds d (v + 1) = s.freelist.length ∧
      ∀ w < UVPN, v + 1 ≤ w → z.pte d w = s.pte d w := by
  have howed : x.owed d v = s.owed d v := by
    unfold Kernel.owed
    rw [hpte v hv le_rfl]
  have hreserve := h.reserve 0 (Nat.zero_le v)
  rw [reserve_zero, reserve_zero] at hreserve
  rw [copyNeeds_succ] at hneeds ⊢
  refine ⟨by omega, fun w hw hvw => ?_⟩
  have hr : x.owed d v < x.reserve d 0 := by
    rw [reserve_zero]
    omega
  rw [h.later 0 (Nat.zero_le v) hr w hw (Nat.zero_le w) (by omega), hpte w hw (by omega)]

/-- A round with a new page table needs a frame for it. -/
theorem Round.fewer {y : Kernel} (h : Round s x d c v y z)
    (hf : x.freelist.length ≤ s.freelist.length - s.copyNeeds d v) :
    z.freelist.length ≤ s.freelist.length - s.copyNeeds d (v + 1) ∧
      (v % 1024 = 0 → s.copyNeeds d (v + 1) ≤ s.freelist.length) := by
  have howed := h.owed
  have hreserve := h.reserve 0 (Nat.zero_le v)
  rw [reserve_zero, reserve_zero] at hreserve
  rw [copyNeeds_succ]
  by_cases h0 : v % 1024 = 0
  · rw [if_pos h0] at hreserve ⊢
    omega
  · rw [if_neg h0] at hreserve ⊢
    omega

theorem Rounds.step {g'' : Ghost} {y : Kernel} (h : Rounds E g s d c v g' x) (hv : v < UVPN)
    (hy : Brought x d c v y) (hz : CopiedOut E y d c v z) (hxy : Copying E g' x d c g1 y)
    (hyz : Copying E g1 y d c g'' z) (hns : Paging.swapped (y.pte d v) = false) :
    Rounds E g s d c (v + 1) g'' z := by
  have hR : Round s x d c v y z :=
    h.round hv hy hz (hxy.mapped v hv) (hyz.mapped v hv) hns
  have hcontent : y.content d v = s.content d v := by
    rw [hxy.content v hv, h.copying.content v hv]
  have hp : s.Mapped d v → Paging.present (y.pte d v) = true := fun hm =>
    ((hxy.mapped v hv).2 ((h.copying.mapped v hv).2 hm)).resolve_right (by
      rw [hns]
      exact Bool.false_ne_true)
  have hchild : ∀ w < v, z.content c w = x.content c w ∧
      Paging.present (z.pte c w) = Paging.present (x.pte c w) := fun w hw => by
    obtain ⟨h1, h2⟩ := hz.others w (by omega) hw.ne
    rw [h1, h2, hy.childContent w (by omega), hy.childPte]
    exact ⟨rfl, rfl⟩
  refine ⟨h.copying.trans (hxy.trans hyz), fun i hi => ?_, fun w hw hvw hs => ?_, hR.upper h.upper,
    fun u hu ha => ?_, fun u hu hn => ?_, (hR.fewer h.fewer).1, fun w hw h0 => ?_,
    fun w hw hm => ?_⟩
  · rw [hz.tables i, hy.child, h.tables i hi]
    constructor
    · rintro (⟨w, hw, rfl⟩ | rfl)
      · exact ⟨w, by omega, rfl⟩
      · exact ⟨v, Nat.lt_succ_self v, rfl⟩
    · rintro ⟨w, hw, rfl⟩
      by_cases hwv : w = v
      · exact .inr (by rw [hwv])
      · exact .inl ⟨w, by omega, rfl⟩
  · exact hz.swapped w hw (hy.swapped w hw (by omega) (h.swapped w hw (by omega) hs))
  · obtain ⟨hlow, hpte⟩ := h.lower u (by omega) ha
    exact hR.lower (ha.mono (by omega)) hlow hpte hv
  · obtain ⟨hfree, hpte⟩ := h.free u (by omega) hn
    exact hR.free ((copyNeeds_mono hu).trans hn) hfree hpte hv
  · by_cases hwv : w = v
    · subst hwv
      exact (hR.fewer h.fewer).2 h0
    · exact h.tabled w (by omega) h0
  · by_cases hwv : w = v
    · subst hwv
      constructor
      · intro ha
        refine ⟨hz.present, ?_⟩
        rw [hz.copies (hp hm), hcontent]
        rcases ha with h0 | ha
        · exact .inr h0
        · left
          obtain ⟨hlow, hpte⟩ := h.lower w le_rfl ha
          have howed : x.owed d w = s.owed d w := by
            unfold Kernel.owed
            rw [hpte w hv le_rfl]
          unfold Kernel.Affords at ha
          rw [hy.reserve w le_rfl]
          omega
      · intro h1 ha
        have hup := h.upper
        have howed := hR.owed
        unfold Kernel.Affords at ha
        rw [← hcontent]
        exact (hz.spoils (hp hm) h1 (by rw [hy.reserve w le_rfl]; omega)).1
    · obtain ⟨hcopied, hspoilt⟩ := h.pages w (by omega) hm
      obtain ⟨hc, hpc⟩ := hchild w (by omega)
      unfold CopiedTo at hcopied ⊢
      rw [hc, hpc]
      exact ⟨hcopied, hspoilt⟩

/-- How far the rounds of `copyuvm` have come, by the number of frames. -/
theorem copyuvmLoop_rounds (hst : E.strict = true) (hB : Base E g s) (hS : Space g s d Set.univ)
    (hC : Space g s c Set.univ) (hcd : c ≠ d) (hlow : ∀ i : Fin 1024, i.val < 512 →
      present (s.mem c i) = false) (hv : v ≤ UVPN)
    (h : copyuvmLoop E d c pid v 0 s = .ok (true, x)) : ∃ g', Rounds E g s d c v g' x := by
  induction v generalizing x with
  | zero =>
    rw [copyuvmLoop, pure_apply] at h
    cases h
    exact ⟨g, .start (.refl hB hS hC) hlow⟩
  | succ v ih =>
    obtain ⟨u, p, y, hu, hbr, hout⟩ := copyuvmLoop_last h
    obtain ⟨g', hR⟩ := ih (by omega) hu
    have hcop := hR.copying
    have hvU : v < UVPN := by omega
    obtain ⟨g1, hev, rfl, ht, hns, hm⟩ := copyBring_spec hst hcop.base hcop.parent hvU pid _ _ hbr
    have hxy := hev.copying hcop.child hcd hm
    have hy := copyBring_brought hst hcop.base hcop.parent hcop.child hcd hvU pid _ _ hbr
    obtain ⟨g2, hyz, -⟩ :=
      copyOut_spec hst hxy.base hxy.parent hxy.child hcd hvU ht hns pid _ _ hout
    have hz := (copyOut_rounds hst hxy.base hxy.parent hxy.child hcd hvU ht hns pid _ _ hout).1 rfl
    exact ⟨g2, hR.step hvU hy hz hxy hyz hns⟩

end Xv6Lab.Paging
