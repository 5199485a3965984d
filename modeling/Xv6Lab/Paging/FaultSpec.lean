import Xv6Lab.Paging.SwapSpec

/-! The page-fault handler: a frame is supplied, if need be by evicting a page of
the same address space, and goes to the faulting page. -/

namespace Xv6Lab.Paging

open Lib

variable {E : Env} {g g' : Ghost} {s t : Kernel} {d v m : ℕ}

theorem PGROUNDDOWN_div (a : ℕ) : PGROUNDDOWN a / PGSIZE = a / PGSIZE := by
  rw [PGROUNDDOWN, page_mul]

theorem PGROUNDDOWN_lt {a : ℕ} (h : a < 2 ^ 32) : PGROUNDDOWN a < 2 ^ 32 :=
  (Nat.div_mul_le_self a PGSIZE).trans_lt h

/-- An eviction, if one is needed, finds a page to evict, so that no null entry
pointer is followed. -/
def NoNull (E : Env) (s : Kernel) (d : ℕ) : Prop :=
  E.strict = true ∨ s.freelist ≠ [] ∨ s.selectAVictim d ≠ none

/-- The frame `m` has been supplied to the address space `d`. -/
structure Supplied (E : Env) (g : Ghost) (s : Kernel) (d m : ℕ) (g' : Ghost) (t : Kernel) :
    Prop where
  base : Base E g' t
  proc : SameProc s t
  old : g.frame m = .free ∨ ∃ v, g.frame m = .page d v
  frame : g'.frame = Function.update g.frame m .loose
  keeps : Keeps {d} g s g' t
  space : Space g' t d Set.univ
  dir : t.mem d = s.mem d
  content : ∀ v < UVPN, t.content d v = s.content d v
  entry : ∀ v < 2 ^ 20, t.pte d v = s.pte d v ∨
    s.freelist = [] ∧ Victim s d v ∧ m = PTE_ADDR (s.pte d v) ∧
      ∃ b < 2 ^ 20, t.pte d v = swappedPte b
  balance : t.numallocblocks - t.nswapped d = s.numallocblocks - s.nswapped d
  freelist : s.freelist.Perm (m :: t.freelist) ∨ s.freelist = [] ∧ t.freelist = []
  victim : s.freelist = [] → ∃ v, Victim s d v ∧ m = PTE_ADDR (s.pte d v) ∧
    t.mem m = E.fill m (s.mem m)

/-- A frame taken from the free list. -/
theorem Supplied.of_free {l : List ℕ} (hB : Base E g s) (hS : Space g s d Set.univ)
    (hp : s.freelist.Perm (m :: l)) :
    Supplied E g s d m (g.setFrame m .loose) { s with freelist := l } := by
  obtain ⟨hf, hB'⟩ := hB.kalloc hp
  have hk : Keeps ∅ g s (g.setFrame m .loose) { s with freelist := l } :=
    ⟨fun x hx => g.setFrame_of_ne _ fun e => by rw [e, hf] at hx; exact hx, fun _ _ => rfl,
      fun _ _ => rfl, fun _ _ => rfl⟩
  exact ⟨hB', ⟨rfl, rfl, rfl, rfl⟩, .inl hf, rfl, hk.mono (Set.empty_subset _),
    (hS.keeps hk (Set.notMem_empty d)).1, rfl, fun _ _ => rfl, fun _ _ => .inl rfl, rfl, .inl hp,
    fun h => by rw [h] at hp; exact absurd hp (by simp)⟩

/-- The frame of the evicted page. -/
theorem Supplied.of_victim {b : ℕ} (hS : Space g s d Set.univ) (hv : Victim s d v)
    (h : SwappedOut E g s d v b g' t) (hl : s.freelist = []) :
    Supplied E g s d (PTE_ADDR (s.pte d v)) (g'.setFrame (PTE_ADDR (s.pte d v)) .loose)
      { t with freelist := [] } := by
  have hperm : t.freelist.Perm (PTE_ADDR (s.pte d v) :: []) := by rw [h.freelist, hl]
  obtain ⟨hf, hB'⟩ := h.base.kalloc hperm
  have hown := (hS.entry v hv.lt trivial).frame hv.present
  have hk : Keeps ∅ g' t (g'.setFrame (PTE_ADDR (s.pte d v)) .loose) { t with freelist := [] } :=
    ⟨fun x hx => g'.setFrame_of_ne _ fun e => by rw [e, hf] at hx; exact hx, fun _ _ => rfl,
      fun _ _ => rfl, fun _ _ => rfl⟩
  obtain ⟨hdir, hpv, hpo⟩ := h.store.entries hS.toTree
  refine ⟨hB', ⟨h.proc.proc, h.proc.kpgdir, h.proc.initproc, h.proc.nextpid⟩, .inr ⟨v, hown⟩, ?_, (h.keeps hS.toTree).trans (hk.mono (Set.empty_subset _)),
    ((h.space hS hv.lt).keeps hk (Set.notMem_empty d)).1, hdir,
    fun v' hv' => h.content hS hv.present hv', fun v' hv' => ?_, h.balance hS hv.lt hv.present,
    .inr ⟨hl, rfl⟩, fun _ => ⟨v, hv, rfl, h.fill⟩⟩
  · simp [Ghost.setFrame, h.frame]
  · by_cases hne : v' = v
    · subst hne
      exact .inr ⟨hl, hv, rfl, b, h.lt, hpv⟩
    · exact .inl (hpo v' hv' hne)

theorem swapPage_apply {p : PtePtr} (h : s.selectAVictim d = some p) (pid : ℕ) :
    swapPage E d pid s = swapPageFromPte E d (some p) pid s := by
  rw [swapPage, bind_apply, get_apply]
  simp only [h]

theorem swapPage_spec (hB : Base E g s) (hS : Space g s d Set.univ)
    (hn : E.strict = true ∨ s.selectAVictim d ≠ none) (pid : ℕ) :
    wp (swapPage E d pid) (fun _ t => ∃ v b g', Victim s d v ∧ SwappedOut E g s d v b g' t) s := by
  cases h : s.selectAVictim d with
  | none =>
    have hstrict := hn.resolve_right (fun hc => hc h)
    have hc := clearaccessbit_apply d s
    intro a t ht
    rw [swapPage, bind_apply, get_apply] at ht
    simp only [h, bind_apply, hc, get_apply, swapPageFromPte, loadPte, hstrict, ↓reduceIte,
      throw_apply] at ht
    cases ht
  | some p =>
    obtain ⟨v, hv, rfl⟩ := selectAVictim_some h
    have hown := (hS.entry v hv.lt trivial).frame hv.present
    intro a t ht
    rw [swapPage_apply h] at ht
    obtain ⟨b, g', h'⟩ := swapPageFromPte_spec hB hS.toTree (hv.lt.trans (by decide)) hv.present hown
      d pid a t ht
    exact ⟨v, b, g', hv, h'⟩

theorem kallocOrSwap_spec (hB : Base E g s) (hS : Space g s d Set.univ) (hn : NoNull E s d)
    (pid : ℕ) :
    wp (kallocOrSwap E d pid) (fun m t => ∃ g', Supplied E g s d m g' t) s := by
  rw [kallocOrSwap, wp_bind]
  rcases kalloc_cases E s with ⟨hl, hk⟩ | ⟨f, l, hp, hk⟩
  · refine wp_of_eq hk ?_
    rw [wp_bind]
    refine wp_mono (swapPage_spec hB hS (hn.imp_right fun h => h.resolve_left fun hc => hc hl) pid) ?_
    rintro - t ⟨v, b, g', hv, h⟩
    have hfl : t.freelist = [PTE_ADDR (s.pte d v)] := by rw [h.freelist, hl]
    rcases kalloc_cases E t with ⟨hl', -⟩ | ⟨f, l, hp', hk'⟩
    · rw [hfl] at hl'; cases hl'
    · rw [hfl, List.singleton_perm] at hp'
      obtain ⟨rfl, rfl⟩ := List.cons.inj hp'
      rw [wp_bind]
      refine wp_of_eq hk' ?_
      rw [wp_pure]
      exact ⟨_, Supplied.of_victim hS hv h hl⟩
  · refine wp_of_eq hk ?_
    rw [wp_pure]
    exact ⟨_, Supplied.of_free hB hS hp⟩

/-- With a free frame the frame comes from the free list. -/
theorem kallocOrSwap_of_free (hf : s.freelist ≠ []) (pid : ℕ) :
    ∃ m l, s.freelist.Perm (m :: l) ∧
      kallocOrSwap E d pid s = .ok (m, { s with freelist := l }) := by
  rcases kalloc_cases E s with ⟨hl, -⟩ | ⟨f, l, hp, hk⟩
  · exact absurd hl hf
  · refine ⟨f, l, hp, ?_⟩
    rw [kallocOrSwap, bind_apply, hk]
    rfl

/-! ### Filling the page -/

/-- The frame `m` now holds page `v`: the bytes of a swapped page, else zeros. -/
structure Filled (E : Env) (g : Ghost) (s : Kernel) (d v m : ℕ) (g' : Ghost) (t : Kernel) :
    Prop where
  base : Base E g' t
  proc : SameProc s t
  store : Store g s d v g' t {m} (userPte m)
  lt : m < 2 ^ 20
  frame : g'.frame = Function.update g.frame m (.page d v)
  freelist : t.freelist = s.freelist
  read : t.mem m = if swapped (s.pte d v) = true then s.content d v else fun _ => 0#32
  bit : swapped (s.pte d v) = false → t.bit = s.bit
  balance : t.numallocblocks - t.nswapped d = s.numallocblocks - s.nswapped d

theorem mappagesLoop_one {remap : Bool} {perm : Word} (ht : present (s.mem d (pdx v)) = true)
    (hr : remap = false ∨ present (s.pte d v) = false) :
    mappagesLoop E remap d perm 1 (v * PGSIZE) m s =
      .ok (true, s.setWord (s.ptr d v).1 (s.ptr d v).2 (V2P m ||| perm ||| PTE_P)) := by
  have hwalk : walkpgdir E d (v * PGSIZE) true s = .ok (some (s.ptr d v), s) := by
    rw [walkpgdir, bind_apply, get_apply]
    simp only [Kernel.lookup_of_present ht, pure_apply]
  have hif : ¬(remap = true ∧ present (s.pte d v) = true) := by
    rintro ⟨h1, h2⟩
    rcases hr with h | h
    · rw [h] at h1; cases h1
    · rw [h] at h2; cases h2
  rw [mappagesLoop, bind_apply, hwalk]
  simp only [readPte, bind_apply, get_apply, pure_apply, Kernel.mem_ptr ht, if_neg hif, writePte,
    modify_apply, mappagesLoop]

theorem one_page (v : ℕ) : (v * PGSIZE + PGSIZE - 1) / PGSIZE - v * PGSIZE / PGSIZE + 1 = 1 := by
  simp only [PGSIZE]; omega

theorem pgrounddown_page (v : ℕ) : PGROUNDDOWN (v * PGSIZE) = v * PGSIZE := by
  rw [PGROUNDDOWN, page_mul]

theorem userPte_of_perm (m : ℕ) :
    V2P m ||| (PTE_P ||| PTE_W ||| PTE_U) ||| PTE_P = userPte m := by
  rw [userPte_eq, BitVec.or_assoc]; rfl

theorem frame_lt (hB : Base E g s) (h : g.frame m ≠ .kernel) : m < 2 ^ 20 := by
  have := (hB.range m h).2
  simp only [NFRAMES, PHYSTOP, PGSIZE] at this
  omega

theorem fillPage_apply (hB : Base E g s) (hS : Space g s d Set.univ) (hv : v < 2 ^ 20)
    (ht : present (s.mem d (pdx v)) = true) (hm : g.frame m = .loose) :
    ∃ g' t, fillPage E d (v * PGSIZE) m (some (s.ptr d v)) s = .ok ((), t) ∧
      Filled E g s d v m g' t := by
  have hlt : m < 2 ^ 20 := frame_lt hB (by rw [hm]; simp)
  have hread : readPte (s.ptr d v) s = .ok (s.pte d v, s) := by
    simp [readPte, Kernel.mem_ptr ht]
  cases hs : swapped (s.pte d v) with
  | true =>
    have hvu : v < UVPN := by
      by_contra hge
      rw [(hS.kern v (by omega) hv).2] at hs
      cases hs
    obtain ⟨g', t, happ, h⟩ := swapIn_apply hB hS hvu hs hm
    refine ⟨g', t, ?_, h.base, h.proc, h.store, hlt, h.frame, h.freelist, by rw [if_pos hs, h.read],
      fun hn => absurd hs (by rw [hn]; simp), ?_⟩
    · rw [fillPage, bind_apply, hread]
      simp only [hs, ↓reduceIte]
      exact happ
    · obtain ⟨-, hpv, hpo⟩ := h.store.entries hS.toTree
      rw [h.count, nswapped_store hvu fun v' hv' => hpo v' (hv'.trans (by decide)), hpv, hs]
      simp
  | false =>
    have hne : (s.ptr d v).1 ≠ m := fun e => by
      have := hS.tab _ ht
      rw [show PTE_ADDR (s.mem d (pdx v)) = m from e, hm] at this
      cases this
    have hdm : d ≠ m := fun e => by
      have := hS.dir
      rw [e, hm] at this
      cases this
    set s1 := s.setFrame m fun _ => 0#32 with hs1
    have hdir : s1.mem d = s.mem d := by simp [hs1, hdm]
    have hptr : s1.ptr d v = s.ptr d v := by rw [Kernel.ptr, Kernel.ptr, hdir]
    refine ⟨g.setFrame m (.page d v), s1.setWord (s.ptr d v).1 (s.ptr d v).2 (userPte m), ?_, ?_,
      ⟨rfl, rfl, rfl, rfl⟩, ⟨hv, ht, by rintro x rfl; exact .inr hm, fun x hxm hxt => ?_, ?_,
        fun x hx => g.setFrame_of_ne _ hx, fun _ _ _ _ hb => ⟨hb, rfl⟩⟩, hlt, rfl, rfl, ?_, fun _ => rfl, ?_⟩
    · rw [fillPage, bind_apply, hread]
      simp only [hs, Bool.false_eq_true, ↓reduceIte, setFrame, bind_apply, modify_apply, ← hs1]
      rw [mappagesPaging, one_page, pgrounddown_page,
        mappagesLoop_one (by rwa [hdir]) (.inl rfl), userPte_of_perm, hptr]
      rfl
    · exact (hB.setOwner (by rw [hm]; simp) (by rw [hm]; simp) (by simp)).congr_mem rfl rfl rfl
    · have hxt' : x ≠ (s.ptr d v).1 := hxt
      have hxm' : x ≠ m := hxm
      simp [hs1, hxm', hxt']
    · simp only [hs1, Kernel.setWord_mem, Kernel.setFrame_mem]
      rw [show PTE_ADDR (s.mem d (pdx v)) = (s.ptr d v).1 from rfl, Function.update_self,
        Function.update_of_ne hne]
      rfl
    · simp only [hs1, Kernel.setWord_mem, Kernel.setFrame_mem, hs, Bool.false_eq_true, ↓reduceIte]
      rw [Function.update_of_ne hne.symm, Function.update_self]
    · have hT := hS.toTree.store (t := s1.setWord (s.ptr d v).1 (s.ptr d v).2 (userPte m))
        (w := userPte m) (F := {m}) hv ht
        (by rintro x rfl; rw [hm]; exact ⟨by simp, by simp⟩)
        (fun x hxm hxt => by
          have hxt' : x ≠ (s.ptr d v).1 := hxt
          simp [hs1, show x ≠ m from hxm, hxt'])
        (by
          simp only [hs1, Kernel.setWord_mem, Kernel.setFrame_mem]
          rw [show PTE_ADDR (s.mem d (pdx v)) = (s.ptr d v).1 from rfl, Function.update_self,
            Function.update_of_ne hne]
          rfl)
      have hnsw : (s1.setWord (s.ptr d v).1 (s.ptr d v).2 (userPte m)).nswapped d = s.nswapped d := by
        refine nswapped_congr fun v' hv' => ?_
        by_cases hvv : v' = v
        · subst hvv; rw [hT.2.1, hs, swapped_userPte]
        · rw [hT.2.2 v' (hv'.trans (by decide)) hvv]
      rw [hnsw]
      rfl

namespace Filled

theorem entry (h : Filled E g s d v m g' t) : EntryOk g' d v (userPte m) where
  frame _ := by rw [PTE_ADDR_userPte h.lt, h.frame, Function.update_self]
  only _ := swapped_userPte m
  write _ := writable_userPte m
  block hs := by simp at hs

theorem space (h : Filled E g s d v m g' t) (hS : Space g s d Set.univ) (hv : v < UVPN) :
    Space g' t d Set.univ :=
  h.store.space hS (fun _ _ => h.entry) fun hu => absurd hv (by omega)

/-- The page holds what it held, unless a present page was mapped over. -/
theorem content_self (h : Filled E g s d v m g' t) (hS : Space g s d Set.univ)
    (hc : present (s.pte d v) = true → s.content d v = fun _ => 0#32) :
    t.content d v = s.content d v := by
  obtain ⟨-, hpv, -⟩ := h.store.entries hS.toTree
  rw [Kernel.content_present (by simp [hpv]), hpv, PTE_ADDR_userPte h.lt, h.read]
  split_ifs with hs
  · rfl
  · cases hp : present (s.pte d v) with
    | true => rw [hc hp]
    | false => rw [Kernel.content_unmapped hp (by simpa using hs)]

end Filled

/-! ### An address space that lives on -/

/-- The pages of `d` have moved, and hold what they held. -/
structure Evolved (E : Env) (g : Ghost) (s : Kernel) (d : ℕ) (g' : Ghost) (t : Kernel) : Prop where
  base : Base E g' t
  proc : SameProc s t
  keeps : Keeps {d} g s g' t
  space : Space g' t d Set.univ
  content : ∀ v < UVPN, t.content d v = s.content d v
  balance : t.numallocblocks - t.nswapped d = s.numallocblocks - s.nswapped d
  guard : ∀ v < UVPN, present (t.pte d v) = true → user (t.pte d v) = false →
    t.pte d v = s.pte d v

namespace Evolved

variable {g'' : Ghost} {u : Kernel}

theorem refl (hB : Base E g s) (hS : Space g s d Set.univ) : Evolved E g s d g s :=
  ⟨hB, .refl s, .refl _ g s, hS, fun _ _ => rfl, rfl, fun _ _ _ _ => rfl⟩

theorem trans (h : Evolved E g s d g' t) (h' : Evolved E g' t d g'' u) :
    Evolved E g s d g'' u where
  base := h'.base
  proc := h.proc.trans h'.proc
  keeps := h.keeps.trans h'.keeps
  space := h'.space
  content v hv := by rw [h'.content v hv, h.content v hv]
  balance := h'.balance.trans h.balance
  guard v hv hp hu := by
    have e := h'.guard v hv hp hu
    rw [e] at hp hu ⊢
    exact h.guard v hv hp hu

end Evolved

/-- Page `v` has contents of its own, in memory or on disk. -/
def Kernel.Mapped (s : Kernel) (d v : ℕ) : Prop :=
  present (s.pte d v) = true ∨ swapped (s.pte d v) = true

theorem Supplied.mapped (h : Supplied E g s d m g' t) {v : ℕ} (hv : v < UVPN) :
    t.Mapped d v ↔ s.Mapped d v := by
  rcases h.entry v (hv.trans (by decide)) with e | ⟨-, hvic, -, b, -, e⟩
  · rw [Kernel.Mapped, Kernel.Mapped, e]
  · simp [Kernel.Mapped, e, hvic.present]

theorem Supplied.evolved (h : Supplied E g s d m g' t) : Evolved E g s d g' t where
  base := h.base
  proc := h.proc
  keeps := h.keeps
  space := h.space
  content := h.content
  balance := h.balance
  guard v hv hp _ := by
    rcases h.entry v (hv.trans (by decide)) with e | ⟨-, -, -, b, -, e⟩
    · exact e
    · rw [e, present_swappedPte] at hp
      cases hp

theorem Filled.evolved (h : Filled E g s d v m g' t) (hS : Space g s d Set.univ) (hv : v < UVPN)
    (hc : present (s.pte d v) = true → s.content d v = fun _ => 0#32) :
    Evolved E g s d g' t where
  base := h.base
  proc := h.proc
  keeps := h.store.keeps hS.toTree
  space := h.space hS hv
  content v' hv' := by
    by_cases hne : v' = v
    · subst hne; exact h.content_self hS hc
    · exact h.store.content hS hv' trivial hne
  balance := h.balance
  guard v' hv' _ hu := by
    obtain ⟨-, hpv, hpo⟩ := h.store.entries hS.toTree
    by_cases hne : v' = v
    · subst hne
      rw [hpv, user_userPte] at hu
      cases hu
    · exact hpo v' (hv'.trans (by decide)) hne

/-! ### The handler -/

theorem mapAddress_eq (addr pid : ℕ) :
    mapAddress E d addr pid s = match kallocOrSwap E d pid s with
      | .ok (m, t) => fillPage E d (addr / PGSIZE * PGSIZE) m (s.lookup d (addr / PGSIZE * PGSIZE)) t
      | .error e => .error e := by
  rw [mapAddress, bind_apply, get_apply]
  simp only [bind_apply, PGROUNDDOWN]
  cases kallocOrSwap E d pid s <;> rfl

/-- What the handler does, whatever the address: a frame is supplied, and where
there is a page table it goes to the page. -/
theorem mapAddress_spec (hB : Base E g s) (hS : Space g s d Set.univ) (hn : NoNull E s d)
    {addr : ℕ} (ha : addr < 2 ^ 32) (pid : ℕ) :
    wp (mapAddress E d addr pid) (fun _ u => ∃ m g1 t, Supplied E g s d m g1 t ∧
      (present (s.mem d (pdx (addr / PGSIZE))) = false ∧ u = t ∨
        present (s.mem d (pdx (addr / PGSIZE))) = true ∧
          ∃ g', Filled E g1 t d (addr / PGSIZE) m g' u)) s := by
  intro a u hu
  rw [mapAddress_eq] at hu
  cases hk : kallocOrSwap E d pid s with
  | error e => rw [hk] at hu; cases hu
  | ok r =>
    obtain ⟨m, t⟩ := r
    rw [hk] at hu
    simp only at hu
    obtain ⟨g1, h1⟩ := kallocOrSwap_spec hB hS hn pid m t hk
    refine ⟨m, g1, t, h1, ?_⟩
    cases ht : present (s.mem d (pdx (addr / PGSIZE))) with
    | false =>
      rw [Kernel.lookup_page, if_neg (by simp [ht]), fillPage, pure_apply] at hu
      cases hu
      exact .inl ⟨rfl, rfl⟩
    | true =>
      have hptr : t.ptr d (addr / PGSIZE) = s.ptr d (addr / PGSIZE) := by
        rw [Kernel.ptr, Kernel.ptr, h1.dir]
      have hlt : addr / PGSIZE < 2 ^ 20 := by simp only [PGSIZE]; omega
      obtain ⟨g', u', happ, h2⟩ := fillPage_apply h1.base h1.space hlt (by rwa [h1.dir])
        (by rw [h1.frame, Function.update_self])
      rw [Kernel.lookup_of_present ht, ← hptr, happ] at hu
      cases hu
      exact .inr ⟨rfl, g', h2⟩

/-- With a free frame and a page table at hand the page is mapped. -/
theorem mapAddress_of_free (hB : Base E g s) (hS : Space g s d Set.univ) {addr : ℕ}
    (ha : addr < 2 ^ 32) (hf : s.freelist ≠ [])
    (ht : present (s.mem d (pdx (addr / PGSIZE))) = true) (pid : ℕ) :
    ∃ t, mapAddress E d addr pid s = .ok ((), t) := by
  obtain ⟨m, l, hperm, hk⟩ := kallocOrSwap_of_free (E := E) (d := d) hf pid
  have hsup := Supplied.of_free hB hS hperm
  obtain ⟨g', t, happ, -⟩ := fillPage_apply hsup.base hsup.space
    (show addr / PGSIZE < 2 ^ 20 by simp only [PGSIZE]; omega) ht
    (by rw [hsup.frame, Function.update_self])
  refine ⟨t, ?_⟩
  rw [mapAddress_eq, hk]
  simp only
  rw [Kernel.lookup_of_present ht]
  exact happ

end Xv6Lab.Paging
