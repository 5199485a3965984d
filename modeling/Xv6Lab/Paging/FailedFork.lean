import Xv6Lab.Paging.ForkCopy
import Xv6Lab.Paging.KvmFrames

/-! Forks that fail in `copyuvm`, and the frames that they cost. When `setupkvm` fails all frames
come back. When a page of the child cannot be mapped its frame is lost. -/

namespace Xv6Lab.Paging

open Lib

variable {E : Env} {g : Ghost} {s t : Kernel} {p : Slot} {c d f m v pid : ℕ} {perm : Word}

/-! ### Frames that are spare -/

/-- The frame is on the free list or behind a page of `d`. -/
def Kernel.Spare (s : Kernel) (d f : ℕ) : Prop :=
  f ∈ s.freelist ∨ ∃ v < UVPN, present (s.pte d v) = true ∧ PTE_ADDR (s.pte d v) = f

theorem not_spare_of_loose (hB : Base E g s) (hS : Space g s d Set.univ) (hf : g.frame f = .loose) :
    ¬ s.Spare d f := by
  intro h
  rcases h with h | ⟨v, hv, hp, rfl⟩
  · rw [hB.free, hf] at h
    cases h
  · rw [(hS.entry v hv trivial).frame hp] at hf
    cases hf

theorem Kernel.Spare.back (h : t.Spare d f) (hl : ∀ x ∈ t.freelist, s.Spare d x)
    (hp : ∀ v < UVPN, present (t.pte d v) = true →
      t.pte d v = s.pte d v ∨ s.Spare d (PTE_ADDR (t.pte d v))) : s.Spare d f := by
  rcases h with h | ⟨v, hv, hpres, rfl⟩
  · exact hl f h
  · rcases hp v hv hpres with he | hspare
    · rw [he] at hpres ⊢
      exact .inr ⟨v, hv, hpres, rfl⟩
    · exact hspare

/-- The supply takes a spare frame and makes none. -/
theorem Supplied.spare {g1 : Ghost} {t1 : Kernel} (h : Supplied E g s d m g1 t1) :
    s.Spare d m ∧ ∀ f, t1.Spare d f → s.Spare d f := by
  constructor
  · rcases h.freelist with hp | ⟨hl, -⟩
    · exact .inl (hp.mem_iff.2 (List.mem_cons_self ..))
    · obtain ⟨v, hv, hm, -⟩ := h.victim hl
      exact .inr ⟨v, hv.lt, hv.present, hm.symm⟩
  · intro f hf
    apply hf.back
    · intro x hx
      rcases h.freelist with hp | ⟨-, hl⟩
      · exact .inl (hp.mem_iff.2 (List.mem_cons_of_mem _ hx))
      · rw [hl] at hx
        cases hx
    · intro v hv hp
      rcases h.entry v (hv.trans (by decide)) with he | ⟨-, -, -, b, -, hb⟩
      · exact .inl he
      · rw [hb, present_swappedPte] at hp
        cases hp

theorem copyBring_spare (hst : E.strict = true) (hB : Base E g s) (hS : Space g s d Set.univ)
    (hv : v < UVPN) (pid : ℕ) :
    wp (copyBring E d pid v) (fun _ t => ∀ f, t.Spare d f → s.Spare d f) s := by
  refine wp_mono (copyBring_cases hst hB hS hv pid) ?_
  intro p t h
  obtain ⟨-, -, hsame | ⟨-, m, g1, t1, g2, h1, -, h2⟩⟩ := h
  · rw [hsame.2]
    exact fun f hf => hf
  · obtain ⟨hm, hback⟩ := h1.spare
    obtain ⟨-, hpv, hpo⟩ := h2.store.entries h1.space.toTree
    have hlt : m < 2 ^ 20 := frame_lt h1.base (by rw [h1.frame, Function.update_self]; simp)
    intro f hf
    apply hf.back
    · intro x hx
      rw [h2.freelist] at hx
      exact hback x (.inl hx)
    · intro w hw hp
      right
      by_cases hwv : w = v
      · rw [hwv, hpv, PTE_ADDR_userPte hlt]
        exact hm
      · rw [hpo w (hw.trans (by decide)) hwv] at hp ⊢
        exact hback _ (.inr ⟨w, hw, hp, rfl⟩)

/-- The copy to `c` has given up with the spare frame `m` in hand. -/
structure Dropped (E : Env) (g : Ghost) (s : Kernel) (d c m : ℕ) (g' : Ghost) (t : Kernel) :
    Prop where
  base : Base E g' t
  proc : SameProc s t
  keeps : Keeps {d, c} g s g' t
  parent : Space g' t d Set.univ
  child : Space g' t c Set.univ
  loose : g'.frame m = .loose
  spare : s.Spare d m

theorem copyOut_spare (hst : E.strict = true) (hB : Base E g s) (hS : Space g s d Set.univ)
    (hC : Space g s c Set.univ) (hcd : c ≠ d) (hv : v < UVPN)
    (ht : present (s.mem d (pdx v)) = true) (pid : ℕ) :
    wp (copyOut E d c pid v (s.ptr d v)) (fun r t =>
      (r = true → ∀ f, t.Spare d f → s.Spare d f) ∧
      (r = false → ∃ m g', Dropped E g s d c m g' t)) s := by
  refine wp_mono (copyOut_cases hst hB hS hC hcd hv ht pid) ?_
  intro r t h
  obtain ⟨m, g1, t1, h1, hcase⟩ := h
  obtain ⟨hm, hback⟩ := h1.spare
  have hm1 : g1.frame m = .loose := by rw [h1.frame, Function.update_self]
  have hk : Keeps ∅ g1 t1 g1 (t1.setFrame m (t1.mem (PTE_ADDR (s.pte d v)))) := .setFrame hm1 _
  have hS2 := (h1.space.keeps hk (Set.notMem_empty d)).1
  have hpte2 := (h1.space.toTree.keeps hk (Set.notMem_empty d)).2.2
  have hC1 := (hC.keeps h1.keeps (by simpa using hcd)).1
  have hC2 := (hC1.keeps hk (Set.notMem_empty c)).1
  have hB2 : Base E g1 (t1.setFrame m (t1.mem (PTE_ADDR (s.pte d v)))) := h1.base.congr_mem rfl rfl rfl
  rcases hcase with ⟨⟨rfl, -, -⟩, rfl⟩ | ⟨rfl, g3, h3⟩
  · refine ⟨by simp, fun _ => ⟨m, g1, hB2, ?_, ?_, hS2, hC2, hm1, hm⟩⟩
    · exact ⟨h1.proc.proc, h1.proc.kpgdir, h1.proc.initproc, h1.proc.nextpid⟩
    · exact (h1.keeps.mono (mem_pair_left d c)).trans (hk.mono (Set.empty_subset _))
  · refine ⟨fun _ f hf => hback f ?_, by simp⟩
    have hpte3 := (hS2.toTree.keeps h3.keeps (by simpa using hcd.symm)).2.2
    apply hf.back
    · intro x hx
      have hxm : x ≠ m := by
        rintro rfl
        rw [h3.base.free, h3.own] at hx
        cases hx
      have hfree : g1.frame x = .free := by
        by_contra hne
        rw [h3.base.free, h3.frame x hne hxm] at hx
        exact hne hx
      exact .inl ((h1.base.free x).2 hfree)
    · intro w _ _
      left
      rw [hpte3, hpte2]

theorem copyuvmLoop_drops (hst : E.strict = true) (hcd : c ≠ d) (pid n v : ℕ) (hB : Base E g s)
    (hS : Space g s d Set.univ) (hC : Space g s c Set.univ) (hv : v + n ≤ UVPN) :
    wp (copyuvmLoop E d c pid n v) (fun r t => r = false → ∃ m g', Dropped E g s d c m g' t) s := by
  induction n generalizing v g s with
  | zero =>
    rw [copyuvmLoop, wp_pure]
    simp
  | succ n ih =>
    simp only [copyuvmLoop, wp_bind]
    intro p t1 hb
    have hback1 := copyBring_spare hst hB hS (show v < UVPN by omega) pid _ _ hb
    obtain ⟨g1, h1, rfl, ht1, hns1, hm1⟩ := copyBring_spec hst hB hS (show v < UVPN by omega) pid _ _ hb
    have hc1 := h1.copying hC hcd hm1
    intro r t2 ho
    obtain ⟨hgood, hbad⟩ :=
      copyOut_spare hst hc1.base hc1.parent hc1.child hcd (by omega) ht1 pid _ _ ho
    obtain ⟨g2, h2, -⟩ :=
      copyOut_spec hst hc1.base hc1.parent hc1.child hcd (by omega) ht1 hns1 pid _ _ ho
    by_cases hr : r = true
    · rw [if_pos hr]
      refine wp_mono (ih (v + 1) h2.base h2.parent h2.child (by omega)) ?_
      intro b t3 h3 hb
      obtain ⟨m, g', hd⟩ := h3 hb
      exact ⟨m, g', hd.base, hc1.proc.trans (h2.proc.trans hd.proc),
        hc1.keeps.trans (h2.keeps.trans hd.keeps), hd.parent, hd.child, hd.loose,
        hback1 m (hgood hr m hd.spare)⟩
    · rw [if_neg hr, wp_pure]
      intro _
      obtain ⟨m, g', hd⟩ := hbad (by simpa using hr)
      exact ⟨m, g', hd.base, hc1.proc.trans hd.proc, hc1.keeps.trans hd.keeps, hd.parent, hd.child,
        hd.loose, hback1 m hd.spare⟩

/-- With ten free frames a copy that fails costs a frame: the one in hand when the child gets no
page table is not freed. -/
theorem copyuvm_drops {sz : ℕ} (hst : E.strict = true) (hB : Base E g s)
    (hS : Space g s d Set.univ) (hsz : sz ≤ KERNBASE) (hlen : 10 ≤ s.freelist.length)
    (h : copyuvm E d sz pid s = .ok (none, t)) :
    ∃ m g', Base E g' t ∧ SameProc s t ∧ Space g' t d Set.univ ∧ g'.frame m = .loose ∧
      s.Spare d m ∧ ∀ x q, g.frame x = .kstack q → g'.frame x = .kstack q := by
  obtain ⟨c, g1, t1, hset, hN, -⟩ := setupkvm_total hB hlen
  obtain ⟨hcd, hS1, hpte1, -⟩ := hN.copying hS
  have hu : 0 + npages sz ≤ UVPN := by
    rw [Nat.zero_add]
    exact npages_le hsz
  have hspare : ∀ f, t1.Spare d f → s.Spare d f := by
    intro f hf
    apply hf.back
    · intro x hx
      left
      rw [hB.free]
      by_contra hne
      rw [hN.base.free, (hN.frame x hne).1] at hx
      exact hne hx
    · exact fun v _ _ => .inl (hpte1 v)
  rw [copyuvm, bind_apply, hset] at h
  dsimp only at h
  rw [bind_apply] at h
  cases hloop : copyuvmLoop E d c pid (npages sz) 0 t1 with
  | error e =>
    rw [hloop] at h
    cases h
  | ok r =>
    rw [hloop] at h
    dsimp only at h
    by_cases hr : r.1 = true
    · rw [if_pos hr] at h
      cases h
    · obtain ⟨m, g2, hd⟩ := copyuvmLoop_drops hst hcd pid _ _ hN.base hS1 hN.space hu _ _ hloop
        (by simpa using hr)
      rw [if_neg hr, bind_apply] at h
      cases hf : freevm E c r.2 with
      | error e =>
        rw [hf] at h
        cases h
      | ok r' =>
        obtain ⟨g3, hF⟩ := freevm_spec hd.base hd.child _ _ hf
        rw [hf] at h
        cases h
        refine ⟨m, g3, hF.base, hN.proc.trans (hd.proc.trans hF.proc), ?_, (hF.loose m hd.loose).1,
          hspare m hd.spare, ?_⟩
        · exact (hd.parent.keeps hF.keeps (by simpa using hcd.symm)).1
        · intro x q hx
          exact hF.keeps.leaves.kstack x q
            (hd.keeps.leaves.kstack x q (hN.keeps.leaves.kstack x q hx))

/-! ### The call -/

/-- `fork` has returned -1 because `copyuvm` has returned 0. -/
def ForkFails (E : Env) (s : Kernel) (p : Slot) (t : Kernel) : Prop :=
  ∃ np s1 s2, allocproc E s = .ok (some np, s1) ∧
    copyuvm E (s1.dir p) (s1.proc p).sz (s1.proc p).pid s1 = .ok (none, s2) ∧
    fork E p s = .ok ((), t)

/-- The frame is free, the kernel stack of a process, or part of an address space. -/
def Kernel.Accounted (s : Kernel) (f : ℕ) : Prop :=
  f ∈ s.freelist ∨
    (∃ q, (s.proc q).live ∧ ((s.proc q).kstack = f ∨ s.OwnsFrame (s.dir q) f)) ∨
    s.OwnsFrame s.kpgdir f

/-- The frames that the parent could give are on the free list or behind its pages, no frame is
lost, and its memory is as it was. -/
structure NoLeak (s : Kernel) (p : Slot) (t : Kernel) : Prop where
  spare : ∀ f, s.Spare (s.dir p) f → t.Spare (t.dir p) f
  accounted : ∀ f, s.Accounted f → t.Accounted f
  mapped : ∀ v < UVPN, t.Mapped (t.dir p) v ↔ s.Mapped (s.dir p) v
  content : ∀ v < UVPN, t.content (t.dir p) v = s.content (s.dir p) v

/-- Slot `np` has been taken, with the frame `k` for its kernel stack. -/
structure TookSlot (E : Env) (g : Ghost) (s : Kernel) (np : Slot) (k : ℕ) (t : Kernel) : Prop where
  unused : (s.proc np).state = .UNUSED
  kstack : (t.proc np).kstack = k
  other : ∀ q, q ≠ np → t.proc q = s.proc q
  kpgdir : t.kpgdir = s.kpgdir
  freelist : s.freelist.Perm (k :: t.freelist)
  base : Base E (g.setFrame k (.kstack np)) t
  keeps : Keeps ∅ g s (g.setFrame k (.kstack np)) t

theorem allocproc_took {np : Slot} (hB : Base E g s) (h : allocproc E s = .ok (some np, t)) :
    ∃ k, TookSlot E g s np k t := by
  rw [allocproc, bind_apply, get_apply] at h
  dsimp only at h
  cases hq : findSlot fun q => (s.proc q).state = .UNUSED with
  | none =>
    rw [hq] at h
    cases h
  | some q =>
    have hu : (s.proc q).state = .UNUSED := by simpa using findSlot_some hq
    rw [hq] at h
    simp only [bind_apply, modify_apply] at h
    set s1 : Kernel := { s.setProc q { s.proc q with state := .EMBRYO, pid := s.nextpid } with
      nextpid := s.nextpid + 1 } with hs1
    rcases kalloc_cases E s1 with ⟨-, hk⟩ | ⟨k, l, hp, hk⟩
    · rw [hk] at h
      cases h
    · rw [hk] at h
      cases h
      obtain ⟨hf, hB2⟩ := (show Base E g s1 from hB.congr_mem rfl rfl rfl).kalloc hp
      have hB3 := hB2.setOwner (f := k) (o := .kstack np) (by simp) (by simp) (by simp)
      have hg : (g.setFrame k .loose).setFrame k (.kstack np) = g.setFrame k (.kstack np) := by
        simp [Ghost.setFrame]
      rw [hg] at hB3
      refine ⟨k, hu, by simp, fun q' hq' => ?_, rfl, hp, hB3.congr_mem rfl rfl rfl, ?_⟩
      · simp only [Kernel.setProc_proc, Function.update_of_ne hq', hs1]
      · exact ⟨fun x hx => g.setFrame_of_ne _ (by rintro rfl; rw [hf] at hx; exact hx),
          fun _ _ => rfl, fun _ _ => rfl, fun _ _ => rfl⟩

/-- The state in which `fork` leaves its slot again; `s` is the state before `copyuvm`. -/
def Kernel.abandon (t : Kernel) (E : Env) (s : Kernel) (np : Slot) : Kernel :=
  (t.kfreed E (s.proc np).kstack).setProc np
    { s.proc np with pgdir := 0, kstack := 0, state := .UNUSED }

theorem fork_abandons {np : Slot} {s1 s2 : Kernel} (ha : allocproc E s = .ok (some np, s1))
    (hc : copyuvm E (s1.dir p) (s1.proc p).sz (s1.proc p).pid s1 = .ok (none, s2))
    (h1 : E.kend ≤ (s1.proc np).kstack) (h2 : (s1.proc np).kstack < NFRAMES) :
    fork E p s = .ok ((), s2.abandon E s1 np) := by
  rw [fork, bind_apply, ha]
  dsimp only
  rw [bind_apply, get_apply]
  dsimp only
  rw [bind_apply, show (s1.proc p).pgdir = s1.dir p from rfl, hc]
  dsimp only
  rw [bind_apply, kfree_apply h1 h2]
  rfl

section

variable {np : Slot} {k : ℕ} {s1 s2 : Kernel}

theorem Tree.kfreed {q : Slot} (hT : Tree g s d) (hk : g.frame k = .kstack q) :
    (s.kfreed E k).mem d = s.mem d ∧ ∀ v, (s.kfreed E k).pte d v = s.pte d v := by
  have hne : ∀ x, g.frame x ≠ .kstack q → (s.kfreed E k).mem x = s.mem x := by
    intro x hx
    have hxk : x ≠ k := by
      rintro rfl
      exact hx hk
    simp [Kernel.kfreed, hxk]
  have hd := hne d (by rw [hT.dir]; simp)
  exact ⟨hd, fun v => Kernel.pte_congr hd fun hp => hne _ (by rw [hT.tab _ hp]; simp)⟩

theorem Kernel.OwnsFrame.congr (h : s.OwnsFrame d f) (hd : t.mem d = s.mem d)
    (hp : ∀ v, t.pte d v = s.pte d v) : t.OwnsFrame d f := by
  unfold Kernel.OwnsFrame
  rw [hd]
  simp only [hp]
  exact h

theorem TookSlot.parent (h : TookSlot E g s np k s1) (hp : (s.proc p).live) : p ≠ np := by
  rintro rfl
  exact hp h.unused

/-- A frame that is not freed is missed. -/
theorem not_noLeak (hA : TookSlot E g s np k s1) (hp : (s.proc p).live) {g' : Ghost}
    (hB : Base E g' s2) (hsame : SameProc s1 s2) (hS : Space g' s2 (s.dir p) Set.univ)
    (hm : g'.frame m = .loose) (hspare : s.Spare (s.dir p) m) (hk : g'.frame k = .kstack np) :
    ¬ NoLeak s p (s2.abandon E s1 np) := by
  intro h
  have hdir : (s2.abandon E s1 np).dir p = s.dir p := by
    simp only [Kernel.abandon, Kernel.dir, Kernel.setProc_proc, Function.update_of_ne (hA.parent hp)]
    change (s2.proc p).pgdir = _
    rw [hsame.proc, hA.other p (hA.parent hp)]
  have hfin := h.spare m hspare
  rw [hdir] at hfin
  have hmk : m ≠ k := by
    rintro rfl
    rw [hm] at hk
    cases hk
  have hB' := (hB.kfree (f := k) (by rw [hk]; simp) (by rw [hk]; simp)).2
  have hS' := (hS.kfree (E := E) hk).1
  apply not_spare_of_loose hB' hS' (f := m) (by rw [g'.setFrame_of_ne _ hmk, hm])
  rw [← hA.kstack]
  exact hfin

/-- Nothing is missed when not even the directory of the child was made. -/
theorem noLeak_of_setupkvm (hI : Inv E g s) (hp : (s.proc p).live) (hA : TookSlot E g s np k s1)
    (h : setupkvm E s1 = .ok (none, s2)) : NoLeak s p (s2.abandon E s1 np) := by
  have hperm : (k :: s2.freelist).Perm s.freelist :=
    ((setupkvm_none hA.base h).cons k).trans hA.freelist.symm
  obtain ⟨D, g2, hD, hsame, hK⟩ : ∃ (D : Set ℕ) (g2 : Ghost),
      (∀ x ∈ D, (g.setFrame k (.kstack np)).frame x = .free) ∧ SameProc s1 s2 ∧
        Keeps D (g.setFrame k (.kstack np)) s1 g2 s2 := by
    rcases setupkvm_spec hA.base _ _ h with rfl | ⟨c, g2, hno⟩
    · exact ⟨∅, _, by simp, .refl _, .refl _ _ _⟩
    · exact ⟨{c}, g2, by rintro x rfl; exact hno.old, hno.proc, hno.keeps⟩
  have hk2 : g2.frame k = .kstack np := by
    rw [hK.frame k (by rw [Ghost.setFrame_self]; trivial), Ghost.setFrame_self]
  have hL : Leaves ∅ g s g2 s2 := by
    apply ((hA.keeps.leaves.mono (Set.empty_subset D)).trans hK.leaves).drop
    intro x hx
    right
    have hfree := hD x hx
    rwa [g.setFrame_of_ne _ (by rintro rfl; rw [Ghost.setFrame_self] at hfree; cases hfree)] at hfree
  set t := s2.abandon E s1 np with ht
  have htk : t = (s2.kfreed E k).setProc np
      { s1.proc np with pgdir := 0, kstack := 0, state := .UNUSED } := by
    rw [ht, Kernel.abandon, hA.kstack]
  have hlist : t.freelist = k :: s2.freelist := by
    rw [htk]
    rfl
  have hproc : ∀ q, (s.proc q).live → t.proc q = s.proc q := by
    intro q hq
    rw [htk, Kernel.setProc_proc, Function.update_of_ne (hA.parent hq)]
    change s2.proc q = _
    rw [hsame.proc, hA.other q (hA.parent hq)]
  have hdir : ∀ q, (s.proc q).live → t.dir q = s.dir q := by
    intro q hq
    rw [Kernel.dir, hproc q hq]
    rfl
  have htree : ∀ e, Tree g s e → t.mem e = s.mem e ∧ ∀ v, t.pte e v = s.pte e v := by
    intro e hT
    obtain ⟨hT2, hmem, hpte⟩ := hL.tree e (Set.notMem_empty e) hT
    obtain ⟨hmem', hpte'⟩ := hT2.kfreed (E := E) hk2
    rw [htk]
    exact ⟨hmem'.trans hmem, fun v => (hpte' v).trans (hpte v)⟩
  have hS := hI.space p hp
  obtain ⟨hmem, hpte⟩ := htree _ hS.toTree
  constructor
  · intro f hf
    rw [hdir p hp]
    rcases hf with hf | ⟨v, hv, hpres, rfl⟩
    · left
      rw [hlist]
      exact hperm.mem_iff.2 hf
    · right
      exact ⟨v, hv, by rw [hpte]; exact hpres, by rw [hpte]⟩
  · intro f hf
    rcases hf with hf | ⟨q, hq, hown⟩ | hown
    · left
      rw [hlist]
      exact hperm.mem_iff.2 hf
    · right
      left
      refine ⟨q, by rw [hproc q hq]; exact hq, ?_⟩
      rw [hproc q hq, hdir q hq]
      obtain ⟨hm, hv⟩ := htree _ (hI.space q hq).toTree
      exact hown.imp_right fun h => h.congr hm hv
    · right
      right
      obtain ⟨hm, hv⟩ := htree _ hI.ktree
      rw [show t.kpgdir = s.kpgdir by rw [htk]; exact hsame.kpgdir.trans hA.kpgdir]
      exact hown.congr hm hv
  · intro v _
    rw [hdir p hp, Kernel.Mapped, Kernel.Mapped, hpte]
  · intro v hv
    obtain ⟨hS2, hcont⟩ := hL.space _ (Set.notMem_empty _) hS
    have hloose : Keeps ∅ (g2.setFrame k .loose) s2 _ (s2.kfreed E k) := .kfree (by simp)
    rw [hdir p hp, ← hcont v hv, htk]
    exact ((hS2.loosen hk2).keeps hloose (Set.notMem_empty _)).2 v hv trivial

end

/-- After `setupkvm` the failure is one of the loop. -/
theorem ForkFails.leaks (h : ForkFails E s p t) (hI : Inv E g s) (hp : (s.proc p).live)
    (hn : fork E.stopAtNull p s ≠ .error .nullPte) (hlen : 11 ≤ s.freelist.length) :
    ¬ NoLeak s p t := by
  obtain ⟨np, s1, s2, ha, hc, hf⟩ := h
  obtain ⟨k, hA⟩ := allocproc_took hI.base ha
  have hr := hA.base.range k (by simp)
  rw [fork_abandons ha hc (by rw [hA.kstack]; exact hr.1) (by rw [hA.kstack]; exact hr.2)] at hf
  cases hf
  have hlen1 : s.freelist.length = s1.freelist.length + 1 := hA.freelist.length_eq
  have hp1 := hA.other p (hA.parent hp)
  have hdir : s1.dir p = s.dir p := by
    rw [Kernel.dir, hp1]
    rfl
  have hstop : copyuvm E.stopAtNull (s1.dir p) (s1.proc p).sz (s1.proc p).pid s1 =
      .ok (none, s2) := by
    rw [(copyuvm_agrees E _ _ _).eq_of_not_bad ?_, hc]
    intro e he hbad
    subst he
    apply hn
    rw [fork, bind_apply, show allocproc E.stopAtNull s = allocproc E s from rfl, ha]
    dsimp only
    rw [bind_apply, get_apply]
    dsimp only
    rw [bind_apply, show (s1.proc p).pgdir = s1.dir p from rfl, hbad]
  rw [hdir] at hstop
  obtain ⟨hS1, -⟩ := (hI.space p hp).keeps hA.keeps (Set.notMem_empty _)
  obtain ⟨m, g', hB', hsame, hS', hm, hspare, hks⟩ := copyuvm_drops rfl hA.base.stopAtNull hS1
    (by rw [hp1]; exact hI.size p hp) (by omega) hstop
  apply not_noLeak hA hp hB'.of_stopAtNull hsame hS' hm ?_ (hks k np (by simp))
  apply hspare.back
  · intro x hx
    exact .inl (hA.freelist.mem_iff.2 (List.mem_cons_of_mem _ hx))
  · intro v _ _
    left
    exact ((hI.space p hp).toTree.keeps hA.keeps (Set.notMem_empty _)).2.2 v

/-- With ten free frames one is for the kernel stack, and `setupkvm` fails on the others. -/
theorem ForkFails.noLeak (h : ForkFails E s p t) (hI : Inv E g s) (hp : (s.proc p).live)
    (hlen : s.freelist.length < 11) : NoLeak s p t := by
  obtain ⟨np, s1, s2, ha, hc, hf⟩ := h
  obtain ⟨k, hA⟩ := allocproc_took hI.base ha
  have hr := hA.base.range k (by simp)
  rw [fork_abandons ha hc (by rw [hA.kstack]; exact hr.1) (by rw [hA.kstack]; exact hr.2)] at hf
  cases hf
  have hlen1 : s.freelist.length = s1.freelist.length + 1 := hA.freelist.length_eq
  apply noLeak_of_setupkvm hI hp hA
  rw [copyuvm, bind_apply] at hc
  cases hset : setupkvm E s1 with
  | error e =>
    rw [hset] at hc
    cases hc
  | ok r =>
    obtain ⟨c, s'⟩ := r
    cases c with
    | none =>
      rw [hset] at hc
      cases hc
      rfl
    | some c =>
      have := setupkvm_some hA.base hset
      omega

/-- A fork that fails leaks nothing exactly when fewer than eleven frames are free at the call. -/
theorem failed_fork_noLeak_iff (hI : Inv E g s) (hp : (s.proc p).running)
    (hn : fork E.stopAtNull p s ≠ .error .nullPte) (h : ForkFails E s p t) :
    NoLeak s p t ↔ s.freelist.length < 11 := by
  constructor
  · intro hno
    by_contra hge
    exact h.leaks hI hp.live hn (by omega) hno
  · exact h.noLeak hI hp.live

/-! ### A leak -/

theorem allocproc_total (hu : ∃ q, (s.proc q).state = .UNUSED) (hf : s.freelist ≠ []) :
    ∃ np t, allocproc E s = .ok (some np, t) := by
  rw [allocproc, bind_apply, get_apply]
  dsimp only
  cases hq : findSlot fun q => (s.proc q).state = .UNUSED with
  | none =>
    obtain ⟨q, hq'⟩ := hu
    have := List.find?_eq_none.1 hq q (List.mem_finRange q)
    simp [hq'] at this
  | some q =>
    simp only [bind_apply, modify_apply]
    rcases kalloc_cases E { s.setProc q { s.proc q with state := .EMBRYO, pid := s.nextpid } with
      nextpid := s.nextpid + 1 } with ⟨h, -⟩ | ⟨k, l, -, hk⟩
    · exact absurd h hf
    · rw [hk]
      exact ⟨q, _, rfl⟩

/-- Without a free frame a page is not mapped where its table is missing. -/
theorem mappages_exhausted (hf : s.freelist = []) (ha : present (s.mem d (pdx v)) = false) :
    mappages E d (v * PGSIZE) PGSIZE m perm s = .ok (false, s) := by
  rw [mappages, one_page, pgrounddown_page, mappagesLoop, bind_apply, walkpgdir, bind_apply, get_apply]
  dsimp only
  rw [Kernel.lookup_page, if_neg (by simp [ha])]
  rcases kalloc_cases E s with ⟨-, hk⟩ | ⟨x, l, hp, -⟩
  · simp only [↓reduceIte, bind_apply, hk, pure_apply]
  · rw [hf] at hp
    exact absurd hp (by simp)

/-- The last frame goes to the copy of a page, and the page is not mapped. -/
theorem copyOut_last (hB : Base E g s) (hS : Space g s d Set.univ) (hC : Space g s c Set.univ)
    (hcd : c ≠ d) (ht : present (s.mem d (pdx v)) = true) (hno : present (s.mem c (pdx v)) = false)
    (hlen : s.freelist.length = 1) (pid : ℕ) :
    ∃ t, copyOut E d c pid v (s.ptr d v) s = .ok (false, t) := by
  obtain ⟨m, l, hperm, hk⟩ := kallocOrSwap_of_free (E := E) (d := d)
    (List.ne_nil_of_length_pos (show 0 < s.freelist.length by omega)) pid
  have hl : l = [] := by
    apply List.eq_nil_of_length_eq_zero
    have := hperm.length_eq
    rw [List.length_cons] at this
    omega
  have hsup := Supplied.of_free hB hS hperm
  have hm1 : (g.setFrame m .loose).frame m = .loose := Ghost.setFrame_self _ _ _
  set t1 : Kernel := { s with freelist := l } with ht1
  have hC1 := (hC.keeps hsup.keeps (by simpa using hcd)).1
  have hmem : (t1.setFrame m (t1.mem (PTE_ADDR (s.pte d v)))).mem c = s.mem c :=
    (hC1.toTree.keeps (.setFrame hm1 _) (Set.notMem_empty c)).2.1
  refine ⟨t1.setFrame m (t1.mem (PTE_ADDR (s.pte d v))), ?_⟩
  rw [copyOut, bind_apply, readPte, bind_apply, get_apply]
  simp only [pure_apply, Kernel.mem_ptr ht, bind_apply, hk, get_apply, setFrame, modify_apply]
  exact mappages_exhausted hl (by rw [hmem]; exact hno)

/-- With twelve frames left the kernel stack, the kernel half of the child and the copy of page 0
take all of them, and there is none for the page table of the child. -/
theorem fork_fails (hI : Inv E g s) (hp : (s.proc p).live) (hu : ∃ q, (s.proc q).state = .UNUSED)
    (hfree : s.freelist.length = 12) (hpres : present (s.pte (s.dir p) 0) = true)
    (hsz : 0 < (s.proc p).sz) :
    ∃ t, fork E.stopAtNull p s = .ok ((), t) ∧ ForkFails E s p t := by
  obtain ⟨np, s1, ha⟩ := allocproc_total (E := E) hu
    (List.ne_nil_of_length_pos (show 0 < s.freelist.length by omega))
  obtain ⟨k, hA⟩ := allocproc_took hI.base ha
  have hp1 := hA.other p (hA.parent hp)
  have hdir : s1.dir p = s.dir p := by
    rw [Kernel.dir, hp1]
    rfl
  obtain ⟨hS1, -⟩ := (hI.space p hp).keeps hA.keeps (Set.notMem_empty _)
  have hpte1 := ((hI.space p hp).toTree.keeps hA.keeps (Set.notMem_empty _)).2.2
  have hlen1 : s1.freelist.length = 11 := by
    have := hA.freelist.length_eq
    rw [hfree, List.length_cons] at this
    omega
  obtain ⟨c, g2, s2, hset, hN, hlen2⟩ := setupkvm_total hA.base.stopAtNull (by omega)
  obtain ⟨hcd, hS2, hpte2, -⟩ := hN.copying hS1
  have hp2 : present (s2.pte (s.dir p) 0) = true := by
    rw [hpte2, hpte1]
    exact hpres
  have hns := (hS2.entry 0 (by decide) trivial).only hp2
  have ht := present_table_of_entry hp2
  obtain ⟨s3, hout⟩ := copyOut_last hN.base hS2 hN.space hcd ht (hN.low _ (by decide))
    (show s2.freelist.length = 1 by omega) (s1.proc p).pid
  obtain ⟨m, g3, hd⟩ := (copyOut_spare rfl hN.base hS2 hN.space hcd (by decide) ht _ _ _ hout).2 rfl
  obtain ⟨s4, hfreevm, -⟩ :=
    freevm_release (hd.child.owns hd.base le_rfl) fun f hf => hd.child.range hd.base hf
  have hnpages : ∃ n, npages (s1.proc p).sz = n + 1 := by
    apply Nat.exists_eq_succ_of_ne_zero
    rw [hp1]
    simp only [npages, PGSIZE]
    omega
  obtain ⟨n, hn⟩ := hnpages
  have hc : copyuvm E.stopAtNull (s1.dir p) (s1.proc p).sz (s1.proc p).pid s1 = .ok (none, s4) := by
    rw [copyuvm, bind_apply, hset, hdir, hn]
    simp only [copyuvmLoop, bind_apply, copyBring_present hp2 hns, hout, Bool.false_eq_true,
      ↓reduceIte, pure_apply, hfreevm]
  have hc' : copyuvm E (s1.dir p) (s1.proc p).sz (s1.proc p).pid s1 = .ok (none, s4) := by
    rw [← (copyuvm_agrees E _ _ _).eq_of_not_bad fun e he => by rw [hc]; simp, hc]
  have hr := hA.base.range k (by simp)
  have h1 : E.kend ≤ (s1.proc np).kstack := by
    rw [hA.kstack]
    exact hr.1
  have h2 : (s1.proc np).kstack < NFRAMES := by
    rw [hA.kstack]
    exact hr.2
  exact ⟨s4.abandon E s1 np, fork_abandons (E := E.stopAtNull) ha hc h1 h2, np, s1, s4, ha, hc',
    fork_abandons ha hc' h1 h2⟩

/-- The first process after boot, with twelve frames left. -/
theorem exists_twelve_left : ∃ g s₀ s, boot demo (fun _ => 0#32)
    (demo.powerOn (fun _ _ => 0#32) fun _ _ => 0#32) = .ok ((), s₀) ∧
      Run (Step demo) (fun s op => op.InSize s ∧ op.Permitted s) s₀ s ∧ Inv demo g s ∧
      (s.proc 0).running ∧ s.freelist.length = 12 ∧
      ∃ t, fork demo.stopAtNull 0 s = .ok ((), t) ∧ ForkFails demo s 0 t := by
  obtain ⟨g, s₀, d, hb, h⟩ := boot_total demo (fun _ => 0#32) (fun _ _ => 0#32) fun _ _ => 0#32
  obtain ⟨g', l, hrun, hI, hl⟩ := h.drained_to (n := 12) (by
    have hfree := h.free
    have hkend : demo.kend = 300 := rfl
    have hframes : NFRAMES = 1024 := by decide
    omega)
  refine ⟨g', s₀, _, hb, hrun, hI, h.grown_running, hl, ?_⟩
  apply fork_fails hI h.grown_running.live ⟨1, ?_⟩ hl
  · rw [show Kernel.dir { s₀.grown 0x800000 with freelist := l } 0 = d from h.grown_dir]
    exact h.present
  · rw [show Kernel.proc { s₀.grown 0x800000 with freelist := l } 0 = (s₀.grown 0x800000).proc 0
      from rfl, Booted.grown_sz]
    norm_num
  · exact h.unused 1 (by decide)

theorem failed_fork_noLeak_twelve : ∃ s₀ s t, boot demo (fun _ => 0#32)
    (demo.powerOn (fun _ _ => 0#32) fun _ _ => 0#32) = .ok ((), s₀) ∧
      Run (Step demo) (fun s op => op.InSize s ∧ op.Permitted s) s₀ s ∧ ForkFails demo s 0 t ∧
      (NoLeak s 0 t ↔ s.freelist.length < 11) := by
  obtain ⟨g, s₀, s, hb, hrun, hI, hp, -, t, hstop, hf⟩ := exists_twelve_left
  refine ⟨s₀, s, t, hb, hrun, hf, failed_fork_noLeak_iff hI hp ?_ hf⟩
  rw [hstop]
  simp

/-- The frame for the copy of page 0 is lost. -/
theorem failed_fork_leaks : ∃ s₀ s t, boot demo (fun _ => 0#32)
    (demo.powerOn (fun _ _ => 0#32) fun _ _ => 0#32) = .ok ((), s₀) ∧
      Run (Step demo) (fun s op => op.InSize s ∧ op.Permitted s) s₀ s ∧
      s.freelist.length = 12 ∧ ForkFails demo s 0 t ∧ ¬ NoLeak s 0 t := by
  obtain ⟨g, s₀, s, hb, hrun, hI, hp, hlen, t, hstop, hf⟩ := exists_twelve_left
  refine ⟨s₀, s, t, hb, hrun, hlen, hf, hf.leaks hI hp.live ?_ (by omega)⟩
  rw [hstop]
  simp

end Xv6Lab.Paging
