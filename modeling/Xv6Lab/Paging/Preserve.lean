import Xv6Lab.Paging.Access

/-! Every completed operation keeps the invariant of the paging kernel, as long as
it follows no null entry pointer and does not map over the kernel half. -/

namespace Xv6Lab.Paging

open Lib

variable {E : Env} {g g' g1 : Ghost} {s t t1 u : Kernel} {p q : Slot} {d v k : ℕ} {D : Set ℕ} {A : Set Slot}

theorem Inv.stopAtNull (h : Inv E g s) : Inv E.stopAtNull g s :=
  ⟨h.base.stopAtNull, h.space, h.kstack, h.inj, h.size, h.embryo, h.ktree, h.kdir, h.kentry, h.count⟩

theorem Inv.of_stopAtNull (h : Inv E.stopAtNull g s) : Inv E g s :=
  ⟨h.base.of_stopAtNull, h.space, h.kstack, h.inj, h.size, h.embryo, h.ktree, h.kdir, h.kentry,
    h.count⟩

/-! ### Counting over the slots -/

/-- The swapped pages of slot `p`. -/
def Kernel.swappedOf (s : Kernel) (p : Slot) : ℤ :=
  if (s.proc p).live then (s.nswapped (s.dir p) : ℤ) else 0

theorem swappedOf_live (h : (s.proc p).live) : s.swappedOf p = s.nswapped (s.dir p) := if_pos h

theorem swappedOf_not_live (h : ¬ (s.proc p).live) : s.swappedOf p = 0 := if_neg h

/-- A sum over the slots moves by what one slot moves by. -/
theorem sum_slot_change {F F' : Slot → ℤ} (p : Slot) (h : ∀ q, q ≠ p → F' q = F q) :
    ∑ q, F' q = ∑ q, F q + (F' p - F p) := by
  rw [← Finset.add_sum_erase _ F' (Finset.mem_univ p), ← Finset.add_sum_erase _ F (Finset.mem_univ p),
    Finset.sum_congr rfl fun q hq => h q (Finset.ne_of_mem_erase hq)]
  ring

/-! ### What an operation leaves to the other slots -/

/-- Changes that touch neither memory nor the disk. -/
theorem Keeps.of_same (hm : t.mem = s.mem) (hb : t.block = s.block) : Keeps ∅ g s g t :=
  ⟨fun _ _ => rfl, fun f _ => by rw [hm], fun _ _ => rfl, fun b _ => by rw [hb]⟩

/-- Two states with the same memory have the same page tables. -/
theorem Space.of_mem (hS : Space g s d Set.univ) (h : t.mem = s.mem) : Space g t d Set.univ := by
  have hpte : ∀ v, t.pte d v = s.pte d v := fun v => by simp only [Kernel.pte, h]
  exact ⟨⟨hS.dir, fun i hi => by rw [h] at hi ⊢; exact hS.tab i hi⟩, fun v hv hV => by
    rw [hpte]; exact hS.entry v hv hV, fun v hv hlt => by rw [hpte]; exact hS.kern v hv hlt⟩

/-- The slot `x` has the address space of `y`. -/
structure Proc.Like (x y : Proc) : Prop where
  state : x.state = y.state
  pgdir : x.pgdir = y.pgdir
  kstack : x.kstack = y.kstack
  sz : x.sz = y.sz

theorem Proc.Like.refl (x : Proc) : x.Like x := ⟨rfl, rfl, rfl, rfl⟩

theorem Proc.Like.trans {x y z : Proc} (h : x.Like y) (h' : y.Like z) : x.Like z :=
  ⟨h.state.trans h'.state, h.pgdir.trans h'.pgdir, h.kstack.trans h'.kstack, h.sz.trans h'.sz⟩

theorem Proc.Like.live {x y : Proc} (h : x.Like y) : x.live ↔ y.live := by
  rw [Proc.live, Proc.live, h.state]

/-- All slots but `p`, and the kernel, keep their address spaces. -/
structure Others (p : Slot) (s : Kernel) (g' : Ghost) (t : Kernel) : Prop where
  kpgdir : t.kpgdir = s.kpgdir
  like : ∀ q, q ≠ p → (t.proc q).Like (s.proc q)
  space : ∀ q, q ≠ p → (s.proc q).live → Space g' t (s.dir q) Set.univ
  pte : ∀ q, q ≠ p → (s.proc q).live → ∀ v, t.pte (s.dir q) v = s.pte (s.dir q) v
  content : ∀ q, q ≠ p → (s.proc q).live → ∀ v < UVPN, t.content (s.dir q) v = s.content (s.dir q) v
  kstack : ∀ q, q ≠ p → (s.proc q).live → g'.frame (s.proc q).kstack = .kstack q
  ktree : Tree g' t s.kpgdir
  kpte : ∀ v, t.pte s.kpgdir v = s.pte s.kpgdir v

namespace Others

theorem refl (hI : Inv E g s) (p : Slot) : Others p s g s :=
  ⟨rfl, fun _ _ => .refl _, fun q _ => hI.space q, fun _ _ _ _ => rfl, fun _ _ _ _ _ => rfl,
    fun q _ => hI.kstack q, hI.ktree, fun _ => rfl⟩

/-- Memory changes that leave the address spaces of the other slots. -/
theorem leaves (h : Others p s g1 t1) (hL : Leaves D g1 t1 g' t) (hk : s.kpgdir ∉ D)
    (hD : ∀ q, q ≠ p → (s.proc q).live → s.dir q ∉ D) (hkp : t.kpgdir = t1.kpgdir)
    (hproc : ∀ q, q ≠ p → (t.proc q).Like (t1.proc q)) : Others p s g' t where
  kpgdir := hkp.trans h.kpgdir
  like q hq := (hproc q hq).trans (h.like q hq)
  space q hq hl := (hL.space _ (hD q hq hl) (h.space q hq hl)).1
  pte q hq hl v := by
    rw [(hL.tree _ (hD q hq hl) (h.space q hq hl).toTree).2.2, h.pte q hq hl]
  content q hq hl v hv := by
    rw [(hL.space _ (hD q hq hl) (h.space q hq hl)).2 v hv, h.content q hq hl v hv]
  kstack q hq hl := hL.kstack _ q (h.kstack q hq hl)
  ktree := (hL.tree _ hk h.ktree).1
  kpte v := by rw [(hL.tree _ hk h.ktree).2.2, h.kpte]

/-- Changes that touch neither memory nor the disk. -/
theorem same (h : Others p s g1 t1) (hm : t.mem = t1.mem) (hb : t.block = t1.block)
    (hk : t.kpgdir = t1.kpgdir) (hproc : ∀ q, q ≠ p → (t.proc q).Like (t1.proc q)) :
    Others p s g1 t :=
  h.leaves (Keeps.of_same hm hb).leaves (Set.notMem_empty _) (fun _ _ _ => Set.notMem_empty _) hk hproc

end Others

/-- The frame of a kernel stack that nobody runs on. -/
theorem Space.loosen (hS : Space g s d Set.univ) (hk : g.frame k = .kstack p) :
    Space (g.setFrame k .loose) s d Set.univ := by
  have hne : ∀ x, (∀ q, g.frame x ≠ .kstack q) → (g.setFrame k .loose).frame x = g.frame x :=
    fun x hx => g.setFrame_of_ne _ (by rintro rfl; exact hx p hk)
  refine ⟨⟨by rw [hne d (by rw [hS.dir]; simp), hS.dir], fun i hi => ?_⟩, fun v hv _ => ?_, hS.kern⟩
  · rw [hne _ (by rw [hS.tab i hi]; simp), hS.tab i hi]
  · have hE := hS.entry v hv trivial
    exact ⟨fun hp => by rw [hne _ (by rw [hE.frame hp]; simp), hE.frame hp], hE.only, hE.write,
      hE.block⟩

theorem Others.loosen (h : Others p s g1 t1) (hk : g1.frame k = .kstack p) :
    Others p s (g1.setFrame k .loose) t1 where
  kpgdir := h.kpgdir
  like := h.like
  space q hq hl := (h.space q hq hl).loosen hk
  pte := h.pte
  content := h.content
  kstack q hq hl := by
    have e := h.kstack q hq hl
    rw [g1.setFrame_of_ne _ (by rintro rfl; rw [hk] at e; cases e; exact hq rfl), e]
  ktree := by
    have hne : ∀ x, (∀ q, g1.frame x ≠ .kstack q) →
        (g1.setFrame k .loose).frame x = g1.frame x :=
      fun x hx => g1.setFrame_of_ne _ (by rintro rfl; exact hx p hk)
    exact ⟨by rw [hne _ (by rw [h.ktree.dir]; simp), h.ktree.dir], fun i hi => by
      rw [hne _ (by rw [h.ktree.tab i hi]; simp), h.ktree.tab i hi]⟩
  kpte := h.kpte

/-- `kfree` of a loose frame. -/
theorem Keeps.kfree (hk : g.frame k = .loose) :
    Keeps ∅ g s (g.setFrame k .free) (s.kfreed E k) := by
  have hne : ∀ x, (g.frame x).Stays ∅ → x ≠ k := by
    rintro x hx rfl
    rw [hk] at hx
    exact hx
  exact ⟨fun x hx => g.setFrame_of_ne _ (hne x hx), fun x hx => by simp [Kernel.kfreed, hne x hx],
    fun _ _ => rfl, fun _ _ => rfl⟩

/-- What slot `p` owns. -/
structure Home (g : Ghost) (s : Kernel) (p : Slot) : Prop where
  space : Space g s (s.dir p) Set.univ
  kstack : g.frame (s.proc p).kstack = .kstack p
  size : (s.proc p).sz ≤ KERNBASE

/-- The invariant after an operation on slot `p`. -/
theorem Others.inv (h : Others p s g' t) (hI : Inv E g s) (hB : Base E g' t)
    (hem : (t.proc p).state ≠ .EMBRYO) (hp : (t.proc p).live → Home g' t p)
    (hk : (t.proc p).live → t.dir p ≠ s.kpgdir)
    (hd : (t.proc p).live → ∀ q, q ≠ p → (s.proc q).live → s.dir q ≠ t.dir p)
    (hn : t.numallocblocks - t.swappedOf p = s.numallocblocks - s.swappedOf p) : Inv E g' t := by
  have hlive : ∀ q, q ≠ p → ((t.proc q).live ↔ (s.proc q).live) := fun q hq => (h.like q hq).live
  have hdir : ∀ q, q ≠ p → t.dir q = s.dir q := fun q hq => (h.like q hq).pgdir
  refine ⟨hB, fun q hq => ?_, fun q hq => ?_, fun q r hq hr he => ?_, fun q hq => ?_, fun q => ?_,
    ?_, fun q hq => ?_, fun v hv => ?_, ?_⟩
  · by_cases hqp : q = p
    · subst hqp
      exact (hp hq).space
    · rw [hdir q hqp]
      exact h.space q hqp ((hlive q hqp).1 hq)
  · by_cases hqp : q = p
    · subst hqp
      exact (hp hq).kstack
    · rw [(h.like q hqp).kstack]
      exact h.kstack q hqp ((hlive q hqp).1 hq)
  · by_cases hqp : q = p <;> by_cases hrp : r = p
    · rw [hqp, hrp]
    · subst hqp
      rw [hdir r hrp] at he
      exact absurd he.symm (hd hq r hrp ((hlive r hrp).1 hr))
    · subst hrp
      rw [hdir q hqp] at he
      exact absurd he (hd hr q hqp ((hlive q hqp).1 hq))
    · rw [hdir q hqp, hdir r hrp] at he
      exact hI.inj q r ((hlive q hqp).1 hq) ((hlive r hrp).1 hr) he
  · by_cases hqp : q = p
    · subst hqp
      exact (hp hq).size
    · rw [(h.like q hqp).sz]
      exact hI.size q ((hlive q hqp).1 hq)
  · by_cases hqp : q = p
    · subst hqp
      exact hem
    · rw [(h.like q hqp).state]
      exact hI.embryo q
  · rw [h.kpgdir]
    exact h.ktree
  · rw [h.kpgdir]
    by_cases hqp : q = p
    · subst hqp
      exact hk hq
    · rw [hdir q hqp]
      exact hI.kdir q ((hlive q hqp).1 hq)
  · rw [h.kpgdir, h.kpte]
    exact hI.kentry v hv
  · have hoth : ∀ q, q ≠ p → t.swappedOf q = s.swappedOf q := by
      intro q hqp
      by_cases hq : (s.proc q).live
      · have hns : t.nswapped (s.dir q) = s.nswapped (s.dir q) :=
          nswapped_congr fun v _ => by rw [h.pte q hqp hq]
        rw [swappedOf_live hq, swappedOf_live ((hlive q hqp).2 hq), hdir q hqp, hns]
      · rw [swappedOf_not_live hq, swappedOf_not_live fun hl => hq ((hlive q hqp).1 hl)]
    have hc : s.numallocblocks = ∑ q, s.swappedOf q := hI.count
    change t.numallocblocks = ∑ q, t.swappedOf q
    rw [sum_slot_change p hoth, ← hc]
    omega

/-! ### One operation -/

/-- Process `p` keeps its address space, with what it holds. -/
structure Kept (p : Slot) (s t : Kernel) : Prop where
  state : (t.proc p).state = (s.proc p).state
  dir : t.dir p = s.dir p
  sz : (s.proc p).sz ≤ (t.proc p).sz
  content : ∀ v < UVPN, t.content (s.dir p) v = s.content (s.dir p) v
  guard : ∀ v < UVPN, present (t.pte (s.dir p) v) = true → user (t.pte (s.dir p) v) = false →
    t.pte (s.dir p) v = s.pte (s.dir p) v

/-- The invariant is kept, and so is every running process but those in `A`. -/
structure Goes (E : Env) (A : Set Slot) (s : Kernel) (g' : Ghost) (t : Kernel) : Prop where
  inv : Inv E g' t
  kept : ∀ q, q ∉ A → (s.proc q).running → Kept q s t

theorem Kept.refl (p : Slot) (s : Kernel) : Kept p s s :=
  ⟨rfl, rfl, le_rfl, fun _ _ => rfl, fun _ _ _ _ => rfl⟩

theorem Kept.trans (h : Kept p s t) (h' : Kept p t u) : Kept p s u where
  state := h'.state.trans h.state
  dir := h'.dir.trans h.dir
  sz := h.sz.trans h'.sz
  content v hv := by rw [← h.dir, h'.content v hv, h.dir, h.content v hv]
  guard v hv hp hu := by
    rw [← h.dir] at hp hu
    have e := h'.guard v hv hp hu
    rw [e, h.dir] at hp hu
    rw [← h.dir, e, h.dir, h.guard v hv hp hu]

theorem Kept.running (h : Kept p s t) (hr : (s.proc p).running) : (t.proc p).running := by
  rw [Proc.running, h.state]
  exact hr

theorem Goes.refl (hI : Inv E g s) : Goes E ∅ s g s := ⟨hI, fun q _ _ => .refl q s⟩

theorem Goes.trans (h : Goes E A s g' t) (h' : Goes E A t g1 u) : Goes E A s g1 u :=
  ⟨h'.inv, fun q hq hr => (h.kept q hq hr).trans (h'.kept q hq ((h.kept q hq hr).running hr))⟩

theorem Others.kept (h : Others p s g' t) (hq : q ≠ p) (hr : (s.proc q).running) : Kept q s t where
  state := (h.like q hq).state
  dir := (h.like q hq).pgdir
  sz := (h.like q hq).sz.ge
  content := h.content q hq hr.live
  guard v _ _ _ := h.pte q hq hr.live v

theorem Others.goes (h : Others p s g' t) (hI : Inv E g' t) : Goes E {p} s g' t :=
  ⟨hI, fun _ hq hr => h.kept hq hr⟩

theorem Goes.mono {A' : Set Slot} (h : Goes E A s g' t)
    (hA : ∀ q ∈ A, (s.proc q).running → q ∈ A') : Goes E A' s g' t :=
  ⟨h.inv, fun q hq hr => h.kept q (fun hqA => hq (hA q hqA hr)) hr⟩

/-- What happens inside the address space of `p`. -/
theorem Inv.touches (hI : Inv E g s) (hp : (s.proc p).live) (h : Touches E g s (s.dir p) v g' t) :
    Goes E {p} s g' t := by
  have hproc := h.proc.proc
  have hdir : t.dir p = s.dir p := by rw [Kernel.dir, Kernel.dir, hproc]
  have hne : ∀ q, q ≠ p → (s.proc q).live → s.dir q ≠ s.dir p :=
    fun q hqp hq he => hqp (hI.inj q p hq hp he)
  have hO : Others p s g' t := (Others.refl hI p).leaves h.leaves
    (by simpa using (hI.kdir p hp).symm) (by simpa using hne) h.proc.kpgdir
    fun q _ => by rw [hproc]; exact .refl _
  refine hO.goes (hO.inv hI h.base ?_ (fun _ => ⟨?_, ?_, ?_⟩) (fun _ => ?_) (fun _ => ?_) ?_)
  · rw [hproc]
    exact hI.embryo p
  · rw [hdir]
    exact h.space
  · rw [hproc]
    exact h.leaves.kstack _ p (hI.kstack p hp)
  · rw [hproc]
    exact hI.size p hp
  · rw [hdir]
    exact hI.kdir p hp
  · rwa [hdir]
  · rw [swappedOf_live hp, swappedOf_live (by rwa [hproc]), hdir]
    exact h.balance

theorem Lives.kept (h : Lives E g s (s.dir p) g' t) : Kept p s t where
  state := by rw [h.proc.proc]
  dir := by rw [Kernel.dir, Kernel.dir, h.proc.proc]
  sz := by rw [h.proc.proc]
  content := h.content
  guard := h.guard

theorem Inv.lives (hI : Inv E g s) (hp : (s.proc p).live) (h : Lives E g s (s.dir p) g' t) :
    Goes E ∅ s g' t := by
  have hG := hI.touches hp (h.touches 0)
  refine ⟨hG.inv, fun q _ hr => ?_⟩
  by_cases hqp : q = p
  · subst hqp
    exact h.kept
  · exact hG.kept q hqp hr

/-- What the file layer does. -/
theorem Inv.fileStep (hI : Inv E g s) (h : FileStep E g s g' t) :
    Goes E ∅ s g' t ∧ ∀ p, Others p s g' t := by
  have hproc := h.mem.proc
  have hO : ∀ p, Others p s g' t := fun p => (Others.refl hI p).leaves h.keeps.leaves
    (Set.notMem_empty _) (fun _ _ _ => Set.notMem_empty _) h.mem.kpgdir
    fun q _ => by rw [hproc]; exact .refl _
  have hdir : ∀ q, t.dir q = s.dir q := fun q => by rw [Kernel.dir, Kernel.dir, hproc]
  have hlv : ∀ q, (s.proc q).live → Lives E g s (s.dir q) g' t := fun q hq => h.lives (hI.space q hq)
  refine ⟨⟨(hO 0).inv hI h.base ?_ (fun hl => ⟨?_, ?_, ?_⟩) (fun hl => ?_) (fun hl => ?_) ?_,
    fun q _ hr => (hlv q hr.live).kept⟩, hO⟩
  · rw [hproc]
    exact hI.embryo 0
  · rw [hproc] at hl
    rw [hdir]
    exact (hlv 0 hl).space
  · rw [hproc] at hl ⊢
    exact h.keeps.leaves.kstack _ 0 (hI.kstack 0 hl)
  · rw [hproc] at hl ⊢
    exact hI.size 0 hl
  · rw [hproc] at hl
    rw [hdir]
    exact hI.kdir 0 hl
  · rw [hproc] at hl
    rw [hdir]
    exact fun q hq0 hq he => hq0 (hI.inj q 0 hq hl he)
  · have hns : t.nswapped (s.dir 0) = s.nswapped (s.dir 0) :=
      nswapped_congr fun v _ => by rw [h.mem.pte]
    rw [Kernel.swappedOf, Kernel.swappedOf, hproc, hdir, hns, h.count]

theorem growproc_goes (hI : Inv E g s) (hp : (s.proc p).running) (n : ℤ) :
    wp (growproc p n) (fun _ t => Goes E ∅ s g t) s := by
  rw [growproc, wp_bind, wp_get]
  dsimp only
  split_ifs with hn
  · rw [wp_pure]
    exact .refl hI
  rw [wp_modify]
  set x : Proc := { s.proc p with sz := (s.proc p).sz + n.toNat } with hx
  have hself : (s.setProc p x).proc p = x := by simp
  have hdir : (s.setProc p x).dir p = s.dir p := by rw [Kernel.dir, hself, hx, Kernel.dir]
  have hO : Others p s g (s.setProc p x) := (Others.refl hI p).same rfl rfl rfl
    fun q hq => by rw [Kernel.setProc_proc, Function.update_of_ne hq]; exact .refl _
  have hl := hp.live
  have hinv : Inv E g (s.setProc p x) := by
    refine hO.inv hI (hI.base.congr_mem rfl rfl rfl) ?_ (fun _ => ⟨?_, ?_, ?_⟩) (fun _ => ?_)
      (fun _ => ?_) ?_
    · rw [hself]
      exact hI.embryo p
    · rw [hdir]
      exact (hI.space p hl).of_mem rfl
    · rw [hself]
      exact hI.kstack p hl
    · rw [hself, hx]
      have := hI.size p hl
      simp only
      omega
    · rw [hdir]
      exact hI.kdir p hl
    · rw [hdir]
      exact fun q hqp hq he => hqp (hI.inj q p hq hl he)
    · rw [swappedOf_live hl, swappedOf_live (by rw [hself]; exact hl), hdir]
      rfl
  refine ⟨hinv, fun q _ hr => ?_⟩
  by_cases hqp : q = p
  · subst hqp
    exact ⟨by rw [hself], hdir, by rw [hself, hx]; simp, fun _ _ => rfl, fun _ _ _ _ => rfl⟩
  · exact hO.kept hqp hr

/-- A process that has a new address space. -/
theorem Execed.goes {n sz : ℕ} (h : Execed E g s p n sz g' t) (hI : Inv E g s)
    (hp : (s.proc p).running) : Goes E {p} s g' t := by
  have hl := hp.live
  have hself : t.proc p = { s.proc p with pgdir := n, sz := sz } := by
    rw [h.proc, Function.update_self]
  have hdir : t.dir p = n := by rw [Kernel.dir, hself]
  have hne : ∀ x e, g.frame x = .dir e → x ≠ n := by
    rintro x e hx rfl
    rw [h.old] at hx
    cases hx
  have hO : Others p s g' t := (Others.refl hI p).leaves h.leaves
    (by simpa using (hI.kdir p hl).symm)
    (fun q hqp hq => by simpa using fun he => hqp (hI.inj q p hq hl he)) h.kpgdir
    fun q hq => by rw [h.proc, Function.update_of_ne hq]; exact .refl _
  refine hO.goes (hO.inv hI h.base ?_ (fun _ => ⟨?_, ?_, ?_⟩) (fun _ => ?_) (fun _ => ?_) ?_)
  · rw [hself]
    exact hI.embryo p
  · rw [hdir]
    exact h.space
  · rw [hself]
    exact h.leaves.kstack _ p (hI.kstack p hl)
  · rw [hself]
    exact h.loaded.le
  · rw [hdir]
    exact (hne _ _ hI.ktree.dir).symm
  · rw [hdir]
    exact fun q _ hq => hne _ _ (hI.space q hq).dir
  · rw [swappedOf_live hl, swappedOf_live (by rw [hself]; exact hl), hdir, h.noswap, h.count]
    simp

theorem exec_goes (hst : E.strict = true) (hI : Inv E g s) (hp : (s.proc p).running) (ip : Image)
    (argv : List ℕ) : wp (exec E p ip argv) (fun _ t => ∃ g', Goes E {p} s g' t) s := by
  refine wp_mono (exec_spec hst hI.base (hI.space p hp.live) (hI.size p hp.live)) ?_
  rintro - t (⟨g', h⟩ | ⟨n, sz, g', h⟩)
  · exact ⟨g', (hI.lives hp.live h).mono fun _ h => absurd h (Set.notMem_empty _)⟩
  · exact ⟨g', h.goes hI hp⟩

theorem exit_goes (hI : Inv E g s) (hp : (s.proc p).running) :
    wp (exit E p) (fun _ t => ∃ g', Goes E {p} s g' t) s := by
  rw [exit, wp_bind, wp_get]
  split_ifs with h0
  · simp
  rw [wp_bind]
  refine wp_mono (fileLayer_spec hI.base _) ?_
  rintro - t1 ⟨g', h1⟩
  rw [wp_modify]
  obtain ⟨hG, hO⟩ := hI.fileStep h1
  have hI1 := hG.inv
  have hl1 : (t1.proc p).live := by rw [h1.mem.proc]; exact hp.live
  set f : Slot → Proc := fun q =>
    let x := t1.proc q
    let x := if x.parent = some p then { x with parent := some t1.initproc } else x
    if q = p then { x with state := .ZOMBIE } else x with hf
  have hfq : ∀ q, (f q).pgdir = (t1.proc q).pgdir ∧ (f q).kstack = (t1.proc q).kstack ∧
      (f q).sz = (t1.proc q).sz ∧ (q ≠ p → (f q).state = (t1.proc q).state) := by
    intro q
    simp only [hf]
    split_ifs <;> simp_all
  have hz : (f p).state = .ZOMBIE := by simp [hf]
  have hdir : Kernel.dir { t1 with proc := f } p = t1.dir p := (hfq p).1
  have hO1 : Others p t1 g' { t1 with proc := f } := (Others.refl hI1 p).same rfl rfl rfl fun q hq =>
    ⟨(hfq q).2.2.2 hq, (hfq q).1, (hfq q).2.1, (hfq q).2.2.1⟩
  have hG1 := hO1.goes (hO1.inv hI1 (hI1.base.congr_mem rfl rfl rfl) (by simp [hz])
    (fun _ => ⟨by rw [hdir]; exact (hI1.space p hl1).of_mem rfl, by
      rw [(hfq p).2.1]; exact hI1.kstack p hl1, by
      rw [(hfq p).2.2.1]; exact hI1.size p hl1⟩)
    (fun _ => by rw [hdir]; exact hI1.kdir p hl1)
    (fun _ => by rw [hdir]; exact fun q hqp hq he => hqp (hI1.inj q p hq hl1 he))
    (by
      have hl2 : ((Kernel.mk t1.mem t1.freelist t1.bit t1.block t1.numallocblocks t1.files t1.kpgdir f
          t1.nextpid t1.initproc).proc p).live := by
        rw [Proc.live, hz]; simp
      rw [swappedOf_live hl1, swappedOf_live hl2, hdir]
      rfl))
  exact ⟨g', (hG.mono fun _ h => absurd h (Set.notMem_empty _)).trans hG1⟩

theorem findSlot_some {f : Slot → Bool} (h : findSlot f = some p) : f p = true := List.find?_some h

/-- `kfree` of the stack of slot `p`. -/
theorem Others.kfree (h : Others p s g1 t1) (hk : g1.frame k = .kstack p) :
    Others p s (g1.setFrame k .free) (t1.kfreed E k) := by
  have hg : (g1.setFrame k .loose).setFrame k .free = g1.setFrame k .free := by simp [Ghost.setFrame]
  rw [← hg]
  exact (h.loosen hk).leaves (Keeps.kfree (by simp)).leaves (Set.notMem_empty _)
    (fun _ _ _ => Set.notMem_empty _) rfl fun _ _ => .refl _

theorem Space.kfree (hS : Space g s d Set.univ) (hk : g.frame k = .kstack p) :
    Space (g.setFrame k .free) (s.kfreed E k) d Set.univ ∧
      ∀ v, (s.kfreed E k).pte d v = s.pte d v := by
  have hg : (g.setFrame k .loose).setFrame k .free = g.setFrame k .free := by simp [Ghost.setFrame]
  have hK : Keeps ∅ (g.setFrame k .loose) s _ (s.kfreed E k) := .kfree (by simp)
  rw [hg] at hK
  exact ⟨((hS.loosen hk).keeps hK (Set.notMem_empty d)).1,
    ((hS.loosen hk).toTree.keeps hK (Set.notMem_empty d)).2.2⟩

theorem wait_goes (hI : Inv E g s) : wp (wait E p) (fun _ t => ∃ g', Goes E ∅ s g' t) s := by
  rw [wait, wp_bind, wp_get]
  cases hq : findSlot fun q => (s.proc q).parent = some p ∧ (s.proc q).state = .ZOMBIE with
  | none =>
    rw [wp_pure]
    exact ⟨g, .refl hI⟩
  | some q =>
  have hz : (s.proc q).state = .ZOMBIE := by
    have := findSlot_some hq
    simp only [decide_eq_true_eq] at this
    exact this.2
  have hl : (s.proc q).live := by rw [Proc.live, hz]; simp
  have hk := hI.kstack q hl
  obtain ⟨happ, hB1⟩ := hI.base.kfree (f := (s.proc q).kstack) (by rw [hk]; simp) (by rw [hk]; simp)
  simp only [wp_bind]
  refine wp_of_eq happ ?_
  rw [wp_modify]
  set s1 := s.kfreed E (s.proc q).kstack with hs1
  set x : Proc := { s1.proc q with
    kstack := 0, pgdir := 0, pid := 0, parent := none, state := .UNUSED } with hx
  have hself : (s1.setProc q x).proc q = x := by simp
  obtain ⟨hS1, hpte1⟩ := (hI.space q hl).kfree (E := E) hk
  have hO1 : Others q s (g.setFrame (s.proc q).kstack .free) (s1.setProc q x) :=
    ((Others.refl hI q).kfree hk).same rfl rfl rfl fun r hr => by
      rw [Kernel.setProc_proc, Function.update_of_ne hr]; exact .refl _
  refine wp_mono (freevm_spec (s := s1.setProc q x) (d := s.dir q) (hB1.congr_mem rfl rfl rfl)
    (hS1.of_mem rfl)) ?_
  rintro - t ⟨g', h⟩
  have hO : Others q s g' t := hO1.leaves h.keeps.leaves (by simpa using (hI.kdir q hl).symm)
    (fun r hrq hr => by simpa using fun he => hrq (hI.inj r q hr hl he)) h.proc.kpgdir
    fun r _ => by rw [h.proc.proc]; exact .refl _
  have hun : (t.proc q).state = .UNUSED := by rw [h.proc.proc, hself]
  have hdead : ¬ (t.proc q).live := by rw [Proc.live, hun]; simp
  refine ⟨g', (hO.goes (hO.inv hI h.base (by rw [hun]; simp) (fun h => absurd h hdead)
    (fun h => absurd h hdead) (fun h => absurd h hdead) ?_)).mono ?_⟩
  · have hns : (s1.setProc q x).nswapped (s.dir q) = s.nswapped (s.dir q) :=
      nswapped_congr fun v _ => by
        rw [← hpte1]
        rfl
    rw [swappedOf_live hl, swappedOf_not_live hdead, h.count, hns]
    simp [hs1, Kernel.kfreed]
  · rintro r rfl hr
    exact absurd hz hr.2.2

/-! ### `fork` -/

/-- The state with the process table of `s`: while `fork` runs, the new slot is
not counted. -/
def Kernel.withProcs (t s : Kernel) : Kernel := { t with proc := s.proc }

theorem Lives.withProcs (h : Lives E g s d g' t) (r : Kernel) :
    Lives E g (s.withProcs r) d g' (t.withProcs r) where
  base := h.base.congr_mem rfl rfl rfl
  proc := ⟨rfl, h.proc.kpgdir, h.proc.initproc, h.proc.nextpid⟩
  leaves := by
    have h1 : Leaves ∅ g (s.withProcs r) g s :=
      (Keeps.of_same (s := s.withProcs r) (t := s) rfl rfl).leaves
    have h2 : Leaves ∅ g' t g' (t.withProcs r) :=
      (Keeps.of_same (s := t) (t := t.withProcs r) rfl rfl).leaves
    exact ((h1.mono (Set.empty_subset _)).trans h.leaves).trans (h2.mono (Set.empty_subset _))
  space := h.space.of_mem rfl
  content := h.content
  guard := h.guard
  balance := h.balance

/-- Slot `p` was unused and is being set up. -/
theorem Others.inv_withProcs (h : Others p s g' t) (hI : Inv E g s) (hB : Base E g' t)
    (hu : (s.proc p).state = .UNUSED) (hn : t.numallocblocks = s.numallocblocks) :
    Inv E g' (t.withProcs s) := by
  have hdead : ¬ (s.proc p).live := by rw [Proc.live, hu]; simp
  have hO : Others p s g' (t.withProcs s) :=
    h.same rfl rfl rfl fun q hq => ⟨(h.like q hq).state.symm, (h.like q hq).pgdir.symm,
      (h.like q hq).kstack.symm, (h.like q hq).sz.symm⟩
  refine hO.inv hI (hB.congr_mem rfl rfl rfl) (hI.embryo p) (fun h => absurd h hdead)
    (fun h => absurd h hdead) (fun h => absurd h hdead) ?_
  rw [swappedOf_not_live hdead, swappedOf_not_live (show ¬ ((t.withProcs s).proc p).live from hdead)]
  simpa [Kernel.withProcs] using hn

/-- A slot that is not in use afterwards. -/
theorem Others.goes_unused (h : Others p s g' t) (hI : Inv E g s) (hB : Base E g' t)
    (hu : (s.proc p).state = .UNUSED) (hu' : (t.proc p).state = .UNUSED)
    (hn : t.numallocblocks = s.numallocblocks) : Goes E ∅ s g' t := by
  have hdead : ¬ (s.proc p).live := by rw [Proc.live, hu]; simp
  have hdead' : ¬ (t.proc p).live := by rw [Proc.live, hu']; simp
  refine (h.goes (h.inv hI hB (by rw [hu']; simp) (fun h => absurd h hdead')
    (fun h => absurd h hdead') (fun h => absurd h hdead') ?_)).mono ?_
  · rw [swappedOf_not_live hdead, swappedOf_not_live hdead', hn]
  · rintro _ rfl hr
    exact absurd hr.live hdead

/-- Slot `p` has got a kernel stack. -/
structure Embryo (E : Env) (p : Slot) (g : Ghost) (s : Kernel) (g' : Ghost) (t : Kernel) : Prop where
  unused : (s.proc p).state = .UNUSED
  base : Base E g' t
  others : Others p s g' t
  kstack : g'.frame (t.proc p).kstack = .kstack p
  proc : ∀ q, q ≠ p → t.proc q = s.proc q
  count : t.numallocblocks = s.numallocblocks
  content : ∀ q, (s.proc q).live → ∀ v, t.content (s.dir q) v = s.content (s.dir q) v

theorem allocproc_spec (hI : Inv E g s) : wp (allocproc E) (fun r t => match r with
    | none => Goes E ∅ s g t
    | some p => ∃ g', Embryo E p g s g' t) s := by
  rw [allocproc, wp_bind, wp_get]
  cases hq : findSlot fun q => (s.proc q).state = .UNUSED with
  | none =>
    rw [wp_pure]
    exact .refl hI
  | some p =>
  have hu : (s.proc p).state = .UNUSED := by simpa using findSlot_some hq
  simp only [wp_bind, wp_modify]
  set s1 : Kernel := { s.setProc p { s.proc p with state := .EMBRYO, pid := s.nextpid } with
    nextpid := s.nextpid + 1 } with hs1
  have hO1 : Others p s g s1 := (Others.refl hI p).same rfl rfl rfl fun q hq => by
    simp only [hs1, Kernel.setProc_proc, Function.update_of_ne hq]
    exact .refl _
  rcases kalloc_cases E s1 with ⟨-, hk⟩ | ⟨k, l, hp, hk⟩
  · refine wp_of_eq hk ?_
    simp only [wp_bind, wp_modify, wp_pure]
    refine Others.goes_unused (p := p) ?_ hI (hI.base.congr_mem rfl rfl rfl) hu (by simp) rfl
    exact hO1.same rfl rfl rfl fun q hq => by
      rw [Kernel.setProc_proc, Function.update_of_ne hq]; exact .refl _
  · refine wp_of_eq hk ?_
    simp only [wp_bind, wp_modify, wp_pure]
    have hB1 : Base E g s1 := hI.base.congr_mem rfl rfl rfl
    obtain ⟨hf, hB2⟩ := hB1.kalloc hp
    have hB3 := hB2.setOwner (f := k) (o := .kstack p) (by simp) (by simp) (by simp)
    have hg : (g.setFrame k .loose).setFrame k (.kstack p) = g.setFrame k (.kstack p) := by
      simp [Ghost.setFrame]
    rw [hg] at hB3
    have hK : Keeps ∅ g s1 (g.setFrame k (.kstack p)) { s1 with freelist := l } :=
      ⟨fun x hx => g.setFrame_of_ne _ (by rintro rfl; rw [hf] at hx; exact hx), fun _ _ => rfl,
        fun _ _ => rfl, fun _ _ => rfl⟩
    have hO2 : Others p s (g.setFrame k (.kstack p)) { s1 with freelist := l } :=
      hO1.leaves hK.leaves (Set.notMem_empty _) (fun _ _ _ => Set.notMem_empty _) rfl
        fun _ _ => .refl _
    refine ⟨g.setFrame k (.kstack p), hu, hB3.congr_mem rfl rfl rfl, ?_, by simp, fun q hq => ?_, rfl,
      fun _ _ _ => rfl⟩
    · exact hO2.same rfl rfl rfl fun q hq => by
        rw [Kernel.setProc_proc, Function.update_of_ne hq]; exact .refl _
    · simp only [Kernel.setProc_proc, Function.update_of_ne hq, hs1]

theorem fork_goes (hst : E.strict = true) (hI : Inv E g s) (hp : (s.proc p).running) :
    wp (fork E p) (fun _ t => ∃ g', Goes E ∅ s g' t) s := by
  rw [fork, wp_bind]
  refine wp_mono (allocproc_spec hI) ?_
  rintro (- | np) t1 h1
  · rw [wp_pure]
    exact ⟨g, h1⟩
  obtain ⟨g1, h1⟩ := h1
  have hnp : p ≠ np := by
    rintro rfl
    exact hp.1 h1.unused
  have hproc : t1.proc p = s.proc p := h1.proc p hnp
  have hdead : ¬ (s.proc np).live := by rw [Proc.live, h1.unused]; simp
  -- the new slot is not counted until the child is ready
  have hI1 : Inv E g1 (t1.withProcs s) := h1.others.inv_withProcs hI h1.base h1.unused h1.count
  have hG1 : Goes E ∅ s g1 (t1.withProcs s) :=
    ((h1.others.same (t := t1.withProcs s) rfl rfl rfl fun q hq => by
      rw [h1.proc q hq]; exact .refl _).goes hI1).mono fun q hq hr => by
        rw [Set.mem_singleton_iff.1 hq] at hr
        exact absurd hr.live hdead
  simp only [wp_bind, wp_get, hproc]
  have hS1 : Space g1 t1 (s.dir p) Set.univ := h1.others.space p hnp hp.live
  refine wp_mono (copyuvm_lives hst h1.base hS1 (hI.size p hp.live)) ?_
  rintro r t2 ⟨g2, h2, hchild⟩
  have hG2 : Goes E ∅ (t1.withProcs s) g2 (t2.withProcs s) :=
    hI1.lives (p := p) hp.live (h2.withProcs s)
  have hI2 := hG2.inv
  have hO2 : Others np (t2.withProcs s) g2 t2 := (Others.refl hI2 np).same rfl rfl rfl fun q hq => by
    rw [h2.proc.proc, h1.proc q hq]; exact .refl _
  have hks : g2.frame (t2.proc np).kstack = .kstack np := by
    rw [h2.proc.proc]
    exact h2.leaves.kstack _ np h1.kstack
  cases r with
  | none =>
    simp only [wp_bind]
    rw [show (t1.proc np).kstack = (t2.proc np).kstack by rw [h2.proc.proc]]
    obtain ⟨happ, hB3⟩ := h2.base.kfree (f := (t2.proc np).kstack) (by rw [hks]; simp)
      (by rw [hks]; simp)
    refine wp_of_eq happ ?_
    rw [wp_modify]
    refine ⟨_, hG1.trans (hG2.trans (Others.goes_unused (p := np) ?_ hI2 (hB3.congr_mem rfl rfl rfl)
      h1.unused (by simp) rfl))⟩
    exact (hO2.kfree hks).same rfl rfl rfl fun q hq => by
      rw [Kernel.setProc_proc, Function.update_of_ne hq]; exact .refl _
  | some c =>
    have hc := hchild c rfl
    rw [wp_modify]
    set x : Proc := { t1.proc np with
      pgdir := c, sz := (s.proc p).sz, parent := some p, state := .RUNNABLE } with hx
    set t3 := t2.setProc np x with ht3
    have hself : t3.proc np = x := by simp [ht3]
    have hdir : t3.dir np = c := by rw [Kernel.dir, hself]
    have hO3 : Others np (t2.withProcs s) g2 t3 := hO2.same rfl rfl rfl fun q hq => by
      rw [ht3, Kernel.setProc_proc, Function.update_of_ne hq]; exact .refl _
    have hne : ∀ y e, g1.frame y = .dir e → y ≠ c := by
      rintro y e hy rfl
      rw [hc.old] at hy
      cases hy
    have hk2 : (t2.withProcs s).kpgdir = (t1.withProcs s).kpgdir := h2.proc.kpgdir
    have hns : t3.nswapped c = 0 := by
      rw [← hc.noswap]
      exact nswapped_congr fun _ _ => rfl
    have hG3 : Goes E ∅ (t2.withProcs s) g2 t3 := by
      refine (hO3.goes (hO3.inv hI2 (h2.base.congr_mem rfl rfl rfl) (by simp [hself, hx])
        (fun _ => ⟨?_, ?_, ?_⟩) (fun _ => ?_) (fun _ => ?_) ?_)).mono ?_
      · rw [hdir]
        exact hc.space.of_mem rfl
      · rw [hself, hx, ← h2.proc.proc]
        exact hks
      · rw [hself]
        exact hI.size p hp.live
      · rw [hdir, hk2]
        exact (hne _ _ hI1.ktree.dir).symm
      · rw [hdir]
        exact fun q _ hq => hne _ _ (hI1.space q hq).dir
      · have hl : (t3.proc np).live := by rw [Proc.live, hself]; simp [hx]
        rw [swappedOf_live hl, swappedOf_not_live (show ¬ ((t2.withProcs s).proc np).live from hdead),
          hdir, hns]
        simp [ht3, Kernel.withProcs]
      · rintro _ rfl hr
        exact absurd hr.live hdead
    exact ⟨g2, hG1.trans (hG2.trans hG3)⟩

end Xv6Lab.Paging
