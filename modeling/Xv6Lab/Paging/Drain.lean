import Xv6Lab.Paging.Boot

/-! What a process can bring about. A fault where there is no page table takes a
frame off the free list and maps nothing, so a process can drain the free list; and
while the blocks in use are the first ones, the swap area never runs into a block
in use. -/

namespace Xv6Lab.Paging

open Disk Lib

variable {E : Env} {g : Ghost} {s t : Kernel} {p : Slot} {d f n va : ℕ}

/-! ### The free list -/

theorem pagefault_run {write : Bool} (hp : (s.proc p).running) (hva : va < 2 ^ 32)
    (hf : faults (s.pte (s.dir p) (va / PGSIZE)) write = true)
    (h : handlePgfault E p va s = .ok ((), t)) :
    (Op.pagefault p va write).run E s = .ok (none, t) := by
  rw [Op.run, entry, bind_apply, get_apply]
  simp only [if_pos hp, bind_apply, takeFault, get_apply]
  rw [if_pos ⟨hva, hf⟩, h]
  rfl

/-- A fault where there is no page table drops the frame that it is given. -/
theorem leak_step (hp : (s.proc p).running) (hva : va < 2 ^ 32)
    (ht : present (s.mem (s.dir p) (PDX va)) = false) (hf : s.freelist ≠ []) (write : Bool) :
    ∃ f l, s.freelist.Perm (f :: l) ∧
      (Op.pagefault p va write).run E s = .ok (none, { s with freelist := l }) := by
  rcases kalloc_cases E s with ⟨h0, -⟩ | ⟨f, l, hperm, hk⟩
  · exact absurd h0 hf
  refine ⟨f, l, hperm, ?_⟩
  have hpt : s.pte (s.dir p) (va / PGSIZE) = 0#32 := Kernel.pte_of_not_present (by rwa [← PDX_eq])
  have hflt : faults (s.pte (s.dir p) (va / PGSIZE)) write = true := by
    rw [hpt]
    cases write <;> rfl
  have hlk : s.lookup (s.dir p) (PGROUNDDOWN (PGROUNDDOWN va)) = none := by
    rw [Kernel.lookup_va, if_neg]
    rw [PGROUNDDOWN_div, PGROUNDDOWN_div, ← PDX_eq, ht]
    simp
  refine pagefault_run hp hva hflt ?_
  rw [handlePgfault, bind_apply, get_apply]
  simp only [mapAddress, bind_apply, get_apply, kallocOrSwap]
  rw [show (s.proc p).pgdir = s.dir p from rfl, hlk, hk]
  rfl

/-- A frame off the free list, named by nobody. -/
theorem Inv.leak (hI : Inv E g s) {l : List ℕ} (hp : s.freelist.Perm (f :: l)) :
    Inv E (g.setFrame f .loose) { s with freelist := l } := by
  obtain ⟨hf, hB⟩ := hI.base.kalloc hp
  have hK : Keeps ∅ g s (g.setFrame f .loose) { s with freelist := l } :=
    ⟨fun x hx => g.setFrame_of_ne _ (by rintro rfl; rw [hf] at hx; exact hx), fun _ _ => rfl,
      fun _ _ => rfl, fun _ _ => rfl⟩
  have hO : Others 0 s (g.setFrame f .loose) { s with freelist := l } :=
    (Others.refl hI 0).leaves hK.leaves (Set.notMem_empty _) (fun _ _ _ => Set.notMem_empty _) rfl
      fun _ _ => .refl _
  refine hO.inv hI hB (hI.embryo 0) (fun hl => ⟨?_, ?_, hI.size 0 hl⟩) (hI.kdir 0)
    (fun hl q hq hl' he => hq (hI.inj q 0 hl' hl he)) rfl
  · exact (hK.leaves.space _ (Set.notMem_empty _) (hI.space 0 hl)).1
  · exact hK.leaves.kstack _ 0 (hI.kstack 0 hl)

/-- A process can drain the free list down to `n` frames. What was on it and is no
more is owned by nobody. -/
theorem drain (E : Env) (s : Kernel) (p : Slot) (n va : ℕ) (good : Kernel → Op → Prop)
    (hva : va < 2 ^ 32) (hgood : ∀ l, good { s with freelist := l } (.pagefault p va false)) (hp : (s.proc p).running)
    (ht : present (s.mem (s.dir p) (PDX va)) = false) :
    ∀ (k : ℕ) {g : Ghost} {l : List ℕ}, Inv E g { s with freelist := l } → l.length = n + k →
      ∃ g' l', Run (Step E) good { s with freelist := l } { s with freelist := l' } ∧
        Inv E g' { s with freelist := l' } ∧ l'.length = n ∧
        ∀ f, g.frame f = .loose ∨ f ∈ l → g'.frame f = .loose ∨ f ∈ l'
  | 0, g, l, hI, hl => ⟨g, l, .refl, hI, hl, fun _ h => h⟩
  | k + 1, g, l, hI, hl => by
    obtain ⟨f, l1, hperm, hrun⟩ := leak_step (E := E) (s := { s with freelist := l }) hp hva ht
      (List.ne_nil_of_length_pos (show 0 < l.length by omega)) false
    have hlen : l.length = l1.length + 1 := by
      rw [show l = ({ s with freelist := l } : Kernel).freelist from rfl, hperm.length_eq,
        List.length_cons]
    obtain ⟨g', l', hr, hI', hl', hown⟩ := drain E s p n va good hva hgood hp ht k (hI.leak hperm) (by omega)
    refine ⟨g', l', (Run.single (hgood l) ⟨none, hrun⟩).trans hr, hI', hl', fun x hx => hown x ?_⟩
    by_cases hxf : x = f
    · subst hxf
      exact .inl (Ghost.setFrame_self _ _ _)
    · rw [g.setFrame_of_ne _ hxf]
      refine hx.imp_right fun hm => ?_
      exact (List.mem_cons.1 (hperm.mem_iff.1 hm)).resolve_left hxf

/-! ### The first process -/

/-- Process 0 after `sbrk` to the size `sz`. -/
def Kernel.grown (s : Kernel) (sz : ℕ) : Kernel := s.setProc 0 { s.proc 0 with sz := sz }

theorem growproc_apply {n : ℕ} (h : (s.proc p).sz + n ≤ KERNBASE) :
    growproc p n s = .ok ((), s.setProc p { s.proc p with sz := (s.proc p).sz + n }) := by
  have hc : ¬ ((n : ℤ) < 0 ∨ (KERNBASE : ℤ) < n ∨ (KERNBASE : ℤ) < (s.proc p).sz + n) := by
    omega
  rw [growproc, bind_apply, get_apply]
  simp only [if_neg hc, modify_apply, Int.toNat_natCast]

theorem sbrk_run {n : ℤ} (hp : (s.proc p).running) (h : growproc p n s = .ok ((), t)) :
    (Op.sbrk p n).run E s = .ok (none, t) := by
  rw [Op.run, entry, bind_apply, get_apply]
  simp only [if_pos hp, bind_apply, h, pure_apply]

namespace Booted

variable {init : Page} {sz : ℕ}

theorem running (h : Booted E init g s d) : (s.proc 0).running := by
  rw [Proc.running, h.state]
  decide

theorem grow (h : Booted E init g s d) (sz : ℕ) (h1 : PGSIZE ≤ sz) (h2 : sz ≤ KERNBASE) :
    (Op.sbrk 0 ((sz - PGSIZE : ℕ) : ℤ)).run E s = .ok (none, s.grown sz) ∧ Inv E g (s.grown sz) := by
  have happ : growproc 0 ((sz - PGSIZE : ℕ) : ℤ) s = .ok ((), s.grown sz) := by
    have hle : PGSIZE + (sz - PGSIZE) = sz := Nat.add_sub_cancel' h1
    rw [growproc_apply (by rw [h.sz, hle]; exact h2), h.sz, hle]
    rfl
  exact ⟨sbrk_run h.running happ, (growproc_goes h.inv h.running _ () _ happ).inv⟩

theorem grown_running (h : Booted E init g s d) : ((s.grown sz).proc 0).running := by
  simp only [Kernel.grown, Kernel.setProc_proc, Function.update_self]
  exact h.running

theorem grown_dir (h : Booted E init g s d) : (s.grown sz).dir 0 = d := by
  simp only [Kernel.dir, Kernel.grown, Kernel.setProc_proc, Function.update_self]
  exact h.dir

theorem grown_sz : ((s.grown sz).proc 0).sz = sz := by
  simp [Kernel.grown]

theorem freelist_ne_nil (h : Booted E init g s d) : s.freelist ≠ [] := by
  have h1 := h.free
  have h2 := E.kend_le
  exact List.ne_nil_of_length_pos (by omega)

/-- The second page has its table. -/
theorem second_page (h : Booted E init g s d) (sz : ℕ) :
    Paging.present ((s.grown sz).pte ((s.grown sz).dir 0) (0x1000 / PGSIZE)) = false ∧
      Paging.present ((s.grown sz).mem ((s.grown sz).dir 0) (PDX 0x1000)) = true := by
  rw [h.grown_dir]
  refine ⟨?_, h.table⟩
  rw [show (s.grown sz).pte d (0x1000 / PGSIZE) = 0#32 from h.empty 1 (by decide) (by decide)]
  decide

/-- There is no page table for the second four megabytes. -/
theorem no_table (h : Booted E init g s d) : Paging.present (s.mem d (PDX 0x400000)) = false :=
  h.low _ (by decide) (by decide)

/-- It can drain the free list down to `n` frames with faults beyond its only page table. -/
theorem drained_to (h : Booted E init g s d) {n : ℕ} (hn : n ≤ s.freelist.length) :
    ∃ g' l, Run (Step E) (fun s op => op.InSize s ∧ op.Permitted s) s
        { s.grown 0x800000 with freelist := l } ∧
      Inv E g' { s.grown 0x800000 with freelist := l } ∧ l.length = n := by
  obtain ⟨hgrow, hI⟩ := h.grow 0x800000 (by decide) (by decide)
  have hno : Paging.present ((s.grown 0x800000).mem ((s.grown 0x800000).dir 0) (PDX 0x400000)) =
      false := by
    rw [h.grown_dir]
    exact h.no_table
  have hlt : 0x400000 < ((s.grown 0x800000).proc 0).sz := by
    rw [Booted.grown_sz]
    norm_num
  obtain ⟨g', l, hrun, hI', hl, -⟩ := drain E (s.grown 0x800000) 0 n 0x400000
    (fun v op => op.InSize v ∧ op.Permitted v) (by norm_num) (fun l => ⟨hlt, .inl (by decide)⟩)
    h.grown_running hno (s.freelist.length - n) (g := g) (l := (s.grown 0x800000).freelist) hI (by
      rw [show (s.grown 0x800000).freelist = s.freelist from rfl]
      omega)
  exact ⟨g', l, (Run.single (i := .sbrk 0 ((0x800000 - PGSIZE : ℕ) : ℤ)) ⟨trivial, trivial⟩
    ⟨none, hgrow⟩).trans hrun, hI', hl⟩

end Booted

/-! ### The disk -/

/-- The blocks in use are the first ones, at most `n` of them. -/
def Packed (s : Kernel) (n : ℕ) : Prop := ∃ k ≤ n, ∀ b, s.bit b = decide (b < k)

theorem Packed.mono {m : ℕ} (h : Packed s n) (hm : n ≤ m) : Packed s m := by
  obtain ⟨k, hk, hb⟩ := h
  exact ⟨k, hk.trans hm, hb⟩

theorem firstFree_initial {bit : ℕ → Bool} {k n b : ℕ} (h : ∀ b, bit b = decide (b < k))
    (h1 : b ≤ k) (h2 : k < b + n) : firstFree bit n b = some k := by
  induction n generalizing b with
  | zero => omega
  | succ n ih =>
    rw [firstFree, h]
    by_cases hb : b = k
    · simp [hb]
    · rw [if_neg (by simp; omega)]
      exact ih (by omega) (by omega)

/-- `balloc` takes the first block that is not in use. -/
theorem balloc_initial {k : ℕ} (h : ∀ b, s.bit b = decide (b < k)) (hk : k < E.size) :
    ∃ t, balloc E.size s = .ok (k, t) ∧ SameMem s t ∧ t.numallocblocks = s.numallocblocks ∧
      ∀ b, t.bit b = decide (b < k + 1) := by
  have hfree := firstFree_initial h (Nat.zero_le k) (by omega : k < 0 + E.size)
  refine ⟨(s.setBit k true).setBlock k fun _ => 0#32, balloc_some hfree,
    (SameMem.setBit s k true).trans (.setBlock _ _ _), rfl, fun b => ?_⟩
  · simp only [Kernel.setBlock_bit, Kernel.setBit_bit]
    by_cases hb : b = k
    · subst hb
      simp
    · rw [Function.update_of_ne hb, h]
      simp only [decide_eq_decide]
      omega

theorem ballocPageLoop_initial {k : ℕ} (hk : k + 8 ≤ E.size) (j i fuel : ℕ) (hi : i + j = 8)
    (hf : j < fuel) (h : ∀ b, s.bit b = decide (b < k + i)) :
    ∃ t, ballocPageLoop E.size fuel i (List.range' k i).reverse s =
        .ok ((List.range' k 8).reverse, t) ∧
      SameMem s t ∧ t.numallocblocks = s.numallocblocks ∧ ∀ b, t.bit b = decide (b < k + 8) := by
  obtain ⟨fuel, rfl⟩ : ∃ m, fuel = m + 1 := ⟨fuel - 1, by omega⟩
  induction j generalizing i fuel s with
  | zero =>
    obtain rfl : i = 8 := by omega
    exact ⟨s, by rw [ballocPageLoop, if_neg (by omega)]; rfl, .refl s, rfl, h⟩
  | succ j ih =>
    obtain ⟨t, ht, hm, hn, hb⟩ := balloc_initial h (by omega : k + i < E.size)
    obtain ⟨fuel, rfl⟩ : ∃ m, fuel = m + 1 := ⟨fuel - 1, by omega⟩
    obtain ⟨u, hu, hm', hn', hb'⟩ := ih (i + 1) (by omega) (fun b => by rw [hb b, Nat.add_assoc])
      fuel (by omega)
    refine ⟨u, ?_, hm.trans hm', hn'.trans hn, hb'⟩
    have hix : runIndex i (k + i) (List.range' k i).reverse = i := by
      cases i with
      | zero => rfl
      | succ i =>
        rw [List.range'_1_concat, List.reverse_append]
        simp [runIndex, Nat.add_assoc]
    have hcons : (k + i) :: (List.range' k i).reverse = (List.range' k (i + 1)).reverse := by
      rw [List.range'_1_concat, List.reverse_append]
      rfl
    rw [ballocPageLoop, if_pos (by omega), bind_apply, ht]
    simp only
    rw [hix, hcons, hu]

theorem ballocPage_packed (h : Packed s n) (hn : n + 8 ≤ E.size) :
    ∃ b t, ballocPage E.size s = .ok (b, t) ∧ b < E.size ∧ SameMem s t ∧ Packed t (n + 8) ∧
      t.numallocblocks = s.numallocblocks + 1 := by
  obtain ⟨k, hk, hb⟩ := h
  obtain ⟨t, ht, hm, hc, hb'⟩ := ballocPageLoop_initial (E := E) (k := k) (by omega) 8 0 (E.size + 1)
    rfl (by omega) hb
  refine ⟨k, { t with numallocblocks := t.numallocblocks + 1 }, ?_, by omega,
    ⟨⟨hm.proc, hm.kpgdir, hm.initproc, hm.nextpid⟩, hm.mem, hm.freelist⟩, ⟨k + 8, by omega, hb'⟩, by
      simp only [hc]⟩
  rw [ballocPage, bind_apply]
  rw [show (List.range' k 0).reverse = [] from rfl] at ht
  rw [ht]
  have hdrop : ((List.range' k 8).reverse.drop 8).reverse = [] := by simp
  have hget : (List.range' k 8).reverse.getD 7 0 = k := by simp [List.range']
  simp only [bind_apply, hdrop, hget]
  rfl

/-- A machine with a small kernel image. `kfree` fills pages with ones, and every
block that is written to a swap file is a new block of that file. -/
def demo : Env where
  kend := 300
  kdata := 264
  size := FSSIZE
  nmeta := 96
  used := 600
  pick _ := 0
  fill _ _ := fun _ => 0x01010101#32
  inode _ c := match c with
    | .createSwapFile _ _ => [.write 40 fun _ => 0#32]
    | .filewrite _ => [.balloc]
    | .exec _ | .exit _ => []
  strict := false
  kdata_gt := by decide
  kdata_lt := by decide
  kend_le := by decide
  size_le := le_rfl
  nmeta_le := by decide

theorem demo_filewrite (h : Packed s n) (hn : n < FSSIZE) (i : ℕ) :
    ∃ t, fileLayer demo (.filewrite i) s = .ok ((), t) ∧ SameMem s t ∧ Packed t (n + 1) ∧
      t.numallocblocks = s.numallocblocks := by
  obtain ⟨k, hk, hb⟩ := h
  obtain ⟨t, ht, hm, hc, hb'⟩ := balloc_initial (E := demo) hb (show k < FSSIZE by omega)
  refine ⟨{ t with files := k :: t.files }, ?_, ⟨⟨hm.proc, hm.kpgdir, hm.initproc, hm.nextpid⟩, hm.mem,
    hm.freelist⟩, ⟨k + 1, by omega, hb'⟩, hc⟩
  rw [fileLayer, bind_apply, get_apply]
  change fileActs demo [.balloc] s = _
  simp only [fileActs, fileAct, bind_apply, ht, modify_apply, pure_apply]

theorem demo_writeParts (frame blk : ℕ) (is : List (Fin 8)) (h : Packed s n)
    (hn : n + is.length ≤ FSSIZE) :
    ∃ t, writeParts demo frame blk is s = .ok ((), t) ∧ SameMem s t ∧ Packed t (n + is.length) ∧
      t.numallocblocks = s.numallocblocks := by
  induction is generalizing n s with
  | nil => exact ⟨s, rfl, .refl s, h, rfl⟩
  | cons i is ih =>
    rw [List.length_cons] at hn
    obtain ⟨t, ht, hm, hp, hc⟩ := demo_filewrite h (by omega) i
    set t' := t.setBlock (blk + i) (part (s.mem frame) i) with ht'
    have hm' : SameMem t t' := .setBlock _ _ _
    obtain ⟨u, hu, hmu, hpu, hcu⟩ := ih (n := n + 1) (s := t') hp (by omega)
    refine ⟨u, ?_, hm.trans (hm'.trans hmu), ?_, hcu.trans hc⟩
    · rw [writeParts, bind_apply, get_apply]
      simp only [bind_apply, ht, modify_apply]
      exact hu
    · rw [List.length_cons, show n + (is.length + 1) = n + 1 + is.length by omega]
      exact hpu

theorem demo_writePageToDisk (h : Packed s n) (hn : n + 8 ≤ FSSIZE) (frame blk pid pfn : ℕ) :
    ∃ t, writePageToDisk demo frame blk pid pfn s = .ok ((), t) ∧ SameMem s t ∧ Packed t (n + 8) ∧
      t.numallocblocks = s.numallocblocks := by
  set s' := s.setBlock 40 (fun _ => 0#32) with hs'
  have hm : SameMem s s' := .setBlock _ _ _
  obtain ⟨t, ht, hmt, hpt, hct⟩ := demo_writeParts frame blk (List.finRange 8)
    (s := s') h (by simpa using hn)
  refine ⟨t, ?_, hm.trans hmt, by simpa using hpt, hct⟩
  have hcreate : fileLayer demo (.createSwapFile pid pfn) s = .ok ((), s') := by
    rw [fileLayer, bind_apply, get_apply]
    change fileActs demo [.write 40 fun _ => 0#32] s = _
    simp only [fileActs, fileAct, bind_apply, get_apply]
    rw [if_pos (.inr (by decide))]
    rfl
  rw [writePageToDisk, bind_apply, hcreate]
  exact ht

/-- A page that is swapped out finds room on the disk. -/
theorem demo_swapOut (hB : Base demo g s) (hpk : Packed s n) (hn : n + 16 ≤ FSSIZE) {v : ℕ}
    (hp : present (s.pte d v) = true) (hown : g.frame (PTE_ADDR (s.pte d v)) = .page d v)
    (cur pid : ℕ) : ∃ t, swapPageFromPte demo cur (some (s.ptr d v)) pid s = .ok ((), t) := by
  have htab := present_table_of_entry hp
  obtain ⟨h1, h2⟩ := hB.range (PTE_ADDR (s.pte d v)) (by rw [hown]; simp)
  have hload : ∀ u : Kernel, u.mem = s.mem →
      loadPte demo cur (some (s.ptr d v)) u = .ok (s.pte d v, u) := fun u hu => by
    simp only [loadPte, readPte, bind_apply, get_apply, pure_apply, hu, Kernel.mem_ptr htab]
  obtain ⟨b, s1, hb, -, hm1, hp1, -⟩ := ballocPage_packed hpk (show n + 8 ≤ demo.size by
    change n + 8 ≤ FSSIZE
    omega)
  obtain ⟨s2, hd, hm2, -, -⟩ := demo_writePageToDisk hp1 (by omega) (PTE_ADDR (s.pte d v)) b pid
    (PTE_ADDR (s.pte d v))
  refine ⟨(s2.setWord (s.ptr d v).1 (s.ptr d v).2 (swappedPte b)).kfreed demo
    (PTE_ADDR (s.pte d v)), ?_⟩
  rw [swapPageFromPte, bind_apply, hload s rfl]
  simp only [bind_apply, hb]
  rw [if_neg (by omega), bind_apply, hload s1 hm1.mem]
  simp only [bind_apply, hd, storePte, writePte, modify_apply]
  exact kfree_apply h1 h2

/-- An eviction finds room on the disk. -/
theorem demo_evict (hB : Base demo g s) (hS : Space g s d Set.univ) (hf : s.freelist = [])
    (hpk : Packed s n) (hn : n + 16 ≤ FSSIZE) {v : ℕ} (hv : Victim s d v) (pid : ℕ) :
    ∃ m t, kallocOrSwap demo.stopAtNull d pid s = .ok (m, t) := by
  have hown := (hS.entry v hv.lt trivial).frame hv.present
  have hlt : v < 2 ^ 20 := hv.lt.trans (by decide)
  have hsel := (selectAVictim_eq_iff hS.toTree hlt (present_table_of_entry hv.present)).2 hv
  obtain ⟨t, hswap⟩ := demo_swapOut hB hpk hn hv.present hown d pid
  obtain ⟨b, g', h⟩ := swapPageFromPte_spec hB hS.toTree hlt hv.present hown d pid _ _ hswap
  rcases kalloc_cases demo.stopAtNull s with ⟨-, hk0⟩ | ⟨f, l, hp, -⟩
  swap
  · rw [hf] at hp
    exact absurd hp.length_eq (by simp)
  rcases kalloc_cases demo.stopAtNull t with ⟨h0, -⟩ | ⟨m, l, -, hk⟩
  · rw [h.freelist] at h0
    cases h0
  · refine ⟨m, { t with freelist := l }, ?_⟩
    rw [kallocOrSwap, bind_apply, hk0]
    simp only [bind_apply]
    rw [swapPage_apply hsel, swapPageFromPte_some_stop, hswap]
    simp only [hk, pure_apply]

/-- An operation that does not depend on the machine. -/
theorem followsNoNull_of_run {op : Op} {r : Option Byte × Kernel} (h : op.run E.stopAtNull s = .ok r) :
    FollowsNoNull E s op := by
  rw [FollowsNoNull, h]
  simp

/-- `sys_swap` of an address whose page is present. -/
theorem sysSwap_of_present {addr : ℕ}
    (hp : present (s.pte (s.dir p) (addr / PGSIZE)) = true) :
    sysSwap E p addr s = swapPageFromPte E (s.dir p)
      (some (s.ptr (s.dir p) (addr / PGSIZE))) (s.proc p).pid s := by
  have htab := present_table_of_entry hp
  have hwalk : walkpgdir E (s.dir p) addr true s =
      .ok (some (s.ptr (s.dir p) (addr / PGSIZE)), s) := by
    rw [walkpgdir, bind_apply, get_apply]
    simp only [Kernel.lookup_va, htab, ↓reduceIte, pure_apply]
  rw [sysSwap, bind_apply, get_apply]
  simp only [show (s.proc p).pgdir = s.dir p from rfl, bind_apply, hwalk, sysSwapLoad, readPte,
    get_apply, pure_apply, Kernel.mem_ptr htab, hp, ↓reduceIte]

/-- Page 0 of process `p` has been swapped out by `sys_swap`. -/
structure SwappedFirst (s : Kernel) (p : Slot) (t : Kernel) : Prop where
  run : (Op.sysSwap p 0).run demo s = .ok (none, t)
  followsNoNull : FollowsNoNull demo s (.sysSwap p 0)
  proc : SameProc s t
  swapped : swapped (t.pte (s.dir p) 0) = true
  freelist : t.freelist ≠ []

theorem demo_sysSwap (hI : Inv demo g s) (hp : (s.proc p).running)
    (h0 : present (s.pte (s.dir p) 0) = true) (hpk : Packed s 600) : ∃ t, SwappedFirst s p t := by
  have hS := hI.space p hp.live
  have hown := (hS.entry 0 (by decide) trivial).frame h0
  have hzero : 0 / PGSIZE = 0 := Nat.zero_div _
  obtain ⟨t, hout⟩ := demo_swapOut hI.base hpk (by decide) h0 hown (s.dir p) (s.proc p).pid
  obtain ⟨b, g', h⟩ :=
    swapPageFromPte_spec hI.base hS.toTree (by decide) h0 hown _ _ _ _ hout
  have hrun : ∀ E : Env, sysSwap E p 0 s = .ok ((), t) →
      (Op.sysSwap p 0).run E s = .ok (none, t) := fun E happ => by
    rw [Op.run, entry, bind_apply, get_apply]
    simp only [if_pos hp, bind_apply, happ, pure_apply]
  have hsys : sysSwap demo p 0 s = .ok ((), t) := by
    rw [sysSwap_of_present (by rwa [hzero]), hzero, hout]
  have hstop : sysSwap demo.stopAtNull p 0 s = .ok ((), t) := by
    rw [sysSwap_of_present (by rwa [hzero]), hzero, swapPageFromPte_some_stop, hout]
  refine ⟨t, hrun _ hsys, followsNoNull_of_run (hrun _ hstop), h.proc, ?_, ?_⟩
  · rw [(h.store.entries hS.toTree).2.1, swapped_swappedPte]
  · rw [h.freelist]
    exact List.cons_ne_nil _ _

theorem Booted.swapFirst {init : Page} (h : Booted demo init g s d) :
    ∃ t, SwappedFirst s 0 t := by
  refine demo_sysSwap h.inv h.running ?_ ⟨600, le_rfl, h.bit⟩
  rw [h.dir]
  exact h.present

/-! ### A null entry pointer -/

/-- With no free frame, `sys_swap` on an address without page table follows a null
entry pointer: the first word of user page 0 is taken for the entry. The frame it
names is swapped out and freed, and the word is overwritten. -/
theorem sysSwap_null (hst : E.strict = false) (hf : s.freelist = [])
    (ht : present (s.mem (s.dir p) (PDX va)) = false) (h0 : present (s.pte (s.dir p) 0) = true)
    {w : Word} (hw : s.mem (PTE_ADDR (s.pte (s.dir p) 0)) 0 = w) (hpw : present w = true)
    (h1 : E.kend ≤ PTE_ADDR w) (h2 : PTE_ADDR w < NFRAMES) {b : ℕ} {s1 s2 : Kernel}
    (hb : ballocPage E.size s = .ok (b, s1)) (hm1 : SameMem s s1)
    (hd : writePageToDisk E (PTE_ADDR w) b (s.proc p).pid (PTE_ADDR w) s1 = .ok ((), s2))
    (hm2 : SameMem s1 s2) :
    sysSwap E p va s =
      .ok ((), (s2.setWord (PTE_ADDR (s.pte (s.dir p) 0)) 0 (swappedPte b)).kfreed E (PTE_ADDR w)) := by
  have hwalk : walkpgdir E (s.dir p) va true s = .ok (none, s) := by
    rcases kalloc_cases E s with ⟨-, hk⟩ | ⟨f, l, hp, -⟩
    · rw [walkpgdir, bind_apply, get_apply]
      simp only [Kernel.lookup, ht, Bool.false_eq_true, ↓reduceIte, bind_apply, hk, pure_apply]
    · rw [hf] at hp
      exact absurd hp.length_eq (by simp)
  have hload : ∀ u : Kernel, u.mem = s.mem → loadPte E (s.dir p) none u = .ok (w, u) := by
    intro u hu
    have hpte : u.pte (s.dir p) 0 = s.pte (s.dir p) 0 := by simp only [Kernel.pte, hu]
    rw [loadPte, if_neg (by simp [hst]), bind_apply, get_apply]
    simp only [hpte, h0, ↓reduceIte, pure_apply, hu, hw]
  have hstore : storePte E (s.dir p) none (swappedPte b) s2 =
      .ok ((), s2.setWord (PTE_ADDR (s.pte (s.dir p) 0)) 0 (swappedPte b)) := by
    have hpte : s2.pte (s.dir p) 0 = s.pte (s.dir p) 0 := by
      simp only [Kernel.pte, hm2.mem, hm1.mem]
    rw [storePte, if_neg (by simp [hst]), bind_apply, get_apply]
    simp only [hpte, h0, ↓reduceIte]
    rfl
  have hfirst : sysSwapLoad E (s.dir p) (s.proc p).pid none s = .ok (w, s) := by
    rw [sysSwapLoad, bind_apply, get_apply]
    simp only [h0, Bool.true_eq_false, and_false, ↓reduceIte]
    exact hload s rfl
  have hswap : swapPageFromPte E (s.dir p) none (s.proc p).pid s =
      .ok ((), (s2.setWord (PTE_ADDR (s.pte (s.dir p) 0)) 0 (swappedPte b)).kfreed E (PTE_ADDR w)) := by
    rw [swapPageFromPte, bind_apply, hload s rfl]
    simp only [bind_apply, hb]
    rw [if_neg (by omega), bind_apply, hload s1 hm1.mem]
    simp only [bind_apply, hd, hstore]
    exact kfree_apply h1 h2
  rw [sysSwap, bind_apply, get_apply]
  simp only [bind_apply]
  rw [show (s.proc p).pgdir = s.dir p from rfl, hwalk]
  simp only
  rw [hfirst]
  simp only [hpw, ↓reduceIte]
  exact hswap

/-- A store to a page that is mapped for user code. -/
structure Stored (E : Env) (s : Kernel) (p : Slot) (va : ℕ) (b : Byte) (t : Kernel) : Prop where
  run : (Op.store p va b).run E s = .ok (none, t)
  proc : SameProc s t
  freelist : t.freelist = s.freelist
  disk : SameDisk s t
  dir : t.mem (s.dir p) = s.mem (s.dir p)
  flags : ∀ k ∈ [0, 1, 2], (t.pte (s.dir p) (va / PGSIZE)).getLsbD k =
    (s.pte (s.dir p) (va / PGSIZE)).getLsbD k
  addr : PTE_ADDR (t.pte (s.dir p) (va / PGSIZE)) = PTE_ADDR (s.pte (s.dir p) (va / PGSIZE))
  page : t.mem (PTE_ADDR (s.pte (s.dir p) (va / PGSIZE))) =
    setByte (s.mem (PTE_ADDR (s.pte (s.dir p) (va / PGSIZE)))) va b

theorem store_total (hI : Inv E g s) (hp : (s.proc p).running) (va : ℕ) (hv : va / PGSIZE < UVPN)
    (h0 : present (s.pte (s.dir p) (va / PGSIZE)) = true)
    (h1 : writable (s.pte (s.dir p) (va / PGSIZE)) = true)
    (h2 : user (s.pte (s.dir p) (va / PGSIZE)) = true) (b : Byte) : ∃ t, Stored E s p va b t := by
  set d := s.dir p with hd
  set v := va / PGSIZE with hvd
  set w := s.pte d v with hw
  have hS := hI.space p hp.live
  have ht := present_table_of_entry h0
  have hown : g.frame (PTE_ADDR w) = .page d v := (hS.entry v hv trivial).frame h0
  have htab : g.frame (s.ptr d v).1 = .tab d (pdx v) := hS.tab _ ht
  have hne : PTE_ADDR w ≠ (s.ptr d v).1 := fun e => by rw [e, htab] at hown; cases hown
  have hdt : d ≠ (s.ptr d v).1 := fun e => by
    have := hS.dir
    rw [← hd, e, htab] at this
    cases this
  have hdf : d ≠ PTE_ADDR w := fun e => by
    have := hS.dir
    rw [← hd, e, hown] at this
    cases this
  set w' := w ||| PTE_A ||| PTE_D with hw'
  set s1 := s.setWord (s.ptr d v).1 (s.ptr d v).2 w' with hs1
  set t := s1.setFrame (PTE_ADDR w) (setByte (s1.mem (PTE_ADDR w)) va b) with ht'
  have hs1f : s1.mem (PTE_ADDR w) = s.mem (PTE_ADDR w) := by simp [hs1, hne]
  have hdir : t.mem d = s.mem d := by simp [ht', hs1, hdf, hdt]
  have hpte : t.pte d v = w' := by
    rw [Kernel.pte_of_present (by rwa [hdir]), hdir]
    have : t.mem (s.ptr d v).1 = Function.update (s.mem (s.ptr d v).1) (s.ptr d v).2 w' := by
      simp [ht', hs1, hne.symm]
    exact (congrFun this _).trans (Function.update_self ..)
  have haddr : PTE_ADDR w' = PTE_ADDR w := by
    rw [hw', BitVec.or_assoc]
    exact PTE_ADDR_or (by decide)
  refine ⟨t, ?_, ⟨rfl, rfl, rfl, rfl⟩, rfl, ⟨rfl, rfl, rfl, rfl⟩, hdir, fun k hk => ?_, ?_, ?_⟩
  · rw [Op.run, entry, bind_apply, get_apply]
    simp only [if_pos hp, bind_apply, userStore, get_apply]
    rw [← hd, Kernel.lookup_va, if_pos ht]
    simp only [bind_apply, readPte, get_apply, pure_apply, ← hvd, Kernel.mem_ptr ht, ← hw]
    rw [if_neg (by simp [faults, h0, h1, h2])]
    rfl
  · rw [hpte, hw', BitVec.getLsbD_or, BitVec.getLsbD_or]
    have hz : ∀ k ∈ [0, 1, 2], PTE_A.getLsbD k = false ∧ PTE_D.getLsbD k = false := by decide
    rw [(hz k hk).1, (hz k hk).2, Bool.or_false, Bool.or_false]
  · rw [hpte, haddr]
  · rw [ht', Kernel.setFrame_mem, Function.update_self, hs1f]

/-- A run of two safe steps: `sbrk` to eight megabytes, and a fault where there is no
page table. -/
theorem Booted.grow_and_fault {init : Page} (h : Booted E init g s d) :
    ∃ t, Lib.Run (Step E) (fun s op => op.InSize s ∧ op.Permitted s ∧ FollowsNoNull E s op) s t ∧
      (t.proc 0).sz = 0x800000 := by
  obtain ⟨hgrow, hI⟩ := h.grow 0x800000 (by decide) (by decide)
  obtain ⟨hgrow', -⟩ := (show Booted E.stopAtNull init g s d from
    ⟨h.inv.stopAtNull, h.state, h.dir, h.sz, h.unused, h.initproc, h.present, h.user, h.writable,
      h.content, h.table, h.low, h.empty, h.free, h.bit, h.count⟩).grow 0x800000 (by decide) (by decide)
  have hno : Paging.present ((s.grown 0x800000).mem ((s.grown 0x800000).dir 0) (PDX 0x400000)) = false := by
    rw [h.grown_dir]
    exact h.no_table
  have hf : (s.grown 0x800000).freelist ≠ [] := h.freelist_ne_nil
  obtain ⟨f, l, -, hleak⟩ := leak_step (E := E) h.grown_running (by norm_num) hno hf false
  obtain ⟨_, _, -, hleak'⟩ := leak_step (E := E.stopAtNull) h.grown_running (by norm_num) hno hf false
  have hlt : 0x400000 < ((s.grown 0x800000).proc 0).sz := by
    rw [Booted.grown_sz]
    norm_num
  refine ⟨{ s.grown 0x800000 with freelist := l },
    (Lib.Run.single (i := .sbrk 0 ((0x800000 - PGSIZE : ℕ) : ℤ))
      ⟨trivial, trivial, followsNoNull_of_run hgrow'⟩ ⟨none, hgrow⟩).trans
    (.single (i := .pagefault 0 0x400000 false) ⟨hlt, .inl (by decide), followsNoNull_of_run hleak'⟩
      ⟨none, hleak⟩), Booted.grown_sz⟩

/-- The first process with eight megabytes, a chosen first word in page 0, and no
frame left on the free list. -/
structure Cornered (E : Env) (s : Kernel) (w : Word) (g : Ghost) (u : Kernel) : Prop where
  inv : Inv E g u
  running : (u.proc 0).running
  sz : (u.proc 0).sz = 0x800000
  dir : u.dir 0 = s.dir 0
  freelist : u.freelist = []
  table : present (u.mem (s.dir 0) (PDX 0x400000)) = false
  present : present (u.pte (s.dir 0) 0) = true
  user : user (u.pte (s.dir 0) 0) = true
  word : u.mem (PTE_ADDR (u.pte (s.dir 0) 0)) 0 = w
  bit : u.bit = s.bit
  count : u.numallocblocks = 0
  loose : ∀ f ∈ s.freelist, g.frame f = .loose

/-- The first process on the way there: it has stored into page 0, in frame `f`. -/
structure Writing (E : Env) (s : Kernel) (f : ℕ) (u : Kernel) : Prop where
  sound : Sound E u
  running : (u.proc 0).running
  sz : (u.proc 0).sz = 0x800000
  dir : u.dir 0 = s.dir 0
  freelist : u.freelist = s.freelist
  disk : SameDisk s u
  mem : u.mem (s.dir 0) = s.mem (s.dir 0)
  flags : ∀ k ∈ [0, 1, 2], (u.pte (s.dir 0) 0).getLsbD k = true
  addr : PTE_ADDR (u.pte (s.dir 0) 0) = f

/-- Operations of the first process that both kinds of runs allow. -/
def Mild (x : Kernel × Memory) (op : Op) : Prop :=
  op.Around 0 x.1 ∧ op.InSize x.1 ∧ op.Permitted x.1

theorem Writing.store (h : Writing E s f t) (m : Memory) {i : ℕ} (hi : i < 4) (b : Byte) :
    ∃ u, Lib.Run (MemStep E 0) Mild (t, m) (u, Function.update m i b) ∧ Writing E s f u ∧
      u.mem f = setByte (t.mem f) i b := by
  obtain ⟨g, hI⟩ := h.sound
  have h0 : i / PGSIZE = 0 := by
    rw [PGSIZE]
    omega
  have hfl : ∀ k ∈ [0, 1, 2], (t.pte (t.dir 0) (i / PGSIZE)).getLsbD k = true := by
    rw [h0, h.dir]
    exact h.flags
  obtain ⟨u, hu⟩ := store_total hI h.running i (by rw [h0]; decide) (hfl 0 (by simp))
    (hfl 1 (by simp)) (hfl 2 (by simp)) b
  have hva : i < 2 ^ 32 := by omega
  have hlt : i < (t.proc 0).sz := by
    rw [h.sz]
    omega
  have hS : Sound E u :=
    Sound.step ⟨g, hI⟩ (show Safe E t (.store 0 i b) from ⟨hva, followsNoNull_of_run hu.run⟩)
      ⟨none, hu.run⟩
  have hrun := hu.run
  obtain ⟨-, hproc, hfree, hdisk, hmem, hflags, haddr, hpage⟩ := hu
  rw [h0, h.dir] at hflags haddr hpage
  rw [h.dir] at hmem
  rw [h.addr] at hpage haddr
  refine ⟨u, .single (i := .store 0 i b) ⟨hlt, hva, hva⟩ ⟨⟨none, hrun⟩, ?_⟩, ⟨hS, ?_, ?_, ?_, hfree.trans h.freelist,
    h.disk.trans hdisk, hmem.trans h.mem, fun k hk => by rw [hflags k hk, h.flags k hk], haddr⟩, hpage⟩
  · simp [Op.onMemory]
  · rw [hproc.proc]
    exact h.running
  · rw [hproc.proc]
    exact h.sz
  · rw [Kernel.dir, hproc.proc]
    exact h.dir

/-- The first process can put any word at address 0 and drain the free list. -/
theorem Booted.cornered {init : Page} (h : Booted E init g s d) (w : Word) (m : Memory) :
    ∃ g' u m', Lib.Run (MemStep E 0) Mild (s, m) (u, m') ∧ Cornered E s w g' u ∧
      m' 0 = wordByte w 0 := by
  obtain ⟨hgrow, hI1⟩ := h.grow 0x800000 (by decide) (by decide)
  set s1 := s.grown 0x800000 with hs1
  have hrun1 : Lib.Run (MemStep E 0) Mild (s, m) (s1, m) :=
    .single (i := .sbrk 0 ((0x800000 - PGSIZE : ℕ) : ℤ)) ⟨trivial, trivial, trivial⟩ ⟨⟨none, hgrow⟩, rfl⟩
  have hW : Writing E s (PTE_ADDR (s.pte (s.dir 0) 0)) s1 := by
    refine ⟨⟨g, hI1⟩, h.grown_running, Booted.grown_sz, ?_, rfl, ⟨rfl, rfl, rfl, rfl⟩, rfl, fun k hk => ?_, rfl⟩
    · rw [h.grown_dir, h.dir]
    · rw [show s1.pte (s.dir 0) 0 = s.pte d 0 by rw [h.dir]; rfl]
      simp only [List.mem_cons, List.not_mem_nil, or_false] at hk
      rcases hk with rfl | rfl | rfl
      · exact h.present
      · exact h.writable
      · exact h.user
  obtain ⟨u0, r0, W0, p0⟩ := hW.store m (show 0 < 4 by omega) (wordByte w 0)
  obtain ⟨u1, r1, W1, p1⟩ := W0.store _ (show 1 < 4 by omega) (wordByte w 1)
  obtain ⟨u2, r2, W2, p2⟩ := W1.store _ (show 2 < 4 by omega) (wordByte w 2)
  obtain ⟨u3, r3, W3, p3⟩ := W2.store _ (show 3 < 4 by omega) (wordByte w 3)
  rw [p2, p1, p0] at p3
  obtain ⟨g3, hI3⟩ := W3.sound
  set m3 : Memory := Function.update (Function.update (Function.update (Function.update m 0
    (wordByte w 0)) 1 (wordByte w 1)) 2 (wordByte w 2)) 3 (wordByte w 3) with hm3
  have hno : Paging.present (s.mem (s.dir 0) (PDX 0x400000)) = false := by
    rw [h.dir]
    exact h.no_table
  -- drain the free list by faults that map nothing
  obtain ⟨g', l', hdr, hI', hl', hown⟩ := drain E u3 0 0 0x400000
    (fun v op => op = .pagefault 0 0x400000 false ∧ (v.proc 0).sz = 0x800000) (by norm_num)
    (fun _ => ⟨rfl, W3.sz⟩) W3.running (by rw [W3.dir, W3.mem]; exact hno) u3.freelist.length
    (g := g3) (l := u3.freelist) hI3 (by omega)
  obtain rfl : l' = [] := List.eq_nil_of_length_eq_zero hl'
  have hdr' : Lib.Run (MemStep E 0) Mild (u3, m3) ({ u3 with freelist := [] }, m3) :=
    hdr.map (fun v => (v, m3)) (fun v op hop => by
      obtain ⟨rfl, hsz⟩ := hop
      have hlt : 0x400000 < (v.proc 0).sz := by
        rw [hsz]
        norm_num
      exact ⟨hlt, hlt, .inl (by decide)⟩) fun {v op v'} hop hst => ⟨hst, by rw [hop.1]; rfl⟩
  have hf3 : ∀ k ∈ [0, 1, 2], (u3.pte (s.dir 0) 0).getLsbD k = true := W3.flags
  refine ⟨g', _, m3, hrun1.trans (r0.trans (r1.trans (r2.trans (r3.trans hdr')))),
    ⟨hI', W3.running, W3.sz, W3.dir, rfl, ?_, hf3 0 (by simp), hf3 2 (by simp), ?_, W3.disk.bit,
      W3.disk.count.trans h.count, fun f hf => ?_⟩, ?_⟩
  · rw [show Kernel.mem { u3 with freelist := [] } (s.dir 0) = u3.mem (s.dir 0) from rfl, W3.mem]
    exact hno
  · rw [show Kernel.pte { u3 with freelist := [] } (s.dir 0) 0 = u3.pte (s.dir 0) 0 from rfl,
      W3.addr]
    rw [show Kernel.mem { u3 with freelist := [] } (PTE_ADDR (s.pte (s.dir 0) 0)) =
      u3.mem (PTE_ADDR (s.pte (s.dir 0) 0)) from rfl, p3, setByte_word]
  · exact (hown f (.inr (by rw [W3.freelist]; exact hf))).resolve_right (by simp)
  · simp [hm3]

/-- What `sys_swap` does to the cornered process: the frame `f` is freed, whoever
owns it, and the first word of page 0 turns into a swapped entry. -/
structure NullSwapped (E : Env) (u : Kernel) (x f b : ℕ) (t : Kernel) : Prop where
  run : (Op.sysSwap 0 0x400000).run E u = .ok (none, t)
  proc : SameProc u t
  freelist : t.freelist = [f]
  count : t.numallocblocks = u.numallocblocks + 1
  mem : t.mem = Function.update (Function.update u.mem x (Function.update (u.mem x) 0 (swappedPte b))) f
    (E.fill f (Function.update u.mem x (Function.update (u.mem x) 0 (swappedPte b)) f))

theorem Cornered.nullSwapped (h : Cornered demo s (userPte f) g t) (hbit : ∀ b, s.bit b = decide (b < 600))
    (h1 : demo.kend ≤ f) (h2 : f < NFRAMES) :
    ∃ b u, NullSwapped demo t (PTE_ADDR (t.pte (s.dir 0) 0)) f b u := by
  have haddr : PTE_ADDR (userPte f) = f := PTE_ADDR_userPte (h2.trans_le (by decide))
  have hpk : Packed t 600 := ⟨600, le_rfl, fun b => by rw [h.bit, hbit]⟩
  obtain ⟨b, s1, hb, -, hm1, hp1, hc1⟩ := ballocPage_packed hpk (show 600 + 8 ≤ demo.size by decide)
  obtain ⟨s2, hd, hm2, -, hc2⟩ := demo_writePageToDisk hp1 (show 600 + 8 + 8 ≤ FSSIZE by decide)
    (PTE_ADDR (userPte f)) b (t.proc 0).pid (PTE_ADDR (userPte f))
  have hnull := sysSwap_null (p := 0) (E := demo) rfl h.freelist (by rw [h.dir]; exact h.table)
    (by rw [h.dir]; exact h.present) (by rw [h.dir]; exact h.word) (present_userPte f)
    (by rwa [haddr]) (by rwa [haddr]) hb hm1 hd hm2
  rw [haddr, h.dir] at hnull
  have hmem : s2.mem = t.mem := hm2.mem.trans hm1.mem
  refine ⟨b, (s2.setWord (PTE_ADDR (t.pte (s.dir 0) 0)) 0 (swappedPte b)).kfreed demo f, ?_,
    (hm1.toSameProc.trans hm2.toSameProc).trans ⟨rfl, rfl, rfl, rfl⟩, ?_, ?_, ?_⟩
  · rw [Op.run, entry, bind_apply, get_apply]
    simp only [if_pos h.running, bind_apply, hnull, pure_apply]
  · simp only [Kernel.kfreed, Kernel.setWord_freelist, hm2.freelist, hm1.freelist, h.freelist]
  · change s2.numallocblocks = _
    rw [hc2, hc1]
  · simp only [Kernel.kfreed, Kernel.setFrame_mem, Kernel.setWord_mem, hmem]

/-- When the freed frame belonged to nobody, no entry changes, and the first word
of page 0 reads as the swapped entry. -/
theorem NullSwapped.free_frame {u : Kernel} {w : Word} {b : ℕ}
    (ht : NullSwapped E u (PTE_ADDR (u.pte (s.dir 0) 0)) f b t) (hc : Cornered E s w g u)
    (hf : f ∈ s.freelist) :
    (∀ p, (u.proc p).live → ∀ v, t.pte (u.dir p) v = u.pte (u.dir p) v) ∧
      t.mem (PTE_ADDR (u.pte (s.dir 0) 0)) 0 = swappedPte b := by
  have hx : g.frame (PTE_ADDR (u.pte (s.dir 0) 0)) = .page (s.dir 0) 0 := by
    have hS := hc.inv.space 0 hc.running.live
    rw [hc.dir] at hS
    exact (hS.entry 0 (by decide) trivial).frame hc.present
  have hloose := hc.loose f hf
  have hmem : ∀ y, g.frame y ≠ .loose → (∀ d v, g.frame y ≠ .page d v) → t.mem y = u.mem y := by
    intro y h1 h2
    have hyf : y ≠ f := by
      rintro rfl
      exact h1 hloose
    have hyx : y ≠ PTE_ADDR (u.pte (s.dir 0) 0) := by
      rintro rfl
      exact h2 _ _ hx
    rw [ht.mem, Function.update_of_ne hyf, Function.update_of_ne hyx]
  refine ⟨fun p hp v => ?_, ?_⟩
  · have hT := hc.inv.space p hp
    exact Kernel.pte_congr (hmem _ (by rw [hT.dir]; simp) (by rw [hT.dir]; simp)) fun hi =>
      hmem _ (by rw [hT.tab _ hi]; simp) (by rw [hT.tab _ hi]; simp)
  · have hne : PTE_ADDR (u.pte (s.dir 0) 0) ≠ f := fun e => by
      rw [e, hloose] at hx
      cases hx
    rw [ht.mem, Function.update_of_ne hne, Function.update_self, Function.update_self]

/-- A load from a page that is mapped for user code. -/
theorem load_total (hp : (s.proc p).running) (va : ℕ)
    (h0 : present (s.pte (s.dir p) (va / PGSIZE)) = true)
    (h2 : user (s.pte (s.dir p) (va / PGSIZE)) = true) :
    ∃ t, (Op.load p va).run E s =
      .ok (some (byteAt (s.mem (PTE_ADDR (s.pte (s.dir p) (va / PGSIZE)))) va), t) := by
  have ht := present_table_of_entry h0
  refine ⟨s.setWord (s.ptr (s.dir p) (va / PGSIZE)).1 (s.ptr (s.dir p) (va / PGSIZE)).2
    (s.pte (s.dir p) (va / PGSIZE) ||| PTE_A), ?_⟩
  rw [Op.run, entry, bind_apply, get_apply]
  simp only [if_pos hp, bind_apply, userLoad, get_apply]
  rw [Kernel.lookup_va, if_pos ht]
  simp only [bind_apply, readPte, get_apply, pure_apply, Kernel.mem_ptr ht]
  rw [if_neg (by simp [faults, h0, h2])]
  rfl

end Xv6Lab.Paging
