import Xv6Lab.Paging.FirstRun
import Xv6Lab.Paging.Drain
import Xv6Lab.Paging.Stops

/-! What `sys_swap` touches. It takes any address, and the page directory that it walks holds the
kernel's own mappings too. -/

namespace Xv6Lab.Paging

open Lib

variable {E : Env} {g g' : Ghost} {s t u : Kernel} {p q : Slot} {d f v pid addr : ℕ}

/-- The frame is a kernel stack, a page directory, a page table or a user page of a process. -/
def Kernel.Uses (s : Kernel) (f : ℕ) : Prop :=
  ∃ q, (s.proc q).live ∧ (f = (s.proc q).kstack ∨ f = s.dir q ∨
    (∃ i, present (s.mem (s.dir q) i) = true ∧ PTE_ADDR (s.mem (s.dir q) i) = f) ∨
    ∃ v < UVPN, present (s.pte (s.dir q) v) = true ∧ PTE_ADDR (s.pte (s.dir q) v) = f)

/-- `sys_swap` follows no null entry pointer, does not end in the panic of `kfree`, changes no entry
of the kernel half and frees no frame that is in use. -/
structure UserOnly (E : Env) (s : Kernel) (p : Slot) (addr : ℕ) : Prop where
  null : sysSwap E.stopAtNull p addr s ≠ .error .nullPte
  panic : sysSwap E p addr s ≠ .error (.panic "kfree in kalloc.c")
  kernel : ∀ t, sysSwap E p addr s = .ok ((), t) → ∀ q, (s.proc q).live →
    ∀ v, UVPN ≤ v → v < 2 ^ 20 → t.pte (s.dir q) v = s.pte (s.dir q) v
  frees : ∀ t, sysSwap E p addr s = .ok ((), t) → ∀ f,
    s.freelist.count f < t.freelist.count f → ¬ t.Uses f

/-- There is a page table for the address, or a frame for one; and a page that is present at the
address is below `KERNBASE`. -/
structure SwapsUser (s : Kernel) (p : Slot) (addr : ℕ) : Prop where
  table : present (s.mem (s.dir p) (PDX addr)) = true ∨ s.freelist ≠ []
  user : present (s.pte (s.dir p) (addr / PGSIZE)) = true → addr < KERNBASE

/-- The same machine with another file layer. -/
def Env.withInode (E : Env) (inode : Kernel → FsCall → List FileAct) : Env := { E with inode := inode }

theorem Inv.withInode (hI : Inv E g s) (inode : Kernel → FsCall → List FileAct) :
    Inv (E.withInode inode) g s :=
  ⟨⟨hI.base.nodup, hI.base.free, hI.base.range, hI.base.used, hI.base.files, hI.base.filesNodup,
    hI.base.sys⟩, hI.space, hI.kstack, hI.inj, hI.size, hI.embryo, hI.ktree, hI.kdir, hI.kentry,
    hI.count⟩

/-- No frame in use is free. -/
theorem Inv.not_uses (hI : Inv E g s) (hf : f ∈ s.freelist) : ¬ s.Uses f := by
  have hfree := (hI.base.free f).1 hf
  rintro ⟨q, hq, rfl | rfl | ⟨i, hi, rfl⟩ | ⟨v, hv, hp, rfl⟩⟩
  · rw [hI.kstack q hq] at hfree
    cases hfree
  · rw [(hI.space q hq).dir] at hfree
    cases hfree
  · rw [(hI.space q hq).tab i hi] at hfree
    cases hfree
  · rw [((hI.space q hq).entry v hv trivial).frame hp] at hfree
    cases hfree

theorem page_lt (ha : addr < 2 ^ 32) : addr / PGSIZE < 2 ^ 20 := by
  simp only [PGSIZE]
  omega

/-! ### User addresses -/

/-- Only the disk stops `sys_swap` there. -/
theorem sysSwap_stops (hI : Inv E g s) (hp : (s.proc p).live) (ha : addr < 2 ^ 32)
    (h : SwapsUser s p addr) : stops (sysSwap E p addr) Halt.Disk s := by
  have hS := hI.space p hp
  simp only [sysSwap, stops_bind, stops_get, wp_get, true_and]
  rw [show (s.proc p).pgdir = s.dir p from rfl, walkpgdir_va]
  rcases walkpgdir_cases hI.base hS.toTree (addr / PGSIZE) with ⟨hl, hn, -⟩ | ⟨g1, t1, hW, hw⟩
  · rcases h.table with htab | hne
    · rw [PDX_eq, hn] at htab
      cases htab
    · exact absurd hl hne
  · refine ⟨stops_of_eq hw, wp_of_eq hw ?_⟩
    have hS1 := hW.space hS
    simp only [sysSwapLoad, readPte, stops_bind, stops_get, stops_pure, wp_bind, wp_get, wp_pure,
      true_and, Kernel.mem_ptr hW.table]
    split_ifs with hpr
    · have hv := page_lt_UVPN (h.user (by rwa [← hW.pte _ (page_lt ha)]))
      exact swapPageFromPte_stops hW.base hpr ((hS1.entry _ hv trivial).frame hpr) _ _
    · rw [stops_pure]
      trivial

theorem sysSwap_userOnly (hI : Inv E g s) (hp : (s.proc p).live) (ha : addr < 2 ^ 32)
    (h : SwapsUser s p addr) : UserOnly E s p addr := by
  have hnull : sysSwap E.stopAtNull p addr s ≠ .error .nullPte := by
    intro he
    rcases sysSwap_stops hI.stopAtNull hp ha h _ he with he | he <;> cases he
  have hgoes : ∀ t, sysSwap E p addr s = .ok ((), t) → ∃ g', Lives E g s (s.dir p) g' t ∧
      ∀ v, UVPN ≤ v → v < 2 ^ 20 → t.pte (s.dir p) v = s.pte (s.dir p) v := by
    intro t ht
    have hagree := (sysSwap_agrees E p addr).eq_of_not_bad (s := s) fun e he => he ▸ hnull
    obtain ⟨g', hL, hk⟩ := sysSwap_lives rfl hI.stopAtNull.base (hI.space p hp) ha h.user _ t
      (hagree.trans ht)
    exact ⟨g', hL.of_stopAtNull, hk⟩
  refine ⟨hnull, fun he => ?_, fun t ht q hq v hv hv' => ?_, fun t ht f hf => ?_⟩
  · rcases sysSwap_stops hI hp ha h _ he with he | he
    · exact absurd he (by decide)
    · cases he
  · obtain ⟨g', hL, hk⟩ := hgoes t ht
    by_cases hqp : s.dir q = s.dir p
    · rw [hqp]
      exact hk v hv hv'
    · exact (hL.leaves.tree _ hqp (hI.space q hq).toTree).2.2 v
  · obtain ⟨g', hL, -⟩ := hgoes t ht
    exact (hI.lives hp hL).inv.not_uses (List.count_pos_iff.1 (by omega))

/-! ### Kernel addresses -/

theorem writePageToDisk_idle (hE : E.inode = fun _ _ => []) (frame blk pid pfn : ℕ) (s : Kernel) :
    ∃ t, writePageToDisk E frame blk pid pfn s = .ok ((), t) ∧ SameMem s t := by
  have hfile : ∀ c (s : Kernel), fileLayer E c s = .ok ((), s) := by
    intro c s
    rw [fileLayer, bind_apply, get_apply]
    simp only [hE, fileActs, pure_apply]
  have hparts : ∀ (is : List (Fin 8)) (s : Kernel), ∃ t,
      writeParts E frame blk is s = .ok ((), t) ∧ SameMem s t := by
    intro is
    induction is with
    | nil => exact fun s => ⟨s, rfl, .refl s⟩
    | cons i is ih =>
      intro s
      obtain ⟨t, ht, hm⟩ := ih (s.setBlock (blk + i) (part (s.mem frame) i))
      refine ⟨t, ?_, (SameMem.setBlock _ _ _).trans hm⟩
      rw [writeParts, bind_apply, get_apply]
      simp only [bind_apply, hfile, modify_apply]
      exact ht
  obtain ⟨t, ht, hm⟩ := hparts (List.finRange 8) s
  refine ⟨t, ?_, hm⟩
  rw [writePageToDisk, bind_apply, hfile]
  exact ht

/-- `sys_swap` on a present page of memory writes its entry and frees its frame, whatever the page
is. -/
theorem sysSwap_present (hE : E.inode = fun _ _ => []) (hrun : ∃ b, FreeRun s.bit E.size b)
    (hpr : present (s.pte (s.dir p) (addr / PGSIZE)) = true)
    (hf : PTE_ADDR (s.pte (s.dir p) (addr / PGSIZE)) < NFRAMES) :
    ∃ b u, SameMem s u ∧ sysSwap E p addr s =
      kfree E (PTE_ADDR (s.pte (s.dir p) (addr / PGSIZE)))
        (u.setWord (s.ptr (s.dir p) (addr / PGSIZE)).1 (s.ptr (s.dir p) (addr / PGSIZE)).2
          (swappedPte b)) := by
  set v := addr / PGSIZE with hv
  set ptr := s.ptr (s.dir p) v with hptr
  have htab := present_table_of_entry hpr
  have hload : ∀ u : Kernel, u.mem = s.mem → u.mem ptr.1 ptr.2 = s.pte (s.dir p) v := by
    intro u hu
    rw [hu]
    exact Kernel.mem_ptr htab
  obtain ⟨b, t1, ht1⟩ : ∃ b t1, ballocPage E.size s = .ok (b, t1) := by
    rcases ballocPage_cases E.size s with ⟨b, t1, ht1, -⟩ | ⟨-, hnone⟩
    · exact ⟨b, t1, ht1⟩
    · obtain ⟨b, hb⟩ := hrun
      exact absurd hb (hnone b)
  have hm1 := (ballocPage_spec E.size s _ _ ht1).mem
  obtain ⟨t2, ht2, hm2⟩ := writePageToDisk_idle hE (PTE_ADDR (s.pte (s.dir p) v)) b (s.proc p).pid
    (PTE_ADDR (s.pte (s.dir p) v)) t1
  refine ⟨b, t2, hm1.trans hm2, ?_⟩
  rw [sysSwap_of_present hpr, ← hv, ← hptr, swapPageFromPte]
  simp only [bind_apply, loadPte, readPte, get_apply, pure_apply, hload s rfl, ht1]
  rw [if_neg (by omega)]
  simp only [bind_apply, get_apply, pure_apply, hload t1 hm1.mem, ht2, storePte, writePte,
    modify_apply]

theorem not_userOnly_of_kernel (hI : Inv E g s) (hp : (s.proc p).live) (ha : addr < 2 ^ 32)
    (hE : E.inode = fun _ _ => []) (hrun : ∃ b, FreeRun s.bit E.size b)
    (hpr : present (s.pte (s.dir p) (addr / PGSIZE)) = true)
    (hf : PTE_ADDR (s.pte (s.dir p) (addr / PGSIZE)) < NFRAMES) (hk : KERNBASE ≤ addr) :
    ¬ UserOnly E s p addr := by
  intro h
  obtain ⟨b, u, hu, happ⟩ := sysSwap_present hE hrun hpr hf
  set v := addr / PGSIZE with hv
  set f := PTE_ADDR (s.pte (s.dir p) v) with hfr
  have hT := (hI.space p hp).toTree
  have htab := present_table_of_entry hpr
  by_cases hlow : f < E.kend
  · apply h.panic
    rw [happ, kfree, if_pos (.inl hlow)]
    rfl
  rw [kfree_apply (by omega) hf] at happ
  set t := (u.setWord (s.ptr (s.dir p) v).1 (s.ptr (s.dir p) v).2 (swappedPte b)).kfreed E f with ht
  have hcount : s.freelist.count f < t.freelist.count f := by
    rw [ht]
    simp [Kernel.kfreed, hu.freelist]
  have hunused := h.frees t happ f hcount
  have hproc : t.proc = s.proc := hu.proc
  have hdt : s.dir p ≠ (s.ptr (s.dir p) v).1 := by
    intro e
    have howner := hT.dir
    rw [e, show (s.ptr (s.dir p) v).1 = PTE_ADDR (s.mem (s.dir p) (pdx v)) from rfl,
      hT.tab _ htab] at howner
    cases howner
  have hlive : (t.proc p).live := by rwa [hproc]
  have hdir : t.dir p = s.dir p := by rw [Kernel.dir, hproc]; rfl
  by_cases hfd : f = s.dir p
  · exact hunused ⟨p, hlive, .inr (.inl (hfd.trans hdir.symm))⟩
  have hmemd : t.mem (s.dir p) = s.mem (s.dir p) := by
    rw [ht]
    simp [Kernel.kfreed, Ne.symm hfd, hdt, hu.mem]
  by_cases hft : f = (s.ptr (s.dir p) v).1
  · -- the page is the page table that maps it
    refine hunused ⟨p, hlive, .inr (.inr (.inl ⟨pdx v, ?_, ?_⟩))⟩
    · rwa [hdir, hmemd]
    · rw [hdir, hmemd, hft]
      rfl
  · have hne : PTE_ADDR (s.mem (s.dir p) (pdx v)) ≠ f := Ne.symm hft
    have hpte : t.pte (s.dir p) v = swappedPte b := by
      rw [Kernel.pte_of_present (by rwa [hmemd]), hmemd, ht]
      simp [Kernel.kfreed, Kernel.ptr, hne]
    have hsame := h.kernel t happ p hp v (by
      simp only [hv, UVPN, PGSIZE, KERNBASE] at hk ⊢
      omega) (page_lt ha)
    rw [hpte] at hsame
    rw [← hsame] at hpr
    simp at hpr

theorem not_userOnly_of_full (hl : s.freelist = [])
    (htab : present (s.mem (s.dir p) (PDX addr)) = false) : ¬ UserOnly E s p addr := by
  intro h
  apply h.null
  have hkalloc : kalloc E.stopAtNull s = .ok (none, s) := by
    rcases kalloc_cases E.stopAtNull s with ⟨-, hk⟩ | ⟨f, l, hperm, -⟩
    · exact hk
    · rw [hl] at hperm
      cases hperm.length_eq
  have hlookup : s.lookup (s.dir p) addr = none := by
    rw [Kernel.lookup]
    simp [htab]
  have hwalk : walkpgdir E.stopAtNull (s.dir p) addr true s = .ok (none, s) := by
    rw [walkpgdir, bind_apply, get_apply]
    simp only [hlookup, ↓reduceIte, bind_apply, hkalloc, pure_apply]
  rw [sysSwap, bind_apply, get_apply]
  simp only [show (s.proc p).pgdir = s.dir p from rfl, bind_apply, hwalk, sysSwapLoad]
  rfl

/-- `sys_swap` touches the user memory of its caller only, whatever the file layer does, where there
is a page table for the address or a frame for one and a page that is present there is a user
page. With eight consecutive free blocks on the disk, and but for device space, only there. -/
theorem sysSwap_userOnly_iff (E : Env) (g : Ghost) (s : Kernel) (p : Slot) (addr : ℕ)
    (hI : Inv E g s) (hp : (s.proc p).live) (ha : addr < 2 ^ 32) :
    (SwapsUser s p addr → ∀ inode, UserOnly (E.withInode inode) s p addr) ∧
    ((∃ b, FreeRun s.bit E.size b) →
      (present (s.pte (s.dir p) (addr / PGSIZE)) = true →
        PTE_ADDR (s.pte (s.dir p) (addr / PGSIZE)) < NFRAMES) →
      (∀ inode, UserOnly (E.withInode inode) s p addr) → SwapsUser s p addr) := by
  refine ⟨fun h inode => sysSwap_userOnly (hI.withInode inode) hp ha h, fun hrun hf h => ⟨?_, ?_⟩⟩
  · by_contra hno
    rw [not_or, not_not] at hno
    exact not_userOnly_of_full hno.2 (by simpa using hno.1) (h fun _ _ => [])
  · intro hpr
    by_contra hk
    exact not_userOnly_of_kernel (hI.withInode fun _ _ => []) hp ha rfl hrun hpr (hf hpr) (by omega)
      (h fun _ _ => [])

theorem sysSwap_userOnly_boot : ∃ s, boot demo (fun _ => 0#32)
    (demo.powerOn (fun _ _ => 0#32) fun _ _ => 0#32) = .ok ((), s) ∧
      present (s.pte (s.dir 0) 0) = true ∧ ∀ inode, UserOnly (demo.withInode inode) s 0 0 := by
  obtain ⟨g, s, d, hb, h⟩ := boot_total demo (fun _ => 0#32) (fun _ _ => 0#32) fun _ _ => 0#32
  have hlive : (s.proc 0).live := by
    rw [Proc.live, h.state]
    decide
  have hp : present (s.pte (s.dir 0) 0) = true := by
    rw [h.dir]
    exact h.present
  exact ⟨s, hb, hp, (sysSwap_userOnly_iff demo g s 0 0 h.inv hlive (by decide)).1
    ⟨.inr h.freelist_ne_nil, fun _ => by decide⟩⟩

/-- A process with its directory in frame 300, one page in frame 303 and its kernel stack in frame
304; the table in frame 302 maps all of memory from `KERNBASE` on. -/
def kernelMapped : Kernel where
  mem f :=
    if f = 300 then Function.update (Function.update (fun _ => 0#32) 0 (userPte 301)) 512 (userPte 302)
    else if f = 301 then Function.update (fun _ => 0#32) 0 (userPte 303)
    else if f = 302 then fun i => V2P i ||| PTE_W ||| PTE_P
    else fun _ => 0#32
  freelist := []
  bit := fun b => b < 600
  block := fun _ _ => 0#32
  numallocblocks := 0
  files := []
  kpgdir := 299
  proc := Function.update (fun _ => Proc.unused) 0 ⟨.RUNNING, 1, none, 300, 304, 0x1000⟩
  nextpid := 2
  initproc := 0

/-- The address of its own kernel stack, given to `sys_swap`, frees the stack. -/
theorem sysSwap_frees_kernel_stack : ¬ UserOnly demo kernelMapped 0 0x80130000 ∧
    ∃ t, sysSwap demo 0 0x80130000 kernelMapped = .ok ((), t) ∧
      present (kernelMapped.pte 300 (UVPN + 304)) = true ∧
      present (t.pte 300 (UVPN + 304)) = false ∧ t.freelist = [(kernelMapped.proc 0).kstack] := by
  have hrun : ((sysSwap demo 0 0x80130000 kernelMapped).toOption.map fun r =>
      (present (r.2.pte 300 (UVPN + 304)), r.2.freelist)) =
      some (false, [(kernelMapped.proc 0).kstack]) := by decide +kernel
  have hs : present (kernelMapped.pte 300 (UVPN + 304)) = true := by decide +kernel
  obtain ⟨⟨_, t⟩, hr, heq⟩ := Option.map_eq_some_iff.mp hrun
  have h := Lib.ok_of_toOption hr
  simp only [Prod.mk.injEq] at heq
  obtain ⟨ht, hl⟩ := heq
  refine ⟨fun hu => ?_, t, h, hs, ht, hl⟩
  have hsame := hu.kernel t h 0 (by decide) (UVPN + 304) (by omega) (by decide)
  rw [show kernelMapped.dir 0 = 300 from rfl] at hsame
  rw [hsame, hs] at ht
  cases ht

end Xv6Lab.Paging
