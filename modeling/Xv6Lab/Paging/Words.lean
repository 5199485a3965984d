import Xv6Lab.Paging.Sizes

/-! Sizes as the source computes them. A size is a `uint`, whose sums wrap around,
and `growproc` compares it with an `int`. As long as every size is at most
`KERNBASE`, this kernel does what the kernel of `Proc.lean` does on natural
numbers; and every operation keeps the sizes there. -/

namespace Xv6Lab.Paging

open Lib

variable {E : Env} {s : Kernel} {p : Slot} {d : ℕ}

def Proc.size (x : Proc) : Word := BitVec.ofNat 32 x.sz

def Uint.KERNBASE : Word := 0x80000000#32
def Uint.PGSIZE : Word := 4096#32

def Uint.PGROUNDUP (sz : Word) : Word := (sz + Uint.PGSIZE - 1#32) &&& ~~~(Uint.PGSIZE - 1#32)

/-- `n < 0 || n > KERNBASE || sz + n > KERNBASE`; the constant is unsigned, and so
are the last two comparisons. `false` is the result -1. -/
def Uint.growproc (p : Slot) (n : Word) : K Bool := do
  let s ← get
  let x := s.proc p
  if n.slt 0#32 ∨ Uint.KERNBASE < n ∨ Uint.KERNBASE < x.size + n then pure false
  else do
    modify (·.setProc p { x with sz := (x.size + n).toNat })
    pure true

/-- The loop of `allocuvm` from address `a` on. An address space has `2 ^ 20` pages,
so `fuel` does not run out. -/
def Uint.allocuvmLoop (E : Env) (pgdir : ℕ) (newsz oldsz : Word) : (fuel : ℕ) → (a : Word) → K Word
  | 0, _ => throw .illegal
  | fuel + 1, a =>
    if a < newsz then do
      match ← kalloc E with
      | none => do
        let _ ← deallocuvm E pgdir newsz.toNat oldsz.toNat
        pure 0#32
      | some mem => do
        setFrame mem fun _ => 0#32
        if ← mappages E pgdir a.toNat Paging.PGSIZE mem (PTE_W ||| PTE_U) then
          Uint.allocuvmLoop E pgdir newsz oldsz fuel (a + Uint.PGSIZE)
        else do
          let _ ← deallocuvm E pgdir newsz.toNat oldsz.toNat
          kfree E mem
          pure 0#32
    else pure newsz

def Uint.allocuvm (E : Env) (pgdir : ℕ) (oldsz newsz : Word) : K Word :=
  if Uint.KERNBASE ≤ newsz then pure 0#32
  else if newsz < oldsz then pure oldsz
  else Uint.allocuvmLoop E pgdir newsz oldsz (2 ^ 20 + 1) (Uint.PGROUNDUP oldsz)

/-- The loop of `exec` over the program headers; the sum `vaddr + memsz` is found to
wrap around by comparing it with `vaddr`. -/
def Uint.loadSegments (E : Env) (pgdir : ℕ) (ip : Image) :
    List (Option ProgHdr) → Word → K (Option Word)
  | [], sz => pure (some sz)
  | none :: _, _ => pure none
  | some ph :: phs, sz =>
    let vaddr := BitVec.ofNat 32 ph.vaddr
    let filesz := BitVec.ofNat 32 ph.filesz
    let memsz := BitVec.ofNat 32 ph.memsz
    if ph.load = false then Uint.loadSegments E pgdir ip phs sz
    else if memsz < filesz then pure none
    else if vaddr + memsz < vaddr then pure none
    else do
      let sz ← Uint.allocuvm E pgdir sz (vaddr + memsz)
      if sz = 0#32 then pure none
      else if vaddr % Uint.PGSIZE ≠ 0#32 then pure none
      else if ← loaduvm pgdir vaddr.toNat ip ph.off filesz.toNat then
        Uint.loadSegments E pgdir ip phs sz
      else pure none

def Uint.buildImage (E : Env) (cur pid cursz pgdir : ℕ) (ip : Image) (argv : List ℕ) :
    K (Option Word) := do
  match ← Uint.loadSegments E pgdir ip ip.phdrs 0#32 with
  | none => pure none
  | some sz => do
    fileLayer E (.exec pid)
    let sz := Uint.PGROUNDUP sz
    let sz ← Uint.allocuvm E pgdir sz (sz + 2#32 * Uint.PGSIZE)
    if sz = 0#32 then pure none
    else do
      clearpteu pgdir (sz - 2#32 * Uint.PGSIZE).toNat
      match ← pushArgs E cur pid cursz pgdir argv sz.toNat [] with
      | none => pure none
      | some (sp, addrs) => do
        let n := 4 * (3 + addrs.length + 1)
        let argvp := (sp + 2 ^ 32 - (addrs.length + 1) * 4) % 2 ^ 32
        let sp := (sp + 2 ^ 32 - n) % 2 ^ 32
        if ← copyout E cur pgdir (fun k => pure (ustackByte addrs.length argvp addrs.reverse k)) n sp 0
        then pure (some sz)
        else pure none

def Uint.exec (E : Env) (p : Slot) (ip : Image) (argv : List ℕ) : K Unit := do
  let s ← get
  let x := s.proc p
  if ip.magic = false then pure ()
  else do
    match ← setupkvm E with
    | none => pure ()
    | some pgdir => do
      match ← Uint.buildImage E x.pgdir x.pid x.sz pgdir ip argv with
      | none => freevm E pgdir
      | some sz => do
        modify fun s => s.setProc p { s.proc p with pgdir := pgdir, sz := sz.toNat }
        freevm E x.pgdir

/-- One operation of the kernel that computes sizes in 32 bits. -/
def Uint.run (E : Env) : Op → K (Option Byte)
  | .sbrk p n => entry p do
    let _ ← Uint.growproc p (BitVec.ofInt 32 n)
    pure none
  | .exec p ip argv => entry p do
    Uint.exec E p ip argv
    pure none
  | op => op.run E

def Uint.Step (E : Env) (s : Kernel) (op : Op) (t : Kernel) : Prop :=
  ∃ r, Uint.run E op s = .ok (r, t)

/-! ### The same on natural numbers -/

/-- What 32 bits hold of a program header. -/
def ProgHdr.bits (ph : ProgHdr) : ProgHdr :=
  { ph with vaddr := ph.vaddr % 2 ^ 32, filesz := ph.filesz % 2 ^ 32, memsz := ph.memsz % 2 ^ 32 }

def Image.bits (ip : Image) : Image := { ip with phdrs := ip.phdrs.map (Option.map ProgHdr.bits) }

/-- What 32 bits hold of the arguments of an operation. -/
def Op.bits : Op → Op
  | .sbrk p n => .sbrk p (BitVec.ofInt 32 n).toInt
  | .exec p ip argv => .exec p ip.bits argv
  | op => op

theorem Proc.size_toNat {x : Proc} (h : x.sz ≤ KERNBASE) : x.size.toNat = x.sz := by
  rw [Proc.size, BitVec.toNat_ofNat]
  exact Nat.mod_eq_of_lt (h.trans_lt (by decide))

/-- Clearing the low twelve bits rounds down to a page. -/
theorem toNat_page_mask (w : Word) :
    (w &&& ~~~(Uint.PGSIZE - 1#32)).toNat = w.toNat / Paging.PGSIZE * Paging.PGSIZE := by
  have hw := w.isLt
  rw [show ~~~(Uint.PGSIZE - 1#32) = BitVec.allOnes 32 <<< 12 by decide,
    ← BitVec.shiftLeft_ushiftRight, BitVec.toNat_shiftLeft, BitVec.toNat_ushiftRight,
    Nat.shiftLeft_eq, Nat.shiftRight_eq_div_pow]
  apply Nat.mod_eq_of_lt
  omega

theorem Uint.PGROUNDUP_toNat {sz : Word} (h : sz.toNat ≤ Paging.KERNBASE) :
    (Uint.PGROUNDUP sz).toNat = Paging.PGROUNDUP sz.toNat := by
  have hsum : (sz + Uint.PGSIZE - 1#32).toNat = sz.toNat + Paging.PGSIZE - 1 := by
    simp only [Paging.KERNBASE] at h
    rw [BitVec.toNat_sub, BitVec.toNat_add]
    simp only [Uint.PGSIZE, BitVec.toNat_ofNat, Paging.PGSIZE]
    omega
  rw [Uint.PGROUNDUP, toNat_page_mask, hsum, Paging.PGROUNDUP]

theorem Uint.growproc_eq (h : (s.proc p).sz ≤ Paging.KERNBASE) (n : Word) :
    (do let _ ← Uint.growproc p n; pure () : K Unit) s = Paging.growproc p n.toInt s := by
  have hsz := Proc.size_toNat h
  have hn := n.isLt
  simp only [Paging.KERNBASE] at h
  have hslt : n.slt 0#32 = true ↔ n.toInt < 0 := by
    rw [BitVec.slt_iff_toInt_lt]
    rfl
  unfold Uint.growproc Paging.growproc
  rw [bind_apply, bind_apply, bind_apply]
  simp only [get_apply]
  by_cases hneg : n.toInt < 0
  · rw [if_pos (.inl (hslt.2 hneg)), if_pos (.inl hneg)]
    rfl
  · have hint : n.toInt = n.toNat := by
      rw [BitVec.toInt_eq_toNat_cond] at hneg ⊢
      split_ifs at hneg ⊢ <;> omega
    have hlt : n.toNat < 2 ^ 31 := by
      rw [BitVec.toInt_eq_toNat_cond] at hint
      split_ifs at hint <;> omega
    have hsum : ((s.proc p).size + n).toNat = (s.proc p).sz + n.toNat := by
      rw [BitVec.toNat_add, hsz]
      exact Nat.mod_eq_of_lt (by omega)
    have hiff : (n.slt 0#32 = true ∨ Uint.KERNBASE < n ∨ Uint.KERNBASE < (s.proc p).size + n) ↔
        (n.toInt < 0 ∨ Paging.KERNBASE < n.toInt ∨ Paging.KERNBASE < (s.proc p).sz + n.toInt) := by
      rw [hslt, BitVec.lt_def, BitVec.lt_def, hsum, hint]
      simp only [Uint.KERNBASE, Paging.KERNBASE, BitVec.toNat_ofNat]
      omega
    by_cases hc : n.toInt < 0 ∨ Paging.KERNBASE < n.toInt ∨ Paging.KERNBASE < (s.proc p).sz + n.toInt
    · rw [if_pos (hiff.2 hc), if_pos hc]
      rfl
    · rw [if_neg (mt hiff.1 hc), if_neg hc, hsum, hint]
      rfl
/-! ### The loops -/

theorem Uint.allocuvmLoop_eq {newsz oldsz a : Word} (hnew : newsz.toNat < Paging.KERNBASE)
    {n v fuel : ℕ} (ha : a.toNat = v * Paging.PGSIZE) (hn : npages newsz.toNat - v = n)
    (hfuel : n < fuel) :
    Uint.allocuvmLoop E d newsz oldsz fuel a =
      BitVec.ofNat 32 <$> Paging.allocuvmLoop E d newsz.toNat oldsz.toNat n v := by
  induction fuel generalizing n v a with
  | zero => exact absurd hfuel (Nat.not_lt_zero n)
  | succ fuel ih =>
    have hlt : a < newsz ↔ v < npages newsz.toNat := by
      rw [BitVec.lt_def, ha, npages]
      simp only [Paging.PGSIZE]
      omega
    cases n with
    | zero =>
      rw [Uint.allocuvmLoop, if_neg (by rw [hlt]; omega), Paging.allocuvmLoop, map_pure,
        BitVec.ofNat_toNat, BitVec.setWidth_eq]
    | succ n =>
      have hv : v < npages newsz.toNat := by omega
      have hnext : (a + Uint.PGSIZE).toNat = (v + 1) * Paging.PGSIZE := by
        have hle : v * Paging.PGSIZE < newsz.toNat := by
          rw [← ha, ← BitVec.lt_def]
          exact hlt.2 hv
        rw [BitVec.toNat_add, ha]
        simp only [Uint.PGSIZE, Paging.PGSIZE, Paging.KERNBASE, BitVec.toNat_ofNat] at hle hnew ⊢
        omega
      rw [Uint.allocuvmLoop, if_pos (hlt.2 hv), Paging.allocuvmLoop, map_bind, ha]
      apply bind_congr
      intro r
      cases r with
      | none => simp only [map_bind, map_pure]
      | some mem =>
        simp only [map_bind]
        apply bind_congr
        intro _
        apply bind_congr
        intro ok
        split_ifs
        · exact ih hnext (by omega) (by omega)
        · simp only [map_bind, map_pure]

theorem Uint.allocuvm_eq (oldsz newsz : Word) : Uint.allocuvm E d oldsz newsz =
    BitVec.ofNat 32 <$> Paging.allocuvm E d oldsz.toNat newsz.toNat := by
  unfold Uint.allocuvm Paging.allocuvm
  have hK : Uint.KERNBASE ≤ newsz ↔ Paging.KERNBASE ≤ newsz.toNat := Iff.rfl
  have hlt : newsz < oldsz ↔ newsz.toNat < oldsz.toNat := Iff.rfl
  simp only [hK, hlt]
  split_ifs with hk hn
  · rw [map_pure]
  · rw [map_pure, BitVec.ofNat_toNat, BitVec.setWidth_eq]
  · have hnew : newsz.toNat < Paging.KERNBASE := not_le.1 hk
    apply Uint.allocuvmLoop_eq hnew _ rfl
    · simp only [npages, Paging.PGSIZE, Paging.KERNBASE] at hnew ⊢
      omega
    · rw [Uint.PGROUNDUP_toNat ((not_lt.1 hn).trans hnew.le)]
      rfl

theorem toNat_ofNat_of_lt {n : ℕ} (h : n < KERNBASE) : (BitVec.ofNat 32 n).toNat = n := by
  rw [BitVec.toNat_ofNat]
  exact Nat.mod_eq_of_lt (h.trans (by decide))

theorem ofNat_eq_zero_of_lt {n : ℕ} (h : n < KERNBASE) : BitVec.ofNat 32 n = 0#32 ↔ n = 0 := by
  rw [← BitVec.toNat_inj, toNat_ofNat_of_lt h]
  rfl

theorem loaduvmLoop_bits (ip : Image) (offset sz n v i : ℕ) :
    loaduvmLoop d ip.bits offset sz n v i = loaduvmLoop d ip offset sz n v i := by
  induction n generalizing v i with
  | zero => rfl
  | succ n ih =>
    unfold loaduvmLoop
    simp only [ih]
    rfl

theorem Uint.loadSegments_eq (ip : Image) (phs : List (Option ProgHdr)) {sz : Word}
    (h : sz.toNat < Paging.KERNBASE) (s : Kernel) :
    Uint.loadSegments E d ip phs sz s = (Option.map (BitVec.ofNat 32) <$>
      Paging.loadSegments E d ip.bits (phs.map (Option.map ProgHdr.bits)) sz.toNat) s := by
  induction phs generalizing sz s with
  | nil => simp [Uint.loadSegments, Paging.loadSegments]
  | cons ph phs ih =>
    cases ph with
    | none => simp [Uint.loadSegments, Paging.loadSegments]
    | some ph =>
      have hmem : BitVec.ofNat 32 ph.memsz < BitVec.ofNat 32 ph.filesz ↔
          ph.memsz % 2 ^ 32 < ph.filesz % 2 ^ 32 := by
        rw [BitVec.lt_def, BitVec.toNat_ofNat, BitVec.toNat_ofNat]
      have hwrap : BitVec.ofNat 32 ph.vaddr + BitVec.ofNat 32 ph.memsz < BitVec.ofNat 32 ph.vaddr ↔
          2 ^ 32 ≤ ph.vaddr % 2 ^ 32 + ph.memsz % 2 ^ 32 := by
        rw [BitVec.lt_def, BitVec.toNat_add, BitVec.toNat_ofNat, BitVec.toNat_ofNat]
        omega
      have halign : BitVec.ofNat 32 ph.vaddr % Uint.PGSIZE ≠ 0#32 ↔
          ph.vaddr % 2 ^ 32 % Paging.PGSIZE ≠ 0 := by
        rw [← BitVec.toNat_inj.ne, BitVec.toNat_umod, BitVec.toNat_ofNat]
        rfl
      simp only [Uint.loadSegments, Paging.loadSegments, List.map_cons, Option.map_some,
        ProgHdr.bits, hmem, hwrap]
      by_cases hl : ph.load = false
      · rw [if_pos hl, if_pos hl]
        exact ih h s
      by_cases hf : ph.memsz % 2 ^ 32 < ph.filesz % 2 ^ 32
      · rw [if_neg hl, if_neg hl, if_pos hf, if_pos hf, map_pure, Option.map_none]
      by_cases hw : 2 ^ 32 ≤ ph.vaddr % 2 ^ 32 + ph.memsz % 2 ^ 32
      · rw [if_neg hl, if_neg hl, if_neg hf, if_neg hf, if_pos hw, if_pos hw, map_pure,
          Option.map_none]
      · have hsum : (BitVec.ofNat 32 ph.vaddr + BitVec.ofNat 32 ph.memsz).toNat =
            ph.vaddr % 2 ^ 32 + ph.memsz % 2 ^ 32 := by
          rw [BitVec.toNat_add, BitVec.toNat_ofNat, BitVec.toNat_ofNat]
          omega
        rw [if_neg hl, if_neg hl, if_neg hf, if_neg hf, if_neg hw, if_neg hw]
        rw [Uint.allocuvm_eq, hsum, bind_map_left, map_bind]
        apply bind_congr_of_wp
        refine wp_mono (allocuvm_lt h _ s) fun r t hr => ?_
        simp only [ofNat_eq_zero_of_lt hr, halign]
        split_ifs
        · rfl
        · rfl
        · rw [map_bind, BitVec.toNat_ofNat, BitVec.toNat_ofNat, loaduvm, loaduvm, loaduvmLoop_bits]
          apply bind_congr_of_wp
          intro ok u _
          split_ifs
          · rw [ih (by rwa [toNat_ofNat_of_lt hr]), toNat_ofNat_of_lt hr]
          · rfl

theorem Uint.buildImage_eq (cur pid cursz : ℕ) (ip : Image) (argv : List ℕ) (s : Kernel) :
    Uint.buildImage E cur pid cursz d ip argv s = (Option.map (BitVec.ofNat 32) <$>
      Paging.buildImage E cur pid cursz d ip.bits argv) s := by
  have hzero : (0#32).toNat < Paging.KERNBASE := by decide
  unfold Uint.buildImage Paging.buildImage
  rw [bind_apply, Uint.loadSegments_eq ip ip.phdrs hzero, ← bind_apply, bind_map_left, map_bind]
  apply bind_congr_of_wp
  refine wp_mono (loadSegments_lt ip.bits _ (by decide) s) fun r t hr => ?_
  cases r with
  | none => rfl
  | some sz =>
    have hsz : (BitVec.ofNat 32 sz).toNat = sz := toNat_ofNat_of_lt (hr sz rfl)
    have hround : (Uint.PGROUNDUP (BitVec.ofNat 32 sz)).toNat = Paging.PGROUNDUP sz := by
      rw [Uint.PGROUNDUP_toNat (by rw [hsz]; exact (hr sz rfl).le), hsz]
    have htop : (Uint.PGROUNDUP (BitVec.ofNat 32 sz) + 2#32 * Uint.PGSIZE).toNat =
        Paging.PGROUNDUP sz + 2 * Paging.PGSIZE := by
      have := hr sz rfl
      rw [BitVec.toNat_add, hround]
      simp only [Paging.PGROUNDUP, Paging.PGSIZE, Paging.KERNBASE, Uint.PGSIZE, BitVec.toNat_mul,
        BitVec.toNat_ofNat] at this ⊢
      omega
    simp only [Option.map_some, map_bind]
    apply bind_congr_of_wp
    intro _ t1 _
    rw [Uint.allocuvm_eq, hround, htop, bind_map_left]
    apply bind_congr_of_wp
    refine wp_mono (allocuvm_stack _ t1) fun r t2 hr2 => ?_
    have hlt : r < Paging.KERNBASE := by
      rcases hr2 with rfl | ⟨-, h⟩
      · decide
      · exact h
    simp only [ofNat_eq_zero_of_lt hlt]
    split_ifs with h0
    · rfl
    · have hguard : (BitVec.ofNat 32 r - 2#32 * Uint.PGSIZE).toNat = r - 2 * Paging.PGSIZE := by
        have hge := (hr2.resolve_left h0).1
        rw [BitVec.toNat_sub, toNat_ofNat_of_lt hlt]
        simp only [Paging.PGSIZE, Paging.KERNBASE, Uint.PGSIZE, BitVec.toNat_mul,
          BitVec.toNat_ofNat] at hge hlt ⊢
        omega
      rw [hguard, toNat_ofNat_of_lt hlt, map_bind]
      apply bind_congr_of_wp
      intro _ t3 _
      rw [map_bind]
      apply bind_congr_of_wp
      intro r' t4 _
      cases r' with
      | none => rfl
      | some r' =>
        simp only [map_bind]
        apply bind_congr_of_wp
        intro ok t5 _
        split_ifs <;> rfl

theorem Uint.exec_eq (p : Slot) (ip : Image) (argv : List ℕ) (s : Kernel) :
    Uint.exec E p ip argv s = Paging.exec E p ip.bits argv s := by
  unfold Uint.exec Paging.exec
  apply bind_congr_of_wp
  intro u t _
  have hbits : ip.bits.magic = ip.magic := rfl
  rw [hbits]
  by_cases hm : ip.magic = false
  · rw [if_pos hm, if_pos hm]
  · rw [if_neg hm, if_neg hm]
    apply bind_congr_of_wp
    intro r t _
    cases r with
    | none => rfl
    | some pgdir =>
      simp only
      rw [bind_apply, Uint.buildImage_eq, ← bind_apply, bind_map_left]
      apply bind_congr_of_wp
      refine wp_mono (buildImage_lt _ _ _ _ _ _ t) fun r u hr => ?_
      cases r with
      | none => rfl
      | some sz =>
        simp only [Option.map_some, toNat_ofNat_of_lt (hr sz rfl)]

/-- With 32-bit sizes an operation does what it does with numbers, its arguments
being cut to 32 bits. -/
theorem Uint.run_eq (h : Sized s) (op : Op) : Uint.run E op s = op.bits.run E s := by
  cases op with
  | sbrk p n =>
    simp only [Uint.run, Op.bits, Op.run, entry, bind_apply, get_apply]
    split_ifs
    · have := Uint.growproc_eq (h p) (BitVec.ofInt 32 n)
      simp only [bind_apply] at this ⊢
      rw [← this]
      cases Uint.growproc p (BitVec.ofInt 32 n) s <;> rfl
    · rfl
  | exec p ip argv =>
    simp only [Uint.run, Op.bits, Op.run, entry, bind_apply, get_apply]
    split_ifs
    · simp only [bind_apply, Uint.exec_eq]
    · rfl
  | _ => rfl

theorem Sized.step (h : Sized s) {op : Op} {t : Kernel} (hst : Uint.Step E s op t) : Sized t := by
  obtain ⟨r, hr⟩ := hst
  rw [Uint.run_eq h] at hr
  exact op.bits.run_sized h r t hr

/-- From a machine with small sizes the 32-bit kernel runs as the kernel on numbers
does, and the sizes stay small. -/
theorem Sized.run {t : Kernel} (h : Sized s)
    (hr : Run (Uint.Step E) (fun _ _ => True) s t) : Sized t :=
  hr.invariant h fun hs _ hst => hs.step hst

end Xv6Lab.Paging
