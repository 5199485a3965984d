import Mathlib.Data.BitVec
import Mathlib.Data.Fin.Basic
import Mathlib.Tactic.NormNum

/-! The x86 page-table constants of `mmu.h` and `memlayout.h`. A page-table entry
is a 32-bit word: its upper twenty bits are a frame number (or, in a swapped
entry, a disk block number) and its lower twelve bits are flags. Physical
addresses are always used page by page and are represented by their frame
number; virtual addresses are natural numbers below `2 ^ 32`. A page is split
into 1024 words, which is also the shape of a page table. -/

namespace Xv6Lab.Paging

abbrev Word := BitVec 32

/-- The 4096 bytes of a frame as 1024 little-endian words. -/
abbrev Page := Fin 1024 → Word

instance neZeroWords : NeZero 1024 := ⟨by decide⟩

def PGSIZE : ℕ := 4096
def KERNBASE : ℕ := 0x80000000
def EXTMEM : ℕ := 0x100000
def PHYSTOP : ℕ := 0x400000
def DEVSPACE : ℕ := 0xFE000000

/-- Frames below the top of physical memory. -/
def NFRAMES : ℕ := PHYSTOP / PGSIZE

/-- Pages below `KERNBASE`. -/
def UVPN : ℕ := KERNBASE / PGSIZE

def PTE_P : Word := 0x001#32
def PTE_W : Word := 0x002#32
def PTE_U : Word := 0x004#32
def PTE_A : Word := 0x020#32
def PTE_D : Word := 0x040#32
def PTE_SWAPPED : Word := 0x200#32

/-- Page directory index. -/
def PDX (va : ℕ) : Fin 1024 := ⟨va / 2 ^ 22 % 1024, Nat.mod_lt _ (by norm_num)⟩

/-- Page table index. -/
def PTX (va : ℕ) : Fin 1024 := ⟨va / 2 ^ 12 % 1024, Nat.mod_lt _ (by norm_num)⟩

def PGROUNDUP (sz : ℕ) : ℕ := (sz + PGSIZE - 1) / PGSIZE * PGSIZE
def PGROUNDDOWN (a : ℕ) : ℕ := a / PGSIZE * PGSIZE

/-- Frame number (block number in a swapped entry): `PTE_ADDR(pte) >> 12`. -/
def PTE_ADDR (pte : Word) : ℕ := (pte >>> 12).toNat

def PTE_FLAGS (pte : Word) : Word := pte &&& 0xFFF#32

/-- Physical address of a frame, as the upper bits of an entry. -/
def V2P (frame : ℕ) : Word := BitVec.ofNat 32 (frame * PGSIZE)

/-! ### Flag tests -/

def present (pte : Word) : Bool := pte.getLsbD 0
def writable (pte : Word) : Bool := pte.getLsbD 1
def user (pte : Word) : Bool := pte.getLsbD 2
def swapped (pte : Word) : Bool := pte.getLsbD 9

/-- The hardware raises a page fault for a user-mode access through the entry `w`. -/
def faults (w : Word) (write : Bool) : Bool :=
  !(present w && user w && (!write || writable w))

/-- `*pte & flag` of a one-bit flag is nonzero exactly when that bit is set. -/
theorem and_twoPow_ne_zero (w : Word) (k : ℕ) (hk : k < 32) :
    w &&& BitVec.twoPow 32 k ≠ 0#32 ↔ w.getLsbD k = true := by
  rw [BitVec.and_twoPow]
  split_ifs with h
  · simp only [h, iff_true]
    intro h0
    have := congrArg (BitVec.getLsbD · k) h0
    simp [hk] at this
  · simp [h]

theorem and_PTE_P (w : Word) : w &&& PTE_P ≠ 0#32 ↔ present w = true :=
  and_twoPow_ne_zero w 0 (by norm_num)

/-! ### Entries made of a frame and flags -/

theorem PTE_ADDR_lt (w : Word) : PTE_ADDR w < 2 ^ 20 := by
  have := w.isLt
  simp only [PTE_ADDR, BitVec.toNat_ushiftRight, Nat.shiftRight_eq_div_pow]
  omega

theorem PTE_ADDR_V2P_or {f : ℕ} (hf : f < 2 ^ 20) {fl : Word} (h : fl >>> 12 = 0#32) :
    PTE_ADDR (V2P f ||| fl) = f := by
  rw [PTE_ADDR, BitVec.ushiftRight_or_distrib, h, V2P, PGSIZE]
  simp only [BitVec.or_zero, BitVec.toNat_ushiftRight, BitVec.toNat_ofNat,
    Nat.shiftRight_eq_div_pow]
  omega

theorem getLsbD_V2P_or (f : ℕ) (fl : Word) {k : ℕ} (hk : k < 12) :
    (V2P f ||| fl).getLsbD k = fl.getLsbD k := by
  have h0 : (V2P f).getLsbD k = false := by
    rw [V2P, BitVec.getLsbD_ofNat, PGSIZE, show f * 4096 = f <<< 12 by simp [Nat.shiftLeft_eq],
      Nat.testBit_shiftLeft]
    simp; omega
  rw [BitVec.getLsbD_or, h0, Bool.false_or]

theorem PTE_ADDR_and {w m : Word} (h : m >>> 12 = 0xFFFFF#32) :
    PTE_ADDR (w &&& m) = PTE_ADDR w := by
  rw [PTE_ADDR, BitVec.ushiftRight_and_distrib, h, BitVec.toNat_and]
  have hw : (w >>> 12).toNat < 2 ^ 20 := PTE_ADDR_lt w
  rw [show (0xFFFFF#32).toNat = 2 ^ 20 - 1 from rfl, Nat.and_two_pow_sub_one_eq_mod,
    Nat.mod_eq_of_lt hw]
  rfl

theorem PTE_ADDR_or {w fl : Word} (h : fl >>> 12 = 0#32) : PTE_ADDR (w ||| fl) = PTE_ADDR w := by
  rw [PTE_ADDR, BitVec.ushiftRight_or_distrib, h, BitVec.or_zero]; rfl

/-- The entry of a freshly mapped user page: `V2P(mem) | PTE_W | PTE_U | PTE_P`. -/
def userPte (frame : ℕ) : Word := V2P frame ||| PTE_W ||| PTE_U ||| PTE_P

theorem userPte_eq (f : ℕ) : userPte f = V2P f ||| 7#32 := by
  rw [userPte, BitVec.or_assoc, BitVec.or_assoc]; rfl

@[simp] theorem PTE_ADDR_userPte {f : ℕ} (hf : f < 2 ^ 20) : PTE_ADDR (userPte f) = f := by
  rw [userPte_eq, PTE_ADDR_V2P_or hf (by decide)]

@[simp] theorem present_userPte (f : ℕ) : present (userPte f) = true := by
  rw [userPte_eq, present, getLsbD_V2P_or f _ (by norm_num)]; decide

@[simp] theorem writable_userPte (f : ℕ) : writable (userPte f) = true := by
  rw [userPte_eq, writable, getLsbD_V2P_or f _ (by norm_num)]; decide

@[simp] theorem user_userPte (f : ℕ) : user (userPte f) = true := by
  rw [userPte_eq, user, getLsbD_V2P_or f _ (by norm_num)]; decide

@[simp] theorem swapped_userPte (f : ℕ) : swapped (userPte f) = false := by
  rw [userPte_eq, swapped, getLsbD_V2P_or f _ (by norm_num)]; decide

/-- The entry of a page that `swap_page_from_pte` moved to `block`:
`(diskPage << 12) | PTE_SWAPPED`, then `& ~PTE_P`. -/
def swappedPte (block : ℕ) : Word := ((BitVec.ofNat 32 block <<< 12) ||| PTE_SWAPPED) &&& ~~~PTE_P

theorem swappedPte_eq (b : ℕ) : swappedPte b = (V2P b ||| PTE_SWAPPED) &&& ~~~PTE_P := by
  have : BitVec.ofNat 32 b <<< 12 = V2P b := by
    apply BitVec.eq_of_toNat_eq
    simp only [V2P, PGSIZE, BitVec.toNat_shiftLeft, BitVec.toNat_ofNat, Nat.shiftLeft_eq]
    omega
  rw [swappedPte, this]

/-- The block number survives the encoding. -/
@[simp] theorem PTE_ADDR_swappedPte {b : ℕ} (hb : b < 2 ^ 20) : PTE_ADDR (swappedPte b) = b := by
  rw [swappedPte_eq, PTE_ADDR_and (by decide), PTE_ADDR_V2P_or hb (by decide)]

@[simp] theorem present_swappedPte (b : ℕ) : present (swappedPte b) = false := by
  rw [swappedPte_eq, present, BitVec.getLsbD_and, getLsbD_V2P_or b _ (by norm_num)]; decide

@[simp] theorem swapped_swappedPte (b : ℕ) : swapped (swappedPte b) = true := by
  rw [swappedPte_eq, swapped, BitVec.getLsbD_and, getLsbD_V2P_or b _ (by norm_num)]; decide

@[simp] theorem user_swappedPte (b : ℕ) : user (swappedPte b) = false := by
  rw [swappedPte_eq, user, BitVec.getLsbD_and, getLsbD_V2P_or b _ (by norm_num)]; decide

@[simp] theorem present_zero : present 0#32 = false := by decide
@[simp] theorem user_zero : user 0#32 = false := by decide
@[simp] theorem swapped_zero : swapped 0#32 = false := by decide

/-! ### Page numbers -/

/-- Directory and table index of page number `v`. -/
def pdx (v : ℕ) : Fin 1024 := ⟨v / 1024 % 1024, Nat.mod_lt _ (by norm_num)⟩
def ptx (v : ℕ) : Fin 1024 := ⟨v % 1024, Nat.mod_lt _ (by norm_num)⟩

theorem PDX_eq (va : ℕ) : PDX va = pdx (va / PGSIZE) := by
  simp only [PDX, pdx, PGSIZE, Fin.mk.injEq]; omega

theorem PTX_eq (va : ℕ) : PTX va = ptx (va / PGSIZE) := by
  simp only [PTX, ptx, PGSIZE, Fin.mk.injEq]; omega

theorem page_eq_of_index {v w : ℕ} (hv : v < 2 ^ 20) (hw : w < 2 ^ 20) (hd : pdx v = pdx w)
    (ht : ptx v = ptx w) : v = w := by
  simp only [pdx, ptx, Fin.mk.injEq] at hd ht
  omega

theorem UVPN_eq : UVPN = 524288 := rfl

theorem pdx_lt_iff {v : ℕ} (hv : v < 2 ^ 20) : (pdx v).val < 512 ↔ v < UVPN := by
  simp only [pdx, UVPN_eq]; omega

end Xv6Lab.Paging
