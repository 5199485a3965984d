import Mathlib.Tactic.Ring
import Xv6Lab.Files.Spec

/-! Where the blocks of a file are: 12 addresses in the inode, and 128 words in the indirect block
that the 13th address names. No block is in two places, and a block is in use exactly if it is in
one. `bmap` extends that, `itrunc` gives the blocks of a file back. -/

namespace Xv6Lab.Files

open Disk Lib

variable {R : Set ℕ} {s t : Fs} {ip b i j k m w : ℕ} {d : Data}

/-! ### Words of a block -/

theorem sum_range_four (f : ℕ → ℕ) : ((List.range 4).map f).sum = f 0 + f 1 + f 2 + f 3 := by
  have hrange : List.range 4 = [0, 1, 2, 3] := rfl
  rw [hrange]
  simp only [List.map_cons, List.map_nil, List.sum_cons, List.sum_nil]
  omega

/-- Byte `x` of the word at index `k`. -/
def Data.wordByte (d : Data) (k x : ℕ) : ℕ := (d (Fin.ofNat 512 (4 * k + x))).toNat

theorem word_eq (d : Data) (k : ℕ) : d.word k = d.wordByte k 0 * 2 ^ (8 * 0) +
    d.wordByte k 1 * 2 ^ (8 * 1) + d.wordByte k 2 * 2 ^ (8 * 2) + d.wordByte k 3 * 2 ^ (8 * 3) :=
  sum_range_four _

theorem word_zero (k : ℕ) : Data.word (fun _ => 0#8) k = 0 := by
  have h (x : ℕ) : Data.wordByte (fun _ => 0#8) k x = 0 := rfl
  rw [word_eq, h, h, h, h]
  rfl

theorem wordByte_setWord (d : Data) (j w : ℕ) {k x : ℕ} (hk : k < NINDIRECT) (hx : x < 4) :
    (d.setWord j w).wordByte k x = if k = j then w / 2 ^ (8 * x) % 256 else d.wordByte k x := by
  have hlt : 4 * k + x < 512 := by
    have : k < 128 := hk
    omega
  have hval : (Fin.ofNat 512 (4 * k + x)).val = 4 * k + x := Nat.mod_eq_of_lt hlt
  unfold Data.wordByte Data.setWord
  rw [hval, show (4 * k + x) / 4 = k by omega, show (4 * k + x) % 4 = x by omega]
  by_cases hkj : k = j
  · rw [if_pos hkj, if_pos hkj, BitVec.toNat_ofNat]
  · rw [if_neg hkj, if_neg hkj]

theorem word_setWord (d : Data) (hk : k < NINDIRECT) (hw : w < 2 ^ 32) :
    (d.setWord j w).word k = if k = j then w else d.word k := by
  rw [word_eq, wordByte_setWord d j w hk (by decide), wordByte_setWord d j w hk (by decide),
    wordByte_setWord d j w hk (by decide), wordByte_setWord d j w hk (by decide)]
  by_cases hkj : k = j
  · simp only [if_pos hkj]
    omega
  · simp only [if_neg hkj]
    rw [word_eq]

/-! ### Places of block numbers -/

/-- Block numbers of a file: direct ones, the indirect block, and the words in it. -/
def PTRS : ℕ := NDIRECT + 1 + NINDIRECT

/-- The block number in place `m` of inode `ip`; 0 if there is no block. -/
def Fs.ptr (s : Fs) (ip m : ℕ) : ℕ :=
  if h : m < 13 then s.addr ip ⟨m, h⟩
  else
    let addr := s.addr ip (Fin.last 12)
    if addr = 0 then 0 else (s.block addr).word (m - 13)

theorem ptr_eq (s : Fs) (ip m : ℕ) : s.ptr ip m = if h : m < 13 then s.addr ip ⟨m, h⟩
    else if s.addr ip 12 = 0 then 0 else (s.block (s.addr ip 12)).word (m - 13) := rfl

/-- The place of block `bn` of a file. -/
def placeOf (bn : ℕ) : ℕ := if bn < NDIRECT then bn else bn + 1

theorem placeOf_lt {bn : ℕ} (h : bn < MAXFILE) : placeOf bn < PTRS := by
  unfold placeOf
  have : MAXFILE = 140 := rfl
  have : PTRS = 141 := rfl
  split_ifs <;> omega

theorem placeOf_ne (bn : ℕ) : placeOf bn ≠ 12 := by
  unfold placeOf
  have : NDIRECT = 12 := rfl
  split_ifs <;> omega

theorem placeOf_inj {bn bn' : ℕ} (h : placeOf bn = placeOf bn') : bn = bn' := by
  unfold placeOf at h
  split_ifs at h <;> omega

theorem ptr_direct (s : Fs) (ip : ℕ) (h : m < 13) : s.ptr ip m = s.addr ip ⟨m, h⟩ := dif_pos h

theorem ptr_indirect (s : Fs) (ip : ℕ) : s.ptr ip 12 = s.addr ip 12 := dif_pos (by decide)

theorem ptr_word (hm : 13 ≤ m) (h : s.addr ip 12 ≠ 0) :
    s.ptr ip m = (s.block (s.addr ip 12)).word (m - 13) := by
  rw [ptr_eq, dif_neg (by omega), if_neg h]

theorem ptr_none (hm : 13 ≤ m) (h : s.addr ip 12 = 0) : s.ptr ip m = 0 := by
  rw [ptr_eq, dif_neg (by omega), if_pos h]

/-- The block numbers depend on the inode and its indirect block. -/
theorem ptr_congr (haddr : t.addr i = s.addr i)
    (hblock : s.addr i 12 ≠ 0 → t.block (s.addr i 12) = s.block (s.addr i 12)) (m : ℕ) :
    t.ptr i m = s.ptr i m := by
  rw [ptr_eq, ptr_eq, haddr]
  by_cases hm : m < 13
  · rw [dif_pos hm, dif_pos hm]
  · rw [dif_neg hm, dif_neg hm]
    by_cases h0 : s.addr i 12 = 0
    · rw [if_pos h0, if_pos h0]
    · rw [if_neg h0, if_neg h0, hblock h0]

/-- Every block in use is one of `R` or in one place of one file. -/
structure Owned (R : Set ℕ) (s : Fs) : Prop where
  boot : 0 ∈ R
  size : s.size ≤ 2 ^ 32
  used : ∀ b, s.bit b = true ↔ b ∈ R ∨ ∃ i m, m < PTRS ∧ s.ptr i m = b ∧ b ≠ 0
  apart : ∀ i m j k, m < PTRS → k < PTRS → s.ptr i m ≠ 0 → s.ptr i m = s.ptr j k → i = j ∧ m = k
  unnamed : ∀ i m, m < PTRS → s.ptr i m ≠ 0 → s.ptr i m ∉ R

theorem Owned.congr (h : Owned R s) (hbit : t.bit = s.bit) (hsize : t.size = s.size)
    (hptr : ∀ i m, t.ptr i m = s.ptr i m) : Owned R t where
  boot := h.boot
  size := hsize ▸ h.size
  used b := by
    simp only [hbit, hptr]
    exact h.used b
  apart i m j k hm hk := by
    simp only [hptr]
    exact h.apart i m j k hm hk
  unnamed i m hm := by
    simp only [hptr]
    exact h.unnamed i m hm

theorem Owned.bit (h : Owned R s) (hm : m < PTRS) (hne : s.ptr i m ≠ 0) :
    s.bit (s.ptr i m) = true := (h.used _).2 (.inr ⟨i, m, hm, rfl, hne⟩)

theorem Owned.ne_zero (h : Owned R s) (hb : s.bit b = false) : b ≠ 0 := by
  rintro rfl
  rw [(h.used 0).2 (.inl h.boot)] at hb
  cases hb

theorem Owned.ne_free (h : Owned R s) (hb : s.bit b = false) (hm : m < PTRS) : s.ptr i m ≠ b := by
  intro he
  have hne := h.ne_zero hb
  rw [← he] at hb hne
  rw [h.bit hm hne] at hb
  cases hb

theorem Owned.not_mem_free (h : Owned R s) (hb : s.bit b = false) : b ∉ R := by
  intro hR
  rw [(h.used b).2 (.inl hR)] at hb
  cases hb

/-- What file operations on blocks leave alone. -/
structure Same (s t : Fs) : Prop where
  size : t.size = s.size
  ninodes : t.ninodes = s.ninodes
  stat : ∀ i, (t.inode i).type = (s.inode i).type ∧ (t.inode i).nlink = (s.inode i).nlink ∧
    (t.inode i).size = (s.inode i).size
  entries : t.entries = s.entries
  icache : t.icache = s.icache
  ftable : t.ftable = s.ftable
  cwd : t.cwd = s.cwd

theorem Same.refl (s : Fs) : Same s s := ⟨rfl, rfl, fun _ => ⟨rfl, rfl, rfl⟩, rfl, rfl, rfl, rfl⟩

theorem Same.trans {u : Fs} (h : Same s t) (h' : Same t u) : Same s u where
  size := h'.size.trans h.size
  ninodes := h'.ninodes.trans h.ninodes
  stat i := ⟨(h'.stat i).1.trans (h.stat i).1, (h'.stat i).2.1.trans (h.stat i).2.1,
    (h'.stat i).2.2.trans (h.stat i).2.2⟩
  entries := h'.entries.trans h.entries
  icache := h'.icache.trans h.icache
  ftable := h'.ftable.trans h.ftable
  cwd := h'.cwd.trans h.cwd

/-! ### One more block -/

/-- The free block `b` comes into the empty place `m` of inode `ip`. -/
structure Placed (ip m b : ℕ) (s t : Fs) : Prop where
  empty : s.ptr ip m = 0
  free : s.bit b = false
  ptr : ∀ i k, k < PTRS → t.ptr i k = if i = ip ∧ k = m then b else s.ptr i k
  bit : t.bit = Function.update s.bit b true
  block : ∀ c, c ≠ b → (s.ptr ip 12 ≠ 0 → c ≠ s.ptr ip 12) → t.block c = s.block c
  same : Same s t

theorem Placed.ptr_self (h : Placed ip m b s t) (hm : m < PTRS) : t.ptr ip m = b := by
  rw [h.ptr ip m hm, if_pos ⟨rfl, rfl⟩]

theorem Placed.ptr_other (h : Placed ip m b s t) (hk : k < PTRS) (hne : ¬ (i = ip ∧ k = m)) :
    t.ptr i k = s.ptr i k := by
  rw [h.ptr i k hk, if_neg hne]

theorem Placed.ptr_kept (h : Placed ip m b s t) (hk : k < PTRS) (hne : s.ptr i k ≠ 0) :
    t.ptr i k = s.ptr i k := by
  refine h.ptr_other hk ?_
  rintro ⟨rfl, rfl⟩
  exact hne h.empty

theorem Placed.owned (h : Placed ip m b s t) (ho : Owned R s) (hm : m < PTRS) : Owned R t where
  boot := ho.boot
  size := h.same.size ▸ ho.size
  used c := by
    rw [h.bit]
    by_cases hc : c = b
    · rw [hc, Function.update_self]
      exact iff_of_true rfl (.inr ⟨ip, m, hm, h.ptr_self hm, ho.ne_zero h.free⟩)
    · rw [Function.update_of_ne hc, ho.used c]
      refine or_congr Iff.rfl ⟨?_, ?_⟩
      · rintro ⟨i, k, hk, he, hne⟩
        refine ⟨i, k, hk, ?_, hne⟩
        rw [h.ptr_kept hk (he ▸ hne), he]
      · rintro ⟨i, k, hk, he, hne⟩
        have hik : ¬ (i = ip ∧ k = m) := by
          rintro ⟨rfl, rfl⟩
          exact hc (he.symm.trans (h.ptr_self hk))
        exact ⟨i, k, hk, (h.ptr_other hk hik).symm.trans he, hne⟩
  apart i k j l hk hl hne he := by
    by_cases hik : i = ip ∧ k = m
    · by_cases hjl : j = ip ∧ l = m
      · exact ⟨hik.1.trans hjl.1.symm, hik.2.trans hjl.2.symm⟩
      · obtain ⟨rfl, rfl⟩ := hik
        rw [h.ptr_self hk, h.ptr_other hl hjl] at he
        exact absurd he.symm (ho.ne_free h.free hl)
    · rw [h.ptr_other hk hik] at hne he
      by_cases hjl : j = ip ∧ l = m
      · obtain ⟨rfl, rfl⟩ := hjl
        rw [h.ptr_self hl] at he
        exact absurd he (ho.ne_free h.free hk)
      · rw [h.ptr_other hl hjl] at he
        exact ho.apart i k j l hk hl hne he
  unnamed i k hk hne := by
    by_cases hik : i = ip ∧ k = m
    · obtain ⟨rfl, rfl⟩ := hik
      rw [h.ptr_self hk]
      exact ho.not_mem_free h.free
    · rw [h.ptr_other hk hik] at hne ⊢
      exact ho.unnamed i k hk hne

/-- `balloc` with the number of the new block put into the inode. -/
theorem placed_addr (ho : Owned R s) (hb : s.bit b = false) (hm : m < 13)
    (h0 : s.addr ip ⟨m, hm⟩ = 0) : Placed ip m b s ((s.alloc b).setAddr ip ⟨m, hm⟩ b) := by
  have haddr : ∀ i k, ((s.alloc b).setAddr ip ⟨m, hm⟩ b).addr i k =
      if i = ip ∧ k = ⟨m, hm⟩ then b else s.addr i k := by
    intro i k
    simp only [Fs.addr, Fs.setAddr, Fs.setInode_inode]
    by_cases hi : i = ip
    · subst hi
      rw [Function.update_self]
      by_cases hk : k = ⟨m, hm⟩
      · rw [if_pos ⟨rfl, hk⟩, hk]
        exact Function.update_self ..
      · rw [if_neg fun h => hk h.2]
        exact Function.update_of_ne hk ..
    · rw [Function.update_of_ne hi, if_neg fun h => hi h.1]
      rfl
  have hblock : ∀ c, c ≠ b → ((s.alloc b).setAddr ip ⟨m, hm⟩ b).block c = s.block c := fun c hc =>
    Function.update_of_ne hc ..
  refine ⟨(ptr_direct s ip hm).trans h0, hb, fun i k hk => ?_, rfl, fun c hc _ => hblock c hc,
    rfl, rfl, fun i => ?_, rfl, rfl, rfl, rfl⟩
  · by_cases hk13 : k < 13
    · rw [ptr_direct _ _ hk13, ptr_direct _ _ hk13, haddr]
      simp only [Fin.mk.injEq]
    · have hkm : ¬ (i = ip ∧ k = m) := by omega
      rw [if_neg hkm]
      by_cases h12 : i = ip ∧ m = 12
      · -- the indirect block is new, and its words are zeros
        obtain ⟨rfl, rfl⟩ := h12
        have hself : ((s.alloc b).setAddr i ⟨12, hm⟩ b).addr i 12 = b := by
          rw [haddr]
          exact if_pos ⟨rfl, rfl⟩
        rw [ptr_none (by omega) h0, ptr_word (by omega) (hself.trans_ne (ho.ne_zero hb)), hself]
        change Data.word (Function.update s.block b (fun _ => 0#8) b) _ = 0
        rw [Function.update_self, word_zero]
      · have haddr12 : ((s.alloc b).setAddr ip ⟨m, hm⟩ b).addr i 12 = s.addr i 12 := by
          rw [haddr]
          refine if_neg ?_
          rintro ⟨hi, he⟩
          exact h12 ⟨hi, (congrArg Fin.val he).symm⟩
        by_cases hz : s.addr i 12 = 0
        · rw [ptr_none (by omega) hz, ptr_none (by omega) (haddr12.trans hz)]
        · have hne := ho.ne_free (i := i) (m := 12) hb (by decide)
          rw [ptr_indirect] at hne
          rw [ptr_word (by omega) hz, ptr_word (by omega) (haddr12.trans_ne hz), haddr12,
            hblock _ hne]
  · simp only [Fs.setAddr, Fs.setInode_inode]
    by_cases hi : i = ip
    · rw [hi, Function.update_self]
      exact ⟨rfl, rfl, rfl⟩
    · rw [Function.update_of_ne hi]
      exact ⟨rfl, rfl, rfl⟩

/-- `balloc` with the number of the new block put into the indirect block. -/
theorem placed_word (ho : Owned R s) (hb : s.bit b = false) (hlt : b < 2 ^ 32) (hm : 13 ≤ m)
    (ha : s.addr ip 12 ≠ 0) (h0 : s.ptr ip m = 0) :
    Placed ip m b s ((s.alloc b).setBlock (s.addr ip 12)
      (((s.alloc b).block (s.addr ip 12)).setWord (m - 13) b)) := by
  have hPTRS : PTRS = 141 := rfl
  have hNIND : NINDIRECT = 128 := rfl
  have hbit12 : ∀ i, s.addr i 12 ≠ 0 → s.bit (s.addr i 12) = true := by
    intro i hi
    rw [← ptr_indirect] at hi ⊢
    exact ho.bit (by decide) hi
  have hold : ∀ i, s.addr i 12 ≠ 0 → (s.alloc b).block (s.addr i 12) = s.block (s.addr i 12) :=
    fun i hi => Fs.alloc_block hb (hbit12 i hi)
  refine ⟨h0, hb, fun i k hk => ?_, rfl, fun c hc hc' => ?_, rfl, rfl, fun i => ⟨rfl, rfl, rfl⟩,
    rfl, rfl, rfl, rfl⟩
  · by_cases hk13 : k < 13
    · rw [ptr_direct _ _ hk13, if_neg (by omega), ptr_direct _ _ hk13]
      rfl
    · by_cases hz : s.addr i 12 = 0
      · have hik : ¬ (i = ip ∧ k = m) := by
          rintro ⟨rfl, -⟩
          exact ha hz
        rw [if_neg hik, ptr_none (by omega) hz]
        exact ptr_none (by omega) hz
      · have hz' : ((s.alloc b).setBlock (s.addr ip 12)
            (((s.alloc b).block (s.addr ip 12)).setWord (m - 13) b)).addr i 12 ≠ 0 := hz
        rw [ptr_word (s := s) (by omega) hz, ← hold i hz, ptr_word (by omega) hz']
        change Data.word (Function.update (s.alloc b).block (s.addr ip 12) _ (s.addr i 12)) _ = _
        by_cases hi : i = ip
        · subst hi
          rw [Function.update_self, word_setWord _ (by omega) hlt]
          by_cases hkm : k = m
          · rw [if_pos (by omega), if_pos ⟨rfl, hkm⟩]
          · rw [if_neg (by omega), if_neg fun h => hkm h.2]
        · rw [if_neg fun h => hi h.1]
          have hne : s.addr i 12 ≠ s.addr ip 12 := by
            intro he
            rw [← ptr_indirect, ← ptr_indirect] at he
            rw [← ptr_indirect] at hz
            exact hi (ho.apart i 12 ip 12 (by decide) (by decide) hz he).1
          rw [Function.update_of_ne hne]
  · rw [ptr_indirect] at hc'
    exact (Function.update_of_ne (hc' ha) _ _).trans (Function.update_of_ne hc _ _)

/-- Inode `ip` may have got blocks, and nothing else has changed but for their contents. -/
structure Extends (R : Set ℕ) (ip : ℕ) (s t : Fs) : Prop where
  owned : Owned R t
  same : Same s t
  kept : ∀ i m, m < PTRS → s.ptr i m ≠ 0 → t.ptr i m = s.ptr i m
  others : ∀ i m, i ≠ ip → m < PTRS → t.ptr i m = s.ptr i m
  block : ∀ i m, m < PTRS → m ≠ 12 → s.ptr i m ≠ 0 → t.block (s.ptr i m) = s.block (s.ptr i m)
  reserved : ∀ b ∈ R, t.block b = s.block b

theorem Extends.refl (ho : Owned R s) : Extends R ip s s :=
  ⟨ho, .refl s, fun _ _ _ _ => rfl, fun _ _ _ _ => rfl, fun _ _ _ _ _ => rfl, fun _ _ => rfl⟩

theorem Extends.trans {u : Fs} (h : Extends R ip s t) (h' : Extends R ip t u) :
    Extends R ip s u where
  owned := h'.owned
  same := h.same.trans h'.same
  kept i m hm hne := by
    have hk := h.kept i m hm hne
    rw [h'.kept i m hm (hk.trans_ne hne), hk]
  others i m hi hm := (h'.others i m hi hm).trans (h.others i m hi hm)
  block i m hm h12 hne := by
    have hk := h.kept i m hm hne
    have hb := h'.block i m hm h12 (hk.trans_ne hne)
    rw [hk] at hb
    exact hb.trans (h.block i m hm h12 hne)
  reserved b hb := (h'.reserved b hb).trans (h.reserved b hb)

theorem Placed.extends (h : Placed ip m b s t) (ho : Owned R s) (hm : m < PTRS) :
    Extends R ip s t where
  owned := h.owned ho hm
  same := h.same
  kept i k hk hne := h.ptr_kept hk hne
  others i k hi hk := h.ptr_other hk fun hik => hi hik.1
  block i k hk h12 hne := by
    refine h.block _ (ho.ne_free h.free hk) fun _ he => ?_
    exact h12 (ho.apart i k ip 12 hk (by decide) hne he).2
  reserved c hc := by
    refine h.block c (fun he => ho.not_mem_free h.free (he ▸ hc)) fun hne he => ?_
    exact ho.unnamed ip 12 (by decide) hne (he ▸ hc)

/-! ### `balloc` and `bmap` -/

theorem balloc_free (s : Fs) :
    wp balloc (fun b t => (s.bit b = false ∧ b < s.size) ∧ t = s.alloc b) s := by
  unfold balloc
  rw [wp_bind, wp_get]
  apply wp_balloc
  exact fun b hfree hlt => ⟨⟨hfree, hlt⟩, rfl⟩

/-- The only panic of a file system in good order. -/
def Full (e : String) : Prop := e = "balloc: out of blocks"

theorem balloc_stops (s : Fs) : stops balloc Full s := by
  unfold balloc
  rw [stops_bind]
  refine ⟨by rw [stops_get]; trivial, ?_⟩
  rw [wp_get]
  exact Disk.balloc_stops s.size s

/-- `bmap` once the indirect block is there: its word `k`. -/
def bmapEntry (ip k : ℕ) : F ℕ := do
  let s ← get
  let addr := s.addr ip (Fin.last 12)
  if (s.block addr).word k = 0 then do
    let b ← balloc
    modify fun s => s.setBlock addr ((s.block addr).setWord k b)
    pure b
  else pure ((s.block addr).word k)

theorem bmapEntry_eq (ip k : ℕ) : bmapEntry ip k = (do
    let s ← get
    if (s.block (s.addr ip 12)).word k = 0 then do
      let b ← balloc
      modify fun t => t.setBlock (s.addr ip 12) ((t.block (s.addr ip 12)).setWord k b)
      pure b
    else pure ((s.block (s.addr ip 12)).word k)) := rfl

theorem bmap_indirect {bn : ℕ} (hd : ¬ bn < NDIRECT) (hi : bn - NDIRECT < NINDIRECT) :
    bmap ip bn = (do
      let s ← get
      if s.addr ip 12 = 0 then do
        let addr ← balloc
        modify (·.setAddr ip 12 addr)
        bmapEntry ip (bn - NDIRECT)
      else bmapEntry ip (bn - NDIRECT)) := by
  unfold bmap
  rw [dif_neg hd, if_pos hi]
  rfl

/-- A block that the file has is found. -/
theorem bmap_of_ptr {bn : ℕ} (hbn : bn < MAXFILE) (h : s.ptr ip (placeOf bn) ≠ 0) :
    bmap ip bn s = .ok (s.ptr ip (placeOf bn), s) := by
  have hNDIRECT : NDIRECT = 12 := rfl
  have hNINDIRECT : NINDIRECT = 128 := rfl
  have hMAXFILE : MAXFILE = 140 := rfl
  unfold placeOf at h ⊢
  by_cases hd : bn < NDIRECT
  · rw [if_pos hd] at h ⊢
    rw [ptr_direct s ip (hd.trans (by decide))] at h ⊢
    unfold bmap
    rw [dif_pos hd]
    simp only [bind_apply, get_apply]
    rw [if_neg h]
    rfl
  · rw [if_neg hd] at h ⊢
    have ha : s.addr ip 12 ≠ 0 := fun ha => h (ptr_none (by omega) ha)
    rw [ptr_word (by omega) ha] at h ⊢
    have hk : bn + 1 - 13 = bn - NDIRECT := by omega
    rw [hk] at h ⊢
    rw [bmap_indirect hd (by omega)]
    simp only [bind_apply, get_apply]
    rw [if_neg ha]
    rw [bmapEntry_eq]
    simp only [bind_apply, get_apply]
    rw [if_neg h]
    rfl

/-- What a function that finds place `m` of inode `ip` gives. -/
def Finds (R : Set ℕ) (ip m : ℕ) (s : Fs) (b : ℕ) (t : Fs) : Prop :=
  Extends R ip s t ∧ t.ptr ip m = b ∧ b ≠ 0

theorem Placed.finds (h : Placed ip m b s t) (ho : Owned R s) (hm : m < PTRS) :
    Finds R ip m s b t :=
  ⟨h.extends ho hm, h.ptr_self hm, ho.ne_zero h.free⟩

theorem bmapEntry_spec (ho : Owned R s) (ha : s.addr ip 12 ≠ 0) (hk : k < NINDIRECT) :
    wp (bmapEntry ip k) (Finds R ip (13 + k) s) s ∧ stops (bmapEntry ip k) Full s := by
  have hm : 13 + k < PTRS := Nat.add_lt_add_left hk 13
  have hptr : s.ptr ip (13 + k) = (s.block (s.addr ip 12)).word k := by
    rw [ptr_word (by omega) ha, Nat.add_sub_cancel_left]
  rw [bmapEntry_eq]
  by_cases h0 : (s.block (s.addr ip 12)).word k = 0
  · constructor
    · rw [wp_bind, wp_get, if_pos h0]
      simp only [wp_bind, wp_modify, wp_pure]
      refine wp_mono (balloc_free s) ?_
      rintro b t ⟨⟨hb, hlt⟩, rfl⟩
      have hp := placed_word ho hb (hlt.trans_le ho.size) (m := 13 + k) (by omega) ha
        (hptr.trans h0)
      rw [Nat.add_sub_cancel_left] at hp
      exact hp.finds ho hm
    · rw [stops_bind, wp_get, if_pos h0]
      refine ⟨by rw [stops_get]; trivial, ?_⟩
      rw [stops_bind]
      refine ⟨balloc_stops s, fun b t _ => ?_⟩
      simp only [stops_bind, stops_modify, stops_pure, wp_modify, and_self]
  · constructor
    · rw [wp_bind, wp_get, if_neg h0, wp_pure]
      exact ⟨.refl ho, hptr, h0⟩
    · rw [stops_bind, wp_get, if_neg h0]
      simp only [stops_get, stops_pure, and_self]

/-- `bmap` finds the block of the file, and panics only if it needs a new one and there is none. -/
theorem bmap_spec (ho : Owned R s) {bn : ℕ} (hbn : bn < MAXFILE) :
    wp (bmap ip bn) (Finds R ip (placeOf bn) s) s ∧ stops (bmap ip bn) Full s := by
  have hNDIRECT : NDIRECT = 12 := rfl
  have hNINDIRECT : NINDIRECT = 128 := rfl
  have hMAXFILE : MAXFILE = 140 := rfl
  by_cases hne : s.ptr ip (placeOf bn) ≠ 0
  · have hbmap := bmap_of_ptr hbn hne
    exact ⟨wp_of_eq hbmap ⟨.refl ho, rfl, hne⟩, stops_of_eq hbmap⟩
  · have h0 := not_not.1 hne
    have hm := placeOf_lt hbn
    unfold placeOf at h0 hm ⊢
    by_cases hd : bn < NDIRECT
    · rw [if_pos hd] at h0 hm ⊢
      have hd13 : bn < 13 := by omega
      have haddr : s.addr ip ⟨bn, hd13⟩ = 0 := (ptr_direct s ip hd13).symm.trans h0
      unfold bmap
      rw [dif_pos hd]
      constructor
      · rw [wp_bind, wp_get]
        simp only [if_pos haddr]
        simp only [wp_bind, wp_modify, wp_pure]
        refine wp_mono (balloc_free s) ?_
        rintro b t ⟨⟨hb, -⟩, rfl⟩
        exact (placed_addr ho hb hd13 haddr).finds ho hm
      · rw [stops_bind, wp_get]
        simp only [if_pos haddr]
        refine ⟨by rw [stops_get]; trivial, ?_⟩
        rw [stops_bind]
        refine ⟨balloc_stops s, fun b t _ => ?_⟩
        simp only [stops_bind, stops_modify, stops_pure, wp_modify, and_self]
    · rw [if_neg hd] at h0 hm ⊢
      have hk : bn - NDIRECT < NINDIRECT := by omega
      have hplace : bn + 1 = 13 + (bn - NDIRECT) := by omega
      rw [bmap_indirect hd hk, hplace]
      by_cases ha : s.addr ip 12 = 0
      · have hfirst : ∀ b, s.bit b = false →
            Placed ip 12 b s ((s.alloc b).setAddr ip 12 b) := fun b hb =>
          placed_addr ho hb (by decide) ha
        have hentry : ∀ b, s.bit b = false → ((s.alloc b).setAddr ip 12 b).addr ip 12 ≠ 0 := by
          intro b hb
          have hp := (hfirst b hb).ptr_self (by decide)
          rw [ptr_indirect] at hp
          rw [hp]
          exact ho.ne_zero hb
        constructor
        · rw [wp_bind, wp_get, if_pos ha]
          simp only [wp_bind, wp_modify]
          refine wp_mono (balloc_free s) ?_
          rintro b t ⟨⟨hb, -⟩, rfl⟩
          have hext := (hfirst b hb).extends ho (by decide)
          refine wp_mono (bmapEntry_spec hext.owned (hentry b hb) hk).1 ?_
          rintro c u ⟨hu, hc⟩
          exact ⟨hext.trans hu, hc⟩
        · rw [stops_bind, wp_get, if_pos ha]
          refine ⟨by rw [stops_get]; trivial, ?_⟩
          rw [stops_bind]
          refine ⟨balloc_stops s, wp_mono (balloc_free s) ?_⟩
          rintro b t ⟨⟨hb, -⟩, rfl⟩
          have hext := (hfirst b hb).extends ho (by decide)
          simp only [stops_bind, stops_modify, wp_modify, true_and]
          exact (bmapEntry_spec hext.owned (hentry b hb) hk).2
      · constructor
        · rw [wp_bind, wp_get, if_neg ha]
          exact (bmapEntry_spec ho ha hk).1
        · rw [stops_bind, wp_get, if_neg ha]
          exact ⟨by rw [stops_get]; trivial, (bmapEntry_spec ho ha hk).2⟩

end Xv6Lab.Files
