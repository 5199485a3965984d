import Xv6Lab.Paging.Kernel

/-! Bytes of a page. A page is stored as little-endian words; user programs and
`memmove` see its bytes. -/

namespace Xv6Lab.Paging

abbrev Byte := BitVec 8

/-- Index of the word that holds byte `va` of its page. -/
def wordIx (va : ℕ) : Fin 1024 := ⟨va / 4 % 1024, Nat.mod_lt _ (by norm_num)⟩

def wordByte (w : Word) (i : ℕ) : Byte := w.extractLsb' (8 * i) 8

def setWordByte (w : Word) (i : ℕ) (b : Byte) : Word :=
  (w &&& ~~~(0xFF#32 <<< (8 * i))) ||| (b.setWidth 32 <<< (8 * i))

theorem getLsbD_byteMask (m : ℕ) (hm : m < 32) : (0xFF#32).getLsbD m = decide (m < 8) := by
  revert m; decide

theorem wordByte_setWordByte (w : Word) {i j : ℕ} (hi : i < 4) (hj : j < 4) (b : Byte) :
    wordByte (setWordByte w i b) j = if i = j then b else wordByte w j := by
  ext k hk
  rw [wordByte, BitVec.getElem_extractLsb', setWordByte, BitVec.getLsbD_or, BitVec.getLsbD_and,
    BitVec.getLsbD_not, BitVec.getLsbD_shiftLeft, BitVec.getLsbD_shiftLeft, BitVec.getLsbD_setWidth,
    getLsbD_byteMask _ (by omega)]
  split_ifs with h
  · subst h
    simp [show 8 * i + k - 8 * i = k by omega, hk, show 8 * i + k < 32 by omega,
      show k < 32 by omega]
  · simp only [wordByte, BitVec.getElem_extractLsb']
    rcases Nat.lt_or_gt_of_ne h with h | h
    · have hge : b.getLsbD (8 * j + k - 8 * i) = false := BitVec.getLsbD_of_ge _ _ (by omega)
      simp [show 8 * j + k < 32 by omega, show ¬ (8 * j + k < 8 * i) by omega,
        show ¬ (8 * j + k - 8 * i < 8) by omega, hge]
    · simp [show 8 * j + k < 32 by omega, show 8 * j + k < 8 * i by omega]

/-- The byte at offset `va % PGSIZE` of a page. -/
def byteAt (p : Page) (va : ℕ) : Byte := wordByte (p (wordIx va)) (va % 4)

def setByte (p : Page) (va : ℕ) (b : Byte) : Page :=
  Function.update p (wordIx va) (setWordByte (p (wordIx va)) (va % 4) b)

theorem byteAt_setByte (p : Page) (a c : ℕ) (b : Byte) :
    byteAt (setByte p a b) c = if a % PGSIZE = c % PGSIZE then b else byteAt p c := by
  simp only [byteAt, setByte]
  by_cases hw : wordIx c = wordIx a
  · rw [hw, Function.update_self, wordByte_setWordByte _ (Nat.mod_lt _ (by norm_num))
      (Nat.mod_lt _ (by norm_num))]
    have hoff : a % 4 = c % 4 ↔ a % PGSIZE = c % PGSIZE := by
      simp only [wordIx, Fin.mk.injEq, PGSIZE] at hw ⊢
      omega
    simp only [hoff]
  · rw [Function.update_of_ne hw, if_neg]
    intro h
    apply hw
    simp only [wordIx, Fin.mk.injEq, PGSIZE] at h ⊢
    omega

theorem word_ext {a b : Word} (h : ∀ i < 4, wordByte a i = wordByte b i) : a = b := by
  ext k hk
  have := congrArg (·.getLsbD (k % 8)) (h (k / 8) (by omega))
  simpa only [wordByte, BitVec.getLsbD_extractLsb', show k % 8 < 8 by omega, decide_true, Bool.true_and,
    Nat.div_add_mod, BitVec.getLsbD_eq_getElem hk] using this

/-- Four bytes stored make a word. -/
theorem setByte_word (p : Page) (w : Word) :
    setByte (setByte (setByte (setByte p 0 (wordByte w 0)) 1 (wordByte w 1)) 2 (wordByte w 2)) 3
      (wordByte w 3) 0 = w := by
  refine word_ext fun i hi => ?_
  have hix : ∀ i < 4, wordIx i = 0 ∧ i % 4 = i := by decide
  rw [show ∀ q : Page, wordByte (q 0) i = byteAt q i by
    intro q
    rw [byteAt, (hix i hi).1, (hix i hi).2]]
  simp only [byteAt_setByte, PGSIZE]
  have h4 : i = 0 ∨ i = 1 ∨ i = 2 ∨ i = 3 := by omega
  rcases h4 with rfl | rfl | rfl | rfl <;> rfl

@[simp] theorem byteAt_zero (va : ℕ) : byteAt (fun _ => 0#32) va = 0#8 := by
  simp [byteAt, wordByte]

/-- The first `n` bytes of a page replaced by `f 0, f 1, ...`. -/
def putBytes (p : Page) (n : ℕ) (f : ℕ → Byte) : Page :=
  (List.range n).foldl (fun p k => setByte p k (f k)) p

end Xv6Lab.Paging
