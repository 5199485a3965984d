import Xv6Lab.Files.Machine
import Xv6Lab.Lib.Cells

/-! The numerals of `itoa` (`fs.c`): what its two loops do to memory, and the names that
`createSwapFile` builds with it in `path`. A pointer is an address, an `int` wraps
around, and a `char` is one cell. -/

namespace Xv6Lab.Files.Chars

open Xv6Lab.Lib (store store_append store_update store_of_lt store_store)

def NUL : Char := '\x00'

/-- What `digit[k]` reads: the initialiser of the array with its NUL, and whatever the
stack holds before and after. -/
structure Digits where
  read : ℤ → Char
  init : (List.range 11).map (fun k : ℕ => read k) = "0123456789".toList ++ [NUL]

/-- Memory, the pointer `p`, and the places of `digit` read so far, the latest first. -/
structure Writer where
  mem : ℤ → Char
  p : ℤ
  used : List ℤ

/-- `*p++ = c`. -/
def Writer.push (w : Writer) (c : Char) : Writer :=
  { w with mem := Function.update w.mem w.p c, p := w.p + 1 }

/-- `*--p = digit[k]`. -/
def Writer.insert (w : Writer) (digit : Digits) (k : ℤ) : Writer :=
  ⟨Function.update w.mem (w.p - 1) (digit.read k), w.p - 1, k :: w.used⟩

theorem natAbs_div_lt (i : Int32) (h : i / 10 ≠ 0) :
    (i / 10).toInt.natAbs < i.toInt.natAbs := by
  have hd : (i / 10).toInt = i.toInt.tdiv 10 := Int32.toInt_div_of_ne_right i 10 (by decide)
  rw [hd, Int.natAbs_tdiv]
  apply Nat.div_lt_self _ (by decide)
  apply Int.natAbs_pos.mpr
  intro hi
  apply h
  rw [← Int32.toInt_inj, hd, hi]
  rfl

/-- The first loop, which moves `p` to where the representation ends. -/
def moveTo (p : ℤ) (shifter : Int32) : ℤ :=
  if shifter / 10 = 0 then p + 1 else moveTo (p + 1) (shifter / 10)
termination_by shifter.toInt.natAbs
decreasing_by exact natAbs_div_lt shifter ‹_›

/-- The second loop, which moves back and inserts the digits. -/
def moveBack (digit : Digits) (w : Writer) (i : Int32) : Writer :=
  if i / 10 = 0 then w.insert digit (i % 10).toInt
  else moveBack digit (w.insert digit (i % 10).toInt) (i / 10)
termination_by i.toInt.natAbs
decreasing_by exact natAbs_div_lt i ‹_›

/-- `itoa`: the pointer it returns, and what its last `p` and memory are then. -/
def itoa (digit : Digits) (m : ℤ → Char) (i : Int32) (b : ℤ) : ℤ × Writer :=
  let w : Writer := ⟨m, b, []⟩
  let (w, i) := if i < 0 then (w.push '-', i * -1) else (w, i)
  let p := moveTo w.p i
  let w := { w with mem := Function.update w.mem p NUL, p := p }
  (b, moveBack digit w i)

/-! ### What a numeral is -/

/-- The decimal representation of `i`. -/
def numeral (i : Int32) : List Char := (toString i.toInt).toList

/-- `itoa(i, b)` leaves the numeral of `i` and a NUL at `b` and every other cell as it was;
it reads `digit[0..9]` only, and `p` ends where the digits begin. -/
structure Writes (digit : Digits) (m : ℤ → Char) (i : Int32) (b : ℤ) : Prop where
  mem : (itoa digit m i b).2.mem = store m b (numeral i ++ [NUL])
  used : ∀ k ∈ (itoa digit m i b).2.used, 0 ≤ k ∧ k ≤ 9
  stops : (itoa digit m i b).2.p = b + if i < 0 then 1 else 0
  ret : (itoa digit m i b).1 = b

theorem numeral_of_nonneg {i : Int32} (hi : 0 ≤ i.toInt) :
    numeral i = Nat.toDigits 10 i.toInt.toNat := by
  unfold numeral
  rw [Int.toString_eq_repr, Int.repr_eq_if, if_pos hi, Nat.toList_repr]

theorem numeral_of_neg {i : Int32} (hi : i.toInt < 0) :
    numeral i = '-' :: Nat.toDigits 10 (-i.toInt).toNat := by
  unfold numeral
  rw [Int.toString_eq_repr, Int.repr_eq_if, if_neg (by omega), String.toList_append,
    Nat.toList_repr]
  rfl

/-- The last digit comes off the end of a numeral. -/
theorem toDigits_step (n : ℕ) : Nat.toDigits 10 n =
    (if n / 10 = 0 then [] else Nat.toDigits 10 (n / 10)) ++ [(n % 10).digitChar] := by
  rw [Nat.toDigits_eq_if (by decide)]
  by_cases hn : n < 10
  · rw [if_pos hn, if_pos (Nat.div_eq_of_lt hn), Nat.mod_eq_of_lt hn]
    rfl
  · rw [if_neg hn, if_neg (by omega)]

theorem Digits.read_eq (digit : Digits) {k : ℕ} (hk : k < 10) :
    digit.read k = k.digitChar := by
  have hdigits : ∀ k < 10, ("0123456789".toList ++ [NUL])[k]? = some k.digitChar := by decide
  have h := congrArg (·[k]?) digit.init
  rw [hdigits k hk, List.getElem?_map, List.getElem?_range (by omega)] at h
  exact Option.some.inj h

/-! ### The two loops on a number that is not negative -/

section Nonneg

variable {i : Int32} (hi : 0 ≤ i.toInt)
include hi

theorem toInt_div : (i / 10).toInt = i.toInt / 10 := by
  rw [Int32.toInt_div_of_ne_right i 10 (by decide)]
  exact Int.tdiv_eq_ediv_of_nonneg hi

theorem toInt_mod : (i % 10).toInt = i.toInt % 10 := by
  rw [Int32.toInt_mod]
  exact Int.tmod_eq_emod_of_nonneg hi

theorem div_nonneg : 0 ≤ (i / 10).toInt := by
  rw [toInt_div hi]
  omega

theorem div_eq_zero : i / 10 = 0 ↔ i.toInt.toNat / 10 = 0 := by
  rw [← Int32.toInt_inj, toInt_div hi, Int32.toInt_zero]
  omega

theorem toNat_div : (i / 10).toInt.toNat = i.toInt.toNat / 10 := by
  rw [toInt_div hi]
  omega

theorem digits_eq : Nat.toDigits 10 i.toInt.toNat =
    (if i / 10 = 0 then [] else Nat.toDigits 10 (i / 10).toInt.toNat) ++
      [(i.toInt.toNat % 10).digitChar] := by
  rw [toNat_div hi, if_congr (div_eq_zero hi) rfl rfl]
  exact toDigits_step _

theorem insert_eq (digit : Digits) (w : Writer) : w.insert digit (i % 10).toInt =
    ⟨Function.update w.mem (w.p - 1) (i.toInt.toNat % 10).digitChar, w.p - 1,
      i.toInt % 10 :: w.used⟩ := by
  have hk : i.toInt % 10 = (i.toInt.toNat % 10 : ℕ) := by omega
  unfold Writer.insert
  rw [toInt_mod hi, hk, digit.read_eq (Nat.mod_lt _ (by decide))]

theorem moveTo_eq (p : ℤ) :
    moveTo p i = p + (Nat.toDigits 10 i.toInt.toNat).length := by
  fun_induction moveTo p i with
  | case1 p i h => rw [digits_eq hi, if_pos h]; rfl
  | case2 p i h ih =>
    rw [ih (div_nonneg hi), digits_eq hi, if_neg h, List.length_append, List.length_singleton]
    omega

theorem moveBack_p (digit : Digits) (w : Writer) :
    (moveBack digit w i).p = w.p - (Nat.toDigits 10 i.toInt.toNat).length := by
  fun_induction moveBack digit w i with
  | case1 w i h => rw [digits_eq hi, if_pos h]; rfl
  | case2 w i h ih =>
    rw [ih (div_nonneg hi), digits_eq hi, if_neg h, List.length_append, List.length_singleton,
      insert_eq hi]
    push_cast
    omega

theorem insert_used (digit : Digits) (w : Writer) (hw : ∀ k ∈ w.used, 0 ≤ k ∧ k ≤ 9) :
    ∀ k ∈ (w.insert digit (i % 10).toInt).used, 0 ≤ k ∧ k ≤ 9 := by
  rw [insert_eq hi]
  intro k hk
  cases hk with
  | head => omega
  | tail _ hk => exact hw k hk

theorem moveBack_used (digit : Digits) (w : Writer) (hw : ∀ k ∈ w.used, 0 ≤ k ∧ k ≤ 9) :
    ∀ k ∈ (moveBack digit w i).used, 0 ≤ k ∧ k ≤ 9 := by
  fun_induction moveBack digit w i with
  | case1 w i h => exact insert_used hi digit w hw
  | case2 w i h ih => exact ih (div_nonneg hi) (insert_used hi digit w hw)

/-- The digits end just below where `p` was. -/
theorem moveBack_mem (digit : Digits) (w : Writer) :
    (moveBack digit w i).mem =
      store w.mem (w.p - (Nat.toDigits 10 i.toInt.toNat).length)
        (Nat.toDigits 10 i.toInt.toNat) := by
  fun_induction moveBack digit w i with
  | case1 w i h =>
    rw [digits_eq hi, if_pos h, insert_eq hi]
    rfl
  | case2 w i h ih =>
    have hp : w.p - 1 - (Nat.toDigits 10 (i / 10).toInt.toNat).length =
        w.p - ((Nat.toDigits 10 (i / 10).toInt.toNat).length + 1 : ℕ) := by omega
    rw [ih (div_nonneg hi), digits_eq hi, if_neg h, insert_eq hi, hp, List.length_append,
      List.length_singleton, store_append, store_update _ _ _ _ (by omega)]
    have hq : w.p - ((Nat.toDigits 10 (i / 10).toInt.toNat).length + 1 : ℕ) +
        (Nat.toDigits 10 (i / 10).toInt.toNat).length = w.p - 1 := by omega
    rw [hq]
    rfl

/-- The two loops together: a NUL where the first one ends, the digits below it. -/
theorem moveBack_moveTo (digit : Digits) (m : ℤ → Char) (p : ℤ) (us : List ℤ) :
    let w := moveBack digit ⟨Function.update m (moveTo p i) NUL, moveTo p i, us⟩ i
    w.mem = store m p (Nat.toDigits 10 i.toInt.toNat ++ [NUL]) ∧ w.p = p := by
  have hp : p + (Nat.toDigits 10 i.toInt.toNat).length -
      (Nat.toDigits 10 i.toInt.toNat).length = p := by omega
  intro w
  constructor
  · rw [moveBack_mem hi, moveTo_eq hi, hp, store_update _ _ _ _ le_rfl, store_append]
    rfl
  · rw [moveBack_p hi, moveTo_eq hi, hp]

end Nonneg

/-! ### Negative numbers -/

theorem toInt_mul_neg_one {i : Int32} (hi : i ≠ Int32.minValue) :
    (i * -1).toInt = -i.toInt := by
  have hl : i.toInt ≠ -2 ^ 31 := fun h => hi (Int32.toInt_inj.mp h)
  have hge := Int32.le_toInt i
  have hlt := Int32.toInt_lt i
  rw [Int32.mul_neg, Int32.mul_one, Int32.toInt_neg]
  apply Int.bmod_eq_of_le <;> omega

/-- Once read, a place of `digit` stays on the list. -/
theorem used_moveBack (digit : Digits) (w : Writer) (i : Int32) :
    w.used ⊆ (moveBack digit w i).used := by
  fun_induction moveBack digit w i with
  | case1 w i h => exact List.subset_cons_self _ _
  | case2 w i h ih => exact fun _ hk => ih (List.mem_cons_of_mem _ hk)

theorem mem_used_moveBack (digit : Digits) (w : Writer) (i : Int32) :
    (i % 10).toInt ∈ (moveBack digit w i).used := by
  rw [moveBack]
  split_ifs with h
  · exact List.mem_cons_self
  · exact used_moveBack digit _ _ List.mem_cons_self

/-! ### `itoa` -/

section Itoa

variable (digit : Digits) (m : ℤ → Char) {i : Int32} (b : ℤ)

theorem lt_zero_iff : i < 0 ↔ i.toInt < 0 := by
  rw [Int32.lt_iff_toInt_lt, Int32.toInt_zero]

theorem itoa_of_nonneg (hi : ¬ i < 0) : itoa digit m i b =
    (b, moveBack digit ⟨Function.update m (moveTo b i) NUL, moveTo b i, []⟩ i) := by
  unfold itoa
  simp only [if_neg hi]

theorem itoa_of_neg (hi : i < 0) : itoa digit m i b =
    (b, moveBack digit ⟨Function.update (Function.update m b '-') (moveTo (b + 1) (i * -1)) NUL,
      moveTo (b + 1) (i * -1), []⟩ (i * -1)) := by
  unfold itoa
  simp only [if_pos hi, Writer.push]

theorem writes_of_nonneg (hi : ¬ i < 0) : Writes digit m i b := by
  have hn : 0 ≤ i.toInt := by
    rw [lt_zero_iff] at hi
    omega
  have h := moveBack_moveTo hn digit m b []
  constructor <;> rw [itoa_of_nonneg digit m b hi]
  · rw [numeral_of_nonneg hn]
    exact h.1
  · apply moveBack_used hn
    intro k hk
    cases hk
  · rw [if_neg hi, Int.add_zero]
    exact h.2

theorem writes_of_neg (hi : i < 0) (hmin : i ≠ Int32.minValue) : Writes digit m i b := by
  have hm := toInt_mul_neg_one hmin
  have hlt := lt_zero_iff.mp hi
  have hn : 0 ≤ (i * -1).toInt := by omega
  have h := moveBack_moveTo hn digit (Function.update m b '-') (b + 1) []
  constructor <;> rw [itoa_of_neg digit m b hi]
  · rw [numeral_of_neg hlt, ← hm, List.cons_append, store]
    exact h.1
  · apply moveBack_used hn
    intro k hk
    cases hk
  · rw [if_pos hi]
    exact h.2

theorem mem_used_of_neg (hi : i < 0) : (i * -1 % 10).toInt ∈ (itoa digit m i b).2.used := by
  rw [itoa_of_neg digit m b hi]
  exact mem_used_moveBack digit _ _

/-- `i * -1` of the least `int` is the least `int`, and its last digit is -8. -/
theorem not_writes (hi : i = Int32.minValue) : ¬ Writes digit m i b := by
  have hneg : i < 0 := by rw [hi]; decide
  have hmod : (i * -1 % 10).toInt = -8 := by rw [hi]; decide
  intro h
  have hk := h.used _ (mem_used_of_neg digit m b hneg)
  omega

end Itoa

theorem writes_of_ne (digit : Digits) (m : ℤ → Char) {i : Int32} (b : ℤ)
    (hmin : i ≠ Int32.minValue) : Writes digit m i b := by
  by_cases hi : i < 0
  · exact writes_of_neg digit m b hi hmin
  · exact writes_of_nonneg digit m b hi

theorem writes_iff (digit : Digits) (m : ℤ → Char) (i : Int32) (b : ℤ) :
    Writes digit m i b ↔ i ≠ Int32.minValue := by
  constructor
  · intro h hi
    exact not_writes digit m b hi h
  · exact writes_of_ne digit m b

/-- The array on a stack of zeros. -/
def Digits.onZeros : Digits where
  read k := if 0 ≤ k ∧ k < 10 then k.toNat.digitChar else NUL
  init := by decide

/-- `itoa(-2147483648, 0)` on a memory of zeros reads `digit[-8]`. -/
theorem least_int_misread : -8 ∈ (itoa .onZeros (fun _ => NUL) Int32.minValue 0).2.used ∧
    ¬ Writes .onZeros (fun _ => NUL) Int32.minValue 0 := by
  constructor
  · exact mem_used_of_neg .onZeros _ 0 (by decide : Int32.minValue < 0)
  · exact not_writes .onZeros _ 0 rfl

/-! ### The names of swap files -/

/-- `strlen`, which looks at `n` cells at most. -/
def strlen (m : ℤ → Char) : (n : ℕ) → (a : ℤ) → Option ℕ
  | 0, _ => none
  | n + 1, a => if m a = NUL then some 0 else (strlen m n (a + 1)).map (· + 1)

/-- What `createSwapFile` leaves in memory once it has built the name of page frame `x` of
process `pid` in `path`, which has 100 cells. -/
def swapName (digit : Digits) (m : ℤ → Char) (path : ℤ) (pid x : Int32) :
    Option (ℤ → Char) := do
  let m := (itoa digit m pid path).2.mem
  let len ← strlen m 100 path
  let m := Function.update m (path + len) '_'
  let m := Function.update m (path + len + 1) NUL
  let len ← strlen m 100 path
  pure (itoa digit m x (path + len)).2.mem

theorem strlen_store (m : ℤ → Char) (a : ℤ) {n : ℕ} {cs : List Char} (hn : cs.length < n)
    (hcs : NUL ∉ cs) : strlen (store m a (cs ++ [NUL])) n a = some cs.length := by
  induction cs generalizing m a n with
  | nil =>
    cases n with
    | zero => cases hn
    | succ n =>
      unfold strlen
      rw [if_pos]
      · rfl
      · exact Function.update_self a NUL m
  | cons c cs ih =>
    cases n with
    | zero => cases hn
    | succ n =>
      have hc : store m a (c :: (cs ++ [NUL])) a = c := by
        unfold store
        rw [store_of_lt _ _ _ (by omega), Function.update_self]
      have hne : c ≠ NUL := fun h => hcs (h ▸ List.mem_cons_self)
      rw [List.cons_append]
      unfold strlen
      rw [hc, if_neg hne, store, ih _ _ (Nat.lt_of_succ_lt_succ hn)]
      · rfl
      · exact fun h => hcs (List.mem_cons_of_mem _ h)

theorem nul_not_mem_toDigits (n : ℕ) : NUL ∉ Nat.toDigits 10 n := by
  intro h
  exact absurd (Nat.isDigit_of_mem_toDigits (by decide) (by decide) h) (by decide)

theorem length_toDigits_le {n : ℕ} (hn : n < 10 ^ 10) : (Nat.toDigits 10 n).length ≤ 10 :=
  (Nat.length_toDigits_le_iff (by decide) (by decide)).mpr hn

theorem nul_not_mem_numeral (i : Int32) : NUL ∉ numeral i := by
  by_cases hi : 0 ≤ i.toInt
  · rw [numeral_of_nonneg hi]
    exact nul_not_mem_toDigits _
  · rw [numeral_of_neg (by omega), List.mem_cons, not_or]
    exact ⟨by decide, nul_not_mem_toDigits _⟩

/-- A sign and ten digits at most. -/
theorem length_numeral_le (i : Int32) : (numeral i).length ≤ 11 := by
  have hge := Int32.le_toInt i
  have hlt := Int32.toInt_lt i
  by_cases hi : 0 ≤ i.toInt
  · rw [numeral_of_nonneg hi]
    exact (length_toDigits_le (by omega)).trans (by decide)
  · rw [numeral_of_neg (by omega), List.length_cons]
    exact Nat.succ_le_succ (length_toDigits_le (by omega))

/-- The name is the two numerals with a `_` between them, within the 100 cells. -/
theorem swapName_eq (digit : Digits) (m : ℤ → Char) (path : ℤ) {pid x : Int32}
    (hpid : pid ≠ Int32.minValue) (hx : x ≠ Int32.minValue) :
    swapName digit m path pid x =
      some (store m path (numeral pid ++ '_' :: numeral x ++ [NUL])) := by
  have hlen := length_numeral_le pid
  have hnul := nul_not_mem_numeral pid
  have hm := (writes_of_ne digit m path hpid).mem
  have hstrlen := strlen_store m path (n := 100) (by omega) hnul
  -- the `_` takes the place of the NUL that ended the first numeral
  have hbar : Function.update (Function.update (store m path (numeral pid ++ [NUL]))
      (path + (numeral pid).length) '_') (path + (numeral pid).length + 1) NUL =
        store m path (numeral pid ++ ['_'] ++ [NUL]) := by
    rw [List.append_assoc]
    exact store_store m path (numeral pid) NUL '_' [NUL]
  have hstrlen' : strlen (store m path (numeral pid ++ ['_'] ++ [NUL])) 100 path =
      some (numeral pid ++ ['_']).length := by
    apply strlen_store
    · rw [List.length_append, List.length_singleton]
      omega
    · rw [List.mem_append, not_or]
      exact ⟨hnul, by decide⟩
  have hm' := (writes_of_ne digit (store m path (numeral pid ++ ['_'] ++ [NUL]))
    (path + (numeral pid ++ ['_']).length) hx).mem
  have hends : store (store m path (numeral pid ++ ['_'] ++ [NUL]))
      (path + (numeral pid ++ ['_']).length) (numeral x ++ [NUL]) =
        store m path (numeral pid ++ '_' :: numeral x ++ [NUL]) := by
    cases hcs : numeral x ++ [NUL] with
    | nil => exact absurd (List.append_eq_nil_iff.mp hcs).2 (by decide)
    | cons c cs =>
      rw [store_store, ← hcs, List.append_assoc, List.append_assoc]
      rfl
  unfold swapName
  simp only [hm, hstrlen, Option.bind_eq_bind, Option.bind_some, hbar, hstrlen', hm', hends]
  rfl

/-- The second loop, with the digits as a list before `acc`. -/
theorem itoaLoop_eq {fuel n : ℕ} (hn : n < fuel) (acc : List Char) :
    itoaLoop fuel n acc = Nat.toDigits 10 n ++ acc := by
  induction fuel generalizing n acc with
  | zero => cases hn
  | succ fuel ih =>
    have hdigits : ∀ k < 10, Char.ofNat (48 + k) = k.digitChar := by decide
    have hd := hdigits (n % 10) (Nat.mod_lt _ (by decide))
    unfold itoaLoop
    rw [toDigits_step, hd]
    split_ifs with h
    · rfl
    · rw [ih (by omega), List.append_assoc]
      rfl

theorem itoa_eq_toDigits (n : ℕ) : Files.itoa n = Nat.toDigits 10 n := by
  unfold Files.itoa
  rw [itoaLoop_eq (Nat.lt_succ_self _), List.append_nil]

/-- The characters of a number that is not negative are those that `itoa` leaves in memory. -/
theorem mem_itoa (digit : Digits) (m : ℤ → Char) (b : ℤ) {n : ℕ} (hn : n < 2 ^ 31) :
    (itoa digit m (Int32.ofNat n) b).2.mem = store m b (Files.itoa n ++ [NUL]) := by
  have hi : (Int32.ofNat n).toInt = n := Int32.toInt_ofNat_of_lt hn
  have hmin : Int32.ofNat n ≠ Int32.minValue := by
    intro he
    have hneg : (Int32.ofNat n).toInt = -2 ^ 31 := by rw [he]; rfl
    omega
  rw [(writes_of_ne digit m b hmin).mem, numeral_of_nonneg (by omega), hi, Int.toNat_natCast,
    itoa_eq_toDigits]

end Xv6Lab.Files.Chars
