import Xv6Lab.Files.Layout
import Xv6Lab.Lib.Splice

/-! Files are sequences of bytes: whatever blocks they are in, `readi`, `writei` and `itrunc` do to
a file what they would do to a list, and nothing to the other files. -/

namespace Xv6Lab.Files

open Disk Lib

variable {R : Set ℕ} {s t u : Fs} {ip b i k m n off : ℕ} {f : ℕ → Byte}

/-- Byte `k` of inode `ip`. -/
def Fs.byteAt (s : Fs) (ip k : ℕ) : Byte :=
  s.block (s.ptr ip (placeOf (k / BSIZE))) (Fin.ofNat 512 (k % BSIZE))

/-- The contents of inode `ip`. -/
def Fs.bytes (s : Fs) (ip : ℕ) : List Byte := (List.range (s.inode ip).size).map (s.byteAt ip)

/-! ### Offsets -/

theorem offset_add {x : ℕ} (h : off % BSIZE + x < BSIZE) :
    (off + x) / BSIZE = off / BSIZE ∧ (off + x) % BSIZE = off % BSIZE + x := by
  unfold BSIZE at *
  omega

/-- The bytes of one block that are in a stretch of the file. -/
theorem offset_mem (hk : k / BSIZE = off / BSIZE) :
    off % BSIZE ≤ k % BSIZE ∧ k % BSIZE < off % BSIZE + n ↔ off ≤ k ∧ k < off + n := by
  unfold BSIZE at *
  omega

theorem div_lt_maxfile (h : k < MAXFILE * BSIZE) : k / BSIZE < MAXFILE :=
  Nat.div_lt_of_lt_mul (by rwa [Nat.mul_comm])

/-- The bytes of one round. -/
def round (left off : ℕ) : ℕ := min left (BSIZE - off % BSIZE)

theorem round_le (left off : ℕ) : round left off ≤ left := Nat.min_le_left ..

theorem round_pos {left : ℕ} (h : left ≠ 0) (off : ℕ) : 0 < round left off := by
  unfold round BSIZE
  omega

theorem offset_round (left off : ℕ) : off % BSIZE + round left off ≤ BSIZE := by
  unfold round BSIZE
  omega

/-! ### Parts of a file -/

/-- The `n` bytes of inode `ip` from `off` on become `f 0`, `f 1` and so on. -/
structure Overwrites (R : Set ℕ) (ip off n : ℕ) (f : ℕ → Byte) (s t : Fs) : Prop where
  owned : Owned R t
  same : Same s t
  kept : ∀ i m, m < PTRS → s.ptr i m ≠ 0 → t.ptr i m = s.ptr i m
  others : ∀ i m, i ≠ ip → m < PTRS → t.ptr i m = s.ptr i m
  inside : ∀ x < n, t.ptr ip (placeOf ((off + x) / BSIZE)) ≠ 0 ∧ t.byteAt ip (off + x) = f x
  outside : ∀ i k, k < MAXFILE * BSIZE → s.ptr i (placeOf (k / BSIZE)) ≠ 0 →
    (i ≠ ip ∨ k < off ∨ off + n ≤ k) → t.byteAt i k = s.byteAt i k
  reserved : ∀ b ∈ R, t.block b = s.block b

theorem Overwrites.congr {f' : ℕ → Byte} (h : Overwrites R ip off n f s t)
    (hf : ∀ x < n, f x = f' x) : Overwrites R ip off n f' s t :=
  { h with inside := fun x hx => ⟨(h.inside x hx).1, (h.inside x hx).2.trans (hf x hx)⟩ }

theorem place_of_lt (h : k < MAXFILE * BSIZE) : placeOf (k / BSIZE) < PTRS :=
  placeOf_lt (div_lt_maxfile h)

theorem Extends.overwrites (h : Extends R ip s t) (off : ℕ) (f : ℕ → Byte) :
    Overwrites R ip off 0 f s t where
  owned := h.owned
  same := h.same
  kept := h.kept
  others := h.others
  inside x hx := absurd hx (Nat.not_lt_zero x)
  outside i k hk hne _ := by
    have hm := place_of_lt hk
    unfold Fs.byteAt
    rw [h.kept i _ hm hne, h.block i _ hm (placeOf_ne _) hne]
  reserved := h.reserved

theorem Overwrites.trans (h : Overwrites R ip off n f s t)
    (h' : Overwrites R ip (off + n) k (fun x => f (n + x)) t u) (hlt : off + n ≤ MAXFILE * BSIZE) :
    Overwrites R ip off (n + k) f s u where
  owned := h'.owned
  same := h.same.trans h'.same
  kept i m hm hne := by
    have hk := h.kept i m hm hne
    rw [h'.kept i m hm (hk.trans_ne hne), hk]
  others i m hi hm := (h'.others i m hi hm).trans (h.others i m hi hm)
  inside x hx := by
    by_cases hxn : x < n
    · obtain ⟨hne, hbyte⟩ := h.inside x hxn
      have hm : placeOf ((off + x) / BSIZE) < PTRS := place_of_lt (by omega)
      refine ⟨(h'.kept ip _ hm hne).trans_ne hne, ?_⟩
      rw [h'.outside ip (off + x) (by omega) hne (.inr (.inl (by omega))), hbyte]
    · have hx' := h'.inside (x - n) (by omega)
      rwa [show off + n + (x - n) = off + x by omega, show n + (x - n) = x by omega] at hx'
  outside i k hk hne hout := by
    have hne' := (h.kept i _ (place_of_lt hk) hne).trans_ne hne
    rw [h'.outside i k hk hne' (by omega), h.outside i k hk hne (by omega)]
  reserved b hb := (h'.reserved b hb).trans (h.reserved b hb)

/-- Part of a block of data is changed. -/
theorem Owned.setBlock (ho : Owned R s) (hm : placeOf m < PTRS) (hb : s.ptr ip (placeOf m) = b)
    (d : Data) :
    Owned R (s.setBlock b d) ∧ ∀ i k, (s.setBlock b d).ptr i k = s.ptr i k := by
  have hptr : ∀ i k, (s.setBlock b d).ptr i k = s.ptr i k := by
    intro i k
    refine ptr_congr (by rfl) (fun hi => Function.update_of_ne ?_ _ _) k
    rw [← ptr_indirect] at hi ⊢
    intro he
    exact placeOf_ne m (ho.apart i 12 ip (placeOf m) (by decide) hm hi (he.trans hb.symm)).2.symm
  exact ⟨ho.congr rfl rfl hptr, hptr⟩

theorem setBlock_overwrites (ho : Owned R s) (hoff : off / BSIZE < MAXFILE)
    (hb : s.ptr ip (placeOf (off / BSIZE)) = b) (hne : b ≠ 0) (hn : off % BSIZE + n ≤ BSIZE) :
    Overwrites R ip off n f s (s.setBlock b fun j =>
      if off % BSIZE ≤ j.val ∧ j.val < off % BSIZE + n then f (j.val - off % BSIZE)
      else s.block b j) := by
  have hm := placeOf_lt hoff
  obtain ⟨hown, hptr⟩ := ho.setBlock hm hb fun j =>
    if off % BSIZE ≤ j.val ∧ j.val < off % BSIZE + n then f (j.val - off % BSIZE) else s.block b j
  have hval : ∀ k, (Fin.ofNat 512 (k % BSIZE)).val = k % BSIZE := fun k =>
    Nat.mod_eq_of_lt (Nat.mod_lt k (by decide))
  refine ⟨hown, ⟨rfl, rfl, fun _ => ⟨rfl, rfl, rfl⟩, rfl, rfl, rfl, rfl⟩, fun i k _ _ => hptr i k,
    fun i k _ _ => hptr i k, fun x hx => ?_, fun i k hk hnz hout => ?_,
    fun c hc => Function.update_of_ne ?_ _ _⟩
  · have hblock : off % BSIZE + x < BSIZE := by omega
    obtain ⟨hdiv, hmod⟩ := offset_add hblock
    unfold Fs.byteAt
    rw [hdiv, hptr, hb]
    refine ⟨hne, ?_⟩
    change Function.update s.block b _ b _ = _
    rw [Function.update_self]
    simp only [hval]
    rw [if_pos (by omega), hmod, Nat.add_sub_cancel_left]
  · unfold Fs.byteAt
    rw [hptr]
    change Function.update s.block b _ _ _ = _
    by_cases he : s.ptr i (placeOf (k / BSIZE)) = b
    · rw [he, Function.update_self]
      obtain ⟨hi, hplace⟩ := ho.apart i _ ip _ (place_of_lt hk) hm hnz (he.trans hb.symm)
      simp only [hval]
      rw [if_neg]
      rw [offset_mem (placeOf_inj hplace)]
      omega
    · rw [Function.update_of_ne he]
  · rintro rfl
    exact ho.unnamed ip _ hm (hb.trans_ne hne) (hb ▸ hc)

/-! ### The loops -/

theorem writeiLoop_succ (src : ℕ → Byte) {fuel left tot : ℕ} (h : left ≠ 0) :
    writeiLoop ip src (fuel + 1) left off tot = (do
      let b ← bmap ip (off / BSIZE)
      modify fun s => s.setBlock b fun j =>
        if off % BSIZE ≤ j.val ∧ j.val < off % BSIZE + round left off then
          src (tot + (j.val - off % BSIZE))
        else s.block b j
      writeiLoop ip src fuel (left - round left off) (off + round left off)
        (tot + round left off)) := by
  rw [writeiLoop, if_neg h]
  rfl

theorem writeiLoop_zero (src : ℕ → Byte) (fuel off tot : ℕ) :
    writeiLoop ip src fuel 0 off tot = pure () := by
  cases fuel with
  | zero => rfl
  | succ fuel => rw [writeiLoop, if_pos rfl]

theorem writeiLoop_spec (src : ℕ → Byte) {fuel left tot : ℕ} (ho : Owned R s) (hf : left ≤ fuel)
    (hlt : off + left ≤ MAXFILE * BSIZE) :
    wp (writeiLoop ip src fuel left off tot)
      (fun _ t => Overwrites R ip off left (fun x => src (tot + x)) s t) s ∧
    stops (writeiLoop ip src fuel left off tot) Full s := by
  induction fuel generalizing s left off tot with
  | zero =>
    obtain rfl := Nat.le_zero.1 hf
    rw [writeiLoop_zero, wp_pure, stops_pure]
    exact ⟨(Extends.refl ho).overwrites off _, trivial⟩
  | succ fuel ih =>
    by_cases h0 : left = 0
    · subst h0
      rw [writeiLoop_zero, wp_pure, stops_pure]
      exact ⟨(Extends.refl ho).overwrites off _, trivial⟩
    · have hpos := round_pos h0 off
      have hle := round_le left off
      have hin := offset_round left off
      have hbn : off / BSIZE < MAXFILE := div_lt_maxfile (by omega)
      rw [writeiLoop_succ src h0]
      generalize round left off = m at hpos hle hin ⊢
      have hspec : wp (bmap ip (off / BSIZE)) (Finds R ip (placeOf (off / BSIZE)) s) s ∧
          stops (bmap ip (off / BSIZE)) Full s := bmap_spec ho hbn
      obtain ⟨hmap, hstop⟩ := hspec
      have hround : ∀ b t, Finds R ip (placeOf (off / BSIZE)) s b t →
          Overwrites R ip off m (fun x => src (tot + x)) s (t.setBlock b fun j =>
            if off % BSIZE ≤ j.val ∧ j.val < off % BSIZE + m then src (tot + (j.val - off % BSIZE))
            else t.block b j) := by
        rintro b t ⟨hext, hb, hne⟩
        have hset := setBlock_overwrites (f := fun x => src (tot + x)) hext.owned hbn hb hne hin
        have h := (hext.overwrites off fun x => src (tot + x)).trans (k := m)
          (by simpa only [Nat.zero_add, Nat.add_zero] using hset) (by omega)
        rwa [Nat.zero_add] at h
      have hrest : ∀ {t}, Overwrites R ip off m (fun x => src (tot + x)) s t →
          wp (writeiLoop ip src fuel (left - m) (off + m) (tot + m))
            (fun _ u => Overwrites R ip off left (fun x => src (tot + x)) s u) t ∧
          stops (writeiLoop ip src fuel (left - m) (off + m) (tot + m)) Full t := by
        intro t ht
        obtain ⟨hwp, hst⟩ := @ih t (off + m) (left - m) (tot + m) ht.owned (by omega) (by omega)
        refine ⟨wp_mono hwp fun _ u hu => ?_, hst⟩
        have h := ht.trans (u := u) (k := left - m) (by simpa only [Nat.add_assoc] using hu)
          (by omega)
        rwa [Nat.add_sub_cancel' hle] at h
      constructor
      · simp only [wp_bind, wp_modify]
        exact wp_mono hmap fun b t ht => (hrest (hround b t ht)).1
      · simp only [stops_bind, stops_modify, wp_modify, true_and]
        exact ⟨hstop, wp_mono hmap fun b t ht => (hrest (hround b t ht)).2⟩

theorem readiLoop_succ {fuel left : ℕ} (h : left ≠ 0) :
    readiLoop ip (fuel + 1) left off = (do
      let b ← bmap ip (off / BSIZE)
      let s ← get
      let rest ← readiLoop ip fuel (left - round left off) (off + round left off)
      pure ((List.range (round left off)).map (fun k =>
        s.block b (Fin.ofNat 512 (off % BSIZE + k))) ++ rest)) := by
  rw [readiLoop, if_neg h]
  rfl

theorem readiLoop_zero (fuel off : ℕ) : readiLoop ip fuel 0 off = pure [] := by
  cases fuel with
  | zero => rfl
  | succ fuel => rw [readiLoop, if_pos rfl]

theorem range_add_map {α : Type} (g : ℕ → α) (m k : ℕ) :
    (List.range (m + k)).map g = (List.range m).map g ++ (List.range k).map fun x => g (m + x) := by
  rw [List.range_add, List.map_append, List.map_map]
  rfl

theorem readiLoop_eq {fuel left : ℕ} (hf : left ≤ fuel) (hlt : off + left ≤ MAXFILE * BSIZE)
    (h : ∀ x < left, s.ptr ip (placeOf ((off + x) / BSIZE)) ≠ 0) :
    readiLoop ip fuel left off s =
      .ok ((List.range left).map fun x => s.byteAt ip (off + x), s) := by
  induction fuel generalizing left off with
  | zero =>
    obtain rfl := Nat.le_zero.1 hf
    rw [readiLoop_zero]
    rfl
  | succ fuel ih =>
    by_cases h0 : left = 0
    · subst h0
      rw [readiLoop_zero]
      rfl
    · have hpos := round_pos h0 off
      have hle := round_le left off
      have hin := offset_round left off
      rw [readiLoop_succ h0]
      generalize round left off = m at hpos hle hin ⊢
      have hfirst := h 0 (by omega)
      rw [Nat.add_zero] at hfirst
      have hrest := @ih (off + m) (left - m) (by omega) (by omega) fun x hx => by
        rw [Nat.add_assoc]
        exact h (m + x) (by omega)
      have hblock : ((List.range m).map fun k =>
          s.block (s.ptr ip (placeOf (off / BSIZE))) (Fin.ofNat 512 (off % BSIZE + k))) =
          (List.range m).map fun x => s.byteAt ip (off + x) := by
        refine List.map_congr_left fun x hx => ?_
        have hlt := List.mem_range.1 hx
        have hinside : off % BSIZE + x < BSIZE := by omega
        obtain ⟨hdiv, hmod⟩ := offset_add hinside
        unfold Fs.byteAt
        rw [hdiv, hmod]
      simp only [bind_apply, bmap_of_ptr (div_lt_maxfile (by omega)) hfirst, get_apply, hrest,
        pure_apply, hblock]
      have hsplit := range_add_map (fun x => s.byteAt ip (off + x)) m (left - m)
      rw [Nat.add_sub_cancel' hle] at hsplit
      rw [hsplit]
      simp only [Nat.add_assoc]

/-! ### Whole files -/

/-- A file system in good order: files have the blocks for their sizes, and free inodes none. -/
structure Good (R : Set ℕ) (s : Fs) : Prop where
  owned : Owned R s
  covered : ∀ i k, k < (s.inode i).size → s.ptr i (placeOf (k / BSIZE)) ≠ 0
  small : ∀ i, (s.inode i).size ≤ MAXFILE * BSIZE
  plain : ∀ i, (s.inode i).type ≠ .T_DEV
  free : ∀ i, (s.inode i).type = .free → (s.inode i).size = 0 ∧ ∀ m < PTRS, s.ptr i m = 0

theorem length_bytes (s : Fs) (ip : ℕ) : (s.bytes ip).length = (s.inode ip).size := by
  unfold Fs.bytes
  rw [List.length_map, List.length_range]

theorem getElem?_bytes (s : Fs) (ip k : ℕ) :
    (s.bytes ip)[k]? = if k < (s.inode ip).size then some (s.byteAt ip k) else none := by
  unfold Fs.bytes
  rw [List.getElem?_map]
  by_cases hk : k < (s.inode ip).size
  · rw [if_pos hk, List.getElem?_range hk]
    rfl
  · rw [if_neg hk, List.getElem?_eq_none (by rw [List.length_range]; omega)]
    rfl

theorem drop_take_bytes (s : Fs) (h : off + n ≤ (s.inode ip).size) :
    ((s.bytes ip).drop off).take n = (List.range n).map fun x => s.byteAt ip (off + x) := by
  refine List.ext_getElem? fun k => ?_
  rw [List.getElem?_take, List.getElem?_drop, getElem?_bytes, List.getElem?_map]
  by_cases hk : k < n
  · rw [if_pos hk, if_pos (by omega), List.getElem?_range hk]
    rfl
  · rw [if_neg hk, List.getElem?_eq_none (by rw [List.length_range]; omega)]
    rfl

/-- `readi` as it is on sequences of bytes. -/
def listReadi (l : List Byte) (off n : ℕ) : Option (List Byte) :=
  if l.length < off ∨ 2 ^ 32 ≤ off + n then none else some ((l.drop off).take n)

theorem readi_eq (h : Good R s) (ip off n : ℕ) :
    readi ip off n s = .ok (listReadi (s.bytes ip) off n, s) := by
  unfold readi listReadi
  rw [length_bytes]
  simp only [bind_apply, get_apply]
  rw [if_neg (h.plain ip)]
  by_cases hbad : (s.inode ip).size < off ∨ 2 ^ 32 ≤ off + n
  · rw [if_pos hbad, if_pos hbad]
    rfl
  · rw [if_neg hbad, if_neg hbad]
    have hoff : off ≤ (s.inode ip).size := by omega
    have hcut : ∀ m, off + m ≤ (s.inode ip).size → readiLoop ip m m off s =
        .ok (((s.bytes ip).drop off).take m, s) := by
      intro m hm
      rw [drop_take_bytes s hm]
      exact readiLoop_eq le_rfl (hm.trans (h.small ip)) fun x hx => h.covered ip _ (by omega)
    by_cases hlong : (s.inode ip).size < off + n
    · have hall : ((s.bytes ip).drop off).take n =
          ((s.bytes ip).drop off).take ((s.inode ip).size - off) := by
        rw [List.take_of_length_le (by rw [List.length_drop, length_bytes]; omega),
          List.take_of_length_le (by rw [List.length_drop, length_bytes])]
      rw [if_pos hlong, bind_apply, hcut _ (by omega), hall]
      rfl
    · rw [if_neg hlong, bind_apply, hcut _ (by omega)]
      rfl

/-- `writei` as it is on sequences of bytes: the result, and the new contents. -/
def listWritei (l bytes : List Byte) (off : ℕ) : Option ℕ × List Byte :=
  if l.length < off ∨ 2 ^ 32 ≤ off + bytes.length then (none, l)
  else if MAXFILE * BSIZE < off + bytes.length then (none, l)
  else (some bytes.length, splice l off bytes)

/-- The file `ip` has the contents `l` now, and everything else is as it was. -/
structure Rewrites (R : Set ℕ) (ip : ℕ) (l : List Byte) (s t : Fs) : Prop where
  good : Good R t
  self : t.bytes ip = l
  others : ∀ i ≠ ip, t.bytes i = s.bytes i
  reserved : ∀ b ∈ R, t.block b = s.block b
  stat : ∀ i, (t.inode i).type = (s.inode i).type ∧ (t.inode i).nlink = (s.inode i).nlink
  entries : t.entries = s.entries
  icache : t.icache = s.icache
  ftable : t.ftable = s.ftable

theorem Rewrites.refl (h : Good R s) : Rewrites R ip (s.bytes ip) s s :=
  ⟨h, rfl, fun _ _ => rfl, fun _ _ => rfl, fun _ => ⟨rfl, rfl⟩, rfl, rfl, rfl⟩

/-- The size of inode `ip` becomes `n`. -/
def Fs.setSize (s : Fs) (ip n : ℕ) : Fs := s.setInode ip { s.inode ip with size := n }

theorem setSize_ptr (s : Fs) (ip n i m : ℕ) : (s.setSize ip n).ptr i m = s.ptr i m := by
  have haddr : (s.setSize ip n).addr i = s.addr i := by
    funext k
    change (Function.update s.inode ip _ i).addrs k = (s.inode i).addrs k
    by_cases hi : i = ip
    · rw [hi, Function.update_self]
    · rw [Function.update_of_ne hi]
  exact ptr_congr haddr (fun _ => rfl) m

theorem setSize_byteAt (s : Fs) (ip n i k : ℕ) : (s.setSize ip n).byteAt i k = s.byteAt i k := by
  unfold Fs.byteAt
  rw [setSize_ptr]
  rfl

theorem setSize_inode_self (s : Fs) (ip n : ℕ) : ((s.setSize ip n).inode ip).size = n := by
  change (Function.update s.inode ip _ ip).size = n
  rw [Function.update_self]

theorem setSize_inode_of_ne (hi : i ≠ ip) (n : ℕ) : (s.setSize ip n).inode i = s.inode i :=
  Function.update_of_ne hi ..

theorem setSize_self (h : (s.inode ip).size = n) : s.setSize ip n = s := by
  subst h
  unfold Fs.setSize Fs.setInode
  rw [Function.update_eq_self]

theorem setSize_stat (s : Fs) (ip n i : ℕ) :
    ((s.setSize ip n).inode i).type = (s.inode i).type ∧
      ((s.setSize ip n).inode i).nlink = (s.inode i).nlink := by
  by_cases hi : i = ip
  · rw [hi]
    change (Function.update s.inode ip _ ip).type = _ ∧ (Function.update s.inode ip _ ip).nlink = _
    rw [Function.update_self]
    exact ⟨rfl, rfl⟩
  · rw [setSize_inode_of_ne hi]
    exact ⟨rfl, rfl⟩

/-- Bytes are written into the blocks, and then the size is set. -/
theorem Overwrites.rewrites {bytes : List Byte}
    (h : Overwrites R ip off bytes.length (fun x => bytes.getD x 0) s t) (hs : Good R s)
    (hlive : (s.inode ip).type ≠ .free) (hoff : off ≤ (s.inode ip).size)
    (hmax : off + bytes.length ≤ MAXFILE * BSIZE) :
    Rewrites R ip (splice (s.bytes ip) off bytes) s
      (t.setSize ip (max (s.inode ip).size (off + bytes.length))) := by
  have hlen := length_bytes s ip
  have hkept : ∀ i k, k < (s.inode i).size → t.ptr i (placeOf (k / BSIZE)) ≠ 0 := by
    intro i k hk
    have hsmall := hs.small i
    rw [h.kept i _ (place_of_lt (by omega)) (hs.covered i k hk)]
    exact hs.covered i k hk
  refine ⟨⟨h.owned.congr rfl rfl (setSize_ptr t ip _), fun i k hk => ?_, fun i => ?_, fun i => ?_,
    fun i hi => ?_⟩, ?_, fun i hi => ?_, h.reserved, fun i => ?_, h.same.entries, h.same.icache,
    h.same.ftable⟩
  · rw [setSize_ptr]
    by_cases hi : i = ip
    · rw [hi] at hk ⊢
      rw [setSize_inode_self] at hk
      by_cases hold : k < (s.inode ip).size
      · exact hkept ip k hold
      · have hin := h.inside (k - off) (by omega)
        rw [Nat.add_sub_cancel' (by omega)] at hin
        exact hin.1
    · rw [setSize_inode_of_ne hi, (h.same.stat i).2.2] at hk
      exact hkept i k hk
  · by_cases hi : i = ip
    · rw [hi, setSize_inode_self]
      exact max_le (hs.small ip) hmax
    · rw [setSize_inode_of_ne hi, (h.same.stat i).2.2]
      exact hs.small i
  · rw [(setSize_stat t ip _ i).1, (h.same.stat i).1]
    exact hs.plain i
  · rw [(setSize_stat t ip _ i).1, (h.same.stat i).1] at hi
    have hne : i ≠ ip := by
      rintro rfl
      exact hlive hi
    obtain ⟨hsize, hptr⟩ := hs.free i hi
    refine ⟨?_, fun m hm => ?_⟩
    · rw [setSize_inode_of_ne hne, (h.same.stat i).2.2, hsize]
    · rw [setSize_ptr, h.others i m hne hm, hptr m hm]
  · refine List.ext_getElem? fun k => ?_
    rw [getElem?_bytes, setSize_inode_self, setSize_byteAt]
    by_cases hbefore : k < off
    · have hk : k < (s.inode ip).size := by omega
      have hsmall := hs.small ip
      rw [getElem?_splice_before (by omega) hbefore, getElem?_bytes, if_pos (by omega), if_pos hk,
        h.outside ip k (by omega) (hs.covered ip k hk) (.inr (.inl hbefore))]
    · by_cases hinside : k < off + bytes.length
      · have hin := (h.inside (k - off) (by omega)).2
        rw [Nat.add_sub_cancel' (by omega)] at hin
        have hlt : k - off < bytes.length := by omega
        rw [getElem?_splice_inside (by omega) (by omega) hinside, if_pos (by omega), hin,
          List.getD_eq_getElem?_getD, List.getElem?_eq_getElem hlt, Option.getD_some]
      · rw [getElem?_splice_after (by omega) (by omega), getElem?_bytes]
        by_cases hk : k < (s.inode ip).size
        · have hsmall := hs.small ip
          rw [if_pos (by omega), if_pos hk,
            h.outside ip k (by omega) (hs.covered ip k hk) (.inr (.inr (by omega)))]
        · rw [if_neg (by omega), if_neg hk]
  · refine List.ext_getElem? fun k => ?_
    rw [getElem?_bytes, getElem?_bytes, setSize_inode_of_ne hi, setSize_byteAt,
      (h.same.stat i).2.2]
    by_cases hk : k < (s.inode i).size
    · have hsmall := hs.small i
      rw [if_pos hk, if_pos hk, h.outside i k (by omega) (hs.covered i k hk) (.inl hi)]
    · rw [if_neg hk, if_neg hk]
  · rw [(setSize_stat t ip _ i).1, (setSize_stat t ip _ i).2]
    exact ⟨(h.same.stat i).1, (h.same.stat i).2.1⟩

theorem writei_spec (hs : Good R s) (hlive : (s.inode ip).type ≠ .free) (bytes : List Byte)
    (off : ℕ) {src : ℕ → Byte} (hsrc : ∀ k < bytes.length, src k = bytes.getD k 0) :
    wp (writei ip src off bytes.length) (fun r t =>
      r = (listWritei (s.bytes ip) bytes off).1 ∧
        Rewrites R ip (listWritei (s.bytes ip) bytes off).2 s t) s ∧
    stops (writei ip src off bytes.length) Full s := by
  unfold writei listWritei
  rw [length_bytes, wp_bind, wp_get, stops_bind, wp_get, if_neg (hs.plain ip)]
  by_cases hbad : (s.inode ip).size < off ∨ 2 ^ 32 ≤ off + bytes.length
  · rw [if_pos hbad, if_pos hbad, wp_pure, stops_get, stops_pure]
    exact ⟨⟨rfl, .refl hs⟩, trivial, trivial⟩
  · rw [if_neg hbad, if_neg hbad]
    by_cases hmax : MAXFILE * BSIZE < off + bytes.length
    · rw [if_pos hmax, if_pos hmax, wp_pure, stops_get, stops_pure]
      exact ⟨⟨rfl, .refl hs⟩, trivial, trivial⟩
    · rw [if_neg hmax, if_neg hmax]
      obtain ⟨hwp, hstop⟩ := @writeiLoop_spec R s ip off src bytes.length bytes.length
        0 hs.owned le_rfl (not_lt.1 hmax)
      simp only [Nat.zero_add] at hwp
      constructor
      · rw [wp_bind]
        refine wp_mono hwp fun _ t ht => ?_
        have hsize := (ht.same.stat ip).2.2
        have hrew := (ht.congr hsrc).rewrites hs hlive (by omega) (not_lt.1 hmax)
        rw [wp_bind, wp_get, hsize]
        by_cases hgrow : 0 < bytes.length ∧ (s.inode ip).size < off + bytes.length
        · rw [if_pos hgrow]
          simp only [wp_bind, wp_modify, wp_pure]
          rw [max_eq_right (by omega)] at hrew
          exact ⟨by trivial, hrew⟩
        · rw [if_neg hgrow]
          simp only [wp_pure]
          have hmaxeq : max (s.inode ip).size (off + bytes.length) = (s.inode ip).size := by omega
          rw [hmaxeq, setSize_self hsize] at hrew
          exact ⟨by trivial, hrew⟩
      · rw [stops_bind]
        refine ⟨by rw [stops_get]; trivial, hstop, wp_mono hwp fun _ t _ => ?_⟩
        rw [stops_bind, wp_get]
        refine ⟨by rw [stops_get]; trivial, ?_⟩
        by_cases hgrow : 0 < bytes.length ∧ (t.inode ip).size < off + bytes.length
        · rw [if_pos hgrow]
          simp only [stops_bind, stops_modify, stops_pure, wp_modify, and_self]
        · rw [if_neg hgrow]
          simp only [stops_pure]

end Xv6Lab.Files
