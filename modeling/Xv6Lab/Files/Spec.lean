import Xv6Lab.Files.Machine

/-! What the functions of the file system do to a consistent disk: opening a file,
and writing one block of it. -/

namespace Xv6Lab.Files

open Disk Lib

variable {R : Set ℕ} {s t : Fs} {E : Env} {ip b : ℕ} {j : Fin NINODE} {d : Data}

/-- A consistent disk on which the blocks `R` are in use, but not by a file. -/
structure Fits (R : Set ℕ) (s : Fs) : Prop where
  /-- Block 0 is the boot block. -/
  boot : s.bit 0 = true
  used : ∀ i k, s.addr i k ≠ 0 → s.bit (s.addr i k) = true
  apart : ∀ i k i' k', s.addr i k ≠ 0 → s.addr i k = s.addr i' k' → i = i' ∧ k = k'
  taken : ∀ b ∈ R, s.bit b = true
  unnamed : ∀ i k, s.addr i k ≠ 0 → s.addr i k ∉ R

theorem Fits.congr (h : Fits R s) (hbit : t.bit = s.bit) (haddr : t.addr = s.addr) : Fits R t where
  boot := by rw [hbit]; exact h.boot
  used := by rw [hbit, haddr]; exact h.used
  apart := by rw [haddr]; exact h.apart
  taken := by rw [hbit]; exact h.taken
  unnamed := by rw [haddr]; exact h.unnamed

/-! ### The inode cache -/

theorem Fs.setCached_self (s : Fs) (j : Fin NINODE) : s.setCached j (s.icache j) = s := by
  unfold Fs.setCached
  rw [Function.update_eq_self]

theorem Fs.setValid_inum (s : Fs) (j i : Fin NINODE) (v : Bool) :
    ((s.setValid j v).icache i).inum = (s.icache i).inum := by
  unfold Fs.setValid
  rw [Fs.setCached_icache, Function.update_apply]
  split_ifs with e
  · rw [e]
  · rfl

theorem Fs.setValid_ref (s : Fs) (j i : Fin NINODE) (v : Bool) :
    ((s.setValid j v).icache i).ref = (s.icache i).ref := by
  unfold Fs.setValid
  rw [Fs.setCached_icache, Function.update_apply]
  split_ifs with e
  · rw [e]
  · rfl

/-- A lock that is granted makes the entry valid. -/
theorem ilock_eq (hr : 0 < (s.icache j).ref)
    (h : (s.icache j).valid = true ∨ (s.inode (s.icache j).inum).type ≠ .free) :
    ilock j s = .ok ((), s.setValid j true) := by
  unfold ilock
  simp only [bind_apply, get_apply]
  rw [if_neg (Nat.not_lt.2 hr)]
  by_cases hv : (s.icache j).valid = true
  · have hself : s.setValid j true = s := by
      unfold Fs.setValid
      rw [← hv]
      exact s.setCached_self j
    rw [if_pos hv, pure_apply, hself]
  · rw [if_neg hv, bind_apply, modify_apply]
    simp only
    rw [if_neg (h.resolve_left hv), pure_apply]

theorem wp_ilock {Q : Unit → Fs → Prop} (j : Fin NINODE)
    (h : 0 < (s.icache j).ref ∧
      ((s.icache j).valid = true ∨ (s.inode (s.icache j).inum).type ≠ .free) →
        Q () (s.setValid j true)) : wp (ilock j) Q s := by
  by_cases hr : 0 < (s.icache j).ref
  · by_cases hl : (s.icache j).valid = true ∨ (s.inode (s.icache j).inum).type ≠ .free
    · exact wp_of_eq (ilock_eq hr hl) (h ⟨hr, hl⟩)
    · obtain ⟨hv, hfree⟩ := not_or.1 hl
      unfold ilock
      rw [wp_bind, wp_get, if_neg (Nat.not_lt.2 hr), if_neg hv, wp_bind, wp_modify,
        if_pos (not_not.1 hfree), wp_throw]
      trivial
  · unfold ilock
    rw [wp_bind, wp_get, if_pos (by omega), wp_throw]
    trivial

/-! ### Blocks -/

/-- The disk with the free block `b` allocated. -/
def Fs.alloc (s : Fs) (b : ℕ) : Fs := (s.setBit b true).setBlock b fun _ => 0#8

theorem balloc_spec (s : Fs) : wp balloc (fun b t => s.bit b = false ∧ t = s.alloc b) s := by
  unfold balloc
  rw [wp_bind, wp_get]
  apply wp_balloc
  exact fun b hfree _ => ⟨hfree, rfl⟩

theorem Fits.alloc (h : Fits R s) : Fits R (s.alloc b) where
  boot := by
    rw [Fs.alloc, Fs.setBlock_bit, Fs.setBit_bit, Function.update_apply]
    split_ifs
    · rfl
    · exact h.boot
  used i k hk := by
    rw [Fs.alloc, Fs.setBlock_bit, Fs.setBit_bit, Function.update_apply]
    split_ifs
    · rfl
    · exact h.used i k hk
  apart := h.apart
  taken c hc := by
    rw [Fs.alloc, Fs.setBlock_bit, Fs.setBit_bit, Function.update_apply]
    split_ifs
    · rfl
    · exact h.taken c hc
  unnamed := h.unnamed

/-- Allocation leaves the blocks alone that are in use. -/
theorem Fs.alloc_block {c : ℕ} (hb : s.bit b = false) (hc : s.bit c = true) :
    (s.alloc b).block c = s.block c := by
  apply Function.update_of_ne
  rintro rfl
  rw [hb] at hc
  cases hc

/-- `t` is `s` with block `bn` of inode `ip` at `b`, allocated if there was none. -/
structure Mapped (ip : ℕ) (k : Fin 13) (s : Fs) (b : ℕ) (t : Fs) : Prop where
  ne_zero : b ≠ 0
  old : s.addr ip k = b ∨ s.addr ip k = 0 ∧ s.bit b = false
  addr : t.addr = Function.update s.addr ip (Function.update (s.addr ip) k b)
  bit : t.bit = Function.update s.bit b true
  block : ∀ c, c ≠ b → t.block c = s.block c
  type : (t.inode ip).type = (s.inode ip).type
  size : (t.inode ip).size = (s.inode ip).size
  icache : t.icache = s.icache
  ftable : t.ftable = s.ftable

theorem bmap_direct (h : Fits R s) {bn : ℕ} (hbn : bn < NDIRECT) :
    wp (bmap ip bn) (Mapped ip ⟨bn, hbn.trans (by decide)⟩ s) s := by
  unfold bmap
  rw [dif_pos hbn, wp_bind, wp_get]
  simp only
  split_ifs with h0
  · simp only [wp_bind, wp_modify, wp_pure]
    refine wp_mono (balloc_spec s) ?_
    rintro b t ⟨hb, rfl⟩
    have hne : b ≠ 0 := by
      rintro rfl
      rw [h.boot] at hb
      cases hb
    refine ⟨hne, .inr ⟨h0, hb⟩, ?_, rfl, fun c hc => Function.update_of_ne hc _ _, ?_, ?_, rfl, rfl⟩
    · funext i
      by_cases hi : i = ip
      · rw [hi, Function.update_self]
        funext k
        simp only [Fs.addr, Fs.setAddr, Fs.setInode_inode, Function.update_self]
        rfl
      · rw [Function.update_of_ne hi]
        funext k
        simp only [Fs.addr, Fs.setAddr, Fs.setInode_inode, Function.update_of_ne hi]
        rfl
    · simp only [Fs.setAddr, Fs.setInode_inode, Function.update_self]
      rfl
    · simp only [Fs.setAddr, Fs.setInode_inode, Function.update_self]
      rfl
  · rw [wp_pure]
    refine ⟨h0, .inl rfl, ?_, ?_, fun c _ => rfl, rfl, rfl, rfl, rfl⟩
    · rw [Function.update_eq_self, Function.update_eq_self]
    · rw [← h.used ip _ h0, Function.update_eq_self]

/-- A block that holds data has its number in one place. -/
theorem Mapped.fits {k : Fin 13} (hm : Mapped ip k s b t) (h : Fits R s) : Fits R t := by
  have haddr : ∀ i l, t.addr i l = if i = ip ∧ l = k then b else s.addr i l := by
    intro i l
    rw [hm.addr, Function.update_apply]
    split_ifs with hi hl hl
    · rw [hl.2, Function.update_self]
    · rw [hi, Function.update_of_ne fun e => hl ⟨hi, e⟩]
    · exact absurd hl.1 hi
    · rfl
  have hother : ∀ i l, ¬ (i = ip ∧ l = k) → s.addr i l ≠ 0 → s.addr i l ≠ b := by
    intro i l hil hne he
    rcases hm.old with hb | ⟨-, hb⟩
    · exact hil (h.apart i l ip k hne (he.trans hb.symm))
    · have := h.used i l hne
      rw [he, hb] at this
      cases this
  have hbit : ∀ c, s.bit c = true → t.bit c = true := by
    intro c hc
    rw [hm.bit, Function.update_apply]
    split_ifs
    · rfl
    · exact hc
  refine ⟨hbit 0 h.boot, fun i l hne => ?_, fun i l i' l' hne he => ?_, fun c hc => hbit c (h.taken c hc),
    fun i l hne => ?_⟩
  · rw [haddr] at hne ⊢
    split_ifs at hne ⊢
    · rw [hm.bit, Function.update_self]
    · exact hbit _ (h.used i l hne)
  · rw [haddr] at hne
    rw [haddr, haddr] at he
    split_ifs at hne he with h1 h2 h2
    · exact ⟨h1.1.trans h2.1.symm, h1.2.trans h2.2.symm⟩
    · exact absurd he.symm (hother i' l' h2 (he ▸ hne))
    · exact absurd he (hother i l h1 hne)
    · exact h.apart i l i' l' hne he
  · rw [haddr] at hne ⊢
    split_ifs at hne ⊢
    · rcases hm.old with hb | ⟨-, hb⟩
      · rw [← hb]
        exact h.unnamed ip k (hb ▸ hm.ne_zero)
      · intro hR
        rw [h.taken b hR] at hb
        cases hb
    · exact h.unnamed i l hne

/-! ### Writing a block of a file -/

/-- `t` is `s` with the contents `d` in block `k` of inode `ip`, which is block `b`. -/
structure Wrote (ip : ℕ) (k : Fin 13) (d : Data) (s : Fs) (b : ℕ) (t : Fs) : Prop where
  ne_zero : b ≠ 0
  old : s.addr ip k = b ∨ s.addr ip k = 0 ∧ s.bit b = false
  addr : t.addr = Function.update s.addr ip (Function.update (s.addr ip) k b)
  bit : t.bit = Function.update s.bit b true
  block : t.block = Function.update s.block b d
  type : (t.inode ip).type = (s.inode ip).type
  size : (t.inode ip).size = max (s.inode ip).size (512 * (k + 1))
  icache : t.icache = s.icache
  ftable : t.ftable = s.ftable

theorem Wrote.fits {k : Fin 13} (hw : Wrote ip k d s b t) (h : Fits R s) : Fits R t := by
  -- only the contents and the size differ from the mapped disk
  have hm : Mapped ip k s b { t with
      block := Function.update t.block b (s.block b)
      inode := fun i => { t.inode i with size := if i = ip then (s.inode ip).size else (t.inode i).size } } := by
    refine ⟨hw.ne_zero, hw.old, hw.addr, hw.bit, fun c hc => ?_, hw.type, if_pos rfl, hw.icache, hw.ftable⟩
    simp only [Function.update_of_ne hc, hw.block]
  exact (hm.fits h).congr rfl rfl

/-- One round of `writei` fills a whole block. -/
theorem writei_block (h : Fits R s) {bn : ℕ} (hbn : bn < NDIRECT)
    (ht : (s.inode ip).type ≠ .T_DEV) (hsz : 512 * bn ≤ (s.inode ip).size) (src : ℕ → Byte) :
    wp (writei ip src (512 * bn) 512) (fun r t => r = some 512 ∧
      ∃ b, Wrote ip ⟨bn, hbn.trans (by decide)⟩ (fun x => src x) s b t) s := by
  have hbn12 : bn < 12 := hbn
  have hdiv : 512 * bn / BSIZE = bn := Nat.mul_div_cancel_left bn (by decide)
  have hmod : 512 * bn % BSIZE = 0 := Nat.mul_mod_right 512 bn
  have hmax : ¬ MAXFILE * BSIZE < 512 * bn + 512 := by
    rw [show MAXFILE * BSIZE = 71680 by decide]
    omega
  unfold writei
  rw [wp_bind, wp_get, if_neg ht, if_neg (by omega), if_neg hmax, wp_bind]
  unfold writeiLoop
  rw [if_neg (by decide), wp_bind, hdiv]
  refine wp_mono (bmap_direct h hbn) fun b u hm => ?_
  simp only [hmod, show min 512 (BSIZE - 0) = 512 by decide, wp_bind, wp_modify]
  have hloop : ∀ off tot, writeiLoop ip src 511 0 off tot = pure () := by
    intro off tot
    rw [writeiLoop, if_pos rfl]
  rw [Nat.sub_self, hloop, wp_pure, wp_get]
  set u1 := u.setBlock b fun j =>
    if 0 ≤ j.val ∧ j.val < 0 + 512 then src (0 + (j.val - 0)) else u.block b j with hu1
  have hdata : (fun j : Fin 512 => if 0 ≤ j.val ∧ j.val < 0 + 512 then src (0 + (j.val - 0))
      else u.block b j) = fun x : Fin 512 => src x := by
    funext x
    rw [if_pos ⟨Nat.zero_le _, by rw [Nat.zero_add]; exact x.isLt⟩, Nat.zero_add, Nat.sub_zero]
  have hblock : u1.block = Function.update s.block b fun x => src x := by
    funext c
    rw [hu1, Fs.setBlock_block, hdata]
    by_cases hc : c = b
    · rw [hc, Function.update_self, Function.update_self]
    · rw [Function.update_of_ne hc, Function.update_of_ne hc, hm.block c hc]
  have hsize1 : (u1.inode ip).size = (s.inode ip).size := hm.size
  by_cases hgrow : (s.inode ip).size < 512 * bn + 512
  · rw [if_pos ⟨by decide, by rw [hsize1]; exact hgrow⟩]
    simp only [wp_bind, wp_modify, wp_pure]
    refine ⟨by trivial, b, hm.ne_zero, hm.old, ?_, hm.bit, hblock, ?_, ?_, hm.icache, hm.ftable⟩
    · rw [← hm.addr]
      funext i k
      simp only [Fs.addr, Fs.setInode_inode, Function.update_apply]
      split_ifs with hi
      · rw [hi]
        rfl
      · rfl
    · simp only [Fs.setInode_inode, Function.update_self]
      exact hm.type
    · simp only [Fs.setInode_inode, Function.update_self]
      omega
  · rw [if_neg fun hc => hgrow (by rw [← hsize1]; exact hc.2)]
    simp only [wp_pure]
    refine ⟨by trivial, b, hm.ne_zero, hm.old, hm.addr, hm.bit, hblock, hm.type, ?_, hm.icache, hm.ftable⟩
    rw [hsize1]
    simp only
    omega

end Xv6Lab.Files
