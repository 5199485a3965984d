import Xv6Lab.Files.Contents

/-! Freeing a file: `itrunc` and the last `iput` give back the blocks of the file, all of them and
no others, and never meet a block that is already free. -/

namespace Xv6Lab.Files

open Disk Lib

variable {R : Set ℕ} {s t : Fs} {ip b i m : ℕ} {j : Fin NINODE}

/-- The disk without the blocks `bs`, among which 0 stands for none. -/
def Fs.freeAll (s : Fs) (bs : List ℕ) : Fs :=
  { s with bit := fun b => if b ∈ bs ∧ b ≠ 0 then false else s.bit b }

theorem bfreeAddrs_append (l l' : List ℕ) :
    bfreeAddrs (l ++ l') = (do bfreeAddrs l; bfreeAddrs l') := by
  induction l with
  | nil => rfl
  | cons b l ih =>
    rw [List.cons_append, bfreeAddrs, bfreeAddrs, ih]
    by_cases hb : b ≠ 0
    · rw [if_pos hb, if_pos hb, bind_assoc]
    · rw [if_neg hb, if_neg hb]

theorem bfreeAddrs_eq {bs : List ℕ} (hbit : ∀ b ∈ bs, b ≠ 0 → s.bit b = true)
    (hpair : bs.Pairwise fun b c => b ≠ 0 → b ≠ c) : bfreeAddrs bs s = .ok ((), s.freeAll bs) := by
  induction bs generalizing s with
  | nil =>
    have hnil : s.freeAll [] = s := by
      unfold Fs.freeAll
      simp
    rw [hnil]
    rfl
  | cons b bs ih =>
    obtain ⟨hb, hpair⟩ := List.pairwise_cons.1 hpair
    unfold bfreeAddrs
    by_cases h0 : b = 0
    · have hall : s.freeAll (b :: bs) = s.freeAll bs := by
        unfold Fs.freeAll
        congr 1
        funext c
        refine if_congr ?_ rfl rfl
        rw [List.mem_cons]
        constructor
        · rintro ⟨rfl | hc, hne⟩
          · exact absurd h0 hne
          · exact ⟨hc, hne⟩
        · rintro ⟨hc, hne⟩
          exact ⟨.inr hc, hne⟩
      rw [if_neg (not_not.2 h0), hall]
      exact ih (fun c hc => hbit c (List.mem_cons_of_mem _ hc)) hpair
    · have hused := hbit b (List.mem_cons_self ..) h0
      have hfree : bfree b s = .ok ((), s.setBit b false) := bfree_of_used hused
      have hrest := ih (s := s.setBit b false) (fun c hc hc0 => ?_) hpair
      · rw [if_pos h0]
        simp only [bind_apply, hfree, hrest]
        congr 2
        unfold Fs.freeAll Fs.setBit
        congr 1
        funext c
        simp only [List.mem_cons]
        by_cases hc : c = b
        · rw [hc, Function.update_self, if_pos (⟨.inl rfl, h0⟩ : (b = b ∨ b ∈ bs) ∧ b ≠ 0)]
          exact ite_self _
        · rw [Function.update_of_ne hc]
          refine if_congr ?_ rfl rfl
          simp only [hc, false_or]
      · have hne : c ≠ b := (hb c hc h0).symm
        exact (Function.update_of_ne hne _ _).trans (hbit c (List.mem_cons_of_mem _ hc) hc0)

/-- The places of the blocks of a file, in the order in which `itrunc` frees them. -/
def places : List ℕ := List.range 12 ++ (List.range NINDIRECT).map (13 + ·) ++ [12]

theorem mem_places : m ∈ places ↔ m < PTRS := by
  have hPTRS : PTRS = 141 := rfl
  unfold places NINDIRECT
  simp only [List.mem_append, List.mem_range, List.mem_map, List.mem_singleton]
  constructor
  · rintro ((h | ⟨x, hx, rfl⟩) | rfl) <;> omega
  · intro h
    by_cases h12 : m < 12
    · exact .inl (.inl h12)
    · by_cases he : m = 12
      · exact .inr he
      · exact .inl (.inr ⟨m - 13, by omega, by omega⟩)

theorem nodup_places : places.Nodup := by
  unfold places
  refine List.nodup_append.2 ⟨List.nodup_append.2 ⟨List.nodup_range, ?_, ?_⟩,
    List.nodup_singleton _, ?_⟩
  · exact List.Nodup.map (fun _ _ h => Nat.add_left_cancel h) List.nodup_range
  · intro x hx y hy
    rw [List.mem_range] at hx
    obtain ⟨z, -, rfl⟩ := List.mem_map.1 hy
    omega
  · intro x hx y hy
    rw [List.mem_singleton.1 hy]
    obtain hx | hx := List.mem_append.1 hx
    · rw [List.mem_range] at hx
      omega
    · obtain ⟨z, -, rfl⟩ := List.mem_map.1 hx
      omega

/-- The inode `ip` without its blocks. -/
def Fs.emptied (s : Fs) (ip : ℕ) : Fs :=
  (s.freeAll (places.map (s.ptr ip))).setInode ip
    { s.inode ip with size := 0, addrs := fun _ => 0 }

theorem bfreeAddrs_zeros {bs : List ℕ} (h : ∀ b ∈ bs, b = 0) : bfreeAddrs bs = pure () := by
  induction bs with
  | nil => rfl
  | cons b bs ih =>
    rw [bfreeAddrs, if_neg (not_not.2 (h b (List.mem_cons_self ..))),
      ih fun c hc => h c (List.mem_cons_of_mem _ hc)]

theorem bfreeAddrs_singleton (h : b ≠ 0) : bfreeAddrs [b] = bfree b := by
  rw [bfreeAddrs, if_pos h]
  exact bind_pure (bfree b)

/-- `itrunc` frees the blocks in all places, if any. -/
theorem itrunc_places (s : Fs) (ip : ℕ) : itrunc ip s = (do
    bfreeAddrs (places.map (s.ptr ip))
    modify (·.setInode ip { s.inode ip with size := 0, addrs := fun _ => 0 }) : F Unit) s := by
  have hdirect : ((List.range 12).map fun k => (s.inode ip).addrs (Fin.ofNat 13 k)) =
      (List.range 12).map (s.ptr ip) := by
    refine List.map_congr_left fun k hk => ?_
    have hk13 : k < 13 := (List.mem_range.1 hk).trans (by decide)
    rw [ptr_direct s ip hk13]
    exact congrArg (s.inode ip).addrs (Fin.ext (Nat.mod_eq_of_lt hk13))
  have h12 := ptr_indirect s ip
  unfold itrunc places
  rw [List.map_append, List.map_append, bfreeAddrs_append, bfreeAddrs_append, List.map_map,
    List.map_singleton, bind_apply, get_apply]
  simp only
  rw [hdirect]
  by_cases ha : s.addr ip 12 = 0
  · have hwords : bfreeAddrs ((List.range NINDIRECT).map (s.ptr ip ∘ (13 + ·))) = pure () := by
      refine bfreeAddrs_zeros fun c hc => ?_
      obtain ⟨k, -, rfl⟩ := List.mem_map.1 hc
      exact ptr_none (Nat.le_add_right 13 k) ha
    have hself : bfreeAddrs [s.ptr ip 12] = pure () := by
      refine bfreeAddrs_zeros fun c hc => ?_
      rw [List.mem_singleton.1 hc, h12, ha]
    have hnone : ¬ (s.inode ip).addrs 12 ≠ 0 := not_not.2 ha
    rw [if_neg hnone, hwords, hself]
    simp only [bind_assoc, pure_bind]
  · have hwords : (List.range NINDIRECT).map (s.block ((s.inode ip).addrs 12)).word =
        (List.range NINDIRECT).map (s.ptr ip ∘ (13 + ·)) := by
      refine List.map_congr_left fun k _ => ?_
      change _ = s.ptr ip (13 + k)
      rw [ptr_word (by omega) ha, Nat.add_sub_cancel_left]
      rfl
    have hself : bfreeAddrs [s.ptr ip 12] = bfree ((s.inode ip).addrs 12) := by
      rw [h12]
      exact bfreeAddrs_singleton ha
    have hsome : (s.inode ip).addrs 12 ≠ 0 := ha
    rw [if_pos hsome, hwords, hself]
    simp only [bind_assoc]

theorem itrunc_eq (ho : Owned R s) (ip : ℕ) : itrunc ip s = .ok ((), s.emptied ip) := by
  have hfree : bfreeAddrs (places.map (s.ptr ip)) s =
      .ok ((), s.freeAll (places.map (s.ptr ip))) := by
    refine bfreeAddrs_eq (fun b hb hne => ?_) (List.pairwise_map.2 ?_)
    · obtain ⟨m, hm, rfl⟩ := List.mem_map.1 hb
      exact ho.bit (mem_places.1 hm) hne
    · refine List.Pairwise.imp_of_mem (fun {x y} hx hy hxy hne he => ?_) nodup_places
      exact hxy (ho.apart ip x ip y (mem_places.1 hx) (mem_places.1 hy) hne he).2
  rw [itrunc_places, bind_apply, hfree]
  rfl

/-! ### The file system after it -/

theorem emptied_ptr_self (s : Fs) (ip m : ℕ) : (s.emptied ip).ptr ip m = 0 := by
  have haddr : ∀ k, (s.emptied ip).addr ip k = 0 := by
    intro k
    change (Function.update s.inode ip _ ip).addrs k = 0
    rw [Function.update_self]
  by_cases hm : m < 13
  · rw [ptr_direct _ _ hm, haddr]
  · exact ptr_none (by omega) (haddr 12)

theorem emptied_ptr_of_ne (h : i ≠ ip) (m : ℕ) : (s.emptied ip).ptr i m = s.ptr i m := by
  have haddr : (s.emptied ip).addr i = s.addr i := by
    funext k
    change (Function.update s.inode ip _ i).addrs k = (s.inode i).addrs k
    rw [Function.update_of_ne h]
  exact ptr_congr haddr (fun _ => rfl) m

theorem emptied_inode_self (s : Fs) (ip : ℕ) :
    (s.emptied ip).inode ip = { s.inode ip with size := 0, addrs := fun _ => 0 } :=
  Function.update_self ..

theorem emptied_inode_of_ne (h : i ≠ ip) : (s.emptied ip).inode i = s.inode i :=
  Function.update_of_ne h ..

theorem emptied_bit (s : Fs) (ip b : ℕ) : (s.emptied ip).bit b = true ↔
    s.bit b = true ∧ ∀ m < PTRS, s.ptr ip m = b → b = 0 := by
  change (if b ∈ places.map (s.ptr ip) ∧ b ≠ 0 then false else s.bit b) = true ↔ _
  by_cases hb : b ∈ places.map (s.ptr ip) ∧ b ≠ 0
  · rw [if_pos hb]
    obtain ⟨m, hm, he⟩ := List.mem_map.1 hb.1
    refine iff_of_false (by simp) fun h => ?_
    exact hb.2 (h.2 m (mem_places.1 hm) he)
  · rw [if_neg hb]
    refine ⟨fun h => ⟨h, fun m hm he => ?_⟩, And.left⟩
    by_contra hne
    exact hb ⟨List.mem_map.2 ⟨m, mem_places.2 hm, he⟩, hne⟩

theorem emptied_owned (ho : Owned R s) (ip : ℕ) : Owned R (s.emptied ip) where
  boot := ho.boot
  size := ho.size
  used b := by
    rw [emptied_bit, ho.used b]
    constructor
    · rintro ⟨hR | ⟨i, m, hm, rfl, hne⟩, hall⟩
      · exact .inl hR
      · have hi : i ≠ ip := by
          rintro rfl
          exact hne (hall m hm rfl)
        exact .inr ⟨i, m, hm, emptied_ptr_of_ne hi m, hne⟩
    · rintro (hR | ⟨i, m, hm, he, hne⟩)
      · refine ⟨.inl hR, fun m hm he => ?_⟩
        by_contra hb
        exact ho.unnamed ip m hm (he.trans_ne hb) (he ▸ hR)
      · have hi : i ≠ ip := by
          rintro rfl
          rw [emptied_ptr_self] at he
          exact hne he.symm
        rw [emptied_ptr_of_ne hi] at he
        refine ⟨.inr ⟨i, m, hm, he, hne⟩, fun k hk hke => absurd ?_ hi⟩
        exact (ho.apart i m ip k hm hk (he.trans_ne hne) (he.trans hke.symm)).1
  apart i m j k hm hk hne he := by
    have hi : i ≠ ip := by
      rintro rfl
      exact hne (emptied_ptr_self s i m)
    rw [emptied_ptr_of_ne hi] at hne he
    have hj : j ≠ ip := by
      rintro rfl
      rw [emptied_ptr_self] at he
      exact hne he
    rw [emptied_ptr_of_ne hj] at he
    exact ho.apart i m j k hm hk hne he
  unnamed i m hm hne := by
    have hi : i ≠ ip := by
      rintro rfl
      exact hne (emptied_ptr_self s i m)
    rw [emptied_ptr_of_ne hi] at hne ⊢
    exact ho.unnamed i m hm hne

theorem emptied_bytes_of_ne (h : i ≠ ip) : (s.emptied ip).bytes i = s.bytes i := by
  unfold Fs.bytes Fs.byteAt
  rw [emptied_inode_of_ne h]
  simp only [emptied_ptr_of_ne h]
  rfl

theorem emptied_rewrites (h : Good R s) (ip : ℕ) : Rewrites R ip [] s (s.emptied ip) where
  good := by
    refine ⟨emptied_owned h.owned ip, fun i k hk => ?_, fun i => ?_, fun i => ?_, fun i hi => ?_⟩ <;>
      by_cases hip : i = ip
    · rw [hip, emptied_inode_self] at hk
      exact absurd hk (Nat.not_lt_zero k)
    · rw [emptied_inode_of_ne hip] at hk
      rw [emptied_ptr_of_ne hip]
      exact h.covered i k hk
    · rw [hip, emptied_inode_self]
      exact Nat.zero_le _
    · rw [emptied_inode_of_ne hip]
      exact h.small i
    · rw [hip, emptied_inode_self]
      exact h.plain ip
    · rw [emptied_inode_of_ne hip]
      exact h.plain i
    · rw [hip, emptied_inode_self]
      exact ⟨rfl, fun m _ => emptied_ptr_self s ip m⟩
    · rw [emptied_inode_of_ne hip] at hi ⊢
      simp only [emptied_ptr_of_ne hip]
      exact h.free i hi
  self := by
    unfold Fs.bytes
    rw [emptied_inode_self]
    rfl
  others i hi := emptied_bytes_of_ne hi
  reserved _ _ := rfl
  stat i := by
    by_cases hip : i = ip
    · rw [hip, emptied_inode_self]
      exact ⟨rfl, rfl⟩
    · rw [emptied_inode_of_ne hip]
      exact ⟨rfl, rfl⟩
  entries := rfl
  icache := rfl
  ftable := rfl

end Xv6Lab.Files
