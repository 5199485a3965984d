import Xv6Lab.Files.Open

/-! What `write_page_to_disk` leaves in the eight blocks of the page and in the swap
file. The blocks hold the page. The file is written from the address of the buffer
and not of its data, so that each part of it starts with the buffer's header. -/

namespace Xv6Lab.Files

open Disk Lib

variable {R : Set ℕ} {s t : Fs} {E : Env} {cache : Fin 8 → BufHeader} {pg : Fin 8 → Data}
  {blk inum : ℕ} {f : Fin NFILE}

/-- Part `i` of a page is the `i`th block of the file. -/
def slot (i : Fin 8) : Fin 13 := ⟨i.val, i.isLt.trans (by decide)⟩

/-- The 512 bytes that start at a buffer. -/
def raw (h : BufHeader) (d : Data) : Data := fun x => bufByte h d x

/-! ### Writing -/

/-- The file `f` is open for writing on the regular inode `inum`. -/
structure Writes (f : Fin NFILE) (inum : ℕ) (s : Fs) : Prop where
  type : (s.ftable f).type = .FD_INODE
  writable : (s.ftable f).writable ≠ 0
  names : (s.icache (s.ftable f).ip).inum = inum
  regular : (s.inode inum).type = .T_FILE

theorem filewrite_block (h : Fits R s) (hf : Writes f inum s) {n : ℕ} (hn : n < NDIRECT)
    (hoff : (s.ftable f).off = n * BSIZE) (hsz : 512 * n ≤ (s.inode inum).size)
    (src : ℕ → Byte) : wp (filewrite f src 512) (fun _ t =>
      ∃ b u, Wrote inum ⟨n, hn.trans (by decide)⟩ (fun x => src x) s b u ∧
        t = u.setFile f { s.ftable f with off := (s.ftable f).off + 512 }) s := by
  have hdev : (s.inode inum).type ≠ .T_DEV := by
    rw [hf.regular]
    decide
  unfold filewrite
  rw [wp_bind, wp_get, if_neg hf.writable, hf.type]
  simp only
  unfold filewriteLoop
  rw [if_pos (by decide), wp_bind, wp_get]
  simp only [hf.names, hoff, Nat.sub_zero, show min 512 1536 = 512 by decide, Nat.zero_add]
  rw [wp_bind, mul_comm n, BSIZE]
  refine wp_mono (writei_block h hn hdev hsz src) ?_
  rintro _ u ⟨rfl, b, hw⟩
  simp only [wp_bind, wp_modify, ne_eq, not_true_eq_false, if_false]
  unfold filewriteLoop
  rw [if_neg (by decide), wp_pure]
  refine ⟨b, u, hw, ?_⟩
  rw [hw.ftable]

/-- After `k` parts: the blocks of the page hold them, and the file holds the bytes
from the start of each buffer on. -/
structure Recorded (R : Set ℕ) (cache : Fin 8 → BufHeader) (pg : Fin 8 → Data) (blk inum : ℕ)
    (f : Fin NFILE) (k : ℕ) (t : Fs) : Prop where
  fits : Fits R t
  writes : Writes f inum t
  size : 512 * k ≤ (t.inode inum).size
  blocks : ∀ i : Fin 8, i < k → t.block (blk + i) = pg i
  mapped : ∀ i : Fin 8, i < k → t.addr inum (slot i) ≠ 0
  data : ∀ i : Fin 8, i < k → t.block (t.addr inum (slot i)) = raw (bget cache blk i) (pg i)

theorem Wrote.addr_self {k : Fin 13} {d : Data} {b : ℕ} (hw : Wrote inum k d s b t) :
    t.addr inum k = b := by
  rw [hw.addr, Function.update_self, Function.update_self]

theorem Wrote.addr_ne {k l : Fin 13} {d : Data} {b : ℕ} (hw : Wrote inum k d s b t) (hl : l ≠ k) :
    t.addr inum l = s.addr inum l := by
  rw [hw.addr, Function.update_self, Function.update_of_ne hl]

/-- The block that is written is none of the blocks `R` and of the other blocks of
the file. -/
theorem Wrote.block_ne {k : Fin 13} {d : Data} {b c : ℕ} (hw : Wrote inum k d s b t)
    (h : Fits R s) (hc : c ∈ R ∨ ∃ l, l ≠ k ∧ s.addr inum l ≠ 0 ∧ s.addr inum l = c) : c ≠ b := by
  rintro rfl
  rcases hc with hR | ⟨l, hl, hne, he⟩
  · rcases hw.old with hb | ⟨-, hb⟩
    · exact h.unnamed inum k (by rw [hb]; exact hw.ne_zero) (hb ▸ hR)
    · rw [h.taken c hR] at hb
      cases hb
  · rcases hw.old with hb | ⟨-, hb⟩
    · exact hl (h.apart inum l inum k hne (he.trans hb.symm)).2
    · rw [← he, h.used inum l hne] at hb
      cases hb

theorem slot_ne {i k : Fin 8} (h : i < k) : slot i ≠ slot k := by
  intro e
  have : (slot i).val = (slot k).val := congrArg Fin.val e
  simp only [slot] at this
  omega

/-- One round of the loop. -/
theorem Recorded.step (k : Fin 8) (hR : ∀ i : Fin 8, blk + i ∈ R)
    (h : Recorded R cache pg blk inum f k t) :
    wp (do
      modify fun s => s.setFile f { s.ftable f with off := k * BSIZE }
      modify (·.setBlock (blk + k) (pg k))
      let _ ← filewrite f (bufByte (bget cache blk k) (pg k)) 512)
      (fun _ u => Recorded R cache pg blk inum f (k + 1) u) t := by
  set t1 := (t.setFile f { t.ftable f with off := k * BSIZE }).setBlock (blk + k) (pg k) with ht1
  have hfit : Fits R t1 := h.fits.congr rfl rfl
  have hfile : t1.ftable f = { t.ftable f with off := k * BSIZE } := Function.update_self ..
  have hwr : Writes f inum t1 := by
    refine ⟨?_, ?_, ?_, h.writes.regular⟩
    · rw [hfile]; exact h.writes.type
    · rw [hfile]; exact h.writes.writable
    · rw [hfile]; exact h.writes.names
  simp only [wp_bind, wp_modify]
  refine wp_mono (filewrite_block hfit hwr (n := k) (k.isLt.trans (by decide)) (by rw [hfile])
    h.size _) ?_
  rintro - u ⟨b, v, hw, rfl⟩
  rw [wp_pure]
  have hsize := hw.size
  have hslot : (⟨k, k.isLt.trans (by decide)⟩ : Fin 13) = slot k := rfl
  rw [hslot] at hw
  have hvblock : ∀ c, c ≠ b → c ≠ blk + k → v.block c = t.block c := by
    intro c hb hk
    rw [hw.block, Function.update_of_ne hb, ht1, Fs.setBlock_block, Function.update_of_ne hk]
    rfl
  have hold : ∀ i : Fin 8, i < k → t.addr inum (slot i) ≠ blk + k ∧ t.addr inum (slot i) ≠ b := by
    intro i hi
    have hne := h.mapped i hi
    refine ⟨fun e => h.fits.unnamed inum (slot i) hne (e ▸ hR k), ?_⟩
    exact hw.block_ne hfit (.inr ⟨slot i, slot_ne hi, hne, rfl⟩)
  refine ⟨(hw.fits hfit).congr rfl rfl, ?_, ?_, fun i hi => ?_, fun i hi => ?_, fun i hi => ?_⟩
  · have hself : (v.setFile f { t1.ftable f with off := (t1.ftable f).off + 512 }).ftable f =
        { t1.ftable f with off := (t1.ftable f).off + 512 } := Function.update_self ..
    refine ⟨?_, ?_, ?_, hw.type.trans h.writes.regular⟩
    · rw [hself]; exact hwr.type
    · rw [hself]; exact hwr.writable
    · rw [hself]
      show (v.icache (t1.ftable f).ip).inum = inum
      rw [hw.icache]
      exact hwr.names
  · have hle : 512 * (k.val + 1) ≤ (v.inode inum).size := by
      rw [hsize]
      exact le_max_right _ _
    exact hle
  · show v.block (blk + i) = pg i
    rcases (Nat.lt_succ_iff.1 hi).lt_or_eq with hlt | he
    · have hne : blk + i.val ≠ blk + k.val := by omega
      rw [hvblock _ (hw.block_ne hfit (.inl (hR i))) hne]
      exact h.blocks i hlt
    · have hik : i = k := Fin.ext he
      rw [hik, hw.block, Function.update_of_ne (hw.block_ne hfit (.inl (hR k))), ht1,
        Fs.setBlock_block, Function.update_self]
  · show v.addr inum (slot i) ≠ 0
    rcases (Nat.lt_succ_iff.1 hi).lt_or_eq with hlt | he
    · rw [hw.addr_ne (slot_ne hlt)]
      exact h.mapped i hlt
    · have hik : i = k := Fin.ext he
      rw [hik, hw.addr_self]
      exact hw.ne_zero
  · show v.block (v.addr inum (slot i)) = raw (bget cache blk i) (pg i)
    rcases (Nat.lt_succ_iff.1 hi).lt_or_eq with hlt | he
    · rw [hw.addr_ne (slot_ne hlt)]
      show v.block (t.addr inum (slot i)) = _
      rw [hvblock _ (hold i hlt).2 (hold i hlt).1]
      exact h.data i hlt
    · have hik : i = k := Fin.ext he
      rw [hik, hw.addr_self, hw.block, Function.update_self]
      rfl

theorem drop_finRange {n k : ℕ} (h : k < n) :
    (List.finRange n).drop k = ⟨k, h⟩ :: (List.finRange n).drop (k + 1) := by
  rw [List.drop_eq_getElem_cons (by rwa [List.length_finRange])]
  simp

/-- The whole loop, `k` parts being done. -/
theorem writeParts_records (hR : ∀ i : Fin 8, blk + i ∈ R) (n : ℕ) {k : ℕ} (hk : k + n = 8)
    (h : Recorded R cache pg blk inum f k t) :
    wp (writeParts cache f pg blk ((List.finRange 8).drop k))
      (fun _ u => Recorded R cache pg blk inum f 8 u) t := by
  induction n generalizing k t with
  | zero =>
    have hk8 : k = 8 := by omega
    rw [hk8, List.drop_of_length_le (by rw [List.length_finRange]), writeParts, wp_pure]
    exact hk8 ▸ h
  | succ n ih =>
    have hlt8 : k < 8 := by omega
    rw [drop_finRange hlt8, writeParts]
    have hstep := Recorded.step ⟨k, hlt8⟩ hR h
    simp only [wp_bind, wp_modify, wp_pure] at hstep ⊢
    exact wp_mono hstep fun _ u hu => ih (k := k + 1) (by omega) hu

/-! ### Reading back -/

def Data.bytes (d : Data) : List Byte := (List.range 512).map fun k => d (Fin.ofNat 512 k)

/-- The 4096 bytes of a page in order. -/
def pageBytes (pg : Fin 8 → Data) : List Byte := (List.finRange 8).flatMap fun i => (pg i).bytes

theorem Data.bytes_inj {d d' : Data} (h : d.bytes = d'.bytes) : d = d' := by
  unfold Data.bytes at h
  rw [List.map_inj_left] at h
  funext k
  have hk := h k.val (List.mem_range.2 k.isLt)
  rwa [Fin.ofNat_val_eq_self] at hk

theorem flatMap_bytes_inj {a b : Fin 8 → Data} {l : List (Fin 8)}
    (h : (l.flatMap fun i => (a i).bytes) = l.flatMap fun i => (b i).bytes) :
    ∀ i ∈ l, a i = b i := by
  induction l with
  | nil =>
    intro i hi
    cases hi
  | cons i l ih =>
    rw [List.flatMap_cons, List.flatMap_cons] at h
    have hlen : (a i).bytes.length = (b i).bytes.length := by simp [Data.bytes]
    obtain ⟨hi, hl⟩ := List.append_inj h hlen
    intro j hj
    rcases List.mem_cons.1 hj with rfl | hj
    · exact Data.bytes_inj hi
    · exact ih hl j hj

theorem pageBytes_inj {a b : Fin 8 → Data} : pageBytes a = pageBytes b ↔ a = b := by
  constructor
  · intro h
    funext i
    exact flatMap_bytes_inj h i (List.mem_finRange i)
  · rintro rfl
    rfl

theorem bmap_mapped {n : ℕ} (hn : n < NDIRECT) (h : t.addr inum ⟨n, hn.trans (by decide)⟩ ≠ 0) :
    bmap inum n t = .ok (t.addr inum ⟨n, hn.trans (by decide)⟩, t) := by
  unfold bmap
  rw [dif_pos hn, bind_apply, get_apply]
  simp only [if_neg h, pure_apply]

theorem readiLoop_mapped (ha : ∀ i : Fin 8, t.addr inum (slot i) ≠ 0) (n : ℕ) {k m : ℕ}
    (hk : k + n = 8) (hm : n ≤ m) : readiLoop inum m (512 * n) (512 * k) t =
      .ok (((List.finRange 8).drop k).flatMap fun i => (t.block (t.addr inum (slot i))).bytes, t) := by
  induction n generalizing k m with
  | zero =>
    have hnil : (List.finRange 8).drop k = [] := List.drop_of_length_le (by rw [List.length_finRange]; omega)
    rw [hnil]
    cases m with
    | zero => rfl
    | succ m => rfl
  | succ n ih =>
    obtain ⟨m, rfl⟩ : ∃ l, m = l + 1 := ⟨m - 1, by omega⟩
    have hlt8 : k < 8 := by omega
    have hdiv : 512 * k / BSIZE = k := Nat.mul_div_cancel_left k (by decide)
    have hmod : 512 * k % BSIZE = 0 := Nat.mul_mod_right 512 k
    have hmin : min (512 * (n + 1)) (BSIZE - 0) = 512 := by
      rw [BSIZE]
      omega
    have hmap := bmap_mapped (n := k) (hlt8.trans (by decide)) (ha ⟨k, hlt8⟩)
    have hrest := ih (k := k + 1) (m := m) (by omega) (by omega)
    unfold readiLoop
    rw [if_neg (by omega), bind_apply, hdiv, hmap]
    simp only [bind_apply, get_apply, hmod, hmin, show 512 * (n + 1) - 512 = 512 * n by omega,
      show 512 * k + 512 = 512 * (k + 1) by omega, hrest, pure_apply]
    rw [drop_finRange hlt8, List.flatMap_cons]
    simp only [Nat.zero_add]
    rfl

/-- The file reads back as what stands at the eight buffers. -/
theorem Recorded.readi (h : Recorded R cache pg blk inum f 8 t) : readi inum 0 4096 t =
    .ok (some (pageBytes fun i => raw (bget cache blk i) (pg i)), t) := by
  have hsz := h.size
  have hdev : (t.inode inum).type ≠ .T_DEV := by
    rw [h.writes.regular]
    decide
  have hloop := readiLoop_mapped (fun i => h.mapped i i.isLt) 8 (k := 0) (m := 4096) rfl (by decide)
  have hdata : ∀ i : Fin 8, t.block (t.addr inum (slot i)) = raw (bget cache blk i) (pg i) :=
    fun i => h.data i i.isLt
  simp only [hdata] at hloop
  unfold Files.readi
  rw [bind_apply, get_apply]
  simp only [if_neg hdev, if_neg (show ¬ ((t.inode inum).size < 0 ∨ 2 ^ 32 ≤ 0 + 4096) by omega),
    if_neg (show ¬ (t.inode inum).size < 0 + 4096 by omega)]
  rw [bind_apply, hloop]
  rfl

/-! ### When the file is the page -/

/-- The header of the buffer, over and over. -/
def Repeats (h : BufHeader) (d : Data) : Prop := ∀ k : Fin 512, d k = h.byte (k % DATAOFF)

/-- The bytes from the buffer's address on are its data only if the data repeats the
header: byte `k` of the data is found `DATAOFF` bytes later. -/
theorem raw_eq_iff {h : BufHeader} {d : Data} : raw h d = d ↔ Repeats h d := by
  constructor
  · intro hd k
    obtain ⟨n, hn⟩ := k
    induction n using Nat.strongRecOn with
    | ind n ih =>
      have hn' := congrFun hd ⟨n, hn⟩
      simp only [raw, bufByte] at hn'
      by_cases hlt : n < DATAOFF
      · rw [if_pos hlt] at hn'
        rw [← hn', Nat.mod_eq_of_lt hlt]
      · have hge : DATAOFF ≤ n := not_lt.1 hlt
        have hsub : n - DATAOFF < 512 := by omega
        have hpos : 0 < n := Nat.lt_of_lt_of_le (by decide) hge
        have hprev := ih (n - DATAOFF) (Nat.sub_lt hpos (by decide)) hsub
        rw [if_neg hlt, show Fin.ofNat 512 (n - DATAOFF) = ⟨n - DATAOFF, hsub⟩ from
          Fin.ext (Nat.mod_eq_of_lt hsub)] at hn'
        rw [← hn', hprev]
        simp only
        rw [← Nat.mod_eq_sub_mod hge]
  · intro hd
    funext k
    simp only [raw, bufByte]
    split_ifs with hlt
    · rw [hd k, Nat.mod_eq_of_lt hlt]
    · have hge : DATAOFF ≤ k.val := not_lt.1 hlt
      have hk := k.isLt
      have hsub : k.val - DATAOFF < 512 := by omega
      rw [hd k, hd, Nat.mod_eq_sub_mod hge]
      simp only [Fin.val_ofNat, Nat.mod_eq_of_lt hsub]

/-- The blocks of a swapped page. -/
def group (blk : ℕ) : Set ℕ := {b | ∃ i : Fin 8, b = blk + i}

theorem writePageToDisk_records (h : Fits (group blk) s) (hcwd : 0 < (s.icache s.cwd).ref)
    (pid x : ℕ) : wp (writePageToDisk E cache pg blk pid x) (fun f t =>
      Recorded (group blk) cache pg blk (t.icache (t.ftable f).ip).inum f 8 t) s := by
  unfold writePageToDisk
  rw [wp_bind]
  refine wp_mono (createSwapFile_spec h hcwd pid x) fun f t hf => ?_
  have h0 : Recorded (group blk) cache pg blk (t.icache (t.ftable f).ip).inum f 0 t :=
    ⟨hf.fits, ⟨hf.file.1, hf.file.2, rfl, hf.type⟩, Nat.zero_le _, fun i hi => absurd hi (Nat.not_lt_zero i),
      fun i hi => absurd hi (Nat.not_lt_zero i), fun i hi => absurd hi (Nat.not_lt_zero i)⟩
  rw [wp_bind]
  have hgroup : ∀ i : Fin 8, blk + i ∈ group blk := fun i => ⟨i, rfl⟩
  refine wp_mono (writeParts_records hgroup 8 (k := 0) rfl h0) fun _ u hu => ?_
  rw [wp_pure, hu.writes.names]
  exact hu

/-- The eight blocks record the page. The swap file does so exactly for a page each
part of which is the header of its buffer over and over. -/
theorem swap_file_records_iff (E : Env) (cache : Fin 8 → BufHeader) (pg : Fin 8 → Data)
    (blk pid x : ℕ) (s : Fs) (h : Fits (group blk) s) (hcwd : 0 < (s.icache s.cwd).ref) :
    wp (writePageToDisk E cache pg blk pid x) (fun f t => (∀ i : Fin 8, t.block (blk + i) = pg i) ∧
      (readi (t.icache (t.ftable f).ip).inum 0 4096 t = .ok (some (pageBytes pg), t) ↔
        ∀ i, Repeats (bget cache blk i) (pg i))) s := by
  refine wp_mono (writePageToDisk_records h hcwd pid x) fun f t hr => ?_
  refine ⟨fun i => hr.blocks i i.isLt, ?_⟩
  rw [hr.readi]
  constructor
  · intro he i
    have hbytes : pageBytes (fun i => raw (bget cache blk i) (pg i)) = pageBytes pg := by
      simpa using he
    exact raw_eq_iff.1 (congrFun (pageBytes_inj.1 hbytes) i)
  · intro hrep
    have hpage : (fun i => raw (bget cache blk i) (pg i)) = pg := by
      funext i
      exact raw_eq_iff.2 (hrep i)
    rw [hpage]

/-! ### A small disk -/

instance : NeZero NINODE := ⟨by decide⟩

/-- A disk of 200 blocks: 64 to 71 are taken for a page, and the blocks from 100 on are
free. The only inode in use is the root directory. -/
def demo : Fs where
  size := 200
  ninodes := 10
  bit b := b < 100
  block _ := fun _ => 0#8
  inode i := ⟨if i = 1 then .T_DIR else .free, 1, 0, fun _ => 0⟩
  entries _ := []
  icache j := if j = 0 then ⟨1, 1, true⟩ else ⟨0, 0, false⟩
  ftable _ := ⟨.FD_NONE, 0, 0, 0, 0, 0⟩
  cwd := 0

def demoEnv : Env := ⟨fun _ => false⟩

def demoCache (_ : Fin 8) : BufHeader :=
  ⟨0#32, 0#32, 0#32, ⟨0#32, ⟨0#32, 0#32, 0#32, fun _ => 0#32⟩, 0#32, 0#32⟩, 1#32, 0#32, 0#32, 0#32⟩

theorem demo_fits : Fits (group 64) demo where
  boot := by decide
  used i k h := absurd rfl h
  apart i k i' k' h := absurd rfl h
  taken := by
    rintro b ⟨i, rfl⟩
    simp only [demo, decide_eq_true_eq]
    omega
  unnamed i k h := absurd rfl h

theorem demo_writes (pg : Fin 8 → Data)
    (h : (match writePageToDisk demoEnv demoCache pg 64 1 5 demo with
      | .ok _ => true
      | .error _ => false) = true) :
    ∃ f t, writePageToDisk demoEnv demoCache pg 64 1 5 demo = .ok (f, t) := by
  cases hr : writePageToDisk demoEnv demoCache pg 64 1 5 demo with
  | error e =>
    rw [hr] at h
    cases h
  | ok r => exact ⟨r.1, r.2, rfl⟩

/-- The swap file of a page that happens to repeat the headers records it. -/
theorem swap_file_records_headers : ∃ f t,
    writePageToDisk demoEnv demoCache (fun i k => (bget demoCache 64 i).byte (k % DATAOFF)) 64 1 5 demo =
      .ok (f, t) ∧
    readi (t.icache (t.ftable f).ip).inum 0 4096 t =
      .ok (some (pageBytes fun i k => (bget demoCache 64 i).byte (k % DATAOFF)), t) := by
  obtain ⟨f, t, hr⟩ := demo_writes (fun i k => (bget demoCache 64 i).byte (k % DATAOFF))
    (by decide +kernel)
  refine ⟨f, t, hr, ?_⟩
  apply (swap_file_records_iff demoEnv demoCache _ 64 1 5 demo demo_fits (by decide) f t hr).2.2
  exact fun _ _ => rfl

/-- The swap file of a page of zeros holds the device number of its buffers. -/
theorem swap_file_misses_zeros : ∃ f t,
    writePageToDisk demoEnv demoCache (fun _ _ => 0#8) 64 1 5 demo = .ok (f, t) ∧
    readi (t.icache (t.ftable f).ip).inum 0 4096 t ≠ .ok (some (pageBytes fun _ _ => 0#8), t) := by
  obtain ⟨f, t, hr⟩ := demo_writes (fun _ _ => 0#8) (by decide +kernel)
  refine ⟨f, t, hr, fun he => ?_⟩
  have hrec := writePageToDisk_records demo_fits (by decide) 1 5 f t hr
  rw [hrec.readi] at he
  have hraw : raw (bget demoCache 64 0) (fun _ => 0#8) = fun _ => 0#8 :=
    congrFun (pageBytes_inj.1 (by simpa using he)) 0
  have hdev : raw (bget demoCache 64 0) (fun _ => 0#8) 4 = 1#8 := by decide
  rw [hraw] at hdev
  exact absurd hdev (by decide)

end Xv6Lab.Files
