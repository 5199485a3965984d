import Xv6Lab.Files.Replay

/-! Open files. `filewrite` goes to the file in rounds, and all of them together overwrite one
stretch of the contents; `fileread` through another open file gives it back. -/

namespace Xv6Lab.Files

open Disk Lib

variable {R : Set ℕ} {s t u : Fs} {f g : Fin NFILE} {ip i k m n off : ℕ} {l bytes : List Byte}

/-- Read `n` bytes from the file `f`; `none` is the result -1. -/
def fileread (f : Fin NFILE) (n : ℕ) : F (Option (List Byte)) := do
  let s ← get
  let file := s.ftable f
  if file.readable = 0 then pure none
  else match file.type with
    | .FD_PIPE => throw "piperead"
    | .FD_INODE => do
      ilock file.ip
      match ← readi (s.icache file.ip).inum file.off n with
      | none => pure none
      | some r => do
        if 0 < r.length then modify fun s => s.setFile f { file with off := file.off + r.length }
        pure (some r)
    | .FD_NONE => throw "fileread"

/-! ### What `filewrite` does to the contents -/

/-- The bytes that are written of `n` from `off` on: all of them, or only the full rounds before the
one that does not fit. -/
def fitting (off n : ℕ) : ℕ :=
  if off + n ≤ MAXFILE * BSIZE then n else (MAXFILE * BSIZE - off) / 1536 * 1536

theorem fitting_none (h : MAXFILE * BSIZE < off + min n 1536) : fitting off n = 0 := by
  unfold fitting MAXFILE NDIRECT NINDIRECT BSIZE at *
  rw [if_neg (by omega)]
  omega

theorem fitting_round (h : off + min n 1536 ≤ MAXFILE * BSIZE) :
    fitting off n = min n 1536 + fitting (off + min n 1536) (n - min n 1536) := by
  unfold fitting MAXFILE NDIRECT NINDIRECT BSIZE at *
  by_cases hall : off + n ≤ 71680
  · rw [if_pos hall, if_pos (by omega)]
    omega
  · rw [if_neg hall, if_neg (by omega)]
    omega

/-- `filewrite` as it is on sequences of bytes: the result, the contents and the offset. -/
def listFilewrite (l bytes : List Byte) (off : ℕ) : Option ℕ × List Byte × ℕ :=
  if bytes = [] then (some 0, l, off)
  else if l.length < off then (none, l, off)
  else
    let k := fitting off bytes.length
    (if off + bytes.length ≤ MAXFILE * BSIZE then some bytes.length else none,
      splice l off (bytes.take k), off + k)

/-- The file `ip` has the contents `l` and the open file `f` the offset `m` now, and everything else
is as it was. -/
structure Streams (R : Set ℕ) (f : Fin NFILE) (ip : ℕ) (l : List Byte) (m : ℕ) (s t : Fs) :
    Prop where
  good : Good R t
  self : t.bytes ip = l
  others : ∀ i ≠ ip, t.bytes i = s.bytes i
  reserved : ∀ b ∈ R, t.block b = s.block b
  stat : ∀ i, (t.inode i).type = (s.inode i).type ∧ (t.inode i).nlink = (s.inode i).nlink
  entries : t.entries = s.entries
  icache : t.icache = s.icache
  ftable : t.ftable = Function.update s.ftable f { s.ftable f with off := m }

theorem Streams.trans {l' : List Byte} (h : Streams R f ip l m s t)
    (h' : Streams R f ip l' k t u) : Streams R f ip l' k s u where
  good := h'.good
  self := h'.self
  others i hi := (h'.others i hi).trans (h.others i hi)
  reserved b hb := (h'.reserved b hb).trans (h.reserved b hb)
  stat i := ⟨(h'.stat i).1.trans (h.stat i).1, (h'.stat i).2.trans (h.stat i).2⟩
  entries := h'.entries.trans h.entries
  icache := h'.icache.trans h.icache
  ftable := by
    rw [h'.ftable, h.ftable, Function.update_idem, Function.update_self]

/-- The offset of an open file is set. -/
theorem setFile_restats (s : Fs) (f : Fin NFILE) (x : File) : Restats s (s.setFile f x) :=
  ⟨rfl, rfl, rfl, fun _ => ⟨rfl, rfl⟩⟩

theorem setFile_good (hs : Good R s) (f : Fin NFILE) (x : File) : Good R (s.setFile f x) :=
  (setFile_restats s f x).good hs hs.plain hs.free

theorem Rewrites.streams (h : Rewrites R ip l s t) (f : Fin NFILE) (m : ℕ) :
    Streams R f ip l m s (t.setFile f { t.ftable f with off := m }) where
  good := setFile_good h.good f _
  self := ((setFile_restats t f _).bytes ip).trans h.self
  others i hi := ((setFile_restats t f _).bytes i).trans (h.others i hi)
  reserved := h.reserved
  stat := h.stat
  entries := h.entries
  icache := h.icache
  ftable := by
    change Function.update t.ftable f _ = _
    rw [h.ftable]

/-- Nothing is written. -/
theorem Rewrites.streams_self (h : Rewrites R ip l s t) (f : Fin NFILE) :
    Streams R f ip l (s.ftable f).off s t where
  good := h.good
  self := h.self
  others := h.others
  reserved := h.reserved
  stat := h.stat
  entries := h.entries
  icache := h.icache
  ftable := by
    rw [h.ftable]
    exact (Function.update_eq_self f s.ftable).symm

/-! ### The rounds -/

/-- The inode of the open file. -/
def Fs.inumOf (s : Fs) (f : Fin NFILE) : ℕ := (s.icache (s.ftable f).ip).inum

theorem filewriteLoop_succ (src : ℕ → Byte) (fuel : ℕ) (h : i < n) :
    filewriteLoop f src n (fuel + 1) i = (do
      let s ← get
      match ← writei (s.inumOf f) (fun k => src (i + k)) (s.ftable f).off (min (n - i) 1536) with
      | none => pure none
      | some r => do
        modify fun t => t.setFile f { t.ftable f with off := (s.ftable f).off + r }
        if r ≠ min (n - i) 1536 then throw "short filewrite"
        else filewriteLoop f src n fuel (i + r)) := by
  rw [filewriteLoop, if_pos h]
  rfl

theorem filewriteLoop_stop (src : ℕ → Byte) (fuel : ℕ) :
    filewriteLoop f src n fuel n = pure (some n) := by
  cases fuel with
  | zero => rw [filewriteLoop, if_pos rfl]
  | succ fuel => rw [filewriteLoop, if_neg (lt_irrefl n), if_pos rfl]

theorem Streams.inumOf (h : Streams R f ip l m s t) : t.inumOf f = s.inumOf f := by
  unfold Fs.inumOf
  rw [h.icache, h.ftable, Function.update_self]

theorem Streams.offset (h : Streams R f ip l m s t) : (t.ftable f).off = m := by
  rw [h.ftable, Function.update_self]

theorem writei_round (hs : Good R s) (hlive : (s.inode ip).type ≠ .free) (off : ℕ)
    (hn : n ≤ bytes.length - i) :
    wp (writei ip (fun k => bytes.getD (i + k) 0) off n) (fun r t =>
      r = (listWritei (s.bytes ip) ((bytes.drop i).take n) off).1 ∧
        Rewrites R ip (listWritei (s.bytes ip) ((bytes.drop i).take n) off).2 s t) s ∧
    stops (writei ip (fun k => bytes.getD (i + k) 0) off n) Full s := by
  have hlen : ((bytes.drop i).take n).length = n := by
    rw [List.length_take, List.length_drop, Nat.min_eq_left hn]
  have hsrc : ∀ k < ((bytes.drop i).take n).length,
      bytes.getD (i + k) 0 = ((bytes.drop i).take n).getD k 0 := by
    intro k hk
    rw [hlen] at hk
    rw [List.getD_eq_getElem?_getD, List.getD_eq_getElem?_getD, List.getElem?_take_of_lt hk,
      List.getElem?_drop]
  have hspec := writei_spec hs hlive ((bytes.drop i).take n) off hsrc
  rw [hlen] at hspec
  exact hspec

/-- What the rounds from byte `i` on return and do. -/
def Sends (R : Set ℕ) (f : Fin NFILE) (bytes : List Byte) (i : ℕ) (s : Fs) (r : Option ℕ)
    (t : Fs) : Prop :=
  r = (if (s.ftable f).off + (bytes.length - i) ≤ MAXFILE * BSIZE then some bytes.length
    else none) ∧
  Streams R f (s.inumOf f)
    (splice (s.bytes (s.inumOf f)) (s.ftable f).off
      ((bytes.drop i).take (fitting (s.ftable f).off (bytes.length - i))))
    ((s.ftable f).off + fitting (s.ftable f).off (bytes.length - i)) s t

/-- A round that `writei` refuses ends the loop. -/
theorem filewriteLoop_refused (fuel : ℕ) (hs : Good R s)
    (hlive : (s.inode (s.inumOf f)).type ≠ .free) (hlt : i < bytes.length)
    (hlist : listWritei (s.bytes (s.inumOf f)) ((bytes.drop i).take (min (bytes.length - i) 1536))
      (s.ftable f).off = (none, s.bytes (s.inumOf f))) :
    wp (filewriteLoop f (fun k => bytes.getD k 0) bytes.length (fuel + 1) i) (fun r t =>
      r = none ∧ Streams R f (s.inumOf f) (s.bytes (s.inumOf f)) (s.ftable f).off s t) s ∧
    stops (filewriteLoop f (fun k => bytes.getD k 0) bytes.length (fuel + 1) i) Full s := by
  obtain ⟨hwp, hstop⟩ := writei_round hs hlive (s.ftable f).off
    (Nat.min_le_left (bytes.length - i) 1536)
  rw [hlist] at hwp
  rw [filewriteLoop_succ _ _ hlt]
  constructor
  · rw [wp_bind, wp_get, wp_bind]
    refine wp_mono hwp ?_
    rintro r t ⟨rfl, ht⟩
    rw [wp_pure]
    exact ⟨rfl, ht.streams_self f⟩
  · rw [stops_bind, wp_get, stops_get, stops_bind]
    refine ⟨trivial, hstop, wp_mono hwp ?_⟩
    rintro r t ⟨rfl, -⟩
    rw [stops_pure]
    trivial

/-- One round, and what the rounds after it do. -/
theorem Streams.sends {r : Option ℕ} (hround : min (bytes.length - i) 1536 = n)
    (hoff : (s.ftable f).off ≤ (s.bytes (s.inumOf f)).length)
    (hmax : (s.ftable f).off + n ≤ MAXFILE * BSIZE)
    (ht : Streams R f (s.inumOf f)
      (splice (s.bytes (s.inumOf f)) (s.ftable f).off ((bytes.drop i).take n))
      ((s.ftable f).off + n) s t)
    (hsends : Sends R f bytes (i + n) t r u) : Sends R f bytes i s r u := by
  obtain ⟨hr, hu⟩ := hsends
  have hlen : ((bytes.drop i).take n).length = n := by
    rw [List.length_take, List.length_drop]
    omega
  have hleft : bytes.length - (i + n) = bytes.length - i - n := by omega
  have hfit := @fitting_round (bytes.length - i) (s.ftable f).off (by rw [hround]; exact hmax)
  rw [hround] at hfit
  rw [ht.offset, hleft] at hr hu
  rw [ht.inumOf, ht.self] at hu
  unfold Sends
  rw [hfit]
  generalize fitting ((s.ftable f).off + n) (bytes.length - i - n) = k at hu
  constructor
  · rw [hr]
    congr 1
    rw [eq_iff_iff]
    omega
  · have hsplice := @splice_splice _ _ ((bytes.drop i).take n) ((bytes.drop (i + n)).take k) _ hoff
    rw [hlen, ← List.drop_drop, ← List.take_add] at hsplice
    rw [← List.drop_drop, hsplice, Nat.add_assoc] at hu
    exact ht.trans hu

theorem filewriteLoop_spec {fuel : ℕ} (hs : Good R s) (hlive : (s.inode (s.inumOf f)).type ≠ .free)
    (hoff : (s.ftable f).off ≤ (s.bytes (s.inumOf f)).length) (hi : i ≤ bytes.length)
    (hf : bytes.length - i < fuel) :
    wp (filewriteLoop f (fun k => bytes.getD k 0) bytes.length fuel i) (Sends R f bytes i s) s ∧
      stops (filewriteLoop f (fun k => bytes.getD k 0) bytes.length fuel i) Full s := by
  induction fuel generalizing s i with
  | zero => exact absurd hf (Nat.not_lt_zero _)
  | succ fuel ih =>
    have hsmall : (s.ftable f).off ≤ MAXFILE * BSIZE := by
      rw [length_bytes] at hoff
      exact hoff.trans (hs.small _)
    obtain rfl | hlt := hi.eq_or_lt
    · rw [filewriteLoop_stop, wp_pure, stops_pure]
      unfold Sends
      have hzero : fitting (s.ftable f).off (bytes.length - bytes.length) = 0 := by
        rw [Nat.sub_self]
        exact if_pos hsmall
      rw [hzero, Nat.sub_self, Nat.add_zero, if_pos hsmall, List.take_zero, splice_nil]
      exact ⟨⟨rfl, (Rewrites.refl hs).streams_self f⟩, trivial⟩
    · obtain ⟨n1, hround⟩ : ∃ n1, min (bytes.length - i) 1536 = n1 := ⟨_, rfl⟩
      have hlen : ((bytes.drop i).take n1).length = n1 := by
        rw [List.length_take, List.length_drop]
        omega
      have hword : MAXFILE * BSIZE + 1536 < 2 ^ 32 := by decide
      have hno : ¬ ((s.bytes (s.inumOf f)).length < (s.ftable f).off ∨
          2 ^ 32 ≤ (s.ftable f).off + n1) := by omega
      by_cases hmax : MAXFILE * BSIZE < (s.ftable f).off + n1
      · -- the round does not fit
        have hlist : listWritei (s.bytes (s.inumOf f)) ((bytes.drop i).take n1) (s.ftable f).off =
            (none, s.bytes (s.inumOf f)) := by
          unfold listWritei
          rw [hlen, if_neg hno, if_pos hmax]
        have hzero : fitting (s.ftable f).off (bytes.length - i) = 0 :=
          fitting_none (by rw [hround]; exact hmax)
        obtain ⟨hwp, hstop⟩ := filewriteLoop_refused fuel hs hlive hlt (by rw [hround]; exact hlist)
        refine ⟨wp_mono hwp fun r t ht => ?_, hstop⟩
        unfold Sends
        rw [hzero, if_neg (by omega), List.take_zero, splice_nil]
        exact ht
      · -- the round fits, and the others follow
        have hlist : listWritei (s.bytes (s.inumOf f)) ((bytes.drop i).take n1) (s.ftable f).off =
            (some n1, splice (s.bytes (s.inumOf f)) (s.ftable f).off ((bytes.drop i).take n1)) := by
          unfold listWritei
          rw [hlen, if_neg hno, if_neg hmax]
        obtain ⟨hwp, hstop⟩ := writei_round hs hlive (s.ftable f).off
          (by omega : n1 ≤ bytes.length - i)
        rw [hlist] at hwp
        have hrest : ∀ {t : Fs}, Streams R f (s.inumOf f)
            (splice (s.bytes (s.inumOf f)) (s.ftable f).off ((bytes.drop i).take n1))
            ((s.ftable f).off + n1) s t →
            wp (filewriteLoop f (fun k => bytes.getD k 0) bytes.length fuel (i + n1))
              (Sends R f bytes i s) t ∧
            stops (filewriteLoop f (fun k => bytes.getD k 0) bytes.length fuel (i + n1)) Full t := by
          intro t ht
          have hlive' : (t.inode (t.inumOf f)).type ≠ .free := by
            rw [ht.inumOf, (ht.stat _).1]
            exact hlive
          have hoff' : (t.ftable f).off ≤ (t.bytes (t.inumOf f)).length := by
            rw [ht.offset, ht.inumOf, ht.self, length_splice hoff, hlen]
            exact le_max_right ..
          obtain ⟨hwp', hstop'⟩ := @ih t (i + n1) ht.good hlive' hoff' (by omega) (by omega)
          exact ⟨wp_mono hwp' fun r u => ht.sends hround hoff (not_lt.1 hmax), hstop'⟩
        rw [filewriteLoop_succ _ _ hlt, hround]
        constructor
        · rw [wp_bind, wp_get, wp_bind]
          refine wp_mono hwp ?_
          rintro r t ⟨rfl, ht⟩
          rw [wp_bind, wp_modify, if_neg (not_not.2 rfl)]
          have hstep := ht.streams f ((s.ftable f).off + n1)
          exact (hrest hstep).1
        · rw [stops_bind, wp_get, stops_get, stops_bind]
          refine ⟨trivial, hstop, wp_mono hwp ?_⟩
          rintro r t ⟨rfl, ht⟩
          rw [stops_bind, wp_modify, stops_modify, if_neg (not_not.2 rfl)]
          have hstep := ht.streams f ((s.ftable f).off + n1)
          exact ⟨trivial, (hrest hstep).2⟩

/-! ### Whole calls -/

/-- An open file of a live inode. -/
structure Opened (s : Fs) (f : Fin NFILE) : Prop where
  type : (s.ftable f).type = .FD_INODE
  live : (s.inode (s.inumOf f)).type ≠ .free
  ref : 0 < (s.icache (s.ftable f).ip).ref

/-- All rounds of a `filewrite` together overwrite one stretch of the file. If it returns -1, the
full rounds that fit into the file are written all the same, and the offset is behind them. -/
theorem filewrite_splices (hs : Good R s) (ho : Opened s f) (hw : (s.ftable f).writable ≠ 0)
    (bytes : List Byte) :
    wp (filewrite f (fun k => bytes.getD k 0) bytes.length) (fun r t =>
      r = (listFilewrite (s.bytes (s.inumOf f)) bytes (s.ftable f).off).1 ∧
        Streams R f (s.inumOf f) (listFilewrite (s.bytes (s.inumOf f)) bytes (s.ftable f).off).2.1
          (listFilewrite (s.bytes (s.inumOf f)) bytes (s.ftable f).off).2.2 s t) s ∧
    stops (filewrite f (fun k => bytes.getD k 0) bytes.length) Full s := by
  unfold filewrite
  simp only [wp_bind, wp_get, stops_bind, stops_get, true_and, if_neg hw, ho.type]
  unfold listFilewrite
  by_cases hnil : bytes = []
  · subst hnil
    rw [if_pos rfl, List.length_nil, filewriteLoop_stop, wp_pure, stops_pure]
    exact ⟨⟨rfl, (Rewrites.refl hs).streams_self f⟩, trivial⟩
  · rw [if_neg hnil]
    by_cases hoff : (s.bytes (s.inumOf f)).length < (s.ftable f).off
    · rw [if_pos hoff]
      refine filewriteLoop_refused _ hs ho.live (List.length_pos_iff.2 hnil) ?_
      exact if_pos (.inl hoff)
    · rw [if_neg hoff]
      exact filewriteLoop_spec hs ho.live (not_lt.1 hoff) (Nat.zero_le _) (Nat.lt_succ_self _)

/-- An empty file, opened twice. -/
def openedTwice (j : Fin NINODE) (f g : Fin NFILE) : Fs :=
  ((perform fresh [.alloc false]).2.setFile f ⟨.FD_INODE, 1, 1, 1, j, 0⟩).setFile g
    ⟨.FD_INODE, 1, 1, 1, j, 0⟩

theorem openedTwice_good (j : Fin NINODE) (f g : Fin NFILE) :
    Good {b | b < 60} (openedTwice j f g) :=
  setFile_good (setFile_good (trace_good fresh_good fresh_cached (perform_trace fresh _)).1 f _) g _

theorem filewrite_splices_three :
    let s := openedTwice ⟨0, by decide⟩ ⟨0, by decide⟩ ⟨1, by decide⟩
    ∃ t, filewrite ⟨0, by decide⟩ (fun k => [1#8, 2#8, 3#8].getD k 0) 3 s = .ok (some 3, t) ∧
      t.bytes 1 = [1#8, 2#8, 3#8] := by
  intro s
  have hret : ((filewrite ⟨0, by decide⟩ (fun k => [1#8, 2#8, 3#8].getD k 0) 3 s).toOption.map
      (·.1)) = some (some 3) := by decide +kernel
  obtain ⟨⟨r, t⟩, hx, rfl⟩ := Option.map_eq_some_iff.1 hret
  have hx' := ok_of_toOption hx
  have ho : Opened s ⟨0, by decide⟩ := ⟨by decide +kernel, by decide +kernel, by decide +kernel⟩
  have ht := (filewrite_splices (openedTwice_good _ _ _) ho (by decide +kernel)
    [1#8, 2#8, 3#8]).1 _ _ hx'
  exact ⟨t, hx', ht.2.self.trans (by decide +kernel)⟩

/-- What `filewrite` has written is read through another open file of the inode. -/
theorem filewrite_fileread (hs : Good R s) (ho : Opened s f) (hne : bytes ≠ []) (hg : g ≠ f)
    (hr : (s.ftable g).readable ≠ 0) (htype : (s.ftable g).type = .FD_INODE)
    (hip : (s.ftable g).ip = (s.ftable f).ip) (hoff : (s.ftable g).off = (s.ftable f).off)
    (h : filewrite f (fun k => bytes.getD k 0) bytes.length s = .ok (some bytes.length, t)) :
    ∃ u, fileread g bytes.length t = .ok (some bytes, u) ∧ u.bytes = t.bytes ∧
      (u.ftable g).off = (u.ftable f).off := by
  have hw : (s.ftable f).writable ≠ 0 := by
    intro hzero
    unfold filewrite at h
    simp only [bind_apply, get_apply, if_pos hzero, pure_apply] at h
    cases h
  obtain ⟨hret, ht⟩ := (filewrite_splices hs ho hw bytes).1 _ _ h
  unfold listFilewrite at hret ht
  rw [if_neg hne] at hret ht
  by_cases hbeyond : (s.bytes (s.inumOf f)).length < (s.ftable f).off
  · rw [if_pos hbeyond] at hret
    cases hret
  rw [if_neg hbeyond] at hret ht
  by_cases hall : (s.ftable f).off + bytes.length ≤ MAXFILE * BSIZE
  · have hfit : fitting (s.ftable f).off bytes.length = bytes.length := if_pos hall
    simp only [hfit, List.take_length] at ht
    have hfile : t.ftable g = s.ftable g := by
      rw [ht.ftable, Function.update_of_ne hg]
    have hinum : (t.icache (s.ftable f).ip).inum = s.inumOf f := by
      rw [ht.icache]
      rfl
    obtain ⟨v, hv⟩ : ∃ v, v = t.setValid (s.ftable f).ip true := ⟨_, rfl⟩
    have hlock : ilock (s.ftable f).ip t = .ok ((), v) := by
      rw [hv]
      refine ilock_eq (by rw [ht.icache]; exact ho.ref) (.inr ?_)
      rw [hinum, (ht.stat _).1]
      exact ho.live
    have hgood : Good R v := hv ▸ setValid_good ht.good _
    have hbytes : v.bytes = t.bytes := by rw [hv]; rfl
    have hftable : v.ftable = t.ftable := by rw [hv]; rfl
    have hword : MAXFILE * BSIZE < 2 ^ 32 := by decide
    have hread : readi (s.inumOf f) (s.ftable f).off bytes.length v = .ok (some bytes, v) := by
      rw [readi_eq hgood, hbytes, ht.self]
      unfold listReadi
      rw [length_splice (not_lt.1 hbeyond), if_neg (by omega), take_drop_splice (not_lt.1 hbeyond)]
    refine ⟨v.setFile g { s.ftable g with off := (s.ftable g).off + bytes.length }, ?_, ?_, ?_⟩
    · unfold fileread
      simp only [bind_apply, get_apply, hfile, if_neg hr, htype, hip, hlock, hinum, hoff, hread,
        if_pos (List.length_pos_iff.2 hne), modify_apply, pure_apply]
    · exact (funext (setFile_restats v g _).bytes).trans hbytes
    · change (Function.update v.ftable g _ g).off = (Function.update v.ftable g _ f).off
      rw [hftable, Function.update_self, Function.update_of_ne hg.symm, ht.offset, hoff]
  · rw [if_neg hall] at hret
    cases hret

theorem filewrite_fileread_three :
    let s := openedTwice ⟨0, by decide⟩ ⟨0, by decide⟩ ⟨1, by decide⟩
    ∃ t u, filewrite ⟨0, by decide⟩ (fun k => [1#8, 2#8, 3#8].getD k 0) 3 s = .ok (some 3, t) ∧
      fileread ⟨1, by decide⟩ 3 t = .ok (some [1#8, 2#8, 3#8], u) := by
  intro s
  have hret : ((filewrite ⟨0, by decide⟩ (fun k => [1#8, 2#8, 3#8].getD k 0) 3 s).toOption.map
      (·.1)) = some (some 3) := by decide +kernel
  obtain ⟨⟨r, t⟩, hx, rfl⟩ := Option.map_eq_some_iff.1 hret
  have hx' := ok_of_toOption hx
  have ho : Opened s ⟨0, by decide⟩ := ⟨by decide +kernel, by decide +kernel, by decide +kernel⟩
  have hne : [1#8, 2#8, 3#8] ≠ [] := List.cons_ne_nil _ _
  obtain ⟨u, hu, -⟩ := filewrite_fileread (g := ⟨1, by decide⟩) (openedTwice_good _ _ _) ho
    hne (by decide) (by decide +kernel) (by decide +kernel) (by decide +kernel)
    (by decide +kernel) hx'
  exact ⟨t, u, hx', hu⟩

end Xv6Lab.Files
