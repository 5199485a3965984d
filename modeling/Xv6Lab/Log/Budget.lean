import Mathlib.Algebra.BigOperators.Ring.Finset
import Xv6Lab.Log.Recovery

/-! The space that the admission test of `begin_op` sets aside. An operation that adds few blocks
never makes `log_write` panic, however operations nest and interleave. -/

namespace Xv6Lab.Log

open Lib

variable {n : ℕ} {E : Env} {s t : Kernel n} {p : Fin n} {c : Choice} {i : Instr} {B b : ℕ}
  {l : List (Kernel n × (Fin n × Choice))} {rest : List Instr}

/-- The blocks that the open operations of a process have added, innermost first, after its next
instruction. -/
def charge (E : Env) (s : Kernel n) (p : Fin n) (k : List ℕ) : List ℕ :=
  match (s.proc p).code.head? with
  | some .beginOp =>
    if (s.proc p).wait = .awake ∧ s.committing = false ∧ fits s.lh.length s.outstanding then 0 :: k
    else k
  | some .endOp => k.tail
  | some i =>
    match i.logs E with
    | some b => if b ∈ s.lh then k else (k.headD 0 + 1) :: k.tail
    | none => k
  | none => k

/-- The same for every process after the steps of `l`. -/
def spent (E : Env) (l : List (Kernel n × (Fin n × Choice))) : Fin n → List ℕ :=
  l.foldl (fun k x => Function.update k x.2.1 (charge E x.1 x.2.1 (k x.2.1))) fun _ => []

/-- Whenever a process calls `log_write`, its innermost operation has added less than `B` blocks. -/
def Frugal (E : Env) (B : ℕ) (l : List (Kernel n × (Fin n × Choice))) : Prop :=
  ∀ l₁ x l₂, l = l₁ ++ x :: l₂ → (x.1.proc x.2.1).code.head?.bind (Instr.logs E) ≠ none →
    (spent E l₁ x.2.1).headD B < B

theorem spent_snoc (l : List (Kernel n × (Fin n × Choice))) (x : Kernel n × (Fin n × Choice)) :
    spent E (l ++ [x]) =
      Function.update (spent E l) x.2.1 (charge E x.1 x.2.1 (spent E l x.2.1)) := by
  unfold spent
  rw [List.foldl_append]
  rfl

theorem charge_cons (hc : (s.proc p).code = i :: rest) (hb : i ≠ .beginOp) (he : i ≠ .endOp)
    (hi : i.logs E = none) (k : List ℕ) : charge E s p k = k := by
  unfold charge
  rw [hc]
  cases i with
  | beginOp => exact absurd rfl hb
  | endOp => exact absurd rfl he
  | mark | bzero | logWrite => cases hi
  | _ => rfl

theorem charge_logs (hc : (s.proc p).code = i :: rest) (hi : i.logs E = some b) (k : List ℕ) :
    charge E s p k = if b ∈ s.lh then k else (k.headD 0 + 1) :: k.tail := by
  unfold charge
  rw [hc]
  cases i with
  | mark | bzero | logWrite =>
    cases hi
    rfl
  | _ => cases hi

theorem charge_endOp (hc : (s.proc p).code = .endOp :: rest) (k : List ℕ) :
    charge E s p k = k.tail := by
  unfold charge
  rw [hc]
  rfl

theorem charge_beginOp (hc : (s.proc p).code = .beginOp :: rest) (k : List ℕ) :
    charge E s p k =
      if (s.proc p).wait = .awake ∧ s.committing = false ∧ fits s.lh.length s.outstanding then 0 :: k
      else k := by
  unfold charge
  rw [hc]
  rfl

/-- The space that open operations may still use. -/
def credit (k : List ℕ) : ℤ := (k.map fun x => (MAXOPBLOCKS : ℤ) - x).sum

@[simp] theorem credit_nil : credit [] = 0 := rfl

@[simp] theorem credit_cons (x : ℕ) (k : List ℕ) : credit (x :: k) = MAXOPBLOCKS - x + credit k := by
  simp [credit]

theorem credit_le (k : List ℕ) : credit k ≤ k.length * MAXOPBLOCKS := by
  induction k with
  | nil => simp
  | cons x k ih =>
    rw [credit_cons, List.length_cons]
    push_cast
    linarith

theorem credit_nonneg {k : List ℕ} (h : ∀ x ∈ k, x ≤ MAXOPBLOCKS) : 0 ≤ credit k := by
  induction k with
  | nil => exact le_rfl
  | cons x k ih =>
    rw [credit_cons]
    have hx : (x : ℤ) ≤ MAXOPBLOCKS := by exact_mod_cast h x (List.mem_cons_self ..)
    have := ih fun y hy => h y (List.mem_cons_of_mem _ hy)
    linarith

/-- The operations of a process change with `outstanding`. -/
theorem step_ops (h : Owned s) (hs : Step E s (p, c) t) :
    (t.proc p).ops = (s.proc p).ops + (t.outstanding - s.outstanding) := by
  have ht := h.step hs
  have hsum := Finset.add_sum_erase Finset.univ (fun q => (s.proc q).ops) (Finset.mem_univ p)
  have hsum' := Finset.add_sum_erase Finset.univ (fun q => (t.proc q).ops) (Finset.mem_univ p)
  have hrest : ∑ q ∈ Finset.univ.erase p, (t.proc q).ops =
      ∑ q ∈ Finset.univ.erase p, (s.proc q).ops := by
    refine Finset.sum_congr rfl fun q hq => ?_
    unfold Proc.ops
    rw [step_code hs (Finset.ne_of_mem_erase hq)]
  rw [h.total] at hsum
  rw [ht.total, hrest] at hsum'
  linarith

/-- The log has room for what the open operations may still add. -/
structure Solvent (B : ℕ) (k : Fin n → List ℕ) (s : Kernel n) : Prop where
  length : ∀ p, ((k p).length : ℤ) = (s.proc p).ops
  bound : ∀ p, ∀ x ∈ k p, x ≤ B
  room : s.lh.length + ∑ p, credit (k p) ≤ LOGSIZE

theorem boot_solvent (disk : ℕ → Block) : Solvent B (fun _ => []) (boot n disk) where
  length _ := rfl
  bound _ _ hx := by cases hx
  room := by simp [boot]

theorem sum_credit (k : Fin n → List ℕ) (p : Fin n) (m : List ℕ) :
    ∑ q, credit (Function.update k p m q) = ∑ q, credit (k q) - credit (k p) + credit m := by
  have hs := Finset.add_sum_erase Finset.univ (fun q => credit (k q)) (Finset.mem_univ p)
  have ht := Finset.add_sum_erase Finset.univ (fun q => credit (Function.update k p m q))
    (Finset.mem_univ p)
  have hrest : ∑ q ∈ Finset.univ.erase p, credit (Function.update k p m q) =
      ∑ q ∈ Finset.univ.erase p, credit (k q) := by
    refine Finset.sum_congr rfl fun q hq => ?_
    rw [Function.update_of_ne (Finset.ne_of_mem_erase hq)]
  rw [Function.update_self, hrest] at ht
  linarith

/-- The books after a step of process `p`. -/
theorem Solvent.update {k : Fin n → List ℕ} {m : List ℕ} (h : Solvent B k s) (ho : Owned s)
    (hs : Step E s (p, c) t) (hlen : (m.length : ℤ) = (k p).length + (t.outstanding - s.outstanding))
    (hbound : ∀ x ∈ m, x ≤ B)
    (hroom : (t.lh.length : ℤ) + ∑ q, credit (k q) - credit (k p) + credit m ≤ LOGSIZE) :
    Solvent B (Function.update k p m) t := by
  constructor
  · intro q
    by_cases hqp : q = p
    · subst hqp
      rw [Function.update_self, hlen, h.length q, step_ops ho hs]
    · rw [Function.update_of_ne hqp, h.length q]
      unfold Proc.ops
      rw [step_code hs hqp]
  · intro q
    by_cases hqp : q = p
    · subst hqp
      rw [Function.update_self]
      exact hbound
    · rw [Function.update_of_ne hqp]
      exact h.bound q
  · rw [sum_credit]
    linarith

/-- A step that keeps the books of process `p`. -/
theorem Solvent.keep {k : Fin n → List ℕ} (h : Solvent B k s) (ho : Owned s)
    (hs : Step E s (p, c) t) (hcharge : charge E s p (k p) = k p)
    (hout : t.outstanding = s.outstanding) (hlh : t.lh.length ≤ s.lh.length) :
    Solvent B (Function.update k p (charge E s p (k p))) t := by
  have hroom := h.room
  have hlh' : (t.lh.length : ℤ) ≤ s.lh.length := by exact_mod_cast hlh
  rw [hcharge]
  refine h.update ho hs ?_ (h.bound p) ?_
  · rw [hout]
    ring
  · linarith

theorem Solvent.step {k : Fin n → List ℕ} (hB : B ≤ MAXOPBLOCKS) (hsound : Sound s) (ho : Owned s)
    (h : Solvent B k s)
    (hg : (s.proc p).code.head?.bind (Instr.logs E) ≠ none → (k p).headD B < B)
    (hs : Step E s (p, c) t) : Solvent B (Function.update k p (charge E s p (k p))) t := by
  have hroom := h.room
  have plain : ∀ {i : Instr} {rest : List Instr}, (s.proc p).code = i :: rest → i ≠ .beginOp →
      i ≠ .endOp → i.logs E = none → t.outstanding = s.outstanding → t.lh.length ≤ s.lh.length →
      Solvent B (Function.update k p (charge E s p (k p))) t :=
    fun hc hb he hi hout hlh => h.keep ho hs (charge_cons hc hb he hi _) hout hlh
  have ends : ∀ {rest : List Instr}, (s.proc p).code = .endOp :: rest →
      t.outstanding = s.outstanding - 1 → t.lh = s.lh →
      Solvent B (Function.update k p (charge E s p (k p))) t := by
    intro rest hc hout hlh
    have hops := ops_pos_of_endOp ho hc
    have hlen := h.length p
    rw [charge_endOp hc]
    cases hk : k p with
    | nil =>
      rw [hk] at hlen
      simp at hlen
      omega
    | cons x m =>
      have hx : x ≤ B := h.bound p x (by rw [hk]; exact List.mem_cons_self ..)
      have hx' : (x : ℤ) ≤ MAXOPBLOCKS := by exact_mod_cast hx.trans hB
      refine h.update ho hs ?_ (fun y hy => h.bound p y ?_) ?_
      · rw [hk, List.tail_cons, List.length_cons, hout]
        push_cast
        ring
      · rw [hk]
        exact List.mem_cons_of_mem _ hy
      · rw [hk, List.tail_cons, credit_cons, hlh]
        linarith
  cases step_moves hs with
  | wake hw =>
    obtain ⟨rest, hc⟩ := hsound.asleep p hw
    refine h.keep ho hs ?_ rfl le_rfl
    rw [charge_beginOp hc, if_neg fun hall => hw hall.1]
  | returns rest _ hc => exact plain hc (by simp) (by simp) rfl rfl le_rfl
  | calls rest f _ hc => exact plain hc (by simp) (by simp) rfl rfl le_rfl
  | finds rest b _ hc => exact plain hc (by simp) (by simp) rfl rfl le_rfl
  | exec i rest c d _ hc hi hd =>
    have hx := exec_some hd
    cases hlogs : i.logs E with
    | none =>
      refine plain hc ?_ ?_ hlogs hx.outstanding ?_
      · rintro rfl
        cases c <;> cases hd
      · rintro rfl
        cases c <;> cases hd
      · obtain hl | ⟨b, hb, -⟩ := hx.lh
        · exact hl ▸ le_rfl
        · rw [hlogs] at hb
          cases hb
    | some b =>
      have htop : (k p).headD B < B := by
        refine hg ?_
        rw [hc]
        change i.logs E ≠ none
        rw [hlogs]
        simp
      cases hk : k p with
      | nil =>
        rw [hk] at htop
        exact absurd htop (lt_irrefl B)
      | cons x m =>
        rw [hk] at htop
        change x < B at htop
        obtain hl | ⟨b', hb', hnot, hl, -⟩ := hx.lh
        · have hin : b ∈ s.lh := by
            rw [← hl]
            exact hx.logs b hlogs
          rw [← hk]
          refine h.keep ho hs ?_ hx.outstanding (hl ▸ le_rfl)
          rw [charge_logs hc hlogs, if_pos hin]
        · rw [hlogs] at hb'
          cases hb'
          rw [charge_logs hc hlogs, if_neg hnot, List.headD_cons, List.tail_cons]
          refine h.update ho hs ?_ ?_ ?_
          · rw [hk, then_toDisk, hx.outstanding, List.length_cons, List.length_cons]
            ring
          · intro y hy
            obtain rfl | hy := List.mem_cons.1 hy
            · exact htop
            · exact h.bound p y (by rw [hk]; exact List.mem_cons_of_mem _ hy)
          · rw [hk, then_toDisk, hl, List.length_append, credit_cons, credit_cons]
            push_cast
            rw [List.length_singleton]
            push_cast
            linarith
  | waitCommit rest _ hc hcom =>
    refine h.keep ho hs ?_ rfl le_rfl
    rw [charge_beginOp hc, if_neg fun hall => ?_]
    rw [hcom] at hall
    cases hall.2.1
  | waitSpace rest _ hc hcom hsp =>
    refine h.keep ho hs ?_ rfl le_rfl
    rw [charge_beginOp hc, if_neg fun hall => not_lt.2 hall.2.2 hsp]
  | begins rest ha hc hcom hfits =>
    rw [charge_beginOp hc, if_pos ⟨ha, hcom, hfits⟩]
    have hle : ∑ q, credit (k q) ≤ s.outstanding * MAXOPBLOCKS := by
      rw [← ho.total, Finset.sum_mul]
      refine Finset.sum_le_sum fun q _ => ?_
      rw [← h.length q]
      exact credit_le (k q)
    refine h.update ho hs ?_ ?_ ?_
    · change ((0 :: k p).length : ℤ) = (k p).length + (s.outstanding + 1 - s.outstanding)
      rw [List.length_cons]
      push_cast
      ring
    · intro y hy
      obtain rfl | hy := List.mem_cons.1 hy
      · exact Nat.zero_le B
      · exact h.bound p y hy
    · rw [credit_cons]
      change (s.lh.length : ℤ) + _ - _ + _ ≤ _
      push_cast
      linarith
  | ends rest _ hc => exact ends hc rfl rfl
  | endsLast rest _ hc _ hlast => exact ends hc (by rw [hlast]; rfl) rfl
  | commits i rest t _ hc hi ht =>
    have hnot : i ≠ .beginOp ∧ i ≠ .endOp ∧ i.logs E = none := by
      cases i with
      | commit | writeLog | writeHead | installTrans | clearHead | endCommit =>
        exact ⟨by simp, by simp, rfl⟩
      | _ => cases hi
    obtain rfl | ⟨j, d, rfl, -, -, hout, -, hl | hl⟩ := (commit_commits ht).ends_or
    · exact plain hc hnot.1 hnot.2.1 hnot.2.2 rfl le_rfl
    · exact plain hc hnot.1 hnot.2.1 hnot.2.2 hout (hl ▸ le_rfl)
    · refine plain hc hnot.1 hnot.2.1 hnot.2.2 hout ?_
      rw [then_toDisk, hl]
      exact Nat.zero_le _

theorem solvent_trace (hB : B ≤ MAXOPBLOCKS) (disk : ℕ → Block)
    (h : Trace (Step E) (boot n disk) l s) (hg : Frugal E B l) :
    Sound s ∧ Owned s ∧ Solvent B (spent E l) s := by
  have hall : Frugal E B l → Sound s ∧ Owned s ∧ Solvent B (spent E l) s := by
    refine h.history (P := fun l s => Frugal E B l → Sound s ∧ Owned s ∧ Solvent B (spent E l) s)
      ?_ ?_
    · exact fun _ => ⟨boot_sound disk, boot_owned disk, boot_solvent disk⟩
    · intro l s t a _ ih hs hg
      obtain ⟨hsound, ho, hk⟩ := ih fun l₁ x l₂ hl hx =>
        hg l₁ x (l₂ ++ [(s, a)]) (by rw [hl]; simp) hx
      refine ⟨hsound.step hs, ho.step hs, ?_⟩
      rw [spent_snoc]
      exact hk.step hB hsound ho (hg l (s, a) [] rfl) hs
  exact hall hg

/-- `log_write` does not panic while the operations add less than `B` blocks each before it, for a
log on disk with more than `LOGSIZE - MAXOPBLOCKS + B` blocks, its header included. -/
theorem logWrite_not_panics (hB : B ≤ MAXOPBLOCKS) (hlog : LOGSIZE - MAXOPBLOCKS + B < E.nlog)
    (disk : ℕ → Block) (h : Trace (Step E) (boot n disk) l s)
    (hb : (s.proc p).code.head?.bind (Instr.logs E) = some b)
    (hg : Frugal E B (l ++ [(s, (p, .go))])) : (s.logWrite E b).isSome = true := by
  have hg' : Frugal E B l := fun l₁ x l₂ hl hx =>
    hg l₁ x (l₂ ++ [(s, (p, .go))]) (by rw [hl]; simp) hx
  have htop : (spent E l p).headD B < B := hg l (s, (p, .go)) [] rfl (by rw [hb]; simp)
  obtain ⟨-, ho, hk⟩ := solvent_trace hB disk h hg'
  have hlen := hk.length p
  have hroom := hk.room
  have hcredit : ∀ q, 0 ≤ credit (spent E l q) :=
    fun q => credit_nonneg fun x hx => (hk.bound q x hx).trans hB
  cases hst : spent E l p with
  | nil =>
    rw [hst] at htop
    exact absurd htop (lt_irrefl B)
  | cons x m =>
    rw [hst] at htop hlen
    change x < B at htop
    have hx : (x : ℤ) + 1 ≤ B := by exact_mod_cast htop
    have hown : (MAXOPBLOCKS : ℤ) - x ≤ ∑ q, credit (spent E l q) := by
      have hp := Finset.single_le_sum (fun q _ => hcredit q) (Finset.mem_univ p)
      have hm : 0 ≤ credit m := credit_nonneg fun y hy =>
        (hk.bound p y (by rw [hst]; exact List.mem_cons_of_mem _ hy)).trans hB
      rw [hst, credit_cons] at hp
      linarith
    have hout : 1 ≤ s.outstanding := by
      have hle := ho.ops_le p
      rw [List.length_cons] at hlen
      push_cast at hlen
      linarith [Nat.cast_nonneg (α := ℤ) m.length]
    have hfew : (s.lh.length : ℤ) + 1 ≤ LOGSIZE - MAXOPBLOCKS + B := by linarith
    have hM : (MAXOPBLOCKS : ℤ) = 10 := rfl
    have hL : (LOGSIZE : ℤ) = 30 := rfl
    have hM' : MAXOPBLOCKS = 10 := rfl
    have hL' : LOGSIZE = 30 := rfl
    unfold Disk.logWrite
    rw [if_neg (by omega), if_neg (by omega)]
    rfl

theorem frugal_of_take (h : ∀ j < l.length, ∀ x ∈ l[j]?,
    (x.1.proc x.2.1).code.head?.bind (Instr.logs E) ≠ none →
      (spent E (l.take j) x.2.1).headD B < B) : Frugal E B l := by
  intro l₁ x l₂ hl hx
  have hj := h l₁.length (by rw [hl]; simp) x (by rw [hl]; simp) hx
  rwa [hl, List.take_left] at hj

theorem logWrite_not_panics_nine :
    let s₀ := boot 1 (inUse 80)
    let es : List (Fin 1 × Choice) :=
      callBegin 0 ++ callUpdate 0 60 ++ [(0, .call .balloc), (0, .pick 80), (0, .go)]
    let s := after smallDisk s₀ es
    s.outstanding = 2 ∧ (s.logWrite smallDisk 58).isSome = true :=
  ⟨by decide +kernel,
    logWrite_not_panics (B := 9) (p := 0) (by decide) (by decide) _
      (Trace.of_isSome (by decide +kernel)) (by decide +kernel)
      (frugal_of_take (by decide +kernel))⟩

/-- `mkfs` makes a log of `LOGSIZE` blocks, so three operations of ten blocks do not fit. -/
example : ((after smallDisk (boot 3 (inUse 100)) ((List.finRange 3).flatMap callBegin ++
    (List.range 10).flatMap (fun i => callUpdate 0 (60 + i)) ++
    (List.range 10).flatMap (fun i => callUpdate 1 (70 + i)) ++
    (List.range 9).flatMap (fun i => callUpdate 2 (80 + i)))).logWrite smallDisk 89).isSome =
      false := by decide +kernel

end Xv6Lab.Log
