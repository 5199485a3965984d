import Xv6Lab.Lazy.Spec
import Xv6Lab.Paging.Runs

/-! On-demand and eager allocation compared. Both are related to one abstract memory,
which knows what was stored last at every address and whether the page has been given
back since: on-demand allocation never gives a page back and shows the last byte
stored, eager allocation shows a zero instead. -/

namespace Xv6Lab.Lazy

open Paging Lib

variable {E : Env} {G : Set ℕ} {s t : Machine} {v w a N : ℕ} {op : Op} {ops : List Op} {k : Scheme}

/-! ### The abstract memory -/

structure Memory where
  sz : ℕ
  /-- The byte that was stored last, or was there at the start. -/
  last : ℕ → Byte
  /-- Whether a shrink has given back the page since. -/
  dropped : ℕ → Bool

namespace Memory

variable {m : Memory}

/-- What a memory shows that forgets what is given back. -/
def forgetful (m : Memory) (a : ℕ) : Byte := if m.dropped a then 0#8 else m.last a

def step (m : Memory) : Op → Memory
  | .sbrk n => { m with
    sz := addSz m.sz n
    dropped := fun a =>
      m.dropped a || (npages (addSz m.sz n) ≤ a / PGSIZE && a / PGSIZE < npages m.sz) }
  | .load _ => m
  | .store va b => { m with
    last := Function.update m.last va b
    dropped := Function.update m.dropped va false }

/-- What a process sees of the memory under each scheme. -/
def shows (m : Memory) : Scheme → ℕ → Byte
  | .onDemand => m.last
  | .eager => m.forgetful

def result (m : Memory) (k : Scheme) : Op → Result
  | .sbrk _ => .addr (toInt m.sz)
  | .load va => .byte (m.shows k va)
  | .store _ _ => .done

def results (k : Scheme) : List Op → Memory → List Result
  | [], _ => []
  | op :: ops, m => m.result k op :: results k ops (m.step op)

/-- The memory of the process at the start. -/
def start (s : Machine) : Memory := ⟨s.sz, fun a => byteAt (s.content (a / PGSIZE)) a, fun _ => false⟩

end Memory

/-- No load reads a byte whose page has been given back since it was stored, unless
the byte is zero. -/
def ReadsFresh : List Op → Memory → Prop
  | [], _ => True
  | op :: ops, m => (∀ va, op = .load va → m.dropped va = true → m.last va = 0#8) ∧
    ReadsFresh ops (m.step op)

/-- The results of the two memories agree exactly when every load is fresh. -/
theorem results_eq_iff (ops : List Op) (m : Memory) :
    Memory.results .onDemand ops m = Memory.results .eager ops m ↔ ReadsFresh ops m := by
  induction ops generalizing m with
  | nil => simp [Memory.results, ReadsFresh]
  | cons op ops ih =>
    unfold Memory.results ReadsFresh
    rw [List.cons.injEq, ih]
    apply and_congr_left'
    cases op with
    | sbrk n => simp [Memory.result]
    | store va b => simp [Memory.result]
    | load va =>
      simp only [Memory.result, Memory.shows, Memory.forgetful, Result.byte.injEq, Op.load.injEq,
        forall_eq']
      split_ifs with h
      · simp [h]
      · simp [h]

/-! ### What the process may do -/

/-- Sizes stay between 0 and `KERNBASE`; accesses are below the size, outside the guard
pages `G`. -/
def Legal (G : Set ℕ) : List Op → ℕ → Prop
  | [], _ => True
  | .sbrk n :: ops, sz => 0 < sz + n ∧ sz + n < (KERNBASE : ℤ) ∧ Legal G ops (addSz sz n)
  | .load va :: ops, sz | .store va _ :: ops, sz => va < sz ∧ va / PGSIZE ∉ G ∧ Legal G ops sz

/-- The largest size in a run. -/
def peak : List Op → ℕ → ℕ
  | [], sz => sz
  | .sbrk n :: ops, sz => max sz (peak ops (addSz sz n))
  | _ :: ops, sz => peak ops sz

theorem le_peak (ops : List Op) (sz : ℕ) : sz ≤ peak ops sz := by
  induction ops with
  | nil => exact le_rfl
  | cons op ops ih =>
    cases op with
    | sbrk n => exact le_max_left _ _
    | load va => exact ih
    | store va b => exact ih

theorem addSz_eq {sz : ℕ} {n : ℤ} (h0 : 0 < sz + n) (h1 : sz + n < (KERNBASE : ℤ)) :
    (addSz sz n : ℤ) = sz + n := by
  have hk : (KERNBASE : ℤ) < 2 ^ 32 := by decide
  rw [addSz, Int.emod_eq_of_lt h0.le (by omega), Int.toNat_of_nonneg h0.le]

/-! ### Accesses -/

/-- The entry allows user loads and stores. -/
def Accessible (x : Word) : Prop := present x = true ∧ user x = true ∧ writable x = true

theorem Accessible.faults {x : Word} (h : Accessible x) (write : Bool) : faults x write = false := by
  unfold Paging.faults
  rw [h.1, h.2.1, h.2.2]
  cases write <;> rfl

theorem faults_of_not_present {x : Word} (h : present x = false) (write : Bool) :
    faults x write = true := by
  unfold Paging.faults
  rw [h]
  rfl

theorem access_accessible (h : Accessible (s.pte (a / PGSIZE))) (write : Bool) :
    access E k a write s = .ok (PTE_ADDR (s.pte (a / PGSIZE)), s) := by
  rw [access, bind_apply, get_apply]
  simp only [h.faults, Bool.false_eq_true, ↓reduceIte, pure_apply]

theorem access_fault (hW : WF E s) (hS : Supply s N) (hv : a / PGSIZE < N)
    (hnp : present (s.pte (a / PGSIZE)) = false) (write : Bool) :
    ∃ t, access E .onDemand a write s = .ok (PTE_ADDR (t.pte (a / PGSIZE)), t) ∧
      Mapped E s (a / PGSIZE) t := by
  obtain ⟨t, ht, h⟩ := trapPgflt_spec hW hS hv hnp
  refine ⟨t, ?_, h⟩
  have hacc : Accessible (t.pte (a / PGSIZE)) := ⟨h.present, h.user, h.writable⟩
  rw [access, bind_apply, get_apply]
  simp only [faults_of_not_present hnp, ↓reduceIte, trap, bind_apply, ht, get_apply, hacc.faults,
    Bool.false_eq_true, pure_apply]

/-- A store to a mapped page changes one byte of the process. -/
theorem store_content (hW : WF E s) (ha : a < KERNBASE) (hp : present (s.pte (a / PGSIZE)) = true)
    (b : Byte) {c : ℕ} (hc : c < KERNBASE) :
    byteAt ((s.setFrame (PTE_ADDR (s.pte (a / PGSIZE)))
      (setByte (s.mem (PTE_ADDR (s.pte (a / PGSIZE)))) a b)).content (c / PGSIZE)) c =
      if c = a then b else byteAt (s.content (c / PGSIZE)) c := by
  have hpage : ∀ x, x < KERNBASE → x / PGSIZE < UVPN := fun x hx => page_lt_UVPN hx
  set t := s.setFrame (PTE_ADDR (s.pte (a / PGSIZE)))
    (setByte (s.mem (PTE_ADDR (s.pte (a / PGSIZE)))) a b) with ht
  have hpte : ∀ w, t.pte w = s.pte w := fun _ => rfl
  by_cases hpg : c / PGSIZE = a / PGSIZE
  · rw [hpg, Machine.content_present (by rw [hpte, hp]), Machine.content_present hp, hpte]
    rw [show t.mem (PTE_ADDR (s.pte (a / PGSIZE))) =
      setByte (s.mem (PTE_ADDR (s.pte (a / PGSIZE)))) a b from Function.update_self ..]
    rw [byteAt_setByte]
    have hiff : a % PGSIZE = c % PGSIZE ↔ c = a := by
      constructor
      · intro h
        rw [← Nat.div_add_mod c PGSIZE, hpg, ← h, Nat.div_add_mod]
      · rintro rfl
        rfl
    simp only [hiff]
  · rw [if_neg (by rintro rfl; exact hpg rfl)]
    cases hpc : present (s.pte (c / PGSIZE)) with
    | false =>
      rw [Machine.content_not_present hpc, Machine.content_not_present (by rw [hpte, hpc])]
    | true =>
      rw [Machine.content_present hpc, Machine.content_present (by rw [hpte, hpc]), hpte]
      have hne : PTE_ADDR (s.pte (c / PGSIZE)) ≠ PTE_ADDR (s.pte (a / PGSIZE)) := fun e =>
        hpg (hW.inj _ (hpage c hc) _ (hpage a ha) hpc hp e)
      rw [show t.mem (PTE_ADDR (s.pte (c / PGSIZE))) = s.mem (PTE_ADDR (s.pte (c / PGSIZE))) from
        Function.update_of_ne hne ..]

/-! ### The simulation -/

/-- What both schemes keep: the process sees the memory `shows`, and every mapped page
outside `G` is accessible. -/
structure Sees (E : Env) (G : Set ℕ) (N : ℕ) (k : Scheme) (m : Memory) (s : Machine) : Prop where
  wf : WF E s
  supply : Supply s N
  sz : s.sz = m.sz
  pos : 0 < m.sz
  lt : m.sz < KERNBASE
  content : ∀ a < KERNBASE, byteAt (s.content (a / PGSIZE)) a = m.shows k a
  accessible : ∀ v < UVPN, v ∉ G → present (s.pte v) = true → Accessible (s.pte v)
  /-- Under the eager scheme exactly the pages below the size are mapped. -/
  mapped : k = .eager → ∀ v < UVPN, present (s.pte v) = true ↔ v < npages m.sz

theorem page_lt_npages {sz : ℕ} (h : a < sz) : a / PGSIZE < npages sz := by
  simp only [npages, PGSIZE]
  omega

theorem shows_store (m : Memory) (k : Scheme) (va : ℕ) (b : Byte) (c : ℕ) :
    (m.step (.store va b)).shows k c = if c = va then b else m.shows k c := by
  cases k with
  | onDemand => exact Function.update_apply ..
  | eager =>
    simp only [Memory.shows, Memory.forgetful, Memory.step, Function.update_apply]
    split_ifs with h1 h2 <;> simp_all

namespace Sees

variable {m : Memory}

/-- An access finds its page, mapping it first if need be. -/
theorem access (h : Sees E G N k m s) (ha : a < m.sz) (hG : a / PGSIZE ∉ G) (hN : npages m.sz ≤ N)
    (write : Bool) : ∃ t, Lazy.access E k a write s = .ok (PTE_ADDR (t.pte (a / PGSIZE)), t) ∧
      Sees E G N k m t ∧ Accessible (t.pte (a / PGSIZE)) := by
  have hpg := page_lt_npages ha
  have hu : a / PGSIZE < UVPN := page_lt_UVPN (ha.trans h.lt)
  cases hp : present (s.pte (a / PGSIZE)) with
  | true =>
    have hacc := h.accessible _ hu hG hp
    exact ⟨s, access_accessible hacc write, h, hacc⟩
  | false =>
    cases k with
    | eager =>
      rw [(h.mapped rfl _ hu).2 hpg] at hp
      cases hp
    | onDemand =>
      obtain ⟨t, ht, hM⟩ := access_fault h.wf h.supply (hpg.trans_le hN) hp write
      have hacc : Accessible (t.pte (a / PGSIZE)) := ⟨hM.present, hM.user, hM.writable⟩
      refine ⟨t, ht, ⟨hM.wf, hM.supply h.supply (hpg.trans_le hN), hM.sz.trans h.sz, h.pos, h.lt,
        fun c hc => ?_, fun v hv hvG hpv => ?_, fun he => by cases he⟩, hacc⟩
      · rw [hM.content _ (page_lt_UVPN hc)]
        exact h.content c hc
      · by_cases hva : v = a / PGSIZE
        · rw [hva]
          exact hacc
        · rw [hM.pte v (hv.trans (by decide)) hva] at hpv ⊢
          exact h.accessible v hv hvG hpv

theorem load (h : Sees E G N k m s) (ha : a < m.sz) (hG : a / PGSIZE ∉ G) (hN : npages m.sz ≤ N) :
    ∃ t, (Op.load a).run E k s = .ok (m.result k (.load a), t) ∧ Sees E G N k m t := by
  obtain ⟨t, ht, hS, hacc⟩ := h.access ha hG hN false
  refine ⟨t, ?_, hS⟩
  rw [Op.run, bind_apply, ht]
  simp only [bind_apply, get_apply, pure_apply, Memory.result]
  rw [← hS.content a (ha.trans h.lt), Machine.content_present hacc.1]

theorem store (h : Sees E G N k m s) (ha : a < m.sz) (hG : a / PGSIZE ∉ G) (hN : npages m.sz ≤ N)
    (b : Byte) : ∃ t, (Op.store a b).run E k s = .ok (m.result k (.store a b), t) ∧
      Sees E G N k (m.step (.store a b)) t := by
  obtain ⟨t, ht, hS, hacc⟩ := h.access ha hG hN true
  set u := t.setFrame (PTE_ADDR (t.pte (a / PGSIZE)))
    (setByte (t.mem (PTE_ADDR (t.pte (a / PGSIZE)))) a b) with hu
  refine ⟨u, ?_, ⟨hS.wf.nodup, hS.wf.range, hS.wf.own, hS.wf.inj⟩,
    ⟨hS.supply.le, hS.supply.pages, hS.supply.enough⟩, hS.sz, hS.pos, hS.lt, fun c hc => ?_,
    hS.accessible, hS.mapped⟩
  · rw [Op.run, bind_apply, ht]
    rfl
  · rw [hu, store_content hS.wf (ha.trans h.lt) hacc.1 b hc, shows_store, hS.content c hc]

theorem sbrk_onDemand (h : Sees E G N .onDemand m s) {n : ℤ} (h0 : 0 < m.sz + n)
    (h1 : m.sz + n < (KERNBASE : ℤ)) :
    ∃ t, (Op.sbrk n).run E .onDemand s = .ok (m.result .onDemand (.sbrk n), t) ∧
      Sees E G N .onDemand (m.step (.sbrk n)) t := by
  have hadd := addSz_eq h0 h1
  refine ⟨{ s with sz := addSz s.sz n }, ?_, ⟨h.wf.nodup, h.wf.range, h.wf.own, h.wf.inj⟩,
    ⟨h.supply.le, h.supply.pages, h.supply.enough⟩, ?_, ?_, ?_, h.content, h.accessible,
    fun he => by cases he⟩
  · rw [Op.run, sysSbrk, bind_apply, bind_apply, get_apply]
    simp only [bind_apply, modify_apply, pure_apply, Memory.result, h.sz]
  · rw [h.sz]
    rfl
  · change 0 < addSz m.sz n
    omega
  · change addSz m.sz n < KERNBASE
    omega

/-- Growing shows zeros, since whatever is beyond the size has been forgotten. -/
theorem sbrk_grow (h : Sees E G N .eager m s) {n : ℤ} (hn : 0 < n)
    (h1 : m.sz + n < (KERNBASE : ℤ)) (hN : npages (addSz m.sz n) ≤ N) :
    ∃ t, (Op.sbrk n).run E .eager s = .ok (m.result .eager (.sbrk n), t) ∧
      Sees E G N .eager (m.step (.sbrk n)) t := by
  have hadd := addSz_eq (show 0 < m.sz + n by omega) h1
  set sz := addSz m.sz n with hsz
  have hle := npages_mono (show m.sz ≤ sz by omega)
  obtain ⟨t, ht, hA⟩ := allocuvm_spec h.wf h.supply (show m.sz ≤ sz by omega) (by omega) hN
    fun w hw hw' => by
      have hwu : w < UVPN := hw'.trans_le (npages_le (by omega))
      cases hp : present (s.pte w) with
      | false => rfl
      | true =>
        have := (h.mapped rfl w hwu).1 hp
        omega
  have hpres : ∀ v < UVPN, present (t.pte v) = true ↔ v < npages sz := by
    intro v hv
    by_cases hin : npages m.sz ≤ v ∧ v < npages sz
    · exact ⟨fun _ => hin.2, fun _ => (hA.inside v hin.1 hin.2).1⟩
    · rw [hA.pte v (hv.trans (by decide)) hin, h.mapped rfl v hv]
      omega
  refine ⟨{ t with sz := sz }, ?_, ⟨hA.wf.nodup, hA.wf.range, hA.wf.own, hA.wf.inj⟩,
    ⟨h.supply.le, fun v hv hp => ((hpres v hv).1 hp).trans_le hN,
      h.supply.enough.trans_eq hA.frames.symm⟩, rfl, ?_, ?_, fun c hc => ?_, fun v hv hvG hp => ?_,
    fun _ => hpres⟩
  · rw [Op.run, sysSbrk, bind_apply, bind_apply, get_apply]
    simp only [growproc, bind_apply, get_apply, h.sz, if_pos hn, ← hsz, ht]
    rw [if_neg (by omega)]
    simp only [bind_apply, modify_apply, pure_apply, ↓reduceIte, Memory.result]
  · change 0 < sz
    omega
  · change sz < KERNBASE
    omega
  · change byteAt (t.content (c / PGSIZE)) c = _
    rw [hA.content _ (page_lt_UVPN hc), h.content c hc]
    simp only [Memory.shows, Memory.forgetful, Memory.step, ← hsz]
    have hno : (decide (npages sz ≤ c / PGSIZE) && decide (c / PGSIZE < npages m.sz)) = false := by
      simp only [Bool.and_eq_false_iff, decide_eq_false_iff_not]
      omega
    rw [hno, Bool.or_false]
  · change Accessible (t.pte v)
    by_cases hin : npages m.sz ≤ v ∧ v < npages sz
    · exact hA.inside v hin.1 hin.2
    · rw [show ({ t with sz := sz } : Machine).pte v = t.pte v from rfl] at hp
      rw [hA.pte v (hv.trans (by decide)) hin] at hp ⊢
      exact h.accessible v hv hvG hp

theorem sbrk_shrink (h : Sees E G N .eager m s) {n : ℤ} (hn : n < 0) (h0 : 0 < m.sz + n)
    (hN : npages m.sz ≤ N) :
    ∃ t, (Op.sbrk n).run E .eager s = .ok (m.result .eager (.sbrk n), t) ∧
      Sees E G N .eager (m.step (.sbrk n)) t := by
  have hlt := h.lt
  have hadd := addSz_eq h0 (show m.sz + n < (KERNBASE : ℤ) by omega)
  set sz := addSz m.sz n with hsz
  have hle := npages_mono (show sz ≤ m.sz by omega)
  obtain ⟨t, ht, hD⟩ := deallocuvm_spec h.wf (show sz < m.sz by omega) h.lt.le
  have hpres : ∀ v < UVPN, present (t.pte v) = true ↔ v < npages sz := by
    intro v hv
    by_cases hin : npages sz ≤ v ∧ v < npages m.sz
    · rw [hD.inside v hin.1 hin.2]
      simp only [Bool.false_eq_true, false_iff]
      omega
    · rw [hD.pte v (hv.trans (by decide)) hin, h.mapped rfl v hv]
      omega
  refine ⟨{ t with sz := sz }, ?_, ⟨hD.wf.nodup, hD.wf.range, hD.wf.own, hD.wf.inj⟩,
    ⟨h.supply.le, fun v hv hp => ((hpres v hv).1 hp).trans_le (hle.trans hN),
      h.supply.enough.trans_eq hD.frames.symm⟩, rfl, ?_, ?_, fun c hc => ?_, fun v hv hvG hp => ?_,
    fun _ => hpres⟩
  · rw [Op.run, sysSbrk, bind_apply, bind_apply, get_apply]
    simp only [growproc, bind_apply, get_apply, h.sz, if_neg (show ¬ 0 < n by omega), if_pos hn,
      ← hsz, ht]
    rw [if_neg (by omega)]
    simp only [bind_apply, modify_apply, pure_apply, ↓reduceIte, Memory.result]
  · change 0 < sz
    omega
  · change sz < KERNBASE
    omega
  · change byteAt (t.content (c / PGSIZE)) c = _
    simp only [Memory.shows, Memory.forgetful, Memory.step, ← hsz]
    by_cases hin : npages sz ≤ c / PGSIZE ∧ c / PGSIZE < npages m.sz
    · rw [Machine.content_not_present (hD.inside _ hin.1 hin.2), byteAt_zero, decide_eq_true hin.1,
        decide_eq_true hin.2, Bool.and_self, Bool.or_true, if_pos rfl]
    · have hno : (decide (npages sz ≤ c / PGSIZE) && decide (c / PGSIZE < npages m.sz)) = false := by
        simp only [Bool.and_eq_false_iff, decide_eq_false_iff_not]
        omega
      rw [hD.content _ (page_lt_UVPN hc) hin, h.content c hc, hno, Bool.or_false]
      rfl
  · rw [show ({ t with sz := sz } : Machine).pte v = t.pte v from rfl] at hp ⊢
    have hvs := (hpres v hv).1 hp
    rw [hD.pte v (hv.trans (by decide)) (by omega)] at hp ⊢
    exact h.accessible v hv hvG hp

theorem sbrk_eager (h : Sees E G N .eager m s) {n : ℤ} (h0 : 0 < m.sz + n)
    (h1 : m.sz + n < (KERNBASE : ℤ)) (hN : npages m.sz ≤ N) (hN' : npages (addSz m.sz n) ≤ N) :
    ∃ t, (Op.sbrk n).run E .eager s = .ok (m.result .eager (.sbrk n), t) ∧
      Sees E G N .eager (m.step (.sbrk n)) t := by
  rcases lt_trichotomy n 0 with hn | rfl | hn
  · exact h.sbrk_shrink hn h0 hN
  · have hsz : addSz m.sz 0 = m.sz := by
      have := addSz_eq h0 h1
      omega
    have hstep : m.step (.sbrk 0) = m := by
      have hdropped : (m.step (.sbrk 0)).dropped = m.dropped := by
        funext a
        simp only [Memory.step, hsz]
        rw [Bool.or_eq_left_iff_imp, Bool.and_eq_true, decide_eq_true_eq, decide_eq_true_eq]
        omega
      calc m.step (.sbrk 0) = ⟨addSz m.sz 0, m.last, (m.step (.sbrk 0)).dropped⟩ := rfl
        _ = m := by rw [hsz, hdropped]
    refine ⟨s, ?_, hstep.symm ▸ h⟩
    rw [Op.run, sysSbrk, bind_apply, bind_apply, get_apply]
    simp only [growproc, bind_apply, get_apply, lt_irrefl, ↓reduceIte, pure_apply, ne_eq,
      not_true_eq_false, and_false, modify_apply, Memory.result, h.sz]
    rw [← h.sz]
  · exact h.sbrk_grow hn h1 hN'

/-- A legal run shows the results of the abstract memory. -/
theorem run (ops : List Op) (h : Sees E G N k m s) (hl : Legal G ops m.sz)
    (hN : npages (peak ops m.sz) ≤ N) :
    ∃ t, Lazy.run E k ops s = .ok (Memory.results k ops m, t) := by
  induction ops generalizing m s with
  | nil => exact ⟨s, rfl⟩
  | cons op ops ih =>
    -- one step is enough
    suffices hstep : ∃ t, op.run E k s = .ok (m.result k op, t) ∧ Sees E G N k (m.step op) t ∧
        Legal G ops (m.step op).sz ∧ npages (peak ops (m.step op).sz) ≤ N by
      obtain ⟨t, ht, hS, hl', hN'⟩ := hstep
      obtain ⟨u, hu⟩ := ih hS hl' hN'
      refine ⟨u, ?_⟩
      rw [Lazy.run, bind_apply, ht]
      simp only [bind_apply, hu, pure_apply, Memory.results]
    have hsz : npages m.sz ≤ N := (npages_mono (le_peak (op :: ops) m.sz)).trans hN
    cases op with
    | sbrk n =>
      obtain ⟨h0, h1, hl'⟩ := hl
      have hpeak : peak ops (addSz m.sz n) ≤ peak (.sbrk n :: ops) m.sz := le_max_right _ _
      have hN' := (npages_mono hpeak).trans hN
      have hnew := (npages_mono (le_peak ops (addSz m.sz n))).trans hN'
      cases k with
      | onDemand =>
        obtain ⟨t, ht, hS⟩ := h.sbrk_onDemand h0 h1
        exact ⟨t, ht, hS, hl', hN'⟩
      | eager =>
        obtain ⟨t, ht, hS⟩ := h.sbrk_eager h0 h1 hsz hnew
        exact ⟨t, ht, hS, hl', hN'⟩
    | load va =>
      obtain ⟨ha, hG, hl'⟩ := hl
      obtain ⟨t, ht, hS⟩ := h.load ha hG hsz
      exact ⟨t, ht, hS, hl', hN⟩
    | store va b =>
      obtain ⟨ha, hG, hl'⟩ := hl
      obtain ⟨t, ht, hS⟩ := h.store ha hG hsz b
      exact ⟨t, ht, hS, hl', hN⟩

end Sees

/-! ### From an initial image -/

/-- What `exec` leaves: the pages below the size are mapped and no others, in frames of
their own, and a page that the user can reach can be written. -/
structure Image (E : Env) (s : Machine) : Prop where
  wf : WF E s
  pos : 0 < s.sz
  lt : s.sz < KERNBASE
  mapped : ∀ v < UVPN, present (s.pte v) = true ↔ v < npages s.sz
  write : ∀ v < UVPN, present (s.pte v) = true → user (s.pte v) = true → writable (s.pte v) = true

/-- The guard pages of an image: the user cannot reach them. -/
def guards (s : Machine) : Set ℕ := {v | present (s.pte v) = true ∧ user (s.pte v) = false}

theorem Image.sees (h : Image E s) {N : ℕ} (hN : npages s.sz ≤ N) (hu : N ≤ UVPN)
    (hf : N + 512 ≤ s.frames) (k : Scheme) : Sees E (guards s) N k (.start s) s where
  wf := h.wf
  supply := ⟨hu, fun v hv hp => ((h.mapped v hv).1 hp).trans_le hN, hf⟩
  sz := rfl
  pos := h.pos
  lt := h.lt
  content a _ := by cases k <;> rfl
  accessible v hv hG hp := by
    have hus : user (s.pte v) = true := by
      by_contra hn
      exact hG ⟨hp, Bool.eq_false_iff.2 hn⟩
    exact ⟨hp, hus, h.write v hv hp hus⟩
  mapped _ := h.mapped

theorem peak_le (ops : List Op) (sz : ℕ) (hsz : sz < KERNBASE) (hl : Legal G ops sz) :
    peak ops sz ≤ KERNBASE := by
  induction ops generalizing sz with
  | nil => exact hsz.le
  | cons op ops ih =>
    cases op with
    | sbrk n =>
      obtain ⟨h0, h1, hl'⟩ := hl
      have := addSz_eq h0 h1
      exact max_le hsz.le (ih _ (by omega) hl')
    | load va => exact ih sz hsz hl.2.2
    | store va b => exact ih sz hsz hl.2.2

/-- With frames enough for the largest size, a process gets through every legal run under
both schemes. -/
theorem Image.runs (h : Image E s) (hl : Legal (guards s) ops s.sz)
    (hf : npages (peak ops s.sz) + 512 ≤ s.frames) (k : Scheme) :
    ∃ t, run E k ops s = .ok (Memory.results k ops (.start s), t) :=
  (h.sees (npages_mono (le_peak ops s.sz)) (npages_le (peak_le ops s.sz h.lt hl)) hf k).run ops hl
    le_rfl

/-- From every image, for every legal sequence of `sbrk`s, loads and stores, with frames
enough for the largest size: the two schemes return the same values exactly when no
load reads a byte, other than zero, whose page has been given back since it was stored. -/
theorem onDemand_eq_eager_iff (h : Image E s) (hl : Legal (guards s) ops s.sz)
    (hf : npages (peak ops s.sz) + 512 ≤ s.frames) :
    ∃ rs ts re te, run E .onDemand ops s = .ok (rs, ts) ∧ run E .eager ops s = .ok (re, te) ∧
      (rs = re ↔ ReadsFresh ops (.start s)) := by
  obtain ⟨ts, hs⟩ := h.runs hl hf .onDemand
  obtain ⟨te, he⟩ := h.runs hl hf .eager
  exact ⟨_, ts, _, te, hs, he, results_eq_iff ops (.start s)⟩

/-! ### A page given back and taken again -/

/-- 1024 frames of memory, the kernel in the first 300. -/
def demoEnv : Env := ⟨300, 1024, fun _ => 0, fun _ p => p, by decide, by decide⟩

/-- A process of one page. -/
def demo : Machine where
  mem := fun _ _ => 0#32
  freelist := List.range' 302 722
  pgdir := fun i => if i = 0 then
    some ⟨301, fun j => if j = 0 then mapPte 300 (PTE_W ||| PTE_U) else 0#32⟩ else none
  sz := PGSIZE

/-- The process grows by a page, stores a byte there, gives the page back, grows again
and loads the byte. -/
def regrow : List Op :=
  [.sbrk PGSIZE, .store PGSIZE 1#8, .sbrk (-PGSIZE), .sbrk PGSIZE, .load PGSIZE]

theorem Machine.length_le_frames (s : Machine) : s.freelist.length ≤ s.frames := by
  unfold frames
  rw [add_assoc]
  exact Nat.le_add_right _ _

theorem demo_pte : demo.pte 0 = mapPte 300 (PTE_W ||| PTE_U) := rfl

theorem demo_present (hv : v < UVPN) : present (demo.pte v) = true ↔ v = 0 := by
  constructor
  · intro hp
    have hlt : v < 2 ^ 20 := hv.trans (by decide)
    unfold Machine.pte demo at hp
    by_cases hd : pdx v = 0
    · by_cases ht : ptx v = 0
      · exact page_eq_of_index hlt (by decide) hd ht
      · simp only [hd, ↓reduceIte, ht, present_zero, Bool.false_eq_true] at hp
    · simp only [hd, ↓reduceIte, present_zero, Bool.false_eq_true] at hp
  · rintro rfl
    rw [demo_pte, present_mapPte]

theorem demo_image : Image demoEnv demo where
  wf := by
    have hfree : ∀ f ∈ demo.freelist, 302 ≤ f ∧ f < 1024 := by
      intro f hf
      have := List.mem_range'_1.1 hf
      omega
    have haddr : PTE_ADDR (demo.pte 0) = 300 := by
      rw [demo_pte]
      exact PTE_ADDR_mapPte (by decide) (by decide)
    refine ⟨List.nodup_range', fun f hf => ?_, fun v hv hp => ?_, fun v hv w hw hp hq _ => ?_⟩
    · have := hfree f hf
      exact ⟨by change 300 ≤ f; omega, this.2⟩
    · rw [(demo_present hv).1 hp, haddr]
      refine ⟨by decide, by decide, fun hf => ?_⟩
      have := hfree 300 hf
      omega
    · rw [(demo_present hv).1 hp, (demo_present hw).1 hq]
  pos := by decide
  lt := by decide
  mapped v hv := by
    rw [demo_present hv, show npages demo.sz = 1 from rfl]
    omega
  write v hv hp _ := by
    rw [(demo_present hv).1 hp, demo_pte, writable_mapPte]
    decide

theorem demo_legal : Legal (guards demo) regrow demo.sz := by
  have hG : PGSIZE / PGSIZE ∉ guards demo := by
    rintro ⟨hp, -⟩
    have := (demo_present (by decide)).1 hp
    revert this
    decide
  unfold regrow
  refine ⟨?_, ?_, ?_, hG, ?_, ?_, ?_, ?_, ?_, hG, trivial⟩
  all_goals decide +kernel

theorem demo_frames : npages (peak regrow demo.sz) + 512 ≤ demo.frames := by
  have hpeak : npages (peak regrow demo.sz) = 2 := by decide +kernel
  calc npages (peak regrow demo.sz) + 512 = 514 := by rw [hpeak]
    _ ≤ 722 := by decide
    _ = demo.freelist.length := List.length_range'.symm
    _ ≤ demo.frames := demo.length_le_frames

theorem onDemand_eq_eager_demo : ∃ rs ts re te, run demoEnv .onDemand regrow demo = .ok (rs, ts) ∧
    run demoEnv .eager regrow demo = .ok (re, te) ∧ (rs = re ↔ ReadsFresh regrow (.start demo)) :=
  onDemand_eq_eager_iff demo_image demo_legal demo_frames

/-- On-demand allocation loads the byte that was stored before the page was given back,
the eager scheme a zero. -/
theorem regrow_differs : ∃ rs ts re te, run demoEnv .onDemand regrow demo = .ok (rs, ts) ∧
    run demoEnv .eager regrow demo = .ok (re, te) ∧ rs.getLast? = some (.byte 1#8) ∧
    re.getLast? = some (.byte 0#8) ∧ rs ≠ re := by
  obtain ⟨ts, hs⟩ := demo_image.runs demo_legal demo_frames .onDemand
  obtain ⟨te, he⟩ := demo_image.runs demo_legal demo_frames .eager
  have hlast : (Memory.results .onDemand regrow (.start demo)).getLast? = some (.byte 1#8) ∧
      (Memory.results .eager regrow (.start demo)).getLast? = some (.byte 0#8) := by
    decide +kernel
  refine ⟨_, ts, _, te, hs, he, hlast.1, hlast.2, fun heq => ?_⟩
  rw [heq, hlast.2] at hlast
  exact absurd hlast.1 (by decide)

end Xv6Lab.Lazy
