import Mathlib.Order.Bounds.Basic
import Xv6Lab.Sched.Coherent

/-! Process ids: which slots hold which, and what the lookups by pid find. -/

namespace Xv6Lab.Sched

variable {ncpu : ℕ} {v : Variant} {s t : Kernel ncpu} {e : Event ncpu} {c : Fin ncpu}
  {i j p q : Slot} {d : ℤ} {l : List (Kernel ncpu × Event ncpu)}

/-- A fork to which pid `d` was given has failed in slot `i`, which has not been taken
since. -/
def Leftover (l : List (Kernel ncpu × Event ncpu)) (i : Slot) (d : ℤ) : Prop :=
  Lib.Since (fun x => Drops x i ∧ (x.1.proc i).pid = d) (fun x => Takes x i) l

/-- The pids of the table. -/
structure PidsOk (s : Kernel ncpu) : Prop where
  next : 0 < s.nextpid
  nonneg : ∀ i, 0 ≤ (s.proc i).pid
  lt : ∀ i, (s.proc i).pid < s.nextpid
  pos : ∀ {i}, (s.proc i).state ≠ .UNUSED → 0 < (s.proc i).pid
  inj : ∀ {i j}, (s.proc i).pid = (s.proc j).pid → (s.proc i).pid ≠ 0 → i = j

theorem Change.pid {q : Proc} (hq : Change v s e i q) :
    q.pid = (s.proc i).pid ∨ Takes (s, e) i ∧ q.pid = s.nextpid ∨
      Reaps (s, e) i ∧ q.pid = 0 ∧ q.state = .UNUSED := by
  cases hq with
  | woken _ hw => cases hw <;> exact .inl rfl
  | taken hk _ => exact .inr (.inl ⟨hk, rfl⟩)
  | reaped hr _ => exact .inr (.inr ⟨hr, rfl, rfl⟩)
  | own _ _ ho => exact .inl ho.pid
  | _ => exact .inl rfl

/-- A slot in use was in use before the step, or has just been taken. -/
theorem Change.inUse {q : Proc} (hq : Change v s e i q) (hs : q.state ≠ .UNUSED) (h : Coherent s) :
    (s.proc i).state ≠ .UNUSED ∨ Takes (s, e) i := by
  cases hq with
  | woken _ hw =>
    cases hw with
    | idle _ _ => exact .inl hs
    | woken _ _ h => exact .inl (by simp [h])
  | killed _ _ => exact .inl hs
  | killedAsleep _ h => exact .inl (by simp [h])
  | taken hk _ => exact .inr hk
  | dropped _ => simp at hs
  | filled _ _ _ => exact .inl hs
  | published hp =>
    obtain ⟨c, a, -, -, hk⟩ := hp
    exact .inl (by simp [@h.child a i (by rw [hk]; rfl)])
  | reaped _ _ => simp [Proc.reap] at hs
  | dispatched _ h => exact .inl (by simp [h])
  | own q ha _ =>
    cases e with
    | wakeup n => cases ha
    | scheduler c => cases ha
    | timer c user => exact .inl (by simp [h.running (show s.cpu c = some i from ha)])
    | run c a => exact .inl (by simp [h.running (show s.cpu c = some i from ha)])

theorem boot_pids : PidsOk (Kernel.boot : Kernel ncpu) where
  next := by simp [Kernel.boot]
  nonneg i := by by_cases h : i = 0 <;> simp [Kernel.boot, h, Proc.zero, Proc.take]
  lt i := by by_cases h : i = 0 <;> simp [Kernel.boot, h, Proc.zero, Proc.take]
  pos {i} := by by_cases h : i = 0 <;> simp [Kernel.boot, h, Proc.zero, Proc.take]
  inj {i j} := by
    by_cases hi : i = 0 <;> by_cases hj : j = 0 <;>
      simp [Kernel.boot, hi, hj, Proc.zero, Proc.take]

theorem PidsOk.step (h : PidsOk s) (hc : Coherent s) (ht : Step v s e t) : PidsOk t := by
  have hch := fun i => ht.change hc i
  have hnext := ht.nextpid hc
  have hle : s.nextpid ≤ t.nextpid := by rcases hnext with ⟨h, -⟩ | ⟨h, -⟩ <;> omega
  have hlt : ∀ i, Takes (s, e) i → t.nextpid = s.nextpid + 1 := by
    intro i hk
    rcases hnext with ⟨-, h⟩ | ⟨h, -⟩
    · exact absurd hk (h i)
    · exact h
  have hn := h.next
  refine ⟨by omega, fun i => ?_, fun i => ?_, fun {i} hs => ?_, fun {i j} hij h0 => ?_⟩
  · have := h.nonneg i
    rcases (hch i).pid with hp | ⟨-, hp⟩ | ⟨-, hp, -⟩ <;> omega
  · have := h.lt i
    rcases (hch i).pid with hp | ⟨hk, hp⟩ | ⟨-, hp, -⟩
    · omega
    · have := hlt i hk
      omega
    · omega
  · rcases (hch i).pid with hp | ⟨-, hp⟩ | ⟨-, -, hp⟩
    · rcases (hch i).inUse hs hc with hu | hk
      · rw [hp]
        exact h.pos hu
      · rw [hk.taken hc ht]
        exact hn
    · omega
    · exact absurd hp hs
  · have hi := h.lt i
    have hj := h.lt j
    rcases (hch i).pid with hpi | ⟨hki, hpi⟩ | ⟨-, hpi, -⟩ <;>
      rcases (hch j).pid with hpj | ⟨hkj, hpj⟩ | ⟨-, hpj, -⟩ <;> try omega
    · rw [hpi, hpj] at hij
      exact h.inj hij (hpi ▸ h0)
    · exact hki.unique hkj

theorem History.pids (h : History v l s) : PidsOk s := by
  refine (h.invariant (P := fun s => Coherent s ∧ PidsOk s) ⟨boot_coherent, boot_pids⟩ ?_).2
  exact fun hs ht => ⟨hs.1.step ht, hs.2.step hs.1 ht⟩

/-- `fork` gives its slot up with the pid in it. -/
theorem Drops.dropped (hc : Coherent s) (hd : Drops (s, e) i) (ht : Step v s e t) :
    t.proc i = { s.proc i with state := .UNUSED } := by
  have hdrop : ∀ p, (s.proc p).context.child = some i →
      (s.dropChild p i).proc i = { s.proc i with state := .UNUSED } := by
    intro p hk
    simp [Kernel.dropChild, Kernel.goto, Kernel.set_of_ne _ _ (hc.child_ne hk)]
  obtain ⟨c, p, hp, ⟨he, hk⟩ | ⟨he, hk⟩⟩ := hd <;>
  · obtain rfl : e = _ := he
    obtain ⟨q, hq, ht⟩ := ht.of_run
    obtain rfl : p = q := Option.some.inj (hp.symm.trans hq)
    have hk : (s.proc p).context = _ := hk
    unfold Kernel.act at ht
    rw [hk] at ht
    cases ht
    exact hdrop p (by rw [hk]; rfl)

/-- A slot that was UNUSED and is not taken stays so, with its pid. -/
theorem Change.unused {q : Proc} (hq : Change v s e i q) (hc : Coherent s)
    (hs : (s.proc i).state = .UNUSED) (hk : ¬ Takes (s, e) i) :
    q.state = .UNUSED ∧ q.pid = (s.proc i).pid := by
  have hu : q.state = .UNUSED := by
    by_contra hne
    rcases hq.inUse hne hc with h | h
    · exact h hs
    · exact hk h
  refine ⟨hu, ?_⟩
  rcases hq.pid with h | ⟨h, -⟩ | ⟨⟨c, p, -, -, hz⟩, -⟩
  · exact h
  · exact absurd h hk
  · have := (findZombie_some hz).2
    rw [hs] at this
    cases this

/-- How a slot comes to be UNUSED. -/
theorem Change.of_unused {q : Proc} (hq : Change v s e i q) (hs : q.state = .UNUSED) :
    (s.proc i).state = .UNUSED ∨ Drops (s, e) i ∨ Reaps (s, e) i := by
  cases hq with
  | woken _ hw =>
    cases hw with
    | idle _ _ => exact .inl hs
    | woken _ _ _ => cases hs
  | killed _ _ => exact .inl hs
  | killedAsleep _ _ => cases hs
  | taken _ _ => cases hs
  | dropped hd => exact .inr (.inl hd)
  | filled _ _ _ => exact .inl hs
  | published _ => cases hs
  | reaped hr _ => exact .inr (.inr hr)
  | dispatched _ _ => cases hs
  | own _ _ ho => exact absurd hs ho.state.1

/-- What the pid field of an UNUSED slot holds. -/
structure DeadPids (l : List (Kernel ncpu × Event ncpu)) (s : Kernel ncpu) : Prop where
  left : ∀ {i d}, Leftover l i d → (s.proc i).state = .UNUSED ∧ (s.proc i).pid = d ∧ 0 < d
  dead : ∀ {i}, (s.proc i).state = .UNUSED → (s.proc i).pid = 0 ∨ Leftover l i (s.proc i).pid

theorem DeadPids.step (h : DeadPids l s) (hc : Coherent s) (hp : PidsOk s) (ht : Step v s e t) :
    DeadPids (l ++ [(s, e)]) t where
  left := by
    intro i d hl
    rcases Lib.since_snoc.mp hl with ⟨hd, hd'⟩ | ⟨hl, hk⟩
    · rw [hd.dropped hc ht]
      obtain ⟨c, p, -, ⟨-, hk⟩ | ⟨-, hk⟩⟩ := hd <;>
      · have hem := @hc.child p i (by rw [hk]; rfl)
        have := hp.pos (i := i) (by simp [hem])
        exact ⟨rfl, hd', hd' ▸ this⟩
    · obtain ⟨hs, hpid, h0⟩ := h.left hl
      obtain ⟨h1, h2⟩ := (ht.change hc i).unused hc hs hk
      exact ⟨h1, by rw [h2, hpid], h0⟩
  dead := by
    intro i hs
    have hk : ¬ Takes (s, e) i := by
      intro hk
      rw [hk.taken hc ht] at hs
      cases hs
    rcases (ht.change hc i).of_unused hs with hu | hd | hr
    · rw [((ht.change hc i).unused hc hu hk).2]
      exact (h.dead hu).imp_right fun hl => Lib.since_snoc.mpr (.inr ⟨hl, hk⟩)
    · refine .inr (Lib.since_snoc.mpr (.inl ⟨hd, ?_⟩))
      rw [hd.dropped hc ht]
    · rw [(hr.reaped hc ht).2]
      exact .inl rfl

theorem History.deadPids (h : History v l s) : DeadPids l s := by
  refine h.history (P := DeadPids) ⟨fun hl => ?_, fun {i} _ => .inl ?_⟩ fun hl hd ht =>
    hd.step (History.coherent hl) (History.pids hl) ht
  · exact absurd hl (Lib.not_since_nil _ _)
  · by_cases hi : i = 0
    · subst hi
      simp [Kernel.boot] at *
    · simp [Kernel.boot, hi, Proc.zero]

/-- Init never leaves its slot. -/
def InitLives (s : Kernel ncpu) : Prop :=
  (s.proc s.initproc).state ≠ .UNUSED ∧ (s.proc s.initproc).state ≠ .EMBRYO ∧
    (s.proc s.initproc).state ≠ .ZOMBIE ∧ ¬ (s.proc s.initproc).context.exiting

theorem InitLives.step (h : InitLives s) (hc : Coherent s) (ht : Step v s e t) : InitLives t := by
  obtain ⟨hu, hem, hz, hx⟩ := h
  have hch := ht.change hc s.initproc
  unfold InitLives
  rw [ht.initproc hc]
  have hembryo : ∀ {p : Slot}, (s.proc p).context.child ≠ some s.initproc := fun hk =>
    hem (hc.child hk)
  generalize t.proc s.initproc = q at hch
  cases hch with
  | woken _ hw =>
    cases hw with
    | idle _ _ => exact ⟨hu, hem, hz, hx⟩
    | woken _ _ _ => exact ⟨by simp, by simp, by simp, hx⟩
  | killed _ _ => exact ⟨hu, hem, hz, hx⟩
  | killedAsleep _ _ => exact ⟨by simp, by simp, by simp, hx⟩
  | taken _ h => exact absurd h hu
  | dropped hd =>
    obtain ⟨c, p, -, ⟨-, hk⟩ | ⟨-, hk⟩⟩ := hd <;> exact absurd (by rw [hk]; rfl) (hembryo (p := p))
  | filled _ _ hf =>
    obtain ⟨c, p, -, -, hk⟩ := hf
    exact absurd (by rw [hk]; rfl) (hembryo (p := p))
  | published hp =>
    obtain ⟨c, p, -, -, hk⟩ := hp
    exact absurd (by rw [hk]; rfl) (hembryo (p := p))
  | reaped _ h => exact absurd h hz
  | dispatched _ _ => exact ⟨by simp, by simp, by simp, hx⟩
  | own q _ ho =>
    refine ⟨ho.state.1, ho.state.2, fun h => hx (ho.zombie h), fun h => ?_⟩
    rcases ho.exit h with h | h
    · exact hx h
    · exact h rfl

theorem History.initLives (h : History v l s) : InitLives s := by
  refine (h.invariant (P := fun s => Coherent s ∧ InitLives s) ⟨boot_coherent, ?_⟩ ?_).2
  · simp [InitLives, Kernel.boot, Context.exiting]
  · exact fun hs ht => ⟨hs.1.step ht, hs.2.step hs.1 ht⟩

/-- Init keeps its pid. -/
theorem History.init_pid (h : History v l s) : (s.proc s.initproc).pid = 1 := by
  induction h with
  | nil => rfl
  | snoc hl ht ih =>
    have hc := History.coherent hl
    obtain ⟨hu, -, hz, -⟩ := History.initLives hl
    rw [ht.initproc hc]
    rcases (ht.change hc _).pid with hp | ⟨hk, -⟩ | ⟨hr, -⟩
    · exact hp.trans ih
    · exact absurd hk.state hu
    · exact absurd (hr.reaped hc ht).1 hz

end Xv6Lab.Sched
