import Xv6Lab.Sched.Pids

/-! What `allocproc` finds in the slot it takes. It resets some of the fields and relies on
`wait` for `killed`, which `kill` writes in any slot. -/

namespace Xv6Lab.Sched

variable {ncpu : ℕ} {v : Variant} {s t : Kernel ncpu} {e : Event ncpu} {i p : Slot}
  {l : List (Kernel ncpu × Event ncpu)}

/-- `kill` has hit slot `i` and no `wait` has freed it since. -/
def Hit (l : List (Kernel ncpu × Event ncpu)) (i : Slot) : Prop :=
  Lib.Since (fun x => Kills x i) (fun x => Reaps x i) l

/-- `allocproc` or `fork` returns the process in slot `i`. -/
def Returns (x : Kernel ncpu × Event ncpu) (i : Slot) : Prop :=
  ∃ c p, x.1.cpu c = some p ∧
    ((x.2 = .run c (.kalloc true) ∧ (x.1.proc p).context = .kalloc i) ∨
      (x.2 = .run c .publish ∧ (x.1.proc p).context = .publish i))

/-- A process as it should start: it has been killed only by a `kill` of its own pid, among
the steps `l` taken since it got its slot. -/
structure StartsClean (l : List (Kernel ncpu × Event ncpu)) (s : Kernel ncpu) (i : Slot) : Prop
    where
  killed : (s.proc i).killed = true → ∃ y ∈ l, Kills y i
  burst_time : (s.proc i).burst_time = 0
  count_contextswitch : (s.proc i).count_contextswitch = 0
  pid : ∀ j ≠ i, (s.proc j).state ≠ .UNUSED → (s.proc j).pid ≠ (s.proc i).pid

theorem act_kill {c : Fin ncpu} {pid : ℤ} (ht : s.act v c p (.kill pid) = some t) :
    t = (s.kill pid).goto p .ret := by
  replace ht := acts ht
  cases ht with
  | kill _ ht => exact ht

theorem Kills.killed (hk : Kills (s, e) i) (ht : Step v s e t) : (t.proc i).killed = true := by
  obtain ⟨c, pid, he, hf⟩ := hk
  obtain rfl : e = _ := he
  obtain ⟨p, hc, ht⟩ := ht.of_run
  obtain rfl := act_kill ht
  by_cases hi : i = p
  · subst hi
    simp [Kernel.goto, Kernel.kill, kill_apply hf]
  · simp [Kernel.goto, Kernel.kill, Kernel.set_of_ne _ _ hi, kill_apply hf]

/-- The fields of a slot that no process runs in, after a step that does not free it. -/
theorem Change.dormant {q : Proc} (hq : Change v s e i q) (hc : Coherent s)
    (hs : q.state = .UNUSED ∨ q.state = .EMBRYO) (hr : ¬ Reaps (s, e) i) :
    ((s.proc i).state = .UNUSED ∨ (s.proc i).state = .EMBRYO) ∧
      (Kills (s, e) i ∨ q.killed = (s.proc i).killed) ∧
      (q.state = .EMBRYO → Takes (s, e) i ∨ (s.proc i).state = .EMBRYO ∧
        q.burst_time = (s.proc i).burst_time ∧
          q.count_contextswitch = (s.proc i).count_contextswitch) := by
  cases hq with
  | woken _ hw =>
    cases hw with
    | idle _ _ => exact ⟨hs, .inr rfl, fun h => .inr ⟨h, rfl, rfl⟩⟩
    | woken _ _ _ => simp at hs
  | killed hk _ => exact ⟨hs, .inl hk, fun h => .inr ⟨h, rfl, rfl⟩⟩
  | killedAsleep _ _ => simp at hs
  | taken hk hu => exact ⟨.inl hu, .inr rfl, fun _ => .inl hk⟩
  | dropped hd =>
    obtain ⟨c, a, -, ⟨-, hk⟩ | ⟨-, hk⟩⟩ := hd <;>
      exact ⟨.inr (@hc.child a i (by rw [hk]; rfl)), .inr rfl, fun h => by cases h⟩
  | filled _ _ _ => exact ⟨hs, .inr rfl, fun h => .inr ⟨h, rfl, rfl⟩⟩
  | published _ => simp at hs
  | reaped h _ => exact absurd h hr
  | dispatched _ _ => simp at hs
  | own q _ ho => exact absurd hs (not_or.mpr ho.state)

/-- `killed` and the history of the slots that no process runs in. -/
structure Dormant (l : List (Kernel ncpu × Event ncpu)) (s : Kernel ncpu) : Prop where
  killed : ∀ {i}, (s.proc i).state = .UNUSED ∨ (s.proc i).state = .EMBRYO →
    ((s.proc i).killed = true ↔ Hit l i)
  fresh : ∀ {i}, (s.proc i).state = .EMBRYO →
    (s.proc i).burst_time = 0 ∧ (s.proc i).count_contextswitch = 0
  born : ∀ {i}, (s.proc i).state = .EMBRYO → ∃ l₁ x l₂, l = l₁ ++ x :: l₂ ∧ Takes x i ∧
    ∀ y ∈ l₂, ¬ Takes y i ∧ ¬ Reaps y i

theorem Dormant.step (h : Dormant l s) (hc : Coherent s) (ht : Step v s e t) :
    Dormant (l ++ [(s, e)]) t where
  killed := by
    intro i hs
    unfold Hit
    rw [Lib.since_snoc]
    by_cases hr : Reaps (s, e) i
    · have hk : ¬ Kills (s, e) i := by
        obtain ⟨c, p, -, he, -⟩ := hr
        obtain rfl : e = _ := he
        simp [Kills]
      simp [(hr.reaped hc ht).2, Proc.reap, hk, hr]
    · obtain ⟨hs', hkilled, -⟩ := (ht.change hc i).dormant hc hs hr
      by_cases hk : Kills (s, e) i
      · simp [hk, hk.killed ht]
      · rw [hkilled.resolve_left hk, h.killed hs']
        simp [hk, hr, Hit]
  fresh := by
    intro i hs
    have hr : ¬ Reaps (s, e) i := fun hr => by
      rw [(hr.reaped hc ht).2] at hs
      cases hs
    obtain ⟨-, -, hem⟩ := (ht.change hc i).dormant hc (.inr hs) hr
    rcases hem hs with hk | ⟨hem, hb, hn⟩
    · rw [hk.taken hc ht]
      exact ⟨rfl, rfl⟩
    · rw [hb, hn]
      exact h.fresh hem
  born := by
    intro i hs
    have hr : ¬ Reaps (s, e) i := fun hr => by
      rw [(hr.reaped hc ht).2] at hs
      cases hs
    obtain ⟨-, -, hem⟩ := (ht.change hc i).dormant hc (.inr hs) hr
    rcases hem hs with hk | ⟨hem, -, -⟩
    · exact ⟨l, (s, e), [], rfl, hk, by simp⟩
    · obtain ⟨l₁, x, l₂, rfl, hx, hno⟩ := h.born hem
      refine ⟨l₁, x, l₂ ++ [(s, e)], by simp, hx, fun y hy => ?_⟩
      rcases List.mem_append.mp hy with hy | hy
      · exact hno y hy
      · rw [List.mem_singleton.mp hy]
        refine ⟨fun hk => ?_, hr⟩
        rw [hk.state] at hem
        cases hem

theorem History.dormant (h : History v l s) : Dormant l s := by
  refine h.history (P := Dormant) ⟨fun {i} _ => ?_, fun {i} hs => ?_, fun {i} hs => ?_⟩
    fun hl hd ht => hd.step (History.coherent hl) ht
  · have hno : ¬ Hit ([] : List (Kernel ncpu × Event ncpu)) i := Lib.not_since_nil _ _
    by_cases hi : i = 0 <;> simp [Kernel.boot, hi, Proc.zero, Proc.take, hno]
    simpa [hi] using hno
  all_goals
    by_cases hi : i = 0 <;> simp [Kernel.boot, hi, Proc.zero, Proc.take] at hs

/-- The process that `allocproc` or `fork` returns, as it was in its slot just before. -/
theorem Returns.child (hc : Coherent s) (hr : Returns (s, e) i) (ht : Step v s e t) :
    (s.proc i).state = .EMBRYO ∧ (t.proc i).state ≠ .UNUSED ∧
      (t.proc i).killed = (s.proc i).killed ∧ (t.proc i).burst_time = (s.proc i).burst_time ∧
      (t.proc i).count_contextswitch = (s.proc i).count_contextswitch := by
  obtain ⟨c, p, hp, ⟨he, hk⟩ | ⟨he, hk⟩⟩ := hr <;>
  · obtain rfl : e = _ := he
    obtain ⟨q, hq, ht⟩ := ht.of_run
    obtain rfl : p = q := Option.some.inj (hp.symm.trans hq)
    have hk : (s.proc p).context = _ := hk
    have hchild : (s.proc p).context.child = some i := by rw [hk]; rfl
    have hem := hc.child hchild
    have hne := hc.child_ne hchild
    unfold Kernel.act at ht
    rw [hk] at ht
    cases ht
    simp [Kernel.goto, Kernel.set_of_ne _ _ hne, hem]

/-- A new process starts clean exactly if no `kill` that has hit its slot is left over from
before the slot was taken, or else a `kill` has named its own pid. -/
theorem starts_clean_iff (h : History v l s) (ht : Step v s e t) (hr : Returns (s, e) i) :
    ∃ l₁ x l₂, l = l₁ ++ x :: l₂ ∧ Takes x i ∧ (∀ y ∈ l₂, ¬ Takes y i) ∧
      (StartsClean l₂ t i ↔ (Hit l₁ i → ∃ y ∈ l₂, Kills y i)) := by
  have hc := History.coherent h
  have hd := h.dormant
  obtain ⟨hem, hlive, hkd, hbt, hsw⟩ := hr.child hc ht
  obtain ⟨l₁, x, l₂, rfl, hx, hno⟩ := hd.born hem
  have hkilled := hd.killed (.inr hem)
  have hpids : PidsOk t := History.pids (Lib.Trace.snoc h ht)
  -- the kills since the last `wait` are those before and those after the slot was taken
  have hhit : Hit (l₁ ++ x :: l₂) i ↔ Hit l₁ i ∨ ∃ y ∈ l₂, Kills y i := by
    have hxk : ¬ Kills x i := by
      obtain ⟨c, he, -⟩ := hx
      simp [Kills, he]
    have hxr : ¬ Reaps x i := by
      obtain ⟨c, he, -⟩ := hx
      simp [Reaps, he]
    unfold Hit
    rw [Lib.since_append_of_not]
    · simp [hxk]
    · rintro y (_ | ⟨_, hy⟩)
      · exact hxr
      · exact (hno y hy).2
  refine ⟨l₁, x, l₂, rfl, hx, fun y hy => (hno y hy).1, ?_⟩
  constructor
  · intro hcl hh
    exact hcl.killed (by rw [hkd, hkilled, hhit]; exact .inl hh)
  · intro hh
    refine ⟨fun hk => ?_, by rw [hbt, (hd.fresh hem).1], by rw [hsw, (hd.fresh hem).2],
      fun j hj hs hpid => hj (hpids.inj hpid (hpids.pos hs).ne')⟩
    rw [hkd, hkilled, hhit] at hk
    exact hk.elim hh id

/-- The first process kills pid 0, that of the unused slots, and calls `fork`. -/
theorem exists_killed_child (v : Variant) :
    ∃ (l : List (Kernel 1 × Event 1)) (s₀ s t : Kernel 1), History v l s₀ ∧
      Step v s₀ (.run 0 .allocproc) s ∧ Takes (s₀, .run 0 .allocproc) 1 ∧
      Step v s (.run 0 (.kalloc true)) t ∧ Returns (s, .run 0 (.kalloc true)) 1 ∧
      (t.proc 1).killed = true := by
  have hplay : (((Kernel.boot : Kernel 1).play v [.scheduler 0, .run 0 .ret, .run 0 .syscall,
      .run 0 (.kill 0), .run 0 .ret, .run 0 .syscall]).bind fun s₀ => (s₀.step v (.run 0 .allocproc)).bind fun s =>
        (s.step v (.run 0 (.kalloc true))).map fun t =>
          decide (s₀.proc.findUnused = some 1 ∧ s.cpu 0 = some 0 ∧
            (s.proc 0).context = .kalloc 1 ∧ (t.proc 1).killed = true)) = some true := by
    cases v <;> decide +kernel
  obtain ⟨s₀, hs₀, hplay⟩ := Option.bind_eq_some_iff.mp hplay
  obtain ⟨s, hs, hplay⟩ := Option.bind_eq_some_iff.mp hplay
  obtain ⟨t, ht, hp⟩ := Option.map_eq_some_iff.mp hplay
  obtain ⟨hu, hc, hk, hkilled⟩ := of_decide_eq_true hp
  obtain ⟨l, -, h⟩ := Lib.Trace.of_foldlM hs₀
  exact ⟨l, s₀, s, t, h, hs, ⟨0, rfl, hu⟩, ht, ⟨0, 0, hc, .inl ⟨rfl, hk⟩⟩, hkilled⟩

theorem starts_clean_iff_killed_child :
    ∃ (l : List (Kernel 1 × Event 1)) (s t : Kernel 1) (e : Event 1) (i : Slot),
      History .g17 l s ∧ Step .g17 s e t ∧ Returns (s, e) i ∧
      ∃ l₁ x l₂, l = l₁ ++ x :: l₂ ∧ Takes x i ∧ (∀ y ∈ l₂, ¬ Takes y i) ∧
        (StartsClean l₂ t i ↔ (Hit l₁ i → ∃ y ∈ l₂, Kills y i)) := by
  obtain ⟨l, s₀, s, t, h, hs, -, ht, hr, -⟩ := exists_killed_child .g17
  exact ⟨_, s, t, _, 1, .snoc h hs, ht, hr, starts_clean_iff (.snoc h hs) ht hr⟩

/-- The child of a fork can start killed although no `kill` has named its pid. -/
theorem not_starts_clean : ∃ (l : List (Kernel 1 × Event 1)) (s t : Kernel 1) (e : Event 1) (i : Slot),
    History .g17 l s ∧ Step .g17 s e t ∧ Returns (s, e) i ∧
      ¬ ∃ l₁ x l₂, l = l₁ ++ x :: l₂ ∧ Takes x i ∧ (∀ y ∈ l₂, ¬ Takes y i) ∧ StartsClean l₂ t i := by
  obtain ⟨l, s₀, s, t, h, hs, htake, ht, hr, hkilled⟩ := exists_killed_child .g17
  refine ⟨_, s, t, _, 1, .snoc h hs, ht, hr, ?_⟩
  rintro ⟨l₁, x, l₂, hl, -, hno, hclean⟩
  -- the slot was taken in the last step, so nothing has happened since
  have hnil : l₂ = [] := by
    induction l₂ using List.reverseRecOn with
    | nil => rfl
    | append_singleton l₂ y _ =>
      rw [← List.cons_append, ← List.append_assoc] at hl
      obtain ⟨-, hy⟩ := List.append_inj' hl rfl
      rw [← (List.cons.inj hy).1] at hno
      exact absurd htake (hno _ (by simp))
  obtain ⟨y, hy, -⟩ := hclean.killed hkilled
  simp [hnil] at hy

end Xv6Lab.Sched
