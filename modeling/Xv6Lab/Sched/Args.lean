import Xv6Lab.Calls.Caller
import Xv6Lab.Sched.Countdown

/-! Arguments of the system calls of the assignment (`syscall.c`, `sysproc.c`). The wrappers
fetch integers with `argptr`, which checks the integer as an address, and a failed check
leaves the local that was to hold the argument as it was. -/

namespace Xv6Lab.Sched

open Calls

variable {ncpu : ℕ} {v : Variant} {s t u : Kernel ncpu} {e : Event ncpu} {c : Fin ncpu}
  {p : Slot} {l : List (Kernel ncpu × Event ncpu)}

/-- The bytes that `getProcInfo` writes through `pif`, in its order. -/
def ProcessInfo.writes (pif : Word) (info : ProcessInfo) : List (Word × BitVec 8) :=
  let int (off : Word) (x : ℤ) : List (Word × BitVec 8) :=
    (List.range 4).map fun k =>
      (pif + off + BitVec.ofNat 32 k, (BitVec.ofInt 32 x).extractLsb' (8 * k) 8)
  int 0#32 info.ppid ++ int 8#32 info.numberContextSwitches ++ int 4#32 info.psize

/-- `sys_getProcInfo`: the result and the bytes written. `pid` and `pif` are what the two
locals hold at first, `atNull` the word that a null `p->parent` leads to. -/
def sysGetProcInfo (t : Table) (u : Caller) (pid pif : Word) (atNull : ℤ) :
    ℤ × List (Word × BitVec 8) :=
  let r := t.getProcInfo atNull (u.fetchLocal 0#32 pid).toInt
  (r.1, (r.2.map fun info => info.writes (u.fetchLocal 1#32 pif)).getD [])

/-- `sys_set_burst_time` of the process that runs on processor `c`. -/
def sysSetBurstTime (v : Variant) (s : Kernel ncpu) (c : Fin ncpu) (u : Caller) (n : Word) :
    Option (Kernel ncpu × ℤ) :=
  (s.step v (.run c (.set_burst_time (Int32.ofBitVec (u.fetchLocal 0#32 n))))).map fun t => (t, 0)

/-- `get_burst_time` on processor `c`. -/
def Kernel.get_burst_time (s : Kernel ncpu) (c : Fin ncpu) : Option ℤ :=
  (s.cpu c).map fun p => (s.proc p).burst_time

/-! ### Integers -/

/-- The burst time of slot `p` may change. -/
def MovesBurst (v : Variant) (x : Kernel ncpu × Event ncpu) (p : Slot) : Prop :=
  CallsSet x p ∨ CallsDec x p ∨ Takes x p ∨ v = .g17hybrid ∧ Preempts x p

theorem Step.burst_kept (h : Coherent s) (ht : Step v s e t) (hm : ¬ MovesBurst v (s, e) p) :
    (t.proc p).burst_time = (s.proc p).burst_time := by
  unfold MovesBurst at hm
  push Not at hm
  obtain ⟨hset, hdec, htake, hpre⟩ := hm
  cases v with
  | g17hybrid => rw [ht.burst h hset hdec htake, if_neg (hpre rfl)]
  | g17 =>
    by_cases ha : actor s e = some p
    · cases e with
      | wakeup n => cases ha
      | scheduler c => cases ha
      | timer c user =>
        refine (ht.stays h ha ?_ ?_).2
        · rintro ⟨d, ⟨n, he⟩ | ⟨bt, he⟩ | ⟨he, -⟩⟩ <;> cases he
        · rintro ⟨d, q, -, he, -⟩
          cases he
      | run c a =>
        obtain ⟨q, hc, ht⟩ := ht.of_run
        obtain rfl : p = q := Option.some.inj (ha.symm.trans hc)
        refine act_burst h hc ht ?_ ?_
        · rintro bt rfl
          exact hset ⟨c, bt, rfl, hc⟩
        · rintro rfl
          exact hdec ⟨c, rfl, hc⟩
    · have hch := ht.change h p
      generalize t.proc p = q at hch
      cases hch with
      | woken _ hw => cases hw <;> rfl
      | taken hk _ => exact absurd hk htake
      | own _ ha' _ => exact absurd ha' ha
      | _ => rfl

theorem burst_kept (h : Coherent s) (hr : Lib.Trace (Step v) s l t)
    (hm : ∀ x ∈ l, ¬ MovesBurst v x p) :
    Coherent t ∧ (t.proc p).burst_time = (s.proc p).burst_time := by
  induction hr with
  | nil => exact ⟨h, rfl⟩
  | @snoc l t u e _ hs ih =>
    obtain ⟨hc, hb⟩ := ih fun x hx => hm x (List.mem_append_left _ hx)
    exact ⟨hc.step hs, (hs.burst_kept hc (hm (t, e) (by simp))).trans hb⟩

/-- `set_burst_time` called with `n` stores `n`, which `get_burst_time` returns until the burst
time changes, or fails and leaves it as it was; what the local held does not matter. -/
def StoresExactly (v : Variant) (s : Kernel ncpu) (c : Fin ncpu) (p : Slot) (u : Caller) (n : Word) :
    Prop :=
  ∀ garbage t r, sysSetBurstTime v s c u garbage = some (t, r) →
    r = -1 ∧ (t.proc p).burst_time = (s.proc p).burst_time ∨
    (t.proc p).burst_time = n.toInt ∧ ∀ l w d, Lib.Trace (Step v) t l w →
      (∀ x ∈ l, ¬ MovesBurst v x p) → w.cpu d = some p → w.get_burst_time d = some n.toInt

/-- `getProcInfo` called with pid `n` looks up `n` or returns -1, whatever the locals held. -/
def LooksUpExactly (t : Table) (u : Caller) (n : Word) : Prop :=
  ∀ pid pif atNull, u.fetchLocal 0#32 pid = n ∨ (sysGetProcInfo t u pid pif atNull).1 = -1

theorem step_set_burst_time (v : Variant) (hc : s.cpu c = some p)
    (hk : (s.proc p).context = .syscall) (bt : Int32) :
    ∃ t, s.step v (.run c (.set_burst_time bt)) = some t ∧ (t.proc p).burst_time = bt.toInt := by
  have hact : s.act v c p (.set_burst_time bt) =
      some (((s.set p fun q => { q with burst_time := bt.toInt }).goto p .ret).yield c p) := by
    unfold Kernel.act
    rw [hk]
  have hstep : s.step v (.run c (.set_burst_time bt)) = s.act v c p (.set_burst_time bt) := by
    change ((s.cpu c).bind fun p => s.act v c p (.set_burst_time bt)) = _
    rw [hc, Option.bind_some]
  refine ⟨_, hstep.trans hact, ?_⟩
  unfold Kernel.yield Kernel.goto
  rw [Kernel.leave_proc, Kernel.set_self, Kernel.set_self, Kernel.set_self]

theorem sysSetBurstTime_eq (hc : s.cpu c = some p) (hk : (s.proc p).context = .syscall) (u : Caller)
    (garbage : Word) : ∃ t, sysSetBurstTime v s c u garbage = some (t, 0) ∧
      Step v s (.run c (.set_burst_time (Int32.ofBitVec (u.fetchLocal 0#32 garbage)))) t ∧
      (t.proc p).burst_time = (u.fetchLocal 0#32 garbage).toInt := by
  obtain ⟨t, ht, hb⟩ := step_set_burst_time v hc hk (Int32.ofBitVec (u.fetchLocal 0#32 garbage))
  refine ⟨t, ?_, ht, hb⟩
  unfold sysSetBurstTime
  rw [ht]
  rfl

/-- Two words, one of them not `n`. -/
theorem exists_ne_toInt (n : Word) : ∃ g : Word, g.toInt ≠ n.toInt := by
  by_cases h : n = 0#32
  · subst h
    exact ⟨1#32, by decide⟩
  · exact ⟨0#32, fun he => h (BitVec.eq_of_toInt_eq he).symm⟩

theorem storesExactly_iff (h : Coherent s) (hc : s.cpu c = some p)
    (hk : (s.proc p).context = .syscall) {u : Caller} {n : Word} (hn : u.argint 0#32 = some n) :
    StoresExactly v s c p u n ↔ u.Passes n := by
  constructor
  · intro hs
    by_contra hno
    obtain ⟨g, hg⟩ := exists_ne_toInt n
    obtain ⟨t, ht, -, hb⟩ := sysSetBurstTime_eq (v := v) hc hk u g
    rw [Caller.fetchLocal_eq hn, if_neg hno] at hb
    rcases hs g t 0 ht with ⟨h0, -⟩ | ⟨hb', -⟩
    · cases h0
    · exact hg (hb.symm.trans hb')
  · intro hp garbage t r ht
    right
    obtain ⟨t', ht', hstep, hb⟩ := sysSetBurstTime_eq (v := v) hc hk u garbage
    rw [ht'] at ht
    cases ht
    rw [Caller.fetchLocal_eq hn, if_pos hp] at hb
    refine ⟨hb, fun l w d hr hm hd => ?_⟩
    unfold Kernel.get_burst_time
    rw [hd, Option.map_some, (burst_kept (h.step hstep) hr hm).2, hb]

theorem sysGetProcInfo_found {t : Table} {u : Caller} {pid : Word} (pif : Word) (atNull : ℤ)
    (h : ∃ i, (t i).pid = (u.fetchLocal 0#32 pid).toInt) :
    ∃ info : ProcessInfo, sysGetProcInfo t u pid pif atNull =
      (0, info.writes (u.fetchLocal 1#32 pif)) := by
  have hne : t.findPid (u.fetchLocal 0#32 pid).toInt ≠ none := by
    rw [Ne, findPid_none]
    obtain ⟨i, hi⟩ := h
    exact fun hno => hno i hi
  obtain ⟨p, hp⟩ := Option.ne_none_iff_exists'.mp hne
  unfold sysGetProcInfo Table.getProcInfo
  simp only [hp, Option.map_some, Option.getD_some]
  exact ⟨_, rfl⟩

theorem sysGetProcInfo_missed {t : Table} {u : Caller} {pid : Word} (pif : Word) (atNull : ℤ)
    (h : ∀ i, (t i).pid ≠ (u.fetchLocal 0#32 pid).toInt) :
    sysGetProcInfo t u pid pif atNull = (-1, []) := by
  unfold sysGetProcInfo Table.getProcInfo
  simp only [findPid_none.mpr h]
  rfl

theorem looksUpExactly_iff (h : History v l s) {u : Caller} {n pif : Word}
    (hn : u.argint 0#32 = some n) (hp : u.argint 1#32 = some pif) :
    LooksUpExactly s.proc u n ↔ u.Passes n := by
  constructor
  · intro hl
    by_contra hno
    -- the local held the pid of init
    have hfetch : u.fetchLocal 0#32 1#32 = 1#32 := by
      rw [Caller.fetchLocal_eq hn, if_neg hno]
    obtain ⟨info, hinfo⟩ := sysGetProcInfo_found (t := s.proc) (u := u) pif 0
      ⟨s.initproc, h.init_pid.trans (by rw [hfetch]; rfl)⟩
    rcases hl 1#32 pif 0 with he | he
    · rw [hfetch] at he
      subst he
      exact hno (Caller.passes_one hn hp)
    · rw [hinfo] at he
      cases he
  · intro hpass pid pif atNull
    left
    rw [Caller.fetchLocal_eq hn, if_pos hpass]

/-- Integer arguments arrive exactly if they pass for the address of an int in user memory. -/
theorem int_arguments_intact_iff (h : History v l s) (hc : s.cpu c = some p)
    (hk : (s.proc p).context = .syscall) {u : Caller} {n : Word} (hn : u.argint 0#32 = some n) :
    (StoresExactly v s c p u n ↔ n < u.sz ∧ n + 4#32 ≤ u.sz) ∧
      ∀ pif, u.argint 1#32 = some pif →
        (LooksUpExactly s.proc u n ↔ n < u.sz ∧ n + 4#32 ≤ u.sz) :=
  ⟨storesExactly_iff (History.coherent h) hc hk hn, fun _ hp => looksUpExactly_iff h hn hp⟩

/-! ### The pointer -/

/-- `sys_getProcInfo` writes below the size of its caller only, and refuses a pointer that does
not have twelve bytes below it. -/
structure Confined (t : Table) (u : Caller) (pif : Word) : Prop where
  inside : ∀ g₀ g₁ atNull, ∀ x ∈ (sysGetProcInfo t u g₀ g₁ atNull).2, x.1 < u.sz
  refused : ¬ pif.toNat + 12 ≤ u.sz.toNat → ∀ g₀ g₁ atNull,
    sysGetProcInfo t u g₀ g₁ atNull = (-1, [])

/-- The twelve bytes of the structure. -/
theorem ProcessInfo.writes_inside {pif sz : Word} {info : ProcessInfo}
    (h : pif.toNat + 12 ≤ sz.toNat) {x : Word × BitVec 8} (hx : x ∈ info.writes pif) : x.1 < sz := by
  have hoff : ∀ off k : ℕ, off ≤ 8 → k < 4 →
      pif + BitVec.ofNat 32 off + BitVec.ofNat 32 k < sz := by
    intro off k ho hk
    bv_omega
  unfold writes at hx
  simp only [List.mem_append, List.mem_map, List.mem_range] at hx
  rcases hx with (⟨k, hk, rfl⟩ | ⟨k, hk, rfl⟩) | ⟨k, hk, rfl⟩
  · exact hoff 0 k (by omega) hk
  · exact hoff 8 k (by omega) hk
  · exact hoff 4 k (by omega) hk

/-- A call of `sys_getProcInfo` stays inside the memory of its caller exactly if its pointer has
room for the structure below `sz`, or it names, by an integer that passes for an address, a pid
that no slot has. -/
theorem getProcInfo_confined_iff (h : History v l s) {u : Caller} {n pif : Word}
    (hn : u.argint 0#32 = some n) (hp : u.argint 1#32 = some pif) :
    Confined s.proc u pif ↔ pif.toNat + 12 ≤ u.sz.toNat ∨
      (n < u.sz ∧ n + 4#32 ≤ u.sz) ∧ ∀ i, (s.proc i).pid ≠ n.toInt := by
  constructor
  · intro hcon
    by_contra hno
    rw [not_or] at hno
    obtain ⟨hroom, hno⟩ := hno
    have hfound : ∃ g, ∃ i, (s.proc i).pid = (u.fetchLocal 0#32 g).toInt := by
      by_cases hpass : u.Passes n
      · have hpid : ∃ i, (s.proc i).pid = n.toInt := by
          by_contra hall
          exact hno ⟨hpass, fun i hi => hall ⟨i, hi⟩⟩
        refine ⟨0#32, ?_⟩
        rwa [Caller.fetchLocal_eq hn, if_pos hpass]
      · refine ⟨1#32, s.initproc, ?_⟩
        rw [Caller.fetchLocal_eq hn, if_neg hpass, h.init_pid]
        rfl
    obtain ⟨g, hg⟩ := hfound
    obtain ⟨info, hinfo⟩ := sysGetProcInfo_found pif 0 hg
    have href := hcon.refused hroom g pif 0
    rw [hinfo] at href
    cases href
  · rintro (hroom | ⟨hpass, hall⟩)
    · have hpass : u.Passes pif := by
        unfold Caller.Passes
        bv_omega
      refine ⟨fun g₀ g₁ atNull x hx => ?_, fun hno => absurd hroom hno⟩
      by_cases hpid : ∃ i, (s.proc i).pid = (u.fetchLocal 0#32 g₀).toInt
      · obtain ⟨info, hinfo⟩ := sysGetProcInfo_found g₁ atNull hpid
        rw [hinfo, Caller.fetchLocal_eq hp, if_pos hpass] at hx
        exact info.writes_inside hroom hx
      · rw [sysGetProcInfo_missed g₁ atNull fun i hi => hpid ⟨i, hi⟩] at hx
        cases hx
    · have hmissed : ∀ g₀ g₁ atNull, sysGetProcInfo s.proc u g₀ g₁ atNull = (-1, []) := by
        intro g₀ g₁ atNull
        apply sysGetProcInfo_missed
        rwa [Caller.fetchLocal_eq hn, if_pos (show u.Passes n from hpass)]
      refine ⟨fun g₀ g₁ atNull x hx => ?_, fun _ => hmissed⟩
      rw [hmissed] at hx
      cases hx

/-! ### Calls by init -/

/-- A system call with the arguments `a` and `b`, made by a process of one page. -/
def callWith (a b : Word) : Caller where
  sz := 4096#32
  esp := 4080#32
  mem addr := (if addr < 4088#32 then a else b).extractLsb' (8 * (addr.toNat % 4)) 8

theorem exists_syscall (v : Variant) : ∃ (l : List (Kernel 1 × Event 1)) (s : Kernel 1),
    History v l s ∧ s.cpu 0 = some 0 ∧ (s.proc 0).context = .syscall ∧ (s.proc 0).sz = 4096 ∧
      (s.proc 0).pid = 1 := by
  have hplay : ((Kernel.boot.play v [.scheduler 0, .run 0 .ret, .run 0 .syscall]).map fun s =>
      decide ((s : Kernel 1).cpu 0 = some 0 ∧ (s.proc 0).context = .syscall ∧
        (s.proc 0).sz = 4096 ∧ (s.proc 0).pid = 1)) = some true := by
    cases v <;> decide +kernel
  obtain ⟨s, hs, hp⟩ := Option.map_eq_some_iff.mp hplay
  obtain ⟨l, -, h⟩ := Lib.Trace.of_foldlM hs
  exact ⟨l, s, h, of_decide_eq_true hp⟩

theorem int_arguments_intact_seven : ∃ (l : List (Kernel 1 × Event 1)) (s : Kernel 1),
    History .g17 l s ∧ StoresExactly .g17 s 0 0 (callWith 7#32 0#32) 7#32 ∧
      LooksUpExactly s.proc (callWith 7#32 0#32) 7#32 := by
  obtain ⟨l, s, h, hc, hk, -, -⟩ := exists_syscall .g17
  have hn : (callWith 7#32 0#32).argint 0#32 = some 7#32 := by decide
  have hp : (callWith 7#32 0#32).argint 1#32 = some 0#32 := by decide
  have hiff := int_arguments_intact_iff h hc hk hn
  exact ⟨l, s, h, hiff.1.2 (by decide), (hiff.2 0#32 hp).2 (by decide)⟩

/-- `set_burst_time(-1)`. -/
theorem int_argument_lost : ∃ (l : List (Kernel 1 × Event 1)) (s : Kernel 1),
    History .g17 l s ∧ s.cpu 0 = some 0 ∧ (s.proc 0).context = .syscall ∧
      (callWith (-1#32) 0#32).argint 0#32 = some (-1#32) ∧
      ¬ StoresExactly .g17 s 0 0 (callWith (-1#32) 0#32) (-1#32) := by
  obtain ⟨l, s, h, hc, hk, -, -⟩ := exists_syscall .g17
  have hn : (callWith (-1#32) 0#32).argint 0#32 = some (-1#32) := by decide
  refine ⟨l, s, h, hc, hk, hn, fun hs => ?_⟩
  exact absurd ((storesExactly_iff (History.coherent h) hc hk hn).1 hs) (by decide)

theorem getProcInfo_confined_below : ∃ (l : List (Kernel 1 × Event 1)) (s : Kernel 1),
    History .g17 l s ∧ Confined s.proc (callWith 1#32 4000#32) 4000#32 := by
  obtain ⟨l, s, h, -⟩ := exists_syscall .g17
  have hn : (callWith 1#32 4000#32).argint 0#32 = some 1#32 := by decide
  have hp : (callWith 1#32 4000#32).argint 1#32 = some 4000#32 := by decide
  exact ⟨l, s, h, (getProcInfo_confined_iff h hn hp).2 (.inl (by decide))⟩

/-- `getProcInfo(1, pif)` with `pif` four bytes below the end of memory. -/
theorem getProcInfo_writes_beyond : ∃ (l : List (Kernel 1 × Event 1)) (s : Kernel 1),
    History .g17 l s ∧ s.cpu 0 = some 0 ∧ (s.proc 0).context = .syscall ∧
      (callWith 1#32 4092#32).argint 1#32 = some 4092#32 ∧
      ¬ Confined s.proc (callWith 1#32 4092#32) 4092#32 := by
  obtain ⟨l, s, h, hc, hk, -, hpid⟩ := exists_syscall .g17
  have hp : (callWith 1#32 4092#32).argint 1#32 = some 4092#32 := by decide
  have hfetch : (callWith 1#32 4092#32).fetchLocal 0#32 0#32 = 1#32 := by decide
  refine ⟨l, s, h, hc, hk, hp, fun hcon => ?_⟩
  obtain ⟨info, hinfo⟩ := sysGetProcInfo_found 0#32 0
    ⟨0, hpid.trans (by rw [hfetch]; rfl)⟩
  have href := hcon.refused (by decide) 0#32 0#32 0
  rw [hinfo] at href
  cases href

end Xv6Lab.Sched
