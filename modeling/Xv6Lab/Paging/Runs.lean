import Xv6Lab.Paging.Preserve

/-! Runs of the machine. A step that follows no null entry pointer and does not
map over the kernel half keeps the invariant, and so does every run of such
steps. -/

namespace Xv6Lab.Paging

open Lib

variable {E : Env} {g g' : Ghost} {s t : Kernel} {p : Slot} {op : Op}

/-- The addresses an operation is made for. A fault in the kernel half is
permitted where there is no page table, since the handler then does nothing. -/
def Op.Permitted (s : Kernel) : Op → Prop
  | .pagefault p va _ => va < KERNBASE ∨ present (s.mem (s.dir p) (PDX va)) = false
  | .sysSwap _ addr => addr < KERNBASE
  | .load _ va | .store _ va _ => va < 2 ^ 32
  | _ => True

/-- The slots whose pages may hold something else afterwards. -/
def Op.changes : Op → Set Slot
  | .pagefault p _ _ | .store p _ _ | .exec p _ _ | .exit p => {p}
  | _ => ∅

theorem wp_entry {α : Type} {m : K α} {Q : α → Kernel → Prop} :
    wp (entry p m) Q s ↔ ((s.proc p).running → wp m Q s) := by
  rw [entry, wp_bind, wp_get]
  split_ifs with h
  · exact ⟨fun hm _ => hm, fun hm => hm h⟩
  · rw [wp_throw]
    exact ⟨fun _ hr => absurd hr h, fun _ => trivial⟩

theorem entry_running {α : Type} {m : K α} {r : α × Kernel} (h : entry p m s = .ok r) :
    (s.proc p).running := by
  rw [entry, bind_apply, get_apply] at h
  simp only at h
  split_ifs at h with hp
  · exact hp
  · rw [throw_apply] at h
    cases h

theorem page_lt_UVPN {va : ℕ} (h : va < KERNBASE) : va / PGSIZE < UVPN := by
  simp only [UVPN, PGSIZE, KERNBASE] at h ⊢
  omega

theorem takeFault_goes (hst : E.strict = true) (hI : Inv E g s) (hp : (s.proc p).running) {va : ℕ}
    {write : Bool} (hok : (Op.pagefault p va write).Permitted s) :
    wp (takeFault E p va write) (fun _ t => ∃ g', Goes E {p} s g' t) s := by
  rw [takeFault, wp_bind, wp_get]
  split_ifs with hf
  · rw [handlePgfault, wp_bind, wp_get]
    refine wp_mono (mapAddress_touches hst hI.base (hI.space p hp.live) (PGROUNDDOWN_lt hf.1) ?_) ?_
    · rw [PGROUNDDOWN_div]
      rw [Op.Permitted, PDX_eq] at hok
      exact hok.imp_left page_lt_UVPN
    · rintro - t ⟨g', h⟩
      exact ⟨g', hI.touches hp.live h⟩
  · simp

/-- What one operation does. -/
theorem Op.run_goes (hst : E.strict = true) (hI : Inv E g s) (hok : op.Permitted s) :
    wp (op.run E) (fun _ t => ∃ g', Goes E op.changes s g' t) s := by
  cases op with
  | pagefault p va write =>
    refine wp_entry.2 fun hp => ?_
    simp only [wp_bind, wp_pure]
    exact takeFault_goes hst hI hp hok
  | swapPage p =>
    refine wp_entry.2 fun hp => ?_
    simp only [wp_bind, wp_get, wp_pure]
    refine wp_mono (swapPage_lives hst hI.base (hI.space p hp.live)) ?_
    rintro - t ⟨g', h⟩
    exact ⟨g', hI.lives hp.live h⟩
  | sysSwap p addr =>
    refine wp_entry.2 fun hp => ?_
    simp only [wp_bind, wp_pure]
    refine wp_mono (sysSwap_lives hst hI.base (hI.space p hp.live)
      (hok.trans (by decide : KERNBASE < 2 ^ 32)) fun _ => hok) ?_
    rintro - t ⟨g', h, -⟩
    exact ⟨g', hI.lives hp.live h⟩
  | sbrk p n =>
    refine wp_entry.2 fun hp => ?_
    simp only [wp_bind, wp_pure]
    exact wp_mono (growproc_goes hI hp n) fun _ t h => ⟨g, h⟩
  | fork p =>
    refine wp_entry.2 fun hp => ?_
    simp only [wp_bind, wp_pure]
    exact fork_goes hst hI hp
  | exec p ip argv =>
    refine wp_entry.2 fun hp => ?_
    simp only [wp_bind, wp_pure]
    exact exec_goes hst hI hp ip argv
  | exit p =>
    refine wp_entry.2 fun hp => ?_
    simp only [wp_bind, wp_pure]
    exact exit_goes hI hp
  | wait p =>
    refine wp_entry.2 fun hp => ?_
    simp only [wp_bind, wp_pure]
    exact wait_goes hI
  | file acts =>
    rw [Op.run]
    simp only [wp_bind, wp_pure]
    refine wp_mono (fileActs_spec acts hI.base) ?_
    rintro - t ⟨g', h⟩
    exact ⟨g', (hI.fileStep h).1⟩
  | load p va =>
    refine wp_entry.2 fun hp => ?_
    simp only [wp_bind, wp_pure]
    refine wp_mono (userLoad_spec hI.base (hI.space p hp.live) hok) ?_
    rintro - t ⟨g', h, -⟩
    exact ⟨g', hI.lives hp.live h⟩
  | store p va b =>
    refine wp_entry.2 fun hp => ?_
    simp only [wp_bind, wp_pure]
    refine wp_mono (userStore_spec hI.base (hI.space p hp.live) hok) ?_
    rintro - t ⟨g', h, -⟩
    exact ⟨g', hI.touches hp.live h⟩

/-- A permitted step that follows no null entry pointer. -/
theorem Step.goes (h : Step E s op t) (hn : FollowsNoNull E s op) (hI : Inv E g s)
    (hok : op.Permitted s) : ∃ g', Goes E op.changes s g' t := by
  obtain ⟨r, hr⟩ := h.stop hn
  obtain ⟨g', hG⟩ := Op.run_goes rfl hI.stopAtNull hok r t hr
  exact ⟨g', hG.inv.of_stopAtNull, hG.kept⟩

/-- The invariant with the owners left out. -/
def Sound (E : Env) (s : Kernel) : Prop := ∃ g, Inv E g s

/-- The steps that the invariant survives. -/
def Safe (E : Env) (s : Kernel) (op : Op) : Prop := op.Permitted s ∧ FollowsNoNull E s op

theorem Sound.step (h : Sound E s) (hs : Safe E s op) (hst : Step E s op t) : Sound E t := by
  obtain ⟨g, hI⟩ := h
  obtain ⟨g', hG⟩ := hst.goes hs.2 hI hs.1
  exact ⟨g', hG.inv⟩

theorem Sound.run (h : Sound E s) (hr : Lib.Run (Step E) (Safe E) s t) : Sound E t :=
  hr.invariant h fun hP hg hs => hP.step hg hs

end Xv6Lab.Paging
