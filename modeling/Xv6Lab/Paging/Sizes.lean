import Xv6Lab.Paging.Procs

/-! The sizes of the processes. Whatever the kernel is asked to do, in any order,
no process grows beyond `KERNBASE`. -/

namespace Xv6Lab.Paging

open Lib

variable {E : Env} {s : Kernel} {p : Slot} {d : ℕ}

/-- The user memory of every process lies below `KERNBASE`. -/
def Sized (s : Kernel) : Prop := ∀ p, (s.proc p).sz ≤ KERNBASE

theorem Sized.congr {t : Kernel} (h : Sized s) (ht : ∀ p, (t.proc p).sz = (s.proc p).sz) :
    Sized t := fun p => (ht p).le.trans (h p)

theorem Sized.setProc (h : Sized s) {x : Proc} (hx : x.sz ≤ KERNBASE) : Sized (s.setProc p x) := by
  intro q
  rw [Kernel.setProc_proc, Function.update_apply]
  split_ifs
  · exact hx
  · exact h q

theorem Preserves.sized {α : Type} {m : K α} (hm : KeepsProcs m) (h : Sized s) :
    wp m (fun _ t => Sized t) s :=
  wp_mono (hm s) fun _ _ ht => h.congr fun p => by rw [ht]

/-! ### The size of a new image -/

theorem allocuvmLoop_result {newsz oldsz : ℕ} (n v : ℕ) (s : Kernel) :
    wp (allocuvmLoop E d newsz oldsz n v) (fun r _ => r = 0 ∨ r = newsz) s := by
  induction n generalizing v s with
  | zero =>
    rw [allocuvmLoop, wp_pure]
    exact .inr rfl
  | succ n ih =>
    unfold allocuvmLoop
    rw [wp_bind]
    intro r t hr
    cases r with
    | none =>
      simp only [wp_bind, wp_pure]
      exact fun _ _ _ => .inl trivial
    | some mem =>
      simp only [wp_bind]
      intro _ t1 _ ok t2 _
      split_ifs
      · exact ih _ _
      · simp only [wp_bind, wp_pure]
        exact fun _ _ _ _ _ _ => .inl trivial

/-- `allocuvm` fails or answers the larger of the two sizes, below `KERNBASE` if it grows. -/
theorem allocuvm_result (oldsz newsz : ℕ) (s : Kernel) :
    wp (allocuvm E d oldsz newsz)
      (fun r _ => r = 0 ∨ newsz < KERNBASE ∧ r = max oldsz newsz) s := by
  unfold allocuvm
  split_ifs with hk hn
  · rw [wp_pure]
    exact .inl rfl
  · rw [wp_pure]
    exact .inr ⟨not_le.1 hk, (max_eq_left hn.le).symm⟩
  · refine wp_mono (allocuvmLoop_result _ _ s) fun r _ hr => ?_
    apply hr.imp_right
    rintro rfl
    exact ⟨not_le.1 hk, (max_eq_right (not_lt.1 hn)).symm⟩

theorem allocuvm_lt {oldsz : ℕ} (h : oldsz < KERNBASE) (newsz : ℕ) (s : Kernel) :
    wp (allocuvm E d oldsz newsz) (fun r _ => r < KERNBASE) s := by
  refine wp_mono (allocuvm_result oldsz newsz s) ?_
  rintro r - (rfl | ⟨hn, rfl⟩)
  · exact Nat.zero_lt_of_lt h
  · exact max_lt h hn

theorem loadSegments_lt (ip : Image) (phs : List (Option ProgHdr)) {sz : ℕ} (h : sz < KERNBASE)
    (s : Kernel) : wp (loadSegments E d ip phs sz) (fun r _ => ∀ n ∈ r, n < KERNBASE) s := by
  induction phs generalizing sz s with
  | nil =>
    rw [loadSegments, wp_pure]
    rintro n ⟨⟩
    exact h
  | cons ph phs ih =>
    cases ph with
    | none =>
      rw [loadSegments, wp_pure]
      rintro n ⟨⟩
    | some ph =>
      unfold loadSegments
      split_ifs
      · exact ih h s
      · rw [wp_pure]
        rintro n ⟨⟩
      · rw [wp_pure]
        rintro n ⟨⟩
      · rw [wp_bind]
        refine wp_mono (allocuvm_lt h _ s) fun sz' t _ => ?_
        split_ifs <;> (rw [wp_pure]; rintro n ⟨⟩)
      · rw [wp_bind]
        refine wp_mono (allocuvm_lt h _ s) fun sz' t hsz => ?_
        split_ifs
        · rw [wp_pure]
          rintro n ⟨⟩
        · rw [wp_bind]
          intro ok t2 _
          split_ifs
          · exact ih hsz t2
          · rw [wp_pure]
            rintro n ⟨⟩

/-- The second call in `exec` rounds its old size up, so that it may start at
`KERNBASE` itself; it then fails. -/
theorem allocuvm_stack (oldsz : ℕ) (s : Kernel) :
    wp (allocuvm E d oldsz (oldsz + 2 * PGSIZE))
      (fun r _ => r = 0 ∨ r = oldsz + 2 * PGSIZE ∧ r < KERNBASE) s := by
  refine wp_mono (allocuvm_result oldsz _ s) fun r _ hr => hr.imp_right ?_
  rintro ⟨hn, rfl⟩
  rw [max_eq_right (Nat.le_add_right _ _)]
  exact ⟨rfl, hn⟩

theorem buildImage_lt (cur pid cursz d : ℕ) (ip : Image) (argv : List ℕ) (s : Kernel) :
    wp (buildImage E cur pid cursz d ip argv) (fun r _ => ∀ n ∈ r, n < KERNBASE) s := by
  unfold buildImage
  rw [wp_bind]
  refine wp_mono (loadSegments_lt ip ip.phdrs (by decide) s) fun r t hr => ?_
  cases r with
  | none =>
    rw [wp_pure]
    rintro n ⟨⟩
  | some sz =>
    simp only [wp_bind]
    intro _ t1 _
    refine wp_mono (allocuvm_stack _ t1) fun sz' t2 hsz' => ?_
    split_ifs with h0
    · rw [wp_pure]
      rintro n ⟨⟩
    · simp only [wp_bind]
      intro _ t3 _ r t4 _
      cases r with
      | none =>
        rw [wp_pure]
        rintro n ⟨⟩
      | some r =>
        simp only [wp_bind]
        intro ok t5 _
        split_ifs
        · rw [wp_pure]
          rintro n ⟨⟩
          exact (hsz'.resolve_left h0).2
        · rw [wp_pure]
          rintro n ⟨⟩

theorem buildImage_procs (cur pid cursz d : ℕ) (ip : Image) (argv : List ℕ) :
    KeepsProcs (buildImage E cur pid cursz d ip argv) := by
  unfold buildImage
  apply (loadSegments_procs d ip _ _).bind
  intro r
  cases r with
  | none => exact preserves_pure _
  | some sz =>
    apply (fileLayer_procs _).bind
    intro _
    apply (allocuvm_procs d _ _).bind
    intro sz'
    apply (preserves_pure _).ite
    apply (clearpteu_procs d _).bind
    intro _
    apply (pushArgs_procs cur pid cursz d argv sz' []).bind
    intro r
    cases r with
    | none => exact preserves_pure _
    | some r =>
      apply (copyout_procs cur d (fun k => preserves_pure _) _ _ _).bind
      exact fun ok => (preserves_pure _).ite (preserves_pure _)

/-! ### The kernel entries -/

theorem growproc_sized (h : Sized s) (p : Slot) (n : ℤ) :
    wp (growproc p n) (fun _ t => Sized t) s := by
  unfold growproc
  rw [wp_bind, wp_get]
  simp only
  split_ifs with hn
  · rw [wp_pure]
    exact h
  · rw [wp_modify]
    apply h.setProc
    simp only
    omega

theorem allocproc_sized (h : Sized s) : wp (allocproc E) (fun _ t => Sized t) s := by
  unfold allocproc
  rw [wp_bind, wp_get]
  cases findSlot fun p => (s.proc p).state = .UNUSED with
  | none =>
    rw [wp_pure]
    exact h
  | some p =>
    have h1 := h.setProc (p := p) (x := { s.proc p with state := .EMBRYO, pid := s.nextpid }) (h p)
    simp only [wp_bind, wp_modify]
    refine wp_mono (Preserves.sized kalloc_procs (s := { s.setProc p _ with nextpid := _ }) h1)
      fun r t ht => ?_
    cases r with
    | none =>
      simp only [wp_bind, wp_modify, wp_pure]
      exact ht.setProc (h p)
    | some k =>
      simp only [wp_bind, wp_modify, wp_pure]
      exact ht.setProc (h p)

theorem fork_sized (h : Sized s) (cur : Slot) : wp (fork E cur) (fun _ t => Sized t) s := by
  unfold fork
  rw [wp_bind]
  refine wp_mono (allocproc_sized h) fun r t ht => ?_
  cases r with
  | none =>
    rw [wp_pure]
    exact ht
  | some np =>
    simp only [wp_bind, wp_get]
    refine wp_mono (Preserves.sized (copyuvm_procs _ _ _) ht) fun r t1 h1 => ?_
    cases r with
    | none =>
      simp only [wp_bind, wp_modify]
      exact wp_mono (Preserves.sized (kfree_procs _) h1) fun _ t2 h2 => h2.setProc (ht np)
    | some d =>
      simp only [wp_modify]
      exact h1.setProc (ht cur)

theorem exit_sized (h : Sized s) (cur : Slot) : wp (exit E cur) (fun _ t => Sized t) s := by
  unfold exit
  rw [wp_bind, wp_get]
  split_ifs
  · rw [wp_throw]
    trivial
  · simp only [wp_bind, wp_modify]
    refine wp_mono (Preserves.sized (fileLayer_procs _) h) fun _ t ht => ht.congr fun q => ?_
    simp only
    split_ifs <;> rfl

theorem wait_sized (h : Sized s) (cur : Slot) : wp (wait E cur) (fun _ t => Sized t) s := by
  unfold wait
  rw [wp_bind, wp_get]
  cases findSlot fun q => (s.proc q).parent = some cur ∧ (s.proc q).state = .ZOMBIE with
  | none =>
    rw [wp_pure]
    exact h
  | some q =>
    simp only [wp_bind, wp_modify]
    refine wp_mono (Preserves.sized (kfree_procs _) h) fun _ t ht => ?_
    exact Preserves.sized (freevm_procs _) (ht.setProc (h q))

theorem exec_sized (h : Sized s) (p : Slot) (ip : Image) (argv : List ℕ) :
    wp (exec E p ip argv) (fun _ t => Sized t) s := by
  unfold exec
  rw [wp_bind, wp_get]
  split_ifs
  · rw [wp_pure]
    exact h
  · rw [wp_bind]
    refine wp_mono (Preserves.sized setupkvm_procs h) fun r t ht => ?_
    cases r with
    | none =>
      rw [wp_pure]
      exact ht
    | some d =>
      rw [wp_bind]
      refine wp_mono (wp_and (buildImage_lt _ _ _ d ip argv t)
        (Preserves.sized (buildImage_procs _ _ _ d ip argv) ht)) ?_
      rintro r t1 ⟨hr, h1⟩
      cases r with
      | none => exact Preserves.sized (freevm_procs d) h1
      | some sz =>
        simp only [wp_bind, wp_modify]
        exact Preserves.sized (freevm_procs _) (h1.setProc (hr sz rfl).le)

theorem entry_sized {α : Type} {m : K α} (h : wp m (fun _ t => Sized t) s) :
    wp (entry p m) (fun _ t => Sized t) s := by
  rw [entry, wp_bind, wp_get]
  split_ifs
  · exact h
  · rw [wp_throw]
    trivial

/-- Every operation keeps the sizes of all processes within the user half. -/
theorem Op.run_sized (h : Sized s) (op : Op) : wp (op.run E) (fun _ t => Sized t) s := by
  cases op with
  | pagefault p va write =>
    apply entry_sized
    simp only [wp_bind, wp_pure, takeFault, wp_get]
    split_ifs
    · exact Preserves.sized (handlePgfault_procs p va) h
    · rw [wp_throw]
      trivial
  | swapPage p =>
    apply entry_sized
    simp only [wp_bind, wp_get, wp_pure]
    exact Preserves.sized (swapPage_procs _ _) h
  | sysSwap p addr =>
    apply entry_sized
    simp only [wp_bind, wp_pure]
    exact Preserves.sized (sysSwap_procs p addr) h
  | sbrk p n =>
    apply entry_sized
    simp only [wp_bind, wp_pure]
    exact growproc_sized h p n
  | fork p =>
    apply entry_sized
    simp only [wp_bind, wp_pure]
    exact fork_sized h p
  | exec p ip argv =>
    apply entry_sized
    simp only [wp_bind, wp_pure]
    exact exec_sized h p ip argv
  | exit p =>
    apply entry_sized
    simp only [wp_bind, wp_pure]
    exact exit_sized h p
  | wait p =>
    apply entry_sized
    simp only [wp_bind, wp_pure]
    exact wait_sized h p
  | file acts =>
    simp only [Op.run, wp_bind, wp_pure]
    exact Preserves.sized (fileActs_procs acts) h
  | load p va =>
    apply entry_sized
    simp only [wp_bind, wp_pure]
    exact Preserves.sized (userLoad_procs p va) h
  | store p va b =>
    apply entry_sized
    simp only [wp_bind, wp_pure]
    exact Preserves.sized (userStore_procs p va b) h

/-! ### Boot -/

theorem powerOn_sized (E : Env) (mem : ℕ → Page) (block : ℕ → Block) :
    Sized (E.powerOn mem block) := fun _ => Nat.zero_le KERNBASE

theorem inituvm_procs (d : ℕ) (init : Page) : KeepsProcs (inituvm E d init) := by
  unfold inituvm
  apply kalloc_procs.bind
  intro r
  cases r with
  | none => exact preserves_throw _
  | some mem => exact (mappages_procs d _ _ _ _).bind fun _ => setFrame_procs mem init

theorem boot_sized (h : Sized s) (init : Page) : wp (boot E init) (fun _ t => Sized t) s := by
  unfold boot
  rw [wp_bind]
  refine wp_mono (Preserves.sized setupkvm_procs h) fun r t ht => ?_
  cases r with
  | none =>
    rw [wp_throw]
    trivial
  | some k =>
    simp only [wp_bind, wp_modify]
    refine wp_mono (allocproc_sized (ht.congr fun _ => rfl)) fun r t1 h1 => ?_
    cases r with
    | none =>
      rw [wp_throw]
      trivial
    | some p =>
      simp only [wp_bind, wp_modify]
      refine wp_mono (Preserves.sized setupkvm_procs (h1.congr fun _ => rfl)) fun r t2 h2 => ?_
      cases r with
      | none =>
        rw [wp_throw]
        trivial
      | some d =>
        simp only [wp_bind, wp_modify]
        refine wp_mono (Preserves.sized (inituvm_procs d init) (h2.setProc (h2 p))) ?_
        exact fun _ t3 h3 => h3.setProc (show PGSIZE ≤ KERNBASE by decide)

end Xv6Lab.Paging
