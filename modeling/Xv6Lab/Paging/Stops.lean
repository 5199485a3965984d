import Xv6Lab.Paging.Entries

/-! How the copy of an address space can stop without returning. When the pages that
it reaches have been touched, the only panic left is that of a full disk. -/

namespace Xv6Lab.Paging

open Disk Lib

variable {E : Env} {g g' : Ghost} {s t : Kernel} {c d v m n hi pid : ℕ} {perm : Word}

/-- The disk is full, or the file layer has been asked for something impossible. -/
def Halt.Disk (e : Halt) : Prop := e = .panic "balloc: out of blocks" ∨ e = .illegal

theorem balloc_stops (s : Kernel) : stops (balloc E.size) Halt.Disk s := by
  exact fun e he => .inl (Disk.balloc_stops E.size s e he)

theorem ballocPage_stops (s : Kernel) : stops (ballocPage E.size) Halt.Disk s := by
  rw [ballocPage, stops_bind]
  refine ⟨fun e he => .inl (ballocPageLoop_stops E.size _ _ _ s e he), ?_⟩
  refine wp_mono (ballocPageLoop_spec _ 0 [] s (Tried.start E.size s)) ?_
  rintro alloc t (h | h)
  swap
  · omega
  rw [stops_bind]
  exact ⟨stops_of_eq h.bfreeAll, fun _ _ _ => by simp⟩

theorem fileAct_stops (hB : Base E g s) (a : FileAct) : stops (fileAct E a) Halt.Disk s := by
  cases a with
  | balloc =>
    rw [fileAct, stops_bind]
    exact ⟨balloc_stops s, fun _ _ _ => by simp⟩
  | bfree b =>
    simp only [fileAct, stops_bind, stops_get, wp_get, true_and]
    split_ifs with hb
    · have hbit : s.bit b = true := hB.used b (by rw [(hB.files b).1 hb]; simp)
      simp only [stops_bind, stops_modify, wp_modify, true_and]
      exact stops_of_eq (bfree_of_used hbit)
    · rw [stops_throw]
      exact .inr rfl
  | write b data =>
    simp only [fileAct, stops_bind, stops_get, wp_get, true_and]
    split_ifs
    · simp
    · rw [stops_throw]
      exact .inr rfl

theorem fileActs_stops (as : List FileAct) (hB : Base E g s) :
    stops (fileActs E as) Halt.Disk s := by
  induction as generalizing g s with
  | nil => simp [fileActs]
  | cons a as ih =>
    rw [fileActs, stops_bind]
    refine ⟨fileAct_stops hB a, wp_mono (fileAct_spec hB a) ?_⟩
    rintro - t ⟨g', h⟩
    exact ih h.base

theorem fileLayer_stops (hB : Base E g s) (k : FsCall) :
    stops (fileLayer E k) Halt.Disk s := by
  simp only [fileLayer, stops_bind, stops_get, wp_get, true_and]
  exact fileActs_stops _ hB

theorem writeParts_stops (frame blk : ℕ) (is : List (Fin 8)) (hB : Base E g s) :
    stops (writeParts E frame blk is) Halt.Disk s := by
  induction is generalizing g s with
  | nil => simp [writeParts]
  | cons i is ih =>
    simp only [writeParts, stops_bind, stops_get, wp_get, true_and]
    refine ⟨fileLayer_stops hB _, wp_mono (fileLayer_spec hB _) ?_⟩
    rintro - t ⟨g', h⟩
    simp only [stops_modify, wp_modify, true_and]
    exact ih (h.base.setBlock _)

theorem writePageToDisk_stops (hB : Base E g s) (frame blk pfn : ℕ) :
    stops (writePageToDisk E frame blk pid pfn) Halt.Disk s := by
  rw [writePageToDisk, stops_bind]
  refine ⟨fileLayer_stops hB _, wp_mono (fileLayer_spec hB _) ?_⟩
  rintro - t ⟨g', h⟩
  exact writeParts_stops frame blk _ h.base

/-! ### Supplying a frame -/

theorem swapPageFromPte_stops (hB : Base E g s) (hp : present (s.pte d v) = true)
    (hown : g.frame (PTE_ADDR (s.pte d v)) = .page d v) (cur pid : ℕ) :
    stops (swapPageFromPte E cur (some (s.ptr d v)) pid) Halt.Disk s := by
  have hload : ∀ u : Kernel, u.mem = s.mem →
      loadPte E cur (some (s.ptr d v)) u = .ok (s.pte d v, u) := fun u hu => by
    simp only [loadPte, readPte, bind_apply, get_apply, pure_apply, hu,
      Kernel.mem_ptr (present_table_of_entry hp)]
  have hr := hB.range _ (by rw [hown]; simp)
  rw [swapPageFromPte, stops_bind]
  refine ⟨stops_of_eq (hload s rfl), wp_of_eq (hload s rfl) ?_⟩
  simp only [stops_bind]
  refine ⟨ballocPage_stops s, wp_mono (ballocPage_spec E.size s) ?_⟩
  intro b t1 h1
  obtain ⟨-, hB1⟩ := h1.base hB
  rw [if_neg (by omega)]
  simp only [stops_bind]
  refine ⟨stops_of_eq (hload t1 h1.mem.mem), wp_of_eq (hload t1 h1.mem.mem) ?_⟩
  refine ⟨writePageToDisk_stops hB1 _ _ _,
    wp_mono (writePageToDisk_spec hB1 fun x hx => g.setGroup_mem _ hx) ?_⟩
  rintro - t2 -
  simp only [storePte, writePte, stops_modify, wp_modify, true_and]
  exact stops_of_eq (kfree_apply hr.1 hr.2)

end Xv6Lab.Paging
