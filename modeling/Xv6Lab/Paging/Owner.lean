import Xv6Lab.Paging.Proc
import Mathlib.Data.Finset.Card
import Mathlib.Data.Set.Insert

/-! Ownership of frames and disk blocks. A ghost map gives every frame and every
block one owner; an address space is well formed when the frames and blocks its
entries name are its own. What an operation on one address space leaves alone is
then read off the owners, and two address spaces cannot share a frame because no
frame has two owners. -/

namespace Xv6Lab.Paging

inductive Owner
  /-- Not managed by the page allocator. -/
  | kernel
  | free
  /-- Taken from the free list and named by no table. -/
  | loose
  | kstack (p : Slot)
  | dir (d : ℕ)
  | tab (d : ℕ) (i : Fin 1024)
  | page (d v : ℕ)

inductive BOwner
  | free
  /-- Allocated and not yet named. -/
  | loose
  | sys
  | file
  | swap (d v : ℕ)

structure Ghost where
  frame : ℕ → Owner
  block : ℕ → BOwner

/-- The owner does not lose a frame, or its contents, to an operation on the
address spaces in `D`. -/
def Owner.Stays (D : Set ℕ) : Owner → Prop
  | .free | .loose => False
  | .kernel | .kstack _ => True
  | .dir d | .tab d _ | .page d _ => d ∉ D

def BOwner.Stays (D : Set ℕ) : BOwner → Prop
  | .swap d _ => d ∉ D
  | _ => False

def Ghost.setFrame (g : Ghost) (f : ℕ) (o : Owner) : Ghost :=
  { g with frame := Function.update g.frame f o }

@[simp] theorem Ghost.setFrame_block (g : Ghost) (f : ℕ) (o : Owner) :
    (g.setFrame f o).block = g.block := rfl

@[simp] theorem Ghost.setFrame_self (g : Ghost) (f : ℕ) (o : Owner) :
    (g.setFrame f o).frame f = o := by simp [setFrame]

theorem Ghost.setFrame_of_ne (g : Ghost) {f x : ℕ} (o : Owner) (h : x ≠ f) :
    (g.setFrame f o).frame x = g.frame x := by simp [setFrame, h]

/-! ### What every state satisfies -/

/-- The page allocator, the free bit map and the list of file blocks agree with
the owners. -/
structure Base (E : Env) (g : Ghost) (s : Kernel) : Prop where
  nodup : s.freelist.Nodup
  free : ∀ f, f ∈ s.freelist ↔ g.frame f = .free
  range : ∀ f, g.frame f ≠ .kernel → E.kend ≤ f ∧ f < NFRAMES
  used : ∀ b, g.block b ≠ .free → s.bit b = true
  files : ∀ b, b ∈ s.files ↔ g.block b = .file
  filesNodup : s.files.Nodup
  sys : ∀ b < E.nmeta, g.block b = .sys

/-- The directory and the page tables of `d` belong to `d`. -/
structure Tree (g : Ghost) (s : Kernel) (d : ℕ) : Prop where
  dir : g.frame d = .dir d
  tab : ∀ i, present (s.mem d i) = true → g.frame (PTE_ADDR (s.mem d i)) = .tab d i

/-- The entry `w` of page `v` of `d` names a frame or swap blocks of that page. -/
structure EntryOk (g : Ghost) (d v : ℕ) (w : Word) : Prop where
  frame : present w = true → g.frame (PTE_ADDR w) = .page d v
  only : present w = true → swapped w = false
  write : user w = true → writable w = true
  block : swapped w = true → ∀ b ∈ group (PTE_ADDR w), g.block b = .swap d v

/-- The address space `d`, of whose pages those in `V` own what they name. -/
structure Space (g : Ghost) (s : Kernel) (d : ℕ) (V : Set ℕ) : Prop extends Tree g s d where
  entry : ∀ v < UVPN, v ∈ V → EntryOk g d v (s.pte d v)
  kern : ∀ v, UVPN ≤ v → v < 2 ^ 20 → user (s.pte d v) = false ∧ swapped (s.pte d v) = false

/-- Nothing is lost outside the address spaces in `D`. -/
structure Keeps (D : Set ℕ) (g : Ghost) (s : Kernel) (g' : Ghost) (t : Kernel) : Prop where
  frame : ∀ f, (g.frame f).Stays D → g'.frame f = g.frame f
  mem : ∀ f, (g.frame f).Stays D → t.mem f = s.mem f
  block : ∀ b, (g.block b).Stays D → g'.block b = g.block b
  data : ∀ b, (g.block b).Stays D → t.block b = s.block b

namespace Keeps

variable {D D' : Set ℕ} {g g' g'' : Ghost} {s t u : Kernel}

theorem refl (D : Set ℕ) (g : Ghost) (s : Kernel) : Keeps D g s g s :=
  ⟨fun _ _ => rfl, fun _ _ => rfl, fun _ _ => rfl, fun _ _ => rfl⟩

theorem trans (h : Keeps D g s g' t) (h' : Keeps D g' t g'' u) : Keeps D g s g'' u where
  frame f hf := by
    have e := h.frame f hf
    rw [h'.frame f (by rwa [e]), e]
  mem f hf := by
    have e := h.frame f hf
    rw [h'.mem f (by rwa [e]), h.mem f hf]
  block b hb := by
    have e := h.block b hb
    rw [h'.block b (by rwa [e]), e]
  data b hb := by
    have e := h.block b hb
    rw [h'.data b (by rwa [e]), h.data b hb]

end Keeps

theorem Owner.Stays.mono {D D' : Set ℕ} (hD : D ⊆ D') {o : Owner} (h : o.Stays D') : o.Stays D := by
  cases o <;> simp only [Owner.Stays] at h ⊢ <;> exact fun hd => h (hD hd)

theorem BOwner.Stays.mono {D D' : Set ℕ} (hD : D ⊆ D') {o : BOwner} (h : o.Stays D') :
    o.Stays D := by
  cases o <;> simp only [BOwner.Stays] at h ⊢
  exact fun hd => h (hD hd)

theorem Keeps.mono {D D' : Set ℕ} {g g' : Ghost} {s t : Kernel} (hD : D ⊆ D')
    (h : Keeps D g s g' t) : Keeps D' g s g' t where
  frame f hf := h.frame f (hf.mono hD)
  mem f hf := h.mem f (hf.mono hD)
  block b hb := h.block b (hb.mono hD)
  data b hb := h.data b (hb.mono hD)

/-! ### Entries and contents of an address space -/

theorem Kernel.pte_of_present {s : Kernel} {d v : ℕ} (h : present (s.mem d (pdx v)) = true) :
    s.pte d v = s.mem (PTE_ADDR (s.mem d (pdx v))) (ptx v) := by
  rw [Kernel.pte, if_pos h]

theorem Kernel.pte_of_not_present {s : Kernel} {d v : ℕ}
    (h : present (s.mem d (pdx v)) = false) : s.pte d v = 0#32 := by
  rw [Kernel.pte, if_neg (by simp [h])]

theorem Kernel.content_present {s : Kernel} {d v : ℕ} (h : present (s.pte d v) = true) :
    s.content d v = s.mem (PTE_ADDR (s.pte d v)) := by
  rw [Kernel.content, if_pos h]

theorem Kernel.content_swapped {s : Kernel} {d v : ℕ} (hp : present (s.pte d v) = false)
    (h : swapped (s.pte d v) = true) : s.content d v = s.readPage (PTE_ADDR (s.pte d v)) := by
  rw [Kernel.content, if_neg (by simp [hp]), if_pos h]

theorem Kernel.content_unmapped {s : Kernel} {d v : ℕ} (hp : present (s.pte d v) = false)
    (h : swapped (s.pte d v) = false) : s.content d v = fun _ => 0#32 := by
  rw [Kernel.content, if_neg (by simp [hp]), if_neg (by simp [h])]

/-- The swap blocks of a page decide what it reads back. -/
theorem Kernel.readPage_congr {s t : Kernel} {b : ℕ} (h : ∀ x ∈ group b, t.block x = s.block x) :
    t.readPage b = s.readPage b := by
  funext k
  have hk : b + k.val / 128 ∈ group b := by
    simp only [group, List.mem_map, List.mem_range]
    exact ⟨k.val / 128, by omega, rfl⟩
  simp only [Kernel.readPage, h _ hk]

/-- Entries depend on the directory and the table only. -/
theorem Kernel.pte_congr {s t : Kernel} {d v : ℕ} (hd : t.mem d = s.mem d)
    (ht : present (s.mem d (pdx v)) = true →
      t.mem (PTE_ADDR (s.mem d (pdx v))) = s.mem (PTE_ADDR (s.mem d (pdx v)))) :
    t.pte d v = s.pte d v := by
  cases h : present (s.mem d (pdx v)) with
  | false => rw [Kernel.pte_of_not_present h, Kernel.pte_of_not_present (by rwa [hd])]
  | true => rw [Kernel.pte_of_present h, Kernel.pte_of_present (by rwa [hd]), hd, ht h]

variable {E : Env} {g g' : Ghost} {s t : Kernel} {d : ℕ} {V : Set ℕ} {D : Set ℕ}

/-- An address space outside `D` keeps its directory, tables and entries. -/
theorem Tree.keeps (h : Tree g s d) (hk : Keeps D g s g' t) (hd : d ∉ D) :
    Tree g' t d ∧ t.mem d = s.mem d ∧ ∀ v, t.pte d v = s.pte d v := by
  have hdir : (g.frame d).Stays D := by rw [h.dir]; exact hd
  have htab : ∀ i, present (s.mem d i) = true → (g.frame (PTE_ADDR (s.mem d i))).Stays D := by
    intro i hi
    rw [h.tab i hi]; exact hd
  have hmem := hk.mem d hdir
  refine ⟨⟨by rw [hk.frame d hdir, h.dir], fun i hi => ?_⟩, hmem, fun v => ?_⟩
  · rw [hmem] at hi ⊢
    rw [hk.frame _ (htab i hi), h.tab i hi]
  · exact Kernel.pte_congr hmem fun hp => hk.mem _ (htab _ hp)

theorem EntryOk.keeps {v : ℕ} {w : Word} (h : EntryOk g d v w) (hk : Keeps D g s g' t)
    (hd : d ∉ D) : EntryOk g' d v w where
  frame hp := by
    have e := h.frame hp
    rw [hk.frame _ (by rw [e]; exact hd), e]
  only := h.only
  write := h.write
  block hs b hb := by
    have e := h.block hs b hb
    rw [hk.block _ (by rw [e]; exact hd), e]

theorem EntryOk.content_keeps {v : ℕ} (h : EntryOk g d v (s.pte d v)) (hk : Keeps D g s g' t)
    (hd : d ∉ D) (hpte : t.pte d v = s.pte d v) : t.content d v = s.content d v := by
  cases hp : present (s.pte d v) with
  | true =>
    rw [Kernel.content_present hp, Kernel.content_present (by rwa [hpte]), hpte]
    exact hk.mem _ (by rw [h.frame hp]; exact hd)
  | false =>
    cases hs : swapped (s.pte d v) with
    | true =>
      rw [Kernel.content_swapped hp hs, Kernel.content_swapped (by rwa [hpte]) (by rwa [hpte]),
        hpte]
      exact Kernel.readPage_congr fun b hb => hk.data b (by rw [h.block hs b hb]; exact hd)
    | false =>
      rw [Kernel.content_unmapped hp hs, Kernel.content_unmapped (by rwa [hpte]) (by rwa [hpte])]

/-- What another address space does leaves this one well formed, with its contents. -/
theorem Space.keeps (h : Space g s d V) (hk : Keeps D g s g' t) (hd : d ∉ D) :
    Space g' t d V ∧ ∀ v < UVPN, v ∈ V → t.content d v = s.content d v := by
  obtain ⟨htree, -, hpte⟩ := h.toTree.keeps hk hd
  refine ⟨⟨htree, fun v hv hV => ?_, fun v hv hv' => ?_⟩, fun v hv hV => ?_⟩
  · rw [hpte]; exact (h.entry v hv hV).keeps hk hd
  · rw [hpte]; exact h.kern v hv hv'
  · exact (h.entry v hv hV).content_keeps hk hd (hpte v)

/-! ### Storing one entry -/

/-- Exactly the entry of page `v` changes when its table changes there and, apart
from that, only frames that are no tables of `d`. -/
theorem Tree.store (h : Tree g s d) {v : ℕ} (hv : v < 2 ^ 20) {w : Word} {F : Set ℕ}
    (hp : present (s.mem d (pdx v)) = true)
    (hF : ∀ f ∈ F, g.frame f ≠ .dir d ∧ ∀ i, g.frame f ≠ .tab d i)
    (hm : ∀ f, f ∉ F → f ≠ PTE_ADDR (s.mem d (pdx v)) → t.mem f = s.mem f)
    (ht : t.mem (PTE_ADDR (s.mem d (pdx v))) =
      Function.update (s.mem (PTE_ADDR (s.mem d (pdx v)))) (ptx v) w) :
    t.mem d = s.mem d ∧ t.pte d v = w ∧ ∀ v' < 2 ^ 20, v' ≠ v → t.pte d v' = s.pte d v' := by
  have htab := h.tab _ hp
  have hd : t.mem d = s.mem d := by
    refine hm d (fun hdF => (hF d hdF).1 h.dir) fun e => ?_
    rw [← e, h.dir] at htab
    cases htab
  refine ⟨hd, ?_, fun v' hv' hne => ?_⟩
  · rw [Kernel.pte_of_present (by rwa [hd]), hd, ht, Function.update_self]
  · by_cases hi : pdx v' = pdx v
    · have hj : ptx v' ≠ ptx v := fun hj => hne (page_eq_of_index hv' hv hi hj)
      rw [Kernel.pte_of_present (by rwa [hd, hi]), Kernel.pte_of_present (by rwa [hi]), hd, hi, ht,
        Function.update_of_ne hj]
    · refine Kernel.pte_congr hd fun hp' => hm _ (fun hF' => (hF _ hF').2 _ (h.tab _ hp')) fun e => ?_
      have := h.tab _ hp'
      rw [e, htab] at this
      exact hi (by injection this with _ e'; exact e'.symm)

/-- The entry of page `v` of `d` becomes `w`; besides, the frames in `F` may change,
which are or become frames of that page. -/
structure Store (g : Ghost) (s : Kernel) (d v : ℕ) (g' : Ghost) (t : Kernel) (F : Set ℕ)
    (w : Word) : Prop where
  vlt : v < 2 ^ 20
  table : present (s.mem d (pdx v)) = true
  old : ∀ f ∈ F, g.frame f = .page d v ∨ g.frame f = .loose
  mem : ∀ x, x ∉ F → x ≠ PTE_ADDR (s.mem d (pdx v)) → t.mem x = s.mem x
  word : t.mem (PTE_ADDR (s.mem d (pdx v))) =
    Function.update (s.mem (PTE_ADDR (s.mem d (pdx v)))) (ptx v) w
  frame : ∀ x, x ∉ F → g'.frame x = g.frame x
  block : ∀ b d' v', (d', v') ≠ (d, v) → g.block b = .swap d' v' →
    g'.block b = .swap d' v' ∧ t.block b = s.block b

namespace Store

variable {v : ℕ} {F : Set ℕ} {w : Word}

theorem entries (h : Store g s d v g' t F w) (hT : Tree g s d) :
    t.mem d = s.mem d ∧ t.pte d v = w ∧ ∀ v' < 2 ^ 20, v' ≠ v → t.pte d v' = s.pte d v' := by
  refine hT.store h.vlt h.table (fun x hx => ?_) h.mem h.word
  rcases h.old x hx with e | e <;> rw [e] <;> exact ⟨by simp, by simp⟩

theorem notMem_of_owner (h : Store g s d v g' t F w) {x : ℕ} (h1 : g.frame x ≠ .page d v)
    (h2 : g.frame x ≠ .loose) : x ∉ F :=
  fun hx => (h.old x hx).elim h1 h2

theorem keeps (h : Store g s d v g' t F w) (hT : Tree g s d) : Keeps {d} g s g' t where
  frame x hx := h.frame x (h.notMem_of_owner (fun e => by rw [e] at hx; exact hx rfl)
    (fun e => by rw [e] at hx; exact hx))
  mem x hx := h.mem x (h.notMem_of_owner (fun e => by rw [e] at hx; exact hx rfl)
    (fun e => by rw [e] at hx; exact hx)) (fun e => by
      rw [e, hT.tab _ h.table] at hx; exact hx rfl)
  block b hb := by
    cases hg : g.block b with
    | swap d' v' =>
      rw [hg] at hb
      exact (h.block b d' v' (by rintro ⟨⟩; exact hb rfl) hg).1
    | _ => rw [hg] at hb; exact absurd hb (by simp [BOwner.Stays])
  data b hb := by
    cases hg : g.block b with
    | swap d' v' =>
      rw [hg] at hb
      exact (h.block b d' v' (by rintro ⟨⟩; exact hb rfl) hg).2
    | _ => rw [hg] at hb; exact absurd hb (by simp [BOwner.Stays])

theorem tree (h : Store g s d v g' t F w) (hT : Tree g s d) : Tree g' t d := by
  obtain ⟨hd, -, -⟩ := h.entries hT
  refine ⟨?_, fun i hi => ?_⟩
  · rw [h.frame d (h.notMem_of_owner (by rw [hT.dir]; simp) (by rw [hT.dir]; simp)), hT.dir]
  · rw [hd] at hi ⊢
    have e := hT.tab i hi
    rw [h.frame _ (h.notMem_of_owner (by rw [e]; simp) (by rw [e]; simp)), e]

theorem entryOk (h : Store g s d v g' t F w) {v' : ℕ} {x : Word} (hne : v' ≠ v)
    (hx : EntryOk g d v' x) : EntryOk g' d v' x where
  frame hp := by
    have e := hx.frame hp
    rw [h.frame _ (h.notMem_of_owner (by rw [e]; simp [hne]) (by rw [e]; simp)), e]
  only := hx.only
  write := hx.write
  block hs b hb := (h.block b d v' (by simp [hne]) (hx.block hs b hb)).1

/-- The address space stays well formed when the new entry is. -/
theorem space (h : Store g s d v g' t F w) (hS : Space g s d V)
    (hw : v < UVPN → v ∈ V → EntryOk g' d v w)
    (hk : UVPN ≤ v → user w = false ∧ swapped w = false) : Space g' t d V := by
  obtain ⟨-, hpv, hpo⟩ := h.entries hS.toTree
  refine ⟨h.tree hS.toTree, fun v' hv' hV => ?_, fun v' hv' hlt => ?_⟩
  · by_cases hne : v' = v
    · subst hne; rw [hpv]; exact hw hv' hV
    · rw [hpo v' (hv'.trans (by decide)) hne]
      exact h.entryOk hne (hS.entry v' hv' hV)
  · by_cases hne : v' = v
    · subst hne; rw [hpv]; exact hk hv'
    · rw [hpo v' hlt hne]; exact hS.kern v' hv' hlt

/-- The other pages keep their contents. -/
theorem content (h : Store g s d v g' t F w) (hS : Space g s d V) {v' : ℕ} (hv' : v' < UVPN)
    (hV : v' ∈ V) (hne : v' ≠ v) : t.content d v' = s.content d v' := by
  obtain ⟨-, -, hpo⟩ := h.entries hS.toTree
  have hpte := hpo v' (hv'.trans (by decide)) hne
  have hE := hS.entry v' hv' hV
  cases hp : present (s.pte d v') with
  | true =>
    rw [Kernel.content_present hp, Kernel.content_present (by rwa [hpte]), hpte]
    have e := hE.frame hp
    refine h.mem _ (h.notMem_of_owner (by rw [e]; simp [hne]) (by rw [e]; simp)) fun e' => ?_
    rw [e', hS.tab _ h.table] at e
    cases e
  | false =>
    cases hs : swapped (s.pte d v') with
    | true =>
      rw [Kernel.content_swapped hp hs, Kernel.content_swapped (by rwa [hpte]) (by rwa [hpte]), hpte]
      exact Kernel.readPage_congr fun b hb =>
        (h.block b d v' (by simp [hne]) (hE.block hs b hb)).2
    | false =>
      rw [Kernel.content_unmapped hp hs, Kernel.content_unmapped (by rwa [hpte]) (by rwa [hpte])]

end Store

end Xv6Lab.Paging
