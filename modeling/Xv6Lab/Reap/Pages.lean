import Xv6Lab.Reap.Bonds
import Mathlib.Logic.Equiv.Basic

/-! Who holds which page: the kernel stacks, the page directories, and the directories
that `fork`, `exec` and `wait` hold besides. No page has two holders, and none is freed
while it has one or freed twice. -/

namespace Xv6Lab.Reap

open Lib
open Sched (Slot)

variable {l t : Life} {p i : Slot} {a b : ℕ} {log : List Event} {e : Event}

inductive Holder
  | stack (p : Slot)
  | dir (p : Slot)
  /-- The code that process `p` runs. -/
  | code (p : Slot)
  deriving DecidableEq

def Life.page (l : Life) : Holder → Option ℕ
  | .stack p => (l.view p).kstack
  | .dir p => (l.view p).pgdir
  | .code p => (l.view p).job.dir

/-- The event is the freeing of page `a`. -/
def Event.frees (a : ℕ) : Event → Bool
  | .kfree _ _ b => a = b
  | _ => false

def Freed (log : List Event) (a : ℕ) : Prop := ∃ e ∈ log, e.frees a = true

theorem freed_cons : Freed (e :: log) a ↔ e.frees a = true ∨ Freed log a := by
  unfold Freed
  simp only [List.mem_cons, or_and_right, exists_or, exists_eq_left]

theorem freed_kfree (w : ℕ) (c : Option ℕ) :
    Freed (.kfree w c b :: log) = fun a => a = b ∨ Freed log a := by
  funext a
  rw [freed_cons, Event.frees, decide_eq_true_eq]

theorem freed_of_not (h : ∀ a, e.frees a = false) : Freed (e :: log) = Freed log := by
  funext a
  rw [freed_cons, h a]
  simp

/-- Every page has one holder and is not free, or has none. -/
def Pages (l : Life) : Prop := Ledger l.page l.nextpage (Freed l.log)

namespace Pages

/-- The events of a step that free nothing. -/
theorem same (h : Pages l) (hpage : t.page = l.page) (hnext : t.nextpage = l.nextpage)
    (hfreed : Freed t.log = Freed l.log) : Pages t := by
  unfold Pages
  rw [hpage, hnext, hfreed]
  exact h

theorem alloc (h : Pages l) (r : Holder)
    (hpage : t.page = Function.update l.page r (some l.nextpage))
    (hnext : t.nextpage = l.nextpage + 1) (hlog : t.log = l.log) : Pages t := by
  unfold Pages
  rw [hpage, hnext, hlog]
  exact Ledger.alloc h r

theorem move (h : Pages l) (r r' : Holder) (hr : l.page r = some a)
    (hpage : t.page = Function.update (Function.update l.page r none) r' (some a))
    (hnext : t.nextpage = l.nextpage) (hfreed : Freed t.log = Freed l.log) : Pages t := by
  unfold Pages
  rw [hpage, hnext, hfreed]
  exact Ledger.move h hr

theorem free {r : Holder} {w : ℕ} {c : Option ℕ} (h : Pages l) (hr : l.page r = some a)
    (hpage : t.page = Function.update l.page r none) (hnext : t.nextpage = l.nextpage)
    (hlog : t.log = .kfree w c a :: l.log) : Pages t := by
  unfold Pages
  rw [hpage, hnext, hlog, freed_kfree]
  exact Ledger.free h hr

theorem step (h : Pages l) (hb : Bonds l) (ht : l.Step t) : Pages t := by
  have hmaking := @hb.making
  have hidle := @hb.idle
  cases ht with
  | stack p j hp =>
    refine h.alloc (.stack j) ?_ rfl rfl
    funext r
    cases r <;> simp only [Life.page, Life.turn_view, Life.put_view, Function.update_apply] <;>
      grind [Place.dir, Place.child]
  | setup p j hp =>
    refine h.alloc (.code p) ?_ rfl rfl
    funext r
    cases r <;> simp only [Life.page, Life.turn_view, Function.update_apply] <;> grind [Place.dir]
  | build p hl hp =>
    refine h.alloc (.code p) ?_ rfl rfl
    funext r
    cases r <;> simp only [Life.page, Life.turn_view, Function.update_apply] <;> grind [Place.dir]
  | copied p j d hp =>
    refine h.move (.code p) (.dir j) (a := d) ?_ ?_ rfl rfl
    · simp [Life.page, hp, Place.dir]
    funext r
    cases r <;> simp only [Life.page, Life.turn_view, Life.put_view, Function.update_apply] <;>
      grind [Place.dir, Place.child]
  | dropStack p j k hp hk =>
    refine h.free (r := .stack j) hk ?_ rfl rfl
    funext r
    cases r <;> simp only [Life.page, Life.turn_view, Life.put_view, Life.emit_view, Function.update_apply] <;>
      grind [Place.dir, Place.child, Making]
  | freed p d k hp =>
    refine h.free (r := .code p) (a := d) ?_ ?_ rfl rfl
    · simp [Life.page, hp, Place.dir]
    funext r
    cases r <;> cases k <;> simp only [Life.page, Life.turn_view, Life.emit_view, Function.update_apply, After.place] <;>
      grind [Place.dir]
  | reap p j k hl hp hj hz hk hx =>
    refine h.free (r := .stack j) hk ?_ rfl rfl
    funext r
    cases r <;> simp only [Life.page, Life.turn_view, Life.put_view, Life.emit_view, Function.update_apply] <;>
      grind [Place.dir]
  | clear p j hp hx =>
    have hz := hb.zombie (hb.clear hp).1
    obtain ⟨d, hd⟩ := Option.isSome_iff_exists.1 hz.1
    refine h.move (.dir j) (.code p) hd ?_ rfl (freed_of_not fun _ => rfl)
    funext r
    cases r <;> simp only [Life.page, Life.turn_view, Life.put_view, Life.emit_view, Function.update_apply] <;>
      grind [Place.dir]
  | built p d hp =>
    -- the process and its code exchange their directories
    have hpage : ∀ r, ((l.put p { l.view p with pgdir := some d }).turn p
        (.switchuvm (l.view p).pgdir)).page r = l.page (Equiv.swap (Holder.code p) (.dir p) r) := by
      intro r
      rw [Equiv.swap_apply_def]
      cases r <;> simp only [Life.page, Life.turn_view, Life.put_view] <;> grind [Life.page, Place.dir]
    refine h.rearrange (Equiv.swap (Holder.code p) (.dir p)) (fun r a hr => ?_)
      fun r r' a _ _ he => (Equiv.swap _ _).injective he
    rw [← hpage]
    exact hr
  | publish p j hp =>
    refine h.same ?_ rfl (freed_of_not fun _ => rfl)
    funext r
    cases r <;> simp only [Life.page, Life.turn_view, Life.put_view, Life.emit_view] <;>
      grind [Place.dir]
  | zombie p n hp hn =>
    refine h.same ?_ rfl (freed_of_not fun _ => rfl)
    funext r
    cases r <;> simp only [Life.page, Life.put_view, Life.emit_view] <;> grind [Place.dir]
  | wait p pid hp =>
    refine h.same ?_ rfl (freed_of_not fun _ => rfl)
    funext r
    cases r <;> simp only [Life.page, Life.turn_view, Life.emit_view] <;> grind [Place.dir]
  | take _ _ _ _ _ | noStack _ _ _ | dropChild _ _ _ | fill _ _ _ | abandon _ _ _ _ =>
    refine h.same ?_ rfl rfl
    funext r
    cases r <;> simp only [Life.page, Life.turn_view, Life.put_view] <;>
      grind [Place.dir, Place.child, Making]
  | noSetup _ _ _ | notCopied _ _ _ _ | notBuilt _ _ _ | switched _ _ _ | exit _ _ _ _ | pass _ _ _ _ =>
    refine h.same ?_ rfl rfl
    funext r
    cases r <;> simp only [Life.page, Life.turn_view] <;> grind [Place.dir]

end Pages

end Xv6Lab.Reap
