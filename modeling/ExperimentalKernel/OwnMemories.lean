import ExperimentalKernel.RoundRobin
import Mathlib.Logic.Function.Basic

/-!
# Memories of their own

Members of a roster that each have a memory, beside cells that all of them see through
one window. A member that joins begins with the memory of the one whose turn it is.
Nothing here belongs to a particular program.
-/

namespace ExperimentalKernel.OwnMemories
open LabelledRuns RoundRobin Function

variable {P A C B : Type*}

/-- Where the window shows a cell, the memory of a member does not matter. -/
structure Memories (P A C B : Type*) where
  own : P → A → Option B
  cells : C → B

structure Computer (P A C B : Type*) where
  roster : Roster P
  memories : Memories P A C B

inductive Op (P A B : Type*) where
  | stay
  | turn
  | join (p : P)
  | store (a : A) (b : B)

namespace Memories

def load (window : A → Option C) (m : Memories P A C B) (p : P) (a : A) : Option B :=
  match window a with
  | some c => some (m.cells c)
  | none => m.own p a

variable {window : A → Option C} {m : Memories P A C B} {p q : P} {a : A} {b : B}

theorem load_shown {c : C} (h : window a = some c) : m.load window p a = some (m.cells c) := by
  rw [load, h]

theorem load_own (h : window a = none) : m.load window p a = m.own p a := by
  rw [load, h]

variable [DecidableEq P]

def copy (m : Memories P A C B) (p q : P) : Memories P A C B :=
  { m with own := update m.own q (m.own p) }

theorem load_copy (m : Memories P A C B) (p q : P) (a : A) :
    (m.copy p q).load window q a = m.load window p a := by
  cases h : window a with
  | some c => rw [load_shown h, load_shown h]; rfl
  | none =>
    rw [load_own h, load_own h]
    exact congrFun (update_self q (m.own p) m.own) a

theorem load_copy_of_ne {r : P} (hr : r ≠ q) (a : A) :
    (m.copy p q).load window r a = m.load window r a := by
  cases h : window a with
  | some c => rw [load_shown h, load_shown h]; rfl
  | none =>
    rw [load_own h, load_own h]
    exact congrFun (update_of_ne hr (m.own p) m.own) a

variable [DecidableEq A] [DecidableEq C]

/-- Nothing is stored where nothing can be loaded. -/
def store (window : A → Option C) (m : Memories P A C B) (p : P) (a : A) (b : B) :
    Memories P A C B :=
  match window a with
  | some c => { m with cells := update m.cells c b }
  | none => { m with own := update m.own p (update (m.own p) a ((m.own p a).map fun _ => b)) }

theorem store_shown {c : C} (h : window a = some c) :
    m.store window p a b = { m with cells := update m.cells c b } := by
  rw [store, h]

theorem store_own (h : window a = none) : m.store window p a b =
    { m with own := update m.own p (update (m.own p) a ((m.own p a).map fun _ => b)) } := by
  rw [store, h]

/-- A store changes no memory but that of the member, and there no other address. -/
theorem store_apart {a' : A} (h : p = q → a' ≠ a) :
    (m.store window p a b).own q a' = m.own q a' := by
  cases hw : window a with
  | some c => rw [store_shown hw]
  | none =>
    rw [store_own hw]
    by_cases hq : p = q
    · subst hq
      dsimp only
      rw [update_self, update_of_ne (h rfl)]
    · exact congrFun (update_of_ne (Ne.symm hq) _ _) a'

theorem store_none (h : window a = none) (ho : m.own p a = none) : m.store window p a b = m := by
  have hsame : update m.own p (update (m.own p) a none) = m.own := by
    rw [update_eq_self_iff, update_eq_self_iff, ho]
  rw [store_own h, ho, Option.map_none, hsame]

end Memories

section Runs

variable [DecidableEq P] [DecidableEq A] [DecidableEq C] {window : A → Option C}

inductive Step (window : A → Option C) : Computer P A C B → Op P A B → Computer P A C B → Prop
  | stay (c : Computer P A C B) : Step window c .stay c
  | turn {c : Computer P A C B} {p : P} (h : Follows c.roster.order c.roster.current p) :
      Step window c .turn { c with roster := ⟨c.roster.order, p⟩ }
  | join {c : Computer P A C B} {p : P} (h : p ∉ c.roster.order) :
      Step window c (.join p) ⟨⟨c.roster.order ++ [p], c.roster.current⟩,
        c.memories.copy c.roster.current p⟩
  | store (c : Computer P A C B) (a : A) (b : B) :
      Step window c (.store a b) { c with memories := c.memories.store window c.roster.current a b }

/-- `p` does not store at an address of `region` now. -/
def Spares (p : P) (region : Set A) (c : Computer P A C B) : Op P A B → Prop
  | .store a _ => c.roster.current = p → a ∉ region
  | _ => True

/-- What a member has for itself changes by its own stores only. -/
theorem own_kept {p : P} {region : Set A} {c c' : Computer P A C B} {ops : List (Op P A B)}
    (hr : Run (guarded (Step window) (Spares p region)) c ops c') (hp : p ∈ c.roster.order) :
    p ∈ c'.roster.order ∧ ∀ a ∈ region, c'.memories.own p a = c.memories.own p a := by
  refine hr.invariant (P := fun d => p ∈ d.roster.order ∧
    ∀ a ∈ region, d.memories.own p a = c.memories.own p a) (fun d op d' hd hs => ?_)
    ⟨hp, fun _ _ => rfl⟩
  obtain ⟨hmem, hown⟩ := hd
  obtain ⟨hs, hspares⟩ := hs
  cases hs with
  | stay => exact ⟨hmem, hown⟩
  | turn => exact ⟨hmem, hown⟩
  | @join q hfresh =>
    have hne : p ≠ q := fun he => hfresh (he ▸ hmem)
    refine ⟨List.mem_append_left _ hmem, fun a ha => ?_⟩
    rw [← hown a ha]
    exact congrFun (update_of_ne hne _ _) a
  | store a b =>
    refine ⟨hmem, fun a' ha' => ?_⟩
    rw [← hown a' ha']
    exact Memories.store_apart fun he h => hspares he (h ▸ ha')

end Runs

end ExperimentalKernel.OwnMemories
