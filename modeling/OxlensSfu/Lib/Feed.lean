import Mathlib.Tactic
import Mathlib.Data.Finset.Basic

/-!
# A set followed by its changes

Who is told of every change of a set can keep a copy of it. Who is told of the changes of some
elements only has a copy of those (`filter_replay`).
-/

namespace OxlensSfu

inductive Change (α : Type) where
  | put (a : α)
  | delete (a : α)
  deriving DecidableEq, Repr

namespace Change

variable {α : Type}

def elem : Change α → α
  | put a | delete a => a

variable [DecidableEq α]

def apply (S : Finset α) : Change α → Finset α
  | put a => insert a S
  | delete a => S.erase a

/-- The set after the changes. -/
def replay (S : Finset α) (cs : List (Change α)) : Finset α := cs.foldl apply S

variable (S : Finset α) (cs ds : List (Change α)) (c : Change α) (p : α → Bool)

@[simp] theorem replay_nil : replay S [] = S := rfl

@[simp] theorem replay_cons : replay S (c :: cs) = replay (c.apply S) cs := rfl

@[simp] theorem replay_append : replay S (cs ++ ds) = replay (replay S cs) ds :=
  List.foldl_append

/-- An element that is not looked at leaves what is. -/
theorem filter_apply : (c.apply S).filter (p · = true) =
    if p c.elem then c.apply (S.filter (p · = true)) else S.filter (p · = true) := by
  cases c with
  | put a =>
    rw [apply, Finset.filter_insert]
    rfl
  | delete a =>
    rw [apply, Finset.filter_erase]
    show _ = if p a = true then _ else _
    split_ifs with ha
    · rfl
    · exact Finset.erase_eq_of_notMem fun h => ha (Finset.mem_filter.1 h).2

/-- **The changes of some elements** keep a copy of those. -/
theorem filter_replay : (replay S cs).filter (p · = true) =
    replay (S.filter (p · = true)) (cs.filter (p ·.elem)) := by
  induction cs generalizing S with
  | nil => rfl
  | cons c cs ih =>
    rw [replay_cons, ih, filter_apply, List.filter_cons]
    split_ifs <;> rfl

theorem replay_puts (l : List α) : replay S (l.map put) = S ∪ l.toFinset := by
  induction l generalizing S with
  | nil => simp
  | cons a l ih =>
    rw [List.map_cons, replay_cons, ih, apply, List.toFinset_cons, Finset.insert_union,
      Finset.union_insert]

theorem replay_deletes (l : List α) : replay S (l.map delete) = S \ l.toFinset := by
  induction l generalizing S with
  | nil => simp
  | cons a l ih =>
    rw [List.map_cons, replay_cons, ih, apply, List.toFinset_cons]
    ext b
    simp only [Finset.mem_sdiff, Finset.mem_erase, Finset.mem_insert]
    tauto

end Change

end OxlensSfu
