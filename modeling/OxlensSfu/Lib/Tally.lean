import Mathlib.Algebra.BigOperators.Group.Finset.Basic
import Mathlib.Algebra.BigOperators.Group.List.Basic
import Mathlib.Tactic.Abel

/-!
# Tallies

A tally adds up a measure of each part of a whole, in any commutative monoid: numbers for an
account, multisets for what is where. When one part changes, the tally changes by as much; the old
measure stands on the other side of the equation, since there may be no subtraction.
-/

namespace OxlensSfu.Tally

variable {α κ M : Type*} [AddCommMonoid M]

/-- The parts of a list. -/
theorem sum_map_set (f : α → M) {l : List α} {i : Nat} {a : α} (h : l[i]? = some a) (b : α) :
    ((l.set i b).map f).sum + f a = (l.map f).sum + f b := by
  induction l generalizing i with
  | nil => simp at h
  | cons x l ih =>
    cases i with
    | zero =>
      obtain rfl : x = a := by simpa using h
      simp only [List.set_cons_zero, List.map_cons, List.sum_cons]
      abel
    | succ i =>
      have := ih (i := i) (by simpa using h)
      simp only [List.set_cons_succ, List.map_cons, List.sum_cons, add_assoc, this]

/-- The parts of a family. -/
theorem sum_update [DecidableEq κ] (g : α → M) (f : κ → α) {s : Finset κ} {k : κ} (hk : k ∈ s)
    (b : α) : ∑ j ∈ s, g (Function.update f k b j) + g (f k) = ∑ j ∈ s, g (f j) + g b := by
  rw [← Finset.add_sum_erase s _ hk, ← Finset.add_sum_erase s (fun j => g (f j)) hk]
  have hrest : ∑ j ∈ s.erase k, g (Function.update f k b j) = ∑ j ∈ s.erase k, g (f j) := by
    refine Finset.sum_congr rfl fun j hj => ?_
    rw [Function.update_of_ne (Finset.ne_of_mem_erase hj)]
  rw [hrest, Function.update_self]
  abel

end OxlensSfu.Tally
