import Mathlib.Data.List.Sort
import Mathlib.Tactic

/-!
# The best elements of a list

A selection sorts a list by an order of preference and takes the first `n`. Of which elements are
among them two rules tell enough: an element that comes strictly before a chosen one is chosen too
(`mem_best_of_before`), and an element is chosen when those that may come before it are few
(`mem_best_of_few`).
-/

namespace OxlensSfu

variable {α : Type*}

/-- The first `n` elements of the list, sorted by `r`. -/
def best (r : α → α → Prop) [DecidableRel r] (n : Nat) (l : List α) : List α :=
  (l.insertionSort r).take n

section Best

variable {r : α → α → Prop} [DecidableRel r] {n : Nat} {l : List α}

theorem best_subperm (r : α → α → Prop) [DecidableRel r] (n : Nat) (l : List α) :
    (best r n l).Subperm l :=
  (List.take_sublist n _).subperm.trans (List.perm_insertionSort r l).subperm

theorem length_best (r : α → α → Prop) [DecidableRel r] (n : Nat) (l : List α) :
    (best r n l).length = min n l.length := by
  rw [best, List.length_take, List.length_insertionSort]

variable [Std.Total r] [IsTrans α r]

/-- Who comes strictly before a chosen element is chosen. -/
theorem mem_best_of_before {a b : α} (ha : a ∈ best r n l) (hb : b ∈ l) (h : ¬ r a b) :
    b ∈ best r n l := by
  have hsorted := List.pairwise_insertionSort r l
  have hmem : b ∈ l.insertionSort r := (List.mem_insertionSort r).mpr hb
  rw [← List.take_append_drop n (l.insertionSort r)] at hsorted hmem
  rcases List.mem_append.mp hmem with hmem | hmem
  · exact hmem
  · exact absurd ((List.pairwise_append.mp hsorted).2.2 a ha b hmem) h

/-- An element is chosen when it is one of at most `n` elements that hold all that may come before
it. -/
theorem mem_best_of_few {a : α} {s : List α} (hl : l.Nodup) (ha : a ∈ l) (has : a ∈ s)
    (hs : s.length ≤ n) (h : ∀ b ∈ l, r b a → b ∈ s) : a ∈ best r n l := by
  have hperm := List.perm_insertionSort r l
  obtain ⟨pre, post, hsplit⟩ := List.append_of_mem ((List.mem_insertionSort r).mpr ha)
  have hsorted := List.pairwise_insertionSort r l
  have hnodup : (l.insertionSort r).Nodup := hperm.nodup_iff.mpr hl
  rw [hsplit] at hsorted hnodup
  -- What is before `a` is in `s`, and is not `a`.
  have hbefore : (a :: pre).Subperm s := by
    refine List.subperm_of_subset ?_ ?_
    · have hcons : (a :: (pre ++ post)).Nodup := List.perm_middle.nodup_iff.mp hnodup
      exact hcons.sublist ((List.sublist_append_left pre post).cons_cons a)
    · intro b hb
      rcases List.mem_cons.mp hb with rfl | hb
      · exact has
      · refine h b ?_ ((List.pairwise_append.mp hsorted).2.2 b hb a List.mem_cons_self)
        rw [← List.mem_insertionSort r, hsplit]
        exact List.mem_append_left _ hb
  have hlen : pre.length < n := by
    have hle := hbefore.length_le
    rw [List.length_cons] at hle
    omega
  rw [best, hsplit, List.take_append]
  refine List.mem_append_right _ ?_
  rw [show n - pre.length = (n - pre.length - 1) + 1 by omega, List.take_succ_cons]
  exact List.mem_cons_self

end Best

end OxlensSfu
