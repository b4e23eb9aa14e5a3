import Mathlib.Tactic

/-!
# Lists as numbered slots

A list that only grows at its end and whose entries are changed in place: an entry is known by its
number for ever. `getElem?_concat` and `getElem?_set_slot` say what is in a slot after either.
-/

namespace OxlensSfu

variable {α : Type*}

theorem getElem?_concat (l : List α) (a : α) (j : Nat) :
    (l ++ [a])[j]? = if j = l.length then some a else l[j]? := by
  rcases lt_trichotomy j l.length with hj | rfl | hj
  · rw [List.getElem?_append_left hj, if_neg hj.ne]
  · simp
  · rw [if_neg hj.ne', List.getElem?_eq_none (by simp; omega), List.getElem?_eq_none hj.le]

theorem getElem?_set_slot {l : List α} {i : Nat} {c : α} (h : l[i]? = some c) (a : α) (j : Nat) :
    (l.set i a)[j]? = if j = i then some a else l[j]? := by
  have hlt : i < l.length := (List.getElem?_eq_some_iff.1 h).1
  split_ifs with hj
  · rw [hj, List.getElem?_set_self hlt]
  · rw [List.getElem?_set_ne (Ne.symm hj)]

theorem getElem?_modify_slot (l : List α) (i : Nat) (f : α → α) (j : Nat) :
    (l.modify i f)[j]? = if j = i then l[j]?.map f else l[j]? := by
  rw [List.getElem?_modify]
  split_ifs with h h' h'
  · rfl
  · exact absurd h.symm h'
  · exact absurd h'.symm h
  · simp

/-- Other entries stay. -/
theorem mem_set_slot {l : List α} {i : Nat} {b c : α} (h : l[i]? = some b) (a : α) (hc : c ∈ l)
    (hne : c ≠ b) : c ∈ l.set i a := by
  obtain ⟨j, hj⟩ := List.mem_iff_getElem?.1 hc
  refine List.mem_of_getElem? (i := j) ?_
  rw [getElem?_set_slot h, if_neg ?_, hj]
  rintro rfl
  exact hne (Option.some.inj (hj.symm.trans h))

/-- What is in a slot is not at the end. -/
theorem slot_ne_length {l : List α} {i : Nat} {c : α} (h : l[i]? = some c) : i ≠ l.length :=
  (List.getElem?_eq_some_iff.1 h).1.ne

end OxlensSfu
