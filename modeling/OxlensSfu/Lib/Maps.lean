import Mathlib.Tactic
import Mathlib.Data.List.AList

/-!
# Finite maps

A map is an `AList`: a list of entries with one for each key. This adds what a program needs
beside it: an entry changed in place, and totals over the entries. A hash map yields its entries in
no fixed order; a `Shuffle` stands for the order it happens to use.
-/

namespace OxlensSfu

abbrev Map (κ ν : Type) := AList fun _ : κ => ν

/-- Some order of every list. -/
structure Shuffle (α : Type) where
  run : List α → List α
  perm : ∀ l, (run l).Perm l

instance {α : Type} : Inhabited (Shuffle α) := ⟨⟨id, fun _ => .refl _⟩⟩

@[simp] theorem Shuffle.mem_run {α : Type} (s : Shuffle α) {l : List α} {a : α} :
    a ∈ s.run l ↔ a ∈ l := (s.perm l).mem_iff

theorem Shuffle.nodup_run {α : Type} (s : Shuffle α) {l : List α} : (s.run l).Nodup ↔ l.Nodup :=
  (s.perm l).nodup_iff

namespace Map

variable {κ ν : Type} [DecidableEq κ]

/-- Every entry is changed. -/
def mapVals (f : κ → ν → ν) (m : Map κ ν) : Map κ ν :=
  ⟨m.entries.map fun x => ⟨x.1, f x.1 x.2⟩, by
    have hkeys : (m.entries.map fun x => (⟨x.1, f x.1 x.2⟩ : (_ : κ) × ν)).keys = m.entries.keys := by
      simp only [List.keys, List.map_map, Function.comp_def]
    rw [List.NodupKeys, hkeys]
    exact m.nodupKeys⟩

/-- The entries that pass. -/
def filter (p : κ → ν → Bool) (m : Map κ ν) : Map κ ν :=
  ⟨m.entries.filter fun x => p x.1 x.2, m.nodupKeys.sublist List.filter_sublist⟩

def values (m : Map κ ν) : List ν := m.entries.map (·.2)

/-- The sum of `f` over the entries. -/
def total (f : κ → ν → Nat) (m : Map κ ν) : Nat := (m.entries.map fun x => f x.1 x.2).sum

theorem lookup_insert_if (m : Map κ ν) (k k' : κ) (v : ν) :
    (m.insert k v).lookup k' = if k' = k then some v else m.lookup k' := by
  split_ifs with h
  · rw [h, AList.lookup_insert]
  · rw [AList.lookup_insert_ne h]

theorem lookup_erase_if (m : Map κ ν) (k k' : κ) :
    (m.erase k).lookup k' = if k' = k then none else m.lookup k' := by
  split_ifs with h
  · rw [h, AList.lookup_erase]
  · rw [AList.lookup_erase_ne h]

theorem erase_of_none {m : Map κ ν} {k : κ} (h : m.lookup k = none) : m.erase k = m :=
  AList.ext (List.kerase_of_notMem_keys (AList.lookup_eq_none.1 h))

theorem mem_entries (m : Map κ ν) {k : κ} {v : ν} : ⟨k, v⟩ ∈ m.entries ↔ m.lookup k = some v :=
  AList.mem_lookup_iff.symm

theorem mem_values {m : Map κ ν} {v : ν} : v ∈ values m ↔ ∃ k, m.lookup k = some v := by
  simp only [values, List.mem_map]
  constructor
  · rintro ⟨⟨k, w⟩, hm, rfl⟩
    exact ⟨k, (mem_entries m).1 hm⟩
  · rintro ⟨k, hk⟩
    exact ⟨⟨k, v⟩, (mem_entries m).2 hk, rfl⟩

/-- The value of a key and those of the others. -/
theorem values_erase {m : Map κ ν} {k : κ} {v : ν} (h : m.lookup k = some v) :
    (values m).Perm (v :: values (m.erase k)) := by
  obtain ⟨w, l₁, l₂, -, hm, he⟩ :=
    List.exists_of_kerase (List.mem_keys_of_mem ((mem_entries m).2 h))
  have hw : ⟨k, w⟩ ∈ m.entries := hm ▸ List.mem_append_right _ List.mem_cons_self
  obtain rfl := Option.some.inj (h.symm.trans ((mem_entries m).1 hw))
  rw [values, values, hm, show (m.erase k).entries = l₁ ++ l₂ from he]
  simp only [List.map_append, List.map_cons]
  exact List.perm_middle

theorem values_insert_new {m : Map κ ν} {k : κ} (h : m.lookup k = none) (v : ν) :
    values (m.insert k v) = v :: values m := by
  rw [values, AList.entries_insert_of_notMem (AList.lookup_eq_none.1 h), List.map_cons, values]

theorem mem_iff_lookup {m : Map κ ν} {k : κ} : k ∈ m ↔ ∃ v, m.lookup k = some v := by
  rw [← AList.lookup_isSome, Option.isSome_iff_exists]

theorem mem_keys_iff {m : Map κ ν} {k : κ} : k ∈ m.keys ↔ ∃ v, m.lookup k = some v := by
  rw [← AList.mem_keys, mem_iff_lookup]

theorem lookup_mapVals (f : κ → ν → ν) (m : Map κ ν) (k : κ) :
    (mapVals f m).lookup k = (m.lookup k).map (f k) := by
  ext w
  rw [← mem_entries, Option.map_eq_some_iff]
  simp only [mapVals, List.mem_map]
  constructor
  · rintro ⟨⟨k', v⟩, hm, he⟩
    obtain ⟨rfl, hv⟩ := Sigma.mk.inj he
    exact ⟨v, (mem_entries m).1 hm, eq_of_heq hv⟩
  · rintro ⟨v, hv, rfl⟩
    exact ⟨⟨k, v⟩, (mem_entries m).2 hv, rfl⟩

theorem lookup_filter (p : κ → ν → Bool) (m : Map κ ν) (k : κ) :
    (filter p m).lookup k = (m.lookup k).filter (p k) := by
  ext v
  rw [← mem_entries, Option.filter_eq_some_iff, ← mem_entries]
  exact List.mem_filter

/-- One entry at most is looked at. -/
theorem flatMap_entries {β : Type} (m : Map κ ν) (k : κ) (f : ν → List β) :
    (m.entries.flatMap fun x => if x.1 = k then f x.2 else []) = (m.lookup k).elim [] f := by
  obtain ⟨L, hL⟩ := m
  show (L.flatMap _) = (List.dlookup k L).elim [] f
  induction L with
  | nil => rfl
  | cons x L ih =>
    obtain ⟨k', v⟩ := x
    obtain ⟨hk, hL⟩ := List.nodupKeys_cons.1 hL
    rw [List.flatMap_cons, ih hL]
    by_cases he : k' = k
    · subst he
      rw [if_pos rfl, List.dlookup_cons_eq, List.dlookup_eq_none.2 hk]
      exact List.append_nil _
    · rw [if_neg he, List.dlookup_cons_ne _ _ (Ne.symm he)]
      rfl

/-! ## Totals -/

omit [DecidableEq κ] in
@[simp] theorem total_empty (f : κ → ν → Nat) : total f (∅ : Map κ ν) = 0 := rfl

/-- An entry and the rest. -/
theorem total_erase {m : Map κ ν} {k : κ} {v : ν} (h : m.lookup k = some v) (f : κ → ν → Nat) :
    total f m = f k v + total f (m.erase k) := by
  obtain ⟨w, l₁, l₂, -, hm, he⟩ := List.exists_of_kerase (AList.mem_keys.1 (mem_iff_lookup.2 ⟨v, h⟩))
  have hw : ⟨k, w⟩ ∈ m.entries := hm ▸ List.mem_append_right _ List.mem_cons_self
  obtain rfl := Option.some.inj (h.symm.trans ((mem_entries m).1 hw))
  rw [total, total, hm, show (m.erase k).entries = l₁ ++ l₂ from he]
  simp only [List.map_append, List.map_cons, List.sum_append, List.sum_cons]
  omega

theorem total_insert_new {m : Map κ ν} {k : κ} (h : m.lookup k = none) (v : ν)
    (f : κ → ν → Nat) : total f (m.insert k v) = f k v + total f m := by
  rw [total, AList.entries_insert_of_notMem (AList.lookup_eq_none.1 h), List.map_cons,
    List.sum_cons, total]

theorem total_insert {m : Map κ ν} {k : κ} {v : ν} (h : m.lookup k = some v) (w : ν)
    (f : κ → ν → Nat) : total f (m.insert k w) + f k v = total f m + f k w := by
  have hins : total f (m.insert k w) = f k w + total f (m.erase k) := by
    rw [total, AList.entries_insert, List.map_cons, List.sum_cons]
    rfl
  rw [hins, total_erase h f]
  omega

theorem total_eq_zero {m : Map κ ν} {f : κ → ν → Nat} :
    total f m = 0 ↔ ∀ k v, m.lookup k = some v → f k v = 0 := by
  simp only [total, List.sum_eq_zero_iff, List.mem_map]
  constructor
  · intro h k v hk
    exact h _ ⟨⟨k, v⟩, (mem_entries m).2 hk, rfl⟩
  · rintro h _ ⟨⟨k, v⟩, hm, rfl⟩
    exact h k v ((mem_entries m).1 hm)

end Map

end OxlensSfu
