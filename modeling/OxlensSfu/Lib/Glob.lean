import Mathlib.Tactic

/-!
# Patterns with holes

A pattern is a list of pieces: a letter, a hole for one letter, or a hole for any number of them.
Two patterns meet when one word matches both. Which words count is told by a predicate on their
letters; the letters of the patterns have it too (`Legal`), and some letter has it.

To find whether two patterns meet it is enough to look at their first pieces. Two that stand for
one letter each go together or do not (`meets_cons`). A hole for many ends here, or takes one piece
more of the other pattern (`meets_many`).

One pattern includes another when it matches every word of it. The first pieces tell that only one
way: they may show that it does (`Includes.cons`, `Includes.take`). A word, as a pattern of letters
alone, is included in what matches it.
-/

namespace OxlensSfu.Glob

inductive Piece (α : Type) where
  | lit (a : α)
  | one
  | many
  deriving DecidableEq

variable {α : Type} {P : α → Prop} {p q : Piece α} {ps qs : List (Piece α)} {l : List α}

/-- The word is an instance of the pattern. -/
inductive Matches : List (Piece α) → List α → Prop
  | nil : Matches [] []
  | lit {a : α} {ps : List (Piece α)} {l : List α} (h : Matches ps l) :
      Matches (.lit a :: ps) (a :: l)
  | one {a : α} {ps : List (Piece α)} {l : List α} (h : Matches ps l) :
      Matches (.one :: ps) (a :: l)
  | stop {ps : List (Piece α)} {l : List α} (h : Matches ps l) : Matches (.many :: ps) l
  | more {a : α} {ps : List (Piece α)} {l : List α} (h : Matches (.many :: ps) l) :
      Matches (.many :: ps) (a :: l)

/-- The piece stands for this one letter, perhaps among others. -/
def Fits : Piece α → α → Prop
  | .lit a, b => a = b
  | .one, _ => True
  | .many, _ => False

def Legal (P : α → Prop) (ps : List (Piece α)) : Prop := ∀ a, Piece.lit a ∈ ps → P a

/-- Some word of letters that count matches both. -/
def Meets (P : α → Prop) (ps qs : List (Piece α)) : Prop :=
  ∃ l, (∀ a ∈ l, P a) ∧ Matches ps l ∧ Matches qs l

theorem Legal.tail (h : Legal P (p :: ps)) : Legal P ps :=
  fun a ha => h a (List.mem_cons_of_mem p ha)

theorem Meets.symm (h : Meets P ps qs) : Meets P qs ps := by
  obtain ⟨l, hl, hp, hq⟩ := h
  exact ⟨l, hl, hq, hp⟩

theorem meets_comm : Meets P ps qs ↔ Meets P qs ps := ⟨Meets.symm, Meets.symm⟩

/-! ## One pattern -/

theorem matches_nil_iff : Matches ps [] ↔ ∀ p ∈ ps, p = .many := by
  constructor
  · intro h
    generalize hl : ([] : List α) = l at h
    induction h with
    | nil => simp
    | lit => cases hl
    | one => cases hl
    | stop _ ih => simpa using ih hl
    | more => cases hl
  · intro h
    induction ps with
    | nil => exact .nil
    | cons p ps ih =>
      rw [h p List.mem_cons_self]
      exact .stop (ih fun q hq => h q (List.mem_cons_of_mem p hq))

/-- A piece for one letter takes the first one. -/
theorem matches_cons (hp : p ≠ .many) :
    Matches (p :: ps) l ↔ ∃ a m, l = a :: m ∧ Fits p a ∧ Matches ps m := by
  constructor
  · intro h
    cases h with
    | lit h => exact ⟨_, _, rfl, rfl, h⟩
    | one h => exact ⟨_, _, rfl, trivial, h⟩
    | stop h => exact absurd rfl hp
    | more h => exact absurd rfl hp
  · rintro ⟨a, m, rfl, hfit, h⟩
    cases p with
    | lit b =>
      obtain rfl : b = a := hfit
      exact .lit h
    | one => exact .one h
    | many => exact absurd rfl hp

/-- A piece that is not a hole for many has a letter that counts. -/
theorem exists_fits (hP : ∃ a, P a) (h : Legal P (p :: ps)) (hp : p ≠ .many) :
    ∃ a, P a ∧ Fits p a := by
  cases p with
  | lit a => exact ⟨a, h a List.mem_cons_self, rfl⟩
  | one =>
    obtain ⟨a, ha⟩ := hP
    exact ⟨a, ha, trivial⟩
  | many => exact absurd rfl hp

/-- A pattern has an instance. -/
theorem meets_self (hP : ∃ a, P a) (h : Legal P ps) : Meets P ps ps := by
  suffices hword : ∃ l, (∀ a ∈ l, P a) ∧ Matches ps l by
    obtain ⟨l, hl, hm⟩ := hword
    exact ⟨l, hl, hm, hm⟩
  induction ps with
  | nil => exact ⟨[], by simp, .nil⟩
  | cons p ps ih =>
    obtain ⟨l, hl, hm⟩ := ih h.tail
    by_cases hp : p = .many
    · subst hp
      exact ⟨l, hl, .stop hm⟩
    · obtain ⟨a, ha, hfit⟩ := exists_fits hP h hp
      exact ⟨a :: l, List.forall_mem_cons.mpr ⟨ha, hl⟩, (matches_cons hp).mpr ⟨a, l, rfl, hfit, hm⟩⟩

theorem matches_many (l : List α) : Matches [.many] l := by
  induction l with
  | nil => exact .stop .nil
  | cons a l ih => exact .more ih

/-! ## Two patterns -/

theorem meets_nil : Meets P [] qs ↔ ∀ q ∈ qs, q = .many := by
  rw [← matches_nil_iff]
  constructor
  · rintro ⟨l, -, h, hq⟩
    cases h
    exact hq
  · exact fun h => ⟨[], by simp, .nil, h⟩

theorem meets_any (hP : ∃ a, P a) (h : Legal P qs) : Meets P [.many] qs := by
  obtain ⟨l, hl, hm, -⟩ := meets_self hP h
  exact ⟨l, hl, matches_many l, hm⟩

/-- Pieces for one letter each have to go together, and the rest has to meet. -/
theorem meets_cons (hp : p ≠ .many) (hq : q ≠ .many) :
    Meets P (p :: ps) (q :: qs) ↔ (∃ a, P a ∧ Fits p a ∧ Fits q a) ∧ Meets P ps qs := by
  constructor
  · rintro ⟨l, hl, hml, hmr⟩
    obtain ⟨a, m, rfl, hfit, hm⟩ := (matches_cons hp).mp hml
    obtain ⟨b, m', he, hfit', hm'⟩ := (matches_cons hq).mp hmr
    obtain ⟨rfl, rfl⟩ := List.cons.inj he
    obtain ⟨ha, hrest⟩ := List.forall_mem_cons.mp hl
    exact ⟨⟨a, ha, hfit, hfit'⟩, m, hrest, hm, hm'⟩
  · rintro ⟨⟨a, ha, hfit, hfit'⟩, m, hm, hml, hmr⟩
    exact ⟨a :: m, List.forall_mem_cons.mpr ⟨ha, hm⟩,
      (matches_cons hp).mpr ⟨a, m, rfl, hfit, hml⟩, (matches_cons hq).mpr ⟨a, m, rfl, hfit', hmr⟩⟩

/-- A hole for many takes the next piece of the other pattern, or nothing more. -/
theorem meets_many (hP : ∃ a, P a) (h : Legal P (q :: qs)) :
    Meets P (.many :: ps) (q :: qs) ↔ Meets P (.many :: ps) qs ∨ Meets P ps (q :: qs) := by
  constructor
  · rintro ⟨l, hl, hml, hmr⟩
    -- The word is shortened while both holes take its letters.
    induction l with
    | nil =>
      cases hml with
      | stop hml => exact .inr ⟨[], hl, hml, hmr⟩
    | cons a l ih =>
      obtain ⟨-, hrest⟩ := List.forall_mem_cons.mp hl
      cases hml with
      | stop hml => exact .inr ⟨a :: l, hl, hml, hmr⟩
      | more hml =>
        cases hmr with
        | lit hmr => exact .inl ⟨l, hrest, hml, hmr⟩
        | one hmr => exact .inl ⟨l, hrest, hml, hmr⟩
        | stop hmr => exact .inl ⟨a :: l, hl, .more hml, hmr⟩
        | more hmr => exact ih hrest hml hmr
  · rintro (⟨l, hl, hml, hmr⟩ | ⟨l, hl, hml, hmr⟩)
    · by_cases hq : q = .many
      · subst hq
        exact ⟨l, hl, hml, .stop hmr⟩
      · obtain ⟨a, ha, hfit⟩ := exists_fits hP h hq
        exact ⟨a :: l, List.forall_mem_cons.mpr ⟨ha, hl⟩, .more hml,
          (matches_cons hq).mpr ⟨a, l, rfl, hfit, hmr⟩⟩
    · exact ⟨l, hl, .stop hml, hmr⟩

theorem meets_many_right (hP : ∃ a, P a) (h : Legal P (q :: qs)) :
    Meets P (q :: qs) (.many :: ps) ↔ Meets P qs (.many :: ps) ∨ Meets P (q :: qs) ps := by
  rw [meets_comm, meets_many hP h, meets_comm, @meets_comm _ _ ps]

/-! ## Words as patterns -/

theorem matches_word {m : List α} : Matches (l.map .lit) m ↔ m = l := by
  induction l generalizing m with
  | nil =>
    constructor
    · intro h
      cases h
      rfl
    · rintro rfl
      exact .nil
  | cons a l ih =>
    rw [List.map_cons, matches_cons (show Piece.lit a ≠ .many from nofun)]
    constructor
    · rintro ⟨b, m, rfl, hab, h⟩
      obtain rfl : a = b := hab
      rw [ih.mp h]
    · rintro rfl
      exact ⟨a, l, rfl, rfl, ih.mpr rfl⟩

theorem meets_word (hl : ∀ a ∈ l, P a) : Meets P ps (l.map .lit) ↔ Matches ps l := by
  constructor
  · rintro ⟨m, -, h, hm⟩
    obtain rfl := matches_word.mp hm
    exact h
  · exact fun h => ⟨l, hl, h, matches_word.mpr rfl⟩

theorem matches_many_cons {a : α} :
    Matches (.many :: ps) (a :: l) ↔ Matches ps (a :: l) ∨ Matches (.many :: ps) l := by
  constructor
  · intro h
    cases h with
    | stop h => exact .inl h
    | more h => exact .inr h
  · rintro (h | h)
    · exact .stop h
    · exact .more h

/-! ## One pattern in another -/

/-- The first matches every word of the second. -/
def Includes (ps qs : List (Piece α)) : Prop := ∀ l, Matches qs l → Matches ps l

theorem Includes.refl (ps : List (Piece α)) : Includes ps ps := fun _ h => h

theorem includes_any (qs : List (Piece α)) : Includes [.many] qs := fun l _ => matches_many l

theorem includes_word : Includes ps (l.map .lit) ↔ Matches ps l := by
  constructor
  · exact fun h => h l (matches_word.mpr rfl)
  · intro h m hm
    rwa [matches_word.mp hm]

/-- The hole stands for nothing. -/
theorem Includes.skip (h : Includes ps qs) : Includes (.many :: ps) qs :=
  fun l hl => .stop (h l hl)

/-- The hole takes what the next piece stands for. -/
theorem Includes.take (h : Includes (.many :: ps) qs) : Includes (.many :: ps) (q :: qs) := by
  intro l hl
  by_cases hq : q = .many
  · subst hq
    induction l with
    | nil =>
      cases hl with
      | stop hl => exact h [] hl
    | cons a l ih =>
      rcases matches_many_cons.mp hl with hl | hl
      · exact h _ hl
      · exact .more (ih hl)
  · obtain ⟨a, m, rfl, -, hm⟩ := (matches_cons hq).mp hl
    exact .more (h m hm)

/-- Two pieces for one letter each, the first with every letter of the second. -/
theorem Includes.cons (hp : p ≠ .many) (hq : q ≠ .many) (hfit : ∀ a, Fits q a → Fits p a)
    (h : Includes ps qs) : Includes (p :: ps) (q :: qs) := by
  intro l hl
  obtain ⟨a, m, rfl, ha, hm⟩ := (matches_cons hq).mp hl
  exact (matches_cons hp).mpr ⟨a, m, rfl, hfit a ha, h m hm⟩

end OxlensSfu.Glob
