import Mathlib.Tactic
import OxlensSfu.Lib.Glob
import OxlensSfu.Mesh.Wire

/-!
# When two key expressions intersect

`intersects` (`crates/oxmesh/src/keyexpr.rs`) goes along two expressions chunk by chunk, with
several ends of its own. What it should find is a key that both match: `*` stands for one chunk of
it and `**` for any number.

An expression that `valid` accepts is a list of chunks, none of them empty and no two `**` next to
each other. On such lists the loop takes the steps by which two patterns meet. The last line of it,
where one expression has come to its end and the other may only be `**`, is right because a second
`**` cannot follow the first.

**Theorem (`intersects_exact`).** On valid expressions the function ends, and finds that they
intersect exactly when some key matches both.
-/

namespace OxlensSfu.Mesh

open Glob

/-! ## Valid expressions -/

def forbidden : List Char := ['$', '?', '#']

/-- The loop of `valid` over the chunks. -/
def validLoop : Bool → List (List Char) → Bool
  | _, [] => true
  | prevDouble, c :: cs =>
    if c = [] ∨ ('*' ∈ c ∧ c ≠ ['*'] ∧ c ≠ ['*', '*']) then false
    else
      let double : Bool := c = ['*', '*']
      if double ∧ prevDouble then false else validLoop double cs

def valid (e : String) : Bool :=
  if e.toList = [] ∨ e.toList.any (forbidden.contains ·) then false
  else validLoop false (e.toList.splitOn '/')

/-- What makes a list the chunks of a valid expression. -/
structure Chunks (cs : List (List Char)) : Prop where
  ne_nil : ∀ c ∈ cs, c ≠ []
  no_slash : ∀ c ∈ cs, '/' ∉ c
  star : ∀ c ∈ cs, '*' ∈ c → c = ['*'] ∨ c = ['*', '*']
  single : cs.IsChain fun c d => ¬ (c = ['*', '*'] ∧ d = ['*', '*'])

theorem chunks_nil : Chunks [] := ⟨by simp, by simp, by simp, .nil⟩

theorem Chunks.tail {c : List Char} {cs : List (List Char)} (h : Chunks (c :: cs)) : Chunks cs where
  ne_nil d hd := h.ne_nil d (List.mem_cons_of_mem c hd)
  no_slash d hd := h.no_slash d (List.mem_cons_of_mem c hd)
  star d hd := h.star d (List.mem_cons_of_mem c hd)
  single := h.single.tail

theorem validLoop_spec {cs : List (List Char)} (hslash : ∀ c ∈ cs, '/' ∉ c) :
    ∀ {prevDouble : Bool}, validLoop prevDouble cs = true →
      Chunks cs ∧ (prevDouble = true → cs.head? ≠ some ['*', '*']) := by
  induction cs with
  | nil => exact fun _ => ⟨chunks_nil, by simp⟩
  | cons c cs ih =>
    intro prevDouble h
    rw [validLoop] at h
    split_ifs at h with hbad
    dsimp only at h
    split_ifs at h with hdouble
    obtain ⟨hne, hstar⟩ := not_or.mp hbad
    obtain ⟨hcs, hhead⟩ := ih (fun d hd => hslash d (List.mem_cons_of_mem c hd)) h
    refine ⟨⟨?_, hslash, ?_, ?_⟩, ?_⟩
    · exact List.forall_mem_cons.mpr ⟨hne, hcs.ne_nil⟩
    · refine List.forall_mem_cons.mpr ⟨fun hc => ?_, hcs.star⟩
      by_contra hn
      exact hstar ⟨hc, not_or.mp hn⟩
    · refine List.isChain_cons.mpr ⟨fun d hd => ?_, hcs.single⟩
      rintro ⟨rfl, rfl⟩
      exact hhead rfl hd
    · rintro hprev hc
      obtain rfl : c = ['*', '*'] := Option.some.inj hc
      exact hdouble (by simp [hprev])

theorem no_slash_splitOn (s : List Char) : ∀ c ∈ s.splitOn '/', '/' ∉ c := by
  induction s with
  | nil => simp [List.splitOn_nil]
  | cons x s ih =>
    rw [List.splitOn_cons_eq_if_modifyHead]
    split_ifs with hx
    · exact List.forall_mem_cons.mpr ⟨List.not_mem_nil, ih⟩
    · have hx : x ≠ '/' := by simpa using hx
      cases hs : s.splitOn '/' with
      | nil => simp
      | cons c cs =>
        rw [hs] at ih
        obtain ⟨hc, hcs⟩ := List.forall_mem_cons.mp ih
        exact List.forall_mem_cons.mpr ⟨by simp [hc, hx.symm], hcs⟩

/-- The expression with these chunks. -/
def render (cs : List (List Char)) : List Char := ['/'].intercalate cs

theorem valid_spec {e : String} (h : valid e = true) :
    Chunks (e.toList.splitOn '/') ∧ render (e.toList.splitOn '/') = e.toList := by
  rw [valid] at h
  split_ifs at h
  exact ⟨(validLoop_spec (no_slash_splitOn _) h).1, List.intercalate_splitOn '/'⟩

theorem render_nil : render [] = [] := rfl

theorem render_cons (c : List Char) (cs : List (List Char)) :
    render (c :: cs) = c ++ if cs = [] then [] else '/' :: render cs := by
  rw [render]
  split_ifs with h
  · rw [h, List.intercalate_singleton, List.append_nil]
  · rw [List.intercalate_cons_of_ne_nil h, List.append_assoc, List.singleton_append, render]

theorem render_eq_nil {cs : List (List Char)} (h : Chunks cs) : render cs = [] ↔ cs = [] := by
  cases cs with
  | nil => simp [render_nil]
  | cons c cs => simp [render_cons, h.ne_nil c List.mem_cons_self]

theorem render_injective {cs ds : List (List Char)} (hcs : Chunks cs) (hds : Chunks ds)
    (h : render cs = render ds) : cs = ds := by
  by_cases hnil : cs = []
  · subst hnil
    exact ((render_eq_nil hds).mp h.symm).symm
  · have hne : ds ≠ [] := fun he => hnil ((render_eq_nil hcs).mp (by rw [h, he, render_nil]))
    rw [← List.splitOn_intercalate '/' hcs.no_slash hnil,
      ← List.splitOn_intercalate '/' hds.no_slash hne]
    exact congrArg (List.splitOn '/') h

theorem nextChunk_render {c : List Char} {cs : List (List Char)} (h : Chunks (c :: cs)) :
    nextChunk (render (c :: cs)) = (c, render cs) := by
  have hslash : ∀ x ∈ c, (decide (x ≠ '/')) = true := by
    intro x hx
    refine decide_eq_true ?_
    rintro rfl
    exact h.no_slash c List.mem_cons_self hx
  rw [nextChunk, render_cons, List.takeWhile_append_of_pos hslash,
    List.dropWhile_append_of_pos hslash]
  split_ifs with hnil <;> simp [hnil, render_nil]

theorem length_render {c : List Char} {cs : List (List Char)} (h : Chunks (c :: cs)) :
    (render cs).length < (render (c :: cs)).length := by
  have hpos := List.length_pos_of_ne_nil (h.ne_nil c List.mem_cons_self)
  rw [render_cons, List.length_append]
  split_ifs with hnil
  · simpa [hnil, render_nil] using hpos
  · rw [List.length_cons]
    omega

/-! ## Expressions as patterns -/

def piece (c : List Char) : Piece (List Char) :=
  if c = ['*'] then .one else if c = ['*', '*'] then .many else .lit c

/-- A chunk of a key. -/
def Letter (c : List Char) : Prop := c ≠ [] ∧ '/' ∉ c ∧ c ≠ ['*'] ∧ c ≠ ['*', '*']

def pattern (cs : List (List Char)) : List (Piece (List Char)) := cs.map piece

theorem piece_eq_many {c : List Char} : piece c = .many ↔ c = ['*', '*'] := by
  rw [piece]
  split_ifs with h₁ h₂
  · simp [h₁]
  · simp [h₂]
  · simp [h₂]

instance (c : List Char) : Decidable (Letter c) := inferInstanceAs (Decidable (_ ∧ _))

theorem letter_x : Letter ['x'] := by decide

theorem exists_letter : ∃ c, Letter c := ⟨_, letter_x⟩

theorem Chunks.legal {cs : List (List Char)} (h : Chunks cs) : Legal Letter (pattern cs) := by
  intro a ha
  obtain ⟨c, hc, he⟩ := List.mem_map.mp ha
  rw [piece] at he
  split_ifs at he with h₁ h₂
  obtain rfl := Piece.lit.inj he
  exact ⟨h.ne_nil c hc, h.no_slash c hc, h₁, h₂⟩

/-- Two chunks that the loop takes together have a chunk of a key in common. -/
theorem fits_iff {c d : List Char} {cs ds : List (List Char)} (hcs : Chunks (c :: cs))
    (hds : Chunks (d :: ds)) (hc : c ≠ ['*', '*']) (hd : d ≠ ['*', '*']) :
    (∃ a, Letter a ∧ Fits (piece c) a ∧ Fits (piece d) a) ↔ c = d ∨ c = ['*'] ∨ d = ['*'] := by
  have hletter : ∀ {e : List Char} {es : List (List Char)}, Chunks (e :: es) → e ≠ ['*', '*'] →
      ∃ a, Letter a ∧ Fits (piece e) a := by
    intro e es hes he
    exact exists_fits exists_letter hes.legal (mt piece_eq_many.mp he)
  by_cases h₁ : c = ['*']
  · subst h₁
    obtain ⟨a, ha, hfit⟩ := hletter hds hd
    exact iff_of_true ⟨a, ha, trivial, hfit⟩ (.inr (.inl rfl))
  by_cases h₂ : d = ['*']
  · subst h₂
    obtain ⟨a, ha, hfit⟩ := hletter hcs hc
    exact iff_of_true ⟨a, ha, hfit, trivial⟩ (.inr (.inr rfl))
  simp only [h₁, h₂, or_false, piece, hc, hd, if_false, Fits]
  constructor
  · rintro ⟨a, -, rfl, rfl⟩
    rfl
  · rintro rfl
    obtain ⟨a, ha, hfit⟩ := hletter hcs hc
    simp only [piece, h₁, hc, if_false, Fits] at hfit
    exact ⟨a, ha, hfit, hfit⟩

/-! ## The loop -/

/-- What is left of an expression when the other has come to its end. -/
theorem meets_end {ds : List (List Char)} (h : Chunks ds) :
    Meets Letter [] (pattern ds) ↔ render ds = [] ∨ render ds = ['*', '*'] := by
  have hstar : Chunks [['*', '*']] := ⟨by simp, by simp, by simp, .singleton _⟩
  have hone : render ds = ['*', '*'] ↔ ds = [['*', '*']] := by
    constructor
    · exact fun he => render_injective h hstar he
    · rintro rfl
      rfl
  rw [meets_nil, render_eq_nil h, hone]
  constructor
  · intro hall
    match ds, h with
    | [], _ => exact .inl rfl
    | [d], _ =>
      obtain rfl := piece_eq_many.mp (hall (piece d) (by simp [pattern]))
      exact .inr rfl
    | d :: e :: ds, h =>
      have hd := piece_eq_many.mp (hall (piece d) (by simp [pattern]))
      have he := piece_eq_many.mp (hall (piece e) (by simp [pattern]))
      exact absurd ⟨hd, he⟩ (List.isChain_cons_cons.mp h.single).1
  · rintro (rfl | rfl)
    · simp [pattern]
    · simp [pattern, piece]

/-- **The loop finds out whether the two patterns meet.** -/
theorem intersectsLoop_iff {n : Nat} : ∀ {cs ds : List (List Char)} (called : Bool), Chunks cs →
    Chunks ds → (render cs).length + (render ds).length < n →
    (intersectsLoop n called (render cs) (render ds) = true ↔
      Meets Letter (pattern cs) (pattern ds)) := by
  induction n with
  | zero => exact fun _ _ _ hn => absurd hn (Nat.not_lt_zero _)
  | succ n ih =>
    intro cs ds called hcs hds hn
    rw [intersectsLoop]
    split_ifs with hsame hend
    · obtain rfl := render_injective hcs hds hsame.2
      exact iff_of_true rfl (meets_self exists_letter hcs.legal)
    · simp only [Bool.and_eq_true, decide_eq_true_eq]
      rw [render_eq_nil hcs, render_eq_nil hds] at hend
      rcases hend with rfl | rfl
      · rw [← meets_end hds]
        simp [pattern, render_nil]
      · rw [← meets_end hcs, meets_comm]
        simp [pattern, render_nil]
    rw [render_eq_nil hcs, render_eq_nil hds] at hend
    match cs, ds, hcs, hds with
    | [], _, _, _ => exact absurd (.inl rfl) hend
    | _ :: _, [], _, _ => exact absurd (.inr rfl) hend
    | c :: cs, d :: ds, hcs, hds =>
      have hlc := length_render hcs
      have hld := length_render hds
      rw [nextChunk_render hcs, nextChunk_render hds]
      dsimp only
      have hright := @ih cs (d :: ds) true hcs.tail hds (by omega)
      have hleft := @ih (c :: cs) ds true hcs hds.tail (by omega)
      split_ifs with hc hd hboth
      · subst hc
        by_cases hnil : cs = []
        · subst hnil
          exact iff_of_true (by simp [render_nil]) (meets_any exists_letter hds.legal)
        · rw [Bool.or_eq_true, Bool.or_eq_true, hleft, hright]
          rw [decide_eq_true_eq, render_eq_nil hcs.tail]
          simp only [hnil, false_or]
          exact (meets_many exists_letter hds.legal).symm
      · subst hd
        by_cases hnil : ds = []
        · subst hnil
          exact iff_of_true (by simp [render_nil]) (meets_any exists_letter hcs.legal).symm
        · rw [Bool.or_eq_true, Bool.or_eq_true, hleft, hright]
          rw [decide_eq_true_eq, render_eq_nil hds.tail]
          simp only [hnil, false_or]
          exact (meets_many_right exists_letter hcs.legal).symm
      · rw [ih false hcs.tail hds.tail (by omega)]
        have hcons : Meets Letter (pattern (c :: cs)) (pattern (d :: ds)) ↔ _ :=
          meets_cons (mt piece_eq_many.mp hc) (mt piece_eq_many.mp hd)
        rw [hcons, fits_iff hcs hds hc hd]
        exact (and_iff_right hboth).symm
      · have hcons : Meets Letter (pattern (c :: cs)) (pattern (d :: ds)) ↔ _ :=
          meets_cons (mt piece_eq_many.mp hc) (mt piece_eq_many.mp hd)
        rw [hcons, fits_iff hcs hds hc hd]
        exact iff_of_false id fun h => hboth h.1

/-! ## The end of the function -/

/-- The same loop, where rounds that run out are told from an answer. -/
def intersectsWithin : Nat → Bool → List Char → List Char → Option Bool
  | 0, _, _, _ => none
  | n + 1, called, a, b =>
    if called ∧ a = b then some true
    else if a = [] ∨ b = [] then some ((a = [] ∨ a = ['*', '*']) && (b = [] ∨ b = ['*', '*']))
    else
      let (c₁, r₁) := nextChunk a
      let (c₂, r₂) := nextChunk b
      if c₁ = ['*', '*'] then
        if r₁ = [] then some true
        else do if ← intersectsWithin n true a r₂ then some true else intersectsWithin n true r₁ b
      else if c₂ = ['*', '*'] then
        if r₂ = [] then some true
        else do if ← intersectsWithin n true r₁ b then some true else intersectsWithin n true a r₂
      else if c₁ = c₂ ∨ c₁ = ['*'] ∨ c₂ = ['*'] then intersectsWithin n false r₁ r₂
      else some false

theorem length_nextChunk {s : List Char} (h : s ≠ []) : (nextChunk s).2.length < s.length := by
  have hdrop := (List.dropWhile_suffix (l := s) (· ≠ '/')).length_le
  have hpos := List.length_pos_of_ne_nil h
  rw [nextChunk, List.length_tail]
  omega

/-- Every round takes a chunk away, so rounds enough are as many as there are characters. -/
theorem intersectsWithin_eq {n : Nat} : ∀ {m : Nat} (called : Bool) (a b : List Char),
    a.length + b.length < n → a.length + b.length < m →
      intersectsWithin n called a b = some (intersectsLoop m called a b) := by
  induction n with
  | zero => exact fun _ _ _ hn => absurd hn (Nat.not_lt_zero _)
  | succ n ih =>
    intro m called a b hn hm
    obtain _ | m := m
    · exact absurd hm (Nat.not_lt_zero _)
    rw [intersectsWithin, intersectsLoop]
    split_ifs with hsame hend
    · rfl
    · rfl
    obtain ⟨ha, hb⟩ := not_or.mp hend
    have hla := length_nextChunk ha
    have hlb := length_nextChunk hb
    dsimp only
    rw [@ih m true a (nextChunk b).2 (by omega) (by omega),
      @ih m true (nextChunk a).2 b (by omega) (by omega),
      @ih m false (nextChunk a).2 (nextChunk b).2 (by omega) (by omega)]
    split_ifs with h₁ h₂ h₃ h₄ h₅
    · simp [h₂]
    · cases intersectsLoop m true a (nextChunk b).2 <;> simp [h₂]
    · simp [h₄]
    · cases intersectsLoop m true (nextChunk a).2 b <;> simp [h₄]
    · rfl
    · rfl

/-! ## What it finds -/

/-- A key: chunks between slashes, none of them empty or a wildcard. -/
def Key (k : String) : Prop := ∀ c ∈ k.toList.splitOn '/', c ≠ [] ∧ c ≠ ['*'] ∧ c ≠ ['*', '*']

instance (k : String) : Decidable (Key k) := List.decidableBAll _ (k.toList.splitOn '/')

/-- The key is one of those the expression stands for. -/
def Stands (e k : String) : Prop := Matches (pattern (e.toList.splitOn '/')) (k.toList.splitOn '/')

/-- Patterns of expressions that meet do so in the chunks of a key. -/
theorem meets_iff_key {cs ds : List (List Char)} (hcs : Chunks cs) (hds : Chunks ds)
    (hc : cs ≠ []) (hd : ds ≠ []) :
    Meets Letter (pattern cs) (pattern ds) ↔
      ∃ k : String, Key k ∧ Matches (pattern cs) (k.toList.splitOn '/') ∧
        Matches (pattern ds) (k.toList.splitOn '/') := by
  constructor
  · rintro ⟨l, hl, hml, hmr⟩
    by_cases hnil : l = []
    · -- No chunk at all is no key. Both are `**` then, and any key will do.
      subst hnil
      have hwild : ∀ {es : List (List Char)}, Chunks es → es ≠ [] → Matches (pattern es) [] →
          es = [['*', '*']] := by
        intro es hes hne hm
        have hmeet : Meets Letter [] (pattern es) := ⟨[], hl, .nil, hm⟩
        rcases (meets_end hes).mp hmeet with he | he
        · exact absurd ((render_eq_nil hes).mp he) hne
        · exact render_injective hes ⟨by simp, by simp, by simp, .singleton _⟩ he
      rw [hwild hcs hc hml, hwild hds hd hmr]
      exact ⟨"x", by decide, matches_many _, matches_many _⟩
    · have hslash : ∀ c ∈ l, '/' ∉ c := fun c hc => (hl c hc).2.1
      refine ⟨String.ofList (render l), ?_⟩
      rw [Key, String.toList_ofList, render, List.splitOn_intercalate '/' hslash hnil]
      exact ⟨fun c hc => ⟨(hl c hc).1, (hl c hc).2.2⟩, hml, hmr⟩
  · rintro ⟨k, hk, hml, hmr⟩
    refine ⟨_, fun c hc => ?_, hml, hmr⟩
    exact ⟨(hk c hc).1, no_slash_splitOn _ c hc, (hk c hc).2⟩

/-- **The intersection is exact.** The function ends, and finds that two valid expressions
intersect when, and only when, there is a key that both stand for. -/
theorem intersects_exact {a b : String} (ha : valid a = true) (hb : valid b = true) :
    (∃ n, ∀ m ≥ n, intersectsWithin m true a.toList b.toList = some (intersects a b)) ∧
      (intersects a b = true ↔ ∃ k : String, Key k ∧ Stands a k ∧ Stands b k) := by
  obtain ⟨hcs, hcr⟩ := valid_spec ha
  obtain ⟨hds, hdr⟩ := valid_spec hb
  constructor
  · refine ⟨a.toList.length + b.toList.length + 1, fun m hm => ?_⟩
    exact intersectsWithin_eq true _ _ hm (Nat.lt_succ_self _)
  · have hloop := intersectsLoop_iff true hcs hds
      (n := (render (a.toList.splitOn '/')).length + (render (b.toList.splitOn '/')).length + 1)
      (Nat.lt_succ_self _)
    have hkey := meets_iff_key hcs hds (List.splitOn_ne_nil _ _) (List.splitOn_ne_nil _ _)
    rw [hkey, hcr, hdr] at hloop
    exact hloop

theorem intersects_exact_both :
    intersects "a/**/c" "*/b/*" = true ↔
      ∃ k : String, Key k ∧ Stands "a/**/c" k ∧ Stands "*/b/*" k :=
  (intersects_exact (by decide) (by decide)).2

end OxlensSfu.Mesh
