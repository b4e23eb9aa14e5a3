import Mathlib.Data.List.TakeWhile
import OxlensSfu.Mesh.Inclusion
import OxlensSfu.Mesh.Listing

/-!
# The subscription index against plain matching

A subscription without wildcards is found under its own text, every other one by `intersects`. The
two agree as long as `intersects` of two texts without wildcards means that they are the same. It
does but for a slash at the end: the loop takes the empty chunk after it for the end of the text.
No expression that `valid` accepts ends so, and what the own process subscribes or puts has passed
it; what comes over a link has not been looked at again.

**Theorem (`matching_exact`).** After any adding and removing the index lists, each once, the
subscriptions whose expression intersects the key, without those that are the key but for a slash.
Among valid expressions and keys there are none of those.
-/

namespace OxlensSfu.Mesh

/-! ## Texts without wildcards -/

/-- The text with a slash at its end, which it did not have. -/
def Slashed (a b : List Char) : Prop := a = b ++ ['/'] ∧ b ≠ [] ∧ b.getLast? ≠ some '/'

/-- The same for the loop of `intersects`. -/
def Alike (a b : List Char) : Prop := a = b ∨ Slashed a b ∨ Slashed b a

theorem Alike.comm {a b : List Char} : Alike a b ↔ Alike b a := by
  rw [Alike, Alike, eq_comm, or_comm (a := Slashed a b)]

theorem alike_nil {a : List Char} : Alike a [] ↔ a = [] := by
  constructor
  · rintro (h | h | h)
    · exact h
    · exact absurd rfl h.2.1
    · exact absurd h.1.symm (by simp)
  · exact .inl

/-- A text is its first chunk, or that and what follows its slash. -/
theorem exists_chunk (s : List Char) : ∃ c, '/' ∉ c ∧ (s = c ∨ ∃ r, s = c ++ '/' :: r) := by
  refine ⟨s.takeWhile (· ≠ '/'), fun h => ?_, ?_⟩
  · simpa using List.mem_takeWhile_imp h
  · have hsplit := List.takeWhile_append_dropWhile (p := fun x : Char => decide (x ≠ '/')) (l := s)
    cases hd : s.dropWhile fun x => decide (x ≠ '/') with
    | nil =>
      rw [hd, List.append_nil] at hsplit
      exact .inl hsplit.symm
    | cons x r =>
      have hx := List.head?_dropWhile_not (fun x : Char => decide (x ≠ '/')) s
      rw [hd] at hsplit hx
      obtain rfl : x = '/' := by simpa using hx
      exact .inr ⟨r, hsplit.symm⟩

variable {a b c d r r' : List Char}

theorem nextChunk_self (h : '/' ∉ c) : nextChunk c = (c, []) := by
  have hall : ∀ x ∈ c, decide (x ≠ '/') = true :=
    fun x hx => decide_eq_true fun he => h (he ▸ hx)
  rw [nextChunk, List.takeWhile_eq_self_iff.2 hall, List.dropWhile_eq_nil_iff.2 hall, List.tail_nil]

theorem nextChunk_append (h : '/' ∉ c) (r : List Char) : nextChunk (c ++ '/' :: r) = (c, r) := by
  have hall : ∀ x ∈ c, decide (x ≠ '/') = true :=
    fun x hx => decide_eq_true fun he => h (he ▸ hx)
  rw [nextChunk, List.takeWhile_append_of_pos hall, List.dropWhile_append_of_pos hall]
  simp

theorem slashed_append : Slashed (c ++ '/' :: r) (c ++ '/' :: r') ↔ Slashed r r' := by
  rw [Slashed, Slashed, List.append_assoc, List.append_cancel_left_eq, List.cons_append,
    List.cons.injEq, List.getLast?_append]
  refine and_congr (and_iff_right rfl) ?_
  cases r' with
  | nil => simp
  | cons x r' => simp [List.getLast?_cons]

theorem Slashed.chunks (h : Slashed a b) :
    (nextChunk a).1 = (nextChunk b).1 ∧ Alike (nextChunk a).2 (nextChunk b).2 := by
  obtain ⟨c, hc, rfl | ⟨r, rfl⟩⟩ := exists_chunk b
  · rw [h.1, nextChunk_append hc, nextChunk_self hc]
    exact ⟨rfl, .inl rfl⟩
  · have ha : a = c ++ '/' :: (r ++ ['/']) := by simpa using h.1
    subst ha
    rw [nextChunk_append hc, nextChunk_append hc]
    exact ⟨rfl, .inr (.inl (slashed_append.1 h))⟩

theorem Alike.append (h : Alike r r') : Alike (c ++ '/' :: r) (c ++ '/' :: r') := by
  rcases h with rfl | h | h
  · exact .inl rfl
  · exact .inr (.inl (slashed_append.2 h))
  · exact .inr (.inr (slashed_append.2 h))

theorem slashed_self (hc : '/' ∉ c) (hne : c ≠ []) : Slashed (c ++ ['/']) c :=
  ⟨rfl, hne, fun h => hc (List.mem_of_getLast? h)⟩

/-- Texts are alike when they begin with the same chunk and the rests are. -/
theorem alike_iff (ha : a ≠ []) (hb : b ≠ []) :
    Alike a b ↔ (nextChunk a).1 = (nextChunk b).1 ∧ Alike (nextChunk a).2 (nextChunk b).2 := by
  constructor
  · rintro (rfl | h | h)
    · exact ⟨rfl, .inl rfl⟩
    · exact h.chunks
    · exact ⟨h.chunks.1.symm, Alike.comm.1 h.chunks.2⟩
  · rintro ⟨hchunk, hrest⟩
    obtain ⟨c, hc, rfl | ⟨r, rfl⟩⟩ := exists_chunk a <;>
      obtain ⟨d, hd, rfl | ⟨r', rfl⟩⟩ := exists_chunk b <;>
      simp only [nextChunk_self, nextChunk_append, hc, hd, not_false_eq_true] at hchunk hrest <;>
      subst hchunk
    · exact .inl rfl
    · obtain rfl := alike_nil.1 (Alike.comm.1 hrest)
      exact .inr (.inr (slashed_self hc ha))
    · obtain rfl := alike_nil.1 hrest
      exact .inr (.inl (slashed_self hc hb))
    · exact hrest.append

theorem nextChunk_plain (h : '*' ∉ a) : '*' ∉ (nextChunk a).1 ∧ '*' ∉ (nextChunk a).2 := by
  constructor
  · exact fun hx => h ((List.takeWhile_prefix _).subset hx)
  · exact fun hx => h ((List.dropWhile_suffix _).subset (List.mem_of_mem_tail hx))

/-- **Without wildcards the loop finds out whether the texts are alike.** -/
theorem intersectsLoop_alike {n : Nat} : ∀ {a b : List Char} (called : Bool), '*' ∉ a → '*' ∉ b →
    a.length + b.length < n → (intersectsLoop n called a b = true ↔ Alike a b) := by
  induction n with
  | zero => exact fun _ _ _ hn => absurd hn (Nat.not_lt_zero _)
  | succ n ih =>
    intro a b called ha hb hn
    rw [intersectsLoop]
    split_ifs with hsame hend
    · exact iff_of_true rfl (.inl hsame.2)
    · have hstar : ∀ {s : List Char}, '*' ∉ s → (s = [] ∨ s = ['*', '*'] ↔ s = []) :=
        fun hs => or_iff_left (ne_star hs).2
      simp only [Bool.and_eq_true, decide_eq_true_eq, hstar ha, hstar hb]
      rcases hend with rfl | rfl
      · rw [Alike.comm, alike_nil, and_iff_right rfl]
      · rw [alike_nil, and_iff_left rfl]
    obtain ⟨hane, hbne⟩ := not_or.1 hend
    have hla := length_nextChunk hane
    have hlb := length_nextChunk hbne
    obtain ⟨hca, hra⟩ := nextChunk_plain ha
    obtain ⟨hcb, hrb⟩ := nextChunk_plain hb
    dsimp only
    rw [if_neg (ne_star hca).2, if_neg (ne_star hcb).2, alike_iff hane hbne]
    simp only [(ne_star hca).1, (ne_star hcb).1, or_false]
    split_ifs with hchunk
    · rw [ih false hra hrb (by omega), and_iff_right hchunk]
    · exact iff_of_false (by simp) fun h => hchunk h.1

/-! ## The index -/

/-- One text is the other with a slash added at its end. -/
def Trailing (e key : String) : Prop :=
  Slashed e.toList key.toList ∨ Slashed key.toList e.toList

theorem covers_iff {e key : String} (hkey : concrete key = true) :
    covers e key = true ↔ intersects e key = true ∧ ¬ Trailing e key := by
  have hplain : ∀ {s : String}, concrete s = true ↔ '*' ∉ s.toList := by
    intro s
    rw [concrete, Bool.not_eq_true', List.contains_eq_mem, decide_eq_false_iff_not]
  have hk := hplain.1 hkey
  rw [covers]
  split_ifs with he
  · rw [intersects, intersectsLoop_alike true (hplain.1 he) hk (Nat.lt_succ_self _),
      decide_eq_true_eq]
    constructor
    · rintro rfl
      have hself : ¬ Slashed e.toList e.toList := fun h => by simpa using h.1
      exact ⟨.inl rfl, not_or.2 ⟨hself, hself⟩⟩
    · rintro ⟨halike, hnot⟩
      exact String.toList_inj.1 (or_iff_not_imp_right.1 halike hnot)
  · refine (and_iff_left ?_).symm
    have hstar : '*' ∈ e.toList := not_not.1 (mt hplain.2 he)
    rintro (h | h)
    · rw [h.1] at hstar
      simp [hk] at hstar
    · exact hk (h.1 ▸ List.mem_append_left _ hstar)

theorem getLast?_render {cs : List (List Char)} (h : Chunks cs) :
    (render cs).getLast? ≠ some '/' := by
  induction cs with
  | nil => exact nofun
  | cons c cs ih =>
    rw [render_cons]
    split_ifs with hnil
    · rw [List.append_nil]
      exact fun hlast => h.no_slash c List.mem_cons_self (List.mem_of_getLast? hlast)
    · have hne : render cs ≠ [] := mt (render_eq_nil h.tail).1 hnil
      rw [List.getLast?_append, List.getLast?_cons_of_ne_nil hne]
      have hsome : (render cs).getLast?.isSome := List.getLast?_isSome.2 hne
      rw [Option.or_of_isSome hsome]
      exact ih h.tail

/-- No valid text ends in a slash. -/
theorem not_slashed_of_valid {e : String} (h : valid e = true) (s : List Char) :
    ¬ Slashed e.toList s := by
  intro hs
  obtain ⟨hcs, hrender⟩ := valid_spec h
  refine getLast?_render hcs ?_
  rw [hrender, hs.1, List.getLast?_append]
  rfl

/-- A call of the index. -/
inductive SubOp where
  | add (o : Owner) (id : Nat) (expr : String)
  | remove (o : Owner) (id : Nat)

def SubOp.exec (x : SubIndex) : SubOp → SubIndex
  | .add o id expr => x.add o id expr
  | .remove o id => x.remove o id

/-- The expression that each subscription has after the call. -/
def SubOp.assign (want : Owner × Nat → Option String) : SubOp → Owner × Nat → Option String
  | .add o id expr => Function.update want (o, id) (some expr)
  | .remove o id => Function.update want (o, id) none

def indexed (ops : List SubOp) : SubIndex := ops.foldl SubOp.exec {}

def current (ops : List SubOp) : Owner × Nat → Option String := ops.foldl SubOp.assign fun _ => none

theorem SubOp.exec_holds {x : SubIndex} {want : Owner × Nat → Option String} (h : x.Holds want)
    (hd : x.Distinct) (op : SubOp) : (op.exec x).Holds (op.assign want) ∧ (op.exec x).Distinct := by
  cases op with
  | add o id expr => exact ⟨h.add o id expr, hd.add o id expr⟩
  | remove o id => exact ⟨h.remove o id, hd.remove o id⟩

theorem indexed_holds (ops : List SubOp) :
    (indexed ops).Holds (current ops) ∧ (indexed ops).Distinct := by
  have hrun : ∀ {x : SubIndex} {want : Owner × Nat → Option String}, x.Holds want → x.Distinct →
      (ops.foldl SubOp.exec x).Holds (ops.foldl SubOp.assign want) ∧
        (ops.foldl SubOp.exec x).Distinct := by
    induction ops with
    | nil => exact fun h hd => ⟨h, hd⟩
    | cons op ops ih =>
      intro x want h hd
      obtain ⟨h, hd⟩ := op.exec_holds h hd
      exact ih h hd
  exact hrun ⟨fun _ => rfl, by simp, by simp, by simp⟩ ⟨by simp, List.nodup_nil⟩

/-- **The index agrees with plain matching but for a slash at the end.** -/
theorem matching_exact (ops : List SubOp) {key : String} (hkey : concrete key = true) :
    ((indexed ops).matching key).Nodup ∧
      (∀ k, k ∈ (indexed ops).matching key ↔
        ∃ e, current ops k = some e ∧ intersects e key = true ∧ ¬ Trailing e key) ∧
      (valid key = true → (∀ k e, current ops k = some e → valid e = true) →
        ∀ k, k ∈ (indexed ops).matching key ↔
          ∃ e, current ops k = some e ∧ intersects e key = true) := by
  obtain ⟨h, hd⟩ := indexed_holds ops
  have hmem : ∀ k, k ∈ (indexed ops).matching key ↔
      ∃ e, current ops k = some e ∧ intersects e key = true ∧ ¬ Trailing e key := by
    intro k
    rw [SubIndex.mem_matching h]
    simp only [covers_iff hkey]
  refine ⟨SubIndex.matching_nodup h hd key, hmem, fun hk hall k => ?_⟩
  rw [hmem]
  refine exists_congr fun e => and_congr_right fun he => and_iff_left ?_
  exact not_or.2 ⟨not_slashed_of_valid (hall k e he) _, not_slashed_of_valid hk _⟩

theorem matching_exact_again :
    let ops := [.add (.loc 0) 0 "a/*", .add (.sess 1) 2 "a/b", .add (.loc 0) 0 "a/b",
      .remove (.sess 1) 2]
    ((indexed ops).matching "a/b").Nodup ∧ ∀ k, k ∈ (indexed ops).matching "a/b" ↔
      ∃ e, current ops k = some e ∧ intersects e "a/b" = true ∧ ¬ Trailing e "a/b" :=
  have h := @matching_exact [.add (.loc 0) 0 "a/*", .add (.sess 1) 2 "a/b",
    .add (.loc 0) 0 "a/b", .remove (.sess 1) 2] "a/b" (by decide)
  ⟨h.1, h.2.1⟩

/-- A session has declared a subscription with a slash at the end. -/
theorem slash_missed : ¬ ∀ (ops : List SubOp) (key : String), concrete key = true →
    ∀ k, k ∈ (indexed ops).matching key ↔
      ∃ e, current ops k = some e ∧ intersects e key = true := by
  intro h
  have hlist := (h [.add (.sess 0) 0 "a/"] "a" (by decide) (.sess 0, 0)).2
    ⟨"a/", by simp [current, SubOp.assign], by decide⟩
  exact absurd hlist (by decide)

end OxlensSfu.Mesh
