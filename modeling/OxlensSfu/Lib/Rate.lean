import Mathlib.Tactic

/-!
# Rates

How many events there can be in a stretch of time, when something about their spacing is known.

* `Spaced.length_le`: events that keep a distance are few; `Spaced.concat`: how the distance is
  kept, event by event.
* `taken_le`: events that are counted in windows, each started by the first event after the one
  before it, are few in any stretch, whatever the order of their times.
-/

namespace OxlensSfu.Rate

/-- Each event is at least `g` later than the one before it. -/
def Spaced (g : Nat) (ts : List Nat) : Prop := ts.IsChain fun a b => a + g ≤ b

variable {g : Nat} {ts us : List Nat}

@[simp] theorem spaced_nil : Spaced g [] := List.isChain_nil

@[simp] theorem spaced_singleton (t : Nat) : Spaced g [t] := List.isChain_singleton t

theorem spaced_append : Spaced g (ts ++ us) ↔
    Spaced g ts ∧ Spaced g us ∧ ∀ a ∈ ts.getLast?, ∀ b ∈ us.head?, a + g ≤ b :=
  List.isChain_append

/-- One more event. -/
theorem Spaced.concat (h : Spaced g ts) {t : Nat} (ht : ∀ a ∈ ts.getLast?, a + g ≤ t) :
    Spaced g (ts ++ [t]) := by
  refine spaced_append.2 ⟨h, spaced_singleton t, fun a ha b hb => ?_⟩
  obtain rfl : t = b := by simpa using hb
  exact ht a ha

theorem Spaced.mul_le {b t : Nat} (h : Spaced g (t :: ts)) (hb : ∀ x ∈ t :: ts, x ≤ b) :
    t + ts.length * g ≤ b := by
  induction ts generalizing t with
  | nil => simpa using hb
  | cons u ts ih =>
    obtain ⟨hu, h⟩ := List.isChain_cons_cons.1 h
    have hrest := ih h fun x hx => hb x (List.mem_cons_of_mem t hx)
    rw [List.length_cons, Nat.succ_mul]
    omega

/-- **Events that keep a distance are few.** -/
theorem Spaced.length_le (hg : 0 < g) (h : Spaced g ts) {a b : Nat}
    (hts : ∀ t ∈ ts, a ≤ t ∧ t ≤ b) : ts.length ≤ (b - a) / g + 1 := by
  cases ts with
  | nil => simp
  | cons t ts =>
    have hlast := h.mul_le fun x hx => (hts x hx).2
    have hfirst := (hts t List.mem_cons_self).1
    rw [List.length_cons, Nat.add_le_add_iff_right, Nat.le_div_iff_mul_le hg]
    omega

/-! ## Windows -/

/-- The entry is the start of a window and the number of events in it. A window that is over starts
anew; the answer is whether the event is let through. -/
def take (limit width : Nat) (e : Nat × Nat) (now : Nat) : Bool × (Nat × Nat) :=
  let e := if width ≤ now - e.1 then (now, 0) else e
  if limit ≤ e.2 then (false, e) else (true, (e.1, e.2 + 1))

variable {limit width : Nat}

/-- The window goes on or starts anew; the event is let through while there is room. -/
theorem take_cases (hl : 0 < limit) (width : Nat) (e : Nat × Nat) (now : Nat) :
    (width ≤ now - e.1 ∧ take limit width e now = (true, (now, 1))) ∨
    (now - e.1 < width ∧ e.2 < limit ∧ take limit width e now = (true, (e.1, e.2 + 1))) ∨
    (now - e.1 < width ∧ limit ≤ e.2 ∧ take limit width e now = (false, e)) := by
  by_cases h : width ≤ now - e.1
  · refine .inl ⟨h, ?_⟩
    simp only [take, if_pos h, if_neg (Nat.not_le.2 hl)]
  · by_cases hf : limit ≤ e.2
    · refine .inr (.inr ⟨Nat.not_le.1 h, hf, ?_⟩)
      simp only [take, if_neg h, if_pos hf]
    · refine .inr (.inl ⟨Nat.not_le.1 h, Nat.not_le.1 hf, ?_⟩)
      simp only [take, if_neg h, if_neg hf]

/-- The entry before the first event. -/
def entry (e : Option (Nat × Nat)) (now : Nat) : Nat × Nat := e.getD (now, 0)

/-- How many of the events are let through. -/
def taken (limit width : Nat) (e : Option (Nat × Nat)) : List Nat → Nat
  | [] => 0
  | t :: ts =>
    (if (take limit width (entry e t) t).1 then 1 else 0) +
      taken limit width (some (take limit width (entry e t) t).2) ts

/-- How many windows can still start between `a` and `b`. -/
def windows (width a b st : Nat) : Nat := min ((b - a) / width + 1) ((b - st) / width)

theorem windows_start (hw : 0 < width) {a b st now : Nat} (ha : a ≤ now) (hb : now ≤ b)
    (h : width ≤ now - st) : windows width a b now + 1 ≤ windows width a b st := by
  have hst : (b - now) / width + 1 ≤ (b - st) / width := by
    rw [← Nat.add_div_right _ hw]
    exact Nat.div_le_div_right (by omega)
  have hab : (b - now) / width ≤ (b - a) / width := Nat.div_le_div_right (by omega)
  rw [windows, windows]
  omega

theorem taken_le_windows (hw : 0 < width) (hl : 0 < limit) {a b : Nat} {ts : List Nat}
    (hts : ∀ t ∈ ts, a ≤ t ∧ t ≤ b) (e : Nat × Nat) :
    taken limit width (some e) ts ≤ (limit - e.2) + limit * windows width a b e.1 := by
  induction ts generalizing e with
  | nil => exact Nat.zero_le _
  | cons t ts ih =>
    have ih := ih fun x hx => hts x (List.mem_cons_of_mem t hx)
    obtain ⟨ha, hb⟩ := hts t List.mem_cons_self
    simp only [taken, entry, Option.getD_some]
    rcases take_cases hl width e t with ⟨hnew, heq⟩ | ⟨-, hroom, heq⟩ | ⟨-, -, heq⟩
    · have h : taken limit width (some (t, 1)) ts ≤ (limit - 1) + limit * windows width a b t :=
        ih (t, 1)
      have hstart := Nat.mul_le_mul_left limit (windows_start hw ha hb hnew)
      rw [Nat.mul_add, Nat.mul_one] at hstart
      simp only [heq, if_true]
      omega
    · have h : taken limit width (some (e.1, e.2 + 1)) ts ≤
          (limit - (e.2 + 1)) + limit * windows width a b e.1 := ih (e.1, e.2 + 1)
      simp only [heq, if_true]
      omega
    · have h := ih e
      simp only [heq, Bool.false_eq_true, if_false]
      omega

/-- **Events that are counted in windows are few.** -/
theorem taken_le (hw : 0 < width) (hl : 0 < limit) {a b : Nat} {ts : List Nat}
    (hts : ∀ t ∈ ts, a ≤ t ∧ t ≤ b) (e : Option (Nat × Nat)) :
    taken limit width e ts ≤ limit * ((b - a) / width + 2) := by
  have hmin : ∀ st, limit * windows width a b st ≤ limit * ((b - a) / width + 1) :=
    fun st => Nat.mul_le_mul_left limit (Nat.min_le_left _ _)
  rw [Nat.mul_succ]
  cases e with
  | some e =>
    have h := taken_le_windows hw hl hts e
    have := hmin e.1
    omega
  | none =>
    cases ts with
    | nil => exact Nat.zero_le _
    | cons t ts =>
      have h : taken limit width (some (t, 0)) (t :: ts) ≤
          (limit - 0) + limit * windows width a b t := taken_le_windows hw hl hts (t, 0)
      have := hmin t
      have heq : taken limit width none (t :: ts) = taken limit width (some (t, 0)) (t :: ts) := rfl
      omega

end OxlensSfu.Rate
