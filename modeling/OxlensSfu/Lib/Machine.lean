import Mathlib.Tactic

/-!
# Guarded machines

A `Machine` takes actions that its current state allows, and takes each in one way. Everything
here is about its runs: lists of actions, each allowed where it is taken.

* `Machine.invariant` — what the start has and every allowed action keeps, every run keeps.
* `Machine.since` — what holds now began with some action and has been kept ever since.
* `Machine.logged` — the machine with a history written beside its state, for properties that
  speak of what happened on the way.
* `Machine.no_infinite_run` and `Machine.exists_halted` — termination, from a measure that every
  allowed action lowers.
-/

namespace OxlensSfu

/-- A deterministic machine whose actions are guarded. -/
structure Machine (σ α : Type*) where
  /-- The action may be taken in this state. -/
  ok : σ → α → Prop
  /-- The state after the action. -/
  next : σ → α → σ

namespace Machine

variable {σ α : Type*} (M : Machine σ α)

/-- The state after a list of actions. -/
def exec (s : σ) : List α → σ
  | [] => s
  | a :: as => exec (M.next s a) as

/-- Every action of the list is allowed where it is taken. -/
def Legal (s : σ) : List α → Prop
  | [] => True
  | a :: as => M.ok s a ∧ Legal (M.next s a) as

@[simp] theorem exec_nil (s : σ) : M.exec s [] = s := rfl

@[simp] theorem exec_cons (s : σ) (a : α) (as : List α) :
    M.exec s (a :: as) = M.exec (M.next s a) as := rfl

@[simp] theorem legal_nil (s : σ) : M.Legal s [] ↔ True := Iff.rfl

@[simp] theorem legal_cons (s : σ) (a : α) (as : List α) :
    M.Legal s (a :: as) ↔ M.ok s a ∧ M.Legal (M.next s a) as := Iff.rfl

@[simp] theorem exec_append (s : σ) (as bs : List α) :
    M.exec s (as ++ bs) = M.exec (M.exec s as) bs := by
  induction as generalizing s with
  | nil => rfl
  | cons a as ih => exact ih (M.next s a)

@[simp] theorem legal_append (s : σ) (as bs : List α) :
    M.Legal s (as ++ bs) ↔ M.Legal s as ∧ M.Legal (M.exec s as) bs := by
  induction as generalizing s with
  | nil => simp
  | cons a as ih => simp [ih, and_assoc]

instance decidableLegal [∀ s a, Decidable (M.ok s a)] : (s : σ) → (as : List α) →
    Decidable (M.Legal s as)
  | _, [] => .isTrue trivial
  | s, a :: as => @instDecidableAnd _ _ _ (decidableLegal (M.next s a) as)

/-- A run is legal when every action of it is allowed after those before it. -/
theorem legal_iff {s : σ} {as : List α} :
    M.Legal s as ↔ ∀ l₁ a l₂, as = l₁ ++ a :: l₂ → M.ok (M.exec s l₁) a := by
  refine ⟨?_, ?_⟩
  · intro h l₁ a l₂ e
    subst e
    exact ((M.legal_append s l₁ (a :: l₂)).1 h).2.1
  · intro h
    induction as generalizing s with
    | nil => trivial
    | cons a as ih =>
      refine ⟨h [] a as rfl, ih fun l₁ b l₂ e => ?_⟩
      exact h (a :: l₁) b l₂ (by rw [e]; rfl)

/-- The machine whose actions must also meet `g`. -/
def restrict (g : σ → α → Prop) : Machine σ α where
  ok s a := M.ok s a ∧ g s a
  next := M.next

instance (g : σ → α → Prop) [∀ s a, Decidable (M.ok s a)] [∀ s a, Decidable (g s a)] (s : σ)
    (a : α) : Decidable ((M.restrict g).ok s a) := inferInstanceAs (Decidable (_ ∧ _))

@[simp] theorem restrict_exec (g : σ → α → Prop) (s : σ) (as : List α) :
    (M.restrict g).exec s as = M.exec s as := by
  induction as generalizing s with
  | nil => rfl
  | cons a as ih => exact ih _

theorem restrict_legal (g : σ → α → Prop) (s : σ) (as : List α) :
    (M.restrict g).Legal s as ↔
      M.Legal s as ∧ ∀ l₁ a l₂, as = l₁ ++ a :: l₂ → g (M.exec s l₁) a := by
  simp only [legal_iff, restrict_exec]
  exact ⟨fun h => ⟨fun l₁ a l₂ e => (h l₁ a l₂ e).1, fun l₁ a l₂ e => (h l₁ a l₂ e).2⟩,
    fun h l₁ a l₂ e => ⟨h.1 l₁ a l₂ e, h.2 l₁ a l₂ e⟩⟩

variable {M}

/-- **The invariant rule.** -/
theorem invariant {I : σ → Prop} (hstep : ∀ s a, I s → M.ok s a → I (M.next s a)) {s : σ}
    {as : List α} (hs : I s) (hl : M.Legal s as) : I (M.exec s as) := by
  induction as generalizing s with
  | nil => exact hs
  | cons a as ih => exact ih (hstep s a hs hl.1) hl.2

/-- **What holds all along a run, and exactly when.** If the good steps keep `I`, which implies
`P`, and a step that is not good breaks `P`, then every state on the way satisfies `P` exactly
when every step is good. -/
theorem throughout_iff {I P : σ → Prop} {g : σ → α → Prop}
    (hgood : ∀ s a, I s → M.ok s a → g s a → I (M.next s a)) (hP : ∀ s, I s → P s)
    (hbad : ∀ s a, I s → M.ok s a → ¬ g s a → ¬ P (M.next s a)) {s : σ} {as : List α} (hs : I s)
    (hl : M.Legal s as) :
    (∀ l₁ l₂, as = l₁ ++ l₂ → P (M.exec s l₁)) ↔
      ∀ l₁ a l₂, as = l₁ ++ a :: l₂ → g (M.exec s l₁) a := by
  induction as generalizing s with
  | nil =>
    refine ⟨fun _ l₁ a l₂ e => by simp at e, fun _ l₁ l₂ e => ?_⟩
    obtain ⟨rfl, rfl⟩ := List.append_eq_nil_iff.1 e.symm
    exact hP s hs
  | cons a as ih =>
    by_cases hg : g s a
    · have h := ih (hgood s a hs hl.1 hg) hl.2
      refine ⟨?_, ?_⟩
      · intro hp l₁ b l₂ e
        cases l₁ with
        | nil =>
          obtain ⟨rfl, -⟩ := List.cons.inj e
          exact hg
        | cons c l₁ =>
          obtain ⟨rfl, e'⟩ := List.cons.inj e
          exact h.1 (fun l l' hl => hp (a :: l) l' (by rw [hl]; rfl)) l₁ b l₂ e'
      · intro hq l₁ l₂ e
        cases l₁ with
        | nil => exact hP s hs
        | cons c l₁ =>
          obtain ⟨rfl, e'⟩ := List.cons.inj e
          exact h.2 (fun l b l' hl => hq (a :: l) b l' (by rw [hl]; rfl)) l₁ l₂ e'
    · refine ⟨fun hp => ?_, fun hq => absurd (hq [] a as rfl) hg⟩
      exact absurd (hp [a] as rfl) (hbad s a hs hl.1 hg)

/-- **The rule of beginnings.** If a step to a state with `P` either begins it or has it already and
keeps it, then what holds at the end of a run began at some action and was kept by all later ones. -/
theorem since {P : σ → Prop} {B K : σ → α → Prop}
    (hstep : ∀ s a, M.ok s a → P (M.next s a) → B s a ∨ P s ∧ K s a) {s : σ} {as : List α}
    (hs : ¬ P s) (hl : M.Legal s as) (hP : P (M.exec s as)) :
    ∃ l₁ a l₂, as = l₁ ++ a :: l₂ ∧ B (M.exec s l₁) a ∧
      ∀ m₁ b m₂, l₂ = m₁ ++ b :: m₂ → K (M.exec s (l₁ ++ a :: m₁)) b := by
  induction as using List.reverseRecOn with
  | nil => exact absurd hP hs
  | append_singleton as b ih =>
    obtain ⟨hl, hok, -⟩ := (M.legal_append s as [b]).1 hl
    rw [exec_append] at hP
    rcases hstep _ _ hok hP with hbegin | ⟨hP, hkeep⟩
    · exact ⟨as, b, [], rfl, hbegin, fun m₁ c m₂ e => by simp at e⟩
    · obtain ⟨l₁, a, l₂, rfl, hbegin, hkeeps⟩ := ih hl hP
      refine ⟨l₁, a, l₂ ++ [b], by simp, hbegin, fun m₁ c m₂ e => ?_⟩
      rcases List.eq_nil_or_concat m₂ with rfl | ⟨m₂, d, rfl⟩
      · obtain ⟨rfl, hc⟩ := List.append_inj' e rfl
        obtain rfl : b = c := by simpa using hc
        exact hkeep
      · rw [List.concat_eq_append, ← List.cons_append, ← List.append_assoc] at e
        exact hkeeps m₁ c m₂ (List.append_inj' e rfl).1

/-! ## Histories -/

variable (M) in
/-- The machine with a history of type `β` beside its state. -/
def logged {β : Type*} (h : β → σ → α → β) : Machine (σ × β) α where
  ok s a := M.ok s.1 a
  next s a := (M.next s.1 a, h s.2 s.1 a)

instance {β : Type*} (h : β → σ → α → β) [∀ s a, Decidable (M.ok s a)] (s : σ × β) (a : α) :
    Decidable ((M.logged h).ok s a) := inferInstanceAs (Decidable (M.ok s.1 a))

theorem logged_exec_fst {β : Type*} (h : β → σ → α → β) (s : σ × β) (as : List α) :
    ((M.logged h).exec s as).1 = M.exec s.1 as := by
  induction as generalizing s with
  | nil => rfl
  | cons a as ih => exact ih _

theorem logged_legal {β : Type*} (h : β → σ → α → β) (s : σ × β) (as : List α) :
    (M.logged h).Legal s as ↔ M.Legal s.1 as := by
  induction as generalizing s with
  | nil => exact Iff.rfl
  | cons a as ih => exact and_congr Iff.rfl (ih _)

/-! ## Termination -/

variable (M) in
/-- No action is allowed. -/
def Halted (s : σ) : Prop := ∀ a, ¬ M.ok s a

/-- A machine whose allowed actions lower a measure has no infinite run. -/
theorem no_infinite_run {β : Type*} {r : β → β → Prop} (hr : WellFounded r) (μ : σ → β)
    {I : σ → Prop} (hstep : ∀ s a, I s → M.ok s a → I (M.next s a))
    (hμ : ∀ s a, I s → M.ok s a → r (μ (M.next s a)) (μ s)) {s : σ} (hs : I s) :
    ¬ ∃ as : ℕ → α, ∀ n, M.Legal s ((List.range n).map as) := by
  intro hrun
  obtain ⟨as, hl⟩ := hrun
  let run : ℕ → σ := fun n => M.exec s ((List.range n).map as)
  have hsucc : ∀ n, run (n + 1) = M.next (run n) (as n) := fun n => by
    simp [run, List.range_succ]
  have hok : ∀ n, M.ok (run n) (as n) := fun n => by
    have h := hl (n + 1)
    rw [List.range_succ, List.map_append, legal_append] at h
    exact h.2.1
  have hI : ∀ n, I (run n) := fun n => invariant hstep hs (hl n)
  refine (wellFounded_iff_isEmpty_descending_chain.1 hr).false ⟨fun n => μ (run n), fun n => ?_⟩
  show r (μ (run (n + 1))) (μ (run n))
  rw [hsucc]
  exact hμ _ _ (hI n) (hok n)

/-- A machine whose allowed actions lower a measure reaches a halted state. -/
theorem exists_halted {β : Type*} {r : β → β → Prop} (hr : WellFounded r) (μ : σ → β)
    {I : σ → Prop} (hstep : ∀ s a, I s → M.ok s a → I (M.next s a))
    (hμ : ∀ s a, I s → M.ok s a → r (μ (M.next s a)) (μ s)) {s : σ} (hs : I s) :
    ∃ as, M.Legal s as ∧ M.Halted (M.exec s as) := by
  generalize hb : μ s = b
  induction b using hr.induction generalizing s with
  | _ b ih =>
    subst hb
    by_cases h : ∃ a, M.ok s a
    · obtain ⟨a, ha⟩ := h
      obtain ⟨as, hl, hh⟩ := ih _ (hμ s a hs ha) (hstep s a hs ha) rfl
      exact ⟨a :: as, ⟨ha, hl⟩, hh⟩
    · exact ⟨[], trivial, fun a ha => h ⟨a, ha⟩⟩

end Machine

end OxlensSfu
