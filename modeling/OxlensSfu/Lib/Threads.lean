import OxlensSfu.Lib.Machine

/-!
# Threads over a shared state

A `Program` says how a thread takes one step on a state it shares with the others; its `machine`
runs any number of threads in any order. `ο` is what a step is told by parts outside the model.

`Program.laws_kept` is the interference rule: a law of each thread that its own steps establish
and that no step of another thread breaks holds of all threads at once. Steps of two threads that
`clash` need not be harmless to each other, when the run never has both in the pool.
-/

namespace OxlensSfu

/-- What one thread does. -/
structure Program (σ τ ο : Type*) where
  /-- A thread may start like this. -/
  fresh : τ → Prop
  step : σ → ο → τ → σ × τ

namespace Program

structure Pool (σ τ : Type*) where
  shared : σ
  threads : List τ

inductive Sched (τ ο : Type*) where
  | spawn (t : τ)
  | step (i : Nat) (o : ο)

variable {σ τ ο : Type*} (P : Program σ τ ο)

def next (p : Pool σ τ) : Sched τ ο → Pool σ τ
  | .spawn t => ⟨p.shared, p.threads ++ [t]⟩
  | .step i o =>
    match p.threads[i]? with
    | none => p
    | some t => ⟨(P.step p.shared o t).1, p.threads.set i (P.step p.shared o t).2⟩

def machine : Machine (Pool σ τ) (Sched τ ο) where
  ok _ a := match a with
    | .spawn t => P.fresh t
    | .step _ _ => True
  next := P.next

instance [DecidablePred P.fresh] (p : Pool σ τ) : (a : Sched τ ο) → Decidable (P.machine.ok p a)
  | .spawn t => inferInstanceAs (Decidable (P.fresh t))
  | .step _ _ => .isTrue trivial

theorem next_step {p : Pool σ τ} {i : Nat} {t : τ} (h : p.threads[i]? = some t) (o : ο) :
    P.next p (.step i o) =
      ⟨(P.step p.shared o t).1, p.threads.set i (P.step p.shared o t).2⟩ := by
  simp only [next, h]

theorem next_step_none {p : Pool σ τ} {i : Nat} (h : p.threads[i]? = none) (o : ο) :
    P.next p (.step i o) = p := by
  simp only [next, h]

/-- A thread after a step of thread `i` is the one that stepped or another one as it was. -/
theorem mem_set_cases {ts : List τ} {i : Nat} {t t' u : τ} (h : ts[i]? = some t)
    (hu : u ∈ ts.set i t') : u = t' ∨ ∃ j, j ≠ i ∧ ts[j]? = some u := by
  obtain ⟨j, hj⟩ := List.mem_iff_getElem?.1 hu
  by_cases e : i = j
  · subst e
    have hlt := (List.getElem?_eq_some_iff.1 h).1
    rw [List.getElem?_set_self hlt] at hj
    exact .inl (Option.some.inj hj).symm
  · rw [List.getElem?_set_ne e] at hj
    exact .inr ⟨j, Ne.symm e, hj⟩

variable {P}

/-- No two threads of the list clash. -/
def Apart (clash : τ → τ → Prop) (ts : List τ) : Prop := ts.Pairwise fun t u => ¬ clash t u

instance (clash : τ → τ → Prop) [DecidableRel clash] (ts : List τ) :
    Decidable (Apart clash ts) := inferInstanceAs (Decidable (ts.Pairwise _))

theorem Apart.of_ne {clash : τ → τ → Prop} (hsymm : ∀ t u, clash t u → clash u t) {ts : List τ}
    (h : Apart clash ts) {i j : Nat} {t u : τ} (hij : j ≠ i) (ht : ts[i]? = some t)
    (hu : ts[j]? = some u) : ¬ clash t u := by
  rw [Apart, List.pairwise_iff_getElem] at h
  obtain ⟨hi, rfl⟩ := List.getElem?_eq_some_iff.1 ht
  obtain ⟨hj, rfl⟩ := List.getElem?_eq_some_iff.1 hu
  rcases Nat.lt_or_gt_of_ne hij with hlt | hgt
  · exact fun hc => h j i hj hi hlt (hsymm _ _ hc)
  · exact h i j hi hj hgt

/-- **The interference rule**, for one scheduling decision: the law `L` of every thread is kept
when the stepping thread establishes its own and leaves alone those it does not clash with. -/
theorem laws_kept {clash : τ → τ → Prop} (hsymm : ∀ t u, clash t u → clash u t)
    {L : σ → τ → Prop} {p : Pool σ τ} {a : Sched τ ο} (hok : P.machine.ok p a)
    (hap : Apart clash p.threads) (hL : ∀ t ∈ p.threads, L p.shared t)
    (hfresh : ∀ t, P.fresh t → L p.shared t)
    (hown : ∀ i o t, a = .step i o → p.threads[i]? = some t → L p.shared t →
      L (P.step p.shared o t).1 (P.step p.shared o t).2)
    (hother : ∀ i o t u, a = .step i o → p.threads[i]? = some t → L p.shared t → L p.shared u →
      ¬ clash t u → L (P.step p.shared o t).1 u) :
    ∀ t ∈ (P.next p a).threads, L (P.next p a).shared t := by
  intro u hu
  cases a with
  | spawn t =>
    rcases List.mem_append.1 hu with h | h
    · exact hL u h
    · rw [List.mem_singleton.1 h]
      exact hfresh t hok
  | step i o =>
    cases hi : p.threads[i]? with
    | none =>
      rw [next_step_none P hi] at hu ⊢
      exact hL u hu
    | some t =>
      have ht := List.mem_of_getElem? hi
      rw [next_step P hi] at hu ⊢
      rcases mem_set_cases hi hu with rfl | ⟨j, hj, hju⟩
      · exact hown i o t rfl hi (hL t ht)
      · exact hother i o t u rfl hi (hL t ht) (hL u (List.mem_of_getElem? hju))
          (hap.of_ne hsymm hj hi hju)

end Program

end OxlensSfu
