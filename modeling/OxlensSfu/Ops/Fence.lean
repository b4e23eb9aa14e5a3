import OxlensSfu.Ops.Clock

/-!
# Timers and grants

A timer that ends or revokes a grant (T1, T2, T3) is collected while some grant is current and
fired later. The only check in between is that a timer of that name is armed, so a call that
arms it anew for another grant hands the collected key on to that grant (`Act.Revives`). Nothing
else does: the other timers of a batch do not, because keys are fired in the order of their names
and T1 comes before T2 and T3.
-/

namespace OxlensSfu.Ops

open Std OxlensSfu.Flr

/-- The timer ends or revokes a grant. -/
def Key.Critical (k : Key) : Prop := k.timer = .T1 ∨ k.timer = .T2 ∨ k.timer = .T3

instance (k : Key) : Decidable k.Critical := inferInstanceAs (Decidable (_ ∨ _))

/-- The history of a run: the grant number when `fire_due` last collected. -/
def stamp (n : Nat) (r : RoomFloor) (a : Act) : Nat :=
  match a with
  | .collect .. => r.clock.grantNo
  | _ => n

/-- The effect grants the floor. -/
def isBind : Fx → Bool
  | .bind _ => true
  | .release _ => false

/-- What the floor does in a run call. -/
def RoomFloor.decided (r : RoomFloor) (t2Ms : Nat) (o : Op) (now : Nat) : St :=
  r.floor.apply (withT2 o (r.clock.t2Left t2Ms now))

/-- A run call leaves a collected T1, T2 or T3 armed that was not armed before it, or leaves it
armed and grants the floor. -/
def Act.Revives (t2Ms : Nat) (r : RoomFloor) : Act → Prop
  | .run o now => ∃ k ∈ r.due, k.Critical ∧ Arms (r.decided t2Ms o now).fl k ∧
      (¬ Arms r.floor k ∨ (r.decided t2Ms o now).r.fx.any isBind)
  | _ => False

instance (t2Ms : Nat) (r : RoomFloor) : (a : Act) → Decidable (a.Revives t2Ms r)
  | .run o now => inferInstanceAs (Decidable (∃ k ∈ r.due, k.Critical ∧
      Arms (r.decided t2Ms o now).fl k ∧
      (¬ Arms r.floor k ∨ (r.decided t2Ms o now).r.fx.any isBind)))
  | .onRtp .. | .collect .. | .fire _ => inferInstanceAs (Decidable False)

/-! ## Which timers are armed -/

/-- The critical timers depend on the arbitration state and on whether there was RTP. -/
theorem arms_critical {f : Floor} {k : Key} (hk : k.Critical) (h : Arms f k) :
    (k = ⟨.T1, none⟩ ∧ f.g ≠ .idle) ∨ (k = ⟨.T2, none⟩ ∧ f.g = .taken ∧ f.firstRtp = true) ∨
      (k = ⟨.T3, none⟩ ∧ f.g = .prevoke) := by
  obtain ⟨t, u⟩ := k
  cases u with
  | none =>
    rcases hk with rfl | rfl | rfl
    · exact .inl ⟨rfl, mem_armedServer.1.1 h⟩
    · exact .inr (.inl ⟨rfl, mem_armedServer.2.1.1 h⟩)
    · exact .inr (.inr ⟨rfl, mem_armedServer.2.2.1.1 h⟩)
  | some u =>
    have hp : t ∈ f.armedParticipant u := h
    rw [Floor.armedParticipant] at hp
    rcases hk with rfl | rfl | rfl <;> cases hparts : f.parts[u]? <;> simp [hparts] at hp

theorem arms_congr {f f' : Floor} (hg : f'.g = f.g) (hr : f'.firstRtp = f.firstRtp) {k : Key}
    (hk : k.Critical) (h : Arms f' k) : Arms f k := by
  rcases arms_critical hk h with ⟨rfl, h₁⟩ | ⟨rfl, h₁⟩ | ⟨rfl, h₁⟩
  · exact mem_armedServer.1.2 (hg ▸ h₁)
  · exact mem_armedServer.2.1.2 (hg ▸ hr ▸ h₁)
  · exact mem_armedServer.2.2.1.2 (hg ▸ h₁)

/-- After the floor was given up it is not being revoked, and nobody has sent RTP yet. -/
theorem idleEnter_quiet (s : St) :
    s.idleEnter.fl.g ≠ .prevoke ∧ s.idleEnter.fl.firstRtp = false := by
  cases hq : s.fl.queue with
  | nil =>
    obtain ⟨⟨P, q, e⟩, -⟩ := St.idleEnter_fl_nil hq
    rw [e]
    exact ⟨by simp, rfl⟩
  | cons w ws =>
    obtain ⟨⟨P, q, e⟩, -⟩ := St.idleEnter_fl_cons hq
    rw [e]
    exact ⟨by simp, rfl⟩

theorem t1_quiet (f : Floor) : f.t1.fl.g ≠ .prevoke ∧ f.t1.fl.firstRtp = false := by
  rw [Floor.t1]
  split_ifs <;> exact idleEnter_quiet _

/-- The other timers change neither the holder nor what is armed of T1, T2 and T3. -/
theorem fire_aside (f : Floor) {t : Timer} (u : String) (h : ¬ (Key.mk t none).Critical) :
    (fire f t u).fl.g = f.g ∧ (fire f t u).fl.firstRtp = f.firstRtp ∧
      (fire f t u).r.fx = [] := by
  cases t with
  | T1 => exact absurd (.inl rfl) h
  | T2 => exact absurd (.inr (.inl rfl)) h
  | T3 => exact absurd (.inr (.inr rfl)) h
  | T7 =>
    obtain ⟨⟨P, q, e⟩, hx⟩ := St.Same.fan
      { f.start.label "FLR.S.G.IDLE.T7" with fl := { f with c7 := f.c7 + 1 } }
      { t := .idle, a := f.prev } none
    rw [fire, Floor.t7]
    dsimp only
    rw [e, hx]
    exact ⟨rfl, rfl, rfl⟩
  | T20 =>
    rw [fire, Floor.t20]
    dsimp only
    split_ifs
    · obtain ⟨⟨P, q, e⟩, hx⟩ := St.Same.partA
        { f.start.label "FLR.S.G.TAKEN.T20" with fl := { f with c20 := f.c20 + 1 } }
        (f.speaker.getD "") { t := .granted, n := f.sprio, d := f.t2Full }
      rw [e, hx]
      exact ⟨rfl, rfl, rfl⟩
    · exact ⟨rfl, rfl, rfl⟩
  | T8 =>
    rw [fire, Floor.t8]
    split_ifs <;> exact ⟨rfl, rfl, rfl⟩
  | T9 => exact ⟨rfl, rfl, rfl⟩
  | T21 =>
    rw [fire, Floor.t21]
    split_ifs <;> exact ⟨rfl, rfl, rfl⟩

theorem t2_fx (f : Floor) : f.t2.r.fx = [] := by
  rw [Floor.t2, (St.prevokeEnter_fl _ _ _).2]
  rfl

/-! ## The fence -/

/-- Keys are collected in their order, and a collected T1, T2 or T3 that is armed belongs to the
grant at which it was collected. -/
structure FenceInv (s : RoomFloor × Nat) : Prop where
  sorted : s.1.due.Pairwise fun a b => compare a b = .lt
  fenced : ∀ k ∈ s.1.due, k.Critical → Arms s.1.floor k → s.1.clock.grantNo = s.2

theorem Clock.collect_sorted (ck : Clock) (lastRtp : Option Nat) (now : Nat) :
    (ck.collect lastRtp now).2.Pairwise fun a b => compare a b = .lt := by
  have hs : ((ck.collect lastRtp now).2).Sublist (ck.putOff lastRtp now).timers.keys := by
    rw [← TreeMap.map_fst_toList_eq_keys]
    exact List.filter_sublist.map _
  exact (TreeMap.ordered_keys).sublist hs

theorem Clock.effects_grantNo {fx : List Fx} (ck : Clock) (now : Nat)
    (h : fx.any isBind = false) : (ck.effects now fx).1.grantNo = ck.grantNo := by
  induction fx with
  | nil => rfl
  | cons e fx ih =>
    rw [List.any_cons, Bool.or_eq_false_iff] at h
    cases e with
    | bind u => exact absurd h.1 (by simp [isBind])
    | release prev => exact ih h.2

/-- Firing an armed key keeps the fence for the keys behind it. -/
theorem fire_fenced {f : Floor} {k k' : Key} {n g : Nat} (ck : Clock) (now : Nat)
    (hk : Arms f k) (hn : k.Critical → ck.grantNo = n) (hlt : compare k k' = .lt)
    (hc' : k'.Critical) (hn' : Arms f k' → ck.grantNo = n)
    (hk' : Arms (fire f k.timer (k.user.getD "")).fl k')
    (hg : g = (ck.effects now (fire f k.timer (k.user.getD "")).r.fx).1.grantNo) : g = n := by
  by_cases hc : k.Critical
  · rcases arms_critical hc hk with ⟨rfl, -⟩ | ⟨rfl, -⟩ | ⟨rfl, -⟩
    · -- T1: what comes after it is no longer armed
      obtain ⟨hq₁, hq₂⟩ := t1_quiet f
      rcases arms_critical hc' hk' with ⟨rfl, -⟩ | ⟨-, -, hr⟩ | ⟨-, hp⟩
      · exact absurd hlt (by decide)
      · exact absurd (hq₂.symm.trans hr) (by simp)
      · exact absurd hp hq₁
    · -- T2 revokes, and grants nothing
      rw [hg, show (fire f .T2 _).r.fx = [] from t2_fx f]
      exact hn hc
    · -- T3 is the last of the three
      rcases arms_critical hc' hk' with ⟨rfl, -⟩ | ⟨rfl, -⟩ | ⟨rfl, -⟩ <;>
        exact absurd hlt (by decide)
  · obtain ⟨h₁, h₂, h₃⟩ := fire_aside f (t := k.timer) (k.user.getD "") fun h => hc h
    rw [hg, h₃]
    exact hn' (arms_congr h₁ h₂ hc' hk')

theorem step_fenceInv {t2Ms : Nat} (s : RoomFloor × Nat) (a : Act) (h : FenceInv s)
    (ha : (clockwork t2Ms).ok s.1 a) (hr : ¬ a.Revives t2Ms s.1) :
    FenceInv (((clockwork t2Ms).logged stamp).next s a) := by
  obtain ⟨r, n⟩ := s
  cases a with
  | run o now =>
    refine ⟨h.sorted, ?_⟩
    intro k hk hc hk'
    have harm : Arms r.floor k ∧ (r.decided t2Ms o now).r.fx.any isBind = false := by
      by_contra hn
      rw [not_and_or, Bool.not_eq_false] at hn
      exact hr ⟨k, hk, hc, hk', hn⟩
    show (r.clock.effects now (r.decided t2Ms o now).r.fx).1.grantNo = n
    rw [Clock.effects_grantNo _ _ harm.2]
    exact h.fenced k hk hc harm.1
  | onRtp first now =>
    refine ⟨h.sorted, ?_⟩
    intro k hk hc hk'
    have hg : (r.clock.onRtp first now).grantNo = r.clock.grantNo := by
      rw [Clock.onRtp]
      dsimp only
      split_ifs <;> rfl
    exact hg.trans (h.fenced k hk hc hk')
  | collect lastRtp now =>
    exact ⟨r.clock.collect_sorted lastRtp now, fun k _ _ _ => (r.clock.putOff_timers lastRtp now).2⟩
  | fire now =>
    obtain ⟨k, ks, hdue⟩ := List.exists_cons_of_ne_nil (show r.due ≠ [] from ha)
    have hnext : ((clockwork t2Ms).logged stamp).next (r, n) (.fire now) =
        (({ r with due := ks }.run t2Ms now (fireArmed k)).1, n) := by
      simp only [Machine.logged, clockwork, hdue, stamp]
    have hsorted := h.sorted
    have hfenced := h.fenced
    rw [show (r, n).1.due = k :: ks from hdue] at hsorted hfenced
    obtain ⟨hlt, hks⟩ := List.pairwise_cons.1 hsorted
    rw [hnext]
    rcases { r with due := ks : RoomFloor }.run_cases t2Ms now (fireArmed k) with
      ⟨hn, he⟩ | ⟨s, hs, he⟩
    · rw [he]
      exact ⟨hks, fun x hx => hfenced x (List.mem_cons_of_mem _ hx)⟩
    · rw [he]
      refine ⟨hks, ?_⟩
      intro x hx hc hx'
      rw [fireArmed] at hs
      split_ifs at hs with hk
      obtain rfl := Option.some.inj hs
      exact fire_fenced r.clock now hk (fun hkc => hfenced k List.mem_cons_self hkc hk)
        (hlt x hx) hc (hfenced x (List.mem_cons_of_mem _ hx) hc) hx' rfl

/-- **A timer of one grant ends no other.** In every interleaving of the timer task with other
calls in which none of these revives a collected T1, T2 or T3: when such a key is fired, the grant
number is the one at which it was collected. -/
theorem timers_fenced (qmax t2Secs t2Ms : Nat) (as : List Act)
    (hl : (((clockwork t2Ms).logged stamp).restrict fun s a => ¬ a.Revives t2Ms s.1).Legal
      (RoomFloor.new qmax t2Secs, 0) as) (k : Key) (ks : List Key) :
    let s := ((clockwork t2Ms).logged stamp).exec (RoomFloor.new qmax t2Secs, 0) as
    s.1.due = k :: ks → k.Critical → Arms s.1.floor k → s.1.clock.grantNo = s.2 := by
  intro s hdue hk harm
  let M := ((clockwork t2Ms).logged stamp).restrict fun s a => ¬ a.Revives t2Ms s.1
  have h : FenceInv (M.exec (RoomFloor.new qmax t2Secs, 0) as) := by
    refine Machine.invariant (M := M) (fun s a hs ha => step_fenceInv s a hs ha.1 ha.2) ?_ hl
    exact ⟨.nil, fun k hk => by simp [RoomFloor.new] at hk⟩
  rw [Machine.restrict_exec] at h
  exact h.fenced k (show k ∈ s.1.due by simp [hdue]) hk harm

/-- T1 of the grant of `a` is collected, then `a` lets the floor go and `b` gets it. -/
def regranted : List Act :=
  overdue ++ [.run (.serverRx "a" { t := .release } true 0) 4001,
    .run (.serverRx "b" { t := .request } true 0) 4002]

/-- The T1 of `a` is next to be fired, it is armed, and the grant is that of `b`. -/
theorem timers_not_fenced :
    ¬ ∀ (qmax t2Secs t2Ms : Nat) (as : List Act) (k : Key) (ks : List Key),
      ((clockwork t2Ms).logged stamp).Legal (RoomFloor.new qmax t2Secs, 0) as →
      let s := ((clockwork t2Ms).logged stamp).exec (RoomFloor.new qmax t2Secs, 0) as
      s.1.due = k :: ks → k.Critical → Arms s.1.floor k → s.1.clock.grantNo = s.2 := by
  intro h
  have hno := h 10 30 30000 regranted ⟨.T1, none⟩ [⟨.T21, some "b"⟩] (by decide) (by decide)
    (by decide) (by decide)
  exact absurd hno (by decide)

theorem timers_fenced_overdue :
    (((clockwork 30000).logged stamp).restrict fun s a => ¬ a.Revives 30000 s.1).Legal
      (RoomFloor.new 10 30, 0) overdue ∧
    (((clockwork 30000).logged stamp).exec (RoomFloor.new 10 30, 0) overdue).1.clock.grantNo =
      (((clockwork 30000).logged stamp).exec (RoomFloor.new 10 30, 0) overdue).2 :=
  ⟨by decide, timers_fenced 10 30 30000 overdue (by decide) ⟨.T1, none⟩ [⟨.T21, some "b"⟩]
    (by decide) (by decide) (by decide)⟩

end OxlensSfu.Ops
