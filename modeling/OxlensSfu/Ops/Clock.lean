import OxlensSfu.Floor.Bind

/-!
# The clock of a room

The floor says which timers are armed; the clock of the room keeps when they are due
(`crates/oxsfud/src/ops/floor.rs`). `run` applies an operation and then `rearm`s, both under the
locks of floor and clock, so it is one step. The timer task is not: `fire_due` takes the due keys
out of the clock under one lock and fires them one by one under later ones, and in between any
number of other calls may run.

Times are milliseconds. The monotonic clock is an argument of every step, without any assumption
on it.
-/

namespace OxlensSfu.Ops

open Std OxlensSfu.Flr

/-! ## Keys -/

/-- The name of a timer in the source, by which keys are ordered: `T20` stands before `T3`. -/
def timerName : Timer → String
  | .T1 => "T1"
  | .T2 => "T2"
  | .T3 => "T3"
  | .T7 => "T7"
  | .T8 => "T8"
  | .T9 => "T9"
  | .T20 => "T20"
  | .T21 => "T21"

/-- A timer of the room, or of one of its users. -/
structure Key where
  timer : Timer
  user : Option String
  deriving DecidableEq, Repr

/-- Keys by timer name, then by user. -/
def Key.order : Key → Key → Ordering :=
  compareLex (compareOn fun k => timerName k.timer) (compareOn Key.user)

instance : Ord Key := ⟨Key.order⟩

instance : TransOrd Key :=
  inferInstanceAs (TransCmp (compareLex (compareOn fun k => timerName k.timer)
    (compareOn Key.user)))

theorem timerName_injective : Function.Injective timerName := by
  intro a b
  cases a <;> cases b <;> simp [timerName]

instance : LawfulEqOrd Key where
  eq_of_compare {a b} h := by
    obtain ⟨hn, hu⟩ := compareLex_eq_eq.1 (show Key.order a b = .eq from h)
    have ht : a.timer = b.timer := timerName_injective (LawfulEqCmp.eq_of_compare hn)
    have hu' : a.user = b.user := LawfulEqCmp.eq_of_compare hu
    cases a
    cases b
    simp_all

/-- The timer of the key is armed: the check `fire_due` makes before it fires one. -/
def Arms (f : Floor) (k : Key) : Prop :=
  match k.user with
  | some u => k.timer ∈ f.armedParticipant u
  | none => k.timer ∈ f.armedServer

instance (f : Floor) (k : Key) : Decidable (Arms f k) :=
  match h : k.user with
  | some u => decidable_of_iff (k.timer ∈ f.armedParticipant u) (by rw [Arms, h])
  | none => decidable_of_iff (k.timer ∈ f.armedServer) (by rw [Arms, h])

/-! ## The clock -/

/-- How long each timer runs. T2 is a matter of policy. -/
def duration (t2Ms : Nat) : Timer → Nat
  | .T1 => 4000
  | .T2 => t2Ms
  | .T3 => 3000
  | .T7 => 1000
  | .T8 => 1000
  | .T9 => 3000
  | .T20 => 1000
  | .T21 => 1000

structure Clock where
  timers : TreeMap Key Nat := ∅
  grantNo : Nat := 0
  grantedAt : Nat := 0
  firstRtpAt : Option Nat := none
  lastRtpAt : Option Nat := none

/-- The keys of the armed timers, with those of every user that has a record. -/
def want (f : Floor) : TreeSet Key :=
  .ofList (f.armedServer.map (Key.mk · none) ++
    f.parts.keys.flatMap fun u => (f.armedParticipant u).map (Key.mk · (some u)))

namespace Clock

/-- What a timer counts from: T1 from the last packet of this grant, T2 from its first. -/
def base (ck : Clock) (now : Nat) : Timer → Nat
  | .T1 => max (ck.lastRtpAt.getD ck.grantedAt) ck.grantedAt
  | .T2 => ck.firstRtpAt.getD now
  | _ => now

/-- Drop the timers that are no longer armed, start those that are armed and not yet running. -/
def rearm (ck : Clock) (f : Floor) (t2Ms now : Nat) : Clock :=
  let start := fun (ts : TreeMap Key Nat) k =>
    ts.insertIfNew k (ck.base now k.timer + duration t2Ms k.timer)
  let kept := ck.timers.filter fun k _ => (want f).contains k
  { ck with timers := (want f).toList.foldl start kept }

/-- Number the effects of a step; a bind starts a new grant. -/
def effects (ck : Clock) (now : Nat) : List Fx → Clock × List Effect
  | [] => (ck, [])
  | .bind u :: fx =>
    let ck := { ck with
      grantNo := ck.grantNo + 1, grantedAt := now, firstRtpAt := none, lastRtpAt := none }
    let (ck', es) := ck.effects now fx
    (ck', .bind u ck.grantNo :: es)
  | .release _ :: fx =>
    let (ck', es) := ck.effects now fx
    (ck', .release ck.grantNo :: es)

/-- The seconds left of T2, all of them when it is not running. -/
def t2Left (ck : Clock) (t2Ms now : Nat) : Nat :=
  match ck.timers[Key.mk .T2 none]? with
  | some t => (t - now) / 1000 % 2 ^ 32
  | none => t2Ms / 1000 % 2 ^ 32

/-- `on_rtp` notes a packet of the user the gate is open for. -/
def onRtp (ck : Clock) (first : Bool) (now : Nat) : Clock :=
  let ck := if first || ck.firstRtpAt.isNone then
      { ck with firstRtpAt := some (ck.firstRtpAt.getD now) }
    else ck
  { ck with lastRtpAt := some now }

/-- The clock with T1 put off if there was a packet in time; `lastRtp` is what the fans saw
last. -/
def putOff (ck : Clock) (lastRtp : Option Nat) (now : Nat) : Clock :=
  let lr := lastRtp.filter (ck.grantedAt ≤ ·)
  let ck := if lr.isSome then { ck with lastRtpAt := lr } else ck
  match ck.timers[Key.mk .T1 none]? with
  | some t =>
    if t ≤ now ∧ ck.base now .T1 + duration 0 .T1 > now then
      { ck with timers := ck.timers.insert ⟨.T1, none⟩ (ck.base now .T1 + duration 0 .T1) }
    else ck
  | none => ck

/-- The first half of `fire_due`: the due keys are taken out, in their order. -/
def collect (ck : Clock) (lastRtp : Option Nat) (now : Nat) : Clock × List Key :=
  let ck := ck.putOff lastRtp now
  let ks := (ck.timers.toList.filter (·.2 ≤ now)).map (·.1)
  ({ ck with timers := ks.foldl (·.erase ·) ck.timers }, ks)

end Clock

/-! ## The room -/

/-- The floor of a room with its clock, and the keys that `fire_due` has collected and not yet
processed. -/
structure RoomFloor where
  floor : Floor
  clock : Clock := {}
  due : List Key := []

namespace RoomFloor

def new (qmax t2Secs : Nat) : RoomFloor := { floor := Floor.new qmax t2Secs }

/-- An operation and what follows from it under the same locks. Nothing follows when `f` declines;
the effects are executed later. -/
def run (r : RoomFloor) (t2Ms now : Nat) (f : Floor → Nat → Option St) :
    RoomFloor × List Effect :=
  match f r.floor (r.clock.t2Left t2Ms now) with
  | none => (r, [])
  | some s =>
    let (ck, es) := r.clock.effects now s.r.fx
    ({ r with floor := s.fl, clock := ck.rearm s.fl t2Ms now }, es)

end RoomFloor

def fire (f : Floor) (t : Timer) (u : String) : St :=
  match t with
  | .T1 => f.t1
  | .T2 => f.t2
  | .T3 => f.t3
  | .T7 => f.t7
  | .T20 => f.t20
  | .T8 => f.t8 u
  | .T21 => f.t21 u
  | .T9 => f.t9 u

/-- What `fire_due` runs for a collected key: the timer, if it is still armed. -/
def fireArmed (k : Key) (f : Floor) (_ : Nat) : Option St :=
  if Arms f k then some (fire f k.timer (k.user.getD "")) else none

/-- The operation with the seconds left of T2 filled in, as `run` passes them. -/
def withT2 (o : Op) (left : Nat) : Op :=
  match o with
  | .serverRx u m half _ => .serverRx u m half left
  | o => o

/-- The critical sections that touch floor or clock. -/
inductive Act where
  | run (o : Op) (now : Nat)
  | onRtp (first : Bool) (now : Nat)
  | collect (lastRtp : Option Nat) (now : Nat)
  | fire (now : Nat)
  deriving DecidableEq, Repr

/-- The room under concurrent calls. Timers are fired by the timer task only; there is one, which
collects again only when it has processed everything it collected. -/
def clockwork (t2Ms : Nat) : Machine RoomFloor Act where
  ok r a := match a with
    | .run o _ => o.isTimer = false
    | .onRtp .. => True
    | .collect .. => r.due = []
    | .fire _ => r.due ≠ []
  next r a := match a with
    | .run o now => (r.run t2Ms now fun f left => some (f.apply (withT2 o left))).1
    | .onRtp first now => { r with clock := r.clock.onRtp first now }
    | .collect lastRtp now =>
      let (ck, ks) := r.clock.collect lastRtp now
      { r with clock := ck, due := ks }
    | .fire now => match r.due with
      | [] => r
      | k :: ks => ({ r with due := ks }.run t2Ms now (fireArmed k)).1

instance (t2Ms : Nat) : ∀ r a, Decidable ((clockwork t2Ms).ok r a)
  | _, .run o _ => inferInstanceAs (Decidable (o.isTimer = false))
  | _, .onRtp .. => inferInstanceAs (Decidable True)
  | r, .collect .. => inferInstanceAs (Decidable (r.due = []))
  | r, .fire _ => inferInstanceAs (Decidable (r.due ≠ []))

/-! ## What a step does to the timers -/

theorem mem_want {f : Floor} {k : Key} : k ∈ want f ↔ Arms f k := by
  obtain ⟨t, u⟩ := k
  rw [want, TreeSet.mem_ofList, List.contains_iff_mem, List.mem_append]
  cases u with
  | none => simp [Arms]
  | some u =>
    have hparts : ∀ t, t ∈ f.armedParticipant u → u ∈ f.parts := by
      intro t ht
      rw [Floor.armedParticipant] at ht
      by_contra hu
      rw [TreeMap.getElem?_eq_none hu] at ht
      simp at ht
    simp only [Arms, List.mem_map, Key.mk.injEq, reduceCtorEq, and_false, exists_false, false_or,
      List.mem_flatMap, TreeMap.mem_keys, Option.some.injEq]
    refine ⟨?_, ?_⟩
    · rintro ⟨x, -, t', ht, rfl, rfl⟩
      exact ht
    · exact fun ht => ⟨u, hparts t ht, t, ht, rfl, rfl⟩

theorem mem_foldl_insertIfNew {v : Key → Nat} (ks : List Key) (ts : TreeMap Key Nat) (k : Key) :
    k ∈ ks.foldl (fun ts k => ts.insertIfNew k (v k)) ts ↔ k ∈ ts ∨ k ∈ ks := by
  induction ks generalizing ts with
  | nil => simp
  | cons x ks ih =>
    rw [List.foldl_cons, ih, TreeMap.mem_insertIfNew, List.mem_cons,
      LawfulEqCmp.compare_eq_iff_eq]
    refine ⟨?_, ?_⟩
    · rintro ((h | h) | h)
      · exact .inr (.inl h.symm)
      · exact .inl h
      · exact .inr (.inr h)
    · rintro (h | h | h)
      · exact .inl (.inr h)
      · exact .inl (.inl h.symm)
      · exact .inr h

/-- **After `rearm` the keys are those of the armed timers.** -/
theorem Clock.mem_rearm (ck : Clock) (f : Floor) (t2Ms now : Nat) (k : Key) :
    k ∈ (ck.rearm f t2Ms now).timers ↔ Arms f k := by
  rw [Clock.rearm, mem_foldl_insertIfNew, TreeSet.mem_toList, mem_want]
  refine or_iff_right_of_imp ?_
  intro h
  rw [TreeMap.mem_filter] at h
  obtain ⟨hk, hw⟩ := h
  rw [TreeMap.getKey_eq] at hw
  exact mem_want.1 hw

theorem mem_foldl_erase (ks : List Key) (ts : TreeMap Key Nat) (k : Key) :
    k ∈ ks.foldl (·.erase ·) ts ↔ k ∈ ts ∧ k ∉ ks := by
  induction ks generalizing ts with
  | nil => simp
  | cons x ks ih =>
    rw [List.foldl_cons, ih, TreeMap.mem_erase, List.mem_cons, not_or, ← and_assoc]
    have hx : compare x k ≠ .eq ↔ k ≠ x := by
      rw [Ne, LawfulEqCmp.compare_eq_iff_eq]
      exact ⟨fun h e => h e.symm, fun h e => h e.symm⟩
    rw [hx, and_comm (a := k ≠ x)]

theorem Clock.putOff_timers (ck : Clock) (lastRtp : Option Nat) (now : Nat) :
    (∀ k, k ∈ (ck.putOff lastRtp now).timers ↔ k ∈ ck.timers) ∧
      (ck.putOff lastRtp now).grantNo = ck.grantNo := by
  have hlr : ∀ c : Clock, c = (if (lastRtp.filter (ck.grantedAt ≤ ·)).isSome then
      { ck with lastRtpAt := lastRtp.filter (ck.grantedAt ≤ ·) } else ck) →
      c.timers = ck.timers ∧ c.grantNo = ck.grantNo := by
    rintro c rfl
    split_ifs <;> exact ⟨rfl, rfl⟩
  rw [Clock.putOff]
  generalize hc : (if (lastRtp.filter (ck.grantedAt ≤ ·)).isSome then
      { ck with lastRtpAt := lastRtp.filter (ck.grantedAt ≤ ·) } else ck) = c
  obtain ⟨ht, hn⟩ := hlr c hc.symm
  rw [← ht, ← hn]
  split
  · next t hT =>
    split_ifs
    · refine ⟨?_, rfl⟩
      intro k
      rw [TreeMap.mem_insert, LawfulEqCmp.compare_eq_iff_eq]
      refine or_iff_right_of_imp ?_
      rintro rfl
      obtain ⟨hmem, -⟩ := TreeMap.getElem?_eq_some_iff.1 hT
      exact hmem
    · exact ⟨fun k => Iff.rfl, rfl⟩
  · exact ⟨fun k => Iff.rfl, rfl⟩

/-- **Collecting loses no key**: each stays in the clock or is collected. -/
theorem Clock.mem_collect (ck : Clock) (lastRtp : Option Nat) (now : Nat) (k : Key) :
    k ∈ ck.timers ↔
      k ∈ (ck.collect lastRtp now).1.timers ∨ k ∈ (ck.collect lastRtp now).2 := by
  have hp := (ck.putOff_timers lastRtp now).1 k
  have hsub : k ∈ (ck.collect lastRtp now).2 → k ∈ (ck.putOff lastRtp now).timers := by
    intro h
    obtain ⟨⟨k', t⟩, hmem, rfl⟩ := List.mem_map.1 h
    have hkt := (List.mem_filter.1 hmem).1
    rw [TreeMap.mem_toList_iff_getElem?_eq_some] at hkt
    obtain ⟨hk, -⟩ := TreeMap.getElem?_eq_some_iff.1 hkt
    exact hk
  have herase : k ∈ (ck.collect lastRtp now).1.timers ↔
      k ∈ (ck.putOff lastRtp now).timers ∧ k ∉ (ck.collect lastRtp now).2 := mem_foldl_erase _ _ _
  rw [herase, ← hp]
  refine ⟨?_, ?_⟩
  · intro hk
    by_cases hks : k ∈ (ck.collect lastRtp now).2
    · exact .inr hks
    · exact .inl ⟨hk, hks⟩
  · rintro (⟨hk, -⟩ | hks)
    · exact hk
    · exact hsub hks

/-! ## No timer is lost -/

/-- The clock runs armed timers only, and every armed timer runs or is about to be looked at. -/
structure ClockInv (r : RoomFloor) : Prop where
  armed : ∀ k ∈ r.clock.timers, Arms r.floor k
  kept : ∀ k, Arms r.floor k → k ∈ r.clock.timers ∨ k ∈ r.due

theorem clockInv_new (qmax t2Secs : Nat) : ClockInv (RoomFloor.new qmax t2Secs) where
  armed k hk := absurd hk TreeMap.not_mem_emptyc
  kept k hk := by
    obtain ⟨t, u⟩ := k
    cases u with
    | none => simp [Arms, RoomFloor.new, Floor.new, Floor.armedServer] at hk
    | some u => simp [Arms, RoomFloor.new, Floor.new, Floor.armedParticipant] at hk

/-- A run that goes through leaves exactly the armed timers; one that declines leaves all as it
was. -/
theorem RoomFloor.run_cases (r : RoomFloor) (t2Ms now : Nat) (f : Floor → Nat → Option St) :
    (f r.floor (r.clock.t2Left t2Ms now) = none ∧ (r.run t2Ms now f).1 = r) ∨
    ∃ s, f r.floor (r.clock.t2Left t2Ms now) = some s ∧ (r.run t2Ms now f).1 = { r with
      floor := s.fl, clock := (r.clock.effects now s.r.fx).1.rearm s.fl t2Ms now } := by
  rw [RoomFloor.run]
  cases h : f r.floor (r.clock.t2Left t2Ms now) with
  | none => exact .inl ⟨rfl, rfl⟩
  | some s => exact .inr ⟨s, rfl, rfl⟩

theorem clockInv_rearm (f : Floor) (ck : Clock) (due : List Key) (t2Ms now : Nat) :
    ClockInv { floor := f, clock := ck.rearm f t2Ms now, due := due } where
  armed k hk := (ck.mem_rearm f t2Ms now k).1 hk
  kept k hk := .inl ((ck.mem_rearm f t2Ms now k).2 hk)

theorem step_clockInv {t2Ms : Nat} (r : RoomFloor) (a : Act) (h : ClockInv r)
    (ha : (clockwork t2Ms).ok r a) : ClockInv ((clockwork t2Ms).next r a) := by
  cases a with
  | run o now =>
    rcases r.run_cases t2Ms now fun f left => some (f.apply (withT2 o left)) with
      ⟨hn, -⟩ | ⟨s, -, hr⟩
    · simp at hn
    · show ClockInv (r.run t2Ms now _).1
      rw [hr]
      exact clockInv_rearm _ _ _ _ _
  | onRtp first now =>
    have ht : (r.clock.onRtp first now).timers = r.clock.timers := by
      rw [Clock.onRtp]
      dsimp only
      split_ifs <;> rfl
    refine ⟨fun k hk => h.armed k ?_, ?_⟩
    · rwa [← ht]
    · intro k hk
      show k ∈ (r.clock.onRtp first now).timers ∨ k ∈ r.due
      rw [ht]
      exact h.kept k hk
  | collect lastRtp now =>
    have hmem := r.clock.mem_collect lastRtp now
    refine ⟨fun k hk => h.armed k ((hmem k).2 (.inl hk)), fun k hk => (hmem k).1 ?_⟩
    have hk' := h.kept k hk
    rw [show r.due = [] from ha] at hk'
    simpa using hk'
  | fire now =>
    obtain ⟨k, ks, hdue⟩ := List.exists_cons_of_ne_nil ha
    have hnext : (clockwork t2Ms).next r (.fire now) =
        ({ r with due := ks }.run t2Ms now (fireArmed k)).1 := by
      simp only [clockwork, hdue]
    rw [hnext]
    rcases { r with due := ks : RoomFloor }.run_cases t2Ms now (fireArmed k) with
      ⟨hn, hr⟩ | ⟨s, -, hr⟩
    · -- the timer is no longer armed: it may be forgotten, and nothing is rearmed
      rw [hr]
      have hk : ¬ Arms r.floor k := by simpa [fireArmed] using hn
      refine ⟨h.armed, fun x hx => (h.kept x hx).imp_right ?_⟩
      intro hmem
      rw [hdue] at hmem
      exact (List.mem_cons.1 hmem).resolve_left fun e => hk (e ▸ hx)
    · rw [hr]
      exact clockInv_rearm _ _ _ _ _

/-- **No armed timer is ever lost.** In every interleaving of calls with the timer task, at any
times, each armed timer is in the clock or among the keys that are collected and not yet
processed; and when there are none of these, the keys of the clock are exactly the armed
timers. -/
theorem no_timer_lost (qmax t2Secs t2Ms : Nat) (as : List Act)
    (hl : (clockwork t2Ms).Legal (RoomFloor.new qmax t2Secs) as) :
    let r := (clockwork t2Ms).exec (RoomFloor.new qmax t2Secs) as
    (∀ t ∈ r.floor.armedServer, ⟨t, none⟩ ∈ r.clock.timers ∨ ⟨t, none⟩ ∈ r.due) ∧
    (∀ u ∈ r.floor.parts, ∀ t ∈ r.floor.armedParticipant u,
      ⟨t, some u⟩ ∈ r.clock.timers ∨ ⟨t, some u⟩ ∈ r.due) ∧
    (r.due = [] → ∀ k, k ∈ r.clock.timers ↔ Arms r.floor k) := by
  intro r
  have h : ClockInv r :=
    Machine.invariant (fun r a hr ha => step_clockInv r a hr ha) (clockInv_new qmax t2Secs) hl
  refine ⟨fun t ht => h.kept ⟨t, none⟩ ht, fun u _ t ht => h.kept ⟨t, some u⟩ ht, ?_⟩
  intro hdue k
  refine ⟨h.armed k, ?_⟩
  intro hk
  have hk' := h.kept k hk
  rw [hdue] at hk'
  simpa using hk'

/-- `a` is granted the floor at time 0 and sends nothing, so that T1 is collected. -/
def overdue : List Act :=
  [.run (.wsJoin "a" true) 0, .run (.wsJoin "b" true) 0, .run (.wsPubSelect "a") 0,
    .run (.wsPubSelect "b") 0, .run (.serverRx "a" { t := .request } true 0) 0, .collect none 4000]

/-- T1 and the T21 of `b` are collected; then `a` lets the floor go. -/
theorem no_timer_lost_release :
    (clockwork 30000).Legal (RoomFloor.new 10 30)
      (overdue ++ [.run (.serverRx "a" { t := .release } true 0) 4001, .fire 4002]) ∧
    (let r := (clockwork 30000).exec (RoomFloor.new 10 30)
      (overdue ++ [.run (.serverRx "a" { t := .release } true 0) 4001, .fire 4002])
     r.due = [⟨.T21, some "b"⟩] ∧ r.floor.armedServer = [.T7] ∧
     (∀ t ∈ r.floor.armedServer, ⟨t, none⟩ ∈ r.clock.timers ∨ ⟨t, none⟩ ∈ r.due)) :=
  ⟨by decide, by decide, by decide, (no_timer_lost 10 30 30000 _ (by decide)).1⟩

end OxlensSfu.Ops
