import OxlensSfu.Floor.Bind

/-!
# The forwarding gate

`ops::floor::run` decides under the room lock and then executes its effects without it
(`execute` in `crates/oxsfud/src/ops/floor.rs`). For each effect a call applies it to the audio
slot under that slot's lock, then to the video slot under its lock, and if either took it stores
the speaker of both fans, which no lock covers. The stored speaker is the gate: `forward` lets
through only its packets.

Here every one of these is a step of its own, and the steps of all calls interleave freely. The
decision is fenced by the grant number and the store is not, so a late store can overwrite a newer
one. `Call.Current` is what such a store breaks; while every audio store respects it the gate
agrees with the binding.
-/

namespace OxlensSfu.Ops.Gate

open OxlensSfu.Flr

/-! ## Rooms and calls -/

/-- A slot of the room and the gate of its fan. -/
structure SlotFan where
  bind : Slot := {}
  speaker : Option String := none
  deriving DecidableEq, Repr

/-- Where a call of `execute` is. -/
inductive Call where
  /-- About to apply the next effect to the audio slot. -/
  | audio (es : List Effect)
  /-- About to apply `e` to the video slot; `a` says whether the audio slot took it. -/
  | video (e : Effect) (a : Bool) (es : List Effect)
  /-- About to store the speaker of the audio fan. -/
  | storeAudio (e : Effect) (es : List Effect)
  /-- About to store the speaker of the video fan. -/
  | storeVideo (e : Effect) (es : List Effect)
  deriving DecidableEq, Repr

/-- The call has returned. -/
def Call.Done (c : Call) : Prop := c = .audio []

instance (c : Call) : Decidable c.Done := inferInstanceAs (Decidable (c = _))

structure Room where
  floor : Floor
  grantNo : Nat := 0
  audio : SlotFan := {}
  video : SlotFan := {}
  calls : List Call := []

namespace Room

def new (qmax t2Secs : Nat) : Room := { floor := Floor.new qmax t2Secs }

/-- The speaker that `bind_media` and `release_media` store. The video fan gets one only when the
codec of the user's video is the room's (`ok`). -/
def stored (ok : Bool) : Effect → Option String
  | .bind user _ => if ok then some user else none
  | .release _ => none

/-- The critical section of `run`: the operation and the numbering of its effects. The call that
will execute them joins the others. -/
def run (r : Room) (o : Op) : Room :=
  let s := r.floor.apply o
  let (n, es) := number r.grantNo s.r.fx
  { r with floor := s.fl, grantNo := n, calls := r.calls ++ [.audio es] }

/-- Call `i` takes its next step. -/
def step (r : Room) (i : Nat) (videoOk : Bool) : Room :=
  match r.calls[i]? with
  | none | some (.audio []) => r
  | some (.audio (e :: es)) =>
    let (b, a) := r.audio.bind.apply e
    { r with audio := { r.audio with bind := b }, calls := r.calls.set i (.video e a es) }
  | some (.video e a es) =>
    let (b, v) := r.video.bind.apply e
    { r with
      video := { r.video with bind := b }
      calls := r.calls.set i (if a || v then .storeAudio e es else .audio es) }
  | some (.storeAudio e es) =>
    { r with
      audio := { r.audio with speaker := stored true e }
      calls := r.calls.set i (.storeVideo e es) }
  | some (.storeVideo e es) =>
    { r with
      video := { r.video with speaker := stored videoOk e }
      calls := r.calls.set i (.audio es) }

end Room

/-- The floor operations of a room and the steps of its calls. -/
inductive Act where
  | run (o : Op)
  | step (i : Nat) (videoOk : Bool)
  deriving DecidableEq, Repr

/-- A room under concurrent calls: timers run only while armed, calls step until they return. -/
def room : Machine Room Act where
  ok r a := match a with
    | .run o => o.Armed r.floor
    | .step i _ => ∃ c ∈ r.calls[i]?, ¬ c.Done
  next r a := match a with
    | .run o => r.run o
    | .step i videoOk => r.step i videoOk

instance : ∀ r a, Decidable (room.ok r a)
  | r, .run o => inferInstanceAs (Decidable (o.Armed r.floor))
  | r, .step i _ => inferInstanceAs (Decidable (∃ c ∈ r.calls[i]?, ¬ c.Done))

/-! ## Late stores -/

/-- The slot holds what the effect set. -/
def Holds (s : Slot) : Effect → Prop
  | .bind user g => s.bound = some (user, g)
  | .release _ => s.bound = none

instance (s : Slot) : (e : Effect) → Decidable (Holds s e)
  | .bind user g => inferInstanceAs (Decidable (s.bound = some (user, g)))
  | .release _ => inferInstanceAs (Decidable (s.bound = none))

/-- If the action is the store of the audio speaker for an effect, then the audio slot still holds
what that effect set. -/
def Act.Current (r : Room) : Act → Prop
  | .run _ => True
  | .step i _ => ∀ e es, r.calls[i]? = some (.storeAudio e es) → Holds r.audio.bind e

/-- An effect that takes place makes the slot hold it; one that does not leaves the binding. -/
theorem Slot.apply_holds (s : Slot) (e : Effect) :
    ((s.apply e).2 = true ∧ Holds (s.apply e).1 e) ∨
      ((s.apply e).2 = false ∧ (s.apply e).1.bound = s.bound) := by
  cases e with
  | bind user g =>
    by_cases hold : s.maxSeen.any (g ≤ ·) = true
    · exact .inr (by simp [Slot.apply, hold])
    · exact .inl (by simp [Slot.apply, hold, Holds])
  | release g =>
    rw [Slot.apply]
    cases hb : s.bound with
    | none => exact .inr ⟨rfl, rfl⟩
    | some b =>
      by_cases hle : b.2 ≤ g
      · exact .inl (by simp [hle, Holds])
      · exact .inr (by simp [hle])

theorem Holds.congr {s s' : Slot} {e : Effect} (h : Holds s e) (hb : s'.bound = s.bound) :
    Holds s' e := by
  cases e with
  | bind user g => exact hb.trans h
  | release g => exact hb.trans h

theorem Holds.speaker {s : Slot} {e : Effect} (h : Holds s e) :
    Room.stored true e = s.speaker := by
  cases e with
  | bind user g => rw [Slot.speaker, show s.bound = _ from h]; rfl
  | release g => rw [Slot.speaker, show s.bound = _ from h]; rfl

/-- The call took an effect that the audio slot still holds and has yet to store its speaker. -/
def Call.Owes (s : Slot) : Call → Prop
  | .video e a _ => a = true ∧ Holds s e
  | .storeAudio e _ => Holds s e
  | _ => False

theorem Call.Owes.congr {s s' : Slot} {c : Call} (h : c.Owes s) (hb : s'.bound = s.bound) :
    c.Owes s' := by
  cases c with
  | audio es => exact h.elim
  | video e a es => exact ⟨h.1, h.2.congr hb⟩
  | storeAudio e es => exact Holds.congr h hb
  | storeVideo e es => exact h.elim

/-- The gate shows the user that is bound, or some call is about to make it so. -/
def Room.Settling (r : Room) : Prop :=
  r.audio.speaker = r.audio.bind.speaker ∨ ∃ c ∈ r.calls, c.Owes r.audio.bind

/-- The calls other than `i` owe what they owed. -/
theorem owes_set {calls : List Call} {i : Nat} {c d x : Call} {s : Slot}
    (hi : calls[i]? = some c) (hx : x ∈ calls) (ho : x.Owes s) :
    x = c ∨ ∃ y ∈ calls.set i d, y.Owes s := by
  obtain ⟨k, hk, rfl⟩ := List.getElem_of_mem hx
  by_cases hki : k = i
  · subst hki
    exact .inl (Option.some.inj ((List.getElem?_eq_getElem hk).symm.trans hi))
  · refine .inr ⟨calls[k], List.mem_of_getElem? (i := k) ?_, ho⟩
    rw [List.getElem?_set_ne (Ne.symm hki), List.getElem?_eq_getElem hk]

theorem mem_set_self {calls : List Call} {i : Nat} {c : Call} (d : Call)
    (hi : calls[i]? = some c) : d ∈ calls.set i d := by
  obtain ⟨hlt, -⟩ := List.getElem?_eq_some_iff.1 hi
  exact List.mem_of_getElem? (List.getElem?_set_self hlt)

/-- A change at call `i` that leaves the audio binding alone, when the new state of the call owes
whatever the old one owed. -/
theorem Room.Settling.set {r r' : Room} {i : Nat} {c d : Call} (h : r.Settling)
    (hi : r.calls[i]? = some c) (hcalls : r'.calls = r.calls.set i d)
    (hsp : r'.audio.speaker = r.audio.speaker)
    (hb : r'.audio.bind.bound = r.audio.bind.bound)
    (hcd : c.Owes r.audio.bind → d.Owes r.audio.bind) : r'.Settling := by
  rcases h with h | ⟨x, hx, ho⟩
  · left
    rw [hsp, h, Slot.speaker, Slot.speaker, hb]
  · right
    rw [hcalls]
    rcases owes_set (d := d) hi hx ho with rfl | ⟨y, hy, hoy⟩
    · exact ⟨d, mem_set_self d hi, (hcd ho).congr hb⟩
    · exact ⟨y, hy, hoy.congr hb⟩

/-- **One step.** Only a store can make the gate wrong, and only when it is not current. -/
theorem step_settling (r : Room) (a : Act) (h : r.Settling) (hc : a.Current r) :
    (room.next r a).Settling := by
  cases a with
  | run o =>
    rcases h with h | ⟨c, hc, ho⟩
    · exact .inl h
    · exact .inr ⟨c, List.mem_append_left _ hc, ho⟩
  | step i videoOk =>
    show (r.step i videoOk).Settling
    rw [Room.step]
    split
    · exact h
    · exact h
    · next e es hi =>
      rcases Slot.apply_holds r.audio.bind e with ⟨ha, hh⟩ | ⟨ha, hb⟩
      · exact .inr ⟨_, mem_set_self _ hi, ha, hh⟩
      · exact h.set hi rfl rfl hb fun ho => ho.elim
    · next e a es hi =>
      refine h.set hi rfl rfl rfl ?_
      intro ho
      rw [ho.1, Bool.true_or, if_pos rfl]
      exact ho.2
    · next e es hi => exact .inl (hc e es hi).speaker
    · next e es hi => exact h.set hi rfl rfl rfl fun ho => ho.elim

/-! ## Runs -/

/-- **The gate agrees with the binding.** In every run of a room, with any number of concurrent
calls and any interleaving of their steps, in which each store of the audio speaker is made while
the audio slot still holds what the effect set: once all calls have returned, the audio gate shows
the user that is bound, and nobody if none is. -/
theorem gate_agrees (qmax t2Secs : Nat) (as : List Act)
    (hl : (room.restrict fun r a => a.Current r).Legal (Room.new qmax t2Secs) as)
    (hdone : ∀ c ∈ (room.exec (Room.new qmax t2Secs) as).calls, c.Done) :
    (room.exec (Room.new qmax t2Secs) as).audio.speaker =
      (room.exec (Room.new qmax t2Secs) as).audio.bind.bound.map (·.1) := by
  have h : ((room.restrict fun r a => a.Current r).exec (Room.new qmax t2Secs) as).Settling :=
    Machine.invariant (M := room.restrict fun r a => a.Current r)
      (fun r a hr ha => step_settling r a hr ha.2) (.inl rfl) hl
  rw [Machine.restrict_exec] at h
  refine h.resolve_right ?_
  intro howes
  obtain ⟨c, hc, ho⟩ := howes
  rw [hdone c hc] at ho
  exact ho

/-- `a` gets the floor (call 4) and gives it back (call 5). -/
def handBack : List Act :=
  ([.wsJoin "a" true, .wsJoin "b" true, .wsPubSelect "a", .wsPubSelect "b",
    .serverRx "a" { t := .request } true 0, .serverRx "a" { t := .release } true 0] : List Op).map
    .run

/-- Call 4 is overtaken by call 5 between its two applications and its stores. -/
def lateStore : List Act :=
  handBack ++ [4, 4, 5, 5, 5, 5, 4, 4].map fun i => .step i true

/-- The floor is idle and the slot is free, but the gate still lets `a` through. -/
theorem gate_disagrees :
    ¬ ∀ (qmax t2Secs : Nat) (as : List Act), room.Legal (Room.new qmax t2Secs) as →
      (∀ c ∈ (room.exec (Room.new qmax t2Secs) as).calls, c.Done) →
      (room.exec (Room.new qmax t2Secs) as).audio.speaker =
        (room.exec (Room.new qmax t2Secs) as).audio.bind.bound.map (·.1) := by
  intro h
  exact absurd (h 10 30 lateStore (by decide) (by decide)) (by decide)

instance (r : Room) : (a : Act) → Decidable (a.Current r)
  | .run _ => .isTrue trivial
  | .step i _ => match h : r.calls[i]? with
    | some (.storeAudio e es) => decidable_of_iff (Holds r.audio.bind e) (by
        refine ⟨?_, ?_⟩
        · intro hh e' es' he
          rw [h] at he
          cases he
          exact hh
        · exact fun hh => hh e es h)
    | none | some (.audio _) | some (.video ..) | some (.storeVideo ..) =>
      .isTrue fun _ _ he => by rw [h] at he; cases he

theorem gate_agrees_in_turn :
    (room.restrict fun r a => a.Current r).Legal (Room.new 10 30)
      (handBack ++ [4, 4, 4, 4, 5, 5, 5, 5].map fun i => .step i true) ∧
    (room.exec (Room.new 10 30)
      (handBack ++ [4, 4, 4, 4, 5, 5, 5, 5].map fun i => .step i true)).audio.speaker =
      (room.exec (Room.new 10 30)
        (handBack ++ [4, 4, 4, 4, 5, 5, 5, 5].map fun i => .step i true)).audio.bind.bound.map
          (·.1) :=
  ⟨by decide, gate_agrees 10 30 _ (by decide) (by decide)⟩

end OxlensSfu.Ops.Gate
