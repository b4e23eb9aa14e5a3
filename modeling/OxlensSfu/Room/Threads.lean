import OxlensSfu.Lib.Threads
import OxlensSfu.Room.Core

/-!
# The room operations as threads

Joining, leaving, sweeping, destroying and creating rooms
(`crates/oxsfud/src/ops/rooms.rs`, `ops/timers.rs`, `ops/admin.rs`, `gc/mod.rs`), cut at every
lock. A thread holds an `Arc` of the room it looked up and goes on with it whatever the registry
says meanwhile, so a room is reached through a `Ref` and the registry maps ids to refs.

A step makes at most one `Effect` on what the threads share. What it learns from stores outside
the rooms — the user's earlier session, the budget of its table, the peer registry — is its
`Outcome`, and the results hold for every one. The departures an eviction runs are `leave` threads
of their own; the numbering of events is in `OxlensSfu.Room.Snapshot` and left out here.
-/

namespace OxlensSfu.Rooms

open Std

/-! ## What is shared -/

/-- An `Arc` of a room: the id it was created with, and which room of that id it is. -/
structure Ref where
  id : String
  gen : Nat
  deriving DecidableEq, Repr

/-- The rooms in memory, the registry, and the ids that have a floor clock. -/
structure Shared where
  heap : Ref → Room := fun r => .new { id := r.id, capacity := 0 } 0
  born : Nat := 0
  map : TreeMap String Ref := ∅
  clocks : TreeSet String := ∅

/-- One update under one lock. -/
inductive Effect where
  | none
  | enter (r : Ref) (m : Member) (rejoin : Bool) (tok : Option Permission)
  | remove (r : Ref) (user : String)
  | ttlDue (r : Ref) (now : Nat)
  | close (r : Ref)
  | unlist (id : String)
  /-- A new room, registered unless its id is taken. -/
  | list (i : RoomInit) (now : Nat)
  | openClock (id : String)
  | closeClock (id : String)

namespace Shared

def modify (w : Shared) (r : Ref) (f : Room → Room) : Shared :=
  { w with heap := Function.update w.heap r (f (w.heap r)) }

def run (w : Shared) : Effect → Shared
  | .none => w
  | .enter r m rejoin tok => w.modify r fun room => (room.join m rejoin tok).2
  | .remove r user => w.modify r fun room => (room.remove user).2
  | .ttlDue r now => w.modify r fun room => (room.ttlDue now).2
  | .close r => w.modify r Room.close
  | .unlist id => { w with map := w.map.erase id }
  | .list i now => { w with
      heap := Function.update w.heap ⟨i.id, w.born⟩ (.new i now)
      born := w.born + 1
      map := w.map.insertIfNew i.id ⟨i.id, w.born⟩ }
  | .openClock id => { w with clocks := w.clocks.insert id }
  | .closeClock id => { w with clocks := w.clocks.erase id }

end Shared

/-! ## The threads -/

/-- What a join finds of its user's earlier session. -/
inductive Old where
  /-- None, or one that is not in this room. -/
  | absent
  /-- The same session asks again. -/
  | same
  /-- One in this room, which is evicted with its place in the roster kept. -/
  | kept
  deriving DecidableEq, Repr

/-- What becomes of a join between the capacity check and the roster. -/
inductive Seat where
  | fits
  /-- The listen limit, or a peer or table that could not be had. -/
  | refused
  | midLimit
  deriving DecidableEq, Repr

structure Outcome where
  old : Old := .absent
  seat : Seat := .fits
  /-- The response can be assembled. -/
  answered : Bool := true
  /-- The version named by an admin is the room's. -/
  agreed : Bool := true
  /-- The user being taken out has a peer. -/
  peer : Bool := true
  deriving DecidableEq, Repr

structure JoinReq where
  roomId : String
  member : Member
  tok : Option Permission := none
  /-- The node refuses newcomers. -/
  overloaded : Bool := false
  deriving DecidableEq, Repr

inductive JoinPc where
  | start
  | found (r : Ref)
  | asked (r : Ref)
  | settled (r : Ref) (rejoin : Bool)
  | admitted (r : Ref) (rejoin : Bool)
  | rolling (r : Ref)
  | seated (r : Ref) (rejoin : Bool)
  | entered (r : Ref)
  | met (r : Ref)
  | returned (ok : Bool)
  deriving DecidableEq, Repr

inductive LeavePc where
  | start
  | found (r : Ref)
  | done
  deriving DecidableEq, Repr

/-- Inside `destroy_room`. -/
inductive WreckPc where
  | due
  | closed
  | unlisted
  deriving DecidableEq, Repr

inductive SweepPc where
  | start
  | todo (rs : List Ref)
  | asked (r : Ref) (rs : List Ref)
  | wreck (p : WreckPc) (r : Ref) (rs : List Ref)
  deriving DecidableEq, Repr

inductive DestroyPc where
  | start
  | found (r : Ref)
  | agreed (r : Ref)
  | emptying (r : Ref) (users : List String)
  | removing (r r' : Ref) (user : String) (users : List String)
  | wreck (p : WreckPc) (r : Ref)
  | done
  deriving DecidableEq, Repr

inductive CreatePc where
  | start
  | absent
  | listed
  | clockless
  | done
  deriving DecidableEq, Repr

inductive Thread where
  | join (q : JoinReq) (pc : JoinPc)
  | leave (user roomId : String) (pc : LeavePc)
  | sweep (now : Nat) (pc : SweepPc)
  | destroy (roomId : String) (pc : DestroyPc)
  | create (i : RoomInit) (now : Nat) (pc : CreatePc)

namespace Thread

/-- `rooms::join`. -/
def joinStep (w : Shared) (o : Outcome) (q : JoinReq) : JoinPc → Effect × JoinPc
  | .start =>
    match w.map[q.roomId]? with
    | none => (.none, .returned false)
    | some r => (.none, .found r)
  | .found r =>
    if q.overloaded && !(w.heap r).has q.member.user then (.none, .returned false)
    else (.none, .asked r)
  | .asked r =>
    match o.old with
    | .absent => (.none, .settled r false)
    | .kept => (.none, .settled r ((w.heap r).has q.member.user))
    | .same => (.none, if (w.heap r).has q.member.user then .met r else .returned false)
  | .settled r rejoin =>
    if !rejoin && (w.heap r).fullFor q.member.hidden then (.none, .returned false)
    else (.none, .admitted r rejoin)
  | .admitted r rejoin =>
    match o.seat with
    | .fits => (.none, .seated r rejoin)
    | .refused => (.none, .returned false)
    | .midLimit => (.none, if rejoin then .rolling r else .returned false)
  | .rolling r => (.remove r q.member.user, .returned false)
  | .seated r rejoin => (.enter r q.member rejoin q.tok, .entered r)
  | .entered r => (.none, if (w.heap r).has q.member.user then .met r else .returned false)
  | .met _ => (.none, .returned o.answered)
  | .returned ok => (.none, .returned ok)

/-- `gc::leave` where the roster is not kept. -/
def leaveStep (w : Shared) (user roomId : String) : LeavePc → Effect × LeavePc
  | .start =>
    match w.map[roomId]? with
    | none => (.none, .done)
    | some r => (.none, .found r)
  | .found r => (.remove r user, .done)
  | .done => (.none, .done)

/-- `destroy_room`, and what its caller does after it. -/
def wreckStep {α : Type} (r : Ref) (go : WreckPc → α) (after : α) : WreckPc → Effect × α
  | .due => (.close r, go .closed)
  | .closed => (.unlist r.id, go .unlisted)
  | .unlisted => (.closeClock r.id, after)

/-- `sweep`. -/
def sweepStep (w : Shared) (now : Nat) : SweepPc → Effect × SweepPc
  | .start => (.none, .todo (w.map.toList.map (·.2)))
  | .todo [] => (.none, .todo [])
  | .todo (r :: rs) => (.none, if (w.heap r).registered == 0 then .asked r rs else .todo rs)
  | .asked r rs =>
    (.ttlDue r now, if ((w.heap r).ttlDue now).1 then .wreck .due r rs else .todo rs)
  | .wreck p r rs => wreckStep r (.wreck · r rs) (.todo rs) p

/-- `destroy`, and the `destroy_room` it spawns. A user with a peer leaves through the registry,
any other is taken out of the room at hand. -/
def destroyStep (w : Shared) (o : Outcome) (roomId : String) : DestroyPc → Effect × DestroyPc
  | .start =>
    match w.map[roomId]? with
    | none => (.none, .done)
    | some r => (.none, .found r)
  | .found r => (.none, if o.agreed then .agreed r else .done)
  | .agreed r => (.none, .emptying r (w.heap r).users)
  | .emptying r [] => (.none, .wreck .due r)
  | .emptying r (u :: us) =>
    if o.peer then
      match w.map[roomId]? with
      | none => (.none, .emptying r us)
      | some r' => (.none, .removing r r' u us)
    else (.remove r u, .emptying r us)
  | .removing r r' u us => (.remove r' u, .emptying r us)
  | .wreck p r => wreckStep r (.wreck · r) .done p
  | .done => (.none, .done)

/-- `create`. -/
def createStep (w : Shared) (i : RoomInit) (now : Nat) : CreatePc → Effect × CreatePc
  | .start => (.none, if w.map.contains i.id then .done else .absent)
  | .absent => (.list i now, .listed)
  | .listed => (.none, if w.clocks.contains i.id then .done else .clockless)
  | .clockless => (.openClock i.id, .done)
  | .done => (.none, .done)

def step (w : Shared) (o : Outcome) : Thread → Effect × Thread
  | .join q pc => (joinStep w o q pc).map id (.join q)
  | .leave user roomId pc => (leaveStep w user roomId pc).map id (.leave user roomId)
  | .sweep now pc => (sweepStep w now pc).map id (.sweep now)
  | .destroy roomId pc => (destroyStep w o roomId pc).map id (.destroy roomId)
  | .create i now pc => (createStep w i now pc).map id (.create i now)

/-- A request that has not begun. -/
def Fresh : Thread → Prop
  | .join _ pc => pc = .start
  | .leave _ _ pc => pc = .start
  | .sweep _ pc => pc = .start
  | .destroy _ pc => pc = .start
  | .create _ _ pc => pc = .start

instance : DecidablePred Fresh
  | .join _ pc => inferInstanceAs (Decidable (pc = .start))
  | .leave _ _ pc => inferInstanceAs (Decidable (pc = .start))
  | .sweep _ pc => inferInstanceAs (Decidable (pc = .start))
  | .destroy _ pc => inferInstanceAs (Decidable (pc = .start))
  | .create _ _ pc => inferInstanceAs (Decidable (pc = .start))

end Thread

def program : Program Shared Thread Outcome where
  fresh := Thread.Fresh
  step w o t := (w.run (t.step w o).1, (t.step w o).2)

abbrev World := Program.Pool Shared Thread

abbrev Sched := Program.Sched Thread Outcome

/-- A server that has no room yet. -/
def World.start : World := ⟨{}, []⟩

instance (p : World) (a : Sched) : Decidable (program.machine.ok p a) :=
  @Program.instDecidableOkPoolSchedMachineOfDecidablePredFresh _ _ _ program
    (inferInstanceAs (DecidablePred Thread.Fresh)) p a

/-- Thread `i` taken through `n` steps with every question answered in its favour. -/
def through (i n : Nat) : List Sched := List.replicate n (.step i {})

/-! ## Effects on one room -/

/-- What an effect makes of one room. -/
inductive Change (w : Shared) (e : Effect) (r : Ref) : Room → Prop
  | keep : Change w e r (w.heap r)
  | enter (m : Member) (rejoin : Bool) (tok : Option Permission)
      (h : e = .enter r m rejoin tok) : Change w e r ((w.heap r).join m rejoin tok).2
  | remove (u : String) (h : e = .remove r u) : Change w e r ((w.heap r).remove u).2
  | ttlDue (now : Nat) (h : e = .ttlDue r now) : Change w e r ((w.heap r).ttlDue now).2
  | close (h : e = .close r) : Change w e r (w.heap r).close
  | new (i : RoomInit) (now : Nat) (h : e = .list i now) (hr : r = ⟨i.id, w.born⟩) :
      Change w e r (.new i now)

theorem modify_heap (w : Shared) (r r' : Ref) (f : Room → Room) :
    (w.modify r f).heap r' = if r' = r then f (w.heap r) else w.heap r' := by
  unfold Shared.modify
  exact Function.update_apply ..

/-- **Every room changes as its effect says**, and only the room the effect is on. -/
theorem run_change (w : Shared) (e : Effect) (r : Ref) : Change w e r ((w.run e).heap r) := by
  cases e with
  | none => exact .keep
  | enter r' m rejoin tok =>
    rw [Shared.run, modify_heap]
    split
    · next h =>
      subst h
      exact .enter m rejoin tok rfl
    · exact .keep
  | remove r' u =>
    rw [Shared.run, modify_heap]
    split
    · next h =>
      subst h
      exact .remove u rfl
    · exact .keep
  | ttlDue r' now =>
    rw [Shared.run, modify_heap]
    split
    · next h =>
      subst h
      exact .ttlDue now rfl
    · exact .keep
  | close r' =>
    rw [Shared.run, modify_heap]
    split
    · next h =>
      subst h
      exact .close rfl
    · exact .keep
  | list i now =>
    show Change w _ r (Function.update w.heap ⟨i.id, w.born⟩ (.new i now) r)
    rw [Function.update_apply]
    split
    · next h => exact .new i now rfl h
    · exact .keep
  | unlist id => exact .keep
  | openClock id => exact .keep
  | closeClock id => exact .keep

/-- A registered room was registered before, or has just been created. -/
theorem map_origin {w : Shared} {e : Effect} {id : String} {r : Ref}
    (h : (w.run e).map[id]? = some r) :
    w.map[id]? = some r ∨ ∃ i now, e = .list i now ∧ i.id = id ∧ r = ⟨i.id, w.born⟩ := by
  cases e with
  | unlist id' =>
    simp only [Shared.run, TreeMap.getElem?_erase] at h
    split at h
    · cases h
    · exact .inl h
  | list i now =>
    simp only [Shared.run, TreeMap.getElem?_insertIfNew] at h
    split at h
    · next hid =>
      cases h
      exact .inr ⟨i, now, rfl, Std.compare_eq_iff_eq.1 hid.1, rfl⟩
    · exact .inl h
  | none | enter | remove | ttlDue | close | openClock | closeClock => exact .inl h

theorem born_le (w : Shared) (e : Effect) : w.born ≤ (w.run e).born := by
  cases e with
  | list i now => exact Nat.le_succ _
  | none | enter | remove | ttlDue | close | unlist | openClock | closeClock => exact Nat.le_refl _

/-- Registered rooms are filed under their ids, and the next room is none of them. -/
def Shared.Listed (w : Shared) : Prop :=
  ∀ (id : String) (r : Ref), w.map[id]? = some r → r.id = id ∧ r.gen < w.born

theorem listed_run {w : Shared} (hw : w.Listed) (e : Effect) : (w.run e).Listed := by
  intro id r h
  rcases map_origin h with h | ⟨i, now, rfl, hid, rfl⟩
  · exact ⟨(hw id r h).1, (hw id r h).2.trans_le (born_le w e)⟩
  · exact ⟨hid, Nat.lt_succ_self _⟩

/-! ## Who makes which effect -/

/-- The effect is one the thread makes where it stands. -/
inductive Makes : Thread → Effect → Prop
  | none (t : Thread) : Makes t .none
  | enter (q : JoinReq) (r : Ref) (rejoin : Bool) :
      Makes (.join q (.seated r rejoin)) (.enter r q.member rejoin q.tok)
  | rollback (q : JoinReq) (r : Ref) : Makes (.join q (.rolling r)) (.remove r q.member.user)
  | leave (user roomId : String) (r : Ref) :
      Makes (.leave user roomId (.found r)) (.remove r user)
  | ttlDue (now : Nat) (r : Ref) (rs : List Ref) :
      Makes (.sweep now (.asked r rs)) (.ttlDue r now)
  | sweepClose (now : Nat) (r : Ref) (rs : List Ref) :
      Makes (.sweep now (.wreck .due r rs)) (.close r)
  | sweepUnlist (now : Nat) (r : Ref) (rs : List Ref) :
      Makes (.sweep now (.wreck .closed r rs)) (.unlist r.id)
  | sweepClock (now : Nat) (r : Ref) (rs : List Ref) :
      Makes (.sweep now (.wreck .unlisted r rs)) (.closeClock r.id)
  | clear (roomId : String) (r : Ref) (u : String) (us : List String) :
      Makes (.destroy roomId (.emptying r (u :: us))) (.remove r u)
  | remove (roomId : String) (r r' : Ref) (u : String) (us : List String) :
      Makes (.destroy roomId (.removing r r' u us)) (.remove r' u)
  | destroyClose (roomId : String) (r : Ref) : Makes (.destroy roomId (.wreck .due r)) (.close r)
  | destroyUnlist (roomId : String) (r : Ref) :
      Makes (.destroy roomId (.wreck .closed r)) (.unlist r.id)
  | destroyClock (roomId : String) (r : Ref) :
      Makes (.destroy roomId (.wreck .unlisted r)) (.closeClock r.id)
  | list (i : RoomInit) (now : Nat) : Makes (.create i now .absent) (.list i now)
  | openClock (i : RoomInit) (now : Nat) : Makes (.create i now .clockless) (.openClock i.id)

theorem step_makes (w : Shared) (o : Outcome) (t : Thread) : Makes t (t.step w o).1 := by
  cases t with
  | join q pc =>
    cases pc with
    | seated r rejoin => exact .enter q r rejoin
    | rolling r => exact .rollback q r
    | start | found | asked | settled | admitted =>
      simp only [Thread.step, Thread.joinStep, Prod.map_fst, id_eq]
      split <;> exact .none _
    | entered | met | returned => exact .none _
  | leave user roomId pc =>
    cases pc with
    | start =>
      simp only [Thread.step, Thread.leaveStep, Prod.map_fst, id_eq]
      split <;> exact .none _
    | found r => exact .leave user roomId r
    | done => exact .none _
  | sweep now pc =>
    cases pc with
    | start => exact .none _
    | todo rs => cases rs <;> exact .none _
    | asked r rs => exact .ttlDue now r rs
    | wreck p r rs =>
      cases p with
      | due => exact .sweepClose now r rs
      | closed => exact .sweepUnlist now r rs
      | unlisted => exact .sweepClock now r rs
  | destroy roomId pc =>
    cases pc with
    | start =>
      simp only [Thread.step, Thread.destroyStep, Prod.map_fst, id_eq]
      split <;> exact .none _
    | found | agreed | done => exact .none _
    | emptying r us =>
      cases us with
      | nil => exact .none _
      | cons u us =>
        simp only [Thread.step, Thread.destroyStep, Prod.map_fst, id_eq]
        split
        · split <;> exact .none _
        · exact .clear roomId r u us
    | removing r r' u us => exact .remove roomId r r' u us
    | wreck p r =>
      cases p with
      | due => exact .destroyClose roomId r
      | closed => exact .destroyUnlist roomId r
      | unlisted => exact .destroyClock roomId r
  | create i now pc =>
    cases pc with
    | start | listed | done => exact .none _
    | absent => exact .list i now
    | clockless => exact .openClock i now

end OxlensSfu.Rooms
