import OxlensSfu.Lib.Maps
import OxlensSfu.Lib.Threads

/-!
# The sessions of a hub

Binding, resuming and ending sessions, and the rooms that a hub listens to for them
(`crates/oxhubd/src/ses/mod.rs`, `interest` of `bus/mod.rs`). Every operation is a thread, cut at
its awaits: a thread is the list of the `Job`s that it still has to do, and a step does the first.
The calls of `interest` in a loop are steps of their own.

A session is an object that tasks hold on to, whatever the tables say meanwhile; `by_sid` maps ids
to objects, and an object has its id for life. What a step learns from elsewhere (the bus, another
node, the accounts, the clock) is in its `Told`, and the results hold for all of it. Of a session
only what the tables, the sweep and the room interest depend on is kept; logs, replies and the
closing of sockets are left out.
-/

namespace OxlensSfu.Hub

structure SesState where
  bound : Bool := false
  resumed : Bool := false
  live : Bool := false
  /-- The id of the connection. -/
  conn : Option Nat := none
  droppedAt : Option Nat := none
  /-- The rooms of every node, each once. -/
  servers : List (String × String) := []
  deriving DecidableEq, Repr

structure Session where
  sid : String
  userId : String
  st : SesState := {}
  deriving DecidableEq, Repr

/-- What a hub hands over to another. -/
structure SessionData where
  sid : String
  userId : String
  servers : List (String × String)
  deriving DecidableEq, Repr

namespace SesState

def rooms (s : SesState) : List String := s.servers.map (·.2)

def roomsOf (s : SesState) (node : String) : List String :=
  (s.servers.filter (·.1 = node)).map (·.2)

/-- `servers.insert(node, rooms)`. -/
def withRooms (s : SesState) (node : String) (rooms : List String) : SesState :=
  { s with servers := s.servers.filter (·.1 ≠ node) ++ rooms.map fun r => (node, r) }

def withoutRoom (s : SesState) (room : String) : SesState :=
  { s with servers := s.servers.filter (·.2 ≠ room) }

end SesState

structure Ctx where
  /-- The name of the node. -/
  home : String
  resumeWindowMs : Nat
  now : Nat := 0
  objects : Nat → Session := fun _ => ⟨"", "", {}⟩
  born : Nat := 0
  bySid : Map String Nat := ∅
  byUser : Map String String := ∅
  /-- The interest counts of rooms; no entry is 0. -/
  roomSubs : String → Nat := fun _ => 0
  userSubs : String → Nat := fun _ => 0
  /-- The sessions that `bind` has returned to a connection. -/
  given : List Nat := []

namespace Ctx

def session (h : Ctx) (sid : String) : Option Nat := h.bySid.lookup sid

def sessionOfUser (h : Ctx) (user : String) : Option Nat :=
  (h.byUser.lookup user).bind h.session

def modify (h : Ctx) (s : Nat) (f : SesState → SesState) : Ctx :=
  { h with
    objects := Function.update h.objects s { h.objects s with st := f (h.objects s).st } }

/-- A new object. -/
def alloc (h : Ctx) (s : Session) : Ctx :=
  { h with objects := Function.update h.objects h.born s, born := h.born + 1 }

end Ctx

/-! ## Jobs -/

inductive Cause where
  | evict
  | leave
  | reclaim
  | cut
  | window
  deriving DecidableEq, Repr

inductive Job where
  | bind (conn : Nat) (sid : Option String)
  | findSess (conn : Nat) (sid : String)
  | askSess (conn : Nat) (sid : String)
  | verify (conn : Nat)
  | evictOld (conn : Nat) (user : String)
  | remote (conn : Nat) (user : String)
  | bumpUser (user : String) (up : Bool)
  | insert (s : Nat)
  | opened (s : Nat)
  | resumeBind (s conn : Nat)
  | dispose (s : Nat) (cause : Cause)
  | lowerRooms (s : Nat)
  | clear (s : Nat)
  | handOver (sid : String)
  | evict (sid : String)
  | cut (user : String)
  | sweep
  | dropped (s conn : Nat) (reclaim : Bool)
  | join (s : Nat) (room : String)
  | request (s : Nat)
  | call (s : Nat) (node : String)
  | resume (s : Nat)
  | resumeNodes (s : Nat) (nodes : List String)
  | affiliation (user : String)
  | setRooms (s : Nat) (node : String) (rooms : List String)
  | bump (room : String) (up : Bool)
  | roomDropped (room : String)
  | dropRoom (s : Nat) (room : String)
  deriving DecidableEq, Repr

/-- What a step learns from elsewhere. -/
structure Told where
  /-- How much later it is. -/
  later : Nat := 0
  /-- The node of a session, a room or a notice, when there is one. -/
  node : Option String := none
  data : Option SessionData := none
  /-- The user of a token. -/
  user : Option String := none
  full : Bool := false
  /-- The id that is drawn for a session. -/
  sid : String := ""
  /-- The rooms that a node answers with, or that a notice brings. -/
  rooms : Option (List String) := none
  /-- The orders in which the sessions of `by_sid`, and the nodes and rooms of a session, are
  walked. -/
  sessions : Shuffle Nat := default
  order : Shuffle String := default

namespace Ctx

/-- `unregister`, up to where it reads the rooms. -/
def unregister (h : Ctx) (s : Nat) : Ctx × List Job :=
  let o := h.objects s
  if h.session o.sid = none then (h, [])
  else
    ({ h with
        bySid := h.bySid.erase o.sid
        byUser := if h.byUser.lookup o.userId = some o.sid then h.byUser.erase o.userId
          else h.byUser },
      [.bumpUser o.userId false, .lowerRooms s])

def dispose (h : Ctx) (s : Nat) : Ctx × List Job :=
  let (h, js) := h.unregister s
  (h, js ++ [.clear s])

/-- The swap of `set_rooms`, and the interest that it asks for. -/
def setRooms (h : Ctx) (o : Told) (s : Nat) (node : String) (rooms : List String) :
    Ctx × List Job :=
  let new := rooms.dedup
  let old := (h.objects s).st.roomsOf node
  (h.modify s (·.withRooms node new),
    (o.order.run (new.filter (· ∉ old))).map (.bump · true) ++
      (o.order.run (old.filter (· ∉ new))).map (.bump · false))

/-- What a sweep collects. -/
def due (h : Ctx) (s : Nat) : Bool :=
  let st := (h.objects s).st
  !st.bound && st.droppedAt.any (· + h.resumeWindowMs ≤ h.now)

/-- A count goes up, or down where it is not 0. -/
def bump (subs : String → Nat) (name : String) (up : Bool) : String → Nat :=
  Function.update subs name (if up then subs name + 1 else subs name - 1)

/-- The job is done, and leaves the jobs that come before the others of its thread. -/
def run (h : Ctx) (o : Told) : Job → Ctx × List Job
  | .bind conn sid =>
    match sid with
    | none => (h, [.verify conn])
    | some sid =>
      match h.session sid with
      | some s => (h, [.resumeBind s conn])
      | none => (h, [.findSess conn sid])
  | .findSess conn sid =>
    match o.node with
    | none => (h, [.verify conn])
    | some node => (h, [if node = h.home then .verify conn else .askSess conn sid])
  | .askSess conn _ =>
    match o.data with
    | none => (h, [.verify conn])
    | some d =>
      (h.alloc ⟨d.sid, d.userId, { servers := d.servers }⟩,
        .bumpUser d.userId true :: .insert h.born ::
          (o.order.run (d.servers.map (·.2))).map (.bump · true) ++ [.resumeBind h.born conn])
  | .verify conn =>
    match o.user with
    | none => (h, [])
    | some user => (h, [.evictOld conn user])
  | .evictOld conn user =>
    if o.full then (h, [])
    else
      match h.sessionOfUser user with
      | some old => (h, [.dispose old .evict, .remote conn user])
      | none => (h, [.remote conn user])
  | .remote conn user =>
    (h.alloc ⟨o.sid, user, { bound := true, live := true, conn := some conn }⟩,
      [.bumpUser user true, .insert h.born, .opened h.born])
  | .bumpUser user up => ({ h with userSubs := bump h.userSubs user up }, [])
  | .insert s =>
    ({ h with
        bySid := h.bySid.insert (h.objects s).sid s
        byUser := h.byUser.insert (h.objects s).userId (h.objects s).sid }, [])
  | .opened s => ({ h with given := s :: h.given }, [])
  | .resumeBind s conn =>
    (h.modify s fun st =>
      { st with conn := some conn, bound := true, resumed := true, live := true, droppedAt := none },
      [.opened s])
  | .dispose s _ => h.dispose s
  | .lowerRooms s => (h, (o.order.run (h.objects s).st.rooms).map (.bump · false))
  | .clear s =>
    (h.modify s fun st =>
      { st with live := false, bound := false, resumed := false, conn := none, servers := [] }, [])
  | .handOver sid =>
    match h.session sid with
    | none => (h, [])
    | some s => (h.modify s fun st => { st with conn := none }).unregister s
  | .evict sid =>
    match h.session sid with
    | none => (h, [])
    | some s => (h, [.dispose s .evict])
  | .cut user =>
    match h.sessionOfUser user with
    | none => (h, [])
    | some s => (h, [.dispose s .cut])
  | .sweep => (h, ((o.sessions.run h.bySid.values).filter h.due).map (.dispose · .window))
  | .dropped s conn reclaim =>
    if (h.objects s).st.conn = some conn ∧ h.session (h.objects s).sid ≠ none then
      if reclaim then (h, [.dispose s .reclaim])
      else
        (h.modify s fun st => { st with bound := false, conn := none, droppedAt := some h.now }, [])
    else (h, [])
  | .join s room =>
    match o.node with
    | none => (h, [])
    | some node => (h, [.bump room true, .call s node, .bump room false])
  | .request s =>
    match o.node with
    | none => (h, [])
    | some node => (h, [.call s node])
  | .call s node =>
    match o.rooms with
    | none => (h, [])
    | some rooms => (h, [.setRooms s node rooms])
  | .resume s =>
    let st := (h.objects s).st
    if st.bound && st.live && st.resumed then
      (h, [.resumeNodes s (o.order.run (st.servers.map (·.1)).dedup)])
    else (h, [])
  | .resumeNodes s nodes =>
    match nodes with
    | [] => (h, [])
    | node :: nodes =>
      match o.rooms with
      | none => (h, [])
      | some rooms => (h, [.setRooms s node rooms, .resumeNodes s nodes])
  | .affiliation user =>
    match h.sessionOfUser user, o.node, o.rooms with
    | some s, some node, some rooms => (h, [.setRooms s node rooms])
    | _, _, _ => (h, [])
  | .setRooms s node rooms => h.setRooms o s node rooms
  | .bump room up => ({ h with roomSubs := bump h.roomSubs room up }, [])
  | .roomDropped room => (h, (o.sessions.run h.bySid.values).map (.dropRoom · room))
  | .dropRoom s room =>
    (h.modify s (·.withoutRoom room),
      if room ∈ (h.objects s).st.rooms then [.bump room false] else [])

end Ctx

/-! ## Threads -/

/-- The job is the beginning of an operation. -/
def Job.starts : Job → Bool
  | .bind _ _ | .handOver _ | .evict _ | .cut _ | .sweep | .dropped _ _ _ | .dispose _ .leave
  | .join _ _ | .request _ | .resume _ | .affiliation _ | .roomDropped _ => true
  | _ => false

/-- The session that a connection names when it asks for the operation. -/
def Job.asks : Job → Option Nat
  | .dropped s _ _ | .dispose s .leave | .join s _ | .request s | .resume s => some s
  | _ => none

def hub : Program Ctx (List Job) Told where
  fresh js := match js with
    | [j] => j.starts = true
    | _ => False
  step h o js :=
    let h := { h with now := h.now + o.later }
    match js with
    | [] => (h, [])
    | j :: js => ((h.run o j).1, (h.run o j).2 ++ js)

instance : DecidablePred hub.fresh := fun js =>
  match js with
  | [] => .isFalse id
  | [j] => inferInstanceAs (Decidable (j.starts = true))
  | _ :: _ :: _ => .isFalse id

abbrev HubPool : Type := Program.Pool Ctx (List Job)

/-- A connection asks for operations on the session that it was given. -/
def Called (p : HubPool) : Program.Sched (List Job) Told → Prop
  | .spawn js => ∀ j ∈ js, ∀ s ∈ j.asks, s ∈ p.shared.given
  | .step _ _ => True

instance (p : HubPool) : (a : Program.Sched (List Job) Told) → Decidable (Called p a)
  | .spawn js => inferInstanceAs (Decidable (∀ j ∈ js, ∀ s ∈ j.asks, s ∈ p.shared.given))
  | .step _ _ => .isTrue trivial

/-- The operations of one hub, in any interleaving. -/
def hubMachine : Machine HubPool (Program.Sched (List Job) Told) := hub.machine.restrict Called

instance (p : HubPool) (a : Program.Sched (List Job) Told) : Decidable (hubMachine.ok p a) :=
  inferInstanceAs (Decidable ((hub.machine.restrict Called).ok p a))

/-- A hub without sessions. -/
def Ctx.start (home : String) (resumeWindowMs : Nat) : HubPool :=
  ⟨{ home, resumeWindowMs }, []⟩

/-- The job that thread `i` does next. -/
def HubPool.job (p : HubPool) (i : Nat) : Option Job := (p.threads[i]?).bind List.head?

/-- No operation is in progress. -/
def HubPool.quiet (p : HubPool) : Prop := ∀ js ∈ p.threads, js = []

instance (p : HubPool) : Decidable p.quiet :=
  inferInstanceAs (Decidable (∀ js ∈ p.threads, js = []))

end OxlensSfu.Hub
