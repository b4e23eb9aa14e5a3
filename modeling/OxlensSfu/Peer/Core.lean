import OxlensSfu.Lib.Machine
import OxlensSfu.Room.Core
import OxlensSfu.Sub.Seed

/-!
# Peers and their rooms

The requests that decide who is in which room and where a user publishes: `join`, `leave` and
`session_gone` of `crates/oxsfud/src/ops/rooms.rs`, the affiliation of `ops/media.rs`, the lost
homes of `ops/timers.rs`, the two forced departures of `ops/admin.rs`, and the reclamation of
`gc/mod.rs` they all end in.

Four stores are involved: the roster of each room, the room set of each peer, the members of each
floor and the publication room of each peer. A request runs alone here, to its end and with the
work it spawns, so the room it looked up stays the registered one. Peers are in memory and the
registry points to them, as a peer outlives its registration while it is being reclaimed.

What the media side answers is an input of the request: whether the subscription table has room
for one more, and whether the streams may move to another room. Of the table itself only its seed is
followed here, which may panic and end the join in the middle; its rows are left to `Sub`, and what
the rooms publish to `Rooms`.
-/

namespace OxlensSfu.Peers

open Std Rooms

def maxRooms : Nat := 100

structure Home where
  node : String := ""
  inst : String := ""
  deriving DecidableEq, Repr

structure Peer where
  user : String
  sid : String
  home : Home := {}
  pcMode : Sub.PcMode := .two
  /-- The rooms the user is in, each with the id of its entry. -/
  rooms : TreeMap String String := ∅
  pubRoom : Option String := none

namespace Peer

def inRoom (p : Peer) (r : String) : Bool := p.rooms.contains r

def joinId (p : Peer) (r : String) : Option String := p.rooms[r]?

end Peer

structure Affiliation where
  subRooms : List String
  pubRoom : Option String
  deriving DecidableEq, Repr

def Peer.affiliation (p : Peer) : Affiliation := ⟨p.rooms.keys, p.pubRoom⟩

/-- The failures of these requests, with what each reports. -/
inductive Failure where
  | roomNotFound
  | notInRoom
  | internalError
  | missingField (name : String)
  | overloaded (retryAfterMs : Nat)
  | roomFull (capacity : UInt32)
  | listenLimit (limit current : Nat)
  | midLimit (limit current : Nat)
  | codecRequired
  | codecMismatch (codec : String)
  | notAuthorized (denied : List String)
  | preconditionFailed (expected actual : String)
  /-- None of the protocol's: the call panics and gives no answer. -/
  | panicked
  deriving DecidableEq, Repr

/-- The server. The media runtime is started once or never; a table belongs to a peer, and a clock
to the floor of a room. `slotMidReserve` is the policy's. -/
structure Sfu where
  media : Bool
  slotMidReserve : Nat := 40
  rooms : TreeMap String Room := ∅
  peers : TreeMap String Nat := ∅
  heap : Nat → Peer := fun _ => { user := "", sid := "" }
  size : Nat := 0
  tables : TreeMap Nat Sub.Shared := ∅
  clocks : TreeSet String := ∅

namespace Sfu

def onRoom (s : Sfu) (rid : String) (f : Room → Room) : Sfu :=
  match s.rooms[rid]? with
  | none => s
  | some room => { s with rooms := s.rooms.insert rid (f room) }

def onPeer (s : Sfu) (p : Nat) (f : Peer → Peer) : Sfu :=
  { s with heap := Function.update s.heap p (f (s.heap p)) }

/-- The registered peers, in some order. -/
def all (s : Sfu) : List Nat := s.peers.toList.map (·.2)

def member (s : Sfu) (rid user : String) : Option Member := s.rooms[rid]?.bind (·.member user)

/-- `floor::run`: nothing happens to a floor without a clock. -/
def runFloor (s : Sfu) (rid : String) (o : Flr.Op) : Sfu :=
  if rid ∈ s.clocks then s.onRoom rid fun r => { r with floor := (r.floor.apply o).fl } else s

def runFloorAt (s : Sfu) (rid : Option String) (o : Flr.Op) : Sfu :=
  match rid with
  | none => s
  | some r => s.runFloor r o

def setPubRoom (s : Sfu) (p : Nat) (dest : Option String) : Sfu :=
  s.onPeer p fun q => { q with pubRoom := dest }

end Sfu

/-! ## Reclamation -/

inductive Why where
  | leave
  | kick
  | destroy
  | evict
  | sessionGone
  | homeLost
  deriving DecidableEq, Repr

namespace Sfu

/-- `gc::reap`: the registration ends, if it is still this peer's. -/
def reap (s : Sfu) (p : Nat) : Sfu :=
  let user := (s.heap p).user
  { s with
    peers := if s.peers[user]? = some p then s.peers.erase user else s.peers
    tables := s.tables.erase p }

/-- The registration ends with the last room. -/
def reapIfEmpty (s : Sfu) (p : Nat) : Sfu := if (s.heap p).rooms.isEmpty then s.reap p else s

/-- The first steps of `gc::leave`: the floor, then the publication room. -/
def stepDown (s : Sfu) (p : Nat) (rid : String) : Sfu :=
  let s := s.runFloor rid (.wsLeave (s.heap p).user)
  if (s.heap p).pubRoom = some rid then s.setPubRoom p none else s

/-- The next ones: the roster, then the rooms of the peer. -/
def strike (s : Sfu) (p : Nat) (rid : String) (keepRoster : Bool) : Sfu :=
  let user := (s.heap p).user
  let s := if keepRoster then s else s.onRoom rid fun r => (r.remove user).2
  s.onPeer p fun q => { q with rooms := q.rooms.erase rid }

/-- `gc::leave`. The roster entry may be kept for a new session of the user. -/
def leave (s : Sfu) (p : Nat) (rid : String) (why : Why) (keepRoster : Bool) : Bool × Sfu :=
  if rid ∉ s.rooms then (false, s)
  else
    let user := (s.heap p).user
    let s := s.stepDown p rid
    let m := s.member rid user
    if !keepRoster && m.isNone then (false, s)
    else
      let s := (s.strike p rid keepRoster).reapIfEmpty p
      let s := if !keepRoster && !m.any (·.hidden) && why ≠ .destroy then
          s.onRoom rid fun r => (r.announceLeft user).2
        else s
      (true, s)

/-- `gc::evict`. -/
def evict (s : Sfu) (p : Nat) (keep : Option String) (why : Why) : Sfu :=
  let s := (s.heap p).rooms.keys.foldl (fun s rid => (s.leave p rid why (keep = some rid)).2) s
  s.reap p

end Sfu

/-! ## The publication room -/

namespace Sfu

/-- The move itself: the old floor hears first, the new one last. -/
def moveTo (s : Sfu) (p : Nat) (dest : Option String) : Sfu :=
  let user := (s.heap p).user
  let s := s.runFloorAt (s.heap p).pubRoom (.wsPubAway user)
  let s := s.setPubRoom p dest
  s.runFloorAt dest (.wsPubSelect user)

/-- `move_pub`. The streams are checked against the room they move to. -/
def movePub (s : Sfu) (p : Nat) (dest : Option String) (recheck : Option Failure) :
    Except Failure Unit × Sfu :=
  if dest.isSome ∧ (s.heap p).pubRoom = dest then (.ok (), s)
  else
    match recheck.filter fun _ => dest.isSome with
    | some f => (.error f, s)
    | none => (.ok (), s.moveTo p dest)

end Sfu

/-! ## Requests of a user -/

/-- Who asks: the envelope and the claims of the token. -/
structure Ctx where
  user : String
  sid : String := ""
  home : Option Home := none
  pcMode : Sub.PcMode := .two
  hidden : Bool := false
  participantType : UInt8 := 0
  metadata : Option String := none
  permission : Option Permission := none
  /-- The hub asks to turn new users away, for so long. -/
  overMs : Option Nat := none

structure JoinReq where
  roomId : String
  joinId : Option String := none
  role : Option UInt8 := none
  select : Option Bool := none
  codecs : Option (List Sub.JoinCodec) := none
  extmap : Option (List Sub.ExtMap) := none

structure JoinRes where
  roomId : String
  joinId : String
  participants : List MemberInfo
  me : MemberInfo
  affiliation : Affiliation
  version : Version
  mediaCodecs : MediaCodecs

structure AffiliationReq where
  pubSelect : Option String := none
  pubSelectJoinId : Option String := none
  pubDeselect : Option String := none
  pubDeselectJoinId : Option String := none

/-- What the media side answers while the request runs. -/
structure Media where
  /-- The id of the new entry. -/
  joinId : String := ""
  /-- The table has no room for the streams of the room: its limit and what it would hold. -/
  midLimit : Option (Nat × Nat) := none
  /-- The streams of the user may not move to the room. -/
  recheck : Option Failure := none
  /-- The user has a half duplex stream. -/
  half : Bool := false
  /-- The seconds the speaker has left. -/
  t2Left : Nat := 0

namespace Sfu

/-- `follow_home`, before every operation of a user. -/
def followHome (s : Sfu) (c : Ctx) : Sfu :=
  match c.home, s.peers[c.user]? with
  | some h, some p => s.onPeer p fun q => { q with home := h }
  | _, _ => s

/-- `new_peer`, which needs the media runtime. -/
def newPeer (s : Sfu) (c : Ctx) : Option Nat × Sfu :=
  if s.media then
    (some s.size, { s with
      peers := s.peers.insert c.user s.size
      heap := Function.update s.heap s.size
        { user := c.user, sid := c.sid, home := c.home.getD {}, pcMode := c.pcMode }
      size := s.size + 1
      tables := s.tables.insert s.size (.new c.pcMode s.slotMidReserve) })
  else (none, s)

/-- The registered peer, or a new one. -/
def peerFor (s : Sfu) (c : Ctx) : Option Nat × Sfu :=
  match s.peers[c.user]? with
  | some p => (some p, s)
  | none => s.newPeer c

def joinRes (s : Sfu) (p : Nat) (rid : String) (me : Option Member) : Except Failure JoinRes :=
  match me, s.rooms[rid]?, (s.heap p).joinId rid with
  | some m, some room, some joinId =>
    if p ∈ s.tables then
      .ok {
        roomId := rid
        joinId := joinId
        participants := room.participants
        me := m.me
        affiliation := (s.heap p).affiliation
        version := room.version
        mediaCodecs := room.mediaCodecs }
    else .error .internalError
  | _, _, _ => .error .internalError

/-- The same session is in the room and asks again. -/
def sameEntry (s : Sfu) (c : Ctx) (q : JoinReq) (p : Nat) : Bool :=
  (s.heap p).inRoom q.roomId && (s.heap p).sid == c.sid &&
    q.joinId != (s.heap p).joinId q.roomId

/-- An older session gives way. It keeps its place in the roster if it is in the room, and the
answer is whether it does. -/
def makeWay (s : Sfu) (c : Ctx) (q : JoinReq) : Bool × Sfu :=
  match s.peers[c.user]? with
  | none => (false, s)
  | some old =>
    if (s.heap old).inRoom q.roomId then
      let s := s.evict old (some q.roomId) .evict
      ((s.member q.roomId c.user).isSome, s)
    else if (s.heap old).sid ≠ c.sid then (false, s.evict old none .evict)
    else (false, s)

/-- The table is full: the entry is taken back. -/
def backOut (s : Sfu) (p : Nat) (user rid : String) (rejoin : Bool) : Sfu :=
  let s := (s.onPeer p fun q => { q with rooms := q.rooms.erase rid }).reapIfEmpty p
  if rejoin ∧ (s.member rid user).isSome then
    s.onRoom rid fun r => ((r.remove user).2.announceLeft user).2
  else s

/-- The end of `join`: the roster, the floor, the publication room. -/
def enter (s : Sfu) (p : Nat) (c : Ctx) (q : JoinReq) (x : Media) (rejoin : Bool) :
    Except Failure JoinRes × Sfu :=
  let rid := q.roomId
  let select := q.select.getD true
  let m : Member := {
    user := c.user
    role := some (q.role.getD 255)
    select := select
    participantType := c.participantType
    hidden := c.hidden
    metadata := c.metadata }
  let s := s.onRoom rid fun r => (r.join m rejoin c.permission).2
  match s.member rid c.user with
  | none => (.error .internalError, s)
  | some me =>
    let s := s.runFloor rid (.wsJoin c.user me.permission.floorRequest)
    let s := if select then (s.movePub p (some rid) x.recheck).2
      else if (s.heap p).pubRoom = some rid then s.runFloor rid (.wsPubSelect c.user)
      else s
    (s.joinRes p rid (some me), s)

/-- The numbers of the client go into the table of a single connection. The answer is whether the
call comes to its end. -/
def seedTable (s : Sfu) (p : Nat) (t : Sub.Shared) (q : JoinReq) : Bool × Sfu :=
  if (s.heap p).pcMode = .one then
    let y := t.seed (q.codecs.getD []) (q.extmap.getD [])
    (y.2.isSome, { s with tables := s.tables.insert p y.1 })
  else (true, { s with tables := s.tables.insert p (t.apply .markSeeded) })

/-- `join` from the allotment on: the number of rooms, the peer, the table. A panic ends it with the
peer in no room, whatever the roster has. -/
def allot (s : Sfu) (c : Ctx) (q : JoinReq) (x : Media) (rejoin : Bool) :
    Except Failure JoinRes × Sfu :=
  match s.peers[c.user]?.filter fun p => maxRooms ≤ (s.heap p).rooms.size with
  | some p => (.error (.listenLimit maxRooms (s.heap p).rooms.size), s)
  | none =>
    match s.peerFor c with
    | (none, s) => (.error .internalError, s)
    | (some p, s) =>
      match s.tables[p]? with
      | none => (.error .internalError, s)
      | some t =>
        match s.seedTable p t q with
        | (false, s) => (.error .panicked, s)
        | (true, s) =>
          let s := s.onPeer p fun y => { y with rooms := y.rooms.insert q.roomId x.joinId }
          match x.midLimit with
          | some (limit, current) =>
            (.error (.midLimit limit current), s.backOut p c.user q.roomId rejoin)
          | none => s.enter p c q x rejoin

/-- `rooms::join`. -/
def join (s : Sfu) (c : Ctx) (q : JoinReq) (x : Media) : Except Failure JoinRes × Sfu :=
  match s.rooms[q.roomId]? with
  | none => (.error .roomNotFound, s)
  | some room =>
    match if room.has c.user then none else c.overMs with
    | some ms => (.error (.overloaded ms), s)
    | none =>
      match s.peers[c.user]?.filter (s.sameEntry c q) with
      | some old => (s.joinRes old q.roomId (room.member c.user), s)
      | none =>
        let (rejoin, s) := s.makeWay c q
        if !rejoin && s.rooms[q.roomId]?.any (·.fullFor c.hidden) then
          (.error (.roomFull room.capacity), s)
        else s.allot c q x rejoin

/-- `joined` and `joined_as`: the peer, if it is in the room under that entry. -/
def joinedAs (s : Sfu) (c : Ctx) (rid : String) (joinId : Option String) : Except Failure Nat :=
  if rid ∉ s.rooms then .error .roomNotFound
  else
    match s.peers[c.user]? with
    | none => .error .notInRoom
    | some p =>
      if !(s.heap p).inRoom rid then .error .notInRoom
      else if joinId.isSome ∧ (s.heap p).joinId rid ≠ joinId then .error .notInRoom
      else .ok p

/-- `rooms::leave`. -/
def roomLeave (s : Sfu) (c : Ctx) (rid : String) (joinId : Option String) :
    Except Failure (String × Affiliation) × Sfu :=
  match s.joinedAs c rid joinId with
  | .error f => (.error f, s)
  | .ok p =>
    match s.leave p rid .leave false with
    | (false, s) => (.error .notInRoom, s)
    | (true, s) => (.ok (rid, (s.heap p).affiliation), s)

/-- The request names the entry of the room by its id. -/
def checkEntry (p : Peer) (room : String) (joinId : Option String) (name : String) :
    Except Failure Unit :=
  match joinId with
  | none => .error (.missingField name)
  | some j => if p.joinId room = some j then .ok () else .error .notInRoom

def checkSelect (p : Peer) (q : AffiliationReq) : Except Failure Unit :=
  match q.pubSelect with
  | none => .ok ()
  | some sel => checkEntry p sel q.pubSelectJoinId "pub_select_join_id"

/-- A room the peer is not in may be given up all the same. -/
def checkDeselect (p : Peer) (q : AffiliationReq) : Except Failure Unit :=
  match q.pubDeselect with
  | none => .ok ()
  | some de =>
    if q.pubDeselectJoinId.isNone then .error (.missingField "pub_deselect_join_id")
    else if p.inRoom de then checkEntry p de q.pubDeselectJoinId "pub_deselect_join_id"
    else .ok ()

def releaseFloorIfSpeaker (s : Sfu) (user rid : String) (x : Media) : Sfu :=
  if s.rooms[rid]?.any (·.floor.holder = some user) then
    s.runFloor rid (.serverRx user { t := .release } x.half x.t2Left)
  else s

/-- `affiliation`. A request that names both rooms selects. -/
def affiliation (s : Sfu) (c : Ctx) (q : AffiliationReq) (x : Media) :
    Except Failure Affiliation × Sfu :=
  match s.peers[c.user]? with
  | none => (.error .notInRoom, s)
  | some p =>
    match checkSelect (s.heap p) q, checkDeselect (s.heap p) q with
    | .error f, _ => (.error f, s)
    | .ok (), .error f => (.error f, s)
    | .ok (), .ok () =>
      let old := (s.heap p).pubRoom
      let (res, s) : Except Failure Unit × Sfu := match q.pubSelect, q.pubDeselect with
        | some sel, _ =>
          if sel ∈ s.rooms ∧ old ≠ some sel then s.movePub p (some sel) x.recheck
          else (.ok (), s)
        | none, some de =>
          if old = some de then (s.releaseFloorIfSpeaker c.user de x).movePub p none x.recheck
          else (.ok (), s)
        | none, none => (.ok (), s)
      (res.map fun _ => (s.heap p).affiliation, s)

/-! ## Requests about others -/

/-- `session_gone`. Without a session id it is any session of the user. -/
def sessionGone (s : Sfu) (user sid : Option String) : Sfu :=
  match s.peers[user.getD ""]? with
  | none => s
  | some p =>
    if sid.getD "" = "" ∨ (s.heap p).sid = sid.getD "" then s.evict p none .sessionGone else s

/-- What the bus knows of the other nodes. -/
structure Nodes where
  isolated : Bool
  homeAlive : String → String → Option (Bool × Nat)
  now : Nat
  graceMs : Nat

/-- The home of the peer has been down for the time of grace. -/
def Nodes.lost (n : Nodes) (h : Home) : Bool :=
  h.node != "" && (n.homeAlive h.node h.inst).any fun a => !a.1 && n.now - a.2 ≥ n.graceMs

/-- `home_lost`, over the peers in the order it finds them. -/
def homeLost (s : Sfu) (n : Nodes) (order : List Nat) : Sfu :=
  if n.isolated then s
  else order.foldl (fun s p => if n.lost (s.heap p).home then s.evict p none .homeLost else s) s

/-- `admin::reap`. -/
def kick (s : Sfu) (rid user : String) : Except Failure (Bool × Option Version) × Sfu :=
  if rid ∉ s.rooms then (.error .roomNotFound, s)
  else
    match s.peers[user]?.filter fun p => (s.heap p).inRoom rid with
    | none => (.error .notInRoom, s)
    | some p =>
      let (left, s) := s.leave p rid .kick false
      (.ok (left, s.rooms[rid]?.map (·.version)), s)

/-- `destroy_room`. The room itself is gone with its registration. -/
def destroyRoom (s : Sfu) (rid : String) : Sfu :=
  { s with rooms := s.rooms.erase rid, clocks := s.clocks.erase rid }

/-- One user's turn in `admin::destroy`. -/
def turnOut (rid : String) (s : Sfu) (user : String) : Sfu :=
  match s.peers[user]? with
  | some p => (s.leave p rid .destroy false).2
  | none => s.onRoom rid fun r => (r.remove user).2

/-- `admin::destroy`, with the removal it spawns. The answer is how many were told. -/
def destroy (s : Sfu) (rid : String) (ifVersion : Option String) : Except Failure Nat × Sfu :=
  match s.rooms[rid]?, ifVersion with
  | none, _ => (.error .roomNotFound, s)
  | some _, none => (.error (.missingField "if_version"), s)
  | some room, some want =>
    let actual := room.version.epoch ++ ":" ++ toString room.version.seq
    if want ≠ actual then (.error (.preconditionFailed want actual), s)
    else
      let notified := room.users.countP fun u => s.peers.contains u
      (.ok notified, (room.users.foldl (turnOut rid) s).destroyRoom rid)

/-- The room is registered and the clock of its floor opened. -/
def register (s : Sfu) (room : Room) : Sfu :=
  { s with rooms := s.rooms.insert room.id room, clocks := s.clocks.insert room.id }

/-- `rooms::create`. The codecs are what the room's are resolved to. -/
def create (s : Sfu) (i : RoomInit) (codecs : Option MediaCodecs) (now : Nat) :
    Except Failure Unit × Sfu :=
  if i.id = "" then (.error (.missingField "room_id"), s)
  else if i.id ∈ s.rooms then (.ok (), s)
  else
    match codecs with
    | none => (.error .codecRequired, s)
    | some m => (.ok (), s.register (.new { i with mediaCodecs := m } now))

/-- The turn of one room in `sweep`. -/
def sweep (s : Sfu) (rid : String) (now : Nat) : Sfu :=
  match s.rooms[rid]? with
  | none => s
  | some room =>
    if room.registered = 0 then
      let s := s.onRoom rid fun r => (r.ttlDue now).2
      if (room.ttlDue now).1 then s.destroyRoom rid else s
    else s

end Sfu

/-! ## Runs -/

/-- One request after another, and what happens to the rooms between them: the traffic of the
floors, and the notices that move a room's version on. -/
inductive Act where
  | create (i : RoomInit) (codecs : Option MediaCodecs) (now : Nat)
  | join (c : Ctx) (q : JoinReq) (x : Media)
  | leave (c : Ctx) (rid : String) (joinId : Option String)
  | affiliation (c : Ctx) (q : AffiliationReq) (x : Media)
  | sessionGone (user sid : Option String)
  | homeLost (n : Sfu.Nodes) (order : List Nat)
  | kick (rid user : String)
  | destroy (rid : String) (ifVersion : Option String)
  | sweep (rid : String) (now : Nat)
  | floor (rid : String) (o : Flr.Op)
  | notice (rid : String)

/-- The operations of a floor that no request above makes. -/
def IsTraffic : Flr.Op → Bool
  | .wsJoin .. | .wsLeave _ | .wsPubSelect _ | .wsPubAway _ => false
  | _ => true

def machine : Machine Sfu Act where
  ok s
    | .homeLost _ order => order.Perm s.all
    | .floor _ o => IsTraffic o
    | _ => True
  next s
    | .create i codecs now => (s.create i codecs now).2
    | .join c q x => ((s.followHome c).join c q x).2
    | .leave c rid joinId => ((s.followHome c).roomLeave c rid joinId).2
    | .affiliation c q x => ((s.followHome c).affiliation c q x).2
    | .sessionGone user sid => s.sessionGone user sid
    | .homeLost n order => s.homeLost n order
    | .kick rid user => (s.kick rid user).2
    | .destroy rid ifVersion => (s.destroy rid ifVersion).2
    | .sweep rid now => s.sweep rid now
    | .floor rid o => s.runFloor rid o
    | .notice rid => s.onRoom rid fun r => (r.bumpAndSend fun _ => none).2

end OxlensSfu.Peers
