import OxlensSfu.Room.Core
import OxlensSfu.Sub.Table

/-!
# Publishing

The add request of `PUBLISH_TRACKS`: `publish` and `set_duplex_of` of
`crates/oxsfud/src/ops/media.rs` with what they use of `aff`, `trk` and `pub`. The request is
checked in several passes and then applied item by item.

A stream is an `Arc` that the publisher's context and the global track map share, so both map
track ids to places in a `heap` and a flag set through one is seen through the other. The request
is JSON: a field is missing, ill-typed or a value, and the passes read different fields of an item
before the item is parsed as a whole.

The events a publication sends, the sync of the subscribers and the release of the floor touch
none of these stores and are left out.
-/

namespace OxlensSfu.Media

open Std
open OxlensSfu.Rooms (Permission Room MediaCodecs)
open OxlensSfu.Sub (Kind PcMode lower fmtpParam h264Profile rowFmtp)

def perRequest : Nat := 8
def perPerson : Nat := 16

/-! ## Failures -/

inductive Code where
  | missingField
  | invalidPayload
  | roomNotFound
  | notInRoom
  | notAuthorized
  | notPubRoom
  | trackLimit
  | ssrcCollision
  | codecRequired
  | codecMismatch
  | trackOpUnsupported
  /-- None of the protocol's: the call panics and gives no answer. -/
  | panicked
  deriving DecidableEq, Repr

inductive Details where
  | none
  | denied (bits : List String)
  | limit (limit current : Nat)
  | supported (codecs : List String)
  | codec (codec : String) (fmtp : Option String)
  deriving DecidableEq, Repr

structure Failure where
  code : Code
  message : Option String := none
  details : Details := .none
  deriving DecidableEq, Repr

/-! ## The request -/

inductive Duplex where
  | full
  | half
  deriving DecidableEq, Repr

inductive Source where
  | camera
  | screen
  deriving DecidableEq, Repr

/-- A field of a JSON object, read at a type. -/
inductive Field (α : Type) where
  /-- Missing or null. -/
  | absent
  /-- Not of the type. -/
  | bad
  | val (a : α)
  deriving DecidableEq, Repr

namespace Field

variable {α : Type}

/-- `item`: what is not of the type counts as missing. -/
def item : Field α → Option α
  | .val a => some a
  | .absent | .bad => none

/-- `code::field`. -/
def field (f : Field α) (k : String) : Except Failure (Option α) :=
  match f with
  | .absent => .ok none
  | .bad => .error { code := .invalidPayload, message := some k }
  | .val a => .ok (some a)

/-- `code::need`. -/
def need (f : Field α) (k : String) : Except Failure α :=
  match f with
  | .absent => .error { code := .missingField, message := some k }
  | .bad => .error { code := .invalidPayload, message := some k }
  | .val a => .ok a

def missing : Field α → Bool
  | .absent => true
  | .bad | .val _ => false

/-- An optional field of a record parsed as a whole; `none` is a parse error. -/
def optional : Field α → Option (Option α)
  | .absent => some none
  | .bad => none
  | .val a => some (some a)

end Field

/-- One entry of `tracks`, before it is parsed. -/
structure Item where
  kind : Field Kind := .absent
  ssrc : Field (BitVec 32) := .absent
  mid : Field String := .absent
  codec : Field String := .absent
  fmtp : Field String := .absent
  pt : Field UInt8 := .absent
  rtxPt : Field UInt8 := .absent
  rtxSsrc : Field (BitVec 32) := .absent
  source : Field Source := .absent
  duplex : Field Duplex := .absent
  simulcast : Field Bool := .absent
  deriving DecidableEq, Repr

structure PublishTrack where
  kind : Kind
  ssrc : BitVec 32
  mid : String
  codec : Option String
  fmtp : Option String
  pt : UInt8
  rtxPt : Option UInt8
  rtxSsrc : Option (BitVec 32)
  source : Option Source
  duplex : Option Duplex
  simulcast : Option Bool
  deriving DecidableEq, Repr

def Item.parse (v : Item) : Option PublishTrack := do
  let kind ← v.kind.item
  let ssrc ← v.ssrc.item
  let mid ← v.mid.item
  let codec ← v.codec.optional
  let fmtp ← v.fmtp.optional
  let pt ← v.pt.item
  let rtxPt ← v.rtxPt.optional
  let rtxSsrc ← v.rtxSsrc.optional
  let source ← v.source.optional
  let duplex ← v.duplex.optional
  let simulcast ← v.simulcast.optional
  return { kind, ssrc, mid, codec, fmtp, pt, rtxPt, rtxSsrc, source, duplex, simulcast }

structure Body where
  action : Field String := .absent
  roomId : Field String
  joinId : Field String
  tracks : Field (List Item)
  twccExtmapId : Field UInt8 := .absent
  ridExtmapId : Field UInt8 := .absent
  repairRidExtmapId : Field UInt8 := .absent
  midExtmapId : Field UInt8 := .absent
  audioLevelExtmapId : Field UInt8 := .absent
  deriving DecidableEq, Repr

/-- The extension ids a request brings. -/
structure ExtReq where
  twcc : Option UInt8
  rid : Option UInt8
  repairRid : Option UInt8
  mid : Option UInt8
  audioLevel : Option UInt8
  deriving DecidableEq, Repr

def Body.ext (b : Body) : Except Failure ExtReq := do
  let twcc ← b.twccExtmapId.field "twcc_extmap_id"
  let rid ← b.ridExtmapId.field "rid_extmap_id"
  let repairRid ← b.repairRidExtmapId.field "repair_rid_extmap_id"
  let mid ← b.midExtmapId.field "mid_extmap_id"
  let audioLevel ← b.audioLevelExtmapId.field "audio_level_extmap_id"
  return { twcc, rid, repairRid, mid, audioLevel }

/-! ## The stores -/

structure ExtIds where
  mid : UInt8 := 0
  rid : UInt8 := 0
  repairRid : UInt8 := 0
  twcc : UInt8 := 0
  audioLevel : UInt8 := 0
  deriving DecidableEq, Repr

/-- A physical track: its SSRCs and the place of its stream. -/
structure PubTrack where
  ssrc : BitVec 32
  rtxSsrc : Option (BitVec 32)
  stream : Nat
  deriving DecidableEq, Repr

inductive PublishState where
  | created
  | intended
  | active
  deriving DecidableEq, Repr

structure PubStream where
  trackId : String
  user : String
  kind : Kind
  mid : String
  pt : UInt8
  rtxPt : Option UInt8 := none
  codec : Option String := none
  fmtp : Option String := none
  source : Option Source := none
  simulcast : Bool := false
  ssrc : BitVec 32
  rtxSsrc : Option (BitVec 32) := none
  duplex : Duplex := .full
  muted : Bool := false
  room : String
  tracks : List PubTrack := []
  listed : Bool := false
  state : PublishState := .created
  deriving DecidableEq, Repr

/-- The streams in memory, the publisher's own by track id and everyone's by track id. What the
publisher's context points to is in memory. A publisher without a context has an empty one. -/
structure Store where
  heap : Nat → PubStream
  size : Nat
  ctx : TreeMap String Nat
  tracks : TreeMap String Nat
  valid : ∀ (id : String) (r : Nat), ctx[id]? = some r → r < size

namespace Store

def streams (s : Store) : List Nat := s.ctx.toList.map (·.2)

def active (s : Store) : Nat := s.ctx.size

def modify (s : Store) (r : Nat) (f : PubStream → PubStream) : Store :=
  { s with heap := Function.update s.heap r (f (s.heap r)) }

/-- A new stream, entered in both maps. -/
def push (s : Store) (st : PubStream) : Store where
  heap := Function.update s.heap s.size st
  size := s.size + 1
  ctx := s.ctx.insert st.trackId s.size
  tracks := s.tracks.insert st.trackId s.size
  valid := by
    intro id r h
    rw [TreeMap.getElem?_insert] at h
    split at h
    · cases h
      exact Nat.lt_succ_self _
    · exact (s.valid id r h).trans (Nat.lt_succ_self _)

end Store

/-- The publisher's connection. `ingress` finds the track of an SSRC. -/
structure Peer where
  rooms : List (String × String)
  pubRoom : Option String
  pcMode : PcMode
  extIds : ExtIds
  ingress : BitVec 32 → Option PubTrack
  table : Option Sub.Shared

/-- The registered rooms, the publisher's peer and the streams. -/
structure State where
  rooms : String → Option Room
  keyed : ∀ id room, rooms id = some room → room.id = id
  peer : Option Peer
  store : Store

/-- The caller: its user, and the permission its token grants. -/
structure Ctx where
  user : String
  tok : Option Permission := none

/-- What the call takes from outside: the track ids it draws, by the place of the stream, and the
text of a parse error. -/
structure Env where
  newTrackId : Nat → String
  parseError : Item → String

/-! ## The checks -/

structure AddedTrack where
  mid : String
  trackId : String
  deriving DecidableEq, Repr

def joinedAs (s : State) (roomId joinId : String) : Except Failure (Peer × Room) :=
  match s.rooms roomId with
  | none => .error { code := .roomNotFound }
  | some room =>
    match s.peer with
    | none => .error { code := .notInRoom }
    | some peer =>
      if peer.rooms.lookup roomId = some joinId then .ok (peer, room)
      else .error { code := .notInRoom }

/-- The stream of the publisher that has the mid of the item. -/
def sameMid (s : Store) (items : List Item) : List (Option Nat) :=
  items.map fun v => v.mid.item.bind fun m => s.streams.find? fun r => (s.heap r).mid == m

/-- A request whose every item is published already, with the duplex it asks for. -/
def addAgain (s : Store) (items : List Item) : Option (List AddedTrack) := do
  let tracks ← (items.zip (sameMid s items)).mapM fun (v, found) => do
    let r ← found
    if v.duplex.item.getD .full ≠ (s.heap r).duplex then none
    else some { mid := (s.heap r).mid, trackId := (s.heap r).trackId }
  if tracks.isEmpty then none else some tracks

def bitAllows (perm : Permission) : Kind → Option Source → Bool
  | .audio, _ => perm.publishAudio
  | .video, some .screen => perm.publishScreen
  | .video, _ => perm.publishVideo

def bitName : Kind → Option Source → String
  | .audio, _ => "publish_audio"
  | .video, some .screen => "publish_screen"
  | .video, _ => "publish_video"

/-- The permission bits the items lack, sorted. -/
def denied (perm : Permission) (items : List Item) : List String :=
  let names := (items.filterMap fun v => v.kind.item.map fun k => (k, v.source.item)).filterMap
    fun (k, src) => if bitAllows perm k src then none else some (bitName k src)
  ["publish_audio", "publish_screen", "publish_video"].filter (· ∈ names)

def checkPermission (perm : Permission) (items : List Item) : Except Failure Unit :=
  if denied perm items = [] then .ok ()
  else .error { code := .notAuthorized, details := .denied (denied perm items) }

def checkPubRoom (peer : Peer) (roomId : String) (items : List Item) : Except Failure Unit :=
  if (items.any fun v => v.duplex.item.getD .full == .full) && peer.pubRoom != some roomId then
    .error { code := .notPubRoom }
  else .ok ()

def checkLimits (active : Nat) (items : List Item) (again : List (Option Nat)) :
    Except Failure Unit :=
  if perRequest < items.length then
    .error { code := .trackLimit, details := .limit perRequest items.length }
  else
    let current := active + (again.filter (·.isNone)).length
    if perPerson < current then
      .error { code := .trackLimit, details := .limit perPerson current }
    else .ok ()

def parseItem (env : Env) (rid : Option UInt8) (v : Item) : Except Failure PublishTrack :=
  if v.kind.missing then .error { code := .missingField, message := some "kind" }
  else if v.ssrc.missing then .error { code := .missingField, message := some "ssrc" }
  else if v.mid.missing then .error { code := .missingField, message := some "mid" }
  else if v.pt.missing then .error { code := .missingField, message := some "pt" }
  else
    match v.parse with
    | none => .error { code := .invalidPayload, message := some (env.parseError v) }
    | some t =>
      if t.mid.isEmpty then .error { code := .missingField, message := some "mid" }
      else if t.simulcast.getD false && rid.isNone then
        .error { code := .missingField, message := some "rid_extmap_id" }
      else .ok t

/-- On a single connection the uplink must not use an SSRC the server sends on. -/
def checkSsrcs (peer : Peer) (tracks : List PublishTrack) : Except Failure Unit :=
  match peer.pcMode, peer.table with
  | .one, some t =>
    let down := t.view.st.ssrcs
    if tracks.any fun x => decide (x.ssrc ∈ down) || x.rtxSsrc.any (· ∈ down) then
      .error { code := .ssrcCollision }
    else .ok ()
  | _, _ => .ok ()

def supportedVideo : List String := ["VP8", "H264"]
def defaultAudio : String := "opus"
def defaultVideo : String := "H264"
def roomH264Profile : String := "42e0"

def canonicalVideo (name : String) : Option String :=
  supportedVideo.find? fun c => lower c == lower name

def roomVideo (m : MediaCodecs) : String := m.video.getD defaultVideo

def mismatch (kind : Kind) (m : MediaCodecs) : Failure :=
  let codec := match kind with
    | .audio => m.audio.getD defaultAudio
    | .video => roomVideo m
  { code := .codecMismatch, details := .codec codec (rowFmtp codec) }

/-- There is no answer when the profile cannot be sliced: the call panics. -/
def matchesRoom (kind : Kind) (codec fmtp : Option String) (m : MediaCodecs) : Option Bool :=
  match kind with
  | .audio => some ((codec.map fun c => lower c == "opus").getD true)
  | .video =>
    match codec.bind canonicalVideo with
    | none => some false
    | some c =>
      if lower c ≠ lower (roomVideo m) then some false
      else if c = "H264" then
        if (fmtpParam fmtp "packetization-mode").getD "0" = "1" then
          (h264Profile fmtp).map fun p => p == some roomH264Profile
        else some false
      else some true

def checkCodec (m : MediaCodecs) (t : PublishTrack) : Except Failure Unit :=
  match t.kind with
  | .audio => .ok ()
  | .video =>
    match t.codec.bind canonicalVideo with
    | none => .error { code := .codecRequired, details := .supported supportedVideo }
    | some name =>
      match matchesRoom .video (some name) t.fmtp m with
      | some true => .ok ()
      | some false => .error (mismatch .video m)
      | none => .error { code := .panicked }

/-- A request that passed every check: each item with the stream it names. -/
structure Plan where
  peer : Peer
  room : Room
  ext : ExtReq
  items : List (PublishTrack × Option Nat)

/-- The passes of `publish`, in their order. A request that is a repetition is answered at once. -/
def check (s : State) (c : Ctx) (env : Env) (b : Body) :
    Except Failure (List AddedTrack ⊕ Plan) := do
  let roomId ← b.roomId.need "room_id"
  let joinId ← b.joinId.need "join_id"
  let items ← b.tracks.need "tracks"
  match addAgain s.store items with
  | some added => return .inl added
  | none =>
    let ext ← b.ext
    let (peer, room) ← joinedAs s roomId joinId
    let again := sameMid s.store items
    checkPermission (room.permissionFor c.user c.tok) items
    checkPubRoom peer roomId items
    checkLimits s.store.active items again
    let tracks ← items.mapM (parseItem env ext.rid)
    checkSsrcs peer tracks
    tracks.forM (checkCodec room.mediaCodecs)
    return .inr { peer, room, ext, items := tracks.zip again }

/-! ## The application -/

def ExtIds.merge (ids : ExtIds) (q : ExtReq) : ExtIds where
  mid := q.mid.getD ids.mid
  rid := q.rid.getD ids.rid
  repairRid := q.repairRid.getD ids.repairRid
  twcc := q.twcc.getD ids.twcc
  audioLevel := q.audioLevel.getD ids.audioLevel

/-- What the application changes. -/
structure Work where
  peer : Peer
  store : Store

def PublishTrack.wants (t : PublishTrack) : Duplex := t.duplex.getD .full

def setDuplexOf (w : Work) (room : Room) (r : Nat) (d : Duplex) : Except Failure Bool × Work :=
  if (w.store.heap r).duplex = d then (.ok true, w)
  else if (w.store.heap r).simulcast then
    (.error { code := .trackOpUnsupported, message := some "simulcast duplex" }, w)
  else if d = .full ∧ w.peer.pubRoom ≠ some room.id then (.error { code := .notPubRoom }, w)
  else
    (.ok false, { w with store := w.store.modify r fun st =>
      { st with duplex := d, muted := false, listed := true } })

/-- `index_add`. -/
def indexAdd (ingress : BitVec 32 → Option PubTrack) (t : PubTrack) : BitVec 32 → Option PubTrack :=
  let m := Function.update ingress t.ssrc (some t)
  match t.rtxSsrc with
  | none => m
  | some x => Function.update m x (some t)

/-- An item whose mid is new. -/
def addNew (c : Ctx) (env : Env) (room : Room) (w : Work) (t : PublishTrack) : AddedTrack × Work :=
  let r := w.store.size
  let simulcast := t.simulcast.getD false && t.kind == .video && t.wants == .full
  let track : PubTrack := ⟨t.ssrc, t.rtxSsrc, r⟩
  let st : PubStream := {
    trackId := env.newTrackId r
    user := c.user
    kind := t.kind
    mid := t.mid
    pt := t.pt
    rtxPt := t.rtxPt
    codec := match t.kind with
      | .video => t.codec.bind canonicalVideo
      | .audio => t.codec
    fmtp := t.fmtp
    source := t.source
    simulcast := simulcast
    ssrc := t.ssrc
    rtxSsrc := t.rtxSsrc
    duplex := t.wants
    room := room.id
    tracks := if simulcast then [] else [track]
    listed := t.wants ≠ .half && !simulcast
    state := .intended }
  let peer := { w.peer with
    ingress := if simulcast then w.peer.ingress else indexAdd w.peer.ingress track
    table := if w.peer.pcMode = .one then
      w.peer.table.map (·.apply (.addUplink (t.ssrc :: t.rtxSsrc.toList))) else w.peer.table }
  ({ mid := t.mid, trackId := st.trackId }, { peer, store := w.store.push st })

def applyItem (c : Ctx) (env : Env) (room : Room) (w : Work) :
    PublishTrack × Option Nat → Except Failure AddedTrack × Work
  | (t, none) => ((addNew c env room w t).map .ok id)
  | (t, some r) =>
    match setDuplexOf w room r t.wants with
    | (.error f, w') => (.error f, w')
    | (.ok _, w') => (.ok ⟨(w.store.heap r).mid, (w.store.heap r).trackId⟩, w')

/-- The loop over the items: it stops at the first that fails and leaves what the earlier ones
did. -/
def applyItems (c : Ctx) (env : Env) (room : Room) (w : Work) :
    List (PublishTrack × Option Nat) → Except Failure (List AddedTrack) × Work
  | [] => (.ok [], w)
  | x :: xs =>
    match applyItem c env room w x with
    | (.error f, w') => (.error f, w')
    | (.ok a, w') => (applyItems c env room w' xs).map (·.map (a :: ·)) id

/-- `publish`. A request to remove is another operation's. -/
def publish (s : State) (c : Ctx) (env : Env) (b : Body) :
    Option (Except Failure (List AddedTrack) × State) :=
  match b.action.field "action" with
  | .error f => some (.error f, s)
  | .ok action =>
    if action = some "remove" then none
    else if action ≠ none ∧ action ≠ some "add" then
      some (.error { code := .invalidPayload, message := some "action" }, s)
    else
      match check s c env b with
      | .error f => some (.error f, s)
      | .ok (.inl added) => some (.ok added, s)
      | .ok (.inr plan) =>
        let peer := { plan.peer with extIds := plan.peer.extIds.merge plan.ext }
        let (res, w) := applyItems c env plan.room ⟨peer, s.store⟩ plan.items
        some (res, { s with peer := some w.peer, store := w.store })

end OxlensSfu.Media
