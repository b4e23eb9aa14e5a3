import Mathlib.Data.List.DropRight
import Mathlib.Data.List.MinMax
import Mathlib.Data.List.Sort
import Mathlib.Tactic

/-!
# The subscription table

Every connection of a subscriber has one table, `crates/oxsfud/src/sub/mod.rs`. A row of it is an
m-line with its own SSRCs; `sync` hands the rows to the tracks that the subscriber is to receive.
Slot rows carry the talk of a room, one for each kind, full rows a single track, up to a cap. A row
that changes is marked with the next revision of the table (`since`) and sends nothing until the
client has acknowledged that revision.

Rust passes the locked state and the list of changes through every helper of `sync`. Here both
travel in a `Work`, together with the random numbers still to be drawn: the search for a free SSRC
repeats until it finds one, so what draws is `none` when the numbers run out.

A panic under the lock poisons it, and every later call finds it so. Only `seed` can panic. A
`Table` is one whose lock is whole, a `Shared` any.
-/

namespace OxlensSfu.Sub

/-! ## The data model -/

inductive Kind where
  | audio
  | video
  deriving DecidableEq, Repr

inductive Class where
  | full
  | slot
  deriving DecidableEq, Repr

inductive SubState where
  | created
  | active
  deriving DecidableEq, Repr

inductive PcMode where
  | one
  | two
  deriving DecidableEq, Repr

def startOne : Nat := 32
def startTwo : Nat := 0
def subOne : Nat := 96
def subTwo : Nat := 128
def fullAudio : Nat := 25
def fullVideo : Nat := 25
def tGateMs : Nat := 5000

/-- A codec with its parameters, as rows are matched by. -/
structure Tuple where
  name : String
  deriving DecidableEq, Repr

structure ExtMap where
  id : Nat
  uri : String
  deriving DecidableEq, Repr

structure ExtTable where
  mid : Option Nat := none
  audioLevel : Option Nat := none
  absSendTime : Option Nat := none
  twcc : Option Nat := none
  deriving DecidableEq, Repr

structure JoinCodec where
  kind : Kind
  pt : Nat
  name : String
  fmtp : Option String := none
  rtxPt : Option Nat := none
  deriving DecidableEq, Repr

/-- A track and the room it is heard in. -/
abbrev Track := String × String

/-- What the subscriber is to receive. -/
structure Cand where
  trackId : String
  room : String
  kind : Kind
  cls : Class
  codec : String
  rank : Int := 0
  paused : Bool := false
  deriving DecidableEq, Repr

def Cand.track (c : Cand) : Track := (c.trackId, c.room)

/-- The part of a row that the media workers read; `gate` is the cell of a `State.cells`. -/
structure DownRow where
  pt : Nat := 0
  rtxPt : Nat := 0
  ext : ExtTable := {}
  since : Nat := 0
  loadedAt : Nat := 0
  room : Option String := none
  src : Option Track := none
  gate : Option Nat := none
  deriving DecidableEq, Repr

structure Row where
  mid : Nat
  kind : Kind
  cls : Class
  tuple : Tuple
  codec : String
  pt : Nat
  rtxPt : Option Nat
  ssrc : BitVec 32
  rtxSsrc : Option (BitVec 32)
  track : Option Track := none
  since : Nat := 0
  loadedAt : Nat := 0
  state : SubState := .created
  down : DownRow
  deriving DecidableEq, Repr

/-- A row that has been given another track; the row itself is known by its mid. -/
structure Change where
  mid : Nat
  kind : Kind
  cls : Class
  old : Option Track
  new : Option Track
  deriving DecidableEq, Repr

/-- The gate of a room: its cell, and the time since when it has been closed. -/
structure Gate where
  cell : Nat
  since : Nat
  latched : Bool := false
  deriving DecidableEq, Repr

/-- Maps are lists of pairs with one pair for a key. The gates are shared with the rows, so their
values are kept apart, in `cells`. -/
structure State where
  rows : List Row := []
  arev : Nat := 0
  pts : List (Tuple × (Nat × Option Nat)) := []
  reserved : Finset Nat := ∅
  ssrcs : Finset (BitVec 32) := ∅
  uplink : Finset (BitVec 32) := ∅
  waiting : List (String × Nat) := []
  gates : List (String × Gate) := []
  cells : List Bool := []
  readyAt : List (String × Nat) := []
  seeded : Bool := false
  prefs : List (String × (Nat × Bool)) := []
  deriving DecidableEq

structure SyncOut where
  changes : List Change := []
  changed : Bool := false
  midLimit : Bool := false
  budget : Option (Nat × Nat) := none
  deriving DecidableEq, Repr

/-! ## Maps -/

/-- `entry(k).or_insert(v)`. -/
def orInsert {κ α : Type} [BEq κ] (k : κ) (v : α) (m : List (κ × α)) : List (κ × α) :=
  if (m.lookup k).isSome then m else m ++ [(k, v)]

def remove {κ α : Type} [BEq κ] (k : κ) (m : List (κ × α)) : List (κ × α) :=
  m.filter fun e => !(e.1 == k)

/-! ## Codecs -/

/-- `to_ascii_lowercase`. -/
def lower (s : String) : String := String.ofList (s.toList.map Char.toLower)

def tupleOf (kind : Kind) (codec : String) : Tuple :=
  let name := lower codec
  match kind with
  | .audio => ⟨name ++ "/48000/2"⟩
  | .video => if name = "h264" then ⟨"h264/90000/pm1/42e0"⟩ else ⟨name ++ "/90000"⟩

/-- The characters that `trim` removes. -/
def isWhite (c : Char) : Bool :=
  let n := c.toNat
  (9 ≤ n && n ≤ 13) || n == 32 || n == 0x85 || n == 0xa0 || n == 0x1680 ||
    (0x2000 ≤ n && n ≤ 0x200a) || n == 0x2028 || n == 0x2029 || n == 0x202f || n == 0x205f ||
    n == 0x3000

def trim (cs : List Char) : List Char := (cs.dropWhile isWhite).rdropWhile isWhite

/-- The value of `key` in a list `k=v;k=v`. -/
def fmtpParam (fmtp : Option String) (key : String) : Option String :=
  fmtp.bind fun f => ((f.toList.splitOn ';').map trim).findSome? fun kv =>
    match kv.span (· ≠ '=') with
    | (_, []) => none
    | (k, _ :: v) =>
      if lower (String.ofList (trim k)) = lower key then some (String.ofList (trim v)) else none

/-- `&s[..n]`: the slice panics (`none`) when no character ends there. -/
def sliceTo : Nat → List Char → Option (List Char)
  | 0, _ => some []
  | _ + 1, [] => none
  | n + 1, c :: cs =>
    if c.utf8Size ≤ n + 1 then (sliceTo (n + 1 - c.utf8Size) cs).map (c :: ·) else none

/-- The outer `none` is the panic of the slice. -/
def h264Profile (fmtp : Option String) : Option (Option String) :=
  match (fmtpParam fmtp "profile-level-id").filter (4 ≤ ·.utf8ByteSize) with
  | none => some none
  | some p => (sliceTo 4 p.toList).map fun s => some (lower (String.ofList s))

/-- The outer `none` is a panic. -/
def joinTuple (c : JoinCodec) : Option (Option Tuple) :=
  let name := lower c.name
  match c.kind with
  | .audio =>
    if name = "opus" then
      let st := (fmtpParam c.fmtp "sprop-stereo").getD "0"
      some (if st = "1" then some ⟨"opus/48000/2/stereo"⟩ else some (tupleOf .audio "opus"))
    else some none
  | .video =>
    if name = "h264" then
      let pm := (fmtpParam c.fmtp "packetization-mode").getD "0"
      (h264Profile c.fmtp).map fun pr => some ⟨"h264/90000/pm" ++ pm ++ "/" ++ pr.getD ""⟩
    else some (some (tupleOf .video name))

def fmtpH264 : String := "level-asymmetry-allowed=1;packetization-mode=1;profile-level-id=42e01f"
def fmtpOpus : String := "minptime=10;useinbandfec=1"

def rowFmtp (codec : String) : Option String :=
  if lower codec = "h264" then some fmtpH264
  else if lower codec = "opus" then some fmtpOpus
  else none

def uriMid : String := "urn:ietf:params:rtp-hdrext:sdes:mid"
def uriAudioLevel : String := "urn:ietf:params:rtp-hdrext:ssrc-audio-level"
def uriAbsSendTime : String := "http://www.webrtc.org/experiments/rtp-hdrext/abs-send-time"
def uriTwcc : String :=
  "http://www.ietf.org/id/draft-holmer-rmcat-transport-wide-cc-extensions-01"
def uriRid : String := "urn:ietf:params:rtp-hdrext:sdes:rtp-stream-id"
def uriRepairRid : String := "urn:ietf:params:rtp-hdrext:sdes:repaired-rtp-stream-id"

def serverExtmap : List ExtMap :=
  [⟨1, uriMid⟩, ⟨4, uriAudioLevel⟩, ⟨5, uriAbsSendTime⟩, ⟨6, uriTwcc⟩, ⟨10, uriRid⟩,
    ⟨11, uriRepairRid⟩]

def extTable (m : List ExtMap) : ExtTable :=
  let id (u : String) := (m.find? (·.uri = u)).map (·.id)
  { mid := id uriMid, audioLevel := id uriAudioLevel, absSendTime := id uriAbsSendTime,
    twcc := id uriTwcc }

/-! ## The table -/

/-- An m-line of the snapshot that the client gets. -/
structure MlineEntry where
  mid : String
  kind : Kind
  pt : Nat
  codec : String
  fmtp : Option String
  rtxPt : Option Nat
  trackId : Option String
  roomId : Option String
  ssrc : BitVec 32
  rtxSsrc : Option (BitVec 32)
  streamId : String
  deriving DecidableEq, Repr

structure MlineTable where
  sfuId : String
  arev : Nat
  mlines : List MlineEntry
  deriving DecidableEq, Repr

def slotStream : String := "ox-ptt"

def Row.entry (r : Row) : MlineEntry where
  mid := toString r.mid
  kind := r.kind
  pt := r.pt
  codec := r.codec
  fmtp := rowFmtp r.codec
  rtxPt := r.rtxPt
  trackId := r.track.map (·.1)
  roomId := r.track.map (·.2)
  ssrc := r.ssrc
  rtxSsrc := r.rtxSsrc
  streamId := match r.cls with
    | .full => "ox-m" ++ toString r.mid
    | .slot => slotStream

structure Table where
  pcMode : PcMode
  slotBudget : Nat
  ext : ExtTable := extTable serverExtmap
  acked : Nat := 0
  st : State := {}
  deriving DecidableEq

/-- Where `sync` is: the state, the changes so far and the random numbers to come. -/
structure Work where
  st : State
  ch : List Change := []
  tuned : Bool := false
  draws : List (BitVec 32)
  deriving DecidableEq

/-- The row takes packets: the client knows of its last change. -/
def Table.opened (t : Table) (r : Row) : Bool := r.down.since ≤ t.acked

namespace Table

def new (pcMode : PcMode) (slotBudget : Nat) : Table := { pcMode, slotBudget }

def start (t : Table) : Nat := if t.pcMode = .one then startOne else startTwo

def limit (t : Table) : Nat := if t.pcMode = .one then subOne else subTwo

/-- The payload types of a codec of the client are its own. The loop of `seed` over the codecs, and
whether it comes to its end: what it has stored before a panic stays. -/
def seedLoop : State → List JoinCodec → State × Bool
  | s, [] => (s, true)
  | s, c :: cs =>
    let s := { s with reserved := insert c.pt s.reserved ∪ c.rtxPt.toFinset }
    match joinTuple c with
    | none => (s, false)
    | some none => seedLoop s cs
    | some (some tu) => seedLoop { s with pts := orInsert tu (c.pt, c.rtxPt) s.pts } cs

def mergeExtmap (extmap : List ExtMap) : List ExtMap :=
  serverExtmap.map fun m =>
    { m with id := ((extmap.find? (·.uri = m.uri)).map (·.id)).getD m.id }

/-- There is no answer when it panics. -/
def seed (t : Table) (codecs : List JoinCodec) (extmap : List ExtMap) : Table × Option Bool :=
  if t.st.seeded then (t, some false)
  else
    match seedLoop { t.st with seeded := true } codecs with
    | (st, false) => ({ t with st }, none)
    | (st, true) =>
      ({ t with st, ext := if extmap.isEmpty then t.ext else extTable (mergeExtmap extmap) },
        some true)

def markSeeded (t : Table) : Table := { t with st := { t.st with seeded := true } }

def snapshot (t : Table) (sfuId : String) : MlineTable :=
  { sfuId, arev := t.st.arev, mlines := t.st.rows.map (·.entry) }

def carry (t : Table) (arev : Nat) : Table :=
  if t.st.arev < arev then { t with st := { t.st with arev } } else t

def addUplink (t : Table) (ssrcs : List (BitVec 32)) : Table :=
  { t with st := { t.st with uplink := t.st.uplink ∪ ssrcs.toFinset } }

def removeUplink (t : Table) (ssrcs : List (BitVec 32)) : Table :=
  { t with st := { t.st with uplink := t.st.uplink \ ssrcs.toFinset } }

end Table

/-! ## Rows -/

/-- Draws until the number is neither 0 nor 1 and not in use. -/
def freshSsrc (s : State) : List (BitVec 32) → Option (BitVec 32 × State × List (BitVec 32))
  | [] => none
  | v :: vs =>
    if 1 < v ∧ v ∉ s.ssrcs ∧ v ∉ s.uplink then some (v, { s with ssrcs := insert v s.ssrcs }, vs)
    else freshSsrc s vs

/-- Video has a second SSRC, for retransmissions. -/
def freshRtx (s : State) (kind : Kind) (draws : List (BitVec 32)) :
    Option (Option (BitVec 32) × State × List (BitVec 32)) :=
  if kind = .video then (freshSsrc s draws).map fun x => (some x.1, x.2)
  else some (none, s, draws)

namespace Table

/-- Payload types for a codec that has none yet: its usual ones, else free ones. -/
def choosePt (t : Table) (s : State) (kind : Kind) (codec : String) : Nat × Option Nat :=
  let used : Finset Nat := (s.pts.flatMap fun e => e.2.1 :: e.2.2.toList).toFinset ∪ s.reserved
  let seed : Option (Nat × Option Nat) :=
    if t.pcMode = .two then
      match kind, lower codec with
      | .audio, "opus" => some (111, none)
      | .video, "vp8" => some (96, some 97)
      | .video, "h264" => some (102, some 103)
      | _, _ => none
    else none
  match seed.filter fun p => p.1 ∉ used ∧ ∀ b ∈ p.2, b ∉ used with
  | some p => p
  | none =>
    let free := (List.range' 96 32 ++ List.range' 35 29).filter (· ∉ used)
    if kind = .audio then (free.head?.getD 127, none)
    else (free.head?.getD 126, some (free[1]?.getD 127))

def ptFor (t : Table) (s : State) (kind : Kind) (tu : Tuple) (codec : String) :
    State × Nat × Option Nat :=
  match s.pts.lookup tu with
  | some p => (s, p)
  | none => ({ s with pts := s.pts ++ [(tu, t.choosePt s kind codec)] }, t.choosePt s kind codec)

/-- A row with no track. -/
def blankRow (t : Table) (mid : Nat) (kind : Kind) (cls : Class) (codec : String) (pt : Nat)
    (rtxPt : Option Nat) (ssrc : BitVec 32) (rtxSsrc : Option (BitVec 32)) : Row :=
  { mid, kind, cls, tuple := tupleOf kind codec, codec, pt, rtxPt, ssrc, rtxSsrc
    down := { pt, rtxPt := rtxPt.getD 0, ext := t.ext } }

/-- Makes a new row. -/
def newRow (t : Table) (w : Work) (kind : Kind) (cls : Class) (codec : String) : Option Work := do
  let (s, pt, rtxPt) := t.ptFor w.st kind (tupleOf kind codec) codec
  let (ssrc, s, draws) ← freshSsrc s w.draws
  let (rtxSsrc, s, draws) ← freshRtx s kind draws
  let mid := t.start + s.rows.length % 2 ^ 16
  let row := t.blankRow mid kind cls codec pt rtxPt ssrc rtxSsrc
  some { w with st := { s with rows := s.rows ++ [row] }, draws }

def tunedRow (r : Row) (codec : String) (pt : Nat) (rtxPt : Option Nat) : Row :=
  { r with
    tuple := tupleOf r.kind codec, codec, pt, rtxPt
    down := { r.down with pt, rtxPt := rtxPt.getD 0 } }

/-- Gives an empty row another codec. -/
def retune (t : Table) (w : Work) (i : Nat) (codec : String) : Work :=
  match w.st.rows[i]? with
  | none => w
  | some r =>
    let (s, pt, rtxPt) := t.ptFor w.st r.kind (tupleOf r.kind codec) codec
    { w with st := { s with rows := s.rows.set i (tunedRow r codec pt rtxPt) }, tuned := true }

end Table

/-- The gate of a room, closed when it is new. -/
def gate (s : State) (room : String) (now : Nat) : State × Nat :=
  match s.gates.lookup room with
  | some g => (s, g.cell)
  | none =>
    ({ s with gates := s.gates ++ [(room, ⟨s.cells.length, now, false⟩)],
              cells := s.cells ++ [false] }, s.cells.length)

namespace Work

/-- Changes row `i` and reports it. -/
def swap (w : Work) (i : Nat) (f : Row → Row) : Work :=
  match w.st.rows[i]? with
  | none => w
  | some r =>
    { w with
      st := { w.st with rows := w.st.rows.set i (f r) }
      ch := w.ch ++ [⟨r.mid, r.kind, r.cls, r.track, (f r).track⟩] }

def load (w : Work) (i : Nat) (c : Cand) (rev now : Nat) : Work :=
  let (s, gate) := if c.cls = .full ∧ c.kind = .video then
      let (s, g) := gate w.st c.room now
      (s, some g)
    else (w.st, none)
  swap { w with st := s } i fun r =>
    { r with
      track := some c.track, since := rev, loadedAt := now, state := .created
      down := { r.down with
        since := rev, room := some c.room, src := some c.track, gate, loadedAt := now } }

/-- The track of the row is now heard in another room. -/
def rehome (w : Work) (i : Nat) (c : Cand) (rev now : Nat) : Work :=
  let (s, gate) := if c.kind = .video then
      let (s, g) := gate w.st c.room now
      (s, some g)
    else (w.st, none)
  swap { w with st := s } i fun r =>
    { r with
      track := some c.track, since := rev
      down := { r.down with since := rev, room := some c.room, src := some c.track, gate } }

def unload (w : Work) (i rev : Nat) : Work :=
  match w.st.rows[i]?.bind (·.track) with
  | none => w
  | some _ =>
    w.swap i fun r =>
      { r with
        track := none, since := rev, state := .created
        down := { r.down with since := rev, src := none, room := none, gate := none } }

end Work

/-! ## Slot rows -/

def State.rowsWhere (s : State) (p : Row → Bool) : List Nat :=
  (List.range s.rows.length).filter fun i => s.rows[i]?.any p

/-- The rooms and kinds that the subscriber is to hear talk of. -/
def wantSlot (cands : List Cand) : List (String × Kind) :=
  (cands.filter (·.cls = .slot)).map fun c => (c.room, c.kind)

def unwanted (want : List (String × Kind)) (r : Row) : Bool :=
  r.cls = .slot && r.track.any fun t => (t.2, r.kind) ∉ want

/-- A track whose talk the subscriber is not to hear. -/
def unheard (want : List (String × Kind)) (kind : Kind) (track : Option Track) : Bool :=
  track.any fun t => (t.2, kind) ∉ want

/-- A track that is none of these. -/
def strays (trs : List Track) (track : Option Track) : Bool := track.any (· ∉ trs)

/-- The row carries the talk of the candidate's room. -/
def carries (c : Cand) (r : Row) : Bool :=
  r.cls = .slot && r.kind = c.kind && r.track.any (·.2 = c.room)

/-- One candidate of `freshSlotRows`: the rows spoken for so far, and the rows to be made. -/
def freshStep (s : State) (want : List (String × Kind)) (acc : Finset Nat × Nat) (c : Cand) :
    Finset Nat × Nat :=
  if s.rows.any (carries c) then acc
  else
    let tu := tupleOf c.kind c.codec
    let free := (s.rowsWhere fun r =>
      r.cls = .slot && r.kind = c.kind && r.tuple = tu && (r.track.isNone || unwanted want r)).find?
        (· ∉ acc.1)
    match free with
    | some i => (insert i acc.1, acc.2)
    | none => (acc.1, acc.2 + 1)

/-- How many slot rows the candidates need beyond those there are. -/
def freshSlotRows (s : State) (cands : List Cand) (want : List (String × Kind)) : Nat :=
  ((cands.filter (·.cls = .slot)).foldl (freshStep s want) (∅, 0)).2

def State.slotRows (s : State) : Nat := s.rows.countP (·.cls = .slot)

def State.fullRows (s : State) (kind : Kind) : Nat :=
  s.rows.countP fun r => r.cls = .full && r.kind = kind

/-- The loops of `sync` over the rows: row `i` is unloaded when it meets `p`. -/
def Work.unloadWhere (w : Work) (p : Row → Bool) (rev : Nat) : Work :=
  (List.range w.st.rows.length).foldl
    (fun w i => if w.st.rows[i]?.any p then w.unload i rev else w) w

/-- An empty slot row for the candidate. -/
def freeSlot (s : State) (c : Cand) : Option Nat :=
  (s.rowsWhere fun r =>
    r.cls = .slot && r.kind = c.kind && r.track.isNone && r.tuple = tupleOf c.kind c.codec).head?

/-- Loads the candidates into slot rows; with no row left to make it stops, and reports the
budget. -/
def Table.slotLoop (t : Table) (rev now : Nat) :
    List Cand → Work → Option (Work × Option (Nat × Nat))
  | [], w => some (w, none)
  | c :: cs, w =>
    match freeSlot w.st c with
    | some i => t.slotLoop rev now cs (w.load i c rev now)
    | none =>
      if t.slotBudget ≤ w.st.slotRows ∨ t.limit ≤ w.st.rows.length then
        some (w, some (if t.slotBudget ≤ w.st.slotRows then (t.slotBudget, w.st.slotRows)
          else (t.limit, w.st.rows.length)))
      else do
        let w ← t.newRow w c.kind .slot c.codec
        t.slotLoop rev now cs (w.load (w.st.rows.length - 1) c rev now)

/-- The candidates whose talk no row carries. -/
def slotsNeeded (s : State) (cands : List Cand) : List Cand :=
  cands.filter fun c => c.cls = .slot && !s.rows.any (carries c)

/-- The slot part of `sync`: what is not wanted is unloaded, what is missing is loaded. -/
def Table.syncSlots (t : Table) (cands : List Cand) (rev now : Nat) (draws : List (BitVec 32)) :
    Option (Work × Option (Nat × Nat)) :=
  let w := Work.unloadWhere { st := t.st, draws } (unwanted (wantSlot cands)) rev
  t.slotLoop rev now (slotsNeeded w.st cands) w

/-- The rows to be made are more than the table may have. -/
def Table.overBudget (t : Table) (fresh : Nat) : Prop :=
  0 < fresh ∧ (t.slotBudget < t.st.slotRows + fresh ∨ t.limit < t.st.rows.length + fresh)

instance (t : Table) (fresh : Nat) : Decidable (t.overBudget fresh) :=
  inferInstanceAs (Decidable (_ ∧ _))

/-! ## Full rows -/

/-- A row whose track is no longer heard in its room goes with it to another room. -/
def rehomeStep (cands : List Cand) (kind : Kind) (rev now : Nat) (w : Work) (i : Nat) : Work :=
  match w.st.rows[i]? with
  | none => w
  | some r =>
    if r.cls ≠ .full ∨ r.kind ≠ kind then w
    else match r.track with
      | none => w
      | some (tid, room) =>
        if cands.any fun c => c.cls = .full && c.trackId = tid && c.room = room then w
        else match cands.find? fun c =>
            c.cls = .full && c.kind = kind && c.trackId = tid && !c.paused with
          | some c => w.rehome i c rev now
          | none => w

def Work.rehomeAll (w : Work) (cands : List Cand) (kind : Kind) (rev now : Nat) : Work :=
  (List.range w.st.rows.length).foldl (rehomeStep cands kind rev now) w

/-- When each track was loaded; of two rows with one track the later one counts. -/
def State.loadedAt (s : State) (kind : Kind) : List (Track × Nat) :=
  ((s.rows.filter fun r => r.cls = .full && r.kind = kind).filterMap fun r =>
    r.track.map fun t => (t, r.loadedAt)).reverse

def noteWaiting (loaded : List (Track × Nat)) (now : Nat) (s : State) (c : Cand) : State :=
  if (loaded.lookup c.track).isSome then s
  else { s with waiting := orInsert c.trackId now s.waiting }

def Work.noteAll (w : Work) (loaded : List (Track × Nat)) (now : Nat) (cs : List Cand) : Work :=
  { w with st := cs.foldl (noteWaiting loaded now) w.st }

/-- The loaded tracks come first, the latest first, then those that have waited longest. -/
def waitKey (loaded : List (Track × Nat)) (s : State) (now : Nat) (c : Cand) : Nat × Nat :=
  match loaded.lookup c.track with
  | some t => (0, 2 ^ 64 - 1 - t)
  | none => (1, (s.waiting.lookup c.trackId).getD now)

def ranksBefore (loaded : List (Track × Nat)) (s : State) (now : Nat) (a b : Cand) : Prop :=
  b.rank < a.rank ∨
    a.rank = b.rank ∧
      ((waitKey loaded s now a).1 < (waitKey loaded s now b).1 ∨
        (waitKey loaded s now a).1 = (waitKey loaded s now b).1 ∧
          (waitKey loaded s now a).2 ≤ (waitKey loaded s now b).2)

instance (loaded : List (Track × Nat)) (s : State) (now : Nat) :
    DecidableRel (ranksBefore loaded s now) :=
  fun a b => inferInstanceAs (Decidable (b.rank < a.rank ∨ a.rank = b.rank ∧ _))

/-- The waiting candidate gets row `i`. -/
def Work.loadFull (w : Work) (i : Nat) (c : Cand) (rev now : Nat) : Work :=
  Work.load { w with st := { w.st with waiting := remove c.trackId w.st.waiting } } i c rev now

/-- An empty full row of the candidate's codec, the one with the smallest mid. -/
def freeFull (s : State) (kind : Kind) (c : Cand) : Option Nat :=
  (s.rowsWhere fun r =>
    r.cls = .full && r.kind = kind && r.track.isNone && r.tuple = tupleOf kind c.codec).argmin
      fun i => (s.rows[i]?.map (·.mid)).getD 0

/-- An empty full row of any codec, the one that was loaded first. -/
def emptyFull (s : State) (kind : Kind) : Option Nat :=
  (s.rowsWhere fun r => r.cls = .full && r.kind = kind && r.track.isNone).argmin
    fun i => (s.rows[i]?.map (·.loadedAt)).getD 0

/-- A row for one of the tracks to be received: its own, an empty one of its codec, a new one, or
an empty one of another codec. -/
def Table.fullStep (t : Table) (kind : Kind) (cap rev now : Nat) (w : Work) (c : Cand) :
    Option Work :=
  if w.st.rows.any fun r => r.track = some c.track && r.cls = .full then
    some { w with st := { w.st with waiting := remove c.trackId w.st.waiting } }
  else
    match freeFull w.st kind c with
    | some i => some (w.loadFull i c rev now)
    | none =>
      if w.st.fullRows kind < cap ∧ w.st.rows.length < t.limit then
        (t.newRow w kind .full c.codec).map fun w =>
          w.loadFull (w.st.rows.length - 1) c rev now
      else
        match emptyFull w.st kind with
        | some i => some ((t.retune w i c.codec).loadFull i c rev now)
        | none => some w

def fullCap (kind : Kind) : Nat := if kind = .audio then fullAudio else fullVideo

/-- The tracks to be received: as many of the best ones as there may be rows. -/
def targets (loaded : List (Track × Nat)) (s : State) (now : Nat) (kind : Kind)
    (desired : List Cand) : List Cand :=
  (desired.insertionSort (ranksBefore loaded s now)).take (fullCap kind)

/-- The full rows of one kind. -/
def Table.syncFull (t : Table) (cands : List Cand) (rev now : Nat) (w : Work) (kind : Kind) :
    Option Work :=
  let w := w.rehomeAll cands kind rev now
  let desired := cands.filter fun c => c.cls = .full && c.kind = kind && !c.paused
  let loaded := w.st.loadedAt kind
  let w := w.noteAll loaded now desired
  let target := targets loaded w.st now kind desired
  let tset := target.map (·.track)
  let w := w.unloadWhere (fun r => r.cls = .full && r.kind = kind && r.track.any (· ∉ tset)) rev
  target.foldlM (t.fullStep kind (fullCap kind) rev now) w

/-! ## The operations -/

namespace Table

/-- The last part of `sync`: the revision moves when something has changed. -/
def finish (t : Table) (cands : List Cand) (rev rowsBefore : Nat) (w : Work) : SyncOut × Table :=
  let live := cands.map (·.trackId)
  let s := { w.st with waiting := w.st.waiting.filter (·.1 ∈ live) }
  let changed := !w.ch.isEmpty || s.rows.length != rowsBefore || w.tuned
  ({ changes := w.ch, changed }, { t with st := if changed then { s with arev := rev } else s })

def sync (t : Table) (cands : List Cand) (now : Nat) (draws : List (BitVec 32)) :
    Option (SyncOut × Table) :=
  let rev := t.st.arev + 1
  let fresh := freshSlotRows t.st cands (wantSlot cands)
  let slotRows := t.st.slotRows
  if t.overBudget fresh then
    let budget := if t.slotBudget < slotRows + fresh then (t.slotBudget, slotRows)
      else (t.limit, t.st.rows.length)
    some ({ midLimit := true, budget := some budget }, t)
  else do
    match ← t.syncSlots cands rev now draws with
    | (w, some budget) => some ({ midLimit := true, budget := some budget }, { t with st := w.st })
    | (w, none) =>
      let w ← t.syncFull cands rev now w .audio
      let w ← t.syncFull cands rev now w .video
      some (t.finish cands rev t.st.rows.length w)

/-- What the client acknowledges. -/
def ack (t : Table) (arev : Nat) : Nat := min t.st.arev arev

def ready (t : Table) (room : String) (arev now : Nat) : Table × Bool × List Track :=
  let first := (t.st.readyAt.lookup room).isNone
  let acked := max t.acked (t.ack arev)
  let due (r : Row) : Bool := r.state = .created && r.track.isSome && r.since ≤ acked
  let st := { t.st with
    readyAt := orInsert room now t.st.readyAt
    cells := match t.st.gates.lookup room with
      | some g => t.st.cells.set g.cell true
      | none => t.st.cells
    rows := t.st.rows.map fun r => if due r then { r with state := .active } else r }
  ({ t with acked, st }, first, (t.st.rows.filter due).filterMap (·.track))

def gateTimeouts (t : Table) (now : Nat) : Table × List String :=
  let late (g : Gate) : Bool := !(t.st.cells[g.cell]?.getD true) && tGateMs ≤ now - g.since
  let st := { t.st with
    cells := t.st.gates.foldl (fun cells e => if late e.2 then cells.set e.2.cell true else cells)
      t.st.cells
    gates := t.st.gates.map fun e => if late e.2 then (e.1, { e.2 with latched := true }) else e }
  ({ t with st }, (t.st.gates.filter fun e => late e.2 && !e.2.latched).map (·.1))

def pref (t : Table) (track : String) : Nat × Bool := (t.st.prefs.lookup track).getD (0, false)

def setPref (t : Table) (track : String) (priority : Option Nat) (paused : Option Bool) :
    Table × Bool :=
  let before := t.pref track
  let after := (priority.getD before.1, paused.getD before.2)
  ({ t with st := { t.st with prefs := (track, after) :: remove track t.st.prefs } },
    before != after)

def forgetRoom (t : Table) (room : String) : Table :=
  { t with st := { t.st with
      gates := remove room t.st.gates
      readyAt := remove room t.st.readyAt } }

end Table

/-! ## The table as a machine -/

inductive Op where
  | seed (codecs : List JoinCodec) (extmap : List ExtMap)
  | markSeeded
  | sync (cands : List Cand) (now : Nat) (draws : List (BitVec 32))
  | ready (room : String) (arev now : Nat)
  | carry (arev : Nat)
  | gateTimeouts (now : Nat)
  | setPref (track : String) (priority : Option Nat) (paused : Option Bool)
  | forgetRoom (room : String)
  | addUplink (ssrcs : List (BitVec 32))
  | removeUplink (ssrcs : List (BitVec 32))
  deriving DecidableEq

namespace Table

def apply (t : Table) : Op → Table
  | .seed codecs extmap => (t.seed codecs extmap).1
  | .markSeeded => t.markSeeded
  | .sync cands now draws => ((t.sync cands now draws).map (·.2)).getD t
  | .ready room arev now => (t.ready room arev now).1
  | .carry arev => t.carry arev
  | .gateTimeouts now => (t.gateTimeouts now).1
  | .setPref track priority paused => (t.setPref track priority paused).1
  | .forgetRoom room => t.forgetRoom room
  | .addUplink ssrcs => t.addUplink ssrcs
  | .removeUplink ssrcs => t.removeUplink ssrcs

end Table

/-! ## The lock -/

/-- A table and whether the lock of its state is poisoned. No call gets at the state then: the
readers give their defaults and the others do nothing. The cells beside the lock, `acked` and `ext`,
are still there. -/
structure Shared where
  table : Table
  poisoned : Bool := false
  deriving DecidableEq

namespace Shared

def new (pcMode : PcMode) (slotBudget : Nat) : Shared := { table := .new pcMode slotBudget }

/-- What the readers see: of a poisoned lock their defaults, which are those of an empty state. -/
def view (x : Shared) : Table := if x.poisoned then { x.table with st := {} } else x.table

/-- The call panics with the lock held. -/
def panics (x : Shared) : Op → Bool
  | .seed codecs extmap => (x.table.seed codecs extmap).2.isNone
  | _ => false

/-- A call, whatever it answers. Every one gives up on a poisoned lock. -/
def apply (x : Shared) (op : Op) : Shared :=
  if x.poisoned then x else { table := x.table.apply op, poisoned := x.panics op }

def seed (x : Shared) (codecs : List JoinCodec) (extmap : List ExtMap) : Shared × Option Bool :=
  (x.apply (.seed codecs extmap), if x.poisoned then some false else (x.table.seed codecs extmap).2)

def sync (x : Shared) (cands : List Cand) (now : Nat) (draws : List (BitVec 32)) :
    Option (SyncOut × Shared) :=
  if x.poisoned then some ({}, x)
  else (x.table.sync cands now draws).map fun y => (y.1, { x with table := y.2 })

end Shared

end OxlensSfu.Sub
