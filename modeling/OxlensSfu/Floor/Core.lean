import Mathlib.Tactic

/-!
# The floor: arbitration and participants

The executable half of the half-duplex floor, following `crates/oxsfud/src/flr/core.rs`. One
room has one arbitration state (`G`, with the speaker, the user being revoked and the waiting
queue) and one participant record per user (`Part`).

Rust threads `&mut self` and `r: &mut Step` through every helper. Here both travel in one `St`,
so a helper is a function `St → St` and its calls compose in the order of the source. The public
operations start from an empty `Step`; `Op` lists them and `Floor.apply` dispatches.

Counters, priorities and the 16-bit message number are naturals: the number wraps explicitly at
`seqWrap`, and the counters are bounded by the conditions under which their timers are armed.
-/

namespace OxlensSfu.Flr

open Std

/-! ## Constants of the wire format -/

def seqWrap : Nat := 65536

/-- The message type of `RELEASE`, acknowledged by number. -/
def releaseType : Nat := 4

namespace Deny

def onlyOne : Nat := 3
def retryAfter : Nat := 4
def recvOnly : Nat := 5
def queueFull : Nat := 7
def notPubroom : Nat := 101
def noPermission : Nat := 102
def otherReason : Nat := 255

end Deny

namespace Revoke

def tooLong : Nat := 2
def noPermission : Nat := 3
def preempted : Nat := 4

end Revoke

/-- The queue position reported to a user who is not queued. -/
def notInQueue : Nat := 254

namespace Cap

def c7 : Nat := 10
def c8 : Nat := 3
def c20 : Nat := 3
def c21 : Nat := 3

end Cap

/-! ## The data model -/

/-- The arbitration state of a room. -/
inductive G where
  | idle
  | taken
  | prevoke
  deriving DecidableEq, Repr

/-- The state the server keeps for one participant. -/
inductive P where
  | npIdle
  | npTaken
  | permitted
  | prevoke
  | npSends
  | releasing
  deriving DecidableEq, Repr

/-- Message types, with RTP as a pseudo message. -/
inductive Mt where
  | request
  | granted
  | taken
  | deny
  | release
  | idle
  | revoke
  | qposReq
  | qinfo
  | ack
  | rtp
  deriving DecidableEq, Repr

/-- `TAKEN` and `IDLE` carry a sequence number, nothing else does. -/
def Mt.seqd (t : Mt) : Bool := t == .taken || t == .idle

structure Msg where
  t : Mt
  a : Option String := none
  n : Nat := 0
  d : Nat := 0
  q : Nat := 0
  deriving DecidableEq, Repr

structure Out where
  dest : String
  m : Msg
  deriving DecidableEq, Repr

/-- An effect on the media slots, decided under the room lock. -/
inductive Fx where
  | bind (u : String)
  | release (prev : Option String)
  deriving DecidableEq, Repr

/-- What one operation returns: the messages to send, the labels of the cases it went through
and the effects to execute. -/
structure Step where
  out : List Out := []
  labels : List String := []
  fx : List Fx := []
  deriving DecidableEq, Repr

structure Waiter where
  u : String
  p : Nat
  pre : Bool
  deriving DecidableEq, Repr

/-- The users waiting for the floor, the next one first. -/
abbrev Queue := List Waiter

namespace Queue

def inQ (q : Queue) (u : String) : Bool := q.any (·.u == u)

/-- The 1-based position of `u`. -/
def pos (q : Queue) (u : String) : Nat :=
  match q.findIdx? (·.u == u) with
  | some i => i + 1
  | none => notInQueue

def qprio (q : Queue) (u : String) : Nat :=
  match q.find? (·.u == u) with
  | some w => w.p
  | none => 0

def dequeue (q : Queue) (u : String) : Queue := q.filter (·.u != u)

def preQ (q : Queue) : Bool := q.any (·.pre)

/-- `w` goes before `x`. -/
def before (w x : Waiter) : Bool := (w.pre && !x.pre) || (w.pre == x.pre && x.p < w.p)

def insertQ (q : Queue) (w : Waiter) : Queue :=
  match q.findIdx? (before w) with
  | some i => q.insertIdx i w
  | none => q ++ [w]

end Queue

structure Part where
  part : Option P := none
  pubRoom : Bool := false
  perm : Bool := false
  retry : Bool := false
  released : Bool := false
  gTaken : Bool := false
  c8 : Nat := 0
  c21 : Nat := 0
  rcause : Nat := 0
  deriving DecidableEq, Repr

structure Floor where
  g : G := .idle
  speaker : Option String := none
  sprio : Nat := 0
  revoking : Option String := none
  rprio : Nat := 0
  rcauseG : Nat := 0
  queue : Queue := []
  succ : Bool := false
  rtpSeen : Bool := false
  firstRtp : Bool := false
  c20 : Nat := 0
  c7 : Nat := 0
  idleBcast : Bool := false
  prev : Option String := none
  members : TreeSet String := ∅
  parts : TreeMap String Part := ∅
  seq : Nat := 0
  qmax : Nat
  t2Secs : Nat

/-- A floor and the step being built on it. -/
structure St where
  fl : Floor
  r : Step := {}

namespace Floor

def new (qmax t2Secs : Nat) : Floor := { qmax, t2Secs }

/-- The record of `u`, the default one when there is none: `parts.get(u).cloned()
.unwrap_or_default()`. -/
def part (f : Floor) (u : String) : Part := f.parts.getD u {}

def partOf (f : Floor) (u : String) : Option P := f.parts[u]?.bind (·.part)

def holder (f : Floor) : Option String :=
  match f.g with
  | .taken => f.speaker
  | .prevoke => f.revoking
  | .idle => none

def holderPrio (f : Floor) : Nat := if f.g = .taken then f.sprio else f.rprio

def alone (f : Floor) : Bool := f.members.size ≤ 1

def t2Full (f : Floor) : Nat := f.t2Secs

end Floor

/-! ## Sending and participant states -/

namespace St

def label (s : St) (l : String) : St := { s with r := { s.r with labels := s.r.labels ++ [l] } }

def fx (s : St) (e : Fx) : St := { s with r := { s.r with fx := s.r.fx ++ [e] } }

/-- Change the record of `u`, which is created when missing. -/
def p (s : St) (u : String) (f : Part → Part) : St :=
  { s with fl := { s.fl with parts := s.fl.parts.insert u (f (s.fl.part u)) } }

def dequeue (s : St) (u : String) : St :=
  { s with fl := { s.fl with queue := s.fl.queue.dequeue u } }

def insertQ (s : St) (w : Waiter) : St :=
  { s with fl := { s.fl with queue := s.fl.queue.insertQ w } }

def setPrev (s : St) (u : Option String) : St := { s with fl := { s.fl with prev := u } }

def send (s : St) (u : String) (t : Mt) (a : Option String) (n d : Nat) : St :=
  let bump := t.seqd && d == 0
  let seq := if bump then (s.fl.seq + 1) % seqWrap else s.fl.seq
  let q := if bump then seq else if t.seqd then d else 0
  { fl := { s.fl with seq := seq }
    r := { s.r with out := s.r.out ++ [⟨u, ⟨t, a, n, if t.seqd then 0 else d, q⟩⟩] } }

def enterR (s : St) (u : String) (st : P) : St :=
  match st with
  | .npIdle => (s.p u fun p => { p with gTaken := false, c21 := 0, part := some st }).label
      "FLR.S.P.NP_IDLE.enter"
  | .npTaken => (s.p u fun p => { p with gTaken := true, c21 := 1, part := some st }).label
      "FLR.S.P.NP_TAKEN.enter"
  | .permitted => (s.p u fun p => { p with released := false, c21 := 0, part := some st }).label
      "FLR.S.P.PERMITTED.enter"
  | .prevoke => (s.p u fun p => { p with c8 := 1, c21 := 0, part := some st }).label
      "FLR.S.P.PREVOKE.enter"
  | _ => (s.p u fun p => { p with c8 := 1, c21 := 0, part := some st }).label
      "FLR.S.P.NPSENDS.enter"

def sendE (s : St) (u : String) (st : P) (m : Msg) : St :=
  (s.enterR u st).send u m.t m.a m.n m.d

/-- An event of the arbitration reaches the participant state machine of `u`. -/
def partA (s : St) (u : String) (ev : Msg) : St :=
  match ev.t, s.fl.partOf u with
  | .qinfo, _ => (s.label "FLR.S.P.any.a_QINFO").send u .qinfo none ev.n ev.d
  | .deny, _ => (s.label "FLR.S.P.any.a_DENY").send u .deny none ev.n 0
  | .granted, some .npIdle => (s.label "FLR.S.P.NP_IDLE.a_GRANTED").sendE u .permitted
      { t := .granted, n := ev.n, d := ev.d }
  | .taken, some .npIdle => (s.label "FLR.S.P.NP_IDLE.a_TAKEN").sendE u .npTaken
      { t := .taken, a := ev.a, d := ev.q }
  | .idle, some .npIdle => (s.label "FLR.S.P.NP_IDLE.a_IDLE").send u .idle ev.a 0 ev.q
  | _, some .npIdle => s.label "FLR.S.P.NP_IDLE.a_other"
  | .granted, some .npTaken => (s.label "FLR.S.P.NP_TAKEN.a_GRANTED").sendE u .permitted
      { t := .granted, n := ev.n, d := ev.d }
  | .taken, some .npTaken => ((s.label "FLR.S.P.NP_TAKEN.a_TAKEN").p u
      fun p => { p with c21 := 1 }).send u .taken ev.a 0 ev.q
  | .idle, some .npTaken => (s.label "FLR.S.P.NP_TAKEN.a_IDLE").sendE u .npIdle
      { t := .idle, a := ev.a, d := ev.q }
  | _, some .npTaken => s.label "FLR.S.P.NP_TAKEN.a_other"
  | .granted, some .permitted =>
      (s.label "FLR.S.P.PERMITTED.a_GRANTED").send u .granted none ev.n ev.d
  | .idle, some .permitted => (s.label "FLR.S.P.PERMITTED.a_IDLE").enterR u .npIdle
  | .taken, some .permitted => (s.label "FLR.S.P.PERMITTED.a_TAKEN").sendE u .npTaken
      { t := .taken, a := ev.a, d := ev.q }
  | .revoke, some .permitted => ((s.label "FLR.S.P.PERMITTED.a_REVOKE").p u
      fun p => { p with rcause := ev.n }).sendE u .prevoke { t := .revoke, n := ev.n }
  | _, some .permitted => s.label "FLR.S.P.PERMITTED.a_other"
  | .idle, some .prevoke => (s.label "FLR.S.P.PREVOKE.a_IDLE").sendE u .npIdle
      { t := .idle, a := ev.a, d := ev.q }
  | .taken, some .prevoke => (s.label "FLR.S.P.PREVOKE.a_TAKEN").sendE u .npTaken
      { t := .taken, a := ev.a, d := ev.q }
  | _, some .prevoke => s.label "FLR.S.P.PREVOKE.a_other"
  | _, some .releasing => s.label "FLR.S.P.RELEASING.a_any"
  | .idle, _ => (s.label "FLR.S.P.NPSENDS.a_IDLE").p u fun p => { p with gTaken := false }
  | .taken, _ => (s.label "FLR.S.P.NPSENDS.a_TAKEN").p u fun p => { p with gTaken := true }
  | _, _ => s.label "FLR.S.P.NPSENDS.a_other"

/-- Take one number for a broadcast that carries one. -/
def numbered (s : St) (ev : Msg) : St × Msg :=
  if ev.t.seqd then
    let seq := (s.fl.seq + 1) % seqWrap
    ({ s with fl := { s.fl with seq := seq } }, { ev with q := seq })
  else (s, ev)

/-- The event reaches every member but `skip`. The recipients are listed before the number is
taken, and all hear the same `ev`. -/
def fan (s : St) (ev : Msg) (skip : Option String) : St :=
  let rest := s.fl.members.toList.filter (fun x => some x ≠ skip)
  let (s, ev) := s.numbered ev
  rest.foldl (fun s u => s.partA u ev) s

/-! ## The arbitration -/

def enterTaken (s : St) : St :=
  let s := s.label "FLR.S.G.TAKEN.enter"
  let s := { s with fl := { s.fl with idleBcast := false } }
  let sp := s.fl.speaker.getD ""
  let s := s.partA sp { t := .granted, n := s.fl.sprio, d := s.fl.t2Full }
  let s := s.fan { t := .taken, a := some sp } (some sp)
  s.fx (.bind sp)

def idleEnter (s : St) : St :=
  match s.fl.queue with
  | [] =>
    let s := s.label "FLR.S.G.IDLE.enter_empty"
    let s := { s with fl := { s.fl with
      g := .idle, speaker := none, revoking := none, firstRtp := false, idleBcast := true,
      c7 := 1 } }
    let prev := s.fl.prev
    (s.fan { t := .idle, a := prev } none).fx (.release prev)
  | w :: ws =>
    let s := s.label "FLR.S.G.IDLE.enter_succession"
    let s := { s with fl := { s.fl with
      queue := ws, g := .taken, speaker := some w.u, sprio := w.p, revoking := none, succ := true,
      rtpSeen := false, firstRtp := false, c20 := 1 } }
    s.enterTaken

def prevokeEnter (s : St) (u : String) (cause : Nat) : St :=
  let s := s.label "FLR.S.G.PREVOKE.enter"
  let s := { s with fl := { s.fl with
    g := .prevoke, revoking := some u, rprio := s.fl.sprio, rcauseG := cause, speaker := none } }
  s.partA u { t := .revoke, n := cause }

def arbReqIdle (s : St) (u : String) (p : Nat) : St :=
  if s.fl.g ≠ .idle then s.label "FLR.S.G.any.req_discard"
  else if s.fl.alone then
    (s.label "FLR.S.G.IDLE.req_alone").partA u { t := .deny, n := Deny.onlyOne }
  else if (s.fl.part u).retry then
    (s.label "FLR.S.G.IDLE.req_retry_after").partA u { t := .deny, n := Deny.retryAfter }
  else
    let s := s.label "FLR.S.G.IDLE.req_grant"
    let s := { s with fl := { s.fl with
      g := .taken, speaker := some u, sprio := p, succ := false, rtpSeen := false,
      firstRtp := false, c20 := 0 } }
    s.enterTaken

def arbReqPermitted (s : St) (u : String) (t2Left : Nat) : St :=
  if s.fl.g = .taken ∧ s.fl.speaker = some u then
    let s := s.label "FLR.S.G.TAKEN.req_regrant"
    let d := if s.fl.firstRtp then t2Left else s.fl.t2Full
    s.partA u { t := .granted, n := s.fl.sprio, d := d }
  else s.label "FLR.S.G.any.regrant_discard"

def arbPreempt (s : St) (u : String) (p : Nat) : St :=
  if s.fl.g = .taken then
    let s := s.label "FLR.S.G.TAKEN.preempt"
    let s := { s with fl := { s.fl with queue := ⟨u, p, true⟩ :: s.fl.queue } }
    let sp := s.fl.speaker.getD ""
    let s := s.prevokeEnter sp Revoke.preempted
    s.partA u { t := .qinfo, n := 1, d := p }
  else s.label "FLR.S.G.PREVOKE.preempt_discard"

def arbRel (s : St) (u : String) : St :=
  if s.fl.g = .taken ∧ s.fl.speaker = some u then
    ((s.label "FLR.S.G.TAKEN.rel_speaker").setPrev (some u)).idleEnter
  else if s.fl.g = .prevoke ∧ s.fl.revoking = some u then
    ((s.label "FLR.S.G.PREVOKE.rel_revoked").setPrev (some u)).idleEnter
  else s.label "FLR.S.G.any.rel_discard"

def arbRtp (s : St) (u : String) : St :=
  if s.fl.g = .taken ∧ s.fl.speaker = some u then
    let s := s.label "FLR.S.G.TAKEN.rtp"
    { s with fl := { s.fl with rtpSeen := true, firstRtp := true } }
  else if s.fl.g = .prevoke ∧ s.fl.revoking = some u then s.label "FLR.S.G.PREVOKE.rtp"
  else s.label "FLR.S.G.any.rtp_discard"

/-! ## Messages of a participant -/

def revoke3 (s : St) (u : String) : St :=
  (s.p u fun p => { p with rcause := Revoke.noPermission }).sendE u .npSends
    { t := .revoke, n := Revoke.noPermission }

def takenReq (s : St) (u : String) (p : Nat) : St :=
  if (s.fl.part u).retry then
    (s.label "FLR.S.P.NP_TAKEN.req_retry_after").send u .deny none Deny.retryAfter 0
  else if s.fl.queue.inQ u then
    (s.label "FLR.S.P.NP_TAKEN.req_renotify").send u .qinfo none (s.fl.queue.pos u)
      (s.fl.queue.qprio u)
  else if p > s.fl.holderPrio ∧ !s.fl.queue.preQ then
    (s.label "FLR.S.P.NP_TAKEN.req_preempt").arbPreempt u p
  else if p > s.fl.holderPrio then s.label "FLR.S.P.NP_TAKEN.req_preempt_blocked"
  else if s.fl.queue.length ≥ s.fl.qmax then
    (s.label "FLR.S.P.NP_TAKEN.req_full").send u .deny none Deny.queueFull 0
  else
    let s := (s.label "FLR.S.P.NP_TAKEN.req_enqueue").insertQ ⟨u, p, false⟩
    s.send u .qinfo none (s.fl.queue.pos u) p

/-- A message of `u`, or its RTP, reaches the participant state machine of `u`. -/
def partC (s : St) (u : String) (ev : Msg) (t2Left : Nat) : St :=
  let pp := s.fl.part u
  match s.fl.partOf u, ev.t with
  | some .npIdle, .request => (s.label "FLR.S.P.NP_IDLE.rx_REQUEST").arbReqIdle u ev.n
  | some .npIdle, .release =>
    (((s.label "FLR.S.P.NP_IDLE.rx_RELEASE").send u .ack none releaseType 0).dequeue u).send u
      .idle s.fl.prev 0 0
  | some .npIdle, .rtp =>
    if pp.released then (s.label "FLR.S.P.NP_IDLE.rx_RTP_after_release").revoke3 u
    else s.label "FLR.S.P.NP_IDLE.rx_RTP_drop"
  | some .npIdle, _ => s.label "FLR.S.P.NP_IDLE.rx_other"
  | some .npTaken, .request => (s.label "FLR.S.P.NP_TAKEN.rx_REQUEST").takenReq u ev.n
  | some .npTaken, .release =>
    ((((s.label "FLR.S.P.NP_TAKEN.rx_RELEASE").send u .ack none releaseType 0).p u
      fun p => { p with c21 := 1 }).dequeue u).send u .taken s.fl.holder 0 0
  | some .npTaken, .ack =>
    if ev.n = 2 then (s.label "FLR.S.P.NP_TAKEN.rx_ACK_taken").p u fun p => { p with c21 := 0 }
    else s.label "FLR.S.P.NP_TAKEN.rx_ACK_other"
  | some .npTaken, .qposReq => (s.label "FLR.S.P.NP_TAKEN.rx_QPOS_REQ").send u .qinfo none
      (s.fl.queue.pos u) (s.fl.queue.qprio u)
  | some .npTaken, .rtp => (s.label "FLR.S.P.NP_TAKEN.rx_RTP").revoke3 u
  | some .npTaken, _ => s.label "FLR.S.P.NP_TAKEN.rx_other"
  | some .permitted, .release =>
    (((s.label "FLR.S.P.PERMITTED.rx_RELEASE").p u fun p => { p with released := true }).send u
      .ack none releaseType 0).arbRel u
  | some .permitted, .request =>
    (s.label "FLR.S.P.PERMITTED.rx_REQUEST").arbReqPermitted u t2Left
  | some .permitted, .rtp => (s.label "FLR.S.P.PERMITTED.rx_RTP").arbRtp u
  | some .permitted, _ => s.label "FLR.S.P.PERMITTED.rx_other"
  | some .prevoke, .release =>
    ((s.label "FLR.S.P.PREVOKE.rx_RELEASE").send u .ack none releaseType 0).arbRel u
  | some .prevoke, .rtp => (s.label "FLR.S.P.PREVOKE.rx_RTP").arbRtp u
  | some .prevoke, _ => s.label "FLR.S.P.PREVOKE.rx_other"
  | _, .release =>
    if pp.gTaken then
      ((s.label "FLR.S.P.NPSENDS.rx_RELEASE_taken").send u .ack none releaseType 0).sendE u
        .npTaken { t := .taken, a := s.fl.holder }
    else
      ((s.label "FLR.S.P.NPSENDS.rx_RELEASE_idle").send u .ack none releaseType 0).sendE u
        .npIdle { t := .idle, a := s.fl.prev }
  | _, .rtp => s.label "FLR.S.P.NPSENDS.rx_RTP"
  | _, _ => s.label "FLR.S.P.NPSENDS.rx_other"

/-- `u` stops publishing here: the speaker gives the floor back, a waiter leaves the queue. -/
def away (s : St) (u : String) : St :=
  if s.fl.g = .taken ∧ s.fl.speaker = some u then
    ((s.label "FLR.S.G.TAKEN.client_release").setPrev (some u)).idleEnter
  else if s.fl.g = .prevoke ∧ s.fl.revoking = some u then
    s.label "FLR.S.G.PREVOKE.client_release"
  else if s.fl.queue.inQ u then
    (s.label "FLR.S.away.queued").dequeue u
  else s.label "FLR.S.away.other"

/-- The end of `wsJoin`: `u` becomes a member with a fresh record, which agrees with whether the
floor is held by then. -/
def enrol (s : St) (u : String) (perm : Bool) : St :=
  let s := { s with fl := { s.fl with members := s.fl.members.insert u } }
  let taken := s.fl.holder.isSome
  s.p u fun p => { p with
    part := some (if taken then .npTaken else .npIdle), gTaken := taken, pubRoom := false,
    perm := perm, retry := false, released := false, rcause := 0 }

end St

/-! ## Public operations -/

namespace Floor

/-- The state an operation starts from: an empty `Step`. -/
def start (f : Floor) : St := { fl := f }

def serverRx (f : Floor) (u : String) (m : Msg) (half : Bool) (t2Left : Nat) : St :=
  let s := f.start
  if m.t = .ack ∧ f.partOf u ≠ some .npTaken then s.label "FLR.S.gate.ack_drop"
  else if u ∉ f.members ∧ m.t = .request then
    (s.label "FLR.S.gate.not_in_room").send u .deny none Deny.otherReason 0
  else if u ∉ f.members then s.label "FLR.S.gate.not_in_room_drop"
  else if m.t = .request ∧ !half then
    (s.label "FLR.S.gate.recv_only").send u .deny none Deny.recvOnly 0
  else if m.t = .request ∧ !(f.part u).pubRoom then
    (s.label "FLR.S.gate.not_pubroom").send u .deny none Deny.notPubroom 0
  else if m.t = .request ∧ !(f.part u).perm then
    (s.label "FLR.S.gate.no_permission").send u .deny none Deny.noPermission 0
  else s.partC u m t2Left

def ready (f : Floor) (u : String) : St :=
  if f.holder = some u then f.start.label "FLR.S.P.join.self"
  else if f.holder.isSome then (f.start.label "FLR.S.P.join.taken").send u .taken f.holder 0 0
  else (f.start.label "FLR.S.P.join.idle").send u .idle f.prev 0 0

def permDown (f : Floor) (u : String) : St :=
  let s := f.start.p u fun p => { p with perm := false }
  if s.fl.g = .taken ∧ s.fl.speaker = some u then
    (s.label "FLR.S.perm.speaker").prevokeEnter u Revoke.noPermission
  else if s.fl.queue.inQ u then
    ((s.label "FLR.S.perm.queued").dequeue u).partA u { t := .deny, n := Deny.noPermission }
  else s.label "FLR.S.perm.other"

def permUp (f : Floor) (u : String) : St :=
  (f.start.label "FLR.S.perm.up").p u fun p => { p with perm := true }

def wsPubSelect (f : Floor) (u : String) : St :=
  (f.start.label "FLR.S.ws.pub_select").p u fun p => { p with pubRoom := true }

def wsPubAway (f : Floor) (u : String) : St :=
  ((f.start.label "FLR.S.ws.pub_away").p u fun p => { p with pubRoom := false }).away u

def wsLeave (f : Floor) (u : String) : St :=
  let s := ((f.start.label "FLR.S.ws.leave").p u fun p => { p with pubRoom := false }).away u
  let s := { s with fl := { s.fl with members := s.fl.members.erase u } }
  s.p u fun p => { p with retry := false, part := some .releasing }

def wsJoin (f : Floor) (u : String) (perm : Bool) : St :=
  if f.g = .prevoke ∧ f.revoking = some u then
    (((f.start.label "FLR.S.ws.join_revoking").setPrev f.revoking).idleEnter).enrol u perm
  else (f.start.label "FLR.S.ws.join").enrol u perm

def rtp (f : Floor) (u : String) : St :=
  if u ∉ f.members then f.start.label "FLR.S.gate.not_in_room_drop"
  else f.start.partC u { t := .rtp } 0

def t1 (f : Floor) : St :=
  if f.g = .taken then ((f.start.label "FLR.S.G.TAKEN.T1").setPrev f.speaker).idleEnter
  else ((f.start.label "FLR.S.G.PREVOKE.T1").setPrev f.revoking).idleEnter

def t2 (f : Floor) : St :=
  let u := f.speaker.getD ""
  ((f.start.label "FLR.S.G.TAKEN.T2").p u fun p => { p with retry := true }).prevokeEnter u
    Revoke.tooLong

def t3 (f : Floor) : St :=
  ((f.start.label "FLR.S.G.PREVOKE.T3").setPrev f.revoking).idleEnter

def t7 (f : Floor) : St :=
  { f.start.label "FLR.S.G.IDLE.T7" with fl := { f with c7 := f.c7 + 1 } }.fan
    { t := .idle, a := f.prev } none

def t20 (f : Floor) : St :=
  if f.c20 < Cap.c20 then
    { f.start.label "FLR.S.G.TAKEN.T20" with fl := { f with c20 := f.c20 + 1 } }.partA
      (f.speaker.getD "") { t := .granted, n := f.sprio, d := f.t2Full }
  else { f.start.label "FLR.S.G.TAKEN.T20_exhaust" with fl := { f with c20 := f.c20 + 1 } }

def t8 (f : Floor) (u : String) : St :=
  let s := f.start.p u fun p => { p with c8 := p.c8 + 1 }
  if f.partOf u = some .prevoke then
    (s.label "FLR.S.P.PREVOKE.T8").send u .revoke none (f.part u).rcause 0
  else (s.label "FLR.S.P.NPSENDS.T8").send u .revoke none Revoke.noPermission 0

def t21 (f : Floor) (u : String) : St :=
  let s := f.start.p u fun p => { p with c21 := p.c21 + 1 }
  if (f.part u).c21 < Cap.c21 then
    (s.label "FLR.S.P.NP_TAKEN.T21").send u .taken s.fl.holder 0 0
  else s.label "FLR.S.P.NP_TAKEN.T21_exhaust"

def t9 (f : Floor) (u : String) : St :=
  (f.start.label "FLR.S.T9.expire").p u fun p => { p with retry := false }

end Floor

/-! ## Timers -/

inductive Timer where
  | T1
  | T2
  | T3
  | T7
  | T8
  | T9
  | T20
  | T21
  deriving DecidableEq, Repr

namespace Floor

def armedServer (f : Floor) : List Timer :=
  (if f.g = .taken ∨ f.g = .prevoke then [.T1] else []) ++
  (if f.g = .taken ∧ f.firstRtp then [.T2] else []) ++
  (if f.g = .prevoke then [.T3] else []) ++
  (if f.g = .idle ∧ f.idleBcast ∧ f.c7 < Cap.c7 then [.T7] else []) ++
  (if f.g = .taken ∧ f.succ ∧ !f.rtpSeen ∧ f.c20 ≤ Cap.c20 then [.T20] else [])

def armedParticipant (f : Floor) (u : String) : List Timer :=
  match f.parts[u]? with
  | none => []
  | some p =>
    (if (p.part = some .prevoke ∨ p.part = some .npSends) ∧ p.c8 < Cap.c8 then [.T8] else []) ++
    (if p.retry then [.T9] else []) ++
    (if p.part = some .npTaken ∧ 1 ≤ p.c21 ∧ p.c21 ≤ Cap.c21 then [.T21] else [])

end Floor

/-! ## Runs -/

/-- The public operations of the floor. -/
inductive Op where
  | serverRx (u : String) (m : Msg) (half : Bool) (t2Left : Nat)
  | ready (u : String)
  | permDown (u : String)
  | permUp (u : String)
  | wsPubSelect (u : String)
  | wsPubAway (u : String)
  | wsLeave (u : String)
  | wsJoin (u : String) (perm : Bool)
  | rtp (u : String)
  | t1
  | t2
  | t3
  | t7
  | t20
  | t8 (u : String)
  | t9 (u : String)
  | t21 (u : String)
  deriving DecidableEq, Repr

def Floor.apply (f : Floor) : Op → St
  | .serverRx u m half t2Left => f.serverRx u m half t2Left
  | .ready u => f.ready u
  | .permDown u => f.permDown u
  | .permUp u => f.permUp u
  | .wsPubSelect u => f.wsPubSelect u
  | .wsPubAway u => f.wsPubAway u
  | .wsLeave u => f.wsLeave u
  | .wsJoin u perm => f.wsJoin u perm
  | .rtp u => f.rtp u
  | .t1 => f.t1
  | .t2 => f.t2
  | .t3 => f.t3
  | .t7 => f.t7
  | .t20 => f.t20
  | .t8 u => f.t8 u
  | .t9 u => f.t9 u
  | .t21 u => f.t21 u

/-- A timer is fired only while it is armed; everything else may happen at any time. -/
def Op.Armed (f : Floor) : Op → Prop
  | .t1 => .T1 ∈ f.armedServer
  | .t2 => .T2 ∈ f.armedServer
  | .t3 => .T3 ∈ f.armedServer
  | .t7 => .T7 ∈ f.armedServer
  | .t20 => .T20 ∈ f.armedServer
  | .t8 u => .T8 ∈ f.armedParticipant u
  | .t9 u => .T9 ∈ f.armedParticipant u
  | .t21 u => .T21 ∈ f.armedParticipant u
  | _ => True

/-- The operation is the expiry of a timer. -/
def Op.isTimer : Op → Bool
  | .t1 | .t2 | .t3 | .t7 | .t20 | .t8 _ | .t9 _ | .t21 _ => true
  | _ => false

instance (f : Floor) : (o : Op) → Decidable (o.Armed f)
  | .t1 | .t2 | .t3 | .t7 | .t20 => inferInstanceAs (Decidable (_ ∈ f.armedServer))
  | .t8 u | .t9 u | .t21 u => inferInstanceAs (Decidable (_ ∈ f.armedParticipant u))
  | .serverRx .. | .ready _ | .permDown _ | .permUp _ | .wsPubSelect _ | .wsPubAway _
  | .wsLeave _ | .wsJoin .. | .rtp _ => inferInstanceAs (Decidable True)

end OxlensSfu.Flr
