import OxlensSfu.Floor.Core
import OxlensSfu.Wire.Mbcp
import OxlensSfu.Wire.Text

/-!
# Floor messages as they are sent

The messages of the floor as values on the wire: the constructors and readers of
`crates/oxsig/src/floor.rs`, and `to_mbcp`, `from_mbcp` and `send` of
`crates/oxsfud/src/ops/floor.rs` between them and the messages of the arbitration. `send` drops
what the writers refuse without a word.
-/

namespace OxlensSfu.Mbcp

open Rtcp (be16 of16)
open Ingress (utf8 fromUtf8Lossy)

namespace Tlv

def priority : UInt8 := 0
def duration : UInt8 := 1
def cause : UInt8 := 2
def qinfo : UInt8 := 3
def speaker : UInt8 := 4
def seq : UInt8 := 8
def acktype : UInt8 := 12
def prev : UInt8 := 26
def reason : UInt8 := 27
def room : UInt8 := 29

end Tlv

def u8spare (v : UInt8) : List UInt8 := [v, 0]

def u16be (v : UInt16) : List UInt8 := be16 v.toNat

namespace Msg

/-! ## Reading -/

def get (m : Msg) (id : UInt8) : Option (List UInt8) := (m.tlvs.find? (·.1 == id)).map (·.2)

def text (m : Msg) (id : UInt8) : Option String := (m.get id).map fromUtf8Lossy

def room (m : Msg) : Option String := m.text Tlv.room

def priority (m : Msg) : Option UInt8 :=
  (m.get Tlv.priority).bind fun b => if b.length = 2 then b.head? else none

def seq (m : Msg) : Option Nat :=
  (m.get Tlv.seq).bind fun
    | [hi, lo] => some (of16 hi lo)
    | _ => none

def ackOf (m : Msg) : Option UInt8 :=
  (m.get Tlv.acktype).bind fun b => if b.length = 2 then b.head? else none

def cause (m : Msg) : Option UInt8 := (m.get Tlv.cause).bind (·.head?)

/-! ## Writing -/

def push (m : Msg) (id : UInt8) (v : List UInt8) : Msg := { m with tlvs := m.tlvs ++ [(id, v)] }

/-- A text that may be left out. -/
def pushText (m : Msg) (id : UInt8) : Option String → Msg
  | some s => m.push id (utf8 s)
  | none => m

protected def granted (priority : UInt8) (durationS : UInt16) (room : String) : Msg :=
  ((Msg.mk Mbcp.granted true []).push Tlv.priority (u8spare priority)).push Tlv.duration
    (u16be durationS) |>.push Tlv.room (utf8 room)

protected def taken (speaker : String) (seq : UInt16) (room : String) : Msg :=
  ((Msg.mk Mbcp.taken true []).push Tlv.speaker (utf8 speaker)).push Tlv.seq (u16be seq)
    |>.push Tlv.room (utf8 room)

def denyMsg (cause : UInt8) (room : String) (reason : Option String) : Msg :=
  ((Msg.mk Mbcp.deny true []).push Tlv.cause [cause]).push Tlv.room (utf8 room)
    |>.pushText Tlv.reason reason

protected def idle (seq : UInt16) (room : String) (prev : Option String) : Msg :=
  ((Msg.mk Mbcp.idle false []).push Tlv.seq (u16be seq)).push Tlv.room (utf8 room)
    |>.pushText Tlv.prev prev

def revokeMsg (cause : UInt8) (room : String) (reason : Option String) : Msg :=
  ((Msg.mk Mbcp.revoke false []).push Tlv.cause [cause]).push Tlv.room (utf8 room)
    |>.pushText Tlv.reason reason

def queueInfo (position priority : UInt8) (room : String) : Msg :=
  ((Msg.mk Mbcp.qinfo false []).push Tlv.qinfo [position, priority]).push Tlv.room (utf8 room)

def ackMsg (of : UInt8) (room : String) : Msg :=
  ((Msg.mk Mbcp.ack false []).push Tlv.acktype (u8spare of)).push Tlv.room (utf8 room)

end Msg

end OxlensSfu.Mbcp

namespace OxlensSfu.Flr

/-! ## Between the arbitration and the wire -/

/-- `to_mbcp`, with its narrowing casts. -/
def toMbcp (m : Msg) (room : String) (reason : Option String) : Option Mbcp.Msg :=
  match m.t with
  | .granted => some (Mbcp.Msg.granted (UInt8.ofNat m.n) (UInt16.ofNat m.d) room)
  | .taken => some (Mbcp.Msg.taken (m.a.getD "") (UInt16.ofNat m.q) room)
  | .idle => some (Mbcp.Msg.idle (UInt16.ofNat m.q) room m.a)
  | .deny => some (.denyMsg (UInt8.ofNat m.n) room reason)
  | .revoke => some (.revokeMsg (UInt8.ofNat m.n) room none)
  | .qinfo => some (.queueInfo (UInt8.ofNat (min m.n 255)) (UInt8.ofNat m.d) room)
  | .ack => some (Mbcp.Msg.ackMsg (UInt8.ofNat m.n) room)
  | .request | .release | .qposReq | .rtp => none

/-- `from_mbcp`. -/
def fromMbcp (m : Mbcp.Msg) : Option Msg :=
  if m.msgType = Mbcp.request then some { t := .request, n := (m.priority.getD 0).toNat }
  else if m.msgType = Mbcp.release then some { t := .release }
  else if m.msgType = Mbcp.qposReq then some { t := .qposReq }
  else if m.msgType = Mbcp.ack then some { t := .ack, n := (m.ackOf.getD 0).toNat }
  else none

/-- The reason that `execute` gives with the refusals of a step. -/
def Step.reason (r : Step) : Option String :=
  if r.labels.contains "FLR.S.gate.not_in_room" then some "not_in_room" else none

/-- The frame that `send` hands to the data channel, if there is one. -/
def frame (m : Mbcp.Msg) : Option (List UInt8) :=
  (Mbcp.encode m).bind (Mbcp.Dc.encode Mbcp.Dc.svcFloor)

end OxlensSfu.Flr
