import OxlensSfu.Floor.Fit
import OxlensSfu.Floor.Position

/-!
# Delivery of floor messages

A decision of the floor goes out as a frame, or not at all: the writer of a message refuses a
value of more than 255 bytes, and `send` leaves the message out. Everything else that the floor
says fits (`Floor.Fit`), and a room id is checked for its length, so it is the names that decide.
A user id is any piece of a key, of any length.

* `delivered_iff` — a message arrives, with what was meant, exactly when its name is short.
* **`deliverable_iff`** — in a run of users with short ids every message arrives, in any run those
  that name nobody, and the messages that name a user all arrive exactly when its id is short.
* **`long_name_lost`** — a room in which a `TAKEN` is lost.
-/

namespace OxlensSfu.Flr

open Rtcp (be16 of16 of16_be16)
open Mbcp (Tlv)
open Ingress (utf8 fromUtf8Lossy utf8_length fromUtf8Lossy_utf8)

/-! ## What the gates accept -/

/-- `FORBIDDEN` of the key space. -/
def forbidden : List Char := ['*', '$', '?', '#', '/']

def validPiece (s : String) : Bool := !s.isEmpty && !s.toList.any (forbidden.contains ·)

def validRoomId (r : String) : Bool :=
  !r.isEmpty && decide (r.utf8ByteSize ≤ 255) && validPiece r

/-! ## What arrives -/

/-- The message that the receiver of a frame reads. -/
def receive (b : List UInt8) : Option Mbcp.Msg :=
  (Mbcp.Dc.decode b).bind fun fr =>
    if fr.svc = Mbcp.Dc.svcFloor then Mbcp.decode fr.payload else none

/-- The number of a message type. -/
def Mt.code : Mt → Option UInt8
  | .request => some Mbcp.request
  | .granted => some Mbcp.granted
  | .taken => some Mbcp.taken
  | .deny => some Mbcp.deny
  | .release => some Mbcp.release
  | .idle => some Mbcp.idle
  | .revoke => some Mbcp.revoke
  | .qposReq => some Mbcp.qposReq
  | .qinfo => some Mbcp.qinfo
  | .ack => some Mbcp.ack
  | .rtp => none

/-- The user a message names: who speaks, or who spoke before. -/
def userOf (w : Mbcp.Msg) : Option String := w.text Tlv.speaker <|> w.text Tlv.prev

/-- The priority a message carries, alone or behind a position. -/
def priorityOf (w : Mbcp.Msg) : Option UInt8 :=
  w.priority <|> (w.get Tlv.qinfo).bind (·[1]?)

/-- What was read says what was meant. -/
structure Reads (m : Msg) (room : String) (w : Mbcp.Msg) : Prop where
  msgType : some w.msgType = m.t.code
  room : w.room = some room
  user : userOf w = m.a
  seq : w.seq = if m.t.seqd then some m.q else none
  cause : w.cause.map (·.toNat) = if m.t = .deny ∨ m.t = .revoke then some m.n else none
  priority : (priorityOf w).map (·.toNat) =
    if m.t = .granted then some m.n else if m.t = .qinfo then some m.d else none

/-- The message is sent and arrives. -/
def Delivered (m : Msg) (room : String) (reason : Option String) : Prop :=
  ∃ w b, toMbcp m room reason = some w ∧ frame w = some b ∧
    ∃ w', receive b = some w' ∧ Reads m room w'

/-- The operation is one of these users, and its message was read from the wire or is the release
that the server makes itself. -/
def Op.Served (U : String → Prop) : Op → Prop
  | .serverRx u m _ _ => U u ∧ (m = { t := .release } ∨ ∃ w, fromMbcp w = some m)
  | .ready u | .permDown u | .permUp u | .wsPubSelect u | .wsPubAway u | .wsLeave u | .wsJoin u _
  | .rtp u | .t8 u | .t9 u | .t21 u => U u
  | .t1 | .t2 | .t3 | .t7 | .t20 => True

/-! ## The lengths -/

theorem receive_frame {w : Mbcp.Msg} {b : List UInt8} (hw : Mbcp.adopted w.msgType = true)
    (h : frame w = some b) : receive b = some w := by
  obtain ⟨p, hp, hb⟩ := Option.bind_eq_some_iff.1 h
  rw [receive, Mbcp.Dc.decode_encode hb, Option.bind_some, if_pos rfl]
  exact Mbcp.decode_encode hw hp

/-- A message of few values is written exactly when each value is short. -/
theorem frame_isSome {w : Mbcp.Msg} (hack : (!w.ack || Mbcp.ackAllowed w.msgType) = true)
    (hlen : w.tlvs.length ≤ 4) : (frame w).isSome ↔ ∀ t ∈ w.tlvs, t.2.length ≤ Mbcp.maxValue := by
  have hack' : ¬ (w.ack = true ∧ (!Mbcp.ackAllowed w.msgType) = true) := by
    rintro ⟨h, h'⟩
    simp_all
  by_cases hshort : ∀ t ∈ w.tlvs, t.2.length ≤ Mbcp.maxValue
  · have hno : ¬ (w.tlvs.length > 255 ∨ w.tlvs.any (·.2.length > Mbcp.maxValue) = true) := by
      rintro (h | h)
      · omega
      · obtain ⟨t, ht, hlong⟩ := List.any_eq_true.1 h
        have := hshort t ht
        simp only [decide_eq_true_eq] at hlong
        omega
    refine iff_of_true ?_ hshort
    have hsum : (w.tlvs.flatMap Mbcp.tlvBytes).length ≤ w.tlvs.length * 257 := by
      rw [List.length_flatMap]
      refine (List.sum_le_card_nsmul _ 257 fun x hx => ?_).trans (by simp)
      obtain ⟨t, ht, rfl⟩ := List.mem_map.1 hx
      have := hshort t ht
      simp only [Mbcp.tlvBytes, List.length_cons]
      rw [Mbcp.maxValue] at this
      omega
    rw [frame, Mbcp.encode, if_neg hack', if_neg hno, Option.bind_some, Mbcp.Dc.encode, if_neg]
    · rfl
    · simp only [List.length_cons, Mbcp.Dc.maxPayload]
      omega
  · have hyes : w.tlvs.length > 255 ∨ w.tlvs.any (·.2.length > Mbcp.maxValue) = true := by
      right
      obtain ⟨t, hlong⟩ := not_forall.1 hshort
      obtain ⟨ht, hlong⟩ := Classical.not_imp.1 hlong
      exact List.any_eq_true.2 ⟨t, ht, by simpa using hlong⟩
    refine iff_of_false ?_ hshort
    rw [frame, Mbcp.encode, if_neg hack', if_pos hyes]
    simp

/-! ## Messages that fit -/

theorem read_u8 {n : Nat} (h : n ≤ 255) : (UInt8.ofNat n).toNat = n :=
  UInt8.toNat_ofNat_of_lt' (Nat.lt_succ_of_le h)

theorem read_u16be {n : Nat} (h : n < seqWrap) :
    of16 (UInt8.ofNat ((UInt16.ofNat n).toNat / 256)) (UInt8.ofNat (UInt16.ofNat n).toNat) = n := by
  have hn : (UInt16.ofNat n).toNat = n := UInt16.toNat_ofNat_of_lt' h
  rw [of16_be16, hn]
  exact Nat.mod_eq_of_lt h

/-- A message that has its meaning is delivered when it can be written. -/
theorem delivered_of_reads {m : Msg} {room : String} {reason : Option String} {w : Mbcp.Msg}
    (hw : toMbcp m room reason = some w) (hreads : Reads m room w)
    (hadopted : Mbcp.adopted w.msgType = true)
    (hack : (!w.ack || Mbcp.ackAllowed w.msgType) = true) (hlen : w.tlvs.length ≤ 4) :
    Delivered m room reason ↔ ∀ t ∈ w.tlvs, t.2.length ≤ 255 := by
  refine Iff.trans ?_ (frame_isSome hack hlen)
  constructor
  · rintro ⟨w', b, hw', hb, -⟩
    obtain rfl := Option.some.inj (hw.symm.trans hw')
    rw [hb]
    rfl
  · intro h
    obtain ⟨b, hb⟩ := Option.isSome_iff_exists.1 h
    exact ⟨w, b, hw, hb, w, receive_frame hadopted hb, hreads⟩

/-- A message that fits is delivered exactly when the name in it is short. -/
theorem delivered_iff {U : String → Prop} {m : Msg} {room : String} {reason : Option String}
    (hm : m.Fit U) (hroom : room.utf8ByteSize ≤ 255)
    (hreason : ∀ s, reason = some s → s.utf8ByteSize ≤ 255) :
    Delivered m room reason ↔ ∀ u, m.a = some u → u.utf8ByteSize ≤ 255 := by
  have hread := congrArg some (fromUtf8Lossy_utf8 room)
  obtain ⟨t, a, n, d, q⟩ := m
  cases t with
  | request | release | qposReq | rtp => exact absurd hm.outgoing (by simp [Mt.outgoing])
  | granted =>
    obtain rfl : a = none := hm.unnamed rfl
    have hn : (UInt8.ofNat n).toNat = n := read_u8 (hm.number (by simp))
    refine Iff.trans (delivered_of_reads rfl ⟨rfl, hread, rfl, rfl, rfl, congrArg some hn⟩ rfl rfl
      (Nat.le_of_ble_eq_true rfl)) ?_
    simp [Mbcp.Msg.granted, Mbcp.Msg.push, Mbcp.u8spare, Mbcp.u16be, be16, utf8_length, hroom]
  | taken =>
    obtain ⟨u, rfl⟩ := Option.ne_none_iff_exists'.1 (hm.named rfl)
    have hname := congrArg some (fromUtf8Lossy_utf8 u)
    have hq := congrArg some (read_u16be (hm.seq rfl))
    refine Iff.trans (delivered_of_reads rfl ⟨rfl, hread, hname, hq, rfl, rfl⟩ rfl rfl
      (Nat.le_of_ble_eq_true rfl)) ?_
    simp [Mbcp.Msg.taken, Mbcp.Msg.push, Mbcp.u16be, be16, utf8_length, hroom]
  | deny =>
    obtain rfl : a = none := hm.unnamed rfl
    have hn : (UInt8.ofNat n).toNat = n := read_u8 (hm.number (by simp))
    cases reason with
    | none =>
      refine Iff.trans (delivered_of_reads rfl ⟨rfl, hread, rfl, rfl, congrArg some hn, rfl⟩ rfl rfl
        (Nat.le_of_ble_eq_true rfl)) ?_
      simp [Mbcp.Msg.denyMsg, Mbcp.Msg.push, Mbcp.Msg.pushText, utf8_length, hroom]
    | some r =>
      refine Iff.trans (delivered_of_reads rfl ⟨rfl, hread, rfl, rfl, congrArg some hn, rfl⟩ rfl rfl
        (Nat.le_of_ble_eq_true rfl)) ?_
      simp [Mbcp.Msg.denyMsg, Mbcp.Msg.push, Mbcp.Msg.pushText, utf8_length, hroom, hreason]
  | idle =>
    have hq := congrArg some (read_u16be (hm.seq rfl))
    cases a with
    | none =>
      refine Iff.trans (delivered_of_reads rfl ⟨rfl, hread, rfl, hq, rfl, rfl⟩ rfl rfl
        (Nat.le_of_ble_eq_true rfl)) ?_
      simp [Mbcp.Msg.idle, Mbcp.Msg.push, Mbcp.Msg.pushText, Mbcp.u16be, be16, utf8_length, hroom]
    | some u =>
      have hname := congrArg some (fromUtf8Lossy_utf8 u)
      refine Iff.trans (delivered_of_reads rfl ⟨rfl, hread, hname, hq, rfl, rfl⟩ rfl rfl
        (Nat.le_of_ble_eq_true rfl)) ?_
      simp [Mbcp.Msg.idle, Mbcp.Msg.push, Mbcp.Msg.pushText, Mbcp.u16be, be16, utf8_length, hroom]
  | revoke =>
    obtain rfl : a = none := hm.unnamed rfl
    have hn : (UInt8.ofNat n).toNat = n := read_u8 (hm.number (by simp))
    refine Iff.trans (delivered_of_reads rfl ⟨rfl, hread, rfl, rfl, congrArg some hn, rfl⟩ rfl rfl
      (Nat.le_of_ble_eq_true rfl)) ?_
    simp [Mbcp.Msg.revokeMsg, Mbcp.Msg.push, Mbcp.Msg.pushText, utf8_length, hroom]
  | qinfo =>
    obtain rfl : a = none := hm.unnamed rfl
    have hd : (UInt8.ofNat d).toNat = d := read_u8 (hm.priority rfl)
    refine Iff.trans (delivered_of_reads rfl ⟨rfl, hread, rfl, rfl, rfl, congrArg some hd⟩ rfl rfl
      (Nat.le_of_ble_eq_true rfl)) ?_
    simp [Mbcp.Msg.queueInfo, Mbcp.Msg.push, utf8_length, hroom]
  | ack =>
    obtain rfl : a = none := hm.unnamed rfl
    refine Iff.trans (delivered_of_reads rfl ⟨rfl, hread, rfl, rfl, rfl, rfl⟩ rfl rfl
      (Nat.le_of_ble_eq_true rfl)) ?_
    simp [Mbcp.Msg.ackMsg, Mbcp.Msg.push, Mbcp.u8spare, utf8_length, hroom]

/-! ## Runs -/

/-- A room id that is accepted fits. -/
theorem room_short {room : String} (h : validRoomId room = true) : room.utf8ByteSize ≤ 255 := by
  simp only [validRoomId, Bool.and_eq_true, decide_eq_true_eq] at h
  exact h.1.2

theorem reason_short (r : Step) (s : String) (h : r.reason = some s) : s.utf8ByteSize ≤ 255 := by
  rw [Step.reason] at h
  split_ifs at h
  obtain rfl := Option.some.inj h
  decide

/-- A number that is read from the wire is a byte. -/
theorem fromMbcp_byte {w : Mbcp.Msg} {m : Msg} (h : fromMbcp w = some m) : m.n ≤ 255 := by
  rw [fromMbcp] at h
  split_ifs at h <;> obtain rfl := Option.some.inj h
  · exact Nat.le_of_lt_succ (UInt8.toNat_lt _)
  · exact Nat.zero_le _
  · exact Nat.zero_le _
  · exact Nat.le_of_lt_succ (UInt8.toNat_lt _)

theorem Op.Served.admitted {U : String → Prop} {o : Op} (h : o.Served U) : o.Admitted U := by
  cases o with
  | serverRx u m half d =>
    refine ⟨h.1, ?_⟩
    rcases h.2 with rfl | ⟨w, hw⟩
    · exact Nat.zero_le _
    · exact fromMbcp_byte hw
  | _ => exact h

theorem Op.Served.mono {U V : String → Prop} (hUV : ∀ u, U u → V u) {o : Op}
    (h : o.Served U) : o.Served V := by
  cases o with
  | serverRx u m half d => exact ⟨hUV u h.1, h.2⟩
  | t1 | t2 | t3 | t7 | t20 => trivial
  | _ => exact hUV _ h

/-- What a run says fits. -/
theorem said_fit {U : String → Prop} {qmax t2Secs : Nat} {ops : List Op} {o : Op}
    (hl : machine.Legal (Floor.new qmax t2Secs) (ops ++ [o]))
    (hserved : ∀ p ∈ ops ++ [o], p.Served U) :
    ∀ x ∈ ((machine.exec (Floor.new qmax t2Secs) ops).apply o).r.out, x.m.Fit U := by
  rw [Machine.legal_append] at hl
  have hinv : FitInv U (machine.exec (Floor.new qmax t2Secs) ops) :=
    run_fitInv hl.1 fun p hp => (hserved p (List.mem_append_left _ hp)).admitted
  have hlast : o.Admitted U := (hserved o (List.mem_append_right _ List.mem_cons_self)).admitted
  exact (apply_fit hinv.fit hinv.agreement hinv.outside hlast hl.2.1).out

/-- Somebody who comes later is told who speaks. -/
theorem ready_names {u v : String} (hne : u ≠ v) (qmax t2Secs : Nat) :
    ∃ x ∈ ((machine.exec (Floor.new qmax t2Secs) (opening u v)).apply (.ready v)).r.out,
      x.m.a = some u := by
  have h := opened hne qmax t2Secs
  generalize machine.exec (Floor.new qmax t2Secs) (opening u v) = f at h
  have hholder : f.holder = some u := by rw [Floor.holder, h.g, h.speaker]
  have hready : f.apply (.ready v) =
      (f.start.label "FLR.S.P.join.taken").send v .taken f.holder 0 0 := by
    show f.ready v = _
    rw [Floor.ready, if_neg (by rw [hholder]; simpa using hne), if_pos (by rw [hholder]; rfl)]
  rw [hready]
  exact ⟨_, List.mem_append_right _ List.mem_cons_self, hholder⟩

theorem opening_served {U : String → Prop} {u v : String} (hu : U u) (hv : U v) :
    ∀ p ∈ opening u v ++ [.ready v], p.Served U := by
  have hrequest : fromMbcp ⟨Mbcp.request, false, []⟩ = some { t := .request } := rfl
  intro p hp
  simp only [opening, List.cons_append, List.nil_append, List.mem_cons, List.not_mem_nil,
    or_false] at hp
  rcases hp with rfl | rfl | rfl | rfl | rfl
  · exact hu
  · exact hv
  · exact hu
  · exact ⟨hu, .inr ⟨_, hrequest⟩⟩
  · exact hv

/-- Everything that runs of these users say about `who` is delivered in the room. -/
def AllDelivered (U : String → Prop) (room : String) (who : Option String → Prop) : Prop :=
  ∀ qmax t2Secs ops o, machine.Legal (Floor.new qmax t2Secs) (ops ++ [o]) →
    (∀ p ∈ ops ++ [o], p.Served U) →
      ∀ x ∈ ((machine.exec (Floor.new qmax t2Secs) ops).apply o).r.out, who x.m.a →
        Delivered x.m room ((machine.exec (Floor.new qmax t2Secs) ops).apply o).r.reason

/-- A user with a long id speaks, and another user comes. -/
theorem long_name_undelivered {room u : String} (hroom : validRoomId room = true)
    (hu : validPiece u = true) (hlong : 255 < u.utf8ByteSize) :
    ¬ AllDelivered (validPiece · = true) room (· = some u) := by
  intro h
  have hne : u ≠ "a" := by
    rintro rfl
    exact absurd hlong (by decide)
  have hserved := opening_served (U := (validPiece · = true)) hu (v := "a") (by decide)
  have hlegal : machine.Legal (Floor.new 1 30) (opening u "a" ++ [.ready "a"]) :=
    ⟨trivial, trivial, trivial, trivial, trivial, trivial⟩
  obtain ⟨x, hx, hname⟩ := ready_names hne 1 30
  have hfit := said_fit hlegal hserved x hx
  have hdel := h 1 30 _ _ hlegal hserved x hx hname
  exact absurd ((delivered_iff hfit (room_short hroom) (reason_short _)).1 hdel u hname)
    (Nat.not_le_of_lt hlong)

/-- **When the decisions of the floor are delivered.** -/
theorem deliverable_iff {room : String} (hroom : validRoomId room = true) :
    AllDelivered (fun u => validPiece u = true ∧ u.utf8ByteSize ≤ 255) room (fun _ => True) ∧
      AllDelivered (validPiece · = true) room (· = none) ∧
      ∀ u, validPiece u = true →
        (AllDelivered (validPiece · = true) room (· = some u) ↔ u.utf8ByteSize ≤ 255) := by
  have hiff {U : String → Prop} {qmax t2Secs : Nat} {ops : List Op} {o : Op}
      (hl : machine.Legal (Floor.new qmax t2Secs) (ops ++ [o]))
      (hserved : ∀ p ∈ ops ++ [o], p.Served U) {x : Out}
      (hx : x ∈ ((machine.exec (Floor.new qmax t2Secs) ops).apply o).r.out) :=
    delivered_iff (said_fit hl hserved x hx) (room_short hroom)
      (reason_short ((machine.exec (Floor.new qmax t2Secs) ops).apply o).r)
  refine ⟨fun qmax t2Secs ops o hl hserved x hx _ => ?_,
    fun qmax t2Secs ops o hl hserved x hx hname => ?_, fun u hu => ⟨fun h => ?_, fun hshort => ?_⟩⟩
  · exact (hiff hl hserved hx).2 fun u hname => ((said_fit hl hserved x hx).name u hname).2
  · exact (hiff hl hserved hx).2 fun u hu => absurd (hname.symm.trans hu) nofun
  · by_contra hlong
    exact long_name_undelivered hroom hu (Nat.lt_of_not_le hlong) h
  · intro qmax t2Secs ops o hl hserved x hx hname
    refine (hiff hl hserved hx).2 fun v hv => ?_
    obtain rfl := Option.some.inj (hname.symm.trans hv)
    exact hshort

/-- In a room called `lobby`, about a user called `ann`. -/
theorem deliverable_iff_lobby :
    AllDelivered (fun u => validPiece u = true ∧ u.utf8ByteSize ≤ 255) "lobby" (fun _ => True) ∧
      AllDelivered (validPiece · = true) "lobby" (· = some "ann") := by
  obtain ⟨hshort, -, hname⟩ := deliverable_iff (show validRoomId "lobby" = true by decide)
  exact ⟨hshort, (hname "ann" (by decide)).2 (by decide)⟩

/-- A name of 256 bytes. -/
def longName : String := String.ofList (List.replicate 256 'a')

/-- Who is called so speaks, and nobody who comes hears of it. -/
theorem long_name_lost : validRoomId "lobby" = true ∧ validPiece longName = true ∧
    ¬ AllDelivered (validPiece · = true) "lobby" (fun _ => True) := by
  have hsize : 255 < longName.utf8ByteSize := by decide +kernel
  have hpiece : validPiece longName = true := by
    have hempty : longName.isEmpty = false := by decide +kernel
    have hchars : longName.toList = List.replicate 256 'a' := String.toList_ofList
    have hany : ∀ n, (List.replicate n 'a').any (forbidden.contains ·) = false := by
      intro n
      simp [forbidden]
    rw [validPiece, hempty, hchars, hany]
    rfl
  refine ⟨by decide, hpiece, fun h => ?_⟩
  exact long_name_undelivered (by decide) hpiece hsize fun qmax t2Secs ops o hl hserved x hx _ =>
    h qmax t2Secs ops o hl hserved x hx trivial

end OxlensSfu.Flr
