import Mathlib.Tactic
import OxlensSfu.Rtcp.Feedback

/-!
# Floor messages on the wire

A floor message (`crates/oxsig/src/floor.rs`) is a head of two bytes and values behind their ids
and lengths, and travels in a frame of the data channel (`dc.rs`). The writer refuses what its
lengths cannot hold. The reader of the values is tolerant: it takes those that are there in full
and stops at the first that is not.

**Theorem (`floor_codec`).** What is written is read back, through the frame too, and what is read
from any bytes is the longest list of values, no longer than announced, that the bytes begin with.
-/

namespace OxlensSfu.Mbcp

open Rtcp (be16 of16 of16_be16)

/-! ## Numbers of the format -/

def request : UInt8 := 0
def granted : UInt8 := 1
def taken : UInt8 := 2
def deny : UInt8 := 3
def release : UInt8 := 4
def idle : UInt8 := 5
def revoke : UInt8 := 6
def qposReq : UInt8 := 8
def qinfo : UInt8 := 9
def ack : UInt8 := 10

def maxValue : Nat := 255

def adopted (t : UInt8) : Bool :=
  [request, granted, taken, deny, release, idle, revoke, qposReq, qinfo, ack].contains t

def ackAllowed (t : UInt8) : Bool := [granted, taken, deny, release, idle, qinfo].contains t

/-! ## Messages -/

abbrev Tlv := UInt8 × List UInt8

structure Msg where
  msgType : UInt8
  ack : Bool
  tlvs : List Tlv := []
  deriving DecidableEq, Repr

def tlvBytes (t : Tlv) : List UInt8 := t.1 :: UInt8.ofNat t.2.length :: t.2

/-- The version in the two upper bits is 0. -/
def head (t : UInt8) (ack : Bool) : UInt8 := (t &&& 0x0f) ||| if ack then 0x10 else 0

def encode (m : Msg) : Option (List UInt8) :=
  if m.ack ∧ !ackAllowed m.msgType then none
  else if m.tlvs.length > 255 ∨ m.tlvs.any (·.2.length > maxValue) then none
  else some (head m.msgType m.ack :: UInt8.ofNat m.tlvs.length :: m.tlvs.flatMap tlvBytes)

/-- The loop of `decode`, for as many values as are announced. -/
def readTlvs : Nat → List UInt8 → List Tlv
  | 0, _ => []
  | n + 1, id :: len :: rest =>
    if rest.length < len.toNat then []
    else (id, rest.take len.toNat) :: readTlvs n (rest.drop len.toNat)
  | _ + 1, _ => []

def decode : List UInt8 → Option Msg
  | head :: count :: rest =>
    if head &&& 0xc0 ≠ 0 then none
    else
      let t := head &&& 0x0f
      if !adopted t then none
      else some { msgType := t, ack := head &&& 0x10 ≠ 0, tlvs := readTlvs count.toNat rest }
  | _ => none

example : encode ⟨granted, true, [(0, [5, 0])]⟩ = some [0x11, 1, 0, 2, 5, 0] := by decide

/-! ## Frames -/

namespace Dc

def ver : UInt8 := 1
def maxPayload : Nat := 65532
def svcFloor : UInt8 := 0x01

structure Frame where
  svc : UInt8
  payload : List UInt8
  deriving DecidableEq, Repr

protected def decode : List UInt8 → Option Frame
  | v :: svc :: hi :: lo :: rest =>
    if v ≠ ver then none
    else
      let len := of16 hi lo
      if rest.length < len then none else some ⟨svc, rest.take len⟩
  | _ => none

protected def encode (svc : UInt8) (payload : List UInt8) : Option (List UInt8) :=
  if payload.length > maxPayload then none
  else some (ver :: svc :: be16 payload.length ++ payload)

theorem decode_encode {svc : UInt8} {payload frame : List UInt8}
    (h : Dc.encode svc payload = some frame) : Dc.decode frame = some ⟨svc, payload⟩ := by
  rw [Dc.encode] at h
  split_ifs at h with hlen
  obtain rfl := Option.some.inj h
  have hsmall : payload.length < 65536 := lt_of_le_of_lt (Nat.le_of_not_lt hlen) (by decide)
  have hread : of16 (UInt8.ofNat (payload.length / 256)) (UInt8.ofNat payload.length) =
      payload.length := by
    rw [of16_be16]
    exact Nat.mod_eq_of_lt hsmall
  simp only [be16, List.cons_append, List.nil_append, Dc.decode, hread, lt_irrefl,
    List.take_length, ne_eq, not_true_eq_false, if_false]

end Dc

/-! ## Reading what was written -/

theorem readTlvs_encode {ts : List Tlv} (h : ∀ t ∈ ts, t.2.length ≤ maxValue) (n : Nat)
    (rest : List UInt8) :
    readTlvs (ts.length + n) (ts.flatMap tlvBytes ++ rest) = ts ++ readTlvs n rest := by
  induction ts with
  | nil => simp
  | cons t ts ih =>
    obtain ⟨ht, hts⟩ := List.forall_mem_cons.mp h
    have hlen : (UInt8.ofNat t.2.length).toNat = t.2.length :=
      UInt8.toNat_ofNat_of_lt' (Nat.lt_succ_of_le ht)
    rw [List.length_cons, Nat.add_right_comm, List.flatMap_cons, tlvBytes, List.cons_append,
      List.cons_append, List.cons_append, List.cons_append, readTlvs, hlen, List.append_assoc,
      if_neg (by simp), List.take_left, List.drop_left, ih hts, List.cons_append]

theorem head_parts {t : UInt8} (h : adopted t = true) (a : Bool) :
    head t a &&& 0xc0 = 0 ∧ head t a &&& 0x0f = t ∧ decide (head t a &&& 0x10 ≠ 0) = a := by
  have hmem : t ∈ [request, granted, taken, deny, release, idle, revoke, qposReq, qinfo, ack] :=
    List.contains_iff_mem.mp h
  revert a
  fin_cases hmem <;> decide

theorem decode_encode {m : Msg} {b : List UInt8} (hm : adopted m.msgType = true)
    (h : encode m = some b) : decode b = some m := by
  rw [encode] at h
  split_ifs at h with hack hlen
  obtain rfl := Option.some.inj h
  obtain ⟨hcount, hvalues⟩ := not_or.mp hlen
  obtain ⟨hver, htype, hflag⟩ := head_parts hm m.ack
  have hvalues : ∀ t ∈ m.tlvs, t.2.length ≤ maxValue := by
    simpa using hvalues
  have hcount : (UInt8.ofNat m.tlvs.length).toNat = m.tlvs.length :=
    UInt8.toNat_ofNat_of_lt' (Nat.lt_succ_of_le (Nat.le_of_not_lt hcount))
  have hread := readTlvs_encode hvalues 0 []
  rw [readTlvs, List.append_nil, List.append_nil, Nat.add_zero] at hread
  rw [decode, if_neg (not_not.mpr hver)]
  dsimp only
  rw [htype, hm, hcount, hread, hflag]
  rfl

/-! ## Reading anything -/

/-- The bytes begin with these values, all there in full and no more than announced. -/
def Begins (count : Nat) (body : List UInt8) (ts : List Tlv) : Prop :=
  ts.length ≤ count ∧ (∀ t ∈ ts, t.2.length ≤ maxValue) ∧ ts.flatMap tlvBytes <+: body

theorem begins_readTlvs (n : Nat) (body : List UInt8) : Begins n body (readTlvs n body) := by
  fun_induction readTlvs n body with
  | case1 body => exact ⟨le_refl 0, by simp, List.nil_prefix⟩
  | case2 n id len rest hshort => exact ⟨Nat.zero_le _, by simp, List.nil_prefix⟩
  | case3 n id len rest hlong ih =>
    obtain ⟨hcount, hvalues, hbody⟩ := ih
    have hlen : (rest.take len.toNat).length = len.toNat := by
      rw [List.length_take]
      omega
    refine ⟨Nat.succ_le_succ hcount, List.forall_mem_cons.mpr ⟨?_, hvalues⟩, ?_⟩
    · rw [hlen]
      exact Nat.le_of_lt_succ len.toNat_lt
    · rw [List.flatMap_cons, tlvBytes, hlen, UInt8.ofNat_toNat, List.cons_append, List.cons_append,
        List.cons_prefix_cons, List.cons_prefix_cons]
      refine ⟨rfl, rfl, ?_⟩
      conv_rhs => rw [← List.take_append_drop len.toNat rest]
      exact (List.prefix_append_right_inj _).mpr hbody
  | case4 n body hshort => exact ⟨Nat.zero_le _, by simp, List.nil_prefix⟩

/-- What is read goes at least as far as anything the bytes begin with. -/
theorem prefix_readTlvs {count : Nat} {body : List UInt8} {ts : List Tlv}
    (h : Begins count body ts) : ts <+: readTlvs count body := by
  obtain ⟨hcount, hvalues, rest, rfl⟩ := h
  obtain ⟨n, rfl⟩ := Nat.exists_eq_add_of_le hcount
  rw [readTlvs_encode hvalues]
  exact List.prefix_append ts _

/-- **The codec of floor messages.** -/
theorem floor_codec :
    (∀ (m : Msg) (b : List UInt8), adopted m.msgType = true → encode m = some b →
      decode b = some m ∧ ∀ frame, Dc.encode Dc.svcFloor b = some frame →
        Dc.decode frame = some ⟨Dc.svcFloor, b⟩) ∧
      ∀ b : List UInt8, decode b = none ∨ ∃ (m : Msg) (head count : UInt8) (body : List UInt8),
        decode b = some m ∧ b = head :: count :: body ∧ Begins count.toNat body m.tlvs ∧
          ∀ ts, Begins count.toNat body ts → ts <+: m.tlvs := by
  refine ⟨fun m b hm h => ⟨decode_encode hm h, fun frame hf => Dc.decode_encode hf⟩, fun b => ?_⟩
  match b with
  | [] => exact .inl rfl
  | [_] => exact .inl rfl
  | head :: count :: body =>
    rw [decode]
    split_ifs
    · exact .inl rfl
    dsimp only
    split_ifs
    · exact .inl rfl
    · refine .inr ⟨_, head, count, body, rfl, rfl, begins_readTlvs _ _, ?_⟩
      exact fun ts h => prefix_readTlvs h

theorem floor_codec_granted :
    decode [0x11, 1, 0, 2, 5, 0] = some ⟨granted, true, [(0, [5, 0])]⟩ :=
  (floor_codec.1 ⟨granted, true, [(0, [5, 0])]⟩ _ (by decide) (by decide)).1

end OxlensSfu.Mbcp
