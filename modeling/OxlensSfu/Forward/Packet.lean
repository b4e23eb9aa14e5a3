import Mathlib.Data.List.ReduceOption
import OxlensSfu.Forward.Rewriter
import OxlensSfu.Rtcp.Feedback
import OxlensSfu.Sub.Table

/-!
# The packet that goes down

A packet for a subscriber is built anew: a header with the number, the time, the stream and the
payload type of the row, the extensions under the subscriber's numbers, and the payload as it came
(`send_down`, `parse_rtp` and `ext_get`, `crates/oxsfud/src/fwd/mod.rs`; `build`,
`crates/oxsfud/src/sub/ext.rs`).

**Theorem (`down_packet_read`).** What is built from any packet that can be read can be read again:
as a packet with no sources, with the row's stream, the bits of the packet that came and its
payload, and with each extension of the table as it was put in and no other one. The payload type
is the row's in the seven bits it has.

An element is put in one of two forms. Both are read by going from element to element, so one
statement about what is read behind an element is enough for each (`getOne_put`, `getTwo_put`).
-/

namespace OxlensSfu.Fwd

open OxlensSfu.Rtcp (be16 be32 of16 of16_be16 of32_be32)
open OxlensSfu.Sub (ExtTable)

/-! ## Reading -/

structure Rtp where
  raw : List UInt8
  pt : UInt8
  marker : Bool
  seq : UInt16
  ts : UInt32
  ssrc : UInt32
  hlen : Nat
  ext : Option (UInt16 × List UInt8)
  deriving DecidableEq

def byteAt (b : List UInt8) (i : Nat) : UInt8 := b.getD i 0

def u16At (b : List UInt8) (i : Nat) : UInt16 := .ofNat (of16 (byteAt b i) (byteAt b (i + 1)))

def u32At (b : List UInt8) (i : Nat) : UInt32 :=
  .ofNat (of16 (byteAt b i) (byteAt b (i + 1)) * 2 ^ 16 +
    of16 (byteAt b (i + 2)) (byteAt b (i + 3)))

/-- The fields before the extensions, of a packet that is long enough. -/
def rtpOf (b : List UInt8) (hlen : Nat) (ext : Option (UInt16 × List UInt8)) : Rtp where
  raw := b
  pt := byteAt b 1 &&& 0x7f
  marker := byteAt b 1 &&& 0x80 ≠ 0
  seq := u16At b 2
  ts := u32At b 4
  ssrc := u32At b 8
  hlen := hlen
  ext := ext

def parseRtp (b : List UInt8) : Option Rtp :=
  if b.length < 12 ∨ byteAt b 0 >>> 6 ≠ 2 then none
  else
    let h := 12 + (byteAt b 0 &&& 0x0f).toNat * 4
    if b.length < h then none
    else if byteAt b 0 &&& 0x10 ≠ 0 then
      if b.length < h + 4 then none
      else
        let words := (u16At b (h + 2)).toNat
        if b.length < h + 4 + words * 4 then none
        else
          some (rtpOf b (h + 4 + words * 4)
            (some (u16At b h, (b.drop (h + 4)).take (words * 4))))
    else some (rtpOf b h none)

/-- An element in the form of one byte, or padding. -/
def getOne (id : UInt8) : List UInt8 → Option (List UInt8)
  | [] => none
  | b :: rest =>
    if b = 0 then getOne id rest
    else
      let len := (b &&& 0x0f).toNat + 1
      if b >>> 4 = 15 then none
      else if rest.length < len then none
      else if b >>> 4 = id then some (rest.take len)
      else getOne id (rest.drop len)
termination_by d => d.length
decreasing_by
  · simp
  · simp only [List.length_drop, List.length_cons]
    omega

/-- An element in the form of two bytes, or padding. -/
def getTwo (id : UInt8) : List UInt8 → Option (List UInt8)
  | b :: l :: rest =>
    if b = 0 then getTwo id (l :: rest)
    else if rest.length < l.toNat then none
    else if b = id then some (rest.take l.toNat)
    else getTwo id (rest.drop l.toNat)
  | _ => none
termination_by d => d.length
decreasing_by
  · simp
  · simp only [List.length_drop, List.length_cons]
    omega

def extGet (ext : Option (UInt16 × List UInt8)) (id : UInt8) : Option (List UInt8) :=
  match ext with
  | none => none
  | some (profile, d) =>
    if id = 0 then none
    else if profile = 0xbede then getOne id d
    else if profile &&& 0xfff0 = 0x1000 then getTwo id d
    else none

/-! ## Building -/

/-- The numbers of a table. -/
def ids (t : ExtTable) : List Nat := [t.mid, t.audioLevel, t.absSendTime, t.twcc].reduceOption

def oneByte (t : ExtTable) : Bool := (ids t).all fun id => 1 ≤ id ∧ id ≤ 14

def absSendTime (tUs : Nat) : Nat := tUs % 64000000 * 2 ^ 18 / 1000000 &&& 0xffffff

structure ExtInput where
  mid : List UInt8
  audioLevel : Option UInt8
  tUs : Nat
  twccSeq : Option UInt16

def put (one : Bool) (e : Nat × List UInt8) : List UInt8 :=
  if e.2 = [] then []
  else
    (if one then [UInt8.ofNat e.1 <<< 4 ||| ((UInt8.ofNat e.2.length - 1) &&& 0x0f)]
      else [UInt8.ofNat e.1, UInt8.ofNat e.2.length]) ++ e.2

/-- An element, when there is a number and a value. -/
def part (o : Option Nat) (v : Option (List UInt8)) : List (Nat × List UInt8) :=
  (o.bind fun id => v.map fun x => (id, x)).toList

/-- What is put in, in order. -/
def elements (t : ExtTable) (inp : ExtInput) : List (Nat × List UInt8) :=
  part t.mid (some inp.mid) ++ part t.audioLevel (inp.audioLevel.map ([·])) ++
    part t.absSendTime (some ((be32 (absSendTime inp.tUs)).drop 1)) ++
    part t.twcc (inp.twccSeq.map (be16 ·.toNat))

/-- The elements, filled up to whole words. -/
def body (one : Bool) (es : List (Nat × List UInt8)) : List UInt8 :=
  let b := es.flatMap (put one)
  b ++ List.replicate ((4 - b.length % 4) % 4) 0

def build (t : ExtTable) (inp : ExtInput) : List UInt8 :=
  let one := oneByte t
  let b := body one (elements t inp)
  let words := b.length / 4 % 2 ^ 16
  if words = 0 then [] else (if one then [0xbe, 0xde] else [0x10, 0x00]) ++ be16 words ++ b

/-- The fields of a row that go into its packets. -/
structure DownRow where
  ssrc : UInt32
  pt : UInt8
  mid : List UInt8
  ext : ExtTable

structure Pkt where
  data : List UInt8
  hlen : Nat
  audioLevel : Option UInt8

def ptByte1 (byte1 pt : UInt8) : UInt8 := (byte1 &&& 0x80) ||| (pt &&& 0x7f)

/-- What is put in for a row. -/
def downInput (row : DownRow) (p : Pkt) (tUs : Nat) (twcc : UInt16) : ExtInput where
  mid := row.mid
  audioLevel := p.audioLevel
  tUs := tUs
  twccSeq := some twcc

/-- The packet that `send_down` encrypts. -/
def downPacket (row : DownRow) (p : Pkt) (mapped : Mapped) (tUs : Nat) (twcc : UInt16) :
    List UInt8 :=
  let b0 := 0x80 ||| (byteAt p.data 0 &&& 0x20)
  let ext := build row.ext (downInput row p tUs twcc)
  (if 0 < ext.length then b0 ||| 0x10 else b0) :: ptByte1 (byteAt p.data 1) row.pt ::
    (be16 mapped.seq.toNat ++ be32 mapped.ts.toNat ++ be32 row.ssrc.toNat ++ ext ++
      p.data.drop p.hlen)

/-- What a reader is to find under a number. -/
def valueOf (t : ExtTable) (inp : ExtInput) (id : Nat) : Option (List UInt8) :=
  if t.mid = some id then if inp.mid = [] then none else some inp.mid
  else if t.audioLevel = some id then inp.audioLevel.map ([·])
  else if t.absSendTime = some id then some ((be32 (absSendTime inp.tUs)).drop 1)
  else if t.twcc = some id then inp.twccSeq.map (be16 ·.toNat)
  else none

/-! ## Bytes -/

theorem forall_byte {p : UInt8 → Prop} (h : ∀ n : Fin 256, p (UInt8.ofNat n)) (x : UInt8) :
    p x := by
  have hx := h ⟨x.toNat, x.toNat_lt⟩
  rwa [UInt8.ofNat_toNat] at hx

theorem first_byte (x : UInt8) :
    let c := 0x80 ||| (x &&& 0x20)
    (c >>> 6 = 2 ∧ c &&& 0x0f = 0 ∧ c &&& 0x10 = 0 ∧ c &&& 0x20 = x &&& 0x20) ∧
      (c ||| 0x10) >>> 6 = 2 ∧ (c ||| 0x10) &&& 0x0f = 0 ∧ (c ||| 0x10) &&& 0x10 ≠ 0 ∧
        (c ||| 0x10) &&& 0x20 = x &&& 0x20 :=
  forall_byte (p := fun x =>
    let c := 0x80 ||| (x &&& 0x20)
    (c >>> 6 = 2 ∧ c &&& 0x0f = 0 ∧ c &&& 0x10 = 0 ∧ c &&& 0x20 = x &&& 0x20) ∧
      (c ||| 0x10) >>> 6 = 2 ∧ (c ||| 0x10) &&& 0x0f = 0 ∧ (c ||| 0x10) &&& 0x10 ≠ 0 ∧
        (c ||| 0x10) &&& 0x20 = x &&& 0x20) (by decide +kernel) x

theorem second_byte (x pt : UInt8) :
    ptByte1 x pt &&& 0x7f = pt &&& 0x7f ∧ ptByte1 x pt &&& 0x80 = x &&& 0x80 := by
  have hx : x &&& 0x80 = 0 ∨ x &&& 0x80 = 0x80 :=
    forall_byte (p := fun x => x &&& 0x80 = 0 ∨ x &&& 0x80 = 0x80) (by decide +kernel) x
  rw [ptByte1]
  rcases hx with hx | hx
  · rw [hx]
    exact forall_byte (p := fun pt => (0 ||| (pt &&& 0x7f)) &&& 0x7f = pt &&& 0x7f ∧
      (0 ||| (pt &&& 0x7f)) &&& 0x80 = 0) (by decide +kernel) pt
  · rw [hx]
    exact forall_byte (p := fun pt => (0x80 ||| (pt &&& 0x7f)) &&& 0x7f = pt &&& 0x7f ∧
      (0x80 ||| (pt &&& 0x7f)) &&& 0x80 = 0x80) (by decide +kernel) pt

/-- The head of an element in the form of one byte. -/
theorem head_one : ∀ (id : Fin 15) (n : Fin 16), 0 < id.val →
    let b := UInt8.ofNat id <<< 4 ||| ((UInt8.ofNat (n + 1) - 1) &&& 0x0f)
    b ≠ 0 ∧ b >>> 4 ≠ 15 ∧ b >>> 4 = UInt8.ofNat id ∧ (b &&& 0x0f).toNat = n := by
  decide +kernel

/-! ## Elements -/

/-- An element that the form can hold. -/
structure Holds (one : Bool) (e : Nat × List UInt8) : Prop where
  pos : 1 ≤ e.1
  id : e.1 ≤ if one then 14 else 255
  short : e.2.length ≤ 16

/-- What is read behind a number. -/
def getBody (one : Bool) (i : UInt8) (d : List UInt8) : Option (List UInt8) :=
  if one then getOne i d else getTwo i d

theorem getOne_put {e : Nat × List UInt8} (he : Holds true e) (hv : e.2 ≠ []) (i : UInt8)
    (rest : List UInt8) : getOne i (put true e ++ rest) =
      if UInt8.ofNat e.1 = i then some e.2 else getOne i rest := by
  have hpos := List.length_pos_iff.mpr hv
  have hid : e.1 ≤ 14 := he.id
  have hshort := he.short
  obtain ⟨hzero, hpad, hnum, hlen⟩ := head_one ⟨e.1, by omega⟩ ⟨e.2.length - 1, by omega⟩ he.pos
  dsimp only at hzero hpad hnum hlen
  rw [Nat.sub_add_cancel hpos] at hzero hpad hnum hlen
  rw [put, if_neg hv, if_pos rfl, List.append_assoc, List.singleton_append, getOne, if_neg hzero]
  dsimp only
  rw [if_neg hpad, hlen, Nat.sub_add_cancel hpos,
    if_neg (by rw [List.length_append]; omega), hnum, List.take_left, List.drop_left]

theorem getTwo_put {e : Nat × List UInt8} (he : Holds false e) (hv : e.2 ≠ []) (i : UInt8)
    (rest : List UInt8) : getTwo i (put false e ++ rest) =
      if UInt8.ofNat e.1 = i then some e.2 else getTwo i rest := by
  have hid : e.1 ≤ 255 := he.id
  have hshort := he.short
  have hlen : (UInt8.ofNat e.2.length).toNat = e.2.length :=
    UInt8.toNat_ofNat_of_lt' (show e.2.length < 256 by omega)
  have hzero : ¬ UInt8.ofNat e.1 = 0 := fun h => by
    have hnat := congrArg UInt8.toNat h
    rw [UInt8.toNat_ofNat_of_lt' (show e.1 < 256 by omega)] at hnat
    exact absurd hnat (Nat.one_le_iff_ne_zero.mp he.pos)
  rw [put, if_neg hv, if_neg Bool.false_ne_true, List.append_assoc, List.cons_append,
    List.singleton_append, getTwo, if_neg hzero, hlen, if_neg (by rw [List.length_append]; omega),
    List.take_left, List.drop_left]

theorem getOne_pad (i : UInt8) (n : Nat) : getOne i (List.replicate n 0) = none := by
  induction n with
  | zero => rw [List.replicate_zero, getOne]
  | succ n ih => rw [List.replicate_succ, getOne, if_pos rfl, ih]

theorem getTwo_pad (i : UInt8) (n : Nat) : getTwo i (List.replicate n 0) = none := by
  induction n with
  | zero =>
    rw [List.replicate_zero, getTwo]
    exact fun _ _ _ h => nomatch h
  | succ n ih =>
    cases n with
    | zero =>
      rw [List.replicate_succ, List.replicate_zero, getTwo]
      exact fun _ _ _ h => nomatch h
    | succ n =>
      rw [List.replicate_succ, List.replicate_succ, getTwo, if_pos rfl, ← List.replicate_succ, ih]

theorem getBody_nil (one : Bool) (i : UInt8) : getBody one i [] = none := by
  cases one with
  | true => exact getOne_pad i 0
  | false => exact getTwo_pad i 0

/-- The first element of a number that has a value. -/
def valueIn (es : List (Nat × List UInt8)) (i : UInt8) : Option (List UInt8) :=
  (es.find? fun e => e.2 ≠ [] ∧ UInt8.ofNat e.1 = i).map (·.2)

theorem getBody_elements {one : Bool} {es : List (Nat × List UInt8)}
    (h : ∀ e ∈ es, Holds one e) (i : UInt8) (n : Nat) :
    getBody one i (es.flatMap (put one) ++ List.replicate n 0) = valueIn es i := by
  induction es with
  | nil =>
    rw [List.flatMap_nil, List.nil_append, getBody, getOne_pad, getTwo_pad, ite_self]
    rfl
  | cons e es ih =>
    obtain ⟨he, hes⟩ := List.forall_mem_cons.mp h
    rw [List.flatMap_cons, List.append_assoc, valueIn]
    by_cases hv : e.2 = []
    · rw [put, if_pos hv, List.nil_append, ih hes, List.find?_cons_of_neg (by simp [hv])]
      rfl
    · have hput : getBody one i (put one e ++ (es.flatMap (put one) ++ List.replicate n 0)) =
          if UInt8.ofNat e.1 = i then some e.2
          else getBody one i (es.flatMap (put one) ++ List.replicate n 0) := by
        cases one with
        | true => exact getOne_put he hv i _
        | false => exact getTwo_put he hv i _
      rw [hput]
      by_cases hi : UInt8.ofNat e.1 = i
      · rw [if_pos hi, List.find?_cons_of_pos (by simp [hv, hi])]
        rfl
      · rw [if_neg hi, ih hes, List.find?_cons_of_neg (by simp [hi])]
        rfl

/-! ## A table -/

theorem valueIn_append (es es' : List (Nat × List UInt8)) (i : UInt8) :
    valueIn (es ++ es') i = (valueIn es i).or (valueIn es' i) := by
  rw [valueIn, valueIn, valueIn, List.find?_append, Option.map_or]

/-- The element of one number of the table. -/
theorem valueIn_part {o : Option Nat} (ho : ∀ id ∈ o, id ≤ 255) (v : Option (List UInt8))
    (i : UInt8) : valueIn (part o v) i =
      if o = some i.toNat then v.filter (· ≠ []) else none := by
  cases o with
  | none => rfl
  | some id =>
    cases v with
    | none =>
      rw [Option.filter_none, ite_self]
      rfl
    | some x =>
      have hid := ho id rfl
      have hiff : UInt8.ofNat id = i ↔ id = i.toNat := by
        rw [← UInt8.toNat_inj, UInt8.toNat_ofNat_of_lt' (show id < 256 by omega)]
      rw [part, Option.bind_some, Option.map_some, Option.toList_some, valueIn, List.find?_singleton]
      by_cases hi : id = i.toNat <;> by_cases hx : x = [] <;>
        simp [hiff, hi, hx, Option.filter]

/-- No two of the four have one number. -/
theorem ids_apart {t : ExtTable} (h : (ids t).Nodup) (n : Nat) :
    (t.mid = some n → t.audioLevel ≠ some n ∧ t.absSendTime ≠ some n ∧ t.twcc ≠ some n) ∧
      (t.audioLevel = some n → t.absSendTime ≠ some n ∧ t.twcc ≠ some n) ∧
        (t.absSendTime = some n → t.twcc ≠ some n) := by
  have hpair := List.pairwise_filterMap.mp h
  simp only [List.pairwise_cons, List.mem_cons, List.not_mem_nil, or_false, forall_eq_or_imp,
    forall_eq, id_eq] at hpair
  obtain ⟨⟨hml, hms, hmt⟩, ⟨hls, hlt⟩, hst, -⟩ := hpair
  refine ⟨fun hm => ⟨fun hl => ?_, fun hs => ?_, fun ht => ?_⟩,
    fun hl => ⟨fun hs => ?_, fun ht => ?_⟩, fun hs ht => ?_⟩
  · exact hml n hm n hl rfl
  · exact hms n hm n hs rfl
  · exact hmt n hm n ht rfl
  · exact hls n hl n hs rfl
  · exact hlt n hl n ht rfl
  · exact hst n hs n ht rfl

theorem mem_ids {t : ExtTable} {n : Nat} : n ∈ ids t ↔
    t.mid = some n ∨ t.audioLevel = some n ∨ t.absSendTime = some n ∨ t.twcc = some n := by
  simp [ids, List.reduceOption_mem_iff, eq_comm]

theorem be16_ne_nil (n : Nat) : be16 n ≠ [] := List.cons_ne_nil _ _

theorem time_ne_nil (n : Nat) : (be32 n).drop 1 ≠ [] := List.cons_ne_nil _ _

theorem filter_of_ne_nil {v : Option (List UInt8)} (h : ∀ x ∈ v, x ≠ []) :
    v.filter (· ≠ []) = v := by
  cases v with
  | none => rfl
  | some x => exact Option.filter_some_pos (decide_eq_true (h x rfl))

/-- What is read under a number is what the table has for it. -/
theorem valueIn_elements {t : ExtTable} (hids : (ids t).Nodup) (hrange : ∀ n ∈ ids t, n ≤ 255)
    (inp : ExtInput) (i : UInt8) : valueIn (elements t inp) i = valueOf t inp i.toNat := by
  obtain ⟨hmid, hlevel, hsent⟩ := ids_apart hids i.toNat
  have hl : (inp.audioLevel.map ([·])).filter (· ≠ []) = inp.audioLevel.map ([·]) :=
    filter_of_ne_nil fun x hx => by
      obtain ⟨l, -, rfl⟩ := Option.mem_map.mp hx
      exact List.cons_ne_nil _ _
  have hs : (some ((be32 (absSendTime inp.tUs)).drop 1)).filter (· ≠ []) =
      some ((be32 (absSendTime inp.tUs)).drop 1) :=
    filter_of_ne_nil fun x hx => Option.mem_some_iff.mp hx ▸ time_ne_nil _
  have ht : (inp.twccSeq.map (be16 ·.toNat)).filter (· ≠ []) = inp.twccSeq.map (be16 ·.toNat) :=
    filter_of_ne_nil fun x hx => by
      obtain ⟨s, -, rfl⟩ := Option.mem_map.mp hx
      exact be16_ne_nil _
  rw [elements, valueIn_append, valueIn_append, valueIn_append,
    valueIn_part fun n hn => hrange n (mem_ids.mpr (.inl hn)),
    valueIn_part fun n hn => hrange n (mem_ids.mpr (.inr (.inl hn))),
    valueIn_part fun n hn => hrange n (mem_ids.mpr (.inr (.inr (.inl hn)))),
    valueIn_part fun n hn => hrange n (mem_ids.mpr (.inr (.inr (.inr hn)))), hl, hs, ht, valueOf]
  by_cases h1 : t.mid = some i.toNat
  · obtain ⟨h2, h3, h4⟩ := hmid h1
    rw [if_pos h1, if_neg h2, if_neg h3, if_neg h4, if_pos h1]
    by_cases hnil : inp.mid = [] <;> simp [hnil, Option.filter]
  · by_cases h2 : t.audioLevel = some i.toNat
    · obtain ⟨h3, h4⟩ := hlevel h2
      rw [if_neg h1, if_pos h2, if_neg h3, if_neg h4, if_neg h1, if_pos h2]
      simp
    · by_cases h3 : t.absSendTime = some i.toNat
      · rw [if_neg h1, if_neg h2, if_pos h3, if_neg (hsent h3), if_neg h1, if_neg h2, if_pos h3]
        simp
      · rw [if_neg h1, if_neg h2, if_neg h3, if_neg h1, if_neg h2, if_neg h3]
        simp

theorem mem_part {o : Option Nat} {v : Option (List UInt8)} {e : Nat × List UInt8} :
    e ∈ part o v ↔ o = some e.1 ∧ v = some e.2 := by
  cases o <;> cases v <;> simp [part, Prod.ext_iff, eq_comm]

/-- The form of the table holds all that is put in. -/
theorem elements_hold {t : ExtTable} (hrange : ∀ n ∈ ids t, 1 ≤ n ∧ n ≤ 255) {inp : ExtInput}
    (hmid : inp.mid.length ≤ 16) : ∀ e ∈ elements t inp, Holds (oneByte t) e := by
  intro e he
  have hform : e.1 ∈ ids t → e.1 ≤ if oneByte t then 14 else 255 := fun hid => by
    split
    · next hone => exact (of_decide_eq_true (List.all_eq_true.mp hone e.1 hid)).2
    · exact (hrange e.1 hid).2
  have hshort : e.1 ∈ ids t ∧ e.2.length ≤ 16 := by
    simp only [elements, List.mem_append, mem_part] at he
    rcases he with ((⟨hid, hv⟩ | ⟨hid, hv⟩) | ⟨hid, hv⟩) | ⟨hid, hv⟩
    · exact ⟨mem_ids.mpr (.inl hid), Option.some.inj hv ▸ hmid⟩
    · obtain ⟨l, -, hl⟩ := Option.map_eq_some_iff.mp hv
      exact ⟨mem_ids.mpr (.inr (.inl hid)), hl ▸ Nat.le_of_ble_eq_true rfl⟩
    · exact ⟨mem_ids.mpr (.inr (.inr (.inl hid))),
        Option.some.inj hv ▸ Nat.le_of_ble_eq_true rfl⟩
    · obtain ⟨s, -, hs⟩ := Option.map_eq_some_iff.mp hv
      exact ⟨mem_ids.mpr (.inr (.inr (.inr hid))), hs ▸ Nat.le_of_ble_eq_true rfl⟩
  exact ⟨(hrange e.1 hshort.1).1, hform hshort.1, hshort.2⟩

theorem length_put {one : Bool} {e : Nat × List UInt8} (he : Holds one e) :
    (put one e).length ≤ 18 := by
  have := he.short
  rw [put]
  split_ifs <;> simp only [List.length_append, List.length_cons, List.length_nil] <;> omega

theorem length_flatMap_put {one : Bool} {es : List (Nat × List UInt8)}
    (h : ∀ e ∈ es, Holds one e) : (es.flatMap (put one)).length ≤ es.length * 18 := by
  induction es with
  | nil => exact Nat.zero_le _
  | cons e es ih =>
    obtain ⟨he, hes⟩ := List.forall_mem_cons.mp h
    have hput := length_put he
    have hrest := ih hes
    rw [List.flatMap_cons, List.length_append, List.length_cons]
    omega

theorem length_part (o : Option Nat) (v : Option (List UInt8)) : (part o v).length ≤ 1 :=
  Option.length_toList_le

/-- A body is made of whole words, few enough to be counted in 16 bits. -/
theorem length_body {t : ExtTable} {inp : ExtInput} {one : Bool}
    (h : ∀ e ∈ elements t inp, Holds one e) :
    (body one (elements t inp)).length % 4 = 0 ∧
      (body one (elements t inp)).length / 4 < 2 ^ 16 := by
  have hlen := length_flatMap_put h
  have hfour : (elements t inp).length ≤ 4 := by
    have h1 := length_part t.mid (some inp.mid)
    have h2 := length_part t.audioLevel (inp.audioLevel.map ([·]))
    have h3 := length_part t.absSendTime (some ((be32 (absSendTime inp.tUs)).drop 1))
    have h4 := length_part t.twcc (inp.twccSeq.map (be16 ·.toNat))
    simp only [elements, List.length_append]
    omega
  rw [body]
  simp only [List.length_append, List.length_replicate]
  omega

/-- **What is built holds the values of the table, or is nothing when there are none.** -/
theorem build_spec {t : ExtTable} (hids : (ids t).Nodup) (hrange : ∀ n ∈ ids t, 1 ≤ n ∧ n ≤ 255)
    {inp : ExtInput} (hmid : inp.mid.length ≤ 16) :
    (build t inp = [] ∧ ∀ i : UInt8, valueOf t inp i.toNat = none) ∨
      ∃ p1 p2 b, build t inp = p1 :: p2 :: (be16 (b.length / 4) ++ b) ∧ b.length % 4 = 0 ∧
        b.length / 4 < 2 ^ 16 ∧ ∀ i ≠ 0,
          extGet (some (.ofNat (of16 p1 p2), b)) i = valueOf t inp i.toNat := by
  have hold := elements_hold hrange hmid
  obtain ⟨hwhole, hfew⟩ := length_body hold
  have hvalue := fun i => valueIn_elements hids (fun n hn => (hrange n hn).2) inp i
  have hget := fun i => getBody_elements hold i
    ((4 - ((elements t inp).flatMap (put (oneByte t))).length % 4) % 4)
  change ∀ i, getBody (oneByte t) i (body (oneByte t) (elements t inp)) = _ at hget
  rw [build]
  generalize body (oneByte t) (elements t inp) = b at hwhole hfew hget ⊢
  rw [Nat.mod_eq_of_lt hfew]
  split
  · next hzero =>
    refine .inl ⟨rfl, fun i => ?_⟩
    have hnil : b = [] := List.length_eq_zero_iff.mp (by omega)
    rw [← hvalue, ← hget, hnil]
    exact getBody_nil _ i
  · right
    cases hone : oneByte t with
    | true =>
      refine ⟨0xbe, 0xde, b, rfl, hwhole, hfew, fun i hi => ?_⟩
      rw [← hvalue, ← hget, hone, extGet, if_neg hi]
      rfl
    | false =>
      refine ⟨0x10, 0x00, b, rfl, hwhole, hfew, fun i hi => ?_⟩
      rw [← hvalue, ← hget, hone, extGet, if_neg hi]
      rfl

/-! ## The packet -/

/-- The fields of a header, and what follows it. -/
def headed (b0 b1 : UInt8) (mapped : Mapped) (ssrc : UInt32) (rest : List UInt8) : List UInt8 :=
  b0 :: b1 :: (be16 mapped.seq.toNat ++ be32 mapped.ts.toNat ++ be32 ssrc.toNat ++ rest)

section Headed

variable (b0 b1 : UInt8) (mapped : Mapped) (ssrc : UInt32)

theorem length_headed (rest : List UInt8) :
    (headed b0 b1 mapped ssrc rest).length = 12 + rest.length := by
  simp only [headed, List.length_cons, List.length_append, Rtcp.length_be16, Rtcp.length_be32]
  omega

/-- The fields are read as they were written. -/
theorem fields_headed (rest : List UInt8) (hlen : Nat) (ext : Option (UInt16 × List UInt8)) :
    let q := rtpOf (headed b0 b1 mapped ssrc rest) hlen ext
    q.seq.toBitVec = mapped.seq ∧ q.ts.toBitVec = mapped.ts ∧ q.ssrc = ssrc ∧
      q.pt = b1 &&& 0x7f ∧ q.marker = decide (b1 &&& 0x80 ≠ 0) := by
  have hseq : UInt16.ofNat (of16 (.ofNat (mapped.seq.toNat / 256)) (.ofNat mapped.seq.toNat)) =
      .ofNat mapped.seq.toNat := by
    rw [of16_be16, Nat.mod_eq_of_lt mapped.seq.isLt]
  have hts := congrArg UInt32.ofNat (of32_be32 mapped.ts.isLt)
  have hssrc := congrArg UInt32.ofNat (of32_be32 ssrc.toNat_lt)
  rw [UInt32.ofNat_toNat] at hssrc
  refine ⟨?_, ?_, hssrc, rfl, rfl⟩
  · exact (congrArg UInt16.toBitVec hseq).trans (by simp)
  · exact (congrArg UInt32.toBitVec hts).trans (by simp)

theorem parse_plain (hversion : b0 >>> 6 = 2) (hcount : b0 &&& 0x0f = 0)
    (hext : b0 &&& 0x10 = 0) (rest : List UInt8) :
    parseRtp (headed b0 b1 mapped ssrc rest) =
      some (rtpOf (headed b0 b1 mapped ssrc rest) 12 none) := by
  have hfirst : byteAt (headed b0 b1 mapped ssrc rest) 0 = b0 := rfl
  have hlen : (headed b0 b1 mapped ssrc rest).length = 12 + rest.length :=
    length_headed b0 b1 mapped ssrc rest
  rw [parseRtp, hfirst, hcount, hext, hlen, if_neg]
  · simp
  · rw [not_or, not_not]
    exact ⟨by omega, hversion⟩

theorem parse_extended (hversion : b0 >>> 6 = 2) (hcount : b0 &&& 0x0f = 0)
    (hext : b0 &&& 0x10 ≠ 0) (p1 p2 : UInt8) {b : List UInt8} (hwhole : b.length % 4 = 0)
    (hfew : b.length / 4 < 2 ^ 16) (rest : List UInt8) :
    let out := headed b0 b1 mapped ssrc (p1 :: p2 :: (be16 (b.length / 4) ++ (b ++ rest)))
    parseRtp out = some (rtpOf out (16 + b.length) (some (.ofNat (of16 p1 p2), b))) := by
  intro out
  have hfirst : byteAt out 0 = b0 := rfl
  have hlen : out.length = 16 + b.length + rest.length := by
    rw [length_headed]
    simp only [List.length_cons, List.length_append, Rtcp.length_be16]
    omega
  have hwords : (u16At out 14).toNat = b.length / 4 := by
    have hread : u16At out 14 =
        .ofNat (of16 (.ofNat (b.length / 4 / 256)) (.ofNat (b.length / 4))) := rfl
    rw [hread, of16_be16, Nat.mod_eq_of_lt hfew, UInt16.toNat_ofNat_of_lt' hfew]
  have hbody : (out.drop 16).take b.length = b := List.take_left
  have hfour : b.length / 4 * 4 = b.length := by omega
  rw [parseRtp, hfirst, hcount, if_neg, if_neg, if_pos hext, if_neg]
  · dsimp only
    rw [show (0 : UInt8).toNat = 0 from rfl, hwords, hfour, hbody, if_neg]
    · rfl
    · omega
  · rw [show (0 : UInt8).toNat = 0 from rfl]
    omega
  · rw [show (0 : UInt8).toNat = 0 from rfl]
    omega
  · rw [not_or, not_not]
    exact ⟨by omega, hversion⟩

end Headed

theorem downPacket_eq (row : DownRow) (p : Pkt) (mapped : Mapped) (tUs : Nat) (twcc : UInt16) :
    let b0 := 0x80 ||| (byteAt p.data 0 &&& 0x20)
    let ext := build row.ext (downInput row p tUs twcc)
    downPacket row p mapped tUs twcc =
      headed (if 0 < ext.length then b0 ||| 0x10 else b0) (ptByte1 (byteAt p.data 1) row.pt)
        mapped row.ssrc (ext ++ p.data.drop p.hlen) := by
  simp only [downPacket, headed, List.append_assoc]

theorem marker_of_parse {b : List UInt8} {r : Rtp} (h : parseRtp b = some r) :
    r.marker = decide (byteAt b 1 &&& 0x80 ≠ 0) := by
  rw [parseRtp] at h
  dsimp only at h
  split_ifs at h <;> exact Option.some.inj h ▸ rfl

/-- **What goes down is read as it was built.** -/
theorem down_packet_read (row : DownRow) (p : Pkt) (mapped : Mapped) (tUs : Nat) (twcc : UInt16)
    {r : Rtp} (hr : parseRtp p.data = some r) (hlen : p.hlen = r.hlen)
    (hids : (ids row.ext).Nodup) (hrange : ∀ n ∈ ids row.ext, 1 ≤ n ∧ n ≤ 255)
    (hmid : row.mid.length ≤ 16) :
    let out := downPacket row p mapped tUs twcc
    ∃ q, parseRtp out = some q ∧ byteAt out 0 >>> 6 = 2 ∧ byteAt out 0 &&& 0x0f = 0 ∧
      q.seq.toBitVec = mapped.seq ∧ q.ts.toBitVec = mapped.ts ∧ q.ssrc = row.ssrc ∧
      q.pt = row.pt &&& 0x7f ∧ q.marker = r.marker ∧
      byteAt out 0 &&& 0x20 = byteAt p.data 0 &&& 0x20 ∧
      out.drop q.hlen = p.data.drop r.hlen ∧
      ∀ i ≠ 0, extGet q.ext i = valueOf row.ext (downInput row p tUs twcc) i.toNat := by
  intro out
  obtain ⟨⟨hv, hc, hx, hpad⟩, hv', hc', hx', hpad'⟩ := first_byte (byteAt p.data 0)
  obtain ⟨hpt, hmark⟩ := second_byte (byteAt p.data 1) row.pt
  have hmarker := marker_of_parse hr
  rw [← hmark] at hmarker
  rw [← hlen]
  have hshort : (downInput row p tUs twcc).mid.length ≤ 16 := hmid
  rcases build_spec hids hrange hshort with
    ⟨hnil, hnone⟩ | ⟨p1, p2, b, hb, hwhole, hfew, hget⟩
  · have hout : out = headed (0x80 ||| (byteAt p.data 0 &&& 0x20))
        (ptByte1 (byteAt p.data 1) row.pt) mapped row.ssrc (p.data.drop p.hlen) := by
      rw [show out = _ from downPacket_eq row p mapped tUs twcc, hnil]
      rfl
    rw [hout]
    obtain ⟨hseq, hts, hssrc, hq, hm⟩ := fields_headed (0x80 ||| (byteAt p.data 0 &&& 0x20))
      (ptByte1 (byteAt p.data 1) row.pt) mapped row.ssrc (p.data.drop p.hlen) 12 none
    exact ⟨_, parse_plain _ _ mapped row.ssrc hv hc hx _, hv, hc, hseq, hts, hssrc, hq.trans hpt,
      hm.trans hmarker.symm, hpad, rfl, fun i _ => (hnone i).symm⟩
  · have hout : out = headed (0x80 ||| (byteAt p.data 0 &&& 0x20) ||| 0x10)
        (ptByte1 (byteAt p.data 1) row.pt) mapped row.ssrc
        (p1 :: p2 :: (be16 (b.length / 4) ++ (b ++ p.data.drop p.hlen))) := by
      have hpos : 0 < (build row.ext (downInput row p tUs twcc)).length := by
        rw [hb]
        exact Nat.succ_pos _
      rw [show out = _ from downPacket_eq row p mapped tUs twcc, if_pos hpos, hb]
      simp only [List.cons_append, List.append_assoc]
    rw [hout]
    obtain ⟨hseq, hts, hssrc, hq, hm⟩ :=
      fields_headed (0x80 ||| (byteAt p.data 0 &&& 0x20) ||| 0x10)
        (ptByte1 (byteAt p.data 1) row.pt) mapped row.ssrc
        (p1 :: p2 :: (be16 (b.length / 4) ++ (b ++ p.data.drop p.hlen))) (16 + b.length)
        (some (.ofNat (of16 p1 p2), b))
    refine ⟨_, parse_extended _ _ mapped row.ssrc hv' hc' hx' p1 p2 hwhole hfew _, hv', hc', hseq,
      hts, hssrc, hq.trans hpt, hm.trans hmarker.symm, hpad', ?_, hget⟩
    exact (List.drop_drop ..).symm.trans List.drop_left

/-- A row whose table has a number that does not fit the form of one byte. -/
def wideRow (pt : UInt8) : DownRow where
  ssrc := 7
  pt := pt
  mid := [49, 50]
  ext := { mid := some 1, audioLevel := some 20, absSendTime := some 3, twcc := none }

def plainPkt : Pkt where
  data := [0xa0, 0xe0, 0, 1, 0, 0, 0, 2, 0, 0, 0, 3, 42]
  hlen := 12
  audioLevel := some 0x30

def mappedTo : Mapped := { seq := 500, ts := 9000, switched := false }

theorem down_packet_read_wideRow :
    ∃ q, parseRtp (downPacket (wideRow 96) plainPkt mappedTo 1000000 8) = some q ∧ q.pt = 96 ∧
      (downPacket (wideRow 96) plainPkt mappedTo 1000000 8).drop q.hlen = [42] ∧
      extGet q.ext 1 = some [49, 50] ∧ extGet q.ext 20 = some [0x30] ∧
      extGet q.ext 3 = some [4, 0, 0] ∧ extGet q.ext 6 = none := by
  obtain ⟨q, hq, -, -, -, -, -, hpt, -, -, hload, hext⟩ := down_packet_read (wideRow 96) plainPkt
    mappedTo 1000000 8 (r := rtpOf plainPkt.data 12 none) (by decide +kernel) rfl (by decide)
    (by decide) (by decide)
  exact ⟨q, hq, hpt, hload, hext 1 (by decide), hext 20 (by decide), hext 3 (by decide),
    hext 6 (by decide)⟩

/-- The payload type that a client has declared for its codec. -/
def declared : Sub.JoinCodec :=
  { kind := .audio, pt := 200, name := "opus", fmtp := none, rtxPt := none }

/-- A client may declare 200, the row gets it, and its packets have 72. -/
theorem down_packet_pt_masked :
    (((Sub.Table.new .two 0).seed [declared] []).1.sync
        [{ trackId := "a", room := "r", kind := .audio, cls := .full, codec := "opus" }] 0
        [1, 2]).map (fun x => x.2.st.rows.map (·.pt)) = some [200] ∧
    ¬ ∀ (row : DownRow) (p : Pkt) (mapped : Mapped) (tUs : Nat) (twcc : UInt16) (r : Rtp),
      parseRtp p.data = some r → p.hlen = r.hlen → (ids row.ext).Nodup →
      (∀ n ∈ ids row.ext, 1 ≤ n ∧ n ≤ 255) → row.mid.length ≤ 16 →
      ∃ q, parseRtp (downPacket row p mapped tUs twcc) = some q ∧ q.pt = row.pt := by
  refine ⟨by decide +kernel, fun h => ?_⟩
  obtain ⟨q, hq, hpt⟩ := h (wideRow 200) plainPkt mappedTo 1000000 8 (rtpOf plainPkt.data 12 none)
    (by decide +kernel) rfl (by decide) (by decide) (by decide)
  have hmasked : (parseRtp (downPacket (wideRow 200) plainPkt mappedTo 1000000 8)).map (·.pt) =
      some 72 := by
    decide +kernel
  rw [hq, Option.map_some, hpt] at hmasked
  exact absurd hmasked (by decide)

end OxlensSfu.Fwd
