import OxlensSfu.Forward.Packet
import OxlensSfu.Lib.Machine
import OxlensSfu.Media.Publish

/-!
# Which track a packet belongs to

The way of an incoming RTP packet to its track, following `on_rtp` of
`crates/oxsfud/src/fwd/mod.rs` and `is_rtx`, `unwrap_rtx`, `index_add`, `index_remove` and `learn`
of `crates/oxsfud/src/pub/mod.rs`. The ingress index maps an SSRC to a track. What it does not
know is learned from the extensions: a repair-rid names the layer that the packet repairs, a rid
the layer that it is media of, and the first packet of a layer creates its track. A packet whose
SSRC is not that of the track is then unwrapped as a retransmission.

That comparison is the only thing that tells media from retransmissions. `known_sound_iff` says
when it does so rightly for a packet with a known rid: when its SSRC is the one its layer was
learned with. `media_never_rtx_iff` says the same of every packet of a run.

A track is an `Arc` that its stream and the index share, so both hold places in a heap; so is a
stream. What `on_ingress`, `on_repair` and `forward` keep of a packet is not modelled: it has no
part in the classification.
-/

namespace OxlensSfu.Ingress

open Std
open OxlensSfu.Fwd (Rtp parseRtp extGet byteAt u16At ptByte1)
open OxlensSfu.Media (ExtIds)
open OxlensSfu.Rtcp (be16 be32)

/-! ## Texts of extensions -/

def isCont (b : UInt8) : Bool := b &&& 0xc0 == 0x80

/-- The bits of a continuation byte. -/
def contBits (b : UInt8) : Nat := (b &&& 0x3f).toNat

/-- The bytes that may follow the head of three bytes. -/
def second3 (b c : UInt8) : Bool :=
  (b == 0xe0 && 0xa0 ≤ c && c ≤ 0xbf) || (0xe1 ≤ b && b ≤ 0xec && 0x80 ≤ c && c ≤ 0xbf) ||
    (b == 0xed && 0x80 ≤ c && c ≤ 0x9f) || (0xee ≤ b && b ≤ 0xef && 0x80 ≤ c && c ≤ 0xbf)

/-- The bytes that may follow the head of four bytes. -/
def second4 (b c : UInt8) : Bool :=
  (b == 0xf0 && 0x90 ≤ c && c ≤ 0xbf) || (0xf1 ≤ b && b ≤ 0xf3 && 0x80 ≤ c && c ≤ 0xbf) ||
    (b == 0xf4 && 0x80 ≤ c && c ≤ 0x8f)

def replacement : Char := '\uFFFD'

/-- `String::from_utf8_lossy`: each longest part of a character that goes no further is replaced. -/
def lossyChars : List UInt8 → List Char
  | [] => []
  | b :: rest =>
    if b < 0x80 then Char.ofNat b.toNat :: lossyChars rest
    else if 0xc2 ≤ b ∧ b ≤ 0xdf then
      match rest with
      | c :: r₁ =>
        if isCont c then
          Char.ofNat ((b &&& 0x1f).toNat * 2 ^ 6 + contBits c) :: lossyChars r₁
        else replacement :: lossyChars (c :: r₁)
      | [] => [replacement]
    else if 0xe0 ≤ b ∧ b ≤ 0xef then
      match rest with
      | c :: r₁ =>
        if second3 b c then
          match r₁ with
          | d :: r₂ =>
            if isCont d then
              Char.ofNat ((b &&& 0x0f).toNat * 2 ^ 12 + contBits c * 2 ^ 6 + contBits d) ::
                lossyChars r₂
            else replacement :: lossyChars (d :: r₂)
          | [] => [replacement]
        else replacement :: lossyChars (c :: r₁)
      | [] => [replacement]
    else if 0xf0 ≤ b ∧ b ≤ 0xf4 then
      match rest with
      | c :: r₁ =>
        if second4 b c then
          match r₁ with
          | d :: r₂ =>
            if isCont d then
              match r₂ with
              | e :: r₃ =>
                if isCont e then
                  Char.ofNat ((b &&& 0x07).toNat * 2 ^ 18 + contBits c * 2 ^ 12 +
                    contBits d * 2 ^ 6 + contBits e) :: lossyChars r₃
                else replacement :: lossyChars (e :: r₃)
              | [] => [replacement]
            else replacement :: lossyChars (d :: r₂)
          | [] => [replacement]
        else replacement :: lossyChars (c :: r₁)
      | [] => [replacement]
    else replacement :: lossyChars rest

def fromUtf8Lossy (b : List UInt8) : String := String.ofList (lossyChars b)

/-- The layer that a rid names. -/
def spatial (r : String) : Option UInt8 :=
  if r = "l" then some 0 else if r = "h" then some 1 else none

/-! ## Streams and tracks -/

/-- What a publication declares of a stream. -/
structure StreamInit where
  trackId : String
  mid : String
  pt : UInt8
  simulcast : Bool
  ssrc : UInt32
  rtxSsrc : Option UInt32
  deriving DecidableEq

structure PubStream where
  trackId : String := ""
  mid : String := ""
  pt : UInt8 := 0
  simulcast : Bool := false
  /-- The places of its physical tracks. -/
  tracks : List Nat := []
  deriving DecidableEq

structure PubTrack where
  ssrc : UInt32 := 0
  rtxSsrc : Option UInt32 := none
  rid : Option UInt8 := none
  /-- The place of its stream. -/
  stream : Nat := 0
  deriving DecidableEq

/-- The publishing side of a connection, with the streams of its user. `drops` are the reasons
counted so far. -/
structure Transport where
  ids : ExtIds := {}
  ctx : TreeMap String Nat := ∅
  streams : Nat → PubStream := fun _ => {}
  streamsSize : Nat := 0
  tracks : Nat → PubTrack := fun _ => {}
  tracksSize : Nat := 0
  ingress : UInt32 → Option Nat := fun _ => none
  drops : List String := []

namespace Transport

def dropCount (s : Transport) (reason : String) : Transport :=
  { s with drops := s.drops ++ [reason] }

def indexAdd (s : Transport) (t : Nat) : Transport :=
  let n := Function.update s.ingress (s.tracks t).ssrc (some t)
  { s with ingress :=
      match (s.tracks t).rtxSsrc with
      | some r => Function.update n r (some t)
      | none => n }

def indexRemove (s : Transport) (r : Nat) : Transport :=
  { s with ingress := fun x => (s.ingress x).filter fun t => (s.tracks t).stream != r }

/-- A new physical track joins its stream. -/
def addTrack (s : Transport) (t : PubTrack) : Transport :=
  let st := s.streams t.stream
  { s with
    tracks := Function.update s.tracks s.tracksSize t
    tracksSize := s.tracksSize + 1
    streams := Function.update s.streams t.stream
      { st with tracks := st.tracks ++ [s.tracksSize] } }

/-- A new physical track joins its stream and the index. -/
def attach (s : Transport) (t : PubTrack) : Transport := (s.addTrack t).indexAdd s.tracksSize

/-- One track of `publish`. The track of a simulcast stream waits for its first packet. -/
def publish (s : Transport) (i : StreamInit) : Transport :=
  let r := s.streamsSize
  let s := { s with
    ctx := s.ctx.insert i.trackId r
    streams := Function.update s.streams r
      { trackId := i.trackId, mid := i.mid, pt := i.pt, simulcast := i.simulcast }
    streamsSize := r + 1 }
  if i.simulcast then s
  else s.attach { ssrc := i.ssrc, rtxSsrc := i.rtxSsrc, rid := none, stream := r }

def dropStream (s : Transport) (trackId : String) : Transport :=
  match s.ctx[trackId]? with
  | some r => { s with ctx := s.ctx.erase trackId }.indexRemove r
  | none => s

/-! ## Learning -/

/-- The text of an extension of a packet. -/
def text (rtp : Rtp) (id : UInt8) : Option String := (extGet rtp.ext id).map fromUtf8Lossy

def rid (s : Transport) (rtp : Rtp) : Option String := text rtp s.ids.rid

def repairRid (s : Transport) (rtp : Rtp) : Option String := text rtp s.ids.repairRid

def mid (s : Transport) (rtp : Rtp) : Option String := text rtp s.ids.mid

/-- The stream that a packet with a rid is of: the first with layers that has its mid. -/
def target (s : Transport) (rtp : Rtp) : Option Nat :=
  (s.ctx.toList.map (·.2)).find? fun r => (s.streams r).simulcast &&
    ((s.mid rtp).map (· == (s.streams r).mid)).getD true

def layer (s : Transport) (r : Nat) (sp : UInt8) : Option Nat :=
  (s.streams r).tracks.find? fun t => (s.tracks t).rid == some sp

def setRtx (s : Transport) (t : Nat) (x : UInt32) : Transport :=
  { s with tracks := Function.update s.tracks t { s.tracks t with rtxSsrc := some x } }

def learn (s : Transport) (rtp : Rtp) : Transport × Option Nat :=
  match s.target rtp with
  | none => (s, none)
  | some r =>
    match s.repairRid rtp with
    | some rrid =>
      match (spatial rrid).bind (s.layer r) with
      | none => (s, none)
      | some base => ((s.setRtx base rtp.ssrc).indexAdd base, some base)
    | none =>
      match s.rid rtp with
      | none => (s, none)
      | some rid =>
        match spatial rid with
        | none => (s.dropCount "rid_unknown", none)
        | some sp =>
          match s.layer r sp with
          | some t => (s, some t)
          | none => (s.attach { ssrc := rtp.ssrc, rid := some sp, stream := r }, some s.tracksSize)

/-! ## Packets -/

def isRtx (s : Transport) (t : Nat) (ssrc : UInt32) : Bool := ssrc != (s.tracks t).ssrc

/-- The packet that a retransmission carries, with the number in its first two bytes of payload. -/
def unwrapRtx (s : Transport) (t : Nat) (plain : List UInt8) (hlen : Nat) :
    Option (UInt16 × List UInt8) :=
  if plain.length < hlen + 2 ∨ hlen < 12 then none
  else
    let osn := u16At plain hlen
    some (osn, byteAt plain 0 :: ptByte1 (byteAt plain 1) (s.streams (s.tracks t).stream).pt ::
      (be16 osn.toNat ++ (plain.take 8).drop 4 ++ be32 (s.tracks t).ssrc.toNat ++
        (plain.take hlen).drop 12 ++ plain.drop (hlen + 2)))

/-- What becomes of a packet: it is dropped, passed to `unwrap_rtx`, with the packet in it if that
can be read, or taken as media of a track. -/
inductive Fate where
  | dropped
  | unwrapped (t : Nat) (orig : Option Rtp)
  | media (t : Nat) (rtp : Rtp)
  deriving DecidableEq

/-- The track of a packet: from the index, or learned. -/
def trackOf (s : Transport) (rtp : Rtp) : Transport × Option Nat :=
  match s.ingress rtp.ssrc with
  | some t => (s, some t)
  | none => s.learn rtp

def onRtp (s : Transport) (plain : List UInt8) : Transport × Fate :=
  match parseRtp plain with
  | none => (s.dropCount "rtp_malformed", .dropped)
  | some rtp =>
    match s.trackOf rtp with
    | (s, none) => (s.dropCount "rtp_unknown_ssrc", .dropped)
    | (s, some t) =>
      if s.isRtx t rtp.ssrc then
        match (s.unwrapRtx t plain rtp.hlen).bind fun fixed => parseRtp fixed.2 with
        | none => (s.dropCount "rtp_malformed", .unwrapped t none)
        | some orig => (s, .unwrapped t (some orig))
      else (s, .media t rtp)

end Transport

/-! ## Runs -/

inductive Op where
  | extIds (ids : ExtIds)
  | publish (i : StreamInit)
  | dropStream (trackId : String)
  | rtp (plain : List UInt8)

def Transport.apply (s : Transport) : Op → Transport
  | .extIds ids => { s with ids := ids }
  | .publish i => s.publish i
  | .dropStream trackId => s.dropStream trackId
  | .rtp plain => (s.onRtp plain).1

/-- The connection as a machine: anything may happen at any time. -/
def machine : Machine Transport Op where
  ok _ _ := True
  next s o := s.apply o

/-- The connection after a sequence of operations. -/
def after (ops : List Op) : Transport := machine.exec {} ops

/-! ## What a packet carries -/

/-- The stream and the layer of a packet with a known rid and no repair-rid. -/
def Transport.known (s : Transport) (rtp : Rtp) : Option (Nat × UInt8) :=
  match s.target rtp, s.repairRid rtp, (s.rid rtp).bind spatial with
  | some r, none, some sp => some (r, sp)
  | _, _, _ => none

/-- The SSRC was declared or learned as that of the retransmissions of track `t`, at some point of
the run. -/
def Declared (ops : List Op) (t : Nat) (x : UInt32) : Prop :=
  ∃ l, l <+: ops ∧ ((after l).tracks t).rtxSsrc = some x

/-- **Media is told from retransmissions**, for one packet after a run: what is unwrapped is a
retransmission, and media with a known rid is taken as media of that layer. -/
structure Sound (ops : List Op) (plain : List UInt8) : Prop where
  unwrapped : ∀ t orig, ((after ops).onRtp plain).2 = .unwrapped t orig →
    ∃ rtp, parseRtp plain = some rtp ∧
      (Declared ops t rtp.ssrc ∨ ((after ops).repairRid rtp).isSome)
  media : ∀ rtp r sp, parseRtp plain = some rtp → (after ops).known rtp = some (r, sp) →
    ∃ t, ((after ops).onRtp plain).2 = .media t rtp ∧
      (((after ops).onRtp plain).1.tracks t).stream = r ∧
      (((after ops).onRtp plain).1.tracks t).rid = some sp

/-- The packet has the SSRC of its layer: the index has it for the track of the layer, as the SSRC
of its media, or does not have it, and then the layer has no track yet or one of this SSRC. -/
def Transport.Settled (s : Transport) (rtp : Rtp) : Prop :=
  ∀ r sp, s.known rtp = some (r, sp) →
    match s.ingress rtp.ssrc with
    | some t => (s.tracks t).ssrc = rtp.ssrc ∧ (s.tracks t).stream = r ∧
        (s.tracks t).rid = some sp
    | none => ∀ t, s.layer r sp = some t → (s.tracks t).ssrc = rtp.ssrc

/-! ## The heap -/

/-- What the stores name is in the heap, and the tracks of a stream know it. -/
structure Transport.Books (s : Transport) : Prop where
  ctx : ∀ (id : String) (r : Nat), s.ctx[id]? = some r → r < s.streamsSize
  stream : ∀ t < s.tracksSize, (s.tracks t).stream < s.streamsSize
  own : ∀ r < s.streamsSize, ∀ t ∈ (s.streams r).tracks, t < s.tracksSize ∧
    (s.tracks t).stream = r
  index : ∀ x t, s.ingress x = some t → t < s.tracksSize

/-- What an operation does to the tracks and to the index: a track keeps its SSRC, and a new entry
is for the SSRC of the track or for that of its retransmissions. -/
structure Transport.Grows (s s' : Transport) : Prop where
  size : s.tracksSize ≤ s'.tracksSize
  ssrc : ∀ t < s.tracksSize, (s'.tracks t).ssrc = (s.tracks t).ssrc
  index : ∀ x t, s'.ingress x = some t →
    s.ingress x = some t ∨ x = (s'.tracks t).ssrc ∨ (s'.tracks t).rtxSsrc = some x

namespace Transport

theorem Grows.refl (s : Transport) : s.Grows s := ⟨le_rfl, fun _ _ => rfl, fun _ _ h => .inl h⟩

@[simp] theorem dropCount_tracks (s : Transport) (k : String) :
    (s.dropCount k).tracks = s.tracks := rfl

theorem Books.dropCount {s : Transport} (h : s.Books) (k : String) : (s.dropCount k).Books :=
  ⟨h.ctx, h.stream, h.own, h.index⟩

theorem Grows.dropCount {s s' : Transport} (h : s.Grows s') (k : String) :
    s.Grows (s'.dropCount k) :=
  ⟨h.size, h.ssrc, h.index⟩

@[simp] theorem indexAdd_tracks (s : Transport) (t : Nat) : (s.indexAdd t).tracks = s.tracks :=
  rfl

/-- The index after a track was added. -/
theorem indexAdd_ingress (s : Transport) (t : Nat) (x : UInt32) :
    (s.indexAdd t).ingress x =
      if (s.tracks t).rtxSsrc = some x ∨ x = (s.tracks t).ssrc then some t else s.ingress x := by
  rw [indexAdd]
  dsimp only
  cases hr : (s.tracks t).rtxSsrc with
  | none => simp [Function.update_apply]
  | some r =>
    simp only [Function.update_apply, Option.some.injEq, eq_comm (a := r)]
    split_ifs <;> simp_all

theorem Books.indexAdd {s : Transport} (h : s.Books) {t : Nat} (ht : t < s.tracksSize) :
    (s.indexAdd t).Books := by
  refine ⟨h.ctx, h.stream, h.own, ?_⟩
  intro x k hk
  rw [indexAdd_ingress] at hk
  split_ifs at hk with hx
  · obtain rfl := Option.some.inj hk
    exact ht
  · exact h.index x k hk

/-- Adding a track to the index after the tracks grew. -/
theorem Grows.indexAdd {s : Transport} (s' : Transport) (hs : s.tracksSize ≤ s'.tracksSize)
    (hk : ∀ t < s.tracksSize, (s'.tracks t).ssrc = (s.tracks t).ssrc)
    (hi : s'.ingress = s.ingress) (t : Nat) : s.Grows (s'.indexAdd t) := by
  refine ⟨hs, hk, ?_⟩
  intro x k hx
  rw [indexAdd_ingress, hi] at hx
  split_ifs at hx with h
  · obtain rfl := Option.some.inj hx
    exact .inr h.symm
  · exact .inl hx

theorem Books.attach {s : Transport} (h : s.Books) {t : PubTrack}
    (ht : t.stream < s.streamsSize) : (s.attach t).Books := by
  have hadd : (s.addTrack t).Books := by
    refine ⟨h.ctx, ?_, ?_, fun x k hk => Nat.lt_succ_of_lt (h.index x k hk)⟩
    · intro k hk
      dsimp only [addTrack] at hk ⊢
      by_cases hkt : k = s.tracksSize
      · subst hkt
        rwa [Function.update_self]
      · rw [Function.update_of_ne hkt]
        exact h.stream k (by omega)
    · intro r hr k hk
      dsimp only [addTrack] at hk ⊢
      have hold : k ∈ (s.streams r).tracks → k < s.tracksSize + 1 ∧
          (Function.update s.tracks s.tracksSize t k).stream = r := fun hmem => by
        obtain ⟨hlt, hown⟩ := h.own r hr k hmem
        rw [Function.update_of_ne (Nat.ne_of_lt hlt)]
        exact ⟨Nat.lt_succ_of_lt hlt, hown⟩
      by_cases hrt : r = t.stream
      · subst hrt
        rw [Function.update_self] at hk
        rcases List.mem_append.1 hk with hmem | hmem
        · exact hold hmem
        · obtain rfl := List.mem_singleton.1 hmem
          exact ⟨Nat.lt_succ_self _, by rw [Function.update_self]⟩
      · rw [Function.update_of_ne hrt] at hk
        exact hold hk
  exact hadd.indexAdd (Nat.lt_succ_self _)

@[simp] theorem attach_tracks (s : Transport) (t : PubTrack) :
    (s.attach t).tracks = Function.update s.tracks s.tracksSize t := rfl

theorem Grows.attach {s : Transport} (s' : Transport) (ht : s'.tracks = s.tracks)
    (hn : s'.tracksSize = s.tracksSize) (hi : s'.ingress = s.ingress) (t : PubTrack) :
    s.Grows (s'.attach t) := by
  refine Grows.indexAdd (s'.addTrack t) ?_ ?_ hi _
  · exact hn ▸ Nat.le_succ _
  · intro k hk
    dsimp only [addTrack]
    rw [Function.update_of_ne (by omega), ht]

theorem Books.setRtx {s : Transport} (h : s.Books) (t : Nat) (x : UInt32) :
    (s.setRtx t x).Books := by
  have hstream : ∀ k, ((s.setRtx t x).tracks k).stream = (s.tracks k).stream := fun k => by
    by_cases hk : k = t
    · subst hk
      simp [Transport.setRtx]
    · simp [Transport.setRtx, Function.update_of_ne hk]
  refine ⟨h.ctx, ?_, ?_, h.index⟩
  · intro k hk
    rw [hstream]
    exact h.stream k hk
  · intro r hr k hk
    rw [hstream]
    exact h.own r hr k hk

/-! ## Learning -/

theorem target_lt {s : Transport} (h : s.Books) {rtp : Rtp} {r : Nat}
    (hr : s.target rtp = some r) : r < s.streamsSize := by
  obtain ⟨p, hp, rfl⟩ := List.mem_map.1 (List.mem_of_find?_eq_some hr)
  exact h.ctx p.1 p.2 (TreeMap.mem_toList_iff_getElem?_eq_some.1 hp)

theorem layer_spec {s : Transport} (h : s.Books) {r t : Nat} {sp : UInt8}
    (hr : r < s.streamsSize) (ht : s.layer r sp = some t) :
    t < s.tracksSize ∧ (s.tracks t).stream = r ∧ (s.tracks t).rid = some sp := by
  obtain ⟨hlt, hown⟩ := h.own r hr t (List.mem_of_find?_eq_some ht)
  exact ⟨hlt, hown, by simpa using List.find?_some ht⟩

/-- What `learn` does: nothing but counting, a layer found by its rid, a new SSRC for the
retransmissions of a layer, or a new layer. -/
inductive Learned (s : Transport) (rtp : Rtp) : Transport × Option Nat → Prop
  | nothing : s.known rtp = none → Learned s rtp (s, none)
  | unknown : s.known rtp = none → Learned s rtp (s.dropCount "rid_unknown", none)
  | repairs {r base : Nat} {sp : UInt8} : s.known rtp = none → (s.repairRid rtp).isSome →
      r < s.streamsSize → s.layer r sp = some base →
      Learned s rtp ((s.setRtx base rtp.ssrc).indexAdd base, some base)
  | again {r t : Nat} {sp : UInt8} : s.known rtp = some (r, sp) → s.layer r sp = some t →
      Learned s rtp (s, some t)
  | fresh {r : Nat} {sp : UInt8} : s.known rtp = some (r, sp) → s.layer r sp = none →
      Learned s rtp (s.attach { ssrc := rtp.ssrc, rid := some sp, stream := r },
        some s.tracksSize)

theorem learn_spec {s : Transport} (h : s.Books) (rtp : Rtp) : s.Learned rtp (s.learn rtp) := by
  rw [learn]
  cases hr : s.target rtp with
  | none => exact .nothing (by simp [known, hr])
  | some r =>
    cases hrr : s.repairRid rtp with
    | some rrid =>
      have hnone : s.known rtp = none := by simp [known, hrr]
      dsimp only
      cases hb : (spatial rrid).bind (s.layer r) with
      | none => exact .nothing hnone
      | some base =>
        obtain ⟨sp, -, hl⟩ := Option.bind_eq_some_iff.1 hb
        exact .repairs hnone (by simp [hrr]) (target_lt h hr) hl
    | none =>
      dsimp only
      cases hrid : s.rid rtp with
      | none => exact .nothing (by simp [known, hr, hrr, hrid])
      | some rid =>
        dsimp only
        cases hsp : spatial rid with
        | none => exact .unknown (by simp [known, hr, hrr, hrid, hsp])
        | some sp =>
          have hknown : s.known rtp = some (r, sp) := by simp [known, hr, hrr, hrid, hsp]
          dsimp only
          cases hl : s.layer r sp with
          | none => exact .fresh hknown hl
          | some t => exact .again hknown hl

theorem known_lt {s : Transport} (h : s.Books) {rtp : Rtp} {r : Nat} {sp : UInt8}
    (hk : s.known rtp = some (r, sp)) : r < s.streamsSize := by
  rw [known] at hk
  split at hk
  · next hr _ _ =>
    obtain ⟨rfl, -⟩ := Prod.mk.inj (Option.some.inj hk)
    exact target_lt h hr
  · exact nomatch hk

theorem Learned.books {s : Transport} {rtp : Rtp} {p : Transport × Option Nat}
    (hl : s.Learned rtp p) (h : s.Books) : p.1.Books := by
  cases hl with
  | nothing => exact h
  | unknown => exact h.dropCount _
  | repairs _ _ hr hlay => exact (h.setRtx _ _).indexAdd (layer_spec h hr hlay).1
  | again => exact h
  | fresh hk _ => exact h.attach (known_lt h hk)

theorem Learned.grows {s : Transport} {rtp : Rtp} {p : Transport × Option Nat}
    (hl : s.Learned rtp p) : s.Grows p.1 := by
  cases hl with
  | nothing => exact .refl s
  | unknown => exact (Grows.refl s).dropCount _
  | @repairs r base sp _ _ _ _ =>
    refine Grows.indexAdd (s := s) (s.setRtx base rtp.ssrc) (Nat.le_refl _) ?_ rfl _
    intro k _
    by_cases hk : k = base
    · subst hk
      simp [setRtx]
    · simp [setRtx, Function.update_of_ne hk]
  | again => exact .refl s
  | fresh => exact Grows.attach s rfl rfl rfl _

/-! ## Operations -/

theorem trackOf_known {s : Transport} {rtp : Rtp} {t : Nat} (h : s.ingress rtp.ssrc = some t) :
    s.trackOf rtp = (s, some t) := by
  rw [trackOf, h]

theorem trackOf_new {s : Transport} {rtp : Rtp} (h : s.ingress rtp.ssrc = none) :
    s.trackOf rtp = s.learn rtp := by
  rw [trackOf, h]

theorem trackOf_books {s : Transport} (h : s.Books) (rtp : Rtp) : (s.trackOf rtp).1.Books := by
  cases hi : s.ingress rtp.ssrc with
  | some t => rwa [trackOf_known hi]
  | none =>
    rw [trackOf_new hi]
    exact (learn_spec h rtp).books h

theorem trackOf_grows {s : Transport} (h : s.Books) (rtp : Rtp) : s.Grows (s.trackOf rtp).1 := by
  cases hi : s.ingress rtp.ssrc with
  | some t =>
    rw [trackOf_known hi]
    exact .refl s
  | none =>
    rw [trackOf_new hi]
    exact (learn_spec h rtp).grows

/-- A packet changes what finding its track changes, and the counts. -/
theorem onRtp_cases (s : Transport) (plain : List UInt8) :
    (parseRtp plain = none ∧ s.onRtp plain = (s.dropCount "rtp_malformed", .dropped)) ∨
    ∃ rtp, parseRtp plain = some rtp ∧
      ((s.onRtp plain).1 = (s.trackOf rtp).1 ∨
        ∃ k, (s.onRtp plain).1 = (s.trackOf rtp).1.dropCount k) ∧
      match (s.trackOf rtp).2 with
      | none => (s.onRtp plain).2 = .dropped
      | some t =>
        if rtp.ssrc = ((s.trackOf rtp).1.tracks t).ssrc then (s.onRtp plain).2 = .media t rtp
        else ∃ orig, (s.onRtp plain).2 = .unwrapped t orig := by
  cases hp : parseRtp plain with
  | none =>
    refine .inl ⟨rfl, ?_⟩
    rw [onRtp, hp]
  | some rtp =>
    refine .inr ⟨rtp, rfl, ?_⟩
    rw [onRtp, hp]
    dsimp only
    obtain ⟨s', _ | t⟩ := s.trackOf rtp
    · exact ⟨.inr ⟨_, rfl⟩, rfl⟩
    · dsimp only
      by_cases hx : rtp.ssrc = (s'.tracks t).ssrc
      · rw [if_neg (by simp [isRtx, hx]), if_pos hx]
        exact ⟨.inl rfl, rfl⟩
      · rw [if_pos (by simpa [isRtx] using hx), if_neg hx]
        split
        · exact ⟨.inr ⟨_, rfl⟩, _, rfl⟩
        · exact ⟨.inl rfl, _, rfl⟩

theorem onRtp_books {s : Transport} (h : s.Books) (plain : List UInt8) :
    (s.onRtp plain).1.Books := by
  rcases s.onRtp_cases plain with ⟨-, he⟩ | ⟨rtp, -, he | ⟨k, he⟩, -⟩
  · rw [he]
    exact h.dropCount _
  · rw [he]
    exact trackOf_books h rtp
  · rw [he]
    exact (trackOf_books h rtp).dropCount k

theorem onRtp_grows {s : Transport} (h : s.Books) (plain : List UInt8) :
    s.Grows (s.onRtp plain).1 := by
  rcases s.onRtp_cases plain with ⟨-, he⟩ | ⟨rtp, -, he | ⟨k, he⟩, -⟩
  · rw [he]
    exact (Grows.refl s).dropCount _
  · rw [he]
    exact trackOf_grows h rtp
  · rw [he]
    exact (trackOf_grows h rtp).dropCount k

/-- A new stream, which has no tracks yet. -/
def enlist (s : Transport) (i : StreamInit) : Transport :=
  { s with
    ctx := s.ctx.insert i.trackId s.streamsSize
    streams := Function.update s.streams s.streamsSize
      { trackId := i.trackId, mid := i.mid, pt := i.pt, simulcast := i.simulcast }
    streamsSize := s.streamsSize + 1 }

theorem publish_eq (s : Transport) (i : StreamInit) : s.publish i =
    if i.simulcast then s.enlist i
    else (s.enlist i).attach { ssrc := i.ssrc, rtxSsrc := i.rtxSsrc, stream := s.streamsSize } :=
  rfl

theorem Books.enlist {s : Transport} (h : s.Books) (i : StreamInit) : (s.enlist i).Books := by
  refine ⟨?_, fun t ht => Nat.lt_succ_of_lt (h.stream t ht), ?_, h.index⟩
  · intro id r hr
    rw [Transport.enlist, TreeMap.getElem?_insert] at hr
    split at hr
    · obtain rfl := Option.some.inj hr
      exact Nat.lt_succ_self _
    · exact Nat.lt_succ_of_lt (h.ctx id r hr)
  · intro r hr t ht
    by_cases hrs : r = s.streamsSize
    · subst hrs
      simp [Transport.enlist] at ht
    · simp only [Transport.enlist, Function.update_of_ne hrs] at ht
      have hr' : r < s.streamsSize + 1 := hr
      exact h.own r (by omega) t ht

theorem apply_books {s : Transport} (h : s.Books) (o : Op) : (s.apply o).Books := by
  cases o with
  | extIds ids => exact ⟨h.ctx, h.stream, h.own, h.index⟩
  | publish i =>
    rw [apply, publish_eq]
    split_ifs
    · exact h.enlist i
    · exact (h.enlist i).attach (Nat.lt_succ_self _)
  | dropStream trackId =>
    rw [apply, dropStream]
    split
    · refine ⟨?_, h.stream, h.own, ?_⟩
      · intro id r hr
        refine h.ctx id r ?_
        have hr' := hr
        simp only [indexRemove, TreeMap.getElem?_erase] at hr'
        split at hr'
        · simp at hr'
        · exact hr'
      · intro x t ht
        exact h.index x t (Option.filter_eq_some_iff.1 ht).1
    · exact h
  | rtp plain => exact onRtp_books h plain

theorem apply_grows {s : Transport} (h : s.Books) (o : Op) : s.Grows (s.apply o) := by
  cases o with
  | extIds ids => exact ⟨le_rfl, fun _ _ => rfl, fun _ _ h => .inl h⟩
  | publish i =>
    rw [apply, publish_eq]
    split_ifs
    · exact ⟨le_rfl, fun _ _ => rfl, fun _ _ h => .inl h⟩
    · exact Grows.attach (s := s) (s.enlist i) rfl rfl rfl _
  | dropStream trackId =>
    rw [apply, dropStream]
    split
    · exact ⟨le_rfl, fun _ _ => rfl, fun x t ht => .inl (Option.filter_eq_some_iff.1 ht).1⟩
    · exact .refl s
  | rtp plain => exact onRtp_grows h plain

end Transport

/-! ## Runs -/

theorem after_concat (ops : List Op) (o : Op) : after (ops ++ [o]) = (after ops).apply o := by
  rw [after, Machine.exec_append]
  rfl

theorem books_new : Transport.Books {} where
  ctx id r h := by simp at h
  stream t ht := absurd ht (Nat.not_lt_zero t)
  own r hr := absurd hr (Nat.not_lt_zero r)
  index x t h := nomatch h

/-- Every run keeps the books. -/
theorem after_books (ops : List Op) : (after ops).Books := by
  induction ops using List.reverseRecOn with
  | nil => exact books_new
  | append_singleton ops o ih =>
    rw [after_concat]
    exact Transport.apply_books ih o

theorem Declared.mono {ops ops' : List Op} {t : Nat} {x : UInt32} (h : Declared ops t x)
    (hp : ops <+: ops') : Declared ops' t x := by
  obtain ⟨l, hl, hx⟩ := h
  exact ⟨l, hl.trans hp, hx⟩

/-- **What the index knows**: an SSRC leads to a track as the SSRC of its media, or as one that was
declared or learned for its retransmissions. -/
theorem index_known (ops : List Op) : ∀ x t, (after ops).ingress x = some t →
    x = ((after ops).tracks t).ssrc ∨ Declared ops t x := by
  induction ops using List.reverseRecOn with
  | nil => exact fun x t h => nomatch h
  | append_singleton ops o ih =>
    intro x t ht
    have hg := Transport.apply_grows (after_books ops) o
    rw [after_concat] at ht ⊢
    rcases hg.index x t ht with h | h | h
    · rw [hg.ssrc t ((after_books ops).index x t h)]
      exact (ih x t h).imp_right fun hd => hd.mono (List.prefix_append _ _)
    · exact .inl h
    · refine .inr ⟨ops ++ [o], List.prefix_rfl, ?_⟩
      rwa [after_concat]

/-! ## One packet -/

/-- What a packet with a known rid meets: the track its SSRC leads to, or the track of its layer,
or none. -/
theorem settled_iff {s : Transport} {rtp : Rtp} {r : Nat} {sp : UInt8}
    (hk : s.known rtp = some (r, sp)) : s.Settled rtp ↔
      match s.ingress rtp.ssrc with
      | some t => (s.tracks t).ssrc = rtp.ssrc ∧ (s.tracks t).stream = r ∧
          (s.tracks t).rid = some sp
      | none => ∀ t, s.layer r sp = some t → (s.tracks t).ssrc = rtp.ssrc := by
  refine ⟨fun h => h r sp hk, fun h r' sp' hk' => ?_⟩
  obtain ⟨rfl, rfl⟩ := Prod.mk.inj (Option.some.inj (hk.symm.trans hk'))
  exact h

/-- **Media of a known rid is taken for what it is exactly when it has the SSRC of its layer.** -/
theorem known_sound_iff {s : Transport} (h : s.Books) {plain : List UInt8} {rtp : Rtp}
    (hp : parseRtp plain = some rtp) {r : Nat} {sp : UInt8} (hk : s.known rtp = some (r, sp)) :
    (∃ t, (s.onRtp plain).2 = .media t rtp ∧ ((s.onRtp plain).1.tracks t).stream = r ∧
      ((s.onRtp plain).1.tracks t).rid = some sp) ↔ s.Settled rtp := by
  rw [settled_iff hk]
  obtain ⟨hn, -⟩ | ⟨rtp', hp', hfst, hsnd⟩ := s.onRtp_cases plain
  · exact nomatch hn.symm.trans hp
  obtain rfl := Option.some.inj (hp'.symm.trans hp)
  have htracks : (s.onRtp plain).1.tracks = (s.trackOf rtp').1.tracks := by
    rcases hfst with he | ⟨k, he⟩ <;> rw [he]
    rfl
  rw [htracks]
  cases hi : s.ingress rtp'.ssrc with
  | some t =>
    rw [Transport.trackOf_known hi] at hsnd ⊢
    dsimp only at hsnd ⊢
    split_ifs at hsnd with hx
    · rw [hsnd]
      refine ⟨?_, fun ht => ⟨t, rfl, ht.2⟩⟩
      intro ⟨t', ht, hlay⟩
      obtain ⟨rfl, -⟩ := Transport.Fate.media.inj ht
      exact ⟨hx.symm, hlay⟩
    · obtain ⟨orig, ho⟩ := hsnd
      rw [ho]
      refine ⟨?_, fun ht => absurd ht.1.symm hx⟩
      intro ⟨t', ht, _⟩
      exact nomatch ht
  | none =>
    rw [Transport.trackOf_new hi] at hsnd ⊢
    dsimp only
    generalize hq : s.learn rtp' = q at hsnd ⊢
    have hl : s.Learned rtp' q := hq ▸ Transport.learn_spec h rtp'
    cases hl with
    | nothing hn => exact nomatch hn.symm.trans hk
    | unknown hn => exact nomatch hn.symm.trans hk
    | repairs hn => exact nomatch hn.symm.trans hk
    | again hk' hlay =>
      obtain ⟨rfl, rfl⟩ := Prod.mk.inj (Option.some.inj (hk'.symm.trans hk))
      have hspec := Transport.layer_spec h (Transport.known_lt h hk) hlay
      dsimp only at hsnd ⊢
      rw [hlay]
      split_ifs at hsnd with hx
      · rw [hsnd]
        refine ⟨fun _ t' ht' => ?_, fun _ => ⟨_, rfl, hspec.2⟩⟩
        obtain rfl := Option.some.inj ht'
        exact hx.symm
      · obtain ⟨orig, ho⟩ := hsnd
        rw [ho]
        refine ⟨?_, fun ht => absurd (ht _ rfl).symm hx⟩
        intro ⟨t', ht, _⟩
        exact nomatch ht
    | fresh hk' hlay =>
      obtain ⟨rfl, rfl⟩ := Prod.mk.inj (Option.some.inj (hk'.symm.trans hk))
      dsimp only at hsnd ⊢
      rw [Transport.attach_tracks, Function.update_self, if_pos rfl] at hsnd
      rw [hsnd, hlay, Transport.attach_tracks]
      refine ⟨?_, fun _ => ⟨_, rfl, ?_⟩⟩
      · intro _ t' ht'
        exact nomatch ht'
      · rw [Function.update_self]
        exact ⟨rfl, rfl⟩

/-- What is unwrapped though the index does not know its SSRC has a repair-rid, or a known rid. -/
theorem unwrapped_learned {s : Transport} (h : s.Books) {plain : List UInt8} {rtp : Rtp}
    (hp : parseRtp plain = some rtp) (hi : s.ingress rtp.ssrc = none) {t : Nat}
    {orig : Option Rtp} (hf : (s.onRtp plain).2 = .unwrapped t orig) :
    (s.repairRid rtp).isSome ∨ (s.known rtp).isSome := by
  obtain ⟨hn, -⟩ | ⟨rtp', hp', -, hsnd⟩ := s.onRtp_cases plain
  · exact nomatch hn.symm.trans hp
  obtain rfl := Option.some.inj (hp'.symm.trans hp)
  rw [Transport.trackOf_new hi] at hsnd
  generalize hq : s.learn rtp' = q at hsnd
  have hl : s.Learned rtp' q := hq ▸ Transport.learn_spec h rtp'
  cases hl with
  | nothing => exact nomatch hsnd.symm.trans hf
  | unknown => exact nomatch hsnd.symm.trans hf
  | repairs _ hr => exact .inl hr
  | again hk => exact .inr (by rw [hk]; rfl)
  | fresh hk => exact .inr (by rw [hk]; rfl)

/-- **One packet after a run** is told rightly exactly when it is settled. -/
theorem sound_iff (ops : List Op) (plain : List UInt8) :
    Sound ops plain ↔ ∀ rtp, parseRtp plain = some rtp → (after ops).Settled rtp := by
  have hb := after_books ops
  refine ⟨?_, ?_⟩
  · intro h rtp hp r sp hk
    exact (known_sound_iff hb hp hk).1 (h.media rtp r sp hp hk) r sp hk
  · intro h
    refine ⟨?_, fun rtp r sp hp hk => (known_sound_iff hb hp hk).2 (h rtp hp)⟩
    intro t orig hf
    obtain ⟨-, he⟩ | ⟨rtp, hp, hfst, hsnd⟩ := (after ops).onRtp_cases plain
    · rw [he] at hf
      exact nomatch hf
    refine ⟨rtp, hp, ?_⟩
    cases hi : (after ops).ingress rtp.ssrc with
    | some k =>
      rw [Transport.trackOf_known hi] at hsnd
      dsimp only at hsnd
      split_ifs at hsnd with hx
      · exact nomatch hsnd.symm.trans hf
      · obtain ⟨orig', ho⟩ := hsnd
        obtain ⟨rfl, -⟩ := Transport.Fate.unwrapped.inj (ho.symm.trans hf)
        exact .inl ((index_known ops _ _ hi).resolve_left hx)
    | none =>
      rcases unwrapped_learned hb hp hi hf with hr | hk
      · exact .inr hr
      · obtain ⟨⟨r, sp⟩, hk⟩ := Option.isSome_iff_exists.1 hk
        obtain ⟨t', hm, -⟩ := (known_sound_iff hb hp hk).2 (h rtp hp)
        exact nomatch hm.symm.trans hf

/-- **Media is never mistaken for retransmission, exactly when** every packet of the run that
carries a known rid and no repair-rid has the SSRC that the index and the layer know it by. -/
theorem media_never_rtx_iff (ops : List Op) :
    (∀ l₁ plain l₂, ops = l₁ ++ .rtp plain :: l₂ → Sound l₁ plain) ↔
      ∀ l₁ plain l₂, ops = l₁ ++ .rtp plain :: l₂ →
        ∀ rtp, parseRtp plain = some rtp → (after l₁).Settled rtp := by
  refine ⟨fun h l₁ plain l₂ e => (sound_iff l₁ plain).1 (h l₁ plain l₂ e), fun h l₁ plain l₂ e => ?_⟩
  exact (sound_iff l₁ plain).2 (h l₁ plain l₂ e)

/-- A packet of four bytes of payload whose rid, under the number 4, is `h`. -/
def highPacket (ssrc : UInt8) : List UInt8 :=
  [0x90, 96, 0, 7, 0, 0, 0, 0, 0, 0, 0, ssrc, 0xbe, 0xde, 0, 1, 0x40, 0x68, 0, 0, 1, 2, 3, 4]

/-- A simulcast stream is published, and its upper layer starts with the SSRC 1. -/
def simulcastRun : List Op :=
  [.extIds { mid := 3, rid := 4, repairRid := 5 },
    .publish { trackId := "v", mid := "0", pt := 96, simulcast := true, ssrc := 9, rtxSsrc := none },
    .rtp (highPacket 1)]

example : ((after simulcastRun).onRtp (highPacket 1)).2 =
    .media 0 (Fwd.rtpOf (highPacket 1) 20 (some (0xbede, [0x40, 0x68, 0, 0]))) := by
  decide +kernel

/-- The upper layer goes on with the SSRC 2: the packet has the same rid and no repair-rid, and two
bytes of its payload are cut out as a number. -/
theorem media_taken_for_rtx :
    ¬ ∀ (ops l₁ : List Op) (plain : List UInt8) (l₂ : List Op),
      ops = l₁ ++ .rtp plain :: l₂ → Sound l₁ plain := by
  intro h
  have hs := h _ simulcastRun (highPacket 2) [] rfl
  obtain ⟨t, ht, -⟩ := hs.media (Fwd.rtpOf (highPacket 2) 20 (some (0xbede, [0x40, 0x68, 0, 0])))
    0 1 (by decide +kernel) (by decide +kernel)
  have hf : ((after simulcastRun).onRtp (highPacket 2)).2 =
      .unwrapped 0 (some (Fwd.rtpOf
        [0x90, 96, 1, 2, 0, 0, 0, 0, 0, 0, 0, 1, 0xbe, 0xde, 0, 1, 0x40, 0x68, 0, 0, 3, 4] 20
        (some (0xbede, [0x40, 0x68, 0, 0])))) := by
    decide +kernel
  exact nomatch ht.symm.trans hf

end OxlensSfu.Ingress
