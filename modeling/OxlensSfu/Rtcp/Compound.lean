import OxlensSfu.Rtcp.Grammar
import OxlensSfu.Rtcp.Nack
import OxlensSfu.Rtcp.Stats
import Mathlib.Data.List.Forall2

/-!
# Control packets, one behind the other

What a client sends in one datagram are several packets, and what the server sends is built by one
function for each kind (`crates/oxsfud/src/rtcp/mod.rs`). A datagram is cut into its packets by
their lengths (`split`), and each of them is taken by its type and format (`on_rtcp`): sender
reports and receiver reports, requests for packets and for keyframes, feedbacks of arrival.

* `split_exact`: a datagram is cut into the whole packets that it begins with, as many as there are.
* `compound_heard`: packets of the builders, in any number and order, are each read as what they
  say.
* `remb_floor`: the rate that is told is the given one with 18 bits kept.
-/

namespace OxlensSfu.Rtcp

/-! ## Cutting -/

/-- A packet with its own length. -/
structure Raw where
  b0 : UInt8
  pt : UInt8
  words : Nat
  body : List UInt8
  version : b0 >>> 6 = 2
  words_lt : words < 2 ^ 16
  body_length : body.length = words * 4

namespace Raw

def bytes (r : Raw) : List UInt8 := r.b0 :: r.pt :: (be16 r.words ++ r.body)

def packet (r : Raw) : Packet := ⟨r.b0 &&& 0x1f, r.pt, r.body⟩

end Raw

/-- There is no whole packet at the beginning. -/
def Stops (b : List UInt8) : Prop := ∀ (r : Raw) (rest : List UInt8), b ≠ r.bytes ++ rest

theorem split_raw (r : Raw) (rest : List UInt8) :
    split (r.bytes ++ rest) = r.packet :: split rest := by
  obtain ⟨x, y, hbytes, hwords⟩ := be16_spec r.words_lt
  have hle : r.words * 4 ≤ (r.body ++ rest).length := by
    rw [List.length_append, r.body_length]
    omega
  rw [Raw.bytes, hbytes, List.cons_append, List.cons_append, List.append_assoc, List.cons_append,
    List.cons_append, List.nil_append, split, hwords, if_pos ⟨r.version, hle⟩, ← r.body_length,
    List.take_left, List.drop_left]
  rfl

theorem split_stops {b : List UInt8} (h : Stops b) : split b = [] := by
  match b with
  | b0 :: b1 :: b2 :: b3 :: rest =>
    rw [split]
    split_ifs with hc
    · obtain ⟨hversion, hle⟩ := hc
      have hlen : (rest.take (of16 b2 b3 * 4)).length = of16 b2 b3 * 4 := by
        rw [List.length_take]
        omega
      refine absurd ?_ (h ⟨b0, b1, of16 b2 b3, rest.take (of16 b2 b3 * 4), hversion,
        of16_lt b2 b3, hlen⟩ (rest.drop (of16 b2 b3 * 4)))
      rw [Raw.bytes, be16_of16, List.cons_append, List.cons_append, List.append_assoc,
        List.take_append_drop]
      rfl
    · rfl
  | [] => exact split_nil
  | [_] => rw [split]; simp
  | [_, _] => rw [split]; simp
  | [_, _, _] => rw [split]; simp

theorem split_raws (rs : List Raw) {rest : List UInt8} (hrest : Stops rest) :
    split (rs.flatMap Raw.bytes ++ rest) = rs.map Raw.packet := by
  induction rs with
  | nil => exact split_stops hrest
  | cons r rs ih => rw [List.flatMap_cons, List.append_assoc, split_raw, ih, List.map_cons]

/-- **A datagram is cut into the whole packets it begins with.** -/
theorem split_exact (b : List UInt8) (ps : List Packet) : split b = ps ↔
    ∃ (rs : List Raw) (rest : List UInt8), b = rs.flatMap Raw.bytes ++ rest ∧ Stops rest ∧
      ps = rs.map Raw.packet := by
  constructor
  · rintro rfl
    induction hn : b.length using Nat.strongRecOn generalizing b with
    | ind n ih =>
      by_cases h : Stops b
      · exact ⟨[], b, rfl, h, split_stops h⟩
      · simp only [Stops, not_forall, not_not] at h
        obtain ⟨r, rest, rfl⟩ := h
        have hlt : rest.length < n := by
          rw [← hn, List.length_append, Raw.bytes, List.length_cons]
          omega
        obtain ⟨rs, rest', hb, hstops, hps⟩ := ih rest.length hlt rest rfl
        refine ⟨r :: rs, rest', ?_, hstops, ?_⟩
        · rw [List.flatMap_cons, List.append_assoc, ← hb]
        · rw [split_raw, hps, List.map_cons]
  · rintro ⟨rs, rest, rfl, hrest, rfl⟩
    exact split_raws rs hrest

/-! ## Builders -/

def buildRr (ssrc : UInt32) (r : Report) (jitter lsr dlsr : UInt32) : List UInt8 :=
  let lost := (max (-0x800000) (min r.lost 0x7fffff) % 2 ^ 24).toNat
  header 1 201 7 ++ (be32 senderSsrc ++ be32 ssrc.toNat ++ r.fraction :: (be32 lost).drop 1 ++
    be32 r.extendedMax.toNat ++ be32 jitter.toNat ++ be32 lsr.toNat ++ be32 dlsr.toNat)

def buildPli (media : UInt32) : List UInt8 :=
  header 1 206 2 ++ (be32 senderSsrc ++ be32 media.toNat)

/-- The loop of `build_remb`: the mantissa is halved until it has 18 bits. -/
def shrink (mant exp : Nat) : Nat × Nat :=
  if 0x3ffff < mant then shrink (mant >>> 1) (exp + 1) else (mant, exp)
termination_by mant
decreasing_by
  rw [Nat.shiftRight_eq_div_pow]
  omega

/-- What stands behind the header for a mantissa and an exponent; the text is `REMB`. -/
def rembBody (x : Nat × Nat) (ssrcs : List UInt32) : List UInt8 :=
  be32 senderSsrc ++ be32 0 ++ ([0x52, 0x45, 0x4d, 0x42] : List UInt8) ++
    [UInt8.ofNat ssrcs.length, UInt8.ofNat x.2 <<< 2 ||| UInt8.ofNat (x.1 >>> 16) &&& 0x03] ++
    be16 x.1 ++ ssrcs.flatMap (be32 <| ·.toNat)

def buildRemb (bps : UInt64) (ssrcs : List UInt32) : List UInt8 :=
  header 15 206 (4 + ssrcs.length) ++ rembBody (shrink bps.toNat 0) ssrcs

def be64 (n : Nat) : List UInt8 := be32 (n / 2 ^ 32) ++ be32 n

def buildSr (ssrc : UInt32) (ntp : UInt64) (rtp packets octets : UInt32) : List UInt8 :=
  header 0 200 6 ++ (be32 ssrc.toNat ++ be64 ntp.toNat ++ be32 rtp.toNat ++ be32 packets.toNat ++
    be32 octets.toNat)

/-! ## Readers -/

/-- What a packet is taken as. -/
inductive Heard
  | sr (ssrc : UInt32) (ntp : UInt64) (rtp : UInt32)
  | rr (blocks : List (UInt32 × UInt8))
  | nack (media : UInt32) (seqs : List UInt16)
  | twcc (base : Nat) (arrivals : List (Option Int))
  | pli (media : UInt32)

/-- `on_sr` -/
def readSr (body : List UInt8) : Option Heard := do
  let ssrc ← get32 body 0
  let hi ← get32 body 4
  let lo ← get32 body 8
  let rtp ← get32 body 12
  some (.sr (.ofNat ssrc) (.ofNat (hi * 2 ^ 32 + lo)) (.ofNat rtp))

/-- The loop of `on_rr`, over `n` blocks from `o` on: whose they are, and the fraction lost. -/
def readBlocks (body : List UInt8) (o : Nat) : Nat → List (UInt32 × UInt8)
  | 0 => []
  | n + 1 =>
    match get32 body o with
    | none => []
    | some ssrc => (.ofNat ssrc, (body[o + 4]?).getD 0) :: readBlocks body (o + 24) n

/-- `on_rr` -/
def readRr (body : List UInt8) : List (UInt32 × UInt8) :=
  readBlocks body 4 ((body.length - 4) / 24)

/-- The match of `on_rtcp`. -/
def hear (p : Packet) : Option Heard :=
  if p.pt = 200 then readSr p.body
  else if p.pt = 201 then some (.rr (readRr p.body))
  else if p.pt = 205 ∧ p.fmt = 1 then (parseNack p.body).map fun x => .nack x.1 x.2
  else if p.pt = 205 ∧ p.fmt = 15 then (parseTwcc p.body).map fun x => .twcc x.1 x.2
  else if p.pt = 206 ∧ p.fmt = 1 then (get32 p.body 4).map fun m => .pli (.ofNat m)
  else if p.pt = 206 ∧ p.fmt = 4 then (get32 p.body 8).map fun m => .pli (.ofNat m)
  else none

/-! ## What is built is heard -/

/-- A call of a builder. -/
inductive Built
  | rr (ssrc : UInt32) (report : Report) (jitter lsr dlsr : UInt32)
  | sr (ssrc : UInt32) (ntp : UInt64) (rtp packets octets : UInt32)
  | nack (media : UInt32) (seqs : List UInt16)
  | pli (media : UInt32)
  | remb (bps : UInt64) (ssrcs : List UInt32)
  | twcc (media : UInt32) (f : Feedback)

namespace Built

def bytes : Built → List UInt8
  | rr ssrc report jitter lsr dlsr => buildRr ssrc report jitter lsr dlsr
  | sr ssrc ntp rtp packets octets => buildSr ssrc ntp rtp packets octets
  | nack media seqs => buildNack media seqs
  | pli media => buildPli media
  | remb bps ssrcs => buildRemb bps ssrcs
  | twcc media f => buildTwcc media f

/-- What the callers see to: the numbers of a request are different, the streams of a rate and the
statuses of a feedback fit into one packet. -/
def Fits : Built → Prop
  | nack _ seqs => seqs.Nodup
  | remb _ ssrcs => 4 + ssrcs.length < 2 ^ 16
  | twcc _ f => f.Sound
  | _ => True

/-- The packet is heard as it was meant. Nothing is done about a rate. -/
def Says : Built → Option Heard → Prop
  | rr ssrc report _ _ _, h => h = some (.rr [(ssrc, report.fraction)])
  | sr ssrc ntp rtp _ _, h => h = some (.sr ssrc ntp rtp)
  | nack media seqs, h => ∃ l : List UInt16, h = some (.nack media l) ∧ l.Perm seqs ∧
      l.Pairwise (· < ·)
  | pli media, h => h = some (.pli media)
  | remb _ _, h => h = none
  | twcc _ f, h => ∃ c : Int, (c = 0 ∨ c = -wrapUs) ∧
      h = some (.twcc f.baseSeq.toNat (f.times.map (Option.map (· + c))))

end Built

/-- A header and a body of whole words are a packet. -/
theorem raw_of_header (fmt pt : UInt8) {n : Nat} {body : List UInt8} (hn : n < 2 ^ 16)
    (hlen : body.length = n * 4) (hfmt : (0x80 ||| (fmt &&& 0x1f)) >>> 6 = 2 ∧
      (0x80 ||| (fmt &&& 0x1f)) &&& 0x1f = fmt) :
    ∃ r : Raw, r.bytes = header fmt pt n ++ body ∧ r.packet = ⟨fmt, pt, body⟩ :=
  ⟨⟨_, pt, n, body, hfmt.1, hn, hlen⟩, rfl, congrArg (Packet.mk · pt body) hfmt.2⟩

theorem hear_pli (body : List UInt8) :
    hear ⟨1, 206, body⟩ = (get32 body 4).map fun m => .pli (.ofNat m) := by
  simp [hear]

theorem hear_remb (body : List UInt8) : hear ⟨15, 206, body⟩ = none := by
  simp [hear]

theorem of32_be32_mod (n : Nat) :
    of16 (UInt8.ofNat (n / 2 ^ 16 / 256)) (UInt8.ofNat (n / 2 ^ 16)) * 2 ^ 16 +
      of16 (UInt8.ofNat (n / 256)) (UInt8.ofNat n) = n % 2 ^ 32 := by
  rw [of16_be16, of16_be16]
  omega

theorem ofNat_ntp (ntp : UInt64) :
    UInt64.ofNat (ntp.toNat / 2 ^ 32 * 2 ^ 32 + ntp.toNat % 2 ^ 32) = ntp := by
  rw [Nat.div_add_mod', UInt64.ofNat_toNat]

/-- Each packet that is built is a packet, and is heard as it was meant. -/
theorem Built.heard (b : Built) (h : b.Fits) :
    ∃ r : Raw, r.bytes = b.bytes ∧ b.Says (hear r.packet) := by
  cases b with
  | rr ssrc report jitter lsr dlsr =>
    let lost := (max (-0x800000) (min report.lost 0x7fffff) % 2 ^ 24).toNat
    let body := be32 senderSsrc ++ be32 ssrc.toNat ++ report.fraction :: (be32 lost).drop 1 ++
      be32 report.extendedMax.toNat ++ be32 jitter.toNat ++ be32 lsr.toNat ++ be32 dlsr.toNat
    obtain ⟨r, hbytes, hpacket⟩ := raw_of_header 1 201 (show 7 < 2 ^ 16 by decide)
      (show body.length = 7 * 4 from rfl) (by decide)
    have hssrc : get32 body 4 = some ssrc.toNat := congrArg some (of32_be32 ssrc.toNat_lt)
    have hread : readRr body = [(ssrc, report.fraction)] := by
      have hlen : body.length = 28 := rfl
      rw [readRr, hlen, readBlocks, hssrc]
      simp only [UInt32.ofNat_toNat]
      rfl
    refine ⟨r, hbytes, ?_⟩
    rw [hpacket, Says, hear, hread]
    rfl
  | sr ssrc ntp rtp packets octets =>
    let body := be32 ssrc.toNat ++ be64 ntp.toNat ++ be32 rtp.toNat ++ be32 packets.toNat ++
      be32 octets.toNat
    obtain ⟨r, hbytes, hpacket⟩ := raw_of_header 0 200 (show 6 < 2 ^ 16 by decide)
      (show body.length = 6 * 4 from rfl) (by decide)
    have hssrc : get32 body 0 = some ssrc.toNat := congrArg some (of32_be32 ssrc.toNat_lt)
    have hhi : get32 body 4 = some (ntp.toNat / 2 ^ 32) :=
      congrArg some (of32_be32 (by have := ntp.toNat_lt; omega))
    have hlo : get32 body 8 = some (ntp.toNat % 2 ^ 32) :=
      congrArg some (of32_be32_mod ntp.toNat)
    have hrtp : get32 body 12 = some rtp.toNat := congrArg some (of32_be32 rtp.toNat_lt)
    refine ⟨r, hbytes, ?_⟩
    rw [hpacket, Says, hear, if_pos rfl, readSr, hssrc, hhi, hlo, hrtp]
    simp only [Option.bind_eq_bind, Option.bind_some, ofNat_ntp, UInt32.ofNat_toNat]
  | nack media seqs =>
    have hs := pairwise_mergeSort h
    let body := be32 senderSsrc ++ be32 media.toNat ++
      (groupsOf (seqs.mergeSort (· ≤ ·))).flatMap fciBytes
    have hlen : body.length = (2 + (groupsOf (seqs.mergeSort (· ≤ ·))).length) * 4 := by
      rw [List.length_append, length_fciBytes, Nat.add_mul]
      rfl
    obtain ⟨r, hbytes, hpacket⟩ := raw_of_header 1 205 (length_groupsOf hs) hlen (by decide)
    refine ⟨r, hbytes, seqs.mergeSort (· ≤ ·), ?_, List.mergeSort_perm seqs _,
      hs.imp UInt16.lt_iff_toNat_lt.mpr⟩
    have hread := parseNack_body media (groupsOf (seqs.mergeSort (· ≤ ·)))
    rw [numbers_groupsOf hs] at hread
    rw [hpacket, hear, hread]
    rfl
  | pli media =>
    let body := be32 senderSsrc ++ be32 media.toNat
    obtain ⟨r, hbytes, hpacket⟩ := raw_of_header 1 206 (show 2 < 2 ^ 16 by decide)
      (show body.length = 2 * 4 from rfl) (by decide)
    have hmedia : get32 body 4 = some media.toNat := congrArg some (of32_be32 media.toNat_lt)
    refine ⟨r, hbytes, ?_⟩
    rw [hpacket, Says, hear_pli, hmedia, Option.map_some, UInt32.ofNat_toNat]
  | remb bps ssrcs =>
    have hstreams : (ssrcs.flatMap (be32 <| ·.toNat)).length = ssrcs.length * 4 := by
      simp [List.length_flatMap, length_be32]
    have hlen : (rembBody (shrink bps.toNat 0) ssrcs).length = (4 + ssrcs.length) * 4 := by
      simp only [rembBody, List.length_append, hstreams, length_be16, length_be32,
        List.length_cons, List.length_nil]
      omega
    obtain ⟨r, hbytes, hpacket⟩ := raw_of_header 15 206 h hlen (by decide)
    refine ⟨r, hbytes, ?_⟩
    rw [hpacket]
    exact hear_remb _
  | twcc media f =>
    have hsyms : f.symbols.length ≤ 0xffff := by
      obtain ⟨l, hl, -, -, hsyms, -⟩ := h
      rw [hsyms, List.length_map]
      exact hl
    obtain ⟨b0, tail, heq, hversion, hfmt, hwords, htail⟩ := buildTwcc_eq media f
    have hshort := length_twccBody media hsyms
    obtain ⟨c, hc, hparse⟩ := parseTwcc_body media h tail
    refine ⟨⟨b0, 205, (4 + (twccBody media f).length + tail.length) / 4 % 2 ^ 16 - 1,
      twccBody media f ++ tail, hversion, by omega, by rw [List.length_append]; omega⟩, heq.symm,
      c, hc, ?_⟩
    rw [Raw.packet, hear, hfmt, hparse]
    rfl

/-- **What is built is heard**, in whatever number and order. -/
theorem compound_heard {bs : List Built} (h : ∀ b ∈ bs, b.Fits) :
    List.Forall₂ Built.Says bs ((split (bs.flatMap Built.bytes)).map hear) := by
  have hraw : ∀ bs : List Built, (∀ b ∈ bs, b.Fits) → ∃ rs : List Raw,
      rs.flatMap Raw.bytes = bs.flatMap Built.bytes ∧
        List.Forall₂ (fun b r => b.Says (hear (Raw.packet r))) bs rs := by
    intro bs h
    induction bs with
    | nil => exact ⟨[], rfl, .nil⟩
    | cons b bs ih =>
      obtain ⟨r, hbytes, hsays⟩ := b.heard (h b List.mem_cons_self)
      obtain ⟨rs, hrs, hall⟩ := ih fun b hb => h b (List.mem_cons_of_mem _ hb)
      refine ⟨r :: rs, ?_, .cons hsays hall⟩
      rw [List.flatMap_cons, List.flatMap_cons, hbytes, hrs]
  obtain ⟨rs, hbytes, hall⟩ := hraw bs h
  have hcut : split (bs.flatMap Built.bytes) = rs.map Raw.packet := by
    rw [← hbytes, ← List.append_nil (rs.flatMap Raw.bytes)]
    exact split_raws rs fun r rest e => by cases e
  rw [hcut, List.map_map, List.forall₂_map_right_iff]
  exact hall

/-- A request for two packets and one for a keyframe. -/
theorem compound_heard_two : List.Forall₂ Built.Says [.nack 7 [3, 1], .pli 9]
    ((split (([.nack 7 [3, 1], .pli 9] : List Built).flatMap Built.bytes)).map hear) :=
  compound_heard (by simp [Built.Fits])

/-! ## The rate -/

/-- The rate of a packet in 20 bytes and more, as its mantissa and its exponent. -/
def rembRate (b : List UInt8) : Option (Nat × Nat) := do
  let x ← b[17]?
  let mant ← get16 b 18
  some ((x &&& 3).toNat * 2 ^ 16 + mant, (x >>> 2).toNat)

/-- The mantissa is the number without as many bits as have to go. -/
theorem shrink_spec (mant exp : Nat) : ∃ k, shrink mant exp = (mant / 2 ^ k, exp + k) ∧
    mant / 2 ^ k < 2 ^ 18 ∧ (0 < k → 2 ^ 17 ≤ mant / 2 ^ k) := by
  fun_induction shrink mant exp with
  | case1 mant exp h ih =>
    obtain ⟨k, heq, hlt, hge⟩ := ih
    have hdiv : mant >>> 1 / 2 ^ k = mant / 2 ^ (k + 1) := by
      rw [Nat.shiftRight_one, Nat.div_div_eq_div_mul, Nat.pow_succ, Nat.mul_comm]
    rw [hdiv] at heq hlt hge
    refine ⟨k + 1, by rw [heq, Nat.add_assoc, Nat.add_comm 1 k], hlt, fun _ => ?_⟩
    obtain rfl | hk := Nat.eq_zero_or_pos k
    · omega
    · exact hge hk
  | case2 mant exp h =>
    exact ⟨0, by simp, by simp only [Nat.pow_zero, Nat.div_one]; omega, fun h => by cases h⟩

/-- The byte with the exponent and the upper bits of the mantissa. -/
theorem exp_byte {exp high : Nat} (hexp : exp < 2 ^ 6) (hhigh : high < 2 ^ 2) :
    (UInt8.ofNat exp <<< 2 ||| UInt8.ofNat high &&& 0x03).toNat = exp * 2 ^ 2 + high := by
  have hlow : high &&& 3 = high := by
    rw [show (3 : Nat) = 2 ^ 2 - 1 from rfl, Nat.and_two_pow_sub_one_eq_mod, Nat.mod_eq_of_lt hhigh]
  have hshift : exp <<< 2 % 2 ^ 8 = exp <<< 2 := Nat.mod_eq_of_lt (by rw [Nat.shiftLeft_eq]; omega)
  have hsize : UInt8.size = 2 ^ 8 := rfl
  rw [UInt8.toNat_or, UInt8.toNat_and, UInt8.toNat_shiftLeft, UInt8.toNat_ofNat_of_lt' (by omega),
    UInt8.toNat_ofNat_of_lt' (by omega)]
  show exp <<< 2 % 2 ^ 8 ||| high &&& 3 = _
  rw [hshift, hlow, ← Nat.shiftLeft_add_eq_or_of_lt hhigh, Nat.shiftLeft_eq]

/-- A mantissa of 18 bits and an exponent of 6 are read back. -/
theorem rembRate_body {mant exp : Nat} (hmant : mant < 2 ^ 18) (hexp : exp < 2 ^ 6)
    (words : Nat) (ssrcs : List UInt32) :
    rembRate (header 15 206 words ++ rembBody (mant, exp) ssrcs) = some (mant, exp) := by
  have hhigh : mant >>> 16 < 2 ^ 2 := by
    rw [Nat.shiftRight_eq_div_pow]
    omega
  have hbyte := exp_byte hexp hhigh
  have hread : rembRate (header 15 206 words ++ rembBody (mant, exp) ssrcs) =
      some (((UInt8.ofNat exp <<< 2 ||| UInt8.ofNat (mant >>> 16) &&& 0x03) &&& 3).toNat * 2 ^ 16 +
          of16 (UInt8.ofNat (mant / 256)) (UInt8.ofNat mant),
        ((UInt8.ofNat exp <<< 2 ||| UInt8.ofNat (mant >>> 16) &&& 0x03) >>> 2).toNat) := rfl
  have hmask : (exp * 2 ^ 2 + mant >>> 16) &&& 3 = mant >>> 16 := by
    rw [show (3 : Nat) = 2 ^ 2 - 1 from rfl, Nat.and_two_pow_sub_one_eq_mod]
    omega
  rw [hread, of16_be16, UInt8.toNat_and, UInt8.toNat_shiftRight, hbyte]
  show some (((exp * 2 ^ 2 + mant >>> 16) &&& 3) * 2 ^ 16 + mant % 2 ^ 16,
    (exp * 2 ^ 2 + mant >>> 16) >>> 2) = some (mant, exp)
  rw [hmask, Nat.shiftRight_eq_div_pow, Nat.shiftRight_eq_div_pow] at *
  congr 2 <;> omega

/-- **The rate is told with 18 bits**, and no bit is given up that fits. -/
theorem remb_floor (bps : UInt64) (ssrcs : List UInt32) : ∃ mant exp,
    rembRate (buildRemb bps ssrcs) = some (mant, exp) ∧ mant = bps.toNat / 2 ^ exp ∧
      mant < 2 ^ 18 ∧ (0 < exp → 2 ^ 17 ≤ mant) := by
  obtain ⟨k, heq, hlt, hge⟩ := shrink_spec bps.toNat 0
  have hk : k < 2 ^ 6 := by
    by_contra hk
    have hbig : 2 ^ 64 ≤ 2 ^ k := Nat.pow_le_pow_right (by decide) (by omega)
    have hzero : bps.toNat / 2 ^ k = 0 := Nat.div_eq_of_lt (by have := bps.toNat_lt; omega)
    have := hge (by omega)
    omega
  rw [Nat.zero_add] at heq
  refine ⟨bps.toNat / 2 ^ k, k, ?_, rfl, hlt, hge⟩
  rw [buildRemb, heq]
  exact rembRate_body hlt hk _ _

end OxlensSfu.Rtcp
