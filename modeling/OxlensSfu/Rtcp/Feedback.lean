import OxlensSfu.Rtcp.Twcc

/-!
# Feedbacks in bytes

A feedback becomes one packet, and a packet the times again (`build_twcc`, `split` and
`parse_twcc`, `crates/oxsfud/src/rtcp/mod.rs`): a header with the length in words, the sender and
the stream, where the feedback begins and how long it is, the reference time, the symbols in runs
of at most 13 bits, the deltas in one byte or two, and padding up to whole words.

**Theorem (`feedback_complete`).** While something is pending there is something to build, and the
loop that sends the feedbacks ends. Then every packet that came is in one of them, near the time
when it first came. What any of them was sent as is one packet, and is read back as the same
numbers and times, up to a turn of the reference time.

Two things have to fit: the runs are cut at 13 bits, and the length in words has 16. A symbol costs
at most three and a half bytes, for two large ones side by side share a run.

That the times come back only up to a turn is what 24 bits are: a packet that came after the first
turn of the clock is told of with a time of the first one (`late_time_wraps`).
-/

namespace OxlensSfu.Rtcp

/-! ## Bytes -/

def be16 (n : Nat) : List UInt8 := [UInt8.ofNat (n / 256), UInt8.ofNat n]

def be32 (n : Nat) : List UInt8 := be16 (n / 2 ^ 16) ++ be16 n

def of16 (a b : UInt8) : Nat := a.toNat * 256 + b.toNat

def header (fmt pt : UInt8) (words : Nat) : List UInt8 :=
  (0x80 ||| (fmt &&& 0x1f)) :: pt :: be16 words

def fixLen (b : List UInt8) : List UInt8 :=
  b.take 2 ++ be16 (b.length / 4 % 2 ^ 16 - 1) ++ b.drop 4

def senderSsrc : Nat := 1

namespace Sym

def code : Sym → Nat
  | none => 0
  | small => 1
  | large => 2

/-- The bytes of its delta. -/
def width : Sym → Nat
  | none => 0
  | small => 1
  | large => 2

end Sym

/-- The runs of a symbol that has come `n` times and of what follows. -/
def runs (sym : Sym) (n : Nat) : List Sym → List (Sym × Nat)
  | [] => [(sym, n)]
  | s :: syms => if s = sym ∧ n < 0x1fff then runs sym (n + 1) syms else (sym, n) :: runs s 1 syms

def runsOf : List Sym → List (Sym × Nat)
  | [] => []
  | s :: syms => runs s 1 syms

def chunk (x : Sym × Nat) : Nat := (x.1.code &&& 0x03) <<< 13 ||| x.2

/-- There is a delta for every symbol that has one. -/
def deltaBytes : List Sym → List Int → List UInt8
  | .small :: syms, d :: ds => UInt8.ofInt d :: deltaBytes syms ds
  | .large :: syms, d :: ds => be16 (d % 2 ^ 16).toNat ++ deltaBytes syms ds
  | .none :: syms, ds => deltaBytes syms ds
  | _, _ => []

/-- The packet before it is padded. -/
def twccBody (media : UInt32) (f : Feedback) : List UInt8 :=
  be32 senderSsrc ++ be32 media.toNat ++ be16 f.baseSeq.toNat ++ be16 f.statusCount.toNat ++
    be32 ((f.referenceTime.toNat &&& 0xffffff) <<< 8 ||| f.fbCount.toNat) ++
    (runsOf f.symbols).flatMap (be16 <| chunk ·) ++ deltaBytes f.symbols f.deltas250us

def buildTwcc (media : UInt32) (f : Feedback) : List UInt8 :=
  let b := header 15 205 0 ++ twccBody media f
  let pad := (4 - b.length % 4) % 4
  fixLen <|
    if 0 < pad then
      (b ++ List.replicate (pad - 1) 0 ++ [UInt8.ofNat pad]).modifyHead (· ||| 0x20)
    else b

structure Packet where
  fmt : UInt8
  pt : UInt8
  body : List UInt8
  deriving DecidableEq

def split : List UInt8 → List Packet
  | b0 :: b1 :: b2 :: b3 :: rest =>
    let n := of16 b2 b3 * 4
    if b0 >>> 6 = 2 ∧ n ≤ rest.length then
      ⟨b0 &&& 0x1f, b1, rest.take n⟩ :: split (rest.drop n)
    else []
  | _ => []
termination_by b => b.length
decreasing_by
  rw [List.length_drop]
  simp only [List.length_cons]
  omega

/-! ## Parsing -/

def get16 (b : List UInt8) (i : Nat) : Option Nat := do
  let x ← b[i]?
  let y ← b[i + 1]?
  some (of16 x y)

def get32 (b : List UInt8) (i : Nat) : Option Nat := do
  let x ← get16 b i
  let y ← get16 b (i + 2)
  some (x * 2 ^ 16 + y)

/-- The symbols of a chunk. -/
def chunkSyms (c : Nat) : List Nat :=
  if c &&& 0x8000 = 0 then List.replicate (c &&& 0x1fff) (c >>> 13 &&& 0x03)
  else if c &&& 0x4000 = 0 then (List.range 14).reverse.map fun k => c >>> k &&& 0x01
  else (List.range 7).reverse.map fun k => c >>> (k * 2) &&& 0x03

/-- `count` symbols, and what follows their chunks. -/
def readChunks (count : Nat) : List UInt8 → Option (List Nat × List UInt8)
  | a :: b :: rest =>
    if count = 0 then some ([], a :: b :: rest)
    else do
      let syms := (chunkSyms (of16 a b)).take count
      let (more, rest) ← readChunks (count - syms.length) rest
      some (syms ++ more, rest)
  | rest => if count = 0 then some ([], rest) else none

def readDeltas : List Nat → List UInt8 → Int → Option (List (Option Int))
  | [], _, _ => some []
  | s :: syms, b, us =>
    if s = 1 then
      match b with
      | x :: rest => (readDeltas syms rest (us + x.toNat * 250)).map (some (us + x.toNat * 250) :: ·)
      | [] => none
    else if s = 2 then
      match b with
      | x :: y :: rest =>
        let d := (of16 x y : Int).bmod (2 ^ 16)
        (readDeltas syms rest (us + d * 250)).map (some (us + d * 250) :: ·)
      | _ => none
    else (readDeltas syms b us).map (none :: ·)

def parseTwcc (body : List UInt8) : Option (Nat × List (Option Int)) := do
  let base ← get16 body 8
  let count ← get16 body 10
  let rt ← get32 body 12
  let rt := rt >>> 8
  let rt : Int := if rt &&& 0x800000 ≠ 0 then rt - 0x1000000 else rt
  let (syms, rest) ← readChunks count (body.drop 16)
  let out ← readDeltas syms rest (rt * 64000)
  some (base, out)

/-! ## Numbers -/

theorem of16_be16 (n : Nat) : of16 (UInt8.ofNat (n / 256)) (UInt8.ofNat n) = n % 2 ^ 16 := by
  rw [of16, UInt8.toNat_ofNat', UInt8.toNat_ofNat']
  omega

theorem length_be16 (n : Nat) : (be16 n).length = 2 := rfl

theorem length_be32 (n : Nat) : (be32 n).length = 4 := rfl

theorem and_bit_eq_zero (c i : Nat) : c &&& 2 ^ i = 0 ↔ c.testBit i = false := by
  refine ⟨fun h => ?_, fun h => Nat.eq_of_testBit_eq fun j => ?_⟩
  · have hbit : (c &&& 2 ^ i).testBit i = false := by
      rw [h, Nat.zero_testBit]
    rw [Nat.testBit_and, Nat.testBit_two_pow_self, Bool.and_true] at hbit
    exact hbit
  · rw [Nat.testBit_and, Nat.testBit_two_pow, Nat.zero_testBit]
    by_cases e : i = j
    · rw [← e, h, Bool.false_and]
    · rw [decide_eq_false e, Bool.and_false]

theorem chunk_eq (x : Sym × Nat) (hx : x.2 < 2 ^ 13) : chunk x = x.1.code * 2 ^ 13 + x.2 := by
  have hcode : x.1.code &&& 0x03 = x.1.code := by
    cases x.1 <;> rfl
  rw [chunk, hcode, ← Nat.shiftLeft_add_eq_or_of_lt hx, Nat.shiftLeft_eq]

/-! ## Chunks -/

/-- The runs are those of the symbols, and none of them is too long. -/
theorem runs_spec (sym : Sym) {n : Nat} (h : 0 < n ∧ n ≤ 0x1fff) (syms : List Sym) :
    (runs sym n syms).flatMap (fun x => List.replicate x.2 x.1) = List.replicate n sym ++ syms ∧
      ∀ x ∈ runs sym n syms, 0 < x.2 ∧ x.2 ≤ 0x1fff := by
  induction syms generalizing sym n with
  | nil => simpa [runs] using h
  | cons s syms ih =>
    rw [runs]
    split
    · next hs =>
      obtain ⟨rfl, hn⟩ := hs
      obtain ⟨heq, hall⟩ := ih s (n := n + 1) (by omega)
      refine ⟨?_, hall⟩
      rw [heq, List.replicate_succ', List.append_assoc, List.singleton_append]
    · obtain ⟨heq, hall⟩ := ih s (n := 1) (by omega)
      refine ⟨?_, fun x hx => ?_⟩
      · rw [List.flatMap_cons, heq]
        rfl
      · rcases List.mem_cons.mp hx with rfl | hx
        · exact h
        · exact hall x hx

theorem chunkSyms_chunk {x : Sym × Nat} (hx : x.2 ≤ 0x1fff) :
    chunkSyms (chunk x) = List.replicate x.2 x.1.code := by
  have hcode : x.1.code < 3 := by
    cases x.1 <;> decide
  rw [chunk_eq x (by omega)]
  generalize x.1.code = c at hcode
  generalize x.2 = n at hx
  have hbit : (c * 2 ^ 13 + n) &&& 0x8000 = 0 :=
    (and_bit_eq_zero _ 15).mpr (Nat.testBit_lt_two_pow (by omega))
  have hlow : (c * 2 ^ 13 + n) &&& 0x1fff = n := by
    rw [show 0x1fff = 2 ^ 13 - 1 from rfl, Nat.and_two_pow_sub_one_eq_mod]
    omega
  have hhigh : (c * 2 ^ 13 + n) >>> 13 &&& 0x03 = c := by
    rw [show 0x03 = 2 ^ 2 - 1 from rfl, Nat.and_two_pow_sub_one_eq_mod, Nat.shiftRight_eq_div_pow]
    omega
  rw [chunkSyms, if_pos hbit, hlow, hhigh]

theorem chunk_lt {x : Sym × Nat} (hx : x.2 ≤ 0x1fff) : chunk x < 2 ^ 16 := by
  have hcode : x.1.code < 3 := by
    cases x.1 <;> decide
  rw [chunk_eq x (by omega)]
  omega

/-- Runs are read back as their symbols, whatever follows. -/
theorem readChunks_runs (rs : List (Sym × Nat)) (hrs : ∀ x ∈ rs, 0 < x.2 ∧ x.2 ≤ 0x1fff)
    (rest : List UInt8) :
    readChunks (rs.map (·.2)).sum (rs.flatMap (be16 <| chunk ·) ++ rest) =
      some (rs.flatMap fun x => List.replicate x.2 x.1.code, rest) := by
  induction rs with
  | nil =>
    cases rest with
    | nil => rfl
    | cons a rest => cases rest <;> rfl
  | cons x rs ih =>
    obtain ⟨hpos, hle⟩ := hrs x List.mem_cons_self
    have hval := of16_be16 (chunk x)
    rw [Nat.mod_eq_of_lt (chunk_lt hle)] at hval
    rw [List.flatMap_cons, List.map_cons, List.sum_cons, be16, List.append_assoc, List.cons_append,
      List.cons_append, List.nil_append, readChunks, if_neg (by omega), hval, chunkSyms_chunk hle,
      List.take_of_length_le (by rw [List.length_replicate]; omega)]
    dsimp only
    rw [List.length_replicate, Nat.add_sub_cancel_left,
      ih fun y hy => hrs y (List.mem_cons_of_mem _ hy)]
    rfl

/-- The symbols of all runs. -/
theorem runsOf_spec (syms : List Sym) :
    (runsOf syms).flatMap (fun x => List.replicate x.2 x.1) = syms ∧
      ∀ x ∈ runsOf syms, 0 < x.2 ∧ x.2 ≤ 0x1fff := by
  cases syms with
  | nil => exact ⟨rfl, fun x hx => nomatch hx⟩
  | cons s syms => exact runs_spec s (by omega) syms

theorem readChunks_runsOf (syms : List Sym) (rest : List UInt8) :
    readChunks syms.length ((runsOf syms).flatMap (be16 <| chunk ·) ++ rest) =
      some (syms.map Sym.code, rest) := by
  obtain ⟨heq, hall⟩ := runsOf_spec syms
  have hread := readChunks_runs (runsOf syms) hall rest
  have hlen : ((runsOf syms).map (·.2)).sum = syms.length := by
    conv_rhs => rw [← heq]
    simp [List.length_flatMap]
  have hcodes : ((runsOf syms).flatMap fun x => List.replicate x.2 x.1.code) =
      syms.map Sym.code := by
    conv_rhs => rw [← heq]
    simp [List.map_flatMap]
  rw [hlen, hcodes] at hread
  exact hread

/-! ## Deltas -/

theorem readDeltas_none (syms : List Nat) (b : List UInt8) (us : Int) :
    readDeltas (0 :: syms) b us = (readDeltas syms b us).map (none :: ·) := rfl

theorem readDeltas_small (syms : List Nat) (x : UInt8) (b : List UInt8) (us : Int) :
    readDeltas (1 :: syms) (x :: b) us =
      (readDeltas syms b (us + x.toNat * 250)).map (some (us + x.toNat * 250) :: ·) := rfl

theorem readDeltas_large (syms : List Nat) (x y : UInt8) (b : List UInt8) (us : Int) :
    readDeltas (2 :: syms) (x :: y :: b) us =
      (readDeltas syms b (us + (of16 x y : Int).bmod (2 ^ 16) * 250)).map
        (some (us + (of16 x y : Int).bmod (2 ^ 16) * 250) :: ·) := rfl

/-- The deltas of statuses that fit are read back as their times. -/
theorem readDeltas_statuses {l : List (Option Int)}
    (hl : ∀ d, some d ∈ l → -32768 ≤ d ∧ d ≤ 32767) (rest : List UInt8) (us : Int) :
    readDeltas ((l.map TwccRecv.symbol).map Sym.code)
      (deltaBytes (l.map TwccRecv.symbol) l.reduceOption ++ rest) us = some (sums l us) := by
  induction l generalizing us with
  | nil => rfl
  | cons x l ih =>
    have ih := fun us => ih (fun d hd => hl d (List.mem_cons_of_mem _ hd)) us
    cases x with
    | none =>
      show readDeltas (0 :: (l.map TwccRecv.symbol).map Sym.code)
        (deltaBytes (l.map TwccRecv.symbol) l.reduceOption ++ rest) us = _
      rw [readDeltas_none, ih, sums, Option.map_some]
    | some d =>
      have hcons : (some d :: l).reduceOption = d :: l.reduceOption := rfl
      obtain ⟨hlow, hhigh⟩ := hl d List.mem_cons_self
      rw [hcons, List.map_cons, List.map_cons, TwccRecv.symbol, sums]
      split
      · next hsmall =>
        have hbyte : ((UInt8.ofInt d).toNat : Int) = d := by
          rw [UInt8.ofInt, UInt8.toNat_ofNat']
          omega
        rw [deltaBytes, List.cons_append, show Sym.small.code = 1 from rfl, readDeltas_small, hbyte,
          ih, mul_comm d 250, Option.map_some]
      · next hlarge =>
        have hword : ((d % 2 ^ 16).toNat % 2 ^ 16 : Nat) = (d % 2 ^ 16).toNat := by omega
        have hback : (((d % 2 ^ 16).toNat : Nat) : Int).bmod (2 ^ 16) = d := by
          rw [Int.bmod]
          omega
        rw [deltaBytes, be16, List.append_assoc, List.cons_append, List.cons_append,
          List.nil_append, show Sym.large.code = 2 from rfl, readDeltas_large, of16_be16, hword,
          hback, ih, mul_comm d 250, Option.map_some]

/-! ## Lengths -/

/-- Two of a large symbol side by side share a run. -/
def slack : Sym → Nat
  | .large => 1
  | _ => 0

theorem cost_runs (sym : Sym) {n : Nat} (h : 0 < n ∧ n ≤ 0x1fff) (syms : List Sym) :
    4 * (runs sym n syms).length + 2 * (n * sym.width + (syms.map Sym.width).sum) ≤
      7 * (n + syms.length) + slack sym := by
  induction syms generalizing sym n with
  | nil =>
    have hone : 4 + 2 * (n * sym.width) ≤ 7 * n + slack sym := by
      cases sym <;> simp only [Sym.width, slack] <;> omega
    simpa [runs] using hone
  | cons s syms ih =>
    rw [runs, List.map_cons, List.sum_cons, List.length_cons]
    split
    · next hs =>
      obtain ⟨rfl, hn⟩ := hs
      have hlater := ih s (n := n + 1) (by omega)
      rw [Nat.add_mul] at hlater
      omega
    · next hs =>
      have hlater := ih s (n := 1) (by omega)
      have hhere : 4 + 2 * (n * sym.width) + slack s ≤ 7 * n + slack sym := by
        cases s <;> cases sym <;> simp only [Sym.width, slack] <;>
          first | omega | (simp at hs; omega)
      rw [List.length_cons]
      omega

theorem length_deltaBytes (syms : List Sym) (ds : List Int) :
    (deltaBytes syms ds).length ≤ (syms.map Sym.width).sum := by
  fun_induction deltaBytes syms ds with
  | case1 syms d ds ih =>
    simp only [List.length_cons, List.map_cons, List.sum_cons, Sym.width]
    omega
  | case2 syms d ds ih =>
    simp only [List.length_append, length_be16, List.map_cons, List.sum_cons, Sym.width]
    omega
  | case3 syms ds ih => simpa [Sym.width] using ih
  | case4 => simp

theorem length_chunks (rs : List (Sym × Nat)) :
    (rs.flatMap (be16 <| chunk ·)).length = 2 * rs.length := by
  induction rs with
  | nil => rfl
  | cons x rs ih =>
    rw [List.flatMap_cons, List.length_append, ih, length_be16, List.length_cons]
    omega

/-- The packet of a feedback fits a length of 16 bits in words. -/
theorem length_twccBody (media : UInt32) {f : Feedback} (hf : f.symbols.length ≤ 0xffff) :
    (twccBody media f).length < 2 ^ 18 - 8 := by
  have hdeltas := length_deltaBytes f.symbols f.deltas250us
  have hcost : 4 * (runsOf f.symbols).length + 2 * (f.symbols.map Sym.width).sum ≤
      7 * f.symbols.length + 1 := by
    cases hsyms : f.symbols with
    | nil => exact Nat.zero_le _
    | cons s syms =>
      have hruns := cost_runs s (n := 1) (by omega) syms
      have hslack : slack s ≤ 1 := by
        cases s <;> decide
      rw [runsOf, List.map_cons, List.sum_cons, List.length_cons]
      omega
  simp only [twccBody, List.length_append, length_be16, length_be32, length_chunks]
  omega

/-! ## The packet -/

theorem buildTwcc_eq (media : UInt32) (f : Feedback) : ∃ b0 tail,
    buildTwcc media f = b0 :: 205 ::
      (be16 ((4 + (twccBody media f).length + tail.length) / 4 % 2 ^ 16 - 1) ++
        (twccBody media f ++ tail)) ∧
      b0 >>> 6 = 2 ∧ b0 &&& 0x1f = 15 ∧ (4 + (twccBody media f).length + tail.length) % 4 = 0 ∧
      tail.length < 4 := by
  have hlen : ∀ body, (header 15 205 0 ++ body).length = 4 + body.length := fun body => by
    rw [List.length_append]
    rfl
  rw [buildTwcc, hlen]
  generalize twccBody media f = body
  generalize hpad : (4 - (4 + body.length) % 4) % 4 = pad
  split
  · next hpos =>
    refine ⟨0xaf, List.replicate (pad - 1) 0 ++ [UInt8.ofNat pad], ?_, by decide, by decide, ?_, ?_⟩
    · rw [fixLen, List.length_modifyHead, List.length_append, List.length_append, hlen,
        List.append_assoc, List.append_assoc, List.length_append, ← Nat.add_assoc]
      rfl
    · simp only [List.length_append, List.length_replicate, List.length_singleton]
      omega
    · simp only [List.length_append, List.length_replicate, List.length_singleton]
      omega
  · next hzero =>
    refine ⟨0x8f, [], ?_, by decide, by decide, ?_, ?_⟩
    · rw [fixLen, hlen, List.append_nil]
      rfl
    · simp only [List.length_nil]
      omega
    · simp only [List.length_nil]
      omega

theorem split_nil : split [] = [] := by
  rw [split]
  exact fun _ _ _ _ _ e => nomatch e

/-- A header with the length of what follows it, in words, makes one packet of it. -/
theorem split_one {b0 pt : UInt8} {n : Nat} {body : List UInt8} (hversion : b0 >>> 6 = 2)
    (hn : n < 2 ^ 16) (hlen : body.length = n * 4) :
    split (b0 :: pt :: (be16 n ++ body)) = [⟨b0 &&& 0x1f, pt, body⟩] := by
  have hval : of16 (UInt8.ofNat (n / 256)) (UInt8.ofNat n) * 4 = body.length := by
    rw [of16_be16, Nat.mod_eq_of_lt hn, hlen]
  rw [be16, List.cons_append, List.cons_append, List.nil_append, split, hval,
    if_pos ⟨hversion, Nat.le_refl _⟩, List.take_length, List.drop_length, split_nil]

/-- What is sent is one packet. -/
theorem split_buildTwcc (media : UInt32) {f : Feedback} (hf : f.symbols.length ≤ 0xffff) :
    ∃ tail, split (buildTwcc media f) = [⟨15, 205, twccBody media f ++ tail⟩] := by
  obtain ⟨b0, tail, heq, hversion, hfmt, hwords, htail⟩ := buildTwcc_eq media f
  have hshort := length_twccBody media hf
  have hrest : (twccBody media f ++ tail).length = (twccBody media f).length + tail.length :=
    List.length_append
  refine ⟨tail, ?_⟩
  rw [heq, split_one hversion (by omega) (by omega), hfmt]

theorem word_eq {rt fb : Nat} (hrt : rt < 2 ^ 24) (hfb : fb < 2 ^ 8) :
    (rt &&& 0xffffff) <<< 8 ||| fb = rt * 2 ^ 8 + fb := by
  rw [show 0xffffff = 2 ^ 24 - 1 from rfl, Nat.and_two_pow_sub_one_eq_mod, Nat.mod_eq_of_lt hrt,
    ← Nat.shiftLeft_add_eq_or_of_lt hfb, Nat.shiftLeft_eq]

theorem of32_be32 {n : Nat} (hn : n < 2 ^ 32) :
    of16 (UInt8.ofNat (n / 2 ^ 16 / 256)) (UInt8.ofNat (n / 2 ^ 16)) * 2 ^ 16 +
      of16 (UInt8.ofNat (n / 256)) (UInt8.ofNat n) = n := by
  rw [of16_be16, of16_be16]
  omega

/-- The reference time is read with a sign. -/
theorem sign_eq (rt : Nat) : ∃ c : Int, (c = 0 ∨ c = -wrapUs) ∧
    (if rt &&& 0x800000 ≠ 0 then (rt : Int) - 0x1000000 else rt) * 64000 = rt * 64000 + c := by
  split
  · refine ⟨-wrapUs, .inr rfl, ?_⟩
    rw [wrapUs]
    ring
  · exact ⟨0, .inl rfl, by ring⟩

/-- A feedback that fits is read back as its numbers and times, with padding behind it. -/
theorem parseTwcc_body (media : UInt32) {f : Feedback} (hf : f.Sound) (tail : List UInt8) :
    ∃ c : Int, (c = 0 ∨ c = -wrapUs) ∧ parseTwcc (twccBody media f ++ tail) =
      some (f.baseSeq.toNat, f.times.map (Option.map (· + c))) := by
  obtain ⟨l, hlen, hfits, hcount, hsyms, hdeltas, hrt⟩ := hf
  obtain ⟨c, hc, hstart⟩ := sign_eq f.referenceTime.toNat
  refine ⟨c, hc, ?_⟩
  have hword := word_eq hrt f.fbCount.toNat_lt
  have hbase : get16 (twccBody media f ++ tail) 8 = some f.baseSeq.toNat := by
    have := of16_be16 f.baseSeq.toNat
    rw [Nat.mod_eq_of_lt f.baseSeq.toNat_lt] at this
    exact congrArg some this
  have hnum : get16 (twccBody media f ++ tail) 10 = some l.length := by
    have hsize : f.statusCount.toNat = l.length := by
      rw [hcount, UInt16.toNat_ofNat_of_lt' (show l.length < 2 ^ 16 by omega)]
    have := of16_be16 f.statusCount.toNat
    rw [Nat.mod_eq_of_lt f.statusCount.toNat_lt] at this
    rw [← hsize]
    exact congrArg some this
  have hrt32 : get32 (twccBody media f ++ tail) 12 =
      some ((f.referenceTime.toNat &&& 0xffffff) <<< 8 ||| f.fbCount.toNat) := by
    have hfb := f.fbCount.toNat_lt
    exact congrArg some (of32_be32 (by rw [hword]; omega))
  have hshift : (f.referenceTime.toNat * 2 ^ 8 + f.fbCount.toNat) >>> 8 = f.referenceTime.toNat := by
    have hfb := f.fbCount.toNat_lt
    rw [Nat.shiftRight_eq_div_pow]
    omega
  have hdrop : (twccBody media f ++ tail).drop 16 = (runsOf f.symbols).flatMap (be16 <| chunk ·) ++
      (deltaBytes f.symbols f.deltas250us ++ tail) := by
    rw [← List.append_assoc]
    rfl
  have hchunks := readChunks_runsOf (l.map TwccRecv.symbol)
    (deltaBytes (l.map TwccRecv.symbol) l.reduceOption ++ tail)
  rw [List.length_map] at hchunks
  have htimes := readDeltas_statuses hfits tail
  rw [parseTwcc, hbase, hnum, hrt32, hdrop, hword, hsyms, hdeltas]
  dsimp only [bind, Option.bind]
  rw [hshift, hchunks]
  dsimp only [bind, Option.bind]
  rw [hstart, htimes, Feedback.times, hsyms, hdeltas, stamps_statuses, sums_shift]

/-! ## Sent and read -/

/-- What a feedback is sent as is one packet, and is read back as its numbers and times. -/
theorem sent_and_read (media : UInt32) {f : Feedback} (hf : f.Sound) : ∃ body c,
    split (buildTwcc media f) = [⟨15, 205, body⟩] ∧ (c = 0 ∨ c = -wrapUs) ∧
      parseTwcc body = some (f.baseSeq.toNat, f.times.map (Option.map (· + c))) := by
  have hlen : f.symbols.length ≤ 0xffff := by
    obtain ⟨l, hl, -, -, hsyms, -⟩ := hf
    rw [hsyms, List.length_map]
    exact hl
  obtain ⟨tail, hsplit⟩ := split_buildTwcc media hlen
  obtain ⟨c, hc, hparse⟩ := parseTwcc_body media hf tail
  exact ⟨_, c, hsplit, hc, hparse⟩

theorem feedback_complete (es : List Event) :
    ((Trace.run es).recv.pending = true → ∃ f t', (Trace.run es).recv.build = (some f, t')) ∧
    (∃ n : Nat, let s := Trace.run (es ++ List.replicate n .build)
      s.recv = (Trace.run es).recv.uplink.2 ∧ s.recv.pending = false ∧
        s.built.map (·.2) = (Trace.run es).built.map (·.2) ++ (Trace.run es).recv.uplink.1 ∧
        ∀ u us, s.came u = some us → s.Told u us) ∧
    ∀ x ∈ (Trace.run es).built, ∀ media, ∃ body c,
      split (buildTwcc media x.2) = [⟨15, 205, body⟩] ∧ (c = 0 ∨ c = -wrapUs) ∧
        parseTwcc body = some (x.2.baseSeq.toNat, x.2.times.map (Option.map (· + c))) := by
  refine ⟨Trace.pending_builds, ?_, fun x hx media => sent_and_read media (Trace.run_sound es x hx)⟩
  obtain ⟨n, hrecv, hdone, hbuilt⟩ := Trace.uplink_run es
  exact ⟨n, hrecv, hdone, hbuilt, fun u us hu => Trace.reported_when_done hdone hu⟩

/-- A packet comes when the reference time has gone round once. -/
def afterTurn : List Event := [.record 0 wrapUs, .build]

/-- Nothing is pending, and all that is told of the packet is a time of 0. -/
theorem late_time_wraps :
    let s := Trace.run afterTurn
    s.recv.pending = false ∧ s.came 0 = some wrapUs ∧
      s.built.map (fun x => (x.2.baseSeq, x.2.times)) = [(0, [some 0])] := by
  decide

end OxlensSfu.Rtcp
