import OxlensSfu.Rtcp.Feedback
import Mathlib.Data.Nat.Digits.Lemmas

/-!
# What a feedback of a subscriber may look like

The server writes its own feedbacks with runs only (`OxlensSfu.Rtcp.Feedback`), but those that it
reads are written by the libraries of the clients, which use all three kinds of chunks, cut the
last one short, and may leave anything behind the deltas. Here the format has a description of its
own: chunks that know how many symbols they have, statuses with their deltas, and an account of
both that fits together.

**Theorem (`parseTwcc_exact`).** `parse_twcc` takes exactly the bodies that begin with an account,
and what it answers is the base number and the times of that account.

A word of 16 bits is a chunk in exactly one way, for the symbols of a vector are its digits.
-/

namespace OxlensSfu.Rtcp

/-! ## Words -/

theorem of16_lt (a b : UInt8) : of16 a b < 2 ^ 16 := by
  have ha := a.toNat_lt
  have hb := b.toNat_lt
  rw [of16]
  omega

theorem be16_of16 (a b : UInt8) : be16 (of16 a b) = [a, b] := by
  have hb := b.toNat_lt
  have hhigh : (a.toNat * 256 + b.toNat) / 256 = a.toNat := by omega
  rw [be16, of16, hhigh, UInt8.ofNat_toNat]
  have hlow : UInt8.ofNat (a.toNat * 256 + b.toNat) = b := by
    rw [← UInt8.toNat_inj, UInt8.toNat_ofNat']
    omega
  rw [hlow]

theorem be16_mod (n : Nat) : be16 (n % 2 ^ 16) = be16 n := by
  have hhigh : UInt8.ofNat (n % 2 ^ 16 / 256) = UInt8.ofNat (n / 256) := by
    rw [← UInt8.toNat_inj, UInt8.toNat_ofNat', UInt8.toNat_ofNat']
    omega
  have hlow : UInt8.ofNat (n % 2 ^ 16) = UInt8.ofNat n := by
    rw [← UInt8.toNat_inj, UInt8.toNat_ofNat', UInt8.toNat_ofNat']
    omega
  rw [be16, be16, hhigh, hlow]

theorem be32_of16 (a b c d : UInt8) : be32 (of16 a b * 2 ^ 16 + of16 c d) = [a, b, c, d] := by
  have hlt := of16_lt c d
  have hhigh : (of16 a b * 2 ^ 16 + of16 c d) / 2 ^ 16 = of16 a b := by omega
  have hlow : (of16 a b * 2 ^ 16 + of16 c d) % 2 ^ 16 = of16 c d := by omega
  rw [be32, hhigh, ← be16_mod (of16 a b * 2 ^ 16 + of16 c d), hlow, be16_of16, be16_of16]
  rfl

/-- A number of 16 bits comes back from its two bytes. -/
theorem be16_spec {n : Nat} (hn : n < 2 ^ 16) : ∃ a b, be16 n = [a, b] ∧ of16 a b = n :=
  ⟨_, _, rfl, by rw [of16_be16, Nat.mod_eq_of_lt hn]⟩

/-- The digits of a number, the last one first. -/
theorem range_map_digits {b : Nat} (hb : 1 < b) {l n : Nat} (hn : n < b ^ l) :
    (List.range l).map (fun k => n / b ^ k % b) = Nat.digitsAppend b l n := by
  have hlen : (Nat.digitsAppend b l n).length = l := Nat.length_digitsAppend hb l hn
  refine List.ext_getElem (by rw [List.length_map, List.length_range, hlen]) fun i hi hi' => ?_
  rw [List.getElem_map, List.getElem_range, ← Nat.getD_digits n i hb]
  simp only [Nat.digitsAppend, List.getElem_append, List.getElem_replicate]
  split
  · next h => simp [List.getD, h]
  · next h => simp [List.getD, List.getElem?_eq_none (Nat.le_of_not_lt h)]

/-- Digits of a fixed number of places come back from their number. -/
theorem digits_of_number {b : Nat} (hb : 1 < b) {l : Nat} {syms : List Nat}
    (h : syms.length = l ∧ ∀ s ∈ syms, s < b) :
    Nat.ofDigits b syms.reverse < b ^ l ∧
      (List.range l).reverse.map (fun k => Nat.ofDigits b syms.reverse / b ^ k % b) = syms := by
  have hin : syms.reverse ∈ {L : List Nat | L.length = l ∧ ∀ x ∈ L, x < b} :=
    ⟨by rw [List.length_reverse, h.1], fun x hx => h.2 x (List.mem_reverse.1 hx)⟩
  have hlt : Nat.ofDigits b syms.reverse < b ^ l := Nat.mapsTo_ofDigits hb l hin
  refine ⟨hlt, ?_⟩
  rw [List.map_reverse, range_map_digits hb hlt, (Nat.setInvOn_digitsAppend_ofDigits hb l).1 hin,
    List.reverse_reverse]

theorem number_of_digits {b : Nat} (hb : 1 < b) {l n : Nat} (hn : n < b ^ l) :
    Nat.ofDigits b ((Nat.digitsAppend b l n).reverse).reverse = n := by
  rw [List.reverse_reverse]
  exact (Nat.setInvOn_digitsAppend_ofDigits hb l).2 hn

/-! ## Chunks -/

/-- A run of one symbol, a vector of 14 symbols of one bit or a vector of 7 symbols of two. -/
inductive Chunk
  | run (sym n : Nat) (h : sym < 4 ∧ n < 2 ^ 13)
  | ones (syms : List Nat) (h : syms.length = 14 ∧ ∀ s ∈ syms, s < 2)
  | twos (syms : List Nat) (h : syms.length = 7 ∧ ∀ s ∈ syms, s < 4)

namespace Chunk

def syms : Chunk → List Nat
  | run sym n _ => List.replicate n sym
  | ones syms _ => syms
  | twos syms _ => syms

def word : Chunk → Nat
  | run sym n _ => sym * 2 ^ 13 + n
  | ones syms _ => 2 ^ 15 + Nat.ofDigits 2 syms.reverse
  | twos syms _ => 2 ^ 15 + 2 ^ 14 + Nat.ofDigits 4 syms.reverse

theorem syms_lt (c : Chunk) {s : Nat} (hs : s ∈ c.syms) : s < 4 := by
  cases c with
  | run sym n h =>
    rw [List.eq_of_mem_replicate hs]
    exact h.1
  | ones syms h => exact Nat.lt_trans (h.2 s hs) (by decide)
  | twos syms h => exact h.2 s hs

theorem word_lt (c : Chunk) : c.word < 2 ^ 16 := by
  cases c with
  | run sym n h =>
    rw [word]
    omega
  | ones syms h =>
    have hlt := (digits_of_number (by decide) h).1
    rw [word]
    omega
  | twos syms h =>
    have hlt := (digits_of_number (by decide) h).1
    rw [word]
    omega

end Chunk

/-- Bit 15 tells runs from vectors, bit 14 the two kinds of vectors. -/
theorem high_bit {w : Nat} (hw : w < 2 ^ 16) : w &&& 0x8000 = 0 ↔ w < 2 ^ 15 := by
  rw [show (0x8000 : Nat) = 2 ^ 15 from rfl, and_bit_eq_zero, Nat.testBit_eq_decide_div_mod_eq,
    decide_eq_false_iff_not]
  omega

theorem next_bit {w : Nat} (hlow : 2 ^ 15 ≤ w) (hw : w < 2 ^ 16) :
    w &&& 0x4000 = 0 ↔ w < 2 ^ 15 + 2 ^ 14 := by
  rw [show (0x4000 : Nat) = 2 ^ 14 from rfl, and_bit_eq_zero, Nat.testBit_eq_decide_div_mod_eq,
    decide_eq_false_iff_not]
  omega

theorem chunkSyms_run {w : Nat} (hw : w < 2 ^ 15) :
    chunkSyms w = List.replicate (w % 2 ^ 13) (w / 2 ^ 13) := by
  have hhigh : w >>> 13 &&& 0x03 = w / 2 ^ 13 := by
    rw [show (0x03 : Nat) = 2 ^ 2 - 1 from rfl, Nat.and_two_pow_sub_one_eq_mod,
      Nat.shiftRight_eq_div_pow]
    omega
  rw [chunkSyms, if_pos ((high_bit (by omega)).2 hw), hhigh,
    show (0x1fff : Nat) = 2 ^ 13 - 1 from rfl, Nat.and_two_pow_sub_one_eq_mod]

theorem chunkSyms_ones {m : Nat} (hm : m < 2 ^ 14) : chunkSyms (2 ^ 15 + m) =
    (List.range 14).reverse.map fun k => m / 2 ^ k % 2 := by
  rw [chunkSyms, if_neg (by rw [high_bit (by omega)]; omega),
    if_pos ((next_bit (by omega) (by omega)).2 (by omega))]
  refine List.map_congr_left fun k hk => ?_
  have hk : k < 14 := List.mem_range.1 (List.mem_reverse.1 hk)
  rw [show (0x01 : Nat) = 2 ^ 1 - 1 from rfl, Nat.and_two_pow_sub_one_eq_mod,
    Nat.shiftRight_eq_div_pow]
  interval_cases k <;> omega

theorem chunkSyms_twos {m : Nat} (hm : m < 2 ^ 14) : chunkSyms (2 ^ 15 + 2 ^ 14 + m) =
    (List.range 7).reverse.map fun k => m / 4 ^ k % 4 := by
  rw [chunkSyms, if_neg (by rw [high_bit (by omega)]; omega),
    if_neg (by rw [next_bit (by omega) (by omega)]; omega)]
  refine List.map_congr_left fun k hk => ?_
  have hk : k < 7 := List.mem_range.1 (List.mem_reverse.1 hk)
  rw [show (0x03 : Nat) = 2 ^ 2 - 1 from rfl, Nat.and_two_pow_sub_one_eq_mod,
    Nat.shiftRight_eq_div_pow]
  interval_cases k <;> omega

/-- The symbols of a chunk are read from its word. -/
theorem chunkSyms_word (c : Chunk) : chunkSyms c.word = c.syms := by
  cases c with
  | run sym n h =>
    have hword : (Chunk.run sym n h).word = sym * 2 ^ 13 + n := rfl
    have hsyms : (Chunk.run sym n h).syms = List.replicate n sym := rfl
    rw [hword, hsyms, chunkSyms_run (by omega), Nat.mul_add_mod_of_lt h.2, Nat.add_comm,
      Nat.add_mul_div_right _ _ (by decide), Nat.div_eq_of_lt h.2, Nat.zero_add]
  | ones syms h =>
    obtain ⟨hlt, hdigits⟩ := digits_of_number (by decide) h
    exact (chunkSyms_ones hlt).trans hdigits
  | twos syms h =>
    obtain ⟨hlt, hdigits⟩ := digits_of_number (by decide) h
    exact (chunkSyms_twos (by simpa using hlt)).trans hdigits

/-- Every word is the word of a chunk. -/
theorem exists_chunk {w : Nat} (hw : w < 2 ^ 16) : ∃ c : Chunk, c.word = w := by
  by_cases hrun : w < 2 ^ 15
  · exact ⟨.run (w / 2 ^ 13) (w % 2 ^ 13) (by omega), by rw [Chunk.word]; omega⟩
  by_cases hones : w < 2 ^ 15 + 2 ^ 14
  · have hm : w - 2 ^ 15 < 2 ^ 14 := by omega
    refine ⟨.ones (Nat.digitsAppend 2 14 (w - 2 ^ 15)).reverse ⟨?_, fun s hs => ?_⟩, ?_⟩
    · rw [List.length_reverse, Nat.length_digitsAppend (by decide) 14 hm]
    · exact Nat.lt_of_mem_digitsAppend (by decide) 14 s (List.mem_reverse.1 hs)
    · rw [Chunk.word, number_of_digits (by decide) hm]
      omega
  · have hm : w - (2 ^ 15 + 2 ^ 14) < 4 ^ 7 := by omega
    refine ⟨.twos (Nat.digitsAppend 4 7 (w - (2 ^ 15 + 2 ^ 14))).reverse ⟨?_, fun s hs => ?_⟩,
      ?_⟩
    · rw [List.length_reverse, Nat.length_digitsAppend (by decide) 7 hm]
    · exact Nat.lt_of_mem_digitsAppend (by decide) 7 s (List.mem_reverse.1 hs)
    · rw [Chunk.word, number_of_digits (by decide) hm]
      omega

/-- The chunks have `count` symbols, and would not have them without the last one. -/
def Enough (count : Nat) (cs : List Chunk) : Prop :=
  count ≤ (cs.flatMap Chunk.syms).length ∧
    (cs ≠ [] → (cs.dropLast.flatMap Chunk.syms).length < count)

theorem enough_nil {count : Nat} : Enough count [] ↔ count = 0 := by
  simp [Enough]

theorem enough_cons {count : Nat} {c : Chunk} {cs : List Chunk} :
    Enough count (c :: cs) ↔ 0 < count ∧ Enough (count - c.syms.length) cs := by
  cases cs with
  | nil =>
    simp only [Enough, List.flatMap_singleton, List.dropLast_singleton, List.flatMap_nil,
      List.length_nil]
    simp only [ne_eq, List.cons_ne_nil, not_false_eq_true, forall_const, not_true_eq_false,
      false_imp_iff, and_true]
    omega
  | cons d cs =>
    have hlast : (c :: d :: cs).dropLast = c :: (d :: cs).dropLast := rfl
    have hlen : ∀ l : List Chunk, ((c :: l).flatMap Chunk.syms).length =
        c.syms.length + (l.flatMap Chunk.syms).length := fun l => by
      rw [List.flatMap_cons, List.length_append]
    simp only [Enough, hlast, hlen, ne_eq, List.cons_ne_nil, not_false_eq_true, forall_const]
    omega

theorem readChunks_zero (b : List UInt8) : readChunks 0 b = some ([], b) := by
  match b with
  | [] => rfl
  | [_] => rfl
  | _ :: _ :: _ => rfl

/-- One chunk is read, and the rest of the count from what follows it. -/
theorem readChunks_chunk {count : Nat} (hcount : 0 < count) (c : Chunk) (rest : List UInt8) :
    readChunks count (be16 c.word ++ rest) =
      (readChunks (count - c.syms.length) rest).map fun x => (c.syms.take count ++ x.1, x.2) := by
  obtain ⟨a, b, hbytes, hword⟩ := be16_spec c.word_lt
  have hleft : count - (c.syms.take count).length = count - c.syms.length := by
    rw [List.length_take]
    omega
  rw [hbytes, List.cons_append, List.cons_append, List.nil_append, readChunks, if_neg hcount.ne',
    hword, chunkSyms_word]
  dsimp only
  rw [hleft]
  cases readChunks (count - c.syms.length) rest <;> rfl

/-- What is read are chunks, as many as are needed. -/
theorem readChunks_iff {count : Nat} {b rest : List UInt8} {syms : List Nat} :
    readChunks count b = some (syms, rest) ↔ ∃ cs : List Chunk, Enough count cs ∧
      b = cs.flatMap (be16 <| ·.word) ++ rest ∧ syms = (cs.flatMap Chunk.syms).take count := by
  constructor
  · intro h
    induction hn : b.length using Nat.strongRecOn generalizing count b syms with
    | ind n ih =>
      obtain rfl | hcount := Nat.eq_zero_or_pos count
      · rw [readChunks_zero] at h
        obtain ⟨rfl, rfl⟩ := Prod.mk.inj (Option.some.inj h)
        exact ⟨[], enough_nil.2 rfl, rfl, rfl⟩
      match b with
      | [] => simp [readChunks, hcount.ne'] at h
      | [_] => simp [readChunks, hcount.ne'] at h
      | x :: y :: b =>
        obtain ⟨c, hc⟩ := exists_chunk (of16_lt x y)
        have hb : x :: y :: b = be16 c.word ++ b := by
          rw [hc, be16_of16]
          rfl
        rw [hb, readChunks_chunk hcount, Option.map_eq_some_iff] at h
        obtain ⟨⟨more, rest'⟩, hread, heq⟩ := h
        obtain ⟨rfl, rfl⟩ := Prod.mk.inj heq
        obtain ⟨cs, henough, rfl, rfl⟩ := ih b.length (by rw [← hn]; simp) hread rfl
        refine ⟨c :: cs, enough_cons.2 ⟨hcount, henough⟩, ?_, ?_⟩
        · rw [hb, List.flatMap_cons, List.append_assoc]
        · rw [List.flatMap_cons, List.take_append]
  · rintro ⟨cs, henough, rfl, rfl⟩
    induction cs generalizing count with
    | nil =>
      obtain rfl := enough_nil.1 henough
      exact readChunks_zero rest
    | cons c cs ih =>
      obtain ⟨hcount, henough⟩ := enough_cons.1 henough
      rw [List.flatMap_cons, List.append_assoc, readChunks_chunk hcount, ih henough,
        Option.map_some, List.flatMap_cons, List.take_append]

/-! ## Statuses -/

/-- A packet that did not come, under one of the two symbols without a delta, or one with a delta
of one byte or two, in units of 250 us. -/
inductive Status
  | absent (sym : Nat) (h : sym = 0 ∨ sym = 3)
  | small (d : UInt8)
  | large (d : Int) (h : -2 ^ 15 ≤ d ∧ d < 2 ^ 15)

namespace Status

def sym : Status → Nat
  | absent sym _ => sym
  | small _ => 1
  | large _ _ => 2

def bytes : Status → List UInt8
  | absent _ _ => []
  | small d => [d]
  | large d _ => be16 (d % 2 ^ 16).toNat

def delta : Status → Option Int
  | absent _ _ => none
  | small d => some d.toNat
  | large d _ => some d

end Status

/-- The delta of a status is read, and the rest from what follows it. -/
theorem readDeltas_status (x : Status) (syms : List Nat) (b : List UInt8) (us : Int) :
    readDeltas (x.sym :: syms) (x.bytes ++ b) us =
      match x.delta with
      | none => (readDeltas syms b us).map (none :: ·)
      | some d => (readDeltas syms b (us + 250 * d)).map (some (us + 250 * d) :: ·) := by
  cases x with
  | absent sym h => rcases h with rfl | rfl <;> rfl
  | small d =>
    have hmul : 250 * (d.toNat : Int) = d.toNat * 250 := Int.mul_comm _ _
    simp only [Status.sym, Status.bytes, Status.delta, List.singleton_append, readDeltas_small,
      hmul]
  | large d h =>
    have hlt : (d % 2 ^ 16).toNat < 2 ^ 16 := by omega
    obtain ⟨x, y, hbytes, hword⟩ := be16_spec hlt
    have hback : (((d % 2 ^ 16).toNat : Nat) : Int).bmod (2 ^ 16) = d := by
      rw [Int.bmod]
      omega
    have hmul : 250 * d = d * 250 := Int.mul_comm _ _
    simp only [Status.sym, Status.bytes, Status.delta, hbytes, List.cons_append, List.nil_append,
      readDeltas_large, hword, hback, hmul]

/-- A symbol and what follows it have a status, or there are too few bytes. -/
theorem exists_status {s : Nat} (hs : s < 4) (syms : List Nat) (b : List UInt8) (us : Int) :
    readDeltas (s :: syms) b us = none ∨ ∃ (x : Status) (b' : List UInt8),
      x.sym = s ∧ b = x.bytes ++ b' := by
  interval_cases s
  · exact .inr ⟨.absent 0 (.inl rfl), b, rfl, rfl⟩
  · match b with
    | [] => exact .inl rfl
    | d :: b => exact .inr ⟨.small d, b, rfl, rfl⟩
  · match b with
    | [] => exact .inl rfl
    | [_] => exact .inl rfl
    | x :: y :: b =>
      have hlt := of16_lt x y
      have hd : -2 ^ 15 ≤ (of16 x y : Int).bmod (2 ^ 16) ∧
          (of16 x y : Int).bmod (2 ^ 16) < 2 ^ 15 := by
        rw [Int.bmod]
        omega
      have hback : ((of16 x y : Int).bmod (2 ^ 16) % 2 ^ 16).toNat = of16 x y := by
        rw [Int.bmod]
        omega
      exact .inr ⟨.large _ hd, b, rfl, by rw [Status.bytes, hback, be16_of16]; rfl⟩
  · exact .inr ⟨.absent 3 (.inr rfl), b, rfl, rfl⟩

theorem sums_cons (x : Option Int) (l : List (Option Int)) (us : Int) : sums (x :: l) us =
    match x with
    | none => none :: sums l us
    | some d => some (us + 250 * d) :: sums l (us + 250 * d) := by
  cases x <;> rfl

/-- What is read are statuses, one for each symbol, and their times. -/
theorem readDeltas_iff {syms : List Nat} (hs : ∀ s ∈ syms, s < 4) {b : List UInt8} {us : Int}
    {out : List (Option Int)} : readDeltas syms b us = some out ↔
      ∃ (l : List Status) (rest : List UInt8), l.map Status.sym = syms ∧
        b = l.flatMap Status.bytes ++ rest ∧ out = sums (l.map Status.delta) us := by
  constructor
  · intro h
    induction syms generalizing b us out with
    | nil => exact ⟨[], b, rfl, rfl, (Option.some.inj h).symm⟩
    | cons s syms ih =>
      have ih := fun {b us out} => @ih (fun s hs' => hs s (List.mem_cons_of_mem _ hs')) b us out
      obtain hnone | ⟨x, b, rfl, rfl⟩ := exists_status (hs s List.mem_cons_self) syms b us
      · rw [hnone] at h
        cases h
      rw [readDeltas_status] at h
      cases hd : x.delta with
      | none =>
        simp only [hd, Option.map_eq_some_iff] at h
        obtain ⟨out, hread, rfl⟩ := h
        obtain ⟨l, rest, rfl, rfl, rfl⟩ := ih hread
        exact ⟨x :: l, rest, rfl, by rw [List.flatMap_cons, List.append_assoc],
          by rw [List.map_cons, sums_cons, hd]⟩
      | some d =>
        simp only [hd, Option.map_eq_some_iff] at h
        obtain ⟨out, hread, rfl⟩ := h
        obtain ⟨l, rest, rfl, rfl, rfl⟩ := ih hread
        exact ⟨x :: l, rest, rfl, by rw [List.flatMap_cons, List.append_assoc],
          by rw [List.map_cons, sums_cons, hd]⟩
  · rintro ⟨l, rest, rfl, rfl, rfl⟩
    clear hs
    induction l generalizing us with
    | nil => rfl
    | cons x l ih =>
      rw [List.map_cons, List.flatMap_cons, List.append_assoc, readDeltas_status, List.map_cons,
        sums_cons]
      cases hd : x.delta with
      | none => simp only [ih, Option.map_some]
      | some d => simp only [ih, Option.map_some]

/-! ## The whole body -/

/-- The reference time has 24 bits with a sign. -/
def signed (n : Nat) : Int := if n &&& 0x800000 ≠ 0 then n - 0x1000000 else n

theorem signed_eq {n : Nat} (hn : n < 2 ^ 24) : signed n = (n : Int).bmod (2 ^ 24) := by
  have hbit : n &&& 0x800000 = 0 ↔ n < 2 ^ 23 := by
    rw [show (0x800000 : Nat) = 2 ^ 23 from rfl, and_bit_eq_zero,
      Nat.testBit_eq_decide_div_mod_eq, decide_eq_false_iff_not]
    omega
  simp only [signed, ne_eq, hbit, Int.bmod]
  split_ifs <;> omega

/-- An account of the packets from a number on, and how it is written: the two streams, the number,
the count, the time where it begins, its own number, the chunks and the deltas. -/
structure Account where
  ssrcs : List UInt8
  base : UInt16
  ref : Int
  fbCount : UInt8
  chunks : List Chunk
  statuses : List Status
  ssrcs_length : ssrcs.length = 8
  ref_fits : -2 ^ 23 ≤ ref ∧ ref < 2 ^ 23
  count_fits : statuses.length < 2 ^ 16
  enough : Enough statuses.length chunks
  symbols : statuses.map Status.sym = (chunks.flatMap Chunk.syms).take statuses.length

namespace Account

variable (a : Account)

def bytes : List UInt8 :=
  a.ssrcs ++ be16 a.base.toNat ++ be16 a.statuses.length ++
    be32 ((a.ref % 2 ^ 24).toNat * 2 ^ 8 + a.fbCount.toNat) ++
    a.chunks.flatMap (be16 <| ·.word) ++ a.statuses.flatMap Status.bytes

def times : List (Option Int) := sums (a.statuses.map Status.delta) (a.ref * 64000)

end Account

/-- The parser behind the fields of the header. -/
theorem parseTwcc_fields {ssrcs : List UInt8} (h : ssrcs.length = 8)
    (b0 b1 c0 c1 t0 t1 t2 t3 : UInt8) (rest : List UInt8) :
    parseTwcc (ssrcs ++ b0 :: b1 :: c0 :: c1 :: t0 :: t1 :: t2 :: t3 :: rest) =
      (readChunks (of16 c0 c1) rest).bind fun x =>
        (readDeltas x.1 x.2 (signed ((of16 t0 t1 * 2 ^ 16 + of16 t2 t3) >>> 8) * 64000)).map
          (of16 b0 b1, ·) := by
  have hget : ∀ i (l : List UInt8), (ssrcs ++ l)[8 + i]? = l[i]? := fun i l => by
    rw [List.getElem?_append_right (by omega), h, Nat.add_sub_cancel_left]
  have hdrop : ∀ l : List UInt8, (ssrcs ++ l).drop 16 = l.drop 8 := fun l => by
    rw [List.drop_append, h, List.drop_of_length_le (by omega), List.nil_append]
  simp only [parseTwcc, get16, get32, hget 0, hget 1, hget 2, hget 3, hget 4, hget 5, hget 6,
    hget 7, hdrop, signed]
  have hmap : ∀ o : Option (List (Option Int)),
      o.map (of16 b0 b1, ·) = o.bind fun out => some (of16 b0 b1, out) := fun o => by
    cases o <;> rfl
  simp only [hmap]
  rfl

theorem parseTwcc_short {body : List UInt8} (h : body.length < 16) : parseTwcc body = none := by
  have hlast : body[15]? = none := List.getElem?_eq_none (by omega)
  simp [parseTwcc, get32, get16, hlast]

/-- The word of the reference time, and what it is made of. -/
theorem ref_word {ref : Int} (hlow : -2 ^ 23 ≤ ref) (hhigh : ref < 2 ^ 23) (fb : UInt8) :
    ∃ t0 t1 t2 t3, be32 ((ref % 2 ^ 24).toNat * 2 ^ 8 + fb.toNat) = [t0, t1, t2, t3] ∧
      signed ((of16 t0 t1 * 2 ^ 16 + of16 t2 t3) >>> 8) = ref := by
  have hfb := fb.toNat_lt
  refine ⟨_, _, _, _, rfl, ?_⟩
  rw [of32_be32 (by omega), Nat.shiftRight_eq_div_pow, signed_eq (by omega), Int.bmod]
  omega

theorem word_ref (t0 t1 t2 t3 : UInt8) :
    let ref := signed ((of16 t0 t1 * 2 ^ 16 + of16 t2 t3) >>> 8)
    (-2 ^ 23 ≤ ref ∧ ref < 2 ^ 23) ∧
      be32 ((ref % 2 ^ 24).toNat * 2 ^ 8 + t3.toNat) = [t0, t1, t2, t3] := by
  intro ref
  have h01 := of16_lt t0 t1
  have h2 := t2.toNat_lt
  have h3 := t3.toNat_lt
  have hshift : (of16 t0 t1 * 2 ^ 16 + of16 t2 t3) >>> 8 = of16 t0 t1 * 2 ^ 8 + t2.toNat := by
    rw [Nat.shiftRight_eq_div_pow, of16, of16]
    omega
  have href : ref = (((of16 t0 t1 * 2 ^ 8 + t2.toNat : Nat) : Int)).bmod (2 ^ 24) := by
    rw [← hshift]
    exact signed_eq (by omega)
  have hback : (ref % 2 ^ 24).toNat = of16 t0 t1 * 2 ^ 8 + t2.toNat := by
    rw [href, Int.bmod]
    omega
  have hword : (of16 t0 t1 * 2 ^ 8 + t2.toNat) * 2 ^ 8 + t3.toNat =
      of16 t0 t1 * 2 ^ 16 + of16 t2 t3 := by
    have hlow : of16 t2 t3 = t2.toNat * 256 + t3.toNat := rfl
    omega
  refine ⟨?_, by rw [hback, hword, be32_of16]⟩
  rw [href, Int.bmod]
  omega

/-- **What is accepted is an account**, and an account is accepted as what it tells, whatever is
behind it. -/
theorem parseTwcc_exact (body : List UInt8) (base : Nat) (out : List (Option Int)) :
    parseTwcc body = some (base, out) ↔ ∃ (a : Account) (rest : List UInt8),
      body = a.bytes ++ rest ∧ base = a.base.toNat ∧ out = a.times := by
  constructor
  · intro h
    have hlen : 16 ≤ body.length := by
      by_contra hshort
      rw [parseTwcc_short (by omega)] at h
      cases h
    obtain ⟨ssrcs, hssrcs, b0, b1, c0, c1, t0, t1, t2, t3, rest, rfl⟩ : ∃ ssrcs : List UInt8,
        ssrcs.length = 8 ∧ ∃ b0 b1 c0 c1 t0 t1 t2 t3 rest,
          body = ssrcs ++ b0 :: b1 :: c0 :: c1 :: t0 :: t1 :: t2 :: t3 :: rest := by
      have hrest : 8 ≤ (body.drop 8).length := by
        rw [List.length_drop]
        omega
      refine ⟨body.take 8, by rw [List.length_take]; omega, ?_⟩
      match hd : body.drop 8, hrest with
      | b0 :: b1 :: c0 :: c1 :: t0 :: t1 :: t2 :: t3 :: rest, _ =>
        exact ⟨b0, b1, c0, c1, t0, t1, t2, t3, rest, by rw [← hd, List.take_append_drop]⟩
    rw [parseTwcc_fields hssrcs, Option.bind_eq_some_iff] at h
    obtain ⟨⟨syms, deltas⟩, hchunks, h⟩ := h
    obtain ⟨out', hdeltas, heq⟩ := Option.map_eq_some_iff.1 h
    obtain ⟨rfl, rfl⟩ := Prod.mk.inj heq
    obtain ⟨cs, henough, rfl, rfl⟩ := readChunks_iff.1 hchunks
    have hsyms : ∀ s ∈ (cs.flatMap Chunk.syms).take (of16 c0 c1), s < 4 := fun s hs => by
      obtain ⟨c, -, hc⟩ := List.mem_flatMap.1 (List.mem_of_mem_take hs)
      exact c.syms_lt hc
    obtain ⟨l, rest, hl, rfl, rfl⟩ := (readDeltas_iff hsyms).1 hdeltas
    have hcount : l.length = of16 c0 c1 := by
      have := congrArg List.length hl
      rw [List.length_map, List.length_take] at this
      have := henough.1
      omega
    have hword := word_ref t0 t1 t2 t3
    have hbase : (UInt16.ofNat (of16 b0 b1)).toNat = of16 b0 b1 :=
      UInt16.toNat_ofNat_of_lt' (of16_lt b0 b1)
    refine ⟨⟨ssrcs, .ofNat (of16 b0 b1), _, t3, cs, l, hssrcs, hword.1,
      hcount ▸ of16_lt c0 c1, hcount ▸ henough, hcount ▸ hl⟩, rest, ?_, hbase.symm, rfl⟩
    simp only [Account.bytes, hbase, hcount, be16_of16, hword.2, List.append_assoc,
      List.cons_append, List.nil_append]
  · rintro ⟨a, rest, rfl, rfl, rfl⟩
    obtain ⟨b0, b1, hbase, hb⟩ := be16_spec a.base.toNat_lt
    obtain ⟨c0, c1, hcount, hc⟩ := be16_spec a.count_fits
    obtain ⟨t0, t1, t2, t3, href, ht⟩ := ref_word a.ref_fits.1 a.ref_fits.2 a.fbCount
    have hsyms : ∀ s ∈ a.statuses.map Status.sym, s < 4 := fun s hs => by
      rw [a.symbols] at hs
      obtain ⟨c, -, hc⟩ := List.mem_flatMap.1 (List.mem_of_mem_take hs)
      exact c.syms_lt hc
    have hchunks : readChunks a.statuses.length (a.chunks.flatMap (be16 <| ·.word) ++
        (a.statuses.flatMap Status.bytes ++ rest)) =
        some (a.statuses.map Status.sym, a.statuses.flatMap Status.bytes ++ rest) :=
      readChunks_iff.2 ⟨a.chunks, a.enough, rfl, a.symbols⟩
    have hdeltas : readDeltas (a.statuses.map Status.sym) (a.statuses.flatMap Status.bytes ++ rest)
        (a.ref * 64000) = some a.times :=
      (readDeltas_iff hsyms).2 ⟨a.statuses, rest, rfl, rfl, rfl⟩
    simp only [Account.bytes, hbase, hcount, href, List.append_assoc, List.cons_append,
      List.nil_append]
    rw [parseTwcc_fields a.ssrcs_length, hc, hchunks, Option.bind_some, ht, hdeltas, hb]
    rfl

end OxlensSfu.Rtcp
