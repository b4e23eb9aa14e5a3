import Mathlib.Data.Int.ModEq
import Mathlib.Data.List.Induction
import Mathlib.Tactic.Ring

/-!
# What a stream lost

The statistics of a received stream, told to its sender once a second (`RecvStats`,
`crates/oxsfud/src/rtcp/core.rs`). Numbers have 16 bits, so the receiver counts the turns, puts up
with a jump ahead of less than 3000 and with up to 99 numbers behind the highest, and takes two
numbers in a row before it believes a stream. Arithmetic wraps, as it does in a release build. The
jitter is a floating-point number and left out.

**The reference** knows the true numbers of the packets, in the order in which they came: the
second one is the base, the highest one ends what was expected, and every packet from the base on
counts.

**Theorem (`report_eq_reference`).** On a stream whose numbers stay near the highest one, a report
says what the reference says, wherever the reports before it were. The number of turns is counted
from the base, so the highest number comes out up to the turns before it.

The invariant (`Follows`) takes each counter to the number of the reference that it stands for.
-/

namespace OxlensSfu.Rtcp

/-! ## The receiver -/

def minSequential : UInt32 := 2
def maxDropout : UInt32 := 3000
def maxMisorder : UInt32 := 100
def seqMod : UInt32 := 65536

structure RecvStats where
  clock : UInt32
  maxSeq : UInt16 := 0
  cycles : UInt32 := 0
  baseSeq : UInt32 := 0
  badSeq : UInt32 := 0
  probation : UInt32 := 0
  received : UInt32 := 0
  expectedPrior : UInt32 := 0
  receivedPrior : UInt32 := 0
  transit : Option UInt32 := none
  started : Bool := false
  packets : Nat := 0
  bytes : Nat := 0

structure Report where
  fraction : UInt8
  lost : Int
  extendedMax : UInt32
  deriving DecidableEq

namespace RecvStats

variable (r : RecvStats)

def initSeq (seq : UInt16) : RecvStats :=
  { r with
    baseSeq := seq.toUInt32
    maxSeq := seq
    badSeq := seqMod + 1
    cycles := 0
    received := 0
    receivedPrior := 0
    expectedPrior := 0 }

/-- The first packet, before it is looked at. -/
def start (seq : UInt16) : RecvStats :=
  if r.started then r
  else
    { initSeq { r with started := true } seq with
      maxSeq := seq - 1
      probation := minSequential }

/-- A packet of a stream that is believed. -/
def count (seq : UInt16) : Bool × RecvStats :=
  let udelta := (seq - r.maxSeq).toUInt32
  if udelta < maxDropout then
    let cycles := if seq < r.maxSeq then r.cycles + seqMod else r.cycles
    (true, { r with cycles := cycles, maxSeq := seq, received := r.received + 1 })
  else if udelta ≤ seqMod - maxMisorder then
    if seq.toUInt32 = r.badSeq then
      let r := r.initSeq seq
      (true, { r with received := r.received + 1 })
    else (false, { r with badSeq := (seq.toUInt32 + 1) &&& (seqMod - 1) })
  else (true, { r with received := r.received + 1 })

def updateSeq (seq : UInt16) : Bool × RecvStats :=
  let r := r.start seq
  if 0 < r.probation then
    if seq = r.maxSeq + 1 then
      let r := { r with probation := r.probation - 1, maxSeq := seq }
      if r.probation = 0 then
        let r := r.initSeq seq
        (true, { r with received := r.received + 1 })
      else (false, r)
    else (false, { r with probation := minSequential - 1, maxSeq := seq })
  else r.count seq

def update (seq : UInt16) (ts : UInt32) (arrivalMs bytes : Nat) : Bool × RecvStats :=
  let (valid, r) := r.updateSeq seq
  let arrival := UInt32.ofNat (arrivalMs * r.clock.toNat / 1000)
  (valid,
    { r with
      packets := r.packets + 1
      bytes := r.bytes + bytes
      transit := some (arrival - ts) })

def extendedMax : UInt32 := r.cycles + r.maxSeq.toUInt32

/-- What has been expected since the base. -/
def expected : UInt32 := r.extendedMax - r.baseSeq + 1

def report : Option Report × RecvStats :=
  if !r.started || 0 < r.probation then (none, r)
  else
    let lost := max (-0x800000) (min 0x7fffff ((r.expected.toNat : Int) - r.received.toNat))
    let expectedInterval := r.expected - r.expectedPrior
    let receivedInterval := r.received - r.receivedPrior
    let lostInterval : Int := expectedInterval.toNat - receivedInterval.toNat
    let fraction : UInt8 :=
      if expectedInterval = 0 ∨ lostInterval ≤ 0 then 0
      else UInt8.ofInt (min (lostInterval * 2 ^ 8 / expectedInterval.toNat) 255)
    (some { fraction := fraction, lost := lost, extendedMax := r.extendedMax },
      { r with expectedPrior := r.expected, receivedPrior := r.received })

end RecvStats

/-! ## The reference -/

/-- The highest number, from `b` on. -/
def highest (b : Int) (ns : List Int) : Int := ns.foldl max b

/-- The numbers from the base to the highest one. The base is the second packet. -/
def expectedOf : List Int → Int
  | _ :: b :: ns => highest b ns - b + 1
  | _ => 0

/-- The packets from the base on. -/
def countedOf (ns : List Int) : Int := (ns.length - 1 : Nat)

/-- What a report says when these packets came, of which these were told of before. -/
def lostOf (came : List Int) : Int :=
  max (-0x800000) (min 0x7fffff (expectedOf came - countedOf came))

/-- The part that is lost when `counted` of `expected` packets came, in 256ths. -/
def fractionAt (expected counted : Int) : Int :=
  if expected - counted ≤ 0 then 0 else min 255 (256 * (expected - counted) / expected)

def fractionOf (came told : List Int) : Int :=
  fractionAt (expectedOf came - expectedOf told) (countedOf came - countedOf told)

/-! ## Runs -/

inductive Arrival where
  /-- A packet with its true number. -/
  | packet (n : Int) (ts : UInt32) (arrivalMs bytes : Nat)
  | report

/-- The receiver, the numbers that came, and those that had come at the last report. -/
structure Stream where
  stats : RecvStats
  came : List Int := []
  told : List Int := []

namespace Stream

def step (s : Stream) : Arrival → Stream
  | .packet n ts ms bytes =>
    { s with stats := (s.stats.update (.ofInt n) ts ms bytes).2, came := s.came ++ [n] }
  | .report => { s with stats := s.stats.report.2, told := s.came }

def run (clock : UInt32) (es : List Arrival) : Stream := es.foldl step { stats := { clock := clock } }

end Stream

/-- Every number is near the highest one before it. -/
def NearTop (h : Int) : List Int → Prop
  | [] => True
  | n :: ns => (h - 99 ≤ n ∧ n < h + 3000) ∧ NearTop (max h n) ns

/-- Two numbers in a row, then numbers near the highest one, fewer than 32 bits can count. -/
def Regular (ns : List Int) : Prop :=
  ns.length < 2 ^ 32 ∧ expectedOf ns < 2 ^ 32 ∧
    match ns with
    | a :: b :: ns => b = a + 1 ∧ NearTop b ns
    | _ => True

/-! ## Numbers -/

theorem toNat_ofInt16 (n : Int) : ((UInt16.ofInt n).toNat : Int) = n % 2 ^ 16 := by
  rw [UInt16.ofInt, UInt16.toNat_ofNat']
  omega

theorem toNat_ofInt8 {n : Int} (h : 0 ≤ n) (h' : n < 2 ^ 8) : ((UInt8.ofInt n).toNat : Int) = n := by
  rw [UInt8.ofInt, UInt8.toNat_ofNat']
  omega

@[simp] theorem highest_nil (b : Int) : highest b [] = b := rfl

@[simp] theorem highest_concat (b n : Int) (ns : List Int) :
    highest b (ns ++ [n]) = max (highest b ns) n := by
  rw [highest, List.foldl_append]
  rfl

theorem nearTop_concat {h n : Int} {ns : List Int} : NearTop h (ns ++ [n]) ↔
    NearTop h ns ∧ highest h ns - 99 ≤ n ∧ n < highest h ns + 3000 := by
  induction ns generalizing h with
  | nil => simp [NearTop]
  | cons m ns ih =>
    rw [List.cons_append, NearTop, NearTop, ih, ← and_assoc]
    rfl

/-! ## Counting -/

/-- What the counters of a believed stream stand for: the base, the highest number, the packets
from the base on, and what was expected and had come at the last report. -/
structure Counts (r : RecvStats) (b h c e p : Int) : Prop where
  started : r.started = true
  probation : r.probation = 0
  maxSeq : (r.maxSeq.toNat : Int) = h % 2 ^ 16
  cycles : (r.cycles.toNat : Int) = 2 ^ 16 * (h / 2 ^ 16 - b / 2 ^ 16) % 2 ^ 32
  baseSeq : (r.baseSeq.toNat : Int) = b % 2 ^ 16
  received : (r.received.toNat : Int) = c
  expectedPrior : (r.expectedPrior.toNat : Int) = e
  receivedPrior : (r.receivedPrior.toNat : Int) = p

namespace Counts

variable {r : RecvStats} {b h c e p n : Int}

/-- How far the number of a packet is ahead of the highest. -/
theorem ahead (hr : Counts r b h c e p) (n : Int) :
    ((UInt16.ofInt n - r.maxSeq).toUInt32.toNat : Int) = (n - h) % 2 ^ 16 := by
  have hn := toNat_ofInt16 n
  have hmax := hr.maxSeq
  have hlt := r.maxSeq.toNat_lt
  rw [UInt16.toNat_toUInt32, UInt16.toNat_sub]
  omega

theorem received_succ (hr : Counts r b h c e p) (hc : c + 1 < 2 ^ 32) :
    ((r.received + 1).toNat : Int) = c + 1 := by
  have := hr.received
  rw [UInt32.toNat_add, show (1 : UInt32).toNat = 1 from rfl]
  omega

/-- A turn is over when a higher number is the smaller one of the two in 16 bits. -/
theorem turns (hr : Counts r b h c e p) (hge : h ≤ n) (hlt : n < h + 2 ^ 16) :
    ((if .ofInt n < r.maxSeq then r.cycles + seqMod else r.cycles).toNat : Int) =
      2 ^ 16 * (n / 2 ^ 16 - b / 2 ^ 16) % 2 ^ 32 := by
  have hn := toNat_ofInt16 n
  have hmax := hr.maxSeq
  have hcycles := hr.cycles
  split
  · next hwrap =>
    have hsmall := UInt16.lt_iff_toNat_lt.mp hwrap
    rw [UInt32.toNat_add, show seqMod.toNat = 2 ^ 16 from rfl]
    omega
  · next hsame =>
    have hsmall := mt UInt16.lt_iff_toNat_lt.mpr hsame
    omega

/-- **A packet near the highest one counts**, and is the highest one when it is ahead. -/
theorem count (hr : Counts r b h c e p) (hlow : h - 99 ≤ n) (hhigh : n < h + 3000)
    (hc : c + 1 < 2 ^ 32) : Counts (r.count (.ofInt n)).2 b (max h n) (c + 1) e p := by
  have hahead := hr.ahead n
  have hnext := hr.received_succ hc
  rw [RecvStats.count]
  split
  · next hdrop =>
    have hd := UInt32.lt_iff_toNat_lt.mp hdrop
    rw [show maxDropout.toNat = 3000 from rfl] at hd
    have hge : h ≤ n := by omega
    rw [max_eq_right hge]
    exact { hr with
      maxSeq := toNat_ofInt16 n
      cycles := hr.turns hge (by omega)
      received := hnext }
  · next hdrop =>
    have hd := mt UInt32.lt_iff_toNat_lt.mpr hdrop
    rw [show maxDropout.toNat = 3000 from rfl] at hd
    have hlt : n < h := by omega
    rw [if_neg, max_eq_left hlt.le]
    · exact { hr with received := hnext }
    · intro hmis
      have hm := UInt32.le_iff_toNat_le.mp hmis
      rw [show (seqMod - maxMisorder).toNat = 65436 from rfl] at hm
      omega

theorem update (hr : Counts r b h c e p) (hlow : h - 99 ≤ n) (hhigh : n < h + 3000)
    (hc : c + 1 < 2 ^ 32) (ts : UInt32) (ms bytes : Nat) :
    Counts (r.update (.ofInt n) ts ms bytes).2 b (max h n) (c + 1) e p := by
  have hcount := hr.count hlow hhigh hc
  have hseq : r.updateSeq (.ofInt n) = r.count (.ofInt n) := by
    rw [RecvStats.updateSeq, RecvStats.start, if_pos hr.started, hr.probation]
    exact if_neg (by decide)
  rw [RecvStats.update, hseq]
  exact { hcount with }

theorem extendedMax (hr : Counts r b h c e p) :
    (r.extendedMax.toNat : Int) = (h - 2 ^ 16 * (b / 2 ^ 16)) % 2 ^ 32 := by
  have hmax := hr.maxSeq
  have hcycles := hr.cycles
  rw [RecvStats.extendedMax, UInt32.toNat_add, UInt16.toNat_toUInt32]
  omega

theorem expected (hr : Counts r b h c e p) (hb : b ≤ h) (hspan : h - b + 1 < 2 ^ 32) :
    (r.expected.toNat : Int) = h - b + 1 := by
  have hext := hr.extendedMax
  have hbase := hr.baseSeq
  have hlt := r.baseSeq.toNat_lt
  rw [RecvStats.expected, UInt32.toNat_add, UInt32.toNat_sub, show (1 : UInt32).toNat = 1 from rfl]
  omega

/-- What is told: the highest number, the loss since the base and the loss since the last time. -/
theorem report (hr : Counts r b h c e p) (hb : b ≤ h) (hspan : h - b + 1 < 2 ^ 32)
    (he : e ≤ h - b + 1) (hp : p ≤ c) :
    ∃ x, r.report.1 = some x ∧ x.extendedMax = r.extendedMax ∧
      x.lost = max (-0x800000) (min 0x7fffff (h - b + 1 - c)) ∧
      (x.fraction.toNat : Int) = fractionAt (h - b + 1 - e) (c - p) ∧
      Counts r.report.2 b h c (h - b + 1) c := by
  have hexp := hr.expected hb hspan
  have hprior := hr.expectedPrior
  have hrec := hr.received
  have hrecPrior := hr.receivedPrior
  have hlt := r.received.toNat_lt
  have hlive : (!r.started || decide (0 < r.probation)) = false := by
    rw [hr.started, hr.probation]
    rfl
  have hde : ((r.expected - r.expectedPrior).toNat : Int) = h - b + 1 - e := by
    rw [UInt32.toNat_sub]
    omega
  have hdr : ((r.received - r.receivedPrior).toNat : Int) = c - p := by
    rw [UInt32.toNat_sub]
    omega
  rw [RecvStats.report, hlive]
  refine ⟨_, rfl, rfl, ?_, ?_, { hr with expectedPrior := hexp, receivedPrior := hrec }⟩
  · rw [hexp, hrec]
  · dsimp only
    rw [hde, hdr, fractionAt]
    by_cases hloss : h - b + 1 - e - (c - p) ≤ 0
    · rw [if_pos (.inr hloss), if_pos hloss]
      rfl
    · have hpos : 0 < h - b + 1 - e := by omega
      have hne : ¬ r.expected - r.expectedPrior = 0 := by
        intro h0
        rw [h0, show (0 : UInt32).toNat = 0 from rfl] at hde
        omega
      have hnonneg : 0 ≤ (h - b + 1 - e - (c - p)) * 2 ^ 8 / (h - b + 1 - e) :=
        Int.ediv_nonneg (by omega) hpos.le
      rw [if_neg (by rintro (h0 | h0); exacts [hne h0, hloss h0]), if_neg hloss, toNat_ofInt8,
        min_comm, mul_comm, show (2 : Int) ^ 8 = 256 from rfl]
      · omega
      · omega

end Counts

/-! ## The reference followed -/

/-- The receiver before a stream is believed, and what its counters stand for from then on. -/
def Follows (s : Stream) : Prop :=
  match s.came with
  | [] => s.stats.started = false ∧ s.told = []
  | [a] => s.stats.started = true ∧ s.stats.probation = 1 ∧ s.stats.maxSeq = .ofInt a ∧
      s.told.length ≤ 1
  | a :: b :: ns => b ≤ highest b ns ∧ expectedOf s.told ≤ expectedOf (a :: b :: ns) ∧
      countedOf s.told ≤ countedOf (a :: b :: ns) ∧
      Counts s.stats b (highest b ns) (countedOf (a :: b :: ns)) (expectedOf s.told)
        (countedOf s.told)

theorem ofInt16_succ (n : Int) : UInt16.ofInt (n + 1) = .ofInt n + 1 := by
  have hn := toNat_ofInt16 n
  have hs := toNat_ofInt16 (n + 1)
  refine UInt16.toNat_inj.mp ?_
  rw [UInt16.toNat_add, show (1 : UInt16).toNat = 1 from rfl]
  omega

theorem expectedOf_concat_le (ns : List Int) (n : Int) : expectedOf ns ≤ expectedOf (ns ++ [n]) := by
  match ns with
  | [] => exact le_refl _
  | [a] =>
    simp only [List.cons_append, List.nil_append, expectedOf, highest_nil]
    omega
  | a :: b :: ns =>
    simp only [List.cons_append, expectedOf, highest_concat]
    omega

theorem countedOf_concat_le (ns : List Int) (n : Int) : countedOf ns ≤ countedOf (ns ++ [n]) := by
  rw [countedOf, countedOf, List.length_append]
  omega

theorem Regular.init {ns : List Int} {n : Int} (h : Regular (ns ++ [n])) : Regular ns := by
  obtain ⟨hlen, hspan, hnear⟩ := h
  rw [List.length_append] at hlen
  refine ⟨by omega, (expectedOf_concat_le ns n).trans_lt hspan, ?_⟩
  match ns with
  | [] => trivial
  | [a] => trivial
  | a :: b :: ns => exact ⟨hnear.1, (nearTop_concat.mp hnear.2).1⟩

/-- The first packet of all. -/
theorem update_first {r : RecvStats} (hr : r.started = false) (n : Int) (ts : UInt32)
    (ms bytes : Nat) :
    let r' := (r.update (.ofInt n) ts ms bytes).2
    r'.started = true ∧ r'.probation = 1 ∧ r'.maxSeq = .ofInt n := by
  have hstart : r.start (.ofInt n) =
      { RecvStats.initSeq { r with started := true } (.ofInt n) with
        maxSeq := .ofInt n - 1
        probation := minSequential } := by
    rw [RecvStats.start, hr]
    rfl
  have hseq : UInt16.ofInt n = .ofInt n - 1 + 1 := (UInt16.sub_add_cancel _ _).symm
  rw [RecvStats.update, RecvStats.updateSeq, hstart]
  simp only
  rw [if_pos (show 0 < minSequential by decide), if_pos hseq,
    if_neg (show ¬ minSequential - 1 = 0 by decide)]
  exact ⟨rfl, show minSequential - 1 = 1 by decide, rfl⟩

/-- The packet that makes the receiver believe the stream. -/
theorem update_second {r : RecvStats} {a : Int} (hr : r.started = true) (hp : r.probation = 1)
    (hmax : r.maxSeq = .ofInt a) (ts : UInt32) (ms bytes : Nat) :
    Counts (r.update (.ofInt (a + 1)) ts ms bytes).2 (a + 1) (a + 1) 1 0 0 := by
  have hn := toNat_ofInt16 (a + 1)
  rw [RecvStats.update, RecvStats.updateSeq, RecvStats.start, if_pos hr]
  simp only
  rw [hp, if_pos (show (0 : UInt32) < 1 by decide), hmax, if_pos (ofInt16_succ a),
    if_pos (show (1 : UInt32) - 1 = 0 by decide)]
  exact {
    started := hr
    probation := rfl
    maxSeq := hn
    cycles := by
      show ((0 : UInt32).toNat : Int) = _
      rw [sub_self]
      rfl
    baseSeq := (congrArg Int.ofNat (UInt16.toNat_toUInt32 _)).trans hn
    received := rfl
    expectedPrior := rfl
    receivedPrior := rfl }

theorem Follows.packet {s : Stream} {n : Int} (hs : Follows s) (hreg : Regular (s.came ++ [n]))
    (ts : UInt32) (ms bytes : Nat) : Follows (s.step (.packet n ts ms bytes)) := by
  obtain ⟨stats, came, told⟩ := s
  match came with
  | [] =>
    obtain ⟨hstart, htold⟩ := hs
    dsimp only at htold
    subst htold
    obtain ⟨h1, h2, h3⟩ := update_first hstart n ts ms bytes
    exact ⟨h1, h2, h3, Nat.zero_le 1⟩
  | [a] =>
    obtain ⟨hstart, hprob, hmax, htold⟩ := hs
    have hn : n = a + 1 := hreg.2.2.1
    subst hn
    have hzero : expectedOf told = 0 ∧ countedOf told = 0 := by
      match told with
      | [] => exact ⟨rfl, rfl⟩
      | [b] => exact ⟨rfl, rfl⟩
    have hcounts := update_second hstart hprob hmax ts ms bytes
    have hexp : expectedOf told ≤ expectedOf [a, a + 1] := by
      rw [hzero.1, expectedOf, highest_nil]
      omega
    have hcnt : countedOf told ≤ countedOf [a, a + 1] := by
      rw [hzero.2]
      exact Int.natCast_nonneg _
    refine ⟨le_refl _, hexp, hcnt, ?_⟩
    dsimp only [Stream.step]
    rw [hzero.1, hzero.2]
    exact hcounts
  | a :: b :: ns =>
    obtain ⟨hb, hexp, hcnt, hcounts⟩ := hs
    obtain ⟨hlen, -, -, hnear⟩ := hreg
    obtain ⟨-, hlow, hhigh⟩ := nearTop_concat.mp hnear
    have hc : countedOf (a :: b :: ns) + 1 = countedOf (a :: b :: (ns ++ [n])) := by
      simp only [countedOf, List.length_cons, List.length_append, List.length_nil]
      omega
    have hlt : countedOf (a :: b :: ns) + 1 < 2 ^ 32 := by
      simp only [countedOf, List.length_cons, List.length_append, List.length_nil] at hlen ⊢
      omega
    have h := hcounts.update hlow hhigh hlt ts ms bytes
    have hmax := highest_concat b n ns
    have hb : b ≤ highest b (ns ++ [n]) := by omega
    rw [hc, ← hmax] at h
    exact ⟨hb, hexp.trans (expectedOf_concat_le (a :: b :: ns) n),
      hcnt.trans (countedOf_concat_le (a :: b :: ns) n), h⟩

theorem RecvStats.report_unbelieved {r : RecvStats} (h : r.started = false ∨ 0 < r.probation) :
    r.report = (none, r) := by
  have hlive : (!r.started || decide (0 < r.probation)) = true := by
    rcases h with h | h
    · rw [h]
      rfl
    · rw [decide_eq_true h, Bool.or_true]
  rw [report, hlive]
  rfl

theorem Follows.unbelieved {s : Stream} (hs : Follows s) (h : s.came.length < 2) :
    s.stats.report = (none, s.stats) := by
  obtain ⟨stats, came, told⟩ := s
  refine RecvStats.report_unbelieved ?_
  rcases came with _ | ⟨a, _ | ⟨b, ns⟩⟩
  · exact .inl hs.1
  · obtain ⟨-, hprob, -⟩ := hs
    exact .inr (hprob ▸ show (0 : UInt32) < 1 by decide)
  · simp only [List.length_cons] at h
    omega

theorem Follows.report {s : Stream} (hs : Follows s) (hreg : Regular s.came) :
    Follows (s.step .report) := by
  by_cases hlen : s.came.length < 2
  · have hsame := hs.unbelieved hlen
    obtain ⟨stats, came, told⟩ := s
    rw [Stream.step, hsame]
    rcases came with _ | ⟨a, _ | ⟨b, ns⟩⟩
    · exact ⟨hs.1, rfl⟩
    · exact ⟨hs.1, hs.2.1, hs.2.2.1, le_refl 1⟩
    · simp only [List.length_cons] at hlen
      omega
  · obtain ⟨stats, came, told⟩ := s
    rcases came with _ | ⟨a, _ | ⟨b, ns⟩⟩
    · exact absurd Nat.two_pos hlen
    · exact absurd Nat.one_lt_two hlen
    · obtain ⟨hb, hexp, hcnt, hcounts⟩ := hs
      obtain ⟨x, -, -, -, -, h⟩ := hcounts.report hb hreg.2.1 hexp hcnt
      exact ⟨hb, le_refl _, le_refl _, h⟩

theorem Stream.run_concat (clock : UInt32) (es : List Arrival) (e : Arrival) :
    run clock (es ++ [e]) = (run clock es).step e := by
  rw [run, List.foldl_append]
  rfl

theorem follows_run (clock : UInt32) (es : List Arrival) (h : Regular (Stream.run clock es).came) :
    Follows (Stream.run clock es) := by
  induction es using List.reverseRecOn with
  | nil => exact ⟨rfl, rfl⟩
  | append_singleton es e ih =>
    rw [Stream.run_concat] at h ⊢
    cases e with
    | packet n ts ms bytes => exact (ih h.init).packet h ts ms bytes
    | report => exact (ih h).report h

/-- **A report says what the reference says.** -/
theorem report_eq_reference (clock : UInt32) (es : List Arrival)
    (h : Regular (Stream.run clock es).came) :
    let s := Stream.run clock es
    (s.came.length < 2 → s.stats.report = (none, s.stats)) ∧
    ∀ a b ns, s.came = a :: b :: ns → ∃ x, s.stats.report.1 = some x ∧
      (x.extendedMax.toNat : Int) ≡ highest b ns [ZMOD 2 ^ 16] ∧
      (x.extendedMax.toNat : Int) ≡ highest b ns - 2 ^ 16 * (b / 2 ^ 16) [ZMOD 2 ^ 32] ∧
      x.lost = lostOf s.came ∧ (x.fraction.toNat : Int) = fractionOf s.came s.told := by
  intro s
  have hs := follows_run clock es h
  refine ⟨hs.unbelieved, fun a b ns hcame => ?_⟩
  have hspan := h.2.1
  change Follows s at hs
  change expectedOf s.came < _ at hspan
  rw [Follows, hcame] at hs
  rw [hcame] at hspan ⊢
  obtain ⟨hb, hexp, hcnt, hcounts⟩ := hs
  obtain ⟨x, hx, hext, hlost, hfrac, -⟩ := hcounts.report hb hspan hexp hcnt
  have hmax := hcounts.extendedMax
  refine ⟨x, hx, ?_, ?_, hlost, hfrac⟩
  · rw [hext, Int.ModEq]
    omega
  · rw [hext, Int.ModEq]
    omega

/-- A number is left out where the numbers wrap, and a late one comes after a report. -/
def acrossWrap : List Arrival :=
  [.packet 65534 0 0 100, .packet 65535 0 20 100, .report, .packet 65538 0 40 100,
    .packet 65537 0 50 100]

theorem report_eq_reference_acrossWrap :
    ∃ x, (Stream.run 90000 acrossWrap).stats.report.1 = some x ∧
      (x.extendedMax.toNat : Int) ≡ 65538 [ZMOD 2 ^ 16] ∧
      (x.extendedMax.toNat : Int) ≡ 65538 [ZMOD 2 ^ 32] ∧
      x.lost = 1 ∧ (x.fraction.toNat : Int) = 85 :=
  (report_eq_reference 90000 acrossWrap
    ⟨by decide, by decide, rfl, ⟨by decide, by decide⟩, ⟨by decide, by decide⟩, trivial⟩).2
    65534 65535 [65538, 65537] rfl

end OxlensSfu.Rtcp
