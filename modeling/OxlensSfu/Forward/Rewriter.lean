import Mathlib.Data.List.DropRight
import OxlensSfu.Lib.Machine
import OxlensSfu.Lib.Serial

/-!
# The rewriter

One downlink stream is fed by one source after another. The rewriter of
`crates/oxsfud/src/fwd/core.rs` keeps its numbers contiguous with a single offset, which it sets
when the source switches, and takes a NACK of the receiver back to the number of the source.

A NACK of a number sent before the switch must not be taken back, so `unmapNack` compares with the
first number after the switch. The comparison is one of serial numbers, and half a circle later it
turns around: from then on the packets of the current source are taken for old ones (`NearFirst`).
-/

namespace OxlensSfu.Fwd

/-! ## The model -/

/-- How many packets of a source are kept for retransmission. -/
def cache : Nat := 1024

/-- The highest packet sent so far; `covers` is its length in ticks. -/
structure Last where
  seq : BitVec 16
  ts : BitVec 32
  atMs : Nat
  covers : Nat
  deriving DecidableEq, Repr

structure Rewriter where
  clock : Nat
  src : Option Nat := none
  seqOff : BitVec 16 := 0
  tsOff : BitVec 32 := 0
  last : Option Last := none
  boundary : Option (BitVec 16) := none
  switches : Nat := 0
  lastOutAt : Nat := 0
  deriving DecidableEq, Repr

structure Mapped where
  seq : BitVec 16
  ts : BitVec 32
  switched : Bool
  deriving DecidableEq, Repr

/-- The arguments of `map`. -/
structure Packet where
  src : Nat
  seq : BitVec 16
  ts : BitVec 32
  atMs : Nat
  covers : Nat
  deriving DecidableEq, Repr

namespace Rewriter

def new (clock : Nat) : Rewriter := { clock }

/-- The offsets for another source: the numbers go on after the last one, the time stamps by what
that packet covers or by the time that has passed, whichever is more. -/
def switchTo (r : Rewriter) (p : Packet) : Rewriter :=
  let r := match r.last with
    | none => { r with seqOff := 0, tsOff := 0 }
    | some l =>
      let elapsed := max (p.atMs - l.atMs) 1
      let ticks := elapsed * r.clock / 1000 % 2 ^ 64
      let tick := max (max l.covers 1) ticks % 2 ^ 32
      { r with
        seqOff := l.seq + 1 - p.seq
        tsOff := l.ts + BitVec.ofNat 32 tick - p.ts }
  { r with
    switches := if r.src.isSome || r.last.isSome then r.switches + 1 else r.switches
    src := some p.src
    boundary := some (p.seq + r.seqOff) }

def map (r : Rewriter) (p : Packet) : Rewriter × Mapped :=
  let switched := r.src != some p.src && (r.src.isSome || r.last.isSome)
  let r := if r.src = some p.src then r else r.switchTo p
  let outSeq := p.seq + r.seqOff
  let outTs := p.ts + r.tsOff
  let advance := match r.last with
    | none => true
    | some l => switched || serialAfter outSeq l.seq
  ({ r with
      last := if advance then some ⟨outSeq, outTs, p.atMs, p.covers⟩ else r.last
      lastOutAt := p.atMs },
    ⟨outSeq, outTs, switched⟩)

def unmapNack (r : Rewriter) (outSeq : BitVec 16) : Option (BitVec 16) :=
  if r.boundary.any (serialAfter · outSeq) then none else some (outSeq - r.seqOff)

end Rewriter

/-! ## Runs -/

/-- The rewriter takes any packet. -/
def rewriter : Machine Rewriter Packet where
  ok _ _ := True
  next r p := (r.map p).1

/-- The history of a run since the last switch: the numbers of its packets, received and sent, and
the highest number sent before it. -/
structure Segment where
  sent : List (BitVec 16 × BitVec 16) := []
  before : Option (BitVec 16) := none
  deriving DecidableEq, Repr

def segment (h : Segment) (r : Rewriter) (p : Packet) : Segment :=
  if r.src = some p.src then { h with sent := h.sent ++ [(p.seq, (r.map p).2.seq)] }
  else { sent := [(p.seq, (r.map p).2.seq)], before := r.last.map (·.seq) }

/-- The number is one of the last 1024 up to the highest. -/
def Rewriter.Recent (r : Rewriter) (outSeq : BitVec 16) : Prop :=
  ∃ l, r.last = some l ∧ (l.seq - outSeq).toNat < cache

/-- NACKs of the packets since the switch are taken back to what was received, those of the
numbers up to the switch are not taken back. -/
structure NackExact (s : Rewriter × Segment) : Prop where
  since : ∀ e ∈ s.2.sent, s.1.Recent e.2 → s.1.unmapNack e.2 = some e.1
  before : ∀ b, s.2.before = some b →
    ∀ k < cache, s.1.unmapNack (b - BitVec.ofNat 16 k) = none

/-- The packets since the source last changed. -/
def current (ps : List Packet) : List Packet :=
  match ps.getLast? with
  | none => []
  | some p => ps.rtakeWhile (·.src = p.src)

/-- The higher one of two serial numbers; the first may be missing. -/
def higher : Option (BitVec 16) → BitVec 16 → Option (BitVec 16)
  | none, x => some x
  | some t, x => some (if serialAfter x t then x else t)

/-- The highest number of a stream. -/
def highest (seqs : List (BitVec 16)) : Option (BitVec 16) := seqs.foldl higher none

/-- The last 1024 numbers of a stream are at most half a circle ahead of its first one. -/
def NearFirst (seqs : List (BitVec 16)) : Prop :=
  ∀ first ∈ seqs.head?, ∀ top ∈ highest seqs, ∀ x ∈ seqs,
    (top - x).toNat < cache → (x - first).toNat ≤ 32768

/-! ## Streams -/

theorem current_concat (ps : List Packet) (p : Packet) :
    current (ps ++ [p]) =
      if ps.getLast?.map (·.src) = some p.src then current ps ++ [p] else [p] := by
  have hcur : current (ps ++ [p]) = ps.rtakeWhile (·.src = p.src) ++ [p] := by
    rw [current, List.getLast?_concat]
    exact List.rtakeWhile_concat_pos _ _ _ (by simp)
  rw [hcur]
  cases ps using List.reverseRecOn with
  | nil => simp
  | append_singleton qs q =>
    rw [List.getLast?_concat, Option.map_some]
    by_cases hq : q.src = p.src
    · rw [if_pos (by rw [hq]), current, List.getLast?_concat]
      simp only [hq]
    · rw [if_neg (by simpa using hq), List.rtakeWhile_concat_neg _ _ _ (by simpa using hq)]
      rfl

theorem higher_add (t : Option (BitVec 16)) (x c : BitVec 16) :
    higher (t.map (· + c)) (x + c) = (higher t x).map (· + c) := by
  cases t with
  | none => rfl
  | some t =>
    simp only [higher, Option.map_some, serialAfter_add_right]
    split_ifs <;> rfl

theorem highest_concat (seqs : List (BitVec 16)) (x : BitVec 16) :
    highest (seqs ++ [x]) = higher (highest seqs) x := by
  simp [highest]

/-! ## One packet -/

namespace Rewriter

/-- A packet of the current source moves nothing but the highest number. -/
theorem map_same {r : Rewriter} {p : Packet} (h : r.src = some p.src) :
    (r.map p).1.src = some p.src ∧ (r.map p).1.seqOff = r.seqOff ∧
      (r.map p).1.boundary = r.boundary ∧ (r.map p).2.seq = p.seq + r.seqOff ∧
      (r.map p).1.last.map (·.seq) = higher (r.last.map (·.seq)) (p.seq + r.seqOff) := by
  refine ⟨by simp [map, h], by simp [map, h], by simp [map, h], by simp [map, h], ?_⟩
  cases hl : r.last with
  | none => simp [map, h, hl, higher]
  | some l =>
    by_cases hs : serialAfter (p.seq + r.seqOff) l.seq = true
    · simp [map, h, hl, higher, hs]
    · simp [map, h, hl, higher, hs]

/-- A packet of another source goes on after the highest number, and is the new boundary. -/
theorem map_other {r : Rewriter} {p : Packet} (h : r.src ≠ some p.src) :
    (r.map p).1.src = some p.src ∧ (r.map p).1.boundary = some (r.map p).2.seq ∧
      (r.map p).2.seq = p.seq + (r.map p).1.seqOff ∧
      (r.map p).1.last.map (·.seq) = some (r.map p).2.seq ∧
      ∀ l, r.last = some l → (r.map p).2.seq = l.seq + 1 := by
  refine ⟨by simp [map, h, switchTo], by simp [map, h, switchTo], by simp [map, h], ?_, ?_⟩
  · cases hl : r.last with
    | none => simp [map, h, switchTo, hl]
    | some l => simp [map, h, switchTo, hl]
  · intro l hl
    have hout : (r.map p).2.seq = p.seq + (l.seq + 1 - p.seq) := by
      simp [map, h, switchTo, hl]
    rw [hout, add_sub_cancel]

end Rewriter

/-- Since the switch the offset has not changed, and the boundary is the first number sent. -/
structure SegInv (s : Rewriter × Segment) : Prop where
  empty : s.2.sent = [] → s.1.src = none
  offset : ∀ e ∈ s.2.sent, e.2 = e.1 + s.1.seqOff
  first : ∀ e ∈ s.2.sent.head?, s.1.boundary = some e.2
  before : ∀ b, s.2.before = some b → s.1.boundary = some (b + 1)
  high : s.1.last.map (·.seq) = (highest (s.2.sent.map Prod.fst)).map (· + s.1.seqOff)

theorem segInv_new (clock : Nat) : SegInv (Rewriter.new clock, {}) where
  empty _ := rfl
  offset e he := by simp at he
  first e he := by simp at he
  before b hb := by simp at hb
  high := rfl

theorem segInv_same {r : Rewriter} {seg : Segment} {p : Packet} (hsrc : r.src = some p.src)
    (h : SegInv (r, seg)) : SegInv ((r.map p).1, segment seg r p) := by
  obtain ⟨hsrc', hoff, hbound, hout, hlast⟩ := Rewriter.map_same hsrc
  have hne : seg.sent ≠ [] := by
    intro hs
    have hnone : r.src = none := h.empty hs
    rw [hsrc] at hnone
    simp at hnone
  rw [segment, if_pos hsrc]
  refine ⟨?_, ?_, ?_, ?_, ?_⟩
  · intro he
    simp at he
  · intro e he
    rw [hoff]
    rcases List.mem_append.1 he with he | he
    · exact h.offset e he
    · rw [List.mem_singleton.1 he]
      exact hout
  · intro e he
    rw [hbound]
    rw [List.head?_append_of_ne_nil _ hne] at he
    exact h.first e he
  · intro b hb
    rw [hbound]
    exact h.before b hb
  · have hhigh : r.last.map (·.seq) = _ := h.high
    rw [hlast, hhigh, hoff, higher_add]
    simp only [List.map_append, List.map_cons, List.map_nil, highest_concat]

theorem segInv_other {r : Rewriter} {seg : Segment} {p : Packet} (hsrc : r.src ≠ some p.src) :
    SegInv ((r.map p).1, segment seg r p) := by
  obtain ⟨hsrc', hbound, hout, hlast, hnext⟩ := Rewriter.map_other hsrc
  rw [segment, if_neg hsrc]
  refine ⟨?_, ?_, ?_, ?_, ?_⟩
  · intro he
    simp at he
  · intro e he
    rw [List.mem_singleton.1 he]
    exact hout
  · intro e he
    obtain rfl : _ = e := by simpa using he
    exact hbound
  · intro b hb
    obtain ⟨l, hl, rfl⟩ := Option.map_eq_some_iff.1 hb
    rw [hbound, hnext l hl]
  · rw [hlast, hout]
    rfl

theorem run_segInv (clock : Nat) (ps : List Packet) :
    SegInv ((rewriter.logged segment).exec (Rewriter.new clock, {}) ps) := by
  refine Machine.invariant (M := rewriter.logged segment) ?_
    (segInv_new clock) ((Machine.legal_iff _).2 fun _ _ _ _ => trivial)
  intro s p h _
  by_cases hsrc : s.1.src = some p.src
  · exact segInv_same hsrc h
  · exact segInv_other hsrc

/-- The history holds the packets since the source last changed. -/
theorem run_current (clock : Nat) (ps : List Packet) :
    let s := (rewriter.logged segment).exec (Rewriter.new clock, {}) ps
    s.1.src = ps.getLast?.map (·.src) ∧ s.2.sent.map Prod.fst = (current ps).map (·.seq) := by
  induction ps using List.reverseRecOn with
  | nil => exact ⟨rfl, rfl⟩
  | append_singleton ps p ih =>
    simp only [Machine.exec_append, Machine.exec_cons, Machine.exec_nil]
    set s := (rewriter.logged segment).exec (Rewriter.new clock, {}) ps
    obtain ⟨hsrc, hsent⟩ := ih
    rw [current_concat, List.getLast?_concat, ← hsrc]
    show (s.1.map p).1.src = _ ∧ (segment s.2 s.1 p).sent.map Prod.fst = _
    by_cases h : s.1.src = some p.src
    · rw [segment, if_pos h, if_pos h, List.map_append, List.map_append, hsent]
      exact ⟨(Rewriter.map_same h).1, rfl⟩
    · rw [segment, if_neg h, if_neg h]
      exact ⟨(Rewriter.map_other h).1, rfl⟩

/-! ## NACKs -/

/-- A packet of the current segment is taken back exactly when it is at most half a circle ahead
of the first one. -/
theorem SegInv.unmap_iff {s : Rewriter × Segment} (h : SegInv s)
    {e₀ e : BitVec 16 × BitVec 16} (h₀ : e₀ ∈ s.2.sent.head?) (he : e ∈ s.2.sent) :
    s.1.unmapNack e.2 = some e.1 ↔ (e.1 - e₀.1).toNat ≤ 32768 := by
  have hdiff : e.2 - e₀.2 = e.1 - e₀.1 := by
    rw [h.offset e he, h.offset e₀ (List.mem_of_mem_head? h₀), add_sub_add_right_eq_sub]
  have hback : e.2 - s.1.seqOff = e.1 := by
    rw [h.offset e he, add_sub_cancel_right]
  have hafter : serialAfter e₀.2 e.2 = false ↔ (e.1 - e₀.1).toNat ≤ 32768 := by
    rw [serialAfter_eq_false_iff, hdiff]
    omega
  rw [← hafter, Rewriter.unmapNack, h.first e₀ h₀]
  cases hsa : serialAfter e₀.2 e.2 with
  | true => simp [hsa]
  | false => simp [hsa, hback]

/-- The numbers before the switch are never taken back. -/
theorem SegInv.unmap_before {s : Rewriter × Segment} (h : SegInv s) {b : BitVec 16}
    (hb : s.2.before = some b) {k : Nat} (hk : k < cache) :
    s.1.unmapNack (b - BitVec.ofNat 16 k) = none := by
  rw [cache] at hk
  have hdist : b + 1 - (b - BitVec.ofNat 16 k) = BitVec.ofNat 16 (k + 1) := by
    bv_omega
  have hafter : serialAfter (b + 1) (b - BitVec.ofNat 16 k) = true := by
    rw [serialAfter_iff, hdist, BitVec.toNat_ofNat]
    omega
  simp only [Rewriter.unmapNack, h.before b hb, Option.any_some, hafter, if_true]

/-- The window of the highest number sent is that of the highest number received. -/
theorem SegInv.recent_iff {s : Rewriter × Segment} (h : SegInv s) {e : BitVec 16 × BitVec 16}
    (he : e ∈ s.2.sent) :
    s.1.Recent e.2 ↔ ∃ top ∈ highest (s.2.sent.map Prod.fst), (top - e.1).toNat < cache := by
  have hhigh := h.high
  rw [h.offset e he, Rewriter.Recent]
  cases hl : s.1.last with
  | none =>
    rw [hl, Option.map_none, eq_comm, Option.map_eq_none_iff] at hhigh
    simp [hhigh]
  | some l =>
    rw [hl, Option.map_some, eq_comm, Option.map_eq_some_iff] at hhigh
    obtain ⟨top, htop, hseq⟩ := hhigh
    have hdiff : l.seq - (e.1 + s.1.seqOff) = top - e.1 := by
      rw [← hseq, add_sub_add_right_eq_sub]
    simp only [htop, Option.mem_def, Option.some.injEq, exists_eq_left', hdiff]

/-- **NACKs are taken back to the packets of the current source exactly as long as these stay
near the first packet since the switch.** -/
theorem nack_maps_back_iff (clock : Nat) (ps : List Packet) :
    NackExact ((rewriter.logged segment).exec (Rewriter.new clock, {}) ps) ↔
      NearFirst ((current ps).map (·.seq)) := by
  have hinv := run_segInv clock ps
  rw [← (run_current clock ps).2]
  set s := (rewriter.logged segment).exec (Rewriter.new clock, {}) ps
  refine ⟨?_, ?_⟩
  · intro h first hfirst top htop x hx hwin
    rw [List.head?_map] at hfirst
    obtain ⟨e₀, he₀, rfl⟩ := Option.map_eq_some_iff.1 hfirst
    obtain ⟨e, he, rfl⟩ := List.mem_map.1 hx
    have hrec : s.1.Recent e.2 := (hinv.recent_iff he).2 ⟨top, htop, hwin⟩
    exact (hinv.unmap_iff he₀ he).1 (h.since e he hrec)
  · intro h
    refine ⟨?_, fun b hb k hk => hinv.unmap_before hb hk⟩
    intro e he hrec
    obtain ⟨top, htop, hwin⟩ := (hinv.recent_iff he).1 hrec
    obtain ⟨e₀, he₀⟩ : ∃ e₀, s.2.sent.head? = some e₀ := by
      cases hs : s.2.sent with
      | nil => simp [hs] at he
      | cons e₀ es => exact ⟨e₀, rfl⟩
    refine (hinv.unmap_iff he₀ he).2 ?_
    exact h e₀.1 (by simp [he₀]) top htop e.1 (List.mem_map_of_mem he) hwin

/-- The `i`-th packet of an Opus source that sends one every 20 ms. -/
def opusPacket (i : Nat) : Packet :=
  ⟨1, BitVec.ofNat 16 i, BitVec.ofNat 32 (960 * i), 20 * i, 960⟩

def opusStream (n : Nat) : List Packet := (List.range n).map opusPacket

theorem opusStream_succ (n : Nat) : opusStream (n + 1) = opusStream n ++ [opusPacket n] := by
  simp [opusStream, List.range_succ]

theorem serialAfter_succ (n : Nat) (c : BitVec 16) :
    serialAfter (BitVec.ofNat 16 (n + 1) + c) (BitVec.ofNat 16 n + c) = true := by
  have hone : BitVec.ofNat 16 (n + 1) - BitVec.ofNat 16 n = 1 := by
    bv_omega
  rw [serialAfter_add_right, serialAfter_iff, hone]
  decide

/-- The stream is on the air: packet 0 was its first and packet `n` is its newest, and highest. -/
structure OnAir (n : Nat) (s : Rewriter × Segment) : Prop where
  src : s.1.src = some 1
  first : ∃ q, s.2.sent.head? = some (0, q)
  newest : (BitVec.ofNat 16 n, BitVec.ofNat 16 n + s.1.seqOff) ∈ s.2.sent
  highest : s.1.last.map (·.seq) = some (BitVec.ofNat 16 n + s.1.seqOff)

theorem onAir_zero {s : Rewriter × Segment} (h : s.1.src ≠ some (opusPacket 0).src) :
    OnAir 0 ((rewriter.logged segment).next s (opusPacket 0)) := by
  obtain ⟨hsrc, -, hout, hlast, -⟩ := Rewriter.map_other h
  show OnAir 0 ((s.1.map (opusPacket 0)).1, segment s.2 s.1 (opusPacket 0))
  rw [segment, if_neg h, hout]
  exact ⟨hsrc, ⟨_, rfl⟩, List.mem_singleton.2 rfl, hlast.trans (congrArg some hout)⟩

theorem OnAir.next {n : Nat} {s : Rewriter × Segment} (h : OnAir n s) :
    OnAir (n + 1) ((rewriter.logged segment).next s (opusPacket (n + 1))) := by
  have hsame : s.1.src = some (opusPacket (n + 1)).src := h.src
  obtain ⟨hsrc, hoff, -, hout, hlast⟩ := Rewriter.map_same hsame
  obtain ⟨q, hhead⟩ := h.first
  show OnAir (n + 1) ((s.1.map (opusPacket (n + 1))).1, segment s.2 s.1 (opusPacket (n + 1)))
  rw [segment, if_pos hsame, hout]
  refine ⟨hsrc, ⟨q, by simp [hhead]⟩, ?_, ?_⟩
  · rw [hoff]
    exact List.mem_append_right _ (List.mem_singleton.2 rfl)
  · rw [hlast, hoff, h.highest]
    exact congrArg some (if_pos (serialAfter_succ n s.1.seqOff))

/-- Another source takes over and goes on for a while. -/
theorem onAir_opusStream {s : Rewriter × Segment} (h : s.1.src ≠ some 1) (n : Nat) :
    OnAir n ((rewriter.logged segment).exec s (opusStream (n + 1))) := by
  induction n with
  | zero => exact onAir_zero h
  | succ n ih =>
    rw [opusStream_succ, Machine.exec_append]
    exact ih.next

/-- Once the stream is more than half a circle long, its newest packet is not taken back. -/
theorem OnAir.not_exact {n : Nat} {s : Rewriter × Segment} (h : OnAir n s) (hinv : SegInv s)
    (hn : 32768 < n % 65536) : ¬ NackExact s := by
  intro hx
  obtain ⟨q, hhead⟩ := h.first
  obtain ⟨l, hl, hseq⟩ := Option.map_eq_some_iff.1 h.highest
  have hback := hx.since _ h.newest ⟨l, hl, by rw [hseq, sub_self]; decide⟩
  have hnear := (hinv.unmap_iff hhead h.newest).1 hback
  rw [sub_zero, BitVec.toNat_ofNat] at hnear
  omega

/-- One packet of a source, then eleven minutes of another one: a NACK of the newest packet of
that one finds nothing. -/
theorem nack_not_exact : ¬ ∀ clock ps,
    NackExact ((rewriter.logged segment).exec (Rewriter.new clock, {}) ps) := by
  intro h
  have hinv := run_segInv 48000 ([⟨2, 7, 0, 0, 960⟩] ++ opusStream (32769 + 1))
  have hx := h 48000 ([⟨2, 7, 0, 0, 960⟩] ++ opusStream (32769 + 1))
  rw [Machine.exec_append] at hinv hx
  exact (onAir_opusStream (by decide) 32769).not_exact hinv (by decide) hx

end OxlensSfu.Fwd
