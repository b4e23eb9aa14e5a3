import OxlensSfu.Forward.Switch

/-!
# Reuse of output numbers

Each output number is encrypted under one SSRC, so two different packets must not get the same one
while it is near. The offset of a source comes from the first packet of it that arrives. A packet
of that source that was sent before and arrives later lands below the switch, among the numbers of
the source before it.

The packets are given the numbers of counters that do not wrap. Laid end to end, each source right
behind the highest number of the one before it, these are the outputs of the run (`reach_spec`);
so two outputs differ when the counters are less than a circle apart.
-/

namespace OxlensSfu.Fwd

/-! ## Runs and their numbers -/

section Numbers

variable (ps : List Packet) (num : Nat → ℤ)

/-- The calls with the source of call `i`. -/
def peers (i : Nat) : Finset Nat :=
  (Finset.range ps.length).filter fun j => ps[j]?.map (·.src) = ps[i]?.map (·.src)

/-- Call `i + 1` has the source of call `i`. -/
def stays (i : Nat) : Bool := ps[i + 1]?.map (·.src) == ps[i]?.map (·.src)

/-- The number of the first packet of the source of call `i`. -/
def first : Nat → ℤ
  | 0 => num 0
  | i + 1 => if stays ps i then first i else num (i + 1)

/-- The highest number of the source of call `i` so far. -/
def top : Nat → ℤ
  | 0 => num 0
  | i + 1 => if stays ps i then max (top i) (num (i + 1)) else num (i + 1)

/-- How far call `i` is behind the highest packet of its source. -/
def late (i : Nat) : ℤ := top ps num i - num i

/-- By how much call `i` moves the highest number; another source begins one after it. -/
def advance : Nat → ℤ
  | 0 => 0
  | i + 1 => if stays ps i then max (num (i + 1) - top ps num i) 0 else 1

/-- The runs in which no number can be used twice. -/
structure Orderly : Prop where
  /-- A source does not jump by half a circle. -/
  near : ∀ i < ps.length, stays ps i →
    top ps num i - 32768 ≤ num (i + 1) ∧ num (i + 1) < top ps num i + 32768
  /-- No packet of a source is numbered before the first one since the switch; the source of the
  first call has no switch before it. -/
  fresh : ∀ i < ps.length, ps[i]?.map (·.src) ≠ ps[0]?.map (·.src) → first ps num i ≤ num i
  /-- Calls near to each other are less than a circle of numbers apart. -/
  spread : ∀ u < ps.length, ∀ t < u, u < t + 32768 →
    ps[t]?.map (·.src) ≠ ps[u]?.map (·.src) →
    ∑ i ∈ Finset.Ioc t u, advance ps num i + late ps num t - late ps num u < 65536

/-! ## The numbers end to end -/

/-- The highest number after call `i`, with the sources laid end to end. -/
def reach : Nat → ℤ
  | 0 => num 0
  | i + 1 => reach i + advance ps num (i + 1)

end Numbers

section

variable {ps : List Packet} {num : Nat → ℤ}

/-- Within a source the highest number and its place end to end move together. -/
theorem reach_sub_top {i : Nat} (h : stays ps i) :
    reach ps num (i + 1) - top ps num (i + 1) = reach ps num i - top ps num i := by
  rw [reach, advance, top, if_pos h, if_pos h]
  omega

variable (ps num) in
/-- The state after call `i`: the highest number sent is what the sources have reached end to
end. -/
structure Reached (i : Nat) (r : Rewriter) : Prop where
  src : r.src = ps[i]?.map (·.src)
  off : r.seqOff = BitVec.ofInt 16 (reach ps num i - top ps num i)
  last : r.last.map (·.seq) = some (BitVec.ofInt 16 (reach ps num i))

theorem Reached.next {i : Nat} {r : Rewriter} {p : Packet}
    (h : Reached ps num i r) (hp : ps[i + 1]? = some p)
    (hseq : p.seq = BitVec.ofInt 16 (num (i + 1)))
    (hnear : stays ps i →
      top ps num i - 32768 ≤ num (i + 1) ∧ num (i + 1) < top ps num i + 32768) :
    Reached ps num (i + 1) (r.map p).1 := by
  by_cases hs : stays ps i = true
  · obtain ⟨hlo, hhi⟩ := hnear hs
    have hsrc : r.src = some p.src := by
      rw [h.src]
      have hst : ps[i + 1]?.map (·.src) = ps[i]?.map (·.src) := by simpa [stays] using hs
      rw [← hst, hp]
      rfl
    obtain ⟨hsrc', hoff, -, -, hlast⟩ := Rewriter.map_same hsrc
    refine ⟨by rw [hsrc', hp]; rfl, by rw [hoff, h.off, reach_sub_top hs], ?_⟩
    have hout : p.seq + r.seqOff =
        BitVec.ofInt 16 (num (i + 1) + (reach ps num i - top ps num i)) := by
      rw [hseq, h.off, BitVec.ofInt_add]
    have hafter := serialAfter_ofInt (w := 16)
      (x := num (i + 1) + (reach ps num i - top ps num i)) (y := reach ps num i)
      (by omega) (by omega)
    rw [hlast, h.last, hout, higher, reach, advance, if_pos hs]
    by_cases hup : top ps num i < num (i + 1)
    · rw [if_pos (hafter.2 (by omega)), max_eq_left (by omega)]
      congr 2
      omega
    · rw [if_neg fun hx => hup (by have := hafter.1 hx; omega), max_eq_right (by omega), add_zero]
  · have hsrc : r.src ≠ some p.src := by
      rw [h.src]
      intro hx
      refine hs ?_
      rw [stays, hp, hx]
      simp
    obtain ⟨l, hl, hlseq⟩ := Option.map_eq_some_iff.1 h.last
    obtain ⟨hsrc', -, hout, hlast, hnext⟩ := Rewriter.map_other hsrc
    have hreach : reach ps num (i + 1) = reach ps num i + 1 := by
      rw [reach, advance, if_neg hs]
    have hseq' : (r.map p).2.seq = BitVec.ofInt 16 (reach ps num (i + 1)) := by
      rw [hnext l hl, hlseq, hreach, BitVec.ofInt_add]
      rfl
    refine ⟨by rw [hsrc', hp]; rfl, ?_, by rw [hlast, hseq']⟩
    rw [top, if_neg hs, ← ofInt_sub_ofInt, ← hseq, ← hseq', hout, add_sub_cancel_left]

end

/-- A call of the video of source `src`; the times play no part. -/
def frame (src : Nat) (seq : BitVec 16) : Packet := ⟨src, seq, 0, 0, 1⟩

end OxlensSfu.Fwd
