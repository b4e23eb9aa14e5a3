import Mathlib.Data.List.SplitBy
import OxlensSfu.Forward.Rewriter

/-!
# Switch continuity

What the receiver of a downlink stream sees over a whole run: the numbers of one source keep their
distances, and the first packet of the next source goes on one number after the highest packet of
the source before it, and later by what that packet covers or by the time that has passed.

The trace of a run is cut where the source changes, and the law is proved segment by segment, each
from the state that the segments before it leave behind.
-/

namespace OxlensSfu.Fwd

/-! ## The trace of a run -/

/-- Each packet with its output. -/
def Rewriter.trace (r : Rewriter) : List Packet → List (Packet × Mapped)
  | [] => []
  | p :: ps => (p, (r.map p).2) :: (r.map p).1.trace ps

def sameSrc (a b : Packet × Mapped) : Bool := a.1.src == b.1.src

/-- The trace, cut where the source changes. -/
def Rewriter.segments (r : Rewriter) (ps : List Packet) : List (List (Packet × Mapped)) :=
  (r.trace ps).splitBy sameSrc

def lastOf (e : Packet × Mapped) : Last := ⟨e.2.seq, e.2.ts, e.1.atMs, e.1.covers⟩

/-- An output that is serially after the greatest one so far takes its place. -/
def Last.advance (l x : Last) : Last := if serialAfter x.seq l.seq then x else l

/-- The serially greatest output of a segment. -/
def greatest : List (Packet × Mapped) → Option Last
  | [] => none
  | e :: es => some ((es.map lastOf).foldl Last.advance (lastOf e))

/-! ## The law -/

/-- The ticks from the last packet to the first one of the next source at time `now`, as the code
computes them: the time that has passed is counted in 64 bits. -/
def switchTicks (clock : Nat) (l : Last) (now : Nat) : Nat :=
  max (max l.covers 1) (max (now - l.atMs) 1 * clock / 1000 % 2 ^ 64)

/-- The first output of segment `T` goes on after the greatest one of segment `S`. -/
def Follows (ticks : Last → Nat → Nat) (S T : List (Packet × Mapped)) : Prop :=
  ∀ l ∈ greatest S, ∀ e ∈ T.head?,
    e.2.seq = l.seq + 1 ∧ e.2.ts = l.ts + BitVec.ofNat 32 (ticks l e.1.atMs)

/-- Switch continuity of a run, with the ticks of a switch given by `ticks`. -/
structure SwitchLaw (ticks : Last → Nat → Nat) (r : Rewriter) (ps : List Packet) : Prop where
  first : (r.segments ps).IsChain (Follows ticks)
  offsets : ∀ S ∈ r.segments ps, ∃ seqOff tsOff, ∀ e ∈ S,
    e.2.seq = e.1.seq + seqOff ∧ e.2.ts = e.1.ts + tsOff
  contiguous : (∀ S ∈ r.segments ps, S.IsChain fun a b => b.1.seq = a.1.seq + 1) →
    (r.trace ps).IsChain fun a b => b.2.seq = a.2.seq + 1

/-! ## One segment -/

namespace Rewriter

/-- A packet of the current source keeps the offsets. -/
theorem map_same_last {r : Rewriter} {p : Packet} {l : Last} (h : r.src = some p.src)
    (hl : r.last = some l) :
    (r.map p).1.last = some (l.advance (lastOf (p, (r.map p).2))) ∧
      (r.map p).1.tsOff = r.tsOff ∧ (r.map p).2.ts = p.ts + r.tsOff := by
  refine ⟨?_, by simp [map, h], by simp [map, h]⟩
  by_cases hs : serialAfter (p.seq + r.seqOff) l.seq = true
  · simp [map, h, hl, hs, Last.advance, lastOf]
  · simp [map, h, hl, hs, Last.advance, lastOf]

/-- A packet of another source is the highest one from then on. -/
theorem map_other_last {r : Rewriter} {p : Packet} (h : r.src ≠ some p.src) :
    (r.map p).1.last = some (lastOf (p, (r.map p).2)) ∧
      (r.map p).2.ts = p.ts + (r.map p).1.tsOff ∧ (r.map p).1.clock = r.clock ∧
      ∀ l, r.last = some l →
        (r.map p).2.ts = l.ts + BitVec.ofNat 32 (switchTicks r.clock l p.atMs) := by
  refine ⟨?_, by simp [map, h], ?_, ?_⟩
  · cases hl : r.last with
    | none => simp [map, h, switchTo, hl, lastOf]
    | some l => simp [map, h, switchTo, hl, lastOf]
  · cases hl : r.last with
    | none => simp [map, h, switchTo, hl]
    | some l => simp [map, h, switchTo, hl]
  · intro l hl
    have hts : (r.map p).2.ts =
        p.ts + (l.ts + BitVec.ofNat 32 (switchTicks r.clock l p.atMs % 2 ^ 32) - p.ts) := by
      simp [map, h, switchTo, hl, switchTicks]
    have hmod : BitVec.ofNat 32 (switchTicks r.clock l p.atMs % 2 ^ 32) =
        BitVec.ofNat 32 (switchTicks r.clock l p.atMs) := by
      apply BitVec.eq_of_toNat_eq
      simp
    rw [hts, add_sub_cancel, hmod]

theorem trace_eq_cons {r : Rewriter} {ps : List Packet} {e : Packet × Mapped}
    {es : List (Packet × Mapped)} (h : r.trace ps = e :: es) :
    ∃ qs, ps = e.1 :: qs ∧ e = (e.1, (r.map e.1).2) ∧ (r.map e.1).1.trace qs = es := by
  cases ps with
  | nil => simp [trace] at h
  | cons p qs =>
    simp only [trace, List.cons.injEq] at h
    obtain ⟨rfl, rfl⟩ := h
    exact ⟨qs, rfl, rfl, rfl⟩

/-- The rest of a segment: the offsets stay, and the last packet is the greatest one. -/
theorem trace_rest {s : Nat} (S : List (Packet × Mapped)) :
    ∀ {r : Rewriter} {ps : List Packet} {l : Last} {rest : List (Packet × Mapped)},
      r.src = some s → r.last = some l → r.trace ps = S ++ rest → (∀ e ∈ S, e.1.src = s) →
      ∃ (r' : Rewriter) (qs : List Packet),
        r'.trace qs = rest ∧ r'.src = some s ∧ r'.clock = r.clock ∧
        r'.last = some ((S.map lastOf).foldl Last.advance l) ∧
        ∀ e ∈ S, e.2.seq = e.1.seq + r.seqOff ∧ e.2.ts = e.1.ts + r.tsOff := by
  induction S with
  | nil =>
    intro r ps l rest hsrc hl htr _
    exact ⟨r, ps, htr, hsrc, rfl, hl, by simp⟩
  | cons e S ih =>
    intro r ps l rest hsrc hl htr hall
    obtain ⟨qs, -, he, htl⟩ := trace_eq_cons htr
    have hes : e.1.src = s := hall e List.mem_cons_self
    rw [← hes] at hsrc
    obtain ⟨hsrc', hoff, -, hseq, -⟩ := map_same hsrc
    obtain ⟨hlast, htoff, hts⟩ := map_same_last hsrc hl
    have hclock : (r.map e.1).1.clock = r.clock := by simp [map, hsrc]
    rw [hes] at hsrc'
    obtain ⟨r', qs', htr', hr', hc', hl', hS⟩ :=
      ih hsrc' hlast htl fun x hx => hall x (List.mem_cons_of_mem e hx)
    refine ⟨r', qs', htr', hr', hc'.trans hclock, ?_, ?_⟩
    · rw [hl', ← he]
      rfl
    · intro x hx
      rcases List.mem_cons.1 hx with rfl | hx
      · rw [he]
        exact ⟨hseq, hts⟩
      · rw [← hoff, ← htoff]
        exact hS x hx

/-- A whole segment, from a state of another source. -/
theorem trace_segment {r : Rewriter} {ps : List Packet} {S rest : List (Packet × Mapped)}
    (hne : S ≠ []) (hchain : S.IsChain fun a b => sameSrc a b)
    (hsrc : ∀ e ∈ S.head?, r.src ≠ some e.1.src) (htr : r.trace ps = S ++ rest) :
    ∃ (r' : Rewriter) (qs : List Packet),
      r'.trace qs = rest ∧ (∀ e ∈ S.getLast?, r'.src = some e.1.src) ∧
      r'.clock = r.clock ∧ r'.last = greatest S ∧
      (∃ seqOff tsOff, ∀ e ∈ S, e.2.seq = e.1.seq + seqOff ∧ e.2.ts = e.1.ts + tsOff) ∧
      ∀ l, r.last = some l → ∀ e ∈ S.head?, e.2.seq = l.seq + 1 ∧
        e.2.ts = l.ts + BitVec.ofNat 32 (switchTicks r.clock l e.1.atMs) := by
  cases S with
  | nil => exact absurd rfl hne
  | cons e S =>
    obtain ⟨qs, -, he, htl⟩ := trace_eq_cons htr
    have hother : r.src ≠ some e.1.src := hsrc e rfl
    have hall : ∀ x ∈ e :: S, x.1.src = e.1.src := by
      have htrans : Trans (fun a b => sameSrc a b = true) (fun a b => sameSrc a b = true)
          (fun a b => sameSrc a b = true) := ⟨fun h h' => by
        simp only [sameSrc, beq_iff_eq] at h h' ⊢
        exact h.trans h'⟩
      intro x hx
      rcases List.mem_cons.1 hx with rfl | hx
      · rfl
      · have hrel := List.rel_of_pairwise_cons (List.isChain_iff_pairwise.1 hchain) hx
        simp only [sameSrc, beq_iff_eq] at hrel
        exact hrel.symm
    obtain ⟨hsrc', -, hseq, -, hnext⟩ := map_other hother
    obtain ⟨hlast, hts, hclock, htick⟩ := map_other_last hother
    obtain ⟨r', qs', htr', hr', hc', hl', hS⟩ :=
      trace_rest S hsrc' hlast htl fun x hx => hall x (List.mem_cons_of_mem e hx)
    refine ⟨r', qs', htr', ?_, hc'.trans hclock, ?_,
      ⟨(r.map e.1).1.seqOff, (r.map e.1).1.tsOff, ?_⟩, ?_⟩
    · intro x hx
      rw [hall x (List.mem_of_mem_getLast? hx)]
      exact hr'
    · rw [hl', ← he]
      rfl
    · intro x hx
      rcases List.mem_cons.1 hx with rfl | hx
      · rw [he]
        exact ⟨hseq, hts⟩
      · exact hS x hx
    · intro l hl x hx
      obtain rfl : e = x := by simpa using hx
      rw [he]
      exact ⟨hnext l hl, htick l hl⟩

/-! ## Whole runs -/

/-- The law of the segments, from any state of another source. -/
theorem segments_law (L : List (List (Packet × Mapped))) :
    ∀ {r : Rewriter} {ps : List Packet}, r.trace ps = L.flatten → [] ∉ L →
      (∀ S ∈ L, S.IsChain fun a b => sameSrc a b) →
      (L.IsChain fun S T => ∃ hS hT, sameSrc (S.getLast hS) (T.head hT) = false) →
      (∀ S ∈ L.head?, ∀ e ∈ S.head?, r.src ≠ some e.1.src) →
      (∀ l, r.last = some l → ∀ S ∈ L.head?, ∀ e ∈ S.head?, e.2.seq = l.seq + 1 ∧
        e.2.ts = l.ts + BitVec.ofNat 32 (switchTicks r.clock l e.1.atMs)) ∧
      L.IsChain (Follows (switchTicks r.clock)) ∧
      ∀ S ∈ L, ∃ seqOff tsOff, ∀ e ∈ S, e.2.seq = e.1.seq + seqOff ∧ e.2.ts = e.1.ts + tsOff := by
  induction L with
  | nil =>
    intro r ps _ _ _ _ _
    simp
  | cons S L ih =>
    intro r ps htr hne hsame hcut hsrc
    have hS : S ≠ [] := fun h => hne (h ▸ List.mem_cons_self)
    obtain ⟨r', qs, htr', hr', hclock, hlast, hoff, hfirst⟩ :=
      trace_segment hS (hsame S List.mem_cons_self) (hsrc S rfl) htr
    have hsrc' : ∀ T ∈ L.head?, ∀ e ∈ T.head?, r'.src ≠ some e.1.src := by
      intro T hT e he
      obtain ⟨h₁, h₂, hdiff⟩ := (List.isChain_cons.1 hcut).1 T hT
      rw [hr' _ (List.getLast_mem_getLast? h₁)]
      obtain rfl : T.head h₂ = e := List.head_of_mem_head? he
      simpa [sameSrc] using hdiff
    obtain ⟨hnext, hchain, hoffs⟩ := ih htr' (fun h => hne (List.mem_cons_of_mem S h))
      (fun T hT => hsame T (List.mem_cons_of_mem S hT)) (List.isChain_cons.1 hcut).2 hsrc'
    rw [hclock] at hnext hchain
    refine ⟨?_, ?_, ?_⟩
    · intro l hl T hT
      obtain rfl : S = T := by simpa using hT
      exact hfirst l hl
    · refine List.isChain_cons.2 ⟨?_, hchain⟩
      intro T hT l hl e he
      exact hnext l (hlast.trans hl) T hT e he
    · intro T hT
      rcases List.mem_cons.1 hT with rfl | hT
      · exact hoff
      · exact hoffs T hT

end Rewriter

theorem serialAfter_succ_self (x : BitVec 16) : serialAfter (x + 1) x = true := by
  rw [serialAfter_iff, add_sub_cancel_left]
  decide

/-- Of outputs that count up by one the last one is the greatest. -/
theorem greatest_of_isChain {S : List (Packet × Mapped)}
    (h : S.IsChain fun a b => b.2.seq = a.2.seq + 1) : greatest S = S.getLast?.map lastOf := by
  cases S with
  | nil => rfl
  | cons e S =>
    induction S generalizing e with
    | nil => rfl
    | cons f S ih =>
      obtain ⟨hef, htail⟩ := List.isChain_cons_cons.1 h
      have hadv : (lastOf e).advance (lastOf f) = lastOf f := by
        rw [Last.advance, if_pos]
        show serialAfter f.2.seq e.2.seq = true
        rw [hef]
        exact serialAfter_succ_self e.2.seq
      have hgr : greatest (e :: f :: S) = greatest (f :: S) := by
        simp only [greatest, List.map_cons, List.foldl_cons, hadv]
      rw [hgr, ih f htail]
      rfl

/-- **Switch continuity of every run.** -/
theorem switch_continuity (clock : Nat) (ps : List Packet) :
    SwitchLaw (switchTicks clock) (Rewriter.new clock) ps := by
  obtain ⟨hflat, hne, hsame, hcut⟩ := List.splitBy_eq_iff.1
    (rfl : ((Rewriter.new clock).trace ps).splitBy sameSrc = (Rewriter.new clock).segments ps)
  obtain ⟨-, hfirst, hoff⟩ := Rewriter.segments_law _ hflat hne hsame hcut
    fun S _ e _ => by simp [Rewriter.new]
  refine ⟨hfirst, hoff, ?_⟩
  intro hin
  have hout : ∀ S ∈ (Rewriter.new clock).segments ps,
      S.IsChain fun a b => b.2.seq = a.2.seq + 1 := by
    intro S hS
    obtain ⟨seqOff, tsOff, hoff⟩ := hoff S hS
    refine List.isChain_iff_forall_rel_of_append_cons_cons.2 ?_
    intro a b l₁ l₂ heq
    have hab := List.isChain_iff_forall_rel_of_append_cons_cons.1 (hin S hS) heq
    rw [(hoff a (by simp [heq])).1, (hoff b (by simp [heq])).1, hab, add_right_comm]
  rw [hflat, List.isChain_flatten hne]
  refine ⟨hout, ?_⟩
  refine List.isChain_iff_forall_rel_of_append_cons_cons.2 ?_
  intro S T l₁ l₂ heq x hx y hy
  have hST := List.isChain_iff_forall_rel_of_append_cons_cons.1 hfirst heq
  have hgr : greatest S = some (lastOf x) := by
    have hS : S ∈ (Rewriter.new clock).segments ps := by
      rw [Rewriter.segments, heq]
      simp
    rw [greatest_of_isChain (hout S hS), hx]
    rfl
  exact (hST _ hgr y hy).1

/-- Two packets of two sources, so far apart that the ticks between them wrap in 64 bits. -/
theorem switch_ticks_wrap : ¬ ∀ clock ps, ps.Pairwise (fun p q => p.atMs ≤ q.atMs) →
    SwitchLaw (fun l now => max (max l.covers 1) (max (now - l.atMs) 1 * clock / 1000))
      (Rewriter.new clock) ps := by
  intro h
  have hlaw := h 48000 [⟨1, 0, 0, 0, 960⟩, ⟨2, 0, 0, 2 ^ 60, 960⟩] (by simp)
  have hfollows := (List.isChain_pair.1 hlaw.first) ⟨0, 0, 0, 960⟩ rfl _ rfl
  exact absurd hfollows.2 (by decide)

end OxlensSfu.Fwd
