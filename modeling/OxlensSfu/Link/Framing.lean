import OxlensSfu.Rtcp.Feedback

/-!
# Frames on a byte stream

Datagrams over TCP: a frame is a length of two bytes and a payload (`frame` and `Deframer`,
`crates/oxsfud/src/link/tcp.rs`). The sender keeps what the socket did not take and drops a whole
frame when that is too much (`TcpOut::send`, `crates/oxsfud/src/fwd/rt.rs`); the receiver keeps
what is not a whole frame yet and skips frames of no length, which only keep the line open.

**Theorem (`frames_arrive`).** Whatever parts the socket takes and whatever parts are read, the
frames that come out are the first of the payloads that were accepted and not empty; they are all
of them when nothing is left to write or to read.

The invariant (`Carries`) is an equation: what the receiver holds, what is on the wire and what
the sender holds, one after the other, are the frames of the payloads that have not come out.
-/

namespace OxlensSfu.Tcp

open Rtcp (be16 of16 of16_be16)

def sendBuf : Nat := 64 * 1024

/-! ## Frames -/

def frame (payload : List UInt8) : Option (List UInt8) :=
  if 65535 < payload.length then none else some (be16 payload.length ++ payload)

/-- The next frame that is not empty, and what is left. -/
def nextFrame : List UInt8 → Option (List UInt8) × List UInt8
  | a :: b :: rest =>
    let n := of16 a b
    if rest.length < n then (none, a :: b :: rest)
    else if n = 0 then nextFrame rest
    else (some (rest.take n), rest.drop n)
  | buf => (none, buf)

theorem nextFrame_rest {buf f rest : List UInt8} (h : nextFrame buf = (some f, rest)) :
    rest.length < buf.length := by
  fun_induction nextFrame buf with
  | case1 a b rest' n hshort => nomatch h
  | case2 a b rest' n hlong hzero ih => exact (ih h).trans (by simp)
  | case3 a b rest' n hlong hpos =>
    obtain ⟨-, rfl⟩ := Prod.mk.inj h
    simp only [List.length_drop, List.length_cons]
    omega
  | case4 buf hbuf => nomatch h

/-- All frames there are, and what is left. -/
def takeFrames (buf : List UInt8) : List (List UInt8) × List UInt8 :=
  match _h : nextFrame buf with
  | (none, rest) => ([], rest)
  | (some f, rest) =>
    let (fs, rest') := takeFrames rest
    (f :: fs, rest')
termination_by buf.length
decreasing_by exact nextFrame_rest _h

/-! ## The sender -/

/-- What the socket says to a write. -/
inductive Answer where
  | wrote (n : Nat)
  | wouldBlock
  | failed
  deriving DecidableEq

structure TcpOut where
  pending : List UInt8 := []
  isOpen : Bool := true

/-- What gets written, what is left, and whether the socket goes on. A socket with no more
answers takes nothing more. -/
def flush : List Answer → List UInt8 → List UInt8 × List UInt8 × Bool
  | [], pend => ([], pend, true)
  | answer :: answers, pend =>
    if pend = [] then ([], pend, true)
    else
      match answer with
      | .wrote 0 => ([], pend, true)
      | .wrote n =>
        let (written, left, ok) := flush answers (pend.drop n)
        (pend.take n ++ written, left, ok)
      | .wouldBlock => ([], pend, true)
      | .failed => ([], pend, false)

namespace TcpOut

/-- Whether the payload is accepted, the sender then, and what was written. -/
def send (t : TcpOut) (payload : List UInt8) (answers : List Answer) :
    Bool × TcpOut × List UInt8 :=
  match frame payload with
  | none => (false, t, [])
  | some f =>
    if sendBuf < t.pending.length + f.length then (false, t, [])
    else
      let (written, left, ok) := flush answers (t.pending ++ f)
      (ok, { pending := left, isOpen := t.isOpen && ok }, written)

end TcpOut

/-! ## The line -/

inductive Act where
  | send (payload : List UInt8) (answers : List Answer)
  /-- The receiver reads so many bytes and takes the frames. -/
  | read (n : Nat)

structure Line where
  out : TcpOut := {}
  wire : List UInt8 := []
  buf : List UInt8 := []
  accepted : List (List UInt8) := []
  got : List (List UInt8) := []

namespace Line

variable (s : Line)

def step : Act → Line
  | .send payload answers =>
    let (ok, out, written) := s.out.send payload answers
    { s with
      out := out
      wire := s.wire ++ written
      accepted := if ok then s.accepted ++ [payload] else s.accepted }
  | .read n =>
    let (fs, buf) := takeFrames (s.buf ++ s.wire.take n)
    { s with wire := s.wire.drop n, buf := buf, got := s.got ++ fs }

def run (acts : List Act) : Line := acts.foldl step {}

end Line

/-- The socket does not fail. -/
def Act.Healthy : Act → Prop
  | .send _ answers => .failed ∉ answers
  | .read _ => True

/-! ## Reading frames -/

/-- The payloads that are told of. -/
def loud (l : List (List UInt8)) : List (List UInt8) := l.filter (· ≠ [])

def bytes (payload : List UInt8) : List UInt8 := be16 payload.length ++ payload

/-- Every payload has a length of 16 bits. -/
def Fits (l : List (List UInt8)) : Prop := ∀ p ∈ l, p.length ≤ 65535

/-- There is no whole frame at the beginning. -/
def Short (b : List UInt8) : Prop := ∀ p t, p.length ≤ 65535 → b ≠ bytes p ++ t

theorem bytes_eq_cons {p t r : List UInt8} {a b : UInt8} (hp : p.length ≤ 65535)
    (h : a :: b :: r = bytes p ++ t) : of16 a b = p.length ∧ r = p ++ t := by
  have hlen := of16_be16 p.length
  rw [Nat.mod_eq_of_lt (by omega)] at hlen
  rw [bytes, be16, List.append_assoc, List.cons_append, List.cons_append, List.nil_append,
    List.cons.injEq, List.cons.injEq] at h
  obtain ⟨rfl, rfl, hr⟩ := h
  exact ⟨hlen, hr⟩

/-- A frame comes out when all of it is there, and frames of no length before it are skipped. -/
theorem nextFrame_spec (buf tail : List UInt8) : ∀ {rest : List (List UInt8)}, Fits rest →
    buf ++ tail = rest.flatMap bytes → ∃ done left, rest = done ++ left ∧
      (nextFrame buf).1.toList = loud done ∧ (nextFrame buf).2 ++ tail = left.flatMap bytes ∧
      ((nextFrame buf).1 = none → Short (nextFrame buf).2) := by
  fun_induction nextFrame buf with
  | case1 a b r n =>
    rename_i hshort
    intro rest hfits h
    refine ⟨[], rest, rfl, rfl, h, fun _ p t hp heq => ?_⟩
    obtain ⟨hn, rfl⟩ := bytes_eq_cons hp heq
    rw [List.length_append] at hshort
    omega
  | case2 a b r n hlong hzero =>
    rename_i ih
    intro rest hfits h
    cases rest with
    | nil => nomatch h
    | cons p rest =>
      obtain ⟨hp, hfits⟩ := List.forall_mem_cons.mp hfits
      obtain ⟨hn, hr⟩ := bytes_eq_cons hp h
      have hnil : p = [] := List.length_eq_zero_iff.mp (by omega)
      rw [hnil, List.nil_append] at hr
      obtain ⟨done, left, rfl, hout, hleft, hnone⟩ := ih hfits hr
      refine ⟨p :: done, left, rfl, ?_, hleft, hnone⟩
      rw [hout, hnil]
      rfl
  | case3 a b r n hlong =>
    rename_i hpos
    intro rest hfits h
    cases rest with
    | nil => nomatch h
    | cons p rest =>
      obtain ⟨hp, hfits⟩ := List.forall_mem_cons.mp hfits
      obtain ⟨hn, hr⟩ := bytes_eq_cons hp h
      change r ++ tail = p ++ rest.flatMap bytes at hr
      have hn : n = p.length := hn
      have hlen : p.length ≤ r.length := by omega
      have hne : p ≠ [] := fun e => hpos (hn.trans (List.length_eq_zero_iff.mpr e))
      have htake : r.take p.length = p :=
        (List.take_append_of_le_length hlen).symm.trans (by rw [hr, List.take_left])
      have hdrop : r.drop p.length ++ tail = rest.flatMap bytes :=
        (List.drop_append_of_le_length hlen).symm.trans (by rw [hr, List.drop_left])
      rw [hn, htake]
      refine ⟨[p], rest, rfl, ?_, hdrop, fun hnone => nomatch hnone⟩
      rw [loud, List.filter_singleton, decide_eq_true hne]
      rfl
  | case4 buf hbuf =>
    intro rest hfits h
    refine ⟨[], rest, rfl, rfl, h, fun _ p t hp heq => ?_⟩
    exact hbuf _ _ _ heq

/-- What comes out of a part of the stream, and what is held back. -/
theorem takeFrames_spec (buf tail : List UInt8) : ∀ {rest : List (List UInt8)}, Fits rest →
    buf ++ tail = rest.flatMap bytes → ∃ done left, rest = done ++ left ∧
      (takeFrames buf).1 = loud done ∧ (takeFrames buf).2 ++ tail = left.flatMap bytes ∧
      Short (takeFrames buf).2 := by
  fun_induction takeFrames buf with
  | case1 buf b hb =>
    intro rest hfits h
    obtain ⟨done, left, hsplit, hout, hleft, hshort⟩ := nextFrame_spec _ _ hfits h
    rw [hb] at hout hleft hshort
    exact ⟨done, left, hsplit, hout, hleft, hshort rfl⟩
  | case2 buf f b hb fs b' hrec ih =>
    intro rest hfits h
    obtain ⟨done, left, rfl, hout, hleft, -⟩ := nextFrame_spec _ _ hfits h
    rw [hb] at hout hleft
    obtain ⟨done', left', rfl, hout', hleft', hshort⟩ :=
      ih (fun p hp => hfits p (List.mem_append_right _ hp)) hleft
    rw [hrec] at hout' hleft' hshort
    refine ⟨done ++ done', left', (List.append_assoc _ _ _).symm, ?_, hleft', hshort⟩
    rw [loud, List.filter_append]
    exact congrArg₂ (· ++ ·) hout hout'

/-! ## Writing them -/

/-- Nothing is lost between what is written and what is left. -/
theorem flush_append (answers : List Answer) (pend : List UInt8) :
    (flush answers pend).1 ++ (flush answers pend).2.1 = pend := by
  fun_induction flush answers pend with
  | case1 pend => rfl
  | case2 => rfl
  | case3 pend answers hne => rfl
  | case4 pend answers n hpos hne written left ok hrec ih =>
    rw [hrec] at ih
    dsimp only at ih ⊢
    rw [List.append_assoc, ih, List.take_append_drop]
  | case5 pend answers hne => rfl
  | case6 pend answers hne => rfl

theorem flush_ok {answers : List Answer} (h : .failed ∉ answers) (pend : List UInt8) :
    (flush answers pend).2.2 = true := by
  fun_induction flush answers pend with
  | case1 pend => rfl
  | case2 => rfl
  | case3 pend answers hne => rfl
  | case4 pend answers n hpos hne written left ok hrec ih =>
    rw [hrec] at ih
    exact ih fun hmem => h (List.mem_cons_of_mem _ hmem)
  | case5 pend answers hne => rfl
  | case6 pend answers hne => exact absurd List.mem_cons_self h

/-- A payload is accepted as a whole frame behind what waits, or not at all. -/
theorem TcpOut.send_cases (t : TcpOut) (payload : List UInt8) {answers : List Answer}
    (h : .failed ∉ answers) :
    t.send payload answers = (false, t, []) ∨
      payload.length ≤ 65535 ∧ ∃ t' written, t.send payload answers = (true, t', written) ∧
        written ++ t'.pending = t.pending ++ bytes payload := by
  by_cases hlong : 65535 < payload.length
  · left
    rw [send, frame, if_pos hlong]
  · rw [send, frame, if_neg hlong]
    dsimp only
    split
    · exact .inl rfl
    · have hok := flush_ok h (t.pending ++ bytes payload)
      have hall := flush_append answers (t.pending ++ bytes payload)
      rw [bytes] at hok hall
      refine .inr ⟨Nat.le_of_not_lt hlong, { pending := _, isOpen := t.isOpen && true }, _, ?_,
        hall⟩
      rw [hok]

/-! ## The line -/

/-- What is held and under way, from the receiver to the sender, are the frames of the payloads
that have not come out. -/
def Carries (s : Line) : Prop :=
  ∃ done left, s.accepted = done ++ left ∧ s.got = loud done ∧ Fits left ∧
    s.buf ++ (s.wire ++ s.out.pending) = left.flatMap bytes ∧ Short s.buf

theorem Carries.send {s : Line} (hs : Carries s) (payload : List UInt8) {answers : List Answer}
    (h : .failed ∉ answers) : Carries (s.step (.send payload answers)) := by
  obtain ⟨done, left, hacc, hgot, hfits, hbytes, hshort⟩ := hs
  rcases s.out.send_cases payload h with heq | ⟨hlen, t, written, heq, hout⟩
  · rw [Line.step, heq]
    refine ⟨done, left, hacc, hgot, hfits, ?_, hshort⟩
    dsimp only
    rw [List.append_nil]
    exact hbytes
  · rw [Line.step, heq]
    refine ⟨done, left ++ [payload], ?_, hgot, ?_, ?_, hshort⟩
    · dsimp only
      rw [if_pos rfl, hacc, List.append_assoc]
    · exact List.forall_mem_append.mpr ⟨hfits, List.forall_mem_singleton.mpr hlen⟩
    · calc s.buf ++ (s.wire ++ written ++ t.pending)
          = s.buf ++ (s.wire ++ (s.out.pending ++ bytes payload)) := by
            rw [List.append_assoc, hout]
        _ = s.buf ++ (s.wire ++ s.out.pending) ++ bytes payload := by
            simp only [List.append_assoc]
        _ = (left ++ [payload]).flatMap bytes := by
            rw [hbytes, List.flatMap_append, List.flatMap_singleton]

theorem Carries.read {s : Line} (hs : Carries s) (n : Nat) : Carries (s.step (.read n)) := by
  obtain ⟨done, left, hacc, hgot, hfits, hbytes, -⟩ := hs
  have hsplit : s.buf ++ s.wire.take n ++ (s.wire.drop n ++ s.out.pending) =
      left.flatMap bytes := by
    rw [List.append_assoc, ← List.append_assoc (s.wire.take n), List.take_append_drop, hbytes]
  obtain ⟨out, rest, rfl, hout, hrest, hshort⟩ := takeFrames_spec _ _ hfits hsplit
  refine ⟨done ++ out, rest, ?_, ?_, fun p hp => hfits p (List.mem_append_right _ hp), hrest,
    hshort⟩
  · exact hacc.trans (List.append_assoc _ _ _).symm
  · rw [loud, List.filter_append]
    exact congrArg₂ (· ++ ·) hgot hout

theorem carries_run {acts : List Act} (h : ∀ a ∈ acts, a.Healthy) {s : Line} (hs : Carries s) :
    Carries (acts.foldl Line.step s) := by
  induction acts generalizing s with
  | nil => exact hs
  | cons a acts ih =>
    obtain ⟨ha, hacts⟩ := List.forall_mem_cons.mp h
    cases a with
    | send payload answers => exact ih hacts (hs.send payload ha)
    | read n => exact ih hacts (hs.read n)

theorem carries_start : Carries {} :=
  ⟨[], [], rfl, rfl, List.forall_mem_nil _, rfl, fun _ _ _ h => nomatch h⟩

/-- **The frames that come out are the payloads that were accepted.** -/
theorem frames_arrive {acts : List Act} (h : ∀ a ∈ acts, a.Healthy) :
    let s := Line.run acts
    s.got <+: loud s.accepted ∧
      (s.out.pending = [] → s.wire = [] → s.got = loud s.accepted) := by
  intro s
  obtain ⟨done, left, hacc, hgot, hfits, hbytes, hshort⟩ := carries_run h carries_start
  change s.accepted = _ at hacc
  change s.got = _ at hgot
  refine ⟨?_, fun hpend hwire => ?_⟩
  · rw [hacc, hgot, loud, loud, List.filter_append]
    exact List.prefix_append _ _
  · change s.buf ++ (s.wire ++ s.out.pending) = _ at hbytes
    rw [hpend, hwire, List.append_nil, List.append_nil] at hbytes
    cases left with
    | nil => rw [hacc, hgot, List.append_nil]
    | cons p left => exact absurd hbytes (hshort p _ (hfits p List.mem_cons_self))

/-- A frame is written and read in parts, with a frame of no length before it. -/
def inParts : List Act :=
  [.send [] [.wrote 1, .wouldBlock], .send [1, 2, 3] [.wrote 3, .wrote 0], .read 2, .read 1,
    .send [9] [.wrote 2, .wrote 5], .read 4, .read 9]

theorem frames_arrive_inParts : (Line.run inParts).got = [[1, 2, 3], [9]] :=
  (frames_arrive (by simp [inParts, Act.Healthy])).2 (by decide) (by decide)

end OxlensSfu.Tcp
