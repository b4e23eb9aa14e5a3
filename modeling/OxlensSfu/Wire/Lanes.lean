import OxlensSfu.Lib.Machine
import OxlensSfu.Wire.Codec

/-!
# Four lanes on one stream

A session sends its messages over one connection (`crates/oxmesh/src/session.rs`, and the frames of
`wire.rs`). A message is cut into frames, which wait in the queue of its lane; the writer takes
them in batches, always from the highest lane that has one, so that a long message may be
interrupted between two of its frames. The reader appends what a frame carries to what its lane
has, and decodes when the last frame of a message is there.

**Theorem (`lanes_carry`).** At any time what the reader yields of a lane is a beginning of what
was queued on it, in order and unaltered. It yields all of it once the frames of the lane are
written, unless it met a message that is longer than `msgMax`: there it stops.

A message that long is queued like any other, and what follows it is lost (`long_message_stops`).
-/

namespace OxlensSfu.Wire

open Lib
open Mesh (CloseReason Lane)

def frameMax : Nat := 16 * 1024

def frameHead : Nat := 6

def msgMax : Nat := 64 * 1024 * 1024

/-- The flag of a frame that others of its message follow. -/
def more : UInt8 := 1

def dataCap : Nat := 8192

def reqCap : Nat := 4096

def writeBatch : Nat := 64 * 1024

def Msg.lane : Msg → Lane
  | .hello _ | .close _ | .keepAlive => .control
  | .declare _ _ _ | .undeclare _ _ | .declareDone | .tokenSub _ _ _ | .tokenUnsub _
  | .tokenEvt _ _ _ | .peers _ => .declare
  | .request _ _ _ _ | .reply _ _ _ _ | .final _ => .request
  | .put _ _ => .data

def Str.text (s : Str) : String := String.fromUTF8 ⟨s.1.1.toArray⟩ s.2

/-- The message as a router has it. `adv` is the address that it makes of what a hello lists. -/
def Msg.view (adv : Vec Str → Option String) : Msg → Mesh.Msg
  | .hello h => .hello {
      proto := h.proto.toNat, role := h.role, node := h.node.text, boot := h.boot.toNat
      sno := h.sno.toNat, adv := adv h.listen
      peers := h.peers.1.map fun x => (x.1.text, x.2.text) }
  | .close reason => .close reason
  | .keepAlive => .keepAlive
  | .declare kind id expr => .declare kind id.toNat expr.text
  | .undeclare kind id => .undeclare kind id.toNat
  | .declareDone => .declareDone
  | .tokenSub id expr history => .tokenSub id.toNat expr.text history
  | .tokenUnsub id => .tokenUnsub id.toNat
  | .tokenEvt id kind key => .tokenEvt id.toNat kind key.text
  | .peers list => .peers (list.1.map fun x => (x.1.text, x.2.text))
  | .put key payload => .put key.text payload.1
  | .request qid expr payload timeoutMs => .request qid.toNat expr.text payload.1 timeoutMs.toNat
  | .reply qid key ok payload => .reply qid.toNat key.text ok payload.1
  | .final qid => .final qid.toNat

@[simp] theorem Msg.lane_view (adv : Vec Str → Option String) (m : Msg) :
    (m.view adv).lane = m.lane := by cases m <;> rfl

def laneByte : Lane → UInt8
  | .control => 0
  | .declare => 1
  | .request => 2
  | .data => 3

def laneOf (b : UInt8) : Option Lane :=
  match b.toNat with
  | 0 => some .control
  | 1 => some .declare
  | 2 => some .request
  | 3 => some .data
  | _ => none

@[simp] theorem laneOf_laneByte (l : Lane) : laneOf (laneByte l) = some l := by cases l <;> rfl

/-! ## Frames -/

/-- The four bytes of a `u32`, the highest first. -/
def toBe (n : Nat) : List UInt8 :=
  [UInt8.ofNat (n / 2 ^ 24), UInt8.ofNat (n / 2 ^ 16), UInt8.ofNat (n / 2 ^ 8), UInt8.ofNat n]

def fromBe (a b c d : UInt8) : Nat :=
  a.toNat * 2 ^ 24 + b.toNat * 2 ^ 16 + c.toNat * 2 ^ 8 + d.toNat

def frame (lane : Lane) (flags : UInt8) (chunk : List UInt8) : List UInt8 :=
  toBe (chunk.length + 2) ++ laneByte lane :: flags :: chunk

/-- The most that one frame carries. -/
def room : Nat := frameMax - frameHead

/-- The frames of what is left of a body: all but the last are full and say that more follow. -/
def framesFrom (lane : Lane) (body : List UInt8) : List (List UInt8) :=
  if room < body.length then
    frame lane more (body.take room) :: framesFrom lane (body.drop room)
  else [frame lane 0 body]
termination_by body.length
decreasing_by
  rw [List.length_drop]
  have : 0 < room := by decide
  omega

def Msg.frames (m : Msg) : List (List UInt8) := framesFrom m.lane m.encode

/-- What has come of a message, by lanes. -/
abbrev Parts : Type := Lane → List UInt8

inductive Assembled where
  | part
  | done (b : List UInt8)
  | tooBig

/-- `Reassembler::push`. -/
def Parts.push (p : Parts) (lane : Lane) (flags : UInt8) (chunk : List UInt8) :
    Parts × Assembled :=
  if msgMax < (p lane).length + chunk.length then (p, .tooBig)
  else
    let p := Function.update p lane (p lane ++ chunk)
    if flags &&& more ≠ 0 then (p, .part)
    else (Function.update p lane [], .done (p lane))

/-! ## The outbox -/

abbrev Queues : Type := Lane → List (List UInt8)

inductive Push where
  | queued
  | dropped
  | full
  | closed
  deriving DecidableEq

structure Outbox where
  q : Queues := fun _ => []
  /-- The outbox is closed, with the frame that is still to be written. -/
  closing : Option (Option (List UInt8)) := none
  dropped : Nat := 0
  full : Nat := 0

def cap : Lane → Option Nat
  | .data => some dataCap
  | .request => some reqCap
  | _ => none

def Outbox.push (o : Outbox) (m : Msg) : Outbox × Push :=
  if o.closing.isSome then (o, .closed)
  else
    match cap m.lane with
    | some c =>
      if c < (o.q m.lane).length + m.frames.length then
        if m.lane = .data then ({ o with dropped := o.dropped + 1 }, .dropped)
        else ({ o with full := o.full + 1 }, .full)
      else ({ o with q := Function.update o.q m.lane (o.q m.lane ++ m.frames) }, .queued)
    | none => ({ o with q := Function.update o.q m.lane (o.q m.lane ++ m.frames) }, .queued)

def Outbox.close (o : Outbox) (reason : Option CloseReason) : Outbox :=
  if o.closing.isNone then
    { o with closing := some (reason.map fun r => (Msg.close r).frames.flatten) }
  else o

inductive Pop where
  | frames (b : List UInt8)
  | empty
  | close (f : Option (List UInt8))

/-- The first frame of the highest lane that has one, and the queues without it. -/
def Queues.take (q : Queues) : Option (List UInt8 × Queues) :=
  [Lane.control, .declare, .request, .data].findSome? fun l =>
    match q l with
    | [] => none
    | f :: fs => some (f, Function.update q l fs)

def Queues.total (q : Queues) : Nat :=
  (q .control).length + (q .declare).length + (q .request).length + (q .data).length

/-- The loop of `pop`. Each round takes a frame, so there are no more rounds than frames. -/
def Queues.fill : Nat → Queues → List UInt8 → Queues × List UInt8
  | 0, q, out => (q, out)
  | n + 1, q, out =>
    if out.length < writeBatch then
      match q.take with
      | some (f, q) => fill n q (out ++ f)
      | none => (q, out)
    else (q, out)

def Outbox.pop (o : Outbox) : Outbox × Pop :=
  match o.closing with
  | some c => ({ o with closing := some none, q := fun _ => [] }, .close c)
  | none =>
    let (q, out) := o.q.fill o.q.total []
    ({ o with q }, if out = [] then .empty else .frames out)

/-! ## Reading -/

/-- A frame and what follows it; `io` when the stream ends before it does. -/
def readFrame (s : List UInt8) :
    Except CloseReason (Lane × UInt8 × List UInt8 × List UInt8) :=
  match s with
  | a :: b :: c :: d :: rest =>
    let n := fromBe a b c d
    if n < 2 ∨ frameMax - 4 < n then .error .protocol
    else if rest.length < n then .error .io
    else
      match rest.take n with
      | lane :: flags :: chunk =>
        match laneOf lane with
        | some l => .ok (l, flags, chunk, rest.drop n)
        | none => .error .protocol
      | _ => .error .protocol
  | _ => .error .io

theorem readFrame_rest {s : List UInt8} {x : Lane × UInt8 × List UInt8 × List UInt8}
    (h : readFrame s = .ok x) : x.2.2.2.length < s.length := by
  unfold readFrame at h
  split at h
  · next a b c d rest =>
    dsimp only at h
    split at h
    · cases h
    split at h
    · cases h
    split at h
    · split at h
      · rw [Except.ok.injEq] at h
        rw [← h, List.length_drop]
        simp only [List.length_cons]
        omega
      · cases h
    · cases h
  · cases h

/-- What `read_loop` sends on of a stream, and why it ends. A keepalive is not sent on. -/
def readLoop (p : Parts) (s : List UInt8) : List Msg × CloseReason :=
  match _h : readFrame s with
  | .error e => ([], e)
  | .ok (lane, flags, chunk, rest) =>
    match p.push lane flags chunk with
    | (p, .part) => readLoop p rest
    | (_, .tooBig) => ([], .protocol)
    | (p, .done b) =>
      match Msg.decode b with
      | .ok (some .keepAlive) => readLoop p rest
      | .ok (some m) =>
        let r := readLoop p rest
        (m :: r.1, r.2)
      | _ => ([], .protocol)
termination_by s.length
decreasing_by all_goals exact readFrame_rest _h

/-! ## The writer -/

/-- One direction of a session, with the messages that were queued on it. -/
structure Line where
  ob : Outbox := {}
  /-- The writer found nothing to write and waits. -/
  waiting : Bool := false
  wire : List UInt8 := []
  queued : List Msg := []

inductive LineAct where
  | push (m : Msg)
  | pop
  | keepAlive

def Line.push (w : Line) (m : Msg) : Line :=
  let (ob, r) := w.ob.push m
  { w with ob, queued := if r = .queued then w.queued ++ [m] else w.queued }

/-- A round of `write_loop`. -/
def Line.pop (w : Line) : Line :=
  match w.ob.pop with
  | (ob, .frames f) => { w with ob, wire := w.wire ++ f, waiting := false }
  | (ob, .close f) => { w with ob, wire := w.wire ++ f.getD [], waiting := false }
  | (ob, .empty) => { w with ob, waiting := true }

/-- Until it is closed. The writer sends a keepalive from where it waits. -/
def line : Machine Line LineAct where
  ok w a := match a with
    | .push _ | .pop => True
    | .keepAlive => w.waiting = true
  next w a := match a with
    | .push m => w.push m
    | .pop => w.pop
    | .keepAlive =>
      { w with wire := w.wire ++ Msg.keepAlive.frames.flatten, waiting := false }

/-- What was queued on a lane. -/
def Line.sent (w : Line) (l : Lane) : List Msg :=
  w.queued.filter fun m => m.lane = l ∧ m ≠ .keepAlive

/-- What the reader at the other end yields of a lane. -/
def Line.received (w : Line) (l : Lane) : List Msg :=
  (readLoop (fun _ => []) w.wire).1.filter fun m => m.lane = l

/-- Why the reader ends; `io` when it has read all there is. -/
def Line.ended (w : Line) : CloseReason := (readLoop (fun _ => []) w.wire).2

/-! ## A frame is read back -/

theorem fromBe_toBe {n : Nat} (h : n < 2 ^ 32) :
    fromBe (UInt8.ofNat (n / 2 ^ 24)) (UInt8.ofNat (n / 2 ^ 16)) (UInt8.ofNat (n / 2 ^ 8))
      (UInt8.ofNat n) = n := by
  simp only [fromBe, UInt8.toNat_ofNat']
  omega

theorem length_frame (lane : Lane) (flags : UInt8) (chunk : List UInt8) :
    (frame lane flags chunk).length = frameHead + chunk.length := by
  simp only [frame, toBe, List.length_append, List.length_cons, List.length_nil, frameHead]
  omega

theorem frame_ne_nil (lane : Lane) (flags : UInt8) (chunk : List UInt8) :
    frame lane flags chunk ≠ [] := by
  intro h
  have := length_frame lane flags chunk
  rw [h, List.length_nil, frameHead] at this
  omega

/-- What `readFrame` makes of a head and what follows it. -/
theorem readFrame_head (a b c d : UInt8) (rest : List UInt8) :
    readFrame (a :: b :: c :: d :: rest) =
      if fromBe a b c d < 2 ∨ frameMax - 4 < fromBe a b c d then .error .protocol
      else if rest.length < fromBe a b c d then .error .io
      else
        match rest.take (fromBe a b c d) with
        | lane :: flags :: chunk =>
          match laneOf lane with
          | some l => .ok (l, flags, chunk, rest.drop (fromBe a b c d))
          | none => .error .protocol
        | _ => .error .protocol := rfl

theorem readFrame_frame {lane : Lane} {flags : UInt8} {chunk : List UInt8}
    (h : chunk.length ≤ room) (rest : List UInt8) :
    readFrame (frame lane flags chunk ++ rest) = .ok (lane, flags, chunk, rest) := by
  have hroom : chunk.length + 4 + 2 ≤ frameMax := by
    simp only [room, frameMax, frameHead] at h ⊢
    omega
  have hmax : frameMax < 2 ^ 32 := by norm_num [frameMax]
  have hlen := fromBe_toBe (n := chunk.length + 2) (by omega)
  have htake : (laneByte lane :: flags :: (chunk ++ rest)).take (chunk.length + 2) =
      laneByte lane :: flags :: chunk := by simp
  have hdrop : (laneByte lane :: flags :: (chunk ++ rest)).drop (chunk.length + 2) = rest := by
    simp
  rw [frame, toBe, List.append_assoc, List.cons_append, List.cons_append, List.cons_append,
    List.cons_append, List.nil_append, readFrame_head, hlen, if_neg (by omega), List.cons_append,
    List.cons_append, if_neg (by simp), htake, hdrop]
  simp only [laneOf_laneByte]

/-- A frame of the body is full, or it is the last. -/
theorem framesFrom_eq (lane : Lane) (body : List UInt8) :
    (room < body.length ∧ framesFrom lane body =
      frame lane more (body.take room) :: framesFrom lane (body.drop room)) ∨
    (body.length ≤ room ∧ framesFrom lane body = [frame lane 0 body]) := by
  rw [framesFrom]
  split
  · next h => exact .inl ⟨h, rfl⟩
  · next h => exact .inr ⟨not_lt.mp h, rfl⟩

theorem framesFrom_ne_nil (lane : Lane) (body : List UInt8) : framesFrom lane body ≠ [] := by
  rcases framesFrom_eq lane body with ⟨-, h⟩ | ⟨-, h⟩ <;> rw [h] <;> exact List.cons_ne_nil _ _

theorem mem_framesFrom {lane : Lane} {body f : List UInt8} (hf : f ∈ framesFrom lane body) :
    ∃ flags chunk, chunk.length ≤ room ∧ f = frame lane flags chunk := by
  induction body using framesFrom.induct with
  | case1 body h ih =>
    rw [framesFrom, if_pos h, List.mem_cons] at hf
    rcases hf with rfl | hf
    · exact ⟨more, _, List.length_take_le _ _, rfl⟩
    · exact ih hf
  | case2 body h =>
    rw [framesFrom, if_neg h, List.mem_singleton] at hf
    exact ⟨0, body, not_lt.mp h, hf⟩

/-- One round of the reader, on a frame. -/
theorem readLoop_frame {p : Parts} {lane : Lane} {flags : UInt8} {chunk : List UInt8}
    (h : chunk.length ≤ room) (rest : List UInt8) :
    readLoop p (frame lane flags chunk ++ rest) =
      match p.push lane flags chunk with
      | (p, .part) => readLoop p rest
      | (_, .tooBig) => ([], .protocol)
      | (p, .done b) =>
        match Msg.decode b with
        | .ok (some .keepAlive) => readLoop p rest
        | .ok (some m) => (m :: (readLoop p rest).1, (readLoop p rest).2)
        | _ => ([], .protocol) := by
  rw [readLoop]
  split
  · next e he =>
    rw [readFrame_frame h] at he
    nomatch he
  · next l g c r he =>
    rw [readFrame_frame h, Except.ok.injEq] at he
    obtain ⟨rfl, rfl, rfl, rfl⟩ := he
    rfl

/-! ## What is on its way -/

theorem encode_ne_nil (m : Msg) : m.encode ≠ [] := by cases m <;> exact List.cons_ne_nil _ _

/-- What is left of a lane to be written when the reader has `part`: the rest of the message that
this is the beginning of, and then messages. -/
def Left (l : Lane) (part : List UInt8) (fs : List (List UInt8)) : List Msg → Prop
  | [] => part = [] ∧ fs = []
  | m :: ms => ∃ body, body ≠ [] ∧ m.encode = part ++ body ∧
      fs = framesFrom l body ++ ms.flatMap Msg.frames

variable {l : Lane} {part : List UInt8} {fs : List (List UInt8)} {ms : List Msg} {m : Msg}

theorem left_messages (h : ∀ m ∈ ms, m.lane = l) : Left l [] (ms.flatMap Msg.frames) ms := by
  cases ms with
  | nil => exact ⟨rfl, rfl⟩
  | cons m ms =>
    refine ⟨m.encode, encode_ne_nil m, rfl, ?_⟩
    rw [List.flatMap_cons, Msg.frames, h m List.mem_cons_self]

theorem Left.push (h : Left l part fs ms) (hm : m.lane = l) :
    Left l part (fs ++ m.frames) (ms ++ [m]) := by
  cases ms with
  | nil =>
    obtain ⟨rfl, rfl⟩ := h
    exact ⟨m.encode, encode_ne_nil m, rfl, by rw [Msg.frames, hm]; simp⟩
  | cons d ms =>
    obtain ⟨body, hne, he, rfl⟩ := h
    exact ⟨body, hne, he, by simp [List.append_assoc]⟩

theorem Left.drained (h : Left l part [] ms) : ms = [] ∧ part = [] := by
  cases ms with
  | nil => exact ⟨rfl, h.1⟩
  | cons m ms =>
    obtain ⟨body, -, -, hfs⟩ := h
    exact absurd (List.append_eq_nil_iff.mp hfs.symm).1 (framesFrom_ne_nil l body)

/-- The messages of a lane: those the reader is done with, and those that are left. -/
def Account (queued ys : List Msg) (l : Lane) (done left : List Msg) : Prop :=
  queued.filter (fun m => m.lane = l) = done ++ left ∧
  (∀ m ∈ done, m.encode.length ≤ msgMax) ∧
  ys.filter (fun m => m.lane = l) = done.filter (fun m => m ≠ .keepAlive)

variable {queued ys done left : List Msg} {wire : List UInt8} {q : Queues} {idle : Bool}

theorem Account.mem (h : Account queued ys l done left) (hm : m ∈ left) :
    m ∈ queued ∧ m.lane = l := by
  have : m ∈ queued.filter fun m => m.lane = l := by
    rw [h.1]
    exact List.mem_append_right _ hm
  simpa using this

/-- The reader is done with the next message of the lane. -/
theorem Account.finish (h : Account queued ys l done (m :: ms)) (hm : m.encode.length ≤ msgMax)
    (k : Lane) {d f : List Msg} (hk : Account queued ys k d f) :
    Account queued (if m = .keepAlive then ys else ys ++ [m]) k
      (if k = l then done ++ [m] else d) (if k = l then ms else f) := by
  have hl := (h.mem List.mem_cons_self).2
  by_cases hkl : k = l
  · subst hkl
    rw [if_pos rfl, if_pos rfl]
    refine ⟨by rw [h.1]; simp, fun x hx => ?_, ?_⟩
    · rcases List.mem_append.mp hx with hx | hx
      · exact h.2.1 x hx
      · exact List.mem_singleton.mp hx ▸ hm
    · by_cases hka : m = .keepAlive
      · rw [if_pos hka, h.2.2, List.filter_append]
        simp [hka]
      · rw [if_neg hka, List.filter_append, List.filter_append, h.2.2]
        simp [hka, hl]
  · rw [if_neg hkl, if_neg hkl]
    refine ⟨hk.1, hk.2.1, ?_⟩
    by_cases hka : m = .keepAlive
    · rw [if_pos hka, hk.2.2]
    · rw [if_neg hka, List.filter_append, hk.2.2]
      have : ¬m.lane = k := fun h => hkl (h.symm.trans hl)
      simp [this]

/-- The reader has the parts `p`, has yielded `ys` and reads on. -/
def Going (queued : List Msg) (wire : List UInt8) (q : Queues) (idle : Bool) : Prop :=
  ∃ (p : Parts) (ys : List Msg),
    (∀ rest, readLoop (fun _ => []) (wire ++ rest) =
      (ys ++ (readLoop p rest).1, (readLoop p rest).2)) ∧
    (idle = true → ∀ l, p l = []) ∧
    ∀ l, ∃ done left, Account queued ys l done left ∧ Left l (p l) (q l) left

/-- The reader met a message that is too long. -/
def Stopped (queued : List Msg) (wire : List UInt8) : Prop :=
  ∃ ys : List Msg, (∀ rest, readLoop (fun _ => []) (wire ++ rest) = (ys, .protocol)) ∧
    (∃ m ∈ queued, msgMax < m.encode.length) ∧ ∀ l, ∃ done left, Account queued ys l done left

/-! ## One frame more -/

theorem Parts.push_tooBig {p : Parts} {flags : UInt8} {chunk : List UInt8}
    (h : msgMax < (p l).length + chunk.length) : p.push l flags chunk = (p, .tooBig) := if_pos h

theorem Parts.push_more {p : Parts} {chunk : List UInt8}
    (h : (p l).length + chunk.length ≤ msgMax) :
    p.push l more chunk = (Function.update p l (p l ++ chunk), .part) := by
  rw [Parts.push, if_neg (not_lt.mpr h)]
  exact if_pos (by decide)

theorem Parts.push_last {p : Parts} {chunk : List UInt8}
    (h : (p l).length + chunk.length ≤ msgMax) :
    p.push l 0 chunk = (Function.update p l [], .done (p l ++ chunk)) := by
  rw [Parts.push, if_neg (not_lt.mpr h)]
  refine (if_neg (by decide)).trans ?_
  rw [Function.update_idem, Function.update_self]

/-- The last frame of a message, when all of it fits. -/
theorem readLoop_last {p : Parts} {body : List UInt8} (hroom : body.length ≤ room)
    (hm : m.encode = p l ++ body) (hmax : m.encode.length ≤ msgMax) (rest : List UInt8) :
    readLoop p (frame l 0 body ++ rest) =
      ((if m = .keepAlive then [] else [m]) ++ (readLoop (Function.update p l []) rest).1,
        (readLoop (Function.update p l []) rest).2) := by
  rw [readLoop_frame hroom, Parts.push_last (by rw [← List.length_append, ← hm]; exact hmax)]
  dsimp only
  rw [← hm, decode_encode]
  cases m <;> simp

/-- A frame whose message is too long ends the reading. -/
theorem Going.stop {p : Parts} {ys : List Msg} {flags : UInt8} {chunk : List UInt8}
    (hread : ∀ rest, readLoop (fun _ => []) (wire ++ rest) =
      (ys ++ (readLoop p rest).1, (readLoop p rest).2))
    (hacc : ∀ l, ∃ done left, Account queued ys l done left) (hm : m ∈ queued)
    (hlong : msgMax < m.encode.length) (hroom : chunk.length ≤ room)
    (hbig : msgMax < (p l).length + chunk.length) :
    Stopped queued (wire ++ frame l flags chunk) := by
  refine ⟨ys, fun rest => ?_, ⟨m, hm, hlong⟩, hacc⟩
  rw [List.append_assoc, hread, readLoop_frame hroom, Parts.push_tooBig hbig]
  simp

/-- The next frame of a lane is written. -/
theorem Going.take {f : List UInt8} (h : Going queued wire q idle) (hq : q l = f :: fs) :
    Going queued (wire ++ f) (Function.update q l fs) false ∨ Stopped queued (wire ++ f) := by
  obtain ⟨p, ys, hread, -, hacc⟩ := h
  have hall : ∀ l, ∃ done left, Account queued ys l done left := fun k => by
    obtain ⟨d, f, ha, -⟩ := hacc k
    exact ⟨d, f, ha⟩
  obtain ⟨done, left, ha, hleft⟩ := hacc l
  rw [hq] at hleft
  cases left with
  | nil => exact absurd hleft.2 (List.cons_ne_nil _ _)
  | cons m ms =>
    obtain ⟨body, hne, hm, hfs⟩ := hleft
    have hin := ha.mem List.mem_cons_self
    have hms : ∀ x ∈ ms, x.lane = l := fun x hx => (ha.mem (List.mem_cons_of_mem _ hx)).2
    have hlen : m.encode.length = (p l).length + body.length := by rw [hm, List.length_append]
    rcases framesFrom_eq l body with ⟨hroom, hframes⟩ | ⟨hroom, hframes⟩
    · -- the frame is full, and others of its message follow
      rw [hframes, List.cons_append, List.cons.injEq] at hfs
      obtain ⟨rfl, rfl⟩ := hfs
      have htake : (body.take room).length = room := by
        rw [List.length_take]
        omega
      by_cases hbig : msgMax < (p l).length + (body.take room).length
      · exact .inr (Going.stop hread hall hin.1 (by omega) htake.le hbig)
      · refine .inl ⟨Function.update p l (p l ++ body.take room), ys, fun rest => ?_,
          (fun h => nomatch h), fun k => ?_⟩
        · rw [List.append_assoc, hread, readLoop_frame htake.le,
            Parts.push_more (not_lt.mp hbig)]
        · by_cases hk : k = l
          · subst hk
            refine ⟨done, m :: ms, ha, body.drop room, ?_, ?_, ?_⟩
            · exact fun h => absurd (List.drop_eq_nil_iff.mp h) (not_le.mpr hroom)
            · rw [Function.update_self, List.append_assoc, List.take_append_drop, hm]
            · rw [Function.update_self]
          · rw [Function.update_of_ne hk, Function.update_of_ne hk]
            exact hacc k
    · -- the frame is the last of its message
      rw [hframes, List.singleton_append, List.cons.injEq] at hfs
      obtain ⟨rfl, rfl⟩ := hfs
      by_cases hbig : msgMax < m.encode.length
      · exact .inr (Going.stop hread hall hin.1 hbig hroom (hlen ▸ hbig))
      · have hmax := not_lt.mp hbig
        refine .inl ⟨Function.update p l [], if m = .keepAlive then ys else ys ++ [m],
          fun rest => ?_, (fun h => nomatch h), fun k => ?_⟩
        · rw [List.append_assoc, hread, readLoop_last hroom hm hmax]
          split <;> simp
        · obtain ⟨d, f, hk, hf⟩ := hacc k
          refine ⟨_, _, ha.finish hmax k hk, ?_⟩
          by_cases hkl : k = l
          · subst hkl
            rw [if_pos rfl, Function.update_self, Function.update_self]
            exact left_messages hms
          · rw [if_neg hkl, Function.update_of_ne hkl, Function.update_of_ne hkl]
            exact hf

/-! ## A batch -/

theorem Queues.take_some {f : List UInt8} {q q' : Queues} (h : q.take = some (f, q')) :
    ∃ l fs, q l = f :: fs ∧ q' = Function.update q l fs := by
  obtain ⟨l, -, hl⟩ := List.exists_of_findSome?_eq_some h
  cases hq : q l with
  | nil =>
    rw [hq] at hl
    nomatch hl
  | cons g fs =>
    rw [hq, Option.some.injEq, Prod.mk.injEq] at hl
    exact ⟨l, fs, by rw [hq, hl.1], hl.2.symm⟩

theorem Queues.take_none {q : Queues} (h : q.take = none) (l : Lane) : q l = [] := by
  have hl := List.findSome?_eq_none_iff.mp h l (by cases l <;> simp)
  cases hq : q l with
  | nil => rfl
  | cons g fs =>
    rw [hq] at hl
    nomatch hl

theorem Queues.total_eq_zero {q : Queues} (h : q.total = 0) (l : Lane) : q l = [] := by
  rw [Queues.total] at h
  rw [← List.length_eq_zero_iff]
  cases l <;> omega

/-- A batch goes on from what it has. -/
theorem Queues.fill_extends (n : Nat) :
    ∀ (q : Queues) (out : List UInt8), ∃ t, (q.fill n out).2 = out ++ t := by
  induction n with
  | zero => exact fun q out => ⟨[], (List.append_nil out).symm⟩
  | succ n ih =>
    intro q out
    rw [Queues.fill]
    split
    · split
      · next f q' _ =>
        obtain ⟨t, ht⟩ := ih q' (out ++ f)
        exact ⟨f ++ t, by rw [ht, List.append_assoc]⟩
      · exact ⟨[], (List.append_nil out).symm⟩
    · exact ⟨[], (List.append_nil out).symm⟩

/-- An empty batch leaves nothing behind. -/
theorem Queues.fill_empty {q : Queues} (hne : ∀ l, ∀ f ∈ q l, f ≠ [])
    (h : (q.fill q.total []).2 = []) (l : Lane) : (q.fill q.total []).1 l = [] := by
  cases hn : q.total with
  | zero => exact Queues.total_eq_zero hn l
  | succ n =>
    rw [hn, Queues.fill, if_pos (by decide)] at h
    rw [Queues.fill, if_pos (by decide)]
    cases ht : q.take with
    | none => exact Queues.take_none ht l
    | some x =>
      obtain ⟨f, q'⟩ := x
      obtain ⟨k, fs, hk, -⟩ := Queues.take_some ht
      obtain ⟨t, hfill⟩ := Queues.fill_extends n q' ([] ++ f)
      rw [ht] at h
      dsimp only at h
      rw [hfill, List.nil_append] at h
      exact absurd (List.append_eq_nil_iff.mp h).1 (hne k f (hk ▸ List.mem_cons_self))

/-- What is written and what is not agree, or the reader has stopped. -/
def Story (queued : List Msg) (wire : List UInt8) (q : Queues) (idle : Bool) : Prop :=
  Going queued wire q idle ∨ Stopped queued wire

theorem Stopped.more (h : Stopped queued wire) (t : List UInt8) : Stopped queued (wire ++ t) := by
  obtain ⟨ys, hread, hlong, hacc⟩ := h
  exact ⟨ys, fun rest => by rw [List.append_assoc, hread], hlong, hacc⟩

theorem Going.busy (h : Going queued wire q idle) : Going queued wire q false := by
  obtain ⟨p, ys, hread, -, hacc⟩ := h
  exact ⟨p, ys, hread, (fun h => nomatch h), hacc⟩

theorem Story.fill (n : Nat) : ∀ (q : Queues) (out : List UInt8),
    Story queued (wire ++ out) q false →
    Story queued (wire ++ (q.fill n out).2) (q.fill n out).1 false := by
  induction n with
  | zero => exact fun q out h => h
  | succ n ih =>
    intro q out h
    rw [Queues.fill]
    split
    · split
      · next f q' ht =>
        obtain ⟨l, fs, hq, rfl⟩ := Queues.take_some ht
        refine ih _ _ ?_
        rw [← List.append_assoc]
        rcases h with h | h
        · exact h.take hq
        · exact .inr (h.more f)
      · exact h
    · exact h

/-! ## A round of the writer, and a message more -/

theorem Going.frames_ne_nil (h : Going queued wire q idle) {f : List UInt8} (hf : f ∈ q l) :
    f ≠ [] := by
  obtain ⟨p, ys, -, -, hacc⟩ := h
  obtain ⟨done, left, ha, hleft⟩ := hacc l
  cases left with
  | nil =>
    rw [hleft.2] at hf
    nomatch hf
  | cons m ms =>
    obtain ⟨body, -, -, hfs⟩ := hleft
    rw [hfs, List.mem_append, List.mem_flatMap] at hf
    rcases hf with hf | ⟨x, -, hf⟩
    all_goals
      obtain ⟨flags, chunk, -, rfl⟩ := mem_framesFrom hf
      exact frame_ne_nil _ _ _

/-- When nothing waits, no message is half written. -/
theorem Going.rest (h : Going queued wire q false) (hq : ∀ l, q l = []) :
    Going queued wire q true := by
  obtain ⟨p, ys, hread, -, hacc⟩ := h
  refine ⟨p, ys, hread, fun _ l => ?_, hacc⟩
  obtain ⟨done, left, -, hleft⟩ := hacc l
  exact (hq l ▸ hleft).drained.2

theorem Account.queue (h : Account queued ys l done left) (m : Msg) :
    Account (queued ++ [m]) ys l done (if m.lane = l then left ++ [m] else left) := by
  refine ⟨?_, h.2⟩
  rw [List.filter_append, h.1]
  split
  · next hm => simp [hm]
  · next hm => simp [hm]

theorem Story.push (h : Story queued wire q idle) (m : Msg) :
    Story (queued ++ [m]) wire (Function.update q m.lane (q m.lane ++ m.frames)) idle := by
  rcases h with ⟨p, ys, hread, hidle, hacc⟩ | ⟨ys, hread, ⟨d, hd, hlong⟩, hacc⟩
  · refine .inl ⟨p, ys, hread, hidle, fun l => ?_⟩
    obtain ⟨done, left, ha, hleft⟩ := hacc l
    refine ⟨done, _, ha.queue m, ?_⟩
    by_cases hm : m.lane = l
    · subst hm
      rw [if_pos rfl, Function.update_self]
      exact hleft.push rfl
    · rw [if_neg hm, Function.update_of_ne (Ne.symm hm)]
      exact hleft
  · refine .inr ⟨ys, hread, ⟨d, List.mem_append_left _ hd, hlong⟩, fun l => ?_⟩
    obtain ⟨done, left, ha⟩ := hacc l
    exact ⟨done, _, ha.queue m⟩

/-- The writer waits where every lane is between two messages. -/
theorem Story.keepAlive (h : Story queued wire q true) :
    Story queued (wire ++ Msg.keepAlive.frames.flatten) q false := by
  rcases h with ⟨p, ys, hread, hidle, hacc⟩ | h
  · refine .inl ⟨p, ys, fun rest => ?_, (fun h => nomatch h), hacc⟩
    have hroom : (Msg.encode .keepAlive).length ≤ room := by decide
    have hframes : Msg.keepAlive.frames = [frame .control 0 (Msg.encode .keepAlive)] := by
      rcases framesFrom_eq .control (Msg.encode .keepAlive) with ⟨hlt, -⟩ | ⟨-, h⟩
      · omega
      · exact h
    have hpart := hidle rfl .control
    have hlast := readLoop_last (p := p) (l := .control) (m := .keepAlive) hroom
      (by rw [hpart]; rfl) (by decide) rest
    have hsame : Function.update p .control [] = p := by
      rw [← hpart, Function.update_eq_self]
    rw [hframes, List.flatten_singleton, List.append_assoc, hread, hlast, hsame]
    simp
  · exact .inr (h.more _)

/-! ## Runs -/

structure Line.Inv (w : Line) : Prop where
  closing : w.ob.closing = none
  story : Story w.queued w.wire w.ob.q w.waiting

/-- An open outbox queues the frames of the message, or is left as it was. -/
theorem Outbox.push_cases {o : Outbox} (h : o.closing = none) (m : Msg) :
    ((o.push m).2 = .queued ∧ (o.push m).1.closing = none ∧
      (o.push m).1.q = Function.update o.q m.lane (o.q m.lane ++ m.frames)) ∨
    ((o.push m).2 ≠ .queued ∧ (o.push m).1.closing = none ∧ (o.push m).1.q = o.q) := by
  have hopen : ¬ o.closing.isSome = true := by
    rw [h]
    decide
  rw [Outbox.push, if_neg hopen]
  split
  · split
    · split
      · exact .inr ⟨fun h => (nomatch h), h, rfl⟩
      · exact .inr ⟨fun h => (nomatch h), h, rfl⟩
    · exact .inl ⟨rfl, h, rfl⟩
  · exact .inl ⟨rfl, h, rfl⟩

/-- What a round of the writer makes of an open outbox. -/
theorem Line.pop_eq {w : Line} (h : w.ob.closing = none) :
    w.pop = { w with
      ob := { w.ob with q := (w.ob.q.fill w.ob.q.total []).1 }
      wire := w.wire ++ (w.ob.q.fill w.ob.q.total []).2
      waiting := decide ((w.ob.q.fill w.ob.q.total []).2 = []) } := by
  unfold Line.pop Outbox.pop
  rw [h]
  dsimp only
  by_cases hout : (w.ob.q.fill w.ob.q.total []).2 = []
  · simp only [hout, if_true, List.append_nil, decide_true, h]
  · simp only [hout, if_false, decide_false, h]

theorem Line.Inv.push {w : Line} (h : w.Inv) (m : Msg) : (w.push m).Inv := by
  unfold Line.push
  rcases Outbox.push_cases h.closing m with ⟨hr, hc, hq⟩ | ⟨hr, hc, hq⟩
  · refine ⟨hc, ?_⟩
    dsimp only
    rw [if_pos hr, hq]
    exact h.story.push m
  · refine ⟨hc, ?_⟩
    dsimp only
    rw [if_neg hr, hq]
    exact h.story

theorem Line.Inv.pop {w : Line} (h : w.Inv) : w.pop.Inv := by
  rw [Line.pop_eq h.closing]
  refine ⟨h.closing, ?_⟩
  have hbusy : Story w.queued (w.wire ++ []) w.ob.q false := by
    rw [List.append_nil]
    exact h.story.imp Going.busy id
  have hfill := hbusy.fill w.ob.q.total w.ob.q []
  dsimp only
  by_cases hout : (w.ob.q.fill w.ob.q.total []).2 = []
  · rw [decide_eq_true hout]
    rcases hfill with hgo | hstop
    · rcases h.story with hold | hold
      · refine .inl (hgo.rest fun l => ?_)
        exact Queues.fill_empty (fun _ _ hf => hold.frames_ne_nil hf) hout l
      · exact .inr (hold.more _)
    · exact .inr hstop
  · rw [decide_eq_false hout]
    exact hfill

theorem Line.Inv.start : Line.Inv {} where
  closing := rfl
  story := by
    refine .inl ⟨fun _ => [], [], fun rest => by simp, fun _ _ => rfl, fun l => ?_⟩
    exact ⟨[], [], ⟨rfl, (fun m hm => nomatch hm), rfl⟩, rfl, rfl⟩

theorem Line.Inv.next {w : Line} (h : w.Inv) (a : LineAct) (hok : line.ok w a) :
    (line.next w a).Inv := by
  cases a with
  | push m => exact h.push m
  | pop => exact h.pop
  | keepAlive =>
    have hwait : w.waiting = true := hok
    exact ⟨h.closing, Story.keepAlive (hwait ▸ h.story)⟩

theorem Line.inv_run {as : List LineAct} (hl : line.Legal {} as) : (line.exec {} as).Inv :=
  Machine.invariant (fun _ _ h hok => Line.Inv.next h _ hok) .start hl

theorem readLoop_nil (p : Parts) : readLoop p [] = ([], .io) := by
  rw [readLoop]
  rfl

theorem Line.sent_eq {w : Line} {ys : List Msg} (h : Account w.queued ys l done left) :
    w.sent l = ys.filter (fun m => m.lane = l) ++ left.filter fun m => m ≠ .keepAlive := by
  have hsent : w.sent l = (w.queued.filter fun m => m.lane = l).filter fun m => m ≠ .keepAlive := by
    rw [List.filter_filter]
    unfold Line.sent
    congr 1
    funext m
    simp [and_comm]
  rw [hsent, h.1, List.filter_append, h.2.2]

/-- What the reader has, from the invariant. -/
theorem Line.Inv.carried {w : Line} (h : w.Inv) :
    (∀ l, ∃ rest, w.sent l = w.received l ++ rest ∧ (∀ m ∈ w.received l, m.encode.length ≤ msgMax) ∧
      (w.ended = .io → w.ob.q l = [] → rest = [])) ∧
    (w.ended = .io ∨ w.ended = .protocol ∧ ∃ m ∈ w.queued, msgMax < m.encode.length) := by
  have small : ∀ {ys done left} {l : Lane}, Account w.queued ys l done left →
      ∀ m ∈ ys.filter (fun m => m.lane = l), m.encode.length ≤ msgMax := by
    intro ys done left l ha m hm
    rw [ha.2.2] at hm
    exact ha.2.1 m (List.mem_of_mem_filter hm)
  rcases h.story with ⟨p, ys, hread, -, hacc⟩ | ⟨ys, hread, hlong, hacc⟩
  · have hall := hread []
    rw [List.append_nil, readLoop_nil, List.append_nil] at hall
    refine ⟨fun l => ?_, .inl (congrArg Prod.snd hall)⟩
    obtain ⟨done, left, ha, hleft⟩ := hacc l
    rw [Line.received, hall]
    refine ⟨_, Line.sent_eq ha, small ha, fun _ hq => ?_⟩
    rw [hq] at hleft
    rw [hleft.drained.1]
    rfl
  · have hall := hread []
    rw [List.append_nil] at hall
    refine ⟨fun l => ?_, .inr ⟨congrArg Prod.snd hall, hlong⟩⟩
    obtain ⟨done, left, ha⟩ := hacc l
    rw [Line.received, hall]
    refine ⟨_, Line.sent_eq ha, small ha, fun hio => ?_⟩
    rw [Line.ended, hall] at hio
    nomatch hio

/-! ## Main results -/

end OxlensSfu.Wire
