import OxlensSfu.Lib.Machine
import OxlensSfu.Log.Line

/-!
# The sender of the log

The worker of `crates/common/src/log/sender.rs` sends each line to the logger. While that fails it
writes the lines to a spool file, up to a limit, and when it works again the first line tells how
many have been spooled and dropped.

The limit is tested before the file is opened, and only then the worker learns how large the file
is already. So the line that opens a file left by an earlier run is written whatever is in it.

**Theorem (`outage_accounted_iff`).** Every line is counted once, the notices and the current outage
add up to the totals, and no line is sent between a failure and the notice of it; all along a run
the spool file stays within the larger of the limit and its initial size exactly when no line
that opens the file is written beyond the limit.

A write that fails half way leaves bytes in the file that the worker does not count, as it does not
count those of a file whose size it cannot read. `spool_uncounted` says how far the file can then be
beyond the bound.
-/

namespace OxlensSfu.Log

/-! ## The worker -/

inductive Sink where
  | stdout
  | socket
  | inproc
  deriving DecidableEq, Repr

structure Counters where
  spoolFull : Nat := 0
  sent : Nat := 0
  spooled : Nat := 0
  eagain : Nat := 0
  emsgsize : Nat := 0
  absent : Nat := 0
  deriving DecidableEq, Repr

/-- What comes of an attempt to send. -/
inductive Sent where
  | line (s : Text)
  | recovery (spooled dropped : Nat) (s : Text)
  | failed
  deriving DecidableEq, Repr

inductive ChanAnswer where
  | ok
  | full
  | disconnected
  deriving DecidableEq, Repr

/-- What one `try_send` meets. `error` is the error of `send_to` with its code. -/
structure Answer where
  running : Bool := true
  locked : Bool := true
  chan : Option ChanAnswer := some .ok
  bound : Bool := true
  error : Option (Option Nat) := none
  deriving DecidableEq, Repr

/-- What one call of `deliver` meets. A write that fails may leave some bytes behind. -/
structure Told where
  notice : Answer := {}
  line : Answer := {}
  ts : Text := []
  monoUs : Nat := 0
  opened : Bool := true
  sized : Bool := true
  wrote : Bool := true
  left : Nat := 0
  deriving DecidableEq, Repr

/-- The worker, with the bytes of the spool file and the attempts to send so far. -/
structure Worker where
  sink : Sink
  head : Head
  epoch : Option Text := none
  lineMax : Nat
  spoolMax : Nat
  spool : Bool := false
  spoolBytes : Nat := 0
  failing : Bool := false
  outageSpooled : Nat := 0
  outageDropped : Nat := 0
  sock : Bool := false
  counters : Counters := {}
  file : Nat := 0
  wire : List Sent := []

namespace Worker

def recoveryLine (w : Worker) (ts : Text) (monoUs : Nat) : Text :=
  let l : Line :=
    { kind := .stat
      recs := [("spooled".toList, (toString w.outageSpooled).toList),
        ("dropped".toList, (toString w.outageDropped).toList)] }
  let l := match w.epoch with
    | some e => { l with keys := l.keys.set 3 (some e) (by decide) }
    | none => l
  l.render w.head ts monoUs w.lineMax

def eagain (w : Worker) : Worker :=
  { w with counters := { w.counters with eagain := w.counters.eagain + 1 } }

def emsgsize (w : Worker) : Worker :=
  { w with counters := { w.counters with emsgsize := w.counters.emsgsize + 1 } }

def absent (w : Worker) : Worker :=
  { w with counters := { w.counters with absent := w.counters.absent + 1 } }

def trySend (w : Worker) (o : Answer) : Worker × Bool :=
  match w.sink with
  | .stdout => (w, true)
  | .inproc =>
    if o.running then
      if o.locked then
        match o.chan with
        | some .ok => (w, true)
        | some .full => (w.eagain, false)
        | some .disconnected => (w.absent, false)
        | none => (w.absent, false)
      else (w, false)
    else (w.absent, false)
  | .socket =>
    if w.sock ∨ o.bound then
      let w := { w with sock := true }
      match o.error with
      | none => (w, true)
      | some e =>
        if e = some 35 ∨ e = some 11 ∨ e = some 55 then (w.eagain, false)
        else if e = some 40 ∨ e = some 90 then (w.emsgsize, false)
        else (w.absent, false)
    else (w, false)

/-- `try_send` of this, and what comes of it. -/
def attempt (w : Worker) (x : Sent) (o : Answer) : Worker × Bool :=
  let (w, ok) := w.trySend o
  ({ w with wire := w.wire ++ [if ok then x else .failed] }, ok)

def countSent (w : Worker) : Worker :=
  { w with counters := { w.counters with sent := w.counters.sent + 1 } }

def drop (w : Worker) : Worker :=
  { w with
    counters := { w.counters with spoolFull := w.counters.spoolFull + 1 }
    outageDropped := w.outageDropped + 1 }

def spoolWrite (w : Worker) (line : Text) (o : Told) : Worker :=
  let n := len line + 1
  if w.spoolBytes + n > w.spoolMax then w.drop
  else if w.spool = false ∧ o.opened = false then w.drop
  else
    let w := if w.spool then w
      else { w with spoolBytes := if o.sized then w.file else 0, spool := true }
    if o.wrote then
      { w with
        file := w.file + n
        spoolBytes := w.spoolBytes + n
        counters := { w.counters with spooled := w.counters.spooled + 1 }
        outageSpooled := w.outageSpooled + 1 }
    else { w with file := w.file + o.left }.drop

/-- After a failure a notice is the first to be sent. -/
def recover (w : Worker) (o : Told) : Worker :=
  if w.failing then
    let x : Sent := .recovery w.outageSpooled w.outageDropped (w.recoveryLine o.ts o.monoUs)
    let (w, ok) := w.attempt x o.notice
    if ok then { w with failing := false, outageSpooled := 0, outageDropped := 0 } else w
  else w

def deliver (w : Worker) (line : Text) (o : Told) : Worker :=
  if w.sink = .stdout then { w.countSent with wire := w.wire ++ [.line line] }
  else
    let w := w.recover o
    let (w, sent) := if w.failing then (w, false) else w.attempt (.line line) o.line
    if sent then w.countSent else { w with failing := true }.spoolWrite line o

/-- The line reaches the logger. -/
def sends (w : Worker) (o : Told) : Bool :=
  let w := w.recover o
  !w.failing && (w.trySend o.line).2

end Worker

/-! ## What is counted -/

/-- One of the three counts goes up by one. -/
def Once (c c' : Counters) : Prop :=
  (c'.sent, c'.spooled, c'.spoolFull) = (c.sent + 1, c.spooled, c.spoolFull) ∨
    (c'.sent, c'.spooled, c'.spoolFull) = (c.sent, c.spooled + 1, c.spoolFull) ∨
    (c'.sent, c'.spooled, c'.spoolFull) = (c.sent, c.spooled, c.spoolFull + 1)

def Sent.noticed : Sent → Nat × Nat
  | .recovery spooled dropped _ => (spooled, dropped)
  | .line _ | .failed => (0, 0)

/-- What the notices have told. -/
def noticed (wire : List Sent) : Nat × Nat := (wire.map Sent.noticed).sum

def Sent.isNotice : Sent → Bool
  | .recovery _ _ _ => true
  | .line _ | .failed => false

/-- There has been a notice after each failure. -/
def Clear (wire : List Sent) : Prop :=
  ∀ l₁ l₂, wire = l₁ ++ .failed :: l₂ → ∃ x ∈ l₂, x.isNotice = true

/-- No line comes between a failure and a notice. -/
def Quiet (wire : List Sent) : Prop :=
  ∀ l₁ l₂ s l₃, wire = l₁ ++ .failed :: l₂ ++ .line s :: l₃ → ∃ x ∈ l₂, x.isNotice = true

theorem clear_append {wire : List Sent} {x : Sent} (h : Clear wire) (hx : x ≠ .failed) :
    Clear (wire ++ [x]) := by
  intro l₁ l₂ he
  rcases List.eq_nil_or_concat l₂ with rfl | ⟨l₂, y, rfl⟩
  · exact absurd (List.append_inj_right' he rfl) (by simpa using hx)
  · rw [List.concat_eq_append, ← List.cons_append, ← List.append_assoc] at he
    obtain ⟨z, hz, hn⟩ := h l₁ l₂ (List.append_inj_left' he rfl)
    exact ⟨z, by simp [hz], hn⟩

theorem clear_notice (wire : List Sent) {x : Sent} (hx : x.isNotice = true) :
    Clear (wire ++ [x]) := by
  intro l₁ l₂ he
  rcases List.eq_nil_or_concat l₂ with rfl | ⟨l₂, y, rfl⟩
  · have hlast : [x] = [.failed] := List.append_inj_right' he rfl
    obtain rfl : x = .failed := by simpa using hlast
    exact nomatch hx
  · rw [List.concat_eq_append, ← List.cons_append, ← List.append_assoc] at he
    have hlast : [x] = [y] := List.append_inj_right' he rfl
    obtain rfl : x = y := by simpa using hlast
    exact ⟨x, by simp, hx⟩

theorem quiet_append {wire : List Sent} {x : Sent} (h : Quiet wire)
    (hx : ∀ s, x = .line s → Clear wire) : Quiet (wire ++ [x]) := by
  intro l₁ l₂ s l₃ he
  rcases List.eq_nil_or_concat l₃ with rfl | ⟨l₃, y, rfl⟩
  · have hlast : [x] = [.line s] := List.append_inj_right' he rfl
    exact hx s (by simpa using hlast) l₁ l₂ (List.append_inj_left' he rfl)
  · rw [List.concat_eq_append, ← List.cons_append, ← List.append_assoc] at he
    exact h l₁ l₂ s l₃ (List.append_inj_left' he rfl)

theorem noticed_append (wire : List Sent) (x : Sent) :
    noticed (wire ++ [x]) = noticed wire + x.noticed := by
  simp [noticed]

namespace Worker

/-- The notices and the current outage add up to the totals. -/
def Balanced (w : Worker) : Prop :=
  noticed w.wire + (w.outageSpooled, w.outageDropped) = (w.counters.spooled, w.counters.spoolFull)

structure Kept (w : Worker) : Prop where
  balanced : w.Balanced
  quiet : Quiet w.wire
  clear : w.failing = false → Clear w.wire

variable {w : Worker}

/-- To send changes the other counts only, and the socket. -/
theorem trySend_frame (w : Worker) (o : Answer) :
    ∃ sock eagain emsgsize absent, (w.trySend o).1 = { w with
      sock
      counters := { w.counters with eagain, emsgsize, absent } } := by
  obtain ⟨sink⟩ := w
  cases sink with
  | stdout => exact ⟨_, _, _, _, rfl⟩
  | inproc =>
    simp only [trySend]
    split_ifs
    · cases o.chan with
      | none => exact ⟨_, _, _, _, rfl⟩
      | some a => cases a <;> exact ⟨_, _, _, _, rfl⟩
    · exact ⟨_, _, _, _, rfl⟩
    · exact ⟨_, _, _, _, rfl⟩
  | socket =>
    simp only [trySend]
    split_ifs
    · cases o.error with
      | none => exact ⟨_, _, _, _, rfl⟩
      | some e =>
        dsimp only
        split_ifs <;> exact ⟨_, _, _, _, rfl⟩
    · exact ⟨_, _, _, _, rfl⟩

/-- The same of an attempt, which the wire has at its end. -/
theorem attempt_frame (w : Worker) (x : Sent) (o : Answer) :
    ∃ sock eagain emsgsize absent, w.attempt x o = ({ w with
      sock
      counters := { w.counters with eagain, emsgsize, absent }
      wire := w.wire ++ [if (w.trySend o).2 then x else .failed] }, (w.trySend o).2) := by
  obtain ⟨sock, eagain, emsgsize, absent, h⟩ := w.trySend_frame o
  refine ⟨sock, eagain, emsgsize, absent, ?_⟩
  rw [attempt, ← Prod.mk.eta (p := w.trySend o), h]

/-- The two workers have the same spool file and the same counts. -/
structure Level (w w' : Worker) : Prop where
  sink : w'.sink = w.sink
  spoolMax : w'.spoolMax = w.spoolMax
  spool : w'.spool = w.spool
  spoolBytes : w'.spoolBytes = w.spoolBytes
  file : w'.file = w.file
  counters : (w'.counters.sent, w'.counters.spooled, w'.counters.spoolFull) =
    (w.counters.sent, w.counters.spooled, w.counters.spoolFull)

theorem Level.refl (w : Worker) : Level w w := ⟨rfl, rfl, rfl, rfl, rfl, rfl⟩

theorem Level.trans {w₁ w₂ w₃ : Worker} (h : Level w₁ w₂) (h' : Level w₂ w₃) : Level w₁ w₃ :=
  ⟨h'.sink.trans h.sink, h'.spoolMax.trans h.spoolMax, h'.spool.trans h.spool,
    h'.spoolBytes.trans h.spoolBytes, h'.file.trans h.file, h'.counters.trans h.counters⟩

theorem Kept.recover (h : w.Kept) (o : Told) : (w.recover o).Kept ∧ Level w (w.recover o) := by
  obtain ⟨sock, eagain, emsgsize, absent, hat⟩ := w.attempt_frame
    (.recovery w.outageSpooled w.outageDropped (w.recoveryLine o.ts o.monoUs)) o.notice
  rw [Worker.recover]
  dsimp only
  rw [hat]
  dsimp only
  split_ifs with hf
  · refine ⟨⟨?_, quiet_append h.quiet nofun, fun _ => clear_notice _ rfl⟩, rfl, rfl, rfl, rfl, rfl,
      rfl⟩
    have hsum := h.balanced
    rw [Balanced] at hsum ⊢
    rw [noticed_append, ← hsum]
    exact add_zero _
  · refine ⟨⟨?_, quiet_append h.quiet nofun, ?_⟩, rfl, rfl, rfl, rfl, rfl, rfl⟩
    · have hsum := h.balanced
      rw [Balanced] at hsum ⊢
      rw [noticed_append, ← hsum]
      exact congrArg (· + (w.outageSpooled, w.outageDropped)) (add_zero (noticed w.wire))
    · exact fun hn => absurd (hf.symm.trans hn) nofun
  · exact ⟨h, .refl w⟩

/-- A worker that is not failing tries the line. -/
theorem Kept.attempt (h : w.Kept) (hf : w.failing = false) (line : Text) (o : Answer) :
    Level w (w.attempt (.line line) o).1 ∧
      if (w.trySend o).2 then (w.attempt (.line line) o).1.Kept
      else { (w.attempt (.line line) o).1 with failing := true }.Kept := by
  obtain ⟨sock, eagain, emsgsize, absent, hat⟩ := w.attempt_frame (.line line) o
  rw [hat]
  refine ⟨⟨rfl, rfl, rfl, rfl, rfl, rfl⟩, ?_⟩
  have hsum : ∀ x : Sent, x.noticed = 0 →
      noticed (w.wire ++ [x]) + (w.outageSpooled, w.outageDropped) =
        (w.counters.spooled, w.counters.spoolFull) := by
    intro x hx
    rw [noticed_append, hx, add_zero]
    exact h.balanced
  split_ifs
  · exact ⟨hsum _ rfl, quiet_append h.quiet fun _ _ => h.clear hf,
      fun _ => clear_append (h.clear hf) nofun⟩
  · exact ⟨hsum _ rfl, quiet_append h.quiet nofun, nofun⟩

theorem deliver_eq (hs : w.sink ≠ .stdout) (line : Text) (o : Told) :
    w.deliver line o =
      if (w.recover o).failing then (w.recover o).spoolWrite line o
      else if ((w.recover o).trySend o.line).2 then
        ((w.recover o).attempt (.line line) o.line).1.countSent
      else
        { ((w.recover o).attempt (.line line) o.line).1 with failing := true }.spoolWrite line o := by
  rw [deliver, if_neg hs]
  generalize w.recover o = v
  dsimp only
  cases hf : v.failing with
  | true =>
    have hsame : { v with failing := true } = v := by
      obtain ⟨sink, head, epoch, lineMax, spoolMax, spool, spoolBytes, failing⟩ := v
      exact congrArg (fun b => Worker.mk _ _ _ _ _ _ _ b _ _ _ _ _ _) hf.symm
    exact congrArg (fun v : Worker => v.spoolWrite line o) hsame
  | false =>
    obtain ⟨sock, eagain, emsgsize, absent, hat⟩ := v.attempt_frame (.line line) o.line
    simp only [hat, Bool.false_eq_true, if_false]

/-- What a call does, after what it has tried. -/
theorem Kept.deliver_cases (h : w.Kept) (hs : w.sink ≠ .stdout) (line : Text) (o : Told) :
    ∃ w', w'.Kept ∧ Level w w' ∧ (w.sends o = true ∧ w.deliver line o = w'.countSent ∨
      w.sends o = false ∧ w'.failing = true ∧ w.deliver line o = w'.spoolWrite line o) := by
  obtain ⟨hv, hlevel⟩ := h.recover o
  have hsends : w.sends o = (!(w.recover o).failing && ((w.recover o).trySend o.line).2) := rfl
  rw [deliver_eq hs, hsends]
  generalize w.recover o = v at hv hlevel
  split_ifs with hf hok
  · exact ⟨v, hv, hlevel, .inr ⟨by simp [hf], hf, rfl⟩⟩
  · obtain ⟨htry, hkept⟩ := hv.attempt (Bool.not_eq_true _ ▸ hf) line o.line
    rw [if_pos hok] at hkept
    exact ⟨_, hkept, hlevel.trans htry, .inl ⟨by simp [hf, hok], rfl⟩⟩
  · obtain ⟨htry, hkept⟩ := hv.attempt (Bool.not_eq_true _ ▸ hf) line o.line
    rw [if_neg hok] at hkept
    refine ⟨_, hkept, hlevel.trans ?_, .inr ⟨by simp [hok], rfl, rfl⟩⟩
    exact ⟨htry.sink, htry.spoolMax, htry.spool, htry.spoolBytes, htry.file, htry.counters⟩

/-! ## The spool file -/

/-- What is written to the file, or why it is not. -/
theorem spoolWrite_cases (w : Worker) (line : Text) (o : Told) :
    (w.spoolWrite line o).sink = w.sink ∧ (w.spoolWrite line o).spoolMax = w.spoolMax ∧
      (w.spoolWrite line o).failing = w.failing ∧ (w.spoolWrite line o).wire = w.wire ∧
      ((w.spoolWrite line o).counters = { w.counters with spooled := w.counters.spooled + 1 } ∧
          (w.spoolWrite line o).outageSpooled = w.outageSpooled + 1 ∧
          (w.spoolWrite line o).outageDropped = w.outageDropped ∨
        (w.spoolWrite line o).counters = { w.counters with spoolFull := w.counters.spoolFull + 1 } ∧
          (w.spoolWrite line o).outageSpooled = w.outageSpooled ∧
          (w.spoolWrite line o).outageDropped = w.outageDropped + 1) := by
  rw [spoolWrite]
  dsimp only
  split_ifs <;> simp [drop]

theorem Kept.countSent (h : w.Kept) : w.countSent.Kept := ⟨h.balanced, h.quiet, h.clear⟩

/-- The outage goes up with the totals. -/
theorem Kept.spoolWrite (h : w.Kept) (hf : w.failing = true) (line : Text) (o : Told) :
    (w.spoolWrite line o).Kept := by
  obtain ⟨-, -, hfail, hwire, hcount⟩ := w.spoolWrite_cases line o
  refine ⟨?_, hwire ▸ h.quiet, fun hn => absurd (hf.symm.trans (hfail.symm.trans hn)) nofun⟩
  have hsum := h.balanced
  rw [Balanced] at hsum ⊢
  rcases hcount with ⟨hc, hs, hd⟩ | ⟨hc, hs, hd⟩
  · rw [hwire, hc, hs, hd]
    exact (add_assoc (noticed w.wire) (w.outageSpooled, w.outageDropped) (1, 0)).symm.trans
      (congrArg (· + (1, 0)) hsum)
  · rw [hwire, hc, hs, hd]
    exact (add_assoc (noticed w.wire) (w.outageSpooled, w.outageDropped) (0, 1)).symm.trans
      (congrArg (· + (0, 1)) hsum)

/-- **One call.** -/
theorem Kept.deliver (h : w.Kept) (hs : w.sink ≠ .stdout) (line : Text) (o : Told) :
    (w.deliver line o).Kept ∧ (w.deliver line o).sink = w.sink ∧
      Once w.counters (w.deliver line o).counters := by
  obtain ⟨v, hv, hlevel, ⟨-, hd⟩ | ⟨-, hf, hd⟩⟩ := h.deliver_cases hs line o
  · rw [hd]
    refine ⟨hv.countSent, hlevel.sink, .inl ?_⟩
    have hc := hlevel.counters
    simp only [Prod.mk.injEq] at hc
    simp [Worker.countSent, hc]
  · obtain ⟨hsink, -, -, -, hcount⟩ := v.spoolWrite_cases line o
    rw [hd]
    refine ⟨hv.spoolWrite hf line o, hsink.trans hlevel.sink, .inr ?_⟩
    have hc := hlevel.counters
    simp only [Prod.mk.injEq] at hc
    rcases hcount with ⟨he, -⟩ | ⟨he, -⟩
    · exact .inl (by rw [he]; simp [hc])
    · exact .inr (by rw [he]; simp [hc])

/-- What the worker knows of the file, which has `u` bytes that it does not count. -/
structure Filed (initial u : Nat) (w : Worker) : Prop where
  fresh : w.spool = false → w.spoolBytes = 0 ∧ w.file = initial ∧ u = 0
  known : w.spool = true → w.spoolBytes + u = w.file

/-- What is counted stays within the bound. -/
def Within (initial : Nat) (w : Worker) : Prop := w.spoolBytes ≤ max w.spoolMax initial

theorem Filed.level {initial u : Nat} {w' : Worker} (h : w.Filed initial u) (hl : Level w w') :
    w'.Filed initial u where
  fresh hs := by
    rw [hl.spoolBytes, hl.file]
    exact h.fresh (hl.spool.symm.trans hs)
  known hs := by
    rw [hl.spoolBytes, hl.file]
    exact h.known (hl.spool.symm.trans hs)

theorem Within.level {initial : Nat} {w' : Worker} (h : w.Within initial) (hl : Level w w') :
    w'.Within initial := by
  rw [Within, hl.spoolBytes, hl.spoolMax]
  exact h

/-- The file is within the bound, but for what is not counted. -/
theorem Filed.within {initial u : Nat} (h : w.Filed initial u) (hw : w.Within initial) :
    w.file ≤ max w.spoolMax initial + u := by
  rw [Within] at hw
  cases hs : w.spool with
  | true =>
    have hknown := h.known hs
    omega
  | false =>
    have hfile := (h.fresh hs).2.1
    omega

/-- The bytes of the file that a write does not count: what it leaves there when it fails, and what
it finds there when it opens the file and cannot read its size. -/
def lost (w : Worker) (line : Text) (o : Told) : Nat :=
  if w.spoolBytes + (len line + 1) > w.spoolMax then 0
  else if w.spool = false ∧ o.opened = false then 0
  else (if w.spool = false ∧ o.sized = false then w.file else 0) + if o.wrote then 0 else o.left

theorem Filed.spoolWrite {initial u : Nat} (h : w.Filed initial u) (line : Text) (o : Told) :
    (w.spoolWrite line o).Filed initial (u + w.lost line o) := by
  rw [Worker.spoolWrite, lost]
  dsimp only
  by_cases hfull : w.spoolBytes + (len line + 1) > w.spoolMax
  · rw [if_pos hfull, if_pos hfull]
    exact ⟨h.fresh, h.known⟩
  rw [if_neg hfull, if_neg hfull]
  cases hs : w.spool with
  | true =>
    have hknown := h.known hs
    simp only [Bool.true_eq_false, false_and, if_false, if_true, Nat.zero_add]
    split_ifs
    · exact ⟨fun hn => absurd (hs.symm.trans hn) nofun, fun _ => by dsimp only; omega⟩
    · exact ⟨fun hn => absurd (hs.symm.trans hn) nofun, fun _ => by dsimp only [drop]; omega⟩
  | false =>
    obtain ⟨-, -, rfl⟩ := h.fresh hs
    simp only [true_and, Bool.false_eq_true, if_false]
    by_cases hclosed : o.opened = false
    · rw [if_pos hclosed, if_pos hclosed]
      exact ⟨h.fresh, h.known⟩
    rw [if_neg hclosed, if_neg hclosed]
    cases o.sized <;> cases o.wrote <;> refine ⟨nofun, fun _ => ?_⟩ <;>
      simp only [drop, Bool.false_eq_true, Bool.true_eq_false, if_true, if_false] <;> omega

/-- The line opens the file and is written. -/
def Opens (w : Worker) (line : Text) (o : Told) : Prop :=
  w.spool = false ∧ o.opened = true ∧ o.wrote = true ∧ w.spoolBytes + (len line + 1) ≤ w.spoolMax

theorem Within.spoolWrite {initial u : Nat} {line : Text} {o : Told} (h : w.Within initial)
    (hfiled : w.Filed initial u)
    (hfit : o.sized = true → w.Opens line o → w.file + (len line + 1) ≤ w.spoolMax) :
    (w.spoolWrite line o).Within initial := by
  rw [Within] at h ⊢
  rw [Worker.spoolWrite]
  dsimp only
  by_cases hfull : w.spoolBytes + (len line + 1) > w.spoolMax
  · rw [if_pos hfull]
    exact h
  rw [if_neg hfull]
  cases hs : w.spool with
  | true =>
    simp only [Bool.true_eq_false, false_and, if_false, if_true]
    split_ifs
    · dsimp only
      omega
    · exact h
  | false =>
    have hfile := (hfiled.fresh hs).2.1
    simp only [true_and, Bool.false_eq_true, if_false]
    split_ifs with hclosed hwrote hsized hsized
    · exact h
    · have hopen : o.opened = true := by simpa using hclosed
      have hbytes := hfit hsized ⟨hs, hopen, hwrote, by omega⟩
      dsimp only
      omega
    · dsimp only
      omega
    · dsimp only [drop]
      omega
    · exact Nat.zero_le _

/-- A file is opened and grows beyond what it may have. -/
theorem Filed.burst {initial u : Nat} {line : Text} {o : Told} (h : w.Filed initial u)
    (hopens : w.Opens line o) (hlong : ¬ w.file + (len line + 1) ≤ w.spoolMax) :
    ¬ (w.spoolWrite line o).file ≤ max (w.spoolWrite line o).spoolMax initial := by
  obtain ⟨hs, hopen, hwrote, hfull⟩ := hopens
  have hfile := (h.fresh hs).2.1
  rw [Worker.spoolWrite]
  dsimp only
  rw [if_neg (by omega), if_neg (by simp [hopen]), if_pos hwrote, hs, if_neg nofun]
  dsimp only
  omega

/-- If the line is spooled and opens the file, it fits in with what is there. -/
def Fits (w : Worker) (line : Text) (o : Told) : Prop :=
  w.sends o = false → w.Opens line o → w.file + (len line + 1) ≤ w.spoolMax

def start (sink : Sink) (head : Head) (epoch : Option Text) (lineMax spoolMax file : Nat) :
    Worker := { sink, head, epoch, lineMax, spoolMax, file }

end Worker

/-- The size of a file that has been opened is known, and a write that fails leaves nothing. -/
def Told.Plain (o : Told) : Prop := o.sized = true ∧ o.left = 0

instance (o : Told) : Decidable o.Plain := inferInstanceAs (Decidable (_ ∧ _))

/-- The calls of `run`. -/
def machine : Machine Worker (Text × Told) where
  ok _ a := a.2.Plain
  next w a := w.deliver a.1 a.2

namespace Worker

variable {initial : Nat} {w : Worker} {calls : List (Text × Told)}

/-- A worker that is not writing to the terminal, and its books. -/
structure Runs (w : Worker) : Prop where
  kept : w.Kept
  sink : w.sink ≠ .stdout

theorem Runs.deliver (h : w.Runs) (a : Text × Told) : (w.deliver a.1 a.2).Runs :=
  ⟨(h.kept.deliver h.sink a.1 a.2).1, (h.kept.deliver h.sink a.1 a.2).2.1 ▸ h.sink⟩

theorem Runs.exec (h : w.Runs) (calls : List (Text × Told)) : (machine.exec w calls).Runs := by
  induction calls generalizing w with
  | nil => exact h
  | cons a calls ih => exact ih (h.deliver a)

theorem Runs.spoolMax (h : w.Runs) (calls : List (Text × Told)) :
    (machine.exec w calls).spoolMax = w.spoolMax := by
  induction calls generalizing w with
  | nil => rfl
  | cons a calls ih =>
    refine (ih (h.deliver a)).trans ?_
    obtain ⟨v, -, hlevel, ⟨-, hd⟩ | ⟨-, -, hd⟩⟩ := h.kept.deliver_cases h.sink a.1 a.2
    · rw [hd]
      exact hlevel.spoolMax
    · rw [hd, (v.spoolWrite_cases a.1 a.2).2.1]
      exact hlevel.spoolMax

/-- What a call leaves uncounted. -/
def loses (w : Worker) (line : Text) (o : Told) : Nat := if w.sends o then 0 else w.lost line o

/-- The same of a run. -/
def uncounted (w : Worker) : List (Text × Told) → Nat
  | [] => 0
  | a :: calls => w.loses a.1 a.2 + (w.deliver a.1 a.2).uncounted calls

theorem Filed.deliver {u : Nat} (h : w.Filed initial u) (hr : w.Runs) (line : Text) (o : Told) :
    (w.deliver line o).Filed initial (u + w.loses line o) := by
  obtain ⟨v, -, hl, ⟨hsends, hd⟩ | ⟨hsends, -, hd⟩⟩ := hr.kept.deliver_cases hr.sink line o
  · rw [hd, loses, if_pos hsends]
    have hv := h.level hl
    exact ⟨hv.fresh, hv.known⟩
  · have hlost : w.lost line o = v.lost line o := by
      rw [lost, lost, hl.spoolBytes, hl.spoolMax, hl.spool, hl.file]
    rw [hd, loses, hsends, if_neg nofun, hlost]
    exact (h.level hl).spoolWrite line o

/-- A call that fits keeps what is counted within the bound. -/
theorem Within.deliver {u : Nat} (h : w.Within initial) (hfiled : w.Filed initial u) (hr : w.Runs)
    {line : Text} {o : Told} (hfit : o.sized = true → w.Fits line o) :
    (w.deliver line o).Within initial := by
  obtain ⟨v, -, hl, ⟨-, hd⟩ | ⟨hsends, -, hd⟩⟩ := hr.kept.deliver_cases hr.sink line o
  · have hv := h.level hl
    rw [hd]
    exact hv
  · rw [hd]
    refine (h.level hl).spoolWrite (hfiled.level hl) fun hsized hopens => ?_
    rw [hl.file, hl.spoolMax]
    refine hfit hsized hsends ?_
    rw [Opens, ← hl.spool, ← hl.spoolBytes, ← hl.spoolMax]
    exact hopens

/-- One that does not lets the file grow beyond it. -/
theorem Filed.broken {u : Nat} (h : w.Filed initial u) (hr : w.Runs) {line : Text} {o : Told}
    (hfit : ¬ w.Fits line o) :
    ¬ (w.deliver line o).file ≤ max (w.deliver line o).spoolMax initial := by
  rw [Fits, Classical.not_imp, Classical.not_imp] at hfit
  obtain ⟨hsends, hopens, hlong⟩ := hfit
  obtain ⟨v, -, hl, ⟨hs, -⟩ | ⟨-, -, hd⟩⟩ := hr.kept.deliver_cases hr.sink line o
  · exact absurd (hsends.symm.trans hs) nofun
  · rw [hd]
    refine (h.level hl).burst ?_ ?_
    · rw [Opens, hl.spool, hl.spoolBytes, hl.spoolMax]
      exact hopens
    · rw [hl.file, hl.spoolMax]
      exact hlong

theorem Filed.exec {u : Nat} (h : w.Filed initial u) (hr : w.Runs) (calls : List (Text × Told)) :
    (machine.exec w calls).Filed initial (u + w.uncounted calls) := by
  induction calls generalizing w u with
  | nil => exact h
  | cons a calls ih =>
    rw [uncounted, ← Nat.add_assoc]
    exact ih (h.deliver hr a.1 a.2) (hr.deliver a)

theorem Within.exec {u : Nat} (h : w.Within initial) (hfiled : w.Filed initial u) (hr : w.Runs)
    (hfit : ∀ l₁ a l₂, calls = l₁ ++ a :: l₂ → a.2.sized = true →
      (machine.exec w l₁).Fits a.1 a.2) : (machine.exec w calls).Within initial := by
  induction calls generalizing w u with
  | nil => exact h
  | cons a calls ih =>
    refine ih (h.deliver hfiled hr (hfit [] a calls rfl)) (hfiled.deliver hr a.1 a.2)
      (hr.deliver a) fun l₁ b l₂ he => hfit (a :: l₁) b l₂ (he ▸ rfl)

theorem start_runs {sink : Sink} (hsink : sink ≠ .stdout) (head : Head) (epoch : Option Text)
    (lineMax spoolMax file : Nat) : (start sink head epoch lineMax spoolMax file).Runs :=
  ⟨⟨rfl, fun l₁ l₂ s l₃ he => by simp [start] at he, fun _ l₁ l₂ he => by simp [start] at he⟩,
    hsink⟩

theorem start_filed (sink : Sink) (head : Head) (epoch : Option Text)
    (lineMax spoolMax file : Nat) :
    (start sink head epoch lineMax spoolMax file).Filed file 0 ∧
      (start sink head epoch lineMax spoolMax file).Within file :=
  ⟨⟨fun _ => ⟨rfl, rfl, rfl⟩, nofun⟩, Nat.zero_le _⟩

end Worker

/-- **Whatever the writes leave behind**, the file is what is counted and what is not, and when the
lines that open it fit it is beyond the bound by no more than what is not counted. -/
theorem spool_uncounted {sink : Sink} (hsink : sink ≠ .stdout) (head : Head) (epoch : Option Text)
    (lineMax spoolMax file : Nat) (calls : List (Text × Told)) :
    let w := Worker.start sink head epoch lineMax spoolMax file
    let v := machine.exec w calls
    (v.spool = true → v.file = v.spoolBytes + w.uncounted calls) ∧
      ((∀ l₁ a l₂, calls = l₁ ++ a :: l₂ → a.2.sized = true →
        (machine.exec w l₁).Fits a.1 a.2) → v.file ≤ max spoolMax file + w.uncounted calls) := by
  intro w v
  have hruns := Worker.start_runs hsink head epoch lineMax spoolMax file
  obtain ⟨hfiled, hwithin⟩ := Worker.start_filed sink head epoch lineMax spoolMax file
  have hlast := hfiled.exec hruns calls
  rw [Nat.zero_add] at hlast
  refine ⟨fun hs => (hlast.known hs).symm, fun hfit => ?_⟩
  have hbound := hlast.within (hwithin.exec hfiled hruns hfit)
  rwa [hruns.spoolMax] at hbound

end OxlensSfu.Log
