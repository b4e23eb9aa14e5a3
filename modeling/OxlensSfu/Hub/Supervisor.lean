import OxlensSfu.Lib.Machine

/-!
# Units and their shutdown

A hub runs each of its units in a loop that starts the unit, watches it and starts it again when it
is gone (`run_unit` of `crates/oxhubd/src/ops/supervisor.rs`). `stop_all` sets a flag and asks every
unit that it sees running to stop.

The loop reads the flag at its head only. A loop that waits for a port, for the end of a back-off or
for a command goes on to start its unit whatever the flag is by then. And a unit that is still
starting, or being stopped by someone else, is not seen running, so `stop_all` does not wait for it.

**Theorem (`shutdown_holds`).** In every run in which the flag is set while no unit waits to be
started, no load comes to an idle unit afterwards, and no unit is passed over with a child
(`Orderly`), no child is spawned once the flag is set, and none is alive when `stop_all` returns.
That no loop enters one of these waits any more is proved: it is what the tests of the flag are for.

Loops are cut where they wait. Every call may be made at any time and child processes may end at any
time.
-/

namespace OxlensSfu.Hub.Supervise

/-! ## The loop of a unit -/

inductive UnitKind where
  | process
  | inproc
  deriving DecidableEq, Repr

inductive UnitState where
  | disabled
  | inactive
  | starting
  | running
  | stopping
  | stopped
  | down
  | blocked
  deriving DecidableEq, Repr

inductive Which where
  | load
  | stop
  | kill
  deriving DecidableEq, Repr

/-- Who waits for the answer. -/
inductive Asker where
  | admin
  | stopAll
  deriving DecidableEq, Repr

structure Cmd where
  which : Which
  asker : Asker
  deriving DecidableEq, Repr

/-- Where the loop waits. -/
inductive Phase where
  | unstarted
  | idle
  | backoff
  | port
  | hello
  /-- The child is killed after `hello` has timed out. -/
  | reaping
  /-- `became_running` declares the node. -/
  | announcing
  | supervising
  | terminating (asker : Asker)
  | killing (asker : Asker)
  | ended
  deriving DecidableEq, Repr

structure UnitHandle where
  kind : UnitKind
  state : UnitState := .inactive
  restarts : Nat := 0
  counted : Bool := true
  first : Bool := true
  phase : Phase := .unstarted
  queue : List Cmd := []
  /-- There is a live child. -/
  child : Bool := false
  deriving DecidableEq, Repr

/-- What a start meets: the limit of attempts, and whether the program can be run. -/
structure Told where
  blocked : Bool := false
  exec : Bool := true
  deriving DecidableEq, Repr

/-- What a loop has done up to its next wait. -/
structure Turn where
  unit : UnitHandle
  acks : List Asker := []
  spawned : Bool := false
  deriving DecidableEq, Repr

def Turn.ack (t : Turn) (x : Asker) : Turn := { t with acks := x :: t.acks }

namespace UnitHandle

variable (stopping : Bool)

/-- The loop returns, and the requests in its channel get no answer. -/
def finish (u : UnitHandle) : Turn :=
  { unit := { u with phase := .ended, queue := [] }, acks := u.queue.map (·.asker) }

/-- The head of the loop, for a unit that is not to be started. -/
def wait (u : UnitHandle) : Turn :=
  if stopping then u.finish
  else { unit := { u with phase := if u.state = .down then .backoff else .idle } }

def goDown (u : UnitHandle) : UnitHandle := { u with restarts := u.restarts + 1, state := .down }

/-- From `note_attempt` to the wait for `hello`. -/
def launch (o : Told) (u : UnitHandle) : Turn :=
  let blocked := u.counted && o.blocked
  let u := { u with counted := true }
  if blocked then { u with state := .blocked }.wait stopping
  else
    match u.kind with
    | .process =>
      if o.exec then { unit := { u with child := true, phase := .hello }, spawned := true }
      else u.goDown.wait stopping
    | .inproc => { unit := { u with phase := .hello } }

/-- The state is `Starting` from here. -/
def begin (o : Told) (u : UnitHandle) : Turn :=
  let u := { u with state := .starting }
  if u.first then { unit := { u with phase := .port } } else u.launch stopping o

/-- The head of the loop. -/
def head (o : Told) (u : UnitHandle) : Turn :=
  if stopping then u.finish
  else
    match u.state with
    | .stopped | .blocked | .disabled | .down => u.wait stopping
    | _ => u.begin stopping o

/-- The child has gone, by itself or by a kill. -/
def lost (u : UnitHandle) : Turn :=
  if stopping then { u with state := .stopped }.finish else u.goDown.wait stopping

/-- A command comes. -/
def recv (o : Told) (u : UnitHandle) : Turn :=
  match u.queue with
  | [] => { unit := u }
  | c :: queue =>
    let u := { u with queue }
    match u.phase, c.which with
    | .idle, .load => ({ u with counted := false }.begin stopping o).ack c.asker
    | .idle, .stop => ({ u with state := .stopped }.wait stopping).ack c.asker
    | .idle, .kill => (u.wait stopping).ack c.asker
    | .backoff, .stop => ({ u with state := .stopped }.wait stopping).ack c.asker
    | .backoff, .load | .backoff, .kill => (u.wait stopping).ack c.asker
    | .supervising, .load => { unit := u, acks := [c.asker] }
    | .supervising, .stop =>
      match u.kind with
      | .process => { unit := { u with state := .stopping, phase := .terminating c.asker } }
      | .inproc => ({ u with state := .stopped }.wait stopping).ack c.asker
    | .supervising, .kill =>
      match u.kind with
      | .process => { unit := { u with phase := .killing c.asker } }
      | .inproc => (u.lost stopping).ack c.asker
    | _, _ => { unit := u }

/-- `hello` has an answer, or none in time. -/
def greeted (declared ok : Bool) (u : UnitHandle) : Turn :=
  if ok then
    let phase := if declared then .supervising else .announcing
    { unit := { u with state := .running, phase } }
  else
    match u.kind with
    | .process => { unit := { u with phase := .reaping } }
    | .inproc => u.goDown.wait stopping

/-- The child is dead. -/
def reaped (u : UnitHandle) : Turn :=
  let u := { u with child := false }
  match u.phase with
  | .reaping => u.goDown.wait stopping
  | .terminating x => ({ u with state := .stopped }.wait stopping).ack x
  | .killing x => (u.lost stopping).ack x
  | _ => { unit := u }

end UnitHandle

/-- The end of a wait. -/
inductive LoopAct where
  | start (o : Told)
  | recv (o : Told)
  | elapsed (o : Told)
  | portFree (o : Told)
  | greeted (ok : Bool)
  | announced
  | exited
  | reaped
  deriving DecidableEq, Repr

namespace UnitHandle

/-- The wait can end so. -/
def can (u : UnitHandle) : LoopAct → Bool
  | .start _ => u.phase = .unstarted ∧ u.state ≠ .disabled
  | .recv _ => (u.phase = .idle ∨ u.phase = .backoff ∨ u.phase = .supervising) ∧ u.queue ≠ []
  | .elapsed _ => u.phase = .backoff
  | .portFree _ => u.phase = .port
  | .greeted _ => u.phase = .hello
  | .announced => u.phase = .announcing
  | .exited => u.phase = .supervising ∧ u.kind = .process ∧ u.child = false
  | .reaped => match u.phase with
    | .reaping | .terminating _ | .killing _ => true
    | _ => false

def turn (stopping declared : Bool) (u : UnitHandle) : LoopAct → Turn
  | .start o => u.head stopping o
  | .recv o => u.recv stopping o
  | .elapsed o => u.begin stopping o
  | .portFree o => { u with first := false }.launch stopping o
  | .greeted ok => u.greeted stopping declared ok
  | .announced => { unit := { u with phase := .supervising } }
  | .exited => u.lost stopping
  | .reaped => u.reaped stopping

/-- A request, unless the loop has returned. -/
def send (u : UnitHandle) (c : Cmd) : UnitHandle :=
  if u.phase = .ended then u else { u with queue := u.queue ++ [c] }

end UnitHandle

/-! ## The supervisor -/

/-- Where `stop_all` is: the units it has still to look at, and the one it waits for. -/
inductive StopAll where
  | unused
  | looking (rest : List Nat)
  | waiting (i : Nat) (answered : Bool) (rest : List Nat)
  | returned
  deriving DecidableEq, Repr

/-- The units of the role `Sfu`. `revived` counts the children spawned while `stopping` is set. -/
structure Supervisor where
  units : List UnitHandle
  stopping : Bool := false
  nodeDeclared : Bool := false
  stopAll : StopAll := .unused
  revived : Nat := 0
  deriving DecidableEq, Repr

inductive Act where
  | loop (i : Nat) (a : LoopAct)
  | request (i : Nat) (which : Which)
  | dies (i : Nat)
  | stopAll
  | look
  | answered
  deriving DecidableEq, Repr

namespace Supervisor

/-- An answer to `stop_all`. -/
def answer (s : Supervisor) (i : Nat) (acks : List Asker) : StopAll :=
  match s.stopAll with
  | .waiting j answered rest => .waiting j (answered || (i = j && acks.contains .stopAll)) rest
  | x => x

def next (s : Supervisor) : Act → Supervisor
  | .loop i a =>
    match s.units[i]? with
    | none => s
    | some u =>
      let t := u.turn s.stopping s.nodeDeclared a
      { s with
        units := s.units.set i t.unit
        nodeDeclared := s.nodeDeclared || a = .greeted true
        stopAll := s.answer i t.acks
        revived := if s.stopping && t.spawned then s.revived + 1 else s.revived }
  | .request i which =>
    match s.units[i]? with
    | none => s
    | some u => { s with units := s.units.set i (u.send ⟨which, .admin⟩) }
  | .dies i =>
    match s.units[i]? with
    | none => s
    | some u => { s with units := s.units.set i { u with child := false } }
  | .stopAll =>
    { s with stopping := true, stopAll := .looking (List.range s.units.length).reverse }
  | .look =>
    match s.stopAll with
    | .looking [] => { s with stopAll := .returned }
    | .looking (i :: rest) =>
      match s.units[i]? with
      | none => { s with stopAll := .looking rest }
      | some u =>
        if u.state = .running ∧ u.phase ≠ .ended then
          { s with
            units := s.units.set i (u.send ⟨.stop, .stopAll⟩)
            stopAll := .waiting i false rest }
        else { s with stopAll := .looking rest }
    | _ => s
  | .answered =>
    match s.stopAll with
    | .waiting _ true rest => { s with stopAll := .looking rest }
    | _ => s

def can (s : Supervisor) : Act → Bool
  | .loop i a => (s.units[i]?).any (·.can a)
  | .request i _ | .dies i => i < s.units.length
  | .stopAll => s.stopAll = .unused
  | .look => match s.stopAll with
    | .looking _ => true
    | _ => false
  | .answered => match s.stopAll with
    | .waiting _ answered _ => answered
    | _ => false

end Supervisor

def machine : Machine Supervisor Act where
  ok s a := s.can a = true
  next := Supervisor.next

instance (s : Supervisor) (a : Act) : Decidable (machine.ok s a) :=
  inferInstanceAs (Decidable (_ = true))

/-! ## Orderly shutdowns -/

/-- There may be a live child. -/
def Phase.live : Phase → Bool
  | .hello | .reaping | .announcing | .supervising | .terminating _ | .killing _ => true
  | .unstarted | .idle | .backoff | .port | .ended => false

/-- There may be one, and the unit is not seen running. -/
def Phase.unseen : Phase → Bool
  | .hello | .reaping | .terminating _ => true
  | _ => false

/-- The loop of a unit with a program waits neither for the end of a back-off nor for a port, and
no load is the next that it takes where it is idle. -/
def UnitHandle.Held (u : UnitHandle) : Prop :=
  u.kind = .process → u.phase ≠ .backoff ∧ u.phase ≠ .port ∧
    (u.phase = .idle → ∀ c ∈ u.queue.head?, c.which ≠ .load)

instance (u : UnitHandle) : Decidable u.Held :=
  inferInstanceAs (Decidable (u.kind = .process → u.phase ≠ .backoff ∧ u.phase ≠ .port ∧
    (u.phase = .idle → ∀ c ∈ u.queue.head?, c.which ≠ .load)))

namespace Supervisor

/-- When the flag is set every unit is held, and afterwards no load comes to an idle unit. A unit
that `stop_all` passes over has no child that is starting or stopping. -/
def Orderly (s : Supervisor) : Act → Prop
  | .stopAll => ∀ u ∈ s.units, u.Held
  | .request i which => s.stopping = true → which = .load → ∀ u ∈ s.units[i]?,
      u.kind = .process → u.phase = .idle → u.queue ≠ []
  | .look => match s.stopAll with
    | .looking (i :: _) => ∀ u ∈ s.units[i]?, u.state ≠ .running → u.phase.unseen = true →
        u.child = false
    | _ => True
  | _ => True

instance (s : Supervisor) : (a : Act) → Decidable (s.Orderly a)
  | .stopAll => inferInstanceAs (Decidable (∀ u ∈ s.units, u.Held))
  | .request i which => inferInstanceAs (Decidable (s.stopping = true → which = .load →
      ∀ u ∈ s.units[i]?, u.kind = .process → u.phase = .idle → u.queue ≠ []))
  | .look =>
    match h : s.stopAll with
    | .looking (i :: _) => decidable_of_iff (∀ u ∈ s.units[i]?, u.state ≠ .running →
        u.phase.unseen = true → u.child = false) (by rw [Orderly, h])
    | .looking [] | .unused | .waiting .. | .returned =>
      .isTrue (by rw [Orderly, h]; trivial)
  | .loop .. | .dies _ | .answered => .isTrue trivial

end Supervisor

/-! ## What a loop keeps -/

namespace UnitHandle

structure Sane (u : UnitHandle) : Prop where
  live : u.child = true → u.phase.live = true
  inproc : u.kind = .inproc → u.child = false
  running : u.phase.live = true → u.phase.unseen = false → u.state = .running
  /-- Nobody but an administrator asks for more than a stop. -/
  asks : ∀ c ∈ u.queue, c.asker = .stopAll → c.which = .stop

variable {u : UnitHandle} {stopping declared : Bool} {o : Told}

/-- A unit without a child, at a point where it has none. -/
theorem Sane.rest (h : u.child = false) (hp : u.phase.live = false)
    (hq : ∀ c ∈ u.queue, c.asker = .stopAll → c.which = .stop) : u.Sane where
  live hc := absurd (h.symm.trans hc) nofun
  inproc _ := h
  running hl := absurd (hp.symm.trans hl) nofun
  asks := hq

theorem finish_sane (h : u.child = false) : u.finish.unit.Sane := .rest h rfl nofun

theorem wait_sane (h : u.child = false)
    (hq : ∀ c ∈ u.queue, c.asker = .stopAll → c.which = .stop) :
    (u.wait stopping).unit.Sane := by
  rw [wait]
  split_ifs
  · exact finish_sane h
  · exact .rest h rfl hq
  · exact .rest h rfl hq

theorem launch_sane (h : u.child = false)
    (hq : ∀ c ∈ u.queue, c.asker = .stopAll → c.which = .stop) :
    (u.launch stopping o).unit.Sane := by
  obtain ⟨kind⟩ := u
  cases kind with
  | process =>
    simp only [launch]
    split_ifs
    · exact wait_sane h hq
    · exact ⟨fun _ => rfl, nofun, nofun, hq⟩
    · exact wait_sane h hq
  | inproc =>
    simp only [launch]
    split_ifs
    · exact wait_sane h hq
    · exact ⟨fun hc => absurd (h.symm.trans hc) nofun, fun _ => h, nofun, hq⟩

theorem begin_sane (h : u.child = false)
    (hq : ∀ c ∈ u.queue, c.asker = .stopAll → c.which = .stop) :
    (u.begin stopping o).unit.Sane := by
  rw [begin]
  dsimp only
  split_ifs
  · exact .rest h rfl hq
  · exact launch_sane h hq

theorem head_sane (h : u.child = false)
    (hq : ∀ c ∈ u.queue, c.asker = .stopAll → c.which = .stop) :
    (u.head stopping o).unit.Sane := by
  rw [head]
  split_ifs
  · exact finish_sane h
  · split
    all_goals first
      | exact wait_sane h hq
      | exact begin_sane h hq

theorem lost_sane (h : u.child = false)
    (hq : ∀ c ∈ u.queue, c.asker = .stopAll → c.which = .stop) :
    (u.lost stopping).unit.Sane := by
  rw [lost]
  split_ifs
  · exact finish_sane h
  · exact wait_sane h hq

/-- Where the loop waits without a child, it has none. -/
theorem Sane.childless (h : u.Sane) (hp : u.phase.live = false) : u.child = false := by
  by_contra hc
  rw [h.live (by simpa using hc)] at hp
  exact nomatch hp

theorem recv_sane (h : u.Sane) : (u.recv stopping o).unit.Sane := by
  obtain ⟨kind, state, restarts, counted, first, phase, queue, child⟩ := u
  cases queue with
  | nil => exact h
  | cons c queue =>
    have hq : ∀ d ∈ queue, d.asker = .stopAll → d.which = .stop :=
      fun d hd => h.asks d (List.mem_cons_of_mem c hd)
    obtain ⟨which, asker⟩ := c
    cases phase with
    | idle =>
      have hc : child = false := h.childless rfl
      cases which with
      | load => exact begin_sane hc hq
      | stop => exact wait_sane hc hq
      | kill => exact wait_sane hc hq
    | backoff =>
      have hc : child = false := h.childless rfl
      cases which with
      | load => exact wait_sane hc hq
      | stop => exact wait_sane hc hq
      | kill => exact wait_sane hc hq
    | supervising =>
      cases which with
      | load => exact ⟨h.live, h.inproc, h.running, hq⟩
      | stop =>
        cases kind with
        | process => exact ⟨fun _ => rfl, nofun, nofun, hq⟩
        | inproc => exact wait_sane (h.inproc rfl) hq
      | kill =>
        cases kind with
        | process => exact ⟨fun _ => rfl, nofun, fun _ _ => h.running rfl rfl, hq⟩
        | inproc => exact lost_sane (h.inproc rfl) hq
    | _ => exact ⟨h.live, h.inproc, h.running, hq⟩

theorem reaped_sane (h : u.Sane) (hcan : u.can .reaped = true) :
    (u.reaped stopping).unit.Sane := by
  obtain ⟨kind, state, restarts, counted, first, phase, queue, child⟩ := u
  cases phase with
  | reaping => exact wait_sane rfl h.asks
  | terminating x => exact wait_sane rfl h.asks
  | killing x => exact lost_sane rfl h.asks
  | _ => exact nomatch hcan

theorem greeted_sane (h : u.Sane) (hp : u.phase = .hello) (ok : Bool) :
    (u.greeted stopping declared ok).unit.Sane := by
  obtain ⟨kind, state, restarts, counted, first, phase, queue, child⟩ := u
  cases ok with
  | true =>
    cases declared <;> exact ⟨fun _ => rfl, h.inproc, fun _ _ => rfl, h.asks⟩
  | false =>
    cases kind with
    | process => exact ⟨fun _ => rfl, nofun, nofun, h.asks⟩
    | inproc => exact wait_sane (h.inproc rfl) h.asks

/-- **Every turn of a loop keeps the unit sane.** -/
theorem Sane.turn (h : u.Sane) (stopping declared : Bool) {a : LoopAct}
    (hcan : u.can a = true) :
    (u.turn stopping declared a).unit.Sane := by
  cases a with
  | start o =>
    have hp := (of_decide_eq_true hcan).1
    exact head_sane (h.childless (by rw [hp]; rfl)) h.asks
  | recv o => exact recv_sane h
  | elapsed o =>
    have hp := of_decide_eq_true hcan
    exact begin_sane (h.childless (by rw [hp]; rfl)) h.asks
  | portFree o =>
    have hp := of_decide_eq_true hcan
    exact launch_sane (h.childless (by rw [hp]; rfl)) h.asks
  | greeted ok => exact greeted_sane h (of_decide_eq_true hcan) ok
  | announced =>
    have hp := of_decide_eq_true hcan
    exact ⟨fun _ => rfl, h.inproc, fun _ _ => h.running (by rw [hp]; rfl) (by rw [hp]; rfl), h.asks⟩
  | exited => exact lost_sane (of_decide_eq_true hcan).2.2 h.asks
  | reaped => exact reaped_sane h hcan

/-! ## Turns while the flag is set -/

/-- No child is spawned, a unit without a child gets none, whoever is answered finds none, and the
loop has not come to a wait from which it would start one. -/
structure Quiet (child : Bool) (t : Turn) : Prop where
  spawned : t.spawned = false
  child : t.unit.child = true → child = true
  acks : .stopAll ∈ t.acks → t.unit.phase.live = false
  held : t.unit.Held

/-- A unit is held wherever it has a child. -/
theorem held_live (h : u.phase.live = true) : u.Held := by
  intro _
  refine ⟨?_, ?_, ?_⟩
  all_goals
    intro hp
    rw [hp] at h
    exact nomatch h

theorem quiet_ended {c : Bool} {t : Turn} (hs : t.spawned = false)
    (hc : t.unit.child = true → c = true) (hp : t.unit.phase = .ended) : Quiet c t := by
  refine ⟨hs, hc, fun _ => by rw [hp]; rfl, fun _ => ?_⟩
  rw [hp]
  exact ⟨nofun, nofun, nofun⟩

theorem quiet_live {c : Bool} {t : Turn} (hs : t.spawned = false)
    (hc : t.unit.child = true → c = true) (ha : .stopAll ∉ t.acks)
    (hp : t.unit.phase.live = true) : Quiet c t :=
  ⟨hs, hc, fun hx => absurd hx ha, held_live hp⟩

/-- A unit without a program starts no child, wherever it waits. -/
theorem launch_quiet (h : u.kind = .inproc) : Quiet u.child (u.launch true o) := by
  obtain ⟨kind, state, restarts, counted⟩ := u
  obtain rfl : kind = .inproc := h
  cases hb : counted && o.blocked with
  | true =>
    simp only [launch, hb]
    exact quiet_ended rfl id rfl
  | false =>
    simp only [launch, hb]
    exact quiet_live rfl id nofun rfl

theorem begin_quiet (h : u.kind = .inproc) : Quiet u.child (u.begin true o) := by
  rw [begin]
  dsimp only
  split_ifs
  · exact ⟨rfl, id, nofun, fun hk => nomatch h.symm.trans hk⟩
  · exact launch_quiet (u := { u with state := .starting }) h

/-- Where a unit is held, the end of a wait from which it is started can only be that of a unit
without a program. -/
theorem Held.inproc (h : u.Held) (hp : u.phase = .backoff ∨ u.phase = .port ∨
    u.phase = .idle ∧ ∃ c ∈ u.queue.head?, c.which = .load) : u.kind = .inproc := by
  by_contra hk
  have hprocess : u.kind = .process := by
    cases hu : u.kind with
    | process => rfl
    | inproc => exact absurd hu hk
  obtain ⟨hbackoff, hport, hload⟩ := h hprocess
  rcases hp with hp | hp | ⟨hp, c, hc, hw⟩
  · exact hbackoff hp
  · exact hport hp
  · exact hload hp c hc hw

theorem recv_quiet (h : u.Sane) (hheld : u.Held) (hcan : u.can (.recv o) = true) :
    Quiet u.child (u.recv true o) := by
  have hin := hheld.inproc
  obtain ⟨hphase, hqueue⟩ := of_decide_eq_true hcan
  obtain ⟨kind, state, restarts, counted, first, phase, queue, child⟩ := u
  cases queue with
  | nil => exact absurd rfl hqueue
  | cons c queue =>
    have hasks := h.asks c List.mem_cons_self
    obtain ⟨which, asker⟩ := c
    cases phase with
    | idle =>
      cases which with
      | load =>
        have hq := begin_quiet (o := o)
          (u := ⟨kind, state, restarts, false, first, .idle, queue, child⟩)
          (hin (.inr (.inr ⟨rfl, _, rfl, rfl⟩)))
        refine ⟨hq.spawned, hq.child, fun hx => ?_, hq.held⟩
        rcases List.mem_cons.1 hx with rfl | hx
        · exact nomatch hasks rfl
        · exact hq.acks hx
      | stop => exact quiet_ended rfl id rfl
      | kill => exact quiet_ended rfl id rfl
    | backoff => cases which <;> exact quiet_ended rfl id rfl
    | supervising =>
      cases which with
      | load =>
        refine quiet_live rfl id (fun hx => ?_) rfl
        obtain rfl : Asker.stopAll = asker := List.mem_singleton.1 hx
        exact nomatch hasks rfl
      | stop =>
        cases kind with
        | process => exact quiet_live rfl id nofun rfl
        | inproc => exact quiet_ended rfl id rfl
      | kill =>
        cases kind with
        | process => exact quiet_live rfl id nofun rfl
        | inproc => exact quiet_ended rfl id rfl
    | _ => simp at hphase

theorem reaped_quiet (hcan : u.can .reaped = true) : Quiet u.child (u.reaped true) := by
  obtain ⟨kind, state, restarts, counted, first, phase⟩ := u
  cases phase with
  | reaping => exact quiet_ended rfl nofun rfl
  | terminating x => exact quiet_ended rfl nofun rfl
  | killing x => exact quiet_ended rfl nofun rfl
  | _ => exact nomatch hcan

theorem greeted_quiet (ok : Bool) : Quiet u.child (u.greeted true declared ok) := by
  obtain ⟨kind⟩ := u
  cases ok with
  | true => cases declared <;> exact quiet_live rfl id nofun rfl
  | false =>
    cases kind with
    | process => exact quiet_live rfl id nofun rfl
    | inproc => exact quiet_ended rfl id rfl

/-- **Every turn of a held unit is quiet once the flag is set.** -/
theorem Sane.quiet (h : u.Sane) (hheld : u.Held) {a : LoopAct} (hcan : u.can a = true)
    (declared : Bool) : Quiet u.child (u.turn true declared a) := by
  cases a with
  | start o => exact quiet_ended rfl id rfl
  | recv o => exact recv_quiet h hheld hcan
  | elapsed o => exact begin_quiet (hheld.inproc (.inl (of_decide_eq_true hcan)))
  | portFree o =>
    exact launch_quiet (u := { u with first := false })
      (hheld.inproc (.inr (.inl (of_decide_eq_true hcan))))
  | greeted ok => exact greeted_quiet ok
  | announced => exact quiet_live rfl id nofun rfl
  | exited => exact quiet_ended rfl id rfl
  | reaped => exact reaped_quiet hcan

/-- A request keeps a unit held, unless it is a load and the next that an idle loop takes. -/
theorem Held.send (h : u.Held) {c : Cmd}
    (hc : c.which = .load → u.kind = .process → u.phase = .idle → u.queue ≠ []) :
    (u.send c).Held := by
  rw [UnitHandle.send]
  split_ifs
  · exact h
  · intro hk
    obtain ⟨hbackoff, hport, hload⟩ := h hk
    refine ⟨hbackoff, hport, fun hp d hd => ?_⟩
    cases hq : u.queue with
    | nil =>
      rw [hq] at hd
      obtain rfl : c = d := Option.some.inj hd
      exact fun hw => hc hw hk hp hq
    | cons x queue =>
      refine hload hp d ?_
      rw [hq] at hd ⊢
      exact hd

end UnitHandle

/-! ## What a supervisor keeps -/

/-- `stop_all` is through with the unit. -/
def StopAll.past (i : Nat) : StopAll → Prop
  | .unused => False
  | .looking rest => i ∉ rest
  | .waiting j answered rest => i ∉ rest ∧ (i = j → answered = true)
  | .returned => True

namespace Supervisor

variable {s : Supervisor} {i : Nat} {u : UnitHandle}

structure Sound (s : Supervisor) : Prop where
  sane : ∀ u ∈ s.units, u.Sane
  /-- Once the flag is set no loop waits to start a child. -/
  held : s.stopping = true → ∀ u ∈ s.units, u.Held
  revived : s.revived = 0
  flag : s.stopping = false → s.stopAll = .unused
  /-- `stop_all` leaves no child behind. -/
  past : ∀ i u, s.units[i]? = some u → s.stopAll.past i → u.child = false

theorem Sound.unit (h : s.Sound) (hi : s.units[i]? = some u) : u.Sane :=
  h.sane u (List.mem_of_getElem? hi)

/-- One unit changes. -/
theorem Sound.set (h : s.Sound) (hi : s.units[i]? = some u) {s' : Supervisor} {v : UnitHandle}
    (hv : v.Sane) (hunits : s'.units = s.units.set i v) (hstop : s'.stopping = s.stopping)
    (hheld : s.stopping = true → v.Held) (hrevived : s'.revived = 0)
    (hflag : s'.stopping = false → s'.stopAll = .unused)
    (hpast : s'.stopAll.past i → v.child = false)
    (hother : ∀ j, j ≠ i → s'.stopAll.past j → s.stopAll.past j) : s'.Sound where
  sane w hw := by
    rw [hunits] at hw
    rcases List.mem_or_eq_of_mem_set hw with hw | rfl
    · exact h.sane w hw
    · exact hv
  held hs w hw := by
    rw [hstop] at hs
    rw [hunits] at hw
    rcases List.mem_or_eq_of_mem_set hw with hw | rfl
    · exact h.held hs w hw
    · exact hheld hs
  revived := hrevived
  flag := hflag
  past j w hj hp := by
    rw [hunits] at hj
    by_cases hij : j = i
    · subst hij
      obtain ⟨hlt, -⟩ := List.getElem?_eq_some_iff.1 hi
      rw [List.getElem?_set_self hlt] at hj
      obtain rfl := Option.some.inj hj
      exact hpast hp
    · rw [List.getElem?_set_ne (Ne.symm hij)] at hj
      exact h.past j w hj (hother j hij hp)

/-- A unit changes by itself, and has no child afterwards if it had none. -/
theorem Sound.touch (h : s.Sound) (hi : s.units[i]? = some u) {v : UnitHandle} (hv : v.Sane)
    (hheld : s.stopping = true → v.Held) (hc : v.child = true → u.child = true) :
    { s with units := s.units.set i v }.Sound := by
  refine h.set hi hv rfl rfl hheld h.revived h.flag (fun hp => ?_) fun j _ hp => hp
  by_contra hx
  exact absurd (h.past i u hi hp) (by rw [hc (by simpa using hx)]; exact nofun)

theorem Sound.past_looking (h : s.Sound) {rest : List Nat} (hs : s.stopping = true)
    (hpast : ∀ i u, s.units[i]? = some u → i ∉ rest → u.child = false) :
    { s with stopAll := .looking rest }.Sound where
  sane := h.sane
  held := h.held
  revived := h.revived
  flag hf := absurd (hs.symm.trans hf) nofun
  past := hpast

theorem past_answer {acks : List Asker} {j : Nat} (hp : (s.answer i acks).past j) :
    s.stopAll.past j ∨ j = i ∧ .stopAll ∈ acks := by
  rw [answer] at hp
  split at hp
  · next k answered rest heq =>
    rw [heq]
    by_cases hk : j = k ∧ answered = false
    · obtain ⟨rfl, rfl⟩ := hk
      have ha := hp.2 rfl
      simp only [Bool.false_or, Bool.and_eq_true, decide_eq_true_eq, List.contains_iff_mem] at ha
      exact .inr ⟨ha.1.symm, ha.2⟩
    · exact .inl ⟨hp.1, fun hjk => by simpa [hjk] using hk⟩
  · exact .inl hp

theorem answer_eq_unused {acks : List Asker} (h : s.stopAll = .unused) :
    s.answer i acks = .unused := by
  rw [answer, h]

/-- Before the shutdown a loop takes any turn. -/
theorem Sound.loop_open (h : s.Sound) (hs : s.stopping = false) {a : LoopAct}
    (hi : s.units[i]? = some u) (hcan : u.can a = true) : (s.next (.loop i a)).Sound := by
  have hx : (s.next (.loop i a)).stopAll = .unused := by
    simp only [next, hi]
    exact answer_eq_unused (h.flag hs)
  refine h.set hi ((h.unit hi).turn s.stopping s.nodeDeclared hcan) (by simp only [next, hi])
    (by simp only [next, hi]) (fun ht => absurd (hs.symm.trans ht) nofun) ?_ (fun _ => hx) ?_ ?_
  · simp only [next, hi, hs, Bool.false_and]
    exact h.revived
  · rw [hx]
    exact nofun
  · rw [hx]
    exact nofun

/-- Once the flag is set it takes a quiet one. -/
theorem Sound.loop_closed (h : s.Sound) (hs : s.stopping = true) {a : LoopAct}
    (hi : s.units[i]? = some u) (hcan : u.can a = true)
    (hq : UnitHandle.Quiet u.child (u.turn s.stopping s.nodeDeclared a)) :
    (s.next (.loop i a)).Sound := by
  have hv := (h.unit hi).turn s.stopping s.nodeDeclared hcan
  have hstop : (s.next (.loop i a)).stopAll =
      s.answer i (u.turn s.stopping s.nodeDeclared a).acks := by simp only [next, hi]
  refine h.set hi hv (by simp only [next, hi]) (by simp only [next, hi]) (fun _ => hq.held) ?_ ?_
    ?_ ?_
  · simp only [next, hi, hq.spawned, Bool.and_false]
    exact h.revived
  · intro hf
    have hflag : (s.next (.loop i a)).stopping = s.stopping := by simp only [next, hi]
    rw [hflag, hs] at hf
    exact nomatch hf
  · rw [hstop]
    intro hp
    rcases past_answer hp with hp | ⟨-, ha⟩
    · by_contra hx
      exact absurd (h.past i u hi hp) (by rw [hq.child (by simpa using hx)]; exact nofun)
    · exact hv.childless (hq.acks ha)
  · rw [hstop]
    intro j hj hp
    rcases past_answer hp with hp | ⟨rfl, -⟩
    · exact hp
    · exact absurd rfl hj

theorem send_sane (h : u.Sane) {c : Cmd} (hc : c.asker = .stopAll → c.which = .stop) :
    (u.send c).Sane := by
  rw [UnitHandle.send]
  split_ifs
  · exact h
  · refine ⟨h.live, h.inproc, h.running, fun d hd => ?_⟩
    rcases List.mem_append.1 hd with hd | hd
    · exact h.asks d hd
    · obtain rfl := List.mem_singleton.1 hd
      exact hc

theorem send_child (c : Cmd) : (u.send c).child = u.child := by
  rw [UnitHandle.send]
  split_ifs <;> rfl

theorem Sound.loop (h : s.Sound) {a : LoopAct} (hi : s.units[i]? = some u)
    (hcan : u.can a = true) : (s.next (.loop i a)).Sound := by
  cases hs : s.stopping with
  | false => exact h.loop_open hs hi hcan
  | true =>
    have hheld := h.held hs u (List.mem_of_getElem? hi)
    have hq := (h.unit hi).quiet hheld hcan s.nodeDeclared
    rw [← hs] at hq
    exact h.loop_closed hs hi hcan hq

theorem Sound.request (h : s.Sound) (hi : s.units[i]? = some u) {which : Which}
    (ho : s.Orderly (.request i which)) : (s.next (.request i which)).Sound := by
  simp only [next, hi]
  refine h.touch hi (send_sane (h.unit hi) nofun) (fun hs => ?_) (send_child _).symm.trans
  exact (h.held hs u (List.mem_of_getElem? hi)).send fun hw => ho hs hw u hi

theorem Sound.dies (h : s.Sound) (hi : s.units[i]? = some u) : (s.next (.dies i)).Sound := by
  have hu := h.unit hi
  simp only [next, hi]
  exact h.touch hi ⟨nofun, fun _ => rfl, hu.running, hu.asks⟩
    (fun hs => h.held hs u (List.mem_of_getElem? hi)) nofun

theorem Sound.stopping (h : s.Sound) (hne : s.stopAll ≠ .unused) : s.stopping = true := by
  by_contra hs
  exact hne (h.flag (by simpa using hs))

/-- `stop_all` has all units before it. -/
theorem Sound.stopAll (h : s.Sound) (ho : s.Orderly .stopAll) : (s.next .stopAll).Sound := by
  refine ⟨h.sane, fun _ => ho, h.revived, nofun, fun i u hi hp => absurd ?_ hp⟩
  obtain ⟨hlt, -⟩ := List.getElem?_eq_some_iff.1 hi
  exact List.mem_reverse.2 (List.mem_range.2 hlt)

/-- A unit that is passed over has no child. -/
theorem Sound.passed (h : s.Sound) (hi : s.units[i]? = some u)
    (ho : u.state ≠ .running → u.phase.unseen = true → u.child = false)
    (hrun : ¬ (u.state = .running ∧ u.phase ≠ .ended)) : u.child = false := by
  by_contra hc
  have hlive := (h.unit hi).live (by simpa using hc)
  have hended : u.phase ≠ .ended := by
    intro he
    rw [he] at hlive
    exact nomatch hlive
  have hstate : u.state ≠ .running := fun he => hrun ⟨he, hended⟩
  cases hunseen : u.phase.unseen with
  | true => exact hc (ho hstate hunseen)
  | false => exact hstate ((h.unit hi).running hlive hunseen)

/-- `stop_all` passes over a unit, or asks it to stop. -/
theorem Sound.look_unit (h : s.Sound) (ho : s.Orderly .look) {rest : List Nat}
    (heq : s.stopAll = .looking (i :: rest)) : (s.next .look).Sound := by
  have hs := h.stopping (by rw [heq]; exact nofun)
  have hpast : ∀ j w, s.units[j]? = some w → j ∉ i :: rest → w.child = false := by
    intro j w hj hn
    exact h.past j w hj (by rw [heq]; exact hn)
  cases hi : s.units[i]? with
  | none =>
    simp only [next, heq, hi]
    refine h.past_looking hs fun j w hj hn => hpast j w hj fun hm => ?_
    rcases List.mem_cons.1 hm with rfl | hm
    · exact nomatch hi.symm.trans hj
    · exact hn hm
  | some u =>
    simp only [next, heq, hi]
    split_ifs with hrun
    · refine h.set hi (send_sane (h.unit hi) fun _ => rfl) rfl rfl
        (fun hs => (h.held hs u (List.mem_of_getElem? hi)).send nofun) h.revived
        (fun hf => absurd (hs.symm.trans hf) nofun) (fun hp => nomatch hp.2 rfl) ?_
      intro j hj hp
      rw [heq]
      exact List.not_mem_cons_of_ne_of_not_mem hj hp.1
    · refine h.past_looking hs fun j w hj hn => ?_
      by_cases hij : j = i
      · subst hij
        obtain rfl := Option.some.inj (hi.symm.trans hj)
        rw [Orderly, heq] at ho
        exact h.passed hi (ho u hi) hrun
      · exact hpast j w hj (List.not_mem_cons_of_ne_of_not_mem hij hn)

theorem Sound.look (h : s.Sound) (ho : s.Orderly .look) : (s.next .look).Sound := by
  cases heq : s.stopAll with
  | looking rest =>
    cases rest with
    | nil =>
      have hs := h.stopping (by rw [heq]; exact nofun)
      simp only [next, heq]
      refine ⟨h.sane, h.held, h.revived, fun hf => absurd (hs.symm.trans hf) nofun,
        fun i u hi _ => ?_⟩
      exact h.past i u hi (by rw [heq]; exact List.not_mem_nil)
    | cons i rest => exact h.look_unit ho heq
  | _ =>
    simp only [next, heq]
    exact h

/-- The unit that `stop_all` waits for has stopped. -/
theorem Sound.answered (h : s.Sound) : (s.next .answered).Sound := by
  cases heq : s.stopAll with
  | waiting i answered rest =>
    cases answered with
    | false =>
      simp only [next, heq]
      exact h
    | true =>
      simp only [next, heq]
      have hs := h.stopping (by rw [heq]; exact nofun)
      refine h.past_looking hs fun j w hj hn => h.past j w hj ?_
      rw [heq]
      exact ⟨hn, fun _ => rfl⟩
  | _ =>
    simp only [next, heq]
    exact h

/-- **Every orderly step keeps the supervisor sound.** -/
theorem Sound.next (h : s.Sound) {a : Act} (hok : (machine.restrict Orderly).ok s a) :
    (s.next a).Sound := by
  obtain ⟨hcan, ho⟩ := hok
  have hunit : ∀ i, i < s.units.length → ∃ u, s.units[i]? = some u := fun i hlt =>
    ⟨_, List.getElem?_eq_getElem hlt⟩
  cases a with
  | loop i a =>
    obtain ⟨u, hi, hu⟩ := (Option.any_eq_true ..).1 hcan
    exact h.loop hi hu
  | request i which =>
    obtain ⟨u, hi⟩ := hunit i (of_decide_eq_true hcan)
    exact h.request hi ho
  | dies i =>
    obtain ⟨u, hi⟩ := hunit i (of_decide_eq_true hcan)
    exact h.dies hi
  | stopAll => exact h.stopAll ho
  | look => exact h.look ho
  | answered => exact h.answered

/-- The units as they are configured. -/
def new (units : List (UnitKind × Bool)) : Supervisor where
  units := units.map fun (kind, enabled) =>
    { kind, state := if enabled then .inactive else .disabled }

theorem new_sound (units : List (UnitKind × Bool)) : (new units).Sound where
  sane u hu := by
    obtain ⟨c, -, rfl⟩ := List.mem_map.1 hu
    exact .rest rfl rfl nofun
  held := nofun
  revived := rfl
  flag _ := rfl
  past _ _ _ := nofun

end Supervisor

/-- **No child is spawned once the flag is set, and none is alive when `stop_all` returns.** -/
theorem shutdown_holds (units : List (UnitKind × Bool)) {acts : List Act}
    (hrun : (machine.restrict Supervisor.Orderly).Legal (.new units) acts) :
    let s := machine.exec (.new units) acts
    s.revived = 0 ∧ (s.stopAll = .returned → ∀ u ∈ s.units, u.child = false) := by
  have h : (machine.exec (.new units) acts).Sound := by
    rw [← Machine.restrict_exec _ Supervisor.Orderly]
    exact Machine.invariant (fun _ _ h hok => h.next hok) (Supervisor.new_sound units) hrun
  refine ⟨h.revived, fun hx u hu => ?_⟩
  obtain ⟨i, hi⟩ := List.mem_iff_getElem?.1 hu
  exact h.past i u hi (by rw [hx]; trivial)

/-- Two units that run. The second has ended by itself once, and been started again. -/
def served : List Act :=
  [.loop 0 (.start {}), .loop 1 (.start {}), .loop 0 (.portFree {}), .loop 1 (.portFree {}),
    .loop 0 (.greeted true), .loop 0 .announced, .loop 1 (.greeted true), .dies 1, .loop 1 .exited,
    .loop 1 (.elapsed {}), .loop 1 (.greeted true)]

/-- Both are asked to stop. The second ends by itself before it takes the request, the first gets a
request to load it besides. -/
def shutdown : List Act :=
  [.stopAll, .look, .dies 1, .loop 1 .exited, .answered, .look, .request 0 .load,
    .loop 0 (.recv {}), .loop 0 .reaped, .answered, .look]

theorem shutdown_holds_served :
    let s := machine.exec (.new [(.process, true), (.process, true)]) (served ++ shutdown)
    s.stopAll = .returned ∧ s.revived = 0 ∧
      (s.stopAll = .returned → ∀ u ∈ s.units, u.child = false) :=
  ⟨by decide, shutdown_holds [(.process, true), (.process, true)] (by decide)⟩

/-- Two shutdowns of one unit: its program could not be run, and it is tried again; its program is
running, and it has not answered yet. -/
theorem shutdown_revives_and_leaves :
    (¬ ∀ (units : List (UnitKind × Bool)) (acts : List Act), machine.Legal (.new units) acts →
      (machine.exec (.new units) acts).revived = 0) ∧
    ¬ ∀ (units : List (UnitKind × Bool)) (acts : List Act), machine.Legal (.new units) acts →
      (machine.exec (.new units) acts).stopAll = .returned →
      ∀ u ∈ (machine.exec (.new units) acts).units, u.child = false := by
  refine ⟨fun h => ?_, fun h => ?_⟩
  · have hrev := h [(.process, true)]
      [.loop 0 (.start {}), .loop 0 (.portFree { exec := false }), .stopAll, .look, .look,
        .loop 0 (.elapsed {})] (by decide)
    exact absurd hrev (by decide)
  · have hlive := h [(.process, true)]
      [.loop 0 (.start {}), .loop 0 (.portFree {}), .stopAll, .look, .look] (by decide)
      (by decide)
    exact absurd hlive (by decide)

end OxlensSfu.Hub.Supervise
