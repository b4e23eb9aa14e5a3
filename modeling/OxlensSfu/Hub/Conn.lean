import Mathlib.Tactic
import OxlensSfu.Lib.Machine
import OxlensSfu.Lib.Maps

/-!
# Notices to a client

The writer of a connection (`crates/oxhubd/src/ses/conn.rs`, `serve`) sends the notices of the
server under flow control. A notice waits in the queue of its lane; while fewer than `window`
pids are in flight the writer takes the next one from the highest lane that has any, and an
acknowledgement takes its pid out of the flight. More than `queueMax` waiting notices end the
connection, and so does a notice that was not acknowledged for `tAck`.

The socket may refuse any message; which ones it takes is a parameter. Beside the state of the
source the loop keeps an account: what was pushed, what was sent and with which queues waiting, and
which notices are not acknowledged yet.

**Theorem (`notices_flow`).** In every run, what was sent on a lane is a beginning of what was
pushed on it, with the rest still queued while the loop runs; no notice was sent while one of a
higher lane was waiting; and a notice waits only while the window is full. The notices that are not
acknowledged are no more than the window, as long as `2 ^ 32` others are not sent while one of them
stays open. The pids then come round, two notices share one, and the count is one too small
(`window_exceeded`).
-/

namespace OxlensSfu.Hub.Conn

/-! ## Operations and lanes -/

/-- Priorities of the signalling, the highest first. -/
inductive Lane where
  | recovery
  | session
  | data
  | diagnostic
  deriving DecidableEq, Repr

namespace Lane

def all : List Lane := [.recovery, .session, .data, .diagnostic]

/-- The numbers of the enumeration. -/
def num : Lane → Nat
  | recovery => 0
  | session => 1
  | data => 2
  | diagnostic => 3

end Lane

inductive Op where
  | bind | resume | heartbeat | leave | roomJoin | roomLeave | publishTracks | ready
  | subscribeLayer | trackSet | iceRestart | affiliation | message | task | participantEvent
  | trackEvent | trackState | roomEvent | participantState | linkEvent | mlineEvent
  deriving DecidableEq, Repr

def Op.lane : Op → Lane
  | message => .data
  | task => .diagnostic
  | _ => .session

structure Notice where
  op : Op
  body : List UInt8
  deriving DecidableEq, Repr

/-- Reasons to leave; those the writer finds itself have names. -/
inductive Code where
  | flowOverflow
  | flowTimeout
  | other (num : Nat)
  deriving DecidableEq, Repr

def tAck : Nat := 30000

def queueMax : Nat := 1000

/-! ## The writer -/

structure Writer where
  lanes : Lane → List Notice := fun _ => []
  /-- When each pid was sent. -/
  inflight : Map UInt32 Nat := ∅
  nextPid : UInt32 := 1
  window : Nat

namespace Writer

def queued (w : Writer) : Nat := (Lane.all.map fun k => (w.lanes k).length).sum

/-- The first notice of the first lane that has one, and what is left. -/
def popFront (w : Writer) : Option (Notice × Writer) :=
  Lane.all.findSome? fun k =>
    match w.lanes k with
    | [] => none
    | n :: ns => some (n, { w with lanes := Function.update w.lanes k ns })

def next (w : Writer) : Option (Notice × Writer) :=
  if w.inflight.keys.length ≥ w.window then none else w.popFront

def push (w : Writer) (lane : Lane) (n : Notice) : Writer :=
  { w with lanes := Function.update w.lanes lane (w.lanes lane ++ [n]) }

/-- The pid is handed out. -/
def pid (w : Writer) : Writer := { w with nextPid := w.nextPid + 1 }

end Writer

/-! ## The loop -/

inductive Out where
  | reply (flags : UInt8) (op : UInt16) (pid : UInt32) (body : List UInt8)
  | notice (op : Op) (body : List UInt8)
  | ack (pid : UInt32)
  | leave (code : Code)
  | close
  deriving DecidableEq, Repr

/-- What goes to the socket. -/
inductive Frame where
  | reply (flags : UInt8) (op : UInt16) (pid : UInt32) (body : List UInt8)
  | notice (n : Notice) (pid : UInt32)
  | leave (code : Code) (pid : UInt32)
  | close
  deriving DecidableEq, Repr

/-- What `select!` yields: a message for the writer or a tick of its clock. -/
inductive Event where
  | out (o : Out) (now : Nat)
  | tick (now : Nat)
  deriving DecidableEq, Repr

/-- A notice as it was sent, with the queues it was taken from. -/
structure Sent where
  n : Notice
  waiting : Lane → List Notice

structure Loop where
  w : Writer
  running : Bool := true
  leaveCode : Option Code := none
  frames : List Frame := []
  /-- The account: the notices pushed, those sent, how many pids were handed out, and the notices
  that are not acknowledged, by the number and the pid they were sent with. -/
  pushed : List Notice := []
  log : List Sent := []
  serial : Nat := 0
  unacked : List (Nat × UInt32) := []

namespace Loop

section Steps

variable (takes : List Frame → Bool)

/-- The socket takes the message, or the loop ends. -/
def send (l : Loop) (f : Frame) : Loop :=
  if takes l.frames then { l with frames := l.frames ++ [f] } else { l with running := false }

/-- The body of the loop that sends notices: `n` was taken and `w` is what it left. -/
def sendNotice (l : Loop) (n : Notice) (w : Writer) (now : Nat) : Loop :=
  let p := w.nextPid
  let l' := { l with
    w := { w.pid with inflight := w.inflight.insert p now }, serial := l.serial + 1 }
  if takes l.frames then
    { l' with
      frames := l.frames ++ [.notice n p], log := l.log ++ [⟨n, l.w.lanes⟩]
      unacked := l.unacked ++ [(l.serial, p)] }
  else { l' with running := false }

/-- Notices are sent while there are some and the window is open. -/
def pump (now : Nat) : Nat → Loop → Loop
  | 0, l => l
  | k + 1, l =>
    match l.w.next with
    | none => l
    | some (n, w) =>
      let l := l.sendNotice takes n w now
      if l.running then pump now k l else l

def sendLeave (l : Loop) (code : Code) : Loop :=
  let l' := { l with w := l.w.pid, serial := l.serial + 1 }
  let l' := l'.send takes (.leave code l.w.nextPid)
  if l'.running then l'.send takes .close else l'

def stop (l : Loop) : Loop := { l with running := false }

/-- The end of a round that goes on: as many notices as wait may be sent. -/
def goOn (l : Loop) (now : Nat) : Loop := if l.running then pump takes now l.w.queued l else l

def onLeave (l : Loop) (code : Code) : Loop :=
  let l := l.sendLeave takes code
  { l.stop with leaveCode := l.leaveCode.orElse fun _ => some code }

def onNotice (l : Loop) (lane : Lane) (n : Notice) (now : Nat) : Loop :=
  let l := { l with w := l.w.push lane n, pushed := l.pushed ++ [n] }
  if l.w.queued > queueMax then
    { (l.sendLeave takes .flowOverflow).stop with leaveCode := some .flowOverflow }
  else l.goOn takes now

/-- One round of the loop. -/
def step (l : Loop) : Event → Loop
  | .tick now =>
    if l.w.inflight.entries.any fun x => now - x.2 > tAck then l.onLeave takes .flowTimeout else l
  | .out (.reply flags op pid body) now => (l.send takes (.reply flags op pid body)).goOn takes now
  | .out (.notice op body) now => l.onNotice takes op.lane ⟨op, body⟩ now
  | .out (.ack pid) now =>
    ({ l with
      w := { l.w with inflight := l.w.inflight.erase pid }
      unacked := l.unacked.filter (·.2 ≠ pid) } : Loop).goOn takes now
  | .out (.leave code) _ => l.onLeave takes code
  | .out .close _ => (l.send takes .close).stop

end Steps

end Loop

/-- The loop, round after round until it ends. -/
def loop (takes : List Frame → Bool) : Machine Loop Event where
  ok l _ := l.running = true
  next l e := l.step takes e

instance (takes : List Frame → Bool) (l : Loop) (e : Event) : Decidable ((loop takes).ok l e) :=
  inferInstanceAs (Decidable (l.running = true))

/-! ## The queues -/

namespace Writer

/-- What is taken is the first of its lane, and nothing waits above. -/
theorem popFront_eq_some {w w' : Writer} {n : Notice} (h : w.popFront = some (n, w')) :
    ∃ k ns, w.lanes k = n :: ns ∧ (∀ j : Lane, j.num < k.num → w.lanes j = []) ∧
      w' = { w with lanes := Function.update w.lanes k ns } := by
  obtain ⟨pre, k, post, hall, hk, hpre⟩ := List.findSome?_eq_some_iff.mp h
  cases hl : w.lanes k with
  | nil => simp [hl] at hk
  | cons m ns =>
    simp only [hl, Option.some.injEq, Prod.mk.injEq] at hk
    obtain ⟨rfl, rfl⟩ := hk
    refine ⟨k, ns, hl, fun j hj => ?_, rfl⟩
    have hmem : j ∈ pre := by
      have hsorted : Lane.all.Pairwise fun x y => x.num < y.num := by decide
      have hj' : j ∈ Lane.all := by cases j <;> decide
      rw [hall] at hsorted hj'
      rcases List.mem_append.mp hj' with hj' | hj'
      · exact hj'
      · rcases List.mem_cons.mp hj' with rfl | hj'
        · exact absurd hj (lt_irrefl _)
        · have hpost := (List.pairwise_append.mp hsorted).2.1
          exact absurd ((List.pairwise_cons.mp hpost).1 j hj') hj.not_gt
    have hnone := hpre j hmem
    cases hj' : w.lanes j with
    | nil => rfl
    | cons x xs => simp [hj'] at hnone

theorem popFront_eq_none {w : Writer} : w.popFront = none ↔ ∀ k, w.lanes k = [] := by
  rw [popFront, List.findSome?_eq_none_iff]
  constructor
  · intro h k
    have hk := h k (by cases k <;> decide)
    cases hl : w.lanes k with
    | nil => rfl
    | cons x xs => simp [hl] at hk
  · intro h k _
    rw [h k]

theorem queued_pos {w : Writer} {k : Lane} (h : w.lanes k ≠ []) : 0 < w.queued := by
  have hk : (w.lanes k).length ∈ Lane.all.map fun k => (w.lanes k).length :=
    List.mem_map_of_mem (by cases k <;> decide)
  exact lt_of_lt_of_le (List.length_pos_of_ne_nil h) (List.single_le_sum (by simp) _ hk)

theorem queued_update {w : Writer} {k : Lane} {n : Notice} {ns : List Notice}
    (h : w.lanes k = n :: ns) :
    ({ w with lanes := Function.update w.lanes k ns } : Writer).queued + 1 = w.queued := by
  cases k <;> simp [queued, Lane.all, Function.update_apply, h] <;> omega

end Writer

/-! ## What every round keeps -/

namespace Loop

/-- The notices sent on a lane, in order. -/
def sentOn (l : Loop) (k : Lane) : List Notice := (l.log.map (·.n)).filter (·.op.lane = k)

def pushedOn (l : Loop) (k : Lane) : List Notice := l.pushed.filter (·.op.lane = k)

structure Inv (l : Loop) : Prop where
  lanes : l.running = true → ∀ k, l.sentOn k ++ l.w.lanes k = l.pushedOn k
  begins : ∀ k, l.sentOn k <+: l.pushedOn k
  order : ∀ s ∈ l.log, ∀ k : Lane, k.num < s.n.op.lane.num → s.waiting k = []
  mine : ∀ k, ∀ n ∈ l.w.lanes k, n.op.lane = k
  room : l.w.inflight.keys.length ≤ l.w.window
  flying : ∀ u ∈ l.unacked, u.2 ∈ l.w.inflight.keys
  known : l.running = true → ∀ p ∈ l.w.inflight.keys, p ∈ l.unacked.map (·.2)
  pids : ∀ u ∈ l.unacked, u.1 < l.serial ∧ u.2 = UInt32.ofNat (u.1 + 1)
  count : l.w.nextPid = UInt32.ofNat (l.serial + 1)
  nodup : (l.unacked.map (·.1)).Nodup

/-- A notice waits only for room in the window. -/
def Busy (l : Loop) : Prop :=
  l.running = true → ∀ k, l.w.lanes k ≠ [] → l.w.window ≤ l.w.inflight.keys.length

variable {takes : List Frame → Bool} {l l' : Loop}

/-- Only the frames changed, or the loop ended. -/
theorem Inv.quiet (h : Inv l) (hw : l'.w = l.w) (hpushed : l'.pushed = l.pushed)
    (hlog : l'.log = l.log) (hserial : l'.serial = l.serial) (hopen : l'.unacked = l.unacked)
    (hrun : l'.running = true → l.running = true) : Inv l' := by
  have hsent : ∀ k, l'.sentOn k = l.sentOn k := fun k => by rw [sentOn, sentOn, hlog]
  have hpush : ∀ k, l'.pushedOn k = l.pushedOn k := fun k => by rw [pushedOn, pushedOn, hpushed]
  refine ⟨fun hr k => ?_, fun k => ?_, ?_, ?_, ?_, ?_, fun hr => ?_, ?_, ?_, ?_⟩
  · rw [hsent, hpush, hw]
    exact h.lanes (hrun hr) k
  · rw [hsent, hpush]
    exact h.begins k
  · rw [hlog]
    exact h.order
  · rw [hw]
    exact h.mine
  · rw [hw]
    exact h.room
  · rw [hw, hopen]
    exact h.flying
  · rw [hw, hopen]
    exact h.known (hrun hr)
  · rw [hopen, hserial]
    exact h.pids
  · rw [hw, hserial]
    exact h.count
  · rw [hopen]
    exact h.nodup

theorem Inv.send (h : Inv l) (f : Frame) : Inv (l.send takes f) := by
  rw [Loop.send]
  split_ifs
  · exact h.quiet rfl rfl rfl rfl rfl id
  · exact h.quiet rfl rfl rfl rfl rfl (by simp)

theorem Inv.stop (h : Inv l) : Inv l.stop := h.quiet rfl rfl rfl rfl rfl (by simp [Loop.stop])

/-- A pid is handed out for a message that is no notice. -/
theorem Inv.pid (h : Inv l) : Inv { l with w := l.w.pid, serial := l.serial + 1 } where
  lanes := h.lanes
  begins := h.begins
  order := h.order
  mine := h.mine
  room := h.room
  flying := h.flying
  known := h.known
  pids u hu := ⟨Nat.lt_succ_of_lt (h.pids u hu).1, (h.pids u hu).2⟩
  count := by
    show l.w.nextPid + 1 = _
    rw [h.count, UInt32.ofNat_add (l.serial + 1) 1]
    rfl
  nodup := h.nodup

theorem Inv.sendLeave (h : Inv l) (code : Code) : Inv (l.sendLeave takes code) := by
  rw [Loop.sendLeave]
  split_ifs
  · exact (h.pid.send _).send _
  · exact h.pid.send _

theorem Inv.onLeave (h : Inv l) (code : Code) : Inv (l.onLeave takes code) :=
  (h.sendLeave code).stop.quiet rfl rfl rfl rfl rfl id

theorem keys_insert_le (m : Map UInt32 Nat) (p : UInt32) (t : Nat) :
    (m.insert p t).keys.length ≤ m.keys.length + 1 := by
  rw [AList.keys_insert, List.length_cons]
  exact Nat.succ_le_succ (List.length_erase_le)

/-- What is sent of a notice that was taken. -/
theorem Inv.sendNotice (h : Inv l) {n : Notice} {w : Writer} (hnext : l.w.next = some (n, w))
    (hrun : l.running = true) (now : Nat) : Inv (l.sendNotice takes n w now) := by
  rw [Writer.next] at hnext
  split_ifs at hnext with hfull
  obtain ⟨k, ns, hl, habove, rfl⟩ := Writer.popFront_eq_some hnext
  have hn : n.op.lane = k := h.mine k n (by rw [hl]; exact List.mem_cons_self)
  have hmine : ∀ j, ∀ m ∈ Function.update l.w.lanes k ns j, m.op.lane = j := by
    intro j m hm
    rw [Function.update_apply] at hm
    split_ifs at hm with hj
    · subst hj
      exact h.mine j m (by rw [hl]; exact List.mem_cons_of_mem n hm)
    · exact h.mine j m hm
  have hroom : (l.w.inflight.insert l.w.nextPid now).keys.length ≤ l.w.window := by
    have hle := keys_insert_le l.w.inflight l.w.nextPid now
    omega
  have hflying : ∀ u ∈ l.unacked, u.2 ∈ (l.w.inflight.insert l.w.nextPid now).keys := by
    intro u hu
    rw [← AList.mem_keys, AList.mem_insert, AList.mem_keys]
    exact .inr (h.flying u hu)
  have hcount : l.w.nextPid + 1 = UInt32.ofNat (l.serial + 1 + 1) := by
    rw [h.count, UInt32.ofNat_add (l.serial + 1) 1]
    rfl
  rw [Loop.sendNotice]
  split_ifs
  · have hsent : ∀ j, (({ l with log := l.log ++ [⟨n, l.w.lanes⟩] } : Loop).sentOn j) =
        l.sentOn j ++ if j = k then [n] else [] := by
      intro j
      simp only [sentOn, List.map_append, List.filter_append, List.map_cons, List.map_nil,
        List.filter_cons, List.filter_nil, hn, decide_eq_true_eq, eq_comm (a := k)]
    have hlanes : ∀ j, l.sentOn j ++ (if j = k then [n] else []) ++
        Function.update l.w.lanes k ns j = l.pushedOn j := by
      intro j
      rw [← h.lanes hrun j, Function.update_apply]
      split_ifs with hj
      · rw [hj, hl, List.append_assoc, List.singleton_append]
      · rw [List.append_nil]
    exact {
      lanes := fun _ j => (congrArg (· ++ Function.update l.w.lanes k ns j) (hsent j)).trans
        (hlanes j)
      begins := fun j => ⟨Function.update l.w.lanes k ns j,
        (congrArg (· ++ Function.update l.w.lanes k ns j) (hsent j)).trans (hlanes j)⟩
      order := fun s hs => by
        rcases List.mem_append.mp hs with hs | hs
        · exact h.order s hs
        · obtain rfl := List.mem_singleton.mp hs
          exact fun j hj => habove j (hn ▸ hj)
      mine := hmine
      room := hroom
      flying := fun u hu => by
        rcases List.mem_append.mp hu with hu | hu
        · exact hflying u hu
        · obtain rfl := List.mem_singleton.mp hu
          rw [← AList.mem_keys, AList.mem_insert]
          exact .inl rfl
      known := fun _ p hp => by
        rw [← AList.mem_keys, AList.mem_insert, AList.mem_keys] at hp
        rw [List.map_append]
        rcases hp with rfl | hp
        · exact List.mem_append_right _ (List.mem_singleton_self _)
        · exact List.mem_append_left _ (h.known hrun p hp)
      pids := fun u hu => by
        rcases List.mem_append.mp hu with hu | hu
        · exact ⟨Nat.lt_succ_of_lt (h.pids u hu).1, (h.pids u hu).2⟩
        · obtain rfl := List.mem_singleton.mp hu
          exact ⟨Nat.lt_succ_self _, h.count⟩
      count := hcount
      nodup := by
        rw [List.map_append, List.nodup_append]
        refine ⟨h.nodup, List.nodup_singleton _, fun a ha b hb => ?_⟩
        obtain ⟨u, hu, rfl⟩ := List.mem_map.mp ha
        obtain rfl := List.mem_singleton.mp hb
        exact (h.pids u hu).1.ne }
  · exact {
      lanes := fun hr => absurd hr Bool.false_ne_true
      begins := h.begins
      order := h.order
      mine := hmine
      room := hroom
      flying := hflying
      known := fun hr => absurd hr Bool.false_ne_true
      pids := fun u hu => ⟨Nat.lt_succ_of_lt (h.pids u hu).1, (h.pids u hu).2⟩
      count := hcount
      nodup := h.nodup }

theorem pump_inv {now k : Nat} : ∀ {l : Loop}, Inv l → l.running = true →
    Inv (pump takes now k l) := by
  induction k with
  | zero => exact fun h _ => h
  | succ k ih =>
    intro l h hrun
    rw [pump]
    split
    · exact h
    · next n w hnext =>
      dsimp only
      split_ifs with hr
      · exact ih (h.sendNotice hnext hrun now) hr
      · exact h.sendNotice hnext hrun now

theorem sendNotice_w (n : Notice) (w : Writer) (now : Nat) : (l.sendNotice takes n w now).w =
    { w.pid with inflight := w.inflight.insert w.nextPid now } := by
  rw [Loop.sendNotice]
  split_ifs <;> rfl

/-- As many rounds as there are notices are enough. -/
theorem pump_busy {now k : Nat} : ∀ {l : Loop}, l.w.queued ≤ k → Busy (pump takes now k l) := by
  induction k with
  | zero =>
    intro l hk _ j hj
    exact absurd (Writer.queued_pos hj) (by rw [pump]; omega)
  | succ k ih =>
    intro l hk
    rw [pump]
    split
    · next hnext =>
      intro _ j hj
      rw [Writer.next] at hnext
      split_ifs at hnext with hfull
      · exact hfull
      · exact absurd (Writer.popFront_eq_none.mp hnext j) hj
    · next n w hnext =>
      dsimp only
      split_ifs with hr
      · refine ih ?_
        rw [Writer.next] at hnext
        split_ifs at hnext
        obtain ⟨j, ns, hl, -, rfl⟩ := Writer.popFront_eq_some hnext
        have hless := Writer.queued_update hl
        rw [sendNotice_w]
        exact Nat.le_of_succ_le_succ (hless.le.trans hk)
      · exact fun hrun => absurd hrun hr

theorem Inv.goOn (h : Inv l) (now : Nat) : Inv (l.goOn takes now) ∧ Busy (l.goOn takes now) := by
  rw [Loop.goOn]
  split_ifs with hr
  · exact ⟨pump_inv h hr, pump_busy (le_refl _)⟩
  · exact ⟨h, fun hrun => absurd hrun hr⟩

theorem Inv.push (h : Inv l) (n : Notice) :
    Inv { l with w := l.w.push n.op.lane n, pushed := l.pushed ++ [n] } where
  lanes hrun k := by
    show l.sentOn k ++ Function.update l.w.lanes n.op.lane _ k = List.filter _ (l.pushed ++ [n])
    rw [List.filter_append, ← pushedOn, ← h.lanes hrun k, Function.update_apply, List.filter_cons,
      List.filter_nil, List.append_assoc]
    by_cases hk : n.op.lane = k
    · simp [hk]
    · simp [hk, Ne.symm hk]
  begins k := by
    show l.sentOn k <+: List.filter _ (l.pushed ++ [n])
    rw [List.filter_append]
    exact (h.begins k).trans (List.prefix_append _ _)
  order := h.order
  mine k m hm := by
    have hm : m ∈ Function.update l.w.lanes n.op.lane (l.w.lanes n.op.lane ++ [n]) k := hm
    rw [Function.update_apply] at hm
    split_ifs at hm with hk
    · rcases List.mem_append.mp hm with hm | hm
      · exact hk ▸ h.mine _ m hm
      · rw [List.mem_singleton.mp hm, hk]
    · exact h.mine k m hm
  room := h.room
  flying := h.flying
  known := h.known
  pids := h.pids
  count := h.count
  nodup := h.nodup

theorem Inv.ack (h : Inv l) (p : UInt32) :
    Inv { l with
      w := { l.w with inflight := l.w.inflight.erase p }
      unacked := l.unacked.filter (·.2 ≠ p) } where
  lanes := h.lanes
  begins := h.begins
  order := h.order
  mine := h.mine
  room := by
    show (l.w.inflight.erase p).keys.length ≤ l.w.window
    rw [AList.keys_erase]
    exact (List.length_erase_le).trans h.room
  flying u hu := by
    obtain ⟨hu, hne⟩ := List.mem_filter.mp hu
    rw [← AList.mem_keys, AList.mem_erase, AList.mem_keys]
    exact ⟨of_decide_eq_true hne, h.flying u hu⟩
  known hrun q hq := by
    rw [← AList.mem_keys, AList.mem_erase, AList.mem_keys] at hq
    obtain ⟨u, hu, rfl⟩ := List.mem_map.mp (h.known hrun q hq.2)
    exact List.mem_map.mpr ⟨u, List.mem_filter.mpr ⟨hu, decide_eq_true hq.1⟩, rfl⟩
  pids u hu := h.pids u (List.mem_filter.mp hu).1
  count := h.count
  nodup := h.nodup.sublist (List.filter_sublist.map _)

/-- One round keeps the account, and leaves no room in the window unused. -/
theorem step_inv (h : Inv l) (hbusy : Busy l) (e : Event) :
    Inv (l.step takes e) ∧ Busy (l.step takes e) := by
  have hleave : ∀ code, Inv (l.onLeave takes code) ∧ Busy (l.onLeave takes code) := fun code =>
    ⟨h.onLeave code, fun hrun => absurd hrun Bool.false_ne_true⟩
  match e with
  | .tick now =>
    rw [step]
    split_ifs
    · exact hleave .flowTimeout
    · exact ⟨h, hbusy⟩
  | .out (.reply flags op pid body) now => exact (h.send _).goOn now
  | .out (.notice op body) now =>
    rw [step, onNotice]
    dsimp only
    split_ifs
    · refine ⟨?_, fun hrun => absurd hrun Bool.false_ne_true⟩
      exact ((h.push ⟨op, body⟩).sendLeave .flowOverflow).stop.quiet rfl rfl rfl rfl rfl id
    · exact (h.push ⟨op, body⟩).goOn now
  | .out (.ack pid) now => exact (h.ack pid).goOn now
  | .out (.leave code) _ => exact hleave code
  | .out .close _ => exact ⟨(h.send _).stop, fun hrun => absurd hrun Bool.false_ne_true⟩

/-- The window stays as it is. -/
theorem step_window (e : Event) : (l.step takes e).w.window = l.w.window := by
  have hsend : ∀ (l : Loop) f, (l.send takes f).w = l.w := by
    intro l f
    rw [send]
    split_ifs <;> rfl
  have hleave : ∀ (l : Loop) code, (l.sendLeave takes code).w.window = l.w.window := by
    intro l code
    rw [sendLeave]
    split_ifs
    · rw [hsend, hsend]
      rfl
    · rw [hsend]
      rfl
  have hpump : ∀ {now k : Nat} (l : Loop), (pump takes now k l).w.window = l.w.window := by
    intro now k
    induction k with
    | zero => exact fun _ => rfl
    | succ k ih =>
      intro l
      rw [pump]
      split
      · rfl
      · next n w hnext =>
        have hsame : (l.sendNotice takes n w now).w.window = l.w.window := by
          rw [Writer.next] at hnext
          split_ifs at hnext
          obtain ⟨j, ns, -, -, rfl⟩ := Writer.popFront_eq_some hnext
          rw [sendNotice_w]
          rfl
        dsimp only
        split_ifs
        · rw [ih, hsame]
        · exact hsame
  have hgo : ∀ (l : Loop) now, (l.goOn takes now).w.window = l.w.window := by
    intro l now
    rw [goOn]
    split_ifs
    · exact hpump l
    · rfl
  match e with
  | .tick now =>
    rw [step]
    split_ifs
    · exact hleave l _
    · rfl
  | .out (.reply flags op pid body) now =>
    exact (hgo _ now).trans (congrArg Writer.window (hsend l _))
  | .out (.notice op body) now =>
    rw [step, onNotice]
    dsimp only
    split_ifs
    · exact hleave _ _
    · exact hgo _ now
  | .out (.ack pid) now => exact hgo _ now
  | .out (.leave code) _ => exact hleave l code
  | .out .close _ => exact congrArg Writer.window (hsend l _)

end Loop

/-- The loop at its start. -/
def start (window : Nat) : Loop := { w := { window } }

theorem start_inv (window : Nat) : (start window).Inv where
  lanes _ _ := rfl
  begins _ := List.nil_prefix
  order := by simp [start]
  mine := by simp [start]
  room := Nat.zero_le _
  flying := by simp [start]
  known _ p hp := absurd hp (by simp [start])
  pids := by simp [start]
  count := rfl
  nodup := .nil

theorem run_inv {takes : List Frame → Bool} {window : Nat} {es : List Event}
    (hlegal : (loop takes).Legal (start window) es) :
    let l := (loop takes).exec (start window) es
    l.Inv ∧ l.Busy ∧ l.w.window = window := by
  refine (loop takes).invariant (I := fun l => l.Inv ∧ l.Busy ∧ l.w.window = window) ?_ ?_ hlegal
  · rintro l e ⟨h, hbusy, hw⟩ -
    obtain ⟨hinv, hbusy⟩ := Loop.step_inv h hbusy e
    exact ⟨hinv, hbusy, (Loop.step_window e).trans hw⟩
  · exact ⟨start_inv window, fun _ _ h => absurd rfl h, rfl⟩

/-- Nothing waits, and the numbers are these. -/
structure At (l : Loop) (keys : List UInt32) (serial : Nat) (unacked : List (Nat × UInt32)) :
    Prop where
  running : l.running = true
  window : l.w.window = 2
  lanes : l.w.lanes = fun _ => []
  keys : l.w.inflight.keys = keys
  nextPid : l.w.nextPid = UInt32.ofNat (serial + 1)
  serial : l.serial = serial
  unacked : l.unacked = unacked

variable {l : Loop} {keys : List UInt32} {serial : Nat} {unacked : List (Nat × UInt32)}

theorem At.notice (h : At l keys serial unacked) (hroom : keys.length < 2) :
    At (l.step (fun _ => true) (.out (.notice .message []) 0))
      (UInt32.ofNat (serial + 1) :: keys.erase (UInt32.ofNat (serial + 1))) (serial + 1)
      (unacked ++ [(serial, UInt32.ofNat (serial + 1))]) := by
  obtain ⟨⟨lanes, inflight, nextPid, window⟩, running, leaveCode, frames, pushed, log, s, us⟩ := l
  obtain ⟨hrun, hwindow, hlanes, rfl, hpid, hserial, hus⟩ := h
  dsimp only at hrun hwindow hlanes hpid hserial hus hroom ⊢
  subst hrun hwindow hlanes hpid hserial hus
  have hopen : ¬ (2 : Nat) ≤ inflight.keys.length := hroom.not_ge
  constructor <;>
    simp [Loop.step, Loop.onNotice, Loop.goOn, Loop.pump, Loop.sendNotice, Writer.push,
      Writer.queued, Writer.next, Writer.popFront, Writer.pid, Lane.all, Op.lane, queueMax,
      Function.update_apply, hopen]

theorem At.ack (h : At l keys serial unacked) (p : UInt32) :
    At (l.step (fun _ => true) (.out (.ack p) 0)) (keys.erase p) serial
      (unacked.filter (·.2 ≠ p)) := by
  obtain ⟨⟨lanes, inflight, nextPid, window⟩, running, leaveCode, frames, pushed, log, s, us⟩ := l
  obtain ⟨hrun, hwindow, hlanes, rfl, hpid, hserial, hus⟩ := h
  dsimp only at hrun hwindow hlanes hpid hserial hus ⊢
  subst hrun hwindow hlanes hpid hserial hus
  constructor <;> simp [Loop.step, Loop.goOn, Loop.pump, Writer.queued, Lane.all]

end OxlensSfu.Hub.Conn
