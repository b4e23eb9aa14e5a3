import Mathlib.Algebra.Order.BigOperators.Group.List
import Mathlib.Data.Multiset.Basic
import OxlensSfu.Forward.Packet
import OxlensSfu.Lib.Machine
import OxlensSfu.Lib.Tally

/-!
# The queue of a media worker

`Worker::push` of `crates/oxsfud/src/fwd/rt.rs` against `worker_loop` of `fwd/mod.rs`. A worker has
a ring for the receive thread, one for each worker and one for everybody else. Any number of calls
of `push` are under way at once; they and the worker thread take their steps in any order. A step is
one atomic operation on what they share: the rings, the counter `queued`, the mark `sleeping` and
the token of `park`.

* `queued_exact`: the counter is what the rings hold, what is in hand and what the calls under way
  have reserved, so no subtraction goes below zero; what is let in stays within the limit.
* `pushed_once`: what a call has put into its ring is processed once, in the order of its ring, and
  the calls that say so are the ones that have put it there.
* `worker_drains`: when the calls are over the worker processes all that is left without being
  woken by the clock, whatever the order of steps has been so far. No wake-up is lost.
-/

namespace OxlensSfu.Rt

/-! ## What is queued -/

/-- Transports and rows are known by numbers. -/
inductive Ctl where
  | rtcp (tr : Nat) (data : List UInt8)
  | rtx (row : Nat) (seqs : List UInt16)
  | frames (rows : List Nat) (payload : List UInt8) (srcKey : Nat) (seq : UInt16) (ts : UInt32)

structure Egress where
  targets : List Nat
  pkt : Fwd.Pkt

inductive Item where
  | input (tr : Nat) (data : List UInt8) (atUs : Nat)
  | out (e : Egress)
  | ctl (c : Ctl)

def Ctl.packets : Ctl → Nat
  | .rtcp _ _ => 1
  | .rtx _ seqs => max seqs.length 1
  | .frames rows _ _ _ _ => max rows.length 1

def Item.packets : Item → Nat
  | .input _ _ _ => 1
  | .out e => max e.targets.length 1
  | .ctl c => c.packets

def recvRing : Nat := 4096
def workerRing : Nat := 1024
def ctlRing : Nat := 4096

structure Media where
  workers : Nat
  queueLimit : Nat

/-- How many rings a worker has. -/
def Media.rings (m : Media) : Nat := m.workers + 2

/-- How many items a ring holds. -/
def Media.capacity (m : Media) (k : Nat) : Nat :=
  if k = 0 then recvRing else if k = m.workers + 1 then ctlRing else workerRing

/-! ## The steps -/

/-- The shared part of a worker. `thread` says that the worker thread has made itself known, `token`
is the token of `park`. -/
structure Worker where
  inbox : Nat → List Item := fun _ => []
  queued : Nat := 0
  sleeping : Bool := false
  thread : Bool := false
  token : Bool := false

/-- Where a call of `push` is: before the reservation, before the ring, before it gives the
reservation back, before it reads `sleeping`, before `unpark`, or back with an answer. -/
inductive Push where
  | reserve (k : Nat) (item : Item)
  | ring (k : Nat) (item : Item)
  | undo (k : Nat) (item : Item)
  | look (k : Nat) (item : Item)
  | unpark (k : Nat) (item : Item)
  | done (k : Nat) (item : Item) (ok : Bool)

namespace Worker

def ringPut (w : Worker) (k : Nat) (item : Item) : Worker :=
  { w with inbox := Function.update w.inbox k (w.inbox k ++ [item]) }

/-- The next step of a call. -/
def push (m : Media) (w : Worker) : Push → Worker × Push
  | .reserve k item =>
    ({ w with queued := w.queued + item.packets },
      if m.queueLimit < w.queued + item.packets then .undo k item else .ring k item)
  | .ring k item =>
    if (w.inbox k).length < m.capacity k then (w.ringPut k item, .look k item)
    else (w, .undo k item)
  | .undo k item => ({ w with queued := w.queued - item.packets }, .done k item false)
  | .look k item => (w, if w.sleeping then .unpark k item else .done k item true)
  | .unpark k item => ({ w with token := w.token || w.thread }, .done k item true)
  | .done k item ok => (w, .done k item ok)

end Worker

/-- Where the worker thread is in `worker_loop`; `did` and `idle` are its counts. -/
inductive Loop where
  | start
  | pop (k did idle : Nat)
  | process (k : Nat) (item : Item) (did idle : Nat)
  | turn (did idle : Nat)
  | sleep
  | look (k : Nat)
  | park
  | parked
  | wake

/-- The next step of the worker thread. A thread that is parked waits for the token or for
`timeout`. -/
def Worker.work (m : Media) (w : Worker) (timeout : Bool) : Loop → Worker × Loop
  | .start => ({ w with thread := true }, .pop 0 0 0)
  | .pop k did idle =>
    if k < m.rings then
      match w.inbox k with
      | [] => (w, .pop (k + 1) did idle)
      | x :: xs => ({ w with inbox := Function.update w.inbox k xs }, .process k x did idle)
    else (w, .turn did idle)
  | .process k item did idle => ({ w with queued := w.queued - item.packets }, .pop k (did + 1) idle)
  | .turn did idle =>
    (w, if 0 < did then .pop 0 0 0 else if idle + 1 < 64 then .pop 0 0 (idle + 1) else .sleep)
  | .sleep => ({ w with sleeping := true }, .look 0)
  | .look k =>
    (w, if k < m.rings then if (w.inbox k).isEmpty then .look (k + 1) else .wake else .park)
  | .park => if w.token then ({ w with token := false }, .wake) else (w, .parked)
  | .parked =>
    if w.token then ({ w with token := false }, .wake)
    else (w, if timeout then .wake else .parked)
  | .wake => ({ w with sleeping := false }, .pop 0 0 0)

structure State where
  worker : Worker := {}
  loop : Loop := .start
  calls : List Push := []

inductive Act where
  | call (k : Nat) (item : Item)
  | push (i : Nat)
  | work (timeout : Bool)

namespace State

/-- Call `i` takes a step. -/
def push (m : Media) (s : State) (i : Nat) : State :=
  match s.calls[i]? with
  | none => s
  | some c => { s with worker := (s.worker.push m c).1, calls := s.calls.set i (s.worker.push m c).2 }

def work (m : Media) (s : State) (timeout : Bool) : State :=
  { s with worker := (s.worker.work m timeout s.loop).1, loop := (s.worker.work m timeout s.loop).2 }

def next (m : Media) (s : State) : Act → State
  | .call k item => { s with calls := s.calls ++ [.reserve k item] }
  | .push i => s.push m i
  | .work timeout => s.work m timeout

end State

/-- A call is for one of the rings that there are. -/
def machine (m : Media) : Machine State Act where
  ok _ a := match a with
    | .call k _ => k < m.rings
    | _ => True
  next := State.next m

instance (m : Media) (s : State) : (a : Act) → Decidable ((machine m).ok s a)
  | .call k _ => inferInstanceAs (Decidable (k < m.rings))
  | .push _ => .isTrue trivial
  | .work _ => .isTrue trivial

namespace State

variable {m : Media} {s : State} {i : Nat} {c : Push}

theorem push_some (h : s.calls[i]? = some c) : s.push m i =
    { s with worker := (s.worker.push m c).1, calls := s.calls.set i (s.worker.push m c).2 } := by
  simp only [push, h]

theorem push_none (h : s.calls[i]? = none) : s.push m i = s := by simp only [push, h]

end State

/-! ## Accounts -/

def packetsOf (l : List Item) : Nat := (l.map Item.packets).sum

/-- The packets in the rings. -/
def Worker.inRings (m : Media) (w : Worker) : Nat :=
  ∑ k ∈ Finset.range m.rings, packetsOf (w.inbox k)

/-- The packets of the item in hand. -/
def Loop.inHand : Loop → Nat
  | .process _ item _ _ => item.packets
  | _ => 0

/-- What a call has added to `queued` and neither put into a ring nor given back. -/
def Push.reserved : Push → Nat
  | .ring _ item => item.packets
  | .undo _ item => item.packets
  | _ => 0

/-- What a call has been let in with. -/
def Push.admitted : Push → Nat
  | .ring _ item => item.packets
  | _ => 0

/-- The ring that a call is for. -/
def Push.target : Push → Nat
  | .reserve k _ | .ring k _ | .undo k _ | .look k _ | .unpark k _ | .done k _ _ => k

theorem Push.admitted_le (c : Push) : c.admitted ≤ c.reserved := by
  cases c <;> simp [admitted, reserved]

structure Books (m : Media) (s : State) : Prop where
  queued : s.worker.queued =
    s.worker.inRings m + s.loop.inHand + (s.calls.map Push.reserved).sum
  limit : s.worker.inRings m + s.loop.inHand + (s.calls.map Push.admitted).sum ≤ m.queueLimit
  rings : ∀ k, (s.worker.inbox k).length ≤ m.capacity k
  calls : ∀ c ∈ s.calls, c.target < m.rings

section

variable {m : Media} {s : State}

@[simp] theorem inRings_queued (w : Worker) (q : Nat) :
    Worker.inRings m { w with queued := q } = w.inRings m := rfl

@[simp] theorem inRings_token (w : Worker) (b : Bool) :
    Worker.inRings m { w with token := b } = w.inRings m := rfl

@[simp] theorem inRings_sleeping (w : Worker) (b : Bool) :
    Worker.inRings m { w with sleeping := b } = w.inRings m := rfl

@[simp] theorem inRings_thread (w : Worker) (b : Bool) :
    Worker.inRings m { w with thread := b } = w.inRings m := rfl

theorem inRings_put {w : Worker} {k : Nat} (hk : k < m.rings) (x : Item) :
    (w.ringPut k x).inRings m = w.inRings m + x.packets := by
  have h := Tally.sum_update packetsOf w.inbox (Finset.mem_range.2 hk) (w.inbox k ++ [x])
  have hput : packetsOf (w.inbox k ++ [x]) = packetsOf (w.inbox k) + x.packets := by
    simp [packetsOf]
  rw [hput] at h
  show ∑ j ∈ Finset.range m.rings, packetsOf (Function.update w.inbox k (w.inbox k ++ [x]) j) = _
  rw [Worker.inRings]
  omega

theorem inRings_pop {w : Worker} {k : Nat} (hk : k < m.rings) {x : Item} {xs : List Item}
    (h : w.inbox k = x :: xs) :
    Worker.inRings m { w with inbox := Function.update w.inbox k xs } + x.packets = w.inRings m := by
  have hsum := Tally.sum_update packetsOf w.inbox (Finset.mem_range.2 hk) xs
  have hx : packetsOf (w.inbox k) = x.packets + packetsOf xs := by simp [packetsOf, h]
  rw [hx] at hsum
  show ∑ j ∈ Finset.range m.rings, packetsOf (Function.update w.inbox k xs j) + _ = _
  rw [Worker.inRings]
  omega

theorem Push.target_push (w : Worker) (c : Push) : (w.push m c).2.target = c.target := by
  cases c <;> simp only [Worker.push] <;> (try split_ifs) <;> rfl

namespace Books

theorem admitted_le (s : State) :
    (s.calls.map Push.admitted).sum ≤ (s.calls.map Push.reserved).sum :=
  List.sum_le_sum fun c _ => c.admitted_le

/-- A step of a call. The reservation is refused by what the counter was before it. -/
theorem push (h : Books m s) (i : Nat) : Books m (s.push m i) := by
  obtain ⟨hq, hl, hr, hc⟩ := h
  cases hi : s.calls[i]? with
  | none =>
    rw [State.push_none hi]
    exact ⟨hq, hl, hr, hc⟩
  | some c =>
    have hk : c.target < m.rings := hc c (List.mem_of_getElem? hi)
    have hcalls : ∀ d ∈ s.calls.set i (s.worker.push m c).2, d.target < m.rings := by
      intro d hd
      rcases List.mem_or_eq_of_mem_set hd with hd | rfl
      · exact hc d hd
      · rw [Push.target_push]
        exact hk
    have hres := Tally.sum_map_set Push.reserved hi (s.worker.push m c).2
    have hadm := Tally.sum_map_set Push.admitted hi (s.worker.push m c).2
    have hle := admitted_le s
    rw [State.push_some hi]
    cases c with
    | reserve k item =>
      simp only [Worker.push] at hres hadm hcalls ⊢
      split_ifs at hres hadm hcalls ⊢ with hfull
      all_goals
        simp only [Push.reserved, Push.admitted] at hres hadm
        refine ⟨?_, ?_, hr, hcalls⟩
        all_goals simp only [inRings_queued]; omega
    | ring k item =>
      simp only [Worker.push] at hres hadm hcalls ⊢
      split_ifs at hres hadm hcalls ⊢ with hroom
      · simp only [Push.reserved, Push.admitted] at hres hadm
        have hput := inRings_put (w := s.worker) hk item
        rw [Push.target] at hput
        refine ⟨?_, ?_, fun j => ?_, hcalls⟩
        · simp only [hput]
          show s.worker.queued = _
          omega
        · simp only [hput]
          omega
        · by_cases hj : j = k
          · rw [hj]
            simpa [Worker.ringPut] using hroom
          · simpa [Worker.ringPut, hj] using hr j
      · simp only [Push.reserved, Push.admitted] at hres hadm
        refine ⟨?_, ?_, hr, hcalls⟩
        all_goals dsimp only; omega
    | undo k item =>
      simp only [Worker.push, Push.reserved, Push.admitted] at hres hadm hcalls ⊢
      refine ⟨?_, ?_, hr, hcalls⟩
      all_goals simp only [inRings_queued]; omega
    | look k item =>
      simp only [Worker.push] at hres hadm hcalls ⊢
      split_ifs at hres hadm hcalls ⊢
      all_goals
        simp only [Push.reserved, Push.admitted] at hres hadm
        refine ⟨?_, ?_, hr, hcalls⟩
        all_goals dsimp only; omega
    | unpark k item =>
      simp only [Worker.push, Push.reserved, Push.admitted] at hres hadm hcalls ⊢
      refine ⟨?_, ?_, hr, hcalls⟩
      all_goals simp only [inRings_token]; omega
    | done k item ok =>
      simp only [Worker.push, Push.reserved, Push.admitted] at hres hadm hcalls ⊢
      refine ⟨?_, ?_, hr, hcalls⟩
      all_goals dsimp only; omega

/-- A step of the worker thread. -/
theorem work (h : Books m s) (timeout : Bool) : Books m (s.work m timeout) := by
  obtain ⟨hq, hl, hr, hc⟩ := h
  have hstill : ∀ {w : Worker} {loop : Loop}, w.inbox = s.worker.inbox →
      w.queued = s.worker.queued → loop.inHand = s.loop.inHand →
      Books m { s with worker := w, loop := loop } := by
    intro w loop hin hqueued hhand
    have hrings : w.inRings m = s.worker.inRings m := by rw [Worker.inRings, hin, Worker.inRings]
    refine ⟨?_, ?_, fun k => ?_, hc⟩
    · simp only [hqueued, hrings, hhand, hq]
    · simpa only [hrings, hhand] using hl
    · simpa only [hin] using hr k
  rw [State.work]
  cases hloop : s.loop with
  | start => exact hstill rfl rfl (by simp [hloop, Worker.work, Loop.inHand])
  | pop k did idle =>
    simp only [Worker.work]
    split_ifs with hk
    · cases hin : s.worker.inbox k with
      | nil => exact hstill rfl rfl (by simp [hloop, Loop.inHand])
      | cons x xs =>
        have hpop := inRings_pop hk hin
        simp only [hloop, Loop.inHand] at hq hl
        refine ⟨?_, ?_, fun j => ?_, hc⟩
        · simp only [Loop.inHand]
          omega
        · simp only [Loop.inHand]
          omega
        · have hlen := hr j
          by_cases hj : j = k
          · rw [hj, hin, List.length_cons] at hlen
            rw [hj]
            simp only [Function.update_self]
            omega
          · simpa [hj] using hlen
    · exact hstill rfl rfl (by simp [hloop, Loop.inHand])
  | process k item did idle =>
    simp only [hloop, Loop.inHand] at hq hl
    refine ⟨?_, ?_, hr, hc⟩
    all_goals simp only [Worker.work, inRings_queued, Loop.inHand]; omega
  | turn did idle =>
    refine hstill rfl rfl ?_
    simp only [Worker.work, hloop]
    split_ifs <;> rfl
  | sleep => exact hstill rfl rfl (by simp [hloop, Worker.work, Loop.inHand])
  | look k =>
    refine hstill rfl rfl ?_
    simp only [Worker.work, hloop]
    split_ifs <;> rfl
  | park =>
    simp only [Worker.work]
    split_ifs
    · exact hstill rfl rfl (by simp [hloop, Loop.inHand])
    · exact hstill rfl rfl (by simp [hloop, Loop.inHand])
  | parked =>
    simp only [Worker.work]
    split_ifs
    · exact hstill rfl rfl (by simp [hloop, Loop.inHand])
    · exact hstill rfl rfl (by simp [hloop, Loop.inHand])
    · exact hstill rfl rfl (by simp [hloop, Loop.inHand])
  | wake => exact hstill rfl rfl (by simp [hloop, Worker.work, Loop.inHand])

theorem next (h : Books m s) {a : Act} (hok : (machine m).ok s a) : Books m (s.next m a) := by
  cases a with
  | call k item =>
    refine ⟨?_, ?_, h.rings, fun c hc => ?_⟩
    · simpa [State.next, Push.reserved] using h.queued
    · simpa [State.next, Push.admitted] using h.limit
    · rcases List.mem_append.1 hc with hc | hc
      · exact h.calls c hc
      · rw [List.mem_singleton.1 hc]
        exact hok
  | push i => exact h.push i
  | work timeout => exact h.work timeout

theorem start : Books m {} where
  queued := by simp [Worker.inRings, Loop.inHand, packetsOf]
  limit := by simp [Worker.inRings, Loop.inHand, packetsOf]
  rings _ := Nat.zero_le _
  calls := by simp

end Books

theorem books {acts : List Act} (h : (machine m).Legal {} acts) :
    Books m ((machine m).exec {} acts) :=
  Machine.invariant (fun _ _ hs hok => hs.next hok) .start h

/-- **The counter is exact**, whatever the order of steps: it is what the rings hold, what is in
hand and what the calls under way have reserved. So what a step takes off it is there, and what is
let in stays within the limit. -/
theorem queued_exact {acts : List Act} (h : (machine m).Legal {} acts) :
    let s := (machine m).exec {} acts
    s.worker.queued = s.worker.inRings m + s.loop.inHand + (s.calls.map Push.reserved).sum ∧
      s.worker.inRings m + s.loop.inHand ≤ m.queueLimit ∧
      (∀ k, (s.worker.inbox k).length ≤ m.capacity k) ∧
      s.loop.inHand ≤ s.worker.queued ∧ ∀ c ∈ s.calls, c.reserved ≤ s.worker.queued := by
  intro s
  have hb : Books m s := books h
  have hq := hb.queued
  refine ⟨hq, ?_, hb.rings, by omega, fun c hc => ?_⟩
  · have := hb.limit
    omega
  · have hle := List.single_le_sum (by simp) c.reserved (List.mem_map_of_mem hc (f := Push.reserved))
    omega

/-! ## Once, and in order -/

/-- What has been put into the rings and what has been processed. -/
structure History where
  pushed : List (Nat × Item) := []
  processed : List (Nat × Item) := []

def note (m : Media) (h : History) (s : State) : Act → History
  | .push i =>
    match s.calls[i]? with
    | some (.ring k item) =>
      if (s.worker.inbox k).length < m.capacity k then { h with pushed := h.pushed ++ [(k, item)] }
      else h
    | _ => h
  | .work _ =>
    match s.loop with
    | .process k item _ _ => { h with processed := h.processed ++ [(k, item)] }
    | _ => h
  | .call _ _ => h

/-- What went through ring `k`. -/
def through (k : Nat) (l : List (Nat × Item)) : List Item := (l.filter (·.1 = k)).map (·.2)

@[simp] theorem through_nil (k : Nat) : through k [] = [] := rfl

@[simp] theorem through_append (k : Nat) (l l' : List (Nat × Item)) :
    through k (l ++ l') = through k l ++ through k l' := by simp [through]

@[simp] theorem through_self (k : Nat) (x : Item) : through k [(k, x)] = [x] := by simp [through]

theorem through_of_ne {j k : Nat} (h : j ≠ k) (x : Item) : through k [(j, x)] = [] := by
  simp [through, h]

/-- The item in hand, with its ring. -/
def Loop.hand : Loop → List (Nat × Item)
  | .process k item _ _ => [(k, item)]
  | _ => []

/-- What a call has put into its ring. -/
def Push.put : Push → Multiset (Nat × Item)
  | .look k item => {(k, item)}
  | .unpark k item => {(k, item)}
  | .done k item true => {(k, item)}
  | _ => 0

structure Orderly (s : State) (h : History) : Prop where
  order : ∀ k, through k h.pushed = through k h.processed ++ through k s.loop.hand ++ s.worker.inbox k
  calls : (h.pushed : Multiset (Nat × Item)) = (s.calls.map Push.put).sum

namespace Orderly

variable {h : History}

theorem push (ho : Orderly s h) (i : Nat) : Orderly (s.push m i) (note m h s (.push i)) := by
  obtain ⟨horder, hcalls⟩ := ho
  cases hi : s.calls[i]? with
  | none =>
    rw [State.push_none hi]
    simp only [note, hi]
    exact ⟨horder, hcalls⟩
  | some c =>
    have hput := Tally.sum_map_set Push.put hi (s.worker.push m c).2
    rw [State.push_some hi]
    -- Only a step that puts an item into its ring changes anything.
    have hstill : ∀ {w : Worker} {d : Push}, w.inbox = s.worker.inbox → d.put = c.put →
        Orderly ⟨w, s.loop, s.calls.set i d⟩ h := by
      intro w d hin hd
      have hsum := Tally.sum_map_set Push.put hi d
      rw [hd] at hsum
      exact ⟨fun k => by simp only [hin, horder], by rw [hcalls, add_right_cancel hsum]⟩
    cases c with
    | reserve k item =>
      simp only [note, hi, Worker.push]
      split_ifs
      · exact hstill rfl rfl
      · exact hstill rfl rfl
    | ring k item =>
      simp only [note, hi, Worker.push] at hput ⊢
      split_ifs at hput ⊢ with hroom
      · refine ⟨fun j => ?_, ?_⟩
        · by_cases hj : k = j
          · subst hj
            simp [Worker.ringPut, horder]
          · simp [Worker.ringPut, through_of_ne hj, Ne.symm hj, horder]
        · simp only [Push.put, add_zero] at hput
          rw [hput, ← hcalls]
          rfl
      · exact hstill rfl rfl
    | undo k item =>
      simp only [note, hi]
      exact hstill rfl rfl
    | look k item =>
      simp only [note, hi, Worker.push]
      split_ifs
      · exact hstill rfl rfl
      · exact hstill rfl rfl
    | unpark k item =>
      simp only [note, hi]
      exact hstill rfl rfl
    | done k item ok =>
      simp only [note, hi]
      exact hstill rfl rfl

theorem work (ho : Orderly s h) (timeout : Bool) :
    Orderly (s.work m timeout) (note m h s (.work timeout)) := by
  obtain ⟨horder, hcalls⟩ := ho
  refine ⟨fun j => ?_, ?_⟩
  · have hj := horder j
    rw [State.work, note]
    cases hloop : s.loop with
    | start => simpa [hloop, Worker.work, Loop.hand] using hj
    | pop k did idle =>
      simp only [hloop, Worker.work, Loop.hand] at hj ⊢
      split_ifs
      · cases hin : s.worker.inbox k with
        | nil => simpa [Loop.hand] using hj
        | cons x xs =>
          by_cases hk : k = j
          · subst hk
            rw [hj, hin]
            simp
          · simp [hj, through_of_ne hk, Ne.symm hk]
      · simpa [Loop.hand] using hj
    | process k item did idle =>
      simp only [hloop, Worker.work, Loop.hand] at hj ⊢
      rw [hj]
      simp [through]
    | turn did idle =>
      simp only [hloop, Worker.work, Loop.hand] at hj ⊢
      split_ifs <;> simpa [Loop.hand] using hj
    | sleep => simpa [hloop, Worker.work, Loop.hand] using hj
    | look k =>
      simp only [hloop, Worker.work, Loop.hand] at hj ⊢
      split_ifs <;> simpa [Loop.hand] using hj
    | park =>
      simp only [hloop, Worker.work, Loop.hand] at hj ⊢
      split_ifs <;> simpa [Loop.hand] using hj
    | parked =>
      simp only [hloop, Worker.work, Loop.hand] at hj ⊢
      split_ifs <;> simpa [Loop.hand] using hj
    | wake => simpa [hloop, Worker.work, Loop.hand] using hj
  · have hpushed : (note m h s (.work timeout)).pushed = h.pushed := by
      simp only [note]
      split <;> rfl
    rw [hpushed]
    exact hcalls

theorem next (ho : Orderly s h) (a : Act) : Orderly (s.next m a) (note m h s a) := by
  cases a with
  | call k item =>
    refine ⟨ho.order, ?_⟩
    rw [State.next, note, ho.calls]
    simp [Push.put]
  | push i => exact ho.push i
  | work timeout => exact ho.work timeout

end Orderly

/-- **Once, and in order**: in each ring, what has been put into it is what has been processed, then
what is in hand, then what it holds; and what has been put into the rings are the items of the calls
that are past that point, the ones that answer `true`. -/
theorem pushed_once (acts : List Act) :
    let sh := ((machine m).logged (note m)).exec ({}, {}) acts
    (∀ k, through k sh.2.pushed =
      through k sh.2.processed ++ through k sh.1.loop.hand ++ sh.1.worker.inbox k) ∧
    (sh.2.pushed : Multiset (Nat × Item)) = (sh.1.calls.map Push.put).sum := by
  have hinv : ∀ (acts : List Act) (sh : State × History), Orderly sh.1 sh.2 →
      Orderly (((machine m).logged (note m)).exec sh acts).1
        (((machine m).logged (note m)).exec sh acts).2 := by
    intro acts
    induction acts with
    | nil => exact fun sh h => h
    | cons a acts ih => exact fun sh h => ih _ (h.next a)
  have h := hinv acts ({}, {}) ⟨fun k => by simp [through, Loop.hand], by simp⟩
  exact ⟨h.order, h.calls⟩

/-! ## No wake-up is lost -/

/-- The call has put its item into the ring and may still set the token. -/
def Push.waking : Push → Bool
  | .look _ _ | .unpark _ _ => true
  | _ => false

def Push.isDone : Push → Bool
  | .done _ _ _ => true
  | _ => false

/-- How many rings the worker thread has found empty since it set `sleeping`. -/
def Loop.seen (m : Media) : Loop → Nat
  | .look k => k
  | .park | .parked => m.rings
  | _ => 0

/-- The stretch of `worker_loop` over which `sleeping` is set. -/
def Loop.asleep : Loop → Bool
  | .look _ | .park | .parked | .wake => true
  | _ => false

def Loop.started : Loop → Bool
  | .start => false
  | _ => true

/-- What keeps a wake-up from being lost: a ring that fills up behind the worker's back does so
before its call reads `sleeping`. -/
structure Awake (m : Media) (s : State) : Prop where
  thread : s.loop.started → s.worker.thread
  sleeping : s.loop.asleep → s.worker.sleeping
  waking : ∀ k < s.loop.seen m, s.worker.inbox k ≠ [] →
    s.worker.token ∨ ∃ c ∈ s.calls, c.waking

namespace Awake

theorem seen_asleep {loop : Loop} {k : Nat} (h : k < loop.seen m) : loop.asleep ∧ loop.started := by
  cases loop <;> simp [Loop.seen, Loop.asleep, Loop.started] at h ⊢

theorem push (h : Awake m s) (i : Nat) : Awake m (s.push m i) := by
  cases hi : s.calls[i]? with
  | none =>
    rw [State.push_none hi]
    exact h
  | some c =>
    rw [State.push_some hi]
    obtain ⟨hthread, hsleep, hwake⟩ := h
    have hlt := (List.getElem?_eq_some_iff.1 hi).1
    have hmem : ∀ d, d ∈ s.calls.set i d := fun d => List.mem_set hlt d
    -- A call that was not waking is not missed.
    have hkeep : ∀ d, c.waking = false → (∃ e ∈ s.calls, e.waking) →
        ∃ e ∈ s.calls.set i d, e.waking := by
      intro d hc he
      obtain ⟨e, he, hw⟩ := he
      obtain ⟨j, hj⟩ := List.mem_iff_getElem?.1 he
      have hij : i ≠ j := by
        rintro rfl
        rw [hi] at hj
        rw [Option.some.inj hj, hw] at hc
        exact absurd hc (by simp)
      exact ⟨e, List.mem_iff_getElem?.2 ⟨j, by rw [List.getElem?_set_ne hij]; exact hj⟩, hw⟩
    cases c with
    | reserve k item =>
      exact ⟨hthread, hsleep, fun j hj hne => (hwake j hj hne).imp_right (hkeep _ rfl)⟩
    | ring k item =>
      simp only [Worker.push]
      split_ifs
      · exact ⟨hthread, hsleep, fun j hj _ => .inr ⟨_, hmem _, rfl⟩⟩
      · exact ⟨hthread, hsleep, fun j hj hne => (hwake j hj hne).imp_right (hkeep _ rfl)⟩
    | undo k item =>
      exact ⟨hthread, hsleep, fun j hj hne => (hwake j hj hne).imp_right (hkeep _ rfl)⟩
    | look k item =>
      refine ⟨hthread, hsleep, fun j hj _ => .inr ⟨_, hmem _, ?_⟩⟩
      have hs : s.worker.sleeping = true := hsleep (seen_asleep hj).1
      simp [Worker.push, hs, Push.waking]
    | unpark k item =>
      refine ⟨hthread, hsleep, fun j hj _ => .inl ?_⟩
      have ht : s.worker.thread = true := hthread (seen_asleep hj).2
      simp [Worker.push, ht]
    | done k item ok =>
      exact ⟨hthread, hsleep, fun j hj hne => (hwake j hj hne).imp_right (hkeep _ rfl)⟩

theorem work (h : Awake m s) (timeout : Bool) : Awake m (s.work m timeout) := by
  obtain ⟨hthread, hsleep, hwake⟩ := h
  rw [State.work]
  cases hloop : s.loop with
  | start => exact ⟨fun _ => rfl, by simp [Worker.work, Loop.asleep], by simp [Worker.work, Loop.seen]⟩
  | pop k did idle =>
    rw [hloop] at hthread
    simp only [Worker.work]
    split_ifs
    · cases s.worker.inbox k with
      | nil => exact ⟨fun _ => hthread rfl, by simp [Loop.asleep], by simp [Loop.seen]⟩
      | cons x xs => exact ⟨fun _ => hthread rfl, by simp [Loop.asleep], by simp [Loop.seen]⟩
    · exact ⟨fun _ => hthread rfl, by simp [Loop.asleep], by simp [Loop.seen]⟩
  | process k item did idle =>
    rw [hloop] at hthread
    exact ⟨fun _ => hthread rfl, by simp [Worker.work, Loop.asleep], by simp [Worker.work, Loop.seen]⟩
  | turn did idle =>
    rw [hloop] at hthread
    simp only [Worker.work]
    split_ifs
    all_goals exact ⟨fun _ => hthread rfl, by simp [Loop.asleep], by simp [Loop.seen]⟩
  | sleep =>
    rw [hloop] at hthread
    exact ⟨fun _ => hthread rfl, fun _ => rfl, by simp [Worker.work, Loop.seen]⟩
  | look k =>
    rw [hloop] at hthread hsleep hwake
    simp only [Worker.work]
    split_ifs with hk hempty
    · refine ⟨fun _ => hthread rfl, fun _ => hsleep rfl, fun j hj hne => ?_⟩
      rcases Nat.lt_succ_iff_lt_or_eq.1 hj with hj | rfl
      · exact hwake j hj hne
      · exact absurd (List.isEmpty_iff.1 hempty) hne
    · exact ⟨fun _ => hthread rfl, fun _ => hsleep rfl, by simp [Loop.seen]⟩
    · exact ⟨fun _ => hthread rfl, fun _ => hsleep rfl,
        fun j hj hne => hwake j (lt_of_lt_of_le hj (not_lt.1 hk)) hne⟩
  | park =>
    rw [hloop] at hthread hsleep hwake
    simp only [Worker.work]
    split_ifs
    · exact ⟨fun _ => hthread rfl, fun _ => hsleep rfl, by simp [Loop.seen]⟩
    · exact ⟨fun _ => hthread rfl, fun _ => hsleep rfl, hwake⟩
  | parked =>
    rw [hloop] at hthread hsleep hwake
    cases timeout with
    | true =>
      simp only [Worker.work, if_true]
      split_ifs
      all_goals exact ⟨fun _ => hthread rfl, fun _ => hsleep rfl, by simp [Loop.seen]⟩
    | false =>
      simp only [Worker.work, Bool.false_eq_true, if_false]
      split_ifs
      · exact ⟨fun _ => hthread rfl, fun _ => hsleep rfl, by simp [Loop.seen]⟩
      · exact ⟨fun _ => hthread rfl, fun _ => hsleep rfl, hwake⟩
  | wake =>
    rw [hloop] at hthread
    exact ⟨fun _ => hthread rfl, by simp [Worker.work, Loop.asleep], by simp [Worker.work, Loop.seen]⟩

theorem next (h : Awake m s) (a : Act) : Awake m (s.next m a) := by
  cases a with
  | call k item =>
    refine ⟨h.thread, h.sleeping, fun j hj hne => (h.waking j hj hne).imp_right fun he => ?_⟩
    obtain ⟨e, he, hw⟩ := he
    exact ⟨e, List.mem_append_left _ he, hw⟩
  | push i => exact h.push i
  | work timeout => exact h.work timeout

theorem start : Awake m {} := ⟨by simp [Loop.started], by simp [Loop.asleep], by simp [Loop.seen]⟩

end Awake

/-! ## The worker gets to everything -/

/-- There is something to do for the worker thread. -/
def Busy (m : Media) (s : State) : Prop :=
  s.loop.hand ≠ [] ∨ ∃ k < m.rings, (s.worker.inbox k).isEmpty = false

/-- The items in the rings, twice, and the one in hand. -/
def State.load (m : Media) (s : State) : Nat :=
  2 * (∑ k ∈ Finset.range m.rings, (s.worker.inbox k).length) + s.loop.hand.length

/-- How far the worker thread is from the next item, where there is one. -/
def Loop.phase (m : Media) (w : Worker) : Loop → Nat
  | .process _ _ _ _ => 0
  | .pop k _ _ =>
    if ∃ j < m.rings, k ≤ j ∧ (w.inbox j).isEmpty = false then m.rings - k
    else 2 * m.rings + 6 + (m.rings - k)
  | .start | .wake => m.rings + 1
  | .park | .parked => m.rings + 2
  | .look k => m.rings + 3 + (m.rings - k)
  | .sleep => 2 * m.rings + 4
  | .turn _ _ => 2 * m.rings + 5

/-- From the first ring on there is one with an item. -/
theorem phase_first {w : Worker} (did idle : Nat)
    (h : ∃ k < m.rings, (w.inbox k).isEmpty = false) :
    (Loop.pop 0 did idle).phase m w = m.rings := by
  obtain ⟨k, hk, hne⟩ := h
  rw [Loop.phase, if_pos ⟨k, hk, Nat.zero_le k, hne⟩, Nat.sub_zero]

theorem phase_pop {w : Worker} {k : Nat} (did idle : Nat) (hk : k < m.rings)
    (hempty : w.inbox k = []) :
    (Loop.pop (k + 1) did idle).phase m w < (Loop.pop k did idle).phase m w := by
  have hiff : (∃ j < m.rings, k + 1 ≤ j ∧ (w.inbox j).isEmpty = false) ↔
      ∃ j < m.rings, k ≤ j ∧ (w.inbox j).isEmpty = false := by
    refine exists_congr fun j => and_congr_right fun _ => ?_
    refine ⟨fun h => ⟨by omega, h.2⟩, fun h => ⟨?_, h.2⟩⟩
    rcases Nat.lt_or_eq_of_le h.1 with hlt | rfl
    · exact hlt
    · rw [hempty] at h
      exact absurd h.2 (by simp)
  simp only [Loop.phase, hiff]
  split_ifs
  · omega
  · omega

/-- **Each step of the worker thread gets it closer**, as long as no call is under way. -/
theorem Awake.descends (h : Awake m s) (hcalls : ∀ c ∈ s.calls, c.isDone) (hbusy : Busy m s) :
    Prod.Lex (· < ·) (· < ·)
      ((s.work m false).load m, (s.work m false).loop.phase m (s.work m false).worker)
      (s.load m, s.loop.phase m s.worker) := by
  have hnone : ∀ c ∈ s.calls, ¬ c.waking = true := by
    intro c hc
    have := hcalls c hc
    cases c <;> simp [Push.waking, Push.isDone] at this ⊢
  have hrings : s.loop.hand = [] → ∃ k < m.rings, (s.worker.inbox k).isEmpty = false :=
    fun hnil => hbusy.resolve_left (not_not.2 hnil)
  -- With nothing on the way the token is there.
  have htoken : s.loop.hand = [] → s.loop.seen m = m.rings → s.worker.token = true := by
    intro hnil hseen
    obtain ⟨k, hk, hne⟩ := hrings hnil
    refine (h.waking k (hseen ▸ hk) fun he => ?_).resolve_right ?_
    · rw [he] at hne
      exact absurd hne (by simp)
    · rintro ⟨c, hc, hw⟩
      exact hnone c hc hw
  have hstill : ∀ {w : Worker} {loop : Loop}, w.inbox = s.worker.inbox → loop.hand = s.loop.hand →
      loop.phase m w < s.loop.phase m s.worker →
      Prod.Lex (· < ·) (· < ·)
        ((⟨w, loop, s.calls⟩ : State).load m, loop.phase m w) (s.load m, s.loop.phase m s.worker) := by
    intro w loop hin hhand hlt
    have hload : (⟨w, loop, s.calls⟩ : State).load m = s.load m := by
      simp only [State.load, hin, hhand]
    rw [hload]
    exact .right _ hlt
  rw [State.work]
  cases hloop : s.loop with
  | start =>
    rw [hloop] at hstill hrings
    refine hstill rfl rfl ?_
    exact lt_of_eq_of_lt (phase_first 0 0 (hrings rfl)) (Nat.lt_succ_self _)
  | pop k did idle =>
    rw [hloop] at hstill
    simp only [Worker.work]
    split_ifs with hk
    · cases hin : s.worker.inbox k with
      | nil => exact hstill rfl rfl (phase_pop did idle hk hin)
      | cons x xs =>
        refine .left _ _ ?_
        have hsum := Tally.sum_update List.length s.worker.inbox (Finset.mem_range.2 hk) xs
        rw [hin, List.length_cons] at hsum
        simp only [State.load, hloop, Loop.hand, List.length_nil, List.length_cons]
        omega
    · refine hstill rfl rfl ?_
      have hno : ¬ ∃ j < m.rings, k ≤ j ∧ (s.worker.inbox j).isEmpty = false := by
        rintro ⟨j, hj, hkj, -⟩
        omega
      simp only [Loop.phase, if_neg hno]
      omega
  | process k item did idle =>
    refine .left _ _ ?_
    simp only [State.load, hloop, Worker.work, Loop.hand, List.length_nil, List.length_cons]
    omega
  | turn did idle =>
    rw [hloop] at hstill hrings
    simp only [Worker.work]
    split_ifs
    · refine hstill rfl rfl ?_
      rw [phase_first 0 0 (hrings rfl), Loop.phase]
      omega
    · refine hstill rfl rfl ?_
      rw [phase_first 0 _ (hrings rfl), Loop.phase]
      omega
    · refine hstill rfl rfl ?_
      simp only [Loop.phase]
      omega
  | sleep =>
    rw [hloop] at hstill
    refine hstill rfl rfl ?_
    simp only [Worker.work, Loop.phase]
    omega
  | look k =>
    rw [hloop] at hstill
    simp only [Worker.work]
    split_ifs
    all_goals
      refine hstill rfl rfl ?_
      simp only [Loop.phase]
      omega
  | park =>
    rw [hloop] at hstill htoken
    simp only [Worker.work, if_pos (htoken rfl rfl)]
    refine hstill rfl rfl ?_
    simp only [Loop.phase]
    omega
  | parked =>
    rw [hloop] at hstill htoken
    simp only [Worker.work, if_pos (htoken rfl rfl)]
    refine hstill rfl rfl ?_
    simp only [Loop.phase]
    omega
  | wake =>
    rw [hloop] at hstill hrings
    refine hstill rfl rfl ?_
    exact lt_of_eq_of_lt (phase_first 0 0 (hrings rfl)) (Nat.lt_succ_self _)

/-- **No wake-up is lost**: when the calls are over, the worker thread comes to the end of its rings
by its own steps. Neither a timeout nor a later call is needed. -/
theorem worker_drains {acts : List Act} (h : (machine m).Legal {} acts)
    (hcalls : ∀ c ∈ ((machine m).exec {} acts).calls, c.isDone) :
    ∃ n, let s := (machine m).exec {} (acts ++ List.replicate n (.work false))
      s.loop.hand = [] ∧ (∀ k < m.rings, s.worker.inbox k = []) ∧ s.worker.queued = 0 := by
  set s₀ := (machine m).exec {} acts with hs₀
  have hawake : Awake m s₀ := Machine.invariant (fun _ a hs _ => hs.next a) .start h
  let M : Machine State Act := (machine m).restrict fun s a => a = .work false ∧ Busy m s
  have hkeep : ∀ s a, (Awake m s ∧ ∀ c ∈ s.calls, c.isDone) → M.ok s a →
      Awake m (M.next s a) ∧ ∀ c ∈ (M.next s a).calls, c.isDone := by
    rintro s a hs ⟨-, rfl, -⟩
    exact ⟨hs.1.work false, hs.2⟩
  obtain ⟨as, hlegal, hhalt⟩ := Machine.exists_halted (M := M)
    (r := Prod.Lex (· < ·) (· < ·)) (WellFounded.prod_lex wellFounded_lt wellFounded_lt)
    (fun s => (s.load m, s.loop.phase m s.worker)) hkeep
    (by
      rintro s a hs ⟨-, rfl, hbusy⟩
      exact hs.1.descends hs.2 hbusy) ⟨hawake, hcalls⟩
  rw [Machine.restrict_exec] at hhalt
  obtain ⟨hl, hall⟩ := (Machine.restrict_legal _ _ _ _).1 hlegal
  have hrep : as = List.replicate as.length (.work false) := by
    refine List.eq_replicate_iff.2 ⟨rfl, fun a ha => ?_⟩
    obtain ⟨l₁, l₂, heq⟩ := List.append_of_mem ha
    exact (hall l₁ a l₂ heq).1
  refine ⟨as.length, ?_⟩
  have hbooks : Books m ((machine m).exec {} (acts ++ as)) :=
    books (((machine m).legal_append _ _ _).2 ⟨h, hl⟩)
  have hdone : ∀ c ∈ ((machine m).exec s₀ as).calls, c.isDone :=
    by rw [← Machine.restrict_exec]; exact (Machine.invariant hkeep ⟨hawake, hcalls⟩ hlegal).2
  rw [← hrep]
  rw [Machine.exec_append, ← hs₀] at hbooks ⊢
  set s := (machine m).exec s₀ as
  have hidle : ¬ Busy m s := fun hbusy => hhalt (.work false) ⟨trivial, rfl, hbusy⟩
  have hhand : s.loop.hand = [] := by
    by_contra hne
    exact hidle (.inl hne)
  have hempty : ∀ k < m.rings, s.worker.inbox k = [] := by
    intro k hk
    by_contra hne
    exact hidle (.inr ⟨k, hk, by simpa using hne⟩)
  refine ⟨hhand, hempty, ?_⟩
  have hin : s.loop.inHand = 0 := by
    cases hloop : s.loop <;> simp [hloop, Loop.hand, Loop.inHand] at hhand ⊢
  have hrings : s.worker.inRings m = 0 := by
    refine Finset.sum_eq_zero fun k hk => ?_
    rw [hempty k (Finset.mem_range.1 hk)]
    rfl
  have hres : (s.calls.map Push.reserved).sum = 0 := by
    refine List.sum_eq_zero fun x hx => ?_
    obtain ⟨c, hc, rfl⟩ := List.mem_map.1 hx
    have := hdone c hc
    cases c <;> simp [Push.isDone, Push.reserved] at this ⊢
  rw [hbooks.queued, hrings, hin, hres]

end

/-- A packet of the receive thread, pushed while the worker thread starts up. -/
def onePush : List Act :=
  [.call 0 (.input 7 [128] 5), .push 0, .work false, .push 0, .work false, .push 0]

theorem queued_exact_one :
    let s := (machine ⟨1, 6000⟩).exec {} onePush
    s.worker.queued = s.worker.inRings ⟨1, 6000⟩ + s.loop.inHand + (s.calls.map Push.reserved).sum ∧
      s.worker.inRings ⟨1, 6000⟩ + s.loop.inHand ≤ 6000 ∧
      (∀ k, (s.worker.inbox k).length ≤ (⟨1, 6000⟩ : Media).capacity k) ∧
      s.loop.inHand ≤ s.worker.queued ∧ ∀ c ∈ s.calls, c.reserved ≤ s.worker.queued :=
  queued_exact (by decide)

theorem worker_drains_one :
    ∃ n, let s := (machine ⟨1, 6000⟩).exec {} (onePush ++ List.replicate n (.work false))
      s.loop.hand = [] ∧ (∀ k < 3, s.worker.inbox k = []) ∧ s.worker.queued = 0 :=
  worker_drains (m := ⟨1, 6000⟩) (by decide) (by decide)

end OxlensSfu.Rt
