import OxlensSfu.Lib.Machine
import OxlensSfu.Sub.Table

/-!
# The load of the workers

A transport is bound to a worker for life. The worker counts the transports it has, those that
publish and those that only subscribe apart, and a new transport goes to the one with the smallest
count (`pick_worker` and `release_worker` of `crates/oxsfud/src/fwd/rt.rs`). The count is raised in
`new_transport` and lowered by `reap` (`gc/mod.rs`), which is reached from the departure from the
last room and from an eviction. An eviction that gets its peer out of all its rooms has reaped it
by then and reaps it once more.

Whether a departure finds the room and the user in its roster is an input.

* **`workers_balanced`** — the counts are right, and the worker picked is one with the smallest
  load, as long as a peer that is reaped twice has its workers to itself.
* **`eviction_unbalances`** — an eviction takes the other peer of a worker off its count.
-/

namespace OxlensSfu.Load

open OxlensSfu.Sub (PcMode)

inductive Role where
  | publish
  | subscribe
  | both
  deriving DecidableEq, Repr

structure Worker where
  pubs : Nat := 0
  subs : Nat := 0
  deriving DecidableEq, Repr

structure Transport where
  role : Role
  worker : Nat
  closed : Bool := false
  deriving DecidableEq, Repr

/-- The transport is counted as publishing. -/
def Transport.publishes (t : Transport) : Bool := t.role ≠ .subscribe

/-- With one connection for both ways there is no `subscribe` of its own. -/
structure Peer where
  publish : Transport
  subscribe : Option Transport
  rooms : List String := []
  registered : Bool := true
  deriving DecidableEq, Repr

def Peer.transports (p : Peer) : List Transport := p.publish :: p.subscribe.toList

/-- The transports are closed, and the registration ends. -/
def Peer.shut (p : Peer) : Peer :=
  { p with
    publish := { p.publish with closed := true }
    subscribe := p.subscribe.map ({ · with closed := true })
    registered := false }

/-- The open transports of the peer on a worker. -/
def Peer.own (p : Peer) (publish : Bool) (w : Nat) : Nat :=
  p.transports.countP fun t => !t.closed && t.publishes == publish && t.worker == w

structure State where
  workers : List Worker
  peers : List Peer := []
  deriving DecidableEq, Repr

/-! ## Workers -/

def Worker.count (x : Worker) (publish : Bool) : Nat := if publish then x.pubs else x.subs

def Worker.alter (x : Worker) (publish : Bool) (f : Nat → Nat) : Worker :=
  if publish then { x with pubs := f x.pubs } else { x with subs := f x.subs }

def counter (ws : List Worker) (publish : Bool) (w : Nat) : Nat :=
  (ws[w]?.map (·.count publish)).getD 0

/-- The first worker with the smallest count, which goes up. -/
def pickWorker (ws : List Worker) (publish : Bool) : Nat × List Worker :=
  let w := ((List.range ws.length).argmin (counter ws publish)).getD 0
  (w, ws.modify w (·.alter publish (· + 1)))

/-- The count goes down, and stays where it is at 0. -/
def releaseWorker (ws : List Worker) (w : Nat) (publish : Bool) : List Worker :=
  ws.modify w (·.alter publish (· - 1))

/-! ## Peers -/

namespace State

def newPeer (s : State) : PcMode → State
  | .one =>
    let (w, ws) := pickWorker s.workers true
    ⟨ws, s.peers ++ [{ publish := { role := .both, worker := w }, subscribe := none }]⟩
  | .two =>
    let (w, ws) := pickWorker s.workers true
    let (v, ws) := pickWorker ws false
    ⟨ws, s.peers ++ [{
      publish := { role := .publish, worker := w }
      subscribe := some { role := .subscribe, worker := v } }]⟩

def onPeer (s : State) (p : Nat) (f : Peer → Peer) : State :=
  { s with peers := s.peers.modify p f }

/-- `gc::reap`: the transports are closed, and the first of them is taken for the publishing one. -/
def reap (s : State) (p : Nat) : State :=
  match s.peers[p]? with
  | none => s
  | some q =>
    { s.onPeer p Peer.shut with
      workers := q.transports.zipIdx.foldl (fun ws t => releaseWorker ws t.1.worker (t.2 = 0))
        s.workers }

def inRooms (s : State) (p : Nat) : List String := (s.peers[p]?.map (·.rooms)).getD []

/-- The room is taken off the peer, and the peer is reaped with its last one. -/
def dropRoom (s : State) (p : Nat) (rid : String) : State :=
  let s := s.onPeer p fun q => { q with rooms := q.rooms.erase rid }
  if s.inRooms p = [] then s.reap p else s

/-- `gc::leave`. -/
def leave (s : State) (p : Nat) (rid : String) (found : Bool) : State :=
  if found then s.dropRoom p rid else s

/-- `gc::evict`, from a join of another session, `session_gone` and `home_lost`. -/
def evict (s : State) (p : Nat) (found : String → Bool) : State :=
  ((s.inRooms p).foldl (fun s rid => s.leave p rid (found rid)) s).reap p

end State

inductive Act where
  | newPeer (mode : PcMode)
  | enter (p : Nat) (rid : String)
  /-- The table has no room: the entry is taken back. -/
  | backOut (p : Nat) (rid : String)
  | leave (p : Nat) (rid : String) (found : Bool)
  | evict (p : Nat) (found : String → Bool)

namespace State

def next (s : State) : Act → State
  | .newPeer mode => s.newPeer mode
  | .enter p rid => s.onPeer p fun q => { q with rooms := q.rooms.insert rid }
  | .backOut p rid => s.dropRoom p rid
  | .leave p rid found => s.leave p rid found
  | .evict p found => s.evict p found

def isRegistered (s : State) (p : Nat) : Bool := s.peers[p]?.any (·.registered)

/-- The transports that a worker really has. -/
def load (s : State) (publish : Bool) (w : Nat) : Nat := (s.peers.map (·.own publish w)).sum

/-- The eviction gets its peer out of all its rooms, one at least. -/
def Empties (s : State) (p : Nat) (found : String → Bool) : Prop :=
  s.inRooms p ≠ [] ∧ ∀ rid ∈ s.inRooms p, found rid

/-- No worker of the peer has another transport of that kind. -/
def Alone (s : State) (p : Nat) : Prop :=
  ∀ q ∈ s.peers[p]?, ∀ t ∈ q.transports, s.load t.publishes t.worker = 1

/-- A peer that will be reaped twice has its workers to itself. -/
def Fair (s : State) : Act → Prop
  | .evict p found => s.Empties p found → s.Alone p
  | .newPeer _ | .enter _ _ | .backOut _ _ | .leave _ _ _ => True

instance (s : State) : (a : Act) → Decidable (s.Fair a)
  | .evict p found => inferInstanceAs (Decidable
      (s.inRooms p ≠ [] ∧ (∀ rid ∈ s.inRooms p, found rid = true) →
        ∀ q ∈ s.peers[p]?, ∀ t ∈ q.transports, s.load t.publishes t.worker = 1))
  | .newPeer _ | .enter _ _ | .backOut _ _ | .leave _ _ _ => .isTrue trivial

/-- Every count is the load of its worker, and the next transport goes to a worker with the
smallest load. -/
structure Balanced (s : State) : Prop where
  counts : ∀ publish, ∀ w < s.workers.length, counter s.workers publish w = s.load publish w
  least : ∀ publish, ∀ w < s.workers.length,
    s.load publish (pickWorker s.workers publish).1 ≤ s.load publish w

end State

/-- One event after another. A request finds registered peers only. -/
def machine : Machine State Act where
  ok s
    | .newPeer _ => True
    | .enter p _ | .backOut p _ | .leave p _ _ | .evict p _ => s.isRegistered p
  next := State.next

instance (s : State) : (a : Act) → Decidable (machine.ok s a)
  | .newPeer _ => .isTrue trivial
  | .enter p _ | .backOut p _ | .leave p _ _ | .evict p _ =>
    inferInstanceAs (Decidable (s.isRegistered p = true))

/-- A server with `n` workers. -/
def start (n : Nat) : State := { workers := List.replicate n {} }

/-! ## Counts -/

theorem counter_modify (ws : List Worker) (w : Nat) (k : Bool) (f : Nat → Nat) (k' : Bool)
    {w' : Nat} (hw : w' < ws.length) : counter (ws.modify w (·.alter k f)) k' w' =
      if w = w' ∧ k = k' then f (counter ws k' w') else counter ws k' w' := by
  rw [counter, counter, List.getElem?_modify, List.getElem?_eq_getElem hw]
  by_cases h : w = w'
  · cases k <;> cases k' <;> simp [h, Worker.alter, Worker.count]
  · simp [h]

/-- The worker picked has the smallest count. -/
theorem pickWorker_least (ws : List Worker) (k : Bool) {w : Nat} (hw : w < ws.length) :
    (pickWorker ws k).1 < ws.length ∧ counter ws k (pickWorker ws k).1 ≤ counter ws k w := by
  cases h : (List.range ws.length).argmin (counter ws k) with
  | none =>
    rw [List.argmin_eq_none, List.range_eq_nil] at h
    omega
  | some v =>
    have hv : (pickWorker ws k).1 = v := by rw [pickWorker, h]; rfl
    rw [hv]
    exact ⟨List.mem_range.1 (List.argmin_mem h),
      List.le_of_mem_argmin (List.mem_range.2 hw) h⟩

/-! ## Loads -/

theorem sum_map_modify {α : Type*} (g : α → Nat) (f : α → α) {l : List α} {i : Nat} {a : α}
    (h : l[i]? = some a) : ((l.modify i f).map g).sum + g a = (l.map g).sum + g (f a) := by
  induction l generalizing i with
  | nil => simp at h
  | cons b l ih =>
    cases i with
    | zero =>
      obtain rfl : b = a := by simpa using h
      simp only [List.modify_zero_cons, List.map_cons, List.sum_cons]
      omega
    | succ i =>
      have h := ih (by simpa using h : l[i]? = some a)
      simp only [List.modify_succ_cons, List.map_cons, List.sum_cons]
      omega

/-- The first transport publishes and the second does not, and they are open while the peer is
registered. -/
structure Peer.Shape (q : Peer) : Prop where
  publish : q.publish.publishes = true
  subscribe : ∀ t ∈ q.subscribe, t.publishes = false
  closed : ∀ t ∈ q.transports, t.closed = !q.registered
  rooms : q.rooms.Nodup

/-- What `reap` takes off a worker. -/
def Peer.held (q : Peer) (k : Bool) (w : Nat) : Nat :=
  q.transports.countP fun t => t.publishes == k && t.worker == w

theorem Peer.Shape.own_eq {q : Peer} (h : q.Shape) (k : Bool) (w : Nat) :
    q.own k w = if q.registered then q.held k w else 0 := by
  split_ifs with hr
  · refine List.countP_congr fun t ht => ?_
    rw [h.closed t ht, hr]
    simp
  · refine List.countP_eq_zero.2 fun t ht => ?_
    rw [h.closed t ht, Bool.eq_false_iff.2 hr]
    simp

@[simp] theorem Peer.held_shut (q : Peer) (k : Bool) (w : Nat) : q.shut.held k w = q.held k w := by
  cases hs : q.subscribe with
  | none => simp [Peer.held, Peer.transports, Peer.shut, Transport.publishes, hs, List.countP_cons]
  | some t =>
    simp [Peer.held, Peer.transports, Peer.shut, Transport.publishes, hs, List.countP_cons]

/-- `reap` lowers the counts by what the peer held. -/
theorem Peer.Shape.counter_release {q : Peer} (h : q.Shape) (ws : List Worker) (k : Bool) {w : Nat}
    (hw : w < ws.length) :
    counter (q.transports.zipIdx.foldl (fun ws t => releaseWorker ws t.1.worker (t.2 = 0)) ws) k w =
      counter ws k w - q.held k w := by
  have hfirst : counter (releaseWorker ws q.publish.worker true) k w =
      if q.publish.worker = w ∧ true = k then counter ws k w - 1 else counter ws k w :=
    counter_modify ws _ _ _ _ hw
  cases hs : q.subscribe with
  | none =>
    simp only [Peer.transports, hs, Peer.held]
    show counter (releaseWorker ws q.publish.worker true) k w = _
    rw [hfirst]
    cases k <;> by_cases hp : q.publish.worker = w <;>
      simp [hp, h.publish]
  | some t =>
    have ht : t.publishes = false := h.subscribe t hs
    simp only [Peer.transports, hs, Peer.held]
    show counter (releaseWorker (releaseWorker ws q.publish.worker true) t.worker false) k w = _
    rw [releaseWorker, counter_modify _ _ _ _ _ (by simpa [releaseWorker] using hw), hfirst]
    cases k <;> by_cases hp : q.publish.worker = w <;> by_cases hq : t.worker = w <;>
      simp [hp, hq, h.publish, ht]

/-! ## One step -/

namespace State

/-- Every count is the load of its worker, and the peers have their shape. -/
structure Inv (s : State) : Prop where
  counts : ∀ k, ∀ w < s.workers.length, counter s.workers k w = s.load k w
  shape : ∀ q ∈ s.peers, q.Shape

theorem load_modify {s : State} {p : Nat} {q : Peer} (hp : s.peers[p]? = some q) (f : Peer → Peer)
    (k : Bool) (w : Nat) : (s.onPeer p f).load k w + q.own k w = s.load k w + (f q).own k w :=
  sum_map_modify _ f hp

theorem shape_onPeer {s : State} (h : ∀ q ∈ s.peers, q.Shape) {p : Nat} {f : Peer → Peer}
    (hf : ∀ q, s.peers[p]? = some q → (f q).Shape) : ∀ q ∈ (s.onPeer p f).peers, q.Shape := by
  intro q hq
  obtain ⟨i, hi⟩ := List.mem_iff_getElem?.1 hq
  rw [onPeer, List.getElem?_modify] at hi
  by_cases hip : p = i
  · subst hip
    obtain ⟨q', hq', rfl⟩ := Option.map_eq_some_iff.1 (by simpa using hi)
    exact hf q' hq'
  · simp only [hip, if_false, Option.map_eq_map, Option.map_id'] at hi
    exact h q (List.mem_of_getElem? hi)

/-- A change to the rooms of a peer. -/
theorem Inv.rooms {s : State} (h : s.Inv) (p : Nat) {f : List String → List String}
    (hf : ∀ l : List String, l.Nodup → (f l).Nodup) :
    (s.onPeer p fun q => { q with rooms := f q.rooms }).Inv := by
  refine ⟨?_, ?_⟩
  · intro k w hw
    refine (h.counts k w hw).trans ?_
    cases hp : s.peers[p]? with
    | none =>
      rw [onPeer, List.modify_eq_self (List.getElem?_eq_none_iff.1 hp)]
    | some q =>
      have hload := load_modify hp (fun q => { q with rooms := f q.rooms }) k w
      have hown : Peer.own { q with rooms := f q.rooms } k w = q.own k w := rfl
      omega
  · refine shape_onPeer h.shape ?_
    intro q hq
    have hs := h.shape q (List.mem_of_getElem? hq)
    exact ⟨hs.publish, hs.subscribe, hs.closed, hf q.rooms hs.rooms⟩

theorem reap_eq {s : State} {p : Nat} {q : Peer} (hp : s.peers[p]? = some q) :
    s.reap p = { s.onPeer p Peer.shut with
      workers := q.transports.zipIdx.foldl (fun ws t => releaseWorker ws t.1.worker (t.2 = 0))
        s.workers } := by
  simp only [reap, hp]

theorem length_workers_reap (s : State) (p : Nat) :
    (s.reap p).workers.length = s.workers.length := by
  rw [reap]
  split
  · rfl
  · have hfold : ∀ (l : List (Transport × Nat)) (ws : List Worker),
        (l.foldl (fun ws t => releaseWorker ws t.1.worker (t.2 = 0)) ws).length = ws.length := by
      intro l
      induction l with
      | nil => intro ws; rfl
      | cons t l ih => intro ws; rw [List.foldl_cons, ih, releaseWorker, List.length_modify]
    exact hfold _ _

theorem shape_shut {q : Peer} (h : q.Shape) : q.shut.Shape where
  publish := h.publish
  subscribe t ht := by
    obtain ⟨t', ht', rfl⟩ := Option.map_eq_some_iff.1 ht
    exact h.subscribe t' ht'
  closed t ht := by
    rcases List.mem_cons.1 ht with rfl | ht
    · rfl
    · obtain ⟨t', -, rfl⟩ := Option.map_eq_some_iff.1 (Option.mem_toList.1 ht)
      rfl
  rooms := h.rooms

/-- `reap` on a peer, from what it makes of the counts. -/
theorem Inv.reap_of {s : State} (h : s.Inv) {p : Nat} {q : Peer} (hp : s.peers[p]? = some q)
    (hcount : ∀ k, ∀ w < s.workers.length, s.load k w - q.held k w = s.load k w - q.own k w) :
    (s.reap p).Inv ∧ ∀ k w, (s.reap p).load k w = s.load k w - q.own k w := by
  have hshape := h.shape q (List.mem_of_getElem? hp)
  have hown : ∀ k w, q.shut.own k w = 0 := fun k w => (shape_shut hshape).own_eq k w
  have hload : ∀ k w, (s.reap p).load k w = s.load k w - q.own k w := by
    intro k w
    have hl : (s.onPeer p Peer.shut).load k w + q.own k w = s.load k w + q.shut.own k w :=
      load_modify hp _ k w
    have hr : (s.reap p).load k w = (s.onPeer p Peer.shut).load k w := by rw [reap_eq hp]; rfl
    rw [hown] at hl
    omega
  refine ⟨⟨?_, ?_⟩, hload⟩
  · intro k w hw
    rw [length_workers_reap] at hw
    have hc : counter (s.reap p).workers k w = counter s.workers k w - q.held k w := by
      rw [reap_eq hp]
      exact hshape.counter_release s.workers k hw
    rw [hc, hload, h.counts k w hw, hcount k w hw]
  · rw [reap_eq hp]
    refine shape_onPeer h.shape ?_
    intro q' hq'
    exact shape_shut (h.shape q' (List.mem_of_getElem? hq'))

/-- A registered peer is reaped. -/
theorem Inv.reap {s : State} (h : s.Inv) {p : Nat} {q : Peer} (hp : s.peers[p]? = some q)
    (hr : q.registered = true) :
    (s.reap p).Inv ∧ ∀ k w, (s.reap p).load k w = s.load k w - q.held k w := by
  have hown : ∀ k w, q.own k w = q.held k w := by
    intro k w
    rw [(h.shape q (List.mem_of_getElem? hp)).own_eq, if_pos hr]
  obtain ⟨hinv, hload⟩ := h.reap_of hp fun k w _ => by rw [hown]
  exact ⟨hinv, fun k w => by rw [hload, hown]⟩

theorem getElem?_onPeer {s : State} {p : Nat} {q : Peer} (hp : s.peers[p]? = some q)
    (f : Peer → Peer) : (s.onPeer p f).peers[p]? = some (f q) := by
  rw [onPeer, List.getElem?_modify, hp]
  simp

theorem getElem?_reap {s : State} {p : Nat} {q : Peer} (hp : s.peers[p]? = some q) :
    (s.reap p).peers[p]? = some q.shut := by
  rw [reap_eq hp]
  exact getElem?_onPeer hp _

theorem load_rooms {s : State} {p : Nat} {q : Peer} (hp : s.peers[p]? = some q)
    (f : List String → List String) (k : Bool) (w : Nat) :
    (s.onPeer p fun q => { q with rooms := f q.rooms }).load k w = s.load k w := by
  have hload := load_modify hp (fun q => { q with rooms := f q.rooms }) k w
  have hown : Peer.own { q with rooms := f q.rooms } k w = q.own k w := rfl
  omega

/-- The peer after a departure: still there, with the room gone, or reaped with its last room. -/
theorem Inv.dropRoom {s : State} (h : s.Inv) {p : Nat} {q : Peer} (hp : s.peers[p]? = some q)
    (hr : q.registered = true) (rid : String) :
    (s.dropRoom p rid).Inv ∧
      if q.rooms.erase rid = [] then
        (s.dropRoom p rid).peers[p]? = some (Peer.shut { q with rooms := [] }) ∧
          ∀ k w, (s.dropRoom p rid).load k w = s.load k w - q.held k w
      else
        (s.dropRoom p rid).peers[p]? = some { q with rooms := q.rooms.erase rid } ∧
          ∀ k w, (s.dropRoom p rid).load k w = s.load k w := by
  have hinv := h.rooms p (f := (·.erase rid)) fun l hl => hl.erase rid
  have hp' := getElem?_onPeer hp fun q => { q with rooms := q.rooms.erase rid }
  have hload := load_rooms hp (·.erase rid)
  have hin : (s.onPeer p fun q => { q with rooms := q.rooms.erase rid }).inRooms p =
      q.rooms.erase rid := by
    rw [inRooms, hp']
    rfl
  rw [State.dropRoom]
  generalize (s.onPeer p fun q => { q with rooms := q.rooms.erase rid }) = t at hinv hp' hload hin
  rw [hin]
  split_ifs with he
  · obtain ⟨hreap, hl⟩ := hinv.reap hp' hr
    refine ⟨hreap, ?_, fun k w => (hl k w).trans (by rw [hload]; rfl)⟩
    rw [getElem?_reap hp', he]
  · exact ⟨hinv, hp', hload⟩

/-- The departures of an eviction. They reap the peer only if they are all there are, and all
succeed. -/
theorem Inv.departures {p : Nat} (found : String → Bool) (l : List String) :
    ∀ {s : State} {q : Peer} {pre : List String}, s.Inv → s.peers[p]? = some q →
      q.registered = true → q.rooms = pre ++ l →
      ∃ s' q', l.foldl (fun s rid => s.leave p rid (found rid)) s = s' ∧ s'.Inv ∧
        s'.peers[p]? = some q' ∧ (q'.registered = true ∨
          (pre = [] ∧ l ≠ [] ∧ ∀ rid ∈ l, found rid) ∧ q'.registered = false ∧
            ∀ k w, q'.held k w = q.held k w ∧ s'.load k w = s.load k w - q.held k w) := by
  induction l with
  | nil =>
    intro s q pre h hp hr _
    exact ⟨s, q, rfl, h, hp, .inl hr⟩
  | cons rid l ih =>
    intro s q pre h hp hr hrooms
    rw [List.foldl_cons, leave]
    by_cases hf : found rid = true
    · rw [if_pos hf]
      have hnodup := (h.shape q (List.mem_of_getElem? hp)).rooms
      have herase : q.rooms.erase rid = pre ++ l := by
        rw [hrooms] at hnodup ⊢
        have hnot : rid ∉ pre := fun hm =>
          (List.nodup_append.1 hnodup).2.2 rid hm rid List.mem_cons_self rfl
        rw [List.erase_append_right _ hnot, List.erase_cons_head]
      obtain ⟨hinv, hcase⟩ := h.dropRoom hp hr rid
      rw [herase] at hcase
      split_ifs at hcase with he
      · -- That was the last room.
        obtain ⟨rfl, rfl⟩ := List.append_eq_nil_iff.1 he
        refine ⟨_, _, rfl, hinv, hcase.1, .inr ⟨⟨rfl, List.cons_ne_nil _ _, ?_⟩, rfl, ?_⟩⟩
        · intro r hr
          rw [List.mem_singleton.1 hr]
          exact hf
        · intro k w
          exact ⟨Peer.held_shut { q with rooms := [] } k w, hcase.2 k w⟩
      · obtain ⟨s', q', heq, hinv', hp', hcase'⟩ := ih hinv hcase.1 hr rfl
        refine ⟨s', q', heq, hinv', hp', hcase'.imp_right ?_⟩
        rintro ⟨⟨hpre, -, hall⟩, hr', hheld⟩
        refine ⟨⟨hpre, List.cons_ne_nil _ _, ?_⟩, hr', fun k w => ?_⟩
        · intro r hr
          rcases List.mem_cons.1 hr with rfl | hr
          · exact hf
          · exact hall r hr
        · rw [← hcase.2 k w]
          exact hheld k w
    · rw [if_neg hf]
      have hrooms' : q.rooms = (pre ++ [rid]) ++ l := by simp [hrooms]
      obtain ⟨s', q', heq, hinv', hp', hcase'⟩ := ih h hp hr hrooms'
      refine ⟨s', q', heq, hinv', hp', hcase'.imp_right ?_⟩
      rintro ⟨⟨hpre, -⟩, -⟩
      simp at hpre

/-- An eviction. -/
theorem Inv.evict {s : State} (h : s.Inv) {p : Nat} (hreg : s.isRegistered p)
    {found : String → Bool} (hfair : s.Empties p found → s.Alone p) : (s.evict p found).Inv := by
  obtain ⟨q, hp, hr⟩ := (Option.any_eq_true _ _).1 hreg
  have hin : s.inRooms p = q.rooms := by rw [inRooms, hp]; rfl
  have hrooms : q.rooms = [] ++ q.rooms := rfl
  obtain ⟨s', q', heq, hinv, hp', hcase⟩ := h.departures found q.rooms hp hr hrooms
  rw [State.evict, hin, heq]
  rcases hcase with hr' | ⟨⟨-, hne, hall⟩, hr', hheld⟩
  · exact (hinv.reap hp' hr').1
  -- It has been reaped already, and nothing is left on its workers to be counted down.
  have halone := hfair ⟨hin ▸ hne, hin ▸ hall⟩ q hp
  refine (hinv.reap_of hp' fun k w _ => ?_).1
  have hown : q'.own k w = 0 := by
    rw [(hinv.shape q' (List.mem_of_getElem? hp')).own_eq, if_neg (by simp [hr'])]
  obtain ⟨hh, hl⟩ := hheld k w
  rw [hown, hh]
  by_cases hpos : 0 < q.held k w
  · obtain ⟨t, ht, htw⟩ := List.countP_pos_iff.1 hpos
    simp only [Bool.and_eq_true, beq_iff_eq] at htw
    have hone := halone t ht
    rw [htw.1, htw.2] at hone
    omega
  · omega

theorem load_append (ws : List Worker) (s : State) (q : Peer) (k : Bool) (w : Nat) :
    load ⟨ws, s.peers ++ [q]⟩ k w = s.load k w + q.own k w := by
  simp [load]

theorem counter_pickWorker (ws : List Worker) (k k' : Bool) {w : Nat} (hw : w < ws.length) :
    counter (pickWorker ws k).2 k' w =
      counter ws k' w + if (pickWorker ws k).1 = w ∧ k = k' then 1 else 0 := by
  show counter (ws.modify (pickWorker ws k).1 _) k' w = _
  rw [counter_modify ws _ _ _ _ hw]
  split_ifs
  · rfl
  · rfl

theorem length_pickWorker (ws : List Worker) (k : Bool) :
    (pickWorker ws k).2.length = ws.length := List.length_modify ..

theorem Inv.newPeer {s : State} (h : s.Inv) (mode : PcMode) : (s.newPeer mode).Inv := by
  cases mode with
  | one =>
    refine ⟨?_, ?_⟩
    · intro k w hw
      have hw' : w < s.workers.length := by simpa [State.newPeer, length_pickWorker] using hw
      refine (counter_pickWorker s.workers true k hw').trans ?_
      rw [State.newPeer, load_append, h.counts k w hw']
      cases k <;> simp [Peer.own, Peer.transports, Transport.publishes, List.countP_singleton]
    · intro q hq
      rcases List.mem_append.1 hq with hq | hq
      · exact h.shape q hq
      · rw [List.mem_singleton.1 hq]
        exact ⟨rfl, by simp, by simp [Peer.transports], List.nodup_nil⟩
  | two =>
    refine ⟨?_, ?_⟩
    · intro k w hw
      have hw' : w < s.workers.length := by simpa [State.newPeer, length_pickWorker] using hw
      have hlen := length_pickWorker s.workers true
      refine (counter_pickWorker (pickWorker s.workers true).2 false k (hlen ▸ hw')).trans ?_
      rw [counter_pickWorker s.workers true k hw', State.newPeer, load_append, h.counts k w hw']
      cases k <;> simp [Peer.own, Peer.transports, Transport.publishes, List.countP_cons]
    · intro q hq
      rcases List.mem_append.1 hq with hq | hq
      · exact h.shape q hq
      · rw [List.mem_singleton.1 hq]
        exact ⟨rfl, by simp [Transport.publishes], by simp [Peer.transports], List.nodup_nil⟩

theorem Inv.next {s : State} {a : Act} (h : s.Inv) (hok : machine.ok s a) (hf : s.Fair a) :
    (s.next a).Inv := by
  cases a with
  | newPeer mode => exact h.newPeer mode
  | enter p rid => exact h.rooms p (f := (·.insert rid)) fun l hl => hl.insert
  | backOut p rid =>
    obtain ⟨q, hp, hr⟩ := (Option.any_eq_true _ _).1 hok
    exact (h.dropRoom hp hr rid).1
  | leave p rid found =>
    obtain ⟨q, hp, hr⟩ := (Option.any_eq_true _ _).1 hok
    rw [State.next, State.leave]
    split_ifs
    · exact (h.dropRoom hp hr rid).1
    · exact h
  | evict p found => exact h.evict hok hf

theorem Inv.balanced {s : State} (h : s.Inv) : s.Balanced := by
  refine ⟨h.counts, ?_⟩
  intro k w hw
  obtain ⟨hlt, hle⟩ := pickWorker_least s.workers k hw
  rw [← h.counts k _ hlt, ← h.counts k w hw]
  exact hle

theorem inv_start (n : Nat) : (start n).Inv := by
  refine ⟨?_, fun q hq => absurd hq List.not_mem_nil⟩
  intro k w hw
  have hget : (start n).workers[w]? = some {} := by
    rw [start, List.getElem?_replicate, if_pos (by simpa [start] using hw)]
  rw [counter, hget]
  cases k <;> rfl

end State

open State

/-- **The counts of the workers are right**, and pick a worker with the smallest load. -/
theorem workers_balanced (n : Nat) (acts : List Act)
    (hrun : (machine.restrict Fair).Legal (start n) acts) :
    (machine.exec (start n) acts).Balanced := by
  refine Inv.balanced ?_
  rw [← Machine.restrict_exec _ Fair]
  exact Machine.invariant (fun s a h hok => h.next hok.1 hok.2) (inv_start n) hrun

/-- Two peers in a room, and the first one's session ends. -/
def goneSession : List Act :=
  [.newPeer .one, .enter 0 "r", .newPeer .one, .enter 1 "r", .evict 0 fun _ => true]

theorem workers_balanced_two_workers : (machine.exec (start 2) goneSession).Balanced :=
  workers_balanced 2 goneSession (by decide)

/-- On one worker, the end of the first session takes the second peer off the count. -/
theorem eviction_unbalances : ¬ ∀ n acts, machine.Legal (start n) acts →
    (machine.exec (start n) acts).Balanced := by
  intro h
  have hrun := h 1 goneSession (by decide)
  exact absurd (hrun.counts true 0 (by decide)) (by decide)

end OxlensSfu.Load
