import OxlensSfu.Lib.Machine
import OxlensSfu.Lib.Slots

/-!
# The sessions of one user at once

A user's calls run lock by lock: `join`, `leave` and `session_gone` of
`crates/oxsfud/src/ops/rooms.rs` with the reclamation of `gc/mod.rs`. Calls of one session come one
after another, calls of different sessions at once. What a call has still to do is a list of
instructions, one for each lock it takes; an instruction may put others before the rest.

Rosters, rooms, limits and the media side answer from outside the model. A user publishes through
the peer that is registered.

* **`no_orphans`** — when a peer is put under the user's name only while none is there and no call
  holds another, every table and open transport is the registered peer's, once no call is in
  progress, and no stream has been dropped by a call that was reclaiming another peer.
* **`overwritten_peer`** — two sessions find no peer and put one each under the name.
-/

namespace OxlensSfu.Sessions

open Std

def maxRooms : Nat := 100

inductive PcMode where
  | one
  | two
  deriving DecidableEq, Repr

structure Peer where
  sid : String
  publish : Nat
  subscribe : Nat
  /-- Each room with the id of the entry. -/
  rooms : TreeMap String String := ∅

namespace Peer

def transports (p : Peer) : List Nat :=
  if p.publish = p.subscribe then [p.publish] else [p.publish, p.subscribe]

@[simp] theorem mem_transports {p : Peer} {tr : Nat} :
    tr ∈ p.transports ↔ tr = p.publish ∨ tr = p.subscribe := by
  rw [transports]
  split_ifs with h
  · simp [h]
  · simp

end Peer

/-- A stream and the peer it was published through. -/
structure Stream where
  trackId : Nat
  peer : Nat
  deriving DecidableEq, Repr

/-- What the calls of the user share. -/
structure Shared where
  /-- The media runtime is started once or never. -/
  media : Bool := true
  /-- Every transport made for the user, closed or not. -/
  transports : List Bool := []
  /-- The tables, each under the id of its transport. -/
  tables : List Nat := []
  /-- Every peer that was made. -/
  heap : List Peer := []
  registered : Option Nat := none
  /-- The contexts of the user's streams, and the one under its name. -/
  ctxs : List (List Stream) := []
  pubs : Option Nat := none
  tracks : Nat := 0
  /-- Every stream that was dropped, with the peer of the call that did. -/
  dropped : List (Nat × Stream) := []

structure JoinReq where
  sid : String
  roomId : String
  joinId : Option String := none
  pcMode : PcMode := .one
  deriving DecidableEq, Repr

/-- One lock of a call. -/
inductive Instr where
  -- `join` and `new_peer`
  | join (q : JoinReq)
  | lookup (q : JoinReq)
  | same (q : JoinReq) (old : Nat)
  | joinId (q : JoinReq) (old : Nat)
  | inRoom (q : JoinReq) (old : Nat)
  | capacity (q : JoinReq)
  | existing (q : JoinReq)
  | limit (q : JoinReq) (p : Nat)
  | newPeer (q : JoinReq)
  | newTransport (q : JoinReq) (publish : Nat)
  | newTable (q : JoinReq) (publish subscribe : Nat)
  | insert (q : JoinReq) (publish subscribe : Nat)
  | table (q : JoinReq) (p : Nat)
  | enter (q : JoinReq) (p : Nat)
  | resync (q : JoinReq) (p : Nat)
  | backOut (q : JoinReq) (p : Nat)
  | isEmpty (p : Nat)
  -- `leave` and `session_gone`
  | leaveReq (roomId : String) (joinId : Option String)
  | joined (roomId : String) (joinId : Option String) (p : Nat)
  | joinedAs (roomId joinId : String) (p : Nat)
  | sessionGone (sid : String)
  -- `gc`
  | evict (p : Nat) (keep : Option String)
  | leave (p : Nat) (roomId : String) (keepRoster : Bool)
  | roster (p : Nat) (roomId : String) (keepRoster : Bool)
  | exit (p : Nat) (roomId : String)
  | last (p : Nat)
  | streams (p : Nat) (all : Bool)
  | taken (p : Nat) (all : Bool) (ctx : Nat)
  | dropStream (p : Nat) (all : Bool) (st : Stream)
  | remove (p : Nat) (st : Stream) (ctx : Nat)
  | reap (p : Nat)
  | forgetPubs (p : Nat)
  | dropTable (p : Nat) (tr : Nat)
  | close (tr : Nat)
  deriving DecidableEq, Repr

/-- What an instruction does to what is shared. -/
inductive Effect where
  | none
  | newTransport
  | newTable (tr : Nat)
  | insert (p : Peer)
  | enter (p : Nat) (roomId joinId : String)
  | exit (p : Nat) (roomId : String)
  | unregister
  | drop (p : Nat) (st : Stream)
  | remove (st : Stream) (ctx : Nat)
  | forgetPubs
  | dropTable (tr : Nat)
  | close (tr : Nat)

/-- What the call is told by the parts outside. -/
structure Told where
  /-- The room is not there or full, the server overloaded, the user not in the roster, or the
  table has no place. -/
  refused : Bool := false
  /-- The stream is full duplex and in the room. -/
  fullHere : Bool := false
  /-- The id of the entry. -/
  randomHex : String := ""
  deriving DecidableEq, Repr

namespace Shared

def rooms (s : Shared) (p : Nat) : TreeMap String String := s.heap[p]?.elim ∅ (·.rooms)

def sid (s : Shared) (p : Nat) : Option String := s.heap[p]?.map (·.sid)

def onPeer (s : Shared) (p : Nat) (f : Peer → Peer) : Shared := { s with heap := s.heap.modify p f }

def apply (s : Shared) : Effect → Shared
  | .none => s
  | .newTransport => { s with transports := s.transports ++ [false] }
  | .newTable tr => { s with tables := tr :: s.tables }
  | .insert p => { s with heap := s.heap ++ [p], registered := some s.heap.length }
  | .enter p rid jid => s.onPeer p fun x => { x with rooms := x.rooms.insert rid jid }
  | .exit p rid => s.onPeer p fun x => { x with rooms := x.rooms.erase rid }
  | .unregister => { s with registered := none }
  | .drop p st => { s with dropped := (p, st) :: s.dropped }
  | .remove st k => { s with ctxs := s.ctxs.modify k (·.filter (·.trackId ≠ st.trackId)) }
  | .forgetPubs => { s with pubs := none }
  | .dropTable tr => { s with tables := s.tables.filter (· ≠ tr) }
  | .close tr => { s with transports := s.transports.set tr true }

/-- One instruction: its effect, and what it puts in its place. -/
def exec (s : Shared) (o : Told) : Instr → Effect × List Instr
  | .join q => (.none, if o.refused then [] else [.lookup q])
  | .lookup q => (.none, match s.registered with
    | some old => [.same q old]
    | none => [.capacity q])
  | .same q old =>
    (.none, [if (s.rooms old).contains q.roomId ∧ s.sid old = some q.sid then .joinId q old
      else .inRoom q old])
  | .joinId q old => (.none, if q.joinId ≠ (s.rooms old)[q.roomId]? then [] else [.inRoom q old])
  | .inRoom q old =>
    (.none, if (s.rooms old).contains q.roomId then [.evict old (some q.roomId), .capacity q]
      else if s.sid old ≠ some q.sid then [.evict old none, .capacity q] else [.capacity q])
  | .capacity q => (.none, if o.refused then [] else [.existing q])
  | .existing q => (.none, match s.registered with
    | some p => [.limit q p]
    | none => [.newPeer q])
  | .limit q p => (.none, if maxRooms ≤ (s.rooms p).size then [] else [.table q p])
  | .newPeer q =>
    if s.media then
      (.newTransport, [match q.pcMode with
        | .one => .newTable q s.transports.length s.transports.length
        | .two => .newTransport q s.transports.length])
    else (.none, [])
  | .newTransport q publish => (.newTransport, [.newTable q publish s.transports.length])
  | .newTable q publish subscribe => (.newTable subscribe, [.insert q publish subscribe])
  | .insert q publish subscribe =>
    (.insert { sid := q.sid, publish, subscribe }, [.table q s.heap.length])
  | .table q p =>
    (.none, if s.heap[p]?.any fun x => x.subscribe ∈ s.tables then [.enter q p] else [])
  | .enter q p => (.enter p q.roomId o.randomHex, [.resync q p])
  | .resync q p => (.none, if o.refused then [.backOut q p] else [])
  | .backOut q p => (.exit p q.roomId, [.isEmpty p])
  | .isEmpty p => (.none, if (s.rooms p).isEmpty then [.reap p] else [])
  | .leaveReq rid jid => (.none, if o.refused then [] else match s.registered with
    | some p => [.joined rid jid p]
    | none => [])
  | .joined rid jid p => (.none, if (s.rooms p).contains rid then
      [jid.elim (.leave p rid false) (.joinedAs rid · p)] else [])
  | .joinedAs rid jid p => (.none, if (s.rooms p)[rid]? = some jid then [.leave p rid false] else [])
  | .sessionGone sid => (.none, match s.registered with
    | some p => if sid = "" ∨ s.sid p = some sid then [.evict p none] else []
    | none => [])
  | .evict p keep =>
    (.none, (s.rooms p).keys.map (fun rid => .leave p rid (keep = some rid)) ++ [.reap p])
  | .leave p rid keep => (.none, if o.refused then [] else [.roster p rid keep])
  | .roster p rid keep => (.none, if keep = false ∧ o.refused then [] else [.exit p rid])
  | .exit p rid => (.exit p rid, [.last p])
  | .last p =>
    (.none, if (s.rooms p).isEmpty then [.streams p true, .reap p] else [.streams p false])
  | .streams p all => (.none, match s.pubs with
    | some k => [.taken p all k]
    | none => [])
  | .taken p all k => (.none, (s.ctxs[k]?.getD []).map (.dropStream p all))
  | .dropStream p all st =>
    if all ∨ o.fullHere then (.drop p st, match s.pubs with
      | some k => [.remove p st k]
      | none => [])
    else (.none, [])
  | .remove _ st k => (.remove st k, [])
  | .reap p =>
    let rest := s.heap[p]?.elim [] fun x => .dropTable p x.subscribe :: x.transports.map .close
    if s.registered = some p then (.unregister, [.streams p true, .forgetPubs p] ++ rest)
    else (.none, [.streams p true] ++ rest)
  | .forgetPubs _ => (.forgetPubs, [])
  | .dropTable _ tr => (.dropTable tr, [])
  | .close tr => (.close tr, [])

/-- A join that is refused at the door leaves no trace. -/
example (s : Shared) (o : Told) (h : o.refused = true) (q : JoinReq) :
    s.exec o (.join q) = (.none, []) := by
  simp only [exec, h, if_true]

/-- A stream is published through the registered peer. -/
def publish (s : Shared) : Shared :=
  match s.registered with
  | none => s
  | some p =>
    match s.pubs with
    | some k =>
      { s with ctxs := s.ctxs.modify k (· ++ [⟨s.tracks, p⟩]), tracks := s.tracks + 1 }
    | none =>
      { s with
        ctxs := s.ctxs ++ [[⟨s.tracks, p⟩]], pubs := some s.ctxs.length, tracks := s.tracks + 1 }

end Shared

structure Thread where
  sid : String
  todo : List Instr
  deriving DecidableEq, Repr

structure World where
  shared : Shared := {}
  threads : List Thread := []

inductive Call where
  | join (roomId : String) (joinId : Option String) (pcMode : PcMode)
  | leave (roomId : String) (joinId : Option String)
  | sessionGone
  deriving DecidableEq, Repr

def Call.start (sid : String) : Call → Instr
  | .join roomId joinId pcMode => .join { sid, roomId, joinId, pcMode }
  | .leave roomId joinId => .leaveReq roomId joinId
  | .sessionGone => .sessionGone sid

inductive Act where
  | call (sid : String) (c : Call)
  | step (i : Nat) (o : Told)
  | publish
  deriving DecidableEq, Repr

/-- The peer that a call holds. -/
def Instr.peer : Instr → Option Nat
  | .same _ p | .joinId _ p | .inRoom _ p | .limit _ p | .table _ p | .enter _ p | .resync _ p
  | .backOut _ p | .isEmpty p | .joined _ _ p | .joinedAs _ _ p | .evict p _ | .leave p _ _
  | .roster p _ _ | .exit p _ | .last p | .streams p _ | .taken p _ _ | .dropStream p _ _
  | .remove p _ _ | .reap p | .forgetPubs p | .dropTable p _ => some p
  | .join _ | .lookup _ | .capacity _ | .existing _ | .newPeer _ | .newTransport _ _
  | .newTable _ _ _ | .insert _ _ _ | .leaveReq _ _ | .sessionGone _ | .close _ => none

def Instr.inserts : Instr → Bool
  | .insert _ _ _ => true
  | _ => false

namespace World

def next (w : World) : Act → World
  | .call sid c => { w with threads := w.threads ++ [⟨sid, [c.start sid]⟩] }
  | .step i o =>
    match w.threads[i]? with
    | some ⟨sid, j :: rest⟩ =>
      let (e, js) := w.shared.exec o j
      ⟨w.shared.apply e, w.threads.set i ⟨sid, js ++ rest⟩⟩
    | _ => w
  | .publish => { w with shared := w.shared.publish }

/-- No call is in progress. -/
def Quiet (w : World) : Prop := ∀ t ∈ w.threads, t.todo = []

instance (w : World) : Decidable w.Quiet := inferInstanceAs (Decidable (∀ _ ∈ _, _))

/-- Whatever is left of the user is the registered peer's, and each call has dropped the streams of
its own peer only. -/
structure Tidy (w : World) : Prop where
  tables : ∀ tr ∈ w.shared.tables, ∃ p x, w.shared.registered = some p ∧
    w.shared.heap[p]? = some x ∧ x.subscribe = tr
  transports : ∀ tr : Nat, w.shared.transports[tr]? = some false → ∃ p x,
    w.shared.registered = some p ∧ w.shared.heap[p]? = some x ∧ tr ∈ x.transports
  dropped : ∀ x ∈ w.shared.dropped, x.2.peer = x.1

/-- No peer is under the user's name, and no call holds one. -/
def Free (w : World) : Prop :=
  w.shared.registered = none ∧ ∀ t ∈ w.threads, ∀ x ∈ t.todo, x.peer = none

instance (w : World) : Decidable w.Free := inferInstanceAs (Decidable (_ ∧ _))

/-- A peer is put under the user's name while no other is in use. -/
def Alone (w : World) : Act → Prop
  | .step i _ => ∀ t ∈ w.threads[i]?, ∀ j ∈ t.todo.head?, j.inserts → w.Free
  | .call _ _ | .publish => True

instance (w : World) : (a : Act) → Decidable (w.Alone a)
  | .step i _ =>
    inferInstanceAs (Decidable (∀ t ∈ w.threads[i]?, ∀ j ∈ t.todo.head?, j.inserts → w.Free))
  | .call _ _ | .publish => .isTrue trivial

end World

/-- The calls of one user. A session makes one call at a time. -/
def machine : Machine World Act where
  ok w
    | .call sid _ => ∀ t ∈ w.threads, t.sid = sid → t.todo = []
    | .step _ _ | .publish => True
  next := World.next

instance (w : World) : (a : Act) → Decidable (machine.ok w a)
  | .call sid _ => inferInstanceAs (Decidable (∀ t ∈ w.threads, t.sid = sid → t.todo = []))
  | .step _ _ | .publish => .isTrue trivial

/-! ## What the instructions of a call hold -/

namespace Instr

/-- The context whose streams are about to be taken. -/
def ctx : Instr → Option Nat
  | .taken _ _ k => some k
  | _ => none

/-- The stream that is about to be dropped. -/
def stream : Instr → Option Stream
  | .dropStream _ _ st => some st
  | _ => none

/-- The transports that are about to be closed, or to be a peer's. -/
def transports : Instr → List Nat
  | .newTransport _ publish => [publish]
  | .newTable _ publish subscribe | .insert _ publish subscribe => [publish, subscribe]
  | .close tr => [tr]
  | _ => []

/-- The table that is about to be removed, or to be a peer's. -/
def table? : Instr → Option Nat
  | .insert _ _ subscribe => some subscribe
  | .dropTable _ tr => some tr
  | _ => none

end Instr

namespace Shared

variable {s : Shared} {o : Told} {i j : Instr}

/-- A call comes to hold a peer by finding it under the name, or by putting it there. -/
theorem exec_peer {p : Nat} (hj : j ∈ (s.exec o i).2) (hp : j.peer = some p) :
    i.peer = some p ∨ s.registered = some p ∨ i.inserts ∧ p = s.heap.length := by
  cases i with
  | joined rid jid p => cases jid <;> grind [exec, Instr.peer, Instr.inserts]
  | _ => grind [exec, Instr.peer, Instr.inserts]

/-- Streams are taken from the context under the name. -/
theorem exec_ctx {k : Nat} (hj : j ∈ (s.exec o i).2) (hk : j.ctx = some k) : s.pubs = some k := by
  cases i with
  | joined rid jid p => cases jid <;> grind [exec, Instr.ctx]
  | _ => grind [exec, Instr.ctx]

/-- A stream is about to be dropped when it was in the context. -/
theorem exec_stream {st : Stream} (hj : j ∈ (s.exec o i).2) (hst : j.stream = some st) :
    ∃ k sts, i.ctx = some k ∧ s.ctxs[k]? = some sts ∧ st ∈ sts := by
  cases i with
  | joined rid jid p => cases jid <;> grind [exec, Instr.ctx, Instr.stream]
  | _ => grind [exec, Instr.ctx, Instr.stream]

/-- What a call has made is not forgotten before a peer has it. -/
theorem exec_transports {tr : Nat} (htr : tr ∈ i.transports) :
    (∃ j ∈ (s.exec o i).2, tr ∈ j.transports) ∨ i.inserts ∨ i = .close tr := by
  cases i with
  | newTransport q publish =>
    exact .inl ⟨_, List.mem_singleton_self _, List.mem_cons.2 (.inl (List.mem_singleton.1 htr))⟩
  | newTable q publish subscribe => exact .inl ⟨_, List.mem_singleton_self _, htr⟩
  | insert q publish subscribe => exact .inr (.inl rfl)
  | close tr' => exact .inr (.inr (congrArg Instr.close (List.mem_singleton.1 htr).symm))
  | _ => exact absurd htr List.not_mem_nil

theorem exec_newTransport (h : (s.exec o i).1 = .newTransport) :
    ∃ j ∈ (s.exec o i).2, s.transports.length ∈ j.transports := by
  cases i with
  | newPeer q =>
    rw [exec] at h ⊢
    split_ifs at h ⊢
    refine ⟨_, List.mem_singleton_self _, ?_⟩
    cases q.pcMode with
    | one => exact List.mem_cons_self
    | two => exact List.mem_cons_self
  | newTransport q publish =>
    exact ⟨_, List.mem_singleton_self _, List.mem_cons_of_mem _ List.mem_cons_self⟩
  | _ => grind [exec]

theorem exec_newTable {tr : Nat} (h : (s.exec o i).1 = .newTable tr) :
    ∃ j ∈ (s.exec o i).2, j.table? = some tr := by
  cases i with
  | newTable q publish subscribe =>
    exact ⟨_, List.mem_singleton_self _, congrArg some (Effect.newTable.inj h)⟩
  | _ => grind [exec]

theorem exec_table {tr : Nat} (htr : i.table? = some tr) :
    i.inserts ∨ (s.exec o i).1 = .dropTable tr := by
  cases i <;> grind [exec, Instr.table?, Instr.inserts]

theorem exec_unregister (h : (s.exec o i).1 = .unregister) :
    ∃ p, i = .reap p ∧ s.registered = some p := by
  cases i <;> grind [exec]

theorem exec_insert {x : Peer} (h : (s.exec o i).1 = .insert x) :
    ∃ q, i = .insert q x.publish x.subscribe := by
  cases i <;> grind [exec]

theorem exec_drop {p : Nat} {st : Stream} (h : (s.exec o i).1 = .drop p st) :
    i.peer = some p ∧ i.stream = some st := by
  cases i <;> grind [exec, Instr.stream, Instr.peer]

theorem exec_inserts (h : i.inserts) : ∃ q publish subscribe, i = .insert q publish subscribe := by
  cases i with
  | insert q publish subscribe => exact ⟨q, publish, subscribe, rfl⟩
  | _ => exact absurd h Bool.false_ne_true

/-- Peers keep their place, their table and their transports. -/
theorem apply_heap {e : Effect} {p : Nat} {x : Peer} (hp : s.heap[p]? = some x) :
    ∃ x', (s.apply e).heap[p]? = some x' ∧ x'.publish = x.publish ∧ x'.subscribe = x.subscribe := by
  cases e with
  | insert y => exact ⟨x, by rw [apply, getElem?_concat, if_neg (slot_ne_length hp), hp], rfl, rfl⟩
  | enter p' rid jid =>
    simp only [apply, onPeer, getElem?_modify_slot, hp]
    split_ifs
    · exact ⟨_, rfl, rfl, rfl⟩
    · exact ⟨x, rfl, rfl, rfl⟩
  | exit p' rid =>
    simp only [apply, onPeer, getElem?_modify_slot, hp]
    split_ifs
    · exact ⟨_, rfl, rfl, rfl⟩
    · exact ⟨x, rfl, rfl, rfl⟩
  | _ => exact ⟨x, hp, rfl, rfl⟩

theorem apply_length {e : Effect} (h : ∀ x, e ≠ .insert x) :
    (s.apply e).heap.length = s.heap.length := by
  cases e with
  | insert x => exact absurd rfl (h x)
  | enter p rid jid => exact List.length_modify _ _ _
  | exit p rid => exact List.length_modify _ _ _
  | _ => rfl

theorem apply_registered {e : Effect} (h : ∀ x, e ≠ .insert x) :
    (s.apply e).registered = s.registered ∨ e = .unregister ∧ (s.apply e).registered = none := by
  cases e with
  | insert x => exact absurd rfl (h x)
  | unregister => exact .inr ⟨rfl, rfl⟩
  | _ => exact .inl rfl

theorem apply_pubs (e : Effect) :
    (s.apply e).pubs = s.pubs ∨ e = .forgetPubs ∧ (s.apply e).pubs = none := by
  cases e with
  | forgetPubs => exact .inr ⟨rfl, rfl⟩
  | _ => exact .inl rfl

/-- Streams are only removed. -/
theorem apply_ctxs {e : Effect} {k : Nat} {sts : List Stream}
    (h : (s.apply e).ctxs[k]? = some sts) : ∃ l, s.ctxs[k]? = some l ∧ sts ⊆ l := by
  cases e with
  | remove st k' =>
    simp only [apply, getElem?_modify_slot] at h
    split_ifs at h
    · obtain ⟨l, hl, rfl⟩ := Option.map_eq_some_iff.1 h
      exact ⟨l, hl, List.filter_sublist.subset⟩
    · exact ⟨sts, h, List.Subset.refl _⟩
  | _ => exact ⟨sts, h, List.Subset.refl _⟩

theorem apply_tables {e : Effect} {tr : Nat} (h : tr ∈ (s.apply e).tables) :
    e = .newTable tr ∨ tr ∈ s.tables ∧ e ≠ .dropTable tr := by
  cases e with
  | newTable tr' =>
    rcases List.mem_cons.1 h with rfl | h
    · exact .inl rfl
    · exact .inr ⟨h, nofun⟩
  | dropTable tr' =>
    obtain ⟨h, hne⟩ := List.mem_filter.1 h
    exact .inr ⟨h, fun e => of_decide_eq_true hne (Effect.dropTable.inj e).symm⟩
  | _ => exact .inr ⟨h, nofun⟩

theorem apply_transports {e : Effect} {tr : Nat} (h : (s.apply e).transports[tr]? = some false) :
    e = .newTransport ∧ tr = s.transports.length ∨
      s.transports[tr]? = some false ∧ e ≠ .close tr := by
  cases e with
  | newTransport =>
    rw [apply, getElem?_concat] at h
    split_ifs at h with he
    · exact .inl ⟨rfl, he⟩
    · exact .inr ⟨h, nofun⟩
  | close tr' =>
    rw [apply, List.getElem?_set] at h
    split_ifs at h with he
    · exact absurd h (by simp)
    · exact .inr ⟨h, fun e => he (Effect.close.inj e)⟩
  | _ => exact .inr ⟨h, nofun⟩

end Shared

/-! ## Every step -/

namespace World

variable {w : World}

/-- A call has still to do this. -/
def Has (w : World) (x : Instr) : Prop := ∃ t ∈ w.threads, x ∈ t.todo

/-- The registered peer has the transport. -/
def Registered (w : World) (f : Peer → Prop) : Prop :=
  ∃ p x, w.shared.registered = some p ∧ w.shared.heap[p]? = some x ∧ f x

structure Inv (w : World) : Prop where
  /-- Only the newest peer is in use. -/
  registered : ∀ p, w.shared.registered = some p → p + 1 = w.shared.heap.length
  held : ∀ x p, w.Has x → x.peer = some p → p + 1 = w.shared.heap.length
  current : ∀ k sts, (w.shared.pubs = some k ∨ ∃ x, w.Has x ∧ x.ctx = some k) →
    w.shared.ctxs[k]? = some sts → ∀ st ∈ sts, st.peer + 1 = w.shared.heap.length
  taken : ∀ x st, w.Has x → x.stream = some st → st.peer + 1 = w.shared.heap.length
  pubs : w.shared.registered = none → w.shared.pubs ≠ none → ∃ p, w.Has (.forgetPubs p)
  tables : ∀ tr ∈ w.shared.tables,
    w.Registered (·.subscribe = tr) ∨ ∃ x, w.Has x ∧ x.table? = some tr
  transports : ∀ tr : Nat, w.shared.transports[tr]? = some false →
    w.Registered (tr ∈ ·.transports) ∨ ∃ x, w.Has x ∧ tr ∈ x.transports
  dropped : ∀ x ∈ w.shared.dropped, x.2.peer = x.1

section Step

variable {i : Nat} {o : Told} {sid : String} {j : Instr} {rest : List Instr}

theorem next_step (hi : w.threads[i]? = some ⟨sid, j :: rest⟩) :
    w.next (.step i o) = ⟨w.shared.apply (w.shared.exec o j).1,
      w.threads.set i ⟨sid, (w.shared.exec o j).2 ++ rest⟩⟩ := by
  simp only [next, hi]

theorem has_of_step (hi : w.threads[i]? = some ⟨sid, j :: rest⟩) {x : Instr}
    (h : (w.next (.step i o)).Has x) : x ∈ (w.shared.exec o j).2 ∨ w.Has x := by
  rw [next_step hi] at h
  obtain ⟨t, ht, hx⟩ := h
  rcases List.mem_or_eq_of_mem_set ht with ht | rfl
  · exact .inr ⟨t, ht, hx⟩
  · refine (List.mem_append.1 hx).imp_right fun hx => ?_
    exact ⟨_, List.mem_of_getElem? hi, List.mem_cons_of_mem j hx⟩

theorem has_new (hi : w.threads[i]? = some ⟨sid, j :: rest⟩) {x : Instr}
    (h : x ∈ (w.shared.exec o j).2) : (w.next (.step i o)).Has x := by
  rw [next_step hi]
  exact ⟨_, List.mem_set (List.getElem?_eq_some_iff.1 hi).1 _, List.mem_append_left rest h⟩

theorem has_keep (hi : w.threads[i]? = some ⟨sid, j :: rest⟩) {x : Instr} (h : w.Has x) :
    x = j ∨ (w.next (.step i o)).Has x := by
  obtain ⟨t, ht, hx⟩ := h
  rw [next_step hi]
  by_cases he : t = ⟨sid, j :: rest⟩
  · subst he
    refine (List.mem_cons.1 hx).imp_right fun hx => ?_
    exact ⟨_, List.mem_set (List.getElem?_eq_some_iff.1 hi).1 _, List.mem_append_right _ hx⟩
  · exact .inr ⟨t, mem_set_slot hi _ ht he, hx⟩

theorem has_head (hi : w.threads[i]? = some ⟨sid, j :: rest⟩) : w.Has j :=
  ⟨_, List.mem_of_getElem? hi, List.mem_cons_self⟩

/-- A peer is put under the name. -/
theorem Inv.insert (h : w.Inv) (hi : w.threads[i]? = some ⟨sid, j :: rest⟩) (hins : j.inserts)
    (hfree : w.Free) : (w.next (.step i o)).Inv := by
  obtain ⟨q, publish, subscribe, rfl⟩ := Shared.exec_inserts hins
  have hnone : ∀ x, w.Has x → x.peer = none := by
    rintro x ⟨t, ht, hx⟩
    exact hfree.2 t ht x hx
  have hpubs : w.shared.pubs = none := by
    by_contra hne
    obtain ⟨p, hp⟩ := h.pubs hfree.1 hne
    exact absurd (hnone _ hp) nofun
  have hhas : ∀ x, (w.next (.step i o)).Has x → x = .table q w.shared.heap.length ∨ w.Has x :=
    fun x hx => (has_of_step hi hx).imp_left List.mem_singleton.1
  have hreg : ∀ {f : Peer → Prop}, f { sid := q.sid, publish, subscribe } →
      (w.next (.step i o)).Registered f := by
    intro f hf
    rw [next_step hi]
    exact ⟨_, _, rfl, by simp [Shared.exec, Shared.apply], hf⟩
  have hnot : ∀ f, ¬ w.Registered f := by
    rintro f ⟨p, x, hp, -⟩
    exact absurd (hfree.1.symm.trans hp) nofun
  refine ⟨?_, ?_, ?_, ?_, ?_, ?_, ?_, ?_⟩
  · rw [next_step hi]
    intro p hp
    simp only [Shared.exec, Shared.apply] at hp ⊢
    simp [← Option.some.inj hp]
  · intro x p hx hp
    rcases hhas x hx with rfl | hx
    · rw [next_step hi]
      simp [Shared.exec, Shared.apply, ← Option.some.inj hp]
    · exact absurd ((hnone x hx).symm.trans hp) nofun
  · intro k sts hk
    rcases hk with hk | ⟨x, hx, hk⟩
    · rw [next_step hi] at hk
      exact absurd (hpubs.symm.trans hk) nofun
    · rcases hhas x hx with rfl | hx
      · exact absurd hk nofun
      · cases x with
        | taken p all k' => exact absurd (hnone _ hx) nofun
        | _ => exact absurd hk nofun
  · intro x st hx hst
    rcases hhas x hx with rfl | hx
    · exact absurd hst nofun
    · cases x with
      | dropStream p all st' => exact absurd (hnone _ hx) nofun
      | _ => exact absurd hst nofun
  · rw [next_step hi]
    exact fun hr => absurd hr nofun
  · intro tr htr
    rw [next_step hi] at htr
    obtain ⟨x, hx, htr⟩ := (h.tables tr htr).resolve_left (hnot _)
    rcases has_keep hi hx with rfl | hx
    · exact .inl (hreg (Option.some.inj htr))
    · exact .inr ⟨x, hx, htr⟩
  · intro tr htr
    rw [next_step hi] at htr
    obtain ⟨x, hx, htr⟩ := (h.transports tr htr).resolve_left (hnot _)
    rcases has_keep hi hx with rfl | hx
    · exact .inl (hreg (by simpa [Instr.transports] using htr))
    · exact .inr ⟨x, hx, htr⟩
  · rw [next_step hi]
    exact h.dropped

theorem effect_ne_insert (hins : ¬ j.inserts) (x : Peer) : (w.shared.exec o j).1 ≠ .insert x := by
  intro he
  obtain ⟨q, rfl⟩ := Shared.exec_insert he
  exact hins rfl

/-- The registered peer stays so, or this call takes it off and has the rest to do. -/
theorem registered_step (hi : w.threads[i]? = some ⟨sid, j :: rest⟩) (hins : ¬ j.inserts)
    {f : Peer → Prop} (hf : ∀ x y : Peer, y.publish = x.publish → y.subscribe = x.subscribe →
      f x → f y) (h : w.Registered f) :
    (w.next (.step i o)).Registered f ∨ ∃ p x, w.shared.heap[p]? = some x ∧ f x ∧
      .dropTable p x.subscribe ∈ (w.shared.exec o j).2 ∧
      ∀ tr ∈ x.transports, .close tr ∈ (w.shared.exec o j).2 := by
  obtain ⟨p, x, hp, hx, hfx⟩ := h
  rcases Shared.apply_registered (s := w.shared) (effect_ne_insert (w := w) (o := o) hins) with
    hreg | ⟨he, -⟩
  · obtain ⟨y, hy, hpub, hsub⟩ := Shared.apply_heap (e := (w.shared.exec o j).1) hx
    rw [next_step hi]
    exact .inl ⟨p, y, hreg.trans hp, hy, hf x y hpub hsub hfx⟩
  · obtain ⟨p', rfl, hp'⟩ := Shared.exec_unregister he
    obtain rfl := Option.some.inj (hp.symm.trans hp')
    refine .inr ⟨p, x, hx, hfx, ?_, ?_⟩
    · simp [Shared.exec, hp, hx]
    · intro tr htr
      simp only [Shared.exec, hp, hx, if_true, Option.elim_some]
      exact List.mem_append_right _ (List.mem_cons_of_mem _ (List.mem_map_of_mem htr))

/-- Any other instruction. -/
theorem Inv.instr (h : w.Inv) (hi : w.threads[i]? = some ⟨sid, j :: rest⟩) (hins : ¬ j.inserts) :
    (w.next (.step i o)).Inv := by
  have hne := effect_ne_insert (w := w) (o := o) hins
  have hshared : (w.next (.step i o)).shared = w.shared.apply (w.shared.exec o j).1 := by
    rw [next_step hi]
  have hlen : (w.next (.step i o)).shared.heap.length = w.shared.heap.length := by
    rw [hshared, Shared.apply_length hne]
  have hreg : ∀ p, (w.next (.step i o)).shared.registered = some p →
      w.shared.registered = some p := by
    intro p hp
    rw [hshared] at hp
    rcases Shared.apply_registered (s := w.shared) hne with he | ⟨-, he⟩
    · exact he.symm.trans hp
    · exact absurd (he.symm.trans hp) nofun
  have hpubs : ∀ k, (w.next (.step i o)).shared.pubs = some k → w.shared.pubs = some k := by
    intro k hk
    rw [hshared] at hk
    rcases Shared.apply_pubs (s := w.shared) (w.shared.exec o j).1 with he | ⟨-, he⟩
    · exact he.symm.trans hk
    · exact absurd (he.symm.trans hk) nofun
  have hold : ∀ k, ((w.next (.step i o)).shared.pubs = some k ∨
      ∃ x, (w.next (.step i o)).Has x ∧ x.ctx = some k) →
      w.shared.pubs = some k ∨ ∃ x, w.Has x ∧ x.ctx = some k := by
    rintro k (hk | ⟨x, hx, hk⟩)
    · exact .inl (hpubs k hk)
    · rcases has_of_step hi hx with hx | hx
      · exact .inl (Shared.exec_ctx hx hk)
      · exact .inr ⟨x, hx, hk⟩
  refine ⟨?_, ?_, ?_, ?_, ?_, ?_, ?_, ?_⟩
  · intro p hp
    rw [hlen]
    exact h.registered p (hreg p hp)
  · intro x p hx hp
    rw [hlen]
    rcases has_of_step hi hx with hx | hx
    · rcases Shared.exec_peer hx hp with hp | hp | ⟨hins', -⟩
      · exact h.held j p (has_head hi) hp
      · exact h.registered p hp
      · exact absurd hins' hins
    · exact h.held x p hx hp
  · intro k sts hk hsts st hst
    rw [hshared] at hsts
    obtain ⟨l, hl, hsub⟩ := Shared.apply_ctxs hsts
    rw [hlen]
    exact h.current k l (hold k hk) hl st (hsub hst)
  · intro x st hx hst
    rw [hlen]
    rcases has_of_step hi hx with hx | hx
    · obtain ⟨k, sts, hk, hsts, hmem⟩ := Shared.exec_stream hx hst
      exact h.current k sts (.inr ⟨j, has_head hi, hk⟩) hsts st hmem
    · exact h.taken x st hx hst
  · intro hnone hsome
    rcases Shared.apply_registered (s := w.shared) hne with he | ⟨hu, -⟩
    · obtain ⟨k, hk⟩ := Option.ne_none_iff_exists'.1 hsome
      have hnone' : w.shared.registered = none := he.symm.trans (hshared ▸ hnone)
      obtain ⟨p, hp⟩ := h.pubs hnone' (by simp [hpubs k hk])
      rcases has_keep hi hp with rfl | hp
      · rw [hshared] at hk
        exact absurd hk nofun
      · exact ⟨p, hp⟩
    · -- The reclaiming call has still to remove the context.
      obtain ⟨p, rfl, hp⟩ := Shared.exec_unregister hu
      exact ⟨p, has_new hi (by simp [Shared.exec, hp])⟩
  · intro tr htr
    rw [hshared] at htr
    rcases Shared.apply_tables htr with hnew | ⟨htr, hdrop⟩
    · obtain ⟨x, hx, htr⟩ := Shared.exec_newTable hnew
      exact .inr ⟨x, has_new hi hx, htr⟩
    rcases h.tables tr htr with hr | ⟨x, hx, hxtr⟩
    · rcases registered_step (o := o) hi hins (fun x y _ hs hx => hs.trans hx) hr with
        hr | ⟨p, x, -, rfl, hd, -⟩
      · exact .inl hr
      · exact .inr ⟨_, has_new hi hd, rfl⟩
    · rcases has_keep (o := o) hi hx with rfl | hx
      · rcases Shared.exec_table (s := w.shared) (o := o) hxtr with hins' | hd
        · exact absurd hins' hins
        · exact absurd hd hdrop
      · exact .inr ⟨x, hx, hxtr⟩
  · intro tr htr
    rw [hshared] at htr
    rcases Shared.apply_transports htr with ⟨hnew, rfl⟩ | ⟨htr, hclose⟩
    · obtain ⟨x, hx, htr⟩ := Shared.exec_newTransport hnew
      exact .inr ⟨x, has_new hi hx, htr⟩
    rcases h.transports tr htr with hr | ⟨x, hx, hxtr⟩
    · have hf : ∀ x y : Peer, y.publish = x.publish → y.subscribe = x.subscribe →
          tr ∈ x.transports → tr ∈ y.transports := by
        intro x y hp hs hx
        rw [Peer.mem_transports] at hx ⊢
        rwa [hp, hs]
      rcases registered_step (o := o) hi hins hf hr with hr | ⟨p, x, -, hx, -, hc⟩
      · exact .inl hr
      · exact .inr ⟨_, has_new hi (hc tr hx), List.mem_singleton_self tr⟩
    · rcases has_keep (o := o) hi hx with rfl | hx
      · rcases Shared.exec_transports (s := w.shared) (o := o) hxtr with ⟨y, hy, htr⟩ | hins' | rfl
        · exact .inr ⟨y, has_new hi hy, htr⟩
        · exact absurd hins' hins
        · exact absurd rfl hclose
      · exact .inr ⟨x, hx, hxtr⟩
  · rw [hshared]
    cases hd : (w.shared.exec o j).1 with
    | drop p st =>
      obtain ⟨hp, hst⟩ := Shared.exec_drop hd
      intro x hx
      rcases List.mem_cons.1 hx with rfl | hx
      · have hp := h.held j p (has_head hi) hp
        have hst := h.taken j st (has_head hi) hst
        exact Nat.succ_injective (hst.trans hp.symm)
      · exact h.dropped x hx
    | _ => exact h.dropped

end Step

theorem Inv.publish (h : w.Inv) : (w.next .publish).Inv := by
  cases hr : w.shared.registered with
  | none =>
    have heq : w.next .publish = w := by simp [next, Shared.publish, hr]
    rw [heq]
    exact h
  | some p =>
    have hp := h.registered p hr
    cases hk : w.shared.pubs with
    | none =>
      have heq : w.next .publish = ⟨{ w.shared with
          ctxs := w.shared.ctxs ++ [[⟨w.shared.tracks, p⟩]]
          pubs := some w.shared.ctxs.length, tracks := w.shared.tracks + 1 }, w.threads⟩ := by
        simp [next, Shared.publish, hr, hk]
      rw [heq]
      refine ⟨h.registered, h.held, ?_, h.taken, fun hnone => absurd (hr.symm.trans hnone) nofun,
        h.tables, h.transports, h.dropped⟩
      intro k sts hk' hsts st hst
      simp only [getElem?_concat] at hsts
      split_ifs at hsts with he
      · rw [← Option.some.inj hsts] at hst
        rw [List.mem_singleton.1 hst]
        exact hp
      · refine h.current k sts (hk'.imp_left fun e => ?_) hsts st hst
        exact absurd (Option.some.inj e).symm he
    | some k₀ =>
      have heq : w.next .publish = ⟨{ w.shared with
          ctxs := w.shared.ctxs.modify k₀ (· ++ [⟨w.shared.tracks, p⟩])
          tracks := w.shared.tracks + 1 }, w.threads⟩ := by
        simp [next, Shared.publish, hr, hk]
      rw [heq]
      refine ⟨h.registered, h.held, ?_, h.taken, fun hnone => absurd (hr.symm.trans hnone) nofun,
        h.tables, h.transports, h.dropped⟩
      intro k sts hk' hsts st hst
      simp only [getElem?_modify_slot] at hsts
      split_ifs at hsts with he
      · obtain ⟨l, hl, rfl⟩ := Option.map_eq_some_iff.1 hsts
        rcases List.mem_append.1 hst with hst | hst
        · exact h.current k l hk' hl st hst
        · rw [List.mem_singleton.1 hst]
          exact hp
      · exact h.current k sts hk' hsts st hst

theorem Inv.call (h : w.Inv) (sid : String) (c : Call) : (w.next (.call sid c)).Inv := by
  have hhas : ∀ x, (w.next (.call sid c)).Has x → w.Has x ∨ x = c.start sid := by
    rintro x ⟨t, ht, hx⟩
    rcases List.mem_append.1 ht with ht | ht
    · exact .inl ⟨t, ht, hx⟩
    · rw [List.mem_singleton.1 ht] at hx
      exact .inr (List.mem_singleton.1 hx)
  have hkeep : ∀ x, w.Has x → (w.next (.call sid c)).Has x := by
    rintro x ⟨t, ht, hx⟩
    exact ⟨t, List.mem_append_left _ ht, hx⟩
  -- A call starts with nothing in its hands.
  have hpeer : (c.start sid).peer = none := by cases c <;> rfl
  have hctx : (c.start sid).ctx = none := by cases c <;> rfl
  have hstream : (c.start sid).stream = none := by cases c <;> rfl
  refine ⟨h.registered, ?_, ?_, ?_, ?_, ?_, ?_, h.dropped⟩
  · intro x p hx hp
    rcases hhas x hx with hx | rfl
    · exact h.held x p hx hp
    · exact absurd (hpeer.symm.trans hp) nofun
  · intro k sts hk
    refine h.current k sts (hk.imp_right ?_)
    rintro ⟨x, hx, hk⟩
    rcases hhas x hx with hx | rfl
    · exact ⟨x, hx, hk⟩
    · exact absurd (hctx.symm.trans hk) nofun
  · intro x st hx hst
    rcases hhas x hx with hx | rfl
    · exact h.taken x st hx hst
    · exact absurd (hstream.symm.trans hst) nofun
  · intro hr hp
    obtain ⟨p, hp⟩ := h.pubs hr hp
    exact ⟨p, hkeep _ hp⟩
  · intro tr htr
    refine (h.tables tr htr).imp_right ?_
    rintro ⟨x, hx, htr⟩
    exact ⟨x, hkeep x hx, htr⟩
  · intro tr htr
    refine (h.transports tr htr).imp_right ?_
    rintro ⟨x, hx, htr⟩
    exact ⟨x, hkeep x hx, htr⟩

theorem Inv.next (h : w.Inv) {a : Act} (ha : w.Alone a) : (w.next a).Inv := by
  cases a with
  | call sid c => exact h.call sid c
  | publish => exact h.publish
  | step i o =>
    rcases hi : w.threads[i]? with _ | ⟨sid, _ | ⟨j, rest⟩⟩
    · simpa [World.next, hi] using h
    · simpa [World.next, hi] using h
    · by_cases hins : j.inserts
      · exact h.insert hi hins (ha _ hi j rfl hins)
      · exact h.instr hi hins

theorem inv_start : ({} : World).Inv := by
  refine ⟨?_, ?_, ?_, ?_, ?_, ?_, ?_, ?_⟩
  all_goals simp [Has]

/-- With no call in progress nothing is left to a call. -/
theorem Inv.tidy (h : w.Inv) (hq : w.Quiet) : w.Tidy := by
  have hnot : ∀ x, ¬ w.Has x := by
    rintro x ⟨t, ht, hx⟩
    rw [hq t ht] at hx
    exact absurd hx List.not_mem_nil
  refine ⟨?_, ?_, h.dropped⟩
  · intro tr htr
    exact (h.tables tr htr).resolve_right fun ⟨x, hx, _⟩ => hnot x hx
  · intro tr htr
    exact (h.transports tr htr).resolve_right fun ⟨x, hx, _⟩ => hnot x hx

end World

/-- **No orphans**, in every run in which a peer is put under the user's name only while no other
is in use. -/
theorem no_orphans (acts : List Act)
    (hrun : (machine.restrict World.Alone).Legal ({} : World) acts)
    (hq : (machine.exec ({} : World) acts).Quiet) : (machine.exec ({} : World) acts).Tidy := by
  have hinv : (machine.exec ({} : World) acts).Inv := by
    rw [← Machine.restrict_exec _ World.Alone]
    exact Machine.invariant (fun w a h hok => h.next hok.2) World.inv_start hrun
  exact hinv.tidy hq

/-- One session joins and publishes; another takes the user over. -/
theorem no_orphans_device_change :
    (machine.exec ({} : World) ([.call "a" (.join "r" none .one)] ++
      List.replicate 10 (.step 0 {}) ++ [.publish, .call "b" (.join "r" none .two)] ++
      List.replicate 32 (.step 1 {}))).Tidy :=
  no_orphans _ (by decide +kernel) (by decide +kernel)

/-- Two sessions join at once. Both find no peer. -/
def bothJoin : List Act :=
  [.call "a" (.join "r" none .one), .call "b" (.join "r" none .one)] ++
    List.replicate 4 (.step 0 {}) ++ List.replicate 4 (.step 1 {}) ++
    List.replicate 6 (.step 0 {}) ++ List.replicate 6 (.step 1 {})

/-- Each session puts its peer under the name: the first is forgotten with its table and
transport. -/
theorem overwritten_peer : ¬ ∀ acts, machine.Legal ({} : World) acts →
    (machine.exec ({} : World) acts).Quiet → (machine.exec ({} : World) acts).Tidy := by
  intro h
  have hrun := h bothJoin (by decide) (by decide)
  obtain ⟨p, x, hp, hx, hs⟩ := hrun.tables 0 (by decide)
  have hreg : (machine.exec ({} : World) bothJoin).shared.registered = some 1 := by decide
  have hsub : (machine.exec ({} : World) bothJoin).shared.heap[1]?.map (·.subscribe) = some 1 := by
    decide
  obtain rfl := Option.some.inj (hreg.symm.trans hp)
  rw [hx] at hsub
  exact absurd (hs.symm.trans (Option.some.inj hsub)) (by decide)

end OxlensSfu.Sessions
