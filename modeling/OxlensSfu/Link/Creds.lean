import OxlensSfu.Lib.Machine
import OxlensSfu.Lib.Slots

/-!
# The credentials of a transport and the commands of the receive thread

A transport has a book of credentials, one in use and one that waits for its first check
(`crates/oxsfud/src/link/creds.rs`). The receive thread finds the transport of a packet by the
`ufrag` of a check or by the address (`fwd/rt.rs`). It hears of new and old credentials through a
queue of commands: from `new_transport` (`ops/rooms.rs`), from `ice_restart` (`ops/media.rs`), for
each transport of the peer, and from `reap` (`gc/mod.rs`). These change the book or the transport
in one step and push their commands in later ones.
-/

namespace OxlensSfu.Ice

structure Cred where
  ufrag : String
  pwd : String
  deriving DecidableEq, Repr

structure Creds where
  active : Cred
  pending : Option Cred := none
  deriving DecidableEq, Repr

inductive Checked where
  | current
  | promoted (retired : String)
  deriving DecidableEq, Repr

namespace Creds

/-- The answer is the `ufrag` that was waiting. -/
def restart (c : Creds) (next : Cred) : Option String × Creds :=
  (c.pending.map (·.ufrag), { c with pending := some next })

def pwd (c : Creds) (ufrag : String) : Option String :=
  if c.active.ufrag = ufrag then some c.active.pwd
  else (c.pending.filter (·.ufrag = ufrag)).map (·.pwd)

/-- The first check of the one that waits puts it in use. -/
def checked (c : Creds) (ufrag : String) : Checked × Creds :=
  match c.pending with
  | none => (.current, c)
  | some p => if p.ufrag = ufrag then (.promoted c.active.ufrag, ⟨p, none⟩) else (.current, c)

def ufrags (c : Creds) : List String := c.active.ufrag :: (c.pending.map (·.ufrag)).toList

end Creds

inductive PathKey where
  | udp (addr : String)
  | tcp (id : Nat)
  deriving DecidableEq, Repr

structure Transport where
  creds : Creds
  closed : Bool := false
  deriving DecidableEq, Repr

inductive RecvCmd where
  | register (ufrag : String) (tr : Nat)
  | unregister (tr : Nat)
  | dropUfrag (ufrag : String)
  deriving DecidableEq, Repr

/-- What a call has still to push. -/
inductive Call where
  | creating (tr : Nat) (ufrag : String)
  | dropping (old : String) (tr : Nat) (next : String)
  | registering (tr : Nat) (next : String)
  | unregistering (tr : Nat)
  | done
  deriving DecidableEq, Repr

/-- The next command of a call, and what is left of the call. -/
def Call.push : Call → Option RecvCmd × Call
  | .creating tr u => (some (.register u tr), .done)
  | .dropping old tr next => (some (.dropUfrag old), .registering tr next)
  | .registering tr next => (some (.register next tr), .done)
  | .unregistering tr => (some (.unregister tr), .done)
  | .done => (none, .done)

/-- The transport a call creates. -/
def Call.creates : Call → Option Nat
  | .creating tr _ => some tr
  | _ => none

/-- The name a call has still to drop. -/
def Call.drops : Call → Option String
  | .dropping u _ _ => some u
  | _ => none

/-- What a restart registers next: the transport and the name. -/
def Call.registersNext : Call → Option (Nat × String)
  | .registering tr u => some (tr, u)
  | _ => none

structure State where
  transports : List Transport := []
  calls : List Call := []
  recvCmds : List RecvCmd := []
  byUfrag : String → Option Nat := fun _ => none
  byAddr : PathKey → Option Nat := fun _ => none
  /-- The `ufrag`s that have been drawn, each with its transport and the call that drew it. -/
  drawn : String → Option (Nat × Nat) := fun _ => none

inductive Act where
  | newTransport (c : Cred)
  | iceRestart (tr : Nat) (next : Cred)
  | reap (tr : Nat)
  | push (i : Nat)
  | pop
  | check (ufrag : String) (key : PathKey)
  | tcpClosed (id : Nat)
  deriving DecidableEq, Repr

namespace State

def creds (s : State) (tr : Nat) : Option Creds := s.transports[tr]?.map (·.creds)

def onTransport (s : State) (tr : Nat) (f : Transport → Transport) : State :=
  { s with transports := s.transports.modify tr f }

/-- `new_transport`: the transport, with its `Register` still to be pushed. -/
def newTransport (s : State) (c : Cred) : State :=
  { s with
    transports := s.transports ++ [{ creds := { active := c } }]
    calls := s.calls ++ [.creating s.transports.length c.ufrag]
    drawn := Function.update s.drawn c.ufrag (some (s.transports.length, s.calls.length)) }

/-- `ice_restart`, for one transport: the book is changed. -/
def iceRestart (s : State) (tr : Nat) (next : Cred) : State :=
  match s.creds tr with
  | none => s
  | some c =>
    let (old, c) := c.restart next
    { s.onTransport tr fun t => { t with creds := c } with
      calls := s.calls ++ [match old with
        | some old => .dropping old tr next.ufrag
        | none => .registering tr next.ufrag]
      drawn := Function.update s.drawn next.ufrag (some (tr, s.calls.length)) }

/-- `reap`, for one transport: it is closed. -/
def reap (s : State) (tr : Nat) : State :=
  { s.onTransport tr fun t => { t with closed := true } with
    calls := s.calls ++ [.unregistering tr] }

def push (s : State) (i : Nat) : State :=
  match s.calls[i]? with
  | none => s
  | some c =>
    let (cmd, c) := c.push
    { s with recvCmds := s.recvCmds ++ cmd.toList, calls := s.calls.set i c }

/-- One command in `recv_loop`. -/
def apply (s : State) : RecvCmd → State
  | .register u tr => { s with byUfrag := Function.update s.byUfrag u (some tr) }
  | .dropUfrag u => { s with byUfrag := Function.update s.byUfrag u none }
  | .unregister tr =>
    { s with
      byUfrag := fun u => (s.byUfrag u).filter (· ≠ tr)
      byAddr := fun k => (s.byAddr k).filter (· ≠ tr) }

def pop (s : State) : State :=
  match s.recvCmds with
  | [] => s
  | c :: cs => { s with recvCmds := cs }.apply c

/-- The end of a check in `datagram`, once it is verified. -/
def promote (s : State) (tr : Nat) (c : Creds) (ufrag : String) : State :=
  match c.checked ufrag with
  | (.current, _) => s
  | (.promoted retired, c) =>
    { s.onTransport tr fun t => { t with creds := c } with
      byUfrag := Function.update s.byUfrag retired none }

/-- A verified check in `datagram`: the transport, its password, the address, the book. -/
def check (s : State) (ufrag : String) (key : PathKey) : State :=
  match s.byUfrag ufrag with
  | none => s
  | some tr =>
    match (s.creds tr).filter fun c => (c.pwd ufrag).isSome with
    | none => s
    | some c => { s with byAddr := Function.update s.byAddr key (some tr) }.promote tr c ufrag

def next (s : State) : Act → State
  | .newTransport c => s.newTransport c
  | .iceRestart tr c => s.iceRestart tr c
  | .reap tr => s.reap tr
  | .push i => s.push i
  | .pop => s.pop
  | .check u key => s.check u key
  | .tcpClosed id => { s with byAddr := Function.update s.byAddr (.tcp id) none }

/-- No call is in progress and the queue is empty. -/
def Quiet (s : State) : Prop := (∀ c ∈ s.calls, c = .done) ∧ s.recvCmds = []

instance (s : State) : Decidable s.Quiet := inferInstanceAs (Decidable (_ ∧ _))

/-- The transport is there, and `new_transport` has returned it. -/
def Created (s : State) (tr : Nat) : Prop :=
  tr < s.transports.length ∧ ∀ c ∈ s.calls, c.creates ≠ some tr

instance (s : State) (tr : Nat) : Decidable (s.Created tr) := inferInstanceAs (Decidable (_ ∧ _))

/-- The index has what the books have, and nothing of a closed transport. -/
structure Matches (s : State) : Prop where
  byUfrag : ∀ u tr, s.byUfrag u = some tr ↔
    ∃ t, s.transports[tr]? = some t ∧ t.closed = false ∧ u ∈ t.creds.ufrags
  byAddr : ∀ key tr, s.byAddr key = some tr → ∃ t, s.transports[tr]? = some t ∧ t.closed = false

/-- A call has still to drop the name. -/
def Doomed (s : State) (u : String) : Prop := ∃ c ∈ s.calls, c.drops = some u

instance (s : State) (u : String) : Decidable (s.Doomed u) :=
  inferInstanceAs (Decidable (∃ c ∈ s.calls, c.drops = some u))

/-- The index may have the name: the transport is open and the name in its book, or a call has
still to push the `DropUfrag` or the `Unregister` that removes it. -/
def Removable (s : State) (tr : Nat) (u : String) : Prop :=
  ∀ t ∈ s.transports[tr]?,
    if t.closed then .unregistering tr ∈ s.calls else u ∈ t.creds.ufrags ∨ s.Doomed u

instance (s : State) (tr : Nat) (u : String) : Decidable (s.Removable tr u) :=
  inferInstanceAs (Decidable (∀ t ∈ s.transports[tr]?,
    if t.closed then .unregistering tr ∈ s.calls else u ∈ t.creds.ufrags ∨ s.Doomed u))

/-- A restart registers its credential before a later `DropUfrag` or `Unregister` is pushed. -/
def Prompt (s : State) : Act → Prop
  | .push i => ∀ c ∈ s.calls[i]?, ∀ x ∈ c.registersNext, s.Removable x.1 x.2
  | _ => True

instance (s : State) : (a : Act) → Decidable (s.Prompt a)
  | .push i => inferInstanceAs
      (Decidable (∀ c ∈ s.calls[i]?, ∀ x ∈ c.registersNext, s.Removable x.1 x.2))
  | .newTransport _ | .iceRestart _ _ | .reap _ | .pop | .check _ _ | .tcpClosed _ => .isTrue trivial

end State

/-- Any number of calls and the receive thread, in any interleaving. Every `ufrag` is drawn once.
A transport is restarted and reaped through its peer, so after its creation. -/
def machine : Machine State Act where
  ok s
    | .newTransport c => s.drawn c.ufrag = none
    | .iceRestart tr c => s.Created tr ∧ s.drawn c.ufrag = none
    | .reap tr => s.Created tr
    | .push i => s.calls[i]?.any (· ≠ .done)
    | .pop => s.recvCmds ≠ []
    | .check _ _ => True
    | .tcpClosed _ => True
  next := State.next

instance (s : State) : (a : Act) → Decidable (machine.ok s a)
  | .newTransport c => inferInstanceAs (Decidable (s.drawn c.ufrag = none))
  | .iceRestart tr c => inferInstanceAs (Decidable (s.Created tr ∧ s.drawn c.ufrag = none))
  | .reap tr => inferInstanceAs (Decidable (s.Created tr))
  | .push i => inferInstanceAs (Decidable (s.calls[i]?.any (· ≠ .done)))
  | .pop => inferInstanceAs (Decidable (s.recvCmds ≠ []))
  | .check _ _ | .tcpClosed _ => .isTrue trivial

end OxlensSfu.Ice
