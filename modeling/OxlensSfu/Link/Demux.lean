import OxlensSfu.Link.Creds
import OxlensSfu.Link.Stun

/-!
# What the receive thread takes from the network

`datagram` of `crates/oxsfud/src/fwd/rt.rs` sorts what comes in by its first byte: a STUN check is
verified and ties the address to a transport, a DTLS record and a media packet go to the transport
of their address. `fwd/rt.rs` also keeps the TCP connections, and `link/mod.rs` and
`liveness` of `ops/timers.rs` keep, for each transport, the pairs that were checked, the nominated
path and whether the peer is `Alive` or `Suspect`. The index itself and the commands that change it
are those of `Ice.State`; the code over a check is an arbitrary function.

* `media_from_checked`: media reaches a transport only from an address from which a check for it was
  verified, with nothing since that takes the address from it.
* `sent_where_checked`: a packet goes out only to where a check came from: by UDP not long ago, by
  TCP on a connection that has been open ever since.
* `suspect_since`: a peer is `Suspect` only since its nominated path was found dead, with no check
  after that which nominates a path.
-/

namespace OxlensSfu.Recv

open Ice (PathKey)

def udpPairExpireMs : Nat := 30000
def maxDatagram : Nat := 2048

/-! ## The paths of a transport -/

inductive PeerState where
  | alive
  | suspect
  deriving DecidableEq, Repr

structure Pair where
  key : PathKey
  lastMs : Nat
  deriving DecidableEq, Repr

/-- The part of a transport that says where it is to be reached. -/
structure Link where
  path : Option PathKey := none
  pairs : List Pair := []
  state : PeerState := .alive
  deriving DecidableEq, Repr

/-- The first pair of the path is brought up to date, or there is a new one. -/
def touch (key : PathKey) (now : Nat) : List Pair → List Pair
  | [] => [⟨key, now⟩]
  | p :: ps => if p.key = key then ⟨key, now⟩ :: ps else p :: touch key now ps

def fresh (now : Nat) (p : Pair) : Bool := now - p.lastMs ≤ udpPairExpireMs

namespace Link

/-- The answer is the state before, where it has changed. -/
def setState (l : Link) (s : PeerState) : Option PeerState × Link :=
  if l.state = s then (none, l) else (some l.state, { l with state := s })

def touchPair (l : Link) (key : PathKey) (now : Nat) : Link :=
  { l with pairs := touch key now l.pairs }

def pathAlive (l : Link) (tcpOpen : Nat → Bool) (now : Nat) : Bool :=
  match l.path with
  | none => true
  | some (.tcp id) => tcpOpen id
  | some (.udp a) => (l.pairs.find? (·.key = .udp a)).any (fresh now)

def sendOk (l : Link) (tcpOpen : Nat → Bool) (now : Nat) : Option PathKey :=
  l.path.bind fun p => if l.pathAlive tcpOpen now then some p else none

/-- Before a path is nominated, the handshake goes back along the pair that came last. -/
def controlPath (l : Link) (tcpOpen : Nat → Bool) (now : Nat) : Option PathKey :=
  if l.path.isSome then l.sendOk tcpOpen now
  else l.pairs.getLast?.bind fun last =>
    match last.key with
    | .udp _ => if fresh now last then some last.key else none
    | .tcp id => if tcpOpen id then some last.key else none

/-- A check nominates the path. -/
def nominate (l : Link) (useCandidate : Bool) (key : PathKey) : Link :=
  if useCandidate then ({ l with path := some key }.setState .alive).2 else l

end Link

/-! ## The receive thread -/

/-- A TCP connection: whether it can be written, and the transport that its frames were for. -/
structure Conn where
  writable : Bool := true
  tr : Option Nat := none
  deriving DecidableEq, Repr

/-- What becomes of a datagram. -/
inductive Fate where
  | nothing
  | dropped (reason : String)
  | checked (tr : Nat)
  | handshake (tr : Nat)
  | media (tr : Nat)
  | oversize (tr : Nat)
  deriving DecidableEq, Repr

/-- The answer of `datagram`. -/
def Fate.transport : Fate → Option Nat
  | .checked tr | .handshake tr | .media tr | .oversize tr => some tr
  | .nothing | .dropped _ => none

/-- `dying` is the transport that `liveness` has found dead and is about to mark. -/
structure State where
  ice : Ice.State := {}
  links : Nat → Link := fun _ => {}
  conns : Nat → Option Conn := fun _ => none
  nextTok : Nat := 16
  dying : Option Nat := none

/-- `control` are the steps on the index that are not the receive thread's own; `look` and `suspect`
are the two halves of `liveness` for a transport. -/
inductive Act where
  | control (a : Ice.Act)
  | receive (raw : List UInt8) (key : PathKey) (now : Nat)
  | accept
  | closed (id : Nat)
  | sendFailed (id : Nat)
  | look (tr now : Nat)
  | suspect

namespace State

variable (hmac : List UInt8 → List UInt8 → List UInt8)

def tcpOpen (s : State) (id : Nat) : Bool := (s.conns id).any (·.writable)

/-- The transport of a check whose code is right under the password of its `ufrag`. -/
def verified (s : State) (raw : List UInt8) : Option (Nat × Stun.Binding) :=
  match Stun.parse raw with
  | .ok (.ok b) =>
    match s.ice.byUfrag b.localUfrag with
    | none => none
    | some tr =>
      match (s.ice.creds tr).bind (·.pwd b.localUfrag) with
      | none => none
      | some pwd =>
        match Stun.verify hmac raw b pwd with
        | .ok true => some (tr, b)
        | _ => none
  | _ => none

/-- A verified check: the pair, the address, the credentials and the path. -/
def check (s : State) (tr : Nat) (b : Stun.Binding) (key : PathKey) (now : Nat) : State :=
  { s with
    ice := s.ice.check b.localUfrag key
    links := Function.update s.links tr
      (((s.links tr).touchPair key now).nominate b.useCandidate key) }

def datagram (s : State) (raw : List UInt8) (key : PathKey) (now : Nat) (known : Option Nat) :
    State × Fate :=
  match raw with
  | [] => (s, .nothing)
  | b0 :: _ =>
    if b0 ≤ 3 then
      match s.verified hmac raw with
      | none => (s, .dropped "stun_unverified")
      | some (tr, b) => (s.check tr b key now, .checked tr)
    else if 20 ≤ b0 ∧ b0 ≤ 63 then
      match (s.ice.byAddr key).or known with
      | some tr => (s, .handshake tr)
      | none => (s, .dropped "rtp_unknown_path")
    else if 128 ≤ b0 ∧ b0 ≤ 191 then
      match s.ice.byAddr key with
      | none => (s, .dropped "rtp_unknown_path")
      | some tr => (s, if maxDatagram < raw.length then .oversize tr else .media tr)
    else (s, .dropped "demux_unknown")

/-- A datagram, or a frame of a TCP connection, which remembers its transport. -/
def receive (s : State) (raw : List UInt8) (key : PathKey) (now : Nat) : State × Fate :=
  match key with
  | .udp _ => s.datagram hmac raw key now none
  | .tcp id =>
    match s.conns id with
    | none => (s, .nothing)
    | some c =>
      if maxDatagram < raw.length then (s, .dropped "oversize")
      else
        let (s, fate) := s.datagram hmac raw key now c.tr
        match fate.transport with
        | none => (s, fate)
        | some tr =>
          ({ s with conns := Function.update s.conns id (some { c with tr := some tr }) }, fate)

def closed (s : State) (id : Nat) : State :=
  { s with ice := s.ice.next (.tcpClosed id), conns := Function.update s.conns id none }

/-- The first half of `liveness`: a path that was nominated is no longer alive. -/
def look (s : State) (tr now : Nat) : State :=
  if (s.links tr).path.isSome ∧ (s.links tr).state = .alive ∧
      (s.links tr).pathAlive s.tcpOpen now = false then { s with dying := some tr }
  else s

/-- The second half. -/
def suspect (s : State) : State :=
  match s.dying with
  | none => s
  | some tr =>
    { s with
      dying := none, links := Function.update s.links tr ((s.links tr).setState .suspect).2 }

def next (s : State) : Act → State
  | .control a => { s with ice := s.ice.next a }
  | .receive raw key now => (s.receive hmac raw key now).1
  | .accept =>
    { s with conns := Function.update s.conns s.nextTok (some {}), nextTok := s.nextTok + 1 }
  | .closed id => s.closed id
  | .sendFailed id =>
    { s with
      conns := Function.update s.conns id ((s.conns id).map fun c => { c with writable := false }) }
  | .look tr now => s.look tr now
  | .suspect => s.suspect

end State

/-- The steps on the index that are the receive thread's own. -/
def ownStep : Ice.Act → Bool
  | .check _ _ | .tcpClosed _ => true
  | _ => false

/-- The receive thread, the calls that push commands, and `liveness`, in any order. There is one
`liveness` at a time. -/
def machine (hmac : List UInt8 → List UInt8 → List UInt8) : Machine State Act where
  ok s a := match a with
    | .control a => ownStep a = false ∧ Ice.machine.ok s.ice a
    | .look _ _ => s.dying = none
    | _ => True
  next := State.next hmac

instance (hmac : List UInt8 → List UInt8 → List UInt8) (s : State) :
    (a : Act) → Decidable ((machine hmac).ok s a)
  | .control a => inferInstanceAs (Decidable (ownStep a = false ∧ Ice.machine.ok s.ice a))
  | .look _ _ => inferInstanceAs (Decidable (s.dying = none))
  | .receive _ _ _ | .accept | .closed _ | .sendFailed _ | .suspect => .isTrue trivial

/-! ## What one step does -/

section

variable {hmac : List UInt8 → List UInt8 → List UInt8} {s : State}

/-- A verified check ties its address to its transport. -/
theorem check_byAddr {raw : List UInt8} {tr : Nat} {b : Stun.Binding}
    (h : s.verified hmac raw = some (tr, b)) (key : PathKey) :
    (s.ice.check b.localUfrag key).byAddr = Function.update s.ice.byAddr key (some tr) := by
  have hknown : s.ice.byUfrag b.localUfrag = some tr ∧
      ((s.ice.creds tr).filter fun c => (c.pwd b.localUfrag).isSome).isSome := by
    rw [State.verified] at h
    split at h
    · split at h
      · simp at h
      next tr' hu =>
        split at h
        · simp at h
        next pwd hpwd =>
          split at h
          · simp only [Option.some.injEq, Prod.mk.injEq] at h
            obtain ⟨rfl, rfl⟩ := h
            obtain ⟨c, hc, hpwd⟩ := Option.bind_eq_some_iff.1 hpwd
            exact ⟨hu, by simp [hc, hpwd]⟩
          · simp at h
    · simp at h
  obtain ⟨hu, hc⟩ := hknown
  obtain ⟨c, hc⟩ := Option.isSome_iff_exists.1 hc
  simp only [Ice.State.check, hu, hc, Ice.State.promote]
  split <;> rfl

/-- What `datagram` does is a verified check, or it changes nothing. -/
theorem datagram_cases (s : State) (raw : List UInt8) (key : PathKey) (now : Nat)
    (known : Option Nat) :
    (∃ tr b, s.verified hmac raw = some (tr, b) ∧
      s.datagram hmac raw key now known = (s.check tr b key now, .checked tr)) ∨
    ((s.datagram hmac raw key now known).1 = s ∧
      ∀ tr, (s.datagram hmac raw key now known).2 ≠ .checked tr) := by
  cases raw with
  | nil => exact .inr ⟨rfl, fun tr h => by cases h⟩
  | cons b0 rest =>
    rw [State.datagram]
    split_ifs
    · cases hv : s.verified hmac (b0 :: rest) with
      | none => exact .inr ⟨rfl, fun tr h => by cases h⟩
      | some x => exact .inl ⟨x.1, x.2, rfl, rfl⟩
    · cases (s.ice.byAddr key).or known with
      | none => exact .inr ⟨rfl, fun tr h => by cases h⟩
      | some tr => exact .inr ⟨rfl, fun tr h => by cases h⟩
    · cases s.ice.byAddr key with
      | none => exact .inr ⟨rfl, fun tr h => by cases h⟩
      | some tr => exact .inr ⟨rfl, fun tr h => by cases h⟩
    · cases s.ice.byAddr key with
      | none => exact .inr ⟨rfl, fun tr h => by cases h⟩
      | some tr => exact .inr ⟨rfl, fun tr h => by cases h⟩
    · exact .inr ⟨rfl, fun tr h => by cases h⟩

/-- The part of the state that `datagram` may change, and the rest but for the connections. -/
theorem receive_eq (s : State) (raw : List UInt8) (key : PathKey) (now : Nat) :
    (∃ known conns, s.receive hmac raw key now =
      ({ (s.datagram hmac raw key now known).1 with conns := conns },
        (s.datagram hmac raw key now known).2) ∧
      ∀ id, (conns id).map (·.writable) = (s.conns id).map (·.writable)) ∨
    ((s.receive hmac raw key now).1 = s ∧ ∀ tr, (s.receive hmac raw key now).2.transport ≠ some tr) := by
  have hconns : ∀ known, (s.datagram hmac raw key now known).1.conns = s.conns := by
    intro known
    rcases @datagram_cases hmac s raw key now known with ⟨tr, b, -, heq⟩ | ⟨heq, -⟩
    · rw [heq]
      rfl
    · rw [heq]
  cases key with
  | udp a =>
    refine .inl ⟨none, s.conns, ?_, fun id => rfl⟩
    rw [← hconns none]
    rfl
  | tcp id =>
    cases hc : s.conns id with
    | none => exact .inr (by simp [State.receive, hc, Fate.transport])
    | some c =>
      by_cases hlen : maxDatagram < raw.length
      · exact .inr (by simp [State.receive, hc, hlen, Fate.transport])
      · cases ht : (s.datagram hmac raw (.tcp id) now c.tr).2.transport with
        | none =>
          refine .inl ⟨c.tr, s.conns, ?_, fun id => rfl⟩
          simp only [State.receive, hc, if_neg hlen, ht, ← hconns c.tr]
        | some tr =>
          refine .inl ⟨c.tr, Function.update s.conns id (some { c with tr := some tr }), ?_, ?_⟩
          · simp only [State.receive, hc, if_neg hlen, ht, hconns c.tr]
          · intro id'
            by_cases he : id' = id
            · rw [he, Function.update_self, hc]
              rfl
            · rw [Function.update_of_ne he]

/-- What comes in is a verified check, or it changes neither the index nor a path. -/
theorem receive_cases (s : State) (raw : List UInt8) (key : PathKey) (now : Nat) :
    (∃ tr b, s.verified hmac raw = some (tr, b) ∧
      (s.receive hmac raw key now).2 = .checked tr ∧
      (s.receive hmac raw key now).1.ice = s.ice.check b.localUfrag key ∧
      (s.receive hmac raw key now).1.links = (s.check tr b key now).links) ∨
    ((∀ tr, (s.receive hmac raw key now).2 ≠ .checked tr) ∧
      (s.receive hmac raw key now).1.ice = s.ice ∧
      (s.receive hmac raw key now).1.links = s.links) := by
  rcases @receive_eq hmac s raw key now with ⟨known, conns, heq, -⟩ | ⟨heq, hno⟩
  · rw [heq]
    rcases @datagram_cases hmac s raw key now known with ⟨tr, b, hv, hd⟩ | ⟨hd, hno⟩
    · refine .inl ⟨tr, b, hv, ?_⟩
      rw [hd]
      exact ⟨rfl, rfl, rfl⟩
    · refine .inr ⟨hno, ?_⟩
      rw [hd]
      exact ⟨rfl, rfl⟩
  · rw [heq]
    refine .inr ⟨fun tr h => hno tr ?_, rfl, rfl⟩
    rw [h]
    rfl

theorem receive_dying (s : State) (raw : List UInt8) (key : PathKey) (now : Nat) :
    (s.receive hmac raw key now).1.dying = s.dying ∧
      (s.receive hmac raw key now).1.nextTok = s.nextTok := by
  rcases @receive_eq hmac s raw key now with ⟨known, conns, heq, -⟩ | ⟨heq, -⟩
  · rw [heq]
    rcases @datagram_cases hmac s raw key now known with ⟨tr, b, -, hd⟩ | ⟨hd, -⟩
    · rw [hd]
      exact ⟨rfl, rfl⟩
    · rw [hd]
      exact ⟨rfl, rfl⟩
  · rw [heq]
    exact ⟨rfl, rfl⟩

theorem receive_tcpOpen (s : State) (raw : List UInt8) (key : PathKey) (now : Nat) :
    (s.receive hmac raw key now).1.tcpOpen = s.tcpOpen := by
  funext id
  rcases @receive_eq hmac s raw key now with ⟨known, conns, heq, hw⟩ | ⟨heq, -⟩
  · have h := hw id
    rw [heq]
    simp only [State.tcpOpen]
    cases hc : conns id <;> cases hs : s.conns id <;> simp_all
  · rw [heq]

/-- The steps on the index that are not the receive thread's own take an address from its transport
only by an `Unregister`. -/
theorem control_byAddr {s : Ice.State} {a : Ice.Act} (h : ownStep a = false) {key : PathKey}
    {tr : Nat} (hk : (s.next a).byAddr key = some tr) :
    s.byAddr key = some tr ∧ (a = .pop → s.recvCmds.head? ≠ some (.unregister tr)) := by
  cases a with
  | newTransport c => exact ⟨hk, fun e => by cases e⟩
  | iceRestart tr' c =>
    refine ⟨?_, fun e => by cases e⟩
    rw [← hk]
    simp only [Ice.State.next, Ice.State.iceRestart]
    split <;> rfl
  | reap tr' => exact ⟨hk, fun e => by cases e⟩
  | push i =>
    refine ⟨?_, fun e => by cases e⟩
    rw [← hk]
    simp only [Ice.State.next, Ice.State.push]
    split <;> rfl
  | pop =>
    cases hq : s.recvCmds with
    | nil =>
      simp only [Ice.State.next, Ice.State.pop, hq] at hk
      exact ⟨hk, fun _ e => by simp at e⟩
    | cons c cs =>
      simp only [Ice.State.next, Ice.State.pop, hq] at hk
      cases c with
      | register u tr' => exact ⟨hk, fun _ e => by simp at e⟩
      | dropUfrag u => exact ⟨hk, fun _ e => by simp at e⟩
      | unregister tr' =>
        simp only [Ice.State.apply, Option.filter_eq_some_iff, decide_eq_true_eq] at hk
        refine ⟨hk.1, fun _ e => hk.2 ?_⟩
        simpa [eq_comm] using e
  | check u key' => simp [ownStep] at h
  | tcpClosed id => simp [ownStep] at h

end

/-! ## Where media comes from -/

section

variable (hmac : List UInt8 → List UInt8 → List UInt8)

/-- The datagram is a verified check for the transport. -/
def State.Checks (s : State) (raw : List UInt8) (key : PathKey) (now tr : Nat) (b : Stun.Binding) :
    Prop :=
  (s.receive hmac raw key now).2 = .checked tr ∧ s.verified hmac raw = some (tr, b)

/-- The step leaves the address with its transport: the transport is not unregistered, the
connection does not end, and no check from the address is for another. -/
def State.KeepsAddr (key : PathKey) (tr : Nat) (s : State) : Act → Prop
  | .control .pop => s.ice.recvCmds.head? ≠ some (.unregister tr)
  | .closed id => key ≠ .tcp id
  | .receive raw key' now =>
    key' = key → ∀ tr', (s.receive hmac raw key now).2 = .checked tr' → tr' = tr
  | _ => True

variable {hmac} {acts : List Act}

theorem addr_step {s : State} {a : Act} (hok : (machine hmac).ok s a) {key : PathKey} {tr : Nat}
    (h : ((machine hmac).next s a).ice.byAddr key = some tr) :
    (∃ raw now b, a = .receive raw key now ∧ s.Checks hmac raw key now tr b) ∨
      s.ice.byAddr key = some tr ∧ s.KeepsAddr hmac key tr a := by
  cases a with
  | control c =>
    obtain ⟨hold, hpop⟩ := control_byAddr hok.1 h
    refine .inr ⟨hold, ?_⟩
    cases c with
    | pop => exact hpop rfl
    | newTransport _ => trivial
    | iceRestart _ _ => trivial
    | reap _ => trivial
    | push _ => trivial
    | check _ _ => trivial
    | tcpClosed _ => trivial
  | receive raw key' now =>
    change (s.receive hmac raw key' now).1.ice.byAddr key = some tr at h
    rcases @receive_cases hmac s raw key' now with
      ⟨tr', b, hv, hf, hice, -⟩ | ⟨hno, hice, -⟩
    · rw [hice, check_byAddr hv] at h
      by_cases he : key = key'
      · subst he
        rw [Function.update_self] at h
        obtain rfl := Option.some.inj h
        exact .inl ⟨raw, now, b, rfl, hf, hv⟩
      · rw [Function.update_of_ne he] at h
        exact .inr ⟨h, fun e => absurd e.symm he⟩
    · rw [hice] at h
      refine .inr ⟨h, fun e tr' hf => ?_⟩
      subst e
      exact absurd hf (hno tr')
  | accept => exact .inr ⟨h, trivial⟩
  | closed id =>
    change Function.update s.ice.byAddr (.tcp id) none key = some tr at h
    by_cases he : key = .tcp id
    · rw [he, Function.update_self] at h
      simp at h
    · rw [Function.update_of_ne he] at h
      exact .inr ⟨h, he⟩
  | sendFailed id => exact .inr ⟨h, trivial⟩
  | look tr' now =>
    refine .inr ⟨?_, trivial⟩
    rw [← h]
    change _ = (s.look tr' now).ice.byAddr key
    rw [State.look]
    split_ifs <;> rfl
  | suspect =>
    refine .inr ⟨?_, trivial⟩
    rw [← h]
    change _ = s.suspect.ice.byAddr key
    rw [State.suspect]
    split <;> rfl

/-- **Media comes from where a check came from.** -/
theorem media_from_checked (hl : (machine hmac).Legal {} acts) {raw : List UInt8} {key : PathKey}
    {now tr : Nat} (h : (((machine hmac).exec {} acts).receive hmac raw key now).2 = .media tr) :
    ∃ l₁ raw₀ now₀ b l₂, acts = l₁ ++ .receive raw₀ key now₀ :: l₂ ∧
      ((machine hmac).exec {} l₁).Checks hmac raw₀ key now₀ tr b ∧
      ∀ m₁ a m₂, l₂ = m₁ ++ a :: m₂ →
        ((machine hmac).exec {} (l₁ ++ .receive raw₀ key now₀ :: m₁)).KeepsAddr hmac key tr a := by
  have haddr : ((machine hmac).exec {} acts).ice.byAddr key = some tr := by
    generalize (machine hmac).exec {} acts = s at h
    have hdata : ∀ known, (s.datagram hmac raw key now known).2 = .media tr →
        s.ice.byAddr key = some tr := by
      intro known hd
      cases raw with
      | nil => cases hd
      | cons b0 rest =>
        rw [State.datagram] at hd
        split_ifs at hd
        · cases hv : s.verified hmac (b0 :: rest) <;> simp [hv] at hd
        · cases hk : (s.ice.byAddr key).or known <;> simp [hk] at hd
        · cases hk : s.ice.byAddr key <;> simp [hk] at hd
        · cases hk : s.ice.byAddr key with
          | none => simp [hk] at hd
          | some tr' =>
            simp only [hk] at hd
            exact congrArg some (Fate.media.inj hd)
    rcases @receive_eq hmac s raw key now with ⟨known, conns, heq, -⟩ | ⟨-, hno⟩
    · rw [heq] at h
      exact hdata known h
    · exact absurd (by rw [h]; rfl) (hno tr)
  obtain ⟨l₁, a, l₂, rfl, ⟨raw₀, now₀, b, rfl, hc⟩, hkeep⟩ :=
    Machine.since (P := fun s : State => s.ice.byAddr key = some tr)
      (fun s a hok hP => addr_step hok hP) (by simp) hl haddr
  exact ⟨l₁, raw₀, now₀, b, l₂, rfl, hc, hkeep⟩

/-- A request of `a` to `b` that nominates, with a code of twenty zeros. -/
def request : List UInt8 :=
  [0, 1, 0, 36, 0x21, 0x12, 0xa4, 0x42] ++ List.replicate 12 7 ++ [0, 6, 0, 3, 0x61, 0x3a, 0x62, 0] ++
    [0, 0x25, 0, 0] ++ [0, 8, 0, 20] ++ List.replicate 20 0

/-- The first transport is made and its first check comes in. -/
def joined : List Act :=
  [.control (.newTransport ⟨"a", "pw"⟩), .control (.push 0), .control .pop,
    .receive request (.udp "x") 5]

def zeros (_ _ : List UInt8) : List UInt8 := List.replicate 20 0

theorem media_from_checked_joined : ∃ l₁ raw₀ now₀ b l₂,
    joined = l₁ ++ .receive raw₀ (.udp "x") now₀ :: l₂ ∧
      ((machine zeros).exec {} l₁).Checks zeros raw₀ (.udp "x") now₀ 0 b ∧
      ∀ m₁ a m₂, l₂ = m₁ ++ a :: m₂ →
        ((machine zeros).exec {} (l₁ ++ .receive raw₀ (.udp "x") now₀ :: m₁)).KeepsAddr zeros
          (.udp "x") 0 a := by
  have hmedia : (((machine zeros).exec {} joined).receive zeros [128] (.udp "x") 6).2 = .media 0 := by
    decide
  exact media_from_checked (by decide) hmedia

end

/-! ## Where packets go -/

section

variable {hmac : List UInt8 → List UInt8 → List UInt8} {acts : List Act}

theorem mem_touch {key : PathKey} {now : Nat} {p : Pair} {ps : List Pair}
    (h : p ∈ touch key now ps) : p = ⟨key, now⟩ ∨ p ∈ ps := by
  induction ps with
  | nil => exact .inl (List.mem_singleton.1 h)
  | cons q ps ih =>
    rw [touch] at h
    split_ifs at h
    · exact (List.mem_cons.1 h).imp_right (List.mem_cons_of_mem q)
    · rcases List.mem_cons.1 h with rfl | h
      · exact .inr List.mem_cons_self
      · exact (ih h).imp_right (List.mem_cons_of_mem q)

theorem nominate_pairs (l : Link) (u : Bool) (key : PathKey) :
    (l.nominate u key).pairs = l.pairs := by
  cases u with
  | false => rfl
  | true =>
    simp only [Link.nominate, Link.setState]
    split_ifs <;> rfl

theorem nominate_path (l : Link) (u : Bool) (key : PathKey) :
    (l.nominate u key).path = if u then some key else l.path := by
  cases u with
  | false => rfl
  | true =>
    simp only [Link.nominate, Link.setState]
    split_ifs <;> rfl

/-- Only a check changes the pairs and the path of a transport. -/
theorem links_step (s : State) (a : Act) (tr : Nat) :
    (∃ raw key now b, a = .receive raw key now ∧ s.Checks hmac raw key now tr b ∧
      ((machine hmac).next s a).links tr =
        ((s.links tr).touchPair key now).nominate b.useCandidate key) ∨
    ((∀ raw key now b, a = .receive raw key now → ¬ s.Checks hmac raw key now tr b) ∧
      (((machine hmac).next s a).links tr).pairs = (s.links tr).pairs ∧
      (((machine hmac).next s a).links tr).path = (s.links tr).path) := by
  have hother : (∀ raw key now, a ≠ .receive raw key now) →
      ∀ raw key now b, a = .receive raw key now → ¬ s.Checks hmac raw key now tr b :=
    fun h raw key now b e => absurd e (h raw key now)
  cases a with
  | control c => exact .inr ⟨hother (fun _ _ _ e => by cases e), rfl, rfl⟩
  | receive raw key now =>
    rcases @receive_cases hmac s raw key now with
      ⟨tr', b, hv, hf, -, hlinks⟩ | ⟨hno, -, hlinks⟩
    · by_cases he : tr = tr'
      · subst he
        refine .inl ⟨raw, key, now, b, rfl, ⟨hf, hv⟩, ?_⟩
        change (s.receive hmac raw key now).1.links tr = _
        rw [hlinks]
        exact Function.update_self ..
      · refine .inr ⟨?_, ?_⟩
        · intro raw₀ key₀ now₀ b₀ e hc
          obtain ⟨rfl, rfl, rfl⟩ := Act.receive.inj e
          exact he (Fate.checked.inj (hc.1.symm.trans hf))
        · change ((s.receive hmac raw key now).1.links tr).pairs = _ ∧
            ((s.receive hmac raw key now).1.links tr).path = _
          rw [hlinks]
          simp [State.check, Function.update_of_ne he]
    · refine .inr ⟨?_, ?_⟩
      · intro raw₀ key₀ now₀ b₀ e hc
        obtain ⟨rfl, rfl, rfl⟩ := Act.receive.inj e
        exact hno tr hc.1
      · change ((s.receive hmac raw key now).1.links tr).pairs = _ ∧
          ((s.receive hmac raw key now).1.links tr).path = _
        rw [hlinks]
        exact ⟨rfl, rfl⟩
  | accept => exact .inr ⟨hother (fun _ _ _ e => by cases e), rfl, rfl⟩
  | closed id => exact .inr ⟨hother (fun _ _ _ e => by cases e), rfl, rfl⟩
  | sendFailed id => exact .inr ⟨hother (fun _ _ _ e => by cases e), rfl, rfl⟩
  | look tr' now =>
    refine .inr ⟨hother (fun _ _ _ e => by cases e), ?_⟩
    change ((s.look tr' now).links tr).pairs = _ ∧ ((s.look tr' now).links tr).path = _
    rw [State.look]
    split_ifs <;> exact ⟨rfl, rfl⟩
  | suspect =>
    refine .inr ⟨hother (fun _ _ _ e => by cases e), ?_⟩
    change (s.suspect.links tr).pairs = _ ∧ (s.suspect.links tr).path = _
    rw [State.suspect]
    cases s.dying with
    | none => exact ⟨rfl, rfl⟩
    | some tr' =>
      by_cases he : tr = tr'
      · subst he
        simp only [Function.update_self, Link.setState]
        split_ifs <;> exact ⟨rfl, rfl⟩
      · simp [Function.update_of_ne he]

/-- A pair is as old as the last check from its address. -/
theorem pair_since (hl : (machine hmac).Legal {} acts) {tr : Nat} {p : Pair}
    (h : p ∈ (((machine hmac).exec {} acts).links tr).pairs) :
    ∃ l₁ raw b l₂, acts = l₁ ++ .receive raw p.key p.lastMs :: l₂ ∧
      ((machine hmac).exec {} l₁).Checks hmac raw p.key p.lastMs tr b := by
  obtain ⟨l₁, a, l₂, rfl, ⟨raw, b, rfl, hc⟩, -⟩ :=
    Machine.since (P := fun s : State => p ∈ (s.links tr).pairs)
      (B := fun s a => ∃ raw b, a = .receive raw p.key p.lastMs ∧
        s.Checks hmac raw p.key p.lastMs tr b) (K := fun _ _ => True)
      (fun s a _ hP => by
        rcases @links_step hmac s a tr with
          ⟨raw, key, now, b, rfl, hc, hlink⟩ | ⟨-, hpairs, -⟩
        · rw [hlink, nominate_pairs] at hP
          rcases mem_touch hP with rfl | hP
          · exact .inl ⟨raw, b, rfl, hc⟩
          · exact .inr ⟨hP, trivial⟩
        · rw [hpairs] at hP
          exact .inr ⟨hP, trivial⟩)
      (by simp) hl h
  exact ⟨l₁, raw, b, l₂, rfl, hc⟩

/-- No check of the transport is from another address and nominates it. -/
def State.KeepsPath (hmac : List UInt8 → List UInt8 → List UInt8) (key : PathKey) (tr : Nat)
    (s : State) (a : Act) : Prop :=
  ∀ raw key' now b, a = .receive raw key' now → s.Checks hmac raw key' now tr b →
    b.useCandidate = true → key' = key

/-- The path of a transport is that of its last nominating check. -/
theorem path_since (hl : (machine hmac).Legal {} acts) {tr : Nat} {key : PathKey}
    (h : (((machine hmac).exec {} acts).links tr).path = some key) :
    ∃ l₁ raw now b l₂, acts = l₁ ++ .receive raw key now :: l₂ ∧
      ((machine hmac).exec {} l₁).Checks hmac raw key now tr b ∧ b.useCandidate = true ∧
      ∀ m₁ a m₂, l₂ = m₁ ++ a :: m₂ →
        ((machine hmac).exec {} (l₁ ++ .receive raw key now :: m₁)).KeepsPath hmac key tr a := by
  obtain ⟨l₁, a, l₂, rfl, ⟨raw, now, b, rfl, hc, hu⟩, hkeep⟩ :=
    Machine.since (P := fun s : State => (s.links tr).path = some key)
      (B := fun s a => ∃ raw now b, a = .receive raw key now ∧
        s.Checks hmac raw key now tr b ∧ b.useCandidate = true)
      (K := fun s a => s.KeepsPath hmac key tr a)
      (fun s a _ hP => by
        rcases @links_step hmac s a tr with
          ⟨raw, key', now, b, rfl, hc, hlink⟩ | ⟨hno, -, hpath⟩
        · rw [hlink, nominate_path] at hP
          split_ifs at hP with hu
          · obtain rfl := Option.some.inj hP
            exact .inl ⟨raw, now, b, rfl, hc, hu⟩
          · refine .inr ⟨hP, fun raw₀ key₀ now₀ b₀ e hc₀ hu₀ => ?_⟩
            obtain ⟨rfl, rfl, rfl⟩ := Act.receive.inj e
            obtain ⟨-, rfl⟩ := Prod.mk.inj (Option.some.inj (hc.2.symm.trans hc₀.2))
            exact absurd hu₀ hu
        · rw [hpath] at hP
          exact .inr ⟨hP, fun raw₀ key₀ now₀ b₀ e hc₀ _ => absurd hc₀ (hno raw₀ key₀ now₀ b₀ e)⟩)
      (by simp) hl h
  exact ⟨l₁, raw, now, b, l₂, rfl, hc, hu, hkeep⟩

/-- A connection can be written since it was accepted. -/
theorem open_since (hl : (machine hmac).Legal {} acts) {id : Nat}
    (h : ((machine hmac).exec {} acts).tcpOpen id = true) :
    ∃ l₁ l₂, acts = l₁ ++ .accept :: l₂ ∧ ((machine hmac).exec {} l₁).nextTok = id ∧
      .closed id ∉ l₂ ∧ .sendFailed id ∉ l₂ := by
  obtain ⟨l₁, a, l₂, rfl, ⟨rfl, htok⟩, hkeep⟩ :=
    Machine.since (P := fun s : State => s.tcpOpen id = true)
      (B := fun s a => a = .accept ∧ s.nextTok = id)
      (K := fun _ a => a ≠ .closed id ∧ a ≠ .sendFailed id)
      (fun s a _ hP => by
        cases a with
        | control c => exact .inr ⟨hP, by simp⟩
        | receive raw key now =>
          change (s.receive hmac raw key now).1.tcpOpen id = true at hP
          rw [receive_tcpOpen] at hP
          exact .inr ⟨hP, by simp⟩
        | accept =>
          by_cases he : s.nextTok = id
          · exact .inl ⟨rfl, he⟩
          · refine .inr ⟨?_, by simp⟩
            simpa [machine, State.next, State.tcpOpen, Function.update_of_ne (Ne.symm he)] using hP
        | closed id' =>
          by_cases he : id = id'
          · simp [machine, State.next, State.closed, State.tcpOpen, he] at hP
          · refine .inr ⟨?_, by simpa [eq_comm] using he⟩
            simpa [machine, State.next, State.closed, State.tcpOpen, Function.update_of_ne he]
              using hP
        | sendFailed id' =>
          by_cases he : id = id'
          · subst he
            cases hc : s.conns id <;>
              simp [machine, State.next, State.tcpOpen, hc] at hP
          · refine .inr ⟨?_, by simpa [eq_comm] using he⟩
            simpa [machine, State.next, State.tcpOpen, Function.update_of_ne he] using hP
        | look tr now =>
          refine .inr ⟨?_, by simp⟩
          change (s.look tr now).tcpOpen id = true at hP
          rw [State.look] at hP
          split_ifs at hP <;> exact hP
        | suspect =>
          refine .inr ⟨?_, by simp⟩
          change s.suspect.tcpOpen id = true at hP
          rw [State.suspect] at hP
          split at hP <;> exact hP)
      (by simp [State.tcpOpen]) hl h
  refine ⟨l₁, l₂, rfl, htok, ?_, ?_⟩
  · intro hm
    obtain ⟨m₁, m₂, e⟩ := List.append_of_mem hm
    exact (hkeep m₁ _ m₂ e).1 rfl
  · intro hm
    obtain ⟨m₁, m₂, e⟩ := List.append_of_mem hm
    exact (hkeep m₁ _ m₂ e).2 rfl

/-- Where the control path is, there is a pair for it or it was nominated, and it is alive. -/
theorem controlPath_some {l : Link} {tcpOpen : Nat → Bool} {now : Nat} {key : PathKey}
    (h : l.controlPath tcpOpen now = some key) :
    (∀ a, key = .udp a → ∃ p ∈ l.pairs, p.key = key ∧ now - p.lastMs ≤ udpPairExpireMs) ∧
      (∀ id, key = .tcp id → tcpOpen id = true) ∧
      (l.path = some key ∨ l.path = none ∧ ∃ p ∈ l.pairs, p.key = key) := by
  rw [Link.controlPath] at h
  cases hp : l.path with
  | some k =>
    simp only [hp, Option.isSome_some, if_true, Link.sendOk, Link.pathAlive, Option.bind_some] at h
    cases k with
    | udp a =>
      simp only at h
      split_ifs at h with ha
      obtain rfl := Option.some.inj h
      refine ⟨fun _ _ => ?_, (fun id e => by cases e), .inl rfl⟩
      obtain ⟨p, hf, hfresh⟩ := (Option.any_eq_true _ _).1 ha
      exact ⟨p, List.mem_of_find?_eq_some hf, by simpa using List.find?_some hf,
        of_decide_eq_true hfresh⟩
    | tcp id =>
      simp only at h
      split_ifs at h with ho
      obtain rfl := Option.some.inj h
      refine ⟨(fun a e => by cases e), fun id' e => ?_, .inl rfl⟩
      rw [← PathKey.tcp.inj e, ho]
  | none =>
    simp only [hp, Option.isSome_none, Bool.false_eq_true, if_false] at h
    obtain ⟨last, hlast, h⟩ := Option.bind_eq_some_iff.1 h
    have hmem : last ∈ l.pairs := List.mem_of_getLast? hlast
    cases hk : last.key with
    | udp a =>
      simp only [hk] at h
      split_ifs at h with ha
      obtain rfl := Option.some.inj h
      exact ⟨fun _ _ => ⟨last, hmem, hk, of_decide_eq_true ha⟩, (fun id e => by cases e),
        .inr ⟨rfl, last, hmem, hk⟩⟩
    | tcp id =>
      simp only [hk] at h
      split_ifs at h with ho
      obtain rfl := Option.some.inj h
      refine ⟨(fun a e => by cases e), fun id' e => ?_, .inr ⟨rfl, last, hmem, hk⟩⟩
      rw [← PathKey.tcp.inj e, ho]

/-- **A packet goes only to where a check came from.** -/
theorem sent_where_checked (hl : (machine hmac).Legal {} acts) {tr now : Nat} {key : PathKey}
    (h : (((machine hmac).exec {} acts).links tr).controlPath
      ((machine hmac).exec {} acts).tcpOpen now = some key) :
    (∃ l₁ raw now₀ b l₂, acts = l₁ ++ .receive raw key now₀ :: l₂ ∧
      ((machine hmac).exec {} l₁).Checks hmac raw key now₀ tr b ∧
      ((((machine hmac).exec {} acts).links tr).path ≠ none → b.useCandidate = true ∧
        ∀ m₁ a m₂, l₂ = m₁ ++ a :: m₂ →
          ((machine hmac).exec {} (l₁ ++ .receive raw key now₀ :: m₁)).KeepsPath hmac key tr a)) ∧
    (∀ a, key = .udp a → ∃ l₁ raw now₀ b l₂, acts = l₁ ++ .receive raw key now₀ :: l₂ ∧
      ((machine hmac).exec {} l₁).Checks hmac raw key now₀ tr b ∧ now - now₀ ≤ udpPairExpireMs) ∧
    (∀ id, key = .tcp id → ∃ l₁ l₂, acts = l₁ ++ .accept :: l₂ ∧
      ((machine hmac).exec {} l₁).nextTok = id ∧ .closed id ∉ l₂ ∧ .sendFailed id ∉ l₂) := by
  obtain ⟨hudp, htcp, hpath⟩ := controlPath_some h
  refine ⟨?_, ?_, ?_⟩
  · rcases hpath with hpath | ⟨hnone, p, hp, hk⟩
    · obtain ⟨l₁, raw, now₀, b, l₂, hacts, hc, hu, hkeep⟩ := path_since hl hpath
      exact ⟨l₁, raw, now₀, b, l₂, hacts, hc, fun _ => ⟨hu, hkeep⟩⟩
    · obtain ⟨l₁, raw, b, l₂, hacts, hc⟩ := pair_since hl hp
      rw [hk] at hacts hc
      exact ⟨l₁, raw, p.lastMs, b, l₂, hacts, hc, fun hne => absurd hnone hne⟩
  · intro a ha
    obtain ⟨p, hp, hk, hfresh⟩ := hudp a ha
    obtain ⟨l₁, raw, b, l₂, hacts, hc⟩ := pair_since hl hp
    rw [hk] at hacts hc
    exact ⟨l₁, raw, p.lastMs, b, l₂, hacts, hc, hfresh⟩
  · intro id hid
    exact open_since hl (htcp id hid)

theorem sent_where_checked_joined : ∃ l₁ raw now₀ b l₂,
    joined = l₁ ++ .receive raw (.udp "x") now₀ :: l₂ ∧
      ((machine zeros).exec {} l₁).Checks zeros raw (.udp "x") now₀ 0 b ∧ 7 - now₀ ≤ 30000 := by
  have hpath : (((machine zeros).exec {} joined).links 0).controlPath
      ((machine zeros).exec {} joined).tcpOpen 7 = some (.udp "x") := by decide
  exact (sent_where_checked (by decide) hpath).2.1 "x" rfl

/-! ## Why a peer is suspected -/

theorem nominate_state {l : Link} {u : Bool} {key : PathKey}
    (h : (l.nominate u key).state = .suspect) : u = false ∧ l.state = .suspect := by
  cases u with
  | false => exact ⟨rfl, h⟩
  | true =>
    simp only [Link.nominate, Link.setState, if_true] at h
    split_ifs at h with ha
    exact absurd (ha.symm.trans h) (by decide)

theorem state_step {s : State} {a : Act} {tr : Nat}
    (h : (((machine hmac).next s a).links tr).state = .suspect) :
    (a = .suspect ∧ s.dying = some tr) ∨
      (s.links tr).state = .suspect ∧ ∀ raw key now b, a = .receive raw key now →
        s.Checks hmac raw key now tr b → b.useCandidate = false := by
  cases a with
  | control c => exact .inr ⟨h, fun _ _ _ _ e => by cases e⟩
  | receive raw key now =>
    rcases @links_step hmac s (.receive raw key now) tr with
      ⟨raw₀, key₀, now₀, b, e, hc, hlink⟩ | ⟨hno, -, -⟩
    · obtain ⟨rfl, rfl, rfl⟩ := Act.receive.inj e
      rw [hlink] at h
      obtain ⟨hu, hs⟩ := nominate_state h
      refine .inr ⟨hs, fun raw₁ key₁ now₁ b₁ e₁ hc₁ => ?_⟩
      obtain ⟨rfl, rfl, rfl⟩ := Act.receive.inj e₁
      obtain ⟨-, rfl⟩ := Prod.mk.inj (Option.some.inj (hc.2.symm.trans hc₁.2))
      exact hu
    · refine .inr ⟨?_, fun raw₁ key₁ now₁ b₁ e hc => absurd hc (hno raw₁ key₁ now₁ b₁ e)⟩
      rw [← h]
      change _ = ((s.receive hmac raw key now).1.links tr).state
      rcases @receive_cases hmac s raw key now with ⟨tr', b, hv, hf, -, hlinks⟩ | ⟨-, -, hl⟩
      · have hne : tr ≠ tr' := fun e => hno raw key now b rfl ⟨e ▸ hf, e ▸ hv⟩
        rw [hlinks]
        simp [State.check, Function.update_of_ne hne]
      · rw [hl]
  | accept => exact .inr ⟨h, fun _ _ _ _ e => by cases e⟩
  | closed id => exact .inr ⟨h, fun _ _ _ _ e => by cases e⟩
  | sendFailed id => exact .inr ⟨h, fun _ _ _ _ e => by cases e⟩
  | look tr' now =>
    refine .inr ⟨?_, fun _ _ _ _ e => by cases e⟩
    change ((s.look tr' now).links tr).state = .suspect at h
    rw [State.look] at h
    split_ifs at h <;> exact h
  | suspect =>
    change (s.suspect.links tr).state = .suspect at h
    rw [State.suspect] at h
    cases hd : s.dying with
    | none =>
      simp only [hd] at h
      exact .inr ⟨h, fun _ _ _ _ e => by cases e⟩
    | some tr' =>
      by_cases he : tr = tr'
      · exact .inl ⟨rfl, he ▸ rfl⟩
      · simp only [hd, Function.update_of_ne he] at h
        exact .inr ⟨h, fun _ _ _ _ e => by cases e⟩

/-- A nominated path of the peer is dead. -/
def State.PathDead (s : State) (tr now : Nat) : Prop :=
  (s.links tr).path.isSome ∧ (s.links tr).state = .alive ∧
    (s.links tr).pathAlive s.tcpOpen now = false

theorem dying_step {s : State} {a : Act} {tr : Nat}
    (h : ((machine hmac).next s a).dying = some tr) :
    (∃ now, a = .look tr now ∧ s.PathDead tr now) ∨ s.dying = some tr ∧ a ≠ .suspect := by
  cases a with
  | control c => exact .inr ⟨h, by simp⟩
  | receive raw key now =>
    change (s.receive hmac raw key now).1.dying = some tr at h
    rw [(receive_dying s raw key now).1] at h
    exact .inr ⟨h, by simp⟩
  | accept => exact .inr ⟨h, by simp⟩
  | closed id => exact .inr ⟨h, by simp⟩
  | sendFailed id => exact .inr ⟨h, by simp⟩
  | look tr' now =>
    change (s.look tr' now).dying = some tr at h
    rw [State.look] at h
    split_ifs at h with hdead
    · obtain rfl := Option.some.inj h
      exact .inl ⟨now, rfl, hdead⟩
    · exact .inr ⟨h, by simp⟩
  | suspect =>
    change s.suspect.dying = some tr at h
    rw [State.suspect] at h
    cases hd : s.dying with
    | none => simp [hd] at h
    | some tr' => simp [hd] at h

/-- **A peer is `Suspect` since its nominated path was found dead.** -/
theorem suspect_since (hl : (machine hmac).Legal {} acts) {tr : Nat}
    (h : (((machine hmac).exec {} acts).links tr).state = .suspect) :
    ∃ l₁ now l₂ l₃, acts = l₁ ++ .look tr now :: l₂ ++ .suspect :: l₃ ∧
      ((machine hmac).exec {} l₁).PathDead tr now ∧ .suspect ∉ l₂ ∧
      ∀ m₁ raw key now' m₂ b, l₃ = m₁ ++ .receive raw key now' :: m₂ →
        ((machine hmac).exec {} (l₁ ++ .look tr now :: l₂ ++ .suspect :: m₁)).Checks
          hmac raw key now' tr b → b.useCandidate = false := by
  obtain ⟨k, a, l₃, rfl, ⟨rfl, hdying⟩, hkeep⟩ :=
    Machine.since (P := fun s : State => (s.links tr).state = .suspect)
      (fun s a _ hP => state_step hP) (by simp) hl h
  obtain ⟨hlk, -⟩ := (Machine.legal_append _ _ _ _).1 hl
  obtain ⟨l₁, a, l₂, rfl, ⟨now, rfl, hdead⟩, hno⟩ :=
    Machine.since (P := fun s : State => s.dying = some tr)
      (fun s a _ hP => dying_step hP) (by simp) hlk hdying
  refine ⟨l₁, now, l₂, l₃, rfl, hdead, ?_, ?_⟩
  · intro hm
    obtain ⟨m₁, m₂, e⟩ := List.append_of_mem hm
    exact hno m₁ _ m₂ e rfl
  · intro m₁ raw key now' m₂ b e hc
    exact hkeep m₁ _ m₂ e raw key now' b rfl hc

theorem suspect_since_joined : ∃ l₁ now l₂ l₃,
    joined ++ [.look 0 40000, .suspect] = l₁ ++ .look 0 now :: l₂ ++ .suspect :: l₃ ∧
      ((machine zeros).exec {} l₁).PathDead 0 now ∧ .suspect ∉ l₂ ∧
      ∀ m₁ raw key now' m₂ b, l₃ = m₁ ++ .receive raw key now' :: m₂ →
        ((machine zeros).exec {} (l₁ ++ .look 0 now :: l₂ ++ .suspect :: m₁)).Checks
          zeros raw key now' 0 b → b.useCandidate = false :=
  suspect_since (by decide) (by decide)

end

end OxlensSfu.Recv
