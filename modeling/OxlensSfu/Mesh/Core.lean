import OxlensSfu.Mesh.Wire

/-!
# The core of a mesh node

One task holds the state of a node, router or client, and handles one event after another
(`crates/oxmesh/src/core.rs`): commands of its own process, messages and ends of its sessions,
ticks of its clock and new connections. What an event sends or delivers is added to `fx`.

The order in which a hash map yields its entries, the clock and what other tasks know (full lanes,
receivers that are gone, sessions that are silent) are inputs of an event. Numbers do not wrap.
-/

namespace OxlensSfu.Mesh

def backoffMin : Nat := 100

def backoffMax : Nat := 250

inductive Owner where
  | loc (id : Nat)
  | sess (uid : Nat)
  deriving DecidableEq, Repr

inductive Target where
  | loc (id : Nat)
  | sess (uid : Nat)
  deriving DecidableEq, Repr

/-- Who asked: a call of the own process, or a session with its number for the query. -/
inductive Origin where
  | loc (tx : Nat)
  | sess (uid qid : Nat)
  deriving DecidableEq, Repr

structure Pending where
  origin : Origin
  targets : List Target
  deadline : Nat
  deriving DecidableEq, Repr

structure LTokenSub where
  expr : String
  seen : List String := []
  deriving DecidableEq, Repr

structure Sess where
  peer : String
  role : Role
  dialer : String
  boot : Nat
  sno : Nat
  adv : Option String := none
  stream : Nat
  decls : Map (DeclKind × Nat) String := ∅
  tsubs : Map Nat String := ∅
  peers : List (String × String) := []

structure Dial where
  seed : Bool
  node : Option String := none
  busy : Bool := false
  next : Nat := 0
  backoff : Nat := backoffMin
  deriving DecidableEq, Repr

/-! ## The subscription index -/

structure SubIndex where
  exprs : Map (Owner × Nat) String := ∅
  exact : Map String (List (Owner × Nat)) := ∅
  wild : List (Owner × Nat) := []

namespace SubIndex

/-- The entry leaves the set of its expression, and an empty set leaves the map. -/
def dropExact (m : Map String (List (Owner × Nat))) (e : String) (k : Owner × Nat) :
    Map String (List (Owner × Nat)) :=
  match m.lookup e with
  | none => m
  | some set =>
    if set.filter (· ≠ k) = [] then m.erase e else m.insert e (set.filter (· ≠ k))

def remove (x : SubIndex) (o : Owner) (id : Nat) : SubIndex :=
  match x.exprs.lookup (o, id) with
  | none => x
  | some e =>
    { exprs := x.exprs.erase (o, id)
      exact := dropExact x.exact e (o, id)
      wild := x.wild.filter (· ≠ (o, id)) }

def add (x : SubIndex) (o : Owner) (id : Nat) (expr : String) : SubIndex :=
  let x := x.remove o id
  { exprs := x.exprs.insert (o, id) expr
    exact := if concrete expr then
        x.exact.insert expr (((x.exact.lookup expr).getD []).insert (o, id))
      else x.exact
    wild := if concrete expr then x.wild else x.wild.insert (o, id) }

def matching (x : SubIndex) (key : String) : List (Owner × Nat) :=
  (x.exact.lookup key).getD [] ++
    x.wild.filter fun k => (x.exprs.lookup k).any (intersects · key)

end SubIndex

/-! ## The state -/

/-- What an event sends, delivers or decides. -/
inductive Fx where
  /-- `send_direct` on a stream that is no session. -/
  | direct (stream : Nat) (m : Msg)
  /-- A push to the outbox of a session, and whether it was queued. -/
  | push (uid : Nat) (m : Msg) (queued : Bool)
  | shut (uid : Nat) (reason : Option CloseReason)
  | dial (addr : String) (hello : Hello)
  | token (id : Nat) (kind : TokenEvtKind) (key : String)
  | sample (id : Nat) (key : String) (payload : Payload)
  | query (qid qabl : Nat) (expr : String) (payload : Payload)
  /-- The reply of a target goes to whoever asked: a push of `Msg.reply`, or a send. -/
  | reply (q : Nat) (t : Target) (origin : Origin) (key : String) (ok : Bool) (payload : Payload)
      (queued : Bool)
  /-- A push of `Msg.final` to the session that asked. -/
  | final (q uid qid : Nat) (queued : Bool)
  /-- A query is asked of its targets. -/
  | asked (q : Nat) (origin : Origin) (targets : List Target)
  /-- A target of the query is done with it. -/
  | ended (q : Nat) (t : Target)
  deriving DecidableEq, Repr

structure Core where
  node : String
  router : Bool
  boot : Nat
  leaseMs : Nat := 400
  adv : Option String := none
  running : Bool := true
  nextUid : Nat := 1
  nextId : Nat := 1
  nextSno : Nat := 1
  sessions : Map Nat Sess := ∅
  byPeer : Map String Nat := ∅
  lTokens : Map Nat String := ∅
  lSubs : Map Nat String := ∅
  lQabls : Map Nat String := ∅
  lTsubs : Map Nat LTokenSub := ∅
  tok : Map String Nat := ∅
  subs : SubIndex := {}
  out : Map Nat (DeclKind × String) := ∅
  south : Map (Nat × DeclKind × Nat) Nat := ∅
  pending : Map Nat Pending := ∅
  dials : Map String Dial := ∅
  known : Map String String := ∅
  fx : List Fx := []

/-- What the core finds when it handles an event. -/
structure Told where
  now : Nat := 0
  /-- The bounded lane of the session has no room, when so much has been sent. -/
  full : Nat → Nat → Bool := fun _ _ => false
  /-- The receiver of the queryable is gone. -/
  deaf : Nat → Bool := fun _ => false
  /-- No frame of the session has come for longer than the lease. -/
  silent : Nat → Bool := fun _ => false
  /-- The stream of a new connection fails when it is written to. -/
  broken : Bool := false
  uids : Shuffle Nat := default
  qids : Nat → Shuffle Nat := fun _ => default
  decls : Nat → Shuffle ((_ : DeclKind × Nat) × String) := fun _ => default
  locals : Shuffle ((_ : Nat) × String) := default
  targets : Shuffle Target := default

inductive Cmd where
  | declareToken (key : String)
  | subscribe (expr : String)
  | queryable (expr : String)
  | tokenSub (expr : String) (history : Bool)
  | undeclare (kind : DeclKind) (id : Nat)
  | tokenUnsub (id : Nat)
  | put (key : String) (payload : Payload)
  | get (expr : String) (payload : Payload) (timeoutMs : Nat) (tx : Nat)
  | localReply (qid qabl : Nat) (key : String) (ok : Bool) (payload : Payload)
  | localFinal (qid qabl : Nat)
  | close
  deriving DecidableEq, Repr

inductive Ev where
  | cmd (c : Cmd)
  | msg (uid : Nat) (m : Msg)
  | closed (uid : Nat) (reason : CloseReason)
  | paused
  | tick (gap : Nat)
  | accepted (stream : Nat) (hello : Hello)
  | dialed (target : String) (sno : Nat) (res : Option (Nat × Hello))
  deriving DecidableEq, Repr

namespace Core

protected def new (node : String) (router : Bool) (leaseMs boot : Nat) (adv : Option String)
    (seeds : List String) : Core :=
  { node, router, boot, adv
    leaseMs := max leaseMs 400
    dials := seeds.foldl (fun m a => m.insert a { seed := true }) ∅ }

def emits (c : Core) (l : List Fx) : Core := { c with fx := c.fx ++ l }

def emit (c : Core) (x : Fx) : Core := c.emits [x]

/-- The push to the session is queued. -/
def takes (c : Core) (o : Told) (uid : Nat) (m : Msg) : Bool :=
  m.lane.unbounded || !o.full uid c.fx.length

/-- A push on a lane without bound. -/
def push (c : Core) (uid : Nat) (m : Msg) : Core := c.emit (.push uid m true)

/-- The sessions of a role, each with its number. -/
def having (c : Core) (role : Role) : List ((_ : Nat) × Sess) :=
  c.sessions.entries.filter (·.2.role = role)

/-- A push to every session with a router. -/
def toRouters (c : Core) (m : Msg) : Core :=
  c.emits ((c.having .router).map fun x => .push x.1 m true)

def peerList (c : Core) : List (String × String) :=
  ((c.having .router).filterMap fun x => x.2.adv.map (x.2.peer, ·)).insertionSort
    fun a b => a.1 < b.1 ∨ a.1 = b.1 ∧ a.2 ≤ b.2

def myHello (c : Core) (sno : Nat) : Hello :=
  { role := if c.router then .router else .client
    node := c.node, boot := c.boot, sno, adv := c.adv, peers := c.peerList }

def broadcastPeers (c : Core) : Core := c.toRouters (.peers c.peerList)

def announce (c : Core) (m : Msg) : Core := if c.router then c.toRouters m else c

/-- A client talks to one of its sessions. -/
def upstream (c : Core) (o : Told) : Option Nat :=
  if c.router then none else (o.uids.run c.sessions.keys).head?

/-- A client tells its upstream. -/
def tellUpstream (c : Core) (o : Told) (m : Msg) : Core :=
  match c.upstream o with
  | some u => c.push u m
  | none => c

/-! ## Tokens -/

def tokNotify (c : Core) (kind : TokenEvtKind) (key : String) : Core :=
  c.emits (((c.lTsubs.entries.filter fun t => intersects t.2.expr key).map
      fun t => .token t.1 kind key) ++
    (c.having .client).flatMap fun s => (s.2.tsubs.entries.filter fun t => intersects t.2 key).map
      fun t => .push s.1 (.tokenEvt t.1 kind key) true)

def tokAdd (c : Core) (key : String) : Core :=
  match c.tok.lookup key with
  | some n => { c with tok := c.tok.insert key (n + 1) }
  | none => { c with tok := c.tok.insert key 1 }.tokNotify .put key

/-- The answer says whether it was the last of the key. -/
def tokDel (c : Core) (key : String) : Core × Bool :=
  match c.tok.lookup key with
  | none => (c, false)
  | some n =>
    if 1 < n then ({ c with tok := c.tok.insert key (n - 1) }, false)
    else ({ c with tok := c.tok.erase key }.tokNotify .delete key, true)

def batchEnd (c : Core) : Core :=
  c.emits ((c.lTsubs.entries.map fun t => .token t.1 .batchEnd "") ++
    (c.having .client).flatMap fun s => s.2.tsubs.entries.map
      fun t => .push s.1 (.tokenEvt t.1 .batchEnd "") true)

def history (c : Core) (expr : String) : List String :=
  (c.tok.keys.filter (intersects expr)).insertionSort (· ≤ ·)

/-! ## Queries -/

/-- `t` is the target whose reply it is. -/
def forwardReply (c : Core) (o : Told) (q : Nat) (t : Target) (key : String) (ok : Bool)
    (payload : Payload) : Core :=
  match c.pending.lookup q with
  | none => c
  | some p =>
    match p.origin with
    | .loc _ => c.emit (.reply q t p.origin key ok payload true)
    | .sess uid theirs =>
      if uid ∈ c.sessions then
        c.emit (.reply q t p.origin key ok payload
          (c.takes o uid (.reply theirs key ok payload)))
      else c

def finish (c : Core) (o : Told) (q : Nat) : Core :=
  match c.pending.lookup q with
  | none => c
  | some p =>
    let c := { c with pending := c.pending.erase q }
    match p.origin with
    | .loc _ => c
    | .sess uid theirs =>
      if uid ∈ c.sessions then c.emit (.final q uid theirs (c.takes o uid (.final theirs))) else c

/-- The target leaves the query, and the last one ends it. -/
def dropTarget (c : Core) (o : Told) (q : Nat) (p : Pending) (t : Target) : Core :=
  if t ∈ p.targets then
    let ts := p.targets.filter (· ≠ t)
    let c := { c with pending := c.pending.insert q { p with targets := ts } }.emit (.ended q t)
    if ts = [] then c.finish o q else c
  else c

def targetDone (c : Core) (o : Told) (q : Nat) (t : Target) : Core :=
  match c.pending.lookup q with
  | none => c
  | some p => c.dropTarget o q p t

def laneFull : Payload := "mesh: request lane full".toUTF8.toList

/-- The query goes to one target. -/
def ask (o : Told) (q : Nat) (expr : String) (payload : Payload) (timeoutMs : Nat) (c : Core)
    (t : Target) : Core :=
  match t with
  | .loc id =>
    if id ∈ c.lQabls then
      if o.deaf id then c.targetDone o q t else c.emit (.query q id expr payload)
    else c
  | .sess u =>
    let m := .request q expr payload timeoutMs
    match c.sessions.lookup u with
    | some s =>
      let queued := c.takes o u m
      let c := c.emit (.push u m queued)
      if queued then c else (c.forwardReply o q t s.peer false laneFull).targetDone o q t
    | none => (c.forwardReply o q t "" false laneFull).targetDone o q t

/-- The session that asked. -/
def Origin.src : Origin → Option Nat
  | .loc _ => none
  | .sess uid _ => some uid

/-- The session is there and its peer a router. -/
def fromRouter (c : Core) (src : Option Nat) : Bool :=
  (src.bind (c.sessions.lookup ·)).any (·.role = .router)

/-- The session is asked. -/
def hit (c : Core) (src : Option Nat) (expr : String) (u : Nat) (s : Sess) : Bool :=
  some u ≠ src &&
    if c.router then
      !(c.fromRouter src && s.role = .router) &&
        s.decls.entries.any fun d => d.1.1 = .qabl && intersects d.2 expr
    else src = none

def targets (c : Core) (src : Option Nat) (expr : String) : List Target :=
  ((c.lQabls.entries.filter fun x => intersects x.2 expr).map fun x => .loc x.1) ++
    (c.sessions.entries.filter fun x => c.hit src expr x.1 x.2).map fun x => .sess x.1

def routeGet (c : Core) (o : Told) (origin : Origin) (expr : String) (payload : Payload)
    (timeoutMs : Nat) : Core :=
  let q := c.nextId
  let ts := c.targets (Origin.src origin) expr
  let c := { c with
    nextId := q + 1
    pending := c.pending.insert q { origin, targets := ts, deadline := o.now + timeoutMs } }
  let c := c.emit (.asked q origin ts)
  let c := (o.targets.run ts).foldl (ask o q expr payload timeoutMs) c
  if (c.pending.lookup q).any (·.targets = []) then c.finish o q else c

/-! ## Puts -/

/-- The samples and messages of one put. A session gets one, and a router does not pass on what it
has from a router. -/
def deliveries (c : Core) (o : Told) (src : Option Nat) (key : String) (payload : Payload) :
    List (Owner × Nat) → List Nat → List Fx
  | [], _ => []
  | (.loc _, id) :: rest, sent =>
    (if id ∈ c.lSubs then [.sample id key payload] else []) ++
      c.deliveries o src key payload rest sent
  | (.sess u, _) :: rest, sent =>
    if some u = src ∨ u ∈ sent then c.deliveries o src key payload rest sent
    else
      ((c.sessions.lookup u).toList.filter fun s => !(c.fromRouter src && s.role = .router)).map
        (fun _ => .push u (.put key payload) (c.takes o u (.put key payload))) ++
          c.deliveries o src key payload rest (u :: sent)

def routePut (c : Core) (o : Told) (src : Option Nat) (key : String) (payload : Payload) : Core :=
  let c := c.emits (c.deliveries o src key payload (c.subs.matching key) [])
  match c.upstream o with
  | some u =>
    if src = none then c.emit (.push u (.put key payload) (c.takes o u (.put key payload))) else c
  | none => c

/-! ## Sessions -/

/-- A declaration of a session leaves the tokens or the subscription index. The answer says whether
it was the last token of its key. -/
def unlist (c : Core) (uid : Nat) (d : DeclKind × Nat) (expr : String) : Core × Bool :=
  match d.1 with
  | .token => c.tokDel expr
  | .sub => ({ c with subs := c.subs.remove (.sess uid) d.2 }, false)
  | .qabl => (c, false)

/-- The routers are told that a declaration of a client is gone. -/
def retract (c : Core) (uid : Nat) (d : DeclKind × Nat) : Core :=
  match c.south.lookup (uid, d) with
  | none => c
  | some rid =>
    { c with south := c.south.erase (uid, d), out := c.out.erase rid }.announce
      (.undeclare d.1 rid)

/-- One declaration of a session that is closed. -/
def closeDecl (uid : Nat) (x : Core × Bool) (d : (_ : DeclKind × Nat) × String) : Core × Bool :=
  let (c, last) := x.1.unlist uid d.1 d.2
  (c.retract uid d.1, x.2 || last)

/-- A query when a session is closed: it goes with the session that asked, and loses a target. -/
def closePending (o : Told) (uid : Nat) (c : Core) (q : Nat) : Core :=
  match c.pending.lookup q with
  | none => c
  | some p =>
    if Origin.src p.origin = some uid then { c with pending := c.pending.erase q }
    else c.dropTarget o q p (.sess uid)

/-- The token subscriptions of a client when a session is lost. -/
def forgetSeen (c : Core) : Core :=
  let lost : List Fx := c.lTsubs.entries.flatMap fun t =>
    (t.2.seen.map fun k => .token t.1 .delete k) ++ [.token t.1 .batchEnd ""]
  { c with lTsubs := Map.mapVals (fun _ t => { t with seen := [] }) c.lTsubs }.emits lost

def close (c : Core) (o : Told) (uid : Nat) (reason : CloseReason) : Core :=
  match c.sessions.lookup uid with
  | none => c
  | some s =>
    let c := { c with
      sessions := c.sessions.erase uid
      byPeer := if c.byPeer.lookup s.peer = some uid then c.byPeer.erase s.peer else c.byPeer }
    let c := c.emit (.shut uid (if reason.spoken then some reason else none))
    let (c, deleted) := ((o.decls uid).run s.decls.entries).foldl (closeDecl uid) (c, false)
    let c := if c.router then (if deleted then c.batchEnd else c) else c.forgetSeen
    let c := ((o.qids uid).run c.pending.keys).foldl (closePending o uid) c
    if c.router ∧ s.role = .router then c.broadcastPeers else c

def closeAll (c : Core) (o : Told) (reason : CloseReason) (uids : List Nat) : Core :=
  uids.foldl (fun c u => c.close o u reason) c

/-- The declarations of a router in the order of their ids. -/
def outMsgs (c : Core) : List Msg :=
  (c.out.entries.insertionSort fun a b => a.1 ≤ b.1).map fun x => .declare x.2.1 x.1 x.2.2

/-- The declarations of a client, kind by kind. -/
def localMsgs (c : Core) (o : Told) : List Msg :=
  ((o.locals.run c.lTokens.entries).map fun x => .declare .token x.1 x.2) ++
    ((o.locals.run c.lSubs.entries).map fun x => .declare .sub x.1 x.2) ++
    (o.locals.run c.lQabls.entries).map fun x => .declare .qabl x.1 x.2

def learn (c : Core) (peers : List (String × String)) : Core :=
  { c with known := peers.foldl (fun k x => if x.1 ≠ c.node then k.insert x.1 x.2 else k) c.known }

/-- What a new session is told first. -/
def greeting (c : Core) (o : Told) (role : Role) : List Msg :=
  if c.router then if role = .router then c.outMsgs ++ [.declareDone] else []
  else c.localMsgs o ++ (c.lTsubs.entries.map fun t => .tokenSub t.1 t.2.expr true) ++ [.declareDone]

def install (c : Core) (o : Told) (stream : Nat) (h : Hello) (dialer : String) (boot sno : Nat) :
    Core :=
  let uid := c.nextUid
  let c := { c with nextUid := uid + 1 }
  let c := match h.adv with
    | some a => if h.role = Role.router then { c with known := c.known.insert h.node a } else c
    | none => c
  let c := c.learn h.peers
  let s : Sess :=
    { peer := h.node, role := h.role, dialer, boot, sno, adv := h.adv, stream, peers := h.peers }
  let c := { c with byPeer := c.byPeer.insert h.node uid, sessions := c.sessions.insert uid s }
  let c := c.emits ((c.greeting o h.role).map (.push uid · true))
  if c.router ∧ h.role = Role.router then c.broadcastPeers else c

def acceptVerdict (c : Core) (h : Hello) : Option CloseReason :=
  if h.proto ≠ proto ∨ h.node = c.node ∨ ¬ c.router then some .protocol
  else
    match (c.byPeer.lookup h.node).bind (c.sessions.lookup ·) with
    | none => none
    | some s =>
      if s.dialer = h.node then
        if s.boot < h.boot ∨ s.boot = h.boot ∧ s.sno < h.sno then none else some .refused
      else if h.node < c.node then none
      else some .duplicate

def onAccepted (c : Core) (o : Told) (stream : Nat) (h : Hello) : Core :=
  if o.broken then c
  else
    let c := c.emit (.direct stream (.hello (c.myHello h.sno)))
    match c.acceptVerdict h with
    | some r => c.emit (.direct stream (.close r))
    | none =>
      let c := match c.byPeer.lookup h.node with
        | none => c
        | some u =>
          c.close o u
            (if (c.sessions.lookup u).any fun s : Sess => s.dialer = h.node then .replaced
              else .duplicate)
      c.install o stream h h.node h.boot h.sno

/-- A dial loses against the session that is there. -/
def keepOld (c : Core) (h : Hello) (sno u : Nat) : Bool :=
  match c.sessions.lookup u with
  | some s => if s.dialer = c.node then sno < s.sno else h.node < c.node
  | none => false

def onDialed (c : Core) (o : Told) (target : String) (sno : Nat) (res : Option (Nat × Hello)) :
    Core :=
  match c.dials.lookup target with
  | none => c
  | some d =>
    match res with
    | none =>
      { c with dials := c.dials.insert target { d with
          busy := false, next := o.now + d.backoff, backoff := min (d.backoff * 2) backoffMax } }
    | some (stream, h) =>
      let c := { c with dials := c.dials.insert target { d with
          busy := false, backoff := backoffMin, next := o.now + backoffMin, node := some h.node } }
      if h.proto ≠ proto ∨ h.node = c.node ∨ (¬ c.router ∧ h.role ≠ .router) then
        c.emit (.direct stream (.close .protocol))
      else
        match c.byPeer.lookup h.node with
        | none => c.install o stream h c.node c.boot sno
        | some u =>
          if c.keepOld h sno u then c.emit (.direct stream (.close .duplicate))
          else (c.close o u .duplicate).install o stream h c.node c.boot sno

/-! ## Ticks -/

/-- The addresses a router or client would like to dial. -/
def wanted (c : Core) : List String :=
  if c.router then
    let seeds := c.dials.entries.filter fun d =>
      d.2.seed && !d.2.node.any fun n => n ∈ c.byPeer
    let bySeed := seeds.filterMap (·.2.node)
    seeds.map (·.1) ++ ((c.known.entries.filter fun k =>
      c.node < k.1 && k.1 ∉ c.byPeer && k.1 ∉ bySeed).map (·.2))
  else if c.sessions.entries = [] then
    (c.dials.entries.filter (·.2.seed)).map (·.1)
  else []

def dialOne (o : Told) (c : Core) (addr : String) : Core :=
  let d := (c.dials.lookup addr).getD { seed := false }
  let c := { c with dials := c.dials.insert addr d }
  if d.busy ∨ o.now < d.next then c
  else
    { c with
      dials := c.dials.insert addr { d with busy := true }
      nextSno := c.nextSno + 1 }.emit (.dial addr (c.myHello c.nextSno))

def dialWanted (c : Core) (o : Told) : Core :=
  ((c.wanted.dedup).insertionSort (· ≤ ·)).foldl (dialOne o) c

def fence (c : Core) (o : Told) : Core :=
  let c := c.closeAll o .fenced (o.uids.run c.sessions.keys)
  { c with dials := Map.mapVals (fun _ d => { d with next := 0, backoff := backoffMin }) c.dials }

def finishAll (c : Core) (o : Told) (qids : List Nat) : Core :=
  qids.foldl (fun c q => c.finish o q) c

def onTick (c : Core) (o : Told) (gap : Nat) : Core :=
  if c.leaseMs < gap then c.fence o
  else
    let c := c.closeAll o .expired ((o.uids.run c.sessions.keys).filter o.silent)
    let late := (o.uids.run c.pending.keys).filter fun q =>
      (c.pending.lookup q).any (·.deadline ≤ o.now)
    (c.finishAll o late).dialWanted o

/-! ## Declarations -/

/-- What a router notes of a declaration that it hears. -/
def noteDecl (c : Core) (uid : Nat) (kind : DeclKind) (id : Nat) (expr : String) : Core :=
  match kind with
  | .token => c.tokAdd expr
  | .sub => { c with subs := c.subs.add (.sess uid) id expr }
  | .qabl => c

def remoteDeclare (c : Core) (uid : Nat) (s : Sess) (kind : DeclKind) (id : Nat) (expr : String) :
    Core :=
  if c.router then
    let known := (kind, id) ∈ s.decls
    let c := { c with sessions :=
      c.sessions.insert uid { s with decls := s.decls.insert (kind, id) expr } }
    if known then c
    else
      let c := c.noteDecl uid kind id expr
      if s.role = .client then
        { c with
          nextId := c.nextId + 1
          south := c.south.insert (uid, kind, id) c.nextId
          out := c.out.insert c.nextId (kind, expr) }.announce (.declare kind c.nextId expr)
      else c
  else c

def remoteUndeclare (c : Core) (uid : Nat) (s : Sess) (kind : DeclKind) (id : Nat) : Core :=
  match s.decls.lookup (kind, id) with
  | none => c
  | some e =>
    let c := { c with sessions :=
      c.sessions.insert uid { s with decls := s.decls.erase (kind, id) } }
    (closeDecl uid (c, false) ⟨(kind, id), e⟩).1

/-- What a node keeps of a declaration of its own. -/
def keepDecl (c : Core) (kind : DeclKind) (expr : String) : Core :=
  let id := c.nextId
  let c := { c with nextId := id + 1 }
  match kind with
  | .token => { c with lTokens := c.lTokens.insert id expr }
  | .sub => { c with subs := c.subs.add (.loc id) id expr, lSubs := c.lSubs.insert id expr }
  | .qabl => { c with lQabls := c.lQabls.insert id expr }

/-- How a node tells of a declaration of its own. -/
def tellDecl (c : Core) (o : Told) (kind : DeclKind) (id : Nat) (expr : String) : Core :=
  if c.router then
    let c := if kind = .token then c.tokAdd expr else c
    { c with out := c.out.insert id (kind, expr) }.announce (.declare kind id expr)
  else c.tellUpstream o (.declare kind id expr)

/-- A declaration of the own process. -/
def declareLocal (c : Core) (o : Told) (kind : DeclKind) (expr : String) : Core :=
  (c.keepDecl kind expr).tellDecl o kind c.nextId expr

def undeclareLocal (c : Core) (o : Told) (kind : DeclKind) (id : Nat) : Core :=
  let (c, had) := match kind with
    | .token =>
      match c.lTokens.lookup id with
      | none => (c, false)
      | some k =>
        let c := { c with lTokens := c.lTokens.erase id }
        (if c.router then (c.tokDel k).1 else c, true)
    | .sub =>
      ({ c with subs := c.subs.remove (.loc id) id, lSubs := c.lSubs.erase id }, id ∈ c.lSubs)
    | .qabl => ({ c with lQabls := c.lQabls.erase id }, id ∈ c.lQabls)
  if had then
    if c.router then { c with out := c.out.erase id }.announce (.undeclare kind id)
    else c.tellUpstream o (.undeclare kind id)
  else c

/-! ## Events -/

/-- Whom a node asks for the tokens, or what it answers itself. -/
def askTokens (c : Core) (o : Told) (id : Nat) (expr : String) (history : Bool) : Core :=
  if c.router then
    if history then
      c.emits (((c.history expr).map fun k => .token id .put k) ++ [.token id .batchEnd ""])
    else c
  else match c.upstream o with
    | some u => c.push u (.tokenSub id expr history)
    | none => if history then c.emit (.token id .batchEnd "") else c

def tokenSub (c : Core) (o : Told) (expr : String) (history : Bool) : Core :=
  let id := c.nextId
  let c := { c with nextId := id + 1 }.askTokens o id expr history
  { c with lTsubs := c.lTsubs.insert id { expr } }

def shutdown (c : Core) (o : Told) : Core :=
  let c := { c with lTsubs := ∅, lSubs := ∅, lQabls := ∅, pending := ∅ }
  { c.closeAll o .shutdown (o.uids.run c.sessions.keys) with running := false }

def onCmd (c : Core) (o : Told) : Cmd → Core
  | .declareToken key => c.declareLocal o .token key
  | .subscribe expr => c.declareLocal o .sub expr
  | .queryable expr => c.declareLocal o .qabl expr
  | .tokenSub expr history => c.tokenSub o expr history
  | .undeclare kind id => c.undeclareLocal o kind id
  | .tokenUnsub id =>
    if id ∈ c.lTsubs then { c with lTsubs := c.lTsubs.erase id }.tellUpstream o (.tokenUnsub id)
    else c
  | .put key payload => c.routePut o none key payload
  | .get expr payload timeoutMs tx => c.routeGet o (.loc tx) expr payload (min timeoutMs (2 ^ 32 - 1))
  | .localReply q qabl key ok payload =>
    if (c.pending.lookup q).any (.loc qabl ∈ ·.targets) then
      c.forwardReply o q (.loc qabl) key ok payload
    else c
  | .localFinal q qabl => c.targetDone o q (.loc qabl)
  | .close => c.shutdown o

def onTokenEvt (c : Core) (id : Nat) (kind : TokenEvtKind) (key : String) : Core :=
  if c.router then c
  else
    match c.lTsubs.lookup id with
    | none => c
    | some t =>
      match kind with
      | .put =>
        if key ∈ t.seen then c
        else
          { c with lTsubs := c.lTsubs.insert id { t with seen := key :: t.seen } }.emit
            (.token id .put key)
      | .delete =>
        { c with lTsubs := c.lTsubs.insert id { t with seen := t.seen.filter (· ≠ key) } }.emit
          (.token id .delete key)
      | .batchEnd => c.emit (.token id .batchEnd "")

def onMsg (c : Core) (o : Told) (uid : Nat) (m : Msg) : Core :=
  match c.sessions.lookup uid with
  | none => c
  | some s =>
    match m with
    | .close r => c.close o uid r
    | .hello _ | .keepAlive | .declareDone => c
    | .declare kind id expr => c.remoteDeclare uid s kind id expr
    | .undeclare kind id => c.remoteUndeclare uid s kind id
    | .tokenSub id expr history =>
      if c.router ∧ s.role = .client then
        let hist := if history then
            ((c.history expr).map fun k => .push uid (.tokenEvt id .put k) true) ++
              [.push uid (.tokenEvt id .batchEnd "") true]
          else []
        { c with sessions := c.sessions.insert uid { s with tsubs := s.tsubs.insert id expr } }.emits
          hist
      else c
    | .tokenUnsub id =>
      { c with sessions := c.sessions.insert uid { s with tsubs := s.tsubs.erase id } }
    | .tokenEvt id kind key => c.onTokenEvt id kind key
    | .peers list =>
      let c := c.learn list
      { c with sessions := c.sessions.insert uid { s with peers := list } }
    | .put key payload => c.routePut o (some uid) key payload
    | .request qid expr payload timeoutMs => c.routeGet o (.sess uid qid) expr payload timeoutMs
    | .reply q key ok payload =>
      if (c.pending.lookup q).any (.sess uid ∈ ·.targets) then
        c.forwardReply o q (.sess uid) key ok payload
      else c
    | .final q => c.targetDone o q (.sess uid)

def onEv (c : Core) (o : Told) : Ev → Core
  | .cmd cmd => c.onCmd o cmd
  | .msg uid m => c.onMsg o uid m
  | .closed uid reason => c.close o uid reason
  | .paused => c.fence o
  | .tick gap => c.onTick o gap
  | .accepted stream h => c.onAccepted o stream h
  | .dialed target sno res => c.onDialed o target sno res

end Core

end OxlensSfu.Mesh
