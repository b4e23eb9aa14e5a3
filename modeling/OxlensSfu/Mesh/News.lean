import OxlensSfu.Lib.Feed
import OxlensSfu.Mesh.Declare

/-!
# What token subscriptions hear

A token subscription is of the own process, or of a client on one of the sessions: an `Ear`. What
it has been told is read off the log (`news`). Most of what a node does tells it nothing and leaves
the tokens and the subscriptions as they are (`Still`).
-/

namespace OxlensSfu.Mesh

/-- A token subscription, of the own process or of a session. -/
inductive Ear where
  | own (id : Nat)
  | far (u id : Nat)
  deriving DecidableEq, Repr

/-- The change that an event stands for. The end of a batch is none. -/
def TokenEvtKind.change (key : String) : TokenEvtKind → Option (Change String)
  | .put => some (.put key)
  | .delete => some (.delete key)
  | .batchEnd => none

/-- What the subscription is told. -/
def Fx.news (a : Ear) : Fx → Option (Change String)
  | .token id kind key => if a = .own id then kind.change key else none
  | .push u (.tokenEvt id kind key) true => if a = .far u id then kind.change key else none
  | _ => none

def news (a : Ear) (l : List Fx) : List (Change String) := l.filterMap (Fx.news a)

/-- What a message tells the subscription of a client. -/
def Msg.change (id : Nat) : Msg → Option (Change String)
  | .tokenEvt i kind key => if i = id then kind.change key else none
  | _ => none

def changes (id : Nat) (ms : List Msg) : List (Change String) := ms.filterMap (Msg.change id)

/-- The message opens or ends the subscription. -/
def Msg.orders (id : Nat) : Msg → Bool
  | .tokenSub i _ _ | .tokenUnsub i => i = id
  | _ => false

/-- The subscriptions are told nothing by this, and it opens or ends none. -/
def Fx.plain : Fx → Bool
  | .token _ kind _ | .push _ (.tokenEvt _ kind _) _ => kind = .batchEnd
  | .push _ (.tokenSub _ _ _) _ | .push _ (.tokenUnsub _) _ => false
  | _ => true

/-- A message about puts, queries and routers. -/
def Msg.ordinary : Msg → Bool
  | .hello _ | .keepAlive | .declareDone | .peers _ | .put _ _ | .request _ _ _ _ | .reply _ _ _ _
  | .final _ => true
  | _ => false

def Cmd.ordinary : Cmd → Bool
  | .put _ _ | .get _ _ _ _ | .localReply _ _ _ _ _ | .localFinal _ _ => true
  | _ => false

theorem news_append (a : Ear) (l l' : List Fx) : news a (l ++ l') = news a l ++ news a l' :=
  List.filterMap_append ..

theorem changes_append (id : Nat) (ms ms' : List Msg) :
    changes id (ms ++ ms') = changes id ms ++ changes id ms' := List.filterMap_append ..

/-- What a session is sent is what its subscriptions hear. -/
theorem changes_pushed (u id : Nat) (l : List Fx) :
    changes id (pushed u l) = news (.far u id) l := by
  rw [changes, pushed, List.filterMap_filterMap, news]
  refine List.filterMap_congr fun x _ => ?_
  cases x with
  | push v m queued =>
    cases queued with
    | false => cases m <;> rfl
    | true =>
      by_cases hv : v = u
      · subst hv
        cases m <;> simp [Fx.news, Msg.change, Msg.lane, eq_comm]
      · cases m <;> simp [Fx.news, hv, Ne.symm hv]
  | _ => rfl

theorem Fx.plain.news {x : Fx} (h : x.plain = true) (a : Ear) : x.news a = none := by
  cases x with
  | token id kind key =>
    obtain rfl : kind = .batchEnd := of_decide_eq_true h
    show (if _ then none else none) = none
    exact ite_self _
  | push u m queued =>
    cases queued with
    | false => cases m <;> rfl
    | true =>
      cases m with
      | tokenEvt id kind key =>
        obtain rfl : kind = .batchEnd := of_decide_eq_true h
        show (if _ then none else none) = none
        exact ite_self _
      | _ => rfl
  | _ => rfl

theorem news_none {a : Ear} {l : List Fx} (h : ∀ x ∈ l, x.news a = none) : news a l = [] :=
  List.filterMap_eq_nil_iff.2 h

theorem news_plain {l : List Fx} (h : ∀ x ∈ l, x.plain = true) (a : Ear) : news a l = [] :=
  news_none fun x hx => Fx.plain.news (h x hx) a

/-- Nobody is sent a message that opens or ends the subscription. -/
def Unasked (id : Nat) (l : List Fx) : Prop := ∀ u, (pushed u l).filter (Msg.orders id) = []

theorem Unasked.append {id : Nat} {l l' : List Fx} (h : Unasked id l) (h' : Unasked id l') :
    Unasked id (l ++ l') := by
  intro u
  rw [pushed_append, List.filter_append, h u, h' u]
  rfl

theorem unasked_of {id : Nat} {l : List Fx}
    (h : ∀ u m queued, .push u m queued ∈ l → m.orders id = false) : Unasked id l := by
  intro u
  rw [List.filter_eq_nil_iff]
  intro m hm
  obtain ⟨x, hx, he⟩ := List.mem_filterMap.1 hm
  cases x with
  | push v m' queued =>
    cases queued with
    | false => exact absurd he nofun
    | true =>
      simp only at he
      split_ifs at he
      obtain rfl := Option.some.inj he
      rw [h v m' true hx]
      exact nofun
  | _ => exact absurd he nofun

theorem unasked_plain {l : List Fx} (h : ∀ x ∈ l, x.plain = true) (id : Nat) : Unasked id l := by
  refine unasked_of fun u m queued hm => ?_
  have hplain := h _ hm
  cases m with
  | tokenSub | tokenUnsub => exact absurd hplain nofun
  | _ => rfl

/-! ## The subscriptions of a node -/

/-- What a subscription of a session depends on. -/
def Sess.ear (s : Sess) : Role × Map Nat String := (s.role, s.tsubs)

namespace Core

/-- The expression of a subscription that is told of tokens. -/
def listens (c : Core) : Ear → Option String
  | .own id => (c.lTsubs.lookup id).map (·.expr)
  | .far u id => ((c.sessions.lookup u).map Sess.ear).bind fun s =>
    if s.1 = .client then s.2.lookup id else none

def toks (c : Core) : Finset String := c.tok.keys.toFinset

/-- The tokens that match an expression. -/
def matched (c : Core) (expr : String) : Finset String := c.toks.filter (intersects expr · = true)

/-- What the own process has, after it has been told of the tokens one by one. -/
def copy (c : Core) (id : Nat) : Finset String := Change.replay ∅ (news (.own id) c.fx)

/-- Tokens and subscriptions are as they were, and nobody is told anything. -/
structure Still (c c' : Core) : Prop where
  router : c'.router = c.router
  tok : c'.tok = c.tok
  lTsubs : c'.lTsubs = c.lTsubs
  ears : ∀ u, (c'.sessions.lookup u).map Sess.ear = (c.sessions.lookup u).map Sess.ear
  nextId : c.nextId ≤ c'.nextId
  fx : ∃ l, c'.fx = c.fx ++ l ∧ ∀ x ∈ l, x.plain = true

variable {c c' c'' : Core} {o : Told} {u : Nat} {s : Sess}

namespace Still

theorem refl (c : Core) : Still c c :=
  ⟨rfl, rfl, rfl, fun _ => rfl, le_rfl, [], (List.append_nil _).symm, nofun⟩

theorem trans (h : Still c c') (h' : Still c' c'') : Still c c'' := by
  obtain ⟨l, hl, hplain⟩ := h.fx
  obtain ⟨l', hl', hplain'⟩ := h'.fx
  refine ⟨h'.router.trans h.router, h'.tok.trans h.tok, h'.lTsubs.trans h.lTsubs,
    fun u => (h'.ears u).trans (h.ears u), h.nextId.trans h'.nextId, l ++ l', ?_,
    List.forall_mem_append.2 ⟨hplain, hplain'⟩⟩
  rw [hl', hl, List.append_assoc]

/-- Something else changes. -/
theorem aside (hr : c'.router = c.router) (ht : c'.tok = c.tok) (hl : c'.lTsubs = c.lTsubs)
    (hs : c'.sessions = c.sessions) (hn : c.nextId ≤ c'.nextId) (hf : c'.fx = c.fx) : Still c c' :=
  ⟨hr, ht, hl, fun _ => by rw [hs], hn, [], hf.trans (List.append_nil _).symm, nofun⟩

/-- A session changes in what its subscriptions do not depend on. -/
theorem session (hs : c.sessions.lookup u = some s) {s' : Sess} (he : s'.ear = s.ear) :
    Still c { c with sessions := c.sessions.insert u s' } := by
  refine ⟨rfl, rfl, rfl, fun v => ?_, le_rfl, [], (List.append_nil _).symm, nofun⟩
  show ((c.sessions.insert u s').lookup v).map Sess.ear = _
  rw [Map.lookup_insert_if]
  split_ifs with hv
  · rw [hv, hs, Option.map_some, Option.map_some, he]
  · rfl

theorem foldl {α : Type} {f : Core → α → Core} (hf : ∀ c x, Still c (f c x)) (l : List α)
    (c : Core) : Still c (l.foldl f c) := by
  induction l generalizing c with
  | nil => exact refl c
  | cons x l ih => exact (hf c x).trans (ih (f c x))

theorem listens (h : Still c c') : c'.listens = c.listens := by
  funext a
  cases a with
  | own id => rw [Core.listens, Core.listens, h.lTsubs]
  | far u id => rw [Core.listens, Core.listens, h.ears]

theorem mem (h : Still c c') (u : Nat) : u ∈ c'.sessions ↔ u ∈ c.sessions := by
  rw [← AList.lookup_isSome, ← AList.lookup_isSome, ← Option.isSome_map (f := Sess.ear), h.ears,
    Option.isSome_map]

end Still

/-! ## What leaves them still -/

theorem emits_still (c : Core) {l : List Fx} (h : ∀ x ∈ l, x.plain = true) : Still c (c.emits l) :=
  ⟨rfl, rfl, rfl, fun _ => rfl, le_rfl, l, rfl, h⟩

theorem emit_still (c : Core) {x : Fx} (h : x.plain = true) : Still c (c.emit x) :=
  c.emits_still (List.forall_mem_singleton.2 h)

theorem toRouters_still (c : Core) {m : Msg} (hm : ∀ u, (Fx.push u m true).plain = true) :
    Still c (c.toRouters m) := c.emits_still (List.forall_mem_map.2 fun _ _ => hm _)

theorem announce_still (c : Core) {m : Msg} (hm : ∀ u, (Fx.push u m true).plain = true) :
    Still c (c.announce m) := by
  rw [announce]
  split
  · exact c.toRouters_still hm
  · exact .refl c

theorem tellUpstream_still (c : Core) (o : Told) {m : Msg}
    (hm : ∀ u, (Fx.push u m true).plain = true) : Still c (c.tellUpstream o m) := by
  rw [tellUpstream]
  split
  · exact c.emit_still (hm _)
  · exact .refl c

theorem batchEnd_still (c : Core) : Still c c.batchEnd := by
  refine c.emits_still (List.forall_mem_append.2 ⟨List.forall_mem_map.2 fun _ _ => rfl, ?_⟩)
  intro x hx
  obtain ⟨s, -, hx⟩ := List.mem_flatMap.1 hx
  obtain ⟨t, -, rfl⟩ := List.mem_map.1 hx
  rfl

theorem forwardReply_still (c : Core) (o : Told) (q : Nat) (t : Target) (key : String) (ok : Bool)
    (payload : Payload) : Still c (c.forwardReply o q t key ok payload) := by
  rw [forwardReply]
  cases c.pending.lookup q with
  | none => exact .refl c
  | some p =>
    simp only
    split
    · exact c.emit_still rfl
    · split_ifs
      · exact c.emit_still rfl
      · exact .refl c

theorem finish_still (c : Core) (o : Told) (q : Nat) : Still c (c.finish o q) := by
  rw [finish]
  cases c.pending.lookup q with
  | none => exact .refl c
  | some p =>
    have herase : Still c { c with pending := c.pending.erase q } := .aside rfl rfl rfl rfl le_rfl rfl
    simp only
    split
    · exact herase
    · split_ifs
      · exact herase.trans (emit_still _ rfl)
      · exact herase

theorem dropTarget_still (c : Core) (o : Told) (q : Nat) (p : Pending) (t : Target) :
    Still c (c.dropTarget o q p t) := by
  rw [dropTarget]
  simp only
  have hless : Still c { c with
      pending := c.pending.insert q { p with targets := p.targets.filter (· ≠ t) } } :=
    .aside rfl rfl rfl rfl le_rfl rfl
  split_ifs
  · exact (hless.trans (emit_still _ rfl)).trans (finish_still _ o q)
  · exact hless.trans (emit_still _ rfl)
  · exact .refl c

theorem targetDone_still (c : Core) (o : Told) (q : Nat) (t : Target) :
    Still c (c.targetDone o q t) := by
  rw [targetDone]
  cases c.pending.lookup q with
  | none => exact .refl c
  | some p => exact c.dropTarget_still o q p t

theorem ask_still (o : Told) (q : Nat) (expr : String) (payload : Payload) (timeoutMs : Nat)
    (c : Core) (t : Target) : Still c (ask o q expr payload timeoutMs c t) := by
  cases t with
  | loc id =>
    rw [ask]
    split_ifs
    · exact c.targetDone_still o q _
    · exact c.emit_still rfl
    · exact .refl c
  | sess u =>
    rw [ask]
    cases c.sessions.lookup u with
    | none => exact (c.forwardReply_still o q _ _ _ _).trans (targetDone_still _ o q _)
    | some s =>
      simp only
      have hpush : Still c (c.emit (.push u (.request q expr payload timeoutMs)
        (c.takes o u (.request q expr payload timeoutMs)))) := c.emit_still rfl
      split_ifs
      · exact hpush
      · exact hpush.trans ((forwardReply_still _ o q _ _ _ _).trans (targetDone_still _ o q _))

theorem routeGet_still (c : Core) (o : Told) (origin : Origin) (expr : String) (payload : Payload)
    (timeoutMs : Nat) : Still c (c.routeGet o origin expr payload timeoutMs) := by
  have hbegin : Still c (c.begin o origin expr timeoutMs) := by
    refine .trans ?_ (emit_still _ rfl)
    exact .aside rfl rfl rfl rfl (Nat.le_succ _) rfl
  have hasks := Still.foldl (ask_still o c.nextId expr payload timeoutMs)
    (o.targets.run (c.targets (Origin.src origin) expr)) (c.begin o origin expr timeoutMs)
  refine hbegin.trans (hasks.trans ?_)
  show Still _ (if _ then _ else _)
  split_ifs
  · exact finish_still _ o _
  · exact .refl _

theorem routePut_still (c : Core) (o : Told) (src : Option Nat) (key : String) (payload : Payload) :
    Still c (c.routePut o src key payload) := by
  rw [routePut]
  have hall : Still c (c.emits (c.deliveries o src key payload (c.subs.matching key) [])) := by
    refine c.emits_still fun x hx => ?_
    obtain ⟨id, rfl⟩ | ⟨u, queued, rfl⟩ := of_mem_deliveries hx
    · rfl
    · rfl
  generalize c.emits (c.deliveries o src key payload (c.subs.matching key) []) = c' at hall ⊢
  cases c'.upstream o with
  | none => exact hall
  | some u =>
    simp only
    split_ifs
    · exact hall.trans (emit_still _ rfl)
    · exact hall

theorem finishAll_still (c : Core) (o : Told) (qids : List Nat) : Still c (c.finishAll o qids) :=
  .foldl (fun c q => c.finish_still o q) qids c

theorem dialOne_still (o : Told) (c : Core) (addr : String) : Still c (dialOne o c addr) := by
  rw [dialOne]
  simp only
  split_ifs
  · exact .aside rfl rfl rfl rfl le_rfl rfl
  · refine .trans ?_ (emit_still _ rfl)
    exact .aside rfl rfl rfl rfl le_rfl rfl

theorem dialWanted_still (c : Core) (o : Told) : Still c (c.dialWanted o) :=
  .foldl (dialOne_still o) _ c

theorem closePending_still (o : Told) (u : Nat) (c : Core) (q : Nat) :
    Still c (closePending o u c q) := by
  rw [closePending]
  cases c.pending.lookup q with
  | none => exact .refl c
  | some p =>
    simp only
    split_ifs
    · exact .aside rfl rfl rfl rfl le_rfl rfl
    · exact c.dropTarget_still o q p _

theorem dropQueries_still (c : Core) (o : Told) (u : Nat) : Still c (c.dropQueries o u) :=
  .foldl (closePending_still o u) _ c

theorem tellLeft_still (c : Core) (s : Sess) : Still c (c.tellLeft s) := by
  rw [tellLeft]
  split_ifs
  · exact c.toRouters_still fun _ => rfl
  · exact .refl c

theorem retract_still (c : Core) (u : Nat) (d : DeclKind × Nat) : Still c (c.retract u d) := by
  rw [retract]
  cases c.south.lookup (u, d) with
  | none => exact .refl c
  | some rid =>
    refine .trans ?_ (announce_still _ fun _ => rfl)
    exact .aside rfl rfl rfl rfl le_rfl rfl

theorem onMsg_still (o : Told) (u : Nat) {m : Msg} (hm : m.ordinary = true) :
    Still c (c.onMsg o u m) := by
  rw [onMsg]
  cases hs : c.sessions.lookup u with
  | none => exact .refl c
  | some s =>
    cases m with
    | peers list =>
      have hlearn : Still c (c.learn list) := .aside rfl rfl rfl rfl le_rfl rfl
      have hs' : (c.learn list).sessions.lookup u = some s := hs
      exact hlearn.trans (.session hs' (show Sess.ear { s with peers := list } = s.ear from rfl))
    | put key payload => exact c.routePut_still o _ key payload
    | request qid expr payload timeoutMs => exact c.routeGet_still o _ expr payload timeoutMs
    | reply q key ok payload =>
      simp only
      split_ifs
      · exact c.forwardReply_still o q _ key ok payload
      · exact .refl c
    | final q => exact c.targetDone_still o q _
    | hello | keepAlive | declareDone => exact .refl c
    | _ => cases hm

theorem onCmd_still (o : Told) {cmd : Cmd} (hc : cmd.ordinary = true) :
    Still c (c.onCmd o cmd) := by
  cases cmd with
  | put key payload => exact c.routePut_still o none key payload
  | get expr payload timeoutMs tx => exact c.routeGet_still o _ expr payload _
  | localReply q qabl key ok payload =>
    simp only [onCmd]
    split_ifs
    · exact c.forwardReply_still o q _ key ok payload
    · exact .refl c
  | localFinal q qabl => exact c.targetDone_still o q _
  | _ => cases hc

/-! ## What tells them -/

/-- What `tokNotify` sends. -/
def notices (c : Core) (kind : TokenEvtKind) (key : String) : List Fx :=
  ((c.lTsubs.entries.filter fun t => intersects t.2.expr key).map fun t => .token t.1 kind key) ++
    (c.having .client).flatMap fun s => (s.2.tsubs.entries.filter fun t => intersects t.2 key).map
      fun t => .push s.1 (.tokenEvt t.1 kind key) true

theorem flatMap_filter {α β : Type} (L : List α) (p : α → Bool) (f : α → List β) :
    (L.filter p).flatMap f = L.flatMap fun x => if p x then f x else [] := by
  induction L with
  | nil => rfl
  | cons x L ih => by_cases hx : p x <;> simp [hx, ih]

theorem news_map {α : Type} (a : Ear) (L : List α) (p : α → Bool) (f : α → Fx) :
    news a ((L.filter p).map f) = L.flatMap fun x => (if p x then (f x).news a else none).toList := by
  rw [news, List.filterMap_map, List.filterMap_filter, List.filterMap_eq_flatMap_toList]
  rfl

/-- What a subscription with the expression hears of the key. -/
def heardOf (kind : TokenEvtKind) (key e : String) : List (Change String) :=
  if intersects e key then (kind.change key).toList else []

section Notices

variable (kind : TokenEvtKind) (key : String)

/-- The part of the notices that goes to the own process. -/
theorem news_told (m : Map Nat LTokenSub) (a : Ear) :
    news a ((m.entries.filter fun t => intersects t.2.expr key).map fun t => .token t.1 kind key) =
      match a with
      | .own id => (m.lookup id).elim [] fun t => heardOf kind key t.expr
      | .far _ _ => [] := by
  rw [news_map]
  cases a with
  | own id =>
    show _ = (m.lookup id).elim [] fun t => heardOf kind key t.expr
    rw [← Map.flatMap_entries m id fun t => heardOf kind key t.expr]
    refine List.flatMap_congr fun t _ => ?_
    show (if _ then (if _ then _ else none) else none : Option _).toList = _
    simp only [Ear.own.injEq, eq_comm, heardOf]
    split_ifs <;> rfl
  | far u id =>
    refine List.flatMap_eq_nil_iff.2 fun t _ => ?_
    have hsilent : (Fx.token t.1 kind key).news (.far u id) = none := by simp [Fx.news]
    rw [hsilent, ite_self]
    rfl

/-- The part that goes to a session. -/
theorem news_pushed (v : Nat) (m : Map Nat String) (a : Ear) :
    news a ((m.entries.filter fun t => intersects t.2 key).map
        fun t => .push v (.tokenEvt t.1 kind key) true) =
      match a with
      | .own _ => []
      | .far u id => if v = u then (m.lookup id).elim [] (heardOf kind key) else [] := by
  have hfar : ∀ t ∈ m.entries, (if intersects t.2 key then
      (Fx.push v (.tokenEvt t.1 kind key) true).news a else none).toList =
        if a = .far v t.1 then heardOf kind key t.2 else [] := by
    intro t _
    show (if _ then (if _ then _ else none) else none : Option _).toList = _
    rw [heardOf]
    split_ifs <;> rfl
  rw [news_map, List.flatMap_congr hfar]
  cases a with
  | own id => exact List.flatMap_eq_nil_iff.2 fun t _ => if_neg nofun
  | far u id =>
    dsimp only
    split_ifs with hu
    · rw [← Map.flatMap_entries m id (heardOf kind key)]
      refine List.flatMap_congr fun t _ => ?_
      simp only [Ear.far.injEq, hu, true_and, eq_comm]
    · exact List.flatMap_eq_nil_iff.2 fun t _ => if_neg fun he => hu (Ear.far.inj he).1.symm

/-- A subscription is told of a key when its expression matches. -/
theorem news_notices (c : Core) (a : Ear) :
    news a (c.notices kind key) = (c.listens a).elim [] fun e =>
      if intersects e key then (kind.change key).toList else [] := by
  rw [notices, news_append, news_told]
  cases a with
  | own id =>
    have hnone : news (.own id) ((c.having .client).flatMap fun s => (s.2.tsubs.entries.filter
        fun t => intersects t.2 key).map fun t => .push s.1 (.tokenEvt t.1 kind key) true) = [] := by
      rw [news, List.filterMap_flatMap, List.flatMap_eq_nil_iff]
      exact fun s _ => news_pushed kind key s.1 s.2.tsubs (.own id)
    rw [hnone, List.append_nil, listens]
    dsimp only
    cases c.lTsubs.lookup id <;> rfl
  | far u id =>
    have hsess : news (.far u id) ((c.having .client).flatMap fun s => (s.2.tsubs.entries.filter
        fun t => intersects t.2 key).map fun t => .push s.1 (.tokenEvt t.1 kind key) true) =
      c.sessions.entries.flatMap fun s => if s.1 = u then if s.2.role = .client then
        (s.2.tsubs.lookup id).elim [] (heardOf kind key) else [] else [] := by
      rw [having, flatMap_filter, news, List.filterMap_flatMap]
      refine List.flatMap_congr fun s _ => ?_
      by_cases hr : s.2.role = .client
      · simp only [hr, decide_true, if_true]
        exact news_pushed kind key s.1 s.2.tsubs (.far u id)
      · simp only [hr, decide_false, if_false, Bool.false_eq_true, ite_self, List.filterMap_nil]
    rw [hsess, List.nil_append, Map.flatMap_entries c.sessions u fun s =>
      if s.role = .client then (s.tsubs.lookup id).elim [] (heardOf kind key) else [], listens]
    cases c.sessions.lookup u with
    | none => rfl
    | some s =>
      simp only [Option.elim_some, Option.map_some, Option.bind_some, Sess.ear]
      split_ifs <;> rfl

end Notices

theorem news_tokens {kind : TokenEvtKind} {f : String → Change String}
    (hkind : ∀ k, kind.change k = some (f k)) (id : Nat) (keys : List String) (a : Ear) :
    news a (keys.map fun k => .token id kind k) = if a = .own id then keys.map f else [] := by
  rw [news, List.filterMap_map]
  split_ifs with ha
  · rw [← List.filterMap_eq_map]
    exact List.filterMap_congr fun k _ => (if_pos ha).trans (hkind k)
  · exact List.filterMap_eq_nil_iff.2 fun k _ => if_neg ha

theorem news_evts {kind : TokenEvtKind} {f : String → Change String}
    (hkind : ∀ k, kind.change k = some (f k)) (u id : Nat) (keys : List String) (a : Ear) :
    news a (keys.map fun k => .push u (.tokenEvt id kind k) true) =
      if a = .far u id then keys.map f else [] := by
  rw [news, List.filterMap_map]
  split_ifs with ha
  · rw [← List.filterMap_eq_map]
    exact List.filterMap_congr fun k _ => (if_pos ha).trans (hkind k)
  · exact List.filterMap_eq_nil_iff.2 fun k _ => if_neg ha

/-- A batch of tokens. -/
theorem news_batch (id : Nat) (keys : List String) (a : Ear) :
    news a ((keys.map fun k => .token id .put k) ++ [.token id .batchEnd ""]) =
      if a = .own id then keys.map .put else [] := by
  have hend : news a [.token id .batchEnd ""] = [] := news_plain (by simp [Fx.plain]) a
  rw [news_append, hend, List.append_nil, news_tokens fun _ => rfl]

theorem news_batchEvts (u id : Nat) (keys : List String) (a : Ear) :
    news a ((keys.map fun k => .push u (.tokenEvt id .put k) true) ++
      [.push u (.tokenEvt id .batchEnd "") true]) =
      if a = .far u id then keys.map .put else [] := by
  have hend : news a [.push u (.tokenEvt id .batchEnd "") true] = [] :=
    news_plain (by simp [Fx.plain]) a
  rw [news_append, hend, List.append_nil, news_evts fun _ => rfl]

/-- The history has every token that matches. -/
theorem replay_history (c : Core) (expr : String) :
    Change.replay ∅ ((c.history expr).map .put) = c.matched expr := by
  rw [Change.replay_puts, Finset.empty_union, history,
    List.toFinset_eq_of_perm _ _ (List.perm_insertionSort _ _), List.toFinset_filter]
  rfl

end Core

end OxlensSfu.Mesh
