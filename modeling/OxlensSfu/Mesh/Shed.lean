import OxlensSfu.Mesh.Net

/-!
# Which sessions a node has

What arbitrates between two connections with one peer is the identity of a session: its peer, who
dialed it, the boot and the number of the dial. A handler either lets sessions go and changes
nothing else about them (`Sheds`), or it takes in the connection that its event brings, and closes
the session that the peer had (`Takes`).

**Only new connections bring sessions** (`onEv_sheds`). For these the identities alone decide: an
accepted connection is taken when `Accepts` holds, and one that the node has dialed when `Prefers`
does (`onAccepted_spec`, `onDialed_spec`).
-/

namespace OxlensSfu.Mesh

/-- The identity of a session, and its connection. -/
structure Ident where
  peer : String
  dialer : String
  boot : Nat
  sno : Nat
  stream : Nat
  deriving DecidableEq, Repr

def Sess.ident (s : Sess) : Ident := ⟨s.peer, s.dialer, s.boot, s.sno, s.stream⟩

namespace Core

def ident (c : Core) (u : Nat) : Option Ident := (c.sessions.lookup u).map Sess.ident

/-- A session of the core has the identity. -/
def Has (c : Core) (x : Ident) : Prop := ∃ u, c.ident u = some x

theorem ident_of {c : Core} {u : Nat} {s : Sess} (h : c.sessions.lookup u = some s) :
    c.ident u = some s.ident := by
  rw [ident, h]
  rfl

theorem of_ident {c : Core} {u : Nat} {x : Ident} (h : c.ident u = some x) :
    ∃ s, c.sessions.lookup u = some s ∧ s.ident = x := Option.map_eq_some_iff.1 h

/-! ## Handlers that leave the sessions alone -/

/-- Everything that decides over sessions. -/
structure Roster where
  node : String
  router : Bool
  boot : Nat
  nextUid : Nat
  byPeer : Map String Nat
  sessions : Map Nat Sess
  dials : Map String Dial

def roster (c : Core) : Roster :=
  ⟨c.node, c.router, c.boot, c.nextUid, c.byPeer, c.sessions, c.dials⟩

theorem Moves.roster {c c' : Core} (h : Moves c c') : c'.roster = c.roster := by
  obtain ⟨m, l, rfl⟩ := h.frame
  rfl

@[simp] theorem emits_roster (c : Core) (l : List Fx) : (c.emits l).roster = c.roster := rfl

@[simp] theorem emit_roster (c : Core) (x : Fx) : (c.emit x).roster = c.roster := rfl

@[simp] theorem announce_roster (c : Core) (m : Msg) : (c.announce m).roster = c.roster := by
  rw [announce]
  split <;> rfl

@[simp] theorem tellUpstream_roster (c : Core) (o : Told) (m : Msg) :
    (c.tellUpstream o m).roster = c.roster := by
  rw [tellUpstream]
  split <;> rfl

@[simp] theorem tokAdd_roster (c : Core) (key : String) : (c.tokAdd key).roster = c.roster := by
  rw [tokAdd]
  split <;> rfl

@[simp] theorem tokDel_roster (c : Core) (key : String) : (c.tokDel key).1.roster = c.roster := by
  rw [tokDel]
  split
  · rfl
  · split <;> rfl

theorem closeDecl_roster (u : Nat) (x : Core × Bool) (d : (_ : DeclKind × Nat) × String) :
    (closeDecl u x d).1.roster = x.1.roster := by
  have hunlist : (x.1.unlist u d.1 d.2).1.roster = x.1.roster := by
    rw [unlist]
    split
    · simp
    · rfl
    · rfl
  have hretract : ∀ c : Core, (c.retract u d.1).roster = c.roster := by
    intro c
    rw [retract]
    split
    · rfl
    · exact announce_roster _ _
  exact (hretract _).trans hunlist

theorem forwardReply_roster (c : Core) (o : Told) (q : Nat) (t : Target) (key : String) (ok : Bool)
    (payload : Payload) : (c.forwardReply o q t key ok payload).roster = c.roster := by
  rw [forwardReply]
  split
  · rfl
  · split
    · rfl
    · split <;> rfl

theorem routePut_roster (c : Core) (o : Told) (src : Option Nat) (key : String)
    (payload : Payload) : (c.routePut o src key payload).roster = c.roster := by
  simp only [routePut]
  split
  · split <;> rfl
  · rfl

theorem declareLocal_roster (c : Core) (o : Told) (k : DeclKind) (e : String) :
    (c.declareLocal o k e).roster = c.roster := by
  have htell : ∀ (c : Core) (id : Nat), (if c.router then
      let c := if k = .token then c.tokAdd e else c
      { c with out := c.out.insert id (k, e) }.announce (.declare k id e)
      else c.tellUpstream o (.declare k id e)).roster = c.roster := by
    intro c id
    split
    · refine (announce_roster _ _).trans ?_
      split
      · exact c.tokAdd_roster e
      · rfl
    · exact c.tellUpstream_roster o _
  refine (htell _ c.nextId).trans ?_
  cases k <;> rfl

theorem undeclareLocal_roster (c : Core) (o : Told) (k : DeclKind) (id : Nat) :
    (c.undeclareLocal o k id).roster = c.roster := by
  have htell : ∀ x : Core × Bool, (if x.2 then
      if x.1.router then { x.1 with out := x.1.out.erase id }.announce (.undeclare k id)
      else x.1.tellUpstream o (.undeclare k id)
      else x.1).roster = x.1.roster := by
    intro x
    split
    · split
      · exact announce_roster _ _
      · exact x.1.tellUpstream_roster o _
    · rfl
  refine (htell _).trans ?_
  cases k with
  | token =>
    dsimp only
    split
    · rfl
    · dsimp only
      split
      · exact tokDel_roster _ _
      · rfl
  | sub | qabl => rfl

theorem tokenSub_roster (c : Core) (o : Told) (expr : String) (history : Bool) :
    (c.tokenSub o expr history).roster = c.roster := by
  have htell : ∀ (c : Core) (id : Nat), (c.askTokens o id expr history).roster = c.roster := by
    intro c id
    unfold askTokens
    split
    · split <;> rfl
    · split
      · rfl
      · split <;> rfl
  exact htell { c with nextId := c.nextId + 1 } c.nextId

theorem onTokenEvt_roster (c : Core) (id : Nat) (kind : TokenEvtKind) (key : String) :
    (c.onTokenEvt id kind key).roster = c.roster := by
  rw [onTokenEvt]
  split
  · rfl
  · split
    · rfl
    · cases kind with
      | put =>
        dsimp only
        split <;> rfl
      | delete | batchEnd => rfl

theorem routeGet_roster (c : Core) (o : Told) (origin : Origin) (expr : String)
    (payload : Payload) (timeoutMs : Nat) :
    (c.routeGet o origin expr payload timeoutMs).roster = c.roster :=
  (c.routeGet_moves o origin expr payload timeoutMs).1.roster

/-! ## Sessions that go -/

/-- Every peer has the session that `by_peer` has for it, and no other. -/
structure Seated (c : Core) : Prop where
  peers : ∀ n u, c.byPeer.lookup n = some u ↔ ∃ x, c.ident u = some x ∧ x.peer = n
  uids : ∀ u x, c.ident u = some x → u < c.nextUid

/-- Sessions go, and those that stay are as they were. -/
structure Sheds (c c' : Core) : Prop where
  node : c'.node = c.node
  router : c'.router = c.router
  boot : c'.boot = c.boot
  nextUid : c'.nextUid = c.nextUid
  dials : ∀ t ∈ c.dials, t ∈ c'.dials
  left : ∀ u x, c'.ident u = some x → c.ident u = some x
  seated : c.Seated → c'.Seated

variable {c c' c'' : Core} {o : Told} {u : Nat} {s : Sess}

/-- There is one session for each peer. -/
theorem Seated.unique (h : c.Seated) {x y : Ident} (hx : c.Has x) (hy : c.Has y)
    (hp : x.peer = y.peer) : x = y := by
  obtain ⟨u, hu⟩ := hx
  obtain ⟨v, hv⟩ := hy
  have huv : some u = some v :=
    ((h.peers _ u).2 ⟨x, hu, hp⟩).symm.trans ((h.peers _ v).2 ⟨y, hv, rfl⟩)
  rw [Option.some.inj huv, hv] at hu
  exact (Option.some.inj hu).symm

namespace Sheds

theorem same (hn : c'.node = c.node) (hr : c'.router = c.router) (hb : c'.boot = c.boot)
    (hu : c'.nextUid = c.nextUid) (hp : c'.byPeer = c.byPeer) (hd : ∀ t ∈ c.dials, t ∈ c'.dials)
    (hi : ∀ u, c'.ident u = c.ident u) : Sheds c c' := by
  refine ⟨hn, hr, hb, hu, hd, fun u x h => hi u ▸ h, fun h => ⟨fun n u => ?_, fun u x hx => ?_⟩⟩
  · rw [hp, hi]
    exact h.peers n u
  · rw [hu]
    exact h.uids u x (hi u ▸ hx)

theorem of_roster (h : c'.roster = c.roster) : Sheds c c' := by
  simp only [roster, Roster.mk.injEq] at h
  obtain ⟨hn, hr, hb, hu, hp, hs, hd⟩ := h
  exact same hn hr hb hu hp (fun t ht => hd ▸ ht) fun u => by rw [ident, ident, hs]

theorem refl (c : Core) : Sheds c c := of_roster rfl

theorem trans (h : Sheds c c') (h' : Sheds c' c'') : Sheds c c'' where
  node := h'.node.trans h.node
  router := h'.router.trans h.router
  boot := h'.boot.trans h.boot
  nextUid := h'.nextUid.trans h.nextUid
  dials t ht := h'.dials t (h.dials t ht)
  left u x hx := h.left u x (h'.left u x hx)
  seated hc := h'.seated (h.seated hc)

theorem foldl {α : Type} {f : Core → α → Core} (hf : ∀ c x, Sheds c (f c x)) (l : List α)
    (c : Core) : Sheds c (l.foldl f c) := by
  induction l generalizing c with
  | nil => exact refl c
  | cons x l ih => exact (hf c x).trans (ih (f c x))

theorem has (h : Sheds c c') {x : Ident} : c'.Has x → c.Has x
  | ⟨u, hu⟩ => ⟨u, h.left u x hu⟩

/-- The session changes in what does not identify it. -/
theorem session (hs : c.sessions.lookup u = some s) {s' : Sess} (hi : s'.ident = s.ident) :
    Sheds c { c with sessions := c.sessions.insert u s' } := by
  refine .same rfl rfl rfl rfl rfl (fun _ h => h) fun v => ?_
  show ((c.sessions.insert u s').lookup v).map Sess.ident = c.ident v
  rw [Map.lookup_insert_if]
  split_ifs with hv
  · rw [hv, ident_of hs, ← hi]
    rfl
  · rfl

end Sheds

/-! ## Sessions that are closed -/

theorem close_none (hs : c.sessions.lookup u = none) (o : Told) (reason : CloseReason) :
    c.close o u reason = c := by
  simp [close, hs]

theorem close_ident (c : Core) (o : Told) (u : Nat) (reason : CloseReason) (v : Nat) :
    (c.close o u reason).ident v = if v = u then none else c.ident v := by
  cases hs : c.sessions.lookup u with
  | none =>
    rw [close_none hs]
    split_ifs with hv
    · rw [hv, ident, hs]
      rfl
    · rfl
  | some s =>
    obtain ⟨tok, subs, out, south, ts, m, l, hc⟩ := close_frame hs o reason
    rw [hc]
    show ((c.sessions.erase u).lookup v).map Sess.ident = _
    rw [Map.lookup_erase_if]
    split_ifs
    · rfl
    · rfl

theorem close_sheds (c : Core) (o : Told) (u : Nat) (reason : CloseReason) :
    Sheds c (c.close o u reason) := by
  cases hs : c.sessions.lookup u with
  | none => rw [close_none hs]; exact .refl c
  | some s =>
    have hident := c.close_ident o u reason
    obtain ⟨tok, subs, out, south, ts, m, l, hc⟩ := close_frame hs o reason
    have hleft : ∀ v x, (c.close o u reason).ident v = some x → c.ident v = some x := by
      intro v x hx
      rw [hident] at hx
      split_ifs at hx
      exact hx
    refine ⟨by rw [hc], by rw [hc], by rw [hc], by rw [hc], fun t ht => by rwa [hc], hleft,
      fun h => ⟨fun n v => ?_, ?_⟩⟩
    · have hu : c.byPeer.lookup s.peer = some u := (h.peers _ _).2 ⟨_, ident_of hs, rfl⟩
      have hpeer : (c.close o u reason).byPeer = c.byPeer.erase s.peer := by
        rw [hc]
        exact if_pos hu
      rw [hpeer, Map.lookup_erase_if, hident]
      by_cases hv : v = u
      · rw [if_pos hv, hv]
        split_ifs with hn
        · simp
        · -- The peer of the session is another.
          simp [h.peers, ident_of hs, Sess.ident, Ne.symm hn]
      · rw [if_neg hv, ← h.peers]
        split_ifs with hn
        · rw [hn, hu]
          simp [Ne.symm hv]
        · rfl
    · intro v x hx
      have hold := h.uids v x (hleft v x hx)
      rwa [hc]

/-- After a close the peer has no session, and the sessions of others are there. -/
theorem Seated.close_peer (h : c.Seated) {n : String} (hu : c.byPeer.lookup n = some u) (o : Told)
    (reason : CloseReason) : (c.close o u reason).byPeer.lookup n = none ∧
      ∀ y, (c.close o u reason).Has y ↔ c.Has y ∧ y.peer ≠ n := by
  obtain ⟨x, hx, hp⟩ := (h.peers n u).1 hu
  have hother : ∀ v y, (c.close o u reason).ident v = some y → y.peer ≠ n := by
    intro v y hy he
    rw [close_ident] at hy
    split_ifs at hy with hv
    exact hv (Option.some.inj (((h.peers n v).2 ⟨y, hy, he⟩).symm.trans hu))
  refine ⟨?_, fun y => ⟨fun hy => ⟨(c.close_sheds o u reason).has hy, ?_⟩, ?_⟩⟩
  · by_contra hne
    obtain ⟨v, hv⟩ := Option.ne_none_iff_exists'.1 hne
    obtain ⟨y, hy, he⟩ := (((c.close_sheds o u reason).seated h).peers n v).1 hv
    exact hother v y hy he
  · obtain ⟨v, hv⟩ := hy
    exact hother v y hv
  · rintro ⟨⟨v, hv⟩, hne⟩
    refine ⟨v, ?_⟩
    rw [close_ident, if_neg, hv]
    rintro rfl
    rw [hx] at hv
    exact hne (Option.some.inj hv ▸ hp)

theorem closeAll_sheds (c : Core) (o : Told) (reason : CloseReason) (us : List Nat) :
    Sheds c (c.closeAll o reason us) :=
  .foldl (fun c u => c.close_sheds o u reason) us c

theorem fence_sheds (c : Core) (o : Told) : Sheds c (c.fence o) := by
  refine (c.closeAll_sheds o .fenced (o.uids.run c.sessions.keys)).trans ?_
  refine .same rfl rfl rfl rfl rfl (fun t ht => ?_) fun _ => rfl
  obtain ⟨d, hd⟩ := Map.mem_iff_lookup.1 ht
  refine Map.mem_iff_lookup.2 ⟨{ d with next := 0, backoff := backoffMin }, ?_⟩
  refine (Map.lookup_mapVals _ _ t).trans ?_
  rw [hd]
  rfl

theorem dialOne_sheds (o : Told) (c : Core) (addr : String) : Sheds c (dialOne o c addr) := by
  have hgrows : ∀ (m : Map String Dial) (d : Dial), ∀ t ∈ m, t ∈ m.insert addr d :=
    fun m _ _ ht => (AList.mem_insert m).2 (.inr ht)
  rw [dialOne]
  dsimp only
  split
  · exact .same rfl rfl rfl rfl rfl (hgrows _ _) fun _ => rfl
  · exact .same rfl rfl rfl rfl rfl (fun t ht => hgrows _ _ t (hgrows _ _ t ht)) fun _ => rfl

theorem onTick_sheds (c : Core) (o : Told) (gap : Nat) : Sheds c (c.onTick o gap) := by
  rw [onTick]
  split
  · exact c.fence_sheds o
  · refine (c.closeAll_sheds o .expired ((o.uids.run c.sessions.keys).filter o.silent)).trans ?_
    exact (Sheds.foldl (fun c q => .of_roster (c.finish_moves o q).roster) _ _).trans
      (.foldl (dialOne_sheds o) _ _)

theorem shutdown_sheds (c : Core) (o : Told) : Sheds c (c.shutdown o) := by
  have hclear : Sheds c { c with lTsubs := ∅, lSubs := ∅, lQabls := ∅, pending := ∅ } :=
    .of_roster rfl
  exact hclear.trans ((closeAll_sheds _ o .shutdown _).trans (.of_roster rfl))

/-! ## Every event that brings no connection -/

theorem remoteDeclare_sheds (hs : c.sessions.lookup u = some s) (k : DeclKind) (id : Nat)
    (e : String) : Sheds c (c.remoteDeclare u s k id e) := by
  have hkind : ∀ c : Core, (c.noteDecl u k id e).roster = c.roster := by
    intro c
    cases k with
    | token => exact c.tokAdd_roster e
    | sub | qabl => rfl
  have hset : Sheds c { c with
      sessions := c.sessions.insert u { s with decls := s.decls.insert (k, id) e } } :=
      .session hs rfl
  rw [remoteDeclare]
  split
  · refine hset.trans (.of_roster ?_)
    dsimp only
    split
    · rfl
    · split
      · exact (announce_roster _ _).trans (hkind _)
      · exact hkind _
  · exact .refl c

theorem remoteUndeclare_sheds (hs : c.sessions.lookup u = some s) (k : DeclKind) (id : Nat) :
    Sheds c (c.remoteUndeclare u s k id) := by
  rw [remoteUndeclare]
  cases s.decls.lookup (k, id) with
  | none => exact .refl c
  | some e =>
    have hset : Sheds c { c with
        sessions := c.sessions.insert u { s with decls := s.decls.erase (k, id) } } :=
        .session hs rfl
    exact hset.trans (.of_roster (closeDecl_roster u (_, false) _))

theorem onCmd_sheds (c : Core) (o : Told) (cmd : Cmd) : Sheds c (c.onCmd o cmd) := by
  cases cmd with
  | declareToken | subscribe | queryable => exact .of_roster (c.declareLocal_roster o _ _)
  | tokenSub expr history => exact .of_roster (c.tokenSub_roster o expr history)
  | undeclare k id => exact .of_roster (c.undeclareLocal_roster o k id)
  | tokenUnsub id =>
    refine .of_roster ?_
    simp only [onCmd]
    split
    · exact tellUpstream_roster _ _ _
    · rfl
  | put key payload => exact .of_roster (c.routePut_roster o none key payload)
  | get => exact .of_roster (c.routeGet_roster o _ _ _ _)
  | localReply q qabl key ok payload =>
    simp only [onCmd]
    split
    · exact .of_roster (c.forwardReply_roster o q _ key ok payload)
    · exact .refl c
  | localFinal q qabl => exact .of_roster (c.targetDone_moves o q _).roster
  | close => exact c.shutdown_sheds o

theorem onMsg_sheds (c : Core) (o : Told) (u : Nat) (m : Msg) : Sheds c (c.onMsg o u m) := by
  rw [onMsg]
  cases hs : c.sessions.lookup u with
  | none => exact .refl c
  | some s =>
    cases m with
    | close r => exact c.close_sheds o u r
    | hello | keepAlive | declareDone => exact .refl c
    | declare k id e => exact remoteDeclare_sheds hs k id e
    | undeclare k id => exact remoteUndeclare_sheds hs k id
    | tokenSub id expr history =>
      dsimp only
      split
      · have hset : Sheds c { c with
            sessions := c.sessions.insert u { s with tsubs := s.tsubs.insert id expr } } :=
            .session hs rfl
        exact hset.trans (.of_roster rfl)
      · exact .refl c
    | tokenUnsub id => exact .session hs rfl
    | tokenEvt id kind key => exact .of_roster (c.onTokenEvt_roster id kind key)
    | peers list =>
      have hknown : Sheds c (c.learn list) := .of_roster rfl
      exact hknown.trans (.session (c := c.learn list) hs rfl)
    | put key payload => exact .of_roster (c.routePut_roster o _ key payload)
    | request => exact .of_roster (c.routeGet_roster o _ _ _ _)
    | reply q key ok payload =>
      dsimp only
      split
      · exact .of_roster (c.forwardReply_roster o q _ key ok payload)
      · exact .refl c
    | final q => exact .of_roster (c.targetDone_moves o q _).roster

/-- **Only new connections bring sessions.** -/
theorem onEv_sheds (c : Core) (o : Told) {e : Ev} (he : e.brings = none) :
    Sheds c (c.onEv o e) := by
  cases e with
  | cmd cmd => exact c.onCmd_sheds o cmd
  | msg u m => exact c.onMsg_sheds o u m
  | closed u reason => exact c.close_sheds o u reason
  | paused => exact c.fence_sheds o
  | tick gap => exact c.onTick_sheds o gap
  | accepted => exact absurd he nofun
  | dialed target sno res =>
    obtain rfl : res = none := he
    simp only [onEv, onDialed]
    cases c.dials.lookup target with
    | none => exact .refl c
    | some d =>
      exact .same rfl rfl rfl rfl rfl (fun _ ht => (AList.mem_insert _).2 (.inr ht)) fun _ => rfl

/-! ## A connection is taken -/

/-- The session is there, and of its peer no other. -/
structure Takes (c : Core) (x : Ident) (c' : Core) : Prop where
  node : c'.node = c.node
  router : c'.router = c.router
  boot : c'.boot = c.boot
  dials : ∀ t ∈ c.dials, t ∈ c'.dials
  has : ∀ y, c'.Has y ↔ y = x ∨ c.Has y ∧ y.peer ≠ x.peer
  seated : c'.Seated

/-- A session is installed for a peer that has none. -/
theorem Seated.install (h : c.Seated) {hello : Hello} (hnone : c.byPeer.lookup hello.node = none)
    (o : Told) (k : Nat) (dialer : String) (boot sno : Nat) :
    Takes c ⟨hello.node, dialer, boot, sno, k⟩ (c.install o k hello dialer boot sno) := by
  rw [install_eq]
  obtain ⟨l, hl⟩ := (c.enter k hello dialer boot sno).greet_eq o c.nextUid hello.role
  rw [hl]
  have hident : ∀ v, ident { c.enter k hello dialer boot sno with fx := l } v =
      if v = c.nextUid then some ⟨hello.node, dialer, boot, sno, k⟩ else c.ident v := by
    intro v
    rw [ident, enter]
    dsimp only
    rw [Map.lookup_insert_if]
    split_ifs
    · rfl
    · rfl
  have hnew : ∀ v x, c.ident v = some x → v ≠ c.nextUid := fun v x hx => (h.uids v x hx).ne
  have hother : ∀ v x, c.ident v = some x → x.peer ≠ hello.node := by
    intro v x hx hp
    rw [(h.peers _ v).2 ⟨x, hx, hp⟩] at hnone
    exact absurd hnone nofun
  refine ⟨rfl, rfl, rfl, fun _ ht => ht, fun y => ⟨?_, ?_⟩, ⟨fun n v => ?_, fun v x hx => ?_⟩⟩
  · rintro ⟨v, hv⟩
    rw [hident] at hv
    split_ifs at hv
    · exact .inl (Option.some.inj hv).symm
    · exact .inr ⟨⟨v, hv⟩, hother v y hv⟩
  · rintro (rfl | ⟨⟨v, hv⟩, -⟩)
    · exact ⟨c.nextUid, by rw [hident, if_pos rfl]⟩
    · exact ⟨v, by rw [hident, if_neg (hnew v y hv), hv]⟩
  · show (c.byPeer.insert hello.node c.nextUid).lookup n = some v ↔ _
    rw [Map.lookup_insert_if, hident]
    by_cases hv : v = c.nextUid
    · have hno : c.byPeer.lookup n ≠ some v := by
        intro hn
        obtain ⟨x, hx, -⟩ := (h.peers n v).1 hn
        exact hnew v x hx hv
      rw [if_pos hv, hv]
      rw [hv] at hno
      split_ifs with hn
      · simp [hn]
      · simp [hno, Ne.symm hn]
    · rw [if_neg hv, ← h.peers]
      split_ifs with hn
      · rw [hn, hnone]
        simp [Ne.symm hv]
      · rfl
  · show v < c.nextUid + 1
    rw [hident] at hx
    split_ifs at hx with hv
    · exact hv ▸ Nat.lt_succ_self _
    · exact (h.uids v x hx).trans (Nat.lt_succ_self _)

/-- What the peer had before is closed first. -/
theorem Seated.replace (h : c.Seated) (o : Told) (reason : Nat → CloseReason) (k : Nat)
    (hello : Hello) (dialer : String) (boot sno : Nat) :
    Takes c ⟨hello.node, dialer, boot, sno, k⟩
      ((match c.byPeer.lookup hello.node with
        | none => c
        | some u => c.close o u (reason u)).install o k hello dialer boot sno) := by
  cases hu : c.byPeer.lookup hello.node with
  | none => exact h.install hu o k dialer boot sno
  | some u =>
    obtain ⟨hnone, hhas⟩ := h.close_peer hu o (reason u)
    have hclose := c.close_sheds o u (reason u)
    have htakes := (hclose.seated h).install hnone o k dialer boot sno
    refine ⟨htakes.node.trans hclose.node, htakes.router.trans hclose.router,
      htakes.boot.trans hclose.boot, fun t ht => htakes.dials t (hclose.dials t ht), fun y => ?_,
      htakes.seated⟩
    rw [htakes.has, hhas]
    simp only [and_assoc, and_self]

/-- The hello is taken for a new session, whatever session the peer has. -/
def Accepts (c : Core) (h : Hello) : Prop :=
  h.proto = proto ∧ h.node ≠ c.node ∧ c.router = true ∧ ∀ y, c.Has y → y.peer = h.node →
    (y.dialer = h.node → y.boot < h.boot ∨ y.boot = h.boot ∧ y.sno < h.sno) ∧
      (y.dialer ≠ h.node → h.node < c.node)

theorem Seated.none_of (h : c.Seated) {n : String} (hu : c.byPeer.lookup n = none) {y : Ident}
    (hy : c.Has y) : y.peer ≠ n := by
  obtain ⟨v, hv⟩ := hy
  intro hp
  rw [(h.peers n v).2 ⟨y, hv, hp⟩] at hu
  exact absurd hu nofun

/-- What holds of all sessions of a peer is about the one that `by_peer` has. -/
theorem Seated.forall_peer (h : c.Seated) {n : String} (hu : c.byPeer.lookup n = some u)
    (hs : c.sessions.lookup u = some s) (p : Ident → Prop) :
    (∀ y, c.Has y → y.peer = n → p y) ↔ p s.ident := by
  obtain ⟨x, hx, hp⟩ := (h.peers n u).1 hu
  rw [ident_of hs] at hx
  obtain rfl := Option.some.inj hx
  refine ⟨fun hall => hall _ ⟨u, ident_of hs⟩ hp, fun hx y hy hpy => ?_⟩
  rwa [h.unique hy ⟨u, ident_of hs⟩ (hpy.trans hp.symm)]

/-- The session that `by_peer` has is there. -/
theorem Seated.lookup (h : c.Seated) {n : String} (hu : c.byPeer.lookup n = some u) :
    ∃ s, c.sessions.lookup u = some s := by
  obtain ⟨x, hx, -⟩ := (h.peers n u).1 hu
  obtain ⟨s, hs, -⟩ := of_ident hx
  exact ⟨s, hs⟩

theorem Seated.verdict_iff (h : c.Seated) (hello : Hello) :
    c.acceptVerdict hello = none ↔ c.Accepts hello := by
  rw [acceptVerdict, Accepts]
  by_cases hp : hello.proto ≠ proto ∨ hello.node = c.node ∨ ¬ c.router
  · rw [if_pos hp]
    refine iff_of_false nofun fun ⟨hproto, hnode, hr, _⟩ => ?_
    exact hp.elim (· hproto) fun hp => hp.elim hnode (· hr)
  · rw [if_neg hp]
    simp only [not_or, not_not] at hp
    cases hu : c.byPeer.lookup hello.node with
    | none =>
      refine iff_of_true rfl ⟨hp.1, hp.2.1, hp.2.2, fun y hy he => ?_⟩
      exact absurd he (h.none_of hu hy)
    | some u =>
      obtain ⟨s, hs⟩ := h.lookup hu
      rw [h.forall_peer hu hs, Option.bind_some, hs]
      simp only [hp, ne_eq, not_false_eq_true, true_and, Sess.ident]
      split_ifs with hd hlt hlt <;> simp [hd, hlt]

/-- The dial is taken for a new session, whatever session the peer has. -/
def Prefers (c : Core) (h : Hello) (sno : Nat) : Prop :=
  h.proto = proto ∧ h.node ≠ c.node ∧ (c.router = true ∨ h.role = .router) ∧
    ∀ y, c.Has y → y.peer = h.node →
      (y.dialer = c.node → ¬ sno < y.sno) ∧ (y.dialer ≠ c.node → ¬ h.node < c.node)

theorem Seated.keepOld_iff (h : c.Seated) {hello : Hello} (hu : c.byPeer.lookup hello.node = some u)
    (sno : Nat) : c.keepOld hello sno u = false ↔ ∀ y, c.Has y → y.peer = hello.node →
      (y.dialer = c.node → ¬ sno < y.sno) ∧ (y.dialer ≠ c.node → ¬ hello.node < c.node) := by
  obtain ⟨s, hs⟩ := h.lookup hu
  rw [h.forall_peer hu hs]
  simp only [keepOld, hs, Sess.ident]
  split_ifs with hd <;> simp [hd]

theorem onAccepted_spec (h : c.Seated) (o : Told) (k : Nat) (hello : Hello) :
    o.broken = false ∧ c.Accepts hello ∧
        Takes c ⟨hello.node, hello.node, hello.boot, hello.sno, k⟩ (c.onAccepted o k hello) ∨
      (o.broken = true ∨ ¬ c.Accepts hello) ∧ (c.onAccepted o k hello).roster = c.roster := by
  rw [onAccepted]
  split_ifs with hb
  · exact .inr ⟨.inl hb, rfl⟩
  · have hverdict : (c.emit (.direct k (.hello (c.myHello hello.sno)))).acceptVerdict hello =
        c.acceptVerdict hello := rfl
    dsimp only
    rw [hverdict]
    cases hv : c.acceptVerdict hello with
    | some r =>
      refine .inr ⟨.inr fun ha => ?_, rfl⟩
      rw [(h.verdict_iff hello).2 ha] at hv
      exact absurd hv (by simp)
    | none =>
      refine .inl ⟨by simpa using hb, (h.verdict_iff hello).1 hv, ?_⟩
      have hemit : (c.emit (.direct k (.hello (c.myHello hello.sno)))).Seated :=
        (Sheds.of_roster (emit_roster _ _)).seated h
      obtain ⟨hn, hr, hboot, hd, hhas, hs⟩ := hemit.replace o _ k hello hello.node hello.boot
        hello.sno
      exact ⟨hn, hr, hboot, hd, hhas, hs⟩

/-- The target of a dial that came through. -/
def noted (c : Core) (o : Told) (target : String) (d : Dial) (n : String) : Core :=
  { c with dials := c.dials.insert target { d with
      busy := false, backoff := backoffMin, next := o.now + backoffMin, node := some n } }

theorem onDialed_eq {target : String} {d : Dial} (hd : c.dials.lookup target = some d) (o : Told)
    (sno k : Nat) (hello : Hello) : c.onDialed o target sno (some (k, hello)) =
      let c₁ := c.noted o target d hello.node
      if hello.proto ≠ proto ∨ hello.node = c.node ∨ (¬ c.router ∧ hello.role ≠ .router) then
        c₁.emit (.direct k (.close .protocol))
      else
        match c.byPeer.lookup hello.node with
        | none => c₁.install o k hello c.node c.boot sno
        | some u =>
          if c.keepOld hello sno u then c₁.emit (.direct k (.close .duplicate))
          else (c₁.close o u .duplicate).install o k hello c.node c.boot sno := by
  rw [onDialed, hd]
  rfl

theorem onDialed_spec (h : c.Seated) (o : Told) {target : String} (ht : target ∈ c.dials)
    (sno k : Nat) (hello : Hello) :
    c.Prefers hello sno ∧
        Takes c ⟨hello.node, c.node, c.boot, sno, k⟩ (c.onDialed o target sno (some (k, hello))) ∨
      ¬ c.Prefers hello sno ∧ Sheds c (c.onDialed o target sno (some (k, hello))) ∧
        ∀ y, c.Has y → (c.onDialed o target sno (some (k, hello))).Has y := by
  obtain ⟨d, hd⟩ := Map.mem_iff_lookup.1 ht
  have hnoted : Sheds c (c.noted o target d hello.node) :=
    .same rfl rfl rfl rfl rfl (fun _ h => (AList.mem_insert _).2 (.inr h)) fun _ => rfl
  have hsent : ∀ m, Sheds c ((c.noted o target d hello.node).emit m) ∧
      ∀ y, c.Has y → ((c.noted o target d hello.node).emit m).Has y :=
    fun m => ⟨hnoted.trans (.of_roster rfl), fun _ hy => hy⟩
  have htakes : ∀ {x c'}, Takes (c.noted o target d hello.node) x c' → Takes c x c' :=
    fun ⟨hn, hr, hb, hdials, hhas, hs⟩ =>
      ⟨hn, hr, hb, fun t ht => hdials t (hnoted.dials t ht), hhas, hs⟩
  rw [onDialed_eq hd, Prefers]
  dsimp only
  by_cases hp : hello.proto ≠ proto ∨ hello.node = c.node ∨ (¬ c.router ∧ hello.role ≠ .router)
  · rw [if_pos hp]
    refine .inr ⟨fun ⟨hproto, hnode, hr, _⟩ => ?_, hsent _⟩
    refine hp.elim (· hproto) fun hp => hp.elim hnode fun hp => ?_
    exact hr.elim hp.1 hp.2
  · rw [if_neg hp]
    simp only [not_or, not_and, not_not] at hp
    have hfine : hello.proto = proto ∧ hello.node ≠ c.node ∧
        (c.router = true ∨ hello.role = .router) := ⟨hp.1, hp.2.1, or_iff_not_imp_left.2 hp.2.2⟩
    have hreplace := (hnoted.seated h).replace o (fun _ => .duplicate) k hello c.node
      c.boot sno
    have hpeer : (c.noted o target d hello.node).byPeer = c.byPeer := rfl
    rw [hpeer] at hreplace
    cases hu : c.byPeer.lookup hello.node with
    | none =>
      rw [hu] at hreplace
      refine .inl ⟨⟨hfine.1, hfine.2.1, hfine.2.2, fun y hy he => ?_⟩, htakes hreplace⟩
      exact absurd he (h.none_of hu hy)
    | some u =>
      rw [hu] at hreplace
      dsimp only
      cases hk : c.keepOld hello sno u with
      | true =>
        refine .inr ⟨fun hall => ?_, hsent _⟩
        rw [(h.keepOld_iff hu sno).2 hall.2.2.2] at hk
        exact absurd hk nofun
      | false =>
        exact .inl ⟨⟨hfine.1, hfine.2.1, hfine.2.2, (h.keepOld_iff hu sno).1 hk⟩, htakes hreplace⟩

end Core

end OxlensSfu.Mesh
