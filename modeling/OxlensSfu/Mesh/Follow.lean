import OxlensSfu.Mesh.Tracks
import OxlensSfu.Mesh.Client

/-!
# Who follows the tokens

A subscription of a router's own process has, from the moment it is opened with history, the tokens
that match (`router_follows`).

A client has what its upstream tells it: what it has seen is what it has told its own process, and
without a session it has seen nothing (`Sits`). A new session is told of every subscription.
-/

namespace OxlensSfu.Mesh.Core

variable {c c' c'' : Core} {P : Ear → Prop} {o : Told} {e : Ev} {u id : Nat} {s : Sess} {a : Ear}

/-! ## Routers -/

theorem Handles.counts (h : Handles c c') : c.nextId ≤ c'.nextId ∧
    ((∀ u ∈ c.sessions, u < c.nextUid) → ∀ u ∈ c'.sessions, u < c'.nextUid) := by
  cases h with
  | works h =>
    refine ⟨h.nextId, fun huids u hu => ?_⟩
    rw [h.nextUid]
    exact huids u (h.sessions u hu)
  | @install x h o k hello dialer boot sno =>
    obtain ⟨l, hl⟩ := (x.enter k hello dialer boot sno).greet_eq o x.nextUid hello.role
    rw [install_eq, hl]
    refine ⟨h.nextId, fun huids u hu => ?_⟩
    rcases (AList.mem_insert _).1 hu with rfl | hu
    · exact Nat.lt_succ_self _
    · exact Nat.lt_succ_of_lt (h.nextUid ▸ huids u (h.sessions u hu))
  | query o origin expr payload timeoutMs =>
    have hquiet := c.routeGet_quiet o origin expr payload timeoutMs
    refine ⟨hquiet.nextId, fun huids u hu => ?_⟩
    rw [hquiet.nextUid]
    exact huids u (hquiet.mem hu)

/-- A copy of what matches stays one. -/
theorem Hears.matched (h : Hears P c c') (ha : P a) {x : String} (hx : c'.listens a = some x) :
    ∃ l, c'.fx = c.fx ++ l ∧ Change.replay (c.matched x) (news a l) = c'.matched x := by
  obtain ⟨l, cs, hl, hcs, hnews⟩ := h.log
  refine ⟨l, hl, ?_⟩
  rw [(hnews a ha).1 x hx, Core.matched, Core.matched, hcs, Change.filter_replay]

/-- Ids that are still to be given are unknown. -/
structure Tuned (c : Core) : Prop where
  router : c.router = true
  uids : ∀ u ∈ c.sessions, u < c.nextUid
  fresh : ∀ id, c.nextId ≤ id → ¬ c.Alive (.own id) ∧ news (.own id) c.fx = []

theorem tokenSub_nextId (c : Core) (o : Told) (expr : String) (history : Bool) :
    (c.tokenSub o expr history).nextId = c.nextId + 1 := by
  simp only [tokenSub, askTokens]
  split_ifs
  · rfl
  · rfl
  · split <;> rfl
  · split <;> rfl

theorem turns_own (h : c.turns e = some (.own id)) :
    id = c.nextId ∧ c.nextId < (c.onEv o e).nextId := by
  cases e with
  | cmd cmd =>
    cases cmd with
    | tokenSub expr history =>
      refine ⟨(Ear.own.inj (Option.some.inj h)).symm, ?_⟩
      exact (c.tokenSub_nextId o expr history).symm ▸ Nat.lt_succ_self _
    | _ => exact absurd h nofun
  | msg u m =>
    cases m with
    | tokenSub | tokenUnsub => exact absurd (Option.some.inj h) nofun
    | _ => exact absurd h nofun
  | _ => exact absurd h nofun

theorem Tuned.onEv (h : c.Tuned) (o : Told) (e : Ev) : (c.onEv o e).Tuned := by
  have hhears := onEv_hears h.router h.uids o e
  obtain ⟨hid, huids⟩ := (c.onEv_handles o e).counts
  refine ⟨hhears.router.trans h.router, huids h.uids, fun id hle => ?_⟩
  have hturn : c.turns e ≠ some (.own id) := by
    intro he
    obtain ⟨rfl, hlt⟩ := turns_own (o := o) he
    exact absurd hle (Nat.not_le_of_lt hlt)
  obtain ⟨hdead, hnone⟩ := h.fresh id (hid.trans hle)
  have hlistens := listens_none hdead
  obtain ⟨l, cs, hl, -, hnews⟩ := hhears.log
  refine ⟨fun halive => ?_, ?_⟩
  · obtain ⟨x, hx⟩ := alive_own halive
    rw [hhears.keeps _ hturn halive, hlistens] at hx
    exact absurd hx nofun
  · rw [hl, news_append, hnone, (hnews _ hturn).2 hlistens]
    rfl

/-- The subscription has what matches, as long as it is there. -/
structure Copies (c : Core) (id : Nat) (expr : String) : Prop where
  tuned : c.Tuned
  known : id < c.nextId
  copy : c.Alive (.own id) → c.listens (.own id) = some expr ∧ c.copy id = c.matched expr

theorem Copies.onEv {expr : String} (h : c.Copies id expr) (o : Told) (e : Ev) :
    (c.onEv o e).Copies id expr := by
  have hhears := onEv_hears h.tuned.router h.tuned.uids o e
  have hturn : c.turns e ≠ some (.own id) := fun he =>
    absurd (turns_own (o := o) he).1 h.known.ne
  refine ⟨h.tuned.onEv o e, h.known.trans_le ((c.onEv_handles o e).counts).1, fun halive => ?_⟩
  have hkeep := hhears.keeps _ hturn halive
  obtain ⟨x, hx⟩ := alive_own halive
  obtain ⟨hexpr, hcopy⟩ := h.copy (alive_of_listens (hkeep.symm.trans hx))
  have hafter := hkeep.trans hexpr
  obtain ⟨l, hl, hmatched⟩ := hhears.matched hturn hafter
  refine ⟨hafter, ?_⟩
  rw [Core.copy, hl, news_append, Change.replay_append, ← hmatched, ← hcopy]
  rfl

theorem Tuned.tokenSub (h : c.Tuned) (o : Told) (expr : String) :
    (c.onEv o (.cmd (.tokenSub expr true))).Copies c.nextId expr := by
  obtain ⟨l, hl, htok, hlistens, hreplay⟩ := tokenSub_opens h.router o expr
  refine ⟨h.onEv o _, (turns_own (o := o) (e := .cmd (.tokenSub expr true)) rfl).2, fun _ => ?_⟩
  refine ⟨hlistens, ?_⟩
  show Change.replay ∅ (news _ (c.tokenSub o expr true).fx) = Core.matched (c.tokenSub o expr true) expr
  rw [hl, news_append, (h.fresh c.nextId le_rfl).2, List.nil_append, hreplay, Core.matched,
    Core.matched, toks, toks, htok]

theorem tuned_new (node : String) (leaseMs boot : Nat) (adv : Option String)
    (seeds : List String) : (Core.new node true leaseMs boot adv seeds).Tuned :=
  ⟨rfl, fun u hu => absurd hu (AList.notMem_empty u), fun id _ => ⟨AList.notMem_empty id, rfl⟩⟩

/-- **The own process of a router follows the tokens.** -/
theorem router_follows {node : String} {leaseMs boot : Nat} {adv : Option String}
    {seeds : List String} {es₁ es₂ : List (Told × Ev)} {expr : String}
    (hrun : machine.Legal (Core.new node true leaseMs boot adv seeds)
      (es₁ ++ (o, .cmd (.tokenSub expr true)) :: es₂)) :
    (machine.exec (Core.new node true leaseMs boot adv seeds)
      (es₁ ++ (o, .cmd (.tokenSub expr true)) :: es₂)).Copies
      (machine.exec (Core.new node true leaseMs boot adv seeds) es₁).nextId expr := by
  rw [Machine.legal_append] at hrun
  obtain ⟨hbefore, -, hafter⟩ := hrun
  have htuned : (machine.exec (Core.new node true leaseMs boot adv seeds) es₁).Tuned :=
    Machine.invariant (fun c a h _ => h.onEv a.1 a.2) (tuned_new node leaseMs boot adv seeds) hbefore
  rw [Machine.exec_append, Machine.exec_cons]
  generalize machine.exec (Core.new node true leaseMs boot adv seeds) es₁ = c at htuned hafter ⊢
  exact Machine.invariant (I := fun c' => Core.Copies c' c.nextId expr)
    (fun _ a h _ => Copies.onEv h a.1 a.2) (htuned.tokenSub o expr) hafter

/-! ## Clients -/

/-- What a client has seen of a subscription is what it has told its own process, and when a session
is lost it has seen nothing. -/
structure Sits (id : Nat) (c c' : Core) : Prop where
  sessions : ∀ u ∈ c'.sessions, u ∈ c.sessions
  log : ∃ l, c'.fx = c.fx ++ l ∧
    (id ∉ c.lTsubs → id ∉ c'.lTsubs ∧ news (.own id) l = [] ∧ Unasked id l) ∧
    ∀ t', c'.lTsubs.lookup id = some t' → ∃ t, c.lTsubs.lookup id = some t ∧ t'.expr = t.expr ∧
      Unasked id l ∧ Change.replay t.seen.toFinset (news (.own id) l) = t'.seen.toFinset ∧
      (t'.seen = t.seen ∧ (∀ u ∈ c.sessions, u ∈ c'.sessions) ∨
        t'.seen = [] ∧ ∃ u ∈ c.sessions, u ∉ c'.sessions)

theorem Sits.trans (h : Sits id c c') (h' : Sits id c' c'') : Sits id c c'' := by
  obtain ⟨l, hl, hnone, hsome⟩ := h.log
  obtain ⟨l', hl', hnone', hsome'⟩ := h'.log
  refine ⟨fun u hu => h.sessions u (h'.sessions u hu), l ++ l', ?_, fun hid => ?_, fun t'' ht'' => ?_⟩
  · rw [hl', hl, List.append_assoc]
  · obtain ⟨hid', hnews, hun⟩ := hnone hid
    obtain ⟨hid'', hnews', hun'⟩ := hnone' hid'
    exact ⟨hid'', by rw [news_append, hnews, hnews', List.append_nil], hun.append hun'⟩
  · obtain ⟨t', ht', hexpr', hun', hseen', hor'⟩ := hsome' t'' ht''
    obtain ⟨t, ht, hexpr, hun, hseen, hor⟩ := hsome t' ht'
    refine ⟨t, ht, hexpr'.trans hexpr, hun.append hun', ?_, ?_⟩
    · rw [news_append, Change.replay_append, hseen, hseen']
    · rcases hor' with ⟨hsame', hkept'⟩ | ⟨hempty', u, hu, hlost'⟩
      · rcases hor with ⟨hsame, hkept⟩ | ⟨hempty, u, hu, hlost⟩
        · exact .inl ⟨hsame'.trans hsame, fun u hu => hkept' u (hkept u hu)⟩
        · exact .inr ⟨hsame'.trans hempty, u, hu, fun hmem => hlost (h'.sessions u hmem)⟩
      · exact .inr ⟨hempty', u, h.sessions u hu, hlost'⟩

/-- Other subscriptions change. -/
theorem Sits.other (hs : ∀ u, u ∈ c'.sessions ↔ u ∈ c.sessions)
    (ht : c'.lTsubs.lookup id = c.lTsubs.lookup id) {l : List Fx} (hl : c'.fx = c.fx ++ l)
    (hnews : news (.own id) l = []) (hun : Unasked id l) : Sits id c c' := by
  refine ⟨fun u => (hs u).1, l, hl, fun hid => ⟨?_, hnews, hun⟩, fun t' ht' => ?_⟩
  · rwa [← AList.lookup_eq_none, ht, AList.lookup_eq_none]
  · refine ⟨t', ht ▸ ht', rfl, hun, ?_, .inl ⟨rfl, fun u => (hs u).2⟩⟩
    rw [hnews, Change.replay_nil]

theorem Still.sits (h : Still c c') (id : Nat) : Sits id c c' := by
  obtain ⟨l, hl, hplain⟩ := h.fx
  exact .other h.mem (by rw [h.lTsubs]) hl (news_plain hplain _) (unasked_plain hplain id)

theorem Sits.refl (id : Nat) (c : Core) : Sits id c c := (Still.refl c).sits id

/-! ## Sessions are lost -/

/-- The own process is told that every token is gone. -/
theorem news_forget (c : Core) (id : Nat) : news (.own id) (c.lTsubs.entries.flatMap fun t =>
    (t.2.seen.map fun k => .token t.1 .delete k) ++ [.token t.1 .batchEnd ""]) =
      (c.lTsubs.lookup id).elim [] fun t => t.seen.map .delete := by
  rw [news, List.filterMap_flatMap, ← Map.flatMap_entries]
  refine List.flatMap_congr fun t _ => ?_
  have hend : news (.own id) [.token t.1 .batchEnd ""] = [] :=
    news_plain (List.forall_mem_singleton.2 rfl) _
  show news _ (_ ++ _) = _
  rw [news_append, hend, List.append_nil, news_tokens (f := .delete) fun _ => rfl]
  simp only [Ear.own.injEq, eq_comm]

theorem leave_sits (hs : c.sessions.lookup u = some s) (reason : CloseReason) (id : Nat) :
    Sits id c (c.leave u s reason).forgetSeen := by
  let lost : List Fx := c.lTsubs.entries.flatMap fun t =>
    (t.2.seen.map fun k => .token t.1 .delete k) ++ [.token t.1 .batchEnd ""]
  let l : List Fx := .shut u (if reason.spoken then some reason else none) :: lost
  have hlook : (c.leave u s reason).forgetSeen.lTsubs.lookup id =
      (c.lTsubs.lookup id).map fun t => { t with seen := [] } := Map.lookup_mapVals _ _ id
  have hnews : news (.own id) l = (c.lTsubs.lookup id).elim [] fun t => t.seen.map .delete :=
    c.news_forget id
  have hun : Unasked id l := by
    refine unasked_of fun v m queued hm => ?_
    rcases List.mem_cons.1 hm with he | hm
    · exact absurd he nofun
    · obtain ⟨t, -, hm⟩ := List.mem_flatMap.1 hm
      rcases List.mem_append.1 hm with hm | hm
      · obtain ⟨k, -, he⟩ := List.mem_map.1 hm
        exact absurd he nofun
      · exact absurd (List.mem_singleton.1 hm) nofun
  refine ⟨fun v hv => (AList.mem_erase.1 hv).2, l, List.append_assoc _ _ _, fun hid => ?_,
    fun t' ht' => ?_⟩
  · have hnone := AList.lookup_eq_none.2 hid
    rw [hnone] at hlook hnews
    exact ⟨AList.lookup_eq_none.1 hlook, hnews, hun⟩
  · rw [hlook, Option.map_eq_some_iff] at ht'
    obtain ⟨t, ht, rfl⟩ := ht'
    refine ⟨t, ht, rfl, hun, ?_, .inr ⟨rfl, u, Map.mem_iff_lookup.2 ⟨s, hs⟩, ?_⟩⟩
    · rw [hnews, ht, Option.elim_some, Change.replay_deletes, sdiff_self]
      rfl
    · exact fun hmem => (AList.mem_erase.1 hmem).1 rfl

theorem Client.close_sits (h : c.Client) (o : Told) (u : Nat) (reason : CloseReason) (id : Nat) :
    Sits id c (c.close o u reason) := by
  cases hs : c.sessions.lookup u with
  | none =>
    have hsame : c.close o u reason = c := by simp [Core.close, hs]
    rw [hsame]
    exact .refl id c
  | some s =>
    have hempty : (o.decls u).run s.decls.entries = [] := by
      rw [h.decls u s hs]
      exact ((o.decls u).perm _).eq_nil
    have hdecls : (c.leave u s reason).dropDecls o u s = (c.leave u s reason).forgetSeen := by
      rw [dropDecls, hempty]
      exact if_neg (by simp [leave, h.router])
    rw [close_eq hs, hdecls]
    exact (leave_sits hs reason id).trans (((dropQueries_still _ o u).trans (tellLeft_still _ s)).sits id)

theorem Client.closeAll_sits (h : c.Client) (o : Told) (reason : CloseReason) (us : List Nat)
    (id : Nat) : Sits id c (c.closeAll o reason us) := by
  induction us generalizing c with
  | nil => exact .refl id c
  | cons u us ih => exact (h.close_sits o u reason id).trans (ih ((h.close_quiet o u reason).client h))

theorem Client.fence_sits (h : c.Client) (o : Told) (id : Nat) : Sits id c (c.fence o) := by
  refine (h.closeAll_sits o .fenced (o.uids.run c.sessions.keys) id).trans (Still.sits ?_ id)
  exact .aside rfl rfl rfl rfl le_rfl rfl

theorem Client.onTick_sits (h : c.Client) (o : Told) (gap : Nat) (id : Nat) :
    Sits id c (c.onTick o gap) := by
  rw [onTick]
  split_ifs
  · exact h.fence_sits o id
  · have hclosed := h.closeAll_sits o .expired ((o.uids.run c.sessions.keys).filter o.silent) id
    exact hclosed.trans (((finishAll_still _ o _).trans (dialWanted_still _ o)).sits id)

theorem Client.shutdown_sits (h : c.Client) (o : Told) (id : Nat) : Sits id c (c.shutdown o) := by
  let c₀ : Core := { c with lTsubs := ∅, lSubs := ∅, lQabls := ∅, pending := ∅ }
  have hclient : c₀.Client := by
    refine ⟨h.router, h.decls, fun k i hi => ?_, h.uids⟩
    cases k with
    | token => exact h.ids .token i hi
    | sub | qabl => exact (AList.lookup_empty i : (∅ : Map Nat String).lookup i = none)
  have hdrop : Sits id c c₀ := by
    refine ⟨fun _ hu => hu, [], (List.append_nil _).symm, fun _ => ?_, fun t' ht' => ?_⟩
    · exact ⟨AList.notMem_empty id, rfl, fun _ => rfl⟩
    · exact absurd ((AList.lookup_empty id).symm.trans ht') nofun
  have hclosed := hclient.closeAll_sits o .shutdown (o.uids.run c.sessions.keys) id
  refine (hdrop.trans hclosed).trans (Still.sits ?_ id)
  exact .aside rfl rfl rfl rfl le_rfl rfl

/-! ## What a client does -/

/-- What a client tells its upstream. -/
theorem unasked_upstream {m : Msg} (hm : m.orders id = false) (v : Option Nat) :
    Unasked id (v.toList.map (.push · m true)) := by
  refine unasked_of fun u m' queued hmem => ?_
  obtain ⟨w, -, he⟩ := List.mem_map.1 hmem
  obtain ⟨rfl, rfl, rfl⟩ := Fx.push.inj he
  exact hm

theorem Client.declareLocal_sits (h : c.Client) (o : Told) (k : DeclKind) (x : String) (id : Nat) :
    Sits id c (c.declareLocal o k x) := by
  have hr : ¬ c.router = true := by simp [h.router]
  let c₁ : Core := { c with
    nextId := c.nextId + 1
    lTokens := k.stores .token c.lTokens c.nextId x
    lSubs := k.stores .sub c.lSubs c.nextId x
    lQabls := k.stores .qabl c.lQabls c.nextId x
    subs := if k = .sub then c.subs.add (.loc c.nextId) c.nextId x else c.subs }
  have h₁ : Still c c₁ := .aside rfl rfl rfl rfl (Nat.le_succ _) rfl
  have hd : c.declareLocal o k x = c₁.tellUpstream o (.declare k c.nextId x) := by
    cases k <;> exact if_neg hr
  rw [hd]
  exact (h₁.trans (c₁.tellUpstream_still o fun _ => rfl)).sits id

theorem Client.undeclareLocal_sits (h : c.Client) (o : Told) (k : DeclKind) (i id : Nat) :
    Sits id c (c.undeclareLocal o k i) := by
  have htell : ∀ {c₁ : Core}, Still c c₁ →
      Sits id c (c₁.tellUpstream o (.undeclare k i)) := fun h₁ =>
    (h₁.trans (tellUpstream_still _ o fun _ => rfl)).sits id
  have hr : c.router ≠ true := by simp [h.router]
  cases k with
  | token =>
    cases hx : c.lTokens.lookup i with
    | none =>
      have hsame : c.undeclareLocal o .token i = c := by simp [undeclareLocal, hx]
      rw [hsame]
      exact .refl id c
    | some x =>
      simp only [undeclareLocal, hx, if_true]
      rw [if_neg hr, if_neg hr]
      exact htell (.aside rfl rfl rfl rfl le_rfl rfl)
  | sub | qabl =>
    simp only [undeclareLocal]
    rw [if_neg hr]
    split
    · exact htell (.aside rfl rfl rfl rfl le_rfl rfl)
    · refine Still.sits ?_ id
      exact .aside rfl rfl rfl rfl le_rfl rfl

/-- A client asks its upstream for the tokens. -/
theorem tokenSub_asks (hr : c.router = false) (o : Told) (expr : String) (history : Bool) :
    ∃ l, c.tokenSub o expr history = { c with
      nextId := c.nextId + 1, lTsubs := c.lTsubs.insert c.nextId { expr }, fx := c.fx ++ l } ∧
      (∀ a, news a l = []) ∧
      ∀ u, pushed u l = if c.upstream o = some u then [.tokenSub c.nextId expr history] else [] := by
  have hr : ¬ c.router = true := by simp [hr]
  have hup : { c with nextId := c.nextId + 1 }.upstream o = c.upstream o := rfl
  rw [tokenSub, askTokens, if_neg hr, hup]
  cases c.upstream o with
  | some v =>
    refine ⟨[.push v (.tokenSub c.nextId expr history) true], rfl, fun a => ?_, fun u => ?_⟩
    · exact news_none (List.forall_mem_singleton.2 rfl)
    · by_cases hv : v = u <;> simp [pushed, hv, Msg.lane]
  | none =>
    cases history with
    | true =>
      refine ⟨[.token c.nextId .batchEnd ""], rfl, fun a => ?_, fun u => rfl⟩
      exact news_plain (List.forall_mem_singleton.2 rfl) a
    | false => exact ⟨[], by rw [List.append_nil]; rfl, fun _ => rfl, fun u => rfl⟩

theorem Client.tokenSub_sits (h : c.Client) (o : Told) (expr : String) (history : Bool)
    (hid : id ≠ c.nextId) : Sits id c (c.tokenSub o expr history) := by
  obtain ⟨l, hc, hnews, hpushed⟩ := tokenSub_asks h.router o expr history
  rw [hc]
  refine .other (fun _ => .rfl) (AList.lookup_insert_ne hid) rfl (hnews _) fun u => ?_
  rw [hpushed]
  split_ifs
  · simp [Msg.orders, Ne.symm hid]
  · rfl

theorem tokenUnsub_sits (c : Core) (o : Told) (i id : Nat) :
    Sits id c (c.onCmd o (.tokenUnsub i)) := by
  simp only [onCmd]
  split_ifs with hmem
  · obtain ⟨l, hl, hc⟩ := tellUpstream_fx { c with lTsubs := c.lTsubs.erase i } o (.tokenUnsub i)
    rw [hc]
    by_cases hid : id = i
    · subst hid
      refine ⟨fun _ hu => hu, _, hl, fun hn => absurd hmem hn, fun t' ht' => ?_⟩
      exact absurd ((AList.lookup_erase id _).symm.trans ht') (by simp)
    · refine .other (fun _ => .rfl) (AList.lookup_erase_ne hid) hl (news_none ?_) ?_
      · exact List.forall_mem_map.2 fun _ _ => rfl
      · exact unasked_upstream (by simp [Msg.orders, Ne.symm hid]) _
  · exact .refl id c

theorem Client.onCmd_sits (h : c.Client) (o : Told) {cmd : Cmd}
    (hid : c.turns (.cmd cmd) ≠ some (.own id)) : Sits id c (c.onCmd o cmd) := by
  cases cmd with
  | declareToken key => exact h.declareLocal_sits o .token key id
  | subscribe expr => exact h.declareLocal_sits o .sub expr id
  | queryable expr => exact h.declareLocal_sits o .qabl expr id
  | tokenSub expr history => exact h.tokenSub_sits o expr history fun he => hid (by rw [he]; rfl)
  | undeclare k i => exact h.undeclareLocal_sits o k i id
  | tokenUnsub i => exact c.tokenUnsub_sits o i id
  | close => exact h.shutdown_sits o id
  | _ => exact (onCmd_still o rfl).sits id

/-- A token that the client is told of. -/
theorem Client.onTokenEvt_spec (h : c.Client) {t : LTokenSub} (ht : c.lTsubs.lookup id = some t)
    (kind : TokenEvtKind) (key : String) : ∃ l t', (c.onTokenEvt id kind key).fx = c.fx ++ l ∧
      (c.onTokenEvt id kind key).sessions = c.sessions ∧
      (c.onTokenEvt id kind key).lTsubs.lookup id = some t' ∧ t'.expr = t.expr ∧ Unasked id l ∧
      Change.replay t.seen.toFinset (news (.own id) l) = t'.seen.toFinset ∧
      Change.replay t.seen.toFinset (kind.change key).toList = t'.seen.toFinset := by
  have hr : ¬ c.router = true := by simp [h.router]
  have hun : ∀ k, Unasked id [.token id k key] := fun k => unasked_of fun u m queued hm =>
    absurd (List.mem_singleton.1 hm) (by simp)
  have hnews : ∀ k : TokenEvtKind, news (.own id) [.token id k key] = (k.change key).toList := by
    intro k
    cases k <;> simp [news, Fx.news, TokenEvtKind.change]
  rw [onTokenEvt, if_neg hr, ht]
  cases kind with
  | put =>
    simp only
    split_ifs with hseen
    · refine ⟨[], t, (List.append_nil _).symm, rfl, ht, rfl, fun _ => rfl, rfl, ?_⟩
      exact Finset.insert_eq_of_mem (List.mem_toFinset.2 hseen)
    · refine ⟨[.token id .put key], _, rfl, rfl, AList.lookup_insert _, rfl, hun _, ?_, ?_⟩
      · rw [hnews, List.toFinset_cons]
        rfl
      · rw [List.toFinset_cons]
        rfl
  | delete =>
    have hless : (t.seen.filter (· ≠ key)).toFinset = t.seen.toFinset.erase key := by
      ext k
      simp [and_comm]
    refine ⟨[.token id .delete key], _, rfl, rfl, AList.lookup_insert _, rfl, hun _, ?_, ?_⟩
    · rw [hnews, hless]
      rfl
    · rw [hless]
      rfl
  | batchEnd =>
    refine ⟨[.token id .batchEnd ""], t, rfl, rfl, ht, rfl, unasked_of fun u m queued hm => ?_, ?_,
      rfl⟩
    · exact absurd (List.mem_singleton.1 hm) (by simp)
    · rw [news_plain (List.forall_mem_singleton.2 rfl), Change.replay_nil]

theorem onTokenEvt_sits (c : Core) {i : Nat} (hid : i = id → id ∉ c.lTsubs) (kind : TokenEvtKind)
    (key : String) : Sits id c (c.onTokenEvt i kind key) := by
  have hnone : ∀ k : TokenEvtKind, i ≠ id → news (.own id) [.token i k key] = [] := by
    intro k hne
    exact news_none (List.forall_mem_singleton.2 (if_neg fun he => hne (Ear.own.inj he).symm))
  have hun : ∀ k, Unasked id [.token i k key] := fun k => unasked_of fun u m queued hm =>
    absurd (List.mem_singleton.1 hm) (by simp)
  rw [onTokenEvt]
  split_ifs
  · exact .refl id c
  · cases ht : c.lTsubs.lookup i with
    | none => exact .refl id c
    | some t =>
      have hne : i ≠ id := fun he => hid he (he ▸ Map.mem_iff_lookup.2 ⟨t, ht⟩)
      have hset : ∀ t', (c.lTsubs.insert i t').lookup id = c.lTsubs.lookup id := fun t' =>
        AList.lookup_insert_ne (Ne.symm hne)
      cases kind with
      | put =>
        simp only
        split_ifs
        · exact .refl id c
        · exact .other (fun _ => .rfl) (hset _) rfl (hnone _ hne) (hun _)
      | delete => exact .other (fun _ => .rfl) (hset _) rfl (hnone _ hne) (hun _)
      | batchEnd =>
        refine .other (fun _ => .rfl) rfl rfl ?_ (unasked_of fun u m queued hm => ?_)
        · exact news_plain (List.forall_mem_singleton.2 rfl) _
        · exact absurd (List.mem_singleton.1 hm) (by simp)

theorem Client.onMsg_sits (h : c.Client) (o : Told) (u : Nat) {m : Msg}
    (hm : ∀ kind key, m = .tokenEvt id kind key → u ∈ c.sessions → id ∉ c.lTsubs) :
    Sits id c (c.onMsg o u m) := by
  have hr : ¬ c.router = true := by simp [h.router]
  cases hs : c.sessions.lookup u with
  | none =>
    have hsame : c.onMsg o u m = c := by rw [onMsg, hs]
    rw [hsame]
    exact .refl id c
  | some s =>
    cases m with
    | close r =>
      simp only [onMsg, hs]
      exact h.close_sits o u r id
    | declare k i x =>
      simp only [onMsg, hs, remoteDeclare, if_neg hr]
      exact .refl id c
    | undeclare k i =>
      simp only [onMsg, hs, remoteUndeclare, h.decls u s hs, AList.lookup_empty]
      exact .refl id c
    | tokenSub i expr history =>
      simp only [onMsg, hs]
      rw [if_neg fun he => hr he.1]
      exact .refl id c
    | tokenUnsub i =>
      simp only [onMsg, hs]
      exact .other (mem_insert_session hs _) rfl (List.append_nil _).symm rfl fun _ => rfl
    | tokenEvt i kind key =>
      simp only [onMsg, hs]
      exact c.onTokenEvt_sits (fun he => hm kind key (by rw [he]) (Map.mem_iff_lookup.2 ⟨s, hs⟩)) _ _
    | _ => exact (onMsg_still o u rfl).sits id

/-! ## A client has a new session -/

/-- A client asks for the tokens of every subscription. -/
theorem greeting_asks (hr : ¬ c.router = true) (o : Told) (role : Role) (id : Nat) :
    (c.greeting o role).filter (Msg.orders id) =
      (c.lTsubs.lookup id).elim [] fun t => [.tokenSub id t.expr true] := by
  have hlocal : (c.localMsgs o).filter (Msg.orders id) = [] := by
    rw [List.filter_eq_nil_iff]
    intro m hm
    simp only [localMsgs, List.mem_append, List.mem_map] at hm
    rcases hm with (⟨x, -, rfl⟩ | ⟨x, -, rfl⟩) | ⟨x, -, rfl⟩ <;> simp [Msg.orders]
  have hsubs : (c.lTsubs.entries.map fun t => Msg.tokenSub t.1 t.2.expr true).filter
      (Msg.orders id) = (c.lTsubs.lookup id).elim [] fun t => [.tokenSub id t.expr true] := by
    rw [← Map.flatMap_entries c.lTsubs id fun t => [Msg.tokenSub id t.expr true], List.filter_map,
      List.map_eq_flatMap, flatMap_filter]
    refine List.flatMap_congr fun t _ => ?_
    by_cases ht : t.1 = id <;> simp [Msg.orders, ht]
  rw [greeting, if_neg hr, List.filter_append, List.filter_append, hlocal, hsubs]
  exact List.append_nil _

/-- The new session is asked for them. -/
theorem install_asks (h : c.router = false) (o : Told) (k : Nat) (hello : Hello) (dialer : String)
    (boot sno id : Nat) : ∃ l, (c.install o k hello dialer boot sno).fx = c.fx ++ l ∧
      (c.install o k hello dialer boot sno).lTsubs = c.lTsubs ∧
      (c.install o k hello dialer boot sno).sessions =
        (c.enter k hello dialer boot sno).sessions ∧
      news (.own id) l = [] ∧ ∀ u, (pushed u l).filter (Msg.orders id) = if u = c.nextUid then
        (c.lTsubs.lookup id).elim [] fun t => [.tokenSub id t.expr true] else [] := by
  have hr : ¬ c.router = true := by simp [h]
  have hgreet : (c.enter k hello dialer boot sno).greet o c.nextUid hello.role =
      (c.enter k hello dialer boot sno).emits
        ((c.greeting o hello.role).map (.push c.nextUid · true)) := by
    rw [greet]
    exact if_neg fun he => hr he.1
  have hasks := greeting_asks hr o hello.role id
  have hlane := c.greeting_lane o hello.role
  rw [install_eq, hgreet]
  generalize c.greeting o hello.role = ms at hasks hlane ⊢
  refine ⟨ms.map (.push c.nextUid · true), rfl, rfl, rfl, news_none ?_, fun u => ?_⟩
  · rw [List.forall_mem_map]
    intro m _
    cases m with
    | tokenEvt i kind key => simp [Fx.news]
    | _ => rfl
  · rw [pushed_to u c.nextUid hlane]
    by_cases hu : u = c.nextUid
    · rw [if_pos hu.symm, if_pos hu, hasks]
    · rw [if_neg (Ne.symm hu), if_neg hu]
      rfl

/-- **What a client does** about a subscription, unless it opens it or is told of a token. -/
theorem Client.onEv_sits (h : c.Client) (o : Told) (hid : c.turns e ≠ some (.own id))
    (hm : ∀ v kind key, e = .msg v (.tokenEvt id kind key) → v ∈ c.sessions → id ∉ c.lTsubs) :
    Sits id c (c.onEv o e) ∨ ∃ c₁ k hello dialer boot sno, Sits id c c₁ ∧ c₁.router = false ∧
      c₁.nextUid = c.nextUid ∧ e.brings = some (k, hello) ∧
      c.onEv o e = c₁.install o k hello dialer boot sno := by
  have hbrings : ∀ {k hello}, e.brings = some (k, hello) → Sits id c (c.onEv o e) ∨
      ∃ c₁ k hello dialer boot sno, Sits id c c₁ ∧ c₁.router = false ∧ c₁.nextUid = c.nextUid ∧
        e.brings = some (k, hello) ∧ c.onEv o e = c₁.install o k hello dialer boot sno := by
    intro k hello he
    obtain ⟨c₁, ⟨hclient, huid⟩, hsits, hev⟩ := arrives
      (P := fun c₁ => c₁.Client ∧ c₁.nextUid = c.nextUid) (R := Sits id) Sits.trans
      (fun h hp => ⟨⟨hp.aside.quiet.client h.1, hp.nextUid.trans h.2⟩, hp.still.sits id⟩)
      (fun h => ⟨⟨(h.1.close_quiet _ _ _).client h.1, (close_works _ _ _ _).1.nextUid.trans h.2⟩,
        h.1.close_sits _ _ _ id⟩) ⟨h, rfl⟩ o he
    rcases hev with hev | ⟨dialer, boot, sno, hev⟩
    · exact .inl (hev ▸ hsits)
    · exact .inr ⟨c₁, k, hello, dialer, boot, sno, hsits, hclient.router, huid, he, hev⟩
  cases e with
  | cmd cmd => exact .inl (h.onCmd_sits o hid)
  | msg u m => exact .inl (h.onMsg_sits o u fun kind key he => hm u kind key (by rw [he]))
  | closed u reason => exact .inl (h.close_sits o u reason id)
  | paused => exact .inl (h.fence_sits o id)
  | tick gap => exact .inl (h.onTick_sits o gap id)
  | accepted k hello => exact hbrings rfl
  | dialed target sno res =>
    cases res with
    | none =>
      refine .inl (Still.sits ?_ id)
      show Still c (c.onDialed o target sno none)
      rw [onDialed]
      cases c.dials.lookup target with
      | none => exact .refl c
      | some d => exact .aside rfl rfl rfl rfl le_rfl rfl
    | some x => exact hbrings rfl

/-- A subscription that there is not is not heard of. -/
theorem Client.onEv_fresh (h : c.Client) (o : Told) (hid : c.turns e ≠ some (.own id))
    (hnone : id ∉ c.lTsubs) : id ∉ (c.onEv o e).lTsubs ∧
      ∃ l, (c.onEv o e).fx = c.fx ++ l ∧ news (.own id) l = [] ∧ Unasked id l := by
  rcases h.onEv_sits o hid fun _ _ _ _ _ => hnone with hsits | hinstall
  · obtain ⟨l, hl, hfresh, -⟩ := hsits.log
    obtain ⟨hnone', hnews, hun⟩ := hfresh hnone
    exact ⟨hnone', l, hl, hnews, hun⟩
  · obtain ⟨c₁, k, hello, dialer, boot, sno, hsits, hr, -, -, hev⟩ := hinstall
    obtain ⟨l, hl, hfresh, -⟩ := hsits.log
    obtain ⟨hnone', hnews, hun⟩ := hfresh hnone
    obtain ⟨l', hl', ht, -, hnews', hasks⟩ := install_asks hr o k hello dialer boot sno id
    rw [hev, ht]
    refine ⟨hnone', l ++ l', by rw [hl', hl, List.append_assoc], ?_, hun.append fun u => ?_⟩
    · rw [news_append, hnews, hnews', List.append_nil]
    · rw [hasks, AList.lookup_eq_none.2 hnone']
      exact ite_self _

/-- What becomes of a subscription of a client, and of its sessions. -/
inductive Fate (id : Nat) (c : Core) (e : Ev) (c' : Core) (l : List Fx) (t t' : LTokenSub) : Prop
  | stays (hs : ∀ u, u ∈ c'.sessions ↔ u ∈ c.sessions) (hun : Unasked id l)
      (hheard : ∀ u m, e = .msg u m → u ∈ c.sessions →
        Change.replay t.seen.toFinset (changes id [m]) = t'.seen.toFinset)
      (hsame : (∀ u m, e = .msg u m → u ∉ c.sessions) → t'.seen = t.seen)
  | lost (hs : ∀ u, u ∉ c'.sessions) (hseen : t'.seen = [])
  | comes {k : Nat} {hello : Hello} (he : e.brings = some (k, hello))
      (hs : ∀ u ∈ c'.sessions, u = c.nextUid) (hseen : t'.seen = [])
      (hasks : (pushed c.nextUid l).filter (Msg.orders id) = [.tokenSub id t'.expr true])

/-- The subscription was there before, and this is what becomes of it. -/
def Fated (id : Nat) (c : Core) (e : Ev) (c' : Core) (t' : LTokenSub) : Prop :=
  ∃ t l, c.lTsubs.lookup id = some t ∧ t'.expr = t.expr ∧ c'.fx = c.fx ++ l ∧
    Change.replay t.seen.toFinset (news (.own id) l) = t'.seen.toFinset ∧ Fate id c e c' l t t'

/-- It is told of a token. -/
theorem Client.tokenEvt_fated (h : c.Client) (o : Told) {v : Nat} (hv : v ∈ c.sessions)
    (kind : TokenEvtKind) (key : String) (hmem : id ∈ c.lTsubs) {t' : LTokenSub}
    (ht' : (c.onEv o (.msg v (.tokenEvt id kind key))).lTsubs.lookup id = some t') :
    Fated id c (.msg v (.tokenEvt id kind key)) (c.onEv o (.msg v (.tokenEvt id kind key))) t' := by
  obtain ⟨t, ht⟩ := Map.mem_iff_lookup.1 hmem
  obtain ⟨s, hs⟩ := Map.mem_iff_lookup.1 hv
  obtain ⟨l, t₁, hl, hsess, ht₁, hexpr, hun, hnews, hheard⟩ := h.onTokenEvt_spec ht kind key
  have hev : c.onEv o (.msg v (.tokenEvt id kind key)) = c.onTokenEvt id kind key := by
    simp only [onEv, onMsg, hs]
  rw [hev] at ht' ⊢
  obtain rfl := Option.some.inj (ht₁.symm.trans ht')
  refine ⟨t, l, ht, hexpr, hl, hnews, .stays (fun u => by rw [hsess]) hun (fun u m he _ => ?_)
    fun hno => absurd hv (hno v _ rfl)⟩
  obtain ⟨-, rfl⟩ := Ev.msg.inj he
  have hchanges : changes id [Msg.tokenEvt id kind key] = (kind.change key).toList := by
    cases kind <;> simp [changes, Msg.change, TokenEvtKind.change]
  rw [hchanges, hheard]

/-- No session comes. -/
theorem Sits.fated (h : Sits id c c') (hone : ∀ u ∈ c.sessions, ∀ v ∈ c.sessions, u = v)
    (hm : ∀ v kind key, e = .msg v (.tokenEvt id kind key) → v ∈ c.sessions → id ∉ c.lTsubs)
    {t' : LTokenSub} (ht' : c'.lTsubs.lookup id = some t') : Fated id c e c' t' := by
  obtain ⟨l, hl, -, hsome⟩ := h.log
  obtain ⟨t, ht, hexpr, hun, hnews, hor⟩ := hsome t' ht'
  refine ⟨t, l, ht, hexpr, hl, hnews, ?_⟩
  rcases hor with ⟨hseen, hkept⟩ | ⟨hseen, u, hu, hlost⟩
  · refine .stays (fun u => ⟨h.sessions u, hkept u⟩) hun (fun u m he hu => ?_) fun _ => hseen
    have hchanges : changes id [m] = [] := by
      rw [changes, List.filterMap_eq_nil_iff, List.forall_mem_singleton]
      cases m with
      | tokenEvt i kind key =>
        have hi : i ≠ id := fun hi =>
          hm u kind key (hi ▸ he) hu (Map.mem_iff_lookup.2 ⟨t, ht⟩)
        exact if_neg hi
      | _ => rfl
    rw [hchanges, Change.replay_nil, hseen]
  · exact .lost (fun v hv => hlost (hone v (h.sessions v hv) u hu ▸ hv)) hseen

/-- A session comes, when the old one is gone. -/
theorem Client.install_fated (h : c.Client) {c₁ : Core} (hsits : Sits id c c₁)
    (hr : c₁.router = false) (huid : c₁.nextUid = c.nextUid) (o : Told) {k : Nat} {hello : Hello}
    (dialer : String) (boot sno : Nat) (he : e.brings = some (k, hello))
    (hone : ∀ u ∈ (c₁.install o k hello dialer boot sno).sessions,
      ∀ v ∈ (c₁.install o k hello dialer boot sno).sessions, u = v)
    (hidle : ∀ t, c.lTsubs.lookup id = some t → (∀ u, u ∉ c.sessions) → t.seen = [])
    {t' : LTokenSub} (ht' : (c₁.install o k hello dialer boot sno).lTsubs.lookup id = some t') :
    Fated id c e (c₁.install o k hello dialer boot sno) t' := by
  obtain ⟨l, hl, -, hsome⟩ := hsits.log
  obtain ⟨l', hl', hlt, hsess, hnews', hasks⟩ := install_asks hr o k hello dialer boot sno id
  rw [hlt] at ht'
  obtain ⟨t, ht, hexpr, hun, hnews, hor⟩ := hsome t' ht'
  have hmem : ∀ u, u ∈ (c₁.install o k hello dialer boot sno).sessions ↔
      u = c.nextUid ∨ u ∈ c₁.sessions := by
    intro u
    rw [hsess, ← huid]
    exact AList.mem_insert _
  have halone : ∀ u, u ∉ c₁.sessions := by
    intro u hu
    have heq := hone u ((hmem u).2 (.inr hu)) c.nextUid ((hmem _).2 (.inl rfl))
    exact (h.uids u (hsits.sessions u hu)).ne heq
  have hseen : t'.seen = [] := by
    rcases hor with ⟨hseen, hkept⟩ | ⟨hseen, -⟩
    · exact hseen.trans (hidle t ht fun u hu => halone u (hkept u hu))
    · exact hseen
  refine ⟨t, l ++ l', ht, hexpr, by rw [hl', hl, List.append_assoc], ?_,
    .comes he (fun u hu => ((hmem u).1 hu).resolve_right (halone u)) hseen ?_⟩
  · rw [news_append, hnews', List.append_nil, hnews]
  · rw [pushed_append, List.filter_append, hun, ← huid, hasks, if_pos rfl, ht']
    rfl

/-- **What becomes of a subscription of a client** that has one session at most. -/
theorem Client.onEv_fate (h : c.Client) (o : Told) (hid : c.turns e ≠ some (.own id))
    (hone : ∀ u ∈ c.sessions, ∀ v ∈ c.sessions, u = v)
    (hone' : ∀ u ∈ (c.onEv o e).sessions, ∀ v ∈ (c.onEv o e).sessions, u = v)
    (hidle : ∀ t, c.lTsubs.lookup id = some t → (∀ u, u ∉ c.sessions) → t.seen = [])
    {t' : LTokenSub} (ht' : (c.onEv o e).lTsubs.lookup id = some t') :
    Fated id c e (c.onEv o e) t' := by
  by_cases hevt : (∃ v kind key, e = .msg v (.tokenEvt id kind key) ∧ v ∈ c.sessions) ∧
      id ∈ c.lTsubs
  · obtain ⟨⟨v, kind, key, rfl, hv⟩, hmem⟩ := hevt
    exact h.tokenEvt_fated o hv kind key hmem ht'
  · have hm : ∀ v kind key, e = .msg v (.tokenEvt id kind key) → v ∈ c.sessions →
        id ∉ c.lTsubs := fun v kind key he hv hmem => hevt ⟨⟨v, kind, key, he, hv⟩, hmem⟩
    rcases h.onEv_sits o hid hm with hsits | hinstall
    · exact hsits.fated hone hm ht'
    · obtain ⟨c₁, k, hello, dialer, boot, sno, hsits, hr, huid, he, hev⟩ := hinstall
      rw [hev] at ht' hone' ⊢
      exact h.install_fated hsits hr huid o dialer boot sno he hone' hidle ht'

end OxlensSfu.Mesh.Core
