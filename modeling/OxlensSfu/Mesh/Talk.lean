import OxlensSfu.Mesh.Declare

/-!
# What an event does to the sessions

An event takes sessions in and lets them go (`Seats`), and the sessions that stay are told of what
has changed (`Feeds`). What they should have then is a relation between the core and declarations:
for a router it is what it passes on, for a client what its own process has declared.
-/

namespace OxlensSfu.Mesh

def Decls.empty : Decls := fun _ => none

/-- The connection an event brings, and what its other end has said first. -/
def Ev.brings : Ev → Option (Nat × Hello)
  | .accepted k h => some (k, h)
  | .dialed _ _ res => res
  | _ => none

/-- What a session has declared after the event. -/
def Ev.tells (e : Ev) (u : Nat) (D : Decls) : Decls :=
  match e with
  | .msg v m => if v = u then D.apply m else D
  | _ => D

/-- A session is told of a new declaration. -/
def Fx.adds : Fx → Bool
  | .push _ (.declare _ _ _) _ => true
  | _ => false

namespace Core

/-- The sessions that stay, and the one that comes. -/
structure Seats (c : Core) (e : Ev) (c' : Core) : Prop where
  node : c'.node = c.node
  router : c'.router = c.router
  running : e ≠ .cmd .close → c'.running = c.running
  stay : ∀ u s', c'.sessions.lookup u = some s' → u ∈ c.sessions →
    ∃ s, c.sessions.lookup u = some s ∧ (s'.peer = s.peer ∧ s'.role = s.role) ∧
      s'.stream = s.stream ∧ s'.has = if c.router then e.tells u s.has else s.has
  come : ∀ u s', c'.sessions.lookup u = some s' → u ∉ c.sessions → u = c.nextUid ∧
    ∃ k h, e.brings = some (k, h) ∧ s'.stream = k ∧ (s'.peer = h.node ∧ s'.role = h.role) ∧
      s'.decls = ∅

/-- The routers are told of what changes, so that what they have stays what it should be. -/
def Feeds (A : Core → Decls → Prop) (c c' : Core) : Prop :=
  ∃ l, c'.fx = c.fx ++ l ∧
    (∀ u s D, c.sessions.lookup u = some s → s.role = .router → A c D →
      D.Clean (pushed u l) ∧ (u ∈ c'.sessions → A c' (D.after (pushed u l)))) ∧
    ∀ u s', u ∉ c.sessions → c'.sessions.lookup u = some s' → s'.role = .router →
      Decls.empty.Clean (pushed u l) ∧ A c' (Decls.empty.after (pushed u l))

/-- The same when no session comes. -/
def Tells (A : Core → Decls → Prop) (c c' : Core) : Prop :=
  ∃ l, c'.fx = c.fx ++ l ∧
    (∀ u s D, c.sessions.lookup u = some s → s.role = .router → A c D →
      D.Clean (pushed u l) ∧ (u ∈ c'.sessions → A c' (D.after (pushed u l)))) ∧
    ∀ u, u ∉ c.sessions → ∀ m ∈ pushed u l, m.declares = false

/-- A router that is told of everything has what is passed on. -/
def Relayed (c : Core) (D : Decls) : Prop := D = c.passed

variable {c c' c₁ : Core} {o : Told} {u : Nat} {s : Sess} {e : Ev} {A : Core → Decls → Prop}

theorem Kept.seats (h : Kept c c') (he : c.router = true → ∀ u D, e.tells u D = D) :
    Seats c e c' where
  node := h.node
  router := h.router
  running _ := h.running
  stay u s' hs' _ := by
    obtain ⟨s, hs, hlike⟩ := h.sessions u s' hs'
    refine ⟨s, hs, ⟨hlike.peer, hlike.role⟩, hlike.stream, ?_⟩
    split_ifs with hr
    · rw [he hr, hlike.has]
    · exact hlike.has
  come u s' hs' hu := absurd (h.mem (Map.mem_iff_lookup.2 ⟨s', hs'⟩)) hu

/-- A session says something, and a router listens. -/
theorem Kept.seats_heard (hs : c.sessions.lookup u = some s) (hr : c.router = true) {m : Msg}
    (h : Kept (c.heard u s m) c') : Seats c (.msg u m) c' where
  node := h.node
  router := h.router
  running _ := h.running
  stay v s' hs' _ := by
    obtain ⟨t, ht, hlike⟩ := h.sessions v s' hs'
    have ht : (c.sessions.insert u (s.hear m)).lookup v = some t := ht
    rw [Map.lookup_insert_if] at ht
    by_cases hv : v = u
    · rw [if_pos hv] at ht
      obtain rfl := Option.some.inj ht
      refine ⟨s, hv ▸ hs, ⟨hlike.peer.trans (s.peer_hear m), hlike.role.trans (s.role_hear m)⟩,
        hlike.stream.trans (s.stream_hear m), ?_⟩
      rw [if_pos hr, Ev.tells, if_pos hv.symm, hlike.has, s.has_hear]
    · rw [if_neg hv] at ht
      refine ⟨t, ht, ⟨hlike.peer, hlike.role⟩, hlike.stream, ?_⟩
      rw [if_pos hr, Ev.tells, if_neg (Ne.symm hv), hlike.has]
  come v s' hs' hv := by
    have hmem := h.mem (Map.mem_iff_lookup.2 ⟨s', hs'⟩)
    exact absurd ((mem_insert_session hs (s.hear m) v).1 hmem) hv

/-! ## A session comes -/

theorem install_sessions (c : Core) (o : Told) (k : Nat) (h : Hello) (dialer : String)
    (boot sno : Nat) : (c.install o k h dialer boot sno).node = c.node ∧
      (c.install o k h dialer boot sno).router = c.router ∧
      (c.install o k h dialer boot sno).running = c.running ∧
      (c.install o k h dialer boot sno).sessions = (c.enter k h dialer boot sno).sessions := by
  rw [install_eq]
  obtain ⟨l, hl⟩ := (c.enter k h dialer boot sno).greet_eq o c.nextUid h.role
  rw [hl]
  exact ⟨rfl, rfl, rfl, rfl⟩

theorem Kept.seats_install (h : Kept c c₁) (huids : ∀ v ∈ c.sessions, v < c.nextUid) (o : Told)
    {k : Nat} {hello : Hello} (he : e.brings = some (k, hello)) (dialer : String)
    (boot sno : Nat) : Seats c e (c₁.install o k hello dialer boot sno) := by
  obtain ⟨hname, hrouter, hrun, hsess⟩ := c₁.install_sessions o k hello dialer boot sno
  have htells : ∀ u D, e.tells u D = D := by
    cases e with
    | accepted | dialed => exact fun _ _ => rfl
    | _ => exact absurd he nofun
  have hlook : ∀ v, (c₁.install o k hello dialer boot sno).sessions.lookup v =
      if v = c.nextUid then some
        { peer := hello.node, role := hello.role, dialer, boot, sno, adv := hello.adv
          stream := k, peers := hello.peers } else c₁.sessions.lookup v := by
    intro v
    rw [hsess, ← h.nextUid]
    exact Map.lookup_insert_if _ _ _ _
  have hseats := h.seats fun _ => htells
  refine ⟨hname.trans h.node, hrouter.trans h.router, fun _ => hrun.trans h.running,
    fun v s' hs' hv => ?_, fun v s' hs' hv => ?_⟩
  · rw [hlook, if_neg (huids v hv).ne] at hs'
    exact hseats.stay v s' hs' hv
  · rw [hlook] at hs'
    split_ifs at hs' with hn
    · obtain rfl := Option.some.inj hs'
      exact ⟨hn, k, hello, he, rfl, ⟨rfl, rfl⟩, rfl⟩
    · exact hseats.come v s' hs' hv

/-- What a node does about a connection apart from its sessions: it answers on it, and keeps what it
knows of the address. -/
def Prepares (c c' : Core) : Prop :=
  ∃ d l, c' = { c with dials := d, fx := c.fx ++ l } ∧ ∀ x ∈ l, ∃ k m, x = .direct k m

theorem Prepares.refl (c : Core) : Prepares c c :=
  ⟨c.dials, [], by rw [List.append_nil], nofun⟩

theorem Prepares.send (c : Core) (k : Nat) (m : Msg) : Prepares c (c.emit (.direct k m)) :=
  ⟨c.dials, [.direct k m], rfl, List.forall_mem_singleton.2 ⟨k, m, rfl⟩⟩

theorem Prepares.dials (c : Core) (d : Map String Dial) : Prepares c { c with dials := d } :=
  ⟨d, [], by rw [List.append_nil], nofun⟩

theorem Prepares.aside (h : Prepares c c') : Aside c c' := by
  obtain ⟨d, l, rfl, hl⟩ := h
  refine .trans (.own c le_rfl _ _ d _) (emits_moves _ fun x hx => ?_).aside
  obtain ⟨k, m, rfl⟩ := hl x hx
  exact ⟨rfl, rfl⟩

/-- What an event does before it takes the connection it brings, if it does: it closes a session and
works on what it keeps aside. -/
theorem arrives {P : Core → Prop} {R : Core → Core → Prop}
    (htrans : ∀ {a b d}, R a b → R b d → R a d)
    (hprep : ∀ {a b}, P a → Prepares a b → P b ∧ R a b)
    (hclose : ∀ {a : Core} {o u reason}, P a → P (a.close o u reason) ∧ R a (a.close o u reason))
    (hc : P c) (o : Told) {k : Nat} {hello : Hello} (he : e.brings = some (k, hello)) :
    ∃ c₁, P c₁ ∧ R c c₁ ∧ (c.onEv o e = c₁ ∨
      ∃ dialer boot sno, c.onEv o e = c₁.install o k hello dialer boot sno) := by
  cases e with
  | accepted k hello =>
    cases he
    simp only [onEv]
    rw [onAccepted]
    split
    · obtain ⟨hp, hr⟩ := hprep hc (.refl c)
      exact ⟨c, hp, hr, .inl rfl⟩
    · obtain ⟨hp, hr⟩ := hprep hc (.send c k (.hello (c.myHello hello.sno)))
      generalize c.emit (.direct k (.hello (c.myHello hello.sno))) = c' at hp hr ⊢
      simp only
      cases c'.acceptVerdict hello with
      | some r =>
        obtain ⟨hp', hr'⟩ := hprep hp (.send c' k (.close r))
        exact ⟨_, hp', htrans hr hr', .inl rfl⟩
      | none =>
        simp only
        cases c'.byPeer.lookup hello.node with
        | none => exact ⟨c', hp, hr, .inr ⟨_, _, _, rfl⟩⟩
        | some u =>
          obtain ⟨hp', hr'⟩ := hclose (o := o) (u := u) hp
          exact ⟨_, hp', htrans hr hr', .inr ⟨_, _, _, rfl⟩⟩
  | dialed target sno res =>
    obtain rfl : res = some (k, hello) := he
    simp only [onEv]
    rw [onDialed]
    cases c.dials.lookup target with
    | none =>
      obtain ⟨hp, hr⟩ := hprep hc (.refl c)
      exact ⟨c, hp, hr, .inl rfl⟩
    | some d =>
      obtain ⟨hp, hr⟩ := hprep hc (.dials c (c.dials.insert target { d with
        busy := false, backoff := backoffMin, next := o.now + backoffMin
        node := some hello.node }))
      simp only
      generalize ({ c with dials := _ } : Core) = c' at hp hr ⊢
      split
      · obtain ⟨hp', hr'⟩ := hprep hp (.send c' k (.close .protocol))
        exact ⟨_, hp', htrans hr hr', .inl rfl⟩
      · cases c.byPeer.lookup hello.node with
        | none => exact ⟨c', hp, hr, .inr ⟨_, _, _, rfl⟩⟩
        | some u =>
          simp only
          split
          · obtain ⟨hp', hr'⟩ := hprep hp (.send c' k (.close .duplicate))
            exact ⟨_, hp', htrans hr hr', .inl rfl⟩
          · obtain ⟨hp', hr'⟩ := hclose (o := o) (u := u) hp
            exact ⟨_, hp', htrans hr hr', .inr ⟨_, _, _, rfl⟩⟩
  | _ => cases he

/-! ## The greeting -/

theorem pushed_to (u v : Nat) {ms : List Msg} (hms : ∀ m ∈ ms, m.lane = .declare) :
    pushed u (ms.map (.push v · true)) = if v = u then ms else [] := by
  induction ms with
  | nil => rw [List.map_nil, ite_self]; rfl
  | cons m ms ih =>
    have ih := ih fun m' hm' => hms m' (List.mem_cons_of_mem m hm')
    have hm := hms m List.mem_cons_self
    rw [pushed, List.map_cons, List.filterMap_cons]
    rw [pushed] at ih
    by_cases hv : v = u
    · simp only [hv, hm, and_self, if_true] at ih ⊢
      rw [ih]
    · simp only [hv, false_and, if_false] at ih ⊢
      exact ih

/-- The declarations of a router in an order of their own. -/
theorem outMsgs_tell (c : Core) : Decls.empty.Clean c.outMsgs ∧
    Decls.empty.after c.outMsgs = c.passed := by
  let L := (c.out.entries.insertionSort fun a b => a.1 ≤ b.1).map fun x =>
    ((x.2.1, x.1), x.2.2)
  have hL : c.outMsgs = L.map fun x => .declare x.1.1 x.1.2 x.2 := by
    rw [outMsgs, List.map_map]
    rfl
  have hperm := List.perm_insertionSort (fun a b : (_ : Nat) × DeclKind × String => a.1 ≤ b.1)
    c.out.entries
  have hnodup : (L.map Prod.fst).Nodup := by
    rw [List.map_map]
    refine List.Nodup.of_map Prod.snd ?_
    rw [List.map_map]
    exact (hperm.map _).nodup_iff.2 c.out.nodupKeys
  obtain ⟨hclean, hafter⟩ := Decls.empty.after_declares hnodup fun _ _ => rfl
  rw [hL]
  refine ⟨hclean, funext fun d => Option.ext fun e => ?_⟩
  rw [hafter, passed_eq_some, ← Map.mem_entries]
  show (d, e) ∈ L ∨ none = some e ↔ _
  rw [or_iff_left nofun, List.mem_map]
  constructor
  · intro h
    obtain ⟨x, hx, he⟩ := h
    cases he
    exact hperm.mem_iff.1 hx
  · exact fun h => ⟨_, hperm.mem_iff.2 h, rfl⟩

/-- The declarations of a client, kind by kind. -/
theorem localMsgs_tell (c : Core) (o : Told) : Decls.empty.Clean (c.localMsgs o) ∧
    Decls.empty.after (c.localMsgs o) = c.mine := by
  let kind (k : DeclKind) (m : Map Nat String) : List ((DeclKind × Nat) × String) :=
    (o.locals.run m.entries).map fun x => ((k, x.1), x.2)
  let L := kind .token c.lTokens ++ kind .sub c.lSubs ++ kind .qabl c.lQabls
  have hL : c.localMsgs o = L.map fun x => .declare x.1.1 x.1.2 x.2 := by
    simp only [localMsgs, L, kind, List.map_append, List.map_map]
    rfl
  have hmem : ∀ k m d e, (d, e) ∈ kind k m ↔ d.1 = k ∧ m.lookup d.2 = some e := by
    intro k m d e
    rw [← Map.mem_entries, List.mem_map]
    constructor
    · intro h
      obtain ⟨x, hx, he⟩ := h
      cases he
      exact ⟨rfl, o.locals.mem_run.1 hx⟩
    · intro h
      obtain ⟨hk, hx⟩ := h
      exact ⟨_, o.locals.mem_run.2 hx, by rw [← hk]⟩
  have hkind : ∀ k m, ((kind k m).map Prod.fst).Nodup := by
    intro k m
    refine List.Nodup.of_map Prod.snd ?_
    rw [List.map_map, List.map_map]
    exact ((o.locals.perm m.entries).map _).nodup_iff.2 m.nodupKeys
  have hkey : ∀ k m d, d ∈ (kind k m).map Prod.fst → d.1 = k := by
    intro k m d hd
    obtain ⟨⟨d', e⟩, hx, rfl⟩ := List.mem_map.1 hd
    exact ((hmem k m d' e).1 hx).1
  have hnodup : (L.map Prod.fst).Nodup := by
    simp only [L, List.map_append]
    refine List.Nodup.append (List.Nodup.append (hkind _ _) (hkind _ _) ?_) (hkind _ _) ?_
    · exact fun d hd hd' => absurd ((hkey _ _ d hd).symm.trans (hkey _ _ d hd')) nofun
    · intro d hd hd'
      have hq := hkey _ _ d hd'
      rcases List.mem_append.1 hd with hd | hd
      · exact absurd ((hkey _ _ d hd).symm.trans hq) nofun
      · exact absurd ((hkey _ _ d hd).symm.trans hq) nofun
  obtain ⟨hclean, hafter⟩ := Decls.empty.after_declares hnodup fun _ _ => rfl
  rw [hL]
  refine ⟨hclean, funext fun d => Option.ext fun e => ?_⟩
  rw [hafter]
  show (d, e) ∈ L ∨ none = some e ↔ c.own d.1 d.2 = some e
  rw [or_iff_left nofun, List.mem_append, List.mem_append, hmem, hmem, hmem]
  obtain ⟨k, id⟩ := d
  cases k <;> simp [own]

theorem greeting_lane (c : Core) (o : Told) (role : Role) :
    ∀ m ∈ c.greeting o role, m.lane = .declare := by
  intro m hm
  rw [greeting] at hm
  split_ifs at hm
  · rcases List.mem_append.1 hm with hm | hm
    · obtain ⟨x, -, rfl⟩ := List.mem_map.1 hm
      rfl
    · rw [List.mem_singleton.1 hm]
      rfl
  · exact absurd hm List.not_mem_nil
  · simp only [localMsgs, List.mem_append, List.mem_map, List.mem_singleton] at hm
    rcases hm with (((⟨x, -, rfl⟩ | ⟨x, -, rfl⟩) | ⟨x, -, rfl⟩) | ⟨x, -, rfl⟩) | rfl <;> rfl

/-- What is sent when a session comes: the greeting, and to the others nothing about
declarations. -/
theorem install_tells (c : Core) (o : Told) (k : Nat) (h : Hello) (dialer : String)
    (boot sno : Nat) : ∃ l, (c.install o k h dialer boot sno).fx = c.fx ++ l ∧
      (∀ u, u ≠ c.nextUid → ∀ m ∈ pushed u l, m.declares = false) ∧
      ∃ ms, (∀ m ∈ ms, m.declares = false) ∧
        pushed c.nextUid l = c.greeting o h.role ++ ms := by
  let c₁ := c.enter k h dialer boot sno
  let c₂ := c₁.emits ((c.greeting o h.role).map (.push c.nextUid · true))
  let rest : List Fx := if c.router ∧ h.role = .router then
    (c₂.having .router).map fun x => .push x.1 (.peers c₂.peerList) true else []
  have hrest : ∀ x ∈ rest, x.declares = false := by
    simp only [rest]
    split_ifs
    · exact List.forall_mem_map.2 fun _ _ => rfl
    · exact fun x hx => absurd hx List.not_mem_nil
  have hlane := c.greeting_lane o h.role
  refine ⟨(c.greeting o h.role).map (.push c.nextUid · true) ++ rest, ?_, ?_, ?_⟩
  · rw [install_eq, greet]
    show (if c.router = true ∧ h.role = .router then c₂.broadcastPeers else c₂).fx = _
    simp only [rest]
    split_ifs
    · exact List.append_assoc _ _ _
    · exact congrArg (c.fx ++ ·) (List.append_nil _).symm
  · intro u hu m hm
    rw [pushed_append, pushed_to u c.nextUid hlane, if_neg (Ne.symm hu)] at hm
    exact pushed_hush hrest m hm
  · refine ⟨pushed c.nextUid rest, pushed_hush hrest, ?_⟩
    rw [pushed_append, pushed_to c.nextUid c.nextUid hlane, if_pos rfl]

theorem Tells.feeds (h : Tells A c c') (hmem : ∀ u ∈ c'.sessions, u ∈ c.sessions) :
    Feeds A c c' := by
  obtain ⟨l, hl, htells, -⟩ := h
  refine ⟨l, hl, htells, fun u s' hu hs' _ => ?_⟩
  exact absurd (hmem u (Map.mem_iff_lookup.2 ⟨s', hs'⟩)) hu

theorem Tells.install (h : Tells A c c₁) (hk : Kept c c₁) (huids : ∀ v ∈ c.sessions, v < c.nextUid)
    (o : Told) (k : Nat) (hello : Hello) (dialer : String) (boot sno : Nat)
    (hgreet : hello.role = .router → Decls.empty.Clean (c₁.greeting o hello.role) ∧
      A c₁ (Decls.empty.after (c₁.greeting o hello.role)))
    (hA : ∀ D, A c₁ D → A (c₁.install o k hello dialer boot sno) D) :
    Feeds A c (c₁.install o k hello dialer boot sno) := by
  obtain ⟨l, hl, htells, hrest⟩ := h
  obtain ⟨l', hl', hothers, ms, hms, hnew⟩ := c₁.install_tells o k hello dialer boot sno
  have hseats := hk.seats_install (e := .accepted k hello) huids o rfl dialer boot sno
  refine ⟨l ++ l', by rw [hl', hl, List.append_assoc], fun u s D hs hr hD => ?_,
    fun u s' hu hs' hr => ?_⟩
  · have hmem := Map.mem_iff_lookup.2 ⟨s, hs⟩
    have hne : u ≠ c₁.nextUid := hk.nextUid ▸ (huids u hmem).ne
    obtain ⟨hclean, hafter⟩ := htells u s D hs hr hD
    obtain ⟨hafter', hclean'⟩ := (D.after (pushed u l)).after_of_hush (hothers u hne)
    rw [pushed_append, Decls.clean_append, Decls.after_append, hafter']
    refine ⟨⟨hclean, hclean'⟩, fun hu => hA _ (hafter ?_)⟩
    rw [(c₁.install_sessions o k hello dialer boot sno).2.2.2] at hu
    exact ((AList.mem_insert _).1 hu).resolve_left hne
  · obtain ⟨rfl, k', h', hb, -, ⟨-, hrole⟩, -⟩ := hseats.come u s' hs' hu
    cases hb
    obtain ⟨hclean, hafter⟩ := hgreet (hrole.symm.trans hr)
    obtain ⟨hbefore, hclean₀⟩ := Decls.empty.after_of_hush (hrest _ hu)
    rw [← hk.nextUid] at hclean₀ hbefore ⊢
    rw [pushed_append, Decls.clean_append, Decls.after_append, hbefore, hnew,
      Decls.clean_append, Decls.after_append]
    obtain ⟨hlast, hclean'⟩ := (Decls.empty.after (c₁.greeting o hello.role)).after_of_hush hms
    rw [hlast]
    exact ⟨⟨hclean₀, hclean, hclean'⟩, hA _ hafter⟩

/-! ## Routers -/

theorem Relays.told (h : Relays c c') : Tells Relayed c c' := by
  obtain ⟨l, hl, htells, hrest⟩ := h.tells
  refine ⟨l, hl, fun u s D hs hr hD => ?_, hrest⟩
  obtain rfl : D = c.passed := hD
  exact htells u s hs hr

/-- What has been heard is not passed on. -/
theorem Relays.told_heard {m : Msg} (hs : c.sessions.lookup u = some s)
    (h : Relays (c.heard u s m) c') : Tells Relayed c c' := by
  obtain ⟨l, hl, htells, hrest⟩ := h.told
  refine ⟨l, hl, fun v t D ht hr hD => ?_, fun v hv => hrest v ?_⟩
  · by_cases hv : v = u
    · subst hv
      obtain rfl := Option.some.inj (hs.symm.trans ht)
      exact htells v _ D (AList.lookup_insert _) ((s.role_hear m).trans hr) hD
    · exact htells v t D ((AList.lookup_insert_ne hv).trans ht) hr hD
  · exact fun hmem => hv ((mem_insert_session hs (s.hear m) v).1 hmem)

theorem install_relayed (c : Core) (o : Told) (k : Nat) (h : Hello) (dialer : String)
    (boot sno : Nat) (D : Decls) (hD : Relayed c D) :
    Relayed (c.install o k h dialer boot sno) D := by
  have hout : (c.install o k h dialer boot sno).out = c.out := by
    rw [install_eq]
    obtain ⟨l, hl⟩ := (c.enter k h dialer boot sno).greet_eq o c.nextUid h.role
    rw [hl]
    rfl
  exact hD.trans (passed_congr hout).symm

theorem greeting_relayed (hr : c.router = true) (o : Told) :
    Decls.empty.Clean (c.greeting o .router) ∧
      Relayed c (Decls.empty.after (c.greeting o .router)) := by
  obtain ⟨hclean, hafter⟩ := c.outMsgs_tell
  have hg : c.greeting o .router = c.outMsgs ++ [.declareDone] := by
    rw [greeting, if_pos hr, if_pos rfl]
  rw [hg, Decls.clean_append, Decls.after_append, hafter]
  exact ⟨⟨hclean, trivial, trivial⟩, rfl⟩

theorem Stands.brings_talks (h : c.Stands) (o : Told) {k : Nat} {hello : Hello}
    (he : e.brings = some (k, hello)) : Seats c e (c.onEv o e) ∧ Feeds Relayed c (c.onEv o e) := by
  obtain ⟨c₁, h₁, hr, hev⟩ := arrives (P := Stands) (R := Relays) Relays.trans
    (fun h ha => ⟨h.aside ha.aside, ha.aside.quiet.relays⟩)
    (fun h => ⟨h.close _ _ _, h.close_relays _ _ _⟩) h o he
  have htells : ∀ u D, e.tells u D = D := by
    cases e with
    | accepted | dialed => exact fun _ _ => rfl
    | _ => exact absurd he nofun
  rcases hev with hev | ⟨dialer, boot, sno, hev⟩
  · rw [hev]
    exact ⟨hr.seats fun _ => htells, hr.told.feeds fun _ => hr.mem⟩
  · rw [hev]
    refine ⟨hr.seats_install h.uids o he dialer boot sno, ?_⟩
    refine hr.told.install hr.toKept h.uids o k hello dialer boot sno (fun hrole => ?_) fun D hD => ?_
    · rw [hrole]
      exact greeting_relayed h₁.router o
    · exact c₁.install_relayed o k hello dialer boot sno D hD

/-- A message that is not a declaration. -/
theorem Stands.onMsg_relays (h : c.Stands) {m : Msg} (hm : m.declares = false) (o : Told) (u : Nat) :
    Relays c (c.onMsg o u m) := by
  by_cases hclose : ∃ r, m = .close r
  · obtain ⟨r, rfl⟩ := hclose
    rw [Core.onMsg]
    cases c.sessions.lookup u with
    | none => exact (Quiet.refl c).relays
    | some s => exact h.close_relays o u r
  · exact (onMsg_quiet hm (fun r hr => hclose ⟨r, hr⟩) c o u).relays

theorem Stands.onMsg_talks (h : c.Stands) {m : Msg} (hf : c.Fresh (.msg u m)) (o : Told) :
    Seats c (.msg u m) (c.onMsg o u m) ∧ Feeds Relayed c (c.onMsg o u m) := by
  by_cases hm : m.declares = false
  · have hr := h.onMsg_relays hm o u
    refine ⟨hr.seats fun _ v D => ?_, hr.told.feeds fun _ => hr.mem⟩
    show (if u = v then D.apply m else D) = D
    rw [(D.apply_of_hush hm).1, ite_self]
  · cases hs : c.sessions.lookup u with
    | none =>
      have hsame : c.onMsg o u m = c := by simp [Core.onMsg, hs]
      rw [hsame]
      refine ⟨⟨rfl, rfl, fun _ => rfl, fun v s' hs' _ => ⟨s', hs', ⟨rfl, rfl⟩, rfl, ?_⟩,
        fun v s' hs' hv => absurd (Map.mem_iff_lookup.2 ⟨s', hs'⟩) hv⟩,
        (Quiet.refl c).relays.told.feeds fun _ => id⟩
      have hv : u ≠ v := fun he => by
        rw [he, hs'] at hs
        exact absurd hs (by simp)
      rw [Ev.tells, if_neg hv, ite_self]
    | some s =>
      have hheard : Relays (c.heard u s m) (c.onMsg o u m) := by
        rw [Core.onMsg, hs]
        cases m with
        | declare k id e => exact h.remoteDeclare_relays (AList.lookup_eq_none.2 (hf s hs)) e
        | undeclare k id => exact h.remoteUndeclare_relays hs k id
        | _ => exact absurd rfl hm
      refine ⟨hheard.seats_heard hs h.router, (hheard.told_heard hs).feeds fun v hv => ?_⟩
      exact (mem_insert_session hs (s.hear m) v).1 (hheard.mem hv)

theorem Stands.onCmd_relays (h : c.Stands) (o : Told) {cmd : Cmd} (hc : cmd ≠ .close) :
    Relays c (c.onCmd o cmd) := by
  cases cmd with
  | declareToken key => exact h.declareLocal_relays o .token key
  | subscribe expr => exact h.declareLocal_relays o .sub expr
  | queryable expr => exact h.declareLocal_relays o .qabl expr
  | tokenSub expr history => exact (c.tokenSub_aside o expr history).quiet.relays
  | undeclare k id => exact h.undeclareLocal_relays o k id
  | tokenUnsub id => exact (c.tokenUnsub_aside o id).quiet.relays
  | put key payload => exact (c.routePut_aside o none key payload).quiet.relays
  | get expr payload timeoutMs tx => exact (c.routeGet_quiet o _ expr payload _).relays
  | localReply q qabl key ok payload =>
    simp only [Core.onCmd]
    split_ifs with ht
    · exact (forwardReply_aside ht _ _ _).quiet.relays
    · exact (Quiet.refl c).relays
  | localFinal q qabl => exact (c.targetDone_moves o q _).quiet.relays
  | close => exact absurd rfl hc

theorem Stands.onTick_relays (h : c.Stands) (o : Told) (gap : Nat) :
    Relays c (c.onTick o gap) := by
  rw [Core.onTick]
  split
  · exact (h.closeAll_relays o .fenced _).trans (Aside.own _ le_rfl _ _ _ _).quiet.relays
  · have hclosed := h.closeAll_relays o .expired ((o.uids.run c.sessions.keys).filter o.silent)
    exact hclosed.trans ((finishAll_aside _ o _).trans (dialWanted_aside _ o)).quiet.relays

/-! ## A node that ends -/

/-- No session is. -/
def Ebbs (l l' : List Fx) : Prop := ∃ d, l' = l ++ d ∧ ∀ x ∈ d, x.adds = false

theorem Ebbs.refl (l : List Fx) : Ebbs l l :=
  ⟨[], (List.append_nil l).symm, fun _ hx => absurd hx List.not_mem_nil⟩

theorem Ebbs.trans {l l' l'' : List Fx} (h : Ebbs l l') (h' : Ebbs l' l'') : Ebbs l l'' := by
  obtain ⟨d, rfl, hd⟩ := h
  obtain ⟨d', rfl, hd'⟩ := h'
  exact ⟨d ++ d', List.append_assoc .., List.forall_mem_append.2 ⟨hd, hd'⟩⟩

theorem Ebbs.hushed {l l' : List Fx} (h : Hushed l l') : Ebbs l l' := by
  obtain ⟨d, hd, hhush⟩ := h
  refine ⟨d, hd, fun x hx => ?_⟩
  have hx := hhush x hx
  cases x with
  | push v m queued =>
    cases m with
    | declare => exact absurd hx nofun
    | _ => rfl
  | _ => rfl

theorem retract_ebbs (c : Core) (u : Nat) (d : DeclKind × Nat) : Ebbs c.fx (c.retract u d).fx := by
  rw [retract]
  cases c.south.lookup (u, d) with
  | none => exact .refl _
  | some rid =>
    simp only [announce]
    split
    · exact ⟨_, rfl, List.forall_mem_map.2 fun _ _ => rfl⟩
    · exact .refl _

theorem closeDecls_ebbs (u : Nat) (ds : List ((_ : DeclKind × Nat) × String)) (x : Core × Bool) :
    Ebbs x.1.fx (ds.foldl (closeDecl u) x).1.fx := by
  induction ds generalizing x with
  | nil => exact .refl _
  | cons d ds ih =>
    have hunlist := Ebbs.hushed (x.1.unlist_quiet u d.1 d.2).hushed
    exact (hunlist.trans (retract_ebbs _ u d.1)).trans (ih (closeDecl u x d))

theorem close_ebbs (c : Core) (o : Told) (u : Nat) (reason : CloseReason) :
    Ebbs c.fx (c.close o u reason).fx := by
  cases hs : c.sessions.lookup u with
  | none =>
    have hsame : c.close o u reason = c := by simp [Core.close, hs]
    rw [hsame]
    exact .refl _
  | some s =>
    have hu : u ∉ (c.leave u s reason).sessions := by simp [Core.leave]
    have hwork := (c.leave u s reason).dropDecls_works o u s
    have hm := (dropQueries_moves (o := o) fun hmem => hu (hwork.sessions u hmem)).1
    have hdecls : Ebbs (c.leave u s reason).fx ((c.leave u s reason).dropDecls o u s).fx := by
      have hclosed := closeDecls_ebbs u ((o.decls u).run s.decls.entries) (c.leave u s reason, false)
      rw [dropDecls]
      simp only
      split
      · split
        · exact hclosed.trans (.hushed (batchEnd_moves _).hushed)
        · exact hclosed
      · exact hclosed.trans (.hushed (forgetSeen_aside _).hushed)
    rw [close_eq hs]
    exact (Ebbs.hushed (c.leave_quiet u s reason).hushed).trans
      (hdecls.trans ((Ebbs.hushed hm.hushed).trans (.hushed (tellLeft_moves _ s).hushed)))

theorem closeAll_ebbs (c : Core) (o : Told) (reason : CloseReason) (us : List Nat) :
    Ebbs c.fx (c.closeAll o reason us).fx := by
  induction us generalizing c with
  | nil => exact .refl _
  | cons u us ih => exact (c.close_ebbs o u reason).trans (ih _)

theorem shutdown_sessions (c : Core) (o : Told) (u : Nat) : u ∉ (c.shutdown o).sessions := by
  let c₀ : Core := { c with lTsubs := ∅, lSubs := ∅, lQabls := ∅, pending := ∅ }
  intro hmem
  have hall : Works c₀ (c₀.closeAll o .shutdown (o.uids.run c₀.sessions.keys)) :=
    c₀.closeAll_works o _ _
  refine c₀.closeAll_not_mem o .shutdown ?_ hmem
  exact o.uids.mem_run.2 (AList.mem_keys.1 (hall.sessions u hmem))

theorem clean_of_ebbs (D : Decls) {l : List Fx} (h : ∀ x ∈ l, x.adds = false) :
    D.Clean (pushed u l) := by
  have hms : ∀ m ∈ pushed u l, ∀ D : Decls, D.Takes m := by
    intro m hm D
    obtain ⟨x, hx, he⟩ := List.mem_filterMap.1 hm
    have hadds := h x hx
    cases x with
    | push v m' queued =>
      cases queued with
      | false => exact absurd he nofun
      | true =>
        simp only at he
        split_ifs at he
        obtain rfl := Option.some.inj he
        cases m' with
        | declare => exact absurd hadds nofun
        | _ => trivial
    | _ => exact absurd he nofun
  generalize pushed u l = ms at hms
  induction ms generalizing D with
  | nil => trivial
  | cons m ms ih =>
    exact ⟨hms m List.mem_cons_self D, ih _ fun m' hm' => hms m' (List.mem_cons_of_mem m hm')⟩

theorem closeAll_name (c : Core) (o : Told) (reason : CloseReason) (us : List Nat) :
    (c.closeAll o reason us).node = c.node ∧ (c.closeAll o reason us).router = c.router := by
  induction us generalizing c with
  | nil => exact ⟨rfl, rfl⟩
  | cons u us ih =>
    have hclose : (c.close o u reason).node = c.node ∧ (c.close o u reason).router = c.router := by
      cases hs : c.sessions.lookup u with
      | none => simp [Core.close, hs]
      | some s =>
        obtain ⟨tok, subs, out, south, ts, m, l, hc⟩ := close_frame hs o reason
        rw [hc]
        exact ⟨rfl, rfl⟩
    obtain ⟨hnode, hrouter⟩ := ih (c.close o u reason)
    exact ⟨hnode.trans hclose.1, hrouter.trans hclose.2⟩

theorem shutdown_talks (c : Core) (o : Told) (A : Core → Decls → Prop) :
    Seats c (.cmd .close) (c.shutdown o) ∧ Feeds A c (c.shutdown o) := by
  have hnone : ∀ u s', (c.shutdown o).sessions.lookup u ≠ some s' := fun u s' hs' =>
    c.shutdown_sessions o u (Map.mem_iff_lookup.2 ⟨s', hs'⟩)
  obtain ⟨hname, hrouter⟩ := closeAll_name
    { c with lTsubs := ∅, lSubs := ∅, lQabls := ∅, pending := ∅ } o .shutdown
    (o.uids.run c.sessions.keys)
  refine ⟨⟨hname, hrouter, fun he => absurd rfl he, fun u s' hs' => absurd hs' (hnone u s'),
    fun u s' hs' => absurd hs' (hnone u s')⟩, ?_⟩
  obtain ⟨l, hl, hadds⟩ := closeAll_ebbs
    { c with lTsubs := ∅, lSubs := ∅, lQabls := ∅, pending := ∅ } o .shutdown
    (o.uids.run c.sessions.keys)
  refine ⟨l, hl, fun u s D _ _ _ => ?_, fun u s' _ hs' => absurd hs' (hnone u s')⟩
  exact ⟨clean_of_ebbs D hadds, fun hu => absurd hu (c.shutdown_sessions o u)⟩

theorem Stands.onEv_talks (h : c.Stands) (hf : c.Fresh e) (o : Told) :
    Seats c e (c.onEv o e) ∧ Feeds Relayed c (c.onEv o e) := by
  have hrelays : ∀ {c'}, (∀ u D, e.tells u D = D) → Relays c c' →
      Seats c e c' ∧ Feeds Relayed c c' :=
    fun he hr => ⟨hr.seats fun _ => he, hr.told.feeds fun _ => hr.mem⟩
  cases e with
  | cmd cmd =>
    by_cases hc : cmd = .close
    · rw [hc]
      exact c.shutdown_talks o Relayed
    · exact hrelays (fun _ _ => rfl) (h.onCmd_relays o hc)
  | msg u m => exact h.onMsg_talks hf o
  | closed u reason => exact hrelays (fun _ _ => rfl) (h.close_relays o u reason)
  | paused =>
    refine hrelays (fun _ _ => rfl) ?_
    exact (h.closeAll_relays o .fenced _).trans (Aside.own _ le_rfl _ _ _ _).quiet.relays
  | tick gap => exact hrelays (fun _ _ => rfl) (h.onTick_relays o gap)
  | accepted k hello => exact h.brings_talks o rfl
  | dialed target sno res =>
    cases res with
    | none =>
      refine hrelays (fun _ _ => rfl) ?_
      show Relays c (c.onDialed o target sno none)
      rw [Core.onDialed]
      cases c.dials.lookup target with
      | none => exact (Quiet.refl c).relays
      | some d => exact (Aside.own c le_rfl _ _ _ _).quiet.relays
    | some x => exact h.brings_talks o rfl

end Core

end OxlensSfu.Mesh
