import OxlensSfu.Mesh.Talk

/-!
# Clients

A client passes nothing on: its sessions have no declarations, and what it declares itself it tells
one of them, its upstream (`Offers`). With one session that is everybody who listens, so the
session stays in step with the client.
-/

namespace OxlensSfu.Mesh.Core

structure Client (c : Core) : Prop where
  router : c.router = false
  decls : ∀ u s, c.sessions.lookup u = some s → s.decls = ∅
  ids : c.mine.Below c.nextId
  uids : ∀ u ∈ c.sessions, u < c.nextUid

/-- No id is in use that the client is still to give. -/
def Numbered (c : Core) (D : Decls) : Prop := D.Below c.nextId

/-- What the own process has declared. -/
def Declared (c : Core) (D : Decls) : Prop := D = c.mine

/-- The upstream is told of one change. -/
structure Offers (o : Told) (m : Msg) (c c' : Core) : Prop extends Kept c c' where
  mine : c'.mine = c.mine.apply m
  log : c'.fx = c.fx ++ (c.upstream o).toList.map (.push · m true)
  lane : m.lane = .declare
  news : ∀ D : Decls, D.Below c.nextId → D.Takes m ∧ (D.apply m).Below c'.nextId

variable {c c' c₁ : Core} {o : Told} {u : Nat} {s : Sess} {e : Ev} {A : Core → Decls → Prop}
  {m : Msg} {k : DeclKind} {i : Nat} {x : String}

theorem mine_congr (h : c'.own = c.own) : c'.mine = c.mine := by
  funext d
  exact congrFun (congrFun h d.1) d.2

theorem Kept.client (hk : Kept c c') (h : c.Client) (hids : c'.mine.Below c'.nextId) :
    c'.Client where
  router := hk.router.trans h.router
  decls u s' hs' := by
    obtain ⟨s, hs, hlike⟩ := hk.sessions u s' hs'
    exact hlike.decls.trans (h.decls u s hs)
  ids := hids
  uids u hu := hk.nextUid ▸ h.uids u (hk.mem hu)

theorem Quiet.client (hq : Quiet c c') (h : c.Client) : c'.Client :=
  hq.toKept.client h (mine_congr hq.own ▸ h.ids.mono hq.nextId)

theorem Offers.client (ho : Offers o m c c') (h : c.Client) : c'.Client :=
  ho.toKept.client h (ho.mine ▸ (ho.news c.mine h.ids).2)

/-! ## What is told -/

theorem Quiet.told (h : Quiet c c') (hA : ∀ D, A c D → A c' D) : Tells A c c' := by
  obtain ⟨l, hl, hhush⟩ := h.hushed
  refine ⟨l, hl, fun u s D _ _ hD => ?_, fun u _ => pushed_hush hhush⟩
  obtain ⟨hafter, hclean⟩ := D.after_of_hush (pushed_hush (u := u) hhush)
  refine ⟨hclean, fun _ => ?_⟩
  rw [hafter]
  exact hA D hD

theorem upstream_mem (hu : u ∈ c.upstream o) : u ∈ c.sessions := by
  rw [upstream] at hu
  split_ifs at hu
  · exact absurd hu nofun
  · exact AList.mem_keys.2 (o.uids.mem_run.1 (List.mem_of_head? hu))

theorem pushed_upstream (hm : m.lane = .declare) (u : Nat) :
    pushed u ((c.upstream o).toList.map (.push · m true)) =
      if c.upstream o = some u then [m] else [] := by
  cases c.upstream o with
  | none => rfl
  | some v => by_cases hv : v = u <;> simp [pushed, hm, hv]

theorem pushed_upstream_none (hm : m.lane = .declare) (hu : u ∉ c.sessions) :
    pushed u ((c.upstream o).toList.map (.push · m true)) = [] := by
  rw [pushed_upstream hm, if_neg]
  exact fun he => hu (upstream_mem he)

theorem Offers.told (h : Offers o m c c') : Tells Numbered c c' := by
  refine ⟨_, h.log, fun u s D _ _ hD => ?_, fun u hu => ?_⟩
  · rw [pushed_upstream h.lane]
    obtain ⟨htakes, hbelow⟩ := h.news D hD
    split_ifs
    · exact ⟨⟨htakes, trivial⟩, fun _ => hbelow⟩
    · exact ⟨trivial, fun _ => hD.mono h.nextId⟩
  · rw [pushed_upstream_none h.lane hu]
    exact fun m' hm' => absurd hm' List.not_mem_nil

/-- The one session there is is the upstream. -/
theorem upstream_single (h : c.Client) (hone : ∀ u ∈ c.sessions, ∀ v ∈ c.sessions, u = v)
    (hu : u ∈ c.sessions) (o : Told) : c.upstream o = some u := by
  rw [upstream, if_neg (by simp [h.router])]
  cases hk : o.uids.run c.sessions.keys with
  | nil =>
    have hmem : u ∈ o.uids.run c.sessions.keys := o.uids.mem_run.2 (AList.mem_keys.1 hu)
    rw [hk] at hmem
    exact absurd hmem List.not_mem_nil
  | cons v vs =>
    have hv : v ∈ o.uids.run c.sessions.keys := hk ▸ List.mem_cons_self
    exact congrArg some (hone v (AList.mem_keys.2 (o.uids.mem_run.1 hv)) u hu)

theorem Offers.told_single (h : Offers o m c c') (hc : c.Client)
    (hone : ∀ u ∈ c.sessions, ∀ v ∈ c.sessions, u = v) : Tells Declared c c' := by
  refine ⟨_, h.log, fun u s D hs _ hD => ?_, fun u hu => ?_⟩
  · obtain rfl : D = c.mine := hD
    rw [pushed_upstream h.lane,
      if_pos (upstream_single hc hone (Map.mem_iff_lookup.2 ⟨s, hs⟩) o)]
    exact ⟨⟨(h.news c.mine hc.ids).1, trivial⟩, fun _ => h.mine.symm⟩
  · rw [pushed_upstream_none h.lane hu]
    exact fun m' hm' => absurd hm' List.not_mem_nil

/-! ## Declarations of the own process -/

theorem tellUpstream_fx (c : Core) (o : Told) (m : Msg) :
    ∃ l, l = c.fx ++ (c.upstream o).toList.map (.push · m true) ∧
      c.tellUpstream o m = { c with fx := l } := by
  refine ⟨_, rfl, ?_⟩
  rw [tellUpstream]
  cases c.upstream o with
  | none => simp
  | some u => rfl

theorem Kept.offers (hk : Kept c c₁) (hs : c₁.sessions = c.sessions) (hf : c₁.fx = c.fx)
    (hmine : c₁.mine = c.mine.apply m) (hlane : m.lane = .declare)
    (hnews : ∀ D : Decls, D.Below c.nextId → D.Takes m ∧ (D.apply m).Below c₁.nextId) (o : Told) :
    Offers o m c (c₁.tellUpstream o m) := by
  obtain ⟨l, hl, hc⟩ := c₁.tellUpstream_fx o m
  have hup : c₁.upstream o = c.upstream o := by rw [upstream, upstream, hk.router, hs]
  rw [hc]
  refine ⟨⟨hk.node, hk.router, hk.running, hk.nextId, hk.nextUid, hk.sessions⟩, hmine, ?_, hlane, hnews⟩
  rw [← hup, ← hf]
  exact hl

theorem Client.declareLocal (h : c.Client) (o : Told) (k : DeclKind) (e : String) :
    Offers o (.declare k c.nextId e) c (c.declareLocal o k e) := by
  have hr : ¬ c.router = true := by simp [h.router]
  let c₁ : Core := { c with
    nextId := c.nextId + 1
    lTokens := k.stores .token c.lTokens c.nextId e
    lSubs := k.stores .sub c.lSubs c.nextId e
    lQabls := k.stores .qabl c.lQabls c.nextId e
    subs := if k = .sub then c.subs.add (.loc c.nextId) c.nextId e else c.subs }
  have hk : Kept c c₁ := .same rfl rfl rfl (Nat.le_succ _) rfl rfl
  have hd : c.declareLocal o k e = c₁.tellUpstream o (.declare k c.nextId e) := by
    cases k <;> exact if_neg hr
  have hmine : c₁.mine = c.mine.apply (.declare k c.nextId e) := by
    funext ⟨k', i⟩
    show _ = Function.update c.mine (k, c.nextId) (some e) (k', i)
    rw [Function.update_apply]
    simp only [Prod.mk.injEq]
    cases k' <;> exact stores_lookup _ _ _ _ _ _
  rw [hd]
  exact hk.offers rfl rfl hmine rfl (fun D hD => ⟨hD k _ le_rfl, hD.declare k e⟩) o

theorem Client.undeclareLocal_none (h : c.own k i = none) (o : Told) :
    Quiet c (c.undeclareLocal o k i) := by
  cases k with
  | token =>
    have hlook : c.lTokens.lookup i = none := h
    have hsame : c.undeclareLocal o .token i = c := by simp [Core.undeclareLocal, hlook]
    rw [hsame]
    exact .refl c
  | sub =>
    have hlook : c.lSubs.lookup i = none := h
    have hmem : i ∉ c.lSubs := AList.lookup_eq_none.1 hlook
    have hsame : c.undeclareLocal o .sub i = { c with subs := c.subs.remove (.loc i) i } := by
      simp [Core.undeclareLocal, hmem, Map.erase_of_none hlook]
    rw [hsame]
    exact ⟨.same rfl rfl rfl le_rfl rfl rfl, rfl, rfl, .refl _⟩
  | qabl =>
    have hlook : c.lQabls.lookup i = none := h
    have hmem : i ∉ c.lQabls := AList.lookup_eq_none.1 hlook
    have hsame : c.undeclareLocal o .qabl i = c := by
      simp [Core.undeclareLocal, hmem, Map.erase_of_none hlook]
    rw [hsame]
    exact .refl c

theorem Client.undeclareLocal_some (h : c.Client) (hid : c.own k i = some x) (o : Told) :
    Offers o (.undeclare k i) c (c.undeclareLocal o k i) := by
  let c₁ : Core := { c with
    lTokens := k.forgets .token c.lTokens i
    lSubs := k.forgets .sub c.lSubs i
    lQabls := k.forgets .qabl c.lQabls i
    subs := if k = .sub then c.subs.remove (.loc i) i else c.subs }
  have hk : Kept c c₁ := .same rfl rfl rfl le_rfl rfl rfl
  have hd : c.undeclareLocal o k i = c₁.tellUpstream o (.undeclare k i) := by
    cases k with
    | token =>
      have hlook : c.lTokens.lookup i = some x := hid
      simp [Core.undeclareLocal, hlook, h.router, c₁, DeclKind.forgets]
    | sub =>
      have hmem : i ∈ c.lSubs := Map.mem_iff_lookup.2 ⟨x, hid⟩
      simp [Core.undeclareLocal, hmem, h.router, c₁, DeclKind.forgets]
    | qabl =>
      have hmem : i ∈ c.lQabls := Map.mem_iff_lookup.2 ⟨x, hid⟩
      simp [Core.undeclareLocal, hmem, h.router, c₁, DeclKind.forgets]
  have hmine : c₁.mine = c.mine.apply (.undeclare k i) := by
    funext d
    obtain ⟨k', i'⟩ := d
    show _ = Function.update c.mine (k, i) none (k', i')
    rw [Function.update_apply]
    simp only [Prod.mk.injEq]
    cases k' <;> exact forgets_lookup _ _ _ _ _
  rw [hd]
  exact hk.offers rfl rfl hmine rfl (fun D hD => ⟨trivial, hD.undeclare k i⟩) o

/-! ## Every event -/

theorem Client.close_quiet (h : c.Client) (o : Told) (u : Nat) (reason : CloseReason) :
    Quiet c (c.close o u reason) := by
  cases hs : c.sessions.lookup u with
  | none =>
    have hsame : c.close o u reason = c := by simp [Core.close, hs]
    rw [hsame]
    exact .refl c
  | some s =>
    have hu : u ∉ (c.leave u s reason).sessions := by simp [Core.leave]
    have hempty : (o.decls u).run s.decls.entries = [] := by
      rw [h.decls u s hs]
      exact ((o.decls u).perm _).eq_nil
    have hdecls : (c.leave u s reason).dropDecls o u s = (c.leave u s reason).forgetSeen := by
      rw [dropDecls, hempty]
      exact if_neg (by simp [leave, h.router])
    have hfirst : Quiet c ((c.leave u s reason).dropDecls o u s) := by
      rw [hdecls]
      exact (c.leave_quiet u s reason).trans (forgetSeen_aside _).quiet
    have hwork := (c.leave u s reason).dropDecls_works o u s
    have hm := (dropQueries_moves (o := o) fun hmem => hu (hwork.sessions u hmem)).1
    rw [close_eq hs]
    exact hfirst.trans (hm.quiet.trans (tellLeft_moves _ s).quiet)

theorem Client.closeAll_quiet (h : c.Client) (o : Told) (reason : CloseReason) (us : List Nat) :
    Quiet c (c.closeAll o reason us) := by
  induction us generalizing c with
  | nil => exact .refl c
  | cons u us ih =>
    have hq := h.close_quiet o u reason
    exact hq.trans (ih (hq.client h))

theorem Client.onTick_quiet (h : c.Client) (o : Told) (gap : Nat) : Quiet c (c.onTick o gap) := by
  rw [Core.onTick]
  split
  · exact (h.closeAll_quiet o .fenced _).trans (Aside.own _ le_rfl _ _ _ _).quiet
  · have hclosed := h.closeAll_quiet o .expired ((o.uids.run c.sessions.keys).filter o.silent)
    exact hclosed.trans ((finishAll_aside _ o _).trans (dialWanted_aside _ o)).quiet

/-- A client has no use for declarations. -/
theorem Client.onMsg_quiet (h : c.Client) (o : Told) (u : Nat) (m : Msg) :
    Quiet c (c.onMsg o u m) := by
  by_cases hclose : ∃ r, m = .close r
  · obtain ⟨r, rfl⟩ := hclose
    rw [Core.onMsg]
    cases c.sessions.lookup u with
    | none => exact .refl c
    | some s => exact h.close_quiet o u r
  · by_cases hm : m.declares = false
    · exact Core.onMsg_quiet hm (fun r hr => hclose ⟨r, hr⟩) c o u
    · have hsame : c.onMsg o u m = c := by
        rw [Core.onMsg]
        cases hs : c.sessions.lookup u with
        | none => rfl
        | some s =>
          cases m with
          | declare k i e => exact if_neg (by simp [h.router])
          | undeclare k i =>
            show c.remoteUndeclare u s k i = c
            simp [Core.remoteUndeclare, h.decls u s hs]
          | _ => exact absurd rfl hm
      rw [hsame]
      exact .refl c

/-- The own process changes what it has declared. -/
def Alters (c : Core) : Ev → Prop
  | .cmd (.declareToken _) | .cmd (.subscribe _) | .cmd (.queryable _) => True
  | .cmd (.undeclare k i) => c.own k i ≠ none
  | _ => False

instance (c : Core) (e : Ev) : Decidable (c.Alters e) := by
  unfold Alters
  split <;> infer_instance

theorem Client.onCmd_cases (h : c.Client) (o : Told) {cmd : Cmd} (hc : cmd ≠ .close) :
    Quiet c (c.onCmd o cmd) ∨ c.Alters (.cmd cmd) ∧ ∃ m, Offers o m c (c.onCmd o cmd) := by
  cases cmd with
  | declareToken key => exact .inr ⟨trivial, _, h.declareLocal o .token key⟩
  | subscribe expr => exact .inr ⟨trivial, _, h.declareLocal o .sub expr⟩
  | queryable expr => exact .inr ⟨trivial, _, h.declareLocal o .qabl expr⟩
  | tokenSub expr history => exact .inl (c.tokenSub_aside o expr history).quiet
  | undeclare k i =>
    cases hown : c.own k i with
    | none => exact .inl (Client.undeclareLocal_none hown o)
    | some x =>
      have halters : c.Alters (.cmd (.undeclare k i)) := fun hn => absurd (hown.symm.trans hn) nofun
      exact .inr ⟨halters, _, h.undeclareLocal_some hown o⟩
  | tokenUnsub i => exact .inl (c.tokenUnsub_aside o i).quiet
  | put key payload => exact .inl (c.routePut_aside o none key payload).quiet
  | get expr payload timeoutMs tx => exact .inl (c.routeGet_quiet o _ expr payload _)
  | localReply q qabl key ok payload =>
    refine .inl ?_
    simp only [Core.onCmd]
    split_ifs with ht
    · exact (forwardReply_aside ht _ _ _).quiet
    · exact .refl c
  | localFinal q qabl => exact .inl (c.targetDone_moves o q _).quiet
  | close => exact absurd rfl hc

theorem Client.install (h : c.Client) (o : Told) (k : Nat) (hello : Hello) (dialer : String)
    (boot sno : Nat) : (c.install o k hello dialer boot sno).Client ∧
      (c.install o k hello dialer boot sno).own = c.own ∧
      (c.install o k hello dialer boot sno).nextId = c.nextId := by
  rw [install_eq]
  obtain ⟨l, hl⟩ := (c.enter k hello dialer boot sno).greet_eq o c.nextUid hello.role
  rw [hl]
  refine ⟨⟨h.router, fun u s hs => ?_, h.ids, fun u hu => ?_⟩, rfl, rfl⟩
  · have hs : (c.sessions.insert c.nextUid _).lookup u = some s := hs
    rw [Map.lookup_insert_if] at hs
    split_ifs at hs
    · exact (Option.some.inj hs) ▸ rfl
    · exact h.decls u s hs
  · rcases (AList.mem_insert _).1 hu with rfl | hu
    · exact Nat.lt_succ_self _
    · exact (h.uids u hu).trans (Nat.lt_succ_self _)

theorem Client.greeting (h : c.Client) (o : Told) (role : Role) :
    Decls.empty.Clean (c.greeting o role) ∧ Decls.empty.after (c.greeting o role) = c.mine := by
  obtain ⟨hclean, hafter⟩ := c.localMsgs_tell o
  have hg : c.greeting o role = c.localMsgs o ++
      ((c.lTsubs.entries.map fun t => .tokenSub t.1 t.2.expr true) ++ [.declareDone]) := by
    rw [Core.greeting, if_neg (by simp [h.router]), List.append_assoc]
  have hhush : ∀ m ∈ (c.lTsubs.entries.map fun t => Msg.tokenSub t.1 t.2.expr true) ++
      [.declareDone], m.declares = false :=
    List.forall_mem_append.2 ⟨List.forall_mem_map.2 fun _ _ => rfl, List.forall_mem_singleton.2 rfl⟩
  obtain ⟨hafter', hclean'⟩ := c.mine.after_of_hush hhush
  rw [hg, Decls.clean_append, Decls.after_append, hafter]
  exact ⟨⟨hclean, hclean'⟩, hafter'⟩

/-- What the sessions of a client should have is about what it has declared, and each change of that
reaches them. -/
theorem Client.onEv_talks (h : c.Client) (o : Told)
    (hA : ∀ {c c' : Core} {D}, c'.own = c.own → c.nextId ≤ c'.nextId → A c D → A c' D)
    (hmine : ∀ {c : Core}, c.Client → A c c.mine)
    (hoffers : c.Alters e → ∀ {m c'}, Offers o m c c' → Tells A c c') :
    Seats c e (c.onEv o e) ∧ Feeds A c (c.onEv o e) ∧ (e ≠ .cmd .close → (c.onEv o e).Client) := by
  have hr : c.router ≠ true := by simp [h.router]
  have hquiet : ∀ {c'}, Quiet c c' → Seats c e c' ∧ Feeds A c c' ∧ (e ≠ .cmd .close → c'.Client) :=
    fun hq => ⟨hq.seats fun hc => absurd hc hr,
      (hq.told fun D => hA hq.own hq.nextId).feeds fun _ => hq.mem, fun _ => hq.client h⟩
  have hbrings : ∀ {k hello}, e.brings = some (k, hello) →
      Seats c e (c.onEv o e) ∧ Feeds A c (c.onEv o e) ∧
        (e ≠ .cmd .close → (c.onEv o e).Client) := by
    intro k hello he
    obtain ⟨c₁, h₁, hq, hev⟩ := arrives (P := Client) (R := Quiet) Quiet.trans
      (fun h ha => ⟨ha.aside.quiet.client h, ha.aside.quiet⟩)
      (fun h => ⟨(h.close_quiet _ _ _).client h, h.close_quiet _ _ _⟩) h o he
    rcases hev with hev | ⟨dialer, boot, sno, hev⟩
    · rw [hev]
      exact hquiet hq
    · obtain ⟨hclient, hown, hid⟩ := h₁.install o k hello dialer boot sno
      rw [hev]
      refine ⟨hq.seats_install h.uids o he dialer boot sno, ?_, fun _ => hclient⟩
      refine (hq.told fun D => hA hq.own hq.nextId).install hq.toKept h.uids o k hello dialer boot sno
        (fun _ => ?_) fun D => hA hown hid.ge
      obtain ⟨hclean, hafter⟩ := h₁.greeting o hello.role
      exact ⟨hclean, hafter ▸ hmine h₁⟩
  cases e with
  | cmd cmd =>
    by_cases hc : cmd = .close
    · rw [hc]
      obtain ⟨hseats, hfeeds⟩ := c.shutdown_talks o A
      exact ⟨hseats, hfeeds, fun he => absurd rfl he⟩
    · rcases h.onCmd_cases o hc with hq | ⟨halters, m, hm⟩
      · exact hquiet hq
      · exact ⟨hm.seats fun hc => absurd hc hr, (hoffers halters hm).feeds fun _ => hm.mem,
          fun _ => hm.client h⟩
  | msg u m => exact hquiet (h.onMsg_quiet o u m)
  | closed u reason => exact hquiet (h.close_quiet o u reason)
  | paused => exact hquiet ((h.closeAll_quiet o .fenced _).trans (Aside.own _ le_rfl _ _ _ _).quiet)
  | tick gap => exact hquiet (h.onTick_quiet o gap)
  | accepted k hello => exact hbrings rfl
  | dialed target sno res =>
    cases res with
    | none =>
      refine hquiet ?_
      show Quiet c (c.onDialed o target sno none)
      rw [Core.onDialed]
      cases c.dials.lookup target with
      | none => exact .refl c
      | some d => exact (Aside.own c le_rfl _ _ _ _).quiet
    | some x => exact hbrings rfl

end OxlensSfu.Mesh.Core
