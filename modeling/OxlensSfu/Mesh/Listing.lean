import OxlensSfu.Mesh.Talk

/-!
# Subscriptions of a node

Routers and clients look subscriptions up in the same index. It lists the subscriptions of the own
process and, at a router, those of its sessions, each of them once (`Listed`), and every event
keeps it so.
-/

namespace OxlensSfu.Mesh

/-- The expression matches the key. -/
def covers (e key : String) : Bool := if concrete e then e = key else intersects e key

/-! ## Nothing is listed twice -/

structure SubIndex.Distinct (x : SubIndex) : Prop where
  exact : ∀ e l, x.exact.lookup e = some l → l.Nodup
  wild : x.wild.Nodup

namespace SubIndex

variable {x : SubIndex} {want : Owner × Nat → Option String}

theorem dropExact_nodup {m : Map String (List (Owner × Nat))}
    (h : ∀ e l, m.lookup e = some l → l.Nodup) (e : String) (k : Owner × Nat) :
    ∀ e' l, (dropExact m e k).lookup e' = some l → l.Nodup := by
  intro e' l hl
  rw [dropExact] at hl
  cases hm : m.lookup e with
  | none =>
    rw [hm] at hl
    exact h e' l hl
  | some set =>
    simp only [hm] at hl
    split_ifs at hl with hset
    · rw [Map.lookup_erase_if] at hl
      split_ifs at hl
      exact h e' l hl
    · rw [Map.lookup_insert_if] at hl
      split_ifs at hl
      · rw [← Option.some.inj hl]
        exact (h e set hm).filter _
      · exact h e' l hl

theorem Distinct.remove (h : x.Distinct) (o : Owner) (id : Nat) : (x.remove o id).Distinct := by
  rw [SubIndex.remove]
  cases x.exprs.lookup (o, id) with
  | none => exact h
  | some e => exact ⟨dropExact_nodup h.exact e (o, id), h.wild.filter _⟩

theorem Distinct.add (h : x.Distinct) (o : Owner) (id : Nat) (e : String) :
    (x.add o id e).Distinct := by
  have hr := h.remove o id
  rw [SubIndex.add]
  generalize x.remove o id = y at hr ⊢
  have hset : ∀ e, ((y.exact.lookup e).getD []).Nodup := by
    intro e
    cases he : y.exact.lookup e with
    | none => exact List.nodup_nil
    | some l => exact hr.exact e l he
  refine ⟨fun e' l hl => ?_, ?_⟩
  · have hl : (if concrete e then y.exact.insert e (((y.exact.lookup e).getD []).insert (o, id))
        else y.exact).lookup e' = some l := hl
    split_ifs at hl
    · rw [Map.lookup_insert_if] at hl
      split_ifs at hl
      · rw [← Option.some.inj hl]
        exact (hset e).insert
      · exact hr.exact e' l hl
    · exact hr.exact e' l hl
  · show (if concrete e then y.wild else y.wild.insert (o, id)).Nodup
    split_ifs
    · exact hr.wild
    · exact hr.wild.insert

theorem mem_matching (h : x.Holds want) {key : String} {k : Owner × Nat} :
    k ∈ x.matching key ↔ ∃ e, want k = some e ∧ covers e key := by
  rw [Core.matching_iff h, h.exprs]
  refine exists_congr fun e => and_congr_right fun _ => ?_
  rw [covers]
  split_ifs
  · exact decide_eq_true_iff.symm
  · exact Iff.rfl

/-- A subscription is either under its expression or among the wild ones. -/
theorem matching_nodup (h : x.Holds want) (hd : x.Distinct) (key : String) :
    (x.matching key).Nodup := by
  have hexact : ((x.exact.lookup key).getD []).Nodup := by
    cases hl : x.exact.lookup key with
    | none => exact List.nodup_nil
    | some l => exact hd.exact key l hl
  refine List.nodup_append.2 ⟨hexact, hd.wild.filter _, ?_⟩
  rintro k hk k' hk' rfl
  obtain ⟨hc, hw⟩ := (h.exact key k).1 hk
  obtain ⟨e, hw', hn⟩ := (h.wild k).1 (List.mem_filter.1 hk').1
  exact hn (Option.some.inj (hw.symm.trans hw') ▸ hc)

end SubIndex

/-! ## The index of a node -/

namespace Core

/-- The index has the subscriptions of the own process, and those of sessions at a router only. -/
structure Listed (c : Core) : Prop where
  holds : c.subs.Holds (c.subs.exprs.lookup ·)
  distinct : c.subs.Distinct
  own : ∀ i id, c.subs.exprs.lookup (.loc i, id) = if i = id then c.lSubs.lookup id else none
  foreign : c.router = false → ∀ u id, c.subs.exprs.lookup (.sess u, id) = none

variable {c c' : Core} {o : Told} {u : Nat} {s : Sess} {e : Ev}

theorem Listed.intro {want : Owner × Nat → Option String} (h : c.subs.Holds want)
    (hd : c.subs.Distinct)
    (hown : ∀ i id, want (.loc i, id) = if i = id then c.lSubs.lookup id else none)
    (hforeign : c.router = false → ∀ u id, want (.sess u, id) = none) : c.Listed := by
  have hwant : (c.subs.exprs.lookup ·) = want := funext h.exprs
  refine ⟨hwant ▸ h, hd, fun i id => ?_, fun hr u id => ?_⟩
  · rw [h.exprs, hown]
  · rw [h.exprs, hforeign hr]

/-- Other things change. -/
theorem Listed.frame (h : c.Listed) (hr : c'.router = c.router) (hs : c'.subs = c.subs)
    (hl : c'.lSubs = c.lSubs) : c'.Listed := by
  obtain ⟨hholds, hdistinct, hown, hforeign⟩ := h
  refine ⟨?_, ?_, ?_, ?_⟩
  · rwa [hs]
  · rwa [hs]
  · rwa [hs, hl]
  · rwa [hs, hr]

theorem Listed.moves (h : c.Listed) (hm : Moves c c') : c'.Listed := by
  obtain ⟨m, l, rfl⟩ := hm.frame
  exact h.frame rfl rfl rfl

theorem Listed.aside (h : c.Listed) (ha : Aside c c') : c'.Listed := by
  obtain ⟨n, sno, m, ts, d, k, l, rfl⟩ := ha.frame
  exact h.frame rfl rfl rfl

/-! ## Sessions -/

theorem Listed.addSess (h : c.Listed) (hr : c.router = true) (u i : Nat) (x : String) :
    Listed { c with subs := c.subs.add (.sess u) i x } := by
  refine .intro (h.holds.add (.sess u) i x) (h.distinct.add _ _ _) (fun j id => ?_) fun hr' => ?_
  · rw [Function.update_of_ne (by simp)]
    exact h.own j id
  · exact absurd (hr.symm.trans hr') nofun

theorem Listed.removeSess (h : c.Listed) (u i : Nat) :
    Listed { c with subs := c.subs.remove (.sess u) i } := by
  refine .intro (h.holds.remove (.sess u) i) (h.distinct.remove _ _) (fun j id => ?_)
    fun hr v id => ?_
  · rw [Function.update_of_ne (by simp)]
    exact h.own j id
  · rw [Function.update_apply]
    split_ifs
    · rfl
    · exact h.foreign hr v id

theorem Listed.tokAdd (h : c.Listed) (key : String) : (c.tokAdd key).Listed := by
  obtain ⟨l, hl⟩ := c.tokAdd_eq key
  rw [hl]
  exact h.frame rfl rfl rfl

theorem Listed.tokDel (h : c.Listed) (key : String) : (c.tokDel key).1.Listed := by
  obtain ⟨l, hl⟩ := c.tokDel_eq key
  rw [hl]
  exact h.frame rfl rfl rfl

theorem Listed.announce (h : c.Listed) (m : Msg) : (c.announce m).Listed := by
  obtain ⟨l, hl⟩ := c.announce_eq m
  rw [hl]
  exact h.frame rfl rfl rfl

theorem Listed.closeDecl (h : c.Listed) (u : Nat) (b : Bool)
    (d : (_ : DeclKind × Nat) × String) : (closeDecl u (c, b) d).1.Listed := by
  have hunlist : (c.unlist u d.1 d.2).1.Listed := by
    rw [unlist]
    cases d.1.1 with
    | token => exact h.tokDel d.2
    | sub => exact h.removeSess u d.1.2
    | qabl => exact h
  obtain ⟨out, south, l, hl⟩ := (c.unlist u d.1 d.2).1.retract_eq u d.1
  rw [Core.closeDecl]
  simp only [hl]
  exact hunlist.frame rfl rfl rfl

theorem Listed.closeDecls (h : c.Listed) (u : Nat) (ds : List ((_ : DeclKind × Nat) × String))
    (b : Bool) : (ds.foldl (Core.closeDecl u) (c, b)).1.Listed := by
  induction ds generalizing c b with
  | nil => exact h
  | cons d ds ih => exact ih (h.closeDecl u b d) (Core.closeDecl u (c, b) d).2

theorem Listed.close (h : c.Listed) (o : Told) (u : Nat) (reason : CloseReason) :
    (c.close o u reason).Listed := by
  cases hs : c.sessions.lookup u with
  | none =>
    have hsame : c.close o u reason = c := by simp [Core.close, hs]
    rw [hsame]
    exact h
  | some s =>
    have hu : u ∉ (c.leave u s reason).sessions := by simp [Core.leave]
    have hwork := (c.leave u s reason).dropDecls_works o u s
    have hm := (dropQueries_moves (o := o) fun hmem => hu (hwork.sessions u hmem)).1
    have hleave : (c.leave u s reason).Listed := h.frame rfl rfl rfl
    have hends : ((c.leave u s reason).dropDecls o u s).Listed := by
      have hdecls := hleave.closeDecls u ((o.decls u).run s.decls.entries) false
      rw [dropDecls]
      generalize ((o.decls u).run s.decls.entries).foldl (Core.closeDecl u)
        (c.leave u s reason, false) = x at hdecls ⊢
      simp only
      split_ifs
      · exact hdecls.moves (batchEnd_moves _)
      · exact hdecls
      · exact hdecls.aside (forgetSeen_aside _)
    rw [close_eq hs]
    exact (hends.moves hm).moves (tellLeft_moves _ s)

theorem Listed.closeAll (h : c.Listed) (o : Told) (reason : CloseReason) (us : List Nat) :
    (c.closeAll o reason us).Listed := by
  induction us generalizing c with
  | nil => exact h
  | cons u us ih => exact ih (h.close o u reason)

theorem Listed.install (h : c.Listed) (o : Told) (k : Nat) (hello : Hello) (dialer : String)
    (boot sno : Nat) : (c.install o k hello dialer boot sno).Listed := by
  rw [install_eq]
  obtain ⟨l, hl⟩ := (c.enter k hello dialer boot sno).greet_eq o c.nextUid hello.role
  rw [hl]
  exact h.frame rfl rfl rfl

theorem Listed.remoteDeclare (h : c.Listed) (u : Nat) (s : Sess) (k : DeclKind) (i : Nat)
    (x : String) : (c.remoteDeclare u s k i x).Listed := by
  by_cases hr : c.router = true
  · cases hnew : s.decls.lookup (k, i) with
    | none =>
      let c₁ : Core := { c with
        sessions := c.sessions.insert u { s with decls := s.decls.insert (k, i) x } }
      have h₁ : c₁.Listed := h.frame rfl rfl rfl
      have hlist : (c₁.enlist u k i x).Listed := by
        cases k with
        | token => exact h₁.tokAdd x
        | sub => exact h₁.addSess hr u i x
        | qabl => exact h₁
      obtain ⟨l, hl⟩ := (c₁.enlist u k i x).passOn_eq u k i x
      rw [remoteDeclare_eq hr hnew]
      show Listed (if s.role = .client then (c₁.enlist u k i x).passOn u k i x
        else c₁.enlist u k i x)
      split_ifs
      · rw [hl]
        exact hlist.frame rfl rfl rfl
      · exact hlist
    | some y =>
      have hmem : (k, i) ∈ s.decls := Map.mem_iff_lookup.2 ⟨y, hnew⟩
      have hknown : c.remoteDeclare u s k i x = { c with
          sessions := c.sessions.insert u { s with decls := s.decls.insert (k, i) x } } := by
        simp [Core.remoteDeclare, hr, hmem]
      rw [hknown]
      exact h.frame rfl rfl rfl
  · rw [Core.remoteDeclare, if_neg hr]
    exact h

theorem Listed.remoteUndeclare (h : c.Listed) (u : Nat) (s : Sess) (k : DeclKind) (i : Nat) :
    (c.remoteUndeclare u s k i).Listed := by
  rw [Core.remoteUndeclare]
  cases s.decls.lookup (k, i) with
  | none => exact h
  | some x =>
    have hleft : Listed { c with
        sessions := c.sessions.insert u { s with decls := s.decls.erase (k, i) } } :=
      h.frame rfl rfl rfl
    exact hleft.closeDecl u false ⟨(k, i), x⟩

/-! ## The own process -/

theorem Listed.tellUpstream (h : c.Listed) (o : Told) (m : Msg) : (c.tellUpstream o m).Listed := by
  rw [Core.tellUpstream]
  cases c.upstream o with
  | none => exact h
  | some u => exact h.frame rfl rfl rfl

theorem Listed.declareLocal (h : c.Listed) (o : Told) (k : DeclKind) (x : String) :
    (c.declareLocal o k x).Listed := by
  let c₁ : Core := { c with
    nextId := c.nextId + 1
    lTokens := k.stores .token c.lTokens c.nextId x
    lSubs := k.stores .sub c.lSubs c.nextId x
    lQabls := k.stores .qabl c.lQabls c.nextId x
    subs := if k = .sub then c.subs.add (.loc c.nextId) c.nextId x else c.subs }
  have h₁ : c₁.Listed := by
    cases k with
    | token | qabl => exact h.frame rfl rfl rfl
    | sub =>
      refine .intro (h.holds.add (.loc c.nextId) c.nextId x) (h.distinct.add _ _ _)
        (fun j id => ?_) fun hr u id => ?_
      · show _ = if j = id then (c.lSubs.insert c.nextId x).lookup id else none
        rw [Function.update_apply, Map.lookup_insert_if, h.own]
        by_cases hj : j = id
        · subst hj
          simp
        · rw [if_neg hj, if_neg hj, if_neg]
          simp only [Prod.mk.injEq, Owner.loc.injEq]
          rintro ⟨rfl, rfl⟩
          exact hj rfl
      · rw [Function.update_of_ne (by simp)]
        exact h.foreign hr u id
  by_cases hr : c.router = true
  · let c₂ := if k = .token then c₁.tokAdd x else c₁
    have h₂ : c₂.Listed := by
      show Listed (if k = .token then c₁.tokAdd x else c₁)
      split_ifs
      · exact h₁.tokAdd x
      · exact h₁
    have hd : c.declareLocal o k x = Core.announce
        { c₂ with out := c₂.out.insert c.nextId (k, x) } (.declare k c.nextId x) := by
      cases k <;> exact if_pos hr
    have hout : Listed { c₂ with out := c₂.out.insert c.nextId (k, x) } := h₂.frame rfl rfl rfl
    rw [hd]
    exact hout.announce _
  · have hd : c.declareLocal o k x = c₁.tellUpstream o (.declare k c.nextId x) := by
      cases k <;> exact if_neg hr
    rw [hd]
    exact h₁.tellUpstream o _

theorem Listed.undeclareLocal (h : c.Listed) (o : Told) (k : DeclKind) (id : Nat) :
    (c.undeclareLocal o k id).Listed := by
  let c₁ : Core := { c with
    lTokens := k.forgets .token c.lTokens id
    lSubs := k.forgets .sub c.lSubs id
    lQabls := k.forgets .qabl c.lQabls id
    subs := if k = .sub then c.subs.remove (.loc id) id else c.subs }
  have h₁ : c₁.Listed := by
    cases k with
    | token | qabl => exact h.frame rfl rfl rfl
    | sub =>
      refine .intro (h.holds.remove (.loc id) id) (h.distinct.remove _ _) (fun j i => ?_)
        fun hr u i => ?_
      · show _ = if j = i then (c.lSubs.erase id).lookup i else none
        rw [Function.update_apply, Map.lookup_erase_if, h.own]
        by_cases hj : j = i
        · subst hj
          simp
        · rw [if_neg hj, if_neg hj, ite_self]
      · rw [Function.update_of_ne (by simp)]
        exact h.foreign hr u i
  have htell : ∀ {c₂ : Core}, c₂.Listed → Listed (if c₂.router then
      { c₂ with out := c₂.out.erase id }.announce (.undeclare k id)
      else c₂.tellUpstream o (.undeclare k id)) := by
    intro c₂ h₂
    split_ifs
    · have hout : Listed { c₂ with out := c₂.out.erase id } := h₂.frame rfl rfl rfl
      exact hout.announce _
    · exact h₂.tellUpstream o _
  cases k with
  | token =>
    cases hx : c.lTokens.lookup id with
    | none =>
      have hsame : c.undeclareLocal o .token id = c := by simp [Core.undeclareLocal, hx]
      rw [hsame]
      exact h
    | some x =>
      simp only [Core.undeclareLocal, hx, if_true]
      have hdel : Listed (if c.router then (c₁.tokDel x).1 else c₁) := by
        split_ifs
        · exact h₁.tokDel x
        · exact h₁
      exact htell hdel
  | sub =>
    simp only [Core.undeclareLocal]
    split
    · exact htell h₁
    · exact h₁
  | qabl =>
    simp only [Core.undeclareLocal]
    split
    · exact htell h₁
    · exact h₁

/-! ## Every event -/

theorem Listed.routeGet (h : c.Listed) (o : Told) (origin : Origin) (expr : String)
    (payload : Payload) (timeoutMs : Nat) :
    (c.routeGet o origin expr payload timeoutMs).Listed := by
  have hbegin : (c.begin o origin expr timeoutMs).Listed := h.frame rfl rfl rfl
  exact hbegin.moves (c.routeGet_moves o origin expr payload timeoutMs).1

theorem Listed.onCmd (h : c.Listed) (o : Told) {cmd : Cmd} (hc : cmd ≠ .close) :
    (c.onCmd o cmd).Listed := by
  cases cmd with
  | declareToken key => exact h.declareLocal o .token key
  | subscribe expr => exact h.declareLocal o .sub expr
  | queryable expr => exact h.declareLocal o .qabl expr
  | tokenSub expr history => exact h.aside (c.tokenSub_aside o expr history)
  | undeclare k id => exact h.undeclareLocal o k id
  | tokenUnsub id => exact h.aside (c.tokenUnsub_aside o id)
  | put key payload => exact h.aside (c.routePut_aside o none key payload)
  | get expr payload timeoutMs tx => exact h.routeGet o _ expr payload _
  | localReply q qabl key ok payload =>
    simp only [Core.onCmd]
    split_ifs with ht
    · exact h.aside (forwardReply_aside ht _ _ _)
    · exact h
  | localFinal q qabl => exact h.moves (c.targetDone_moves o q _)
  | close => exact absurd rfl hc

theorem Listed.onMsg (h : c.Listed) (o : Told) (u : Nat) (m : Msg) : (c.onMsg o u m).Listed := by
  rw [Core.onMsg]
  cases c.sessions.lookup u with
  | none => exact h
  | some s =>
    cases m with
    | close r => exact h.close o u r
    | hello | keepAlive | declareDone => exact h
    | declare k i x => exact h.remoteDeclare u s k i x
    | undeclare k i => exact h.remoteUndeclare u s k i
    | tokenSub id expr history =>
      simp only
      split
      · exact h.frame rfl rfl rfl
      · exact h
    | tokenUnsub id => exact h.frame rfl rfl rfl
    | tokenEvt id kind key => exact h.aside (c.onTokenEvt_aside id kind key)
    | peers list => exact h.frame rfl rfl rfl
    | put key payload => exact h.aside (c.routePut_aside o _ key payload)
    | request qid expr payload timeoutMs => exact h.routeGet o _ expr payload timeoutMs
    | reply q key ok payload =>
      simp only
      split_ifs with ht
      · exact h.aside (forwardReply_aside ht _ _ _)
      · exact h
    | final q => exact h.moves (c.targetDone_moves o q _)

theorem Listed.onEv (h : c.Listed) (o : Told) {e : Ev} (he : e ≠ .cmd .close) :
    (c.onEv o e).Listed := by
  have hbrings : ∀ {k hello}, e.brings = some (k, hello) → (c.onEv o e).Listed := by
    intro k hello hb
    obtain ⟨c₁, h₁, -, hev⟩ := arrives (P := Listed) (R := fun _ _ => True) (fun _ _ => trivial)
      (fun h ha => ⟨h.aside ha.aside, trivial⟩) (fun h => ⟨h.close _ _ _, trivial⟩) h o hb
    rcases hev with hev | ⟨dialer, boot, sno, hev⟩
    · exact hev ▸ h₁
    · rw [hev]
      exact h₁.install o k hello dialer boot sno
  cases e with
  | cmd cmd => exact h.onCmd o fun hc => he (by rw [hc])
  | msg u m => exact h.onMsg o u m
  | closed u reason => exact h.close o u reason
  | paused =>
    have hclosed := h.closeAll o .fenced (o.uids.run c.sessions.keys)
    exact hclosed.frame rfl rfl rfl
  | tick gap =>
    show (c.onTick o gap).Listed
    rw [Core.onTick]
    split
    · have hclosed := h.closeAll o .fenced (o.uids.run c.sessions.keys)
      exact hclosed.frame rfl rfl rfl
    · have hclosed := h.closeAll o .expired ((o.uids.run c.sessions.keys).filter o.silent)
      exact hclosed.aside ((finishAll_aside _ o _).trans (dialWanted_aside _ o))
  | accepted k hello => exact hbrings rfl
  | dialed target sno res =>
    cases res with
    | none =>
      show (c.onDialed o target sno none).Listed
      rw [Core.onDialed]
      cases c.dials.lookup target with
      | none => exact h
      | some d => exact h.frame rfl rfl rfl
    | some x => exact hbrings rfl

theorem listed_new (node : String) (router : Bool) (leaseMs boot : Nat) (adv : Option String)
    (seeds : List String) : (Core.new node router leaseMs boot adv seeds).Listed := by
  have hholds : SubIndex.Holds {} fun _ => none := by
    refine ⟨AList.lookup_empty, fun e k => ?_, fun k => ?_, fun e he => ?_⟩
    · show k ∈ ((∅ : Map String (List (Owner × Nat))).lookup e).getD [] ↔ _
      simp
    · show k ∈ ([] : List (Owner × Nat)) ↔ _
      simp
    · exact absurd ((AList.lookup_empty e).symm.trans he) nofun
  refine .intro hholds ⟨fun e l hl => ?_, List.nodup_nil⟩ (fun i id => ?_) fun _ _ _ => rfl
  · exact absurd ((AList.lookup_empty e).symm.trans hl) nofun
  · show none = if i = id then (∅ : Map Nat String).lookup id else none
    simp

end Core

end OxlensSfu.Mesh
