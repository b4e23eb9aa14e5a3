import OxlensSfu.Mesh.Index
import OxlensSfu.Mesh.Query

/-!
# The books of a router

A router keeps the same facts in several places: who is connected, what each session and the own
process have declared, and on top of that the tokens, the subscription index and the declarations
it passes on. `Stands` says that they agree, and every handler keeps it.

* **`books_kept`** — the books of a router agree after every run in which a session declares nothing
  that it has already declared.
-/

namespace OxlensSfu.Mesh.Core

/-- The places where a router keeps things agree. -/
structure Stands (c : Core) : Prop where
  router : c.router = true
  index : Index c.view c
  peers : ∀ n u, c.byPeer.lookup n = some u ↔ ∃ s, c.sessions.lookup u = some s ∧ s.peer = n
  uids : ∀ u ∈ c.sessions, u < c.nextUid

variable {c c' : Core} {o : Told} {u : Nat} {s : Sess}

theorem Stands.moves (h : c.Stands) (hm : Moves c c') : c'.Stands := by
  obtain ⟨m, l, rfl⟩ := hm.frame
  exact ⟨h.router, ⟨h.index.tok, h.index.subs, h.index.passes⟩, h.peers, h.uids⟩

/-! ## Sessions -/

/-- A session is there with other contents. -/
theorem mem_insert_session (hs : c.sessions.lookup u = some s) (s' : Sess) (v : Nat) :
    v ∈ c.sessions.insert u s' ↔ v ∈ c.sessions := by
  rw [AList.mem_insert]
  refine or_iff_right_of_imp fun he => ?_
  rw [he]
  exact Map.mem_iff_lookup.2 ⟨s, hs⟩

theorem peers_insert (h : ∀ n v, c.byPeer.lookup n = some v ↔
      ∃ s, c.sessions.lookup v = some s ∧ s.peer = n)
    (hs : c.sessions.lookup u = some s) {s' : Sess} (hp : s'.peer = s.peer) (n : String) (v : Nat) :
    c.byPeer.lookup n = some v ↔
      ∃ s, (c.sessions.insert u s').lookup v = some s ∧ s.peer = n := by
  rw [h, Map.lookup_insert_if]
  by_cases hv : v = u
  · subst hv
    simp [hs, hp]
  · rw [if_neg hv]

theorem remote_of (hs : c.sessions.lookup u = some s) (d : DeclKind × Nat) :
    c.remote u d = s.decls.lookup d := by
  rw [remote, hs]
  rfl

theorem clients_of (hs : c.sessions.lookup u = some s) (d : DeclKind × Nat) :
    c.clients u d = if s.role = .client then s.decls.lookup d else none := by
  rw [clients, hs, Option.filter_some]
  split_ifs with h h' h'
  · rfl
  · exact absurd (of_decide_eq_true h) h'
  · exact absurd (decide_eq_true h') h
  · rfl

theorem view_insert (hs : c.sessions.lookup u = some s) {s' : Sess} {d : DeclKind × Nat}
    {x : Option String} (hrole : s'.role = s.role)
    (hd : ∀ d', s'.decls.lookup d' = if d' = d then x else s.decls.lookup d')
    {n : String → Nat} (hn : ∀ key, n key + s.tokens key = c.tokens key + s'.tokens key) :
    Core.view { c with sessions := c.sessions.insert u s' } =
      { c.view with
        remote := put₂ c.remote u d x
        south := if s.role = .client then put₂ c.clients u d x else c.clients
        tokens := n } := by
  let c' : Core := { c with sessions := c.sessions.insert u s' }
  have hs' : c'.sessions.lookup u = some s' := AList.lookup_insert _
  show View.mk c'.own c'.remote c'.clients c'.tokens = _
  rw [View.mk.injEq]
  refine ⟨rfl, ?_, ?_, ?_⟩
  · funext v d'
    by_cases hv : v = u
    · subst hv
      rw [remote_of hs', hd, put₂, remote_of hs]
      simp
    · rw [put₂, if_neg (fun h => hv h.1), remote, remote, AList.lookup_insert_ne hv]
  · funext v d'
    by_cases hv : v = u
    · subst hv
      rw [clients_of hs', hrole, hd]
      by_cases hr : s.role = .client
      · rw [if_pos hr, if_pos hr, put₂, clients_of hs, if_pos hr]
        simp
      · rw [if_neg hr, if_neg hr, clients_of hs, if_neg hr]
    · have hother : c'.clients v d' = c.clients v d' := by
        rw [clients, clients, AList.lookup_insert_ne hv]
      rw [hother]
      split_ifs
      · rw [put₂, if_neg fun h => hv h.1]
      · rfl
  · funext key
    have htotal := Map.total_insert hs s' fun _ s => s.tokens key
    have hkey := hn key
    have hlocal : c'.lTokens = c.lTokens := rfl
    have hremote : c'.sessions = c.sessions.insert u s' := rfl
    rw [tokens] at hkey ⊢
    rw [hlocal, hremote]
    omega

/-- The declarations of a session stay. -/
theorem Stands.session (h : c.Stands) (hs : c.sessions.lookup u = some s) {s' : Sess}
    (hp : s'.peer = s.peer) (hr : s'.role = s.role) (hd : s'.decls = s.decls) :
    Stands { c with sessions := c.sessions.insert u s' } := by
  have hview : Core.view { c with sessions := c.sessions.insert u s' } = c.view := by
    rw [view_insert (d := (.token, 0)) (x := s.decls.lookup (.token, 0)) (n := c.tokens) hs hr]
    · rw [put₂_self (remote_of hs _)]
      by_cases hc : s.role = .client
      · rw [if_pos hc, put₂_self ((clients_of hs _).trans (if_pos hc))]
        rfl
      · rw [if_neg hc]
        rfl
    · intro d'
      rw [hd]
      split_ifs with he
      · rw [he]
      · rfl
    · intro key
      rw [Sess.tokens, Sess.tokens, hd]
  refine ⟨h.router, ?_, peers_insert h.peers hs hp, ?_⟩
  · rw [hview]
    exact ⟨h.index.tok, h.index.subs, h.index.passes⟩
  · exact fun v hv => h.uids v ((mem_insert_session hs s' v).1 hv)

theorem Stands.remoteDeclare (h : c.Stands) (hs : c.sessions.lookup u = some s) {k : DeclKind}
    {i : Nat} (hnew : s.decls.lookup (k, i) = none) (e : String) :
    (c.remoteDeclare u s k i e).Stands := by
  let s' : Sess := { s with decls := s.decls.insert (k, i) e }
  let c₁ : Core := { c with sessions := c.sessions.insert u s' }
  have hview : c₁.view = { c.view with
      remote := put₂ c.remote u (k, i) (some e)
      south := if s.role = .client then put₂ c.clients u (k, i) (some e) else c.clients
      tokens := fun key => c.tokens key + k.tokens e key } := by
    refine view_insert (d := (k, i)) (x := some e) hs (show s'.role = s.role from rfl)
      (fun d' => Map.lookup_insert_if _ _ _ _) fun key => ?_
    have htotal : s'.tokens key = k.tokens e key + s.tokens key := Map.total_insert_new hnew e _
    rw [htotal]
    omega
  have hindex : Index c.view c₁ := ⟨h.index.tok, h.index.subs, h.index.passes⟩
  have hlist := hindex.enlist u k i e
  obtain ⟨tok, subs, l, hc₂⟩ := c₁.enlist_eq u k i e
  rw [remoteDeclare_eq h.router hnew]
  show Stands (if s.role = .client then (c₁.enlist u k i e).passOn u k i e else c₁.enlist u k i e)
  have huids : ∀ v ∈ c₁.sessions, v < c.nextUid :=
    fun v hv => h.uids v ((mem_insert_session hs s' v).1 hv)
  by_cases hr : s.role = .client
  · rw [if_pos hr] at hview ⊢
    have hpass := hlist.passOn (k := k) (i := i) (u := u) (by
      show c.clients u (k, i) = none
      rw [clients_of hs, if_pos hr, hnew]) e
    obtain ⟨l', hc₃⟩ := (c₁.enlist u k i e).passOn_eq u k i e
    rw [hc₃, hc₂] at hpass ⊢
    refine ⟨h.router, ?_, peers_insert h.peers hs rfl, huids⟩
    show Index c₁.view _
    rw [hview]
    exact hpass
  · rw [if_neg hr] at hview ⊢
    rw [hc₂] at hlist ⊢
    refine ⟨h.router, ?_, peers_insert h.peers hs rfl, huids⟩
    show Index c₁.view _
    rw [hview]
    exact hlist

theorem Stands.remoteUndeclare (h : c.Stands) (hs : c.sessions.lookup u = some s) (k : DeclKind)
    (i : Nat) : (c.remoteUndeclare u s k i).Stands := by
  rw [Core.remoteUndeclare]
  cases he : s.decls.lookup (k, i) with
  | none => exact h
  | some e =>
    let s' : Sess := { s with decls := s.decls.erase (k, i) }
    let c₁ : Core := { c with sessions := c.sessions.insert u s' }
    have hs' : c₁.sessions.lookup u = some s' := AList.lookup_insert _
    have htotal : ∀ key, s.tokens key = k.tokens e key + s'.tokens key :=
      fun key => Map.total_erase he _
    have hsess : ∀ key, Map.total (fun _ s => s.tokens key) c₁.sessions + s.tokens key =
        Map.total (fun _ s => s.tokens key) c.sessions + s'.tokens key :=
      fun key => Map.total_insert hs s' _
    have htokens : ∀ key, c.tokens key = c₁.tokens key + k.tokens e key := by
      intro key
      have hkey := htotal key
      have hkey' := hsess key
      have hlocal : c₁.lTokens = c.lTokens := rfl
      rw [tokens, tokens, hlocal]
      omega
    have hsouth : (if s.role = .client then put₂ c.clients u (k, i) none else c.clients) =
        put₂ c.clients u (k, i) none := by
      split_ifs with hr
      · rfl
      · exact (put₂_self ((clients_of hs _).trans (if_neg hr))).symm
    have hview : c₁.view = c.view.drop u (k, i) c₁.tokens := by
      refine (view_insert (d := (k, i)) (x := none) (n := c₁.tokens) hs
        (show s'.role = s.role from rfl) (fun d' => Map.lookup_erase_if _ _ _) fun key => ?_).trans ?_
      · have hkey := htokens key
        have hkey' := htotal key
        omega
      · rw [hsouth]
        rfl
    have hindex : Index c.view c₁ := ⟨h.index.tok, h.index.subs, h.index.passes⟩
    have hdrop := hindex.closeDecl (u := u) (k := k) (i := i) (e := e) htokens false
    obtain ⟨tok, subs, out, south, l, hc₂⟩ := closeDecl_eq u (c₁, false) ⟨(k, i), e⟩
    show Stands (closeDecl u (c₁, false) ⟨(k, i), e⟩).1
    rw [← hview] at hdrop
    rw [hc₂] at hdrop ⊢
    exact ⟨h.router, hdrop, peers_insert h.peers hs rfl,
      fun v hv => h.uids v ((mem_insert_session hs s' v).1 hv)⟩

/-! ## Sessions come and go -/

theorem peers_leave (h : c.Stands) (hs : c.sessions.lookup u = some s) (reason : CloseReason)
    (n : String) (v : Nat) : (c.leave u s reason).byPeer.lookup n = some v ↔
      ∃ s', (c.leave u s reason).sessions.lookup v = some s' ∧ s'.peer = n := by
  have hu : c.byPeer.lookup s.peer = some u := (h.peers _ _).2 ⟨s, hs, rfl⟩
  have hpeer : (c.leave u s reason).byPeer = c.byPeer.erase s.peer := if_pos hu
  have hrest : (c.leave u s reason).sessions = c.sessions.erase u := rfl
  rw [hpeer, hrest, Map.lookup_erase_if, Map.lookup_erase_if]
  by_cases hn : n = s.peer
  · rw [if_pos hn]
    refine ⟨nofun, ?_⟩
    intro hex
    obtain ⟨s', hs', hp⟩ := hex
    split_ifs at hs' with hv
    have hv' : c.byPeer.lookup s.peer = some v := (h.peers _ _).2 ⟨s', hs', hp.trans hn⟩
    exact absurd (Option.some.inj (hv'.symm.trans hu)) hv
  · rw [if_neg hn, h.peers]
    by_cases hv : v = u
    · subst hv
      simp [hs, Ne.symm hn]
    · rw [if_neg hv]

/-- The tokens of a session that leaves. -/
theorem tokens_leave (hs : c.sessions.lookup u = some s) (o : Told) (reason : CloseReason)
    (key : String) : c.tokens key =
      (c.leave u s reason).tokens key + tokensOf ((o.decls u).run s.decls.entries) key := by
  have hsum : tokensOf ((o.decls u).run s.decls.entries) key = s.tokens key :=
    (((o.decls u).perm s.decls.entries).map _).sum_eq
  have htotal := Map.total_erase hs fun _ s => s.tokens key
  have hlocal : (c.leave u s reason).lTokens = c.lTokens := rfl
  have hrest : (c.leave u s reason).sessions = c.sessions.erase u := rfl
  rw [hsum, tokens, tokens, hlocal, hrest]
  omega

theorem Stands.leave (h : c.Stands) (hs : c.sessions.lookup u = some s) (o : Told)
    (reason : CloseReason) : ((c.leave u s reason).dropDecls o u s).Stands := by
  let c₁ := c.leave u s reason
  let ds := (o.decls u).run s.decls.entries
  have hperm : ds.Perm s.decls.entries := (o.decls u).perm _
  have hds : ∀ d, d ∉ ds.keys → s.decls.lookup d = none := by
    intro d hd
    rw [List.keys, (hperm.map _).mem_iff] at hd
    exact AList.lookup_eq_none.2 hd
  have hview : c₁.view = c.view.dropAll u ds.keys c₁.tokens := by
    show View.mk c₁.own c₁.remote c₁.clients c₁.tokens = _
    rw [View.dropAll, View.mk.injEq]
    refine ⟨rfl, ?_, ?_, rfl⟩
    · funext v d
      show ((c.sessions.erase u).lookup v).bind _ = if v = u ∧ d ∈ ds.keys then none else c.remote v d
      by_cases hv : v = u
      · subst hv
        rw [AList.lookup_erase, remote_of hs]
        split_ifs with hd
        · rfl
        · exact (hds d fun hmem => hd ⟨rfl, hmem⟩).symm
      · rw [AList.lookup_erase_ne hv, if_neg fun hc => hv hc.1]
        rfl
    · funext v d
      show (((c.sessions.erase u).lookup v).filter _).bind _ =
        if v = u ∧ d ∈ ds.keys then none else c.clients v d
      by_cases hv : v = u
      · subst hv
        rw [AList.lookup_erase, clients_of hs]
        split_ifs with hd hr
        · rfl
        · exact (hds d fun hmem => hd ⟨rfl, hmem⟩).symm
        · rfl
      · rw [AList.lookup_erase_ne hv, if_neg fun hc => hv hc.1]
        rfl
  have hindex : Index c.view c₁ := ⟨h.index.tok, h.index.subs, h.index.passes⟩
  have hdrop := hindex.closeDecls (u := u) ds (tokens_leave hs o reason) false
  obtain ⟨tok, subs, out, south, l, hc₂⟩ := closeDecls_eq u ds (c₁, false)
  rw [← hview] at hdrop
  have hstands : (ds.foldl (closeDecl u) (c₁, false)).1.Stands := by
    rw [hc₂] at hdrop ⊢
    exact ⟨h.router, hdrop, peers_leave h hs reason, fun v hv => h.uids v (AList.mem_erase.1 hv).2⟩
  show Stands (if (ds.foldl (closeDecl u) (c₁, false)).1.router then _ else _)
  rw [if_pos hstands.router]
  split_ifs
  · exact hstands.moves (batchEnd_moves _)
  · exact hstands

theorem Stands.close (h : c.Stands) (o : Told) (u : Nat) (reason : CloseReason) :
    (c.close o u reason).Stands := by
  cases hs : c.sessions.lookup u with
  | none =>
    have hsame : c.close o u reason = c := by simp [Core.close, hs]
    rw [hsame]
    exact h
  | some s =>
    have hu : u ∉ (c.leave u s reason).sessions := by simp [Core.leave]
    have hdecls := (c.leave u s reason).dropDecls_works o u s
    have hm := (dropQueries_moves (o := o) fun hmem => hu (hdecls.sessions u hmem)).1
    rw [close_eq hs]
    exact ((h.leave hs o reason).moves hm).moves (tellLeft_moves _ s)

theorem Stands.closeAll (h : c.Stands) (o : Told) (reason : CloseReason) (us : List Nat) :
    (c.closeAll o reason us).Stands := by
  induction us generalizing c with
  | nil => exact h
  | cons u us ih => exact ih (h.close o u reason)

/-- What a close may change. -/
theorem close_frame (hs : c.sessions.lookup u = some s) (o : Told) (reason : CloseReason) :
    ∃ tok subs out south ts m l, c.close o u reason = { c with
      sessions := c.sessions.erase u
      byPeer := if c.byPeer.lookup s.peer = some u then c.byPeer.erase s.peer else c.byPeer
      tok := tok, subs := subs, out := out, south := south, lTsubs := ts, pending := m
      fx := l } := by
  have hu : u ∉ (c.leave u s reason).sessions := by simp [Core.leave]
  have hwork := (c.leave u s reason).dropDecls_works o u s
  have hdecls : ∃ tok subs out south ts l, (c.leave u s reason).dropDecls o u s =
      { c.leave u s reason with
        tok := tok, subs := subs, out := out, south := south, lTsubs := ts, fx := l } := by
    obtain ⟨tok, subs, out, south, l, hc⟩ :=
      closeDecls_eq u ((o.decls u).run s.decls.entries) (c.leave u s reason, false)
    rw [dropDecls]
    simp only [hc]
    split
    · split
      · exact ⟨_, _, _, _, _, _, rfl⟩
      · exact ⟨_, _, _, _, _, _, rfl⟩
    · exact ⟨_, _, _, _, _, _, rfl⟩
  obtain ⟨tok, subs, out, south, ts, l, hc⟩ := hdecls
  obtain ⟨m, l', hq⟩ := (dropQueries_moves (o := o) fun hmem => hu (hwork.sessions u hmem)).1.frame
  obtain ⟨m', l'', ht⟩ := (tellLeft_moves (((c.leave u s reason).dropDecls o u s).dropQueries o u)
    s).frame
  refine ⟨tok, subs, out, south, ts, m', l'', ?_⟩
  rw [close_eq hs, ht, hq, hc]
  rfl

/-- After a close the peer has no session. -/
theorem Stands.close_peer (h : c.Stands) {n : String} (hu : c.byPeer.lookup n = some u) (o : Told)
    (reason : CloseReason) : (c.close o u reason).byPeer.lookup n = none := by
  obtain ⟨s, hs, hp⟩ := (h.peers n u).1 hu
  obtain ⟨tok, subs, out, south, ts, m, l, hc⟩ := close_frame hs o reason
  rw [hc]
  show (if c.byPeer.lookup s.peer = some u then c.byPeer.erase s.peer else c.byPeer).lookup n = none
  rw [hp, if_pos hu, AList.lookup_erase]

/-- A session is installed for a peer that has none. -/
theorem Stands.install (h : c.Stands) {hello : Hello} (hnone : c.byPeer.lookup hello.node = none)
    (o : Told) (stream : Nat) (dialer : String) (boot sno : Nat) :
    (c.install o stream hello dialer boot sno).Stands := by
  let c₁ := c.enter stream hello dialer boot sno
  have hnew : c.sessions.lookup c.nextUid = none := by
    by_contra hne
    obtain ⟨s, hs⟩ := Option.ne_none_iff_exists'.1 hne
    exact lt_irrefl _ (h.uids _ (Map.mem_iff_lookup.2 ⟨s, hs⟩))
  have hview : c₁.view = c.view := by
    show View.mk c₁.own c₁.remote c₁.clients c₁.tokens = _
    rw [view, View.mk.injEq]
    have hlook : ∀ v, c₁.sessions.lookup v = if v = c.nextUid then some
        { peer := hello.node, role := hello.role, dialer, boot, sno, adv := hello.adv, stream
          peers := hello.peers } else c.sessions.lookup v := fun v => Map.lookup_insert_if _ _ _ _
    refine ⟨rfl, ?_, ?_, ?_⟩
    · funext v d
      rw [remote, remote, hlook]
      split_ifs with hv
      · rw [hv, hnew]
        exact AList.lookup_empty d
      · rfl
    · funext v d
      rw [clients, clients, hlook]
      split_ifs with hv
      · rw [hv, hnew, Option.filter_some]
        split_ifs
        · exact AList.lookup_empty d
        · rfl
      · rfl
    · funext key
      have htotal : Map.total (fun _ s => s.tokens key) c₁.sessions =
          0 + Map.total (fun _ s => s.tokens key) c.sessions := Map.total_insert_new hnew _ _
      have hlocal : c₁.lTokens = c.lTokens := rfl
      rw [tokens, tokens, htotal, hlocal, Nat.zero_add]
  have hstands : c₁.Stands := by
    refine ⟨h.router, ?_, ?_, ?_⟩
    · rw [hview]
      exact ⟨h.index.tok, h.index.subs, h.index.passes⟩
    · intro n v
      show (c.byPeer.insert hello.node c.nextUid).lookup n = some v ↔
        ∃ s, (c.sessions.insert c.nextUid _).lookup v = some s ∧ s.peer = n
      rw [Map.lookup_insert_if, Map.lookup_insert_if]
      by_cases hv : v = c.nextUid
      · subst hv
        by_cases hn : n = hello.node
        · simp [hn]
        · have hnot : c.byPeer.lookup n ≠ some c.nextUid := by
            intro hl
            obtain ⟨s, hs, -⟩ := (h.peers _ _).1 hl
            exact absurd (hnew.symm.trans hs) nofun
          simp [hn, Ne.symm hn, hnot]
      · by_cases hn : n = hello.node
        · have hnot : ¬ ∃ s, c.sessions.lookup v = some s ∧ s.peer = n := by
            rw [← h.peers, hn, hnone]
            exact nofun
          rw [if_pos hn, if_neg hv]
          exact iff_of_false (fun he => hv (Option.some.inj he).symm) hnot
        · rw [if_neg hn, if_neg hv, h.peers]
    · intro v hv
      rcases (AList.mem_insert _).1 hv with rfl | hv
      · exact Nat.lt_succ_self _
      · exact (h.uids v hv).trans (Nat.lt_succ_self _)
  rw [install_eq]
  obtain ⟨l, hl⟩ := c₁.greet_eq o c.nextUid hello.role
  show Stands (c₁.greet o c.nextUid hello.role)
  rw [hl]
  exact ⟨hstands.router, ⟨hstands.index.tok, hstands.index.subs, hstands.index.passes⟩,
    hstands.peers, hstands.uids⟩

/-! ## Declarations of the own process -/

theorem stores_lookup (k k' : DeclKind) (m : Map Nat String) (id : Nat) (e : String) (i : Nat) :
    (k.stores k' m id e).lookup i = if k' = k ∧ i = id then some e else m.lookup i := by
  rw [DeclKind.stores]
  by_cases hk : k = k'
  · rw [if_pos hk, Map.lookup_insert_if]
    simp [hk]
  · rw [if_neg hk, if_neg fun h => hk h.1.symm]

theorem forgets_lookup (k k' : DeclKind) (m : Map Nat String) (id : Nat) (i : Nat) :
    (k.forgets k' m id).lookup i = if k' = k ∧ i = id then none else m.lookup i := by
  rw [DeclKind.forgets]
  by_cases hk : k = k'
  · rw [if_pos hk, Map.lookup_erase_if]
    simp [hk]
  · rw [if_neg hk, if_neg fun h => hk h.1.symm]

theorem total_stores {k : DeclKind} {m : Map Nat String} {id : Nat} (h : m.lookup id = none)
    (e key : String) : Map.total (fun _ e => oneOf e key) (k.stores .token m id e) =
      Map.total (fun _ e => oneOf e key) m + k.tokens e key := by
  rw [DeclKind.stores, DeclKind.tokens]
  split_ifs
  · rw [Map.total_insert_new h, Nat.add_comm]
  · rfl

theorem total_forgets {k : DeclKind} {m : Map Nat String} {id : Nat} {e : String}
    (h : k = .token → m.lookup id = some e) (key : String) :
    Map.total (fun _ e => oneOf e key) m =
      Map.total (fun _ e => oneOf e key) (k.forgets .token m id) + k.tokens e key := by
  rw [DeclKind.forgets, DeclKind.tokens]
  split_ifs with hk
  · rw [Map.total_erase (h hk), Nat.add_comm]
  · rfl

theorem Stands.declareLocal (h : c.Stands) (o : Told) (k : DeclKind) (e : String) :
    (c.declareLocal o k e).Stands := by
  have hindex := h.index.declareLocal h.router o k e
  have hnew : c.lTokens.lookup c.nextId = none := (h.index.passes.fresh c.nextId le_rfl).1 .token
  obtain ⟨l, hl⟩ := declareLocal_eq h.router o k e
  rw [hl] at hindex ⊢
  refine ⟨h.router, ?_, h.peers, h.uids⟩
  convert hindex using 1
  rw [view, View.mk.injEq]
  refine ⟨?_, rfl, rfl, ?_⟩
  · funext k' i
    cases k' <;> exact stores_lookup _ _ _ _ _ _
  · funext key
    show Map.total _ (k.stores .token c.lTokens c.nextId e) +
      Map.total (fun _ s => s.tokens key) c.sessions = c.tokens key + k.tokens e key
    rw [tokens, total_stores hnew e key]
    omega

theorem Stands.undeclareLocal (h : c.Stands) (o : Told) (k : DeclKind) (id : Nat) :
    (c.undeclareLocal o k id).Stands := by
  cases hid : c.own k id with
  | none =>
    rw [h.index.undeclareLocal_none o hid]
    exact h
  | some e =>
    obtain ⟨l, hl⟩ := undeclareLocal_eq h.router o hid
    have htoken : k = .token → c.lTokens.lookup id = some e := by
      intro hk
      rw [hk] at hid
      exact hid
    have htotal := total_forgets htoken
    have hindex := h.index.undeclareLocal h.router o hid (n := fun key =>
        Map.total (fun _ e => oneOf e key) (k.forgets .token c.lTokens id) +
          Map.total (fun _ s => s.tokens key) c.sessions) fun key => by
      rw [tokens, htotal key]
      omega
    rw [hl] at hindex ⊢
    refine ⟨h.router, ?_, h.peers, h.uids⟩
    convert hindex using 1
    rw [view, View.mk.injEq]
    refine ⟨?_, rfl, rfl, rfl⟩
    funext k' i
    cases k' <;> exact forgets_lookup _ _ _ _ _

/-! ## Every event -/

theorem Stands.aside (h : c.Stands) (ha : Aside c c') : c'.Stands := by
  obtain ⟨n, sno, m, ts, d, k, l, rfl⟩ := ha.frame
  exact ⟨h.router, ⟨h.index.tok, h.index.subs, h.index.passes.mono ha.nextId⟩, h.peers, h.uids⟩

theorem Stands.routeGet (h : c.Stands) (o : Told) (origin : Origin) (expr : String)
    (payload : Payload) (timeoutMs : Nat) :
    (c.routeGet o origin expr payload timeoutMs).Stands := by
  have hbegin : (c.begin o origin expr timeoutMs).Stands :=
    ⟨h.router, ⟨h.index.tok, h.index.subs, h.index.passes.mono (Nat.le_succ _)⟩, h.peers, h.uids⟩
  exact hbegin.moves (c.routeGet_moves o origin expr payload timeoutMs).1

theorem Stands.fence (h : c.Stands) (o : Told) : (c.fence o).Stands :=
  (h.closeAll o .fenced _).aside (.own _ le_rfl _ _ _ _)

theorem Stands.onTick (h : c.Stands) (o : Told) (gap : Nat) : (c.onTick o gap).Stands := by
  rw [Core.onTick]
  split
  · exact h.fence o
  · have hclosed := h.closeAll o .expired ((o.uids.run c.sessions.keys).filter o.silent)
    exact hclosed.aside ((finishAll_aside _ o _).trans (dialWanted_aside _ o))

/-- A session declares nothing that it has already declared. -/
def Fresh (c : Core) : Ev → Prop
  | .msg uid (.declare k id _) => ∀ s ∈ c.sessions.lookup uid, (k, id) ∉ s.decls
  | _ => True

instance (c : Core) (e : Ev) : Decidable (c.Fresh e) := by
  unfold Fresh
  split <;> infer_instance

theorem Stands.onMsg (h : c.Stands) {m : Msg} (hf : c.Fresh (.msg u m)) (o : Told) :
    (c.onMsg o u m).Stands := by
  rw [Core.onMsg]
  cases hs : c.sessions.lookup u with
  | none => exact h
  | some s =>
    cases m with
    | close r => exact h.close o u r
    | hello | keepAlive | declareDone => exact h
    | declare k id e => exact h.remoteDeclare hs (AList.lookup_eq_none.2 (hf s hs)) e
    | undeclare k id => exact h.remoteUndeclare hs k id
    | tokenSub id expr history =>
      simp only
      split
      · let s' : Sess := { s with tsubs := s.tsubs.insert id expr }
        have hset : Stands { c with sessions := c.sessions.insert u s' } := h.session hs rfl rfl rfl
        refine hset.moves (emits_moves _ ?_)
        split
        · refine List.forall_mem_append.2 ⟨List.forall_mem_map.2 fun _ _ => ⟨rfl, rfl⟩, ?_⟩
          exact List.forall_mem_singleton.2 ⟨rfl, rfl⟩
        · exact fun x hx => absurd hx List.not_mem_nil
      · exact h
    | tokenUnsub id => exact h.session hs rfl rfl rfl
    | tokenEvt id kind key => exact h.aside (c.onTokenEvt_aside id kind key)
    | peers list =>
      have hknown : (c.learn list).Stands := h.aside (.own c le_rfl _ _ _ _)
      exact hknown.session hs rfl rfl rfl
    | put key payload => exact h.aside (c.routePut_aside o _ key payload)
    | request qid expr payload timeoutMs => exact h.routeGet o _ expr payload timeoutMs
    | reply q key ok payload =>
      simp only
      split_ifs with ht
      · exact h.aside (forwardReply_aside ht _ _ _)
      · exact h
    | final q => exact h.moves (c.targetDone_moves o q _)

theorem Stands.onCmd (h : c.Stands) (o : Told) {cmd : Cmd} (hc : cmd ≠ .close) :
    (c.onCmd o cmd).Stands := by
  cases cmd with
  | declareToken key => exact h.declareLocal o .token key
  | subscribe expr => exact h.declareLocal o .sub expr
  | queryable expr => exact h.declareLocal o .qabl expr
  | tokenSub expr history => exact h.aside (c.tokenSub_aside o expr history)
  | undeclare k id => exact h.undeclareLocal o k id
  | tokenUnsub id => exact h.aside (c.tokenUnsub_aside o id)
  | put key payload => exact h.aside (c.routePut_aside o none key payload)
  | get expr payload timeoutMs tx => exact h.routeGet o _ expr payload _
  | localReply q qabl key ok payload =>
    simp only [Core.onCmd]
    split_ifs with ht
    · exact h.aside (forwardReply_aside ht _ _ _)
    · exact h
  | localFinal q qabl => exact h.moves (c.targetDone_moves o q _)
  | close => exact absurd rfl hc

theorem Stands.onAccepted (h : c.Stands) (o : Told) (stream : Nat) (hello : Hello) :
    (c.onAccepted o stream hello).Stands := by
  rw [Core.onAccepted]
  split
  · exact h
  · have hhello : (c.emit (.direct stream (.hello (c.myHello hello.sno)))).Stands :=
      h.moves (emits_moves c (List.forall_mem_singleton.2 ⟨rfl, rfl⟩))
    generalize c.emit (.direct stream (.hello (c.myHello hello.sno))) = c' at hhello ⊢
    simp only
    cases c'.acceptVerdict hello with
    | some r => exact hhello.moves (emits_moves c' (List.forall_mem_singleton.2 ⟨rfl, rfl⟩))
    | none =>
      simp only
      cases hn : c'.byPeer.lookup hello.node with
      | none => exact hhello.install hn o stream hello.node hello.boot hello.sno
      | some u =>
        exact (hhello.close o u _).install (hhello.close_peer hn o _) o stream _ _ _

theorem Stands.onDialed (h : c.Stands) (o : Told) (target : String) (sno : Nat)
    (res : Option (Nat × Hello)) : (c.onDialed o target sno res).Stands := by
  rw [Core.onDialed]
  cases c.dials.lookup target with
  | none => exact h
  | some d =>
    cases res with
    | none => exact h.aside (.own c le_rfl _ _ _ _)
    | some x =>
      obtain ⟨stream, hello⟩ := x
      have hdial : Stands { c with dials := c.dials.insert target { d with
          busy := false, backoff := backoffMin, next := o.now + backoffMin
          node := some hello.node } } := h.aside (.own c le_rfl _ _ _ _)
      simp only
      split
      · exact hdial.moves (emits_moves _ (List.forall_mem_singleton.2 ⟨rfl, rfl⟩))
      · cases hn : c.byPeer.lookup hello.node with
        | none => exact hdial.install hn o stream _ _ _
        | some u =>
          simp only
          split
          · exact hdial.moves (emits_moves _ (List.forall_mem_singleton.2 ⟨rfl, rfl⟩))
          · exact (hdial.close o u _).install (hdial.close_peer hn o _) o stream _ _ _

theorem Stands.onEv (h : c.Stands) (o : Told) {e : Ev} (hf : c.Fresh e) (he : e ≠ .cmd .close) :
    (c.onEv o e).Stands := by
  cases e with
  | cmd cmd => exact h.onCmd o fun hc => he (by rw [hc])
  | msg uid m => exact h.onMsg hf o
  | closed uid reason => exact h.close o uid reason
  | paused => exact h.fence o
  | tick gap => exact h.onTick o gap
  | accepted stream hello => exact h.onAccepted o stream hello
  | dialed target sno res => exact h.onDialed o target sno res

/-! ## Every run -/

theorem Index.empty {v : View} {c : Core} (hv : v = ⟨fun _ _ => none, fun _ _ => none,
      fun _ _ => none, fun _ => 0⟩) (htok : c.tok = ∅) (hsubs : c.subs = {}) (hout : c.out = ∅)
    (hsouth : c.south = ∅) : Index v c := by
  subst hv
  refine ⟨fun key => ?_, ?_, ?_⟩
  · rw [htok]
    exact AList.lookup_empty key
  · have hwants : ∀ k, View.wants ⟨fun _ _ => none, fun _ _ => none, fun _ _ => none, fun _ => 0⟩ k =
        none := by
      rintro ⟨w, id⟩
      cases w with
      | loc i => exact ite_self _
      | sess u => rfl
    rw [hsubs]
    refine ⟨fun k => (AList.lookup_empty k).trans (hwants k).symm, fun e k => ?_, fun k => ?_,
      fun e he => absurd ((AList.lookup_empty e).symm.trans he) nofun⟩
    · simp [hwants]
    · simp [hwants]
  · rw [hout, hsouth]
    have hnone : ∀ x id, (∅ : Map (Nat × DeclKind × Nat) Nat).lookup x ≠ some id :=
      fun x id hx => absurd ((AList.lookup_empty x).symm.trans hx) nofun
    refine ⟨fun u d => ?_, fun id k e => ?_, fun x y id hx => absurd hx (hnone x id),
      fun x id k hx => absurd hx (hnone x id), fun id k k' hk => absurd rfl hk,
      fun id _ => ⟨fun _ => rfl, fun x => hnone x id⟩⟩
    · simp
    · simp

theorem stands_new (node : String) (leaseMs boot : Nat) (adv : Option String)
    (seeds : List String) : (Core.new node true leaseMs boot adv seeds).Stands := by
  refine ⟨rfl, Index.empty ?_ rfl rfl rfl rfl, fun n u => ?_,
    fun u hu => absurd hu (AList.notMem_empty u)⟩
  · rw [view, View.mk.injEq]
    refine ⟨?_, ?_, ?_, rfl⟩
    · funext k id
      cases k <;> exact AList.lookup_empty id
    · funext u d
      show ((∅ : Map Nat Sess).lookup u).bind _ = none
      rw [AList.lookup_empty]
      rfl
    · funext u d
      show (((∅ : Map Nat Sess).lookup u).filter _).bind _ = none
      rw [AList.lookup_empty]
      rfl
  · show (∅ : Map String Nat).lookup n = some u ↔
      ∃ s, (∅ : Map Nat Sess).lookup u = some s ∧ s.peer = n
    simp

/-- The books of a router: what it has in several places agrees. -/
structure Books (c : Core) : Prop where
  /-- Every key has the number of its tokens here and on the sessions. -/
  tok : ∀ key, c.tok.lookup key = if c.tokens key = 0 then none else some (c.tokens key)
  /-- The subscriptions are those of the own process and of the sessions. -/
  subs_own : ∀ i id, c.subs.exprs.lookup (.loc i, id) = if i = id then c.lSubs.lookup id else none
  subs_sess : ∀ u id, c.subs.exprs.lookup (.sess u, id) =
    (c.sessions.lookup u).bind fun s => s.decls.lookup (.sub, id)
  /-- The index finds the subscriptions whose expression matches. -/
  matching : ∀ key k, k ∈ c.subs.matching key ↔ ∃ e, c.subs.exprs.lookup k = some e ∧
    if concrete e then e = key else intersects e key
  /-- What is passed on is what the own process and the clients have declared. -/
  out : ∀ id k e, c.out.lookup id = some (k, e) ↔ c.own k id = some e ∨
    ∃ u s i, c.sessions.lookup u = some s ∧ s.role = .client ∧ s.decls.lookup (k, i) = some e ∧
      c.south.lookup (u, k, i) = some id
  /-- Each declaration of a client has an id of its own for that. -/
  south : ∀ u d, (∃ id, c.south.lookup (u, d) = some id) ↔
    ∃ s e, c.sessions.lookup u = some s ∧ s.role = .client ∧ s.decls.lookup d = some e
  apart : ∀ x id, c.south.lookup x = some id →
    (∀ y, c.south.lookup y = some id → x = y) ∧ ∀ k, c.own k id = none
  /-- The sessions and their peers. -/
  peers : ∀ n u, c.byPeer.lookup n = some u ↔ ∃ s, c.sessions.lookup u = some s ∧ s.peer = n
  /-- Queries are of and for sessions that are there. -/
  pending : ∀ q p, c.pending.lookup q = some p →
    (∀ u, Origin.src p.origin = some u → u ∈ c.sessions) ∧ ∀ u, .sess u ∈ p.targets → u ∈ c.sessions

theorem clients_eq_some {d : DeclKind × Nat} {e : String} : c.clients u d = some e ↔
    ∃ s, c.sessions.lookup u = some s ∧ s.role = .client ∧ s.decls.lookup d = some e := by
  cases hs : c.sessions.lookup u with
  | none => simp [clients, hs]
  | some s =>
    rw [clients_of hs]
    simp

theorem matching_iff {x : SubIndex} {want : Owner × Nat → Option String} (h : x.Holds want)
    (key : String) (k : Owner × Nat) : k ∈ x.matching key ↔
      ∃ e, x.exprs.lookup k = some e ∧ if concrete e then e = key else intersects e key := by
  rw [SubIndex.matching, List.mem_append, h.exact, List.mem_filter, h.wild, h.exprs]
  constructor
  · rintro (⟨hc, hk⟩ | ⟨⟨e, hk, hc⟩, hi⟩)
    · exact ⟨key, hk, by simp [hc]⟩
    · exact ⟨e, hk, by simpa [hc, hk] using hi⟩
  · rintro ⟨e, hk, hi⟩
    by_cases hc : concrete e
    · rw [if_pos hc] at hi
      subst hi
      exact .inl ⟨hc, hk⟩
    · rw [if_neg hc] at hi
      exact .inr ⟨⟨e, hk, hc⟩, by simpa [hk] using hi⟩

theorem Stands.books (h : c.Stands) {l : List (Nat × Target × Nat)} (hq : c.Queries l) :
    c.Books where
  tok := h.index.tok
  subs_own i id := h.index.subs.exprs (.loc i, id)
  subs_sess u id := h.index.subs.exprs (.sess u, id)
  matching := matching_iff h.index.subs
  out := by
    intro id k e
    refine (h.index.passes.entries id k e).trans (or_congr_right ?_)
    show (∃ u i, c.south.lookup (u, k, i) = some id ∧ c.clients u (k, i) = some e) ↔ _
    simp only [clients_eq_some]
    constructor
    · rintro ⟨u, i, hs, s, hu, hr, hd⟩
      exact ⟨u, s, i, hu, hr, hd, hs⟩
    · rintro ⟨u, s, i, hu, hr, hd, hs⟩
      exact ⟨u, i, hs, s, hu, hr, hd⟩
  south := by
    intro u d
    have hids := h.index.passes.ids u d
    rw [Option.isSome_iff_exists, Option.isSome_iff_exists] at hids
    refine hids.trans ?_
    show (∃ e, c.clients u d = some e) ↔ _
    simp only [clients_eq_some]
    exact exists_comm
  apart x id hx := ⟨fun y hy => h.index.passes.inj x y id hx hy,
    fun k => h.index.passes.apart x id k hx⟩
  peers := h.peers
  pending q p hp := ⟨(hq.waits q p hp).origin, (hq.waits q p hp).targets⟩

/-- **The books of a router agree**, while no session declares under an id that it uses already. The
ends of this mesh number their declarations, so they never do. -/
theorem books_kept (node : String) (leaseMs boot : Nat) (adv : Option String) (seeds : List String)
    {acts : List (Told × Ev)}
    (hrun : (machine.restrict fun c a => c.Fresh a.2).Legal
      (Core.new node true leaseMs boot adv seeds) acts)
    (hopen : (machine.exec (Core.new node true leaseMs boot adv seeds) acts).running = true) :
    (machine.exec (Core.new node true leaseMs boot adv seeds) acts).Books := by
  have hqueries := (queries_new node true leaseMs boot adv seeds).run
    ((Machine.restrict_legal _ _ _ _).1 hrun).1
  have hstands : (machine.exec (Core.new node true leaseMs boot adv seeds) acts).running = true →
      (machine.exec (Core.new node true leaseMs boot adv seeds) acts).Stands := by
    rw [← Machine.restrict_exec machine fun c a => c.Fresh a.2]
    refine Machine.invariant (I := fun c => c.running = true → c.Stands) ?_
      (fun _ => stands_new node leaseMs boot adv seeds) hrun
    intro c a hc hok hrun'
    by_cases he : a.2 = .cmd .close
    · have hclosed : (machine.next c a).running = false := by
        show (c.onEv a.1 a.2).running = false
        rw [he]
        rfl
      exact absurd (hclosed.symm.trans hrun') nofun
    · exact (hc hok.1).onEv a.1 hok.2 he
  rw [Machine.logged_exec_fst] at hqueries
  exact (hstands hopen).books hqueries

/-- A client declares a token that the router has too, another router a subscription, and the
client leaves. -/
def comingAndGoing : List (Told × Ev) :=
  let acts : List Ev :=
    [.cmd (.declareToken "t"), .accepted 0 { role := .client, node := "c", boot := 1, sno := 1 },
      .msg 1 (.declare .token 5 "t"), .accepted 1 { role := .router, node := "b", boot := 1, sno := 1 },
      .msg 2 (.declare .sub 3 "a/*"), .closed 1 .io]
  acts.map ({}, ·)

theorem books_kept_coming_and_going :
    (machine.exec (Core.new "r" true 400 1 none []) comingAndGoing).tok.lookup "t" = some 1 ∧
      (machine.exec (Core.new "r" true 400 1 none []) comingAndGoing).Books :=
  ⟨by decide, books_kept "r" 400 1 none [] (by decide) (by decide)⟩

end OxlensSfu.Mesh.Core
