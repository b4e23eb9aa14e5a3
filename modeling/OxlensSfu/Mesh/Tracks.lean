import OxlensSfu.Mesh.News
import OxlensSfu.Mesh.Talk

/-!
# A router tells of its tokens

Whatever a router does, its tokens change by some list of changes, and each subscription is told
those that match its expression, in this order (`Hears`). A subscription that is opened with
history is told of the tokens that are there.
-/

namespace OxlensSfu.Mesh.Core

/-- The subscription is there, or the session it would be on. -/
def Alive (c : Core) : Ear → Prop
  | .own id => id ∈ c.lTsubs
  | .far u _ => u ∈ c.sessions

/-- The subscriptions of `P` that stay are told of what happens to the tokens. -/
structure Hears (P : Ear → Prop) (c c' : Core) : Prop where
  router : c'.router = c.router
  keeps : ∀ a, P a → c'.Alive a → c'.listens a = c.listens a
  log : ∃ l cs, c'.fx = c.fx ++ l ∧ c'.toks = Change.replay c.toks cs ∧ ∀ a, P a →
    (∀ e, c'.listens a = some e → news a l = cs.filter (intersects e ·.elem)) ∧
      (c.listens a = none → news a l = [])

/-- And none comes. -/
structure Tracks (P : Ear → Prop) (c c' : Core) : Prop extends Hears P c c' where
  alive : ∀ a, P a → c'.Alive a → c.Alive a

variable {c c' c'' : Core} {P : Ear → Prop} {o : Told} {u : Nat} {s : Sess} {a : Ear}

theorem listens_none (h : ¬ c.Alive a) : c.listens a = none := by
  cases a with
  | own id => rw [listens, AList.lookup_eq_none.2 h, Option.map_none]
  | far u id => rw [listens, AList.lookup_eq_none.2 h, Option.map_none, Option.bind_none]

theorem alive_of_listens {e : String} (h : c.listens a = some e) : c.Alive a := by
  by_contra hn
  exact absurd (h.symm.trans (listens_none hn)) nofun

theorem alive_own {id : Nat} (h : c.Alive (.own id)) : ∃ e, c.listens (.own id) = some e := by
  obtain ⟨t, ht⟩ := Map.mem_iff_lookup.1 h
  exact ⟨t.expr, by rw [listens, ht, Option.map_some]⟩

theorem Still.alive (h : Still c c') (a : Ear) : c'.Alive a ↔ c.Alive a := by
  cases a with
  | own id => rw [Alive, Alive, h.lTsubs]
  | far u id => exact h.mem u

theorem Still.tracks (h : Still c c') : Tracks P c c' := by
  obtain ⟨l, hl, hplain⟩ := h.fx
  refine ⟨⟨h.router, fun a _ _ => by rw [h.listens], l, [], hl, ?_, fun a _ =>
    ⟨fun _ _ => news_plain hplain a, fun _ => news_plain hplain a⟩⟩, fun a _ => (h.alive a).1⟩
  rw [toks, toks, h.tok, Change.replay_nil]

theorem Tracks.refl (c : Core) : Tracks P c c := (Still.refl c).tracks

theorem Tracks.trans (h : Tracks P c c') (h' : Tracks P c' c'') : Tracks P c c'' := by
  obtain ⟨l, cs, hl, hcs, hnews⟩ := h.log
  obtain ⟨l', cs', hl', hcs', hnews'⟩ := h'.log
  have hkeeps : ∀ a, P a → c''.Alive a → c''.listens a = c.listens a := fun a ha halive =>
    (h'.keeps a ha halive).trans (h.keeps a ha (h'.alive a ha halive))
  refine ⟨⟨h'.router.trans h.router, hkeeps, l ++ l', cs ++ cs', ?_, ?_, fun a ha => ?_⟩,
    fun a ha halive => h.alive a ha (h'.alive a ha halive)⟩
  · rw [hl', hl, List.append_assoc]
  · rw [hcs', hcs, Change.replay_append]
  · rw [news_append]
    constructor
    · intro e he
      have hbefore := (h'.keeps a ha (alive_of_listens he)).symm.trans he
      rw [(hnews a ha).1 e hbefore, (hnews' a ha).1 e he, List.filter_append]
    · intro hnone
      have hstill : c'.listens a = none := by
        by_cases halive : c'.Alive a
        · rw [h.keeps a ha halive, hnone]
        · exact listens_none halive
      rw [(hnews a ha).2 hnone, (hnews' a ha).2 hstill, List.append_nil]

theorem Tracks.mono {Q : Ear → Prop} (h : Tracks P c c') (hQ : ∀ a, Q a → P a) :
    Tracks Q c c' := by
  obtain ⟨l, cs, hl, hcs, hnews⟩ := h.log
  exact ⟨⟨h.router, fun a ha => h.keeps a (hQ a ha), l, cs, hl, hcs, fun a ha => hnews a (hQ a ha)⟩,
    fun a ha => h.alive a (hQ a ha)⟩

theorem Tracks.foldl {α : Type} {f : Core → α → Core} (hf : ∀ c x, Tracks P c (f c x))
    (l : List α) (c : Core) : Tracks P c (l.foldl f c) := by
  induction l generalizing c with
  | nil => exact .refl c
  | cons x l ih => exact (hf c x).trans (ih (f c x))

/-! ## Tokens -/

theorem mem_toks {key : String} : key ∈ c.toks ↔ key ∈ c.tok := by
  rw [toks, List.mem_toFinset, AList.mem_keys]

/-- The tokens change, and everybody is told. -/
theorem notify_tracks {kind : TokenEvtKind} {key : String} {d : Change String}
    (hkind : kind.change key = some d) (hd : d.elem = key) (hr : c'.router = c.router)
    (ht : c'.toks = d.apply c.toks) (hl : c'.lTsubs = c.lTsubs) (hs : c'.sessions = c.sessions)
    (hf : c'.fx = c.fx) : Tracks P c (c'.tokNotify kind key) := by
  have hlistens : c'.listens = c.listens := by
    funext a
    cases a with
    | own id => rw [listens, listens, hl]
    | far u id => rw [listens, listens, hs]
  have hnews : ∀ a, news a (c'.notices kind key) = (c.listens a).elim [] fun e =>
      if intersects e key then [d] else [] := by
    intro a
    rw [news_notices, hlistens, hkind]
    rfl
  refine ⟨⟨hr, fun a _ _ => congrFun hlistens a, c'.notices kind key, [d], by rw [← hf]; rfl, ht,
    fun a _ => ⟨fun e he => ?_, fun hn => ?_⟩⟩, fun a _ halive => ?_⟩
  · have he : c.listens a = some e := (congrFun hlistens a).symm.trans he
    rw [hnews, he, Option.elim_some, List.filter_singleton, hd]
    cases intersects e key <;> rfl
  · rw [hnews, hn, Option.elim_none]
  · cases a with
    | own id =>
      have halive : id ∈ c'.lTsubs := halive
      rwa [hl] at halive
    | far u id =>
      have halive : u ∈ c'.sessions := halive
      rwa [hs] at halive

/-- A token is declared once more or once less. -/
theorem count_tracks {key : String} (hkey : key ∈ c.tok) (n : Nat) :
    Tracks P c { c with tok := c.tok.insert key n } := by
  refine ⟨⟨rfl, fun _ _ _ => rfl, [], [], (List.append_nil _).symm, ?_, fun _ _ =>
    ⟨fun _ _ => rfl, fun _ => rfl⟩⟩, fun _ _ halive => halive⟩
  ext k
  rw [mem_toks, AList.mem_insert, Change.replay_nil, mem_toks]
  refine or_iff_right_of_imp fun he => ?_
  rwa [he]

theorem tokAdd_tracks (c : Core) (key : String) : Tracks P c (c.tokAdd key) := by
  rw [tokAdd]
  cases hk : c.tok.lookup key with
  | none =>
    refine notify_tracks rfl rfl rfl ?_ rfl rfl rfl
    ext k
    rw [mem_toks, AList.mem_insert, Change.apply, Finset.mem_insert, mem_toks]
  | some n =>
    exact count_tracks (Map.mem_iff_lookup.2 ⟨n, hk⟩) (n + 1)

theorem tokDel_tracks (c : Core) (key : String) : Tracks P c (c.tokDel key).1 := by
  rw [tokDel]
  cases hk : c.tok.lookup key with
  | none => exact .refl c
  | some n =>
    simp only
    split_ifs
    · exact count_tracks (Map.mem_iff_lookup.2 ⟨n, hk⟩) (n - 1)
    · refine notify_tracks rfl rfl rfl ?_ rfl rfl rfl
      ext k
      rw [mem_toks, AList.mem_erase, Change.apply, Finset.mem_erase, mem_toks]

theorem unlist_tracks (c : Core) (u : Nat) (d : DeclKind × Nat) (e : String) :
    Tracks P c (c.unlist u d e).1 := by
  rw [unlist]
  cases d.1 with
  | token => exact c.tokDel_tracks e
  | sub => exact Still.tracks (.aside rfl rfl rfl rfl le_rfl rfl)
  | qabl => exact .refl c

theorem closeDecl_tracks (u : Nat) (x : Core × Bool) (d : (_ : DeclKind × Nat) × String) :
    Tracks P x.1 (closeDecl u x d).1 :=
  (x.1.unlist_tracks u d.1 d.2).trans (retract_still _ u d.1).tracks

theorem closeDecls_tracks (u : Nat) (ds : List ((_ : DeclKind × Nat) × String)) (x : Core × Bool) :
    Tracks P x.1 (ds.foldl (closeDecl u) x).1 := by
  induction ds generalizing x with
  | nil => exact .refl x.1
  | cons d ds ih => exact (closeDecl_tracks u x d).trans (ih (closeDecl u x d))

/-! ## Sessions -/

/-- Subscriptions end with their session. -/
theorem leave_tracks (c : Core) (u : Nat) (s : Sess) (reason : CloseReason) :
    Tracks P c (c.leave u s reason) := by
  have hlook : ∀ v, v ∈ (c.leave u s reason).sessions → v ≠ u ∧ v ∈ c.sessions := fun v hv =>
    AList.mem_erase.1 hv
  refine ⟨⟨rfl, fun a _ halive => ?_, _, [], rfl, rfl, fun a _ => ?_⟩, fun a _ halive => ?_⟩
  · cases a with
    | own id => rfl
    | far v id =>
      show ((((c.sessions.erase u).lookup v).map Sess.ear).bind _ : Option String) = _
      rw [Map.lookup_erase_if, if_neg (hlook v halive).1]
      rfl
  · have hplain : ∀ x ∈ [Fx.shut u (if reason.spoken then some reason else none)],
        x.plain = true := List.forall_mem_singleton.2 rfl
    exact ⟨fun _ _ => news_plain hplain a, fun _ => news_plain hplain a⟩
  · cases a with
    | own id => exact halive
    | far v id => exact (hlook v halive).2

theorem close_tracks (hr : c.router = true) (o : Told) (u : Nat) (reason : CloseReason) :
    Tracks P c (c.close o u reason) := by
  cases hs : c.sessions.lookup u with
  | none =>
    have hsame : c.close o u reason = c := by simp [Core.close, hs]
    rw [hsame]
    exact .refl c
  | some s =>
    have hleave : Tracks P c (c.leave u s reason) := leave_tracks c u s reason
    have hdecls : Tracks P c ((c.leave u s reason).dropDecls o u s) := by
      have hclosed : Tracks P c (((o.decls u).run s.decls.entries).foldl (closeDecl u)
          (c.leave u s reason, false)).1 := hleave.trans (closeDecls_tracks u _ (_, false))
      rw [dropDecls]
      generalize ((o.decls u).run s.decls.entries).foldl (closeDecl u)
        (c.leave u s reason, false) = x at hclosed ⊢
      simp only
      rw [if_pos (hclosed.router.trans hr)]
      split_ifs
      · exact hclosed.trans (batchEnd_still _).tracks
      · exact hclosed
    rw [close_eq hs]
    exact (hdecls.trans (dropQueries_still _ o u).tracks).trans (tellLeft_still _ s).tracks

theorem closeAll_tracks (hr : c.router = true) (o : Told) (reason : CloseReason) (us : List Nat) :
    Tracks P c (c.closeAll o reason us) := by
  induction us generalizing c with
  | nil => exact .refl c
  | cons u us ih =>
    have hclose : Tracks P c (c.close o u reason) := close_tracks hr o u reason
    exact hclose.trans (ih (hclose.router.trans hr))

theorem fence_tracks (hr : c.router = true) (o : Told) : Tracks P c (c.fence o) := by
  refine (closeAll_tracks hr o .fenced (o.uids.run c.sessions.keys)).trans ?_
  exact Still.tracks (.aside rfl rfl rfl rfl le_rfl rfl)

theorem onTick_tracks (hr : c.router = true) (o : Told) (gap : Nat) : Tracks P c (c.onTick o gap) := by
  rw [onTick]
  split_ifs
  · exact fence_tracks hr o
  · have hclosed : Tracks P c (c.closeAll o .expired _) :=
      closeAll_tracks hr o .expired ((o.uids.run c.sessions.keys).filter o.silent)
    exact hclosed.trans ((finishAll_still _ o _).trans (dialWanted_still _ o)).tracks

theorem shutdown_tracks (hr : c.router = true) (o : Told) : Tracks P c (c.shutdown o) := by
  let c₀ : Core := { c with lTsubs := ∅, lSubs := ∅, lQabls := ∅, pending := ∅ }
  have hnone : ∀ id, ¬ c₀.Alive (.own id) := fun id => AList.notMem_empty id
  have hdrop : Tracks P c c₀ := by
    refine ⟨⟨rfl, fun a _ halive => ?_, [], [], (List.append_nil _).symm, rfl, fun _ _ =>
      ⟨fun _ _ => rfl, fun _ => rfl⟩⟩, fun a _ halive => ?_⟩
    · cases a with
      | own id => exact absurd halive (hnone id)
      | far u id => rfl
    · cases a with
      | own id => exact absurd halive (hnone id)
      | far u id => exact halive
  have hr₀ : c₀.router = true := hr
  have hclosed : Tracks P c₀ (c₀.closeAll o .shutdown (o.uids.run c.sessions.keys)) :=
    closeAll_tracks hr₀ o .shutdown _
  refine (hdrop.trans hclosed).trans ?_
  exact Still.tracks (.aside rfl rfl rfl rfl le_rfl rfl)

/-! ## A session comes -/

theorem Prepares.still (h : Prepares c c') : Still c c' := by
  obtain ⟨d, l, rfl, hl⟩ := h
  refine ⟨rfl, rfl, rfl, fun _ => rfl, le_rfl, l, rfl, fun x hx => ?_⟩
  obtain ⟨k, m, rfl⟩ := hl x hx
  rfl

theorem Prepares.nextUid (h : Prepares c c') : c'.nextUid = c.nextUid := by
  obtain ⟨d, l, rfl, -⟩ := h
  rfl

theorem enter_far (c : Core) (k : Nat) (hello : Hello) (dialer : String) (boot sno id : Nat) :
    (c.enter k hello dialer boot sno).listens (.far c.nextUid id) = none := by
  show ((((c.sessions.insert c.nextUid _).lookup c.nextUid).map Sess.ear).bind _ :
    Option String) = none
  rw [AList.lookup_insert]
  simp [Sess.ear]

theorem enter_listens (c : Core) (k : Nat) (hello : Hello) (dialer : String) (boot sno : Nat)
    {a : Ear} (ha : ∀ id, a ≠ .far c.nextUid id) :
    (c.enter k hello dialer boot sno).listens a = c.listens a := by
  cases a with
  | own id => rfl
  | far u id =>
    have hu : u ≠ c.nextUid := fun he => ha id (by rw [he])
    show ((((c.sessions.insert c.nextUid _).lookup u).map Sess.ear).bind _ : Option String) = _
    rw [AList.lookup_insert_ne hu]
    rfl

/-- A router has nothing to say about subscriptions of its own. -/
theorem greet_still (hr : c.router = true) (o : Told) (u : Nat) (role : Role) :
    Still c (c.greet o u role) := by
  have hplain : ∀ m ∈ c.greeting o role, (Fx.push u m true).plain = true := by
    intro m hm
    rw [greeting, if_pos hr] at hm
    split_ifs at hm
    · rcases List.mem_append.1 hm with hm | hm
      · obtain ⟨x, -, rfl⟩ := List.mem_map.1 hm
        rfl
      · rw [List.mem_singleton.1 hm]
        rfl
    · exact absurd hm List.not_mem_nil
  have hall : Still c (c.emits ((c.greeting o role).map (.push u · true))) :=
    c.emits_still (List.forall_mem_map.2 hplain)
  rw [greet]
  split_ifs
  · exact hall.trans (toRouters_still _ fun _ => rfl)
  · exact hall

theorem Tracks.install (h : Tracks P c c') (hr : c.router = true) (hnew : c'.nextUid ∉ c.sessions)
    (o : Told) (k : Nat) (hello : Hello) (dialer : String) (boot sno : Nat) :
    Hears P c (c'.install o k hello dialer boot sno) := by
  rw [install_eq]
  have hstill : Still (c'.enter k hello dialer boot sno)
      ((c'.enter k hello dialer boot sno).greet o c'.nextUid hello.role) := by
    have hr' : (c'.enter k hello dialer boot sno).router = true := h.router.trans hr
    exact greet_still hr' o _ _
  have hfar := c'.enter_far k hello dialer boot sno
  have hother : ∀ {a}, _ → (c'.enter k hello dialer boot sno).listens a = c'.listens a :=
    c'.enter_listens k hello dialer boot sno
  generalize (c'.enter k hello dialer boot sno).greet o c'.nextUid hello.role = c'' at hstill ⊢
  obtain ⟨l, cs, hl, hcs, hnews⟩ := h.log
  obtain ⟨l', hl', hplain⟩ := hstill.fx
  have hl' : c''.fx = c'.fx ++ l' := hl'
  refine ⟨hstill.router.trans h.router, fun a ha halive => ?_, l ++ l', cs, ?_, ?_, fun a ha => ?_⟩
  · rw [hstill.listens]
    by_cases hn : ∃ id, a = .far c'.nextUid id
    · obtain ⟨id, rfl⟩ := hn
      have hdead : ¬ c.Alive (.far c'.nextUid id) := hnew
      rw [hfar, listens_none hdead]
    · rw [hother (not_exists.1 hn)]
      refine h.keeps a ha ?_
      have halive := (hstill.alive a).1 halive
      cases a with
      | own id => exact halive
      | far u id =>
        exact ((AList.mem_insert _).1 halive).resolve_left fun hu => hn ⟨id, by rw [hu]⟩
  · rw [hl', hl, List.append_assoc]
  · rw [← hcs, toks, toks, hstill.tok]
    rfl
  · rw [news_append, news_plain hplain, List.append_nil, hstill.listens]
    refine ⟨fun e he => (hnews a ha).1 e ?_, (hnews a ha).2⟩
    rwa [hother fun id hn => ?_] at he
    rw [hn, hfar] at he
    exact absurd he nofun

/-! ## Declarations -/

theorem remoteDeclare_tracks (hs : c.sessions.lookup u = some s) (k : DeclKind) (i : Nat)
    (x : String) : Tracks P c (c.remoteDeclare u s k i x) := by
  by_cases hr : c.router = true
  · let c₁ : Core := { c with
      sessions := c.sessions.insert u { s with decls := s.decls.insert (k, i) x } }
    have h₁ : Tracks P c c₁ := Still.tracks (.session hs rfl)
    cases hnew : s.decls.lookup (k, i) with
    | none =>
      have hlist : Tracks P c (c₁.enlist u k i x) := by
        cases k with
        | token => exact h₁.trans (c₁.tokAdd_tracks x)
        | sub => exact h₁.trans (Still.tracks (.aside rfl rfl rfl rfl le_rfl rfl))
        | qabl => exact h₁
      have hpass : Still (c₁.enlist u k i x) ((c₁.enlist u k i x).passOn u k i x) := by
        refine .trans ?_ (announce_still _ fun _ => rfl)
        exact .aside rfl rfl rfl rfl (Nat.le_succ _) rfl
      rw [remoteDeclare_eq hr hnew]
      show Tracks P c (if s.role = .client then (c₁.enlist u k i x).passOn u k i x
        else c₁.enlist u k i x)
      split_ifs
      · exact hlist.trans hpass.tracks
      · exact hlist
    | some y =>
      have hmem : (k, i) ∈ s.decls := Map.mem_iff_lookup.2 ⟨y, hnew⟩
      have hknown : c.remoteDeclare u s k i x = c₁ := by simp [remoteDeclare, hr, hmem, c₁]
      rw [hknown]
      exact h₁
  · rw [remoteDeclare, if_neg hr]
    exact .refl c

theorem remoteUndeclare_tracks (hs : c.sessions.lookup u = some s) (k : DeclKind) (i : Nat) :
    Tracks P c (c.remoteUndeclare u s k i) := by
  rw [remoteUndeclare]
  cases s.decls.lookup (k, i) with
  | none => exact .refl c
  | some x =>
    refine Tracks.trans ?_ (closeDecl_tracks u (_, false) ⟨(k, i), x⟩)
    exact Still.tracks (.session hs rfl)

theorem declareLocal_tracks (hr : c.router = true) (o : Told) (k : DeclKind) (x : String) :
    Tracks P c (c.declareLocal o k x) := by
  let c₁ : Core := { c with
    nextId := c.nextId + 1
    lTokens := k.stores .token c.lTokens c.nextId x
    lSubs := k.stores .sub c.lSubs c.nextId x
    lQabls := k.stores .qabl c.lQabls c.nextId x
    subs := if k = .sub then c.subs.add (.loc c.nextId) c.nextId x else c.subs }
  have h₁ : Tracks P c c₁ := Still.tracks (.aside rfl rfl rfl rfl (Nat.le_succ _) rfl)
  let c₂ := if k = .token then c₁.tokAdd x else c₁
  have h₂ : Tracks P c c₂ := by
    show Tracks P c (if k = .token then c₁.tokAdd x else c₁)
    split_ifs
    · exact h₁.trans (c₁.tokAdd_tracks x)
    · exact h₁
  have hd : c.declareLocal o k x = Core.announce
      { c₂ with out := c₂.out.insert c.nextId (k, x) } (.declare k c.nextId x) := by
    cases k <;> exact if_pos hr
  have hsay : Still c₂ (Core.announce
      { c₂ with out := c₂.out.insert c.nextId (k, x) } (.declare k c.nextId x)) := by
    refine .trans ?_ (announce_still _ fun _ => rfl)
    exact .aside rfl rfl rfl rfl le_rfl rfl
  rw [hd]
  exact h₂.trans hsay.tracks

theorem undeclareLocal_tracks (hr : c.router = true) (o : Told) (k : DeclKind) (id : Nat) :
    Tracks P c (c.undeclareLocal o k id) := by
  have htell : ∀ {c₂ : Core}, Tracks P c c₂ →
      Tracks P c ({ c₂ with out := c₂.out.erase id }.announce (.undeclare k id)) := by
    intro c₂ h₂
    refine h₂.trans (Still.tracks (.trans ?_ (announce_still _ fun _ => rfl)))
    exact .aside rfl rfl rfl rfl le_rfl rfl
  cases k with
  | token =>
    cases hx : c.lTokens.lookup id with
    | none =>
      have hsame : c.undeclareLocal o .token id = c := by simp [undeclareLocal, hx]
      rw [hsame]
      exact .refl c
    | some x =>
      have h₁ : Tracks P c (tokDel { c with lTokens := c.lTokens.erase id } x).1 := by
        refine Tracks.trans ?_ (tokDel_tracks _ x)
        exact Still.tracks (.aside rfl rfl rfl rfl le_rfl rfl)
      simp only [undeclareLocal, hx, if_true]
      rw [if_pos hr, if_pos (h₁.router.trans hr)]
      exact htell h₁
  | sub =>
    have h₁ : Tracks P c { c with
        subs := c.subs.remove (.loc id) id, lSubs := c.lSubs.erase id } :=
      Still.tracks (.aside rfl rfl rfl rfl le_rfl rfl)
    simp only [undeclareLocal]
    split
    · exact htell h₁
    · exact h₁
  | qabl =>
    have h₁ : Tracks P c { c with lQabls := c.lQabls.erase id } :=
      Still.tracks (.aside rfl rfl rfl rfl le_rfl rfl)
    simp only [undeclareLocal]
    split
    · exact htell h₁
    · exact h₁

/-! ## Subscriptions -/

/-- The subscription that the event opens or ends. -/
def turns (c : Core) : Ev → Option Ear
  | .cmd (.tokenSub _ _) => some (.own c.nextId)
  | .msg u (.tokenSub id _ _) | .msg u (.tokenUnsub id) => some (.far u id)
  | _ => none

/-- The tokens stay, and so do the subscriptions of `P`. -/
theorem Tracks.quiet (hr : c'.router = c.router) (ht : c'.tok = c.tok)
    (hlistens : ∀ a, P a → c'.listens a = c.listens a) (halive : ∀ a, P a → c'.Alive a → c.Alive a)
    {l : List Fx} (hl : c'.fx = c.fx ++ l) (hnews : ∀ a, P a → news a l = []) : Tracks P c c' :=
  ⟨⟨hr, fun a ha _ => hlistens a ha, l, [], hl, by rw [toks, toks, ht, Change.replay_nil],
    fun a ha => ⟨fun _ _ => hnews a ha, fun _ => hnews a ha⟩⟩, halive⟩

/-- A session has other subscriptions. -/
theorem listens_retune (hs : c.sessions.lookup u = some s) {s' : Sess} {id : Nat}
    (hrole : s'.role = s.role) (ht : ∀ i, i ≠ id → s'.tsubs.lookup i = s.tsubs.lookup i)
    (ha : a ≠ .far u id) :
    Core.listens { c with sessions := c.sessions.insert u s' } a = c.listens a := by
  cases a with
  | own i => rfl
  | far v i =>
    show ((((c.sessions.insert u s').lookup v).map Sess.ear).bind _ : Option String) = _
    rw [Map.lookup_insert_if]
    split_ifs with hv
    · have hi : i ≠ id := fun he => ha (by rw [hv, he])
      rw [listens, hv, hs]
      simp only [Option.map_some, Option.bind_some, Sess.ear, hrole, ht i hi]
    · rfl

theorem alive_retune (hs : c.sessions.lookup u = some s) (s' : Sess) (a : Ear) :
    Core.Alive { c with sessions := c.sessions.insert u s' } a ↔ c.Alive a := by
  cases a with
  | own i => rfl
  | far v i => exact mem_insert_session hs s' v

theorem tokenSub_tracks (hr : c.router = true) (o : Told) (expr : String) (history : Bool) :
    Tracks (· ≠ .own c.nextId) c (c.tokenSub o expr history) := by
  have hlook : ∀ id, id ≠ c.nextId →
      (c.lTsubs.insert c.nextId ({ expr } : LTokenSub)).lookup id = c.lTsubs.lookup id :=
    fun id hid => AList.lookup_insert_ne hid
  obtain ⟨l, hl, hnews⟩ : ∃ l, c.tokenSub o expr history = { c with
      nextId := c.nextId + 1, lTsubs := c.lTsubs.insert c.nextId { expr }, fx := c.fx ++ l } ∧
      ∀ a, a ≠ .own c.nextId → news a l = [] := by
    simp only [tokenSub, askTokens, hr, if_true]
    split_ifs
    · refine ⟨_, rfl, fun a ha => ?_⟩
      rw [news_batch, if_neg ha]
    · exact ⟨[], by rw [List.append_nil], fun _ _ => rfl⟩
  rw [hl]
  refine .quiet rfl rfl (fun a ha => ?_) (fun a ha halive => ?_) rfl hnews
  · cases a with
    | own id =>
      have hid : id ≠ c.nextId := fun he => ha (by rw [he])
      rw [listens, listens]
      exact congrArg _ (hlook id hid)
    | far u id => rfl
  · cases a with
    | own id => exact ((AList.mem_insert _).1 halive).resolve_left fun he => ha (by rw [he])
    | far u id => exact halive

theorem tokenUnsub_tracks (hr : c.router = true) (o : Told) (id : Nat) :
    Tracks P c (c.onCmd o (.tokenUnsub id)) := by
  simp only [onCmd]
  split_ifs with hid
  · have hstill : Still { c with lTsubs := c.lTsubs.erase id }
        (Core.tellUpstream { c with lTsubs := c.lTsubs.erase id } o (.tokenUnsub id)) := by
      rw [tellUpstream, upstream, if_pos hr]
      exact .refl _
    refine Tracks.trans ?_ hstill.tracks
    refine ⟨⟨rfl, fun a _ halive => ?_, [], [], (List.append_nil _).symm, rfl, fun _ _ =>
      ⟨fun _ _ => rfl, fun _ => rfl⟩⟩, fun a _ halive => ?_⟩
    · cases a with
      | own i =>
        rw [listens, listens, Map.lookup_erase_if, if_neg (AList.mem_erase.1 halive).1]
      | far u i => rfl
    · cases a with
      | own i => exact (AList.mem_erase.1 halive).2
      | far u i => exact halive
  · exact .refl c

/-- **A subscription that is opened with history** is told of the tokens that are there. -/
theorem tokenSub_opens (hr : c.router = true) (o : Told) (expr : String) :
    ∃ l, (c.tokenSub o expr true).fx = c.fx ++ l ∧ (c.tokenSub o expr true).tok = c.tok ∧
      (c.tokenSub o expr true).listens (.own c.nextId) = some expr ∧
      Change.replay ∅ (news (.own c.nextId) l) = c.matched expr := by
  simp only [tokenSub, askTokens, hr, if_true]
  refine ⟨_, rfl, rfl, ?_, ?_⟩
  · rw [listens]
    exact congrArg _ (AList.lookup_insert _)
  · rw [news_batch, if_pos rfl, replay_history]
    rfl

/-! ## Messages -/

theorem tokenSubMsg_tracks (hs : c.sessions.lookup u = some s) (o : Told) (id : Nat)
    (expr : String) (history : Bool) :
    Tracks (· ≠ .far u id) c (c.onMsg o u (.tokenSub id expr history)) := by
  simp only [onMsg, hs]
  by_cases hr : c.router = true ∧ s.role = .client
  · rw [if_pos hr]
    refine .quiet rfl rfl (fun a ha => ?_) (fun a _ => (alive_retune hs _ a).1) rfl fun a ha => ?_
    · exact listens_retune hs rfl (fun i hi => AList.lookup_insert_ne hi) ha
    · split_ifs
      · rw [news_batchEvts, if_neg ha]
      · rfl
  · rw [if_neg hr]
    exact .refl c

theorem tokenUnsubMsg_tracks (hs : c.sessions.lookup u = some s) (o : Told) (id : Nat) :
    Tracks (· ≠ .far u id) c (c.onMsg o u (.tokenUnsub id)) := by
  simp only [onMsg, hs]
  refine .quiet rfl rfl (fun a ha => ?_) (fun a _ => (alive_retune hs _ a).1)
    (List.append_nil _).symm fun _ _ => rfl
  exact listens_retune hs rfl (fun i hi => AList.lookup_erase_ne hi) ha

/-- **The subscription of a client that is opened with history.** -/
theorem tokenSubMsg_opens (hr : c.router = true) (hs : c.sessions.lookup u = some s)
    (hrole : s.role = .client) (o : Told) (id : Nat) (expr : String) :
    ∃ l, (c.onMsg o u (.tokenSub id expr true)).fx = c.fx ++ l ∧
      (c.onMsg o u (.tokenSub id expr true)).tok = c.tok ∧
      (c.onMsg o u (.tokenSub id expr true)).listens (.far u id) = some expr ∧
      Change.replay ∅ (news (.far u id) l) = c.matched expr := by
  simp only [onMsg, hs, if_pos (And.intro hr hrole), if_true]
  refine ⟨_, rfl, rfl, ?_, ?_⟩
  · show ((((c.sessions.insert u _).lookup u).map Sess.ear).bind _ : Option String) = some expr
    rw [AList.lookup_insert]
    simp [Sess.ear, hrole]
  · rw [news_batchEvts, if_pos rfl, replay_history]

theorem onMsg_tracks (hr : c.router = true) (o : Told) (u : Nat) (m : Msg) :
    Tracks (fun a => c.turns (.msg u m) ≠ some a) c (c.onMsg o u m) := by
  cases hs : c.sessions.lookup u with
  | none =>
    have hsame : c.onMsg o u m = c := by rw [onMsg, hs]
    rw [hsame]
    exact .refl c
  | some s =>
    have hturn : ∀ {b : Ear} {c'}, Tracks (· ≠ b) c c' → Tracks (some b ≠ some ·) c c' :=
      fun h => h.mono fun a ha he => ha (by rw [he])
    cases m with
    | close r =>
      simp only [onMsg, hs]
      exact close_tracks hr o u r
    | declare k i x =>
      simp only [onMsg, hs]
      exact remoteDeclare_tracks hs k i x
    | undeclare k i =>
      simp only [onMsg, hs]
      exact remoteUndeclare_tracks hs k i
    | tokenSub id expr history => exact hturn (tokenSubMsg_tracks hs o id expr history)
    | tokenUnsub id => exact hturn (tokenUnsubMsg_tracks hs o id)
    | tokenEvt id kind key =>
      have hsame : c.onMsg o u (.tokenEvt id kind key) = c := by
        simp only [onMsg, hs]
        exact if_pos hr
      rw [hsame]
      exact .refl c
    | _ => exact (onMsg_still o u rfl).tracks

theorem onCmd_tracks (hr : c.router = true) (o : Told) (cmd : Cmd) :
    Tracks (fun a => c.turns (.cmd cmd) ≠ some a) c (c.onCmd o cmd) := by
  cases cmd with
  | declareToken key => exact declareLocal_tracks hr o .token key
  | subscribe expr => exact declareLocal_tracks hr o .sub expr
  | queryable expr => exact declareLocal_tracks hr o .qabl expr
  | tokenSub expr history =>
    exact (tokenSub_tracks hr o expr history).mono fun a ha he => ha (by rw [he]; rfl)
  | undeclare k id => exact undeclareLocal_tracks hr o k id
  | tokenUnsub id => exact tokenUnsub_tracks hr o id
  | close => exact shutdown_tracks hr o
  | _ => exact (onCmd_still o rfl).tracks

/-- **A router tells its subscriptions of its tokens.** -/
theorem onEv_hears (hr : c.router = true) (huids : ∀ u ∈ c.sessions, u < c.nextUid) (o : Told)
    (e : Ev) : Hears (fun a => c.turns e ≠ some a) c (c.onEv o e) := by
  have hbrings : ∀ {k hello}, e.brings = some (k, hello) →
      Hears (fun a => c.turns e ≠ some a) c (c.onEv o e) := by
    intro k hello he
    obtain ⟨c₁, ⟨-, huid⟩, htracks, hev⟩ := arrives
      (P := fun c₁ => c₁.router = true ∧ c₁.nextUid = c.nextUid)
      (R := Tracks (fun a => c.turns e ≠ some a)) Tracks.trans
      (fun h hp => ⟨⟨hp.still.router.trans h.1, hp.nextUid.trans h.2⟩, hp.still.tracks⟩)
      (fun h => ⟨⟨(close_tracks (P := fun _ => True) h.1 _ _ _).router.trans h.1,
        (close_works _ _ _ _).1.nextUid.trans h.2⟩, close_tracks h.1 _ _ _⟩) ⟨hr, rfl⟩ o he
    rcases hev with hev | ⟨dialer, boot, sno, hev⟩
    · rw [hev]
      exact htracks.toHears
    · rw [hev]
      refine htracks.install hr (fun hmem => ?_) o k hello dialer boot sno
      exact absurd (huids _ hmem) (by rw [huid]; exact lt_irrefl _)
  cases e with
  | cmd cmd => exact (onCmd_tracks hr o cmd).toHears
  | msg u m => exact (onMsg_tracks hr o u m).toHears
  | closed u reason => exact (close_tracks hr o u reason).toHears
  | paused => exact (fence_tracks hr o).toHears
  | tick gap => exact (onTick_tracks hr o gap).toHears
  | accepted k hello => exact hbrings rfl
  | dialed target sno res =>
    cases res with
    | none =>
      have hstill : Still c (c.onDialed o target sno none) := by
        rw [onDialed]
        cases c.dials.lookup target with
        | none => exact .refl c
        | some d => exact .aside rfl rfl rfl rfl le_rfl rfl
      exact hstill.tracks.toHears
    | some x => exact hbrings rfl

end OxlensSfu.Mesh.Core
