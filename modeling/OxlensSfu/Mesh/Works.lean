import OxlensSfu.Lib.Machine
import OxlensSfu.Mesh.Pending

/-!
# What the handlers do to the pending queries

Every handler but two works on the queries that are there: it moves them, closes sessions and
leaves no query to a session it has closed (`Works`). The two are the one that installs a session
and the one that begins a query.
-/

namespace OxlensSfu.Mesh

theorem Move.mono {live live' : Nat → Prop} (hlive : ∀ u, live u → live' u) {a b : Trace}
    (h : Move live' a b) : Move live a b := by
  cases h with
  | reply key ok payload queued hp ht => exact .reply key ok payload queued hp ht
  | ended hp ht => exact .ended hp ht
  | final queued hp ho => exact .final queued hp ho
  | forget hm ho => exact .forget hm fun q p u t hp he hl => ho q p u t hp he (hlive u hl)
  | other hx => exact .other hx

namespace Core

/-- The core of a node that runs. A closed one is dropped. -/
def machine : Machine Core (Told × Ev) where
  ok c _ := c.running = true
  next c a := c.onEv a.1 a.2

instance (c : Core) (a : Told × Ev) : Decidable (machine.ok c a) :=
  inferInstanceAs (Decidable (c.running = true))

structure Works (c c' : Core) : Prop where
  sessions : ∀ u ∈ c'.sessions, u ∈ c.sessions
  moves : Relation.ReflTransGen (Move (· ∈ c'.sessions)) c.trace c'.trace
  less : Less c.pending c'.pending
  gone : ∀ q p u, c'.pending.lookup q = some p → u ∈ c.sessions → u ∉ c'.sessions →
    Origin.src p.origin ≠ some u ∧ .sess u ∉ p.targets
  nextId : c.nextId ≤ c'.nextId
  nextUid : c'.nextUid = c.nextUid

variable {c c' c'' : Core} {o : Told}

theorem Moves.works (h : Moves c c') : Works c c' := by
  obtain ⟨m, l, rfl⟩ := h.frame
  exact ⟨fun _ hu => hu, h.moves, h.less, fun _ _ _ _ hu hn => absurd hu hn, le_rfl, rfl⟩

namespace Works

theorem refl (c : Core) : Works c c := (Moves.refl c).works

theorem trans (h : Works c c') (h' : Works c' c'') : Works c c'' where
  sessions u hu := h.sessions u (h'.sessions u hu)
  moves := .trans (Relation.ReflTransGen.mono (fun _ _ => Move.mono h'.sessions) _ _ h.moves) h'.moves
  less := h.less.trans h'.less
  gone := by
    intro q p u hp hu hn
    by_cases hu' : u ∈ c'.sessions
    · exact h'.gone q p u hp hu' hn
    · obtain ⟨p', hp', ho, hs, -⟩ := h'.less q p hp
      obtain ⟨hsrc, ht⟩ := h.gone q p' u hp' hu hu'
      exact ⟨ho ▸ hsrc, fun hmem => ht (hs hmem)⟩
  nextId := h.nextId.trans h'.nextId
  nextUid := h'.nextUid.trans h.nextUid

/-- Other state of the core changes. -/
theorem aside (hs : ∀ u, u ∈ c'.sessions ↔ u ∈ c.sessions) (hp : c'.pending = c.pending)
    (hf : c'.fx = c.fx) (hid : c.nextId ≤ c'.nextId) (huid : c'.nextUid = c.nextUid) :
    Works c c' where
  sessions u hu := (hs u).1 hu
  moves := by
    rw [trace, trace, hp, hf]
  less := hp ▸ .refl _
  gone _ _ u _ hu hn := absurd ((hs u).2 hu) hn
  nextId := hid
  nextUid := huid

theorem session {u : Nat} {s : Sess} (hs : c.sessions.lookup u = some s) (s' : Sess) :
    Works c { c with sessions := c.sessions.insert u s' } := by
  refine aside (fun v => ?_) rfl rfl le_rfl rfl
  rw [AList.mem_insert]
  refine or_iff_right_of_imp ?_
  intro he
  rw [he]
  exact Map.mem_iff_lookup.2 ⟨s, hs⟩

theorem foldl {α : Type} {f : Core → α → Core} (hf : ∀ c x, Works c (f c x)) (l : List α)
    (c : Core) : Works c (l.foldl f c) := by
  induction l generalizing c with
  | nil => exact refl c
  | cons x l ih => exact (hf c x).trans (ih (f c x))

end Works

/-- Nothing but queries, what is sent, declarations apart, and what a node remembers for itself. -/
structure Aside (c c' : Core) : Prop where
  frame : ∃ n sno m ts d k l, c' = { c with
    nextId := n, nextSno := sno, pending := m, lTsubs := ts, dials := d, known := k, fx := l }
  nextId : c.nextId ≤ c'.nextId
  moves : Relation.ReflTransGen (Move (· ∈ c.sessions)) c.trace c'.trace
  less : Less c.pending c'.pending
  hushed : Hushed c.fx c'.fx

theorem Moves.aside (h : Moves c c') : Aside c c' := by
  obtain ⟨m, l, rfl⟩ := h.frame
  exact ⟨⟨_, _, m, _, _, _, l, rfl⟩, le_rfl, h.moves, h.less, h.hushed⟩

namespace Aside

theorem refl (c : Core) : Aside c c := (Moves.refl c).aside

theorem trans (h : Aside c c') (h' : Aside c' c'') : Aside c c'' := by
  obtain ⟨n, sno, m, ts, d, k, l, rfl⟩ := h.frame
  obtain ⟨n', sno', m', ts', d', k', l', rfl⟩ := h'.frame
  exact ⟨⟨n', sno', m', ts', d', k', l', rfl⟩, h.nextId.trans h'.nextId, h.moves.trans h'.moves,
    h.less.trans h'.less, h.hushed.trans h'.hushed⟩

/-- Only what it remembers. -/
theorem own (c : Core) {n : Nat} (hn : c.nextId ≤ n) (sno : Nat) (ts : Map Nat LTokenSub)
    (d : Map String Dial) (k : Map String String) : Aside c { c with
      nextId := n, nextSno := sno, lTsubs := ts, dials := d, known := k } :=
  ⟨⟨_, _, _, _, _, _, _, rfl⟩, hn, .refl, .refl _, .refl _⟩

theorem foldl {α : Type} {f : Core → α → Core} (hf : ∀ c x, Aside c (f c x)) (l : List α)
    (c : Core) : Aside c (l.foldl f c) := by
  induction l generalizing c with
  | nil => exact refl c
  | cons x l ih => exact (hf c x).trans (ih (f c x))

theorem works (h : Aside c c') : Works c c' := by
  obtain ⟨n, sno, m, ts, d, k, l, rfl⟩ := h.frame
  exact ⟨fun _ hu => hu, h.moves, h.less, fun _ _ _ _ hu hn => absurd hu hn, h.nextId, rfl⟩

end Aside

/-! ## Tokens, dials and puts -/

theorem tokAdd_works (c : Core) (key : String) : Works c (c.tokAdd key) := by
  rw [tokAdd]
  cases c.tok.lookup key with
  | some n => exact .aside (fun _ => .rfl) rfl rfl le_rfl rfl
  | none =>
    refine .trans ?_ (tokNotify_moves _ .put key).works
    exact .aside (fun _ => .rfl) rfl rfl le_rfl rfl

theorem tokDel_works (c : Core) (key : String) : Works c (c.tokDel key).1 := by
  rw [tokDel]
  cases c.tok.lookup key with
  | none => exact .refl c
  | some n =>
    simp only
    split_ifs
    · exact .aside (fun _ => .rfl) rfl rfl le_rfl rfl
    · refine .trans ?_ (tokNotify_moves _ .delete key).works
      exact .aside (fun _ => .rfl) rfl rfl le_rfl rfl

theorem forgetSeen_aside (c : Core) : Aside c c.forgetSeen := by
  refine .trans (.own c le_rfl _ _ _ _) (emits_moves _ ?_).aside
  intro x hx
  obtain ⟨t, -, hx⟩ := List.mem_flatMap.1 hx
  rcases List.mem_append.1 hx with hx | hx
  · obtain ⟨k, -, rfl⟩ := List.mem_map.1 hx
    exact ⟨rfl, rfl⟩
  · rw [List.mem_singleton.1 hx]
    exact ⟨rfl, rfl⟩

theorem dialOne_aside (o : Told) (c : Core) (addr : String) : Aside c (dialOne o c addr) := by
  rw [dialOne]
  simp only
  split_ifs
  · exact .own c le_rfl _ _ _ _
  · refine .trans (.own c le_rfl _ _ _ _) (emits_moves _ ?_).aside
    exact List.forall_mem_singleton.2 ⟨rfl, rfl⟩

theorem dialWanted_aside (c : Core) (o : Told) : Aside c (c.dialWanted o) :=
  .foldl (dialOne_aside o) _ c

/-- A put is a sample for the own process or a message to a session. -/
theorem of_mem_deliveries {c : Core} {o : Told} {src : Option Nat} {key : String} {payload : Payload}
    {x : Fx} {ks : List (Owner × Nat)} {done : List Nat}
    (hx : x ∈ c.deliveries o src key payload ks done) :
    (∃ id, x = .sample id key payload) ∨ ∃ u queued, x = .push u (.put key payload) queued := by
  induction ks generalizing done with
  | nil => exact absurd hx List.not_mem_nil
  | cons k ks ih =>
    obtain ⟨w, id⟩ := k
    cases w with
    | loc i =>
      rw [deliveries] at hx
      rcases List.mem_append.1 hx with hx | hx
      · split_ifs at hx
        · exact .inl ⟨id, List.mem_singleton.1 hx⟩
        · exact absurd hx List.not_mem_nil
      · exact ih hx
    | sess u =>
      rw [deliveries] at hx
      split_ifs at hx
      · exact ih hx
      · rcases List.mem_append.1 hx with hx | hx
        · obtain ⟨-, -, rfl⟩ := List.mem_map.1 hx
          exact .inr ⟨u, _, rfl⟩
        · exact ih hx

theorem routePut_aside (c : Core) (o : Told) (src : Option Nat) (key : String) (payload : Payload) :
    Aside c (c.routePut o src key payload) := by
  rw [routePut]
  have hplain : ∀ x ∈ c.deliveries o src key payload (c.subs.matching key) [],
      x.about = none ∧ x.declares = false := by
    intro x hx
    obtain ⟨id, rfl⟩ | ⟨u, queued, rfl⟩ := of_mem_deliveries hx
    · exact ⟨rfl, rfl⟩
    · exact ⟨rfl, rfl⟩
  have hall := (emits_moves c hplain).aside
  generalize c.emits (c.deliveries o src key payload (c.subs.matching key) []) = c' at hall ⊢
  cases c'.upstream o with
  | none => exact hall
  | some u =>
    simp only
    split_ifs
    · exact hall.trans (emits_moves _ (List.forall_mem_singleton.2 ⟨rfl, rfl⟩)).aside
    · exact hall

/-! ## Declarations -/

/-- Declarations are sent. -/
theorem emits_works (c : Core) {l : List Fx} (hl : ∀ x ∈ l, x.about = none) :
    Works c (c.emits l) := by
  induction l generalizing c with
  | nil =>
    have hnil : c.emits [] = c := by simp [emits]
    rw [hnil]
    exact .refl c
  | cons x l ih =>
    have hcons : c.emits (x :: l) = (c.emits [x]).emits l := by simp [emits]
    have hone : Works c (c.emits [x]) := ⟨fun _ hu => hu, .single (.other (hl x List.mem_cons_self)),
      .refl _, fun _ _ _ _ hu hn => absurd hu hn, le_rfl, rfl⟩
    rw [hcons]
    exact hone.trans (ih _ fun y hy => hl y (List.mem_cons_of_mem x hy))

theorem announce_works (c : Core) (m : Msg) : Works c (c.announce m) := by
  rw [announce]
  split_ifs
  · exact c.emits_works (List.forall_mem_map.2 fun _ _ => rfl)
  · exact .refl c

theorem tellUpstream_works (c : Core) (o : Told) (m : Msg) : Works c (c.tellUpstream o m) := by
  rw [tellUpstream]
  cases c.upstream o with
  | none => exact .refl c
  | some u => exact c.emits_works (List.forall_mem_singleton.2 rfl)

theorem unlist_works (c : Core) (uid : Nat) (d : DeclKind × Nat) (expr : String) :
    Works c (c.unlist uid d expr).1 := by
  rw [unlist]
  cases d.1 with
  | token => exact c.tokDel_works expr
  | sub => exact .aside (fun _ => .rfl) rfl rfl le_rfl rfl
  | qabl => exact .refl c

theorem retract_works (c : Core) (uid : Nat) (d : DeclKind × Nat) : Works c (c.retract uid d) := by
  rw [retract]
  cases c.south.lookup (uid, d) with
  | none => exact .refl c
  | some rid =>
    refine .trans ?_ (announce_works _ _)
    exact .aside (fun _ => .rfl) rfl rfl le_rfl rfl

theorem closeDecl_works (uid : Nat) (x : Core × Bool) (d : (_ : DeclKind × Nat) × String) :
    Works x.1 (closeDecl uid x d).1 :=
  (x.1.unlist_works uid d.1 d.2).trans (retract_works _ uid d.1)

theorem closeDecls_works (uid : Nat) (ds : List ((_ : DeclKind × Nat) × String))
    (x : Core × Bool) : Works x.1 (ds.foldl (closeDecl uid) x).1 := by
  induction ds generalizing x with
  | nil => exact .refl x.1
  | cons d ds ih => exact (closeDecl_works uid x d).trans (ih (closeDecl uid x d))

theorem remoteDeclare_works {uid : Nat} {s : Sess} (hs : c.sessions.lookup uid = some s)
    (kind : DeclKind) (id : Nat) (expr : String) : Works c (c.remoteDeclare uid s kind id expr) := by
  have hkind : ∀ c : Core, Works c (c.noteDecl uid kind id expr) := by
    intro c
    cases kind with
    | token => exact tokAdd_works c expr
    | sub => exact .aside (fun _ => .rfl) rfl rfl le_rfl rfl
    | qabl => exact .refl c
  have hset := Works.session hs { s with decls := s.decls.insert (kind, id) expr }
  rw [remoteDeclare]
  by_cases hr : c.router = true
  · rw [if_pos hr]
    by_cases hknown : (kind, id) ∈ s.decls
    · simp only [if_pos hknown]
      exact hset
    · simp only [if_neg hknown]
      split
      · refine hset.trans ((hkind _).trans (.trans ?_ (announce_works _ _)))
        exact .aside (fun _ => .rfl) rfl rfl (Nat.le_succ _) rfl
      · exact hset.trans (hkind _)
  · rw [if_neg hr]
    exact .refl c

theorem remoteUndeclare_works {uid : Nat} {s : Sess} (hs : c.sessions.lookup uid = some s)
    (kind : DeclKind) (id : Nat) : Works c (c.remoteUndeclare uid s kind id) := by
  rw [remoteUndeclare]
  cases s.decls.lookup (kind, id) with
  | none => exact .refl c
  | some e => exact (Works.session hs _).trans (closeDecl_works uid (_, false) _)

theorem declareLocal_works (c : Core) (o : Told) (kind : DeclKind) (expr : String) :
    Works c (c.declareLocal o kind expr) := by
  have hset : Works c (c.keepDecl kind expr) := by
    cases kind <;> exact .aside (fun _ => .rfl) rfl rfl (Nat.le_succ _) rfl
  have htell : ∀ (c : Core) (id : Nat), Works c (c.tellDecl o kind id expr) := by
    intro c id
    unfold tellDecl
    split
    · have hcount : Works c (if kind = .token then c.tokAdd expr else c) := by
        split
        · exact c.tokAdd_works expr
        · exact .refl c
      refine hcount.trans (.trans ?_ (announce_works _ _))
      exact .aside (fun _ => .rfl) rfl rfl le_rfl rfl
    · exact c.tellUpstream_works o _
  rw [declareLocal]
  exact hset.trans (htell _ c.nextId)

theorem undeclareLocal_works (c : Core) (o : Told) (kind : DeclKind) (id : Nat) :
    Works c (c.undeclareLocal o kind id) := by
  have htell : ∀ (x : Core × Bool), Works x.1 (if x.2 then
      if x.1.router then { x.1 with out := x.1.out.erase id }.announce (.undeclare kind id)
      else x.1.tellUpstream o (.undeclare kind id)
      else x.1) := by
    intro x
    split
    · split
      · refine .trans ?_ (announce_works _ _)
        exact .aside (fun _ => .rfl) rfl rfl le_rfl rfl
      · exact x.1.tellUpstream_works o _
    · exact .refl x.1
  cases kind with
  | token =>
    cases hk : c.lTokens.lookup id with
    | none =>
      have hsame : c.undeclareLocal o .token id = c := by simp [undeclareLocal, hk]
      rw [hsame]
      exact .refl c
    | some k =>
      have hgone : Works c (if c.router then ({ c with lTokens := c.lTokens.erase id }.tokDel k).1
          else { c with lTokens := c.lTokens.erase id }) := by
        split
        · refine .trans ?_ (tokDel_works _ k)
          exact .aside (fun _ => .rfl) rfl rfl le_rfl rfl
        · exact .aside (fun _ => .rfl) rfl rfl le_rfl rfl
      unfold undeclareLocal
      simp only [hk]
      exact hgone.trans (htell (_, true))
  | sub =>
    refine .trans ?_ (htell ({ c with
      subs := c.subs.remove (.loc id) id, lSubs := c.lSubs.erase id }, decide (id ∈ c.lSubs)))
    exact .aside (fun _ => .rfl) rfl rfl le_rfl rfl
  | qabl =>
    refine .trans ?_ (htell ({ c with lQabls := c.lQabls.erase id }, decide (id ∈ c.lQabls)))
    exact .aside (fun _ => .rfl) rfl rfl le_rfl rfl

theorem tokenSub_aside (c : Core) (o : Told) (expr : String) (history : Bool) :
    Aside c (c.tokenSub o expr history) := by
  have htell : ∀ (c : Core) (id : Nat), Aside c (c.askTokens o id expr history) := by
    intro c id
    unfold askTokens
    split
    · split
      · refine (c.emits_moves (List.forall_mem_append.2
          ⟨List.forall_mem_map.2 fun _ _ => ⟨rfl, rfl⟩, ?_⟩)).aside
        exact List.forall_mem_singleton.2 ⟨rfl, rfl⟩
      · exact .refl c
    · split
      · exact (c.push_moves _ rfl).aside
      · split
        · exact (c.emits_moves (List.forall_mem_singleton.2 ⟨rfl, rfl⟩)).aside
        · exact .refl c
  have hid : Aside c { c with nextId := c.nextId + 1 } := .own c (Nat.le_succ _) _ _ _ _
  exact (hid.trans (htell _ c.nextId)).trans (.own _ le_rfl _ _ _ _)

theorem tokenUnsub_aside (c : Core) (o : Told) (id : Nat) :
    Aside c (c.onCmd o (.tokenUnsub id)) := by
  simp only [onCmd]
  split
  · exact .trans (.own c le_rfl _ _ _ _) (tellUpstream_moves _ o rfl).aside
  · exact .refl c

/-! ## Sessions that are closed -/

/-! A close has four parts: the session leaves the books, its declarations go, then its queries, and
the other routers hear of it. -/

def leave (c : Core) (uid : Nat) (s : Sess) (reason : CloseReason) : Core :=
  { c with
    sessions := c.sessions.erase uid
    byPeer := if c.byPeer.lookup s.peer = some uid then c.byPeer.erase s.peer else c.byPeer
    fx := c.fx ++ [.shut uid (if reason.spoken then some reason else none)] }

def dropDecls (c : Core) (o : Told) (uid : Nat) (s : Sess) : Core :=
  let (c, deleted) := ((o.decls uid).run s.decls.entries).foldl (closeDecl uid) (c, false)
  if c.router then (if deleted then c.batchEnd else c) else c.forgetSeen

def dropQueries (c : Core) (o : Told) (uid : Nat) : Core :=
  ((o.qids uid).run c.pending.keys).foldl (closePending o uid) c

def tellLeft (c : Core) (s : Sess) : Core :=
  if c.router ∧ s.role = .router then c.broadcastPeers else c

theorem close_eq {uid : Nat} {s : Sess} (hs : c.sessions.lookup uid = some s) (o : Told)
    (reason : CloseReason) : c.close o uid reason =
      (((c.leave uid s reason).dropDecls o uid s).dropQueries o uid).tellLeft s := by
  simp only [close, hs]
  rfl

theorem dropDecls_works (c : Core) (o : Told) (uid : Nat) (s : Sess) :
    Works c (c.dropDecls o uid s) := by
  rw [dropDecls]
  have hdecls := closeDecls_works uid ((o.decls uid).run s.decls.entries) (c, false)
  generalize ((o.decls uid).run s.decls.entries).foldl (closeDecl uid) (c, false) = x at hdecls ⊢
  refine hdecls.trans ?_
  simp only
  split
  · split
    · exact x.1.batchEnd_moves.works
    · exact .refl x.1
  · exact x.1.forgetSeen_aside.works

theorem dropQueries_moves {uid : Nat} (hu : uid ∉ c.sessions) :
    Moves c (c.dropQueries o uid) ∧ ∀ q p, (c.dropQueries o uid).pending.lookup q = some p →
      Origin.src p.origin ≠ some uid ∧ .sess uid ∉ p.targets := by
  obtain ⟨hm, hg⟩ := closePendings (o := o) hu ((o.qids uid).run c.pending.keys)
  refine ⟨hm, fun q p hp => hg q ?_ p hp⟩
  obtain ⟨p₀, hp₀, -⟩ := hm.less q p hp
  exact (o.qids uid).mem_run.2 (Map.mem_keys_iff.2 ⟨p₀, hp₀⟩)

theorem tellLeft_moves (c : Core) (s : Sess) : Moves c (c.tellLeft s) := by
  rw [tellLeft]
  split
  · exact c.toRouters_moves rfl
  · exact .refl c

theorem close_works (c : Core) (o : Told) (uid : Nat) (reason : CloseReason) :
    Works c (c.close o uid reason) ∧ uid ∉ (c.close o uid reason).sessions := by
  cases hs : c.sessions.lookup uid with
  | none =>
    have hsame : c.close o uid reason = c := by simp [close, hs]
    rw [hsame]
    exact ⟨.refl c, AList.lookup_eq_none.1 hs⟩
  | some s =>
    have hu : uid ∉ (c.leave uid s reason).sessions := by simp [leave]
    have hdecls := (c.leave uid s reason).dropDecls_works o uid s
    obtain ⟨hm, hg⟩ := dropQueries_moves (o := o) fun hmem => hu (hdecls.sessions uid hmem)
    have hlast := (((c.leave uid s reason).dropDecls o uid s).dropQueries o uid).tellLeft_moves s
    have hall := (hdecls.trans hm.works).trans hlast.works
    rw [← close_eq hs o reason] at hlast hall
    have hgone : uid ∉ (c.close o uid reason).sessions := fun hmem => hu (hall.sessions uid hmem)
    refine ⟨⟨?_, ?_, hall.less, ?_, hall.nextId, hall.nextUid⟩, hgone⟩
    · exact fun u hmem => (AList.mem_erase.1 (hall.sessions u hmem)).2
    · exact .head (.other rfl) hall.moves
    · intro q p u hp hmem hn
      by_cases he : u = uid
      · obtain ⟨p', hp', ho, hsub, -⟩ := hlast.less q p hp
        obtain ⟨hsrc, ht⟩ := hg q p' hp'
        rw [he]
        exact ⟨ho ▸ hsrc, fun hx => ht (hsub hx)⟩
      · exact hall.gone q p u hp (AList.mem_erase.2 ⟨he, hmem⟩) hn

theorem closeAll_works (c : Core) (o : Told) (reason : CloseReason) (uids : List Nat) :
    Works c (c.closeAll o reason uids) :=
  .foldl (fun c u => (c.close_works o u reason).1) uids c

theorem closeAll_not_mem (c : Core) (o : Told) (reason : CloseReason) {uids : List Nat} {u : Nat}
    (hu : u ∈ uids) : u ∉ (c.closeAll o reason uids).sessions := by
  induction uids generalizing c with
  | nil => exact absurd hu List.not_mem_nil
  | cons v uids ih =>
    rcases List.mem_cons.1 hu with rfl | hu
    · obtain ⟨-, hgone⟩ := c.close_works o u reason
      exact fun hmem => hgone ((closeAll_works _ o reason uids).sessions u hmem)
    · exact ih _ hu

theorem fence_works (c : Core) (o : Told) : Works c (c.fence o) := by
  refine (c.closeAll_works o .fenced (o.uids.run c.sessions.keys)).trans ?_
  exact .aside (fun _ => .rfl) rfl rfl le_rfl rfl

theorem finishAll_aside (c : Core) (o : Told) (qids : List Nat) : Aside c (c.finishAll o qids) :=
  .foldl (fun c q => (c.finish_moves o q).aside) qids c

theorem onTick_works (c : Core) (o : Told) (gap : Nat) : Works c (c.onTick o gap) := by
  rw [onTick]
  split
  · exact c.fence_works o
  · exact (c.closeAll_works o _ _).trans ((finishAll_aside _ o _).trans (dialWanted_aside _ o)).works

/-- Nobody is left to wait for the queries that go. -/
theorem shutdown_works (c : Core) (o : Told) : Works c (c.shutdown o) := by
  let c₀ : Core := { c with lTsubs := ∅, lSubs := ∅, lQabls := ∅, pending := ∅ }
  let c₁ := c₀.closeAll o .shutdown (o.uids.run c₀.sessions.keys)
  have hall : Works c₀ c₁ := c₀.closeAll_works o _ _
  have hempty : ∀ u, u ∉ c₁.sessions := by
    intro u hmem
    refine c₀.closeAll_not_mem o .shutdown ?_ hmem
    exact o.uids.mem_run.2 (AList.mem_keys.1 (hall.sessions u hmem))
  have hsub : ∀ q p, c₀.pending.lookup q = some p → c.pending.lookup q = some p := by
    intro q p hp
    rw [AList.lookup_empty] at hp
    exact absurd hp nofun
  have hnone : ∀ q p, c₁.pending.lookup q ≠ some p := by
    intro q p hp
    obtain ⟨p₀, hp₀, -⟩ := hall.less q p hp
    rw [AList.lookup_empty] at hp₀
    exact absurd hp₀ nofun
  refine ⟨fun u hmem => absurd hmem (hempty u), ?_, fun q p hp => absurd hp (hnone q p),
    fun q p _ hp => absurd hp (hnone q p), hall.nextId, hall.nextUid⟩
  exact .head (.forget hsub fun q p u t _ _ hlive => absurd hlive (hempty u)) hall.moves

/-! ## Events -/

theorem onTokenEvt_aside (c : Core) (id : Nat) (kind : TokenEvtKind) (key : String) :
    Aside c (c.onTokenEvt id kind key) := by
  have hset : ∀ (m : Map Nat LTokenSub) (l : List Fx),
      (∀ x ∈ l, x.about = none ∧ x.declares = false) →
      Aside c ({ c with lTsubs := m }.emits l) :=
    fun m l hl => .trans (.own c le_rfl _ m _ _) (emits_moves _ hl).aside
  rw [onTokenEvt]
  split
  · exact .refl c
  · cases c.lTsubs.lookup id with
    | none => exact .refl c
    | some t =>
      cases kind with
      | put =>
        simp only
        split
        · exact .refl c
        · exact hset _ _ (List.forall_mem_singleton.2 ⟨rfl, rfl⟩)
      | delete => exact hset _ _ (List.forall_mem_singleton.2 ⟨rfl, rfl⟩)
      | batchEnd => exact hset c.lTsubs _ (List.forall_mem_singleton.2 ⟨rfl, rfl⟩)

/-- A reply that arrives for a query its target has not left. -/
theorem forwardReply_aside {q : Nat} {t : Target}
    (ht : (c.pending.lookup q).any (t ∈ ·.targets) = true) (key : String) (ok : Bool)
    (payload : Payload) : Aside c (c.forwardReply o q t key ok payload) := by
  refine (forwardReply_moves (fun p hp => ?_) key ok payload).aside
  simpa [hp] using ht

/-! ## Sessions that are installed -/

/-- The routers a node knows after a hello. -/
def hears (c : Core) (h : Hello) : Map String String :=
  h.peers.foldl (fun k x => if x.1 ≠ c.node then k.insert x.1 x.2 else k) (match h.adv with
    | some a => if h.role = .router then c.known.insert h.node a else c.known
    | none => c.known)

/-- The new session is in the books. -/
def enter (c : Core) (stream : Nat) (h : Hello) (dialer : String) (boot sno : Nat) : Core :=
  { c with
    nextUid := c.nextUid + 1
    known := c.hears h
    byPeer := c.byPeer.insert h.node c.nextUid
    sessions := c.sessions.insert c.nextUid
      { peer := h.node, role := h.role, dialer, boot, sno, adv := h.adv, stream, peers := h.peers } }

/-- It is greeted, and the other routers hear of it. -/
def greet (c : Core) (o : Told) (uid : Nat) (role : Role) : Core :=
  let c := c.emits ((c.greeting o role).map (.push uid · true))
  if c.router ∧ role = .router then c.broadcastPeers else c

theorem install_eq (c : Core) (o : Told) (stream : Nat) (h : Hello) (dialer : String)
    (boot sno : Nat) : c.install o stream h dialer boot sno =
      (c.enter stream h dialer boot sno).greet o c.nextUid h.role := by
  obtain ⟨_, role, _, _, _, adv, _⟩ := h
  cases adv with
  | none => rfl
  | some a => cases role <;> rfl

theorem greet_works (c : Core) (o : Told) (uid : Nat) (role : Role) :
    Works c (c.greet o uid role) := by
  rw [greet]
  have hall := emits_works c (l := (c.greeting o role).map (.push uid · true))
    (List.forall_mem_map.2 fun _ _ => rfl)
  split
  · exact hall.trans (toRouters_moves _ rfl).works
  · exact hall

theorem greet_eq (c : Core) (o : Told) (uid : Nat) (role : Role) :
    ∃ l, c.greet o uid role = { c with fx := l } := by
  rw [greet]
  split
  · exact ⟨_, rfl⟩
  · exact ⟨_, rfl⟩

/-! ## Every event -/

/-- A node that works may take a session in, or begin a query for somebody who is there. -/
inductive Handles (c : Core) : Core → Prop where
  | works {x} (h : Works c x) : Handles c x
  | install {x} (h : Works c x) (o stream hello dialer boot sno) :
    Handles c (x.install o stream hello dialer boot sno)
  | query (o origin expr payload timeoutMs)
      (h : ∀ u, Origin.src origin = some u → u ∈ c.sessions) :
    Handles c (c.routeGet o origin expr payload timeoutMs)

theorem onCmd_handles (c : Core) (o : Told) (cmd : Cmd) : Handles c (c.onCmd o cmd) := by
  cases cmd with
  | declareToken key => exact .works (c.declareLocal_works o .token key)
  | subscribe expr => exact .works (c.declareLocal_works o .sub expr)
  | queryable expr => exact .works (c.declareLocal_works o .qabl expr)
  | tokenSub expr history => exact .works (c.tokenSub_aside o expr history).works
  | undeclare kind id => exact .works (c.undeclareLocal_works o _ _)
  | tokenUnsub id => exact .works (c.tokenUnsub_aside o id).works
  | put key payload => exact .works (c.routePut_aside o _ key payload).works
  | get expr payload timeoutMs tx => exact .query o _ _ _ _ fun u hu => absurd hu nofun
  | localReply q qabl key ok payload =>
    refine .works ?_
    simp only [onCmd]
    split_ifs with ht
    · exact (forwardReply_aside ht _ _ _).works
    · exact .refl c
  | localFinal q qabl => exact .works (c.targetDone_moves o _ _).works
  | close => exact .works (c.shutdown_works o)

theorem onMsg_handles (c : Core) (o : Told) (uid : Nat) (m : Msg) : Handles c (c.onMsg o uid m) := by
  rw [onMsg]
  cases hs : c.sessions.lookup uid with
  | none => exact .works (.refl c)
  | some s =>
    cases m with
    | close r => exact .works (c.close_works o uid r).1
    | hello | keepAlive | declareDone => exact .works (.refl c)
    | declare kind id expr => exact .works (remoteDeclare_works hs kind id expr)
    | undeclare kind id => exact .works (remoteUndeclare_works hs kind id)
    | tokenSub id expr history =>
      refine .works ?_
      simp only
      split
      · refine (Works.session hs _).trans (emits_moves _ ?_).works
        split
        · refine List.forall_mem_append.2 ⟨List.forall_mem_map.2 fun _ _ => ⟨rfl, rfl⟩, ?_⟩
          exact List.forall_mem_singleton.2 ⟨rfl, rfl⟩
        · exact fun x hx => absurd hx List.not_mem_nil
      · exact .refl c
    | tokenUnsub id => exact .works (.session hs _)
    | tokenEvt id kind key => exact .works (c.onTokenEvt_aside id kind key).works
    | peers list =>
      have hknown : Works c (c.learn list) := .aside (fun _ => .rfl) rfl rfl le_rfl rfl
      exact .works (hknown.trans (.session (c := c.learn list) hs _))
    | put key payload => exact .works (c.routePut_aside o _ key payload).works
    | request qid expr payload timeoutMs =>
      refine .query o _ _ _ _ fun u hu => ?_
      rw [← Option.some.inj hu]
      exact Map.mem_iff_lookup.2 ⟨s, hs⟩
    | reply q key ok payload =>
      refine .works ?_
      simp only
      split_ifs with ht
      · exact (forwardReply_aside ht _ _ _).works
      · exact .refl c
    | final q => exact .works (c.targetDone_moves o _ _).works

theorem onAccepted_handles (c : Core) (o : Told) (stream : Nat) (h : Hello) :
    Handles c (c.onAccepted o stream h) := by
  rw [onAccepted]
  split
  · exact .works (.refl c)
  · have hhello := (emits_moves c (l := [.direct stream (.hello (c.myHello h.sno))])
      (List.forall_mem_singleton.2 ⟨rfl, rfl⟩)).works
    change Works c (c.emit (.direct stream (.hello (c.myHello h.sno)))) at hhello
    generalize c.emit (.direct stream (.hello (c.myHello h.sno))) = c' at hhello ⊢
    simp only
    cases c'.acceptVerdict h with
    | some r =>
      exact .works (hhello.trans (emits_moves c' (List.forall_mem_singleton.2 ⟨rfl, rfl⟩)).works)
    | none =>
      simp only
      cases c'.byPeer.lookup h.node with
      | none => exact .install hhello o stream h h.node h.boot h.sno
      | some u => exact .install (hhello.trans (c'.close_works o u _).1) o stream h h.node h.boot h.sno

theorem onDialed_handles (c : Core) (o : Told) (target : String) (sno : Nat)
    (res : Option (Nat × Hello)) : Handles c (c.onDialed o target sno res) := by
  rw [onDialed]
  cases c.dials.lookup target with
  | none => exact .works (.refl c)
  | some d =>
    cases res with
    | none => exact .works (.aside (fun _ => .rfl) rfl rfl le_rfl rfl)
    | some x =>
      obtain ⟨stream, h⟩ := x
      have hdial : Works c { c with dials := c.dials.insert target { d with
          busy := false, backoff := backoffMin, next := o.now + backoffMin, node := some h.node } } :=
        .aside (fun _ => .rfl) rfl rfl le_rfl rfl
      simp only
      generalize ({ c with dials := _ } : Core) = c' at hdial ⊢
      split
      · exact .works (hdial.trans (emits_moves c' (List.forall_mem_singleton.2 ⟨rfl, rfl⟩)).works)
      · cases c.byPeer.lookup h.node with
        | none => exact .install hdial o stream h c.node c.boot sno
        | some u =>
          simp only
          split
          · exact .works (hdial.trans (emits_moves c' (List.forall_mem_singleton.2 ⟨rfl, rfl⟩)).works)
          · exact .install (hdial.trans (c'.close_works o u _).1) o stream h c.node c.boot sno

theorem onEv_handles (c : Core) (o : Told) (e : Ev) : Handles c (c.onEv o e) := by
  cases e with
  | cmd cmd => exact c.onCmd_handles o cmd
  | msg uid m => exact c.onMsg_handles o uid m
  | closed uid reason => exact .works (c.close_works o uid reason).1
  | paused => exact .works (c.fence_works o)
  | tick gap => exact .works (c.onTick_works o gap)
  | accepted stream h => exact c.onAccepted_handles o stream h
  | dialed target sno res => exact c.onDialed_handles o target sno res

end Core

end OxlensSfu.Mesh
