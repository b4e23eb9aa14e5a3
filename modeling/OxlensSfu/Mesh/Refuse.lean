import OxlensSfu.Mesh.Works

/-!
# Replies that are refused

Requests, replies and the ends of queries share a lane that holds so many frames and no more. A
request that finds it full is answered with an error at once. A reply that finds it full is gone,
and nobody looks (`forwardReply`), while the end of the query may find room again.

* **`no_silent_loss`** — a query that ends has lost no reply, as long as its replies find room.
* `silent_loss` — a run in which one does not.
-/

namespace OxlensSfu.Mesh

/-- A reply to a session that its lane has no room for. -/
def Fx.refused : Fx → Bool
  | .reply _ _ (.sess _ _) _ _ _ queued => !queued
  | _ => false

/-- A reply of the query. -/
def Fx.replies (q : Nat) : Fx → Bool
  | .reply q' _ _ _ _ _ _ => q' = q
  | _ => false

/-- The lane of the session has room for the error of each target whose own lane is full, when the
targets are asked in this order and `n` effects went before. A full target is three of them: the
request, the error, and its end. -/
def Told.Spares (o : Told) (v : Nat) : Nat → List Target → Prop
  | _, [] => True
  | n, .loc _ :: ts => o.Spares v (n + 1) ts
  | n, .sess u :: ts =>
    if o.full u n then o.full v (n + 1) = false ∧ o.Spares v (n + 3) ts else o.Spares v (n + 1) ts

theorem Told.spares_free {o : Told} (h : ∀ u n, o.full u n = false) (v n : Nat) (ts : List Target) :
    o.Spares v n ts := by
  induction ts generalizing n with
  | nil => trivial
  | cons t ts ih =>
    cases t with
    | loc id => exact ih (n + 1)
    | sess u =>
      rw [Told.Spares, h, if_neg Bool.false_ne_true]
      exact ih (n + 1)

namespace Core

def refusals (c : Core) : List Fx := c.fx.filter (·.refused)

/-- The replies that one query has lost. -/
def lost (c : Core) (q : Nat) : List Fx := c.refusals.filter (·.replies q)

variable {c c' : Core} {o : Told}

theorem emits_refusals (c : Core) {l : List Fx} (hl : ∀ x ∈ l, x.refused = false) :
    (c.emits l).refusals = c.refusals := by
  have hnil : l.filter (·.refused) = [] :=
    List.filter_eq_nil_iff.2 fun x hx => by simp [hl x hx]
  rw [refusals, emits, List.filter_append, hnil, List.append_nil]
  rfl

theorem emit_refusals (c : Core) {x : Fx} (hx : x.refused = false) :
    (c.emit x).refusals = c.refusals := c.emits_refusals (List.forall_mem_singleton.2 hx)

theorem foldl_keeps {α : Type} (g : Core → List Fx) {f : Core → α → Core}
    (hf : ∀ c x, g (f c x) = g c) (l : List α) (c : Core) : g (l.foldl f c) = g c := by
  induction l generalizing c with
  | nil => rfl
  | cons x l ih => exact (ih (f c x)).trans (hf c x)

/-! ## Handlers that send no reply -/

theorem toRouters_refusals (c : Core) (m : Msg) : (c.toRouters m).refusals = c.refusals :=
  c.emits_refusals (List.forall_mem_map.2 fun _ _ => rfl)

theorem announce_refusals (c : Core) (m : Msg) : (c.announce m).refusals = c.refusals := by
  rw [announce]
  split
  · exact c.toRouters_refusals m
  · rfl

theorem tellUpstream_refusals (c : Core) (o : Told) (m : Msg) :
    (c.tellUpstream o m).refusals = c.refusals := by
  rw [tellUpstream]
  cases c.upstream o with
  | none => rfl
  | some u => exact c.emit_refusals rfl

theorem tokNotify_refusals (c : Core) (kind : TokenEvtKind) (key : String) :
    (c.tokNotify kind key).refusals = c.refusals := by
  refine c.emits_refusals (List.forall_mem_append.2 ⟨List.forall_mem_map.2 fun _ _ => rfl, ?_⟩)
  exact List.forall_mem_flatMap.2 fun _ _ => List.forall_mem_map.2 fun _ _ => rfl

theorem batchEnd_refusals (c : Core) : c.batchEnd.refusals = c.refusals := by
  refine c.emits_refusals (List.forall_mem_append.2 ⟨List.forall_mem_map.2 fun _ _ => rfl, ?_⟩)
  exact List.forall_mem_flatMap.2 fun _ _ => List.forall_mem_map.2 fun _ _ => rfl

theorem tokAdd_refusals (c : Core) (key : String) : (c.tokAdd key).refusals = c.refusals := by
  rw [tokAdd]
  cases c.tok.lookup key with
  | some n => rfl
  | none => exact tokNotify_refusals _ .put key

theorem tokDel_refusals (c : Core) (key : String) : (c.tokDel key).1.refusals = c.refusals := by
  rw [tokDel]
  cases c.tok.lookup key with
  | none => rfl
  | some n =>
    simp only
    split_ifs
    · rfl
    · exact tokNotify_refusals _ .delete key

theorem unlist_refusals (c : Core) (u : Nat) (d : DeclKind × Nat) (e : String) :
    (c.unlist u d e).1.refusals = c.refusals := by
  rw [unlist]
  cases d.1 with
  | token => exact c.tokDel_refusals e
  | sub | qabl => rfl

theorem retract_refusals (c : Core) (u : Nat) (d : DeclKind × Nat) :
    (c.retract u d).refusals = c.refusals := by
  rw [retract]
  cases c.south.lookup (u, d) with
  | none => rfl
  | some rid => exact announce_refusals _ _

theorem closeDecl_refusals (u : Nat) (x : Core × Bool) (d : (_ : DeclKind × Nat) × String) :
    (closeDecl u x d).1.refusals = x.1.refusals :=
  (retract_refusals _ u d.1).trans (x.1.unlist_refusals u d.1 d.2)

theorem closeDecls_refusals (u : Nat) (ds : List ((_ : DeclKind × Nat) × String))
    (x : Core × Bool) : (ds.foldl (closeDecl u) x).1.refusals = x.1.refusals := by
  induction ds generalizing x with
  | nil => rfl
  | cons d ds ih => exact (ih (closeDecl u x d)).trans (closeDecl_refusals u x d)

theorem finish_refusals (c : Core) (o : Told) (q : Nat) : (c.finish o q).refusals = c.refusals := by
  rw [finish]
  cases c.pending.lookup q with
  | none => rfl
  | some p =>
    simp only
    cases p.origin with
    | loc tx => rfl
    | sess u theirs =>
      simp only
      split_ifs
      · exact emit_refusals _ rfl
      · rfl

theorem dropTarget_refusals (c : Core) (o : Told) (q : Nat) (p : Pending) (t : Target) :
    (c.dropTarget o q p t).refusals = c.refusals := by
  rw [dropTarget]
  split_ifs with ht
  · simp only
    split_ifs
    · exact (finish_refusals _ o q).trans (emit_refusals _ rfl)
    · exact emit_refusals _ rfl
  · rfl

theorem targetDone_refusals (c : Core) (o : Told) (q : Nat) (t : Target) :
    (c.targetDone o q t).refusals = c.refusals := by
  rw [targetDone]
  cases c.pending.lookup q with
  | none => rfl
  | some p => exact c.dropTarget_refusals o q p t

theorem closePending_refusals (o : Told) (u : Nat) (c : Core) (q : Nat) :
    (closePending o u c q).refusals = c.refusals := by
  rw [closePending]
  cases c.pending.lookup q with
  | none => rfl
  | some p =>
    simp only
    split_ifs
    · rfl
    · exact c.dropTarget_refusals o q p _

theorem forgetSeen_refusals (c : Core) : c.forgetSeen.refusals = c.refusals := by
  refine emits_refusals _ (List.forall_mem_flatMap.2 fun _ _ => List.forall_mem_append.2
    ⟨List.forall_mem_map.2 fun _ _ => rfl, List.forall_mem_singleton.2 rfl⟩)

theorem close_refusals (c : Core) (o : Told) (u : Nat) (reason : CloseReason) :
    (c.close o u reason).refusals = c.refusals := by
  cases hs : c.sessions.lookup u with
  | none => simp [close, hs]
  | some s =>
    have hleave : (c.leave u s reason).refusals = c.refusals :=
      emit_refusals { c with
        sessions := c.sessions.erase u
        byPeer := if c.byPeer.lookup s.peer = some u then c.byPeer.erase s.peer else c.byPeer } rfl
    have hdecls : ((c.leave u s reason).dropDecls o u s).refusals = c.refusals := by
      have hclosed := closeDecls_refusals u ((o.decls u).run s.decls.entries)
        (c.leave u s reason, false)
      rw [dropDecls]
      simp only
      split
      · split
        · exact (batchEnd_refusals _).trans (hclosed.trans hleave)
        · exact hclosed.trans hleave
      · exact (forgetSeen_refusals _).trans (hclosed.trans hleave)
    have hqueries : (((c.leave u s reason).dropDecls o u s).dropQueries o u).refusals =
        c.refusals := (foldl_keeps refusals (closePending_refusals o u) _ _).trans hdecls
    rw [close_eq hs, tellLeft]
    split
    · exact (toRouters_refusals _ _).trans hqueries
    · exact hqueries

theorem closeAll_refusals (c : Core) (o : Told) (reason : CloseReason) (us : List Nat) :
    (c.closeAll o reason us).refusals = c.refusals :=
  foldl_keeps refusals (fun c u => c.close_refusals o u reason) us c

theorem install_refusals (c : Core) (o : Told) (k : Nat) (h : Hello) (dialer : String)
    (boot sno : Nat) : (c.install o k h dialer boot sno).refusals = c.refusals := by
  rw [install_eq, greet]
  have hgreet := emits_refusals (c.enter k h dialer boot sno)
    (l := ((c.enter k h dialer boot sno).greeting o h.role).map (.push c.nextUid · true))
    (List.forall_mem_map.2 fun _ _ => rfl)
  split
  · exact (toRouters_refusals _ _).trans hgreet
  · exact hgreet

theorem dialOne_refusals (o : Told) (c : Core) (addr : String) :
    (dialOne o c addr).refusals = c.refusals := by
  rw [dialOne]
  simp only
  split_ifs
  · rfl
  · exact emit_refusals _ rfl

theorem deliveries_refused (c : Core) (o : Told) (src : Option Nat) (key : String)
    (payload : Payload) (ks : List (Owner × Nat)) (done : List Nat) :
    ∀ x ∈ c.deliveries o src key payload ks done, x.refused = false := by
  intro x hx
  obtain ⟨id, rfl⟩ | ⟨u, queued, rfl⟩ := of_mem_deliveries hx
  · rfl
  · rfl

theorem routePut_refusals (c : Core) (o : Told) (src : Option Nat) (key : String)
    (payload : Payload) : (c.routePut o src key payload).refusals = c.refusals := by
  rw [routePut]
  have hall := c.emits_refusals (c.deliveries_refused o src key payload (c.subs.matching key) [])
  generalize c.emits (c.deliveries o src key payload (c.subs.matching key) []) = c' at hall ⊢
  cases c'.upstream o with
  | none => exact hall
  | some u =>
    simp only
    split_ifs
    · exact (emit_refusals _ rfl).trans hall
    · exact hall

theorem remoteDeclare_refusals (c : Core) (u : Nat) (s : Sess) (k : DeclKind) (i : Nat)
    (e : String) : (c.remoteDeclare u s k i e).refusals = c.refusals := by
  have hkind : ∀ c : Core, (c.noteDecl u k i e).refusals = c.refusals := by
    intro c
    cases k with
    | token => exact c.tokAdd_refusals e
    | sub | qabl => rfl
  rw [remoteDeclare]
  split
  · simp only
    split_ifs
    · rfl
    · exact (announce_refusals _ _).trans (hkind _)
    · exact hkind _
  · rfl

theorem remoteUndeclare_refusals (c : Core) (u : Nat) (s : Sess) (k : DeclKind) (i : Nat) :
    (c.remoteUndeclare u s k i).refusals = c.refusals := by
  rw [remoteUndeclare]
  cases s.decls.lookup (k, i) with
  | none => rfl
  | some e => exact closeDecl_refusals u (_, false) ⟨(k, i), e⟩

theorem declareLocal_refusals (c : Core) (o : Told) (k : DeclKind) (e : String) :
    (c.declareLocal o k e).refusals = c.refusals := by
  have hset : (c.keepDecl k e).refusals = c.refusals := by
    cases k <;> rfl
  have htell : ∀ (c : Core) (id : Nat), (c.tellDecl o k id e).refusals = c.refusals := by
    intro c id
    unfold tellDecl
    split
    · refine (announce_refusals _ _).trans ?_
      show (if k = .token then c.tokAdd e else c).refusals = c.refusals
      split
      · exact c.tokAdd_refusals e
      · rfl
    · exact c.tellUpstream_refusals o _
  rw [declareLocal]
  exact (htell _ c.nextId).trans hset

theorem undeclareLocal_refusals (c : Core) (o : Told) (k : DeclKind) (i : Nat) :
    (c.undeclareLocal o k i).refusals = c.refusals := by
  have htell : ∀ (x : Core × Bool), (if x.2 then
      if x.1.router then { x.1 with out := x.1.out.erase i }.announce (.undeclare k i)
      else x.1.tellUpstream o (.undeclare k i)
      else x.1).refusals = x.1.refusals := by
    intro x
    split
    · split
      · exact announce_refusals _ _
      · exact x.1.tellUpstream_refusals o _
    · rfl
  cases k with
  | token =>
    cases hk : c.lTokens.lookup i with
    | none => simp [undeclareLocal, hk]
    | some e =>
      have hgone : (if c.router then ({ c with lTokens := c.lTokens.erase i }.tokDel e).1
          else { c with lTokens := c.lTokens.erase i } : Core).refusals = c.refusals := by
        split
        · exact tokDel_refusals _ e
        · rfl
      unfold undeclareLocal
      simp only [hk]
      exact (htell (_, true)).trans hgone
  | sub => exact htell ({ c with
      subs := c.subs.remove (.loc i) i, lSubs := c.lSubs.erase i }, decide (i ∈ c.lSubs))
  | qabl => exact htell ({ c with lQabls := c.lQabls.erase i }, decide (i ∈ c.lQabls))

theorem tokenSub_refusals (c : Core) (o : Told) (expr : String) (history : Bool) :
    (c.tokenSub o expr history).refusals = c.refusals := by
  have htell : ∀ (c : Core) (id : Nat),
      (c.askTokens o id expr history).refusals = c.refusals := by
    intro c id
    unfold askTokens
    split
    · split
      · exact c.emits_refusals (List.forall_mem_append.2
          ⟨List.forall_mem_map.2 fun _ _ => rfl, List.forall_mem_singleton.2 rfl⟩)
      · rfl
    · split
      · exact c.emit_refusals rfl
      · split
        · exact c.emit_refusals rfl
        · rfl
  exact htell { c with nextId := c.nextId + 1 } c.nextId

theorem onTokenEvt_refusals (c : Core) (id : Nat) (kind : TokenEvtKind) (key : String) :
    (c.onTokenEvt id kind key).refusals = c.refusals := by
  rw [onTokenEvt]
  split
  · rfl
  · cases c.lTsubs.lookup id with
    | none => rfl
    | some t =>
      cases kind with
      | put =>
        simp only
        split
        · rfl
        · exact emit_refusals _ rfl
      | delete => exact emit_refusals _ rfl
      | batchEnd => exact emit_refusals _ rfl

theorem onTick_refusals (c : Core) (o : Told) (gap : Nat) :
    (c.onTick o gap).refusals = c.refusals := by
  rw [onTick]
  split
  · exact c.closeAll_refusals o .fenced _
  · refine (foldl_keeps refusals (dialOne_refusals o) _ _).trans ?_
    exact (foldl_keeps refusals (fun c q => c.finish_refusals o q) _ _).trans
      (c.closeAll_refusals o .expired _)

theorem onAccepted_refusals (c : Core) (o : Told) (k : Nat) (h : Hello) :
    (c.onAccepted o k h).refusals = c.refusals := by
  rw [onAccepted]
  split
  · rfl
  · have hhello := c.emit_refusals (x := .direct k (.hello (c.myHello h.sno))) rfl
    generalize c.emit (.direct k (.hello (c.myHello h.sno))) = c' at hhello ⊢
    simp only
    cases c'.acceptVerdict h with
    | some r => exact (c'.emit_refusals rfl).trans hhello
    | none =>
      refine (install_refusals _ o k h _ _ _).trans ?_
      cases c'.byPeer.lookup h.node with
      | none => exact hhello
      | some u => exact (c'.close_refusals o u _).trans hhello

theorem onDialed_refusals (c : Core) (o : Told) (target : String) (sno : Nat)
    (res : Option (Nat × Hello)) : (c.onDialed o target sno res).refusals = c.refusals := by
  rw [onDialed]
  cases c.dials.lookup target with
  | none => rfl
  | some d =>
    cases res with
    | none => rfl
    | some x =>
      obtain ⟨k, h⟩ := x
      simp only
      split
      · exact emit_refusals _ rfl
      · cases c.byPeer.lookup h.node with
        | none => exact install_refusals _ o k h _ _ _
        | some u =>
          simp only
          split
          · exact emit_refusals _ rfl
          · exact (install_refusals _ o k h _ _ _).trans (close_refusals _ o u _)

/-! ## Replies -/

theorem lost_of_refusals {q : Nat} (h : c'.refusals = c.refusals) : c'.lost q = c.lost q := by
  rw [lost, h, lost]

theorem emit_lost (c : Core) {q : Nat} {x : Fx} (hx : x.refused = true → x.replies q = false) :
    (c.emit x).lost q = c.lost q := by
  have hnil : ([x].filter (·.refused)).filter (·.replies q) = [] := by
    cases hr : x.refused with
    | false => simp [hr]
    | true => simp [hr, hx hr]
  rw [lost, refusals, emit, emits, List.filter_append, List.filter_append, hnil, List.append_nil]
  rfl

theorem emit_kept (c : Core) (q : Nat) {x : Fx} (hx : x.refused = false) :
    (c.emit x).lost q = c.lost q := lost_of_refusals (c.emit_refusals hx)

/-- A query loses no reply when the lane of the session that asked has room. -/
theorem forwardReply_lost {q q' : Nat} (hroom : q' = q → ∀ p u theirs,
      c.pending.lookup q = some p → p.origin = .sess u theirs → u ∈ c.sessions →
      o.full u c.fx.length = false)
    (t : Target) (key : String) (ok : Bool) (payload : Payload) :
    (c.forwardReply o q' t key ok payload).lost q = c.lost q := by
  rw [forwardReply]
  cases hp : c.pending.lookup q' with
  | none => rfl
  | some p =>
    simp only
    cases ho : p.origin with
    | loc tx => exact c.emit_kept q rfl
    | sess u theirs =>
      simp only
      split_ifs with hu
      · refine c.emit_lost fun hrefused => ?_
        rw [Fx.replies, decide_eq_false_iff_not]
        rintro rfl
        simp [Fx.refused, takes, hroom rfl p u theirs hp ho hu] at hrefused
      · rfl

/-- The query waits for these targets at least, which are there, as is the session that asked. -/
structure Asking (c : Core) (q : Nat) (origin : Origin) (ts : List Target) : Prop where
  pending : ∃ p, c.pending.lookup q = some p ∧ p.origin = origin ∧ ∀ t ∈ ts, t ∈ p.targets
  asker : ∀ v theirs, origin = .sess v theirs → v ∈ c.sessions
  locals : ∀ id, .loc id ∈ ts → id ∈ c.lQabls
  sessions : ∀ u, .sess u ∈ ts → u ∈ c.sessions

section Asking

variable {q : Nat} {origin : Origin} {t : Target} {ts : List Target}

theorem Asking.emit (h : c.Asking q origin ts) (x : Fx) : (c.emit x).Asking q origin ts :=
  ⟨h.pending, h.asker, h.locals, h.sessions⟩

theorem Asking.tail (h : c.Asking q origin (t :: ts)) : c.Asking q origin ts where
  pending := by
    obtain ⟨p, hp, ho, hall⟩ := h.pending
    exact ⟨p, hp, ho, fun x hx => hall x (List.mem_cons_of_mem t hx)⟩
  asker := h.asker
  locals id hid := h.locals id (List.mem_cons_of_mem t hid)
  sessions u hu := h.sessions u (List.mem_cons_of_mem t hu)

/-- A target is done, and others are waited for. -/
theorem Asking.done (h : c.Asking q origin (t :: ts)) (ht : t ∉ ts) (hne : ts ≠ []) :
    (c.targetDone o q t).Asking q origin ts ∧
      (c.targetDone o q t).fx.length = c.fx.length + 1 := by
  obtain ⟨p, hp, ho, hall⟩ := h.pending
  have hstay : ∀ x ∈ ts, x ∈ p.targets.filter (· ≠ t) := by
    intro x hx
    refine List.mem_filter.2 ⟨hall x (List.mem_cons_of_mem t hx), decide_eq_true ?_⟩
    exact fun he => ht (he ▸ hx)
  have hleft : p.targets.filter (· ≠ t) ≠ [] := by
    obtain ⟨x, hx⟩ := List.exists_mem_of_ne_nil ts hne
    exact List.ne_nil_of_mem (hstay x hx)
  rw [targetDone, hp]
  simp only
  rw [dropTarget, if_pos (hall t List.mem_cons_self)]
  simp only
  rw [if_neg hleft]
  refine ⟨⟨⟨_, AList.lookup_insert _, ho, hstay⟩, h.asker, h.tail.locals, h.tail.sessions⟩, ?_⟩
  exact List.length_append

/-- A reply is passed on for it. -/
theorem Asking.forward (h : c.Asking q origin ts) (key : String) (ok : Bool) (payload : Payload) :
    (c.forwardReply o q t key ok payload).Asking q origin ts ∧
      (c.forwardReply o q t key ok payload).fx.length = c.fx.length + 1 := by
  obtain ⟨p, hp, ho, -⟩ := h.pending
  rw [forwardReply, hp]
  simp only
  rw [ho]
  cases origin with
  | loc tx => exact ⟨h.emit _, List.length_append⟩
  | sess u theirs =>
    simp only
    rw [if_pos (h.asker u theirs rfl)]
    exact ⟨h.emit _, List.length_append⟩

variable (expr : String) (payload : Payload) (timeoutMs : Nat)

/-- **One target is asked.** -/
theorem Asking.ask (h : c.Asking q origin (t :: ts)) (ht : t ∉ ts)
    (hroom : ∀ v theirs, origin = .sess v theirs → o.Spares v c.fx.length (t :: ts)) :
    (ask o q expr payload timeoutMs c t).lost q = c.lost q ∧
      (ts ≠ [] → (Core.ask o q expr payload timeoutMs c t).Asking q origin ts ∧
        ∀ v theirs, origin = .sess v theirs →
          o.Spares v (Core.ask o q expr payload timeoutMs c t).fx.length ts) := by
  cases t with
  | loc id =>
    simp only [Core.ask]
    rw [if_pos (h.locals id List.mem_cons_self)]
    split_ifs
    · refine ⟨lost_of_refusals (c.targetDone_refusals o q _), fun hne => ?_⟩
      obtain ⟨hdone, hlength⟩ := h.done (o := o) ht hne
      rw [hlength]
      exact ⟨hdone, hroom⟩
    · refine ⟨c.emit_kept q rfl, fun _ => ⟨h.tail.emit _, ?_⟩⟩
      rw [show (c.emit (.query q id expr payload)).fx.length = c.fx.length + 1 from
        List.length_append]
      exact hroom
  | sess u =>
    obtain ⟨s, hs⟩ := Map.mem_iff_lookup.1 (h.sessions u List.mem_cons_self)
    rw [Core.ask, hs]
    simp only
    have hpush := h.emit (.push u (.request q expr payload timeoutMs)
      (c.takes o u (.request q expr payload timeoutMs)))
    have hlength : (c.emit (.push u (.request q expr payload timeoutMs)
        (c.takes o u (.request q expr payload timeoutMs)))).fx.length = c.fx.length + 1 :=
      List.length_append
    have hlost := c.emit_kept q (x := .push u (.request q expr payload timeoutMs)
      (c.takes o u (.request q expr payload timeoutMs))) rfl
    have htakes : c.takes o u (.request q expr payload timeoutMs) = !o.full u c.fx.length := rfl
    split_ifs with hqueued
    · have hfree : o.full u c.fx.length = false := by simpa [htakes] using hqueued
      refine ⟨hlost, fun _ => ⟨hpush.tail, fun v theirs ho => ?_⟩⟩
      have hspares := hroom v theirs ho
      rw [Told.Spares, hfree, if_neg Bool.false_ne_true] at hspares
      rwa [hlength]
    · have hfull : o.full u c.fx.length = true := by simpa [htakes] using hqueued
      have hspares : ∀ v theirs, origin = .sess v theirs →
          o.full v (c.fx.length + 1) = false ∧ o.Spares v (c.fx.length + 3) ts := by
        intro v theirs ho
        have hspares := hroom v theirs ho
        rwa [Told.Spares, if_pos hfull] at hspares
      obtain ⟨hforward, hlength'⟩ := hpush.forward (o := o) (t := .sess u) s.peer false laneFull
      refine ⟨?_, fun hne => ?_⟩
      · refine (lost_of_refusals (targetDone_refusals _ o q _)).trans
          ((forwardReply_lost (fun _ p v theirs hp ho _ => ?_) _ _ _ _).trans hlost)
        obtain ⟨p', hp', ho', -⟩ := hpush.pending
        obtain rfl := Option.some.inj (hp'.symm.trans hp)
        rw [hlength]
        exact (hspares v theirs (ho'.symm.trans ho)).1
      · obtain ⟨hdone, hlength''⟩ := hforward.done (o := o) ht hne
        refine ⟨hdone, fun v theirs ho => ?_⟩
        rw [hlength'', hlength', hlength]
        exact (hspares v theirs ho).2

/-- All of them are, each where it stands in the order. -/
theorem Asking.asks (h : c.Asking q origin ts) (hnd : ts.Nodup)
    (hroom : ∀ v theirs, origin = .sess v theirs → o.Spares v c.fx.length ts) :
    (ts.foldl (Core.ask o q expr payload timeoutMs) c).lost q = c.lost q := by
  induction ts generalizing c with
  | nil => rfl
  | cons t ts ih =>
    obtain ⟨ht, hnd⟩ := List.nodup_cons.1 hnd
    obtain ⟨hlost, hnext⟩ := h.ask expr payload timeoutMs ht hroom
    rcases eq_or_ne ts [] with rfl | hne
    · exact hlost
    · obtain ⟨hasking, hspares⟩ := hnext hne
      exact (ih hasking hnd hspares).trans hlost

end Asking

/-- To ask for one query loses no reply of another. -/
theorem ask_lost_other {q q' : Nat} (hq : q' ≠ q) (expr : String) (payload : Payload)
    (timeoutMs : Nat) (c : Core) (t : Target) :
    (ask o q' expr payload timeoutMs c t).lost q = c.lost q := by
  cases t with
  | loc id =>
    simp only [ask]
    split_ifs
    · exact lost_of_refusals (c.targetDone_refusals o q' _)
    · exact c.emit_kept q rfl
    · rfl
  | sess u =>
    rw [ask]
    cases c.sessions.lookup u with
    | none =>
      exact (lost_of_refusals (targetDone_refusals _ o q' _)).trans
        (forwardReply_lost (fun he => absurd he hq) ..)
    | some s =>
      simp only
      have hpush := c.emit_kept q (x := .push u (.request q' expr payload timeoutMs)
        (c.takes o u (.request q' expr payload timeoutMs))) rfl
      split_ifs
      · exact hpush
      · exact (lost_of_refusals (targetDone_refusals _ o q' _)).trans
          ((forwardReply_lost (fun he => absurd he hq) ..).trans hpush)

/-- A query is begun. -/
theorem routeGet_lost {origin : Origin} {expr : String} {q : Nat}
    (hroom : c.nextId = q → ∀ v theirs, origin = .sess v theirs → v ∈ c.sessions ∧
      o.Spares v (c.fx.length + 1) (o.targets.run (c.targets (some v) expr)))
    (payload : Payload) (timeoutMs : Nat) :
    (c.routeGet o origin expr payload timeoutMs).lost q = c.lost q := by
  let c₁ := c.begin o origin expr timeoutMs
  let ts := o.targets.run (c.targets (Origin.src origin) expr)
  let c₂ := ts.foldl (ask o c.nextId expr payload timeoutMs) c₁
  have hbegin : c₁.lost q = c.lost q := emit_kept { c with
    nextId := c.nextId + 1
    pending := c.pending.insert c.nextId
      ⟨origin, c.targets (Origin.src origin) expr, o.now + timeoutMs⟩ } q rfl
  have hasks : c₂.lost q = c₁.lost q := by
    by_cases hq : c.nextId = q
    · subst hq
      have hasking : c₁.Asking c.nextId origin ts := by
        refine ⟨⟨_, AList.lookup_insert _, rfl, fun t ht => o.targets.mem_run.1 ht⟩,
          fun v theirs ho => (hroom rfl v theirs ho).1,
          fun id hid => mem_targets_loc (o.targets.mem_run.1 hid),
          fun u hu => mem_targets_sess (o.targets.mem_run.1 hu)⟩
      refine hasking.asks expr payload timeoutMs (o.targets.nodup_run.2 (c.targets_nodup _ expr)) ?_
      rintro v theirs rfl
      have hlength : c₁.fx.length = c.fx.length + 1 := List.length_append
      rw [hlength]
      exact (hroom rfl v theirs rfl).2
    · exact foldl_keeps (lost · q) (ask_lost_other hq expr payload timeoutMs) ts c₁
  show (if (c₂.pending.lookup c.nextId).any (·.targets = []) then c₂.finish o c.nextId
    else c₂).lost q = c.lost q
  split_ifs
  · exact (lost_of_refusals (c₂.finish_refusals o c.nextId)).trans (hasks.trans hbegin)
  · exact hasks.trans hbegin

/-! ## Every run -/

/-- The reply of this target, when it is passed on to the session that asked, finds room. -/
def HasRoom (c : Core) (o : Told) (q : Nat) (t : Target) : Prop :=
  ∀ p u theirs, c.pending.lookup q = some p → t ∈ p.targets → p.origin = .sess u theirs →
    u ∈ c.sessions → o.full u c.fx.length = false

/-- Every reply of the query that is passed on to the session that asked finds room. The replies
are those of the targets, and when the query is begun the errors for targets whose own lane is
full. -/
def Roomy (q : Nat) (c : Core) (o : Told) : Ev → Prop
  | .msg v (.reply q' _ _ _) => q' = q → c.HasRoom o q (.sess v)
  | .cmd (.localReply q' id _ _ _) => q' = q → c.HasRoom o q (.loc id)
  | .msg v (.request _ expr _ _) => c.nextId = q → v ∈ c.sessions →
    o.Spares v (c.fx.length + 1) (o.targets.run (c.targets (some v) expr))
  | _ => True
theorem HasRoom.forwardReply {q q' : Nat} {t : Target} (h : q' = q → c.HasRoom o q t) (key : String)
    (ok : Bool) (payload : Payload) :
    (if (c.pending.lookup q').any (t ∈ ·.targets) then c.forwardReply o q' t key ok payload
      else c).lost q = c.lost q := by
  split_ifs with hany
  · refine forwardReply_lost (fun he p u theirs hp ho hu => ?_) _ _ _ _
    subst he
    rw [hp] at hany
    exact h rfl p u theirs hp (of_decide_eq_true hany) ho hu
  · rfl

/-- The event may pass on a reply. -/
def passesOn : Ev → Bool
  | .msg _ (.reply _ _ _ _) | .msg _ (.request _ _ _ _) => true
  | .cmd (.localReply _ _ _ _ _) | .cmd (.get _ _ _ _) => true
  | _ => false

theorem onEv_refusals {e : Ev} (he : passesOn e = false) : (c.onEv o e).refusals = c.refusals := by
  cases e with
  | cmd cmd =>
    cases cmd with
    | declareToken key => exact c.declareLocal_refusals o .token key
    | subscribe expr => exact c.declareLocal_refusals o .sub expr
    | queryable expr => exact c.declareLocal_refusals o .qabl expr
    | tokenSub expr history => exact c.tokenSub_refusals o expr history
    | undeclare k i => exact c.undeclareLocal_refusals o k i
    | tokenUnsub i =>
      simp only [onEv, onCmd]
      split
      · exact tellUpstream_refusals _ o _
      · rfl
    | put key payload => exact c.routePut_refusals o none key payload
    | get | localReply => exact absurd he Bool.false_ne_true.symm
    | localFinal q qabl => exact c.targetDone_refusals o q _
    | close => exact closeAll_refusals _ o .shutdown _
  | msg v m =>
    rw [onEv, onMsg]
    cases hs : c.sessions.lookup v with
    | none => rfl
    | some s =>
      cases m with
      | close r => exact c.close_refusals o v r
      | hello | keepAlive | declareDone => rfl
      | declare k i e => exact c.remoteDeclare_refusals v s k i e
      | undeclare k i => exact c.remoteUndeclare_refusals v s k i
      | tokenSub id expr history =>
        simp only
        split
        · refine emits_refusals _ ?_
          split
          · exact List.forall_mem_append.2
              ⟨List.forall_mem_map.2 fun _ _ => rfl, List.forall_mem_singleton.2 rfl⟩
          · exact fun x hx => absurd hx List.not_mem_nil
        · rfl
      | tokenUnsub id => rfl
      | tokenEvt id kind key => exact c.onTokenEvt_refusals id kind key
      | peers list => rfl
      | put key payload => exact c.routePut_refusals o _ key payload
      | request | reply => exact absurd he Bool.false_ne_true.symm
      | final q => exact c.targetDone_refusals o q _
  | closed u reason => exact c.close_refusals o u reason
  | paused => exact c.closeAll_refusals o .fenced _
  | tick gap => exact c.onTick_refusals o gap
  | accepted k h => exact c.onAccepted_refusals o k h
  | dialed target sno res => exact c.onDialed_refusals o target sno res

/-- **One event.** -/
theorem onEv_lost {e : Ev} {q : Nat} (hroom : c.Roomy q o e) : (c.onEv o e).lost q = c.lost q := by
  cases he : passesOn e with
  | false => exact lost_of_refusals (onEv_refusals he)
  | true =>
    cases e with
    | cmd cmd =>
      cases cmd with
      | get expr payload timeoutMs tx =>
        refine routeGet_lost (fun _ v theirs ho => ?_) _ _
        exact absurd ho (by simp)
      | localReply q' id key ok payload => exact HasRoom.forwardReply hroom key ok payload
      | _ => exact absurd he Bool.false_ne_true
    | msg v m =>
      rw [onEv, onMsg]
      cases hs : c.sessions.lookup v with
      | none => rfl
      | some s =>
        cases m with
        | request qid expr payload timeoutMs =>
          refine routeGet_lost (fun hq w theirs ho => ?_) _ _
          cases ho
          have hw : v ∈ c.sessions := Map.mem_iff_lookup.2 ⟨s, hs⟩
          exact ⟨hw, hroom hq hw⟩
        | reply q' key ok payload => exact HasRoom.forwardReply hroom key ok payload
        | _ => exact absurd he Bool.false_ne_true
    | _ => exact absurd he Bool.false_ne_true

/-- A query of a session that has ended with a `Final` that was queued has lost no reply, or the
session has an error for the target it was of. -/
def Whole (c : Core) (q : Nat) : Prop :=
  ∀ u qid t key ok payload, .final q u qid true ∈ c.fx →
    .reply q t (.sess u qid) key ok payload false ∈ c.fx →
    ∃ key' payload', .reply q t (.sess u qid) key' false payload' true ∈ c.fx

def NoSilentLoss (c : Core) : Prop := ∀ q, c.Whole q

theorem whole_of_lost {q : Nat} (h : c.lost q = []) : c.Whole q := by
  intro u qid t key ok payload _ hreply
  have hmem : .reply q t (.sess u qid) key ok payload false ∈ c.lost q :=
    List.mem_filter.2 ⟨List.mem_filter.2 ⟨hreply, rfl⟩, decide_eq_true rfl⟩
  rw [h] at hmem
  exact absurd hmem List.not_mem_nil

/-- **No query is silently incomplete** as long as its replies find room. -/
theorem no_silent_loss (node : String) (router : Bool) (leaseMs boot : Nat) (adv : Option String)
    (seeds : List String) (q : Nat) {acts : List (Told × Ev)}
    (hrun : (machine.restrict fun c a => c.Roomy q a.1 a.2).Legal
      (Core.new node router leaseMs boot adv seeds) acts) :
    (machine.exec (Core.new node router leaseMs boot adv seeds) acts).Whole q := by
  refine whole_of_lost ?_
  rw [← Machine.restrict_exec machine fun c a => c.Roomy q a.1 a.2]
  refine Machine.invariant (I := fun c => c.lost q = []) ?_ rfl hrun
  exact fun c a hc hok => (onEv_lost hok.2).trans hc

/-- A client asks the process of the router, which answers. -/
def answering : List Ev :=
  [.accepted 0 { role := .client, node := "c", boot := 1, sno := 1 }, .cmd (.queryable "q"),
    .msg 1 (.request 7 "q" [] 1000), .cmd (.localReply 2 1 "q" true []), .cmd (.localFinal 2 1)]

/-- It asks again, and then the lane is full for the reply and for the end. -/
def refusing : List (Told × Ev) :=
  answering.map (({} : Told), ·) ++
    [(({} : Told), .msg 1 (.request 8 "q" [] 1000)),
      ({ full := fun _ _ => true }, .cmd (.localReply 3 1 "q" true [])),
      ({ full := fun _ _ => true }, .cmd (.localFinal 3 1))]

theorem no_silent_loss_answering :
    (machine.exec (Core.new "r" true 400 1 none []) refusing).Whole 2 := by
  refine no_silent_loss "r" true 400 1 none [] 2 ((Machine.restrict_legal ..).2 ⟨by decide, ?_⟩)
  intro l₁ a l₂ he
  have hmem : a ∈ refusing := by
    rw [he]
    exact List.mem_append_right _ List.mem_cons_self
  simp only [refusing, answering, List.map_cons, List.map_nil, List.cons_append, List.nil_append,
    List.mem_cons, List.not_mem_nil, or_false] at hmem
  rcases hmem with rfl | rfl | rfl | rfl | rfl | rfl | rfl | rfl
  · trivial
  · trivial
  · exact fun _ _ => Told.spares_free (fun _ _ => rfl) ..
  · exact fun _ _ _ _ _ _ _ _ => rfl
  · trivial
  · exact fun _ _ => Told.spares_free (fun _ _ => rfl) ..
  · exact fun hq => absurd hq (by decide)
  · trivial

/-- The lane is full for the reply and has room again for the end. -/
def losing : List (Told × Ev) :=
  (answering.take 3).map (({} : Told), ·) ++
    [({ full := fun _ _ => true }, .cmd (.localReply 2 1 "q" true [])),
      (({} : Told), .cmd (.localFinal 2 1))]

/-- The effect sends no reply that there is room for. -/
def sendsNoReply : Fx → Bool
  | .reply _ _ _ _ _ _ true => false
  | _ => true

theorem silent_loss : ∃ acts, machine.Legal (Core.new "r" true 400 1 none []) acts ∧
    ¬ (machine.exec (Core.new "r" true 400 1 none []) acts).NoSilentLoss := by
  refine ⟨losing, by decide, fun h => ?_⟩
  have hnone : ∀ x ∈ (machine.exec (Core.new "r" true 400 1 none []) losing).fx,
      ∀ key payload, x ≠ .reply 2 (.loc 1) (.sess 1 7) key false payload true := by
    have hall : (machine.exec (Core.new "r" true 400 1 none []) losing).fx.all
        sendsNoReply := by
      decide
    intro x hx key payload he
    rw [he] at hx
    exact absurd (List.all_eq_true.1 hall _ hx) (by simp [sendsNoReply])
  obtain ⟨key, payload, hmem⟩ := h 2 1 7 (.loc 1) "q" true [] (by decide) (by decide)
  exact hnone _ hmem key payload rfl

end Core

end OxlensSfu.Mesh
