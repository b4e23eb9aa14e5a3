import OxlensSfu.Mesh.Ends
import OxlensSfu.Mesh.Follow

/-!
# A client follows the tokens of its upstream

A client with one session at most asks its router for the tokens, and the router tells it of them.
Between the two, a subscription is not heard of yet (`Deaf`), waits to be, or is served (`Linked`):
then what the client has seen, with what is on its way, is what matches at the router.
-/

namespace OxlensSfu.Mesh

namespace Core

variable {c : Core} {o : Told} {e : Ev} {k id v : Nat} {x expr : String}

theorem turns_far (h : c.turns e = some (.far v id)) :
    ∃ m, e = .msg v m ∧ m.orders id = true ∧ m.lane = .declare := by
  cases e with
  | cmd cmd =>
    cases cmd with
    | tokenSub => exact absurd (Option.some.inj h) nofun
    | _ => exact absurd h nofun
  | msg u m =>
    cases m with
    | tokenSub i expr history =>
      obtain ⟨rfl, rfl⟩ := Ear.far.inj (Option.some.inj h)
      exact ⟨_, rfl, decide_eq_true rfl, rfl⟩
    | tokenUnsub i =>
      obtain ⟨rfl, rfl⟩ := Ear.far.inj (Option.some.inj h)
      exact ⟨_, rfl, decide_eq_true rfl, rfl⟩
    | _ => exact absurd h nofun
  | _ => exact absurd h nofun

/-! ## What a router says on a connection -/

/-- A client that has not asked is told nothing. -/
theorem said_unheard (h : c.Stands) (hsingle : c.Single) (hseats : c.Seats e (c.onEv o e))
    (hturn : ∀ v, c.on k = some v → c.turns e ≠ some (.far v id))
    (hun : ∀ v, c.on k = some v → c.listens (.far v id) = none) :
    changes id (c.said (c.onEv o e) k) = [] ∧
      ∀ v, (c.onEv o e).on k = some v → (c.onEv o e).listens (.far v id) = none := by
  have hhears := onEv_hears h.router h.uids o e
  have hv : ∀ v, c.on k = some v ∨ (c.onEv o e).on k = some v →
      c.turns e ≠ some (.far v id) ∧ c.listens (.far v id) = none := by
    intro v hv
    have hor : c.on k = some v ∨ v ∉ c.sessions ∧ ∃ h, e.brings = some (k, h) := by
      refine hv.elim .inl fun hon => ?_
      rcases Tip.on_onEv hseats hsingle hon with ⟨-, hon⟩ | ⟨-, hnew, hbrings⟩
      · exact .inl hon
      · exact .inr ⟨hnew, hbrings⟩
    rcases hor with hon | ⟨hnew, hello, hbrings⟩
    · exact ⟨hturn v hon, hun v hon⟩
    · refine ⟨fun ht => ?_, listens_none hnew⟩
      obtain ⟨m, rfl, -⟩ := turns_far ht
      exact absurd hbrings nofun
  obtain ⟨l, cs, hl, -, hnews⟩ := hhears.log
  refine ⟨?_, fun v hon => ?_⟩
  · cases hon : (c.on k).or ((c.onEv o e).on k) with
    | none =>
      rw [said, hon]
      rfl
    | some u =>
      have hor : c.on k = some u ∨ (c.onEv o e).on k = some u :=
        (Option.or_eq_some_iff.1 hon).imp (fun hold => hold) And.right
      obtain ⟨hturn, hnone⟩ := hv u hor
      rw [said_eq hl hon, changes_pushed]
      exact (hnews _ hturn).2 hnone
  · obtain ⟨hturn, hnone⟩ := hv v (.inr hon)
    obtain ⟨s, hs, -⟩ := of_on hon
    rw [hhears.keeps _ hturn (Map.mem_iff_lookup.2 ⟨s, hs⟩), hnone]

/-- A client that has asked is told of the tokens that match. -/
theorem said_heard (h : c.Stands) (hsingle : c.Single) (hseats : c.Seats e (c.onEv o e))
    (hbrings : ∀ h, e.brings ≠ some (k, h)) (hturn : c.turns e ≠ some (.far v id))
    (hon : (c.onEv o e).on k = some v) (hx : c.listens (.far v id) = some x) :
    (c.onEv o e).listens (.far v id) = some x ∧
      Change.replay (c.matched x) (changes id (c.said (c.onEv o e) k)) =
        (c.onEv o e).matched x := by
  have hhears := onEv_hears h.router h.uids o e
  obtain ⟨s, hs, -⟩ := of_on hon
  have hx' : (c.onEv o e).listens (.far v id) = some x :=
    (hhears.keeps _ hturn (Map.mem_iff_lookup.2 ⟨s, hs⟩)).trans hx
  obtain ⟨l, hl, hmatched⟩ := hhears.matched hturn hx'
  have hold : c.on k = some v := by
    rcases Tip.on_onEv hseats hsingle hon with ⟨-, hold⟩ | ⟨-, -, hello, he⟩
    · exact hold
    · exact absurd he (hbrings hello)
  refine ⟨hx', ?_⟩
  rw [said_eq (u := v) hl (by rw [hold]; rfl), changes_pushed, hmatched]

/-- It asks, and is told of the tokens that are there. -/
theorem said_asked (h : c.Stands) {s : Sess} (hs : c.sessions.lookup v = some s)
    (hrole : s.role = .client) (hon : c.on k = some v) (o : Told) (id : Nat) (expr : String) :
    let c' := c.onEv o (.msg v (.tokenSub id expr true))
    c'.listens (.far v id) = some expr ∧
      Change.replay ∅ (changes id (c.said c' k)) = c'.matched expr := by
  obtain ⟨l, hl, htok, hlistens, hreplay⟩ := tokenSubMsg_opens h.router hs hrole o id expr
  refine ⟨hlistens, ?_⟩
  show Change.replay ∅ (changes id (c.said (c.onMsg o v (.tokenSub id expr true)) k)) = _
  rw [said_eq (u := v) hl (by rw [hon]; rfl), changes_pushed, hreplay, matched, toks, ← htok]
  rfl

end Core

namespace Tip

/-- The router has not heard of the subscription, and tells the client nothing. -/
structure Deaf (k id : Nat) (c r : Tip) : Prop where
  silent : changes id c.inbox = []
  unheard : ∀ v, r.core.on k = some v → r.core.listens (.far v id) = none

/-- The client has seen `S`. -/
inductive Linked (k id : Nat) (expr : String) (S : Finset String) (c r : Tip) : Prop
  | waits (hasks : r.inbox.filter (Msg.orders id) = [.tokenSub id expr true])
      (hdeaf : Deaf k id c r) (hS : S = ∅)
  | serves (hcame : r.came = true) (hnone : r.inbox.filter (Msg.orders id) = [])
      (hears : ∀ v, r.core.on k = some v → r.core.listens (.far v id) = some expr ∧
        Change.replay S (changes id c.inbox) = r.core.matched expr)

variable {k id : Nat} {expr : String} {S : Finset String} {c c' r r' r₁ : Tip} {e : Ev}

theorem filter_tail {α : Type} (p : α → Bool) (l : List α) :
    l.tail.filter p = l.filter p ∨ ∃ x, l.filter p = x :: l.tail.filter p := by
  cases l with
  | nil => exact .inl rfl
  | cons x l =>
    by_cases hx : p x = true
    · exact .inr ⟨x, List.filter_cons_of_pos hx⟩
    · exact .inl (List.filter_cons_of_neg hx).symm

/-- A router that is not asked, or is. -/
theorem Takes.turns (h : r.Takes k e r₁) (id : Nat) :
    r₁.inbox.filter (Msg.orders id) = r.inbox.filter (Msg.orders id) ∧
        (∀ v, r.core.on k = some v → r.core.turns e ≠ some (.far v id)) ∨
      ∃ v m, e = .msg v m ∧ r.core.on k = some v ∧ r₁.came = true ∧
        r.inbox.filter (Msg.orders id) = m :: r₁.inbox.filter (Msg.orders id) := by
  cases h with
  | other hmsg _ =>
    refine .inl ⟨rfl, fun v hon ht => ?_⟩
    obtain ⟨m, he, -, hlane⟩ := Core.turns_far ht
    exact hmsg v m he hlane hon
  | @inbox u m ms hinbox hon hcame =>
    rw [hinbox]
    by_cases hm : m.orders id = true
    · exact .inr ⟨u, m, rfl, hon, hcame, List.filter_cons_of_pos hm⟩
    · refine .inl ⟨(List.filter_cons_of_neg hm).symm, fun v _ ht => ?_⟩
      obtain ⟨m', he, hm', -⟩ := Core.turns_far ht
      exact hm ((Ev.msg.inj he).2 ▸ hm')
  | comes hbrings _ =>
    refine .inl ⟨rfl, fun v _ ht => ?_⟩
    obtain ⟨m, rfl, -⟩ := Core.turns_far ht
    exact absurd hbrings nofun

theorem Takes.brings (h : r.Takes k e r₁) (hcame : r.came = true) (hello : Hello) :
    e.brings ≠ some (k, hello) := by
  cases h with
  | other _ hbrings => exact hbrings hello
  | inbox => simp [Ev.brings]
  | comes _ hnot => exact absurd (hcame.symm.trans hnot) (by simp)

theorem Takes.came (h : r.Takes k e r₁) (hcame : r.came = true) : r₁.came = true := by
  cases h with
  | other | inbox => exact hcame
  | comes => rfl

/-! ## The router does something -/

/-- An event of the router that is not about the subscription leaves the client deaf. -/
theorem Deaf.event (h : Deaf k id c r) (hstands : r.core.Stands) (hsingle : r.core.Single) {o : Told}
    (hseats : r.core.Seats e (r.core.onEv o e))
    (hturn : ∀ v, r.core.on k = some v → r.core.turns e ≠ some (.far v id)) :
    Deaf k id { c with inbox := c.inbox ++ r.core.said (r.core.onEv o e) k }
      { r₁ with core := r.core.onEv o e } := by
  obtain ⟨hsaid, hun⟩ := Core.said_unheard hstands hsingle hseats hturn h.unheard
  refine ⟨?_, hun⟩
  show changes id (c.inbox ++ _) = []
  rw [changes_append, h.silent, hsaid]
  rfl

theorem stands_of (h : r.core.Stands ∨ r.core.Client) (hr : r.core.router = true) :
    r.core.Stands :=
  h.resolve_right fun hc => absurd (hr.symm.trans hc.router) (by simp)

/-- A router that has not been asked leaves the client deaf. -/
theorem Deaf.router_acts (h : Deaf k id c r) (hr : r.core.router = true) (hfit : r.Fits k c)
    (hnone : r.inbox.filter (Msg.orders id) = []) (hact : r.Acts k c r' c') :
    Deaf k id c' r' ∧ r'.inbox.filter (Msg.orders id) = [] := by
  cases hact with
  | event ht o hnode hseats =>
    rcases ht.turns id with ⟨hsame, hturn⟩ | ⟨v, m, -, -, -, horder⟩
    · exact ⟨h.event (stands_of hnode hr) hfit.single hseats hturn, hsame.trans hnone⟩
    · exact absurd (hnone.symm.trans horder) nofun
  | skip hon hcame =>
    refine ⟨⟨h.silent, h.unheard⟩, ?_⟩
    rcases filter_tail (Msg.orders id) r.inbox with htail | ⟨m, horder⟩
    · exact htail.trans hnone
    · exact absurd (hnone.symm.trans horder) nofun
  | lose hon n =>
    have hsilent := h.silent
    rw [← List.take_append_drop n c.inbox, changes_append] at hsilent
    exact ⟨⟨(List.append_eq_nil_iff.1 hsilent).1, h.unheard⟩, hnone⟩

/-- **Whatever the router does**, the client stays linked. -/
theorem Linked.router_acts (h : Linked k id expr S c r) (hr : r.core.router = true)
    (hclient : c.core.router = false) (hfit : r.Fits k c) (hact : r.Acts k c r' c') :
    Linked k id expr S c' r' := by
  have hrole : c.core.role = .client := by
    rw [Core.role, hclient]
    rfl
  cases hact with
  | @event r₁ e ht o hnode hseats =>
    have hstands := stands_of hnode hr
    rcases ht.turns id with ⟨hsame, hturn⟩ | ⟨v, m, rfl, hon, hcame, horder⟩
    · cases h with
      | waits hasks hdeaf hS =>
        exact .waits (hsame.trans hasks) (hdeaf.event hstands hfit.single hseats hturn) hS
      | serves hcame hnone hears =>
        refine .serves (ht.came hcame) (hsame.trans hnone) fun v hon => ?_
        have hold : r.core.on k = some v := by
          rcases on_onEv hseats hfit.single hon with ⟨-, hold⟩ | ⟨-, -, hello, he⟩
          · exact hold
          · exact absurd he (ht.brings hcame hello)
        obtain ⟨hlistens, hreplay⟩ := hears v hold
        obtain ⟨hlistens', hreplay'⟩ := Core.said_heard hstands hfit.single hseats
          (ht.brings hcame) (hturn v hold) hon hlistens
        refine ⟨hlistens', ?_⟩
        show Change.replay S (changes id (c.inbox ++ _)) = _
        rw [changes_append, Change.replay_append, hreplay, hreplay']
    · -- the subscription arrives
      cases h with
      | waits hasks hdeaf hS =>
        obtain ⟨rfl, hrest⟩ := List.cons.inj (hasks.symm.trans horder)
        obtain ⟨s, hs, hk⟩ := Core.of_on hon
        have hsrole : s.role = .client := (hfit.role v s hs hk).trans hrole
        refine .serves hcame hrest.symm fun u hon' => ?_
        obtain rfl : u = v := by
          rcases on_onEv hseats hfit.single hon' with ⟨-, hold⟩ | ⟨-, -, hello, he⟩
          · exact Option.some.inj (hold.symm.trans hon)
          · cases he
        obtain ⟨hlistens, hreplay⟩ := Core.said_asked hstands hs hsrole hon o id expr
        refine ⟨hlistens, ?_⟩
        show Change.replay S (changes id (c.inbox ++ _)) = _
        rw [changes_append, hdeaf.silent, hS]
        exact hreplay
      | serves _ hnone _ => exact absurd (hnone.symm.trans horder) (by simp)
  | skip hon hcame =>
    have hvoid : ∀ {P : Nat → Prop} v, r.core.on k = some v → P v := fun v hv =>
      absurd (hon.symm.trans hv) (by simp)
    rcases filter_tail (Msg.orders id) r.inbox with htail | ⟨m, horder⟩
    · cases h with
      | waits hasks hdeaf hS =>
        exact .waits (htail.trans hasks) ⟨hdeaf.silent, hdeaf.unheard⟩ hS
      | serves _ hnone _ => exact .serves hcame (htail.trans hnone) hvoid
    · cases h with
      | waits hasks hdeaf hS =>
        exact .serves hcame (List.cons.inj (hasks.symm.trans horder)).2.symm hvoid
      | serves _ hnone _ => exact absurd (hnone.symm.trans horder) (by simp)
  | lose hon n =>
    cases h with
    | waits hasks hdeaf hS =>
      have hsilent := hdeaf.silent
      rw [← List.take_append_drop n c.inbox, changes_append] at hsilent
      exact .waits hasks ⟨(List.append_eq_nil_iff.1 hsilent).1, hdeaf.unheard⟩ hS
    | serves hcame hnone _ =>
      exact .serves hcame hnone fun v hv => absurd (hon.symm.trans hv) (by simp)

end Tip

/-! ## The client by itself -/

namespace Core

variable {c : Core} {o : Told} {e : Ev} {id : Nat} {expr : String}

/-- There is nothing of the ids that are still to be given. -/
def Unborn (c : Core) : Prop := ∀ id, c.nextId ≤ id → id ∉ c.lTsubs ∧ news (.own id) c.fx = []

/-- The own process has what the client has seen, and without a session nothing. -/
structure Seen (c : Core) (id : Nat) (expr : String) : Prop where
  known : id < c.nextId
  copy : ∀ t, c.lTsubs.lookup id = some t → t.expr = expr ∧ c.copy id = t.seen.toFinset ∧
    ((∀ u, u ∉ c.sessions) → t.seen = [])

theorem turns_ne (o : Told) (h : (c.onEv o e).nextId ≤ id) : c.turns e ≠ some (.own id) := by
  intro he
  obtain ⟨rfl, hlt⟩ := turns_own (o := o) he
  exact absurd h (Nat.not_le_of_lt hlt)

theorem Unborn.onEv (h : c.Unborn) (hc : c.Client) (o : Told) (e : Ev) : (c.onEv o e).Unborn := by
  intro id hle
  obtain ⟨hid, -⟩ := (c.onEv_handles o e).counts
  obtain ⟨hnone, hnews⟩ := h id (hid.trans hle)
  obtain ⟨hnone', l, hl, hnews', -⟩ := hc.onEv_fresh o (turns_ne o hle) hnone
  exact ⟨hnone', by rw [hl, news_append, hnews, hnews', List.append_nil]⟩

/-- The subscription is opened. -/
theorem Unborn.opens (h : c.Unborn) (hc : c.Client) (o : Told) (expr : String) :
    (c.onEv o (.cmd (.tokenSub expr true))).Seen c.nextId expr := by
  obtain ⟨l, hev, hnews, -⟩ := tokenSub_asks hc.router o expr true
  have hev : c.onEv o (.cmd (.tokenSub expr true)) = _ := hev
  rw [hev]
  refine ⟨Nat.lt_succ_self _, fun t ht => ?_⟩
  have ht : (c.lTsubs.insert c.nextId ({ expr } : LTokenSub)).lookup c.nextId = some t := ht
  rw [AList.lookup_insert] at ht
  obtain rfl := Option.some.inj ht
  refine ⟨rfl, ?_, fun _ => rfl⟩
  rw [Core.copy, news_append, (h c.nextId le_rfl).2, hnews]
  rfl

theorem Seen.turns (h : c.Seen id expr) (e : Ev) : c.turns e ≠ some (.own id) := fun he =>
  absurd (turns_own (o := {}) he).1 h.known.ne

theorem Seen.onEv (h : c.Seen id expr) (hc : c.Client) (hone : c.AtMostOne)
    (hone' : (c.onEv o e).AtMostOne) : (c.onEv o e).Seen id expr := by
  refine ⟨h.known.trans_le (c.onEv_handles o e).counts.1, fun t' ht' => ?_⟩
  obtain ⟨t, l, ht, hexpr, hl, hnews, hfate⟩ :=
    hc.onEv_fate o (h.turns e) hone hone' (fun t ht => (h.copy t ht).2.2) ht'
  obtain ⟨hx, hcopy, hidle⟩ := h.copy t ht
  refine ⟨hexpr.trans hx, ?_, fun hnone => ?_⟩
  · rw [Core.copy, hl, news_append, Change.replay_append, ← hnews, ← hcopy]
    rfl
  · cases hfate with
    | stays hs _ _ hsame =>
      have hempty : ∀ u, u ∉ c.sessions := fun u hu => hnone u ((hs u).2 hu)
      exact (hsame fun u _ _ => hempty u).trans (hidle hempty)
    | lost _ hseen | comes _ _ hseen _ => exact hseen

end Core

/-! ## The client does something -/

namespace Tip

variable {k id : Nat} {expr : String} {c c' r r' c₁ : Tip} {e : Ev}

/-- What the client takes is the first of what it is told. -/
theorem Takes.inboxes (h : c.Takes k e c₁) : ∃ ms, c.inbox = ms ++ c₁.inbox := by
  cases h with
  | other | comes => exact ⟨[], rfl⟩
  | inbox hinbox => exact ⟨[_], hinbox⟩

theorem changes_lane {m : Msg} (h : m.lane ≠ .declare) (id : Nat) : changes id [m] = [] := by
  cases m with
  | tokenEvt => exact absurd rfl h
  | _ => rfl

/-- What the client has seen after the event. -/
theorem Takes.seen (h : c.Takes k e c₁) {u : Nat} (hon : c.core.on k = some u)
    (hcame : c.came = true) (hone : c.core.AtMostOne) {t t' : LTokenSub}
    (hheard : ∀ u m, e = .msg u m → u ∈ c.core.sessions →
      Change.replay t.seen.toFinset (changes id [m]) = t'.seen.toFinset)
    (hsame : (∀ u m, e = .msg u m → u ∉ c.core.sessions) → t'.seen = t.seen) :
    ∃ cs, changes id c.inbox = cs ++ changes id c₁.inbox ∧
      Change.replay t.seen.toFinset cs = t'.seen.toFinset := by
  obtain ⟨s, hs, -⟩ := Core.of_on hon
  have hu : u ∈ c.core.sessions := Map.mem_iff_lookup.2 ⟨s, hs⟩
  cases h with
  | other hmsg _ =>
    refine ⟨[], rfl, ?_⟩
    by_cases hany : ∃ v m, e = .msg v m ∧ v ∈ c.core.sessions
    · obtain ⟨v, m, he, hv⟩ := hany
      obtain rfl := hone v hv u hu
      rw [← hheard v m he hv, changes_lane fun hlane => hmsg v m he hlane hon]
    · rw [hsame fun v m he hv => hany ⟨v, m, he, hv⟩]
      rfl
  | @inbox v m ms hinbox hon' _ =>
    obtain rfl := Option.some.inj (hon.symm.trans hon')
    exact ⟨changes id [m], by rw [hinbox, ← changes_append]; rfl, hheard u m rfl hu⟩
  | comes _ hnot => exact absurd (hcame.symm.trans hnot) (by simp)

theorem Linked.took {cs : List (Change String)} {S S' : Finset String} (h : Linked k id expr S c r)
    (hr : r'.core = r.core) (hcame : r'.came = r.came)
    (hasks : r'.inbox.filter (Msg.orders id) = r.inbox.filter (Msg.orders id))
    (htook : changes id c.inbox = cs ++ changes id c'.inbox) (hS : Change.replay S cs = S') :
    Linked k id expr S' c' r' := by
  cases h with
  | waits hwait hdeaf hempty =>
    obtain ⟨rfl, hrest⟩ := List.append_eq_nil_iff.1 (htook.symm.trans hdeaf.silent)
    refine .waits (hasks.trans hwait) ⟨hrest, ?_⟩ (hS.symm.trans hempty)
    rw [hr]
    exact hdeaf.unheard
  | serves hr' hnone hears =>
    refine .serves (hcame.trans hr') (hasks.trans hnone) ?_
    rw [hr, ← hS]
    rw [htook] at hears
    intro v hv
    rw [← Change.replay_append]
    exact hears v hv

theorem client_of (h : c.core.Stands ∨ c.core.Client) (hr : c.core.router = false) :
    c.core.Client :=
  h.resolve_left fun hs => absurd (hr.symm.trans hs.router) nofun

/-- **Whatever the client does**, it stays linked. -/
theorem Linked.client_acts (hclient : c.core.router = false) (hfit : c.Fits k r)
    (hfit' : r.Fits k c) (hone : c.core.AtMostOne) (hone' : c'.core.AtMostOne)
    (hearly : c.came = false → Deaf k id c r) (hseen : c.core.Seen id expr)
    (h : ∀ t u, c.core.lTsubs.lookup id = some t → c.core.on k = some u →
      Linked k id expr t.seen.toFinset c r) (hact : c.Acts k r c' r') :
    ∀ t u, c'.core.lTsubs.lookup id = some t → c'.core.on k = some u →
      Linked k id expr t.seen.toFinset c' r' := by
  intro t' u ht' hon'
  cases hact with
  | @event c₁ e ht o hnode hseats =>
    have hc := client_of hnode hclient
    obtain ⟨s', hs', -⟩ := Core.of_on hon'
    have hu' : u ∈ (c.core.onEv o e).sessions := Map.mem_iff_lookup.2 ⟨s', hs'⟩
    obtain ⟨t, l, hlook, hexpr, hl, -, hfate⟩ :=
      hc.onEv_fate o (hseen.turns e) hone hone' (fun t ht => (hseen.copy t ht).2.2) ht'
    have hx : t'.expr = expr := hexpr.trans (hseen.copy t hlook).1
    cases hfate with
    | stays hs hun hheard hsame =>
      have hon : c.core.on k = some u := by
        rcases on_onEv hseats hfit.single hon' with ⟨-, hold⟩ | ⟨-, hnew, -⟩
        · exact hold
        · exact absurd ((hs u).1 hu') hnew
      obtain ⟨cs, htook, hS⟩ := ht.seen hon (hfit.on_came hon) hone hheard hsame
      refine (h t u hlook hon).took rfl rfl ?_ htook hS
      rw [Core.said_eq (u := u) hl (by rw [hon]; rfl), List.filter_append, hun u, List.append_nil]
    | lost hs _ => exact absurd hu' (hs u)
    | comes he hs hempty hasks =>
      obtain rfl := hs u hu'
      obtain ⟨hello, hbrings⟩ : ∃ hello, e.brings = some (k, hello) := by
        rcases on_onEv hseats hfit.single hon' with ⟨hold, -⟩ | ⟨-, -, hbrings⟩
        · exact absurd (hc.uids _ hold) (lt_irrefl _)
        · exact hbrings
      have hnot : c.came = false := by
        by_contra hne
        exact ht.brings (by simpa using hne) hello hbrings
      have hsame : c₁.inbox = c.inbox := by
        cases ht with
        | other | comes => rfl
        | inbox => cases hbrings
      have hnone : c.core.on k = none := by
        cases hon : c.core.on k with
        | none => rfl
        | some v => exact absurd ((hfit.on_came hon).symm.trans hnot) (by simp)
      have hdeaf := hearly hnot
      refine .waits ?_ ⟨?_, hdeaf.unheard⟩ (by rw [hempty]; rfl)
      · rw [Core.said_eq (u := c.core.nextUid) hl (by rw [hnone, hon']; rfl), hfit'.early hnot,
          List.nil_append, hasks, hx]
      · show changes id c₁.inbox = []
        rw [hsame, hdeaf.silent]
  | skip hon => exact absurd (hon.symm.trans hon') (by simp)
  | lose hon => exact absurd (hon.symm.trans hon') (by simp)

/-! ## Before the subscription -/

/-- Nothing is known on the connection of the ids that are still to be given. -/
structure Blank (k : Nat) (c r : Tip) : Prop where
  early : c.came = false → ∀ id, Deaf k id c r
  fresh : ∀ u, c.core.on k = some u → ∀ id, c.core.nextId ≤ id →
    Deaf k id c r ∧ r.inbox.filter (Msg.orders id) = []

theorem Acts.far (h : c.Acts k r c' r') : r'.core = r.core ∧ r'.came = r.came := by
  cases h <;> exact ⟨rfl, rfl⟩

theorem Acts.router (h : c.Acts k r c' r') : c'.core.router = c.core.router := by
  cases h with
  | event _ _ _ hseats => exact hseats.router
  | skip | lose => rfl

theorem Blank.router_acts (h : Blank k c r) (hr : r.core.router = true) (hfit : r.Fits k c)
    (hact : r.Acts k c r' c') : Blank k c' r' := by
  obtain ⟨hcore, hcame⟩ := hact.far
  refine ⟨fun hnot id => ?_, fun u hon id hid => ?_⟩
  · rw [hcame] at hnot
    have hnone : r.inbox.filter (Msg.orders id) = [] := by
      rw [hfit.early hnot]
      rfl
    exact ((h.early hnot id).router_acts hr hfit hnone hact).1
  · rw [hcore] at hon hid
    obtain ⟨hdeaf, hnone⟩ := h.fresh u hon id hid
    exact hdeaf.router_acts hr hfit hnone hact

theorem Deaf.took (h : Deaf k id c r) {ms : List Msg} (hms : c.inbox = ms ++ c'.inbox)
    (hr : r'.core = r.core) : Deaf k id c' r' := by
  have hsilent := h.silent
  rw [hms, changes_append] at hsilent
  exact ⟨(List.append_eq_nil_iff.1 hsilent).2, hr ▸ h.unheard⟩

theorem Blank.client_acts (h : Blank k c r) (hclient : c.core.router = false) (hfit : c.Fits k r)
    (hfit' : r.Fits k c) (hunborn : c.core.Unborn) (hact : c.Acts k r c' r') :
    Blank k c' r' := by
  cases hact with
  | @event c₁ e ht o hnode hseats =>
    have hc := client_of hnode hclient
    obtain ⟨ms, hms⟩ := ht.inboxes
    refine ⟨fun hnot id => ?_, fun u hon id hid => ?_⟩
    · have hbefore : c.came = false := by
        by_contra hne
        exact absurd (hnot.symm.trans (ht.came (by simpa using hne))) (by simp)
      exact (h.early hbefore id).took hms rfl
    · have hold := (c.core.onEv_handles o e).counts.1.trans hid
      obtain ⟨-, l, hl, -, hun⟩ :=
        hc.onEv_fresh o (Core.turns_ne o hid) (hunborn id hold).1
      have hsaid : (c.core.said (c.core.onEv o e) k).filter (Msg.orders id) = [] := by
        cases hor : (c.core.on k).or ((c.core.onEv o e).on k) with
        | none =>
          rw [Core.said, hor]
          rfl
        | some v => rw [Core.said_eq hl hor, hun v]
      have hboth : Deaf k id c r ∧ r.inbox.filter (Msg.orders id) = [] := by
        rcases on_onEv hseats hfit.single hon with ⟨-, hon⟩ | ⟨-, -, hello, hbrings⟩
        · exact h.fresh u hon id hold
        · have hnot : c.came = false := by
            by_contra hne
            exact ht.brings (by simpa using hne) hello hbrings
          refine ⟨h.early hnot id, ?_⟩
          rw [hfit'.early hnot]
          rfl
      refine ⟨hboth.1.took hms rfl, ?_⟩
      rw [List.filter_append, hboth.2, hsaid]
      rfl
  | skip hon hcame =>
    refine ⟨fun hnot => absurd (hcame.symm.trans hnot) (by simp), fun u hon' => ?_⟩
    exact absurd (hon.symm.trans hon') (by simp)
  | lose hon n =>
    refine ⟨fun hnot id => ⟨(h.early hnot id).silent, (h.early hnot id).unheard⟩, fun u hon' => ?_⟩
    exact absurd (hon.symm.trans hon') (by simp)

/-- The subscription is opened on a session that is there. -/
theorem Blank.opens (h : Blank k c r) (hc : c.core.Client) (hone : c.core.AtMostOne) (o : Told)
    (expr : String) {u : Nat} (hon : c.core.on k = some u) :
    let c' := c.core.onEv o (.cmd (.tokenSub expr true))
    Linked k c.core.nextId expr ∅ { c with core := c' }
      { r with inbox := r.inbox ++ c.core.said c' k } := by
  intro c'
  obtain ⟨s, hs, -⟩ := Core.of_on hon
  have hup := Core.upstream_single hc hone (Map.mem_iff_lookup.2 ⟨s, hs⟩) o
  obtain ⟨l, hev, -, hpushed⟩ := Core.tokenSub_asks hc.router o expr true
  have hl : c'.fx = c.core.fx ++ l := congrArg Core.fx hev
  obtain ⟨hdeaf, hnone⟩ := h.fresh u hon _ le_rfl
  refine .waits ?_ ⟨hdeaf.silent, hdeaf.unheard⟩ rfl
  rw [Core.said_eq (u := u) hl (by rw [hon]; rfl), hpushed, if_pos hup, List.filter_append, hnone]
  simp [Msg.orders]

end Tip

/-! ## Every run of the network -/

namespace World

variable {ι : Type} [DecidableEq ι] {W : Wires ι} {w : World ι} {i : ι} {id : Nat} {expr : String}

/-- The node keeps to one session. -/
def Lone (W : Wires ι) (i : ι) (w : World ι) (a : Act ι) : Prop :=
  (((net W).next w a).core i).AtMostOne

/-- A connection of the node with a router. -/
def Leads (W : Wires ι) (w : World ι) (i : ι) (k : Nat) (b : Bool) : Prop :=
  W.node k b = i ∧ (w.core (W.node k (!b))).router = true

/-- A client, at any time. -/
structure Ready (W : Wires ι) (i : ι) (w : World ι) : Prop where
  inv : w.Inv W fun _ => Core.Agrees False
  client : (w.core i).router = false
  lone : (w.core i).AtMostOne
  unborn : (w.core i).Unborn
  blank : ∀ k b, w.Leads W i k b → (w.tip W k b).Blank k (w.tip W k (!b))

/-- A client that has opened the subscription. -/
structure Follows (W : Wires ι) (i : ι) (id : Nat) (expr : String) (w : World ι) : Prop
    extends Ready W i w where
  seen : (w.core i).Seen id expr
  linked : ∀ k b, w.Leads W i k b → ∀ t u, (w.core i).lTsubs.lookup id = some t →
    (w.core i).on k = some u →
    (w.tip W k b).Linked k id expr t.seen.toFinset (w.tip W k (!b))

omit [DecidableEq ι] in
theorem Inv.client_of {A : ι → Core → Decls → Prop} (h : w.Inv W A)
    (hrun : (w.core i).running = true) (hr : (w.core i).router = false) : (w.core i).Client :=
  (h.nodes i hrun).resolve_left fun hs => absurd (hr.symm.trans hs.router) nofun

omit [DecidableEq ι] in
theorem Inv.fits' {A : ι → Core → Decls → Prop} (h : w.Inv W A) (k : Nat) (b : Bool) :
    (w.tip W k (!b)).Fits k (w.tip W k b) := by
  have hfit := h.fits k (!b)
  rwa [Bool.not_not] at hfit

theorem Happens.leads {w' : World ι} (hw : Happens W w w') {k : Nat} {b : Bool}
    (hl : w'.Leads W i k b) : w.Leads W i k b := by
  refine ⟨hl.1, ?_⟩
  rw [← hl.2]
  rcases hw.core (W.node k (!b)) with hsame | ⟨o, e, -, hseats, hev⟩
  · rw [hsame]
  · rw [hev, hseats.router]

theorem Ready.next (h : Ready W i w) {a : Act ι} (hok : (net W).ok w a) (hlone : Lone W i w a) :
    Ready W i ((net W).next w a) := by
  have hw := h.inv.happens hok
  have hinv : ((net W).next w a).Inv W fun _ => Core.Agrees False := h.inv.next hok (calm_any w a)
  have hacts := hw.acts h.inv
  generalize hw' : (net W).next w a = w' at hw hinv hacts ⊢
  have hone : (w'.core i).AtMostOne := hw' ▸ hlone
  refine ⟨hinv, ?_, hone, ?_, fun k b hl => ?_⟩
  · rcases hw.core i with hsame | ⟨o, e, -, hseats, hev⟩
    · rw [hsame, h.client]
    · rw [hev, hseats.router, h.client]
  · rcases hw.core i with hsame | ⟨o, e, hrun, -, hev⟩
    · rw [hsame]
      exact h.unborn
    · rw [hev]
      exact h.unborn.onEv (h.inv.client_of hrun h.client) o e
  · have hl := hw.leads hl
    obtain ⟨rfl, hr⟩ := hl
    rcases hacts k with hsame | hacted
    · rw [hsame b, hsame (!b)]
      exact h.blank k b ⟨rfl, hr⟩
    · rcases hacted.ends b with hact | hact
      · exact (h.blank k b ⟨rfl, hr⟩).client_acts h.client (h.inv.fits k b) (h.inv.fits' k b)
          h.unborn hact
      · exact (h.blank k b ⟨rfl, hr⟩).router_acts hr (h.inv.fits' k b) hact

/-- The client opens the subscription. -/
theorem Ready.opens (h : Ready W i w) {o : Told} (hok : (net W).ok w
    (.own i o (.cmd (.tokenSub expr true))))
    (hlone : Lone W i w (.own i o (.cmd (.tokenSub expr true)))) :
    Follows W i (w.core i).nextId expr ((net W).next w (.own i o (.cmd (.tokenSub expr true)))) := by
  have hc := h.inv.client_of hok.1 h.client
  have hready := h.next hok hlone
  have hleads : ∀ k b, World.Leads W _ i k b → w.Leads W i k b := fun k b hl =>
    (h.inv.happens hok).leads hl
  have hself := handle_core_self W w i o (.cmd (.tokenSub expr true))
  have hcore : ((net W).next w (.own i o (.cmd (.tokenSub expr true)))).core i =
      (w.core i).onEv o (.cmd (.tokenSub expr true)) := hself
  refine ⟨hready, hcore ▸ h.unborn.opens hc o expr, fun k b hl t u ht hon => ?_⟩
  obtain ⟨rfl, hr⟩ := hleads k b hl
  rw [hcore] at ht hon
  obtain ⟨l, hev, -, -⟩ := Core.tokenSub_asks hc.router o expr true
  have hev : (w.core (W.node k b)).onEv o (.cmd (.tokenSub expr true)) = _ := hev
  have hempty : t.seen.toFinset = ∅ := by
    rw [hev] at ht
    obtain rfl := Option.some.inj ((AList.lookup_insert _).symm.trans ht)
    rfl
  have hold : (w.core (W.node k b)).on k = some u := by
    rw [hev] at hon
    exact hon
  obtain ⟨hnear, hfar⟩ := handle_tip (W := W) (w := w) (k := k) (b := b) (o := o)
    (e := .cmd (.tokenSub expr true)) rfl rfl rfl
  show ((w.handle W (W.node k b) o _).tip W k b).Linked k _ expr _
    ((w.handle W (W.node k b) o _).tip W k (!b))
  rw [hnear, hfar, hempty]
  exact (h.blank k b ⟨rfl, hr⟩).opens hc h.lone o expr hold

/-- **The client goes on following.** -/
theorem Follows.next (h : Follows W i id expr w) {a : Act ι} (hok : (net W).ok w a)
    (hlone : Lone W i w a) : Follows W i id expr ((net W).next w a) := by
  have hw := h.inv.happens hok
  have hready := h.toReady.next hok hlone
  have hacts := hw.acts h.inv
  generalize (net W).next w a = w' at hw hready hacts ⊢
  refine ⟨hready, ?_, fun k b hl => ?_⟩
  · rcases hw.core i with hsame | ⟨o, e, hrun, -, hev⟩
    · rw [hsame]
      exact h.seen
    · have hone := hready.lone
      rw [hev] at hone ⊢
      exact h.seen.onEv (h.inv.client_of hrun h.client) h.lone hone
  · have hl' := hw.leads hl
    obtain ⟨rfl, hr⟩ := hl'
    have hlinked := h.linked k b ⟨rfl, hr⟩
    rcases hacts k with hsame | hacted
    · intro t u ht hon
      have hcore : w'.core (W.node k b) = w.core (W.node k b) := congrArg Tip.core (hsame b)
      rw [hcore] at ht hon
      rw [hsame b, hsame (!b)]
      exact hlinked t u ht hon
    · rcases hacted.ends b with hact | hact
      · exact Tip.Linked.client_acts h.client (h.inv.fits k b) (h.inv.fits' k b) h.lone hready.lone
          (fun hnot => (h.blank k b ⟨rfl, hr⟩).early hnot id) h.seen hlinked hact
      · intro t u ht hon
        have hcore : w'.core (W.node k b) = w.core (W.node k b) := hact.far.1
        rw [hcore] at ht hon
        exact (hlinked t u ht hon).router_acts hr h.client (h.inv.fits' k b) hact

omit [DecidableEq ι] in
theorem ready_start {f : ι → Setup} (hclient : (f i).router = false) : Ready W i (start f) := by
  have hnone : ∀ j u, u ∉ ((start f).core j).sessions := fun j u => AList.notMem_empty u
  have hon : ∀ j k, ((start f).core j).on k = none := fun j k => rfl
  refine ⟨inv_start W _ f, hclient, fun u hu => absurd hu (hnone i u),
    fun id _ => ⟨AList.notMem_empty id, rfl⟩, fun k b _ => ⟨fun _ id => ⟨rfl, ?_⟩, ?_⟩⟩
  · exact fun v hv => absurd ((hon _ k).symm.trans hv) nofun
  · exact fun u hu => absurd ((hon _ k).symm.trans hu) nofun

/-- The own process of the client has no token without a session. On a session that both ends hold,
when the router has been asked, it has those that match there after what is on its way. -/
def UpToDate (W : Wires ι) (w : World ι) (i : ι) (id : Nat) (expr : String) : Prop :=
  id ∈ (w.core i).lTsubs →
    ((∀ u, u ∉ (w.core i).sessions) → (w.core i).copy id = ∅) ∧
    ∀ k b, w.Leads W i k b → w.Holds W k b → w.Holds W k (!b) →
      (w.lane k (!b)).filter (Msg.orders id) = [] →
      Change.replay ((w.core i).copy id) (changes id (w.lane k b)) =
        (w.core (W.node k (!b))).matched expr

omit [DecidableEq ι] in
theorem Follows.upToDate (h : Follows W i id expr w) : w.UpToDate W i id expr := by
  intro hmem
  obtain ⟨t, ht⟩ := Map.mem_iff_lookup.1 hmem
  obtain ⟨-, hcopy, hidle⟩ := h.seen.copy t ht
  refine ⟨fun hnone => ?_, fun k b hl hheld hfar hasked => ?_⟩
  · rw [hcopy, hidle hnone]
    rfl
  · obtain ⟨u, s, hs, hk⟩ := hheld
    obtain ⟨v, s', hs', hk'⟩ := hfar
    obtain ⟨rfl, hr⟩ := hl
    have hon := Core.on_some (h.inv.single _) hs hk
    have hon' := Core.on_some (h.inv.single _) hs' hk'
    cases h.linked k b ⟨rfl, hr⟩ t u ht hon with
    | waits hasks _ _ => exact absurd (hasked.symm.trans hasks) nofun
    | serves _ _ hears =>
      rw [hcopy]
      exact (hears v hon').2

theorem follows_run {f : ι → Setup} (hclient : (f i).router = false) {acts₁ acts₂ : List (Act ι)}
    {o : Told} (hrun : ((net W).restrict (Lone W i)).Legal (start f)
      (acts₁ ++ .own i o (.cmd (.tokenSub expr true)) :: acts₂)) :
    Follows W i (((net W).exec (start f) acts₁).core i).nextId expr
      ((net W).exec (start f) (acts₁ ++ .own i o (.cmd (.tokenSub expr true)) :: acts₂)) := by
  let M := (net W).restrict (Lone W i)
  have hexec : ∀ w acts, M.exec w acts = (net W).exec w acts :=
    (net W).restrict_exec (Lone W i)
  rw [Machine.legal_append] at hrun
  obtain ⟨hbefore, ⟨hok, hlone⟩, hafter⟩ := hrun
  have hready : Ready W i (M.exec (start f) acts₁) :=
    Machine.invariant (fun _ _ h ha => h.next ha.1 ha.2) (ready_start hclient) hbefore
  have hopened := hready.opens hok hlone
  rw [← hexec, ← hexec, Machine.exec_append, Machine.exec_cons]
  exact Machine.invariant (M := M) (I := Follows W i _ expr) (fun _ _ h ha => h.next ha.1 ha.2)
    hopened hafter

end World

/-! ## A client and a router -/

namespace World

instance {ι : Type} [DecidableEq ι] (W : Wires ι) (i : ι) (w : World ι) (a : Act ι) :
    Decidable (w.Lone W i a) := inferInstanceAs (Decidable (Core.AtMostOne _))

def attached : Bool → Setup
  | false => { node := "c", router := false, seeds := ["a"] }
  | true => { node := "a", router := true }

/-- The router has a token, and the client a session with it. -/
def attaching : List (Act Bool) :=
  [.own true {} (.cmd (.declareToken "t")),
    .arrive 0 true {} (.accepted 0 { role := .client, node := "c", boot := 1, sno := 1 }),
    .arrive 0 false {} (.dialed "a" 1 (some (0, { role := .router, node := "a", boot := 1, sno := 1 })))]

/-- The client asks the router for the tokens, and is told. -/
def asking : List (Act Bool) :=
  [.deliver 0 true {}, .deliver 0 true {}, .deliver 0 false {}, .deliver 0 false {}]

def following : List (Act Bool) :=
  attaching ++ .own false {} (.cmd (.tokenSub "t" true)) :: asking

/-- A router by itself has a token and loses it. -/
def turning : List (Told × Ev) :=
  [({}, .cmd (.declareToken "t")), ({}, .cmd (.tokenSub "t" true)),
    ({}, .cmd (.undeclare .token 1))]

/-- The router loses the session and its token. -/
def parting : List (Act Bool) :=
  [.own true {} (.closed 1 .expired), .own true {} (.cmd (.undeclare .token 1))]

end World

/-- **Token subscriptions follow the tokens**, on a router and on a client with one session at
most. -/
theorem tokens_followed {ι : Type} [DecidableEq ι] (W : Wires ι) (f : ι → Setup) :
    (∀ node leaseMs boot adv seeds es₁ es₂ o expr,
      let c := Core.new node true leaseMs boot adv seeds
      let es := es₁ ++ (o, .cmd (.tokenSub expr true)) :: es₂
      let id := (Core.machine.exec c es₁).nextId
      Core.machine.Legal c es → id ∈ (Core.machine.exec c es).lTsubs →
        (Core.machine.exec c es).copy id = (Core.machine.exec c es).matched expr) ∧
    ∀ i acts₁ acts₂ o expr,
      let acts := acts₁ ++ .own i o (.cmd (.tokenSub expr true)) :: acts₂
      (f i).router = false → ((net W).restrict (World.Lone W i)).Legal (World.start f) acts →
        ((net W).exec (World.start f) acts).UpToDate W i
          (((net W).exec (World.start f) acts₁).core i).nextId expr := by
  refine ⟨fun node leaseMs boot adv seeds es₁ es₂ o expr hrun hid => ?_,
    fun i acts₁ acts₂ o expr hclient hrun => ?_⟩
  · exact ((Core.router_follows hrun).copy hid).2
  · exact (World.follows_run hclient hrun).upToDate

theorem tokens_followed_attached :
    (Core.machine.exec (Core.new "a" true 400 1 none []) World.turning).copy
        (Core.machine.exec (Core.new "a" true 400 1 none []) (World.turning.take 1)).nextId =
      (Core.machine.exec (Core.new "a" true 400 1 none []) World.turning).matched "t" ∧
    "t" ∈ (((net World.pair).exec (World.start World.attached) World.following).core false).copy 1 ∧
    ((net World.pair).exec (World.start World.attached) World.following).UpToDate World.pair false
      (((net World.pair).exec (World.start World.attached) World.attaching).core false).nextId
      "t" := by
  obtain ⟨hrouter, hclient⟩ := tokens_followed World.pair World.attached
  refine ⟨?_, by decide, ?_⟩
  · exact hrouter "a" 400 1 none [] (World.turning.take 1) (World.turning.drop 2) {} "t"
      (by decide) (by decide)
  · exact hclient false World.attaching World.asking {} "t" rfl (by decide)

/-- Whenever no token is on its way to the client, it has those that match at the router. -/
def World.Synced {ι : Type} (W : Wires ι) (w : World ι) (i : ι) (id : Nat) (expr : String) : Prop :=
  id ∈ (w.core i).lTsubs → ∀ k b, w.Leads W i k b → w.Holds W k b →
    changes id (w.lane k b) = [] → (w.core i).copy id = (w.core (W.node k (!b))).matched expr

/-- The client subscribes once it is attached, and things go on. -/
def World.subscribing (acts : List (Act Bool)) : List (Act Bool) :=
  World.attaching ++ .own false {} (.cmd (.tokenSub "t" true)) :: acts

theorem World.not_synced {w : World Bool} (hmem : 1 ∈ (w.core false).lTsubs)
    (hr : (w.core true).router = true) (hon : (w.core false).on 0 = some 1)
    (hnone : changes 1 (w.lane 0 false) = [])
    (hne : (w.core false).copy 1 ≠ (w.core true).matched "t") :
    ¬ w.Synced World.pair false 1 "t" := by
  intro hsynced
  obtain ⟨s, hs, hk⟩ := Core.of_on hon
  exact hne (hsynced hmem 0 false ⟨rfl, hr⟩ ⟨1, s, hs, hk⟩ hnone)

/-- The client has no token before the router is asked, and it keeps one that is gone when the router
has lost the session. -/
theorem asked_or_lost :
    (((net World.pair).restrict (World.Lone World.pair false)).Legal (World.start World.attached)
        (World.subscribing []) ∧
      ¬ ((net World.pair).exec (World.start World.attached) (World.subscribing [])).Synced
        World.pair false 1 "t") ∧
    (((net World.pair).restrict (World.Lone World.pair false)).Legal (World.start World.attached)
        (World.subscribing (World.asking ++ World.parting)) ∧
      ¬ ((net World.pair).exec (World.start World.attached)
        (World.subscribing (World.asking ++ World.parting))).Synced World.pair false 1 "t") := by
  refine ⟨⟨by decide, ?_⟩, by decide, ?_⟩
  all_goals
    refine World.not_synced ?_ ?_ ?_ ?_ ?_
    all_goals decide

end OxlensSfu.Mesh
