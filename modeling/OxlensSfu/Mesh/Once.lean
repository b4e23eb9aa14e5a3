import Mathlib.Logic.Hydra
import OxlensSfu.Mesh.Puts

/-!
# Every subscription gets a put once

In a network at rest, where all routers are linked and clients have one session each, a put reaches
each subscription that matches it by one way only, and that crosses at most one session between
routers.

* **`put_delivered_once`** — as often as a payload is put under a key, so often each subscription
  that matches the key gets it, whatever the order in which nodes put and puts arrive.
-/

namespace OxlensSfu.Mesh

section

open scoped Classical

variable {ι : Type}

namespace World

/-- Nothing is in flight but puts, all routers are linked, and clients have one session each. -/
structure Converged (W : Wires ι) (w : World ι) : Prop extends w.Settled W where
  /-- No end of a session with a client. -/
  clients : ∀ k b, (w.core (W.node k b)).router = true →
    (w.core (W.node k (!b))).router = false → w.Holds W k b → w.Holds W k (!b)
  upstream : ∀ i, (w.core i).running = true → (w.core i).router = false →
    (w.core i).AtMostOne ∧ ∃ k b, W.node k b = i ∧ w.Holds W k b ∧
      w.Routes (W.node k (!b)) ∧ w.Holds W k (!b)

/-- The client has its session with the router. -/
def Under (W : Wires ι) (w : World ι) (j r : ι) : Prop :=
  (w.core j).router = false ∧ ∃ k b, W.node k b = r ∧ W.node k (!b) = j ∧ w.Holds W k b

/-- What reaches the other end of the connection is meant for the node. -/
def Beyond (W : Wires ι) (w : World ι) (k : Nat) (b : Bool) (j : ι) : Prop :=
  j = W.node k (!b) ∨
    (w.core (W.node k (!b))).router = true ∧ w.Under W j (W.node k (!b))

/-- The subscription is there and matches the key. -/
def Wants (w : World ι) (j : ι) (id : Nat) (key : String) : Prop :=
  (w.core j).running = true ∧ (w.core j).subscribed id key = true

instance (w : World ι) (j : ι) (id : Nat) (key : String) : Decidable (w.Wants j id key) :=
  inferInstanceAs (Decidable (_ ∧ _))

/-- What holds of a network at rest. -/
structure Rest (W : Wires ι) (w : World ι) : Prop extends w.Converged W where
  inv : w.Inv W fun _ => Core.Agrees True
  listed : ∀ i, (w.core i).running = true → (w.core i).Listed

variable {W : Wires ι} {w : World ι} {i j : ι} {k k' u v : Nat} {b b' : Bool} {s t : Sess}
  {id : Nat} {key : String}

namespace Rest

theorem stands (h : w.Rest W) (hi : w.Routes i) : (w.core i).Stands :=
  (h.inv.nodes i hi.2).resolve_right fun hc => absurd (hi.1.symm.trans hc.router) (by simp)

theorem client (h : w.Rest W) (hrun : (w.core i).running = true)
    (hr : (w.core i).router = false) : (w.core i).Client :=
  (h.inv.nodes i hrun).resolve_left fun hs => absurd (hr.symm.trans hs.router) nofun

theorem running (h : w.Rest W) (hk : w.Holds W k b) : (w.core (W.node k b)).running = true := by
  obtain ⟨u, s, hs, -⟩ := hk
  by_contra hne
  exact h.inv.ended _ (by simpa using hne) u (Map.mem_iff_lookup.2 ⟨s, hs⟩)

/-- A session of a client is the one with its router. -/
theorem only (h : w.Rest W) (hr : (w.core (W.node k b)).router = false) (hk : w.Holds W k b) :
    w.Routes (W.node k (!b)) ∧ w.Holds W k (!b) ∧
      ∀ k' b', W.node k' b' = W.node k b → w.Holds W k' b' → k' = k := by
  obtain ⟨hone, k₁, b₁, hnode, hhere, hroutes, hthere⟩ := h.upstream _ (h.running hk) hr
  have hsame : ∀ k' b', W.node k' b' = W.node k b → w.Holds W k' b' → k' = k₁ := by
    rintro k' b' hnode' ⟨u, s, hs, rfl⟩
    obtain ⟨v, t, ht, rfl⟩ := hhere
    rw [hnode'] at hs
    rw [hnode] at ht
    obtain rfl := hone u (Map.mem_iff_lookup.2 ⟨s, hs⟩) v (Map.mem_iff_lookup.2 ⟨t, ht⟩)
    rw [hs] at ht
    rw [Option.some.inj ht]
  obtain rfl := hsame k b rfl hk
  obtain rfl := end_unique hnode rfl
  exact ⟨hroutes, hthere, hsame⟩

/-- A session has its other end. -/
theorem other (h : w.Rest W) (hk : w.Holds W k b) : w.Holds W k (!b) := by
  by_cases hr : (w.core (W.node k b)).router = true
  · by_cases hr' : (w.core (W.node k (!b))).router = true
    · exact h.ends k b hr hr' hk
    · exact h.clients k b hr (by simpa using hr') hk
  · exact (h.only (by simpa using hr) hk).2.1

/-! ## Ways -/

/-- A node has one session with another. -/
theorem one_session (h : w.Rest W) (hr : (w.core i).router = true)
    (hs : (w.core i).sessions.lookup u = some s) (ht : (w.core i).sessions.lookup v = some t)
    (hb : W.node s.stream b = i) (hb' : W.node t.stream b' = i)
    (hnode : W.node s.stream (!b) = W.node t.stream (!b')) : u = v := by
  obtain ⟨b₁, hb₁, -, hpeer, -⟩ := h.inv.held i u s hs
  obtain ⟨b₂, hb₂, -, hpeer', -⟩ := h.inv.held i v t ht
  obtain rfl := end_unique hb hb₁
  obtain rfl := end_unique hb' hb₂
  have hrun : (w.core i).running = true := hb ▸ h.running ⟨u, s, hb.symm ▸ hs, rfl⟩
  have hpeers := (h.stands ⟨hr, hrun⟩).peers
  have hu := (hpeers s.peer u).2 ⟨s, hs, rfl⟩
  have hv := (hpeers s.peer v).2 ⟨t, ht, by rw [hpeer, hpeer', hnode]⟩
  exact Option.some.inj (hu.symm.trans hv)

/-- A client is under one router. -/
theorem under_unique (h : w.Rest W) {r r' : ι} (hr : w.Under W j r) (hr' : w.Under W j r') :
    r = r' := by
  obtain ⟨hclient, k, b, rfl, hj, hk⟩ := hr
  obtain ⟨-, k', b', rfl, hj', hk'⟩ := hr'
  obtain ⟨-, -, hsame⟩ := h.only (hj.symm ▸ hclient) (h.other hk)
  obtain rfl := hsame k' (!b') (hj'.trans hj.symm) (h.other hk')
  rw [Bool.not_inj (end_unique hj hj')]

/-- A client that a router has a session with is under that router. -/
theorem under_of (hclient : (w.core (W.node k (!b))).router = false) (hk : w.Holds W k b) :
    w.Under W (W.node k (!b)) (W.node k b) :=
  ⟨hclient, k, b, rfl, rfl, hk⟩

/-- There is one way from a router to a node. -/
theorem way_unique (h : w.Rest W) (hr : (w.core i).router = true)
    (hs : (w.core i).sessions.lookup u = some s) (ht : (w.core i).sessions.lookup v = some t)
    (hb : W.node s.stream b = i) (hb' : W.node t.stream b' = i)
    (hj : w.Beyond W s.stream b j) (hj' : w.Beyond W t.stream b' j) : u = v := by
  have hback : ∀ {u : Nat} {s t : Sess} {b b' : Bool}, (w.core i).sessions.lookup u = some s →
      W.node s.stream b = i → W.node t.stream b' = i → j = W.node s.stream (!b) →
      ¬ w.Under W j (W.node t.stream (!b')) := by
    intro u s t b b' hs hb hb' hj hunder
    have hhere : w.Under W j i := by
      rw [hj, ← hb]
      exact under_of (hj ▸ hunder.1) ⟨u, s, hb.symm ▸ hs, rfl⟩
    have heq : W.node t.stream b' = W.node t.stream (!b') :=
      hb'.trans (h.under_unique hhere hunder)
    exact absurd (end_unique heq rfl) (by simp)
  rcases hj with hj | ⟨-, hj⟩ <;> rcases hj' with hj' | ⟨-, hj'⟩
  · exact h.one_session hr hs ht hb hb' (hj.symm.trans hj')
  · exact absurd hj' (hback hs hb hb' hj)
  · exact absurd hj (hback ht hb' hb hj')
  · exact h.one_session hr hs ht hb hb' (h.under_unique hj hj')

theorem way_exists (h : w.Rest W) (hi : w.Routes i) (hj : (w.core j).running = true)
    (hne : j ≠ i) : ∃ u s b, (w.core i).sessions.lookup u = some s ∧ W.node s.stream b = i ∧
      w.Beyond W s.stream b j := by
  have hlink : ∀ r, w.Routes r → r ≠ i → ∃ u s b, (w.core i).sessions.lookup u = some s ∧
      W.node s.stream b = i ∧ r = W.node s.stream (!b) := by
    intro r hr hri
    obtain ⟨k, b, rfl, rfl, u, s, hs, rfl⟩ := h.linked i r hi hr hri.symm
    exact ⟨u, s, b, hs, rfl, rfl⟩
  by_cases hr : (w.core j).router = true
  · obtain ⟨u, s, b, hs, hb, hfar⟩ := hlink j ⟨hr, hj⟩ hne
    exact ⟨u, s, b, hs, hb, .inl hfar⟩
  · obtain ⟨-, k, b, rfl, hhere, hroutes, hthere⟩ := h.upstream j hj (by simpa using hr)
    have hunder : w.Under W (W.node k b) (W.node k (!b)) :=
      ⟨by simpa using hr, k, !b, rfl, by rw [Bool.not_not], hthere⟩
    by_cases hri : W.node k (!b) = i
    · obtain ⟨u, s, hs, rfl⟩ := hthere
      exact ⟨u, s, !b, hri ▸ hs, hri, .inl (by rw [Bool.not_not])⟩
    · obtain ⟨u, s, b', hs, hb', hfar⟩ := hlink _ hroutes hri
      exact ⟨u, s, b', hs, hb', .inr ⟨hfar ▸ hroutes.1, hfar ▸ hunder⟩⟩

/-! ## Declarations -/

/-- A router has what a client has declared. -/
theorem told_client (h : w.Rest W) (hr : (w.core (W.node k b)).router = true)
    (hclient : (w.core (W.node k (!b))).router = false)
    (hs : (w.core (W.node k b)).sessions.lookup u = some s) (hk : s.stream = k) :
    s.has = (w.core (W.node k (!b))).mine := by
  obtain ⟨v, t, ht, htk⟩ := h.other (b := b) ⟨u, s, hs, hk⟩
  have hagrees := h.inv.agrees k b hr s.has (.inl ⟨u, s, hs, hk, rfl⟩) v t ht htk
  rw [h.lanes k b hr ⟨u, s, hs, hk⟩] at hagrees
  exact (hagrees.2 hclient).1 trivial

/-- A router has what another one passes on. -/
theorem told_router (h : w.Rest W) (hr : (w.core (W.node k b)).router = true)
    (hr' : (w.core (W.node k (!b))).router = true)
    (hs : (w.core (W.node k b)).sessions.lookup u = some s) (hk : s.stream = k)
    (kind : DeclKind) (x : String) : s.has (kind, id) = some x ↔
      (w.core (W.node k (!b))).out.lookup id = some (kind, x) := by
  have hrelayed := h.inv.relayed k b u s hr hr' hs hk (h.other ⟨u, s, hs, hk⟩) kind id x
  rwa [h.lanes k b hr ⟨u, s, hs, hk⟩] at hrelayed

/-- A router passes on the subscriptions of its own process and of its clients. -/
theorem passed_on (h : w.Rest W) (hi : w.Routes i) (hj : j = i ∨ w.Under W j i) {x : String}
    (hx : (w.core j).lSubs.lookup id = some x) :
    ∃ id', (w.core i).out.lookup id' = some (.sub, x) := by
  have hpasses := (h.stands hi).index.passes
  rcases hj with rfl | hj
  · exact ⟨id, (hpasses.entries id .sub x).2 (.inl hx)⟩
  · obtain ⟨hclient, k, b, rfl, rfl, u, s, hs, hk⟩ := hj
    have hhas : s.decls.lookup (.sub, id) = some x :=
      (congrFun (h.told_client hi.1 hclient hs hk) (.sub, id)).trans hx
    have hrole : s.role = .client := by
      obtain ⟨-, hrole⟩ := h.inv.arrived_of rfl hs hk
      rw [hrole, Core.role, if_neg (by simp [hclient])]
    have hcl := Core.clients_eq_some.2 ⟨s, hs, hrole, hhas⟩
    obtain ⟨id', hid⟩ := Option.isSome_iff_exists.1 ((hpasses.ids u (.sub, id)).2 (by
      show ((w.core (W.node k b)).clients u (.sub, id)).isSome
      rw [hcl]
      rfl))
    exact ⟨id', (hpasses.entries id' .sub x).2 (.inr ⟨u, id, hid, hcl⟩)⟩

/-- A router knows of the subscriptions beyond a session. -/
theorem known (h : w.Rest W) (hr : (w.core (W.node k b)).router = true)
    (hs : (w.core (W.node k b)).sessions.lookup u = some s) (hk : s.stream = k)
    (hj : w.Beyond W k b j) (hwants : w.Wants j id key) :
    ∃ id' x, (w.core (W.node k b)).subs.exprs.lookup (.sess u, id') = some x ∧ covers x key := by
  obtain ⟨x, hx, hcovers⟩ := (Option.any_eq_true _ _).1 hwants.2
  have hhere : w.Holds W k b := ⟨u, s, hs, hk⟩
  suffices hhas : ∃ id', s.has (.sub, id') = some x by
    obtain ⟨id', hid⟩ := hhas
    refine ⟨id', x, ?_, hcovers⟩
    rw [(h.stands ⟨hr, h.running hhere⟩).index.subs.exprs]
    exact (congrArg (·.bind fun s => s.decls.lookup (.sub, id')) hs).trans hid
  by_cases hr' : (w.core (W.node k (!b))).router = true
  · have hfar : w.Routes (W.node k (!b)) := ⟨hr', h.running (h.other hhere)⟩
    obtain ⟨id', hout⟩ := h.passed_on hfar (hj.imp (fun he => he) And.right) hx
    exact ⟨id', (h.told_router hr hr' hs hk .sub x).2 hout⟩
  · obtain rfl := hj.resolve_right fun hn => hr' hn.1
    exact ⟨id, (congrFun (h.told_client hr (by simpa using hr') hs hk) (.sub, id)).trans hx⟩

end Rest

/-! ## Puts in the air -/

/-- The put in the air is to reach the node. -/
def Serves (W : Wires ι) (w : World ι) (x : Flight) (j : ι) : Prop :=
  if (w.core (W.node x.k (!x.b))).router then w.Beyond W x.k (!x.b) j
  else j ≠ W.node x.k (!x.b)

/-- The subscription is to get the put that is in the air. -/
def Due (W : Wires ι) (w : World ι) (j : ι) (id : Nat) (key : String) (payload : Payload)
    (x : Flight) : Prop :=
  (key = x.key ∧ payload = x.payload) ∧ w.Wants j id key ∧ w.Serves W x j

/-- A put in the air has crossed at most one session between routers, and none if it is from a
client. -/
structure Aloft (W : Wires ι) (w : World ι) (x : Flight) : Prop where
  holds : w.Holds W x.k x.b
  hops : x.hops ≤ 1
  first : (w.core (W.node x.k (!x.b))).router = false → x.hops = 0

/-- The session is one by which a put at the node goes on to the other node. -/
def Way (W : Wires ι) (w : World ι) (i : ι) (src : Option Nat) (j : ι) (u : Nat) : Prop :=
  ∃ s b, (w.core i).sessions.lookup u = some s ∧ W.node s.stream b = i ∧
    if (w.core i).router then w.Beyond W s.stream b j ∧ some u ≠ src ∧
      ¬ ((w.core i).fromRouter src = true ∧ s.role = .router)
    else src = none ∧ j ≠ i

theorem countP_unique {α : Type} {l : List α} {p : α → Bool} (hl : l.Nodup)
    (huniq : ∀ x ∈ l, ∀ y ∈ l, p x = true → p y = true → x = y) :
    l.countP p = if ∃ x ∈ l, p x = true then 1 else 0 := by
  split_ifs with hx
  · obtain ⟨x, hx, hp⟩ := hx
    have hsame : ∀ y ∈ l, p y = true ↔ (y == x) = true := fun y hy =>
      ⟨fun hpy => beq_iff_eq.2 (huniq y hy x hx hpy hp), fun he => beq_iff_eq.1 he ▸ hp⟩
    rw [List.countP_congr hsame, ← List.count_eq_countP]
    exact List.count_eq_one_of_mem hl hx
  · exact List.countP_eq_zero.2 fun y hy hp => hx ⟨y, hy, hp⟩

theorem far_eq [DecidableEq ι] (hb : W.node k b = i) : W.far i k = !b := by
  have hapart := W.apart k
  cases b
  · simp [Wires.far, hb]
  · have hne : W.node k false ≠ i := fun he => hapart (hb.trans he.symm)
    simp [Wires.far, hne]

/-- No way leads back to the node. -/
theorem no_way_back {src : Option Nat} : ¬ w.Way W i src i u := by
  rintro ⟨s, b, -, hb, hgoes⟩
  split_ifs at hgoes with hr
  · rcases hgoes.1 with hi | ⟨-, hclient, -⟩
    · exact absurd (end_unique hb hi.symm) (by simp)
    · exact absurd (hr.symm.trans hclient) (by simp)
  · exact hgoes.2 rfl

theorem Rest.way_put (h : w.Rest W) (hi : (w.core i).running = true)
    (hj : (w.core j).running = true) : j = i ∨ ∃ u, w.Way W i none j u := by
  by_cases hji : j = i
  · exact .inl hji
  · refine .inr ?_
    by_cases hr : (w.core i).router = true
    · obtain ⟨u, s, b, hs, hb, hway⟩ := h.way_exists ⟨hr, hi⟩ hj hji
      refine ⟨u, s, b, hs, hb, ?_⟩
      rw [if_pos hr]
      exact ⟨hway, nofun, fun hn => absurd hn.1 nofun⟩
    · obtain ⟨-, k, b, rfl, ⟨u, s, hs, rfl⟩, -⟩ := h.upstream i hi (by simpa using hr)
      refine ⟨u, s, b, hs, rfl, ?_⟩
      rw [if_neg hr]
      exact ⟨rfl, hji⟩

theorem Rest.role_eq (h : w.Rest W) (hs : (w.core (W.node k b)).sessions.lookup u = some s)
    (hk : s.stream = k) : s.role = .router ↔ (w.core (W.node k (!b))).router = true := by
  obtain ⟨-, hrole⟩ := h.inv.arrived_of rfl hs hk
  rw [hrole, Core.role]
  split_ifs with hr
  · simp [hr]
  · simp [hr]

theorem Rest.from_router (h : w.Rest W)
    (hs : (w.core (W.node k b)).sessions.lookup u = some s) (hk : s.stream = k) :
    (w.core (W.node k b)).fromRouter (some u) = true ↔
      (w.core (W.node k (!b))).router = true := by
  rw [← h.role_eq hs hk, Core.fromRouter, Option.bind_some, hs]
  simp

/-- A put that arrives is for the node, or goes on by one of its ways. -/
theorem Rest.way_land (h : w.Rest W) {x : Flight}
    (hs : (w.core (W.node x.k x.b)).sessions.lookup u = some s) (hk : s.stream = x.k)
    (hj : (w.core j).running = true) : w.Serves W x j ↔
      j = W.node x.k x.b ∨ ∃ v, w.Way W (W.node x.k x.b) (some u) j v := by
  have hhere : w.Holds W x.k x.b := ⟨u, s, hs, hk⟩
  by_cases hr : (w.core (W.node x.k x.b)).router = true
  · have hfrom := h.from_router hs hk
    have hway : ∀ v, w.Way W (W.node x.k x.b) (some u) j v ↔ ∃ t b',
        (w.core (W.node x.k x.b)).sessions.lookup v = some t ∧
          W.node t.stream b' = W.node x.k x.b ∧ w.Beyond W t.stream b' j ∧ v ≠ u ∧
            ¬ ((w.core (W.node x.k (!x.b))).router = true ∧ t.role = .router) := by
      intro v
      simp only [Way, if_pos hr, hfrom, ne_eq, Option.some.injEq]
    simp only [hway]
    by_cases hr' : (w.core (W.node x.k (!x.b))).router = true
    · rw [Serves, if_pos hr', Beyond, Bool.not_not]
      refine or_congr_right ⟨?_, ?_⟩
      · rintro ⟨-, hclient, k, b, hk', rfl, v, t, ht, rfl⟩
        have hrole := h.role_eq ht rfl
        rw [hclient] at hrole
        have hno : t.role ≠ .router := fun he => absurd (hrole.1 he) nofun
        rw [hk'] at ht
        refine ⟨v, t, b, ht, hk', .inl rfl, ?_, fun hn => hno hn.2⟩
        rintro rfl
        obtain rfl := Option.some.inj (ht.symm.trans hs)
        exact hno ((h.role_eq hs hk).2 hr')
      · rintro ⟨v, t, b, ht, hb, hbeyond, -, hno⟩
        have hfar : (w.core (W.node t.stream (!b))).router ≠ true := fun hn =>
          hno ⟨hr', (h.role_eq (hb.symm ▸ ht) rfl).2 hn⟩
        obtain rfl := hbeyond.resolve_right fun hn => hfar hn.1
        refine ⟨hr, ?_⟩
        rw [← hb]
        exact under_of (by simpa using hfar) ⟨v, t, hb.symm ▸ ht, rfl⟩
    · rw [Serves, if_neg hr']
      constructor
      · intro hne
        by_cases hji : j = W.node x.k x.b
        · exact .inl hji
        · obtain ⟨v, t, b, ht, hb, hbeyond⟩ := h.way_exists ⟨hr, h.running hhere⟩ hj hji
          refine .inr ⟨v, t, b, ht, hb, hbeyond, ?_, fun hn => hr' hn.1⟩
          rintro rfl
          obtain rfl := Option.some.inj (ht.symm.trans hs)
          rw [hk] at hb hbeyond
          obtain rfl := end_unique hb rfl
          exact hbeyond.elim hne fun hn => hr' hn.1
      · rintro (rfl | ⟨v, t, b, ht, hb, hbeyond, hvu, -⟩)
        · exact fun he => absurd (end_unique he rfl) (by simp)
        · rintro rfl
          have hback : w.Beyond W s.stream x.b (W.node x.k (!x.b)) := .inl (by rw [hk])
          exact hvu (h.way_unique hr ht hs hb (by rw [hk]) hbeyond hback)
  · obtain ⟨hroutes, -, -⟩ := h.only (by simpa using hr) hhere
    have hno : ∀ v, ¬ w.Way W (W.node x.k x.b) (some u) j v := by
      rintro v ⟨t, b, -, -, hgoes⟩
      rw [if_neg hr] at hgoes
      exact absurd hgoes.1 nofun
    rw [Serves, if_pos hroutes.1, Beyond, Bool.not_not]
    simp [hr, hno]

section Flights

variable [DecidableEq ι] {src : Option Nat} {payload payload' : Payload} {key' : String}
  {l : List Fx} {hops : Nat}

omit [DecidableEq ι] in
theorem between_congr {w' : World ι} (h : ∀ j, (w'.core j).router = (w.core j).router) (k : Nat) :
    w'.between W k = w.between W k := by
  rw [between, between, h, h]

theorem flights_congr {w' : World ι} (h : ∀ j, ∃ f, w'.core j = { w.core j with fx := f }) :
    w'.flights W i hops l = w.flights W i hops l := by
  have hrouter : ∀ j, (w'.core j).router = (w.core j).router := by
    intro j
    obtain ⟨f, hf⟩ := h j
    rw [hf]
  obtain ⟨f, hf⟩ := h i
  simp only [flights, between_congr hrouter, hf]

theorem mem_flights (hputs : (w.core i).Puts src key payload l) {y : Flight} :
    y ∈ w.flights W i hops l ↔ ∃ u s, (w.core i).sessions.lookup u = some s ∧
      (if (w.core i).router then (w.core i).Onward src key u else src = none) ∧
        y = ⟨s.stream, W.far i s.stream, key, payload,
          hops + if w.between W s.stream then 1 else 0⟩ := by
  rw [flights, List.mem_filterMap]
  constructor
  · rintro ⟨⟨u, key', payload'⟩, hx, hy⟩
    obtain ⟨⟨rfl, rfl⟩, hgoes⟩ := (hputs.carried u key' payload').1 hx
    obtain ⟨s, hs, rfl⟩ := Option.map_eq_some_iff.1 hy
    refine ⟨u, s, hs, ?_, rfl⟩
    split_ifs at hgoes ⊢
    · exact hgoes
    · exact hgoes.1
  · rintro ⟨u, s, hs, hgoes, rfl⟩
    refine ⟨(u, key, payload), (hputs.carried u key payload).2 ⟨⟨rfl, rfl⟩, ?_⟩, by rw [hs]; rfl⟩
    split_ifs at hgoes ⊢
    · exact hgoes
    · exact ⟨hgoes, Map.mem_iff_lookup.2 ⟨s, hs⟩⟩

/-- A put that goes on from a node is due where there is a way. -/
theorem Rest.due_iff (h : w.Rest W) (hwants : w.Wants j id key)
    (hs : (w.core i).sessions.lookup u = some s) (hb : W.node s.stream b = i) (hops : Nat) :
    (if (w.core i).router then (w.core i).Onward src key u else src = none) ∧
        w.Due W j id key payload ⟨s.stream, W.far i s.stream, key, payload, hops⟩ ↔
      if (w.core i).router then w.Beyond W s.stream b j ∧ some u ≠ src ∧
        ¬ ((w.core i).fromRouter src = true ∧ s.role = .router) else src = none ∧ j ≠ i := by
  have hserves : w.Serves W ⟨s.stream, W.far i s.stream, key, payload, hops⟩ j ↔
      if (w.core i).router then w.Beyond W s.stream b j else j ≠ i := by
    rw [Serves]
    simp only [far_eq hb, Bool.not_not, hb]
  rw [Due, hserves]
  by_cases hr : (w.core i).router = true
  · simp only [if_pos hr, true_and, and_self, hwants]
    constructor
    · rintro ⟨⟨hsrc, -, t, ht, hexcl⟩, hj⟩
      obtain rfl := Option.some.inj (hs.symm.trans ht)
      exact ⟨hj, hsrc, hexcl⟩
    · rintro ⟨hj, hsrc, hexcl⟩
      subst hb
      exact ⟨⟨hsrc, h.known hr hs rfl hj hwants, s, hs, hexcl⟩, hj⟩
  · simp only [if_neg hr, true_and, and_self, hwants]

/-- How many of the puts that go on from a node are due at a subscription. -/
theorem Rest.due_flights (h : w.Rest W) (hrun : (w.core i).running = true)
    (hputs : (w.core i).Puts src key payload l) (j : ι) (id : Nat) (key' : String)
    (payload' : Payload) (hops : Nat) :
    (w.flights W i hops l).countP (fun y => decide (w.Due W j id key' payload' y)) =
      if (key' = key ∧ payload' = payload) ∧ w.Wants j id key ∧ ∃ u, w.Way W i src j u
      then 1 else 0 := by
  have hdue : ∀ y ∈ w.flights W i hops l, w.Due W j id key' payload' y →
      (key' = key ∧ payload' = payload) ∧ w.Wants j id key := by
    intro y hy hd
    obtain ⟨u, s, -, -, rfl⟩ := (mem_flights hputs).1 hy
    obtain ⟨⟨rfl, rfl⟩, hwants, -⟩ := hd
    exact ⟨⟨rfl, rfl⟩, hwants⟩
  by_cases hA : (key' = key ∧ payload' = payload) ∧ w.Wants j id key
  · obtain ⟨⟨rfl, rfl⟩, hwants⟩ := hA
    let due : Nat × String × Payload → Bool := fun x =>
      (((w.core i).sessions.lookup x.1).map fun s => decide (w.Due W j id key' payload'
        ⟨s.stream, W.far i s.stream, x.2.1, x.2.2,
          hops + if w.between W s.stream then 1 else 0⟩)).getD false
    have hway : ∀ x ∈ carried l, due x = true → x.2 = (key', payload') ∧ w.Way W i src j x.1 := by
      rintro ⟨u, key, payload⟩ hx hd
      obtain ⟨⟨rfl, rfl⟩, hgoes⟩ := (hputs.carried u key payload).1 hx
      cases hs : (w.core i).sessions.lookup u with
      | none => simp [due, hs] at hd
      | some s =>
        obtain ⟨b, hb, -⟩ := h.inv.held i u s hs
        have hd : w.Due W j id key payload ⟨s.stream, W.far i s.stream, key, payload,
            hops + if w.between W s.stream then 1 else 0⟩ := by
          simpa [due, hs] using hd
        refine ⟨rfl, s, b, hs, hb, (h.due_iff hwants hs hb _).1 ⟨?_, hd⟩⟩
        split_ifs at hgoes ⊢
        · exact hgoes
        · exact hgoes.1
    have huniq : ∀ x ∈ carried l, ∀ y ∈ carried l, due x = true → due y = true → x = y := by
      intro x hx y hy hdx hdy
      obtain ⟨hx₂, s, b, hs, hb, hgoes⟩ := hway x hx hdx
      obtain ⟨hy₂, t, b', ht, hb', hgoes'⟩ := hway y hy hdy
      refine Prod.ext ?_ (hx₂.trans hy₂.symm)
      by_cases hr : (w.core i).router = true
      · rw [if_pos hr] at hgoes hgoes'
        exact h.way_unique hr hs ht hb hb' hgoes.1 hgoes'.1
      · have hone := (h.upstream i hrun (by simpa using hr)).1
        exact hone _ (Map.mem_iff_lookup.2 ⟨s, hs⟩) _ (Map.mem_iff_lookup.2 ⟨t, ht⟩)
    have hcount : (w.flights W i hops l).countP
        (fun y => decide (w.Due W j id key' payload' y)) = (carried l).countP due := by
      rw [flights, List.countP_filterMap]
      simp only [Option.map_map]
      rfl
    rw [hcount, countP_unique hputs.nodup huniq]
    refine if_congr ⟨?_, ?_⟩ rfl rfl
    · rintro ⟨x, hx, hd⟩
      exact ⟨⟨rfl, rfl⟩, hwants, x.1, (hway x hx hd).2⟩
    · rintro ⟨-, -, u, s, b, hs, hb, hgoes⟩
      obtain ⟨hon, hd⟩ := (h.due_iff hwants hs hb
        (hops + if w.between W s.stream then 1 else 0)).2 hgoes
      refine ⟨(u, key', payload'), (hputs.carried _ _ _).2 ⟨⟨rfl, rfl⟩, ?_⟩, ?_⟩
      · split_ifs at hon ⊢
        · exact hon
        · exact ⟨hon, Map.mem_iff_lookup.2 ⟨s, hs⟩⟩
      · show Option.getD (Option.map _ ((w.core i).sessions.lookup u)) false = true
        rw [hs]
        exact decide_eq_true hd
  · rw [if_neg fun hn => hA ⟨hn.1, hn.2.1⟩]
    exact List.countP_eq_zero.2 fun y hy hd => hA (hdue y hy (of_decide_eq_true hd))

theorem Rest.aloft_flights (h : w.Rest W) (hputs : (w.core i).Puts src key payload l)
    (hhops : hops ≤ 1) (hclient : (w.core i).router = false → src = none → hops = 0)
    (hrouter : ∀ u s, (w.core i).router = true → (w.core i).Onward src key u →
      (w.core i).sessions.lookup u = some s → s.role = .router → hops = 0) :
    ∀ y ∈ w.flights W i hops l, w.Aloft W y := by
  intro y hy
  obtain ⟨u, s, hs, hgoes, rfl⟩ := (mem_flights hputs).1 hy
  obtain ⟨b, rfl, -⟩ := h.inv.held i u s hs
  have hfar := far_eq (W := W) (k := s.stream) (b := b) rfl
  have hbetween : w.between W s.stream = true ↔ (w.core (W.node s.stream b)).router = true ∧
      (w.core (W.node s.stream (!b))).router = true := by
    rw [between, Bool.and_eq_true]
    cases b
    · exact and_comm
    · exact Iff.rfl
  have hrole := h.role_eq hs rfl
  rw [hfar]
  refine ⟨h.other ⟨u, s, hs, rfl⟩, ?_, fun hr => ?_⟩
  · show hops + (if w.between W s.stream then 1 else 0) ≤ 1
    split_ifs with hb
    · obtain ⟨hr, hr'⟩ := hbetween.1 hb
      rw [if_pos hr] at hgoes
      rw [hrouter u s hr hgoes hs (hrole.2 hr')]
    · exact hhops
  · rw [Bool.not_not] at hr
    show hops + (if w.between W s.stream then 1 else 0) = 0
    rw [if_neg (by simp [hr])] at hgoes
    rw [hclient hr hgoes, if_neg]
    exact fun hb => absurd (hr.symm.trans (hbetween.1 hb).1) nofun

end Flights

end World

/-! ## Every run -/

namespace Flow

/-- The nodes have not changed. -/
def Still (w : World ι) (s : Flow ι) : Prop :=
  ∀ i, ∃ l, s.world.core i = { w.core i with fx := (w.core i).fx ++ l }

/-- So many puts have been made of each payload under each key. -/
structure Underway (W : Wires ι) (w : World ι) (n : String → Payload → Nat) (s : Flow ι) :
    Prop where
  still : s.Still w
  aloft : ∀ x ∈ s.air, w.Aloft W x
  count : ∀ j id key payload, (s.world.core j).fx.count (.sample id key payload) +
      s.air.countP (fun x => decide (w.Due W j id key payload x)) =
    (w.core j).fx.count (.sample id key payload) +
      if w.Wants j id key then n key payload else 0

variable [DecidableEq ι] {W : Wires ι} {w : World ι} {s : Flow ι} {n : String → Payload → Nat}
  {i j : ι} {o : Told} {e : Ev} {src : Option Nat} {key : String} {payload : Payload} {l : List Fx}

/-- What handling a put does. -/
theorem Still.handle (hs : s.Still w) (h : w.Rest W) (hrun : (w.core i).running = true)
    (ho : o.Roomy) (hev : (s.world.core i).onEv o e = (s.world.core i).routePut o src key payload)
    (hops : Nat) : ∃ l, (w.core i).Puts src key payload l ∧
      (s.handle W i o e hops).air = s.air ++ w.flights W i hops l ∧
      ∀ j, (s.handle W i o e hops).world.core j = { s.world.core j with
        fx := (s.world.core j).fx ++ if j = i then l else [] } := by
  obtain ⟨l₀, hcore⟩ := hs i
  have hlisted : (s.world.core i).Listed := by
    rw [hcore]
    exact (h.listed i hrun).frame rfl rfl rfl
  have hone : (s.world.core i).router = false →
      (s.world.core i).Client ∧ (s.world.core i).AtMostOne := by
    rw [hcore]
    intro hr
    have hclient := h.client hrun hr
    exact ⟨⟨hclient.router, hclient.decls, hclient.ids, hclient.uids⟩, (h.upstream i hrun hr).1⟩
  obtain ⟨l, hl, hputs⟩ := hlisted.routePut ho hone src key payload
  have hnew : (s.handle W i o e hops).world.core i = { s.world.core i with
      fx := (s.world.core i).fx ++ l } := by
    rw [← hl, ← hev]
    exact World.handle_core_self W s.world i o e
  have hcores : ∀ j, (s.handle W i o e hops).world.core j = { s.world.core j with
      fx := (s.world.core j).fx ++ if j = i then l else [] } := by
    intro j
    by_cases hj : j = i
    · rw [hj, if_pos rfl, hnew]
    · rw [if_neg hj, List.append_nil]
      exact World.handle_core_ne hj
  refine ⟨l, ?_, ?_, hcores⟩
  · rw [hcore] at hputs
    exact ⟨hputs.samples, hputs.nodup, hputs.carried⟩
  · show s.air ++ (s.handle W i o e hops).world.flights W i hops
      (((s.handle W i o e hops).world.core i).fx.drop (s.world.core i).fx.length) = _
    rw [hnew, List.drop_left, World.flights_congr fun j => ?_]
    obtain ⟨l', hl'⟩ := hs j
    exact ⟨(s.world.core j).fx ++ if j = i then l else [], by rw [hcores, hl']⟩

/-- How many samples and puts are added. -/
theorem Still.handle_count (hs : s.Still w) (h : w.Rest W)
    (hrun : (w.core i).running = true) (ho : o.Roomy)
    (hev : (s.world.core i).onEv o e = (s.world.core i).routePut o src key payload)
    (hops : Nat) (j : ι) (id : Nat) (key' : String) (payload' : Payload) :
    ((s.handle W i o e hops).world.core j).fx.count (.sample id key' payload') +
        (s.handle W i o e hops).air.countP (fun x => decide (w.Due W j id key' payload' x)) =
      (s.world.core j).fx.count (.sample id key' payload') +
        s.air.countP (fun x => decide (w.Due W j id key' payload' x)) +
          if (key' = key ∧ payload' = payload) ∧ w.Wants j id key ∧
            (j = i ∨ ∃ u, w.Way W i src j u) then 1 else 0 := by
  obtain ⟨l, hputs, hair, hcore⟩ := hs.handle h hrun ho hev hops
  have hdue := h.due_flights hrun hputs j id key' payload' hops
  rw [hair, hcore, List.count_append, List.countP_append, hdue]
  by_cases hji : j = i
  · subst hji
    have hno : ∀ u, ¬ w.Way W j src j u := fun u => World.no_way_back
    rw [if_pos rfl, hputs.samples]
    simp only [World.Wants, hrun, hno, true_and, exists_false, and_false, or_false, and_true,
      if_false]
    omega
  · simp only [hji, if_false, List.count_nil, false_or]
    omega

theorem Still.next (hs : s.Still w) {s' : Flow ι} (hcore : ∀ j, s'.world.core j =
    { s.world.core j with fx := (s.world.core j).fx ++ if j = i then l else [] }) : s'.Still w := by
  intro j
  obtain ⟨l', hl'⟩ := hs j
  exact ⟨l' ++ if j = i then l else [], by rw [hcore, hl', List.append_assoc]⟩

/-- A put is made. -/
theorem Underway.put (hs : s.Underway W w n) (h : w.Rest W) (hrun : (w.core i).running = true)
    (ho : o.Roomy) (key : String) (payload : Payload) :
    (s.handle W i o (.cmd (.put key payload)) 0).Underway W w fun key' payload' =>
      n key' payload' + if key' = key ∧ payload' = payload then 1 else 0 := by
  obtain ⟨l, hputs, hair, hcore⟩ := hs.still.handle h hrun ho (e := .cmd (.put key payload)) rfl 0
  refine ⟨hs.still.next hcore, ?_, fun j id key' payload' => ?_⟩
  · rw [hair]
    exact List.forall_mem_append.2 ⟨hs.aloft, h.aloft_flights hputs (Nat.zero_le 1)
      (fun _ _ => rfl) fun _ _ _ _ _ _ => rfl⟩
  · rw [hs.still.handle_count h hrun ho (e := .cmd (.put key payload)) rfl 0, hs.count]
    by_cases hwants : w.Wants j id key'
    · have hway := h.way_put hrun hwants.1
      by_cases hk : key' = key ∧ payload' = payload
      · obtain ⟨rfl, rfl⟩ := hk
        simp only [and_self, hwants, hway, if_true]
        omega
      · simp [hk]
    · have hno : ¬ ((key' = key ∧ payload' = payload) ∧ w.Wants j id key ∧
          (j = i ∨ ∃ u, w.Way W i none j u)) := by
        rintro ⟨⟨rfl, -⟩, hn, -⟩
        exact hwants hn
      simp [hwants, hno]

/-- How far a put in the air has still to go. -/
def rank (W : Wires ι) (w : World ι) (x : Flight) : Nat :=
  if (w.core (W.node x.k x.b)).router then
    if (w.core (W.node x.k (!x.b))).router then 1 else 2
  else 0

theorem perm_eraseIdx {α : Type} {l : List α} {m : Nat} {x : α} (h : l[m]? = some x) :
    l.Perm (x :: l.eraseIdx m) := by
  obtain ⟨hm, rfl⟩ := List.getElem?_eq_some_iff.1 h
  exact (List.getElem_cons_eraseIdx_perm hm).symm

/-- A put arrives, and what goes on from it has less far to go. -/
theorem Underway.land (hs : s.Underway W w n) (h : w.Rest W) (ho : o.Roomy) {m : Nat}
    {x : Flight} (hx : s.air[m]? = some x) :
    (Flow.land W { s with air := s.air.eraseIdx m } x o).Underway W w n ∧
      ∃ ys, (Flow.land W { s with air := s.air.eraseIdx m } x o).air = s.air.eraseIdx m ++ ys ∧
        ∀ y ∈ ys, rank W w y < rank W w x := by
  have hperm := perm_eraseIdx hx
  obtain ⟨⟨u, t, ht, hk⟩, hhops, hfirst⟩ := hs.aloft x (hperm.mem_iff.2 List.mem_cons_self)
  have hrun : (w.core (W.node x.k x.b)).running = true := h.running ⟨u, t, ht, hk⟩
  have hold := hs.still
  let s₀ : Flow ι := { s with air := s.air.eraseIdx m }
  have hstill : s₀.Still w := hold
  obtain ⟨l₀, hcore₀⟩ := hold (W.node x.k x.b)
  have hon : (s.world.core (W.node x.k x.b)).on x.k = some u := by
    rw [hcore₀]
    exact Core.on_some (h.inv.single _) ht hk
  have hev : (s.world.core (W.node x.k x.b)).onEv o (.msg u (.put x.key x.payload)) =
      (s.world.core (W.node x.k x.b)).routePut o (some u) x.key x.payload := by
    have hlook : (s.world.core (W.node x.k x.b)).sessions.lookup u = some t := by
      rw [hcore₀]
      exact ht
    simp only [Core.onEv, Core.onMsg, hlook]
  have hland : Flow.land W s₀ x o =
      s₀.handle W (W.node x.k x.b) o (.msg u (.put x.key x.payload)) x.hops := by
    simp only [Flow.land, s₀, hon]
  obtain ⟨l, hputs, hair, hcore⟩ := hstill.handle h hrun ho hev x.hops
  have hcount := hstill.handle_count h hrun ho hev x.hops
  rw [← hland] at hair hcore hcount
  have hfrom := h.from_router ht hk
  refine ⟨⟨hstill.next hcore, ?_, fun j id key payload => ?_⟩, _, hair, fun y hy => ?_⟩
  · rw [hair]
    refine List.forall_mem_append.2 ⟨fun y hy => hs.aloft y (List.mem_of_mem_eraseIdx hy),
      h.aloft_flights hputs hhops (fun _ hn => absurd hn (by simp)) fun v t' _ hgoes ht' hrole => ?_⟩
    obtain ⟨-, -, t'', ht'', hno⟩ := hgoes
    obtain rfl := Option.some.inj (ht'.symm.trans ht'')
    refine hfirst ?_
    by_contra hr
    exact hno ⟨hfrom.2 (by simpa using hr), hrole⟩
  · have hsplit := hperm.countP_eq fun x => decide (w.Due W j id key payload x)
    have hall := hs.count j id key payload
    rw [List.countP_cons] at hsplit
    rw [hcount, ← hall, hsplit]
    have hdue : ((key = x.key ∧ payload = x.payload) ∧ w.Wants j id x.key ∧
        (j = W.node x.k x.b ∨ ∃ v, w.Way W (W.node x.k x.b) (some u) j v)) ↔
          w.Due W j id key payload x := by
      rw [World.Due]
      refine and_congr_right fun hkey => ?_
      rw [hkey.1]
      exact and_congr_right fun hwants => (h.way_land ht hk hwants.1).symm
    rw [if_congr hdue rfl rfl]
    simp only [decide_eq_true_eq]
    show (s.world.core j).fx.count _ + (s.air.eraseIdx m).countP _ + _ = _
    omega
  · obtain ⟨v, t', ht', hgoes, rfl⟩ := (World.mem_flights hputs).1 hy
    obtain ⟨b, hb, -⟩ := h.inv.held _ v t' ht'
    split_ifs at hgoes with hr
    obtain ⟨-, -, t'', ht'', hno⟩ := hgoes
    obtain rfl := Option.some.inj (ht'.symm.trans ht'')
    have hrole := h.role_eq (hb.symm ▸ ht') rfl
    rw [rank, rank, if_pos hr]
    simp only [World.far_eq hb, Bool.not_not, hb, if_pos hr]
    split_ifs with hfar hsender hsender
    · exact absurd ⟨hfrom.2 hsender, hrole.2 hfar⟩ hno
    · exact Nat.one_lt_two
    · exact Nat.one_pos
    · exact Nat.two_pos

theorem Underway.next (hs : s.Underway W w n) (h : w.Rest W) {a : Hop ι}
    (hok : (puts W).ok s a) : ((puts W).next s a).Underway W w fun key payload =>
      n key payload + if a.puts key payload then 1 else 0 := by
  cases a with
  | put i o key payload =>
    obtain ⟨l, hl⟩ := hs.still i
    have hrun : (w.core i).running = true := by
      have hrun := hok.1
      rwa [hl] at hrun
    have hput := hs.put h hrun hok.2 key payload
    refine ⟨hput.still, hput.aloft, fun j id key' payload' => ?_⟩
    have hmade : (Hop.put i o key payload).puts key' payload' = true ↔
        key' = key ∧ payload' = payload := by simp [Hop.puts]
    rw [if_congr hmade rfl rfl]
    exact hput.count j id key' payload'
  | land m o =>
    obtain ⟨x, hx⟩ : ∃ x, s.air[m]? = some x := ⟨_, List.getElem?_eq_getElem hok.1⟩
    have hnext : (puts W).next s (.land m o) =
        Flow.land W { s with air := s.air.eraseIdx m } x o := by
      simp only [Mesh.puts, hx]
    rw [hnext]
    exact (hs.land h hok.2 hx).1

theorem Underway.run (hs : s.Underway W w n) (h : w.Rest W) {hops : List (Hop ι)}
    (hl : (puts W).Legal s hops) : ((puts W).exec s hops).Underway W w fun key payload =>
      n key payload + hops.countP (·.puts key payload) := by
  induction hops generalizing s n with
  | nil => exact hs
  | cons a hops ih =>
    have hrun := ih (hs.next h hl.1) hl.2
    refine ⟨hrun.still, hrun.aloft, fun j id key payload => ?_⟩
    rw [List.countP_cons, Nat.add_comm (hops.countP _), ← Nat.add_assoc]
    exact hrun.count j id key payload

/-- Puts do not stay in the air. -/
theorem Underway.ends (hs : s.Underway W w n) (h : w.Rest W) :
    ¬ ∃ as : ℕ → Hop ι, ∀ m,
      ((puts W).restrict fun _ a => a.lands).Legal s ((List.range m).map as) := by
  refine Machine.no_infinite_run (I := fun s => ∃ n, s.Underway W w n)
    (WellFounded.cutExpand Nat.lt_wfRel.wf)
    (fun s => ((s.air.map (rank W w) : List ℕ) : Multiset ℕ)) ?_ ?_ ⟨n, hs⟩
  · rintro s a ⟨n, hs⟩ hok
    exact ⟨_, hs.next h hok.1⟩
  · rintro s a ⟨n, hs⟩ ⟨hok, hlands⟩
    cases a with
    | put => exact absurd hlands id
    | land m o =>
      obtain ⟨x, hx⟩ : ∃ x, s.air[m]? = some x := ⟨_, List.getElem?_eq_getElem hok.1⟩
      have hnext : (puts W).next s (.land m o) =
          Flow.land W { s with air := s.air.eraseIdx m } x o := by
        simp only [Mesh.puts, hx]
      obtain ⟨-, ys, hair, hlow⟩ := hs.land h hok.2 hx
      refine ⟨(ys.map (rank W w) : List ℕ), rank W w x, fun r hr => ?_, ?_⟩
      · obtain ⟨y, hy, rfl⟩ := List.mem_map.1 hr
        exact hlow y hy
      · show ((((puts W).next s (.land m o)).air.map (rank W w) : List ℕ) : Multiset ℕ) + _ = _
        rw [hnext, hair]
        have hperm := (perm_eraseIdx hx).map (rank W w)
        rw [Multiset.coe_eq_coe.2 hperm]
        simp only [List.map_append, List.map_cons, ← Multiset.coe_add, ← Multiset.cons_coe,
          ← Multiset.singleton_add]
        abel

end Flow

namespace World

variable [DecidableEq ι] {W : Wires ι} {w : World ι}

theorem next_core {a : Act ι} (hok : (net W).ok w a) (i : ι) :
    ((net W).next w a).core i = w.core i ∨ (w.core i).running = true ∧
      ∃ o e, ((net W).next w a).core i = (w.core i).onEv o e := by
  have hhandle : ∀ (w₁ : World ι) {j o e}, w₁.core = w.core → (w.core j).running = true →
      (w₁.handle W j o e).core i = w.core i ∨ (w.core i).running = true ∧
        ∃ o' e', (w₁.handle W j o e).core i = (w.core i).onEv o' e' := by
    intro w₁ j o e hcore hrun
    by_cases hij : i = j
    · subst hij
      exact .inr ⟨hrun, o, e, by rw [handle_core_self, hcore]⟩
    · exact .inl (by rw [handle_core_ne hij, hcore])
  cases a with
  | own j o e => exact hhandle w rfl hok.1
  | arrive k b o e => exact hhandle (w.arrives k b) rfl hok.1
  | deliver k b o =>
    have hnext : (net W).next w (.deliver k b o) = w.take W k b o := rfl
    rw [hnext, take]
    cases w.lane k b with
    | nil => exact .inl rfl
    | cons m ms =>
      cases (w.core (W.node k b)).on k with
      | none => exact .inl rfl
      | some u => exact hhandle (w.setLane k b ms) rfl hok.1
  | lose k b n => exact .inl rfl

/-- Every node that runs lists its subscriptions. -/
theorem listed_run (W : Wires ι) (f : ι → Setup) {acts : List (Act ι)}
    (hrun : (net W).Legal (start f) acts) (i : ι)
    (hi : (((net W).exec (start f) acts).core i).running = true) :
    (((net W).exec (start f) acts).core i).Listed := by
  refine Machine.invariant (M := net W)
    (I := fun w => ∀ i, (w.core i).running = true → (w.core i).Listed) ?_
    (fun i _ => Core.listed_new _ _ _ _ _ _) hrun i hi
  intro w a hw hok j hj
  rcases next_core hok j with hsame | ⟨hrun, o, e, hev⟩
  · rw [hsame] at hj ⊢
    exact hw j hj
  · rw [hev] at hj ⊢
    refine (hw j hrun).onEv o fun he => ?_
    rw [he] at hj
    exact absurd hj nofun

/-- Clients change what they have declared with at most one session. -/
abbrev Single (w : World ι) (a : Act ι) : Prop := w.Calm (fun _ => True) a

theorem rest_of_run (W : Wires ι) (f : ι → Setup) {acts : List (Act ι)}
    (hrun : ((net W).restrict Single).Legal (start f) acts)
    (hconv : ((net W).exec (start f) acts).Converged W) :
    ((net W).exec (start f) acts).Rest W :=
  ⟨hconv, inv_run W f hrun, fun i hi =>
    listed_run W f ((Machine.restrict_legal ..).1 hrun).1 i hi⟩

end World

/-- **Every subscription gets a put once, and in one hop.** Nodes put and puts arrive in any order
from when the network has come to rest. -/
theorem put_delivered_once [DecidableEq ι] (W : Wires ι) (f : ι → Setup) {acts : List (Act ι)}
    (hrun : ((net W).restrict World.Single).Legal (World.start f) acts)
    (hconv : ((net W).exec (World.start f) acts).Converged W) {hops : List (Hop ι)}
    (hl : (puts W).Legal { world := (net W).exec (World.start f) acts } hops) :
    let w := (net W).exec (World.start f) acts
    let s := (puts W).exec { world := w } hops
    (∀ x ∈ s.air, x.hops ≤ 1) ∧
      (∀ j id key payload, (s.world.core j).fx.count (.sample id key payload) ≤
        (w.core j).fx.count (.sample id key payload) +
          if w.Wants j id key then hops.countP (·.puts key payload) else 0) ∧
      (s.air = [] → ∀ j id key payload, (s.world.core j).fx.count (.sample id key payload) =
        (w.core j).fx.count (.sample id key payload) +
          if w.Wants j id key then hops.countP (·.puts key payload) else 0) ∧
      ¬ ∃ as : ℕ → Hop ι, ∀ m,
        ((puts W).restrict fun _ a => a.lands).Legal s ((List.range m).map as) := by
  intro w s
  have hrest : w.Rest W := World.rest_of_run W f hrun hconv
  have hstart : Flow.Underway W w (fun _ _ => 0) { world := w } :=
    ⟨fun i => ⟨[], by rw [List.append_nil]⟩, fun x hx => absurd hx List.not_mem_nil,
      fun j id key payload => by simp⟩
  have hend := hstart.run hrest hl
  refine ⟨fun x hx => (hend.aloft x hx).hops, fun j id key payload => ?_,
    fun hair j id key payload => ?_, hend.ends hrest⟩
  · have hcount := hend.count j id key payload
    rw [Nat.zero_add] at hcount
    exact Nat.le.intro hcount
  · have hcount := hend.count j id key payload
    rw [hair, List.countP_nil, Nat.add_zero, Nat.zero_add] at hcount
    exact hcount

end

instance {ι : Type} (W : Wires ι) (w : World ι) (k : Nat) (b : Bool) :
    Decidable (w.Holds W k b) :=
  decidable_of_iff (∃ x ∈ (w.core (W.node k b)).sessions.entries, x.2.stream = k) (by
    simp only [World.Holds, Map.mem_entries, Sigma.exists])

instance {ι : Type} (w : World ι) (a : Act ι) : Decidable (World.Single w a) :=
  inferInstanceAs (Decidable (w.Calm (fun _ => True) a))

namespace World

/-- A client with two subscriptions, its router and another one. -/
def relay : Wires (Fin 3) :=
  ⟨fun k b => if b then 1 else if k = 0 then 0 else 2, by
    intro k
    simp only [if_true, Bool.false_eq_true, if_false]
    split_ifs <;> decide⟩

def relayNodes : Fin 3 → Setup
  | 0 => { node := "a", router := true, seeds := ["b"] }
  | 1 => { node := "b", router := true }
  | 2 => { node := "c", router := false, seeds := ["b"] }

/-- The client comes to its router, and then the other router does. -/
def relaying : List (Act (Fin 3)) :=
  [.own 2 {} (.cmd (.subscribe "x/*")), .own 2 {} (.cmd (.subscribe "x/y")),
    .arrive 1 true {} (.accepted 1 { role := .client, node := "c", boot := 1, sno := 1 }),
    .arrive 1 false {}
      (.dialed "b" 1 (some (1, { role := .router, node := "b", boot := 1, sno := 1 }))),
    .deliver 1 true {}, .deliver 1 true {}, .deliver 1 true {},
    .arrive 0 true {} (.accepted 0 { role := .router, node := "a", boot := 1, sno := 1 }),
    .arrive 0 false {}
      (.dialed "b" 1 (some (0, { role := .router, node := "b", boot := 1, sno := 1 }))),
    .deliver 0 false {}, .deliver 0 false {}, .deliver 0 false {}, .deliver 0 false {},
    .deliver 0 true {}, .deliver 0 true {}]

def relayRest : World (Fin 3) := (net relay).exec (start relayNodes) relaying

theorem relay_converged : relayRest.Converged relay := by
  have hstreams : ∀ i, ∀ x ∈ (relayRest.core i).sessions.entries, x.2.stream < 2 := by
    decide
  have hlow : ∀ {k b}, relayRest.Holds relay k b → k < 2 := by
    rintro k b ⟨u, s, hs, rfl⟩
    exact hstreams _ _ ((Map.mem_entries _).2 hs)
  have hlanes : ∀ k < 2, ∀ b, relayRest.lane k b = [] ∧ relayRest.Holds relay k b := by
    decide
  have hall : ∀ i, (relayRest.core i).AtMostOne ∨ (relayRest.core i).router = true := by
    decide
  have hlinked : ∀ i j, (relayRest.core i).router = true → (relayRest.core j).router = true →
      i ≠ j → ∃ b, relay.node 0 b = i ∧ relay.node 0 (!b) = j := by decide
  have hup : ∀ i, (relayRest.core i).router = false → relay.node 1 false = i ∧
      (relayRest.core (relay.node 1 true)).router = true ∧
        (relayRest.core (relay.node 1 true)).running = true := by decide
  refine ⟨⟨fun k b _ hk => (hlanes k (hlow hk) b).1, fun k b _ _ hk => (hlanes k (hlow hk) _).2,
    fun i j hi hj hne => ?_⟩, fun k b _ _ hk => (hlanes k (hlow hk) _).2, fun i _ hr => ?_⟩
  · obtain ⟨b, hb, hb'⟩ := hlinked i j hi.1 hj.1 hne
    exact ⟨0, b, hb, hb', (hlanes 0 (by decide) b).2⟩
  · obtain ⟨hnode, hroutes⟩ := hup i hr
    refine ⟨(hall i).resolve_right fun hn => absurd (hr.symm.trans hn) nofun, 1, false, hnode,
      (hlanes 1 (by decide) _).2, hroutes, (hlanes 1 (by decide) _).2⟩

end World

/-- The other router puts, and both subscriptions of the client get it. -/
theorem put_delivered_once_relayed :
    let s := (puts World.relay).exec { world := World.relayRest }
      [.put 0 {} "x/y" [1], .land 0 {}, .land 0 {}]
    (s.air = [] ∧ ∀ id ∈ [1, 2], (s.world.core 2).fx.count (.sample id "x/y" [1]) = 1) ∧
      ∀ j id, (s.world.core j).fx.count (.sample id "x/y" [1]) =
        (World.relayRest.core j).fx.count (.sample id "x/y" [1]) +
          if World.relayRest.Wants j id "x/y" then 1 else 0 := by
  intro s
  have hroomy : Told.Roomy {} := fun _ _ => rfl
  have hair : s.air = [] := by decide
  have hlegal : (puts World.relay).Legal { world := World.relayRest }
      [.put 0 {} "x/y" [1], .land 0 {}, .land 0 {}] :=
    ⟨⟨by decide, hroomy⟩, ⟨by decide, hroomy⟩, ⟨by decide, hroomy⟩, trivial⟩
  have hrun : ((net World.relay).restrict World.Single).Legal (World.start World.relayNodes)
      World.relaying := by decide
  obtain ⟨-, -, hcount, -⟩ :=
    put_delivered_once World.relay World.relayNodes hrun World.relay_converged hlegal
  exact ⟨⟨hair, by decide⟩, fun j id => hcount hair j id "x/y" [1]⟩

end OxlensSfu.Mesh
