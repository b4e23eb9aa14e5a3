import OxlensSfu.Mesh.Client

/-!
# A network of nodes

Routers and clients with connections between them. The nodes of a connection are fixed beforehand,
and each of its ends arrives at its node once, as a dial that succeeds or as an accept. What one end
is sent on its lane for declarations waits there and is taken in order.

Everything else is left open: what a node is told to do and when its sessions end, which
connections come to be, and what the messages on the other lanes are.

`Inv` says that whatever a session has been told and is still to be told agrees with its sender. It
is kept by every step when the events of the nodes keep it (`Feeds`).
-/

namespace OxlensSfu.Mesh

/-- The nodes at the two ends of every connection. -/
structure Wires (ι : Type) where
  node : Nat → Bool → ι
  apart : ∀ k, node k true ≠ node k false

structure World (ι : Type) where
  core : ι → Core
  arrived : Nat → Bool → Bool := fun _ _ => false
  /-- What an end has been sent on its lane for declarations and has not taken. -/
  lane : Nat → Bool → List Msg := fun _ _ => []

namespace Core

def role (c : Core) : Role := if c.router then .router else .client

/-- The session on the connection. -/
def on (c : Core) (k : Nat) : Option Nat :=
  (c.sessions.entries.find? (·.2.stream = k)).map (·.1)

/-- What an event adds to the lane of the other end. A session that it closes may still have sent
what it had. -/
def said (c c' : Core) (k : Nat) : List Msg :=
  match (c.on k).or (c'.on k) with
  | some u => pushed u (c'.fx.drop c.fx.length)
  | none => []

end Core

/-- An event that neither brings a connection nor is taken from a lane for declarations. -/
def Ev.Inner : Ev → Prop
  | .msg _ m => m.lane ≠ .declare
  | e => e.brings = none

inductive Act (ι : Type) where
  | own (i : ι) (o : Told) (e : Ev)
  | arrive (k : Nat) (b : Bool) (o : Told) (e : Ev)
  | deliver (k : Nat) (b : Bool) (o : Told)
  /-- Messages of an end that has left are lost. -/
  | lose (k : Nat) (b : Bool) (n : Nat)

variable {ι : Type} [DecidableEq ι]

namespace World

/-- The node handles an event and sends what it has to say. -/
def handle (W : Wires ι) (w : World ι) (i : ι) (o : Told) (e : Ev) : World ι :=
  { w with
    core := Function.update w.core i ((w.core i).onEv o e)
    lane := fun k b => if W.node k (!b) = i then
      w.lane k b ++ (w.core i).said ((w.core i).onEv o e) k else w.lane k b }

def setLane (w : World ι) (k : Nat) (b : Bool) (ms : List Msg) : World ι :=
  { w with lane := Function.update w.lane k (Function.update (w.lane k) b ms) }

def arrives (w : World ι) (k : Nat) (b : Bool) : World ι :=
  { w with arrived := Function.update w.arrived k (Function.update (w.arrived k) b true) }

/-- The first message of the lane is taken. -/
def take (W : Wires ι) (w : World ι) (k : Nat) (b : Bool) (o : Told) : World ι :=
  match w.lane k b with
  | [] => w
  | m :: ms =>
    match (w.core (W.node k b)).on k with
    | some u => (w.setLane k b ms).handle W (W.node k b) o (.msg u m)
    | none => w.setLane k b ms

/-- The event brings the connection, and its other end has said what it is. -/
def Brings (W : Wires ι) (w : World ι) (k : Nat) (b : Bool) (e : Ev) : Prop :=
  match e.brings with
  | some (k', h) => k' = k ∧ h.node = (w.core (W.node k (!b))).node ∧
    h.role = (w.core (W.node k (!b))).role
  | none => False

end World

def net (W : Wires ι) : Machine (World ι) (Act ι) where
  ok w
    | .own i _ e => (w.core i).running = true ∧ e.Inner
    | .arrive k b _ e =>
      (w.core (W.node k b)).running = true ∧ w.arrived k b = false ∧ w.Brings W k b e
    | .deliver k b _ => (w.core (W.node k b)).running = true ∧ w.arrived k b = true
    | .lose k b _ => (w.core (W.node k (!b))).on k = none
  next w
    | .own i o e => w.handle W i o e
    | .arrive k b o e => (w.arrives k b).handle W (W.node k b) o e
    | .deliver k b o => w.take W k b o
    | .lose k b n => w.setLane k b ((w.lane k b).take n)

/-! ## The session on a connection -/

namespace Core

variable {c c' : Core} {k u : Nat}

/-- No connection has two sessions. -/
def Single (c : Core) : Prop := ∀ u v s t, c.sessions.lookup u = some s →
  c.sessions.lookup v = some t → s.stream = t.stream → u = v

theorem on_none (h : ∀ u s, c.sessions.lookup u = some s → s.stream ≠ k) : c.on k = none := by
  rw [on, Option.map_eq_none_iff, List.find?_eq_none]
  intro x hx
  simpa using h x.1 x.2 ((Map.mem_entries _).1 hx)

theorem on_some (h : c.Single) {s : Sess} (hs : c.sessions.lookup u = some s)
    (hk : s.stream = k) : c.on k = some u := by
  rw [on]
  cases hf : c.sessions.entries.find? (·.2.stream = k) with
  | none =>
    have hno := List.find?_eq_none.1 hf ⟨u, s⟩ ((Map.mem_entries _).2 hs)
    exact absurd hk (by simpa using hno)
  | some x =>
    have hx : x.2.stream = k := by simpa using List.find?_some hf
    have hmem := (Map.mem_entries _).1 (List.mem_of_find?_eq_some hf)
    exact congrArg some (h x.1 u x.2 s hmem hs (hx.trans hk.symm))

theorem of_on (h : c.on k = some u) : ∃ s, c.sessions.lookup u = some s ∧ s.stream = k := by
  rw [on, Option.map_eq_some_iff] at h
  obtain ⟨x, hx, rfl⟩ := h
  exact ⟨x.2, (Map.mem_entries _).1 (List.mem_of_find?_eq_some hx), by
    simpa using List.find?_some hx⟩

theorem said_eq {l : List Fx} (hl : c'.fx = c.fx ++ l) (hu : (c.on k).or (c'.on k) = some u) :
    c.said c' k = pushed u l := by
  rw [said, hu, hl, List.drop_left]

end Core

/-! ## The invariant -/

namespace World

/-- What the end of a connection has been told: what its session has, or nothing before it comes. -/
def Hears (W : Wires ι) (w : World ι) (k : Nat) (b : Bool) (D : Decls) : Prop :=
  (∃ u s, (w.core (W.node k b)).sessions.lookup u = some s ∧ s.stream = k ∧ s.has = D) ∨
    w.arrived k b = false ∧ D = .empty

structure Inv (W : Wires ι) (A : ι → Core → Decls → Prop) (w : World ι) : Prop where
  nodes : ∀ i, (w.core i).running = true → (w.core i).Stands ∨ (w.core i).Client
  ended : ∀ i, (w.core i).running = false → ∀ u, u ∉ (w.core i).sessions
  single : ∀ i, (w.core i).Single
  held : ∀ i u s, (w.core i).sessions.lookup u = some s → ∃ b, W.node s.stream b = i ∧
    w.arrived s.stream b = true ∧ s.peer = (w.core (W.node s.stream (!b))).node ∧
    s.role = (w.core (W.node s.stream (!b))).role
  early : ∀ k b, w.arrived k (!b) = false → w.lane k b = [] ∧
    ((w.core (W.node k b)).router = true → ∀ D, w.Hears W k b D → D = .empty)
  clean : ∀ k b, (w.core (W.node k b)).router = true → ∀ D, w.Hears W k b D → D.Clean (w.lane k b)
  agrees : ∀ k b, (w.core (W.node k b)).router = true → ∀ D, w.Hears W k b D →
    ∀ u s, (w.core (W.node k (!b))).sessions.lookup u = some s → s.stream = k →
    A (W.node k (!b)) (w.core (W.node k (!b))) (D.after (w.lane k b))

/-- Everything before the event is handled: a connection arrives, or a message is taken. -/
structure Sets (W : Wires ι) (w : World ι) (i : ι) (e : Ev) (w₁ : World ι) : Prop where
  core : w₁.core = w.core
  taken : ∀ k b, ∃ ms, w.lane k b = ms ++ w₁.lane k b ∧
    (ms ≠ [] → W.node k b = i ∧ w.arrived k b = true) ∧
    (W.node k b = i → ∀ u s, (w.core i).sessions.lookup u = some s → s.stream = k →
      e.tells u s.has = s.has.after ms)
  arrived : ∀ k b, w.arrived k b = true → w₁.arrived k b = true
  brought : ∀ k h, e.brings = some (k, h) → ∃ b, W.node k b = i ∧ w.arrived k b = false ∧
    w₁.arrived k b = true ∧ h.node = (w.core (W.node k (!b))).node ∧
    h.role = (w.core (W.node k (!b))).role
  others : ∀ k b, w.arrived k b = false → w₁.arrived k b = true → W.node k b = i

variable {W : Wires ι} {A : ι → Core → Decls → Prop} {w w₁ : World ι} {i : ι} {o : Told} {e : Ev}
  {k : Nat} {b : Bool} {D : Decls}

omit [DecidableEq ι] in
theorem end_unique {b' : Bool} (h : W.node k b = i) (h' : W.node k b' = i) : b = b' := by
  have hapart := W.apart k
  cases b <;> cases b'
  · rfl
  · exact absurd (h'.trans h.symm) hapart
  · exact absurd (h.trans h'.symm) hapart
  · rfl

theorem handle_core_self (W : Wires ι) (w : World ι) (i : ι) (o : Told) (e : Ev) :
    (w.handle W i o e).core i = (w.core i).onEv o e := Function.update_self ..

theorem handle_core_ne {j : ι} (hj : j ≠ i) : (w.handle W i o e).core j = w.core j :=
  Function.update_of_ne hj ..

theorem handle_lane (W : Wires ι) (w : World ι) (i : ι) (o : Told) (e : Ev) (k : Nat) (b : Bool) :
    (w.handle W i o e).lane k b = if W.node k (!b) = i then
      w.lane k b ++ (w.core i).said ((w.core i).onEv o e) k else w.lane k b := rfl

namespace Inv

omit [DecidableEq ι] in
/-- A session in place is on a connection that has arrived. -/
theorem arrived_of (h : w.Inv W A) (hb : W.node k b = i) {u : Nat} {s : Sess}
    (hs : (w.core i).sessions.lookup u = some s) (hk : s.stream = k) :
    w.arrived k b = true ∧ s.role = (w.core (W.node k (!b))).role := by
  obtain ⟨b', hb', harrived, -, hrole⟩ := h.held i u s hs
  rw [hk] at hb' harrived hrole
  obtain rfl := end_unique hb hb'
  exact ⟨harrived, hrole⟩

omit [DecidableEq ι] in
theorem nothing_said (h : w.Inv W A) (ht : w.Sets W i e w₁)
    (hseats : (w.core i).Seats e ((w.core i).onEv o e)) (hb : W.node k b = i)
    (hnot : w₁.arrived k b = false) : (w.core i).said ((w.core i).onEv o e) k = [] := by
  have hold : ∀ u s, (w.core i).sessions.lookup u = some s → s.stream ≠ k := by
    intro u s hs hk
    obtain ⟨harrived, -⟩ := h.arrived_of hb hs hk
    exact absurd (hnot.symm.trans (ht.arrived k b harrived)) nofun
  have hnew : ∀ u s, ((w.core i).onEv o e).sessions.lookup u = some s → s.stream ≠ k := by
    intro u s' hs' hk
    by_cases hu : u ∈ (w.core i).sessions
    · obtain ⟨s, hs, -, hstream, -⟩ := hseats.stay u s' hs' hu
      exact hold u s hs (hstream.symm.trans hk)
    · obtain ⟨-, k', hello, hbrings, hstream, -⟩ := hseats.come u s' hs' hu
      obtain ⟨b', hb', -, harrived, -⟩ := ht.brought k' hello hbrings
      rw [← hstream, hk] at hb' harrived
      obtain rfl := end_unique hb hb'
      exact absurd (hnot.symm.trans harrived) nofun
  rw [Core.said, Core.on_none hold, Core.on_none hnew]
  rfl

omit [DecidableEq ι] in
/-- The session that comes is on a connection of its own. -/
theorem come_apart (h : w.Inv W A) (ht : w.Sets W i e w₁)
    (hseats : (w.core i).Seats e ((w.core i).onEv o e)) {u v : Nat} {s t : Sess}
    (hs : ((w.core i).onEv o e).sessions.lookup u = some s) (hu : u ∈ (w.core i).sessions)
    (hv : ((w.core i).onEv o e).sessions.lookup v = some t) (hnew : v ∉ (w.core i).sessions) :
    t.stream ≠ s.stream := by
  intro hst
  obtain ⟨s₀, hs₀, -, hstream, -⟩ := hseats.stay u s hs hu
  obtain ⟨-, k, hello, hbrings, hk, -⟩ := hseats.come v t hv hnew
  obtain ⟨b, hb, hnot, -⟩ := ht.brought k hello hbrings
  have hk₀ : s₀.stream = k := hstream.symm.trans (hst.symm.trans hk)
  exact absurd (hnot.symm.trans (h.arrived_of hb hs₀ hk₀).1) nofun

omit [DecidableEq ι] in
theorem single_step (h : w.Inv W A) (ht : w.Sets W i e w₁)
    (hseats : (w.core i).Seats e ((w.core i).onEv o e)) : ((w.core i).onEv o e).Single := by
  intro u v s' t' hs' ht' hst
  by_cases hu : u ∈ (w.core i).sessions <;> by_cases hv : v ∈ (w.core i).sessions
  · obtain ⟨s, hs, -, hstream, -⟩ := hseats.stay u s' hs' hu
    obtain ⟨t, ht, -, hstream', -⟩ := hseats.stay v t' ht' hv
    exact h.single i u v s t hs ht (hstream.symm.trans (hst.trans hstream'))
  · exact absurd hst (Ne.symm (h.come_apart ht hseats hs' hu ht' hv))
  · exact absurd hst (h.come_apart ht hseats ht' hv hs' hu)
  · exact (hseats.come u s' hs' hu).1.trans (hseats.come v t' ht' hv).1.symm

/-- What an end has been told, with what it has taken since. -/
theorem hears_back (ht : w.Sets W i e w₁)
    (hseats : (w.core i).Seats e ((w.core i).onEv o e)) (hr : (w.core (W.node k b)).router = true)
    (hD : (w₁.handle W i o e).Hears W k b D) : ∃ D₀ ms, w.Hears W k b D₀ ∧
      w.lane k b = ms ++ w₁.lane k b ∧ D₀.after ms = D := by
  obtain ⟨ms, hlane, hms, htells⟩ := ht.taken k b
  have hnone : ∀ {P : Prop}, (ms = [] → P) → (W.node k b ≠ i ∨ w.arrived k b = false) → P := by
    intro P hp hor
    refine hp (by_contra fun hne => ?_)
    obtain ⟨hnode, harrived⟩ := hms hne
    exact hor.elim (fun hn => hn hnode) fun hn => absurd (hn.symm.trans harrived) nofun
  rcases hD with ⟨u, s', hs', hk, rfl⟩ | ⟨hnot, rfl⟩
  · by_cases hnode : W.node k b = i
    · rw [hnode, handle_core_self, ht.core] at hs'
      by_cases hu : u ∈ (w.core i).sessions
      · obtain ⟨s, hs, -, hstream, hhas⟩ := hseats.stay u s' hs' hu
        have hk' : s.stream = k := hstream.symm.trans hk
        rw [if_pos (hnode ▸ hr), htells hnode u s hs hk'] at hhas
        exact ⟨s.has, ms, .inl ⟨u, s, hnode ▸ hs, hk', rfl⟩, hlane, hhas.symm⟩
      · obtain ⟨-, k', hello, hbrings, hstream, -, hdecls⟩ := hseats.come u s' hs' hu
        obtain ⟨b', hb', hnot, -⟩ := ht.brought k' hello hbrings
        rw [← hstream, hk] at hb' hnot
        obtain rfl := end_unique hnode hb'
        refine hnone (fun he => ⟨.empty, ms, .inr ⟨hnot, rfl⟩, hlane, ?_⟩) (.inr hnot)
        funext d
        simp [he, Sess.has, hdecls, Decls.empty]
    · rw [handle_core_ne hnode, ht.core] at hs'
      refine hnone (fun he => ⟨s'.has, ms, .inl ⟨u, s', hs', hk, rfl⟩, hlane, ?_⟩) (.inl hnode)
      rw [he, Decls.after_nil]
  · have hnot' : w.arrived k b = false := by
      by_contra hne
      have harrived := ht.arrived k b (by simpa using hne)
      exact absurd (Eq.symm hnot |>.trans harrived) nofun
    refine hnone (fun he => ⟨.empty, ms, .inr ⟨hnot', rfl⟩, hlane, ?_⟩) (.inr hnot')
    rw [he, Decls.after_nil]

/-- What the sender adds to a lane. -/
theorem lane_grows (h : w.Inv W A) (ht : w.Sets W i e w₁)
    (hseats : (w.core i).Seats e ((w.core i).onEv o e))
    (hfeeds : Core.Feeds (A i) (w.core i) ((w.core i).onEv o e)) (hb : W.node k (!b) = i)
    (hr : (w.core (W.node k b)).router = true) (hD : (w₁.handle W i o e).Hears W k b D) :
    D.Clean (w₁.lane k b ++ (w.core i).said ((w.core i).onEv o e) k) ∧
      ∀ u s, ((w.core i).onEv o e).sessions.lookup u = some s → s.stream = k →
        A i ((w.core i).onEv o e)
          (D.after (w₁.lane k b ++ (w.core i).said ((w.core i).onEv o e) k)) := by
  obtain ⟨D₀, ms, hD₀, hlane, rfl⟩ := hears_back ht hseats hr hD
  obtain ⟨l, hl, hold, hnew⟩ := hfeeds
  have hclean := h.clean k b hr D₀ hD₀
  rw [hlane, Decls.clean_append] at hclean
  have hrole : (w.core (W.node k (!(!b)))).role = .router := by
    rw [Bool.not_not, Core.role, if_pos hr]
  rw [Decls.clean_append, Decls.after_append]
  by_cases hheld : ∃ u s, (w.core i).sessions.lookup u = some s ∧ s.stream = k
  · obtain ⟨u, s, hs, hk⟩ := hheld
    have hon : (w.core i).on k = some u := Core.on_some (h.single i) hs hk
    have hagrees := h.agrees k b hr D₀ hD₀ u s (hb ▸ hs) hk
    rw [hb, hlane, Decls.after_append] at hagrees
    obtain ⟨-, hsrole⟩ := h.arrived_of hb hs hk
    obtain ⟨hsaid, hafter⟩ := hold u s _ hs (hsrole.trans hrole) hagrees
    rw [Core.said_eq (u := u) hl (by rw [hon]; rfl)]
    refine ⟨⟨hclean.2, hsaid⟩, fun v s' hs' hk' => hafter ?_⟩
    by_cases hv : v ∈ (w.core i).sessions
    · obtain ⟨t, hv', -, hstream, -⟩ := hseats.stay v s' hs' hv
      obtain rfl := h.single i u v s t hs hv' (hk.trans (hk'.symm.trans hstream))
      exact Map.mem_iff_lookup.2 ⟨s', hs'⟩
    · obtain ⟨-, k', hello, hbrings, hstream, -⟩ := hseats.come v s' hs' hv
      obtain ⟨b', hb', hnot, -⟩ := ht.brought k' hello hbrings
      rw [← hstream, hk'] at hb' hnot
      obtain rfl := end_unique hb hb'
      exact absurd (hnot.symm.trans (h.arrived_of hb hs hk).1) nofun
  · have hnone : (w.core i).on k = none :=
      Core.on_none fun u s hs hk => hheld ⟨u, s, hs, hk⟩
    by_cases hcome : ∃ u s, ((w.core i).onEv o e).sessions.lookup u = some s ∧ s.stream = k
    · obtain ⟨u, s', hs', hk⟩ := hcome
      have hu : u ∉ (w.core i).sessions := by
        intro hu
        obtain ⟨s, hs, -, hstream, -⟩ := hseats.stay u s' hs' hu
        exact hheld ⟨u, s, hs, hstream.symm.trans hk⟩
      obtain ⟨-, k', hello, hbrings, hstream, ⟨-, hsrole⟩, -⟩ := hseats.come u s' hs' hu
      obtain ⟨b', hb', hnot, -, -, hhello⟩ := ht.brought k' hello hbrings
      rw [← hstream, hk] at hb' hnot hhello
      obtain rfl := end_unique hb hb'
      obtain ⟨hempty, hD⟩ := h.early k b hnot
      obtain rfl := hD hr D₀ hD₀
      have hboth : ms = [] ∧ w₁.lane k b = [] := List.append_eq_nil_iff.1 (hlane.symm.trans hempty)
      obtain ⟨hsaid, hafter⟩ := hnew u s' hu hs' (hsrole.trans (hhello.trans hrole))
      have hon : ((w.core i).on k).or (((w.core i).onEv o e).on k) = some u := by
        rw [hnone, Core.on_some (h.single_step ht hseats) hs' hk]
        rfl
      rw [Core.said_eq hl hon, hboth.1, hboth.2]
      exact ⟨⟨trivial, hsaid⟩, fun _ _ _ _ => hafter⟩
    · have hnone' : ((w.core i).onEv o e).on k = none :=
        Core.on_none fun u s hs hk => hcome ⟨u, s, hs, hk⟩
      rw [Core.said, hnone, hnone']
      exact ⟨⟨hclean.2, trivial⟩, fun u s hs hk => absurd ⟨u, s, hs, hk⟩ hcome⟩

/-- An event is handled. -/
theorem handle (h : w.Inv W A) (ht : w.Sets W i e w₁)
    (hseats : (w.core i).Seats e ((w.core i).onEv o e))
    (hfeeds : Core.Feeds (A i) (w.core i) ((w.core i).onEv o e))
    (hnode : ((w.core i).onEv o e).running = true →
      ((w.core i).onEv o e).Stands ∨ ((w.core i).onEv o e).Client)
    (hend : ((w.core i).onEv o e).running = false → ∀ u, u ∉ ((w.core i).onEv o e).sessions) :
    (w₁.handle W i o e).Inv W A := by
  have hcore : w₁.core i = w.core i := congrFun ht.core i
  have hself : (w₁.handle W i o e).core i = (w.core i).onEv o e := by
    rw [handle_core_self, hcore]
  have hother : ∀ j, j ≠ i → (w₁.handle W i o e).core j = w.core j := fun j hj => by
    rw [handle_core_ne hj, ht.core]
  have hrouter : ∀ j, ((w₁.handle W i o e).core j).router = (w.core j).router := by
    intro j
    by_cases hj : j = i
    · rw [hj, hself]
      exact hseats.router
    · rw [hother j hj]
  have hname : ∀ j, ((w₁.handle W i o e).core j).node = (w.core j).node := by
    intro j
    by_cases hj : j = i
    · rw [hj, hself]
      exact hseats.node
    · rw [hother j hj]
  have hlane : ∀ k b, (w₁.handle W i o e).lane k b = if W.node k (!b) = i then
      w₁.lane k b ++ (w.core i).said ((w.core i).onEv o e) k else w₁.lane k b := by
    intro k b
    rw [handle_lane, hcore]
  refine ⟨fun j => ?_, fun j => ?_, fun j => ?_, fun j u s' hs' => ?_, fun k b hnot => ?_,
    fun k b hr D hD => ?_, fun k b hr D hD u s hs hk => ?_⟩
  · by_cases hj : j = i
    · rw [hj, hself]
      exact hnode
    · rw [hother j hj]
      exact h.nodes j
  · by_cases hj : j = i
    · rw [hj, hself]
      exact hend
    · rw [hother j hj]
      exact h.ended j
  · by_cases hj : j = i
    · rw [hj, hself]
      exact h.single_step ht hseats
    · rw [hother j hj]
      exact h.single j
  · simp only [Core.role, hrouter, hname]
    by_cases hj : j = i
    · rw [hj] at hs' ⊢
      rw [hself] at hs'
      by_cases hu : u ∈ (w.core i).sessions
      · obtain ⟨s, hs, ⟨hpeer, hrole⟩, hstream, -⟩ := hseats.stay u s' hs' hu
        obtain ⟨b, hb, harrived, hold⟩ := h.held i u s hs
        rw [hpeer, hrole, hstream]
        exact ⟨b, hb, ht.arrived _ b harrived, hold⟩
      · obtain ⟨-, k, hello, hbrings, hstream, ⟨hpeer, hrole⟩, -⟩ := hseats.come u s' hs' hu
        obtain ⟨b, hb, -, harrived, hhello⟩ := ht.brought k hello hbrings
        rw [hpeer, hrole, hstream]
        exact ⟨b, hb, harrived, hhello⟩
    · rw [hother j hj] at hs'
      obtain ⟨b, hb, harrived, hold⟩ := h.held j u s' hs'
      exact ⟨b, hb, ht.arrived _ b harrived, hold⟩
  · have hbefore : w.arrived k (!b) = false := by
      by_contra hne
      have harrived := ht.arrived k (!b) (by simpa using hne)
      exact absurd (Eq.symm hnot |>.trans harrived) nofun
    obtain ⟨hempty, hD⟩ := h.early k b hbefore
    obtain ⟨ms, htaken, -⟩ := ht.taken k b
    obtain ⟨hms, hrest⟩ := List.append_eq_nil_iff.1 (htaken.symm.trans hempty)
    refine ⟨?_, fun hr D hD' => ?_⟩
    · rw [hlane, hrest]
      split_ifs with hb
      · exact h.nothing_said ht hseats hb hnot
      · rfl
    · rw [hrouter] at hr
      obtain ⟨D₀, ms', hD₀, hlane', rfl⟩ := hears_back ht hseats hr hD'
      obtain ⟨hms', -⟩ := List.append_eq_nil_iff.1 (hlane'.symm.trans hempty)
      rw [hms', Decls.after_nil]
      exact hD hr D₀ hD₀
  · rw [hrouter] at hr
    rw [hlane]
    split_ifs with hb
    · exact (h.lane_grows ht hseats hfeeds hb hr hD).1
    · obtain ⟨D₀, ms, hD₀, htaken, rfl⟩ := hears_back ht hseats hr hD
      have hclean := h.clean k b hr D₀ hD₀
      rw [htaken, Decls.clean_append] at hclean
      exact hclean.2
  · rw [hrouter] at hr
    rw [hlane]
    split_ifs with hb
    · rw [hb, hself] at hs ⊢
      exact (h.lane_grows ht hseats hfeeds hb hr hD).2 u s hs hk
    · rw [hother _ hb] at hs ⊢
      obtain ⟨D₀, ms, hD₀, htaken, rfl⟩ := hears_back ht hseats hr hD
      have hagrees := h.agrees k b hr D₀ hD₀ u s hs hk
      rw [htaken, Decls.after_append] at hagrees
      exact hagrees

end Inv

end World

end OxlensSfu.Mesh
