import OxlensSfu.Mesh.Net

/-!
# Declarations stay in step

What the two ends of a session know of each other's declarations, over every run of a network.

* **`declarations_relayed`** — what a router has been told by another, and is still to be told, is
  what the other passes on. When nothing is in flight and the routers are all linked, every router
  has the tokens of all of them and of their clients.
* **`client_in_step`** — what a router has been told by a client is what the client has declared, as
  long as the client changes that with at most one session.
-/

namespace OxlensSfu.Mesh

theorem Ev.Inner.fresh {e : Ev} (h : e.Inner) (c : Core) : c.Fresh e := by
  cases e with
  | msg u m =>
    cases m with
    | declare => exact absurd rfl h
    | _ => trivial
  | _ => trivial

namespace Core

variable {c c' : Core} {o : Told} {e : Ev} {A B : Core → Decls → Prop} {S : Prop}

/-- There is at most one session. -/
def AtMostOne (c : Core) : Prop := ∀ u ∈ c.sessions, ∀ v ∈ c.sessions, u = v

/-- What the sessions of a node should have. `S` asks for more of a client. -/
def Agrees (S : Prop) (c : Core) (D : Decls) : Prop :=
  (c.router = true → Relayed c D) ∧
    (c.router = false → (S → Declared c D) ∧ (¬ S → Numbered c D))

theorem Feeds.congr (h : Feeds A c c') (hc : ∀ D, B c D → A c D) (hc' : ∀ D, A c' D → B c' D) :
    Feeds B c c' := by
  obtain ⟨l, hl, hold, hnew⟩ := h
  refine ⟨l, hl, fun u s D hs hr hD => ?_, fun u s hu hs hr => ?_⟩
  · obtain ⟨hclean, hafter⟩ := hold u s D hs hr (hc D hD)
    exact ⟨hclean, fun hu => hc' _ (hafter hu)⟩
  · obtain ⟨hclean, hafter⟩ := hnew u s hu hs hr
    exact ⟨hclean, hc' _ hafter⟩

theorem Client.talks_declared (h : c.Client) (o : Told) (hone : c.Alters e → c.AtMostOne) :
    Seats c e (c.onEv o e) ∧ Feeds Declared c (c.onEv o e) ∧
      (e ≠ .cmd .close → (c.onEv o e).Client) :=
  h.onEv_talks o (fun hown _ hD => hD.trans (mine_congr hown).symm) (fun _ => rfl)
    fun halters _ _ hoffers => hoffers.told_single h (hone halters)

theorem Client.talks_numbered (h : c.Client) (o : Told) (e : Ev) :
    Seats c e (c.onEv o e) ∧ Feeds Numbered c (c.onEv o e) ∧
      (e ≠ .cmd .close → (c.onEv o e).Client) :=
  h.onEv_talks o (fun _ hid hD => hD.mono hid) (fun h => h.ids)
    fun _ _ _ hoffers => hoffers.told

/-- Every event keeps the node and its sessions in step. -/
theorem talks (h : c.Stands ∨ c.Client) (hf : c.router = true → c.Fresh e) (o : Told)
    (hone : S → c.router = false → c.Alters e → c.AtMostOne) :
    Seats c e (c.onEv o e) ∧ Feeds (Agrees S) c (c.onEv o e) ∧
      (e ≠ .cmd .close → (c.onEv o e).Stands ∨ (c.onEv o e).Client) := by
  rcases h with h | h
  · obtain ⟨hseats, hfeeds⟩ := h.onEv_talks (hf h.router) o
    have hr' : (c.onEv o e).router ≠ false := by simp [hseats.router, h.router]
    refine ⟨hseats, hfeeds.congr (fun D hD => hD.1 h.router) fun D hD => ?_,
      fun he => .inl (h.onEv o (hf h.router) he)⟩
    exact ⟨fun _ => hD, fun hr => absurd hr hr'⟩
  · by_cases hS : S
    · obtain ⟨hseats, hfeeds, hclient⟩ := h.talks_declared o (hone hS h.router)
      have hr' : (c.onEv o e).router ≠ true := by simp [hseats.router, h.router]
      refine ⟨hseats, hfeeds.congr (fun D hD => (hD.2 h.router).1 hS) fun D hD => ?_,
        fun he => .inr (hclient he)⟩
      exact ⟨fun hr => absurd hr hr', fun _ => ⟨fun _ => hD, fun hn => absurd hS hn⟩⟩
    · obtain ⟨hseats, hfeeds, hclient⟩ := h.talks_numbered o e
      have hr' : (c.onEv o e).router ≠ true := by simp [hseats.router, h.router]
      refine ⟨hseats, hfeeds.congr (fun D hD => (hD.2 h.router).2 hS) fun D hD => ?_,
        fun he => .inr (hclient he)⟩
      exact ⟨fun hr => absurd hr hr', fun _ => ⟨fun hs => absurd hs hS, fun _ => hD⟩⟩

end Core

namespace World

variable {ι : Type} [DecidableEq ι] {W : Wires ι} {S : ι → Prop} {w w₁ : World ι} {i : ι} {o : Told}
  {e : Ev} {k : Nat} {b : Bool}

/-- A client that should stay in step changes what it has declared with at most one session. -/
def Calm (S : ι → Prop) (w : World ι) : Act ι → Prop
  | .own i _ e => S i → (w.core i).router = false → (w.core i).Alters e → (w.core i).AtMostOne
  | _ => True

omit [DecidableEq ι] in
theorem setLane_lane (w : World ι) (k : Nat) (b : Bool) (ms : List Msg) (k' : Nat) (b' : Bool) :
    (w.setLane k b ms).lane k' b' = if k' = k ∧ b' = b then ms else w.lane k' b' := by
  simp only [setLane, Function.update_apply]
  split_ifs with hk hb hb <;> simp_all

omit [DecidableEq ι] in
theorem arrives_arrived (w : World ι) (k : Nat) (b : Bool) (k' : Nat) (b' : Bool) :
    (w.arrives k b).arrived k' b' = if k' = k ∧ b' = b then true else w.arrived k' b' := by
  simp only [arrives, Function.update_apply]
  split_ifs with hk hb hb <;> simp_all

omit [DecidableEq ι] in
theorem Brings.fresh (h : w.Brings W k b e) (c : Core) : c.Fresh e := by
  cases e with
  | msg => exact absurd h nofun
  | _ => trivial

namespace Inv

theorem event (h : w.Inv W fun i => Core.Agrees (S i)) (ht : w.Sets W i e w₁)
    (hrun : (w.core i).running = true) (hf : (w.core i).router = true → (w.core i).Fresh e)
    (o : Told) (hone : S i → (w.core i).router = false → (w.core i).Alters e →
      (w.core i).AtMostOne) :
    (w₁.handle W i o e).Inv W fun i => Core.Agrees (S i) := by
  obtain ⟨hseats, hfeeds, hnode⟩ := Core.talks (h.nodes i hrun) hf o hone
  refine h.handle ht hseats hfeeds (fun hrun' => hnode ?_) fun hend u hu => ?_
  · intro he
    rw [he] at hrun'
    exact absurd hrun' nofun
  · by_cases he : e = .cmd .close
    · rw [he] at hu
      exact (w.core i).shutdown_sessions o u hu
    · rw [hseats.running he, hrun] at hend
      exact absurd hend nofun

/-! ## Every step -/

theorem own (h : w.Inv W fun i => Core.Agrees (S i)) (hrun : (w.core i).running = true)
    (he : e.Inner) (o : Told) (hone : S i → (w.core i).router = false → (w.core i).Alters e →
      (w.core i).AtMostOne) : (w.handle W i o e).Inv W fun i => Core.Agrees (S i) := by
  have htells : ∀ u D, e.tells u D = D := by
    cases e with
    | msg v m =>
      intro u D
      have hhush : m.declares = false := by
        cases m with
        | declare | undeclare => exact absurd rfl he
        | _ => rfl
      show (if v = u then D.apply m else D) = D
      rw [(D.apply_of_hush hhush).1, ite_self]
    | _ => exact fun _ _ => rfl
  have hbrings : ∀ x, e.brings ≠ some x := by
    cases e with
    | accepted => exact absurd he nofun
    | dialed => exact fun x hx => absurd (hx.symm.trans he) nofun
    | _ => exact fun _ => nofun
  refine h.event ⟨rfl, fun k b => ⟨[], rfl, fun hn => absurd rfl hn, fun _ u s _ _ => htells u s.has⟩,
    fun _ _ => id, fun k hello hb => absurd hb (hbrings _), fun k b hn hy => ?_⟩ hrun (fun _ => he.fresh _) o hone
  exact absurd (hn.symm.trans hy) nofun

theorem arrive (h : w.Inv W fun i => Core.Agrees (S i))
    (hrun : (w.core (W.node k b)).running = true) (hnot : w.arrived k b = false)
    (hbrings : w.Brings W k b e) (o : Told) :
    ((w.arrives k b).handle W (W.node k b) o e).Inv W fun i => Core.Agrees (S i) := by
  have htells : ∀ u D, e.tells u D = D := by
    cases e with
    | accepted | dialed => exact fun _ _ => rfl
    | _ => exact absurd hbrings nofun
  have ht : w.Sets W (W.node k b) e (w.arrives k b) := by
    refine ⟨rfl, fun k b => ⟨[], rfl, fun hn => absurd rfl hn, fun _ u s _ _ => htells u s.has⟩,
      fun k' b' harrived => ?_, fun k' hello hb => ?_, fun k' b' hn hy => ?_⟩
    · rw [arrives_arrived, harrived, ite_self]
    · rw [Brings, hb] at hbrings
      obtain ⟨rfl, hrole⟩ := hbrings
      exact ⟨b, rfl, hnot, by rw [arrives_arrived, if_pos ⟨rfl, rfl⟩], hrole⟩
    · rw [arrives_arrived] at hy
      split_ifs at hy with hk
      · rw [hk.1, hk.2]
      · exact absurd (hn.symm.trans hy) nofun
  refine h.event ht hrun (fun _ => hbrings.fresh _) o ?_
  intro _ _ halters
  cases e with
  | cmd => exact absurd hbrings nofun
  | _ => exact absurd halters nofun

omit [DecidableEq ι] in
/-- A lane changes that nobody listens to, or that nobody writes to. -/
theorem relane {A : ι → Core → Decls → Prop} (h : w.Inv W A) {ms : List Msg}
    (hearly : w.arrived k (!b) = false → ms = [])
    (hclean : (w.core (W.node k b)).router = true → ∀ D, w.Hears W k b D → D.Clean ms)
    (hagrees : (w.core (W.node k b)).router = true → ∀ D, w.Hears W k b D → ∀ u s,
      (w.core (W.node k (!b))).sessions.lookup u = some s → s.stream = k →
      A (W.node k (!b)) (w.core (W.node k (!b))) (D.after ms)) :
    (w.setLane k b ms).Inv W A := by
  refine ⟨h.nodes, h.ended, h.single, h.held, fun k' b' hnot => ?_, fun k' b' hr D hD => ?_,
    fun k' b' hr D hD u s hs hk => ?_⟩
  · refine ⟨?_, (h.early k' b' hnot).2⟩
    rw [setLane_lane]
    split_ifs with hkb
    · obtain ⟨rfl, rfl⟩ := hkb
      exact hearly hnot
    · exact (h.early k' b' hnot).1
  · rw [setLane_lane]
    split_ifs with hkb
    · obtain ⟨rfl, rfl⟩ := hkb
      exact hclean hr D hD
    · exact h.clean k' b' hr D hD
  · rw [setLane_lane]
    split_ifs with hkb
    · obtain ⟨rfl, rfl⟩ := hkb
      exact hagrees hr D hD u s hs hk
    · exact h.agrees k' b' hr D hD u s hs hk

omit [DecidableEq ι] in
theorem lose {A : ι → Core → Decls → Prop} (h : w.Inv W A)
    (hon : (w.core (W.node k (!b))).on k = none) (n : Nat) :
    (w.setLane k b ((w.lane k b).take n)).Inv W A := by
  refine h.relane (fun hnot => ?_) (fun hr D hD => ?_) fun _ _ _ u s hs hk => ?_
  · rw [(h.early k b hnot).1, List.take_nil]
  · have hclean := h.clean k b hr D hD
    rw [← List.take_append_drop n (w.lane k b), Decls.clean_append] at hclean
    exact hclean.1
  · exact absurd (hon.symm.trans (Core.on_some (h.single _) hs hk)) nofun

omit [DecidableEq ι] in
/-- What is taken from a lane is no declaration that the session has. -/
theorem taken_fresh {A : ι → Core → Decls → Prop} (h : w.Inv W A) {m : Msg} {ms : List Msg} {u : Nat}
    (hr : (w.core (W.node k b)).router = true) (hlane : w.lane k b = m :: ms)
    (hon : (w.core (W.node k b)).on k = some u) : (w.core (W.node k b)).Fresh (.msg u m) := by
  obtain ⟨s, hs, hk⟩ := Core.of_on hon
  have hclean := h.clean k b hr s.has (.inl ⟨u, s, hs, hk, rfl⟩)
  rw [hlane] at hclean
  cases m with
  | declare kind i x =>
    intro t ht
    obtain rfl := Option.some.inj (hs.symm.trans ht)
    exact AList.lookup_eq_none.1 hclean.1
  | _ => trivial

theorem deliver (h : w.Inv W fun i => Core.Agrees (S i))
    (hrun : (w.core (W.node k b)).running = true) (harrived : w.arrived k b = true) (o : Told) :
    (w.take W k b o).Inv W fun i => Core.Agrees (S i) := by
  rw [take]
  cases hlane : w.lane k b with
  | nil => exact h
  | cons m ms =>
    have hsent : w.arrived k (!b) ≠ false := fun hnot =>
      absurd (hlane.symm.trans (h.early k b hnot).1) nofun
    cases hon : (w.core (W.node k b)).on k with
    | none =>
      have hdeaf : ∀ D, ¬ w.Hears W k b D := by
        rintro D (⟨u, s, hs, hk, -⟩ | ⟨hnot, -⟩)
        · exact absurd (hon.symm.trans (Core.on_some (h.single _) hs hk)) nofun
        · exact absurd (hnot.symm.trans harrived) nofun
      exact h.relane (fun hnot => absurd hnot hsent) (fun _ D hD => absurd hD (hdeaf D))
        fun _ D hD => absurd hD (hdeaf D)
    | some u =>
      obtain ⟨s, hs, hk⟩ := Core.of_on hon
      have ht : w.Sets W (W.node k b) (.msg u m) (w.setLane k b ms) := by
        refine ⟨rfl, fun k' b' => ?_, fun _ _ => id, fun _ _ hb => absurd hb nofun,
          fun _ _ hn hy => absurd (hn.symm.trans hy) nofun⟩
        rw [setLane_lane]
        by_cases hkb : k' = k ∧ b' = b
        · obtain ⟨rfl, rfl⟩ := hkb
          rw [if_pos ⟨rfl, rfl⟩]
          refine ⟨[m], hlane, fun _ => ⟨rfl, harrived⟩, fun _ v t ht hk' => ?_⟩
          obtain rfl := h.single _ u v s t hs ht (hk.trans hk'.symm)
          exact if_pos rfl
        · rw [if_neg hkb]
          refine ⟨[], rfl, fun hn => absurd rfl hn, fun hnode v t ht hk' => if_neg fun he => hkb ?_⟩
          rw [← he, hs] at ht
          obtain rfl := Option.some.inj ht
          obtain rfl := hk.symm.trans hk'
          exact ⟨rfl, end_unique hnode rfl⟩
      exact h.event ht hrun (fun hr => h.taken_fresh hr hlane hon) o fun _ _ => False.elim

theorem next (h : w.Inv W fun i => Core.Agrees (S i)) {a : Act ι} (hok : (net W).ok w a)
    (hcalm : w.Calm S a) : ((net W).next w a).Inv W fun i => Core.Agrees (S i) := by
  cases a with
  | own i o e => exact h.own hok.1 hok.2 o hcalm
  | arrive k b o e => exact h.arrive hok.1 hok.2.1 hok.2.2 o
  | deliver k b o => exact h.deliver hok.1 hok.2 o
  | lose k b n => exact h.lose hok n

end Inv

/-! ## Every run -/

end World

/-- What a node is opened with. -/
structure Setup where
  node : String
  router : Bool
  leaseMs : Nat := 400
  boot : Nat := 1
  adv : Option String := none
  seeds : List String := []

def Setup.core (f : Setup) : Core := .new f.node f.router f.leaseMs f.boot f.adv f.seeds

theorem Core.client_new (node : String) (leaseMs boot : Nat) (adv : Option String)
    (seeds : List String) : (Core.new node false leaseMs boot adv seeds).Client := by
  refine ⟨rfl, fun u s hs => ?_, fun k id _ => ?_, fun u hu => absurd hu (AList.notMem_empty u)⟩
  · exact absurd ((AList.lookup_empty u).symm.trans hs) nofun
  · show Core.own _ k id = none
    cases k <;> exact AList.lookup_empty id

namespace World

variable {ι : Type}

def start (f : ι → Setup) : World ι := { core := fun i => (f i).core }

theorem inv_start (W : Wires ι) (A : ι → Core → Decls → Prop) (f : ι → Setup) :
    (start f).Inv W A := by
  have hnone : ∀ i u s, ((start f).core i).sessions.lookup u ≠ some s := fun i u s hs =>
    absurd ((AList.lookup_empty u).symm.trans hs) nofun
  have hhears : ∀ k b D, (start f).Hears W k b D → D = .empty := by
    rintro k b D (⟨u, s, hs, -⟩ | ⟨-, hD⟩)
    · exact absurd hs (hnone _ u s)
    · exact hD
  refine ⟨fun i _ => ?_, fun i hrun => absurd hrun nofun, fun i u v s t hs => absurd hs (hnone i u s),
    fun i u s hs => absurd hs (hnone i u s), fun k b _ => ⟨rfl, fun _ => hhears k b⟩,
    fun _ _ _ _ _ => trivial, fun k b _ D _ u s hs => absurd hs (hnone _ u s)⟩
  show (f i).core.Stands ∨ (f i).core.Client
  rw [Setup.core]
  cases (f i).router with
  | true => exact .inl (Core.stands_new ..)
  | false => exact .inr (Core.client_new ..)

variable [DecidableEq ι]

theorem inv_run (W : Wires ι) (f : ι → Setup) {S : ι → Prop} {acts : List (Act ι)}
    (hrun : ((net W).restrict fun w a => w.Calm S a).Legal (start f) acts) :
    ((net W).exec (start f) acts).Inv W fun i => Core.Agrees (S i) := by
  rw [← Machine.restrict_exec (net W) fun w a => w.Calm S a]
  exact Machine.invariant (fun w a hw hok => hw.next hok.1 hok.2) (inv_start W _ f) hrun

omit [DecidableEq ι] in
/-- Nothing is asked of the clients. -/
theorem calm_any (w : World ι) (a : Act ι) : w.Calm (fun _ => False) a := by
  cases a with
  | own => exact fun hS => absurd hS id
  | _ => trivial

theorem inv_any (W : Wires ι) (f : ι → Setup) {acts : List (Act ι)}
    (hrun : (net W).Legal (start f) acts) :
    ((net W).exec (start f) acts).Inv W fun _ => Core.Agrees False :=
  inv_run W f (S := fun _ => False)
    ((Machine.restrict_legal ..).2 ⟨hrun, fun _ _ _ _ => calm_any _ _⟩)

end World

/-! ## Routers -/

namespace World

variable {ι : Type}

/-- The end of the connection has a session. -/
def Holds (W : Wires ι) (w : World ι) (k : Nat) (b : Bool) : Prop :=
  ∃ u s, (w.core (W.node k b)).sessions.lookup u = some s ∧ s.stream = k

/-- Every session between routers, held at both ends: what the one end has, with the messages in
flight, is what the other passes on. -/
def Relayed (W : Wires ι) (w : World ι) : Prop :=
  ∀ k b u s, (w.core (W.node k b)).router = true → (w.core (W.node k (!b))).router = true →
    (w.core (W.node k b)).sessions.lookup u = some s → s.stream = k → w.Holds W k (!b) →
    ∀ kind id expr, s.has.after (w.lane k b) (kind, id) = some expr ↔
      (w.core (W.node k (!b))).out.lookup id = some (kind, expr)

/-- A node that runs as a router. -/
def Routes (w : World ι) (i : ι) : Prop := (w.core i).router = true ∧ (w.core i).running = true

/-- Nothing is in flight between routers, and they are all linked. -/
structure Settled (W : Wires ι) (w : World ι) : Prop where
  /-- No message. -/
  lanes : ∀ k b, (w.core (W.node k b)).router = true → w.Holds W k b → w.lane k b = []
  /-- No end of a session. -/
  ends : ∀ k b, (w.core (W.node k b)).router = true → (w.core (W.node k (!b))).router = true →
    w.Holds W k b → w.Holds W k (!b)
  linked : ∀ i j, w.Routes i → w.Routes j → i ≠ j → ∃ k b, W.node k b = i ∧ W.node k (!b) = j ∧
    w.Holds W k b

/-- A router or a client of a router has declared the token. A client has declared what its session
says. -/
def HasToken (w : World ι) (key : String) : Prop :=
  ∃ i, w.Routes i ∧ ((∃ id, (w.core i).lTokens.lookup id = some key) ∨
    ∃ u s id, (w.core i).sessions.lookup u = some s ∧ s.role = .client ∧
      s.decls.lookup (.token, id) = some key)

variable {W : Wires ι} {w : World ι}

theorem Inv.relayed {S : ι → Prop} (h : w.Inv W fun i => Core.Agrees (S i)) : w.Relayed W := by
  intro k b u s hr hr' hs hk hheld kind id expr
  obtain ⟨v, t, ht, hk'⟩ := hheld
  have hD := (h.agrees k b hr s.has (.inl ⟨u, s, hs, hk, rfl⟩) v t ht hk').1 hr'
  rw [show s.has.after (w.lane k b) = _ from hD]
  exact Core.passed_eq_some

end World

namespace Core

variable {c : Core}

theorem Stands.tok_mem (h : c.Stands) (key : String) : key ∈ c.tok ↔
    (∃ id, c.lTokens.lookup id = some key) ∨
      ∃ u s id, c.sessions.lookup u = some s ∧ s.decls.lookup (.token, id) = some key := by
  have hone : ∀ e : String, oneOf e key = 0 ↔ e ≠ key := fun e => by simp [oneOf]
  have hkind : ∀ (k : DeclKind) e, k.tokens e key = 0 ↔ ¬ (k = .token ∧ e = key) := fun k e => by
    simp [DeclKind.tokens, hone]
  have hzero : c.tokens key = 0 ↔ (∀ id e, c.lTokens.lookup id = some e → e ≠ key) ∧
      ∀ u s, c.sessions.lookup u = some s → ∀ d e, s.decls.lookup d = some e →
        ¬ (d.1 = .token ∧ e = key) := by
    rw [tokens, Nat.add_eq_zero_iff, Map.total_eq_zero, Map.total_eq_zero]
    simp only [Sess.tokens, Map.total_eq_zero, hone, hkind]
  have htok : key ∈ c.tok ↔ c.tokens key ≠ 0 := by
    rw [Map.mem_iff_lookup, show c.tok.lookup key = _ from h.index.tok key]
    show (∃ v, (if c.tokens key = 0 then none else some (c.tokens key)) = some v) ↔ _
    split_ifs with hz <;> simp [hz]
  rw [htok, Ne, hzero, not_and_or]
  refine or_congr ?_ ?_
  · push Not
    refine exists_congr fun id => ⟨?_, fun he => ⟨key, he, rfl⟩⟩
    rintro ⟨e, he, rfl⟩
    exact he
  · push Not
    constructor
    · rintro ⟨u, s, hs, ⟨k, id⟩, e, he, rfl, rfl⟩
      exact ⟨u, s, id, hs, he⟩
    · rintro ⟨u, s, id, hs, he⟩
      exact ⟨u, s, hs, (.token, id), key, he, rfl, rfl⟩

end Core

namespace World

variable {ι : Type} {W : Wires ι} {w : World ι} {i : ι} {key : String}

/-- A token that a router passes on is one of its own or of a client. -/
theorem Inv.passes {S : ι → Prop} (h : w.Inv W fun i => Core.Agrees (S i)) (hi : w.Routes i)
    (id : Nat) (hout : (w.core i).out.lookup id = some (.token, key)) : w.HasToken key := by
  have hstands : (w.core i).Stands := (h.nodes i hi.2).resolve_right fun hc =>
    absurd (hi.1.symm.trans hc.router) nofun
  refine ⟨i, hi, ?_⟩
  rcases (hstands.index.passes.entries id .token key).1 hout with hown | ⟨u, j, -, hcl⟩
  · exact .inl ⟨id, hown⟩
  · obtain ⟨s, hs, hrole, hdecl⟩ := Core.clients_eq_some.1 hcl
    exact .inr ⟨u, s, j, hs, hrole, hdecl⟩

theorem Inv.tokens {S : ι → Prop} (h : w.Inv W fun i => Core.Agrees (S i))
    (hsettled : w.Settled W) (hi : w.Routes i) : key ∈ (w.core i).tok ↔ w.HasToken key := by
  have hstands : ∀ j, w.Routes j → (w.core j).Stands := fun j hj =>
    (h.nodes j hj.2).resolve_right fun hc => absurd (hj.1.symm.trans hc.router) (by simp)
  have hlanes := hsettled.lanes
  rw [(hstands i hi).tok_mem]
  constructor
  · rintro (⟨id, hid⟩ | ⟨u, s, id, hs, hdecl⟩)
    · exact ⟨i, hi, .inl ⟨id, hid⟩⟩
    · cases hrole : s.role with
      | client => exact ⟨i, hi, .inr ⟨u, s, id, hs, hrole, hdecl⟩⟩
      | router =>
        obtain ⟨b, rfl, -, -, hr⟩ := h.held i u s hs
        have hother : (w.core (W.node s.stream (!b))).router = true := by
          rw [hrole, Core.role] at hr
          by_contra hne
          rw [if_neg hne] at hr
          exact absurd hr (by simp)
        have hhere : w.Holds W s.stream b := ⟨u, s, hs, rfl⟩
        have hthere := hsettled.ends s.stream b hi.1 hother hhere
        have hout := (h.relayed s.stream b u s hi.1 hother hs rfl hthere .token id key).1
        rw [hlanes s.stream b hi.1 hhere] at hout
        refine h.passes ⟨hother, ?_⟩ id (hout hdecl)
        obtain ⟨v, t, ht, -⟩ := hthere
        by_contra hne
        exact h.ended _ (by simpa using hne) v (Map.mem_iff_lookup.2 ⟨t, ht⟩)
  · rintro ⟨j, hj, htok⟩
    by_cases hij : i = j
    · subst hij
      refine htok.imp id ?_
      rintro ⟨u, s, id, hs, -, hdecl⟩
      exact ⟨u, s, id, hs, hdecl⟩
    · obtain ⟨k, b, rfl, rfl, hhere⟩ := hsettled.linked i j hi hj hij
      have hthere := hsettled.ends k b hi.1 hj.1 hhere
      have hlane := hlanes k b hi.1 hhere
      obtain ⟨u, s, hs, hk⟩ := hhere
      obtain ⟨id, hout⟩ : ∃ id, (w.core (W.node k (!b))).out.lookup id = some (.token, key) := by
        have hentries := (hstands _ hj).index.passes
        rcases htok with ⟨id, hid⟩ | ⟨v, t, n, ht, hrole, hdecl⟩
        · exact ⟨id, (hentries.entries id .token key).2 (.inl hid)⟩
        · have hcl := Core.clients_eq_some.2 ⟨t, ht, hrole, hdecl⟩
          have hids := hentries.ids v (.token, n)
          obtain ⟨id, hid⟩ := Option.isSome_iff_exists.1 (hids.2 (by
            show ((w.core (W.node k (!b))).clients v (.token, n)).isSome
            rw [hcl]
            rfl))
          exact ⟨id, (hentries.entries id .token key).2 (.inr ⟨v, n, hid, hcl⟩)⟩
      have hin := (h.relayed k b u s hi.1 hj.1 hs hk hthere .token id key).2 hout
      rw [hlane] at hin
      exact .inr ⟨u, s, id, hs, hin⟩

variable [DecidableEq ι]

instance (e : Ev) : Decidable e.Inner := by
  unfold Ev.Inner
  split <;> infer_instance

instance (w : World ι) (k : Nat) (b : Bool) (e : Ev) : Decidable (w.Brings W k b e) := by
  unfold Brings
  split <;> infer_instance

instance (w : World ι) (a : Act ι) : Decidable ((net W).ok w a) := by
  unfold net
  cases a <;> dsimp only <;> infer_instance

/-- **Routers stay in step with each other**, and then they agree on the tokens. -/
theorem declarations_relayed (W : Wires ι) (f : ι → Setup) {acts : List (Act ι)}
    (hrun : (net W).Legal (start f) acts) :
    ((net W).exec (start f) acts).Relayed W ∧
      (((net W).exec (start f) acts).Settled W →
        ∀ i, ((net W).exec (start f) acts).Routes i → ∀ key,
          key ∈ (((net W).exec (start f) acts).core i).tok ↔
            ((net W).exec (start f) acts).HasToken key) := by
  have hinv := inv_any W f hrun
  exact ⟨hinv.relayed, fun hsettled i hi key => hinv.tokens hsettled hi⟩

/-- Two nodes and any number of connections between them. -/
def pair : Wires Bool := ⟨fun _ b => b, fun _ => nofun⟩

/-- A router declares a token, and the other one hears of it when they are linked. -/
def linking : List (Act Bool) :=
  [.own false {} (.cmd (.declareToken "t")),
    .arrive 0 true {} (.accepted 0 { role := .router, node := "a", boot := 1, sno := 1 }),
    .arrive 0 false {} (.dialed "b" 1 (some (0, { role := .router, node := "b", boot := 1, sno := 1 }))),
    .deliver 0 true {}]

def routers : Bool → Setup
  | false => { node := "a", router := true, seeds := ["b"] }
  | true => { node := "b", router := true }

theorem declarations_relayed_linking :
    "t" ∈ (((net pair).exec (start routers) linking).core true).tok ∧
      ((net pair).exec (start routers) linking).Relayed pair :=
  ⟨by decide, (declarations_relayed pair routers (by decide)).1⟩

/-! ## Clients -/

/-- What the routers have been told by a client is what it has declared: for each of its sessions
what the router's end has, or nothing before that comes, with the messages in flight. -/
def InStep (W : Wires ι) (w : World ι) (i : ι) : Prop :=
  (w.core i).router = false → ∀ k b u s, W.node k (!b) = i →
    (w.core i).sessions.lookup u = some s → s.stream = k → (w.core (W.node k b)).router = true →
    ∀ D, w.Hears W k b D → ∀ kind id expr,
      D.after (w.lane k b) (kind, id) = some expr ↔ (w.core i).own kind id = some expr

omit [DecidableEq ι] in
theorem Inv.inStep {S : ι → Prop} {i : ι} (h : w.Inv W fun i => Core.Agrees (S i)) (hS : S i) :
    w.InStep W i := by
  intro hclient k b u s hnode hs hk hr D hD kind id expr
  subst hnode
  have hmine := ((h.agrees k b hr D hD u s hs hk).2 hclient).1 hS
  rw [show D.after (w.lane k b) = _ from hmine]
  rfl

instance (c : Core) : Decidable c.AtMostOne :=
  decidable_of_iff (∀ u ∈ c.sessions.keys, ∀ v ∈ c.sessions.keys, u = v) (by
    simp only [Core.AtMostOne, AList.mem_keys])

instance (S : ι → Prop) [DecidablePred S] (w : World ι) : (a : Act ι) → Decidable (w.Calm S a)
  | .own i _ e => inferInstanceAs (Decidable (S i → (w.core i).router = false →
      (w.core i).Alters e → (w.core i).AtMostOne))
  | .arrive .. | .deliver .. | .lose .. => .isTrue trivial

/-- **A client stays in step** when it changes what it has declared with at most one session. Its
upstream, whom it tells, is then everybody there is. -/
theorem client_in_step (W : Wires ι) (f : ι → Setup) (i : ι) {acts : List (Act ι)}
    (hrun : ((net W).restrict fun w a => w.Calm (· = i) a).Legal (start f) acts) :
    ((net W).exec (start f) acts).InStep W i :=
  (inv_run W f hrun).inStep rfl

instance : NeZero 3 := ⟨by decide⟩

/-- A client and two routers. -/
def fork : Wires (Fin 3) :=
  ⟨fun k b => if b then 0 else if k = 1 then 1 else 2, by
    intro k
    simp only [if_true, Bool.false_eq_true, if_false]
    split_ifs <;> decide⟩

/-- The client has the addresses of both. -/
def seeded : Fin 3 → Setup
  | 0 => { node := "c", router := false, seeds := ["a", "b"] }
  | 1 => { node := "a", router := true }
  | 2 => { node := "b", router := true }

/-- The client dials both routers, and both dials succeed. -/
def dialing : List (Act (Fin 3)) :=
  [.own 0 {} (.tick 0),
    .arrive 1 false {} (.accepted 1 { role := .client, node := "c", boot := 1, sno := 1 }),
    .arrive 2 false {} (.accepted 2 { role := .client, node := "c", boot := 1, sno := 2 }),
    .arrive 1 true {} (.dialed "a" 1 (some (1, { role := .router, node := "a", boot := 1, sno := 1 }))),
    .arrive 2 true {} (.dialed "b" 2 (some (2, { role := .router, node := "b", boot := 1, sno := 2 })))]

/-- The client declares, and tells the router of its first session what else it declares. -/
def declaring : List (Act (Fin 3)) :=
  .own 0 {} (.cmd (.declareToken "t")) :: dialing.take 4 ++
    [.own 0 {} (.cmd (.subscribe "x/*")), .deliver 1 false {}]

theorem client_in_step_declaring :
    (((net fork).exec (start seeded) declaring).lane 1 false).length = 2 ∧
      ((net fork).exec (start seeded) declaring).InStep fork 0 :=
  ⟨by decide, client_in_step fork seeded 0 (by decide)⟩

/-- With two sessions the client tells only one of them of its token. -/
theorem two_sessions_out_of_step : ∃ acts, (net fork).Legal (start seeded) acts ∧
    ¬ ((net fork).exec (start seeded) acts).InStep fork 0 := by
  refine ⟨dialing ++ [.own 0 {} (.cmd (.declareToken "t"))], by decide, fun h => ?_⟩
  let w := (net fork).exec (start seeded) (dialing ++ [.own 0 {} (.cmd (.declareToken "t"))])
  obtain ⟨s, hs⟩ : ∃ s, (w.core 0).sessions.lookup 1 = some s :=
    Option.isSome_iff_exists.1 (by decide)
  obtain ⟨t, ht⟩ : ∃ t, (w.core 1).sessions.lookup 1 = some t :=
    Option.isSome_iff_exists.1 (by decide)
  have hstream : ((w.core 0).sessions.lookup 1).all (·.stream = 1) := by decide
  have hstream' : ((w.core 1).sessions.lookup 1).all fun t =>
      t.stream = 1 ∧ t.has.after (w.lane 1 false) (.token, 1) = none := by decide
  have hown : (w.core 0).own .token 1 = some "t" := by decide
  rw [hs] at hstream
  rw [ht] at hstream'
  obtain ⟨hk, hnone⟩ := of_decide_eq_true hstream'
  have htold := (h (by decide) 1 false 1 s rfl hs (of_decide_eq_true hstream)
    (by decide) t.has (.inl ⟨1, t, ht, hk, rfl⟩) .token 1 "t").2 hown
  exact absurd (hnone.symm.trans htold) nofun

end World

end OxlensSfu.Mesh
