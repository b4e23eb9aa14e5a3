import OxlensSfu.Mesh.Listing
import OxlensSfu.Mesh.Sync

/-!
# Puts on their way

A put goes from node to node: each delivers it to the subscriptions of its own process and passes
it on (`route_put` of `crates/oxmesh/src/core.rs`). Here are what one node makes of one put, and
what becomes of the puts of a network that does nothing else: they are in the air until the other
end of their session takes them, in any order.
-/

namespace OxlensSfu.Mesh

/-- No lane is full. -/
def Told.Roomy (o : Told) : Prop := ∀ u n, o.full u n = false

/-- The owner is the own process. -/
def Owner.isOwn : Owner → Bool
  | .loc _ => true
  | .sess _ => false

/-- The puts that are queued, each with its session. -/
def carried (l : List Fx) : List (Nat × String × Payload) :=
  l.filterMap fun
    | .push u (.put key payload) true => some (u, key, payload)
    | _ => none

@[simp] theorem carried_append (l l' : List Fx) : carried (l ++ l') = carried l ++ carried l' :=
  List.filterMap_append ..

namespace Core

/-! ## One node -/

/-- The subscription of the own process matches the key. -/
def subscribed (c : Core) (id : Nat) (key : String) : Bool :=
  (c.lSubs.lookup id).any (covers · key)

/-- A router passes the put on to the session. -/
def Onward (c : Core) (src : Option Nat) (key : String) (u : Nat) : Prop :=
  some u ≠ src ∧ (∃ id x, c.subs.exprs.lookup (.sess u, id) = some x ∧ covers x key) ∧
    ∃ s, c.sessions.lookup u = some s ∧ ¬ (c.fromRouter src = true ∧ s.role = .router)

variable {c : Core} {o : Told} {src : Option Nat} {key : String} {payload : Payload}

theorem deliveries_samples (ks : List (Owner × Nat)) (sent : List Nat) (id : Nat) (key' : String)
    (payload' : Payload) :
    (c.deliveries o src key payload ks sent).count (.sample id key' payload') =
      if (key' = key ∧ payload' = payload) ∧ id ∈ c.lSubs then
        ks.countP fun k => k.1.isOwn && k.2 = id else 0 := by
  induction ks generalizing sent with
  | nil => simp [deliveries]
  | cons k ks ih =>
    obtain ⟨w, i⟩ := k
    cases w with
    | loc j =>
      rw [deliveries, List.count_append, ih, List.countP_cons]
      by_cases hi : i = id
      · subst hi
        by_cases hm : i ∈ c.lSubs
        · by_cases hk : key' = key ∧ payload' = payload
          · obtain ⟨rfl, rfl⟩ := hk
            simp [hm, Owner.isOwn, Nat.add_comm]
          · have hne : Fx.sample i key payload ≠ .sample i key' payload' := by
              intro he
              injection he with _ he he'
              exact hk ⟨he.symm, he'.symm⟩
            simp [hm, hk, hne]
        · simp [hm]
      · have hcount : (if i ∈ c.lSubs then [Fx.sample i key payload] else []).count
            (.sample id key' payload') = 0 := by
          refine List.count_eq_zero.2 fun hmem => ?_
          split_ifs at hmem
          · injection List.mem_singleton.1 hmem with he
            exact hi he.symm
          · exact absurd hmem List.not_mem_nil
        simp [hcount, hi]
    | sess u =>
      have hplain : ∀ (l : List Sess), (l.map fun _ => Fx.push u (.put key payload)
          (c.takes o u (.put key payload))).count (.sample id key' payload') = 0 := by
        intro l
        refine List.count_eq_zero.2 fun hmem => ?_
        obtain ⟨_, -, he⟩ := List.mem_map.1 hmem
        exact absurd he (by simp)
      have htail : ks.countP (fun k => k.1.isOwn && k.2 = id) =
          ((Owner.sess u, i) :: ks).countP fun k => k.1.isOwn && k.2 = id := by
        simp [Owner.isOwn]
      rw [deliveries, ← htail]
      by_cases hskip : some u = src ∨ u ∈ sent
      · rw [if_pos hskip, ih]
      · rw [if_neg hskip, List.count_append, hplain, ih, Nat.zero_add]

theorem carried_push (x : Option Sess) (p : Sess → Bool) (u : Nat) :
    carried ((x.toList.filter p).map fun _ => .push u (.put key payload) true) =
      if x.any p then [(u, key, payload)] else [] := by
  cases x with
  | none => rfl
  | some s => cases hp : p s <;> simp [hp, carried]

/-- A put is passed on to a session at most once. -/
theorem deliveries_carried (ho : o.Roomy) (c : Core) (src : Option Nat) (key : String)
    (payload : Payload) (ks : List (Owner × Nat)) (sent : List Nat) :
    (carried (c.deliveries o src key payload ks sent)).Nodup ∧
      ∀ u key' payload', (u, key', payload') ∈ carried (c.deliveries o src key payload ks sent) ↔
        (key' = key ∧ payload' = payload) ∧ u ∉ sent ∧ some u ≠ src ∧
          (∃ id, (.sess u, id) ∈ ks) ∧
            (c.sessions.lookup u).any fun s => !(c.fromRouter src && s.role = .router) := by
  induction ks generalizing sent with
  | nil => simp [deliveries, carried]
  | cons k ks ih =>
    obtain ⟨w, i⟩ := k
    cases w with
    | loc j =>
      have hsample : carried (if i ∈ c.lSubs then [Fx.sample i key payload] else []) = [] := by
        split_ifs <;> rfl
      rw [deliveries, carried_append, hsample, List.nil_append]
      simpa using ih sent
    | sess v =>
      rw [deliveries]
      by_cases hskip : some v = src ∨ v ∈ sent
      · rw [if_pos hskip]
        obtain ⟨hnodup, hmem⟩ := ih sent
        refine ⟨hnodup, fun u key' payload' => ?_⟩
        rw [hmem]
        refine and_congr_right fun _ => and_congr_right fun hu => and_congr_right fun hsrc =>
          and_congr_left fun _ => ?_
        have hne : u ≠ v := by
          rintro rfl
          exact hskip.elim hsrc hu
        simp [hne]
      · obtain ⟨hv, hvs⟩ := not_or.1 hskip
        obtain ⟨hnodup, hmem⟩ := ih (v :: sent)
        have htakes : c.takes o v (.put key payload) = true := by simp [takes, ho v _]
        rw [if_neg hskip, htakes, carried_append, carried_push]
        refine ⟨List.nodup_append.2 ⟨?_, hnodup, ?_⟩, fun u key' payload' => ?_⟩
        · split_ifs
          · exact List.nodup_singleton _
          · exact List.nodup_nil
        · rintro x hx y hy rfl
          split_ifs at hx
          · obtain rfl := List.mem_singleton.1 hx
            exact ((hmem _ _ _).1 hy).2.1 List.mem_cons_self
          · exact absurd hx List.not_mem_nil
        · rw [List.mem_append, hmem]
          by_cases hu : u = v
          · subst hu
            generalize (c.sessions.lookup u).any _ = q
            cases q <;> simp [hv, hvs]
          · split_ifs <;> simp [hu]

/-- What a put at a node makes: samples for its own subscriptions, and puts that go on. -/
structure Puts (c : Core) (src : Option Nat) (key : String) (payload : Payload) (l : List Fx) :
    Prop where
  samples : ∀ id key' payload', l.count (.sample id key' payload') =
    if (key' = key ∧ payload' = payload) ∧ c.subscribed id key then 1 else 0
  nodup : (carried l).Nodup
  carried : ∀ u key' payload', (u, key', payload') ∈ carried l ↔
    (key' = key ∧ payload' = payload) ∧ if c.router then c.Onward src key u else
      src = none ∧ u ∈ c.sessions

/-- A subscription of the own process is listed once. -/
theorem Listed.own_samples (h : c.Listed) (key : String) (id : Nat) :
    (c.subs.matching key).countP (fun k => k.1.isOwn && k.2 = id) =
      if c.subscribed id key then 1 else 0 := by
  have hone : ∀ k ∈ c.subs.matching key, (k.1.isOwn && decide (k.2 = id)) = true ↔
      (k == (.loc id, id)) = true := by
    rintro ⟨w, i⟩ hk
    obtain ⟨x, hx, -⟩ := (SubIndex.mem_matching h.holds).1 hk
    cases w with
    | sess u => simp [Owner.isOwn]
    | loc j =>
      rw [h.own] at hx
      split_ifs at hx with hj
      simp [Owner.isOwn, hj]
  have hmem : (.loc id, id) ∈ c.subs.matching key ↔ c.subscribed id key = true := by
    rw [SubIndex.mem_matching h.holds, subscribed, Option.any_eq_true]
    simp only [h.own, if_true]
  have hcount := List.countP_congr hone
  rw [hcount, ← List.count_eq_countP]
  split_ifs with hs
  · exact List.count_eq_one_of_mem (SubIndex.matching_nodup h.holds h.distinct key) (hmem.2 hs)
  · exact List.count_eq_zero.2 fun hin => hs (hmem.1 hin)

theorem mem_upstream (h : c.Client) (hone : c.AtMostOne) (o : Told) (u : Nat) :
    c.upstream o = some u ↔ u ∈ c.sessions :=
  ⟨upstream_mem, fun hu => upstream_single h hone hu o⟩

theorem Listed.deliveries_own (h : c.Listed) (id : Nat) (key' : String) (payload' : Payload) :
    (c.deliveries o src key payload (c.subs.matching key) []).count (.sample id key' payload') =
      if (key' = key ∧ payload' = payload) ∧ c.subscribed id key then 1 else 0 := by
  have hmem : c.subscribed id key = true → id ∈ c.lSubs := by
    intro hs
    obtain ⟨x, hx, -⟩ := (Option.any_eq_true _ _).1 hs
    exact Map.mem_iff_lookup.2 ⟨x, hx⟩
  rw [deliveries_samples, h.own_samples]
  by_cases hs : c.subscribed id key = true
  · simp [hs, hmem hs]
  · simp [hs]

theorem Listed.onward (h : c.Listed) (src : Option Nat) (key : String) (u : Nat) :
    (u ∉ ([] : List Nat) ∧ some u ≠ src ∧ (∃ id, (.sess u, id) ∈ c.subs.matching key) ∧
      (c.sessions.lookup u).any fun s => !(c.fromRouter src && s.role = .router)) ↔
        c.Onward src key u := by
  have hany : ((c.sessions.lookup u).any fun s => !(c.fromRouter src && s.role = .router)) = true ↔
      ∃ s, c.sessions.lookup u = some s ∧ ¬ (c.fromRouter src = true ∧ s.role = .router) := by
    simp [Option.any_eq_true, imp_iff_not_or]
  rw [Onward, hany]
  simp only [SubIndex.mem_matching h.holds, List.not_mem_nil, not_false_eq_true, true_and]

theorem routePut_eq (ho : o.Roomy) (c : Core) (src : Option Nat) (key : String)
    (payload : Payload) : c.routePut o src key payload = { c with
      fx := c.fx ++ (c.deliveries o src key payload (c.subs.matching key) [] ++
        if src = none then (c.upstream o).toList.map (.push · (.put key payload) true) else []) } := by
  have hsame : (c.emits (c.deliveries o src key payload (c.subs.matching key) [])).upstream o =
      c.upstream o := rfl
  rw [Core.routePut]
  simp only [hsame]
  cases c.upstream o with
  | none => simp [emits]
  | some u =>
    have htakes : ∀ c' : Core, c'.takes o u (.put key payload) = true := fun c' => by
      simp [takes, ho u _]
    split_ifs with hsrc
    · simp [htakes, hsrc, emit, emits]
    · simp [emits]

/-- What a node makes of a put. -/
theorem Listed.routePut (h : c.Listed) (ho : o.Roomy)
    (hone : c.router = false → c.Client ∧ c.AtMostOne) (src : Option Nat) (key : String)
    (payload : Payload) :
    ∃ l, c.routePut o src key payload = { c with fx := c.fx ++ l } ∧ c.Puts src key payload l := by
  obtain ⟨hnodup, hmem⟩ := deliveries_carried ho c src key payload (c.subs.matching key) []
  simp only [h.onward] at hmem
  refine ⟨_, routePut_eq ho c src key payload, ?_⟩
  suffices hgoes : _ ∧ _ from ⟨fun id key' payload' => ?_, hgoes.1, hgoes.2⟩
  · rw [List.count_append, h.deliveries_own, List.count_eq_zero.2, Nat.add_zero]
    intro hin
    split_ifs at hin
    · obtain ⟨u, -, he⟩ := List.mem_map.1 hin
      exact absurd he nofun
    · exact absurd hin List.not_mem_nil
  · rw [carried_append]
    by_cases hr : c.router = true
    · have hup : c.upstream o = none := if_pos hr
      have hgo : carried (if src = none then (c.upstream o).toList.map
          (.push · (.put key payload) true) else []) = [] := by
        rw [hup]
        exact congrArg carried (ite_self _)
      rw [hgo, List.append_nil]
      exact ⟨hnodup, fun u key' payload' => by rw [hmem, if_pos hr]⟩
    · obtain ⟨hclient, hone⟩ := hone (by simpa using hr)
      have hnone : carried (c.deliveries o src key payload (c.subs.matching key) []) = [] := by
        refine List.eq_nil_iff_forall_not_mem.2 fun x hx => ?_
        obtain ⟨-, -, ⟨id, y, hy, -⟩, -⟩ := (hmem _ _ _).1 hx
        exact absurd ((h.foreign hclient.router _ id).symm.trans hy) nofun
      have hgo : carried (if src = none then (c.upstream o).toList.map
          (.push · (.put key payload) true) else []) =
          if src = none then (c.upstream o).toList.map (·, key, payload) else [] := by
        cases c.upstream o <;> split_ifs <;> rfl
      rw [hnone, hgo, List.nil_append]
      refine ⟨?_, fun u key' payload' => ?_⟩
      · cases c.upstream o <;> split_ifs <;> simp
      · rw [if_neg hr, ← mem_upstream hclient hone o]
        split_ifs with hsrc
        · simp [hsrc, eq_comm, and_comm]
        · simp [hsrc]

end Core

/-! ## The network -/

/-- A put on its way to the end of a connection. -/
structure Flight where
  k : Nat
  b : Bool
  key : String
  payload : Payload
  /-- The sessions between routers that it crosses, with those before it. -/
  hops : Nat
  deriving DecidableEq, Repr

structure Flow (ι : Type) where
  world : World ι
  air : List Flight := []

inductive Hop (ι : Type) where
  | put (i : ι) (o : Told) (key : String) (payload : Payload)
  | land (n : Nat) (o : Told)

/-- The hop is a put of the payload under the key. -/
def Hop.puts {ι : Type} (key : String) (payload : Payload) : Hop ι → Bool
  | .put _ _ key' payload' => key = key' && payload = payload'
  | .land _ _ => false

def Hop.lands {ι : Type} : Hop ι → Prop
  | .put _ _ _ _ => False
  | .land _ _ => True

variable {ι : Type} [DecidableEq ι]

/-- The end of the connection that is not at the node. -/
def Wires.far (W : Wires ι) (i : ι) (k : Nat) : Bool := decide (W.node k false = i)

namespace World

def between (W : Wires ι) (w : World ι) (k : Nat) : Bool :=
  (w.core (W.node k true)).router && (w.core (W.node k false)).router

/-- The puts that a node passes on take off. -/
def flights (W : Wires ι) (w : World ι) (i : ι) (hops : Nat) (l : List Fx) : List Flight :=
  (carried l).filterMap fun x => ((w.core i).sessions.lookup x.1).map fun s =>
    { k := s.stream
      b := W.far i s.stream
      key := x.2.1
      payload := x.2.2
      hops := hops + if w.between W s.stream then 1 else 0 }

end World

namespace Flow

def handle (W : Wires ι) (s : Flow ι) (i : ι) (o : Told) (e : Ev) (hops : Nat) : Flow ι :=
  let w := s.world.handle W i o e
  { world := w
    air := s.air ++ w.flights W i hops ((w.core i).fx.drop (s.world.core i).fx.length) }

/-- The put arrives at its end, where a session takes it. -/
def land (W : Wires ι) (s : Flow ι) (x : Flight) (o : Told) : Flow ι :=
  match (s.world.core (W.node x.k x.b)).on x.k with
  | some u => s.handle W (W.node x.k x.b) o (.msg u (.put x.key x.payload)) x.hops
  | none => s

end Flow

def puts (W : Wires ι) : Machine (Flow ι) (Hop ι) where
  ok s
    | .put i o _ _ => (s.world.core i).running = true ∧ o.Roomy
    | .land n o => n < s.air.length ∧ o.Roomy
  next s
    | .put i o key payload => s.handle W i o (.cmd (.put key payload)) 0
    | .land n o =>
      match s.air[n]? with
      | some x => { s with air := s.air.eraseIdx n }.land W x o
      | none => s

end OxlensSfu.Mesh
