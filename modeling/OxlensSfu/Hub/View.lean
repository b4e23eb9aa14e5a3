import OxlensSfu.Lib.Machine
import OxlensSfu.Lib.Maps

/-!
# What a hub has seen on the bus

A hub hears of nodes and of rooms by their tokens (`crates/oxhubd/src/bus/view.rs`) and keeps one
place for every room. Deletes wait until nothing has come for a while, and are then judged
together. When the nodes of others went all at once, the hub takes itself for isolated and holds
their rooms; after the isolation it lets go of those whose node is not live.

A settle is three steps: the node deletes, the room deletes, and the release of what is held. Each
has one lemma that says what it does to places and holds, and `settle_spec` puts them together in
terms of the view before it.
-/

namespace OxlensSfu.Hub

def settleMs : Nat := 1000

inductive TokenEv where
  | nodePut (node inst : String)
  | nodeDel (node inst : String)
  | roomPut (room node inst : String)
  | roomDel (room node inst : String)
  deriving DecidableEq, Repr

structure NodeSeen where
  inst : String
  live : Bool
  goneAt : Option Nat
  deriving DecidableEq, Repr

structure Loc where
  node : String
  inst : String
  deriving DecidableEq, Repr

structure LastEvent where
  atMs : Nat
  kind : String
  key : String
  deriving DecidableEq, Repr

structure View where
  selfNode : String
  selfInst : String
  selfDeclared : Bool := false
  graceMs : Nat
  nodes : Map String NodeSeen := ∅
  routing : Map String Loc := ∅
  seenOther : Bool := false
  isolated : Option Nat := none
  /-- In order, each once. -/
  held : List String := []
  pending : List TokenEv := []
  lastTokenAt : Nat := 0
  lastEvent : Option LastEvent := none
  duplicates : Nat := 0
  recovered : Bool := false

structure Settled where
  droppedRooms : List String := []
  released : List String := []
  isolatedNow : Bool := false

namespace View

protected def new (selfNode selfInst : String) (graceMs : Nat) : View :=
  { selfNode, selfInst, graceMs }

/-- `BTreeSet::insert`. -/
def setInsert (x : String) : List String → List String
  | [] => [x]
  | y :: ys => if x = y then y :: ys else if x < y then x :: y :: ys else y :: setInsert x ys

def eventOf : TokenEv → String × String
  | .nodePut node inst => ("put", "node/" ++ node ++ "/" ++ inst)
  | .nodeDel node inst => ("delete", "node/" ++ node ++ "/" ++ inst)
  | .roomPut room node inst => ("put", "room/" ++ room ++ "/" ++ node ++ "/" ++ inst)
  | .roomDel room node inst => ("delete", "room/" ++ room ++ "/" ++ node ++ "/" ++ inst)

def onToken (v : View) (ev : TokenEv) (now : Nat) : View :=
  let v := { v with
    lastTokenAt := now
    lastEvent := some ⟨now, (eventOf ev).1, (eventOf ev).2⟩ }
  match ev with
  | .nodePut node inst =>
    let v := { v with pending := v.pending.filter (· ≠ TokenEv.nodeDel node inst) }
    let v :=
      if node ≠ v.selfNode then
        { v with
          seenOther := true
          isolated := none
          recovered := v.recovered || v.isolated.isSome }
      else v
    { v with nodes := v.nodes.insert node ⟨inst, true, none⟩ }
  | .roomPut room node inst =>
    { v with
      pending := v.pending.filter (· ≠ TokenEv.roomDel room node inst)
      duplicates :=
        if (v.routing.lookup room).any (·.node ≠ node) then v.duplicates + 1 else v.duplicates
      held := v.held.filter (· ≠ room)
      routing := v.routing.insert room ⟨node, inst⟩ }
  | del => { v with pending := v.pending ++ [del] }

def settleDue (v : View) (now : Nat) : Bool :=
  v.pending ≠ [] ∧ v.lastTokenAt + settleMs ≤ now

/-- What `release_held` asks of the place of a held room. -/
def ownerLive (v : View) (l : Loc) : Bool :=
  match v.nodes.lookup l.node with
  | some n => n.live
  | none => l.node = v.selfNode

/-- A held room whose owner is not live is dropped. -/
def releaseRoom (x : View × List String) (room : String) : View × List String :=
  if (x.1.routing.lookup room).any x.1.ownerLive then x
  else ({ x.1 with routing := x.1.routing.erase room }, x.2 ++ [room])

def releaseHeld (v : View) : View × List String :=
  v.held.foldl releaseRoom ({ v with held := [] }, [])

/-- The node of the delete is no longer live; told is whether it was one of the others. -/
def nodeGone (now : Nat) (x : View × Bool) (ev : TokenEv) : View × Bool :=
  match ev with
  | .nodeDel node inst =>
    match x.1.nodes.lookup node with
    | some n =>
      if n.inst = inst then
        ({ x.1 with nodes := x.1.nodes.insert node { n with live := false, goneAt := some now } },
          x.2 || node ≠ x.1.selfNode)
      else x
    | none => x
  | _ => x

/-- The node deletes of the batch, and whether the hub is isolated by them. -/
def judge (v : View) (now : Nat) : View × Bool :=
  let (w, otherNodeDel) := v.pending.foldl (nodeGone now) ({ v with pending := [] }, false)
  let othersLive := w.nodes.entries.any fun x => x.1 ≠ w.selfNode && x.2.live
  if w.seenOther && otherNodeDel && !othersLive && w.isolated.isNone then
    ({ w with isolated := some now }, true)
  else (w, false)

/-- The room of the delete is held or dropped, when the delete is of its place. -/
def roomGone (x : View × List String) (ev : TokenEv) : View × List String :=
  match ev with
  | .roomDel room node inst =>
    if x.1.routing.lookup room = some ⟨node, inst⟩ then
      if x.1.isolated.isSome ∧ node ≠ x.1.selfNode then
        ({ x.1 with held := setInsert room x.1.held }, x.2)
      else ({ x.1 with routing := x.1.routing.erase room }, x.2 ++ [room])
    else x
  | _ => x

def settle (v : View) (now : Nat) : View × Settled :=
  if v.pending = [] ∧ v.isolated = none ∧ v.held ≠ [] then
    if now < v.lastTokenAt + settleMs then (v, {})
    else
      let (v, dropped) := v.releaseHeld
      (v, { droppedRooms := dropped, released := dropped })
  else if !v.settleDue now then (v, {})
  else
    let (w, isolatedNow) := v.judge now
    let (w, dropped) := v.pending.foldl roomGone (w, [])
    if w.isolated = none then
      let (w, r) := w.releaseHeld
      (w, { droppedRooms := dropped ++ r, released := r, isolatedNow })
    else (w, { droppedRooms := dropped, isolatedNow })

def nodeLive (v : View) (node : String) : Bool :=
  if node = v.selfNode then v.selfDeclared
  else (v.nodes.lookup node).any (·.live)

/-! ## The steps of a settle -/

variable {v w : View} {room : String} {loc : Loc} {now : Nat}

@[simp] theorem mem_setInsert {x y : String} {l : List String} :
    y ∈ setInsert x l ↔ y = x ∨ y ∈ l := by
  induction l with
  | nil => simp [setInsert]
  | cons z l ih =>
    rw [setInsert]
    split
    · next h => simp [h]
    · split
      · simp
      · simp [ih, or_left_comm]

/-- What `releaseHeld` does to one place. -/
theorem releaseRooms_routing (l : List String) : ∀ x : View × List String,
    (l.foldl releaseRoom x).1.nodes = x.1.nodes ∧
    (l.foldl releaseRoom x).1.selfNode = x.1.selfNode ∧
    (l.foldl releaseRoom x).1.held = x.1.held ∧
    (l.foldl releaseRoom x).1.pending = x.1.pending ∧
    (l.foldl releaseRoom x).1.isolated = x.1.isolated ∧
    ∀ room loc, (l.foldl releaseRoom x).1.routing.lookup room = some loc ↔
      x.1.routing.lookup room = some loc ∧ (room ∈ l → x.1.ownerLive loc = true) := by
  induction l with
  | nil => exact fun x => ⟨rfl, rfl, rfl, rfl, rfl, fun room loc => by simp⟩
  | cons r l ih =>
    intro x
    rw [List.foldl_cons]
    obtain ⟨hn, hs, hh, hp, hi, hr⟩ := ih (releaseRoom x r)
    have hstep : (releaseRoom x r).1.nodes = x.1.nodes ∧
        (releaseRoom x r).1.selfNode = x.1.selfNode ∧ (releaseRoom x r).1.held = x.1.held ∧
        (releaseRoom x r).1.pending = x.1.pending ∧
        (releaseRoom x r).1.isolated = x.1.isolated ∧
        ∀ room loc, (releaseRoom x r).1.routing.lookup room = some loc ↔
          x.1.routing.lookup room = some loc ∧ (room = r → x.1.ownerLive loc = true) := by
      rw [releaseRoom]
      split
      · next hlive =>
        refine ⟨rfl, rfl, rfl, rfl, rfl, fun room loc => ⟨fun h => ⟨h, fun e => ?_⟩, And.left⟩⟩
        rw [← e, h] at hlive
        exact hlive
      · next hlive =>
        refine ⟨rfl, rfl, rfl, rfl, rfl, fun room loc => ?_⟩
        rw [Map.lookup_erase_if]
        split
        · next e =>
          refine ⟨fun h => (nomatch h), fun h => absurd ?_ hlive⟩
          rw [← e, h.1]
          exact h.2 e
        · next e => exact ⟨fun h => ⟨h, fun e' => absurd e' e⟩, And.left⟩
    have howner : (releaseRoom x r).1.ownerLive = x.1.ownerLive := by
      funext l
      rw [ownerLive, ownerLive, hstep.1, hstep.2.1]
    refine ⟨hn.trans hstep.1, hs.trans hstep.2.1, hh.trans hstep.2.2.1, hp.trans hstep.2.2.2.1,
      hi.trans hstep.2.2.2.2.1, fun room loc => ?_⟩
    rw [hr, hstep.2.2.2.2.2, howner, List.mem_cons]
    constructor
    · intro h
      exact ⟨h.1.1, fun hm => hm.elim h.1.2 h.2⟩
    · intro h
      exact ⟨⟨h.1, fun e => h.2 (.inl e)⟩, fun hm => h.2 (.inr hm)⟩

/-- The place of a room whose delete came stays while the hub is isolated, as another's. -/
def spared (v : View) (loc : Loc) : Prop := v.isolated.isSome ∧ loc.node ≠ v.selfNode

/-- The delete of a place. -/
def gone (room : String) (loc : Loc) : TokenEv := .roomDel room loc.node loc.inst

theorem roomGone_step (x : View × List String) (ev : TokenEv) :
    (roomGone x ev).1.nodes = x.1.nodes ∧
    (roomGone x ev).1.selfNode = x.1.selfNode ∧
    (roomGone x ev).1.pending = x.1.pending ∧
    (roomGone x ev).1.isolated = x.1.isolated ∧
    (∀ room loc, (roomGone x ev).1.routing.lookup room = some loc ↔
      x.1.routing.lookup room = some loc ∧ (ev = gone room loc → x.1.spared loc)) ∧
    ∀ room, room ∈ (roomGone x ev).1.held ↔ room ∈ x.1.held ∨
      ∃ loc, x.1.routing.lookup room = some loc ∧ ev = gone room loc ∧ x.1.spared loc := by
  cases ev with
  | roomDel r node inst =>
    rw [roomGone]
    split
    · next hplace =>
      -- the delete of a place is the delete of this one
      have this_one : ∀ {room loc}, x.1.routing.lookup room = some loc →
          (TokenEv.roomDel r node inst = gone room loc ↔ room = r) := by
        intro room loc hroom
        constructor
        · intro e
          rw [gone, TokenEv.roomDel.injEq] at e
          exact e.1.symm
        · intro e
          rw [e, hplace, Option.some.injEq] at hroom
          rw [gone, e, ← hroom]
      split
      · next hspared =>
        refine ⟨rfl, rfl, rfl, rfl, fun room loc => ?_, fun room => ?_⟩
        · refine ⟨fun h => ⟨h, fun e => ?_⟩, And.left⟩
          rw [gone, TokenEv.roomDel.injEq] at e
          exact ⟨hspared.1, e.2.1 ▸ hspared.2⟩
        · rw [mem_setInsert, or_comm]
          refine or_congr_right ⟨fun e => ?_, fun h => ?_⟩
          · exact ⟨⟨node, inst⟩, e ▸ hplace, e ▸ rfl, hspared⟩
          · obtain ⟨loc, hroom, e, -⟩ := h
            exact (this_one hroom).mp e
      · next hspared =>
        refine ⟨rfl, rfl, rfl, rfl, fun room loc => ?_, fun room => ?_⟩
        · rw [Map.lookup_erase_if]
          split
          · next e =>
            refine ⟨fun h => (nomatch h), fun h => absurd ?_ hspared⟩
            have hroom := e ▸ h.1
            rw [hplace, Option.some.injEq] at hroom
            have := h.2 ((this_one h.1).mpr e)
            rw [← hroom] at this
            exact this
          · next e =>
            exact ⟨fun h => ⟨h, fun hev => absurd ((this_one h).mp hev) e⟩, And.left⟩
        · refine ⟨.inl, fun h => h.elim id fun ⟨loc, hroom, e, hsp⟩ => absurd ?_ hspared⟩
          have e' := (this_one hroom).mp e
          rw [e', hplace, Option.some.injEq] at hroom
          rw [← hroom] at hsp
          exact hsp
    · next hplace =>
      refine ⟨rfl, rfl, rfl, rfl, fun room loc => ?_, fun room => ?_⟩
      · refine ⟨fun h => ⟨h, fun e => absurd ?_ hplace⟩, And.left⟩
        rw [gone, TokenEv.roomDel.injEq] at e
        rw [e.1, h, e.2.1, e.2.2]
      · refine ⟨.inl, fun h => h.elim id fun ⟨loc, hroom, e, _⟩ => absurd ?_ hplace⟩
        rw [gone, TokenEv.roomDel.injEq] at e
        rw [e.1, hroom, e.2.1, e.2.2]
  | nodePut node inst | nodeDel node inst | roomPut r node inst =>
    refine ⟨rfl, rfl, rfl, rfl, fun room loc => ?_, fun room => ?_⟩
    · exact ⟨fun h => ⟨h, (fun e => nomatch e)⟩, And.left⟩
    · refine ⟨.inl, fun h => h.elim id fun h => ?_⟩
      obtain ⟨loc, -, e, -⟩ := h
      nomatch e

/-- What the deletes of a batch do to the places. -/
theorem roomsGone (l : List TokenEv) : ∀ x : View × List String,
    (l.foldl roomGone x).1.nodes = x.1.nodes ∧
    (l.foldl roomGone x).1.selfNode = x.1.selfNode ∧
    (l.foldl roomGone x).1.pending = x.1.pending ∧
    (l.foldl roomGone x).1.isolated = x.1.isolated ∧
    (∀ room loc, (l.foldl roomGone x).1.routing.lookup room = some loc ↔
      x.1.routing.lookup room = some loc ∧ (gone room loc ∈ l → x.1.spared loc)) ∧
    ∀ room, room ∈ (l.foldl roomGone x).1.held ↔ room ∈ x.1.held ∨
      ∃ loc, x.1.routing.lookup room = some loc ∧ gone room loc ∈ l ∧ x.1.spared loc := by
  induction l with
  | nil =>
    intro x
    refine ⟨rfl, rfl, rfl, rfl, fun room loc => by simp, fun room => by simp⟩
  | cons ev l ih =>
    intro x
    rw [List.foldl_cons]
    obtain ⟨hn, hs, hp, hi, hr, hh⟩ := ih (roomGone x ev)
    obtain ⟨hn', hs', hp', hi', hr', hh'⟩ := roomGone_step x ev
    have hspared : (roomGone x ev).1.spared = x.1.spared := by
      funext loc
      rw [spared, spared, hi', hs']
    refine ⟨hn.trans hn', hs.trans hs', hp.trans hp', hi.trans hi', fun room loc => ?_,
      fun room => ?_⟩
    · rw [hr, hr', hspared, List.mem_cons]
      constructor
      · intro h
        exact ⟨h.1.1, fun hm => hm.elim (fun e => h.1.2 e.symm) h.2⟩
      · intro h
        exact ⟨⟨h.1, fun e => h.2 (.inl e.symm)⟩, fun hm => h.2 (.inr hm)⟩
    · rw [hh, hh', hspared, or_assoc]
      refine or_congr_right ⟨fun h => ?_, fun h => ?_⟩
      · rcases h with ⟨loc, hroom, e, hsp⟩ | ⟨loc, hroom, hm, hsp⟩
        · exact ⟨loc, hroom, List.mem_cons.mpr (.inl e.symm), hsp⟩
        · exact ⟨loc, ((hr' room loc).mp hroom).1, List.mem_cons_of_mem _ hm, hsp⟩
      · obtain ⟨loc, hroom, hm, hsp⟩ := h
        rcases List.mem_cons.mp hm with e | hm
        · exact .inl ⟨loc, hroom, e.symm, hsp⟩
        · exact .inr ⟨loc, (hr' room loc).mpr ⟨hroom, fun _ => hsp⟩, hm, hsp⟩

/-- A node as the deletes of the list leave it. -/
def nodeAfter (l : List TokenEv) (now : Nat) (node : String) (n : NodeSeen) : NodeSeen :=
  if .nodeDel node n.inst ∈ l then { n with live := false, goneAt := some now } else n

theorem nodeGone_step (now : Nat) (x : View × Bool) (ev : TokenEv) :
    (nodeGone now x ev).1 = { x.1 with nodes := (nodeGone now x ev).1.nodes } ∧
    (∀ node, (nodeGone now x ev).1.nodes.lookup node =
      (x.1.nodes.lookup node).map (nodeAfter [ev] now node)) ∧
    ((nodeGone now x ev).2 = true ↔ x.2 = true ∨ ∃ node n, x.1.nodes.lookup node = some n ∧
      ev = .nodeDel node n.inst ∧ node ≠ x.1.selfNode) := by
  cases ev with
  | nodeDel d inst =>
    rw [nodeGone]
    split
    · next n hn =>
      split
      · next hinst =>
        refine ⟨rfl, fun node => ?_, ?_⟩
        · rw [Map.lookup_insert_if]
          split
          · next e =>
            rw [e, hn]
            simp [nodeAfter, hinst]
          · next e =>
            cases x.1.nodes.lookup node with
            | none => rfl
            | some m => simp [nodeAfter, e]
        · rw [Bool.or_eq_true, decide_eq_true_eq]
          refine or_congr_right ⟨fun h => ⟨d, n, hn, by rw [hinst], h⟩, fun h => ?_⟩
          obtain ⟨node, m, -, e, hother⟩ := h
          rw [TokenEv.nodeDel.injEq] at e
          exact e.1 ▸ hother
      · next hinst =>
        refine ⟨rfl, fun node => ?_, ?_⟩
        · cases hm : x.1.nodes.lookup node with
          | none => rfl
          | some m =>
            have : ¬ (node = d ∧ m.inst = inst) := by
              intro h
              rw [h.1, hn, Option.some.injEq] at hm
              exact hinst (hm ▸ h.2)
            simp [nodeAfter, this]
        · refine ⟨.inl, fun h => h.elim id fun h => absurd ?_ hinst⟩
          obtain ⟨node, m, hm, e, -⟩ := h
          rw [TokenEv.nodeDel.injEq] at e
          rw [← e.1, hn, Option.some.injEq] at hm
          rw [hm, e.2]
    · next hn =>
      refine ⟨rfl, fun node => ?_, ?_⟩
      · cases hm : x.1.nodes.lookup node with
        | none => rfl
        | some m =>
          have : node ≠ d := by
            intro e
            rw [e, hn] at hm
            nomatch hm
          simp [nodeAfter, this]
      · refine ⟨.inl, fun h => h.elim id fun h => ?_⟩
        obtain ⟨node, m, hm, e, -⟩ := h
        rw [TokenEv.nodeDel.injEq] at e
        rw [← e.1, hn] at hm
        nomatch hm
  | nodePut d inst | roomPut r d inst | roomDel r d inst =>
    refine ⟨rfl, fun node => ?_, ?_⟩
    · show x.1.nodes.lookup node = _
      cases x.1.nodes.lookup node with
      | none => rfl
      | some m => simp [nodeAfter]
    · refine ⟨.inl, fun h => h.elim id fun h => ?_⟩
      obtain ⟨node, m, -, e, -⟩ := h
      nomatch e

/-- What the node deletes of a batch do. -/
theorem nodesGone (now : Nat) (l : List TokenEv) : ∀ x : View × Bool,
    (l.foldl (nodeGone now) x).1 = { x.1 with nodes := (l.foldl (nodeGone now) x).1.nodes } ∧
    (∀ node, (l.foldl (nodeGone now) x).1.nodes.lookup node =
      (x.1.nodes.lookup node).map (nodeAfter l now node)) ∧
    ((l.foldl (nodeGone now) x).2 = true ↔ x.2 = true ∨
      ∃ node n, x.1.nodes.lookup node = some n ∧ .nodeDel node n.inst ∈ l ∧
        node ≠ x.1.selfNode) := by
  induction l with
  | nil =>
    intro x
    have hid : ∀ node, nodeAfter [] now node = id := fun node => by
      funext n
      simp [nodeAfter]
    exact ⟨rfl, fun node => by rw [hid, Option.map_id]; rfl, by simp⟩
  | cons ev l ih =>
    intro x
    rw [List.foldl_cons]
    obtain ⟨hv, hn, hflag⟩ := ih (nodeGone now x ev)
    obtain ⟨hv', hn', hflag'⟩ := nodeGone_step now x ev
    have hinst : ∀ node n, (nodeAfter [ev] now node n).inst = n.inst := fun node n => by
      rw [nodeAfter]
      split <;> rfl
    refine ⟨hv.trans ?_, fun node => ?_, ?_⟩
    · rw [hv']
    · rw [hn, hn', Option.map_map]
      congr 1
      funext n
      rw [Function.comp_apply, nodeAfter, hinst, nodeAfter, nodeAfter]
      by_cases h₁ : TokenEv.nodeDel node n.inst ∈ l <;>
        by_cases h₂ : TokenEv.nodeDel node n.inst = ev <;> simp [h₁, h₂]
    · have hself : (nodeGone now x ev).1.selfNode = x.1.selfNode := by rw [hv']
      rw [hflag, hflag', hself, or_assoc]
      refine or_congr_right ⟨fun h => ?_, fun h => ?_⟩
      · rcases h with ⟨node, n, hm, e, hne⟩ | ⟨node, n, hm, hl, hne⟩
        · exact ⟨node, n, hm, List.mem_cons.mpr (.inl e.symm), hne⟩
        · rw [hn', Option.map_eq_some_iff] at hm
          obtain ⟨m, hm, rfl⟩ := hm
          rw [hinst] at hl
          exact ⟨node, m, hm, List.mem_cons_of_mem _ hl, hne⟩
      · obtain ⟨node, n, hm, hl, hne⟩ := h
        rcases List.mem_cons.mp hl with e | hl
        · exact .inl ⟨node, n, hm, e.symm, hne⟩
        · refine .inr ⟨node, nodeAfter [ev] now node n, ?_, by rwa [hinst], hne⟩
          rw [hn', hm]
          rfl

/-- The hub is isolated, or the deletes that wait make it so: those of others are among them, and
none of the others is left. -/
def isolates (v : View) : Prop :=
  v.isolated.isSome ∨ v.seenOther ∧
    (∃ node n, v.nodes.lookup node = some n ∧ .nodeDel node n.inst ∈ v.pending ∧
      node ≠ v.selfNode) ∧
    ∀ node n, v.nodes.lookup node = some n → node ≠ v.selfNode → n.live = true →
      .nodeDel node n.inst ∈ v.pending

theorem judge_spec (v : View) (now : Nat) :
    (v.judge now).1.routing = v.routing ∧ (v.judge now).1.held = v.held ∧
    (v.judge now).1.pending = [] ∧ (v.judge now).1.selfNode = v.selfNode ∧
    ((v.judge now).1.isolated.isSome ↔ v.isolates) := by
  obtain ⟨hv, hn, hflag⟩ := nodesGone now v.pending ({ v with pending := [] }, false)
  rw [judge]
  generalize v.pending.foldl (nodeGone now) ({ v with pending := [] }, false) = x at hv hn hflag
  obtain ⟨w, other⟩ := x
  dsimp only at hv hn hflag ⊢
  -- another node is left live when the batch does not have its delete
  have hothers : (w.nodes.entries.any fun x => x.1 ≠ w.selfNode && x.2.live) = false ↔
      ∀ node n, v.nodes.lookup node = some n → node ≠ v.selfNode → n.live = true →
        .nodeDel node n.inst ∈ v.pending := by
    have hself : w.selfNode = v.selfNode := by rw [hv]
    rw [List.any_eq_false, hself]
    constructor
    · intro h node n hnode hne hlive
      by_contra hm
      refine h ⟨node, nodeAfter v.pending now node n⟩ ?_ (by simp [nodeAfter, hm, hne, hlive])
      exact (Map.mem_entries _).mpr (by rw [hn, hnode]; rfl)
    · intro h x hx hlive
      obtain ⟨node, m⟩ := x
      have hm := (Map.mem_entries _).mp hx
      rw [hn, Option.map_eq_some_iff] at hm
      obtain ⟨n, hnode, rfl⟩ := hm
      simp only [ne_eq, decide_not, Bool.and_eq_true, Bool.not_eq_true',
        decide_eq_false_iff_not] at hlive
      rw [nodeAfter] at hlive
      split at hlive
      · exact Bool.false_ne_true hlive.2
      · next hnot => exact hnot (h node n hnode hlive.1 hlive.2)
  have hiso : w.isolated = v.isolated := by rw [hv]
  have hseen : w.seenOther = v.seenOther := by rw [hv]
  have hflag' : other = true ↔ ∃ node n, v.nodes.lookup node = some n ∧
      .nodeDel node n.inst ∈ v.pending ∧ node ≠ v.selfNode := by
    rw [hflag]
    simp
  rw [isolates, ← hothers, ← hflag', hseen.symm]
  split
  · next h =>
    rw [Bool.and_eq_true, Bool.and_eq_true, Bool.and_eq_true, Bool.not_eq_true'] at h
    refine ⟨by rw [hv], by rw [hv], by rw [hv], by rw [hv], ?_⟩
    exact ⟨fun _ => .inr ⟨h.1.1.1, h.1.1.2, h.1.2⟩, fun _ => rfl⟩
  · next h =>
    refine ⟨by rw [hv], by rw [hv], by rw [hv], by rw [hv], ?_⟩
    dsimp only
    rw [hiso]
    refine ⟨.inl, fun hor => hor.elim id fun hall => ?_⟩
    by_contra hnone
    refine h ?_
    rw [hall.1, hall.2.1, hall.2.2, hiso]
    simpa using hnone

/-- A settle lets go of what is held. -/
def releases (v : View) (now : Nat) : Prop :=
  (v.pending = [] ∧ v.isolated = none ∧ v.held ≠ [] ∧ v.lastTokenAt + settleMs ≤ now) ∨
    v.settleDue now = true ∧ ¬ v.isolates

/-- A settle takes up the delete of a place, and does not hold it. -/
def drops (v : View) (now : Nat) (room : String) (loc : Loc) : Prop :=
  v.settleDue now = true ∧ gone room loc ∈ v.pending ∧ ¬ (v.isolates ∧ loc.node ≠ v.selfNode)

/-- A settle takes up the delete of a place, and holds it. -/
def holds (v : View) (now : Nat) (room : String) (loc : Loc) : Prop :=
  v.settleDue now = true ∧ gone room loc ∈ v.pending ∧ v.isolates ∧ loc.node ≠ v.selfNode

theorem releaseHeld_spec (v : View) :
    v.releaseHeld.1.held = [] ∧ v.releaseHeld.1.pending = v.pending ∧
    v.releaseHeld.1.ownerLive = v.ownerLive ∧
    ∀ room loc, v.releaseHeld.1.routing.lookup room = some loc ↔
      v.routing.lookup room = some loc ∧ (room ∈ v.held → v.ownerLive loc = true) := by
  obtain ⟨hn, hs, hh, hp, -, hr⟩ := releaseRooms_routing v.held ({ v with held := [] }, [])
  refine ⟨hh, hp, ?_, hr⟩
  funext loc
  rw [ownerLive, ownerLive, releaseHeld, hn, hs]

/-- What a settle does. -/
theorem settle_spec (v : View) (now : Nat) :
    (v.settle now).1.pending = (if v.settleDue now = true then [] else v.pending) ∧
    (∀ room loc, (v.settle now).1.routing.lookup room = some loc ↔
      v.routing.lookup room = some loc ∧ ¬ v.drops now room loc ∧
        (v.releases now → room ∈ v.held → (v.settle now).1.ownerLive loc = true)) ∧
    ∀ room, room ∈ (v.settle now).1.held ↔ ¬ v.releases now ∧
      (room ∈ v.held ∨ ∃ loc, v.routing.lookup room = some loc ∧ v.holds now room loc) := by
  rw [settle]
  split
  · next hidle =>
    have hdue : ¬ v.settleDue now = true := by simp [settleDue, hidle.1]
    have hnone : ∀ room loc, ¬ v.drops now room loc ∧ ¬ v.holds now room loc := fun room loc =>
      ⟨fun h => hdue h.1, fun h => hdue h.1⟩
    rw [if_neg hdue]
    split
    · next hearly =>
      have hrel : ¬ v.releases now := fun h => h.elim (fun h => by omega) fun h => hdue h.1
      simp [hrel, hnone]
    · next hlate =>
      have hrel : v.releases now := .inl ⟨hidle.1, hidle.2.1, hidle.2.2, not_lt.mp hlate⟩
      obtain ⟨hh, hp, ho, hr⟩ := v.releaseHeld_spec
      dsimp only
      refine ⟨hp, fun room loc => ?_, fun room => by simp [hh, hrel]⟩
      rw [hr, ho]
      simp [hrel, hnone]
  · next hidle =>
    split
    · next hdue =>
      rw [Bool.not_eq_true'] at hdue
      have hrel : ¬ v.releases now := fun h => h.elim
        (fun h => hidle ⟨h.1, h.2.1, h.2.2.1⟩) fun h => by simp [hdue] at h
      simp [hrel, drops, holds, hdue]
    · next hdue =>
      rw [Bool.not_eq_true', Bool.not_eq_false] at hdue
      have hpend : v.pending ≠ [] := by
        intro h
        simp [settleDue, h] at hdue
      obtain ⟨hjr, hjh, hjp, hjs, hji⟩ := v.judge_spec now
      obtain ⟨-, hs, hp, hi, hr, hh⟩ := roomsGone v.pending ((v.judge now).1, [])
      have hspared : ∀ loc, (v.judge now).1.spared loc ↔ v.isolates ∧ loc.node ≠ v.selfNode :=
        fun loc => by rw [spared, hji, hjs]
      dsimp only at hs hp hi hr hh ⊢
      have hrel : v.releases now ↔ ¬ v.isolates :=
        ⟨fun h => h.elim (fun h => absurd h.1 hpend) And.right, fun h => .inr ⟨hdue, h⟩⟩
      have hiso : (v.pending.foldl roomGone ((v.judge now).1, [])).1.isolated = none ↔
          ¬ v.isolates := by
        rw [hi, ← hji]
        cases (v.judge now).1.isolated <;> simp
      have hdrop : ∀ room loc, (gone room loc ∈ v.pending → (v.judge now).1.spared loc) ↔
          ¬ v.drops now room loc := fun room loc => by
        rw [hspared, drops]
        simp only [hdue, true_and]
        exact ⟨fun h hn => hn.2 (h hn.1), fun h hg => by_contra fun hn => h ⟨hg, hn⟩⟩
      rw [if_pos hdue]
      split
      · next hnot =>
        have hrel' := hrel.mpr (hiso.mp hnot)
        obtain ⟨hh', hp', ho', hr'⟩ :=
          (v.pending.foldl roomGone ((v.judge now).1, [])).1.releaseHeld_spec
        dsimp only
        refine ⟨hp'.trans (hp.trans hjp), fun room loc => ?_, fun room => by simp [hh', hrel']⟩
        have hheld : room ∈ (v.pending.foldl roomGone ((v.judge now).1, [])).1.held ↔
            room ∈ v.held := by
          rw [hh, hjh]
          exact ⟨fun h => h.elim id fun ⟨loc, _, _, hsp⟩ =>
            absurd ((hspared loc).mp hsp).1 (hiso.mp hnot), .inl⟩
        rw [hr', hr, hjr, hdrop, hheld, ho']
        simp only [hrel', true_imp_iff, and_assoc]
      · next hnot =>
        have hisolates : v.isolates := by_contra fun h => hnot (hiso.mpr h)
        have hrel' : ¬ v.releases now := fun h => hrel.mp h hisolates
        dsimp only
        refine ⟨hp.trans hjp, fun room loc => ?_, fun room => ?_⟩
        · rw [hr, hjr, hdrop]
          simp [hrel']
        · rw [hh, hjh, hjr]
          simp only [hrel', not_false_eq_true, true_and, holds, hspared, hdue]

/-! ## What a token does -/

theorem onToken_pending (ev : TokenEv) :
    gone room loc ∈ (v.onToken ev now).pending ↔
      ev = gone room loc ∨ gone room loc ∈ v.pending ∧ ev ≠ .roomPut room loc.node loc.inst := by
  cases ev with
  | nodePut node inst =>
    simp only [onToken]
    split <;> simp [gone]
  | roomPut r node inst =>
    simp only [onToken, List.mem_filter, gone, decide_eq_true_eq]
    constructor
    · intro h
      refine .inr ⟨h.1, fun e => h.2 ?_⟩
      rw [TokenEv.roomPut.injEq] at e
      rw [e.1, e.2.1, e.2.2]
    · intro h
      rcases h with h | ⟨h, hne⟩
      · nomatch h
      · refine ⟨h, fun e => hne ?_⟩
        rw [TokenEv.roomDel.injEq] at e
        rw [e.1, e.2.1, e.2.2]
  | nodeDel node inst => simp [onToken, gone]
  | roomDel r node inst =>
    simp only [onToken, List.mem_append, List.mem_singleton, gone, ne_eq, reduceCtorEq,
      not_false_eq_true, and_true, or_comm, eq_comm]

theorem onToken_routing (ev : TokenEv) :
    (v.onToken ev now).routing.lookup room =
      match ev with
      | .roomPut r node inst => if room = r then some ⟨node, inst⟩ else v.routing.lookup room
      | _ => v.routing.lookup room := by
  cases ev with
  | nodePut node inst =>
    simp only [onToken]
    split <;> rfl
  | roomPut r node inst => exact Map.lookup_insert_if _ _ _ _
  | nodeDel node inst | roomDel r node inst => rfl

theorem onToken_held (ev : TokenEv) :
    room ∈ (v.onToken ev now).held ↔ room ∈ v.held ∧ ∀ node inst, ev ≠ .roomPut room node inst := by
  cases ev with
  | nodePut node inst =>
    simp only [onToken]
    split <;> simp
  | roomPut r node inst =>
    simp only [onToken, List.mem_filter, decide_eq_true_eq, ne_eq]
    refine and_congr_right fun _ => ⟨fun h d i e => h ?_, fun h e => ?_⟩
    · rw [TokenEv.roomPut.injEq] at e
      exact e.1.symm
    · exact h node inst (by rw [e])
  | nodeDel node inst | roomDel r node inst => simp [onToken]

end View

end OxlensSfu.Hub
