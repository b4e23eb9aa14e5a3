import Mathlib.Tactic
import OxlensSfu.Lib.Machine

/-!
# Simulcast: which layer a subscriber gets

A row of a subscriber gets one of the two layers of a video (`crates/oxsfud/src/sim/mod.rs`). The
layer it should get is its target, the smaller of what the subscriber asked for and what the link
allows. `pass` decides on each packet of either layer, and the target becomes the layer with a
keyframe of it. A target that does not come is given up; a high layer that falls silent is left for
the low one. When a row gets another source (`ops/media.rs`, `apply_changes`) its layer is none.

The calls that touch a row are taken whole, in any order and at any times.

**Theorem (`layers_switch_on_keyframes`).** What a row is sent is a sequence of runs of one layer
each, and every run begins with a keyframe. A new source begins a run of its own.

`pass` sends only packets of the row's layer, as it is after the call, and changes the layer only
with a keyframe it sends (`pass_sound`). So the last packet sent tells the layer, unless there is
none (`Watch.Inv`).
-/

namespace OxlensSfu.Sim

def layerPause : UInt8 := 255
def pendingMs : Nat := 10000
def pendingPliRetryMs : Nat := 250
def inbandMs : Nat := 1000

/-- What of a `DownRow` decides on layers. -/
structure Row where
  layer : UInt8 := layerPause
  target : UInt8 := 1
  cap : UInt8 := 1
  autoCap : UInt8 := 1
  pendingSince : Nat := 0
  pendingPliAt : Nat := 0
  paused : Bool := false
  priority : UInt8 := 0
  deriving DecidableEq, Repr

/-- The tracks of the stream: for a layer, when its track had its last packet. -/
abbrev Tracks := UInt8 → Option Nat

/-- A row after a call, and the tracks that were asked for a keyframe. -/
structure Asked where
  row : Row
  plis : List (Option UInt8) := []
  deriving DecidableEq, Repr

/-- `sibling`, with its keyframe asked for. -/
def askSibling (ts : Tracks) (layer : UInt8) : List (Option UInt8) :=
  if (ts layer).isSome then [some layer] else []

def wanted (row : Row) : UInt8 := min row.cap row.autoCap

def retarget (row : Row) (ts : Tracks) (now : Nat) : Asked :=
  if row.target = wanted row then { row }
  else { row := { row with target := wanted row, pendingSince := now }
         plis := askSibling ts (wanted row) }

/-- The judgement on a packet. -/
structure Judged where
  row : Row
  sent : Bool
  plis : List (Option UInt8) := []
  deriving DecidableEq, Repr

/-- While the target has not come, its keyframe is asked for now and then. -/
def retryPli (row : Row) (ts : Tracks) (now : Nat) : Asked :=
  if row.target ≠ layerPause ∧ now - row.pendingPliAt ≥ pendingPliRetryMs then
    { row := { row with pendingPliAt := now }, plis := askSibling ts row.target }
  else { row }

/-- The part of `pass` where the layer is not the target. -/
def passPending (row : Row) (ts : Tracks) (l : UInt8) (keyframe : Bool) (now : Nat) : Judged :=
  if row.layer ≠ layerPause ∧ now - row.pendingSince > pendingMs then
    { row := { row with target := row.layer }, sent := l = row.layer }
  else if l = row.target ∧ keyframe then { row := { row with layer := row.target }, sent := true }
  else
    let a := retryPli row ts now
    if l = row.layer then { row := a.row, sent := true, plis := a.plis }
    else if row.layer = layerPause ∧ l ≠ row.target ∧ keyframe ∧
        now - row.pendingSince > pendingMs then
      { row := { a.row with layer := l, target := l }, sent := true, plis := a.plis }
    else { row := a.row, sent := false, plis := a.plis }

def pass (row : Row) (ts : Tracks) (rid : Option UInt8) (keyframe : Bool) (now : Nat) : Judged :=
  if row.paused then { row, sent := false }
  else
    let l := rid.getD 1
    if row.layer ≠ row.target then passPending row ts l keyframe now
    else if l = row.layer then { row, sent := true }
    else if row.layer = 1 ∧ l = 0 ∧ (ts 1).any (now - · > inbandMs) then
      let row' := { row with target := 0, pendingSince := now }
      if keyframe then { row := { row' with layer := 0 }, sent := true }
      else { row := row', sent := false, plis := [rid] }
    else { row, sent := false }

/-- The end of `tick` for one row. -/
def setAutoCap (row : Row) (level : UInt8) (ts : Tracks) (now : Nat) : Asked :=
  retarget { row with autoCap := level } ts now

/-- `own` is the rid of a track of the stream. -/
def subscribeLayer (row : Row) (ts : Tracks) (own : Option UInt8) (spatial : Option UInt8)
    (paused : Option Bool) (priority : Option UInt8) (now : Nat) : Asked :=
  let row := match spatial with
    | some sp => { row with cap := min sp 1 }
    | none => row
  let row := match priority with
    | some p => { row with priority := p }
    | none => row
  let woken := row.paused && paused = some false
  let row := match paused with
    | some p => { row with paused := p }
    | none => row
  let plis := if woken then
      if (ts (wanted row)).isSome then [some (wanted row)] else [own]
    else []
  let r := retarget row ts now
  { r with plis := plis ++ r.plis }

/-- What `apply_changes` does to a row. `full` says when it was put to the stream of a track of its
own; a row of a slot, or one without a new source, has no target to set. -/
def applyChange (row : Row) (full : Option Nat) : Row :=
  let row := { row with layer := layerPause }
  match full with
  | some now => { row with target := wanted row, pendingSince := now }
  | none => row

/-! ## Calls on a row -/

inductive Act where
  | pass (ts : Tracks) (rid : Option UInt8) (keyframe : Bool) (now : Nat)
  | retarget (ts : Tracks) (now : Nat)
  | setAutoCap (level : UInt8) (ts : Tracks) (now : Nat)
  | subscribeLayer (ts : Tracks) (own spatial : Option UInt8) (paused : Option Bool)
      (priority : Option UInt8) (now : Nat)
  | applyChange (full : Option Nat)

structure Packet where
  layer : UInt8
  keyframe : Bool
  deriving DecidableEq, Repr

/-- What the subscriber sees of a row: packets, and that the source changes. -/
inductive Seen where
  | packet (p : Packet)
  | change
  deriving DecidableEq, Repr

structure Watch where
  row : Row := {}
  seen : List Seen := []

def act (s : Watch) : Act → Watch
  | .pass ts rid keyframe now =>
    let j := pass s.row ts rid keyframe now
    { row := j.row
      seen := s.seen ++ if j.sent then [.packet ⟨rid.getD 1, keyframe⟩] else [] }
  | .retarget ts now => { s with row := (retarget s.row ts now).row }
  | .setAutoCap level ts now => { s with row := (setAutoCap s.row level ts now).row }
  | .subscribeLayer ts own spatial paused priority now =>
    { s with row := (subscribeLayer s.row ts own spatial paused priority now).row }
  | .applyChange full => { row := applyChange s.row full, seen := s.seen ++ [.change] }

/-- A packet is of one of the two layers, for that is what a rid can say. -/
def Act.ofLayer : Act → Bool
  | .pass _ rid _ _ => rid = none ∨ rid = some 0 ∨ rid = some 1
  | _ => true

def watch : Machine Watch Act where
  ok _ a := a.ofLayer = true
  next := act

/-! ## One call -/

section Pass

variable (row : Row) (ts : Tracks) (l : UInt8) (rid : Option UInt8) (keyframe : Bool) (now : Nat)

theorem retryPli_layer : (retryPli row ts now).row.layer = row.layer := by
  rw [retryPli]
  split_ifs <;> rfl

/-- What is sent is of the layer that the row has then, and a layer that changes does so with a
keyframe. -/
structure Sound (j : Judged) : Prop where
  layer : j.sent = true → j.row.layer = l
  keyframe : j.row.layer = row.layer ∨ j.sent = true ∧ keyframe = true

theorem passPending_sound : Sound row l keyframe (passPending row ts l keyframe now) := by
  have hsame := retryPli_layer row ts now
  unfold passPending
  split_ifs with htimeout hconfirm hcur hfallback
  · exact ⟨fun h => (of_decide_eq_true h).symm, .inl rfl⟩
  · exact ⟨fun _ => hconfirm.1.symm, .inr ⟨rfl, hconfirm.2⟩⟩
  · exact ⟨fun _ => hsame.trans hcur.symm, .inl hsame⟩
  · exact ⟨fun _ => rfl, .inr ⟨rfl, hfallback.2.2.1⟩⟩
  · exact ⟨fun h => absurd h (by simp), .inl hsame⟩

theorem pass_sound : Sound row (rid.getD 1) keyframe (pass row ts rid keyframe now) := by
  unfold pass
  dsimp only
  split_ifs with hpaused hpending hcur hsilent hkey
  · exact ⟨fun h => absurd h (by simp), .inl rfl⟩
  · exact passPending_sound row ts (rid.getD 1) keyframe now
  · exact ⟨fun _ => hcur.symm, .inl rfl⟩
  · exact ⟨fun _ => hsilent.2.1.symm, .inr ⟨rfl, hkey⟩⟩
  · exact ⟨fun h => absurd h (by simp), .inl rfl⟩
  · exact ⟨fun h => absurd h (by simp), .inl rfl⟩

end Pass

theorem retarget_layer (row : Row) (ts : Tracks) (now : Nat) :
    (retarget row ts now).row.layer = row.layer := by
  rw [retarget]
  split_ifs <;> rfl

theorem subscribeLayer_layer (row : Row) (ts : Tracks) (own spatial : Option UInt8)
    (paused : Option Bool) (priority : Option UInt8) (now : Nat) :
    (subscribeLayer row ts own spatial paused priority now).row.layer = row.layer := by
  unfold subscribeLayer
  dsimp only
  rw [retarget_layer]
  cases spatial <;> cases paused <;> cases priority <;> rfl

theorem applyChange_layer (row : Row) (full : Option Nat) :
    (applyChange row full).layer = layerPause := by
  cases full <;> rfl

/-! ## Runs of calls -/

/-- What may come after what: a packet of the same layer, or a keyframe. -/
def Follows (a b : Seen) : Prop :=
  ∀ p, b = .packet p → p.keyframe = true ∨ ∃ q, a = .packet q ∧ q.layer = p.layer

structure Watch.Inv (s : Watch) : Prop where
  chain : (Seen.change :: s.seen).IsChain Follows
  last : s.row.layer = layerPause ∨
    ∃ q, (Seen.change :: s.seen).getLast? = some (.packet q) ∧ q.layer = s.row.layer

theorem Watch.Inv.of_layer {s : Watch} (h : s.Inv) {row : Row} (hrow : row.layer = s.row.layer) :
    Watch.Inv { s with row } where
  chain := h.chain
  last := by
    rw [show ({ s with row } : Watch).row.layer = s.row.layer from hrow]
    exact h.last

/-- Every call keeps the order of what is seen. -/
theorem act_inv {s : Watch} (h : s.Inv) {a : Act} (ha : a.ofLayer = true) : (act s a).Inv := by
  cases a with
  | retarget ts now => exact h.of_layer (retarget_layer _ _ _)
  | setAutoCap level ts now => exact h.of_layer (retarget_layer _ _ _)
  | subscribeLayer ts own spatial paused priority now =>
    exact h.of_layer (subscribeLayer_layer _ _ _ _ _ _ _)
  | applyChange full =>
    constructor
    · rw [act, ← List.cons_append]
      refine List.isChain_append.mpr ⟨h.chain, .singleton _, ?_⟩
      rintro x - y hy p rfl
      simp at hy
    · exact .inl (applyChange_layer _ _)
  | pass ts rid keyframe now =>
    obtain ⟨hsent, hkeeps⟩ := pass_sound s.row ts rid keyframe now
    rw [act]
    generalize pass s.row ts rid keyframe now = j at *
    have hlayer : rid.getD 1 ≠ layerPause := by
      have ha : rid = none ∨ rid = some 0 ∨ rid = some 1 := of_decide_eq_true ha
      rcases ha with rfl | rfl | rfl <;> decide
    cases hj : j.sent with
    | false =>
      rcases hkeeps with hkeeps | ⟨hkeeps, -⟩
      · simpa using h.of_layer hkeeps
      · exact absurd (hj.symm.trans hkeeps) Bool.false_ne_true
    | true =>
      constructor
      · rw [if_pos rfl, ← List.cons_append]
        refine List.isChain_append.mpr ⟨h.chain, .singleton _, ?_⟩
        rintro x hx y hy p rfl
        obtain rfl : p = ⟨rid.getD 1, keyframe⟩ := by simpa using hy.symm
        -- Without a keyframe the layer stays, and is that of the packet before.
        rcases hkeeps with hkeeps | ⟨-, hkey⟩
        · right
          rcases h.last with hpause | ⟨q, hq, hlast⟩
          · exact absurd ((hsent hj).symm.trans (hkeeps.trans hpause)) hlayer
          · obtain rfl := Option.some.inj (hx.symm.trans hq)
            exact ⟨q, rfl, hlast.trans (hkeeps.symm.trans (hsent hj))⟩
        · exact .inl hkey
      · right
        refine ⟨⟨rid.getD 1, keyframe⟩, ?_, (hsent hj).symm⟩
        rw [if_pos rfl, ← List.cons_append, List.getLast?_append]
        rfl

theorem start_inv : Watch.Inv {} := ⟨.singleton _, .inl rfl⟩

/-! ## Runs of one layer -/

/-- The packets up to the first change of the source, and those between changes after it. -/
def spans : List Seen → List Packet × List (List Packet)
  | [] => ([], [])
  | .packet p :: l => (p :: (spans l).1, (spans l).2)
  | .change :: l => ([], (spans l).1 :: (spans l).2)

/-- A keyframe, and packets of its layer. -/
def IsRun (r : List Packet) : Prop :=
  ∃ p tl, r = p :: tl ∧ p.keyframe = true ∧ ∀ q ∈ tl, q.layer = p.layer

/-- A sequence of runs. -/
def Runs (l : List Packet) : Prop := ∃ rs : List (List Packet), l = rs.flatten ∧ ∀ r ∈ rs, IsRun r

/-- Behind an item the packets go on with its layer, and then come in runs. -/
theorem runs_behind {l : List Seen} : ∀ {a : Seen}, (a :: l).IsChain Follows →
    (∃ first rest, (spans l).1 = first ++ rest ∧ Runs rest ∧
      ∀ p ∈ first, ∃ q, a = .packet q ∧ p.layer = q.layer) ∧ ∀ m ∈ (spans l).2, Runs m := by
  induction l with
  | nil => exact fun _ => ⟨⟨[], [], rfl, ⟨[], rfl, by simp⟩, by simp⟩, by simp [spans]⟩
  | cons b l ih =>
    intro a h
    obtain ⟨hab, hl⟩ := List.isChain_cons_cons.mp h
    obtain ⟨⟨first, rest, hspan, ⟨rs, hrest, hrs⟩, hfirst⟩, hlater⟩ := ih hl
    cases b with
    | change =>
      refine ⟨⟨[], [], rfl, ⟨[], rfl, by simp⟩, by simp⟩, ?_⟩
      have hnone : first = [] := by
        refine List.eq_nil_iff_forall_not_mem.mpr fun p hp => ?_
        obtain ⟨q, hq, -⟩ := hfirst p hp
        cases hq
      refine List.forall_mem_cons.mpr ⟨⟨rs, ?_, hrs⟩, hlater⟩
      rw [hspan, hnone, List.nil_append, hrest]
    | packet p =>
      have hfirst : ∀ x ∈ first, x.layer = p.layer := by
        intro x hx
        obtain ⟨q, hq, hlayer⟩ := hfirst x hx
        obtain rfl := Seen.packet.inj hq
        exact hlayer
      refine ⟨?_, hlater⟩
      rcases hab p rfl with hkey | ⟨q, rfl, hlayer⟩
      · refine ⟨[], p :: (spans l).1, rfl, ⟨(p :: first) :: rs, ?_, ?_⟩, by simp⟩
        · rw [hspan, hrest]
          rfl
        · exact List.forall_mem_cons.mpr ⟨⟨p, first, rfl, hkey, hfirst⟩, hrs⟩
      · refine ⟨p :: first, rest, ?_, ⟨rs, hrest, hrs⟩, ?_⟩
        · rw [spans, hspan]
          rfl
        · refine List.forall_mem_cons.mpr ⟨⟨q, rfl, hlayer.symm⟩, fun x hx => ?_⟩
          exact ⟨q, rfl, (hfirst x hx).trans hlayer.symm⟩

/-- The packets that are seen. -/
def packets (l : List Seen) : List Packet :=
  l.filterMap fun
    | .packet p => some p
    | .change => none

theorem packets_eq_spans (l : List Seen) : packets l = (spans l).1 ++ (spans l).2.flatten := by
  induction l with
  | nil => rfl
  | cons a l ih =>
    cases a with
    | packet p => simpa [packets, spans] using ih
    | change => simpa [packets, spans] using ih

theorem Runs.append {l m : List Packet} (hl : Runs l) (hm : Runs m) : Runs (l ++ m) := by
  obtain ⟨rs, rfl, hrs⟩ := hl
  obtain ⟨ts, rfl, hts⟩ := hm
  exact ⟨rs ++ ts, List.flatten_append.symm, List.forall_mem_append.mpr ⟨hrs, hts⟩⟩

theorem runs_flatten {ls : List (List Packet)} (h : ∀ l ∈ ls, Runs l) : Runs ls.flatten := by
  induction ls with
  | nil => exact ⟨[], rfl, by simp⟩
  | cons l ls ih =>
    obtain ⟨hl, hls⟩ := List.forall_mem_cons.mp h
    exact hl.append (ih hls)

/-- **Layers switch only on keyframes.** The packets that a row is sent are a sequence of runs of
one layer, each beginning with a keyframe, and so are those of each source. A packet that is sent is
of the layer that the row has after the call. -/
theorem layers_switch_on_keyframes {as : List Act} (hlegal : watch.Legal {} as) :
    Runs (packets (watch.exec {} as).seen) ∧
      (∀ l ∈ (spans (watch.exec {} as).seen).1 :: (spans (watch.exec {} as).seen).2, Runs l) ∧
      ∀ l₁ l₂ ts rid keyframe now, as = l₁ ++ .pass ts rid keyframe now :: l₂ →
        let j := pass (watch.exec {} l₁).row ts rid keyframe now
        j.sent = true → j.row.layer = rid.getD 1 := by
  have hinv : (watch.exec {} as).Inv :=
    watch.invariant (I := Watch.Inv) (fun _ _ h ha => act_inv h ha) start_inv hlegal
  obtain ⟨⟨first, rest, hspan, hrest, hfirst⟩, hlater⟩ := runs_behind hinv.chain
  have hnone : first = [] := by
    refine List.eq_nil_iff_forall_not_mem.mpr fun p hp => ?_
    obtain ⟨q, hq, -⟩ := hfirst p hp
    cases hq
  have hhead : Runs (spans (watch.exec {} as).seen).1 := by
    rw [hspan, hnone]
    exact hrest
  refine ⟨?_, List.forall_mem_cons.mpr ⟨hhead, hlater⟩, ?_⟩
  · rw [packets_eq_spans]
    exact hhead.append (runs_flatten hlater)
  · rintro l₁ l₂ ts rid keyframe now -
    exact (pass_sound _ ts rid keyframe now).layer

/-- A keyframe of the high layer, one of the low layer once that is the target, and another of the
high layer after a new source. -/
def switching : List Act :=
  [.pass (fun _ => some 0) (some 1) true 0, .pass (fun _ => some 0) (some 1) false 5,
    .setAutoCap 0 (fun _ => some 0) 6, .pass (fun _ => some 0) (some 0) true 7,
    .applyChange (some 8), .pass (fun _ => some 0) (some 0) true 9]

theorem layers_switch_on_keyframes_switching : Runs [⟨1, true⟩, ⟨1, false⟩, ⟨0, true⟩, ⟨0, true⟩] :=
  (@layers_switch_on_keyframes switching (by simp [switching, watch, Act.ofLayer])).1

end OxlensSfu.Sim
