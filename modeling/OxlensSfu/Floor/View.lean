import OxlensSfu.Floor.Core

/-!
# What the helpers do to the floor

The view of a floor is what arbitration is about: who holds the floor, who waits, who is a
member and the record of every user, as a function. It forgets the message number and whether a
record is stored or only the default.

Each helper has one lemma here, which rewrites the view after the helper to an expression in the
view before it. The key is `Part.hear`: an event of the arbitration changes only the record of
the user it reaches, as a function of that record, so a broadcast is that function at every
recipient (`view_fan`).
-/

namespace OxlensSfu.Flr

open Std

/-! ## Records -/

/-- The record after entering `st`. -/
def Part.enter (st : P) (p : Part) : Part :=
  match st with
  | .npIdle => { p with gTaken := false, c21 := 0, part := some st }
  | .npTaken => { p with gTaken := true, c21 := 1, part := some st }
  | .permitted => { p with released := false, c21 := 0, part := some st }
  | .prevoke => { p with c8 := 1, c21 := 0, part := some st }
  | _ => { p with c8 := 1, c21 := 0, part := some st }

/-- The record after an event of type `t` with number field `n` reaches its user. -/
def Part.hear (t : Mt) (n : Nat) (p : Part) : Part :=
  match t, p.part with
  | .granted, some .npIdle | .granted, some .npTaken => p.enter .permitted
  | .taken, some .npIdle | .taken, some .permitted | .taken, some .prevoke => p.enter .npTaken
  | .taken, some .npTaken => { p with c21 := 1 }
  | .idle, some .npTaken | .idle, some .permitted | .idle, some .prevoke => p.enter .npIdle
  | .revoke, some .permitted => { p with rcause := n }.enter .prevoke
  | .taken, some .npSends | .taken, none => { p with gTaken := true }
  | .idle, some .npSends | .idle, none => { p with gTaken := false }
  | _, _ => p

/-- The record of a user that just joined. -/
def Part.joined (taken perm : Bool) (p : Part) : Part :=
  { p with
    part := some (if taken then .npTaken else .npIdle), gTaken := taken, pubRoom := false,
    perm := perm, retry := false, released := false, rcause := 0 }

/-! ## Views -/

structure View where
  g : G
  speaker : Option String
  sprio : Nat
  revoking : Option String
  rprio : Nat
  queue : Queue
  members : TreeSet String
  part : String → Part
  qmax : Nat

namespace View

def holder (v : View) : Option String :=
  match v.g with
  | .taken => v.speaker
  | .prevoke => v.revoking
  | .idle => none

/-- Change the record of `u`. -/
def upd (v : View) (u : String) (f : Part → Part) : View :=
  { v with part := Function.update v.part u (f (v.part u)) }

/-- An event reaches `u`. -/
def hear (v : View) (u : String) (t : Mt) (n : Nat) : View := v.upd u (Part.hear t n)

/-- An event reaches every member but `skip`. -/
def hearAll (v : View) (t : Mt) (n : Nat) (skip : Option String) : View :=
  { v with part := fun u =>
      if u ∈ v.members ∧ some u ≠ skip then (v.part u).hear t n else v.part u }

/-- The floor goes to the speaker of the state: it hears `GRANTED`, everybody else `TAKEN`. -/
def enterTaken (v : View) : View :=
  (v.hear (v.speaker.getD "") .granted v.sprio).hearAll .taken 0 (some (v.speaker.getD ""))

/-- The floor is given up: to the head of the queue, or to nobody. -/
def idleEnter (v : View) : View :=
  match v.queue with
  | [] => { v with g := .idle, speaker := none, revoking := none }.hearAll .idle 0 none
  | w :: ws =>
    { v with queue := ws, g := .taken, speaker := some w.u, sprio := w.p, revoking := none
      : View }.enterTaken

theorem idleEnter_nil {v : View} (h : v.queue = []) :
    v.idleEnter =
      { v with g := .idle, speaker := none, revoking := none }.hearAll .idle 0 none := by
  rw [idleEnter, h]

theorem idleEnter_cons {v : View} {w : Waiter} {ws : Queue} (h : v.queue = w :: ws) :
    v.idleEnter =
      { v with queue := ws, g := .taken, speaker := some w.u, sprio := w.p, revoking := none
        : View }.enterTaken := by
  rw [idleEnter, h]

/-- The floor is being taken from `u`. -/
def prevokeEnter (v : View) (u : String) (cause : Nat) : View :=
  { v with g := .prevoke, revoking := some u, rprio := v.sprio, speaker := none }.hear u .revoke
    cause

end View

def Floor.view (f : Floor) : View where
  g := f.g
  speaker := f.speaker
  sprio := f.sprio
  revoking := f.revoking
  rprio := f.rprio
  queue := f.queue
  members := f.members
  part := f.part
  qmax := f.qmax

theorem Floor.view_holder (f : Floor) : f.view.holder = f.holder := rfl

theorem Floor.partOf_eq (f : Floor) (u : String) : f.partOf u = (f.part u).part := by
  rw [partOf, part, TreeMap.getD_eq_getD_getElem?]
  cases f.parts[u]? <;> rfl

/-! ## The view after a helper -/

namespace St

abbrev view (s : St) : View := s.fl.view

@[simp] theorem view_label (s : St) (l : String) : (s.label l).view = s.view := rfl

@[simp] theorem view_fx (s : St) (e : Fx) : (s.fx e).view = s.view := rfl

theorem part_insert (f : Floor) (u : String) (p : Part) :
    (fun v => (f.parts.insert u p).getD v {}) = Function.update f.part u p := by
  funext v
  rw [TreeMap.getD_insert, Function.update_apply, Floor.part]
  by_cases h : v = u
  · simp [h]
  · simp [h, Ne.symm h]

@[simp] theorem view_p (s : St) (u : String) (f : Part → Part) :
    (s.p u f).view = s.view.upd u f := by
  have h := part_insert s.fl u (f (s.fl.part u))
  simp only [view, Floor.view, View.upd, p]
  congr 1

@[simp] theorem view_dequeue (s : St) (u : String) :
    (s.dequeue u).view = { s.view with queue := s.view.queue.dequeue u } := rfl

@[simp] theorem view_insertQ (s : St) (w : Waiter) :
    (s.insertQ w).view = { s.view with queue := s.view.queue.insertQ w } := rfl

@[simp] theorem view_setPrev (s : St) (u : Option String) : (s.setPrev u).view = s.view := rfl

@[simp] theorem view_send (s : St) (u : String) (t : Mt) (a : Option String) (n d : Nat) :
    (s.send u t a n d).view = s.view := rfl

@[simp] theorem view_enterR (s : St) (u : String) (st : P) :
    (s.enterR u st).view = s.view.upd u (Part.enter st) := by
  cases st <;> simp [enterR] <;> rfl

@[simp] theorem view_sendE (s : St) (u : String) (st : P) (m : Msg) :
    (s.sendE u st m).view = s.view.upd u (Part.enter st) := by
  rw [sendE, view_send, view_enterR]

end St

theorem View.upd_upd (v : View) (u : String) (f g : Part → Part) :
    (v.upd u f).upd u g = v.upd u (g ∘ f) := by
  simp [View.upd]

theorem View.upd_of_fix {v : View} {u : String} {f : Part → Part} (h : f (v.part u) = v.part u) :
    v.upd u f = v := by
  simp [View.upd, h]

/-- Only the record of `u` matters to a change of it. -/
theorem View.upd_congr {v : View} {u : String} {f g : Part → Part}
    (h : f (v.part u) = g (v.part u)) : v.upd u f = v.upd u g := by
  simp [View.upd, h]

/-- **An event changes only the record of the user it reaches.** -/
@[simp] theorem St.view_partA (s : St) (u : String) (ev : Msg) :
    (s.partA u ev).view = s.view.hear u ev.t ev.n := by
  have hp : s.fl.partOf u = (s.view.part u).part := s.fl.partOf_eq u
  obtain ⟨t, a, n, d, q⟩ := ev
  rw [St.partA, View.hear]
  rw [hp]
  cases t <;> rcases hst : (s.view.part u).part with _ | (_ | _ | _ | _ | _ | _) <;>
    simp only [St.view_label, St.view_send, St.view_sendE, St.view_enterR, St.view_p,
      View.upd_upd] <;>
    first
    | exact (View.upd_of_fix (by simp [Part.hear, hst])).symm
    | exact View.upd_congr (by simp [Part.hear, hst])

/-! ## Broadcasts -/

theorem St.view_foldl_partA (ev : Msg) :
    ∀ (l : List String) (s : St), l.Nodup →
      (l.foldl (fun s u => s.partA u ev) s).view =
        { s.view with part := fun u =>
            if u ∈ l then (s.view.part u).hear ev.t ev.n else s.view.part u }
  | [], s, _ => by simp
  | x :: l, s, h => by
    obtain ⟨hx, hl⟩ := List.nodup_cons.1 h
    rw [List.foldl_cons, view_foldl_partA ev l _ hl, view_partA]
    simp only [View.hear, View.upd, List.mem_cons, View.mk.injEq, true_and, and_true]
    funext u
    by_cases hu : u = x
    · subst hu; simp [hx]
    · simp [hu]

theorem members_nodup (t : TreeSet String) : t.toList.Nodup :=
  (TreeSet.distinct_toList (t := t)).imp fun h e => h (by simp [e])

@[simp] theorem St.view_fan (s : St) (ev : Msg) (skip : Option String) :
    (s.fan ev skip).view = s.view.hearAll ev.t ev.n skip := by
  have hnum : (s.numbered ev).1.view = s.view ∧ (s.numbered ev).2.t = ev.t ∧
      (s.numbered ev).2.n = ev.n := by
    unfold St.numbered; split <;> exact ⟨rfl, rfl, rfl⟩
  obtain ⟨hv, ht, hn⟩ := hnum
  rw [St.fan, St.view_foldl_partA _ _ _ ((members_nodup _).filter _), hv, ht, hn]
  simp only [View.hearAll, List.mem_filter, TreeSet.mem_toList, decide_eq_true_eq]
  rfl

@[simp] theorem St.view_enterTaken (s : St) : s.enterTaken.view = s.view.enterTaken := by
  simp only [enterTaken, view_fx, view_fan, view_partA, View.enterTaken]
  rfl

@[simp] theorem St.view_idleEnter (s : St) : s.idleEnter.view = s.view.idleEnter := by
  cases hq : s.fl.queue with
  | nil =>
    rw [View.idleEnter_nil hq, idleEnter, hq]
    simp only [view_fx, view_fan]
    rfl
  | cons w ws =>
    rw [View.idleEnter_cons hq, idleEnter, hq]
    simp only [view_enterTaken]
    rfl

@[simp] theorem St.view_prevokeEnter (s : St) (u : String) (cause : Nat) :
    (s.prevokeEnter u cause).view = s.view.prevokeEnter u cause := by
  simp only [prevokeEnter, view_partA]
  rfl

@[simp] theorem St.view_enrol (s : St) (u : String) (perm : Bool) :
    (s.enrol u perm).view =
      { s.view with members := s.view.members.insert u }.upd u
        (Part.joined s.view.holder.isSome perm) := by
  rw [enrol, view_p]
  rfl

/-! ## What else a helper changes -/

/-- `s'` differs from `s` only in records, in the message number, and in messages and labels. -/
structure St.Same (s s' : St) : Prop where
  fl : ∃ P q, s'.fl = { s.fl with parts := P, seq := q }
  fx : s'.r.fx = s.r.fx

namespace St.Same

theorem refl (s : St) : Same s s := ⟨⟨_, _, rfl⟩, rfl⟩

theorem trans {s t w : St} (h : Same s t) (h' : Same t w) : Same s w := by
  obtain ⟨⟨P, q, e⟩, hx⟩ := h
  obtain ⟨⟨P', q', e'⟩, hx'⟩ := h'
  exact ⟨⟨P', q', by rw [e', e]⟩, hx'.trans hx⟩

theorem label (s : St) (l : String) : Same s (s.label l) := ⟨⟨_, _, rfl⟩, rfl⟩

theorem p (s : St) (u : String) (f : Part → Part) : Same s (s.p u f) := ⟨⟨_, _, rfl⟩, rfl⟩

theorem send (s : St) (u : String) (t : Mt) (a : Option String) (n d : Nat) :
    Same s (s.send u t a n d) := ⟨⟨_, _, rfl⟩, rfl⟩

theorem enterR (s : St) (u : String) (st : P) : Same s (s.enterR u st) := by
  cases st <;> exact (p s u _).trans (label _ _)

theorem sendE (s : St) (u : String) (st : P) (m : Msg) : Same s (s.sendE u st m) :=
  (enterR s u st).trans (send _ _ _ _ _ _)

theorem partA (s : St) (u : String) (ev : Msg) : Same s (s.partA u ev) := by
  rw [St.partA]
  split
  -- Each branch is a chain of helpers that starts with a label; it is peeled from its end.
  all_goals repeat with_reducible first
    | exact label _ _
    | refine trans ?_ (send _ _ _ _ _ _)
    | refine trans ?_ (sendE _ _ _ _)
    | refine trans ?_ (enterR _ _ _)
    | refine trans ?_ (p _ _ _)

theorem foldl_partA (ev : Msg) (l : List String) (s : St) :
    Same s (l.foldl (fun s u => s.partA u ev) s) := by
  induction l generalizing s with
  | nil => exact refl s
  | cons x l ih => exact (partA s x ev).trans (ih _)

theorem fan (s : St) (ev : Msg) (skip : Option String) : Same s (s.fan ev skip) := by
  have hnum : Same s (s.numbered ev).1 := by
    unfold St.numbered; split
    · exact ⟨⟨_, _, rfl⟩, rfl⟩
    · exact refl s
  exact hnum.trans (foldl_partA _ _ _)

end St.Same

/-- What giving the floor to the speaker of the state changes, records aside. -/
theorem St.enterTaken_fl (s : St) :
    (∃ P q, s.enterTaken.fl = { s.fl with idleBcast := false, parts := P, seq := q }) ∧
      s.enterTaken.r.fx = s.r.fx ++ [.bind (s.fl.speaker.getD "")] := by
  rw [enterTaken]
  dsimp only [St.fx]
  obtain ⟨hfl, hx⟩ := (Same.partA { s.label "FLR.S.G.TAKEN.enter" with
    fl := { s.fl with idleBcast := false } } (s.fl.speaker.getD "")
    { t := .granted, n := s.fl.sprio, d := s.fl.t2Full }).trans (Same.fan _
    { t := .taken, a := some (s.fl.speaker.getD "") } (some (s.fl.speaker.getD "")))
  exact ⟨hfl, congrArg (· ++ [Fx.bind (s.fl.speaker.getD "")]) hx⟩

theorem St.idleEnter_fl_nil {s : St} (h : s.fl.queue = []) :
    (∃ P q, s.idleEnter.fl = { s.fl with
        g := .idle, speaker := none, revoking := none, firstRtp := false, idleBcast := true,
        c7 := 1, parts := P, seq := q }) ∧
      s.idleEnter.r.fx = s.r.fx ++ [.release s.fl.prev] := by
  rw [idleEnter, h]
  dsimp only [St.fx]
  obtain ⟨hfl, hx⟩ := Same.fan
    { s.label "FLR.S.G.IDLE.enter_empty" with fl := { s.fl with
        g := .idle, speaker := none, revoking := none, firstRtp := false, idleBcast := true,
        c7 := 1 } } { t := .idle, a := s.fl.prev } none
  exact ⟨hfl, congrArg (· ++ [Fx.release s.fl.prev]) hx⟩

theorem St.idleEnter_fl_cons {s : St} {w : Waiter} {ws : Queue}
    (h : s.fl.queue = w :: ws) :
    (∃ P q, s.idleEnter.fl = { s.fl with
        queue := ws, g := .taken, speaker := some w.u, sprio := w.p, revoking := none,
        succ := true, rtpSeen := false, firstRtp := false, c20 := 1, idleBcast := false,
        parts := P, seq := q }) ∧
      s.idleEnter.r.fx = s.r.fx ++ [.bind w.u] := by
  rw [idleEnter, h]
  exact enterTaken_fl _

theorem St.prevokeEnter_fl (s : St) (u : String) (cause : Nat) :
    (∃ P q, (s.prevokeEnter u cause).fl = { s.fl with
        g := .prevoke, revoking := some u, rprio := s.fl.sprio, rcauseG := cause,
        speaker := none, parts := P, seq := q }) ∧
      (s.prevokeEnter u cause).r.fx = s.r.fx := by
  rw [prevokeEnter]
  obtain ⟨hfl, hx⟩ := Same.partA
    { s.label "FLR.S.G.PREVOKE.enter" with fl := { s.fl with
        g := .prevoke, revoking := some u, rprio := s.fl.sprio, rcauseG := cause,
        speaker := none } } u { t := .revoke, n := cause }
  exact ⟨hfl, hx⟩

end OxlensSfu.Flr
