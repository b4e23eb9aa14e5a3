import OxlensSfu.Mesh.Sync

/-!
# One connection of a network

An action of the network is for one connection nothing at all, or something that happens at one of
its two ends (`Happens.acts`): its node handles an event, which may come from this connection, and what
it has to say is left for the other end.
-/

namespace OxlensSfu.Mesh

/-- An end of a connection: its node, whether it has come, and what it has not taken yet. -/
structure Tip where
  core : Core
  came : Bool
  inbox : List Msg

namespace Tip

/-- What the event takes from the connection. -/
inductive Takes (k : Nat) (a : Tip) : Ev → Tip → Prop
  | other {e} (hmsg : ∀ u m, e = .msg u m → m.lane = .declare → a.core.on k ≠ some u)
      (hbrings : ∀ h, e.brings ≠ some (k, h)) : Takes k a e a
  | inbox {u m ms} (hinbox : a.inbox = m :: ms) (hon : a.core.on k = some u)
      (hcame : a.came = true) : Takes k a (.msg u m) { a with inbox := ms }
  | comes {e h} (hbrings : e.brings = some (k, h)) (hcame : a.came = false) :
      Takes k a e { a with came := true }

/-- What happens at the end `a`, when the other one is `z`. -/
inductive Acts (k : Nat) (a z : Tip) : Tip → Tip → Prop
  | event {a₁ e} (ht : a.Takes k e a₁) (o : Told) (hnode : a.core.Stands ∨ a.core.Client)
      (hseats : a.core.Seats e (a.core.onEv o e)) : Acts k a z
        { a₁ with core := a.core.onEv o e }
        { z with inbox := z.inbox ++ a.core.said (a.core.onEv o e) k }
  /-- A message finds no session. -/
  | skip (hon : a.core.on k = none) (hcame : a.came = true) :
      Acts k a z { a with inbox := a.inbox.tail } z
  | lose (hon : a.core.on k = none) (n : Nat) : Acts k a z a { z with inbox := z.inbox.take n }

/-- What holds of an end, whatever has happened. -/
structure Fits (k : Nat) (a z : Tip) : Prop where
  single : a.core.Single
  came : ∀ u s, a.core.sessions.lookup u = some s → s.stream = k → a.came = true
  role : ∀ u s, a.core.sessions.lookup u = some s → s.stream = k → s.role = z.core.role
  early : z.came = false → a.inbox = []

variable {k : Nat} {a a₁ a' z z' : Tip} {e : Ev}

theorem Takes.core (h : a.Takes k e a₁) : a₁.core = a.core := by
  cases h <;> rfl

theorem Fits.on_came (h : a.Fits k z) {u : Nat} (hon : a.core.on k = some u) : a.came = true := by
  obtain ⟨s, hs, hk⟩ := Core.of_on hon
  exact h.came u s hs hk

/-- A session that stays is on the same connection, and one that comes brings it. -/
theorem on_onEv {c c' : Core} (hseats : c.Seats e c') (hsingle : c.Single) {u : Nat}
    (hon : c'.on k = some u) : u ∈ c.sessions ∧ c.on k = some u ∨
      u = c.nextUid ∧ u ∉ c.sessions ∧ ∃ h, e.brings = some (k, h) := by
  obtain ⟨s', hs', hk⟩ := Core.of_on hon
  by_cases hu : u ∈ c.sessions
  · obtain ⟨s, hs, -, hstream, -⟩ := hseats.stay u s' hs' hu
    exact .inl ⟨hu, Core.on_some hsingle hs (hstream.symm.trans hk)⟩
  · obtain ⟨huid, k', h, hbrings, hstream, -⟩ := hseats.come u s' hs' hu
    exact .inr ⟨huid, hu, h, by rw [hbrings, ← hstream, hk]⟩

end Tip

namespace World

variable {ι : Type} [DecidableEq ι] {W : Wires ι} {w w₁ : World ι} {i : ι} {o : Told} {e : Ev}
  {k : Nat} {b : Bool}

def tip (W : Wires ι) (w : World ι) (k : Nat) (b : Bool) : Tip :=
  ⟨w.core (W.node k b), w.arrived k b, w.lane k b⟩

omit [DecidableEq ι] in
theorem Inv.fits {A : ι → Core → Decls → Prop} (h : w.Inv W A) (k : Nat) (b : Bool) :
    (w.tip W k b).Fits k (w.tip W k (!b)) :=
  ⟨h.single _, fun _ _ hs hk => (h.arrived_of rfl hs hk).1,
    fun _ _ hs hk => (h.arrived_of rfl hs hk).2, fun hnot => (h.early k b hnot).1⟩

/-- The connection is as it was. -/
def Same (W : Wires ι) (k : Nat) (w w' : World ι) : Prop := ∀ b, w'.tip W k b = w.tip W k b

/-- Something happens at one of the ends. -/
def Acted (W : Wires ι) (k : Nat) (w w' : World ι) : Prop := ∃ b,
  (w.tip W k b).Acts k (w.tip W k (!b)) (w'.tip W k b) (w'.tip W k (!b))

theorem handle_tip (hcore : w₁.core = w.core) (hi : W.node k b = i)
    (hfar : w₁.tip W k (!b) = w.tip W k (!b)) :
    (w₁.handle W i o e).tip W k b = { w₁.tip W k b with core := (w.tip W k b).core.onEv o e } ∧
      (w₁.handle W i o e).tip W k (!b) = { w.tip W k (!b) with
        inbox := (w.tip W k (!b)).inbox ++
          (w.tip W k b).core.said ((w.tip W k b).core.onEv o e) k } := by
  subst hi
  have hne : W.node k (!b) ≠ W.node k b := by
    have hapart := W.apart k
    cases b
    · exact hapart
    · exact Ne.symm hapart
  rw [← hfar]
  simp only [tip, handle_core_self, handle_core_ne hne, handle_lane, hcore, Bool.not_not, if_neg hne,
    if_true]
  exact ⟨rfl, rfl⟩

theorem handle_same (hsame : Same W k w w₁) (hi : ∀ b, W.node k b ≠ i) :
    Same W k w (w₁.handle W i o e) := by
  intro b
  rw [← hsame b]
  simp only [tip, handle_core_ne (hi b), handle_lane, if_neg (hi (!b))]
  rfl

omit [DecidableEq ι] in
theorem setLane_tip (w : World ι) (k : Nat) (b : Bool) (ms : List Msg) :
    (w.setLane k b ms).tip W k b = { w.tip W k b with inbox := ms } := by
  simp only [tip, setLane_lane, and_self, if_true]
  rfl

omit [DecidableEq ι] in
theorem setLane_other (w : World ι) (k : Nat) (b : Bool) (ms : List Msg) {k' : Nat} {b' : Bool}
    (hne : ¬ (k' = k ∧ b' = b)) : (w.setLane k b ms).tip W k' b' = w.tip W k' b' := by
  simp only [tip, setLane_lane, if_neg hne]
  rfl

omit [DecidableEq ι] in
theorem arrives_tip (w : World ι) (k : Nat) (b : Bool) :
    (w.arrives k b).tip W k b = { w.tip W k b with came := true } := by
  simp only [tip, arrives_arrived, and_self, if_true]
  rfl

omit [DecidableEq ι] in
theorem arrives_other (w : World ι) (k : Nat) (b : Bool) {k' : Nat} {b' : Bool}
    (hne : ¬ (k' = k ∧ b' = b)) : (w.arrives k b).tip W k' b' = w.tip W k' b' := by
  simp only [tip, arrives_arrived, if_neg hne]
  rfl

omit [DecidableEq ι] in
/-- It is this end, or the other. -/
theorem Acted.ends {w' : World ι} (h : Acted W k w w') (b : Bool) :
    (w.tip W k b).Acts k (w.tip W k (!b)) (w'.tip W k b) (w'.tip W k (!b)) ∨
      (w.tip W k (!b)).Acts k (w.tip W k b) (w'.tip W k (!b)) (w'.tip W k b) := by
  obtain ⟨b', hacts⟩ := h
  by_cases hb : b' = b
  · exact .inl (hb ▸ hacts)
  · obtain rfl : b = !b' := by cases b <;> cases b' <;> simp_all
    rw [Bool.not_not]
    exact .inr hacts

/-! ## What an action does -/

/-- The event takes its part from the one connection that it is about. -/
structure Readies (W : Wires ι) (w : World ι) (i : ι) (e : Ev) (w₁ : World ι) : Prop where
  core : w₁.core = w.core
  takes : ∀ k b, W.node k b = i →
    (w.tip W k b).Takes k e (w₁.tip W k b) ∧ w₁.tip W k (!b) = w.tip W k (!b)
  same : ∀ k, (∀ b, W.node k b ≠ i) → Same W k w w₁

/-- A node handles an event, or messages are lost. -/
inductive Happens (W : Wires ι) (w : World ι) : World ι → Prop
  | event {i : ι} {e : Ev} {w₁ : World ι} (ht : Readies W w i e w₁)
      (hrun : (w.core i).running = true) (o : Told)
      (hseats : (w.core i).Seats e ((w.core i).onEv o e)) : Happens W w (w₁.handle W i o e)
  | idle : Happens W w w
  | skip {k : Nat} {b : Bool} (hon : (w.core (W.node k b)).on k = none)
      (hcame : w.arrived k b = true) : Happens W w (w.setLane k b (w.lane k b).tail)
  | lose {k : Nat} {b : Bool} (hon : (w.core (W.node k (!b))).on k = none) (n : Nat) :
      Happens W w (w.setLane k b ((w.lane k b).take n))

omit [DecidableEq ι] in
/-- An event keeps the sessions of a node that runs. -/
theorem Inv.seats (h : w.Inv W fun _ => Core.Agrees False) (hrun : (w.core i).running = true)
    (hf : (w.core i).router = true → (w.core i).Fresh e) (o : Told) :
    (w.core i).Seats e ((w.core i).onEv o e) :=
  (Core.talks (h.nodes i hrun) hf o fun hS => absurd hS id).1

omit [DecidableEq ι] in
theorem Readies.own (he : e.Inner) : Readies W w i e w := by
  refine ⟨rfl, fun k b _ => ⟨.other ?_ ?_, rfl⟩, fun _ _ _ => rfl⟩
  · rintro u m rfl hlane
    exact absurd hlane he
  · intro hello hb
    cases e with
    | accepted => exact absurd he nofun
    | dialed => exact absurd (hb.symm.trans he) nofun
    | _ => exact absurd hb nofun

omit [DecidableEq ι] in
theorem Readies.arrive (hnot : w.arrived k b = false) (hbrings : w.Brings W k b e) :
    Readies W w (W.node k b) e (w.arrives k b) := by
  obtain ⟨hello, he⟩ : ∃ hello, e.brings = some (k, hello) := by
    rw [Brings] at hbrings
    split at hbrings
    · rename_i k' hello he
      exact ⟨hello, by rw [he, hbrings.1]⟩
    · exact absurd hbrings id
  refine ⟨rfl, fun k' b' hb => ?_, fun k' hno b' => arrives_other w k b ?_⟩
  · by_cases hk : k' = k
    · subst hk
      obtain rfl := end_unique hb rfl
      refine ⟨?_, arrives_other w k' b' (by simp)⟩
      rw [arrives_tip]
      exact .comes he hnot
    · refine ⟨?_, arrives_other w k b fun hkb => hk hkb.1⟩
      rw [arrives_other w k b fun hkb => hk hkb.1]
      refine .other ?_ fun hello' he' => ?_
      · rintro u m rfl
        exact absurd he nofun
      · rw [he] at he'
        exact hk (Prod.mk.inj (Option.some.inj he')).1.symm
  · rintro ⟨rfl, -⟩
    exact hno b rfl

omit [DecidableEq ι] in
theorem Readies.deliver {m : Msg} {ms : List Msg} {u : Nat} (hlane : w.lane k b = m :: ms)
    (hcame : w.arrived k b = true) (hon : (w.core (W.node k b)).on k = some u) :
    Readies W w (W.node k b) (.msg u m) (w.setLane k b ms) := by
  refine ⟨rfl, fun k' b' hb => ?_, fun k' hno b' => setLane_other w k b ms ?_⟩
  · by_cases hk : k' = k
    · subst hk
      obtain rfl := end_unique hb rfl
      refine ⟨?_, setLane_other w k' b' ms (by simp)⟩
      rw [setLane_tip]
      exact .inbox hlane hon hcame
    · refine ⟨?_, setLane_other w k b ms fun hkb => hk hkb.1⟩
      rw [setLane_other w k b ms fun hkb => hk hkb.1]
      refine .other ?_ fun _ => nofun
      rintro v m' he - hon'
      -- the session would be on two connections
      obtain ⟨rfl, -⟩ := Ev.msg.inj he
      obtain ⟨s, hs, hk₀⟩ := Core.of_on hon
      obtain ⟨t, ht, hk'⟩ := Core.of_on hon'
      have ht : (w.core (W.node k' b')).sessions.lookup u = some t := ht
      rw [hb, hs] at ht
      obtain rfl := Option.some.inj ht
      exact hk (hk'.symm.trans hk₀)
  · rintro ⟨rfl, -⟩
    exact hno b rfl

/-- **What an action does.** -/
theorem Inv.happens (h : w.Inv W fun _ => Core.Agrees False) {a : Act ι} (hok : (net W).ok w a) :
    Happens W w ((net W).next w a) := by
  cases a with
  | own i o e =>
    obtain ⟨hrun, hinner⟩ := hok
    exact .event (.own hinner) hrun o (h.seats hrun (fun _ => hinner.fresh _) o)
  | arrive k b o e =>
    obtain ⟨hrun, hnot, hbrings⟩ := hok
    exact .event (.arrive hnot hbrings) hrun o (h.seats hrun (fun _ => hbrings.fresh _) o)
  | deliver k b o =>
    obtain ⟨hrun, hcame⟩ := hok
    show Happens W w (w.take W k b o)
    rw [take]
    cases hlane : w.lane k b with
    | nil => exact .idle
    | cons m ms =>
      cases hon : (w.core (W.node k b)).on k with
      | none =>
        have hskip := Happens.skip hon hcame
        rw [hlane] at hskip
        exact hskip
      | some u =>
        have hfresh := fun hr => h.taken_fresh hr hlane hon
        exact .event (.deliver hlane hcame hon) hrun o (h.seats hrun hfresh o)
  | lose k b n => exact .lose hok n

/-- **For one connection** it is an action of one of its ends, or nothing. -/
theorem Happens.acts {A : ι → Core → Decls → Prop} (h : w.Inv W A) {w' : World ι}
    (hw : Happens W w w') (k : Nat) : Same W k w w' ∨ Acted W k w w' := by
  cases hw with
  | @event i e w₁ ht hrun o hseats =>
    by_cases hi : ∃ b, W.node k b = i
    · obtain ⟨b, hb⟩ := hi
      obtain ⟨htakes, hfar⟩ := ht.takes k b hb
      obtain ⟨hnear, hother⟩ := handle_tip (o := o) (e := e) ht.core hb hfar
      subst hb
      refine .inr ⟨b, ?_⟩
      rw [hnear, hother]
      exact .event htakes o (h.nodes _ hrun) hseats
    · exact .inl (handle_same (ht.same k (not_exists.1 hi)) (not_exists.1 hi))
  | idle => exact .inl fun _ => rfl
  | @skip k₀ b hon hcame =>
    by_cases hk : k = k₀
    · subst hk
      refine .inr ⟨b, ?_⟩
      rw [setLane_tip, setLane_other w k b _ (by simp)]
      exact .skip hon hcame
    · exact .inl fun b' => setLane_other w k₀ b _ fun hkb => hk hkb.1
  | @lose k₀ b hon n =>
    by_cases hk : k = k₀
    · subst hk
      refine .inr ⟨!b, ?_⟩
      rw [Bool.not_not, setLane_tip, setLane_other w k b _ (by simp)]
      have hon : (w.tip W k (!b)).core.on k = none := hon
      exact .lose hon n
    · exact .inl fun b' => setLane_other w k₀ b _ fun hkb => hk hkb.1

/-- **For one node** it is an event that it handles, or nothing. -/
theorem Happens.core {w' : World ι} (hw : Happens W w w') (i : ι) : w'.core i = w.core i ∨
    ∃ o e, (w.core i).running = true ∧ (w.core i).Seats e ((w.core i).onEv o e) ∧
      w'.core i = (w.core i).onEv o e := by
  cases hw with
  | @event j e w₁ ht hrun o hseats =>
    by_cases hj : i = j
    · subst hj
      exact .inr ⟨o, e, hrun, hseats, by rw [handle_core_self, ht.core]⟩
    · exact .inl (by rw [handle_core_ne hj, ht.core])
  | idle | skip | lose => exact .inl rfl

end World

end OxlensSfu.Mesh
