import OxlensSfu.Floor.Moves

/-!
# The two state machines agree

The arbitration keeps one state per room and the participant machine one per member. Nothing
checks at run time that they fit. `View.Agreement` says that they do, `Move.agreement` that
every move keeps it, and `run_agreement` that every run does, whatever the queue bound and
the length of T2.
-/

namespace OxlensSfu.Flr

open Std

/-- The participant state of `u` fits the arbitration. The values of `gTaken` in the first two
states are what `NPSENDS` is left with when stray RTP leads there. -/
def View.Agrees (v : View) (u : String) : Prop :=
  match (v.part u).part with
  | some .npIdle => v.g = .idle ∧ (v.part u).gTaken = false
  | some .npTaken => v.g ≠ .idle ∧ (v.part u).gTaken = true
  | some .permitted => v.g = .taken ∧ v.speaker = some u
  | some .prevoke => v.holder = some u
  | some .npSends => ((v.part u).gTaken ↔ v.g ≠ .idle)
  | some .releasing | none => False

/-- Every member fits, and the holder is named. -/
structure View.Agreement (v : View) : Prop where
  held : v.Held
  member : ∀ u ∈ v.members, v.Agrees u

/-! ## Changes of one record -/

theorem View.Agrees.congr {v v' : View} {u : String} (h : v.Agrees u) (hg : v'.g = v.g)
    (hs : v'.speaker = v.speaker) (hr : v'.revoking = v.revoking)
    (hp : (v.part u).Like (v'.part u)) : v'.Agrees u := by
  have hh : v'.holder = v.holder := by unfold View.holder; rw [hg, hs, hr]
  unfold View.Agrees at *
  rw [hp.part, hp.gTaken, hg, hs, hh]
  exact h

theorem View.upd_part_self (v : View) (u : String) (f : Part → Part) :
    (v.upd u f).part u = f (v.part u) := by simp [View.upd]

theorem View.upd_part_ne (v : View) {u x : String} (f : Part → Part) (h : x ≠ u) :
    (v.upd u f).part x = v.part x := by simp [View.upd, h]

theorem Part.Like.refl (p : Part) : p.Like p := ⟨rfl, rfl⟩

theorem View.upd_like {v : View} {u : String} {f : Part → Part}
    (h : (v.part u).Like (f (v.part u))) (x : String) : (v.part x).Like ((v.upd u f).part x) := by
  by_cases hx : x = u
  · subst hx; rwa [View.upd_part_self]
  · rw [View.upd_part_ne _ _ hx]; exact .refl _

/-- A change that leaves the arbitration and the participant states alone keeps the agreement. -/
theorem View.Agreement.congr {v v' : View} (h : v.Agreement) (hg : v'.g = v.g)
    (hs : v'.speaker = v.speaker) (hr : v'.revoking = v.revoking)
    (hm : ∀ x ∈ v'.members, x ∈ v.members ∧ (v.part x).Like (v'.part x)) : v'.Agreement where
  held := by
    rw [View.Held, View.holder]
    rw [hg, hs, hr]
    exact h.held
  member x hx := (h.member x (hm x hx).1).congr hg hs hr (hm x hx).2

theorem View.Agreement.upd {v : View} (h : v.Agreement) {u : String} {f : Part → Part}
    (hf : (v.part u).Like (f (v.part u))) : (v.upd u f).Agreement :=
  h.congr rfl rfl rfl fun x hx => ⟨hx, View.upd_like hf x⟩

/-! ## Transitions of the arbitration -/

theorem View.Agreement.idleEnter_nil {v : View} (h : v.Agreement) :
    ({ v with g := .idle, speaker := none, revoking := none }.hearAll .idle 0 none).Agreement where
  held := fun hg => absurd rfl hg
  member x hx := by
    have hv := h.member x hx
    rw [View.Agrees] at hv ⊢
    simp only [View.hearAll, show x ∈ v.members from hx, ne_eq, reduceCtorEq, not_false_eq_true,
      and_self, if_true]
    rcases hp : (v.part x).part with _ | (_ | _ | _ | _ | _ | _) <;>
      simp_all [Part.hear, Part.enter]

/-- Giving the floor to `s`. Who hears `TAKEN` may come from anywhere; `gTaken` must be right
where no message sets it. -/
theorem View.enterTaken_agreement {v : View} {s : String} (hg : v.g = .taken)
    (hs : v.speaker = some s)
    (hm : ∀ x ∈ v.members, (v.part x).part.isSome ∧ (v.part x).part ≠ some .releasing ∧
      ((v.part x).part = some .npTaken ∨ x = s ∧ (v.part x).part = some .npSends →
        (v.part x).gTaken)) :
    v.enterTaken.Agreement where
  held := fun _ => by
    show View.holder _ |>.isSome
    simp [View.holder, View.enterTaken, View.hearAll, View.hear, View.upd, hg, hs]
  member x hx := by
    obtain ⟨h₁, h₂, h₃⟩ := hm x hx
    rw [View.Agrees]
    by_cases hxs : x = s
    · subst hxs
      simp only [View.enterTaken, View.hearAll, View.hear, View.upd, hs, Option.getD_some,
        ne_eq, not_true_eq_false, and_false, if_false, Function.update_self, View.holder, hg]
      rcases hp : (v.part x).part with _ | (_ | _ | _ | _ | _ | _) <;>
        simp_all [Part.hear, Part.enter]
    · simp only [View.enterTaken, View.hearAll, View.hear, View.upd, hs, Option.getD_some,
        show x ∈ v.members from hx, ne_eq, Option.some.injEq, hxs, not_false_eq_true, and_self,
        if_true, Function.update_of_ne, hg]
      rcases hp : (v.part x).part with _ | (_ | _ | _ | _ | _ | _) <;>
        simp_all [Part.hear, Part.enter]

theorem View.Agreement.set {v : View} (h : v.Agreement) {x : String} (hx : x ∈ v.members) :
    (v.part x).part.isSome ∧ (v.part x).part ≠ some .releasing := by
  have hv := h.member x hx
  rw [View.Agrees] at hv
  rcases hp : (v.part x).part with _ | (_ | _ | _ | _ | _ | _) <;> simp_all

/-- **Giving the floor up keeps the agreement.** -/
theorem View.Agreement.idleEnter {v : View} (h : v.Agreement) (hg : v.g ≠ .idle) :
    v.idleEnter.Agreement := by
  cases hq : v.queue with
  | nil =>
    rw [View.idleEnter_nil hq]
    exact h.idleEnter_nil
  | cons w ws =>
    rw [View.idleEnter_cons hq]
    refine View.enterTaken_agreement rfl rfl ?_
    intro x hx
    refine ⟨(h.set hx).1, (h.set hx).2, ?_⟩
    intro hp
    have hv := h.member x hx
    rw [View.Agrees] at hv
    rcases hp with hp | ⟨-, hp⟩
    · rw [show (v.part x).part = some .npTaken from hp] at hv
      exact hv.2
    · rw [show (v.part x).part = some .npSends from hp] at hv
      exact hv.2 hg

theorem View.Agreement.prevokeEnter {v : View} (h : v.Agreement) {u : String} (cause : Nat)
    (hg : v.g = .taken) (hs : v.speaker = some u) : (v.prevokeEnter u cause).Agreement where
  held := fun _ => rfl
  member x hx := by
    have hv := h.member x hx
    have hh : v.holder = some u := holder_of_taken ⟨hg, hs⟩
    rw [View.Agrees] at hv ⊢
    by_cases hxu : x = u
    · subst hxu
      simp only [View.prevokeEnter, View.hear, View.upd, Function.update_self, View.holder]
      rcases hp : (v.part x).part with _ | (_ | _ | _ | _ | _ | _) <;>
        simp_all [Part.hear, Part.enter]
    · have hux : u ≠ x := fun e => hxu e.symm
      simp only [View.prevokeEnter, View.hear, View.upd, Function.update_of_ne hxu, View.holder]
      rcases hp : (v.part x).part with _ | (_ | _ | _ | _ | _ | _) <;> simp_all

theorem Away.agreement {u : String} {v : View} {fx : List Fx} {v' : View} (h : Away u v fx v')
    (ha : v.Agreement) : v'.Agreement := by
  cases h with
  | speaker hg _ _ => exact ha.idleEnter (by simp [hg])
  | revoking => exact ha
  | queued => exact ha.congr rfl rfl rfl fun x hx => ⟨hx, .refl _⟩
  | other => exact ha

theorem View.Agreement.regrant {v : View} (h : v.Agreement) {u : String} (n : Nat)
    (hg : v.g = .taken) (hs : v.speaker = some u) : (v.hear u .granted n).Agreement where
  held := h.held
  member x hx := by
    have hv := h.member x hx
    have hh : v.holder = some u := holder_of_taken ⟨hg, hs⟩
    by_cases hxu : x = u
    · subst hxu
      have hh' : (v.hear x .granted n).holder = some x := hh
      rw [View.Agrees] at hv ⊢
      rw [hh', show (v.hear x .granted n).part x = (v.part x).hear .granted n from
        View.upd_part_self _ _ _]
      rcases hp : (v.part x).part with _ | (_ | _ | _ | _ | _ | _) <;>
        simp_all [Part.hear, Part.enter, View.hear, View.upd]
    · exact hv.congr rfl rfl rfl (by rw [View.hear, View.upd_part_ne _ _ hxu]; exact .refl _)

theorem View.Agreement.again {v : View} (h : v.Agreement) (hg : v.g = .idle) :
    (v.hearAll .idle 0 none).Agreement where
  held := h.held
  member x hx := by
    have hv := h.member x hx
    have hh : v.holder = none := by rw [View.holder, hg]
    rw [View.Agrees] at hv ⊢
    simp only [View.hearAll, show x ∈ v.members from hx, ne_eq, reduceCtorEq, not_false_eq_true,
      and_self, if_true]
    rcases hp : (v.part x).part with _ | (_ | _ | _ | _ | _ | _) <;> simp_all [Part.hear]

/-- Replacing the record of `u` by one that fits. -/
theorem View.Agreement.set_part {v : View} (h : v.Agreement) {u : String} {f : Part → Part}
    (hu : (v.upd u f).Agrees u) : (v.upd u f).Agreement where
  held := h.held
  member x hx := by
    by_cases hxu : x = u
    · subst hxu; exact hu
    · exact (h.member x hx).congr rfl rfl rfl (by rw [View.upd_part_ne _ _ hxu]; exact .refl _)

theorem View.Held.isSome_iff {v : View} (h : v.Held) : v.holder.isSome ↔ v.g ≠ .idle := by
  refine ⟨?_, h⟩
  intro hs hg
  rw [View.holder, hg] at hs
  simp at hs

theorem View.Agreement.enrol {v : View} (h : v.Agreement) (u : String) (perm : Bool) :
    ({ v with members := v.members.insert u }.upd u
      (Part.joined v.holder.isSome perm)).Agreement where
  held := h.held
  member x hx := by
    by_cases hxu : x = u
    · subst hxu
      have hi := h.held.isSome_iff
      rw [View.Agrees]
      rw [View.upd_part_self]
      by_cases hg : v.g = .idle
      · have hn : v.holder.isSome = false := by simpa [hg] using hi
        simp [Part.joined, hn, View.upd, hg]
      · have hn : v.holder.isSome = true := hi.2 hg
        simp [Part.joined, hn, View.upd, hg]
    · have hm : x ∈ v.members := by
        have := TreeSet.mem_insert.1 (show x ∈ v.members.insert u from hx)
        simpa [Ne.symm hxu] using this
      exact (h.member x hm).congr rfl rfl rfl (by rw [View.upd_part_ne _ _ hxu]; exact .refl _)

theorem View.idleEnter_members (v : View) : v.idleEnter.members = v.members := by
  rw [View.idleEnter]
  split <;> rfl

/-- **Every move keeps the agreement.** -/
theorem Move.agreement {o : Op} {v : View} {fx : List Fx} {v' : View} (h : Move o v fx v')
    (ha : v.Agreement) : v'.Agreement := by
  cases h with
  | tune u f hf => exact ha.upd hf.like
  | stray u _ hu hp =>
    refine ha.set_part ?_
    have hv := ha.member u hu
    rw [View.Agrees] at hv ⊢
    rw [View.upd_part_self]
    rcases hp with hp | hp <;> rw [hp] at hv <;> simp [Part.enter, View.upd, hv]
  | settle u hu hp =>
    refine ha.set_part ?_
    have hv := ha.member u hu
    rw [View.Agrees] at hv ⊢
    rw [View.upd_part_self]
    rcases hst : (v.part u).part with _ | (_ | _ | _ | _ | _ | _) <;> rw [hst] at hv hp <;>
      simp at hp hv
    cases hgt : (v.part u).gTaken <;> simp_all [Part.enter, View.upd]
  | enqueue => exact ha.congr rfl rfl rfl fun x hx => ⟨hx, .refl _⟩
  | dequeue u f hf =>
    exact (ha.upd hf).congr rfl rfl rfl fun x hx => ⟨hx, .refl _⟩
  | lower u f hf => exact ha.upd hf
  | preempt u sp p _ _ _ _ hg hs =>
    refine View.Agreement.prevokeEnter ?_ _ hg hs
    exact ha.congr rfl rfl rfl fun x hx => ⟨hx, .refl _⟩
  | revoke u f cause hf hg hs => exact (ha.upd hf).prevokeEnter cause hg hs
  | free u f hf hh _ =>
    refine (ha.upd hf.like).idleEnter ?_
    intro hg
    rw [View.holder, show v.g = .idle from hg] at hh
    simp at hh
  | grant u p hmay hp hg =>
    refine View.enterTaken_agreement rfl rfl ?_
    intro x hx
    refine ⟨(ha.set hx).1, (ha.set hx).2, ?_⟩
    intro hx'
    have hv := ha.member x hx
    rw [View.Agrees] at hv
    rcases hx' with hx' | ⟨rfl, hx'⟩
    · rw [show (v.part x).part = some .npTaken from hx'] at hv
      exact absurd hg hv.1
    · rw [show (v.part x).part = some .npSends from hx'] at hp
      simp at hp
  | regrant u n hg hs => exact ha.regrant n hg hs
  | again hg => exact ha.again hg
  | pubAway u h => exact h.agreement (ha.upd ⟨rfl, rfl⟩)
  | leave u h =>
    refine (h.agreement (ha.upd ⟨rfl, rfl⟩)).congr rfl rfl rfl ?_
    intro x hx
    obtain ⟨hne, hm⟩ := TreeSet.mem_erase.1 hx
    have hxu : x ≠ u := fun e => by simp [e] at hne
    exact ⟨hm, by rw [View.upd_part_ne _ _ hxu]; exact .refl _⟩
  | join u perm _ _ => exact ha.enrol u perm
  | rejoin u perm _ hg _ _ => exact (ha.idleEnter (by simp [hg])).enrol u perm

/-! ## Runs -/

theorem agreement_new (qmax t2Secs : Nat) : (Floor.new qmax t2Secs).view.Agreement where
  held := fun hg => absurd rfl hg
  member := fun _ hx => absurd hx TreeSet.not_mem_emptyc

theorem step_agreement (f : Floor) (o : Op) (h : f.view.Agreement) (ha : o.Armed f) :
    (f.apply o).fl.view.Agreement :=
  (f.move o h.held ha).agreement h

/-- Every run keeps the agreement. -/
theorem run_agreement {qmax t2Secs : Nat} {ops : List Op}
    (hl : machine.Legal (Floor.new qmax t2Secs) ops) :
    (machine.exec (Floor.new qmax t2Secs) ops).view.Agreement :=
  Machine.invariant (M := machine) (I := fun f => f.view.Agreement)
    (fun f o h ha => step_agreement f o h ha) (agreement_new qmax t2Secs) hl

/-- The participant state of `u` is set and fits the arbitration state, state by state. -/
structure Floor.Agrees (f : Floor) (u : String) (st : P) : Prop where
  part : f.partOf u = some st
  not_releasing : st ≠ .releasing
  npIdle : st = .npIdle → f.g = .idle
  npTaken : st = .npTaken → f.g ≠ .idle
  npSends : st = .npSends → ((f.part u).gTaken = true ↔ f.g ≠ .idle)
  permitted : st = .permitted → f.g = .taken ∧ f.speaker = some u
  prevoke : st = .prevoke → f.holder = some u

theorem View.Agreement.agrees {f : Floor} (h : f.view.Agreement) {u : String}
    (hu : u ∈ f.members) : ∃ st, f.Agrees u st := by
  have hv := h.member u hu
  obtain ⟨st, hst⟩ := Option.isSome_iff_exists.1 (h.set hu).1
  have hpart : f.partOf u = some st := by rw [Floor.partOf_eq]; exact hst
  rw [View.Agrees, hst] at hv
  cases st with
  | releasing => exact hv.elim
  | npIdle => exact ⟨_, hpart, by simp, fun _ => hv.1, by simp, by simp, by simp, by simp⟩
  | npTaken => exact ⟨_, hpart, by simp, by simp, fun _ => hv.1, by simp, by simp, by simp⟩
  | npSends => exact ⟨_, hpart, by simp, by simp, by simp, fun _ => hv, by simp, by simp⟩
  | permitted => exact ⟨_, hpart, by simp, by simp, by simp, by simp, fun _ => hv, by simp⟩
  | prevoke => exact ⟨_, hpart, by simp, by simp, by simp, by simp, by simp, fun _ => hv⟩

theorem Floor.Agrees.of_permitted {f : Floor} {u : String} {st : P} (h : f.Agrees u st)
    (hp : f.partOf u = some .permitted) : f.g = .taken ∧ f.speaker = some u :=
  h.permitted (Option.some.inj (h.part.symm.trans hp))

/-- **Agreement and mutual exclusion.** In every state that any run of public operations reaches,
each member's participant state fits the arbitration state; at most one member is permitted to
speak, and none while the floor is idle or being revoked. -/
theorem members_agree (qmax t2Secs : Nat) (ops : List Op)
    (hl : machine.Legal (Floor.new qmax t2Secs) ops) :
    let f := machine.exec (Floor.new qmax t2Secs) ops
    (∀ u ∈ f.members, ∃ st, f.Agrees u st) ∧
    (∀ u ∈ f.members, ∀ w ∈ f.members, f.partOf u = some .permitted →
      f.partOf w = some .permitted → u = w) ∧
    (f.g = .idle ∨ f.g = .prevoke → ∀ u ∈ f.members, f.partOf u ≠ some .permitted) := by
  intro f
  have h : f.view.Agreement := run_agreement hl
  refine ⟨fun u hu => h.agrees hu, ?_, ?_⟩
  · intro u hu w hw hpu hpw
    obtain ⟨_, hau⟩ := h.agrees hu
    obtain ⟨_, haw⟩ := h.agrees hw
    exact Option.some.inj ((hau.of_permitted hpu).2.symm.trans (haw.of_permitted hpw).2)
  · intro hg u hu hp
    obtain ⟨_, ha⟩ := h.agrees hu
    rcases hg with hg | hg <;> rw [(ha.of_permitted hp).1] at hg <;> simp at hg

/-- Two users join, `a` asks for the floor and gets it, then loses it to `b` and leaves. -/
def preemptRun : List Op :=
  [.wsJoin "a" true, .wsJoin "b" true, .wsPubSelect "a", .wsPubSelect "b",
    .serverRx "a" { t := .request } true 0, .rtp "a",
    .serverRx "b" { t := .request, n := 5 } true 0, .t8 "a", .wsLeave "a", .t3]

theorem members_agree_preempt :
    machine.Legal (Floor.new 10 30) preemptRun ∧
    (let f := machine.exec (Floor.new 10 30) preemptRun
     (∀ u ∈ f.members, ∃ st, f.Agrees u st) ∧
     (∀ u ∈ f.members, ∀ w ∈ f.members, f.partOf u = some .permitted →
       f.partOf w = some .permitted → u = w) ∧
     (f.g = .idle ∨ f.g = .prevoke → ∀ u ∈ f.members, f.partOf u ≠ some .permitted)) :=
  ⟨by decide, members_agree 10 30 preemptRun (by decide)⟩

end OxlensSfu.Flr
