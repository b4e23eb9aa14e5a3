import OxlensSfu.Lib.Machine
import OxlensSfu.Floor.View

/-!
# The moves of the floor

`Move o v fx v'` says everything an operation can do to the view of a floor: a dozen kinds of
moves, each with the guards the code checks before it. `Floor.move` is the only place where the
branches of the operations are walked through; every invariant of the view is then a case
analysis over `Move`.

The moves do not presuppose the invariants. The one exception is `View.Held`: while the floor is
taken there is a speaker and while it is being revoked there is a user it is revoked from, so
that the code's `unwrap_or_default` is never taken.
-/

namespace OxlensSfu.Flr

open Std

/-- While the floor is not idle the state names its holder. -/
def View.Held (v : View) : Prop := v.g ≠ .idle → v.holder.isSome

/-- The record changed in nothing that arbitration reads, save that `pubRoom` and `perm` may have
been set. -/
structure Part.Keeps (p p' : Part) : Prop where
  part : p'.part = p.part
  gTaken : p'.gTaken = p.gTaken
  pubRoom : p.pubRoom → p'.pubRoom
  perm : p.perm → p'.perm

/-- The record is in the same state, though it may have lost `pubRoom` or `perm`. -/
structure Part.Like (p p' : Part) : Prop where
  part : p'.part = p.part
  gTaken : p'.gTaken = p.gTaken

theorem Part.Keeps.refl (p : Part) : p.Keeps p := ⟨rfl, rfl, id, id⟩

theorem Part.Keeps.like {p p' : Part} (h : p.Keeps p') : p.Like p' := ⟨h.part, h.gTaken⟩

/-- `u` may ask for the floor here: what `serverRx` checks of a `REQUEST`. -/
structure View.MayAsk (v : View) (u : String) : Prop where
  member : u ∈ v.members
  pubRoom : (v.part u).pubRoom
  perm : (v.part u).perm

/-- The operation delivers RTP of `u`. -/
def Op.RtpOf (u : String) : Op → Prop
  | .rtp x => x = u
  | .serverRx x m _ _ => x = u ∧ m.t = .rtp
  | _ => False

/-- The effects of giving the floor up. -/
def View.Freed (v : View) (fx : List Fx) : Prop :=
  match v.queue with
  | [] => ∃ prev, fx = [.release prev]
  | w :: _ => fx = [.bind w.u]

/-- What `away` does. -/
inductive Away (u : String) : View → List Fx → View → Prop
  | speaker {v : View} {fx : List Fx} : v.g = .taken → v.speaker = some u → v.Freed fx →
      Away u v fx v.idleEnter
  | revoking {v : View} : v.g = .prevoke → v.revoking = some u → Away u v [] v
  | queued {v : View} : v.holder ≠ some u → Away u v [] { v with queue := v.queue.dequeue u }
  | other {v : View} : v.holder ≠ some u → v.queue.inQ u = false → Away u v [] v

/-- What an operation does to the view. -/
inductive Move (o : Op) : View → List Fx → View → Prop
  | tune {v : View} (u : String) (f : Part → Part) : (v.part u).Keeps (f (v.part u)) →
      Move o v [] (v.upd u f)
  | stray {v : View} (u : String) : o.RtpOf u → u ∈ v.members →
      (v.part u).part = some .npIdle ∨ (v.part u).part = some .npTaken →
      Move o v []
        (v.upd u fun p => { p with rcause := Revoke.noPermission }.enter .npSends)
  | settle {v : View} (u : String) : u ∈ v.members →
      (v.part u).part ∉ [some .npIdle, some .npTaken, some .permitted, some .prevoke] →
      Move o v [] (v.upd u fun p => p.enter (if p.gTaken then .npTaken else .npIdle))
  | enqueue {v : View} (u : String) (p : Nat) : v.MayAsk u → (v.part u).part = some .npTaken →
      v.queue.inQ u = false → v.queue.length < v.qmax →
      Move o v [] { v with queue := v.queue.insertQ ⟨u, p, false⟩ }
  | dequeue {v : View} (u : String) (f : Part → Part) : (v.part u).Like (f (v.part u)) →
      ((v.part u).Keeps (f (v.part u)) ∨ ¬ (v.g = .taken ∧ v.speaker = some u)) →
      Move o v [] ({ v with queue := v.queue.dequeue u }.upd u f)
  | lower {v : View} (u : String) (f : Part → Part) : (v.part u).Like (f (v.part u)) →
      ¬ (v.g = .taken ∧ v.speaker = some u) → v.queue.inQ u = false → Move o v [] (v.upd u f)
  | preempt {v : View} (u sp : String) (p : Nat) : v.MayAsk u →
      (v.part u).part = some .npTaken → v.queue.inQ u = false → v.queue.preQ = false →
      v.g = .taken → v.speaker = some sp →
      Move o v [] ({ v with queue := ⟨u, p, true⟩ :: v.queue }.prevokeEnter sp Revoke.preempted)
  | revoke {v : View} (u : String) (f : Part → Part) (cause : Nat) :
      (v.part u).Like (f (v.part u)) → v.g = .taken → v.speaker = some u →
      Move o v [] ((v.upd u f).prevokeEnter u cause)
  | free {v : View} {fx : List Fx} (u : String) (f : Part → Part) :
      (v.part u).Keeps (f (v.part u)) → v.holder = some u → v.Freed fx →
      Move o v fx (v.upd u f).idleEnter
  | grant {v : View} (u : String) (p : Nat) : v.MayAsk u → (v.part u).part = some .npIdle →
      v.g = .idle →
      Move o v [.bind u] { v with g := .taken, speaker := some u, sprio := p : View }.enterTaken
  | regrant {v : View} (u : String) (n : Nat) : v.g = .taken → v.speaker = some u →
      Move o v [] (v.hear u .granted n)
  | again {v : View} : v.g = .idle → Move o v [] (v.hearAll .idle 0 none)
  | pubAway {v : View} {fx : List Fx} {v' : View} (u : String) :
      Away u (v.upd u fun p => { p with pubRoom := false }) fx v' → Move o v fx v'
  | leave {v : View} {fx : List Fx} {v' : View} (u : String) :
      Away u (v.upd u fun p => { p with pubRoom := false }) fx v' →
      Move o v fx ({ v' with members := v'.members.erase u }.upd u
        fun p => { p with retry := false, part := some .releasing })
  | join {v : View} (u : String) (perm : Bool) : o = .wsJoin u perm →
      ¬ (v.g = .prevoke ∧ v.revoking = some u) →
      Move o v [] ({ v with members := v.members.insert u }.upd u
        (Part.joined v.holder.isSome perm))
  | rejoin {v : View} {fx : List Fx} (u : String) (perm : Bool) : o = .wsJoin u perm →
      v.g = .prevoke → v.revoking = some u → v.Freed fx →
      Move o v fx ({ v.idleEnter with members := v.idleEnter.members.insert u }.upd u
        (Part.joined v.idleEnter.holder.isSome perm))

/-- A move that changes nothing. -/
theorem Move.stay (o : Op) (v : View) : Move o v [] v := by
  have h := Move.tune (o := o) (v := v) "" id (Part.Keeps.refl _)
  rwa [View.upd_of_fix rfl] at h

/-! ## The operations are moves -/

section Moves

variable {o : Op} {s : St} {u : String}

/-- The helper takes the view of `s` to the view of `s'` by a move, and appends its effects. -/
def Moves (o : Op) (s s' : St) : Prop := ∃ fx, s'.r.fx = s.r.fx ++ fx ∧ Move o s.view fx s'.view

theorem Moves.of_same {s s' : St} (h : s.Same s') (hm : Move o s.view [] s'.view) :
    Moves o s s' := ⟨[], by simp [h.fx], hm⟩

theorem Moves.of_view {s s' : St} (h : s.Same s') (hv : s'.view = s.view) : Moves o s s' :=
  .of_same h (hv ▸ Move.stay o s.view)

theorem Moves.label (s : St) (l : String) : Moves o s (s.label l) :=
  .of_view (St.Same.label s l) rfl

/-- A message that changes nothing. -/
theorem Moves.reply (s : St) (l : String) (u : String) (t : Mt) (a : Option String) (n d : Nat) :
    Moves o s ((s.label l).send u t a n d) :=
  .of_view ((St.Same.label s l).trans (St.Same.send _ _ _ _ _ _)) rfl

/-- A move of `t`, when `s` differs from it only in messages and labels. -/
theorem Moves.of_before {s t s' : St} (hv : t.view = s.view) (hx : t.r.fx = s.r.fx)
    (h : Moves o t s') : Moves o s s' := by
  obtain ⟨fx, e, hm⟩ := h
  exact ⟨fx, by rw [e, hx], hv ▸ hm⟩

theorem idleEnter_freed (s : St) :
    ∃ fx, s.idleEnter.r.fx = s.r.fx ++ fx ∧ s.view.Freed fx := by
  cases hq : s.fl.queue with
  | nil =>
    refine ⟨_, (St.idleEnter_fl_nil hq).2, ?_⟩
    rw [View.Freed, show s.view.queue = [] from hq]
    exact ⟨_, rfl⟩
  | cons w ws =>
    refine ⟨_, (St.idleEnter_fl_cons hq).2, ?_⟩
    rw [View.Freed, show s.view.queue = w :: ws from hq]

theorem hear_fix {t : Mt} (h : t ∉ [Mt.granted, .taken, .idle, .revoke]) (n : Nat) (p : Part) :
    p.hear t n = p := by
  cases t <;> simp at h <;> rfl

theorem partA_moves_fix (s : St) (u : String) {ev : Msg}
    (h : ev.t ∉ [Mt.granted, .taken, .idle, .revoke]) : Moves o s (s.partA u ev) :=
  .of_view (St.Same.partA s u ev) (by
    rw [St.view_partA, View.hear, View.upd_of_fix (hear_fix h _ _)])

theorem enterTaken_moves {t : St} {p : Nat} (hx : t.r.fx = s.r.fx)
    (hv : t.view = { s.view with g := .taken, speaker := some u, sprio := p })
    (ha : s.view.MayAsk u) (hp : (s.view.part u).part = some .npIdle) (hg : s.view.g = .idle) :
    Moves o s t.enterTaken := by
  have hsp : t.fl.speaker = some u := congrArg View.speaker hv
  refine ⟨[.bind u], ?_, ?_⟩
  · rw [(St.enterTaken_fl t).2, hx, hsp]; rfl
  · rw [St.view_enterTaken, hv]
    exact .grant u p ha hp hg

theorem arbReqIdle_moves (p : Nat) (ha : s.view.MayAsk u)
    (hp : (s.view.part u).part = some .npIdle) : Moves o s (s.arbReqIdle u p) := by
  rw [St.arbReqIdle]
  split_ifs with hg _ _
  · exact .label _ _
  · exact .of_before rfl rfl (partA_moves_fix _ u (by simp))
  · exact .of_before rfl rfl (partA_moves_fix _ u (by simp))
  · exact enterTaken_moves rfl rfl ha hp (not_not.1 hg)

/-- Giving the floor up, after a change `f` of the record of the holder. -/
theorem idleEnter_moves {t : St} {f : Part → Part} (hx : t.r.fx = s.r.fx)
    (hv : t.view = s.view.upd u f) (hf : (s.view.part u).Keeps (f (s.view.part u)))
    (hh : s.view.holder = some u) : Moves o s t.idleEnter := by
  obtain ⟨fx, e, hfr⟩ := idleEnter_freed t
  refine ⟨fx, by rw [e, hx], ?_⟩
  rw [St.view_idleEnter, hv]
  rw [hv] at hfr
  exact .free u f hf hh hfr

theorem upd_id (v : View) (u : String) : v = v.upd u id := (View.upd_of_fix rfl).symm

theorem holder_of_taken {v : View} (h : v.g = .taken ∧ v.speaker = some u) :
    v.holder = some u := by
  rw [View.holder, h.1]; exact h.2

theorem holder_of_prevoke {v : View} (h : v.g = .prevoke ∧ v.revoking = some u) :
    v.holder = some u := by
  rw [View.holder, h.1]; exact h.2

theorem holder_ne {v : View} (h₁ : ¬ (v.g = .taken ∧ v.speaker = some u))
    (h₂ : ¬ (v.g = .prevoke ∧ v.revoking = some u)) : v.holder ≠ some u := by
  rw [View.holder]
  cases hg : v.g <;> simp_all

/-- The holder `u` gives the floor up; `t` is the state with its record changed by `f`. -/
theorem arbRel_moves {t : St} {f : Part → Part} (hx : t.r.fx = s.r.fx)
    (hv : t.view = s.view.upd u f) (hf : (s.view.part u).Keeps (f (s.view.part u))) :
    Moves o s (t.arbRel u) := by
  have hg : t.fl.g = s.view.g := congrArg View.g hv
  have hsp : t.fl.speaker = s.view.speaker := congrArg View.speaker hv
  have hrv : t.fl.revoking = s.view.revoking := congrArg View.revoking hv
  rw [St.arbRel]
  rw [hg, hsp, hrv]
  split_ifs with h h'
  · exact idleEnter_moves hx hv hf (holder_of_taken h)
  · exact idleEnter_moves hx hv hf (holder_of_prevoke h')
  · refine ⟨[], by simpa [St.label] using hx, ?_⟩
    rw [St.view_label, hv]
    exact .tune u f hf

theorem arbRtp_moves (s : St) (u : String) : Moves o s (s.arbRtp u) := by
  rw [St.arbRtp]
  split_ifs
  · exact ⟨[], by simp [St.label], Move.stay o s.view⟩
  · exact .label _ _
  · exact .label _ _

theorem arbReqPermitted_moves (s : St) (u : String) (d : Nat) :
    Moves o s (s.arbReqPermitted u d) := by
  rw [St.arbReqPermitted]
  split_ifs with h
  · refine .of_same ((St.Same.label _ _).trans (St.Same.partA _ _ _)) ?_
    rw [St.view_partA]
    exact .regrant u _ h.1 h.2
  · exact .label _ _

theorem revoke3_moves (hr : o.RtpOf u) (hu : u ∈ s.view.members)
    (hp : (s.view.part u).part = some .npIdle ∨ (s.view.part u).part = some .npTaken) :
    Moves o s (s.revoke3 u) := by
  refine .of_same ((St.Same.p _ _ _).trans (St.Same.sendE _ _ _ _)) ?_
  rw [St.revoke3, St.view_sendE, St.view_p, View.upd_upd]
  exact .stray u hr hu hp

theorem arbPreempt_moves (p : Nat) (hh : s.view.Held) (ha : s.view.MayAsk u)
    (hp : (s.view.part u).part = some .npTaken) (hq : s.fl.queue.inQ u = false)
    (hpre : s.fl.queue.preQ = false) : Moves o s (s.arbPreempt u p) := by
  rw [St.arbPreempt]
  split_ifs with hg
  · have hsome : s.fl.speaker.isSome := by
      have h := hh (show s.view.g ≠ .idle by rw [show s.view.g = .taken from hg]; simp)
      rwa [View.holder, show s.view.g = .taken from hg] at h
    obtain ⟨sp, hsp⟩ := Option.isSome_iff_exists.1 hsome
    obtain ⟨-, hx⟩ := St.prevokeEnter_fl
      { s.label "FLR.S.G.TAKEN.preempt" with
        fl := { s.fl with queue := ⟨u, p, true⟩ :: s.fl.queue } } sp Revoke.preempted
    refine ⟨[], ?_, ?_⟩
    · simp only [St.label, hsp, Option.getD_some, (St.Same.partA _ _ _).fx] at hx ⊢
      simpa using hx
    · simp only [St.view_partA, St.view_prevokeEnter, St.label, hsp, Option.getD_some]
      rw [View.hear, View.upd_of_fix (hear_fix (by simp) _ _)]
      exact .preempt u sp p ha hp hq hpre hg hsp
  · exact .label _ _

theorem takenReq_moves (p : Nat) (hh : s.view.Held) (ha : s.view.MayAsk u)
    (hp : (s.view.part u).part = some .npTaken) : Moves o s (s.takenReq u p) := by
  rw [St.takenReq]
  split_ifs with _ hq hpre _ hlen
  · exact .reply _ _ _ _ _ _ _
  · exact .reply _ _ _ _ _ _ _
  · exact .of_before rfl rfl (arbPreempt_moves p hh ha hp (Bool.not_eq_true _ ▸ hq)
      (Bool.not_eq_true' _ ▸ hpre.2))
  · exact .label _ _
  · exact .reply _ _ _ _ _ _ _
  · exact ⟨[], by simp [St.label, St.send, St.insertQ],
      .enqueue u p ha hp (Bool.not_eq_true _ ▸ hq) (Nat.lt_of_not_ge hlen)⟩

/-- A message of `u`: what `serverRx` has checked by then are the hypotheses. -/
theorem partC_moves (ev : Msg) (d : Nat) (hh : s.view.Held) (hu : u ∈ s.view.members)
    (ha : ev.t = .request → s.view.MayAsk u) (hr : ev.t = .rtp → o.RtpOf u) :
    Moves o s (s.partC u ev d) := by
  have hpart : s.fl.partOf u = (s.view.part u).part := s.fl.partOf_eq u
  rw [St.partC]
  rw [hpart]
  split
  · next hp ht => exact .of_before rfl rfl (arbReqIdle_moves _ (ha ht) hp)
  · refine ⟨[], by simp [St.label, St.send, St.dequeue], ?_⟩
    have h : Move o s.view [] ({ s.view with queue := s.view.queue.dequeue u }.upd u id) :=
      .dequeue u id ⟨rfl, rfl⟩ (.inl (Part.Keeps.refl _))
    rwa [View.upd_of_fix rfl] at h
  · next hp ht =>
    split_ifs
    · exact .of_before rfl rfl (revoke3_moves (hr ht) hu (.inl hp))
    · exact .label _ _
  · exact .label _ _
  · next hp ht => exact .of_before rfl rfl (takenReq_moves _ hh (ha ht) hp)
  · refine ⟨[], by simp [St.label, St.send, St.p, St.dequeue], ?_⟩
    rw [St.view_send, St.view_dequeue, St.view_p]
    exact .dequeue u (fun p => { p with c21 := 1 }) ⟨rfl, rfl⟩ (.inl ⟨rfl, rfl, id, id⟩)
  · split_ifs
    · refine .of_same ((St.Same.label _ _).trans (St.Same.p _ _ _)) ?_
      rw [St.view_p]
      exact .tune u _ ⟨rfl, rfl, id, id⟩
    · exact .label _ _
  · exact .reply _ _ _ _ _ _ _
  · next hp ht => exact .of_before rfl rfl (revoke3_moves (hr ht) hu (.inr hp))
  · exact .label _ _
  · refine arbRel_moves (f := fun p => { p with released := true }) rfl ?_ ⟨rfl, rfl, id, id⟩
    rw [St.view_send, St.view_p, St.view_label]
  · exact .of_before rfl rfl (arbReqPermitted_moves _ u d)
  · exact .of_before rfl rfl (arbRtp_moves _ u)
  · exact .label _ _
  · exact arbRel_moves (f := id) rfl (upd_id _ u) (Part.Keeps.refl _)
  · exact .of_before rfl rfl (arbRtp_moves _ u)
  · exact .label _ _
  · next h₁ h₂ h₃ h₄ ht =>
    have hm : Move o s.view [] (s.view.upd u
        fun p => p.enter (if p.gTaken then .npTaken else .npIdle)) :=
      .settle u hu (by simp_all)
    split_ifs with hgt
    · refine .of_same (((St.Same.label _ _).trans (St.Same.send _ _ _ _ _ _)).trans
        (St.Same.sendE _ _ _ _)) ?_
      rw [St.view_sendE, St.view_send, St.view_label]
      rwa [View.upd_congr (g := Part.enter .npTaken) (by
        rw [show (s.view.part u).gTaken = true from hgt]; rfl)] at hm
    · refine .of_same (((St.Same.label _ _).trans (St.Same.send _ _ _ _ _ _)).trans
        (St.Same.sendE _ _ _ _)) ?_
      rw [St.view_sendE, St.view_send, St.view_label]
      rwa [View.upd_congr (g := Part.enter .npIdle) (by
        rw [show (s.view.part u).gTaken = false from Bool.not_eq_true _ ▸ hgt]; rfl)] at hm
  · exact .label _ _
  · exact .label _ _

/-! ## The public operations -/

/-- `u` goes away; `t` is the state with its publishing room cleared. -/
theorem away_moves (t : St) (u : String) :
    ∃ fx, (t.away u).r.fx = t.r.fx ++ fx ∧ Away u t.view fx (t.away u).view := by
  rw [St.away]
  split_ifs with h h' hq
  · obtain ⟨fx, e, hfr⟩ := idleEnter_freed
      ((t.label "FLR.S.G.TAKEN.client_release").setPrev (some u))
    refine ⟨fx, e, ?_⟩
    rw [St.view_idleEnter]
    exact .speaker h.1 h.2 hfr
  · exact ⟨[], by simp [St.label], .revoking h'.1 h'.2⟩
  · exact ⟨[], by simp [St.label, St.dequeue], .queued (holder_ne h h')⟩
  · exact ⟨[], by simp [St.label], .other (holder_ne h h') (Bool.not_eq_true _ ▸ hq)⟩

theorem serverRx_moves (f : Floor) (u : String) (m : Msg) (half : Bool) (d : Nat)
    (hh : f.view.Held) : Moves (.serverRx u m half d) f.start (f.serverRx u m half d) := by
  by_cases hu : u ∈ f.members
  · rw [Floor.serverRx]
    simp only [hu, not_true_eq_false, false_and, if_false]
    split_ifs with _ _ hpub hperm
    · exact .label _ _
    · exact .reply _ _ _ _ _ _ _
    · exact .reply _ _ _ _ _ _ _
    · exact .reply _ _ _ _ _ _ _
    · refine partC_moves m d hh hu (fun ht => ⟨hu, ?_, ?_⟩) fun ht => ⟨rfl, ht⟩
      · show (f.part u).pubRoom = true
        simpa [ht] using hpub
      · show (f.part u).perm = true
        simpa [ht] using hperm
  · rw [Floor.serverRx]
    simp only [hu, not_false_eq_true, true_and, if_true]
    split_ifs
    · exact .label _ _
    · exact .reply _ _ _ _ _ _ _
    · exact .label _ _

theorem rtp_moves (f : Floor) (u : String) (hh : f.view.Held) :
    Moves (.rtp u) f.start (f.rtp u) := by
  rw [Floor.rtp]
  by_cases hu : u ∈ f.members
  · rw [if_neg (not_not.2 hu)]
    exact partC_moves _ 0 hh hu (fun ht => by simp at ht) fun _ => rfl
  · rw [if_pos hu]
    exact .label _ _

theorem ready_moves (f : Floor) (u : String) : Moves o f.start (f.ready u) := by
  rw [Floor.ready]
  split_ifs
  · exact .label _ _
  · exact .reply _ _ _ _ _ _ _
  · exact .reply _ _ _ _ _ _ _

/-- The floor is taken from its speaker; `t` is the state with its record changed by `f`. -/
theorem prevokeEnter_moves {t : St} {f : Part → Part} (cause : Nat) (hx : t.r.fx = s.r.fx)
    (hv : t.view = s.view.upd u f) (hf : (s.view.part u).Like (f (s.view.part u)))
    (hg : s.view.g = .taken) (hs : s.view.speaker = some u) :
    Moves o s (t.prevokeEnter u cause) := by
  refine ⟨[], by rw [(St.prevokeEnter_fl t u cause).2, hx, List.append_nil], ?_⟩
  rw [St.view_prevokeEnter, hv]
  exact .revoke u f cause hf hg hs

theorem permDown_moves (f : Floor) (u : String) : Moves o f.start (f.permDown u) := by
  rw [Floor.permDown]
  split_ifs with h hq
  · refine prevokeEnter_moves (f := fun p => { p with perm := false }) _ rfl ?_ ⟨rfl, rfl⟩
      h.1 h.2
    rw [St.view_label, St.view_p]
  · refine ⟨[], by rw [(St.Same.partA _ _ _).fx]; rfl, ?_⟩
    rw [St.view_partA, View.hear, View.upd_of_fix (hear_fix (by simp) _ _), St.view_dequeue,
      St.view_label, St.view_p]
    exact .dequeue u (fun p => { p with perm := false }) ⟨rfl, rfl⟩ (.inr h)
  · refine ⟨[], rfl, ?_⟩
    rw [St.view_label, St.view_p]
    exact .lower u _ ⟨rfl, rfl⟩ h (Bool.not_eq_true _ ▸ hq)

theorem p_moves (f : Floor) (u : String) (l : String) {k : Part → Part}
    (hk : (f.view.part u).Keeps (k (f.view.part u))) :
    Moves o f.start ((f.start.label l).p u k) := by
  refine ⟨[], rfl, ?_⟩
  rw [St.view_p]
  exact .tune u k hk

theorem wsPubAway_moves (f : Floor) (u : String) : Moves o f.start (f.wsPubAway u) := by
  obtain ⟨fx, e, h⟩ := away_moves
    ((f.start.label "FLR.S.ws.pub_away").p u fun p => { p with pubRoom := false }) u
  refine ⟨fx, e, .pubAway u ?_⟩
  rwa [St.view_p] at h

theorem wsLeave_moves (f : Floor) (u : String) : Moves o f.start (f.wsLeave u) := by
  obtain ⟨fx, e, h⟩ := away_moves
    ((f.start.label "FLR.S.ws.leave").p u fun p => { p with pubRoom := false }) u
  refine ⟨fx, e, ?_⟩
  rw [St.view_p] at h
  rw [Floor.wsLeave, St.view_p]
  exact .leave u h

theorem wsJoin_moves (f : Floor) (u : String) (perm : Bool) :
    Moves (.wsJoin u perm) f.start (f.wsJoin u perm) := by
  rw [Floor.wsJoin]
  split_ifs with h
  · obtain ⟨fx, e, hfr⟩ := idleEnter_freed
      ((f.start.label "FLR.S.ws.join_revoking").setPrev f.revoking)
    refine ⟨fx, e, ?_⟩
    rw [St.view_enrol, St.view_idleEnter]
    exact .rejoin u perm rfl h.1 h.2 hfr
  · refine ⟨[], rfl, ?_⟩
    rw [St.view_enrol]
    exact .join u perm rfl h

theorem mem_armedServer {f : Floor} :
    (Timer.T1 ∈ f.armedServer ↔ f.g ≠ .idle) ∧
    (Timer.T2 ∈ f.armedServer ↔ f.g = .taken ∧ f.firstRtp) ∧
    (Timer.T3 ∈ f.armedServer ↔ f.g = .prevoke) ∧
    (Timer.T7 ∈ f.armedServer ↔ f.g = .idle ∧ f.idleBcast ∧ f.c7 < Cap.c7) ∧
    (Timer.T20 ∈ f.armedServer ↔ f.g = .taken ∧ f.succ ∧ !f.rtpSeen ∧ f.c20 ≤ Cap.c20) := by
  cases hg : f.g <;> simp [Floor.armedServer, hg]

/-- The holder that `Held` promises. -/
theorem View.Held.exists {v : View} (h : v.Held) (hg : v.g ≠ .idle) : ∃ u, v.holder = some u :=
  Option.isSome_iff_exists.1 (h hg)

theorem t1_moves (f : Floor) (hh : f.view.Held) (hg : f.g ≠ .idle) : Moves o f.start f.t1 := by
  obtain ⟨u, hu⟩ := hh.exists hg
  rw [Floor.t1]
  split_ifs <;>
    exact idleEnter_moves (u := u) (f := id) rfl (upd_id _ u) (Part.Keeps.refl _) hu

theorem t3_moves (f : Floor) (hh : f.view.Held) (hg : f.g = .prevoke) :
    Moves o f.start f.t3 := by
  obtain ⟨u, hu⟩ := hh.exists (v := f.view) (by rw [show f.view.g = .prevoke from hg]; simp)
  exact idleEnter_moves (u := u) (f := id) rfl (upd_id _ u) (Part.Keeps.refl _) hu

theorem exists_speaker {f : Floor} (hh : f.view.Held) (hg : f.g = .taken) :
    ∃ u, f.speaker = some u := by
  obtain ⟨u, hu⟩ := hh.exists (v := f.view) (by rw [show f.view.g = .taken from hg]; simp)
  rw [Floor.view_holder, Floor.holder, hg] at hu
  exact ⟨u, hu⟩

theorem t2_moves (f : Floor) (hh : f.view.Held) (hg : f.g = .taken) : Moves o f.start f.t2 := by
  obtain ⟨u, hu⟩ := exists_speaker hh hg
  rw [Floor.t2]
  rw [show f.speaker.getD "" = u by rw [hu]; rfl]
  refine prevokeEnter_moves (f := fun p => { p with retry := true }) _ rfl ?_ ⟨rfl, rfl⟩ hg hu
  rw [St.view_p]
  rfl

theorem t20_moves (f : Floor) (hh : f.view.Held) (hg : f.g = .taken) : Moves o f.start f.t20 := by
  obtain ⟨u, hu⟩ := exists_speaker hh hg
  rw [Floor.t20]
  rw [show f.speaker.getD "" = u by rw [hu]; rfl]
  split_ifs
  · refine ⟨[], by rw [(St.Same.partA _ _ _).fx]; rfl, ?_⟩
    rw [St.view_partA]
    exact .regrant u _ hg hu
  · exact ⟨[], rfl, Move.stay o f.view⟩

theorem t7_moves (f : Floor) (hg : f.g = .idle) : Moves o f.start f.t7 := by
  refine ⟨[], by rw [Floor.t7, (St.Same.fan _ _ _).fx]; rfl, ?_⟩
  rw [Floor.t7, St.view_fan]
  exact .again hg

theorem t8_moves (f : Floor) (u : String) : Moves o f.start (f.t8 u) := by
  rw [Floor.t8]
  split_ifs <;>
  · refine ⟨[], rfl, ?_⟩
    rw [St.view_send, St.view_label, St.view_p]
    exact .tune u _ ⟨rfl, rfl, id, id⟩

theorem t21_moves (f : Floor) (u : String) : Moves o f.start (f.t21 u) := by
  rw [Floor.t21]
  split_ifs
  · refine ⟨[], rfl, ?_⟩
    rw [St.view_send, St.view_label, St.view_p]
    exact .tune u _ ⟨rfl, rfl, id, id⟩
  · refine ⟨[], rfl, ?_⟩
    rw [St.view_label, St.view_p]
    exact .tune u _ ⟨rfl, rfl, id, id⟩

end Moves

/-- **Every operation is a move.** -/
theorem Floor.move (f : Floor) (o : Op) (hh : f.view.Held) (ha : o.Armed f) :
    Move o f.view (f.apply o).r.fx (f.apply o).view := by
  have h : Moves o f.start (f.apply o) := by
    cases o with
    | serverRx u m half d => exact serverRx_moves f u m half d hh
    | ready u => exact ready_moves f u
    | permDown u => exact permDown_moves f u
    | permUp u => exact p_moves f u _ ⟨rfl, rfl, id, fun _ => rfl⟩
    | wsPubSelect u => exact p_moves f u _ ⟨rfl, rfl, fun _ => rfl, id⟩
    | wsPubAway u => exact wsPubAway_moves f u
    | wsLeave u => exact wsLeave_moves f u
    | wsJoin u perm => exact wsJoin_moves f u perm
    | rtp u => exact rtp_moves f u hh
    | t1 => exact t1_moves f hh (mem_armedServer.1.1 ha)
    | t2 => exact t2_moves f hh (mem_armedServer.2.1.1 ha).1
    | t3 => exact t3_moves f hh (mem_armedServer.2.2.1.1 ha)
    | t7 => exact t7_moves f (mem_armedServer.2.2.2.1.1 ha).1
    | t20 => exact t20_moves f hh (mem_armedServer.2.2.2.2.1 ha).1
    | t8 u => exact t8_moves f u
    | t9 u => exact p_moves f u _ ⟨rfl, rfl, id, id⟩
    | t21 u => exact t21_moves f u
  obtain ⟨fx, e, hm⟩ := h
  rw [e]
  exact hm

/-- The floor as a machine: its actions are the public operations, timers only while armed. -/
def machine : Machine Floor Op where
  ok f o := o.Armed f
  next f o := (f.apply o).fl

instance : ∀ f o, Decidable (machine.ok f o) := fun f o => inferInstanceAs (Decidable (o.Armed f))

end OxlensSfu.Flr
