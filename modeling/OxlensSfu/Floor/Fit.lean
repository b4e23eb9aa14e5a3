import OxlensSfu.Floor.Timers

/-!
# What the floor keeps and says

The wire has a byte for a priority or a cause and two for a number, and it carries names. What the
floor stores of these comes from the messages and the users of its operations, so bounds on those
are bounds on what is stored (`Floor.Fit`) and on what is said (`Msg.Fit`). `apply_fit` says that
every operation keeps them.

`TAKEN` is said only while somebody holds the floor, which for a user who waits follows from the
agreement of the two machines, and for a timer from `View.Outside`: who is no member does not wait.
-/

namespace OxlensSfu.Flr

open Std

/-- The server sends messages of this type. -/
def Mt.outgoing : Mt → Bool
  | .granted | .taken | .deny | .idle | .revoke | .qinfo | .ack => true
  | .request | .release | .qposReq | .rtp => false

/-- What may be said with a message of type `t` about users of `U`: the name `a`, the number `n`
and `d`, which is the number of a `TAKEN` or `IDLE` and the priority of a `QINFO`. -/
structure Speech (U : String → Prop) (t : Mt) (a : Option String) (n d : Nat) : Prop where
  outgoing : t.outgoing = true
  name : ∀ u, a = some u → U u
  unnamed : t.seqd = false → a = none
  named : t = .taken → a ≠ none
  number : t ≠ .qinfo → n ≤ 255
  priority : t = .qinfo → d ≤ 255
  seq : t.seqd = true → d < seqWrap

def Msg.Fit (U : String → Prop) (m : Msg) : Prop :=
  Speech U m.t m.a m.n (if m.t.seqd then m.q else m.d)

/-- What the floor stores of what it will say. -/
structure Floor.Fit (U : String → Prop) (f : Floor) : Prop where
  speaker : ∀ u, f.speaker = some u → U u
  revoking : ∀ u, f.revoking = some u → U u
  prev : ∀ u, f.prev = some u → U u
  queue : ∀ w ∈ f.queue, U w.u ∧ w.p ≤ 255
  sprio : f.sprio ≤ 255
  rprio : f.rprio ≤ 255
  rcause : ∀ u, (f.part u).rcause ≤ 255
  seq : f.seq < seqWrap

structure St.Fit (U : String → Prop) (s : St) : Prop where
  fl : s.fl.Fit U
  out : ∀ o ∈ s.r.out, o.m.Fit U

theorem Floor.Fit.holder {U : String → Prop} {f : Floor} (h : f.Fit U) {u : String}
    (hu : f.holder = some u) : U u := by
  rw [Floor.holder] at hu
  split at hu
  · exact h.speaker u hu
  · exact h.revoking u hu
  · cases hu

namespace Speech

variable {U : String → Prop} {t : Mt} {a : Option String} {n d : Nat}

/-- A message with a number in `d` has no other. -/
theorem zero (h : Speech U t a n d) : Speech U t a 0 d :=
  { h with number := fun _ => Nat.zero_le _ }

/-- Any other message names nobody, and the code is free to fill `d`. -/
theorem plain (h : Speech U t a n d) (ht : t.seqd = false) (hq : t ≠ .qinfo) (d' : Nat) :
    Speech U t none n d' :=
  { h with
    name := nofun
    unnamed := fun _ => rfl
    named := fun e => by
      rw [e] at ht
      cases ht
    priority := fun e => absurd e hq
    seq := fun e => by
      rw [ht] at e
      cases e }

end Speech

/-! ## The helpers -/

namespace St.Fit

variable {U : String → Prop} {s : St} (h : s.Fit U)

include h

theorem label (l : String) : (s.label l).Fit U := ⟨h.fl, h.out⟩

theorem fx (e : Fx) : (s.fx e).Fit U := ⟨h.fl, h.out⟩

/-- A change that does not touch what will be said. -/
theorem of_eq {s' : St} (hout : s'.r.out = s.r.out) (hfl : s'.fl.Fit U) : s'.Fit U :=
  ⟨hfl, hout ▸ h.out⟩

theorem p (u : String) {f : Part → Part} (hf : (f (s.fl.part u)).rcause ≤ 255) :
    (s.p u f).Fit U := by
  refine ⟨{ h.fl with rcause := fun x => ?_ }, h.out⟩
  have hx := congrFun (part_insert s.fl u (f (s.fl.part u))) x
  rw [show (s.p u f).fl.part x = _ from hx]
  by_cases e : x = u
  · subst e
    rw [Function.update_self]
    exact hf
  · rw [Function.update_of_ne e]
    exact h.fl.rcause x

theorem dequeue (u : String) : (s.dequeue u).Fit U :=
  ⟨{ h.fl with queue := fun w hw => h.fl.queue w (List.mem_of_mem_filter hw) }, h.out⟩

theorem insertQ {w : Waiter} (hu : U w.u) (hp : w.p ≤ 255) : (s.insertQ w).Fit U := by
  refine ⟨{ h.fl with queue := fun x hx => ?_ }, h.out⟩
  rcases List.mem_cons.1 ((Queue.insertQ_perm w s.fl.queue).mem_iff.1 hx) with rfl | hx
  · exact ⟨hu, hp⟩
  · exact h.fl.queue x hx

theorem setPrev {u : Option String} (hu : ∀ x, u = some x → U x) : (s.setPrev u).Fit U :=
  ⟨{ h.fl with prev := hu }, h.out⟩

theorem send (u : String) {t : Mt} {a : Option String} {n d : Nat} (hm : Speech U t a n d) :
    (s.send u t a n d).Fit U := by
  have hnext : (s.fl.seq + 1) % seqWrap < seqWrap := Nat.mod_lt _ (by decide)
  refine ⟨{ h.fl with seq := ?_ }, fun o ho => ?_⟩
  · show (if t.seqd && d == 0 then (s.fl.seq + 1) % seqWrap else s.fl.seq) < seqWrap
    split
    · exact hnext
    · exact h.fl.seq
  · rcases List.mem_append.1 ho with ho | ho
    · exact h.out o ho
    · obtain rfl := List.mem_singleton.1 ho
      refine { hm with priority := fun ht => ?_, seq := fun ht => ?_ }
      · obtain rfl : t = .qinfo := ht
        exact hm.priority rfl
      · show (if t.seqd then _ else _) < seqWrap
        rw [if_pos ht]
        dsimp only
        split_ifs
        · exact hnext
        · exact hm.seq ht

theorem enterR (u : String) (st : P) : (s.enterR u st).Fit U := by
  cases st <;> exact (h.p u (h.fl.rcause u)).label _

theorem sendE (u : String) (st : P) {m : Msg} (hm : Speech U m.t m.a m.n m.d) :
    (s.sendE u st m).Fit U := (h.enterR u st).send u hm

/-- A user hears of an event, which the server may say. -/
theorem partA (u : String) {ev : Msg} (hev : ev.Fit U) : (s.partA u ev).Fit U := by
  obtain ⟨t, a, n, d, q⟩ := ev
  have hkeep : ∀ l, (s.label l).Fit U := h.label
  cases t with
  | request | release | qposReq | rtp => exact absurd hev.outgoing (by simp [Mt.outgoing])
  | qinfo =>
    obtain rfl : a = none := hev.unnamed rfl
    exact (hkeep _).send u hev
  | deny => exact (hkeep _).send u (hev.plain rfl (by simp) 0)
  | granted =>
    have hsay : Speech U .granted none n d := hev.plain rfl (by simp) d
    rcases hp : s.fl.partOf u with _ | (_ | _ | _ | _ | _ | _) <;> simp only [St.partA, hp]
    case some.npIdle | some.npTaken => exact (hkeep _).sendE u .permitted hsay
    case some.permitted => exact (hkeep _).send u hsay
    all_goals exact hkeep _
  | taken =>
    have hsay : Speech U .taken a 0 q := hev.zero
    rcases hp : s.fl.partOf u with _ | (_ | _ | _ | _ | _ | _) <;> simp only [St.partA, hp]
    case some.npTaken => exact ((hkeep _).p u (h.fl.rcause u)).send u hsay
    case some.releasing => exact hkeep _
    case none | some.npSends => exact (hkeep _).p u (h.fl.rcause u)
    all_goals exact (hkeep _).sendE u .npTaken hsay
  | idle =>
    have hsay : Speech U .idle a 0 q := hev.zero
    rcases hp : s.fl.partOf u with _ | (_ | _ | _ | _ | _ | _) <;> simp only [St.partA, hp]
    case some.npIdle => exact (hkeep _).send u hsay
    case some.permitted => exact (hkeep _).enterR u _
    case some.releasing => exact hkeep _
    case none | some.npSends => exact (hkeep _).p u (h.fl.rcause u)
    all_goals exact (hkeep _).sendE u .npIdle hsay
  | revoke =>
    have hsay : Speech U .revoke none n 0 := hev.plain rfl (by simp) 0
    rcases hp : s.fl.partOf u with _ | (_ | _ | _ | _ | _ | _) <;> simp only [St.partA, hp]
    case some.permitted =>
      exact ((hkeep _).p u (hev.number (by simp))).sendE u .prevoke hsay
    all_goals exact hkeep _
  | ack =>
    rcases hp : s.fl.partOf u with _ | (_ | _ | _ | _ | _ | _) <;> simp only [St.partA, hp]
    all_goals exact hkeep _

theorem foldl_partA {ev : Msg} (hev : ev.Fit U) (l : List String) :
    (l.foldl (fun s u => s.partA u ev) s).Fit U := by
  induction l generalizing s with
  | nil => exact h
  | cons u l ih => exact ih (h.partA u hev)

theorem fan {ev : Msg} (hev : ev.Fit U) (skip : Option String) : (s.fan ev skip).Fit U := by
  have hnext : (s.fl.seq + 1) % seqWrap < seqWrap := Nat.mod_lt _ (by decide)
  have hnum : (s.numbered ev).1.Fit U ∧ (s.numbered ev).2.Fit U := by
    rw [St.numbered]
    split
    · next ht =>
      refine ⟨⟨{ h.fl with seq := hnext }, h.out⟩, { hev with priority := fun e => ?_, seq := ?_ }⟩
      · rw [e] at ht
        cases ht
      · intro _
        show (if ev.t.seqd then _ else _) < seqWrap
        rw [if_pos ht]
        exact hnext
    · exact ⟨h, hev⟩
  exact hnum.1.foldl_partA hnum.2 _

/-! ## The arbitration -/

omit h in
theorem taken_fit {u : String} (hu : U u) : Msg.Fit U { t := .taken, a := some u } :=
  ⟨rfl, fun _ e => Option.some.inj e ▸ hu, nofun, nofun, fun _ => Nat.zero_le _, nofun,
    fun _ => Nat.zero_lt_succ _⟩

theorem speaker_getD (hs : s.fl.speaker.isSome) : U (s.fl.speaker.getD "") := by
  obtain ⟨u, hu⟩ := Option.isSome_iff_exists.1 hs
  rw [hu]
  exact h.fl.speaker u hu

theorem enterTaken (hs : s.fl.speaker.isSome) : s.enterTaken.Fit U := by
  have hgranted : Msg.Fit U { t := .granted, n := s.fl.sprio, d := s.fl.t2Full } :=
    ⟨rfl, nofun, fun _ => rfl, nofun, fun _ => h.fl.sprio, nofun, nofun⟩
  have hbase : ({ s.label "FLR.S.G.TAKEN.enter" with
      fl := { s.fl with idleBcast := false } } : St).Fit U := ⟨{ h.fl with }, h.out⟩
  exact ((hbase.partA (s.fl.speaker.getD "") hgranted).fan (taken_fit (h.speaker_getD hs)) _).fx _

theorem idleEnter : s.idleEnter.Fit U := by
  rw [St.idleEnter]
  split
  · have hidle : Msg.Fit U { t := .idle, a := s.fl.prev } :=
      ⟨rfl, h.fl.prev, by simp [Mt.seqd], by simp, fun _ => Nat.zero_le _, by simp, fun _ => Nat.zero_lt_succ _⟩
    have hbase : ({ s.label "FLR.S.G.IDLE.enter_empty" with fl := { s.fl with
        g := .idle, speaker := none, revoking := none, firstRtp := false, idleBcast := true,
        c7 := 1 } } : St).Fit U :=
      ⟨{ h.fl with speaker := by simp, revoking := by simp }, h.out⟩
    exact (hbase.fan hidle none).fx _
  · next w ws hq =>
    obtain ⟨hw, hws⟩ := List.forall_mem_cons.1 (hq ▸ h.fl.queue)
    have hbase : ({ s.label "FLR.S.G.IDLE.enter_succession" with fl := { s.fl with
        queue := ws, g := .taken, speaker := some w.u, sprio := w.p, revoking := none,
        succ := true, rtpSeen := false, firstRtp := false, c20 := 1 } } : St).Fit U :=
      ⟨{ h.fl with
        speaker := fun x e => Option.some.inj e ▸ hw.1
        revoking := by simp
        queue := hws
        sprio := hw.2 }, h.out⟩
    exact hbase.enterTaken rfl

theorem prevokeEnter {u : String} (hu : U u) {cause : Nat} (hc : cause ≤ 255) :
    (s.prevokeEnter u cause).Fit U := by
  have hrevoke : Msg.Fit U { t := .revoke, n := cause } :=
    ⟨rfl, nofun, fun _ => rfl, nofun, fun _ => hc, nofun, nofun⟩
  have hbase : ({ s.label "FLR.S.G.PREVOKE.enter" with fl := { s.fl with
      g := .prevoke, revoking := some u, rprio := s.fl.sprio, rcauseG := cause,
      speaker := none } } : St).Fit U :=
    ⟨{ h.fl with
      speaker := nofun
      revoking := fun x e => Option.some.inj e ▸ hu
      rprio := h.fl.sprio }, h.out⟩
  exact hbase.partA u hrevoke

omit h in
theorem deny_fit {n : Nat} (hn : n ≤ 255) : Msg.Fit U { t := .deny, n := n } :=
  ⟨rfl, nofun, fun _ => rfl, nofun, fun _ => hn, nofun, nofun⟩

theorem arbReqIdle {u : String} (hu : U u) {p : Nat} (hp : p ≤ 255) :
    (s.arbReqIdle u p).Fit U := by
  rw [St.arbReqIdle]
  split_ifs
  · exact h.label _
  · exact (h.label _).partA u (deny_fit (by decide))
  · exact (h.label _).partA u (deny_fit (by decide))
  · have hbase : ({ s.label "FLR.S.G.IDLE.req_grant" with fl := { s.fl with
        g := .taken, speaker := some u, sprio := p, succ := false, rtpSeen := false,
        firstRtp := false, c20 := 0 } } : St).Fit U :=
      ⟨{ h.fl with
        speaker := fun x e => Option.some.inj e ▸ hu
        sprio := hp }, h.out⟩
    exact hbase.enterTaken rfl

theorem arbReqPermitted (u : String) (d : Nat) : (s.arbReqPermitted u d).Fit U := by
  rw [St.arbReqPermitted]
  split_ifs
  · exact (h.label _).partA u
      ⟨rfl, by simp, fun _ => rfl, by simp, fun _ => h.fl.sprio, by simp, by simp [Mt.seqd]⟩
  · exact h.label _

theorem arbPreempt {u : String} (hu : U u) {p : Nat} (hp : p ≤ 255)
    (hs : s.fl.g = .taken → s.fl.speaker.isSome) : (s.arbPreempt u p).Fit U := by
  rw [St.arbPreempt]
  split_ifs with hg
  · have hqinfo : Msg.Fit U { t := .qinfo, n := 1, d := p } :=
      ⟨rfl, by simp, fun _ => rfl, by simp, fun e => absurd rfl e, fun _ => hp, by simp [Mt.seqd]⟩
    have hbase : ({ s.label "FLR.S.G.TAKEN.preempt" with
        fl := { s.fl with queue := ⟨u, p, true⟩ :: s.fl.queue } } : St).Fit U :=
      ⟨{ h.fl with queue := List.forall_mem_cons.2 ⟨⟨hu, hp⟩, h.fl.queue⟩ }, h.out⟩
    exact (hbase.prevokeEnter (h.speaker_getD (hs hg)) (by decide)).partA u hqinfo
  · exact h.label _

theorem arbRel {u : String} (hu : U u) : (s.arbRel u).Fit U := by
  have hprev : ∀ x, some u = some x → U x := fun x e => Option.some.inj e ▸ hu
  rw [St.arbRel]
  split_ifs
  · exact ((h.label _).setPrev hprev).idleEnter
  · exact ((h.label _).setPrev hprev).idleEnter
  · exact h.label _

theorem arbRtp (u : String) : (s.arbRtp u).Fit U := by
  rw [St.arbRtp]
  split_ifs
  · exact ⟨{ h.fl with }, h.out⟩
  · exact h.label _
  · exact h.label _

/-! ## Messages of a participant -/

omit h in
/-- An answer without a name. -/
theorem answer {t : Mt} {n : Nat} (ht : t.outgoing = true) (hseqd : t.seqd = false)
    (hq : t ≠ .qinfo) (hn : n ≤ 255) : Speech U t none n 0 where
  outgoing := ht
  name := nofun
  unnamed := fun _ => rfl
  named := fun e => by
    rw [e] at hseqd
    cases hseqd
  number := fun _ => hn
  priority := fun e => absurd e hq
  seq := fun e => by
    rw [hseqd] at e
    cases e

omit h in
theorem position (n : Nat) {d : Nat} (hd : d ≤ 255) : Speech U .qinfo none n d :=
  ⟨rfl, nofun, fun _ => rfl, nofun, fun e => absurd rfl e, fun _ => hd, nofun⟩

theorem qprio (u : String) : s.fl.queue.qprio u ≤ 255 := by
  rw [Queue.qprio]
  split
  · next w hw => exact (h.fl.queue w (List.mem_of_find?_eq_some hw)).2
  · exact Nat.zero_le _

/-- Who holds the floor is told of by name. -/
theorem holder_said (hh : s.fl.holder.isSome) : Speech U .taken s.fl.holder 0 0 := by
  refine ⟨rfl, fun u hu => h.fl.holder hu, nofun, fun _ e => ?_, fun _ => Nat.zero_le _, nofun,
    fun _ => by decide⟩
  rw [e] at hh
  cases hh

theorem prev_said : Speech U .idle s.fl.prev 0 0 :=
  ⟨rfl, h.fl.prev, nofun, nofun, fun _ => Nat.zero_le _, nofun, fun _ => by decide⟩

theorem revoke3 (u : String) : (s.revoke3 u).Fit U :=
  (h.p u (show Revoke.noPermission ≤ 255 by decide)).sendE u .npSends
    (answer rfl rfl nofun (by decide))

theorem takenReq {u : String} (hu : U u) {p : Nat} (hp : p ≤ 255)
    (hs : s.fl.g = .taken → s.fl.speaker.isSome) : (s.takenReq u p).Fit U := by
  rw [St.takenReq]
  split_ifs
  · exact (h.label _).send u (answer rfl rfl (by simp) (by decide))
  · exact (h.label _).send u (position _ (h.qprio u))
  · exact (h.label _).arbPreempt hu hp hs
  · exact h.label _
  · exact (h.label _).send u (answer rfl rfl (by simp) (by decide))
  · exact ((h.label _).insertQ hu hp).send u (position _ hp)

/-- A message of `u`. Somebody holds the floor where `TAKEN` is the answer. -/
theorem partC {u : String} (hu : U u) {ev : Msg} (hev : ev.n ≤ 255) (d : Nat)
    (hs : s.fl.g = .taken → s.fl.speaker.isSome)
    (hh : s.fl.partOf u = some .npTaken ∨ (s.fl.partOf u ≠ some .npIdle ∧
      s.fl.partOf u ≠ some .permitted ∧ s.fl.partOf u ≠ some .prevoke ∧
        (s.fl.part u).gTaken = true) → s.fl.holder.isSome) : (s.partC u ev d).Fit U := by
  have hack : Speech U .ack none releaseType 0 := answer rfl rfl nofun (by decide)
  have hkeep : ∀ l, (s.label l).Fit U := h.label
  rw [St.partC]
  split
  · exact (hkeep _).arbReqIdle hu hev
  · exact (((hkeep _).send u hack).dequeue u).send u h.prev_said
  · split
    · exact (hkeep _).revoke3 u
    · exact hkeep _
  · exact hkeep _
  · exact (hkeep _).takenReq hu hev hs
  · next hp _ =>
    exact ((((hkeep _).send u hack).p u (h.fl.rcause u)).dequeue u).send u
      (h.holder_said (hh (.inl hp)))
  · split
    · exact (hkeep _).p u (h.fl.rcause u)
    · exact hkeep _
  · exact (hkeep _).send u (position _ (h.qprio u))
  · exact (hkeep _).revoke3 u
  · exact hkeep _
  · exact (((hkeep _).p u (h.fl.rcause u)).send u hack).arbRel hu
  · exact (hkeep _).arbReqPermitted u d
  · exact (hkeep _).arbRtp u
  · exact hkeep _
  · exact ((hkeep _).send u hack).arbRel hu
  · exact (hkeep _).arbRtp u
  · exact hkeep _
  · next _ hidle _ hpermitted hprevoke =>
    split
    · next hgt =>
      have hsome := hh (.inr ⟨hidle, hpermitted, hprevoke, hgt⟩)
      exact ((hkeep _).send u hack).sendE u .npTaken (h.holder_said hsome)
    · exact ((hkeep _).send u hack).sendE u .npIdle h.prev_said
  · exact hkeep _
  · exact hkeep _

theorem away {u : String} (hu : U u) : (s.away u).Fit U := by
  have hprev : ∀ x, some u = some x → U x := fun x e => Option.some.inj e ▸ hu
  rw [St.away]
  split_ifs
  · exact ((h.label _).setPrev hprev).idleEnter
  · exact h.label _
  · exact (h.label _).dequeue u
  · exact h.label _

theorem enrol (u : String) (perm : Bool) : (s.enrol u perm).Fit U := by
  have hbase : ({ s with fl := { s.fl with members := s.fl.members.insert u } } : St).Fit U :=
    ⟨{ h.fl with }, h.out⟩
  rw [St.enrol]
  refine hbase.p u ?_
  exact Nat.zero_le _

theorem erase (u : String) :
    ({ s with fl := { s.fl with members := s.fl.members.erase u } } : St).Fit U :=
  ⟨{ h.fl with }, h.out⟩

end St.Fit

/-! ## Who is no member -/

/-- The record of a user who is no member is that of one who never came or who left. -/
def Part.Gone (p : Part) : Prop := p.part = none ∨ p.part = some .releasing

def View.Outside (v : View) : Prop := ∀ u, u ∉ v.members → (v.part u).Gone

theorem Part.Gone.congr {p p' : Part} (h : p.Gone) (hp : p'.part = p.part) : p'.Gone := by
  rwa [Part.Gone, hp]

theorem Part.Gone.hear {p : Part} (h : p.Gone) (t : Mt) (n : Nat) : (p.hear t n).Gone := by
  rcases h with h | h <;> cases t <;> simp [Part.hear, Part.Gone, h]

namespace View.Outside

variable {v : View}

/-- The members are the same or more, and nobody outside has come to wait. -/
theorem frame (h : v.Outside) {v' : View} (hm : v'.members = v.members)
    (hp : ∀ u, u ∉ v.members → (v.part u).Gone → (v'.part u).Gone) : v'.Outside :=
  fun u hu => hp u (hm ▸ hu) (h u (hm ▸ hu))

theorem upd (h : v.Outside) (u : String) {f : Part → Part}
    (hf : u ∉ v.members → (v.part u).Gone → (f (v.part u)).Gone) : (v.upd u f).Outside := by
  refine h.frame rfl fun x hx hg => ?_
  by_cases e : x = u
  · subst e
    rw [View.upd_part_self]
    exact hf hx hg
  · rwa [View.upd_part_ne _ _ e]

theorem hear (h : v.Outside) (u : String) (t : Mt) (n : Nat) : (v.hear u t n).Outside :=
  h.upd u fun _ hg => hg.hear t n

theorem hearAll (h : v.Outside) (t : Mt) (n : Nat) (skip : Option String) :
    (v.hearAll t n skip).Outside := by
  refine h.frame rfl fun x _ hg => ?_
  rw [View.hearAll]
  dsimp only
  split_ifs
  · exact hg.hear t n
  · exact hg

theorem idleEnter (h : v.Outside) : v.idleEnter.Outside := by
  cases hq : v.queue with
  | nil =>
    rw [View.idleEnter_nil hq]
    exact hearAll (v := { v with g := .idle, speaker := none, revoking := none }) h _ _ _
  | cons w ws =>
    rw [View.idleEnter_cons hq]
    exact (hear (v := { v with
      queue := ws, g := .taken, speaker := some w.u, sprio := w.p, revoking := none }) h
      _ _ _).hearAll _ _ _

theorem prevokeEnter (h : v.Outside) (u : String) (cause : Nat) :
    (v.prevokeEnter u cause).Outside :=
  hear (v := { v with g := .prevoke, revoking := some u, rprio := v.sprio, speaker := none }) h
    u _ _

/-- A user who comes is a member, whatever its record. -/
theorem join (h : v.Outside) (u : String) (f : Part → Part) :
    ({ v with members := v.members.insert u }.upd u f).Outside := by
  intro x hx
  have hnot : ¬ (compare u x = .eq ∨ x ∈ v.members) := fun e => hx (TreeSet.mem_insert.2 e)
  have hne : x ≠ u := by
    rintro rfl
    exact hnot (.inl ReflOrd.compare_self)
  rw [View.upd_part_ne _ _ hne]
  exact h x fun e => hnot (.inr e)

end View.Outside

theorem Away.outside {u : String} {v : View} {fx : List Fx} {v' : View} (h : Away u v fx v')
    (hv : v.Outside) : v'.Outside := by
  cases h with
  | speaker => exact hv.idleEnter
  | revoking | other => exact hv
  | queued => exact hv

/-- **Every move keeps who is no member from waiting.** -/
theorem Move.outside {o : Op} {v : View} {fx : List Fx} {v' : View} (h : Move o v fx v')
    (hv : v.Outside) : v'.Outside := by
  cases h with
  | tune u f hf => exact hv.upd u fun _ hg => hg.congr hf.part
  | stray u _ hu => exact hv.upd u fun hn => absurd hu hn
  | settle u hu => exact hv.upd u fun hn => absurd hu hn
  | enqueue => exact hv
  | dequeue u f hf =>
    exact View.Outside.upd (v := { v with queue := v.queue.dequeue u }) hv u
      fun _ hg => hg.congr hf.part
  | lower u f hf => exact hv.upd u fun _ hg => hg.congr hf.part
  | preempt u sp p =>
    exact View.Outside.prevokeEnter (v := { v with queue := ⟨u, p, true⟩ :: v.queue }) hv _ _
  | revoke u f cause hf => exact (hv.upd u fun _ hg => hg.congr hf.part).prevokeEnter _ _
  | free u f hf => exact (hv.upd u fun _ hg => hg.congr hf.part).idleEnter
  | grant u p =>
    exact (View.Outside.hear (v := { v with g := .taken, speaker := some u, sprio := p }) hv
      _ _ _).hearAll _ _ _
  | regrant u n => exact hv.hear u _ _
  | again => exact hv.hearAll _ _ _
  | pubAway u ha => exact ha.outside (hv.upd u fun _ hg => hg.congr rfl)
  | leave u ha =>
    have hbase := ha.outside (hv.upd u fun _ hg => hg.congr rfl)
    intro x hx
    by_cases e : x = u
    · subst e
      rw [View.upd_part_self]
      exact .inr rfl
    · rw [View.upd_part_ne _ _ e]
      refine hbase x fun hmem => hx ?_
      exact TreeSet.mem_erase.2 ⟨fun hc => e (LawfulEqOrd.eq_of_compare hc).symm, hmem⟩
  | join u => exact hv.join u _
  | rejoin u => exact hv.idleEnter.join u _

theorem outside_new (qmax t2Secs : Nat) : (Floor.new qmax t2Secs).view.Outside :=
  fun _ _ => .inl rfl

/-! ## The operations -/

/-- The users of the operation are of `U`, and a message is of what fits the wire. -/
def Op.Admitted (U : String → Prop) : Op → Prop
  | .serverRx u m _ _ => U u ∧ m.n ≤ 255
  | .ready u | .permDown u | .permUp u | .wsPubSelect u | .wsPubAway u | .wsLeave u | .wsJoin u _
  | .rtp u | .t8 u | .t9 u | .t21 u => U u
  | .t1 | .t2 | .t3 | .t7 | .t20 => True

section operations

variable {U : String → Prop} {f : Floor}

theorem start_fit (h : f.Fit U) : f.start.Fit U := ⟨h, nofun⟩

theorem speaker_of_taken (ha : f.view.Agreement) (hg : f.g = .taken) : f.speaker.isSome := by
  obtain ⟨u, hu⟩ := exists_speaker ha.held hg
  rw [hu]
  rfl

/-- A member who waits, or who heard last that the floor is taken, waits for somebody. -/
theorem holder_of_member (ha : f.view.Agreement) {u : String} (hu : u ∈ f.members)
    (h : f.partOf u = some .npTaken ∨ (f.partOf u ≠ some .npIdle ∧ f.partOf u ≠ some .permitted ∧
      f.partOf u ≠ some .prevoke ∧ (f.part u).gTaken = true)) : f.holder.isSome := by
  have hv := ha.member u hu
  have hpart : (f.view.part u).part = f.partOf u := (f.partOf_eq u).symm
  rw [View.Agrees, hpart] at hv
  refine ha.held fun hg => ?_
  rcases hp : f.partOf u with _ | (_ | _ | _ | _ | _ | _) <;> rw [hp] at hv h <;>
    simp_all [show f.view.part u = f.part u from rfl]

/-- What a member does is answered with what fits. -/
theorem partC_fit (h : f.Fit U) (ha : f.view.Agreement) {u : String} (hu : U u)
    (hmem : u ∈ f.members) {m : Msg} (hm : m.n ≤ 255) (d : Nat) : (f.start.partC u m d).Fit U :=
  (start_fit h).partC hu hm d (speaker_of_taken ha) (holder_of_member ha hmem)

theorem serverRx_fit (h : f.Fit U) (ha : f.view.Agreement) {u : String} (hu : U u) {m : Msg}
    (hm : m.n ≤ 255) (half : Bool) (d : Nat) : (f.serverRx u m half d).Fit U := by
  have hstart := start_fit h
  have hdeny : ∀ l n, n ≤ 255 → ((f.start.label l).send u .deny none n 0).Fit U :=
    fun l n hn => (hstart.label l).send u (St.Fit.answer rfl rfl nofun hn)
  rw [Floor.serverRx]
  split_ifs
  · exact hstart.label _
  · exact hdeny _ _ (by decide)
  · exact hdeny _ _ (by decide)
  · exact hdeny _ _ (by decide)
  · exact hdeny _ _ (by decide)
  · exact partC_fit h ha hu (by simp_all) hm d
  · exact hstart.label _

/-- A timer of a user who waits belongs to a member. -/
theorem t21_fit (h : f.Fit U) (ha : f.view.Agreement) (ho : f.view.Outside) {u : String}
    (harmed : (Op.t21 u).Armed f) : (f.t21 u).Fit U := by
  have hstart := start_fit h
  have hwaits : (f.part u).part = some .npTaken := by
    rcases (mem_armedParticipant harmed).2 with ⟨e, -⟩ | ⟨e, -⟩ | ⟨-, hp, -⟩
    · cases e
    · cases e
    · exact hp
  have hmem : u ∈ f.members := by
    by_contra hn
    rcases ho u hn with e | e <;> rw [show (f.view.part u).part = _ from hwaits] at e <;> cases e
  have hsome := holder_of_member ha hmem (.inl ((f.partOf_eq u).trans hwaits))
  have hbase := hstart.p u (f := fun p => { p with c21 := p.c21 + 1 }) (h.rcause u)
  rw [Floor.t21]
  split_ifs
  · have hlabel := hbase.label "FLR.S.P.NP_TAKEN.T21"
    exact hlabel.send u (hlabel.holder_said hsome)
  · exact hbase.label _

/-- **Every operation keeps and says what fits.** -/
theorem apply_fit (h : f.Fit U) (ha : f.view.Agreement) (ho : f.view.Outside) {o : Op}
    (hadm : o.Admitted U) (harmed : o.Armed f) : (f.apply o).Fit U := by
  have hstart := start_fit h
  have hanswer : ∀ {n : Nat}, n ≤ 255 → Speech U .revoke none n 0 :=
    fun hn => St.Fit.answer rfl rfl (by simp) hn
  cases o with
  | serverRx u m half d => exact serverRx_fit h ha hadm.1 hadm.2 half d
  | ready u =>
    show (f.ready u).Fit U
    rw [Floor.ready]
    split_ifs with _ hsome
    · exact hstart.label _
    · exact (hstart.label _).send u (hstart.holder_said hsome)
    · exact (hstart.label _).send u hstart.prev_said
  | permDown u =>
    have hbase := hstart.p u (f := fun p => { p with perm := false }) (h.rcause u)
    show (f.permDown u).Fit U
    rw [Floor.permDown]
    split_ifs
    · exact (hbase.label _).prevokeEnter hadm (by decide)
    · exact ((hbase.label _).dequeue u).partA u (St.Fit.deny_fit (by decide))
    · exact hbase.label _
  | permUp u =>
    show (f.permUp u).Fit U
    rw [Floor.permUp]
    refine (hstart.label _).p u ?_
    exact h.rcause u
  | wsPubSelect u =>
    show (f.wsPubSelect u).Fit U
    rw [Floor.wsPubSelect]
    refine (hstart.label _).p u ?_
    exact h.rcause u
  | wsPubAway u =>
    show (f.wsPubAway u).Fit U
    rw [Floor.wsPubAway]
    refine ((hstart.label _).p u ?_).away hadm
    exact h.rcause u
  | wsLeave u =>
    have haway := ((hstart.label "FLR.S.ws.leave").p u (f := fun p => { p with pubRoom := false })
      (h.rcause u)).away hadm
    show (f.wsLeave u).Fit U
    rw [Floor.wsLeave]
    refine (haway.erase u).p u ?_
    exact haway.fl.rcause u
  | wsJoin u perm =>
    show (f.wsJoin u perm).Fit U
    rw [Floor.wsJoin]
    split_ifs
    · exact ((hstart.label _).setPrev h.revoking).idleEnter.enrol u perm
    · exact (hstart.label _).enrol u perm
  | rtp u =>
    show (f.rtp u).Fit U
    rw [Floor.rtp]
    split_ifs
    · exact partC_fit h ha hadm (by simp_all) (Nat.zero_le _) 0
    · exact hstart.label _
  | t1 =>
    show f.t1.Fit U
    rw [Floor.t1]
    split_ifs
    · exact ((hstart.label _).setPrev h.speaker).idleEnter
    · exact ((hstart.label _).setPrev h.revoking).idleEnter
  | t2 =>
    have hspeaker := hstart.speaker_getD (speaker_of_taken ha (mem_armedServer.2.1.1 harmed).1)
    exact ((hstart.label _).p (f.speaker.getD "") (h.rcause _)).prevokeEnter hspeaker (by decide)
  | t3 => exact ((hstart.label _).setPrev h.revoking).idleEnter
  | t7 =>
    have hidle : Msg.Fit U { t := .idle, a := f.prev } := hstart.prev_said
    have hbase : ({ f.start.label "FLR.S.G.IDLE.T7" with fl := { f with c7 := f.c7 + 1 } } : St).Fit
      U := ⟨{ h with }, by simp [St.label, Floor.start]⟩
    exact hbase.fan hidle none
  | t20 =>
    show f.t20.Fit U
    rw [Floor.t20]
    split_ifs
    · have hbase : ({ f.start.label "FLR.S.G.TAKEN.T20" with
          fl := { f with c20 := f.c20 + 1 } } : St).Fit U := ⟨{ h with }, by simp [St.label, Floor.start]⟩
      exact hbase.partA _ ⟨rfl, by simp, fun _ => rfl, by simp, fun _ => h.sprio, by simp, by simp [Mt.seqd]⟩
    · exact ⟨{ h with }, by simp [St.label, Floor.start]⟩
  | t8 u =>
    have hbase := hstart.p u (f := fun p => { p with c8 := p.c8 + 1 }) (h.rcause u)
    show (f.t8 u).Fit U
    rw [Floor.t8]
    split_ifs
    · exact (hbase.label _).send u (hanswer (h.rcause u))
    · exact (hbase.label _).send u (hanswer (by decide))
  | t9 u =>
    show (f.t9 u).Fit U
    rw [Floor.t9]
    refine (hstart.label _).p u ?_
    exact h.rcause u
  | t21 u => exact t21_fit h ha ho harmed

end operations

/-! ## Runs -/

theorem fit_new (U : String → Prop) (qmax t2Secs : Nat) : (Floor.new qmax t2Secs).Fit U where
  speaker := nofun
  revoking := nofun
  prev := nofun
  queue := nofun
  sprio := Nat.zero_le _
  rprio := Nat.zero_le _
  rcause := fun _ => Nat.zero_le _
  seq := Nat.zero_lt_succ _

/-- The invariant of a run whose operations are admitted. -/
structure FitInv (U : String → Prop) (f : Floor) : Prop where
  fit : f.Fit U
  agreement : f.view.Agreement
  outside : f.view.Outside

theorem step_fitInv {U : String → Prop} {f : Floor} {o : Op} (h : FitInv U f)
    (hadm : o.Admitted U) (harmed : o.Armed f) : FitInv U (f.apply o).fl := by
  have hm := f.move o h.agreement.held harmed
  exact {
    fit := (apply_fit h.fit h.agreement h.outside hadm harmed).fl
    agreement := hm.agreement h.agreement
    outside := hm.outside h.outside }

theorem run_fitInv {U : String → Prop} {qmax t2Secs : Nat} {ops : List Op}
    (hl : machine.Legal (Floor.new qmax t2Secs) ops) (hadm : ∀ o ∈ ops, o.Admitted U) :
    FitInv U (machine.exec (Floor.new qmax t2Secs) ops) := by
  have hlegal : (machine.restrict fun _ o => o.Admitted U).Legal (Floor.new qmax t2Secs) ops := by
    refine (machine.restrict_legal _ _ _).2 ⟨hl, fun l₁ o l₂ e => hadm o ?_⟩
    rw [e]
    exact List.mem_append_right _ List.mem_cons_self
  have hnew : FitInv U (Floor.new qmax t2Secs) :=
    ⟨fit_new U qmax t2Secs, agreement_new qmax t2Secs, outside_new qmax t2Secs⟩
  have hstep : ∀ f o, FitInv U f → (machine.restrict fun _ o => o.Admitted U).ok f o →
      FitInv U ((machine.restrict fun _ o => o.Admitted U).next f o) :=
    fun f o h ho => step_fitInv h ho.2 ho.1
  have hrun := Machine.invariant hstep hnew hlegal
  rwa [Machine.restrict_exec] at hrun

end OxlensSfu.Flr
