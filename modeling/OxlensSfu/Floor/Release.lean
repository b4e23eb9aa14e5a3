import OxlensSfu.Floor.Holder

/-!
# RELEASE gives the floor up

A client that sends `RELEASE` must be rid of the floor and of its place in the queue, whatever
state the server keeps for it. `Floor.GivesUp` says so of one state: the answer is one `ACK`, and
afterwards the user neither holds the floor nor waits for it.

The four regular participant states do give up. `NPSENDS` only answers, so it must never be
entered by somebody who waits or holds the floor. `View.Placed` says where the participant machine
stands for the holder and for the waiters. It is broken by stray RTP of a waiter, which enters
`NPSENDS` without leaving the queue, and by a second join of the speaker, which forgets that it
was permitted. `release_gives_up_iff` says that a run is safe exactly when it has neither.
-/

namespace OxlensSfu.Flr

open Std

/-! ## The acknowledgements of a step -/

/-- The messages of type `ACK` that a step sends. -/
def St.acks (s : St) : List Out := s.r.out.filter (·.m.t == .ack)

namespace St

@[simp] theorem acks_label (s : St) (l : String) : (s.label l).acks = s.acks := rfl

@[simp] theorem acks_fx (s : St) (e : Fx) : (s.fx e).acks = s.acks := rfl

@[simp] theorem acks_p (s : St) (u : String) (f : Part → Part) : (s.p u f).acks = s.acks := rfl

@[simp] theorem acks_dequeue (s : St) (u : String) : (s.dequeue u).acks = s.acks := rfl

@[simp] theorem acks_setPrev (s : St) (u : Option String) : (s.setPrev u).acks = s.acks := rfl

/-- Only the messages matter. -/
theorem acks_with (s : St) (f : Floor) : ({ s with fl := f } : St).acks = s.acks := rfl

theorem acks_send_ack (s : St) (u : String) (n : Nat) :
    (s.send u .ack none n 0).acks = s.acks ++ [⟨u, { t := .ack, n := n }⟩] := by
  simp [acks, send, Mt.seqd]

@[simp] theorem acks_send (s : St) (u : String) {t : Mt} (a : Option String) (n d : Nat)
    (h : t ≠ .ack) : (s.send u t a n d).acks = s.acks := by
  simp [acks, send, h]

@[simp] theorem acks_enterR (s : St) (u : String) (st : P) : (s.enterR u st).acks = s.acks := by
  cases st <;> rfl

@[simp] theorem acks_sendE (s : St) (u : String) (st : P) {m : Msg} (h : m.t ≠ .ack) :
    (s.sendE u st m).acks = s.acks := by
  simp [sendE, h]

@[simp] theorem acks_partA (s : St) (u : String) (ev : Msg) : (s.partA u ev).acks = s.acks := by
  rw [partA]
  split <;> simp

theorem acks_foldl_partA (ev : Msg) (l : List String) (s : St) :
    (l.foldl (fun s u => s.partA u ev) s).acks = s.acks := by
  induction l generalizing s with
  | nil => rfl
  | cons x l ih => rw [List.foldl_cons, ih, acks_partA]

@[simp] theorem acks_fan (s : St) (ev : Msg) (skip : Option String) :
    (s.fan ev skip).acks = s.acks := by
  rw [fan, acks_foldl_partA, numbered]
  split <;> rfl

@[simp] theorem acks_enterTaken (s : St) : s.enterTaken.acks = s.acks := by
  simp [enterTaken, acks_with]

/-- The arbitration acknowledges nothing. -/
@[simp] theorem acks_idleEnter (s : St) : s.idleEnter.acks = s.acks := by
  rw [idleEnter]
  split <;> simp [acks_with]

@[simp] theorem acks_arbRel (s : St) (u : String) : (s.arbRel u).acks = s.acks := by
  rw [arbRel]
  split_ifs <;> simp

end St

/-! ## What RELEASE does -/

/-- After `RELEASE` of `u`, whatever else the message and the call carry: one acknowledgement, sent
to `u`, and `u` neither holds the floor nor waits for it. -/
def Floor.GivesUp (f : Floor) (u : String) : Prop :=
  ∀ (m : Msg) (half : Bool) (t2Left : Nat), m.t = .release →
    (f.serverRx u m half t2Left).acks = [⟨u, { t := .ack, n := releaseType }⟩] ∧
    (f.serverRx u m half t2Left).fl.holder ≠ some u ∧
    (f.serverRx u m half t2Left).fl.queue.inQ u = false

/-- The holder and the queue after `u` gave back what it holds of the floor. -/
def View.passed (v : View) (u : String) : Option String × Queue :=
  if v.holder = some u then (v.queue.head?.map (·.u), v.queue.tail) else (v.holder, v.queue)

/-- The holder and the queue after `RELEASE` of `u`. -/
def View.released (v : View) (u : String) : Option String × Queue :=
  match (v.part u).part with
  | some .npIdle | some .npTaken => (v.holder, v.queue.dequeue u)
  | some .permitted | some .prevoke => v.passed u
  | _ => (v.holder, v.queue)

section Release

variable {f : Floor} {u : String} {m : Msg}

/-- A member's `RELEASE` passes the gates. -/
theorem serverRx_release (hu : u ∈ f.members) (hm : m.t = .release) (half : Bool) (d : Nat) :
    f.serverRx u m half d = f.start.partC u m d := by
  simp [Floor.serverRx, hu, hm]

theorem arbRel_view (s : St) (u : String) :
    ((s.arbRel u).view.holder, (s.arbRel u).view.queue) = s.view.passed u := by
  rw [St.arbRel, View.passed]
  by_cases h : s.fl.g = .taken ∧ s.fl.speaker = some u
  · rw [if_pos h, if_pos (holder_of_taken (v := s.view) h)]
    simp [View.idleEnter_holder, View.idleEnter_queue]
  · rw [if_neg h]
    by_cases h' : s.fl.g = .prevoke ∧ s.fl.revoking = some u
    · rw [if_pos h', if_pos (holder_of_prevoke (v := s.view) h')]
      simp [View.idleEnter_holder, View.idleEnter_queue]
    · rw [if_neg h', if_neg (holder_ne (v := s.view) h h')]
      rfl

/-- **RELEASE, state by state**: every participant state acknowledges, and what becomes of the
holder and of the queue depends on the view alone. -/
theorem partC_release (f : Floor) (u : String) (hm : m.t = .release) (d : Nat) :
    (f.start.partC u m d).acks = [⟨u, { t := .ack, n := releaseType }⟩] ∧
      ((f.start.partC u m d).view.holder, (f.start.partC u m d).view.queue) =
        f.view.released u := by
  have hpart : f.start.fl.partOf u = (f.view.part u).part := f.partOf_eq u
  have hacks : ∀ l, ((f.start.label l).send u .ack none releaseType 0).acks =
      [⟨u, { t := .ack, n := releaseType }⟩] := fun l => by
    rw [St.acks_send_ack]
    rfl
  rw [St.partC, View.released, hpart]
  rcases (f.view.part u).part with _ | (_ | _ | _ | _ | _ | _) <;> simp only [hm]
  case some.npIdle =>
    simp only [St.acks_send _ _ _ _ _ (show Mt.idle ≠ .ack by simp), St.acks_dequeue, hacks,
      St.view_send, St.view_dequeue, St.view_label]
    exact ⟨trivial, rfl⟩
  case some.npTaken =>
    simp only [St.acks_send _ _ _ _ _ (show Mt.taken ≠ .ack by simp), St.acks_dequeue, St.acks_p,
      hacks, St.view_send, St.view_dequeue, St.view_p, St.view_label]
    exact ⟨trivial, rfl⟩
  case some.permitted =>
    rw [St.acks_arbRel, St.acks_send_ack, arbRel_view, St.view_send, St.view_p, St.view_label]
    exact ⟨rfl, rfl⟩
  case some.prevoke =>
    rw [St.acks_arbRel, hacks, arbRel_view, St.view_send, St.view_label]
    exact ⟨rfl, rfl⟩
  all_goals
    split_ifs <;>
    · rw [St.acks_sendE _ _ _ (by simp), hacks, St.view_sendE, St.view_send, St.view_label]
      exact ⟨rfl, rfl⟩

theorem serverRx_released (hu : u ∈ f.members) (hm : m.t = .release) (half : Bool) (d : Nat) :
    (f.serverRx u m half d).acks = [⟨u, { t := .ack, n := releaseType }⟩] ∧
      (f.serverRx u m half d).fl.holder = (f.view.released u).1 ∧
      (f.serverRx u m half d).fl.queue = (f.view.released u).2 := by
  rw [serverRx_release hu hm]
  obtain ⟨ha, hv⟩ := partC_release f u hm d
  exact ⟨ha, congrArg Prod.fst hv, congrArg Prod.snd hv⟩

/-- Whether a member gives up is a matter of the view. -/
theorem givesUp_iff (hu : u ∈ f.members) :
    f.GivesUp u ↔ (f.view.released u).1 ≠ some u ∧ (f.view.released u).2.inQ u = false := by
  refine ⟨fun h => ?_, fun h m half d hm => ?_⟩
  · obtain ⟨-, hh, hq⟩ := serverRx_released (m := { t := .release }) hu rfl true 0
    have hg := (h { t := .release } true 0 rfl).2
    rwa [hh, hq] at hg
  · obtain ⟨ha, hh, hq⟩ := serverRx_released hu hm half d
    rw [hh, hq]
    exact ⟨ha, h⟩

end Release

/-! ## Where the holder and the waiters stand -/

/-- A member that holds the floor is permitted or being revoked, and a waiter is a member in
`NP_TAKEN`. -/
structure View.Placed (v : View) : Prop where
  holder : ∀ u ∈ v.members, v.holder = some u →
    (v.part u).part = some .permitted ∨ (v.part u).part = some .prevoke
  waiting : ∀ w ∈ v.queue, w.u ∈ v.members ∧ (v.part w.u).part = some .npTaken

theorem View.placed_of_idle {v : View} (hg : v.g = .idle) (hq : v.queue = []) : v.Placed where
  holder _ _ h := by simp [View.holder, hg] at h
  waiting _ h := by simp [hq] at h

/-- The holder does not wait. -/
theorem View.Placed.holder_not_inQ {v : View} (h : v.Placed) {u : String}
    (hu : v.holder = some u) : v.queue.inQ u = false := by
  refine List.any_eq_false.2 fun w hw hwu => ?_
  obtain rfl : w.u = u := beq_iff_eq.1 hwu
  obtain ⟨hm, hp⟩ := h.waiting w hw
  rcases h.holder w.u hm hu with hp' | hp' <;> simp [hp] at hp'

/-- A member in another state than those of the holder does not hold the floor. -/
theorem View.Placed.holder_ne {v : View} (h : v.Placed) {u : String} (hu : u ∈ v.members)
    (hp : (v.part u).part ∉ [some .permitted, some .prevoke]) : v.holder ≠ some u := by
  intro hh
  rcases h.holder u hu hh with hp' | hp' <;> simp [hp'] at hp

/-- A user in another state than `NP_TAKEN` does not wait. -/
theorem View.Placed.not_inQ {v : View} (h : v.Placed) {u : String}
    (hp : (v.part u).part ≠ some .npTaken) : v.queue.inQ u = false := by
  refine List.any_eq_false.2 fun w hw hwu => hp ?_
  rw [← beq_iff_eq.1 hwu]
  exact (h.waiting w hw).2

/-- What has to be checked when the holder stays. -/
theorem View.Placed.frame {v v' : View} (h : v.Placed) (hh : v'.holder = v.holder)
    (hm : ∀ u ∈ v'.members, v.holder = some u →
      u ∈ v.members ∧ (v'.part u).part = (v.part u).part)
    (hq : ∀ w ∈ v'.queue, w ∈ v.queue ∧ w.u ∈ v'.members ∧
      (v'.part w.u).part = (v.part w.u).part) : v'.Placed where
  holder u hu hhu := by
    rw [hh] at hhu
    obtain ⟨hu', hp⟩ := hm u hu hhu
    rw [hp]
    exact h.holder u hu' hhu
  waiting w hw := by
    obtain ⟨hw', hwm, hp⟩ := hq w hw
    exact ⟨hwm, hp.trans (h.waiting w hw').2⟩

theorem View.Placed.like {v : View} (h : v.Placed) {u : String} {f : Part → Part}
    (hf : (v.part u).Like (f (v.part u))) : (v.upd u f).Placed := by
  refine h.frame rfl ?_ ?_
  · intro x hx _
    exact ⟨hx, (View.upd_like hf x).part⟩
  · intro w hw
    exact ⟨hw, (h.waiting w hw).1, (View.upd_like hf w.u).part⟩

/-- The record of a user that neither holds the floor nor waits may change. -/
theorem View.Placed.aside {v : View} (h : v.Placed) {u : String} (f : Part → Part)
    (hh : v.holder ≠ some u) (hq : v.queue.inQ u = false) : (v.upd u f).Placed := by
  refine h.frame rfl ?_ ?_
  · intro x hx hhx
    have hne : x ≠ u := fun e => hh (e ▸ hhx)
    exact ⟨hx, by rw [View.upd_part_ne _ _ hne]⟩
  · intro w hw
    rw [View.upd_part_ne _ _ (Queue.ne_of_not_inQ hq hw)]
    exact ⟨hw, (h.waiting w hw).1, rfl⟩

theorem View.Placed.dequeue {v : View} (h : v.Placed) (u : String) :
    ({ v with queue := v.queue.dequeue u } : View).Placed := by
  refine h.frame rfl ?_ ?_
  · intro x hx _
    exact ⟨hx, rfl⟩
  · intro w hw
    have hw' := (List.mem_filter.1 hw).1
    exact ⟨hw', (h.waiting w hw').1, rfl⟩

/-! ## Transitions of the arbitration -/

/-- Giving the floor to `s`, while the waiters are others. -/
theorem View.enterTaken_placed {v : View} {s : String} (hg : v.g = .taken)
    (hs : v.speaker = some s)
    (hst : (v.part s).part = some .npTaken ∨ (v.part s).part = some .npIdle)
    (hq : ∀ w ∈ v.queue, w.u ≠ s ∧ w.u ∈ v.members ∧ (v.part w.u).part = some .npTaken) :
    v.enterTaken.Placed where
  holder u _ hu := by
    have hh : v.enterTaken.holder = some s := holder_of_taken ⟨hg, hs⟩
    obtain rfl : s = u := Option.some.inj (hh.symm.trans hu)
    rw [View.enterTaken_part hs]
    rcases hst with hst | hst <;> simp [Part.hear, hst, Part.enter]
  waiting w hw := by
    obtain ⟨hne, hm, hp⟩ := hq w hw
    refine ⟨hm, ?_⟩
    rw [View.enterTaken_part hs]
    simp [Part.hear, hm, hne, hp]

/-- **Succession keeps everybody in place.** -/
theorem View.idleEnter_placed {v : View}
    (hw : ∀ w ∈ v.queue, w.u ∈ v.members ∧ (v.part w.u).part = some .npTaken)
    (hn : (v.queue.map (·.u)).Nodup) : v.idleEnter.Placed := by
  cases hq : v.queue with
  | nil =>
    rw [View.idleEnter_nil hq]
    exact View.placed_of_idle rfl hq
  | cons w ws =>
    rw [View.idleEnter_cons hq]
    rw [hq] at hw hn
    obtain ⟨hw₁, hws⟩ := List.forall_mem_cons.1 hw
    refine View.enterTaken_placed rfl rfl (.inl hw₁.2) fun x hx => ⟨?_, hws x hx⟩
    intro e
    have hmem : w.u ∈ ws.map (·.u) := e ▸ List.mem_map_of_mem (f := (·.u)) hx
    exact (List.nodup_cons.1 hn).1 hmem

theorem View.Placed.prevokeEnter {v : View} {u : String} (cause : Nat)
    (hp : u ∈ v.members → (v.part u).part = some .permitted ∨ (v.part u).part = some .prevoke)
    (hq : ∀ w ∈ v.queue, w.u ≠ u ∧ w.u ∈ v.members ∧ (v.part w.u).part = some .npTaken) :
    (v.prevokeEnter u cause).Placed where
  holder x hx hh := by
    obtain rfl : u = x := Option.some.inj hh
    rw [View.prevokeEnter, View.hear, View.upd_part_self]
    rcases hp hx with hp | hp <;> simp [Part.hear, hp, Part.enter]
  waiting w hw := by
    obtain ⟨hne, hm, hp⟩ := hq w hw
    refine ⟨hm, ?_⟩
    rw [View.prevokeEnter, View.hear, View.upd_part_ne _ _ hne]
    exact hp

/-- The waiters, after the record of a user that does not wait changed. -/
theorem View.Placed.waiting_upd {v : View} (h : v.Placed) {u : String} {f : Part → Part}
    (hq : v.queue.inQ u = false) :
    ∀ w ∈ (v.upd u f).queue, w.u ≠ u ∧ w.u ∈ (v.upd u f).members ∧
      ((v.upd u f).part w.u).part = some .npTaken := by
  intro w hw
  have hne := Queue.ne_of_not_inQ hq hw
  rw [View.upd_part_ne _ _ hne]
  exact ⟨hne, h.waiting w hw⟩

/-- Losing the floor, after the record of the holder changed. -/
theorem View.Placed.idleEnter_upd {v : View} (h : v.Placed) {u : String} {f : Part → Part}
    (hh : v.holder = some u) (hn : (v.queue.map (·.u)).Nodup) :
    (v.upd u f).idleEnter.Placed :=
  View.idleEnter_placed (fun w hw => (h.waiting_upd (h.holder_not_inQ hh) w hw).2) hn

theorem Away.placed {u : String} {v : View} {f : Part → Part} {fx : List Fx} {v' : View}
    (h : Away u (v.upd u f) fx v') (hf : (v.part u).Like (f (v.part u))) (ho : v.QueueOk)
    (hv : v.Placed) : v'.Placed ∧ v'.queue.inQ u = false := by
  cases h with
  | speaker hg hs _ =>
    have hh : v.holder = some u := holder_of_taken ⟨hg, hs⟩
    refine ⟨hv.idleEnter_upd hh ho.nodup, ?_⟩
    rw [View.idleEnter_queue]
    exact Queue.inQ_sublist (List.tail_sublist _) (hv.holder_not_inQ hh)
  | revoking hg hr => exact ⟨hv.like hf, hv.holder_not_inQ (holder_of_prevoke ⟨hg, hr⟩)⟩
  | queued _ =>
    refine ⟨(hv.like hf).dequeue u, ?_⟩
    exact List.any_eq_false.2 fun w hw => by simpa using (List.mem_filter.1 hw).2
  | other _ hq => exact ⟨hv.like hf, hq⟩

/-- A user joins that does not hold the floor. If it waits it is in `NP_TAKEN` again. -/
theorem View.Placed.enrol {v : View} (h : v.Placed) (ho : v.QueueOk) (hd : v.Held) {u : String}
    (perm : Bool) (hu : v.holder ≠ some u) :
    ({ v with members := v.members.insert u }.upd u
      (Part.joined v.holder.isSome perm)).Placed where
  holder x hx hh := by
    have hne : x ≠ u := fun e => hu (e ▸ hh)
    rw [View.upd_part_ne _ _ hne]
    have hm := TreeSet.mem_insert.1 (show x ∈ v.members.insert u from hx)
    exact h.holder x (by simpa [Ne.symm hne] using hm) hh
  waiting w hw := by
    obtain ⟨hm, hp⟩ := h.waiting w hw
    refine ⟨TreeSet.mem_insert.2 (.inr hm), ?_⟩
    by_cases hwu : w.u = u
    · have hg : v.g ≠ .idle := fun hg => by
        refine absurd (show w ∈ v.queue from hw) ?_
        rw [ho.idle hg]
        exact List.not_mem_nil
      rw [hwu, View.upd_part_self, hd hg]
      rfl
    · rw [View.upd_part_ne _ _ hwu]
      exact hp

/-! ## Every move but two -/

/-- The speaker joins again. -/
def Op.Rejoins (f : Floor) : Op → Prop
  | .wsJoin u _ => f.g = .taken ∧ f.speaker = some u
  | _ => False

/-- **Every move keeps everybody in place**, unless it is stray RTP of a waiter or a second join of
the speaker. -/
theorem Move.placed {o : Op} {v : View} {fx : List Fx} {v' : View} (h : Move o v fx v')
    (ha : v.Agreement) (ho : v.QueueOk) (hv : v.Placed)
    (hjoin : ∀ u perm, o = .wsJoin u perm → ¬ (v.g = .taken ∧ v.speaker = some u))
    (hrtp : ∀ u, o.RtpOf u → v.queue.inQ u = false) : v'.Placed := by
  cases h with
  | tune u f hf => exact hv.like hf.like
  | stray u hr hu hp =>
    exact hv.aside _ (hv.holder_ne hu (by rcases hp with hp | hp <;> simp [hp])) (hrtp u hr)
  | settle u hu hp =>
    exact hv.aside _ (hv.holder_ne hu (by simp_all)) (hv.not_inQ (by simp_all))
  | enqueue u p hmay hp _ _ =>
    refine ⟨hv.holder, ?_⟩
    intro w hw
    rcases List.mem_cons.1 ((Queue.insertQ_perm _ _).mem_iff.1 hw) with rfl | hw
    · exact ⟨hmay.member, hp⟩
    · exact hv.waiting w hw
  | dequeue u f hf _ => exact (hv.dequeue u).like hf
  | lower u f hf _ _ => exact hv.like hf
  | preempt u sp p hmay hp _ _ hg hs =>
    have hh : v.holder = some sp := holder_of_taken ⟨hg, hs⟩
    refine View.Placed.prevokeEnter _ (fun hm => hv.holder sp hm hh) ?_
    intro w hw
    rcases List.mem_cons.1 hw with rfl | hw
    · refine ⟨?_, hmay.member, hp⟩
      intro e
      exact hv.holder_ne hmay.member (by simp [hp]) ((show u = sp from e) ▸ hh)
    · exact ⟨Queue.ne_of_not_inQ (hv.holder_not_inQ hh) hw, hv.waiting w hw⟩
  | revoke u f cause hf hg hs =>
    have hh : v.holder = some u := holder_of_taken ⟨hg, hs⟩
    refine View.Placed.prevokeEnter _ ?_ (hv.waiting_upd (hv.holder_not_inQ hh))
    intro hm
    rw [View.upd_part_self, hf.part]
    exact hv.holder u hm hh
  | free u f _ hh _ => exact hv.idleEnter_upd hh ho.nodup
  | grant u p _ hp hg =>
    refine View.enterTaken_placed rfl rfl (.inr hp) ?_
    intro w hw
    refine absurd (show w ∈ v.queue from hw) ?_
    rw [ho.idle hg]
    exact List.not_mem_nil
  | regrant u n hg hs =>
    have hh : v.holder = some u := holder_of_taken ⟨hg, hs⟩
    refine ⟨?_, fun w hw => (hv.waiting_upd (hv.holder_not_inQ hh) w hw).2⟩
    intro x hx hhx
    obtain rfl : u = x := Option.some.inj (hh.symm.trans hhx)
    rw [View.hear, View.upd_part_self]
    rcases hv.holder u hx hh with hp | hp <;> simp [Part.hear, hp]
  | again hg => exact View.placed_of_idle hg (ho.idle hg)
  | pubAway u h => exact (h.placed ⟨rfl, rfl⟩ ho hv).1
  | leave u h =>
    obtain ⟨hv', hq⟩ := h.placed ⟨rfl, rfl⟩ ho hv
    refine hv'.frame rfl ?_ ?_
    · intro x hx _
      obtain ⟨hne, hm⟩ := TreeSet.mem_erase.1 hx
      have hxu : x ≠ u := fun e => by simp [e] at hne
      rw [View.upd_part_ne _ _ hxu]
      exact ⟨hm, rfl⟩
    · intro w hw
      have hne := Queue.ne_of_not_inQ hq hw
      rw [View.upd_part_ne _ _ hne]
      refine ⟨hw, TreeSet.mem_erase.2 ⟨?_, (hv'.waiting w hw).1⟩, rfl⟩
      simpa using Ne.symm hne
  | join u perm e hr => exact hv.enrol ho ha.held perm (holder_ne (hjoin u perm e) hr)
  | rejoin u perm e hg hr _ =>
    have hh : v.holder = some u := holder_of_prevoke ⟨hg, hr⟩
    have hg' : v.g ≠ .idle := by simp [hg]
    refine View.Placed.enrol (View.idleEnter_placed hv.waiting ho.nodup) ho.idleEnter
      (ha.idleEnter hg').held perm ?_
    rw [View.idleEnter_holder]
    intro hu
    obtain ⟨w, hw, hwu⟩ := Option.map_eq_some_iff.1 hu
    exact Queue.ne_of_not_inQ (hv.holder_not_inQ hh) (List.mem_of_head? hw) hwu

/-! ## Giving up, state by state -/

/-- Who does not wait is succeeded by somebody else. -/
theorem View.passed_other {v : View} {u : String} (hq : v.queue.inQ u = false) :
    (v.passed u).1 ≠ some u ∧ (v.passed u).2.inQ u = false := by
  rw [View.passed]
  split_ifs with hh
  · refine ⟨fun hu => ?_, Queue.inQ_sublist (List.tail_sublist _) hq⟩
    obtain ⟨w, hw, hwu⟩ := Option.map_eq_some_iff.1 hu
    exact Queue.ne_of_not_inQ hq (List.mem_of_head? hw) hwu
  · exact ⟨hh, hq⟩

/-- **In its place, every member gives up.** -/
theorem View.Placed.released {v : View} (h : v.Placed) {u : String} (hu : u ∈ v.members) :
    (v.released u).1 ≠ some u ∧ (v.released u).2.inQ u = false := by
  have hdeq : (v.queue.dequeue u).inQ u = false :=
    List.any_eq_false.2 fun w hw => by simpa using (List.mem_filter.1 hw).2
  rw [View.released]
  split
  · next hp => exact ⟨h.holder_ne hu (by simp [hp]), hdeq⟩
  · next hp => exact ⟨h.holder_ne hu (by simp [hp]), hdeq⟩
  · next hp => exact View.passed_other (h.not_inQ (by simp [hp]))
  · next hp => exact View.passed_other (h.not_inQ (by simp [hp]))
  · next _ h₂ h₃ h₄ => exact ⟨h.holder_ne hu (by simpa using ⟨h₃, h₄⟩), h.not_inQ h₂⟩

/-- Stray RTP of a waiter: from then on `RELEASE` leaves it in the queue. -/
theorem Op.Strays.not_givesUp {f : Floor} {o : Op} (h : o.Strays f) (hv : f.view.Placed) :
    ∃ u ∈ (f.apply o).fl.members, ¬ (f.apply o).fl.GivesUp u := by
  obtain ⟨u, hr, hq⟩ := h
  obtain ⟨w, hw, hwu⟩ := List.any_eq_true.1 hq
  obtain rfl : w.u = u := beq_iff_eq.1 hwu
  obtain ⟨hm, hp⟩ := hv.waiting w hw
  rw [apply_of_rtpOf hr hm ((f.partOf_eq w.u).trans hp)]
  have hm' : w.u ∈ ((f.start.label "FLR.S.P.NP_TAKEN.rx_RTP").revoke3 w.u).fl.members := hm
  refine ⟨w.u, hm', fun hg => ?_⟩
  have hout := ((givesUp_iff hm').1 hg).2
  have hpart : (((f.start.label "FLR.S.P.NP_TAKEN.rx_RTP").revoke3 w.u).view.part w.u).part =
      some .npSends := by
    rw [St.revoke3, St.view_sendE, View.upd_part_self]
    rfl
  rw [View.released, show View.part _ w.u = _ from rfl, hpart] at hout
  exact absurd (hout.symm.trans hq) (by simp)

/-- A second join of the speaker: from then on `RELEASE` leaves it the floor. -/
theorem Op.Rejoins.not_givesUp {f : Floor} {o : Op} (h : o.Rejoins f) :
    ∃ u ∈ (f.apply o).fl.members, ¬ (f.apply o).fl.GivesUp u := by
  cases o with
  | wsJoin u perm =>
    obtain ⟨hg, hs⟩ := h
    have hview : (f.apply (.wsJoin u perm)).view =
        { f.view with members := f.view.members.insert u }.upd u
          (Part.joined f.view.holder.isSome perm) := by
      rw [Floor.apply, Floor.wsJoin, if_neg (by simp [hg]), St.view_enrol]
      rfl
    have hm : u ∈ (f.apply (.wsJoin u perm)).fl.members := by
      rw [show (f.apply (.wsJoin u perm)).fl.members = _ from congrArg View.members hview]
      exact TreeSet.mem_insert_self
    refine ⟨u, hm, fun hgu => ((givesUp_iff hm).1 hgu).1 ?_⟩
    have hh : f.view.holder = some u := holder_of_taken ⟨hg, hs⟩
    rw [show (f.apply (.wsJoin u perm)).fl.view = _ from hview, View.released,
      View.upd_part_self, hh]
    exact hh
  | _ => exact h.elim

/-! ## Runs -/

/-- The invariant of a run in which no waiter strays and no speaker joins again. -/
structure PlacedInv (f : Floor) : Prop where
  agreement : f.view.Agreement
  queueOk : f.view.QueueOk
  placed : f.view.Placed

theorem placedInv_new (qmax t2Secs : Nat) : PlacedInv (Floor.new qmax t2Secs) where
  agreement := agreement_new qmax t2Secs
  queueOk := (queueInv_new qmax t2Secs).queueOk
  placed := View.placed_of_idle rfl rfl

theorem step_placedInv (f : Floor) (o : Op) (h : PlacedInv f) (ha : o.Armed f)
    (hs : ¬ o.Strays f ∧ ¬ o.Rejoins f) : PlacedInv (f.apply o).fl := by
  have hm := f.move o h.agreement.held ha
  refine ⟨hm.agreement h.agreement, hm.queueOk h.agreement h.queueOk, ?_⟩
  refine hm.placed h.agreement h.queueOk h.placed ?_ ?_
  · intro u perm e
    subst e
    exact hs.2
  · intro u hr
    rw [← Bool.not_eq_true]
    exact fun hq => hs.1 ⟨u, hr, hq⟩

/-- **When RELEASE gives the floor up.** Along a run, every member gives up in every state on the
way exactly when no step delivers RTP of a user that is waiting at that moment and no step joins
the speaker of that moment again. -/
theorem release_gives_up_iff (qmax t2Secs : Nat) (ops : List Op)
    (hl : machine.Legal (Floor.new qmax t2Secs) ops) :
    (∀ l₁ l₂, ops = l₁ ++ l₂ → ∀ u ∈ (machine.exec (Floor.new qmax t2Secs) l₁).members,
      (machine.exec (Floor.new qmax t2Secs) l₁).GivesUp u) ↔
      ∀ l₁ o l₂, ops = l₁ ++ o :: l₂ →
        ¬ o.Strays (machine.exec (Floor.new qmax t2Secs) l₁) ∧
        ¬ o.Rejoins (machine.exec (Floor.new qmax t2Secs) l₁) := by
  refine Machine.throughout_iff (M := machine) (I := PlacedInv)
    (P := fun f => ∀ u ∈ f.members, f.GivesUp u)
    (g := fun f o => ¬ o.Strays f ∧ ¬ o.Rejoins f)
    (fun f o hi ho hs => step_placedInv f o hi ho hs) ?_ ?_ (placedInv_new qmax t2Secs) hl
  · intro f hi u hu
    exact (givesUp_iff hu).2 (hi.placed.released hu)
  · intro f o hi _ hs hgu
    have hbad : o.Strays f ∨ o.Rejoins f := by
      by_contra hn
      exact hs (not_or.1 hn)
    obtain ⟨u, hu, hn⟩ : ∃ u ∈ (f.apply o).fl.members, ¬ (f.apply o).fl.GivesUp u := by
      rcases hbad with h | h
      · exact h.not_givesUp hi.placed
      · exact h.not_givesUp
    exact hn (hgu u hu)

/-- `b` waits behind `a`, sends a packet and then `RELEASE`: it is acknowledged and still waits. -/
theorem release_not_gives_up :
    ¬ ∀ (qmax t2Secs : Nat) (ops : List Op), machine.Legal (Floor.new qmax t2Secs) ops →
      ∀ u ∈ (machine.exec (Floor.new qmax t2Secs) ops).members,
        (machine.exec (Floor.new qmax t2Secs) ops).GivesUp u := by
  intro h
  have hg := h 10 30 (strayRun.take 7) (by decide) "b" (by decide)
  exact absurd (hg { t := .release } true 0 rfl).2.2 (by decide)

theorem release_gives_up_iff_preempt :
    machine.Legal (Floor.new 10 30) preemptRun ∧
    ((∀ l₁ l₂, preemptRun = l₁ ++ l₂ → ∀ u ∈ (machine.exec (Floor.new 10 30) l₁).members,
      (machine.exec (Floor.new 10 30) l₁).GivesUp u) ↔
      ∀ l₁ o l₂, preemptRun = l₁ ++ o :: l₂ →
        ¬ o.Strays (machine.exec (Floor.new 10 30) l₁) ∧
        ¬ o.Rejoins (machine.exec (Floor.new 10 30) l₁)) :=
  ⟨by decide, release_gives_up_iff 10 30 preemptRun (by decide)⟩

end OxlensSfu.Flr
