import OxlensSfu.Floor.Queue

/-!
# Who holds the floor and who may wait for it

A succession gives the floor to the head of the queue without asking again whether that user may
speak, so the queue must hold only users that may. `View.Valid` says so. It is kept by every move
but one: stray RTP takes its sender out of `NP_TAKEN` and leaves it in the queue. A run keeps it,
then, exactly when no RTP of a waiting user is delivered (`Op.Strays`).
-/

namespace OxlensSfu.Flr

open Std

/-! ## Validity -/

/-- `u` is a member in state `st` that publishes here and may speak. -/
structure View.Entitled (v : View) (u : String) (st : P) : Prop where
  member : u ∈ v.members
  part : (v.part u).part = some st
  pubRoom : (v.part u).pubRoom = true
  perm : (v.part u).perm = true

/-- The speaker is permitted, the waiters are in `NP_TAKEN`, and all of them may speak. A user the
floor is revoked from may have left. -/
structure View.Valid (v : View) : Prop where
  speaker : ∀ s, v.g = .taken → v.speaker = some s → v.Entitled s .permitted
  waiting : ∀ w ∈ v.queue, v.Entitled w.u .npTaken
  revoked : ∀ r, v.g = .prevoke → v.revoking = some r → r ∈ v.members →
    (v.part r).part = some .prevoke

theorem View.Entitled.keep {v v' : View} {u : String} {st : P} (h : v.Entitled u st)
    (hm : u ∈ v'.members) (hk : (v.part u).Keeps (v'.part u)) : v'.Entitled u st :=
  ⟨hm, hk.part.trans h.part, hk.pubRoom h.pubRoom, hk.perm h.perm⟩

theorem View.Entitled.congr {v v' : View} {u : String} {st : P} (h : v.Entitled u st)
    (hm : v'.members = v.members) (hp : v'.part u = v.part u) : v'.Entitled u st :=
  h.keep (hm ▸ h.member) (hp ▸ .refl _)

/-- An idle floor has nobody to be valid. -/
theorem View.valid_of_idle {v : View} (hg : v.g = .idle) (hq : v.queue = []) : v.Valid where
  speaker _ h := by simp [hg] at h
  waiting _ h := by simp [hq] at h
  revoked _ h := by simp [hg] at h

/-- Waiters do not hold the floor. -/
theorem View.Valid.holder_ne {v : View} (h : v.Valid) {w : Waiter} (hw : w ∈ v.queue) :
    v.holder ≠ some w.u := by
  intro hh
  have hwait := h.waiting w hw
  cases hg : v.g with
  | idle => rw [View.holder, hg] at hh; simp at hh
  | taken =>
    rw [View.holder, hg] at hh
    have hp := (h.speaker w.u hg hh).part
    rw [hwait.part] at hp
    simp at hp
  | prevoke =>
    rw [View.holder, hg] at hh
    have hp := h.revoked w.u hg hh hwait.member
    rw [hwait.part] at hp
    simp at hp

theorem View.Valid.holder_not_inQ {v : View} (h : v.Valid) {u : String}
    (hu : v.holder = some u) : v.queue.inQ u = false := by
  refine List.any_eq_false.2 fun w hw hwu => h.holder_ne hw ?_
  rw [beq_iff_eq.1 hwu]
  exact hu

theorem Queue.ne_of_not_inQ {q : Queue} {u : String} (h : q.inQ u = false) {w : Waiter}
    (hw : w ∈ q) : w.u ≠ u := by
  intro e
  simp [← e, Queue.inQ_of_mem hw] at h

/-! ## Moves that leave the holder alone -/

/-- What has to be checked when the holder stays: its record, and the records of the waiters. -/
theorem View.Valid.frame {v v' : View} (h : v.Valid) (hg : v'.g = v.g)
    (hs : v'.speaker = v.speaker) (hr : v'.revoking = v.revoking)
    (hsp : ∀ s, v.g = .taken → v.speaker = some s →
      s ∈ v'.members ∧ (v.part s).Keeps (v'.part s))
    (hq : ∀ w ∈ v'.queue, w ∈ v.queue ∧ w.u ∈ v'.members ∧ (v.part w.u).Keeps (v'.part w.u))
    (hrv : ∀ r, v.g = .prevoke → v.revoking = some r → r ∈ v'.members →
      r ∈ v.members ∧ (v'.part r).part = (v.part r).part) : v'.Valid where
  speaker s hgt hss := by
    rw [hg] at hgt
    rw [hs] at hss
    exact (h.speaker s hgt hss).keep (hsp s hgt hss).1 (hsp s hgt hss).2
  waiting w hw := by
    obtain ⟨hw', hm, hk⟩ := hq w hw
    exact (h.waiting w hw').keep hm hk
  revoked r hgp hrr hm := by
    rw [hg] at hgp
    rw [hr] at hrr
    obtain ⟨hm', hp⟩ := hrv r hgp hrr hm
    exact hp.trans (h.revoked r hgp hrr hm')

theorem View.upd_keeps {v : View} {u : String} {f : Part → Part}
    (h : (v.part u).Keeps (f (v.part u))) (x : String) :
    (v.part x).Keeps ((v.upd u f).part x) := by
  by_cases hx : x = u
  · subst hx; rwa [View.upd_part_self]
  · rw [View.upd_part_ne _ _ hx]; exact .refl _

theorem View.Valid.tune {v : View} (h : v.Valid) {u : String} {f : Part → Part}
    (hf : (v.part u).Keeps (f (v.part u))) : (v.upd u f).Valid := by
  refine h.frame rfl rfl rfl ?_ ?_ ?_
  · intro s hg hs
    exact ⟨(h.speaker s hg hs).member, View.upd_keeps hf s⟩
  · intro w hw
    exact ⟨hw, (h.waiting w hw).member, View.upd_keeps hf w.u⟩
  · intro r _ _ hm
    exact ⟨hm, (View.upd_keeps hf r).part⟩

/-- The record of a user that neither speaks nor waits may change, unless that user is losing the
floor, and then its state must stay. -/
theorem View.Valid.aside {v : View} (h : v.Valid) {u : String} {f : Part → Part}
    (hs : ¬ (v.g = .taken ∧ v.speaker = some u)) (hq : v.queue.inQ u = false)
    (hr : (f (v.part u)).part = (v.part u).part ∨
      ¬ (v.g = .prevoke ∧ v.revoking = some u ∧ u ∈ v.members)) : (v.upd u f).Valid := by
  refine h.frame rfl rfl rfl ?_ ?_ fun r hg hrr hm => ⟨hm, ?_⟩
  · intro s hg hss
    have hne : s ≠ u := fun e => hs ⟨hg, e ▸ hss⟩
    rw [View.upd_part_ne _ _ hne]
    exact ⟨(h.speaker s hg hss).member, .refl _⟩
  · intro w hw
    rw [View.upd_part_ne _ _ (Queue.ne_of_not_inQ hq hw)]
    exact ⟨hw, (h.waiting w hw).member, .refl _⟩
  · by_cases hru : r = u
    · subst hru
      rw [View.upd_part_self]
      exact hr.resolve_right fun hn => hn ⟨hg, hrr, hm⟩
    · rw [View.upd_part_ne _ _ hru]

/-- A member in another state than those the roles ask for has none of the roles. -/
theorem View.Valid.no_role {v : View} (h : v.Valid) {u : String} (hu : u ∈ v.members)
    (hp : (v.part u).part ∉ [some .permitted, some .prevoke]) :
    ¬ (v.g = .taken ∧ v.speaker = some u) ∧
      ¬ (v.g = .prevoke ∧ v.revoking = some u ∧ u ∈ v.members) := by
  refine ⟨?_, ?_⟩
  · intro hsp
    obtain ⟨hg, hs⟩ := hsp
    simp [(h.speaker u hg hs).part] at hp
  · intro hrv
    obtain ⟨hg, hr, -⟩ := hrv
    simp [h.revoked u hg hr hu] at hp

theorem View.Valid.dequeue {v : View} (h : v.Valid) {u : String} {f : Part → Part}
    (hf : (v.part u).Like (f (v.part u)))
    (hk : (v.part u).Keeps (f (v.part u)) ∨ ¬ (v.g = .taken ∧ v.speaker = some u)) :
    ({ v with queue := v.queue.dequeue u }.upd u f).Valid := by
  refine h.frame rfl rfl rfl ?_ ?_ ?_
  · intro s hg hs
    refine ⟨(h.speaker s hg hs).member, ?_⟩
    by_cases hsu : s = u
    · subst hsu
      rw [View.upd_part_self]
      exact hk.resolve_right fun hn => hn ⟨hg, hs⟩
    · rw [View.upd_part_ne _ _ hsu]
      exact .refl _
  · intro w hw
    obtain ⟨hw', hne⟩ := List.mem_filter.1 hw
    have hwu : w.u ≠ u := by simpa using hne
    rw [View.upd_part_ne _ _ hwu]
    exact ⟨hw', (h.waiting w hw').member, .refl _⟩
  · intro r _ _ hm
    exact ⟨hm, (View.upd_like (v := { v with queue := v.queue.dequeue u }) hf r).part⟩

/-- A user that neither speaks nor waits may leave. -/
theorem View.Valid.leave {v : View} (h : v.Valid) {u : String} {f : Part → Part}
    (hs : ¬ (v.g = .taken ∧ v.speaker = some u)) (hq : v.queue.inQ u = false) :
    ({ v with members := v.members.erase u }.upd u f).Valid := by
  have hmem : ∀ x ∈ v.members, x ≠ u → x ∈ v.members.erase u := fun x hx hxu => by
    rw [TreeSet.mem_erase]
    exact ⟨by simpa using Ne.symm hxu, hx⟩
  refine h.frame rfl rfl rfl ?_ ?_ ?_
  · intro s hg hss
    have hne : s ≠ u := fun e => hs ⟨hg, e ▸ hss⟩
    rw [View.upd_part_ne _ _ hne]
    exact ⟨hmem s (h.speaker s hg hss).member hne, .refl _⟩
  · intro w hw
    have hne := Queue.ne_of_not_inQ hq hw
    rw [View.upd_part_ne _ _ hne]
    exact ⟨hw, hmem w.u (h.waiting w hw).member hne, .refl _⟩
  · intro r _ _ hm
    obtain ⟨hne, hm'⟩ := TreeSet.mem_erase.1 hm
    have hru : r ≠ u := fun e => by simp [e] at hne
    rw [View.upd_part_ne _ _ hru]
    exact ⟨hm', rfl⟩

/-- A new member changes nothing for the others. -/
theorem View.Valid.join {v : View} (h : v.Valid) {u : String} {f : Part → Part}
    (hu : u ∉ v.members) (hr : ¬ (v.g = .prevoke ∧ v.revoking = some u)) :
    ({ v with members := v.members.insert u }.upd u f).Valid := by
  have hmem : ∀ x ∈ v.members, x ≠ u ∧ x ∈ v.members.insert u := fun x hx =>
    ⟨fun e => hu (e ▸ hx), TreeSet.mem_insert.2 (.inr hx)⟩
  refine h.frame rfl rfl rfl ?_ ?_ ?_
  · intro s hg hss
    obtain ⟨hne, hm⟩ := hmem s (h.speaker s hg hss).member
    rw [View.upd_part_ne _ _ hne]
    exact ⟨hm, .refl _⟩
  · intro w hw
    obtain ⟨hne, hm⟩ := hmem w.u (h.waiting w hw).member
    rw [View.upd_part_ne _ _ hne]
    exact ⟨hw, hm, .refl _⟩
  · intro r hg hrr hm
    have hru : r ≠ u := fun e => hr ⟨hg, e ▸ hrr⟩
    rw [View.upd_part_ne _ _ hru]
    have hm' := TreeSet.mem_insert.1 (show r ∈ v.members.insert u from hm)
    exact ⟨by simpa [Ne.symm hru] using hm', rfl⟩

/-! ## Moves of the holder -/

/-- Who hears what when the floor goes to `s`. -/
theorem View.enterTaken_part {v : View} {s : String} (hs : v.speaker = some s) :
    v.enterTaken.part = fun u =>
      if u ∈ v.members ∧ u ≠ s then (v.part u).hear .taken 0
      else if u = s then (v.part s).hear .granted v.sprio else v.part u := by
  funext u
  by_cases hu : u = s
  · subst hu
    simp [View.enterTaken, View.hearAll, View.hear, View.upd, hs]
  · simp [View.enterTaken, View.hearAll, View.hear, View.upd, hs, hu]

/-- Giving the floor to `s`, who may speak, while the waiters are others. -/
theorem View.enterTaken_valid {v : View} {s : String} (hg : v.g = .taken)
    (hs : v.speaker = some s) (hst : v.Entitled s .npTaken ∨ v.Entitled s .npIdle)
    (hq : ∀ w ∈ v.queue, w.u ≠ s ∧ v.Entitled w.u .npTaken) : v.enterTaken.Valid := by
  have hpart := View.enterTaken_part hs
  refine ⟨?_, ?_, ?_⟩
  · intro x _ hx
    obtain rfl : s = x := Option.some.inj (hs.symm.trans hx)
    have hps : v.enterTaken.part s = (v.part s).enter .permitted := by
      rw [hpart]
      rcases hst with hst | hst <;> simp [Part.hear, hst.part]
    refine ⟨?_, ?_, ?_, ?_⟩
    · rcases hst with hst | hst <;> exact hst.member
    · rw [hps]; rfl
    · rw [hps]
      rcases hst with hst | hst <;> exact hst.pubRoom
    · rw [hps]
      rcases hst with hst | hst <;> exact hst.perm
  · intro w hw
    obtain ⟨hne, he⟩ := hq w hw
    have hpw : v.enterTaken.part w.u = { v.part w.u with c21 := 1 } := by
      rw [hpart]
      simp [Part.hear, he.member, hne, he.part]
    refine ⟨he.member, ?_, ?_, ?_⟩ <;> rw [hpw]
    · exact he.part
    · exact he.pubRoom
    · exact he.perm
  · intro r hr
    rw [show v.enterTaken.g = v.g from rfl, hg] at hr
    simp at hr

/-- **Succession is to a user that may speak.** -/
theorem View.idleEnter_valid {v : View} (hw : ∀ w ∈ v.queue, v.Entitled w.u .npTaken)
    (hn : (v.queue.map (·.u)).Nodup) : v.idleEnter.Valid := by
  cases hq : v.queue with
  | nil =>
    rw [View.idleEnter_nil hq]
    exact View.valid_of_idle rfl hq
  | cons w ws =>
    rw [View.idleEnter_cons hq]
    rw [hq] at hw hn
    obtain ⟨hw₁, hws⟩ := List.forall_mem_cons.1 hw
    refine View.enterTaken_valid rfl rfl (.inl (hw₁.congr rfl rfl)) fun x hx =>
      ⟨?_, (hws x hx).congr rfl rfl⟩
    intro e
    have hmem : w.u ∈ ws.map (·.u) := e ▸ List.mem_map_of_mem (f := (·.u)) hx
    exact (List.nodup_cons.1 hn).1 hmem

/-- Who does not wait does not get the floor. -/
theorem View.idleEnter_speaker_ne {v : View} {u : String} (h : v.queue.inQ u = false) :
    ¬ (v.idleEnter.g = .taken ∧ v.idleEnter.speaker = some u) := by
  intro hs
  have hh : v.idleEnter.holder = some u := holder_of_taken hs
  rw [View.idleEnter_holder, Option.map_eq_some_iff] at hh
  obtain ⟨w, hw, rfl⟩ := hh
  exact Queue.ne_of_not_inQ h (List.mem_of_head? hw) rfl

theorem Queue.inQ_sublist {q q' : Queue} {u : String} (h : q'.Sublist q)
    (hq : q.inQ u = false) : q'.inQ u = false :=
  List.any_eq_false.2 fun w hw => List.any_eq_false.1 hq w (h.subset hw)

theorem View.Valid.prevokeEnter {v : View} {u : String} (cause : Nat)
    (hp : (v.part u).part = some .permitted)
    (hq : ∀ w ∈ v.queue, w.u ≠ u ∧ v.Entitled w.u .npTaken) :
    (v.prevokeEnter u cause).Valid := by
  refine ⟨fun _ hg => (nomatch hg), ?_, ?_⟩
  · intro w hw
    obtain ⟨hne, he⟩ := hq w hw
    refine he.keep he.member ?_
    rw [View.prevokeEnter, View.hear, View.upd_part_ne _ _ hne]
    exact .refl _
  · intro r _ hr _
    obtain rfl : u = r := Option.some.inj hr
    rw [View.prevokeEnter, View.hear, View.upd_part_self]
    simp [Part.hear, hp, Part.enter]

/-- The waiters of a valid state, after the record of a user that does not wait changed. -/
theorem View.Valid.waiting_upd {v : View} (h : v.Valid) {u : String} {f : Part → Part}
    (hq : v.queue.inQ u = false) :
    ∀ w ∈ v.queue, w.u ≠ u ∧ (v.upd u f).Entitled w.u .npTaken := by
  intro w hw
  have hne := Queue.ne_of_not_inQ hq hw
  refine ⟨hne, (h.waiting w hw).keep (h.waiting w hw).member ?_⟩
  rw [View.upd_part_ne _ _ hne]
  exact .refl _

/-- Going away takes every role but that of losing the floor. -/
theorem Away.valid {u : String} {v : View} {f : Part → Part} {fx : List Fx} {v' : View}
    (h : Away u (v.upd u f) fx v') (hf : (v.part u).Like (f (v.part u))) (ho : v.QueueOk)
    (hv : v.Valid) :
    v'.Valid ∧ ¬ (v'.g = .taken ∧ v'.speaker = some u) ∧ v'.queue.inQ u = false := by
  cases h with
  | speaker hg hs _ =>
    have hq : v.queue.inQ u = false := hv.holder_not_inQ (holder_of_taken ⟨hg, hs⟩)
    refine ⟨View.idleEnter_valid (fun w hw => (hv.waiting_upd hq w hw).2) ho.nodup,
      View.idleEnter_speaker_ne hq, ?_⟩
    rw [View.idleEnter_queue]
    exact Queue.inQ_sublist (List.tail_sublist _) hq
  | revoking hg hr =>
    have hq : v.queue.inQ u = false := hv.holder_not_inQ (holder_of_prevoke ⟨hg, hr⟩)
    have hns : ¬ (v.g = .taken ∧ v.speaker = some u) := fun hs => by
      rw [show v.g = .prevoke from hg] at hs
      simp at hs
    exact ⟨hv.aside hns hq (.inl hf.part), hns, hq⟩
  | queued hh =>
    have hns : ¬ (v.g = .taken ∧ v.speaker = some u) := fun hs => hh (holder_of_taken hs)
    refine ⟨hv.dequeue hf (.inr hns), hns, ?_⟩
    exact List.any_eq_false.2 fun w hw => by simpa using (List.mem_filter.1 hw).2
  | other hh hq =>
    have hns : ¬ (v.g = .taken ∧ v.speaker = some u) := fun hs => hh (holder_of_taken hs)
    exact ⟨hv.aside hns hq (.inl hf.part), hns, hq⟩

/-! ## Every move but one -/

/-- The operation delivers RTP of a user that is waiting for the floor. -/
def Op.Strays (f : Floor) (o : Op) : Prop := ∃ u, o.RtpOf u ∧ f.queue.inQ u = true

/-- Only users that are not members join, as `rooms::join` sees to by evicting first. -/
def Op.Fresh (f : Floor) : Op → Prop
  | .wsJoin u _ => u ∉ f.members
  | _ => True

/-- **Every move keeps the floor valid**, unless it is stray RTP of a waiter. -/
theorem Move.valid {o : Op} {v : View} {fx : List Fx} {v' : View} (h : Move o v fx v')
    (ho : v.QueueOk) (hv : v.Valid) (hfresh : ∀ u perm, o = .wsJoin u perm → u ∉ v.members)
    (hrtp : ∀ u, o.RtpOf u → v.queue.inQ u = false) : v'.Valid := by
  cases h with
  | tune u f hf => exact hv.tune hf
  | stray u hr hu hp =>
    have hrole := hv.no_role hu (by rcases hp with hp | hp <;> simp [hp])
    exact hv.aside hrole.1 (hrtp u hr) (.inr hrole.2)
  | settle u hu hp =>
    have hrole := hv.no_role hu (by simp_all)
    refine hv.aside hrole.1 ?_ (.inr hrole.2)
    refine List.any_eq_false.2 fun w hw hwu => hp ?_
    rw [← beq_iff_eq.1 hwu, (hv.waiting w hw).part]
    simp
  | enqueue u p hmay hp _ _ =>
    refine ⟨fun s hg hs => (hv.speaker s hg hs).congr rfl rfl, ?_, hv.revoked⟩
    intro w hw
    rcases List.mem_cons.1 ((Queue.insertQ_perm _ _).mem_iff.1 hw) with rfl | hw
    · exact ⟨hmay.member, hp, hmay.pubRoom, hmay.perm⟩
    · exact (hv.waiting w hw).congr rfl rfl
  | dequeue u f hf hk => exact hv.dequeue hf hk
  | lower u f hf hs hq => exact hv.aside hs hq (.inl hf.part)
  | preempt u sp p hmay hp _ _ hg hs =>
    have hsp := hv.speaker sp hg hs
    have hq : v.queue.inQ sp = false := hv.holder_not_inQ (holder_of_taken ⟨hg, hs⟩)
    refine View.Valid.prevokeEnter _ hsp.part ?_
    intro w hw
    rcases List.mem_cons.1 hw with rfl | hw
    · refine ⟨?_, hmay.member, hp, hmay.pubRoom, hmay.perm⟩
      intro e
      rw [show u = sp from e, hsp.part] at hp
      simp at hp
    · exact ⟨Queue.ne_of_not_inQ hq hw, (hv.waiting w hw).congr rfl rfl⟩
  | revoke u f cause hf hg hs =>
    refine View.Valid.prevokeEnter _ ?_ (hv.waiting_upd (f := f)
      (hv.holder_not_inQ (holder_of_taken ⟨hg, hs⟩)))
    rw [View.upd_part_self, hf.part, (hv.speaker u hg hs).part]
  | free u f hf hh _ =>
    refine View.idleEnter_valid ?_ ho.nodup
    intro w hw
    exact (hv.waiting_upd (hv.holder_not_inQ hh) w hw).2
  | grant u p hmay hp hg =>
    refine View.enterTaken_valid rfl rfl
      (.inr ⟨hmay.member, hp, hmay.pubRoom, hmay.perm⟩) ?_
    intro w hw
    rw [show View.queue _ = v.queue from rfl, ho.idle hg] at hw
    simp at hw
  | regrant u n hg hs =>
    have hp := (hv.speaker u hg hs).part
    rw [View.hear, View.upd_of_fix (by simp [Part.hear, hp])]
    exact hv
  | again hg => exact View.valid_of_idle hg (ho.idle hg)
  | pubAway u h => exact (h.valid ⟨rfl, rfl⟩ ho hv).1
  | leave u h =>
    obtain ⟨hv', hs, hq⟩ := h.valid ⟨rfl, rfl⟩ ho hv
    exact hv'.leave hs hq
  | join u perm e hr => exact hv.join (hfresh u perm e) hr
  | rejoin u perm e hg hr _ =>
    have hv' : v.idleEnter.Valid := View.idleEnter_valid hv.waiting ho.nodup
    refine hv'.join ?_ ?_
    · rw [View.idleEnter_members]
      exact hfresh u perm e
    · intro hgr
      rcases v.idleEnter_g with ⟨-, hi⟩ | ⟨-, hi⟩ <;> rw [hi] at hgr <;> simp at hgr

/-! ## Runs -/

/-- The holder and the waiters, as the protocol promises them. -/
structure Floor.Valid (f : Floor) : Prop where
  speaker : ∀ s, f.g = .taken → f.speaker = some s →
    s ∈ f.members ∧ f.partOf s = some .permitted ∧ (f.part s).pubRoom = true ∧
      (f.part s).perm = true ∧ f.queue.inQ s = false
  waiting : ∀ w ∈ f.queue,
    w.u ∈ f.members ∧ (f.part w.u).pubRoom = true ∧ (f.part w.u).perm = true ∧
      f.partOf w.u = some .npTaken ∧ f.holder ≠ some w.u

theorem View.Valid.valid {f : Floor} (h : f.view.Valid) : f.Valid where
  speaker s hg hs := by
    have he := h.speaker s hg hs
    refine ⟨he.member, ?_, he.pubRoom, he.perm, h.holder_not_inQ (holder_of_taken ⟨hg, hs⟩)⟩
    rw [Floor.partOf_eq]
    exact he.part
  waiting w hw := by
    have he := h.waiting w hw
    refine ⟨he.member, he.pubRoom, he.perm, ?_, h.holder_ne hw⟩
    rw [Floor.partOf_eq]
    exact he.part

/-- What RTP of a member does that listens to another. -/
theorem apply_of_rtpOf {f : Floor} {o : Op} {u : String} (hr : o.RtpOf u) (hm : u ∈ f.members)
    (hpart : f.partOf u = some .npTaken) :
    (f.apply o).fl = ((f.start.label "FLR.S.P.NP_TAKEN.rx_RTP").revoke3 u).fl := by
  cases o with
  | serverRx x m half d =>
    obtain ⟨rfl, ht⟩ := hr
    simp [Floor.apply, Floor.serverRx, ht, hm, St.partC, Floor.start, hpart]
  | rtp x =>
    obtain rfl : x = u := hr
    simp [Floor.apply, Floor.rtp, hm, St.partC, Floor.start, hpart]
  | _ => exact hr.elim

/-- Stray RTP of a waiter leaves it in the queue, no longer in `NP_TAKEN`. -/
theorem Op.Strays.invalid {f : Floor} {o : Op} (h : o.Strays f) (hv : f.Valid) :
    ¬ (f.apply o).fl.Valid := by
  obtain ⟨u, hr, hq⟩ := h
  obtain ⟨w, hw, hwu⟩ := List.any_eq_true.1 hq
  obtain rfl : w.u = u := beq_iff_eq.1 hwu
  obtain ⟨hm, -, -, hpart, -⟩ := hv.waiting w hw
  have happly := apply_of_rtpOf hr hm hpart
  intro hv'
  have hp := (hv'.waiting w (by rw [happly]; exact hw)).2.2.2.1
  rw [Floor.partOf_eq, happly,
    show Floor.part _ = (St.view (St.revoke3 _ w.u)).part from rfl, St.revoke3, St.view_sendE,
    View.upd_part_self] at hp
  simp [Part.enter] at hp

/-- The invariant of a run in which no waiter strays. -/
structure HolderInv (f : Floor) : Prop where
  agreement : f.view.Agreement
  queueOk : f.view.QueueOk
  valid : f.view.Valid

theorem holderInv_new (qmax t2Secs : Nat) : HolderInv (Floor.new qmax t2Secs) where
  agreement := agreement_new qmax t2Secs
  queueOk := (queueInv_new qmax t2Secs).queueOk
  valid := View.valid_of_idle rfl rfl

theorem step_holderInv (f : Floor) (o : Op) (h : HolderInv f) (ha : o.Armed f)
    (hfresh : o.Fresh f) (hs : ¬ o.Strays f) : HolderInv (f.apply o).fl := by
  have hm := f.move o h.agreement.held ha
  refine ⟨hm.agreement h.agreement, hm.queueOk h.agreement h.queueOk, ?_⟩
  refine hm.valid h.queueOk h.valid ?_ ?_
  · intro u perm e
    subst e
    exact hfresh
  · intro u hr
    rw [← Bool.not_eq_true]
    exact fun hq => hs ⟨u, hr, hq⟩

instance (f : Floor) : (o : Op) → Decidable (o.Fresh f)
  | .wsJoin u _ => inferInstanceAs (Decidable (u ∉ f.members))
  | .serverRx .. | .ready _ | .permDown _ | .permUp _ | .wsPubSelect _ | .wsPubAway _
  | .wsLeave _ | .rtp _ | .t1 | .t2 | .t3 | .t7 | .t20 | .t8 _ | .t9 _ | .t21 _ =>
    inferInstanceAs (Decidable True)

/-- **When the holder and the waiters are what the protocol promises.** In a run in which only
non-members join, every state on the way is valid exactly when no step delivers RTP of a user
that is waiting at that moment. -/
theorem holder_valid_iff (qmax t2Secs : Nat) (ops : List Op)
    (hl : (machine.restrict fun f o => o.Fresh f).Legal (Floor.new qmax t2Secs) ops) :
    (∀ l₁ l₂, ops = l₁ ++ l₂ → (machine.exec (Floor.new qmax t2Secs) l₁).Valid) ↔
      ∀ l₁ o l₂, ops = l₁ ++ o :: l₂ →
        ¬ o.Strays (machine.exec (Floor.new qmax t2Secs) l₁) := by
  have h := Machine.throughout_iff (M := machine.restrict fun f o => o.Fresh f) (P := Floor.Valid)
    (g := fun f o => ¬ o.Strays f)
    (fun f o hi ho hs => step_holderInv f o hi ho.1 ho.2 hs) (fun f hi => hi.valid.valid)
    (fun f o hi _ hs => (not_not.1 hs).invalid hi.valid.valid) (holderInv_new qmax t2Secs) hl
  simpa only [Machine.restrict_exec] using h

/-- `a` speaks, `b` waits, sends a packet, and is given the floor when `a` releases it. -/
def strayRun : List Op :=
  [.wsJoin "a" true, .wsJoin "b" true, .wsPubSelect "a", .wsPubSelect "b",
    .serverRx "a" { t := .request } true 0, .serverRx "b" { t := .request } true 0,
    .rtp "b", .serverRx "a" { t := .release } true 0]

/-- The new speaker was sent `REVOKE` and not `GRANTED`: it is in `NPSENDS`, not permitted. -/
theorem holder_not_valid :
    ¬ ∀ (qmax t2Secs : Nat) (ops : List Op),
      (machine.restrict fun f o => o.Fresh f).Legal (Floor.new qmax t2Secs) ops →
      (machine.exec (Floor.new qmax t2Secs) ops).Valid := by
  intro h
  have hv := h 10 30 strayRun (by decide)
  have hp := (hv.speaker "b" (by decide) (by decide)).2.1
  exact absurd hp (by decide)

theorem holder_valid_iff_crowd :
    (machine.restrict fun f o => o.Fresh f).Legal (Floor.new 2 30) crowdRun ∧
    ((∀ l₁ l₂, crowdRun = l₁ ++ l₂ → (machine.exec (Floor.new 2 30) l₁).Valid) ↔
      ∀ l₁ o l₂, crowdRun = l₁ ++ o :: l₂ → ¬ o.Strays (machine.exec (Floor.new 2 30) l₁)) :=
  ⟨by decide, holder_valid_iff 2 30 crowdRun (by decide)⟩

end OxlensSfu.Flr
