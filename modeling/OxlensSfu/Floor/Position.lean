import OxlensSfu.Floor.Queue
import OxlensSfu.Floor.Wire

/-!
# Queue positions on the wire

`QINFO` tells a user its place in the queue in one byte, where 254 stands for not being queued.
What the arbitration puts into the message is right (`apply_tells`). The byte is right as long as
the position is not 254 itself and fits (`truthful_iff`), and the queue may hold one waiter more
than its bound, the preempting one.

**Theorem (`position_truthful_iff`).** The byte is right in every run exactly when the bound of
the queue is at most 252.
-/

namespace OxlensSfu.Flr

open Std

/-! ## The types of what is said -/

namespace St

/-- What `l'` says beyond `l` is of the types of `T`. -/
def Adds (T : Mt → Prop) (l l' : List Out) : Prop := ∀ o ∈ l', o ∈ l ∨ T o.m.t

namespace Adds

variable {T : Mt → Prop}

theorem refl (l : List Out) : Adds T l l := fun _ => .inl

theorem trans {l l' l'' : List Out} (h : Adds T l l') (h' : Adds T l' l'') : Adds T l l'' :=
  fun o ho => (h' o ho).elim (h o) .inr

theorem mono {T' : Mt → Prop} {l l' : List Out} (h : Adds T l l') (hT : ∀ t, T t → T' t) :
    Adds T' l l' := fun o ho => (h o ho).imp_right (hT _)

theorem label (s : St) (l : String) : Adds T s.r.out (s.label l).r.out := refl _

theorem p (s : St) (u : String) (f : Part → Part) : Adds T s.r.out (s.p u f).r.out := refl _

theorem dequeue (s : St) (u : String) : Adds T s.r.out (s.dequeue u).r.out := refl _

theorem send (s : St) (u : String) {t : Mt} (a : Option String) (n d : Nat) (ht : T t) :
    Adds T s.r.out (s.send u t a n d).r.out := by
  intro o ho
  rcases List.mem_append.1 ho with ho | ho
  · exact .inl ho
  · obtain rfl := List.mem_singleton.1 ho
    exact .inr ht

theorem enterR (s : St) (u : String) (st : P) : Adds T s.r.out (s.enterR u st).r.out := by
  cases st <;> exact refl _

theorem sendE (s : St) (u : String) (st : P) {m : Msg} (hm : T m.t) :
    Adds T s.r.out (s.sendE u st m).r.out := (enterR s u st).trans (send _ _ _ _ _ hm)

theorem partA (s : St) (u : String) (ev : Msg) :
    Adds (· = ev.t) s.r.out (s.partA u ev).r.out := by
  rw [St.partA]
  split
  -- Peel the helpers of each branch from its end.
  all_goals repeat' first
    | with_reducible exact label _ _
    | with_reducible refine trans ?_ (send _ _ _ _ _ ?_)
    | with_reducible refine trans ?_ (sendE _ _ _ ?_)
    | with_reducible refine trans ?_ (enterR _ _ _)
    | with_reducible refine trans ?_ (p _ _ _)
  all_goals simp_all

theorem foldl_partA (ev : Msg) (l : List String) (s : St) :
    Adds (· = ev.t) s.r.out (l.foldl (fun s u => s.partA u ev) s).r.out := by
  induction l generalizing s with
  | nil => exact refl _
  | cons x l ih => exact (partA s x ev).trans (ih _)

theorem fan (s : St) (ev : Msg) (skip : Option String) :
    Adds (· = ev.t) s.r.out (s.fan ev skip).r.out := by
  have hnum : (s.numbered ev).1.r = s.r ∧ (s.numbered ev).2.t = ev.t := by
    unfold St.numbered
    split <;> exact ⟨rfl, rfl⟩
  obtain ⟨hr, ht⟩ := hnum
  have hcast := foldl_partA (s.numbered ev).2 (s.fl.members.toList.filter fun x => some x ≠ skip)
    (s.numbered ev).1
  rwa [ht, hr] at hcast

end Adds

/-- Anything but a position is said. -/
abbrev Quiet (s s' : St) : Prop := Adds (· ≠ .qinfo) s.r.out s'.r.out

namespace Quiet

theorem partA (s : St) (u : String) (ev : Msg) (h : ev.t ≠ .qinfo) : Quiet s (s.partA u ev) :=
  (Adds.partA s u ev).mono fun _ ht => ht ▸ h

theorem fan (s : St) (ev : Msg) (skip : Option String) (h : ev.t ≠ .qinfo) :
    Quiet s (s.fan ev skip) := (Adds.fan s ev skip).mono fun _ ht => ht ▸ h

theorem enterTaken (s : St) : Quiet s s.enterTaken := by
  have hgrant : Quiet s _ := partA { s.label "FLR.S.G.TAKEN.enter" with
    fl := { s.fl with idleBcast := false } } (s.fl.speaker.getD "")
    { t := .granted, n := s.fl.sprio, d := s.fl.t2Full } nofun
  exact hgrant.trans (fan _ { t := .taken, a := some (s.fl.speaker.getD "") } _ nofun)

theorem idleEnter (s : St) : Quiet s s.idleEnter := by
  rw [St.idleEnter]
  split
  · exact fan { s.label "FLR.S.G.IDLE.enter_empty" with fl := { s.fl with
        g := .idle, speaker := none, revoking := none, firstRtp := false, idleBcast := true,
        c7 := 1 } } { t := .idle, a := s.fl.prev } none (by simp)
  · exact enterTaken _

theorem prevokeEnter (s : St) (u : String) (cause : Nat) : Quiet s (s.prevokeEnter u cause) :=
  partA { s.label "FLR.S.G.PREVOKE.enter" with fl := { s.fl with
    g := .prevoke, revoking := some u, rprio := s.fl.sprio, rcauseG := cause, speaker := none } } u
    { t := .revoke, n := cause } nofun

theorem arbReqIdle (s : St) (u : String) (p : Nat) : Quiet s (s.arbReqIdle u p) := by
  rw [St.arbReqIdle]
  split_ifs
  · exact Adds.label _ _
  · exact partA (s.label _) u { t := .deny, n := Deny.onlyOne } (by simp)
  · exact partA (s.label _) u { t := .deny, n := Deny.retryAfter } (by simp)
  · exact enterTaken _

theorem arbReqPermitted (s : St) (u : String) (d : Nat) : Quiet s (s.arbReqPermitted u d) := by
  rw [St.arbReqPermitted]
  split_ifs
  · exact partA (s.label _) u { t := .granted, n := s.fl.sprio, d := _ } (by simp)
  · exact Adds.label _ _

theorem arbRel (s : St) (u : String) : Quiet s (s.arbRel u) := by
  rw [St.arbRel]
  split_ifs
  · exact idleEnter ((s.label _).setPrev (some u))
  · exact idleEnter ((s.label _).setPrev (some u))
  · exact Adds.label _ _

theorem arbRtp (s : St) (u : String) : Quiet s (s.arbRtp u) := by
  rw [St.arbRtp]
  split_ifs <;> exact Adds.refl _

theorem revoke3 (s : St) (u : String) : Quiet s (s.revoke3 u) :=
  @Adds.sendE (· ≠ .qinfo) (s.p u fun p => { p with rcause := Revoke.noPermission }) u .npSends
    { t := .revoke, n := Revoke.noPermission } nofun

theorem away (s : St) (u : String) : Quiet s (s.away u) := by
  rw [St.away]
  split_ifs
  · exact idleEnter ((s.label _).setPrev (some u))
  all_goals exact Adds.refl _

end Quiet

/-! ## The positions that are said -/

/-- A position that is said is the one in the queue. -/
def Tells (s : St) : Prop := ∀ o ∈ s.r.out, o.m.t = .qinfo → o.m.n = s.fl.queue.pos o.dest

theorem Quiet.tells {s s' : St} (h : Quiet s s') (hs : s.r.out = []) : s'.Tells := by
  intro o ho ht
  rcases h o ho with ho | hne
  · rw [hs] at ho
    cases ho
  · exact absurd ht hne

/-- A position that is sent last. -/
theorem send_tells {s : St} {u : String} {n d : Nat} (hs : ∀ o ∈ s.r.out, o.m.t ≠ .qinfo)
    (hn : n = s.fl.queue.pos u) : (s.send u .qinfo none n d).Tells := by
  intro o ho ht
  rcases List.mem_append.1 ho with ho | ho
  · exact absurd ht (hs o ho)
  · obtain rfl := List.mem_singleton.1 ho
    exact hn

/-- The preempting user stands at the head. -/
theorem arbPreempt_tells {s : St} (hs : s.r.out = []) (u : String) (p : Nat) :
    (s.arbPreempt u p).Tells := by
  rw [arbPreempt]
  split_ifs
  · let s₁ : St := { s.label "FLR.S.G.TAKEN.preempt" with
      fl := { s.fl with queue := ⟨u, p, true⟩ :: s.fl.queue } }
    let s₂ : St := s₁.prevokeEnter (s.fl.speaker.getD "") Revoke.preempted
    have hquiet : ∀ o ∈ s₂.r.out, o.m.t ≠ .qinfo := by
      intro o ho
      rcases Quiet.prevokeEnter s₁ _ _ o ho with ho | hne
      · rw [show s₁.r.out = [] from hs] at ho
        cases ho
      · exact hne
    have hqueue : s₂.fl.queue = ⟨u, p, true⟩ :: s.fl.queue := by
      obtain ⟨⟨_, _, hfl⟩, -⟩ := prevokeEnter_fl s₁ (s.fl.speaker.getD "") Revoke.preempted
      rw [show s₂.fl = _ from hfl]
    exact send_tells (s := s₂.label "FLR.S.P.any.a_QINFO") hquiet (by
      rw [show (s₂.label "FLR.S.P.any.a_QINFO").fl.queue = _ from hqueue]
      rw [Queue.pos, List.findIdx?_cons, if_pos (by simp)])
  · exact Quiet.tells (.label _ _) hs

theorem takenReq_tells {s : St} (hs : s.r.out = []) (u : String) (p : Nat) :
    (s.takenReq u p).Tells := by
  have hnone : ∀ o ∈ s.r.out, o.m.t ≠ .qinfo := by simp [hs]
  rw [takenReq]
  split_ifs
  · exact Quiet.tells ((Adds.label _ _).trans (.send _ _ _ _ _ (by simp))) hs
  · exact send_tells hnone rfl
  · exact arbPreempt_tells (s := s.label _) hs u p
  · exact Quiet.tells (.label _ _) hs
  · exact Quiet.tells ((Adds.label _ _).trans (.send _ _ _ _ _ (by simp))) hs
  · exact send_tells hnone rfl

theorem partC_tells {s : St} (hs : s.r.out = []) (u : String) (ev : Msg) (d : Nat) :
    (s.partC u ev d).Tells := by
  rw [partC]
  split
  case h_5 => exact takenReq_tells (s := s.label _) hs u _
  case h_8 => exact send_tells (by simp [label, hs]) rfl
  all_goals refine Quiet.tells (s := s) ?_ hs
  case h_1 => exact (Adds.label _ _).trans (Quiet.arbReqIdle _ _ _)
  case h_3 =>
    split
    · exact (Adds.label _ _).trans (Quiet.revoke3 _ _)
    · exact Adds.label _ _
  case h_7 =>
    split
    · exact (Adds.label _ _).trans (Adds.p _ _ _)
    · exact Adds.label _ _
  case h_9 => exact (Adds.label _ _).trans (Quiet.revoke3 _ _)
  case h_12 => exact (Adds.label _ _).trans (Quiet.arbReqPermitted _ _ _)
  case h_18 =>
    split <;>
      exact ((Adds.label _ _).trans (Adds.send _ _ _ _ _ (by simp))).trans
        (Adds.sendE _ _ _ (by simp))
  all_goals repeat' first
    | with_reducible exact Adds.label _ _
    | with_reducible refine Adds.trans ?_ (Adds.send _ _ _ _ _ (by simp))
    | with_reducible refine Adds.trans ?_ (Adds.p _ _ _)
    | with_reducible refine Adds.trans ?_ (Adds.dequeue _ _)
    | with_reducible refine Adds.trans ?_ (Quiet.arbRel _ _)
    | with_reducible refine Adds.trans ?_ (Quiet.arbRtp _ _)

end St

/-- **A position that an operation says is the one in the queue it leaves.** -/
theorem apply_tells (f : Floor) (o : Op) : (f.apply o).Tells := by
  have hstart : f.start.r.out = [] := rfl
  have hquiet : ∀ {s : St}, St.Quiet f.start s → s.Tells := fun h => h.tells hstart
  cases o with
  | serverRx u m half d =>
    show (f.serverRx u m half d).Tells
    rw [Floor.serverRx]
    split_ifs
    · exact hquiet (.label _ _)
    · exact hquiet ((St.Adds.label _ _).trans (.send _ _ _ _ _ (by simp)))
    · exact hquiet ((St.Adds.label _ _).trans (.send _ _ _ _ _ (by simp)))
    · exact hquiet ((St.Adds.label _ _).trans (.send _ _ _ _ _ (by simp)))
    · exact hquiet ((St.Adds.label _ _).trans (.send _ _ _ _ _ (by simp)))
    · exact St.partC_tells hstart u m d
    · exact hquiet (.label _ _)
  | ready u =>
    show (f.ready u).Tells
    rw [Floor.ready]
    split_ifs
    · exact hquiet (.label _ _)
    · exact hquiet ((St.Adds.label _ _).trans (.send _ _ _ _ _ (by simp)))
    · exact hquiet ((St.Adds.label _ _).trans (.send _ _ _ _ _ (by simp)))
  | permDown u =>
    show (f.permDown u).Tells
    rw [Floor.permDown]
    split_ifs
    · exact hquiet (((St.Adds.p _ _ _).trans (.label _ _)).trans (St.Quiet.prevokeEnter _ _ _))
    · exact hquiet ((((St.Adds.p _ _ _).trans (.label _ _)).trans (.dequeue _ _)).trans
        (St.Quiet.partA _ _ { t := .deny, n := Deny.noPermission } (by simp)))
    · exact hquiet ((St.Adds.p _ _ _).trans (.label _ _))
  | permUp u => exact hquiet ((St.Adds.label _ _).trans (.p _ _ _))
  | wsPubSelect u => exact hquiet ((St.Adds.label _ _).trans (.p _ _ _))
  | wsPubAway u => exact hquiet (((St.Adds.label _ _).trans (.p _ _ _)).trans (St.Quiet.away _ _))
  | wsLeave u => exact hquiet (((St.Adds.label _ _).trans (.p _ _ _)).trans (St.Quiet.away _ _))
  | wsJoin u perm =>
    show (f.wsJoin u perm).Tells
    rw [Floor.wsJoin]
    split_ifs
    · exact hquiet (St.Quiet.idleEnter ((f.start.label _).setPrev f.revoking))
    · exact hquiet (.label _ _)
  | rtp u =>
    show (f.rtp u).Tells
    rw [Floor.rtp]
    split_ifs
    · exact St.partC_tells hstart u _ _
    · exact hquiet (.label _ _)
  | t1 =>
    show f.t1.Tells
    rw [Floor.t1]
    split_ifs
    · exact hquiet (St.Quiet.idleEnter ((f.start.label _).setPrev f.speaker))
    · exact hquiet (St.Quiet.idleEnter ((f.start.label _).setPrev f.revoking))
  | t2 => exact hquiet (((St.Adds.label _ _).trans (.p _ _ _)).trans (St.Quiet.prevokeEnter _ _ _))
  | t3 => exact hquiet (St.Quiet.idleEnter ((f.start.label _).setPrev f.revoking))
  | t7 => exact hquiet (St.Quiet.fan { f.start.label "FLR.S.G.IDLE.T7" with
      fl := { f with c7 := f.c7 + 1 } } { t := .idle, a := f.prev } none (by simp))
  | t20 =>
    show f.t20.Tells
    rw [Floor.t20]
    split_ifs
    · exact hquiet (St.Quiet.partA { f.start.label "FLR.S.G.TAKEN.T20" with
        fl := { f with c20 := f.c20 + 1 } } (f.speaker.getD "")
        { t := .granted, n := f.sprio, d := f.t2Full } (by simp))
    · exact hquiet (.label _ _)
  | t8 u =>
    show (f.t8 u).Tells
    rw [Floor.t8]
    split_ifs <;> exact hquiet
      (((St.Adds.p _ _ _).trans (.label _ _)).trans (.send _ _ _ _ _ (by simp)))
  | t9 u => exact hquiet ((St.Adds.label _ _).trans (.p _ _ _))
  | t21 u =>
    show (f.t21 u).Tells
    rw [Floor.t21]
    split_ifs
    · exact hquiet (((St.Adds.p _ _ _).trans (.label _ _)).trans (.send _ _ _ _ _ (by simp)))
    · exact hquiet ((St.Adds.p _ _ _).trans (.label _ _))

/-! ## The byte -/

/-- The first byte of the value of `QINFO`. -/
def positionByte (w : Mbcp.Msg) : Option UInt8 := (w.get Mbcp.Tlv.qinfo).bind (·.head?)

/-- The byte is the 1-based position of `u` when `u` is queued, and 254 exactly when it is not. -/
def Truthful (q : Queue) (u : String) (b : UInt8) : Prop :=
  (∀ i, q.findIdx? (·.u == u) = some i → b.toNat = i + 1) ∧
    (b.toNat = notInQueue ↔ q.inQ u = false)

/-- Every position byte that goes out is truthful about the queue the step leaves. -/
def SaysPosition (s : St) : Prop :=
  ∀ x ∈ s.r.out, x.m.t = .qinfo → ∀ room w, toMbcp x.m room s.r.reason = some w →
    ∃ b, positionByte w = some b ∧ Truthful s.fl.queue x.dest b

/-- In every run of a floor with this bound. -/
def PositionsTrue (qmax t2Secs : Nat) : Prop :=
  ∀ ops o, machine.Legal (Floor.new qmax t2Secs) (ops ++ [o]) →
    SaysPosition ((machine.exec (Floor.new qmax t2Secs) ops).apply o)

theorem findIdx?_eq_none {q : Queue} {u : String} :
    q.findIdx? (·.u == u) = none ↔ q.inQ u = false := by
  rw [List.findIdx?_eq_none_iff, Queue.inQ, List.any_eq_false]
  simp

theorem pos_of_findIdx? {q : Queue} {u : String} {i : Nat}
    (h : q.findIdx? (·.u == u) = some i) : q.pos u = i + 1 := by rw [Queue.pos, h]

theorem truthful_iff (q : Queue) (u : String) :
    Truthful q u (UInt8.ofNat (min (q.pos u) 255)) ↔
      (q.inQ u = true → q.pos u ≠ notInQueue ∧ q.pos u ≤ 255) := by
  have hbyte : (UInt8.ofNat (min (q.pos u) 255)).toNat = min (q.pos u) 255 :=
    UInt8.toNat_ofNat_of_lt' (Nat.lt_succ_of_le (Nat.min_le_right _ _))
  rw [Truthful, hbyte]
  cases hq : q.findIdx? (·.u == u) with
  | none =>
    have hpos : q.pos u = notInQueue := by rw [Queue.pos, hq]
    have hnot := findIdx?_eq_none.1 hq
    simp [hpos, hnot, notInQueue]
  | some i =>
    have hpos := pos_of_findIdx? hq
    have hin : q.inQ u = true := by
      by_contra hnot
      rw [findIdx?_eq_none.2 (Bool.eq_false_iff.2 hnot)] at hq
      cases hq
    simp only [Option.some.injEq, forall_eq', hin, Bool.true_eq_false, iff_false, true_imp_iff,
      hpos, notInQueue]
    omega

/-- A step says the truth unless a queued user hears of a position that the byte cannot hold. -/
theorem saysPosition_iff (f : Floor) (o : Op) : SaysPosition (f.apply o) ↔
    ∀ x ∈ (f.apply o).r.out, x.m.t = .qinfo → (f.apply o).fl.queue.inQ x.dest = true →
      (f.apply o).fl.queue.pos x.dest ≠ notInQueue ∧ (f.apply o).fl.queue.pos x.dest ≤ 255 := by
  have hbyte : ∀ (x : Out) room reason, x.m.t = .qinfo → ∃ w, toMbcp x.m room reason = some w ∧
      positionByte w = some (UInt8.ofNat (min x.m.n 255)) := fun x room reason ht =>
    ⟨_, by rw [toMbcp, ht], rfl⟩
  refine forall_congr' fun x => forall_congr' fun hx => forall_congr' fun ht => ?_
  rw [← truthful_iff, ← apply_tells f o x hx ht]
  refine ⟨fun h => ?_, fun h room w hw => ?_⟩
  · obtain ⟨w, hw, hb⟩ := hbyte x "" (f.apply o).r.reason ht
    obtain ⟨b, hb', htrue⟩ := h "" w hw
    obtain rfl := Option.some.inj (hb.symm.trans hb')
    exact htrue
  · obtain ⟨w', hw', hb⟩ := hbyte x room (f.apply o).r.reason ht
    obtain rfl := Option.some.inj (hw'.symm.trans hw)
    exact ⟨_, hb, h⟩

/-- With a small bound every position fits. -/
theorem positionsTrue_of_le {qmax t2Secs : Nat} (h : qmax ≤ 252) : PositionsTrue qmax t2Secs := by
  intro ops o hl
  refine (saysPosition_iff _ o).2 fun x _ _ hin => ?_
  have hok := run_queueOk hl
  rw [Machine.exec_append] at hok
  have hmax : (machine.exec (Floor.new qmax t2Secs) (ops ++ [o])).view.qmax = qmax := by
    have hb := (run_queueInv hl).bound
    rwa [Machine.logged_exec_fst] at hb
  rw [Machine.exec_append] at hmax
  have hlen := hok.length_le
  rw [hmax] at hlen
  have hbound : ((machine.exec (Floor.new qmax t2Secs) ops).apply o).fl.queue.length ≤ 253 := by
    refine hlen.trans ?_
    split_ifs <;> omega
  cases hq : ((machine.exec (Floor.new qmax t2Secs) ops).apply o).fl.queue.findIdx?
      (·.u == x.dest) with
  | none =>
    rw [findIdx?_eq_none.1 hq] at hin
    cases hin
  | some i =>
    have hi := (List.findIdx?_eq_some_iff_getElem.1 hq).1
    rw [pos_of_findIdx? hq, notInQueue]
    omega

/-! ## A crowd -/

def user (i : Nat) : String := String.ofList (List.replicate (i + 1) 'u')

theorem user_inj {i j : Nat} : user i = user j ↔ i = j := by
  refine ⟨fun h => ?_, fun h => h ▸ rfl⟩
  have hlen := congrArg (·.toList.length) h
  simpa [user] using hlen

/-- A user comes and asks for the floor. -/
def asks (u : String) (p : Nat) : List Op :=
  [.wsJoin u true, .wsPubSelect u, .serverRx u { t := .request, n := p } true 0]

/-- Two users, and the first takes the floor. -/
def opening (u v : String) : List Op :=
  [.wsJoin u true, .wsJoin v true, .wsPubSelect u, .serverRx u { t := .request } true 0]

/-- Others come and wait. -/
def fill (n : Nat) : List Op := (List.range n).flatMap fun i => asks (user (i + 2)) 0

/-- And one preempts. -/
def crowd (n : Nat) : List Op := opening (user 0) (user 1) ++ fill n ++ asks (user (n + 2)) 1

def waiter (i : Nat) : Waiter := ⟨user (i + 2), 0, false⟩

/-- The first user holds the floor and `n` others wait, all known as waiting. -/
structure Crowd (n qmax : Nat) (f : Floor) : Prop where
  g : f.g = .taken
  speaker : f.speaker = some (user 0)
  sprio : f.sprio = 0
  queue : f.queue = (List.range n).map waiter
  qmax : f.qmax = qmax
  waits : ∀ i < n, (f.part (user (i + 2))).part = some .npTaken ∧ user (i + 2) ∈ f.members

/-- The view of a floor that `u` has just joined and chosen to publish in. -/
def View.settled (v : View) (u : String) : View :=
  { v with members := v.members.insert u }.upd u
    fun p => { p.joined true true with pubRoom := true }

/-- A join while nobody is being revoked. -/
theorem wsJoin_view {f : Floor} (u : String) (hg : f.g ≠ .prevoke) : (f.wsJoin u true).fl.view =
    { f.view with members := f.view.members.insert u }.upd u
      (Part.joined f.view.holder.isSome true) := by
  rw [Floor.wsJoin, if_neg fun h => hg h.1]
  show ((f.start.label _).enrol u true).view = _
  rw [St.view_enrol, St.view_label]
  rfl

theorem wsPubSelect_view (f : Floor) (u : String) :
    (f.wsPubSelect u).fl.view = f.view.upd u fun p => { p with pubRoom := true } := by
  show ((f.start.label _).p u _).view = _
  rw [St.view_p, St.view_label]
  rfl

theorem settled_view {f : Floor} {u : String} (hg : f.g = .taken) (hs : f.speaker.isSome) :
    ((f.wsJoin u true).fl.wsPubSelect u).fl.view = f.view.settled u := by
  have hh : f.view.holder.isSome = true := by
    rw [View.holder, show f.view.g = .taken from hg]
    exact hs
  rw [wsPubSelect_view, wsJoin_view u (by simp [hg]), hh, View.upd_upd]
  rfl

/-- What the gate asks of a request is met there. -/
theorem settled_serverRx {f : Floor} {v : View} {u : String} (h : f.view = v.settled u) (p : Nat) :
    f.serverRx u { t := .request, n := p } true 0 =
      ((f.start.label "FLR.S.P.NP_TAKEN.rx_REQUEST").takenReq u p) := by
  have hpart : f.part u = { (v.part u).joined true true with pubRoom := true } := by
    have hp := congrFun (congrArg View.part h) u
    rwa [View.settled, View.upd_part_self] at hp
  have hmem : u ∈ f.members := by
    have hm : f.members = v.members.insert u := congrArg View.members h
    rw [hm]
    exact TreeSet.mem_insert_self
  have hstate : f.partOf u = some .npTaken := by rw [Floor.partOf_eq, hpart]; rfl
  rw [Floor.serverRx]
  simp only [hpart, hmem, Part.joined, St.partC, Floor.start, hstate]
  simp

theorem settled_part (v : View) (u : String) :
    (v.settled u).part u = { (v.part u).joined true true with pubRoom := true } := by
  rw [View.settled, View.upd_part_self]

theorem settled_part_ne {v : View} {u x : String} (h : x ≠ u) :
    (v.settled u).part x = v.part x := by
  rw [View.settled, View.upd_part_ne _ _ h]

theorem insertQ_last {q : Queue} {w : Waiter} (h : ∀ x ∈ q, Queue.before w x = false) :
    q.insertQ w = q ++ [w] := by
  rw [Queue.insertQ, List.findIdx?_eq_none_iff.2 h]

section asking

variable {f : Floor} {n qmax : Nat}

theorem Crowd.not_inQ (h : Crowd n qmax f) : f.queue.inQ (user (n + 2)) = false := by
  rw [h.queue, Queue.inQ, List.any_eq_false]
  intro w hw
  obtain ⟨i, hi, rfl⟩ := List.mem_map.1 hw
  have hne : i ≠ n := (List.mem_range.1 hi).ne
  simpa [waiter, user_inj] using hne

/-- The floor when the next user has come. -/
theorem Crowd.settled (h : Crowd n qmax f) :
    ∃ f', machine.exec f [.wsJoin (user (n + 2)) true, .wsPubSelect (user (n + 2))] = f' ∧
      f'.view = f.view.settled (user (n + 2)) ∧ ∀ p, machine.exec f (asks (user (n + 2)) p) =
        ((f'.start.label "FLR.S.P.NP_TAKEN.rx_REQUEST").takenReq (user (n + 2)) p).fl := by
  have hview := settled_view (u := user (n + 2)) h.g (by rw [h.speaker]; rfl)
  refine ⟨_, rfl, hview, fun p => ?_⟩
  exact congrArg St.fl (settled_serverRx hview p)

theorem Crowd.next (h : Crowd n qmax f) (hn : n < qmax) :
    Crowd (n + 1) qmax (machine.exec f (asks (user (n + 2)) 0)) := by
  obtain ⟨f', -, hview, hasks⟩ := h.settled
  have hqueue : f'.queue = f.queue := congrArg View.queue hview
  have hin : f'.queue.inQ (user (n + 2)) = false := by rw [hqueue, h.not_inQ]
  have hpart := (congrFun (congrArg View.part hview) (user (n + 2))).trans (settled_part _ _)
  have hretry : (f'.part (user (n + 2))).retry = false := by
    rw [show f'.part (user (n + 2)) = _ from hpart]
    rfl
  have hg : f'.g = .taken := (congrArg View.g hview).trans h.g
  have hprio : f'.holderPrio = 0 := by
    rw [Floor.holderPrio, if_pos hg]
    exact (congrArg View.sprio hview).trans h.sprio
  have hlen : ¬ f'.queue.length ≥ f'.qmax := by
    rw [hqueue, show f'.qmax = f.qmax from congrArg View.qmax hview, h.qmax, h.queue]
    simpa using hn
  have hlast : f'.queue.insertQ (waiter n) = (List.range (n + 1)).map waiter := by
    rw [hqueue, h.queue, insertQ_last, List.range_succ, List.map_append]
    · rfl
    · intro x hx
      obtain ⟨i, -, rfl⟩ := List.mem_map.1 hx
      rfl
  have hend : ((f'.start.label "FLR.S.P.NP_TAKEN.rx_REQUEST").takenReq (user (n + 2)) 0).view =
      { f'.view with queue := (List.range (n + 1)).map waiter } := by
    rw [← hlast, St.takenReq]
    simp only [St.label, Floor.start, hretry, hin, hprio, hlen, if_false, Bool.false_eq_true,
      Nat.lt_irrefl, gt_iff_lt, false_and]
    rfl
  rw [hview] at hend
  rw [hasks 0]
  refine ⟨?_, ?_, ?_, congrArg View.queue hend, ?_, fun i hi => ⟨?_, ?_⟩⟩
  · exact (congrArg View.g hend).trans h.g
  · exact (congrArg View.speaker hend).trans h.speaker
  · exact (congrArg View.sprio hend).trans h.sprio
  · exact (congrArg View.qmax hend).trans h.qmax
  · have hp := congrFun (congrArg View.part hend) (user (i + 2))
    rw [show ((f'.start.label _).takenReq _ 0).fl.part (user (i + 2)) = _ from hp]
    by_cases hi' : i = n
    · subst hi'
      exact congrArg Part.part (settled_part _ _)
    · refine (congrArg Part.part (settled_part_ne ?_)).trans (h.waits i (by omega)).1
      exact fun e => hi' (by have := user_inj.1 e; omega)
  · have hm : ((f'.start.label "FLR.S.P.NP_TAKEN.rx_REQUEST").takenReq
        (user (n + 2)) 0).fl.members = f.members.insert (user (n + 2)) :=
      congrArg View.members hend
    rw [hm, TreeSet.mem_insert]
    by_cases hi' : i = n
    · exact .inl (by rw [hi', ReflOrd.compare_self])
    · exact .inr (h.waits i (by omega)).2

/-- One more comes with a higher priority. -/
theorem Crowd.preempted (h : Crowd n qmax f) :
    (machine.exec f (asks (user (n + 2)) 1)).queue =
        ⟨user (n + 2), 1, true⟩ :: (List.range n).map waiter ∧
      ∀ i < n, (machine.exec f (asks (user (n + 2)) 1)).partOf (user (i + 2)) = some .npTaken ∧
        user (i + 2) ∈ (machine.exec f (asks (user (n + 2)) 1)).members := by
  obtain ⟨f', -, hview, hasks⟩ := h.settled
  have hqueue : f'.queue = (List.range n).map waiter :=
    (congrArg View.queue hview).trans h.queue
  have hin : f'.queue.inQ (user (n + 2)) = false := by rw [hqueue, ← h.queue, h.not_inQ]
  have hpart := (congrFun (congrArg View.part hview) (user (n + 2))).trans (settled_part _ _)
  have hretry : (f'.part (user (n + 2))).retry = false := by
    rw [show f'.part (user (n + 2)) = _ from hpart]
    rfl
  have hg : f'.g = .taken := (congrArg View.g hview).trans h.g
  have hspeaker : f'.speaker = some (user 0) := (congrArg View.speaker hview).trans h.speaker
  have hprio : f'.holderPrio = 0 := by
    rw [Floor.holderPrio, if_pos hg]
    exact (congrArg View.sprio hview).trans h.sprio
  have hpre : f'.queue.preQ = false := by
    rw [hqueue, Queue.preQ, List.any_eq_false]
    intro w hw
    obtain ⟨i, -, rfl⟩ := List.mem_map.1 hw
    simp [waiter]
  have hend : ((f'.start.label "FLR.S.P.NP_TAKEN.rx_REQUEST").takenReq (user (n + 2)) 1).view =
      ({ f'.view with queue := ⟨user (n + 2), 1, true⟩ :: f'.queue }.prevokeEnter (user 0)
        Revoke.preempted) := by
    rw [St.takenReq]
    simp only [St.label, Floor.start, hretry, hin, hprio, hpre, if_false, Bool.false_eq_true,
      Nat.lt_one_iff, gt_iff_lt, Bool.not_false, and_self, if_true, St.arbPreempt, hg, hspeaker,
      Option.getD_some, St.view_partA, St.view_prevokeEnter]
    rw [View.hear, View.upd_of_fix (hear_fix (by simp) _ _)]
    rfl
  rw [hview] at hend
  rw [hasks 1]
  refine ⟨?_, fun i hi => ⟨?_, ?_⟩⟩
  · rw [← hqueue]
    exact congrArg View.queue hend
  · have hp := congrFun (congrArg View.part hend) (user (i + 2))
    rw [Floor.partOf_eq, show ((f'.start.label _).takenReq _ 1).fl.part (user (i + 2)) = _ from hp]
    have hne₀ : user (i + 2) ≠ user 0 := fun e => by simpa using user_inj.1 e
    have hne : user (i + 2) ≠ user (n + 2) := fun e => by have := user_inj.1 e; omega
    rw [View.prevokeEnter, View.hear, View.upd_part_ne _ _ hne₀]
    exact (congrArg Part.part (settled_part_ne hne)).trans (h.waits i hi).1
  · have hm : ((f'.start.label "FLR.S.P.NP_TAKEN.rx_REQUEST").takenReq
        (user (n + 2)) 1).fl.members = f.members.insert (user (n + 2)) :=
      congrArg View.members hend
    rw [hm, TreeSet.mem_insert]
    exact .inr (h.waits i hi).2

end asking

/-! ## The result -/

/-- The first request of all is granted when there is somebody else. -/
theorem first_grant {f : Floor} {u : String} (hg : f.g = .idle) (hmem : u ∈ f.members)
    (halone : f.alone = false)
    (hpart : f.part u = { Part.joined false true {} with pubRoom := true }) :
    (f.serverRx u { t := .request } true 0).view =
      { f.view with g := .taken, speaker := some u, sprio := 0 : View }.enterTaken := by
  have hstate : f.partOf u = some .npIdle := by rw [Floor.partOf_eq, hpart]; rfl
  have hask : f.serverRx u { t := .request } true 0 =
      (f.start.label "FLR.S.P.NP_IDLE.rx_REQUEST").arbReqIdle u 0 := by
    rw [Floor.serverRx]
    simp only [hpart, hmem, Part.joined, St.partC, Floor.start, hstate]
    simp
  rw [hask, St.arbReqIdle]
  simp only [St.label, Floor.start, hg, halone, hpart, Part.joined, ne_eq, not_true_eq_false,
    if_false, Bool.false_eq_true, St.view_enterTaken]
  rfl

/-- The floor after the opening. -/
structure Opened (u : String) (qmax : Nat) (f : Floor) : Prop where
  g : f.g = .taken
  speaker : f.speaker = some u
  sprio : f.sprio = 0
  queue : f.queue = []
  qmax : f.qmax = qmax

theorem opened {u v : String} (hne : u ≠ v) (qmax t2Secs : Nat) :
    Opened u qmax (machine.exec (Floor.new qmax t2Secs) (opening u v)) := by
  obtain ⟨f₁, hf₁⟩ : ∃ f₁, ((Floor.new qmax t2Secs).wsJoin u true).fl = f₁ := ⟨_, rfl⟩
  obtain ⟨f₂, hf₂⟩ : ∃ f₂, (f₁.wsJoin v true).fl = f₂ := ⟨_, rfl⟩
  obtain ⟨f, hf⟩ : ∃ f, (f₂.wsPubSelect u).fl = f := ⟨_, rfl⟩
  have hrun : machine.exec (Floor.new qmax t2Secs) (opening u v) =
      (f.serverRx u { t := .request } true 0).fl := by
    simp only [opening, Machine.exec_cons, Machine.exec_nil, machine, Floor.apply, hf₁, hf₂, hf]
  have h₁ := @wsJoin_view (Floor.new qmax t2Secs) u (show G.idle ≠ G.prevoke by decide)
  rw [hf₁] at h₁
  have h₂ := @wsJoin_view f₁ v (by
    rw [show f₁.g = .idle from congrArg View.g h₁]
    decide)
  rw [hf₂] at h₂
  have hview := wsPubSelect_view f₂ u
  rw [hf, h₂] at hview
  have hpart₁ : f₁.part u = Part.joined false true {} := by
    refine (congrFun (congrArg View.part h₁) u).trans ?_
    rw [View.upd_part_self]
    rfl
  have hpart : f.part u = { Part.joined false true {} with pubRoom := true } := by
    rw [← hpart₁]
    refine (congrFun (congrArg View.part hview) u).trans ?_
    rw [View.upd_part_self, View.upd_part_ne _ _ hne]
    rfl
  have hmembers : f.members = ((∅ : TreeSet String).insert u).insert v := by
    refine (congrArg View.members hview).trans ?_
    show f₁.view.members.insert v = _
    rw [h₁]
    rfl
  have hmem : u ∈ f.members := by
    rw [hmembers]
    exact TreeSet.mem_insert.2 (.inr TreeSet.mem_insert_self)
  have halone : f.alone = false := by
    have hv : ¬ ((∅ : TreeSet String).insert u).contains v = true := by
      rw [TreeSet.contains_iff_mem, TreeSet.mem_insert]
      rintro (hc | hc)
      · exact hne (LawfulEqOrd.eq_of_compare hc)
      · exact absurd hc TreeSet.not_mem_emptyc
    rw [Floor.alone, hmembers, TreeSet.size_insert, if_neg hv]
    rfl
  have hend := first_grant ((congrArg View.g hview).trans (congrArg View.g h₁)) hmem halone hpart
  rw [hrun]
  exact {
    g := congrArg View.g hend
    speaker := congrArg View.speaker hend
    sprio := congrArg View.sprio hend
    queue := (congrArg View.queue hend).trans
      ((congrArg View.queue hview).trans (congrArg View.queue h₁))
    qmax := (congrArg View.qmax hend).trans
      ((congrArg View.qmax hview).trans (congrArg View.qmax h₁)) }

theorem opening_crowd (qmax t2Secs : Nat) :
    Crowd 0 qmax (machine.exec (Floor.new qmax t2Secs) (opening (user 0) (user 1))) := by
  have hne : user 0 ≠ user 1 := fun e => by simpa using user_inj.1 e
  have h := opened hne qmax t2Secs
  exact ⟨h.g, h.speaker, h.sprio, h.queue, h.qmax, fun i hi => absurd hi (Nat.not_lt_zero i)⟩

theorem fill_crowd {n qmax : Nat} (t2Secs : Nat) (hn : n ≤ qmax) :
    Crowd n qmax (machine.exec (Floor.new qmax t2Secs) (opening (user 0) (user 1) ++ fill n)) := by
  induction n with
  | zero =>
    rw [fill, List.range_zero, List.flatMap_nil, List.append_nil]
    exact opening_crowd qmax t2Secs
  | succ n ih =>
    have hlast : fill (n + 1) = fill n ++ asks (user (n + 2)) 0 := by
      rw [fill, List.range_succ, List.flatMap_append, List.flatMap_singleton]
      rfl
    rw [hlast, ← List.append_assoc, Machine.exec_append]
    exact (ih (Nat.le_of_succ_le hn)).next hn

theorem asks_legal (f : Floor) (u : String) (p : Nat) : machine.Legal f (asks u p) :=
  ⟨trivial, trivial, trivial, trivial⟩

theorem fill_legal (f : Floor) (n : Nat) : machine.Legal f (fill n) := by
  refine machine.legal_iff.2 fun l₁ o l₂ e => ?_
  have hmem : o ∈ fill n := e ▸ List.mem_append_right _ List.mem_cons_self
  obtain ⟨i, -, ho⟩ := List.mem_flatMap.1 hmem
  simp only [asks, List.mem_cons, List.not_mem_nil, or_false] at ho
  rcases ho with rfl | rfl | rfl <;> trivial

/-- What a waiting user hears when it asks for its position. -/
theorem qposReq_answer {f : Floor} {u : String} (hstate : f.partOf u = some .npTaken)
    (hmem : u ∈ f.members) : f.serverRx u { t := .qposReq } true 0 =
      (f.start.label "FLR.S.P.NP_TAKEN.rx_QPOS_REQ").send u .qinfo none (f.queue.pos u)
        (f.queue.qprio u) := by
  rw [Floor.serverRx]
  simp only [hstate, St.partC, Floor.start, hmem]
  simp

/-- The place of the last one behind a preempting user. -/
theorem crowd_findIdx? (n : Nat) :
    (⟨user (n + 3), 1, true⟩ :: (List.range (n + 1)).map waiter).findIdx? (·.u == user (n + 2)) =
      some (n + 1) := by
  have hbefore : (⟨user (n + 3), 1, true⟩ :: (List.range n).map waiter).findIdx?
      (·.u == user (n + 2)) = none := by
    rw [List.findIdx?_eq_none_iff]
    intro w hw
    rcases List.mem_cons.1 hw with rfl | hw
    · simp [user_inj]
    · obtain ⟨i, hi, rfl⟩ := List.mem_map.1 hw
      have hne : i ≠ n := (List.mem_range.1 hi).ne
      simpa [waiter, user_inj] using hne
  rw [List.range_succ, List.map_append, ← List.cons_append, List.findIdx?_append, hbefore]
  simp [waiter]

/-- The last of a crowd with a preempting user asks for its position, and must be told. -/
theorem crowd_position {n qmax t2Secs : Nat} (hn : n + 1 ≤ qmax) (h : PositionsTrue qmax t2Secs) :
    n + 2 ≠ notInQueue ∧ n + 2 ≤ 255 := by
  have hlegal : machine.Legal (Floor.new qmax t2Secs)
      (crowd (n + 1) ++ [.serverRx (user (n + 2)) { t := .qposReq } true 0]) := by
    rw [crowd]
    simp only [Machine.legal_append]
    exact ⟨⟨⟨⟨trivial, trivial, trivial, trivial, trivial⟩, fill_legal _ _⟩, asks_legal _ _ _⟩,
      trivial, trivial⟩
  have hsays := (saysPosition_iff _ _).1 (h _ _ hlegal)
  obtain ⟨hqueue, hwaits⟩ := (fill_crowd t2Secs hn).preempted
  rw [← Machine.exec_append] at hqueue hwaits
  obtain ⟨hstate, hmem⟩ := hwaits n (Nat.lt_succ_self n)
  have hcrowd : opening (user 0) (user 1) ++ fill (n + 1) ++ asks (user (n + 1 + 2)) 1 =
      crowd (n + 1) := rfl
  rw [hcrowd] at hqueue hwaits hstate hmem
  generalize machine.exec (Floor.new qmax t2Secs) (crowd (n + 1)) = f at *
  have hidx := crowd_findIdx? n
  rw [← hqueue] at hidx
  rw [Floor.apply, qposReq_answer hstate hmem] at hsays
  have hlast := hsays _ (List.mem_append_right _ List.mem_cons_self) rfl
  have hin : f.queue.inQ (user (n + 2)) = true := by
    by_contra hnot
    rw [findIdx?_eq_none.2 (Bool.eq_false_iff.2 hnot)] at hidx
    cases hidx
  rw [← show f.queue.pos (user (n + 2)) = n + 2 from pos_of_findIdx? hidx]
  exact hlast hin

/-- With a bound of 253 or more the last of a crowd hears that it is not queued. -/
theorem positions_untrue {qmax t2Secs : Nat} (h : 253 ≤ qmax) : ¬ PositionsTrue qmax t2Secs :=
  fun htrue => (crowd_position (n := 252) h htrue).1 rfl

/-- **When the positions on the wire are right.** -/
theorem position_truthful_iff (qmax t2Secs : Nat) : PositionsTrue qmax t2Secs ↔ qmax ≤ 252 := by
  refine ⟨fun h => ?_, positionsTrue_of_le⟩
  by_contra hle
  exact positions_untrue (Nat.lt_of_not_le hle) h

/-- At the largest bound. -/
theorem position_reserved : ¬ ∀ qmax t2Secs : Nat, 1 ≤ qmax → qmax ≤ 255 →
    PositionsTrue qmax t2Secs :=
  fun h => positions_untrue (by decide) (h 255 30 (by decide) (by decide))

end OxlensSfu.Flr
