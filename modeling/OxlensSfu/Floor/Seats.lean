import OxlensSfu.Floor.View

/-!
# Seats

Who is a member of the floor and who publishes there. Arbitration reads both and changes
neither: only a join, a leave and a move of the publication room do, each for one user
(`Floor.seat_apply`). The rest of the server keeps the same two facts elsewhere, so this is the
floor as it sees it.
-/

namespace OxlensSfu.Flr

open Std

/-- A user as the rest of the server sees it. -/
structure Seat where
  member : Bool
  pubRoom : Bool
  deriving DecidableEq, Repr

def View.seat (v : View) (u : String) : Seat := ⟨v.members.contains u, (v.part u).pubRoom⟩

def Floor.seat (f : Floor) (u : String) : Seat := ⟨f.members.contains u, (f.part u).pubRoom⟩

/-- What an operation does to the seat of `u`. -/
def Op.reseat (u : String) : Op → Seat → Seat
  | .wsJoin x _, s => if x = u then ⟨true, false⟩ else s
  | .wsLeave x, s => if x = u then ⟨false, false⟩ else s
  | .wsPubSelect x, s => if x = u then { s with pubRoom := true } else s
  | .wsPubAway x, s => if x = u then { s with pubRoom := false } else s
  | _, s => s

/-! ## Views -/

@[simp] theorem Part.enter_pubRoom (st : P) (p : Part) : (p.enter st).pubRoom = p.pubRoom := by
  cases st <;> rfl

@[simp] theorem Part.hear_pubRoom (t : Mt) (n : Nat) (p : Part) :
    (p.hear t n).pubRoom = p.pubRoom := by
  unfold hear
  split <;> simp

namespace View

theorem seat_upd (v : View) (x : String) (f : Part → Part) (u : String) :
    (v.upd x f).seat u =
      if x = u then ⟨v.members.contains u, (f (v.part u)).pubRoom⟩ else v.seat u := by
  by_cases h : x = u
  · subst h
    simp [seat, upd]
  · rw [if_neg h]
    simp [seat, upd, Function.update_of_ne (Ne.symm h)]

/-- A change of a record that leaves `pubRoom` leaves every seat. -/
theorem seat_upd_of_keeps {v : View} {x : String} {f : Part → Part}
    (h : (f (v.part x)).pubRoom = (v.part x).pubRoom) : (v.upd x f).seat = v.seat := by
  funext u
  rw [seat_upd]
  split
  · next e =>
    subst e
    rw [h]
    rfl
  · rfl

@[simp] theorem seat_hear (v : View) (x : String) (t : Mt) (n : Nat) :
    (v.hear x t n).seat = v.seat := seat_upd_of_keeps (Part.hear_pubRoom ..)

@[simp] theorem seat_hearAll (v : View) (t : Mt) (n : Nat) (skip : Option String) :
    (v.hearAll t n skip).seat = v.seat := by
  funext u
  simp only [seat, hearAll]
  split
  · rw [Part.hear_pubRoom]
  · rfl

@[simp] theorem seat_enterTaken (v : View) : v.enterTaken.seat = v.seat := by
  rw [enterTaken, seat_hearAll, seat_hear]

@[simp] theorem seat_idleEnter (v : View) : v.idleEnter.seat = v.seat := by
  cases h : v.queue with
  | nil =>
    rw [idleEnter_nil h, seat_hearAll]
    rfl
  | cons w ws =>
    rw [idleEnter_cons h, seat_enterTaken]
    rfl

@[simp] theorem seat_prevokeEnter (v : View) (x : String) (cause : Nat) :
    (v.prevokeEnter x cause).seat = v.seat := by
  rw [prevokeEnter, seat_hear]
  rfl

end View

/-! ## Operations -/

namespace St

/-- The seats of the floor that is being worked on. -/
def seat (s : St) : String → Seat := s.view.seat

@[simp] theorem seat_label (s : St) (l : String) : (s.label l).seat = s.seat := rfl

@[simp] theorem seat_send (s : St) (u : String) (t : Mt) (a : Option String) (n d : Nat) :
    (s.send u t a n d).seat = s.seat := rfl

@[simp] theorem seat_dequeue (s : St) (u : String) : (s.dequeue u).seat = s.seat := rfl

@[simp] theorem seat_insertQ (s : St) (w : Waiter) : (s.insertQ w).seat = s.seat := rfl

@[simp] theorem seat_setPrev (s : St) (u : Option String) : (s.setPrev u).seat = s.seat := rfl

theorem seat_p (s : St) (u : String) {f : Part → Part} (h : ∀ p, (f p).pubRoom = p.pubRoom) :
    (s.p u f).seat = s.seat := by
  rw [seat, view_p, View.seat_upd_of_keeps (h _)]
  rfl

@[simp] theorem seat_sendE (s : St) (u : String) (st : P) (m : Msg) :
    (s.sendE u st m).seat = s.seat := by
  rw [seat, view_sendE, View.seat_upd_of_keeps (Part.enter_pubRoom ..)]
  rfl

@[simp] theorem seat_partA (s : St) (u : String) (ev : Msg) : (s.partA u ev).seat = s.seat := by
  rw [seat, view_partA, View.seat_hear]
  rfl

@[simp] theorem seat_fan (s : St) (ev : Msg) (skip : Option String) :
    (s.fan ev skip).seat = s.seat := by
  rw [seat, view_fan, View.seat_hearAll]
  rfl

@[simp] theorem seat_enterTaken (s : St) : s.enterTaken.seat = s.seat := by
  rw [seat, view_enterTaken, View.seat_enterTaken]
  rfl

@[simp] theorem seat_idleEnter (s : St) : s.idleEnter.seat = s.seat := by
  rw [seat, view_idleEnter, View.seat_idleEnter]
  rfl

@[simp] theorem seat_prevokeEnter (s : St) (u : String) (cause : Nat) :
    (s.prevokeEnter u cause).seat = s.seat := by
  rw [seat, view_prevokeEnter, View.seat_prevokeEnter]
  rfl

@[simp] theorem seat_revoke3 (s : St) (u : String) : (s.revoke3 u).seat = s.seat := by
  rw [revoke3, seat_sendE]
  exact seat_p s u fun _ => rfl

theorem seat_arbReqIdle (s : St) (u : String) (p : Nat) : (s.arbReqIdle u p).seat = s.seat := by
  unfold arbReqIdle
  split_ifs
  · rfl
  · rw [seat_partA, seat_label]
  · rw [seat_partA, seat_label]
  · rw [seat_enterTaken]
    rfl

theorem seat_arbReqPermitted (s : St) (u : String) (d : Nat) :
    (s.arbReqPermitted u d).seat = s.seat := by
  unfold arbReqPermitted
  split_ifs
  · rw [seat_partA, seat_label]
  · rfl

theorem seat_arbPreempt (s : St) (u : String) (p : Nat) : (s.arbPreempt u p).seat = s.seat := by
  unfold arbPreempt
  split_ifs
  · rw [seat_partA, seat_prevokeEnter]
    rfl
  · rfl

theorem seat_arbRel (s : St) (u : String) : (s.arbRel u).seat = s.seat := by
  unfold arbRel
  split_ifs
  · rw [seat_idleEnter, seat_setPrev, seat_label]
  · rw [seat_idleEnter, seat_setPrev, seat_label]
  · rfl

theorem seat_arbRtp (s : St) (u : String) : (s.arbRtp u).seat = s.seat := by
  unfold arbRtp
  split_ifs <;> rfl

theorem seat_takenReq (s : St) (u : String) (p : Nat) : (s.takenReq u p).seat = s.seat := by
  unfold takenReq
  split_ifs
  · rfl
  · rfl
  · rw [seat_arbPreempt, seat_label]
  · rfl
  · rfl
  · rfl

theorem seat_partC (s : St) (u : String) (ev : Msg) (d : Nat) : (s.partC u ev d).seat = s.seat := by
  unfold partC
  dsimp only
  split <;> (try split_ifs) <;>
    simp [seat_arbReqIdle, seat_arbReqPermitted, seat_arbRel, seat_arbRtp, seat_takenReq, seat_p]

theorem seat_away (s : St) (u : String) : (s.away u).seat = s.seat := by
  unfold away
  split_ifs
  · rw [seat_idleEnter, seat_setPrev, seat_label]
  · rfl
  · rfl
  · rfl

end St

namespace Floor

theorem seat_serverRx (f : Floor) (u : String) (m : Msg) (half : Bool) (d : Nat) :
    (f.serverRx u m half d).seat = f.seat := by
  unfold serverRx
  dsimp only
  split_ifs
  · rfl
  · rfl
  · rfl
  · rfl
  · rfl
  · exact St.seat_partC _ _ _ _
  · rfl

theorem seat_ready (f : Floor) (u : String) : (f.ready u).seat = f.seat := by
  unfold ready
  split_ifs <;> rfl

theorem seat_permDown (f : Floor) (u : String) : (f.permDown u).seat = f.seat := by
  unfold permDown
  dsimp only
  have h : (f.start.p u fun p => { p with perm := false }).seat = f.seat :=
    St.seat_p _ _ fun _ => rfl
  split_ifs
  · rw [St.seat_prevokeEnter, St.seat_label, h]
  · rw [St.seat_partA, St.seat_dequeue, St.seat_label, h]
  · rw [St.seat_label, h]

theorem seat_permUp (f : Floor) (u : String) : (f.permUp u).seat = f.seat :=
  St.seat_p _ _ fun _ => rfl

theorem seat_rtp (f : Floor) (u : String) : (f.rtp u).seat = f.seat := by
  unfold rtp
  split_ifs
  · exact St.seat_partC _ _ _ _
  · rfl

theorem seat_timer (f : Floor) {o : Op} (h : o.isTimer) : (f.apply o).seat = f.seat := by
  cases o with
  | t1 =>
    rw [apply, t1]
    split_ifs <;> rw [St.seat_idleEnter, St.seat_setPrev, St.seat_label] <;> rfl
  | t2 =>
    rw [apply, t2, St.seat_prevokeEnter]
    exact St.seat_p _ _ fun _ => rfl
  | t3 =>
    rw [apply, t3, St.seat_idleEnter]
    rfl
  | t7 =>
    rw [apply, t7, St.seat_fan]
    rfl
  | t20 =>
    rw [apply, t20]
    split_ifs
    · rw [St.seat_partA]
      rfl
    · rfl
  | t8 u =>
    have h : (f.start.p u fun p => { p with c8 := p.c8 + 1 }).seat = f.seat :=
      St.seat_p _ _ fun _ => rfl
    rw [apply, t8]
    split_ifs <;> exact h
  | t9 u => exact St.seat_p _ _ fun _ => rfl
  | t21 u =>
    have h : (f.start.p u fun p => { p with c21 := p.c21 + 1 }).seat = f.seat :=
      St.seat_p _ _ fun _ => rfl
    rw [apply, t21]
    split_ifs <;> exact h
  | _ => cases h

theorem seat_wsPubSelect (f : Floor) (x u : String) :
    (f.wsPubSelect x).seat u = (Op.wsPubSelect x).reseat u (f.seat u) := by
  rw [wsPubSelect, St.seat, St.view_p, View.seat_upd]
  rfl

theorem seat_wsPubAway (f : Floor) (x u : String) :
    (f.wsPubAway x).seat u = (Op.wsPubAway x).reseat u (f.seat u) := by
  rw [wsPubAway, St.seat_away, St.seat, St.view_p, View.seat_upd]
  rfl

theorem seat_wsLeave (f : Floor) (x u : String) :
    (f.wsLeave x).seat u = (Op.wsLeave x).reseat u (f.seat u) := by
  have haway : (((f.start.label "FLR.S.ws.leave").p x fun p => { p with pubRoom := false }).away
      x).seat u = (Op.wsPubAway x).reseat u (f.seat u) := by
    rw [St.seat_away, St.seat, St.view_p, View.seat_upd]
    rfl
  rw [wsLeave, St.seat, St.view_p, View.seat_upd]
  by_cases h : x = u
  · subst h
    simp only [Op.reseat, if_true] at haway ⊢
    have hpub := congrArg Seat.pubRoom haway
    refine Seat.mk.injEq _ _ _ _ ▸ ⟨?_, hpub⟩
    simp [Floor.view]
  · rw [Op.reseat, if_neg h] at haway
    rw [Op.reseat, if_neg h, if_neg h, ← haway]
    refine Seat.mk.injEq _ _ _ _ ▸ ⟨?_, rfl⟩
    simp [Floor.view, TreeSet.contains_erase, h]

theorem seat_enrol (s : St) (x : String) (perm : Bool) (u : String) :
    (s.enrol x perm).seat u = (Op.wsJoin x perm).reseat u (s.seat u) := by
  rw [St.seat, St.view_enrol, View.seat_upd, Op.reseat]
  by_cases h : x = u
  · subst h
    simp [Part.joined]
  · rw [if_neg h, if_neg h]
    simp [St.seat, View.seat, TreeSet.contains_insert, h]

theorem seat_wsJoin (f : Floor) (x : String) (perm : Bool) (u : String) :
    (f.wsJoin x perm).seat u = (Op.wsJoin x perm).reseat u (f.seat u) := by
  rw [wsJoin]
  split_ifs
  · rw [seat_enrol, St.seat_idleEnter]
    rfl
  · rw [seat_enrol]
    rfl

end Floor

/-- **Only joins, leaves and moves of the publication room change a seat.** -/
theorem Floor.seat_apply (f : Floor) (o : Op) (u : String) :
    (f.apply o).fl.seat u = o.reseat u (f.seat u) := by
  by_cases ht : o.isTimer
  · have hstay : o.reseat u (f.seat u) = f.seat u := by
      cases o <;> first | rfl | cases ht
    rw [hstay]
    exact congrFun (f.seat_timer ht) u
  · cases o with
    | serverRx x m half d => exact congrFun (f.seat_serverRx x m half d) u
    | ready x => exact congrFun (f.seat_ready x) u
    | permDown x => exact congrFun (f.seat_permDown x) u
    | permUp x => exact congrFun (f.seat_permUp x) u
    | wsPubSelect x => exact f.seat_wsPubSelect x u
    | wsPubAway x => exact f.seat_wsPubAway x u
    | wsLeave x => exact f.seat_wsLeave x u
    | wsJoin x perm => exact f.seat_wsJoin x perm u
    | rtp x => exact congrFun (f.seat_rtp x) u
    | _ => exact absurd rfl ht

end OxlensSfu.Flr
