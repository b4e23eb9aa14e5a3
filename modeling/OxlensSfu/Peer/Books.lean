import OxlensSfu.Floor.Seats
import OxlensSfu.Peer.Core

/-!
# The books of a user

What the server knows of one user is in four places: the rosters, the floors, the rooms of its
peer and the publication room of its peer. `Sound` says that the four agree, and may leave out one
roster entry, the one that is kept for a new session of the user.

In the middle of a request the books of its user do not balance, and everybody else's do: `Only u`
says that a piece of work is about `u` alone, and the books of the others stay (`Only.sound`). Each
part of a request has a lemma that says it is about one user and one that says what it does to the
places of that user.

The results are about reclamation, which every departure ends in: `leave_left` and `evict_spec`.
-/

namespace OxlensSfu.Peers

open Std Rooms

/-- Where a user is in a room: the roster's word and the floor's. -/
structure Place where
  roster : Bool
  seat : Flr.Seat
  deriving DecidableEq, Repr

/-- The seat that a peer is owed in a room. -/
def Peer.due (p : Peer) (r : String) : Flr.Seat := ⟨p.inRoom r, p.pubRoom == some r⟩

namespace Sfu

def place (s : Sfu) (r u : String) : Option Place :=
  s.rooms[r]?.map fun room => ⟨room.has u, room.floor.seat u⟩

/-- The peer of the user, or one that is nowhere. -/
def peerOf (s : Sfu) (u : String) : Peer :=
  match s.peers[u]? with
  | some p => s.heap p
  | none => { user := u, sid := "" }

/-! ## The books of one user -/

/-- The places of `u` are those its peer is owed, the roster of the room `keep` apart. -/
structure Sound (s : Sfu) (u : String) (keep : Option String) : Prop where
  seat : ∀ r pl, s.place r u = some pl → pl.seat = (s.peerOf u).due r
  roster : ∀ r pl, s.place r u = some pl → keep ≠ some r → pl.roster = (s.peerOf u).inRoom r
  pubIn : ∀ r, (s.peerOf u).pubRoom = some r → (s.peerOf u).inRoom r = true
  there : ∀ r, (s.peerOf u).inRoom r = true → r ∈ s.rooms

/-- The registries: a peer is filed under its user and has a table, a room has a clock. -/
structure Wf (s : Sfu) : Prop where
  user : ∀ (u : String) (p : Nat), s.peers[u]? = some p → (s.heap p).user = u
  lt : ∀ (u : String) (p : Nat), s.peers[u]? = some p → p < s.size
  table : ∀ (u : String) (p : Nat), s.peers[u]? = some p → p ∈ s.tables
  media : ∀ (u : String) (p : Nat), s.peers[u]? = some p → s.media = true
  clock : ∀ r, r ∈ s.rooms → r ∈ s.clocks

structure Inv (s : Sfu) : Prop where
  wf : s.Wf
  sound : ∀ u, s.Sound u none

/-- The work from `s` to `s'` is about `u` alone. -/
structure Only (u : String) (s s' : Sfu) : Prop where
  wf : s.Wf → s'.Wf
  dom : ∀ r, r ∈ s'.rooms ↔ r ∈ s.rooms
  place : ∀ r v, v ≠ u → s'.place r v = s.place r v
  peers : ∀ v, v ≠ u → s'.peers[v]? = s.peers[v]?
  heap : ∀ p, p < s.size → (s.heap p).user ≠ u → s'.heap p = s.heap p
  size : s.size ≤ s'.size
  media : s'.media = s.media

theorem peerOf_some {s : Sfu} {u : String} {p : Nat} (h : s.peers[u]? = some p) :
    s.peerOf u = s.heap p := by
  rw [peerOf, h]

theorem peerOf_none {s : Sfu} {u : String} (h : s.peers[u]? = none) :
    s.peerOf u = { user := u, sid := "" } := by
  rw [peerOf, h]

@[simp] theorem nowhere_inRoom (u sid r : String) :
    ({ user := u, sid := sid } : Peer).inRoom r = false := by
  simp [Peer.inRoom]

theorem place_isSome {s : Sfu} {r u : String} : (s.place r u).isSome = true ↔ r ∈ s.rooms := by
  rw [place, Option.isSome_map, TreeMap.isSome_getElem?_iff_mem]

variable {u : String} {s s' s'' : Sfu} {keep : Option String}

/-- Only the places, the rooms of the peer and its publication room matter. -/
theorem Sound.congr (h : s.Sound u keep) (hdom : ∀ r, r ∈ s'.rooms ↔ r ∈ s.rooms)
    (hplace : ∀ r, s'.place r u = s.place r u)
    (hroom : ∀ r, (s'.peerOf u).inRoom r = (s.peerOf u).inRoom r)
    (hpub : (s'.peerOf u).pubRoom = (s.peerOf u).pubRoom) : s'.Sound u keep where
  seat r pl hpl := by
    rw [h.seat r pl (hplace r ▸ hpl), Peer.due, Peer.due, hroom, hpub]
  roster r pl hpl hr := by
    rw [h.roster r pl (hplace r ▸ hpl) hr, hroom]
  pubIn r hr := by
    rw [hroom]
    exact h.pubIn r (hpub ▸ hr)
  there r hr := (hdom r).2 (h.there r (hroom r ▸ hr))

namespace Only

theorem refl (u : String) (s : Sfu) : Only u s s :=
  ⟨id, fun _ => Iff.rfl, fun _ _ _ => rfl, fun _ _ => rfl, fun _ _ _ => rfl, le_rfl, rfl⟩

theorem trans (h : Only u s s') (h' : Only u s' s'') : Only u s s'' where
  wf := h'.wf ∘ h.wf
  dom r := (h'.dom r).trans (h.dom r)
  place r v hv := (h'.place r v hv).trans (h.place r v hv)
  peers v hv := (h'.peers v hv).trans (h.peers v hv)
  heap p hp hu := by
    have heq := h.heap p hp hu
    rw [← heq] at hu
    exact (h'.heap p (hp.trans_le h.size) hu).trans heq
  size := h.size.trans h'.size
  media := h'.media.trans h.media

/-- The peer of another user is the same. -/
theorem peerOf (h : Only u s s') (hwf : s.Wf) {v : String} (hv : v ≠ u) :
    s'.peerOf v = s.peerOf v := by
  cases hp : s.peers[v]? with
  | none => rw [peerOf_none hp, peerOf_none (h.peers v hv ▸ hp)]
  | some p =>
    rw [peerOf_some hp, peerOf_some (h.peers v hv ▸ hp)]
    refine h.heap p (hwf.lt v p hp) ?_
    rw [hwf.user v p hp]
    exact hv

/-- The books of another user stay. -/
theorem sound (h : Only u s s') (hwf : s.Wf) {v : String} (hv : v ≠ u) (hs : s.Sound v keep) :
    s'.Sound v keep :=
  hs.congr h.dom (fun r => h.place r v hv) (fun r => by rw [h.peerOf hwf hv])
    (by rw [h.peerOf hwf hv])

/-- What is about one user leaves the invariant, when it leaves that user's books. -/
theorem inv (h : Only u s s') (hi : s.Inv) (hs : s'.Sound u none) : s'.Inv where
  wf := h.wf hi.wf
  sound v := by
    by_cases hv : v = u
    · exact hv ▸ hs
    · exact h.sound hi.wf hv (hi.sound v)

end Only

end Sfu

/-! ## The parts of a request -/

/-- The place that a room has for a user. -/
def placeOf (r : Room) (u : String) : Place := ⟨r.has u, r.floor.seat u⟩

theorem placeOf_remove (r : Room) (x u : String) :
    placeOf (r.remove x).2 u = ⟨if x = u then false else r.has u, r.floor.seat u⟩ := by
  simp only [placeOf, Room.has_eq, Room.remove_member]
  split <;> rfl

theorem placeOf_join (r : Room) (m : Member) (rejoin : Bool) (tok : Option Permission)
    (u : String) : placeOf (r.join m rejoin tok).2 u =
      ⟨if m.user = u then true else r.has u, r.floor.seat u⟩ := by
  have hfloor : (r.join m rejoin tok).2.floor = r.floor := by
    unfold Room.join
    dsimp only
    split <;> rfl
  simp only [placeOf, Room.has_eq, Room.join_member, hfloor]
  split <;> rfl

theorem placeOf_ttlDue (r : Room) (now : Nat) (u : String) :
    placeOf (r.ttlDue now).2 u = placeOf r u := by
  have hfloor : (r.ttlDue now).2.floor = r.floor := by
    unfold Room.ttlDue
    dsimp only
    split_ifs <;> rfl
  simp only [placeOf, Room.has_eq, Room.ttlDue_member, hfloor]

namespace Sfu

section Parts

variable {u : String} {s : Sfu} {p : Nat} {rid : String}

theorem place_eq (s : Sfu) (r u : String) : s.place r u = s.rooms[r]?.map (placeOf · u) :=
  rfl

theorem onRoom_get? (s : Sfu) (rid : String) (f : Room → Room) (r : String) :
    (s.onRoom rid f).rooms[r]? = if rid = r then s.rooms[r]?.map f else s.rooms[r]? := by
  unfold onRoom
  by_cases h : rid = r
  · subst h
    cases hr : s.rooms[rid]? with
    | none => simp [hr]
    | some room => simp
  · rw [if_neg h]
    split
    · rfl
    · rw [TreeMap.getElem?_insert, if_neg (by simpa using h)]

theorem onRoom_eq (s : Sfu) (rid : String) (f : Room → Room) :
    s.onRoom rid f = { s with rooms := (s.onRoom rid f).rooms } := by
  unfold onRoom
  split <;> rfl

theorem onRoom_dom (s : Sfu) (rid : String) (f : Room → Room) (r : String) :
    r ∈ (s.onRoom rid f).rooms ↔ r ∈ s.rooms := by
  rw [← TreeMap.isSome_getElem?_iff_mem, ← TreeMap.isSome_getElem?_iff_mem, onRoom_get?]
  split
  · rw [Option.isSome_map]
  · rfl

/-- Work on one room that changes the places in it by `g`. -/
theorem place_onRoom {f : Room → Room} {g : Place → Place} {v : String}
    (h : ∀ room, placeOf (f room) v = g (placeOf room v)) (r : String) :
    (s.onRoom rid f).place r v = if rid = r then (s.place r v).map g else s.place r v := by
  rw [place_eq, place_eq, onRoom_get?]
  split
  · rw [Option.map_map, Option.map_map]
    exact congrArg (Option.map · _) (funext h)
  · rfl

/-- Work on a room that nobody's place depends on. -/
theorem place_onRoom_same {f : Room → Room} (h : ∀ room v, placeOf (f room) v = placeOf room v)
    (r v : String) : (s.onRoom rid f).place r v = s.place r v := by
  have hid : ∀ room, placeOf (f room) v = id (placeOf room v) := fun room => h room v
  rw [place_onRoom hid, Option.map_id_fun, id, ite_self]

theorem peerOf_onRoom (s : Sfu) (rid : String) (f : Room → Room) (u : String) :
    (s.onRoom rid f).peerOf u = s.peerOf u := by
  rw [onRoom_eq]
  rfl

theorem Wf.of_rooms (h : s.Wf) {m : TreeMap String Room}
    (hm : ∀ r, r ∈ m ↔ r ∈ s.rooms) : ({ s with rooms := m } : Sfu).Wf :=
  ⟨h.user, h.lt, h.table, h.media, fun r hr => h.clock r ((hm r).1 hr)⟩

theorem Only.onRoom {f : Room → Room}
    (h : ∀ room v, v ≠ u → placeOf (f room) v = placeOf room v) :
    Only u s (s.onRoom rid f) where
  wf hwf := by
    rw [onRoom_eq]
    exact hwf.of_rooms (s.onRoom_dom rid f)
  dom := s.onRoom_dom rid f
  place r v hv := by
    have hid : ∀ room, placeOf (f room) v = id (placeOf room v) := fun room => h room v hv
    rw [place_onRoom hid, Option.map_id_fun, id, ite_self]
  peers v _ := by rw [onRoom_eq]
  heap q _ _ := by rw [onRoom_eq]
  size := by rw [onRoom_eq]
  media := by rw [onRoom_eq]

/-- A floor with a clock runs the operation. -/
theorem runFloor_eq (hwf : s.Wf) (rid : String) (o : Flr.Op) :
    s.runFloor rid o = s.onRoom rid fun r => { r with floor := (r.floor.apply o).fl } := by
  unfold runFloor
  split_ifs with h
  · rfl
  · unfold Sfu.onRoom
    have hnone : s.rooms[rid]? = none := by
      rw [TreeMap.getElem?_eq_none]
      exact fun hr => h (hwf.clock rid hr)
    rw [hnone]

theorem placeOf_floor (r : Room) (o : Flr.Op) (v : String) :
    placeOf { r with floor := (r.floor.apply o).fl } v =
      ⟨r.has v, o.reseat v (r.floor.seat v)⟩ := by
  rw [placeOf, Flr.Floor.seat_apply]
  rfl

theorem place_runFloor (hwf : s.Wf) (rid : String) (o : Flr.Op) (r v : String) :
    (s.runFloor rid o).place r v =
      if rid = r then (s.place r v).map fun pl => { pl with seat := o.reseat v pl.seat }
      else s.place r v := by
  rw [runFloor_eq hwf]
  exact place_onRoom (fun room => placeOf_floor room o v) r

/-- A floor operation that keeps the seats of the others. -/
theorem Only.runFloor {o : Flr.Op} (h : ∀ v st, v ≠ u → o.reseat v st = st) :
    Only u s (s.runFloor rid o) := by
  unfold Sfu.runFloor
  split_ifs
  · refine .onRoom fun room v hv => ?_
    rw [placeOf_floor, h v _ hv]
    rfl
  · exact .refl u s

theorem peerOf_runFloor (s : Sfu) (rid : String) (o : Flr.Op) (u : String) :
    (s.runFloor rid o).peerOf u = s.peerOf u := by
  unfold runFloor
  split_ifs
  · exact peerOf_onRoom _ _ _ _
  · rfl

theorem peerOf_onPeer (h : s.peers[u]? = some p) (f : Peer → Peer) :
    (s.onPeer p f).peerOf u = f (s.peerOf u) := by
  rw [peerOf_some h, peerOf_some (show (s.onPeer p f).peers[u]? = some p from h)]
  exact Function.update_self ..

theorem Only.onPeer (h : (s.heap p).user = u) {f : Peer → Peer}
    (hf : (f (s.heap p)).user = (s.heap p).user) : Only u s (s.onPeer p f) where
  wf hwf := by
    refine ⟨fun v q hq => ?_, hwf.lt, hwf.table, hwf.media, hwf.clock⟩
    show (Function.update s.heap p (f (s.heap p)) q).user = v
    by_cases hqp : q = p
    · subst hqp
      rw [Function.update_self, hf]
      exact hwf.user v q hq
    · rw [Function.update_of_ne hqp]
      exact hwf.user v q hq
  dom _ := Iff.rfl
  place _ _ _ := rfl
  peers _ _ := rfl
  heap q _ hu := by
    refine Function.update_of_ne ?_ _ _
    rintro rfl
    exact hu h
  size := le_rfl
  media := rfl

theorem reap_peers (s : Sfu) (p : Nat) (v : String) : (s.reap p).peers[v]? =
    if s.peers[v]? = some p ∧ (s.heap p).user = v then none else s.peers[v]? := by
  unfold reap
  dsimp only
  by_cases hv : (s.heap p).user = v
  · subst hv
    split_ifs <;> simp_all
  · have hne : ¬ compare (s.heap p).user v = .eq := by simpa using hv
    split_ifs
    · tauto
    · rw [TreeMap.getElem?_erase, if_neg hne]
    · tauto
    · rfl

theorem Only.reap (h : (s.heap p).user = u) : Only u s (s.reap p) where
  wf hwf := by
    have hold : ∀ (v : String) (q : Nat), (s.reap p).peers[v]? = some q →
        s.peers[v]? = some q ∧ q ≠ p := by
      intro v q hq
      rw [reap_peers] at hq
      split_ifs at hq with hc
      refine ⟨hq, ?_⟩
      rintro rfl
      exact hc ⟨hq, hwf.user v q hq⟩
    refine ⟨fun v q hq => hwf.user v q (hold v q hq).1, fun v q hq => hwf.lt v q (hold v q hq).1,
      fun v q hq => ?_, fun v q hq => hwf.media v q (hold v q hq).1, hwf.clock⟩
    obtain ⟨hq, hne⟩ := hold v q hq
    show q ∈ s.tables.erase p
    rw [TreeMap.mem_erase]
    exact ⟨by simpa using hne.symm, hwf.table v q hq⟩
  dom _ := Iff.rfl
  place _ _ _ := rfl
  peers v hv := by
    rw [reap_peers, if_neg]
    rintro ⟨-, e⟩
    exact hv (e.symm.trans h)
  heap _ _ _ := rfl
  size := le_rfl
  media := rfl

theorem Only.newPeer (c : Ctx) : Only c.user s (s.newPeer c).2 := by
  unfold Sfu.newPeer
  split_ifs with hm
  · refine ⟨fun hwf => ?_, fun _ => Iff.rfl, fun _ _ _ => rfl, fun v hv => ?_, fun q hq _ => ?_,
      Nat.le_succ _, rfl⟩
    · have hold : ∀ (v : String) (q : Nat), (s.peers.insert c.user s.size)[v]? = some q →
          (v = c.user ∧ q = s.size) ∨ s.peers[v]? = some q ∧ q < s.size := by
        intro v q hq
        rw [TreeMap.getElem?_insert] at hq
        split_ifs at hq with hc
        · exact .inl ⟨(Std.compare_eq_iff_eq.1 hc).symm, (Option.some.inj hq).symm⟩
        · exact .inr ⟨hq, hwf.lt v q hq⟩
      refine ⟨fun v q hq => ?_, fun v q hq => ?_, fun v q hq => ?_, fun v q _ => hm, hwf.clock⟩
      · rcases hold v q hq with ⟨rfl, rfl⟩ | ⟨hq, hlt⟩
        · simp
        · show (Function.update s.heap s.size _ q).user = v
          rw [Function.update_of_ne hlt.ne]
          exact hwf.user v q hq
      · rcases hold v q hq with ⟨-, rfl⟩ | ⟨-, hlt⟩
        · exact Nat.lt_succ_self _
        · exact hlt.trans (Nat.lt_succ_self _)
      · rcases hold v q hq with ⟨-, rfl⟩ | ⟨hq, -⟩
        · exact TreeMap.mem_insert_self
        · exact TreeMap.mem_insert.2 (.inr (hwf.table v q hq))
    · show (s.peers.insert c.user s.size)[v]? = _
      rw [TreeMap.getElem?_insert, if_neg (by simpa using hv.symm)]
    · exact Function.update_of_ne hq.ne _ _
  · exact .refl _ _

theorem member_isSome (s : Sfu) (rid u : String) :
    (s.member rid u).isSome = (s.place rid u).any (·.roster) := by
  rw [member, place]
  cases s.rooms[rid]? with
  | none => rfl
  | some room => simp [Room.has_eq]

theorem inRoom_erase (q : Peer) (rid r : String) :
    ({ q with rooms := q.rooms.erase rid } : Peer).inRoom r = (q.inRoom r && decide (rid ≠ r)) := by
  rw [Peer.inRoom, Peer.inRoom, TreeMap.contains_erase]
  by_cases h : rid = r
  · simp [h]
  · simp [h]

theorem inRoom_insert (q : Peer) (rid j r : String) :
    ({ q with rooms := q.rooms.insert rid j } : Peer).inRoom r =
      (q.inRoom r || decide (rid = r)) := by
  rw [Peer.inRoom, Peer.inRoom, TreeMap.contains_insert]
  by_cases h : rid = r
  · simp [h]
  · simp [h]

end Parts

end Sfu

/-! ## Leaving -/

namespace Sfu

section Leaving

variable {u : String} {s s' : Sfu} {p : Nat} {rid : String} {keep : Option String}

/-- The books after the user left `rid`. -/
theorem Sound.without (h : s.Sound u keep) (rid : String) (hdom : ∀ r, r ∈ s'.rooms ↔ r ∈ s.rooms)
    (hplace : ∀ r, rid ≠ r → s'.place r u = s.place r u)
    (hrid : ∀ pl, s'.place rid u = some pl →
      pl.seat = ⟨false, false⟩ ∧ (keep ≠ some rid → pl.roster = false))
    (hroom : ∀ r, (s'.peerOf u).inRoom r = ((s.peerOf u).inRoom r && decide (rid ≠ r)))
    (hpub : (s'.peerOf u).pubRoom =
      if (s.peerOf u).pubRoom = some rid then none else (s.peerOf u).pubRoom) :
    s'.Sound u keep where
  seat r pl hpl := by
    by_cases hr : rid = r
    · subst hr
      rw [(hrid pl hpl).1, Peer.due, hroom, hpub]
      split_ifs with hc
      · simp
      · simp [hc]
    · rw [h.seat r pl (hplace r hr ▸ hpl), Peer.due, Peer.due, hroom, hpub]
      split_ifs with hc
      · simp [hr, hc]
      · simp [hr]
  roster r pl hpl hkeep := by
    by_cases hr : rid = r
    · subst hr
      rw [(hrid pl hpl).2 hkeep, hroom]
      simp
    · rw [h.roster r pl (hplace r hr ▸ hpl) hkeep, hroom]
      simp [hr]
  pubIn r hr := by
    rw [hpub] at hr
    split_ifs at hr with hc
    rw [hroom, h.pubIn r hr, Bool.true_and, decide_eq_true_eq]
    rintro rfl
    exact hc hr
  there r hr := by
    rw [hroom] at hr
    exact (hdom r).2 (h.there r (Bool.and_elim_left hr))

/-- What a departure from `rid` comes to. -/
structure Left (u : String) (p : Nat) (rid : String) (keep : Option String) (s s' : Sfu) :
    Prop where
  only : Only u s s'
  sound : s'.Sound u keep
  user : (s'.heap p).user = u
  rooms : ∀ r, (s'.heap p).inRoom r = ((s.heap p).inRoom r && decide (rid ≠ r))
  peers : s'.peers[u]? = some p ∨ s'.peers[u]? = none ∧ ∀ r, (s'.heap p).inRoom r = false

theorem reapIfEmpty_peers (hu : (s.heap p).user = u) (hp : s.peers[u]? = some p) :
    (s.reapIfEmpty p).peers[u]? = some p ∨
      (s.reapIfEmpty p).peers[u]? = none ∧ ∀ r, (s.heap p).inRoom r = false := by
  unfold reapIfEmpty
  split_ifs with he
  · refine .inr ⟨?_, fun r => ?_⟩
    · rw [reap_peers, if_pos ⟨hp, hu⟩]
    · exact TreeMap.contains_of_isEmpty he
  · exact .inl hp

theorem Only.reapIfEmpty (hu : (s.heap p).user = u) : Only u s (s.reapIfEmpty p) := by
  unfold Sfu.reapIfEmpty
  split_ifs
  · exact .reap hu
  · exact .refl u s

theorem reapIfEmpty_heap (s : Sfu) (p : Nat) : (s.reapIfEmpty p).heap = s.heap := by
  unfold reapIfEmpty
  split_ifs <;> rfl

theorem place_reapIfEmpty (s : Sfu) (p : Nat) (r v : String) :
    (s.reapIfEmpty p).place r v = s.place r v := by
  unfold reapIfEmpty
  split_ifs <;> rfl

/-- A peer that is in no room may be reclaimed. -/
theorem Sound.of_gone (h : s.Sound u keep) (honly : Only u s s')
    (hplace : ∀ r, s'.place r u = s.place r u) (hp : s'.peers[u]? = none)
    (hout : ∀ r, (s.peerOf u).inRoom r = false) : s'.Sound u keep := by
  have hpub : (s.peerOf u).pubRoom = none := by
    rw [Option.eq_none_iff_forall_ne_some]
    intro r hr
    have := h.pubIn r hr
    rw [hout] at this
    cases this
  refine h.congr honly.dom hplace (fun r => ?_) ?_
  · rw [peerOf_none hp, nowhere_inRoom, hout]
  · rw [peerOf_none hp, hpub]

theorem Sound.reapIfEmpty (h : s.Sound u keep) (hu : (s.heap p).user = u)
    (hp : s.peers[u]? = some p) : (s.reapIfEmpty p).Sound u keep := by
  have honly : Only u s (s.reapIfEmpty p) := .reapIfEmpty hu
  rcases reapIfEmpty_peers hu hp with h' | ⟨h', hout⟩
  · refine h.congr honly.dom (s.place_reapIfEmpty p · u) (fun r => ?_) ?_
    · rw [peerOf_some h', peerOf_some hp, reapIfEmpty_heap]
    · rw [peerOf_some h', peerOf_some hp, reapIfEmpty_heap]
  · refine h.of_gone honly (s.place_reapIfEmpty p · u) h' fun r => ?_
    rw [peerOf_some hp]
    exact hout r

/-- The peer after it gave up its publication room, if that is `rid`. -/
def yielded (q : Peer) (rid : String) : Peer :=
  if q.pubRoom = some rid then { q with pubRoom := none } else q

theorem yielded_inRoom (q : Peer) (rid r : String) : (yielded q rid).inRoom r = q.inRoom r := by
  unfold yielded
  split_ifs <;> rfl

theorem yielded_pubRoom (q : Peer) (rid : String) :
    (yielded q rid).pubRoom = if q.pubRoom = some rid then none else q.pubRoom := by
  unfold yielded
  split_ifs <;> rfl

theorem runFloor_peers (s : Sfu) (rid : String) (o : Flr.Op) :
    (s.runFloor rid o).peers = s.peers := by
  unfold runFloor
  split_ifs
  · rw [onRoom_eq]
  · rfl

theorem runFloor_heap (s : Sfu) (rid : String) (o : Flr.Op) :
    (s.runFloor rid o).heap = s.heap := by
  unfold runFloor
  split_ifs
  · rw [onRoom_eq]
  · rfl

theorem Only.stepDown (hu : (s.heap p).user = u) : Only u s (s.stepDown p rid) := by
  have hfloor : Only u s (s.runFloor rid (.wsLeave (s.heap p).user)) := by
    rw [hu]
    exact .runFloor fun v st hv => if_neg hv.symm
  unfold Sfu.stepDown
  dsimp only
  split_ifs
  · refine hfloor.trans (.onPeer ?_ rfl)
    rw [runFloor_heap, hu]
  · exact hfloor

theorem stepDown_peers (s : Sfu) (p : Nat) (rid : String) :
    (s.stepDown p rid).peers = s.peers := by
  unfold stepDown
  dsimp only
  split_ifs
  · exact runFloor_peers _ _ _
  · exact runFloor_peers _ _ _

theorem stepDown_heap (s : Sfu) (p : Nat) (rid : String) :
    (s.stepDown p rid).heap p = yielded (s.heap p) rid := by
  unfold stepDown yielded
  dsimp only
  rw [runFloor_heap]
  split_ifs
  · rw [setPubRoom, onPeer, runFloor_heap]
    exact Function.update_self ..
  · rw [runFloor_heap]

theorem place_stepDown (hwf : s.Wf) (hu : (s.heap p).user = u) (r : String) :
    (s.stepDown p rid).place r u =
      if rid = r then (s.place r u).map fun pl => { pl with seat := ⟨false, false⟩ }
      else s.place r u := by
  have hfloor : (s.stepDown p rid).place r u =
      (s.runFloor rid (.wsLeave (s.heap p).user)).place r u := by
    unfold stepDown
    dsimp only
    split_ifs <;> rfl
  rw [hfloor, place_runFloor hwf, hu]
  simp only [Flr.Op.reseat, if_true]

theorem place_remove (s : Sfu) (rid u r : String) :
    (s.onRoom rid fun r => (r.remove u).2).place r u =
      if rid = r then (s.place r u).map fun pl => { pl with roster := false }
      else s.place r u := by
  refine place_onRoom (fun room => ?_) r
  rw [placeOf_remove, if_pos rfl]
  rfl

theorem Only.strike (hu : (s.heap p).user = u) (k : Bool) : Only u s (s.strike p rid k) := by
  unfold Sfu.strike
  dsimp only
  rw [hu]
  split_ifs
  · exact .onPeer hu rfl
  · refine (Only.onRoom fun room v hv => ?_).trans (.onPeer ?_ rfl)
    · rw [placeOf_remove, if_neg hv.symm]
      rfl
    · rw [onRoom_eq]
      exact hu

theorem strike_peers (s : Sfu) (p : Nat) (rid : String) (k : Bool) :
    (s.strike p rid k).peers = s.peers := by
  unfold strike
  dsimp only
  split_ifs
  · rfl
  · rw [onPeer, onRoom_eq]

theorem strike_heap (s : Sfu) (p : Nat) (rid : String) (k : Bool) :
    (s.strike p rid k).heap p = { s.heap p with rooms := (s.heap p).rooms.erase rid } := by
  unfold strike
  dsimp only
  split_ifs
  · exact Function.update_self ..
  · rw [onPeer, onRoom_eq]
    exact Function.update_self ..

theorem place_strike (hu : (s.heap p).user = u) (k : Bool) (r : String) :
    (s.strike p rid k).place r u =
      if rid = r then (s.place r u).map fun pl => { pl with roster := k && pl.roster }
      else s.place r u := by
  unfold strike
  dsimp only
  rw [hu]
  split_ifs with hk hr hr
  · subst hk
    show s.place r u = _
    simp
  · rfl
  · exact (place_remove s rid u r).trans (by simp [hr, hk])
  · exact (place_remove s rid u r).trans (if_neg hr)

/-- The steps of a departure, up to its announcement. -/
theorem left_steps (hwf : s.Wf) (hp : s.peers[u]? = some p) (hs : s.Sound u keep)
    (rid : String) {k : Bool} (hk : k = true → keep = some rid) :
    Left u p rid keep s (((s.stepDown p rid).strike p rid k).reapIfEmpty p) := by
  have hu := hwf.user u p hp
  have hu₁ : ((s.stepDown p rid).heap p).user = u := by
    rw [stepDown_heap, yielded]
    split_ifs <;> exact hu
  have hheap : ((s.stepDown p rid).strike p rid k).heap p =
      { yielded (s.heap p) rid with rooms := (yielded (s.heap p) rid).rooms.erase rid } := by
    rw [strike_heap, stepDown_heap]
  have hpeers : ((s.stepDown p rid).strike p rid k).peers[u]? = some p := by
    rw [strike_peers, stepDown_peers]
    exact hp
  have hu₂ : (((s.stepDown p rid).strike p rid k).heap p).user = u := by
    rw [strike_heap]
    exact hu₁
  have honly : Only u s ((s.stepDown p rid).strike p rid k) :=
    (Only.stepDown hu).trans (.strike hu₁ k)
  have hroom : ∀ r, (((s.stepDown p rid).strike p rid k).heap p).inRoom r =
      ((s.heap p).inRoom r && decide (rid ≠ r)) := by
    intro r
    rw [hheap, inRoom_erase, yielded_inRoom]
  have hsound : ((s.stepDown p rid).strike p rid k).Sound u keep := by
    refine hs.without rid honly.dom (fun r hr => ?_) (fun pl hpl => ?_) (fun r => ?_) ?_
    · rw [place_strike hu₁, if_neg hr, place_stepDown hwf hu, if_neg hr]
    · rw [place_strike hu₁, if_pos rfl, place_stepDown hwf hu, if_pos rfl, Option.map_map,
        Option.map_eq_some_iff] at hpl
      obtain ⟨pl₀, -, rfl⟩ := hpl
      refine ⟨rfl, fun hne => ?_⟩
      cases k with
      | false => rfl
      | true => exact absurd (hk rfl) hne
    · rw [peerOf_some hpeers, peerOf_some hp]
      exact hroom r
    · rw [peerOf_some hpeers, peerOf_some hp, hheap]
      exact yielded_pubRoom _ _
  refine ⟨honly.trans (.reapIfEmpty hu₂), hsound.reapIfEmpty hu₂ hpeers, ?_, ?_, ?_⟩
  · rw [reapIfEmpty_heap]
    exact hu₂
  · rw [reapIfEmpty_heap]
    exact hroom
  · rw [reapIfEmpty_heap]
    exact reapIfEmpty_peers hu₂ hpeers

/-- A notice moves only the version of the room. -/
theorem Left.notice (h : Left u p rid keep s s') (f : Room → Version → Option Notice) :
    Left u p rid keep s (s'.onRoom rid fun r => (r.bumpAndSend (f r)).2) := by
  have honly : Only u s' (s'.onRoom rid fun r => (r.bumpAndSend (f r)).2) :=
    .onRoom fun _ _ _ => rfl
  refine ⟨h.only.trans honly, ?_, ?_, ?_, ?_⟩
  · refine h.sound.congr honly.dom (fun r => ?_) (fun r => ?_) ?_
    · refine place_onRoom_same ?_ r u
      exact fun _ _ => rfl
    · rw [peerOf_onRoom]
    · rw [peerOf_onRoom]
  · rw [onRoom_eq]
    exact h.user
  · rw [onRoom_eq]
    exact h.rooms
  · rw [onRoom_eq]
    exact h.peers

/-- **A user that is in the room leaves it.** -/
theorem leave_left (hwf : s.Wf) (hp : s.peers[u]? = some p) (hs : s.Sound u keep)
    (hin : (s.heap p).inRoom rid = true) (why : Why) {k : Bool} (hk : k = true ↔ keep = some rid) :
    (s.leave p rid why k).1 = true ∧ Left u p rid keep s (s.leave p rid why k).2 := by
  have hu := hwf.user u p hp
  have hr : rid ∈ s.rooms := hs.there rid (peerOf_some hp ▸ hin)
  have hmember : ¬ (!k && ((s.stepDown p rid).member rid u).isNone) = true := by
    cases k with
    | true => simp
    | false =>
      have hne : keep ≠ some rid := fun e => Bool.false_ne_true (hk.2 e)
      obtain ⟨pl, hpl⟩ := Option.isSome_iff_exists.1 (place_isSome.2 hr)
      have hroster := hs.roster rid pl hpl hne
      rw [peerOf_some hp, hin] at hroster
      have hsome := (s.stepDown p rid).member_isSome rid u
      rw [place_stepDown hwf hu, if_pos rfl, hpl, Option.map_some, Option.any_some] at hsome
      simp [Option.isSome_iff_ne_none.1 (hsome.trans hroster)]
  have hleft := left_steps hwf hp hs rid hk.1
  rw [leave, if_neg (not_not.2 hr)]
  dsimp only
  rw [hu, if_neg hmember]
  refine ⟨rfl, ?_⟩
  dsimp only
  split_ifs
  · exact hleft.notice _
  · exact hleft

/-- A peer leaves its rooms one after the other. The induction is on the rooms it has left to
leave; it is registered as long as there is one. -/
theorem leave_all (why : Why) {l : List String} (hwf : s.Wf) (hs : s.Sound u keep)
    (hu : (s.heap p).user = u) (hnd : l.Nodup) (hmem : ∀ r, (s.heap p).inRoom r = true ↔ r ∈ l)
    (hp : s.peers[u]? = some p ∨ s.peers[u]? = none ∧ l = []) :
    ∃ s', l.foldl (fun s rid => (s.leave p rid why (keep = some rid)).2) s = s' ∧
      Only u s s' ∧ s'.Sound u keep ∧ (s'.heap p).user = u ∧
      (∀ r, (s'.heap p).inRoom r = false) ∧ (s'.peers[u]? = some p ∨ s'.peers[u]? = none) := by
  induction l generalizing s with
  | nil =>
    refine ⟨s, rfl, .refl u s, hs, hu, fun r => ?_, hp.imp_right And.left⟩
    rw [← Bool.not_eq_true, hmem]
    exact List.not_mem_nil
  | cons rid l ih =>
    obtain ⟨hrid, hnd⟩ := List.nodup_cons.1 hnd
    have hp : s.peers[u]? = some p := hp.resolve_right fun h => List.cons_ne_nil _ _ h.2
    obtain ⟨-, hleft⟩ := leave_left hwf hp hs ((hmem rid).2 List.mem_cons_self) why
      (k := decide (keep = some rid)) decide_eq_true_iff
    have hmem' : ∀ r, ((s.leave p rid why (keep = some rid)).2.heap p).inRoom r = true ↔
        r ∈ l := by
      intro r
      rw [hleft.rooms, Bool.and_eq_true, hmem, decide_eq_true_iff, List.mem_cons]
      refine ⟨fun h => h.1.resolve_left h.2.symm, fun h => ⟨.inr h, ?_⟩⟩
      rintro rfl
      exact hrid h
    have hp' : (s.leave p rid why (keep = some rid)).2.peers[u]? = some p ∨
        (s.leave p rid why (keep = some rid)).2.peers[u]? = none ∧ l = [] := by
      refine hleft.peers.imp_right fun h => ⟨h.1, ?_⟩
      refine List.eq_nil_iff_forall_not_mem.2 fun r hr => ?_
      have hin := (hmem' r).2 hr
      rw [h.2 r] at hin
      cases hin
    obtain ⟨s', hfold, honly, rest⟩ :=
      ih (hleft.only.wf hwf) hleft.sound hleft.user hnd hmem' hp'
    exact ⟨s', hfold, hleft.only.trans honly, rest⟩

/-- **An evicted peer is gone**, its places with it, save the roster entry that is kept. -/
theorem evict_spec (hwf : s.Wf) (hs : s.Sound u keep) (hp : s.peers[u]? = some p) (why : Why) :
    Only u s (s.evict p keep why) ∧ (s.evict p keep why).Sound u keep ∧
      (s.evict p keep why).peers[u]? = none := by
  have hkeys : ∀ r, (s.heap p).inRoom r = true ↔ r ∈ (s.heap p).rooms.keys := by
    intro r
    rw [Peer.inRoom, ← TreeMap.mem_iff_contains, TreeMap.mem_keys]
  obtain ⟨s', hfold, honly, hs', hu', hout, hp'⟩ := leave_all why hwf hs (hwf.user u p hp)
    (s.heap p).rooms.nodup_keys hkeys (.inl hp)
  rw [evict, hfold]
  have hpeers : (s'.reap p).peers[u]? = none := by
    rw [reap_peers]
    split_ifs with hc
    · rfl
    · exact hp'.resolve_left fun h => hc ⟨h, hu'⟩
  have hgone : ∀ r, (s'.peerOf u).inRoom r = false := by
    intro r
    rcases hp' with h | h
    · rw [peerOf_some h]
      exact hout r
    · rw [peerOf_none h, nowhere_inRoom]
  have hreap : Only u s' (s'.reap p) := .reap hu'
  exact ⟨honly.trans hreap, hs'.of_gone hreap (fun _ => rfl) hpeers hgone, hpeers⟩

end Leaving

end Sfu

end OxlensSfu.Peers
