import OxlensSfu.Peer.Books

/-!
# Membership and affiliation stay coherent

After any sequence of requests the four stores agree: a user is in the roster of a room exactly
when the room is in the set of its peer and exactly when the floor of the room has it as a member,
the publication room is one of the rooms, and the floor of that room, no other, has it marked as
publishing there (`membership_coherent`).

One request may end in the middle, a join whose codecs the table cannot slice. It panics with the
new peer in no room. A user that came back to its room is in the roster still (`comeback_panics`),
so such a join must not panic; any other may.
-/

namespace OxlensSfu.Peers

open Std Rooms

namespace Sfu

/-- The four stores agree. -/
structure Coherent (s : Sfu) : Prop where
  roster : ∀ (u : String) (p : Nat) (r : String) (room : Room), s.peers[u]? = some p →
    s.rooms[r]? = some room → (room.has u = true ↔ r ∈ (s.heap p).rooms)
  floor : ∀ (u : String) (p : Nat) (r : String) (room : Room), s.peers[u]? = some p →
    s.rooms[r]? = some room → (room.has u = true ↔ u ∈ room.floor.members)
  pubIn : ∀ (u : String) (p : Nat) (r : String), s.peers[u]? = some p →
    (s.heap p).pubRoom = some r → r ∈ (s.heap p).rooms
  pubFlag : ∀ (u : String) (p : Nat) (r : String) (room : Room), s.peers[u]? = some p →
    s.rooms[r]? = some room → u ∈ room.floor.members →
    ((room.floor.part u).pubRoom = true ↔ (s.heap p).pubRoom = some r)
  stray : ∀ (u r : String) (room : Room), s.peers[u]? = none → s.rooms[r]? = some room →
    room.has u = false ∧ u ∉ room.floor.members

/-! ## The publication room -/

section Pub

variable {u : String} {s s' : Sfu} {p : Nat}

theorem Only.runFloorAt {rid : Option String} {o : Flr.Op}
    (h : ∀ v st, v ≠ u → o.reseat v st = st) : Only u s (s.runFloorAt rid o) := by
  cases rid with
  | none => exact .refl u s
  | some r => exact .runFloor h

theorem place_runFloorAt (hwf : s.Wf) (rid : Option String) (o : Flr.Op) (r v : String) :
    (s.runFloorAt rid o).place r v =
      (s.place r v).map fun pl =>
        { pl with seat := if rid = some r then o.reseat v pl.seat else pl.seat } := by
  cases rid with
  | none => simp [runFloorAt]
  | some x =>
    rw [runFloorAt, place_runFloor hwf]
    by_cases h : x = r
    · simp [h]
    · simp [h]

theorem runFloorAt_peers (s : Sfu) (rid : Option String) (o : Flr.Op) :
    (s.runFloorAt rid o).peers = s.peers := by
  cases rid with
  | none => rfl
  | some r => exact runFloor_peers s r o

theorem runFloorAt_heap (s : Sfu) (rid : Option String) (o : Flr.Op) :
    (s.runFloorAt rid o).heap = s.heap := by
  cases rid with
  | none => rfl
  | some r => exact runFloor_heap s r o

theorem setPubRoom_place (s : Sfu) (p : Nat) (dest : Option String) (r v : String) :
    (s.setPubRoom p dest).place r v = s.place r v := rfl

/-- The old floor has heard, the new one has not. -/
theorem Only.halfway (hu : (s.heap p).user = u) (cur dest : Option String) :
    Only u s ((s.runFloorAt cur (.wsPubAway u)).setPubRoom p dest) := by
  have haway : Only u s (s.runFloorAt cur (.wsPubAway u)) :=
    .runFloorAt fun v st hv => if_neg hv.symm
  refine haway.trans (.onPeer ?_ rfl)
  rw [runFloorAt_heap]
  exact hu

theorem Only.moveTo (hu : (s.heap p).user = u) (dest : Option String) :
    Only u s (s.moveTo p dest) := by
  unfold Sfu.moveTo
  dsimp only
  rw [hu]
  exact (Only.halfway hu _ dest).trans (.runFloorAt fun v st hv => if_neg hv.symm)

theorem moveTo_peers (s : Sfu) (p : Nat) (dest : Option String) :
    (s.moveTo p dest).peers = s.peers :=
  (runFloorAt_peers ..).trans (runFloorAt_peers ..)

theorem moveTo_heap (s : Sfu) (p : Nat) (dest : Option String) :
    (s.moveTo p dest).heap p = { s.heap p with pubRoom := dest } := by
  unfold moveTo
  dsimp only
  rw [runFloorAt_heap, setPubRoom, onPeer, runFloorAt_heap]
  exact Function.update_self ..

/-- Only the old room had the user marked, and only the new one has it marked now. -/
theorem place_moveTo (hwf : s.Wf) (hp : s.peers[u]? = some p) (hs : s.Sound u none)
    (dest : Option String) (r : String) : (s.moveTo p dest).place r u =
      (s.place r u).map fun pl => ⟨pl.roster, ⟨(s.heap p).inRoom r, dest == some r⟩⟩ := by
  have hu := hwf.user u p hp
  unfold moveTo
  dsimp only
  rw [hu, place_runFloorAt ((Only.halfway hu _ dest).wf hwf), setPubRoom_place,
    place_runFloorAt hwf, Option.map_map]
  refine Option.map_congr fun pl hpl => ?_
  have hseat := hs.seat r pl hpl
  rw [peerOf_some hp] at hseat
  have haway : (if (s.heap p).pubRoom = some r then (Flr.Op.wsPubAway u).reseat u pl.seat
      else pl.seat) = ⟨(s.heap p).inRoom r, false⟩ := by
    split_ifs with hc
    · rw [Flr.Op.reseat, if_pos rfl, hseat]
      rfl
    · rw [hseat, Peer.due]
      simp [hc]
  simp only [Function.comp_apply, haway]
  by_cases hdest : dest = some r
  · simp [hdest, Flr.Op.reseat]
  · simp [hdest]

/-- **The publication room moves** to a room of the peer, or away. -/
theorem moveTo_inv (hi : s.Inv) (hp : s.peers[u]? = some p) {dest : Option String}
    (hd : ∀ r, dest = some r → (s.heap p).inRoom r = true) : (s.moveTo p dest).Inv := by
  have hs := hi.sound u
  have honly : Only u s (s.moveTo p dest) := .moveTo (hi.wf.user u p hp) dest
  have hplace := place_moveTo hi.wf hp hs dest
  have hpeer : (s.moveTo p dest).peerOf u = { s.heap p with pubRoom := dest } := by
    rw [peerOf_some ((congrArg (·[u]?) (s.moveTo_peers p dest)).trans hp)]
    exact moveTo_heap s p dest
  refine honly.inv hi ⟨?_, ?_, ?_, ?_⟩
  · intro r pl hpl
    rw [hplace, Option.map_eq_some_iff] at hpl
    obtain ⟨pl₀, -, rfl⟩ := hpl
    rw [hpeer]
    rfl
  · intro r pl hpl hkeep
    rw [hplace, Option.map_eq_some_iff] at hpl
    obtain ⟨pl₀, hpl₀, rfl⟩ := hpl
    have hroster := hs.roster r pl₀ hpl₀ hkeep
    rw [peerOf_some hp] at hroster
    rw [hpeer]
    exact hroster
  · intro r hr
    rw [hpeer] at hr ⊢
    exact hd r hr
  · intro r hr
    rw [hpeer] at hr
    refine (honly.dom r).2 (hs.there r ?_)
    rw [peerOf_some hp]
    exact hr

theorem movePub_inv (hi : s.Inv) (hp : s.peers[u]? = some p) {dest : Option String}
    (hd : ∀ r, dest = some r → (s.heap p).inRoom r = true) (recheck : Option Failure) :
    (s.movePub p dest recheck).2.Inv := by
  unfold movePub
  split_ifs
  · exact hi
  · split
    · exact hi
    · exact moveTo_inv hi hp hd

end Pub

/-! ## Joining -/

section Join

variable {u rid : String} {s : Sfu} {p : Nat} {rejoin : Bool}

/-- The roster entry that a rejoin finds. -/
def kept (rid : String) (rejoin : Bool) : Option String := if rejoin then some rid else none

theorem kept_ne {r : String} (h : rid ≠ r) (rejoin : Bool) : kept rid rejoin ≠ some r := by
  unfold kept
  split_ifs
  · simpa using h
  · simp

/-- The books are settled when the kept entry is what the peer is owed. -/
theorem Sound.settle (rejoin : Bool) (h : s.Sound u (kept rid rejoin))
    (hrid : ∀ pl, s.place rid u = some pl → pl.roster = (s.peerOf u).inRoom rid) :
    s.Sound u none where
  seat := h.seat
  roster r pl hpl _ := by
    by_cases hr : rid = r
    · subst hr
      exact hrid pl hpl
    · exact h.roster r pl hpl (kept_ne hr rejoin)
  pubIn := h.pubIn
  there := h.there

/-- The way is clear: the user is not in the room, save that its roster may still have it. -/
structure Ready (s : Sfu) (u rid : String) (rejoin : Bool) : Prop where
  wf : s.Wf
  others : ∀ v, v ≠ u → s.Sound v none
  sound : s.Sound u (kept rid rejoin)
  out : (s.peerOf u).inRoom rid = false
  room : rid ∈ s.rooms
  gone : rejoin = true → s.peers[u]? = none ∧ s.media = true

theorem Ready.inv (h : s.Ready u rid rejoin) (hr : rejoin = false) : s.Inv := by
  subst hr
  refine ⟨h.wf, fun v => ?_⟩
  by_cases hv : v = u
  · exact hv ▸ h.sound
  · exact h.others v hv

/-- **Making way.** -/
theorem makeWay_ready (hi : s.Inv) (c : Ctx) (q : JoinReq) (hr : q.roomId ∈ s.rooms) :
    (s.makeWay c q).2.Ready c.user q.roomId (s.makeWay c q).1 := by
  have hs := hi.sound c.user
  unfold makeWay
  cases hp : s.peers[c.user]? with
  | none =>
    refine ⟨hi.wf, fun v _ => hi.sound v, hs, ?_, hr, fun h => by cases h⟩
    rw [peerOf_none hp, nowhere_inRoom]
  | some old =>
    dsimp only
    split_ifs with hin hsid
    · -- The place in the roster is kept, so the books leave it out until it is looked up.
      have hkeep : s.Sound c.user (some q.roomId) :=
        ⟨hs.seat, fun r pl hpl _ => hs.roster r pl hpl (by simp), hs.pubIn, hs.there⟩
      obtain ⟨honly, hsound, hgone⟩ := evict_spec hi.wf hkeep hp .evict
      have hout : ((s.evict old (some q.roomId) .evict).peerOf c.user).inRoom q.roomId = false := by
        rw [peerOf_none hgone, nowhere_inRoom]
      have hmedia : (s.evict old (some q.roomId) .evict).media = true := by
        rw [honly.media]
        exact hi.wf.media _ _ hp
      refine ⟨honly.wf hi.wf, fun v hv => honly.sound hi.wf hv (hi.sound v), ?_, hout,
        (honly.dom _).2 hr, fun _ => ⟨hgone, hmedia⟩⟩
      rw [member_isSome]
      cases hroster : ((s.evict old (some q.roomId) .evict).place q.roomId c.user).any
        (·.roster) with
      | true => exact hsound
      | false =>
        refine Sound.settle true hsound fun pl hpl => ?_
        rw [hpl, Option.any_some] at hroster
        rw [hroster, hout]
    · obtain ⟨honly, hsound, hgone⟩ := evict_spec hi.wf hs hp .evict
      refine ⟨honly.wf hi.wf, fun v hv => honly.sound hi.wf hv (hi.sound v), hsound, ?_,
        (honly.dom _).2 hr, fun h => by cases h⟩
      rw [peerOf_none hgone, nowhere_inRoom]
    · refine ⟨hi.wf, fun v _ => hi.sound v, hs, ?_, hr, fun h => by cases h⟩
      rw [peerOf_some hp]
      simpa using hin

/-- A join to a room that the user is in already brings codecs that the seed can slice. -/
def Gentle (s : Sfu) : Act → Prop
  | .join c q _ => c.pcMode = .one → (s.peerOf c.user).inRoom q.roomId = true →
      ∀ codec ∈ q.codecs.getD [], Sub.SafeCodec codec
  | _ => True

/-- Only a user that is in the room keeps a place in its roster. -/
theorem makeWay_rejoin (c : Ctx) (q : JoinReq) (h : (s.makeWay c q).1 = true) :
    (s.peerOf c.user).inRoom q.roomId = true := by
  unfold makeWay at h
  cases hp : s.peers[c.user]? with
  | none =>
    rw [hp] at h
    cases h
  | some old =>
    rw [hp] at h
    rw [peerOf_some hp]
    dsimp only at h
    split_ifs at h with hin
    exact hin

/-- The peer is there, and the room is not in its set yet. -/
structure Seated (s : Sfu) (u : String) (p : Nat) (rid : String) (rejoin : Bool) : Prop where
  wf : s.Wf
  others : ∀ v, v ≠ u → s.Sound v none
  sound : s.Sound u (kept rid rejoin)
  out : (s.heap p).inRoom rid = false
  room : rid ∈ s.rooms
  peers : s.peers[u]? = some p

/-- A new peer is nowhere, and its table is new. -/
theorem newPeer_spec (c : Ctx) (h : s.media = true) :
    ∃ s', s.newPeer c = (some s.size, s') ∧ s'.peers[c.user]? = some s.size ∧
      (∀ r, s'.place r c.user = s.place r c.user) ∧
      s'.heap s.size =
        { user := c.user, sid := c.sid, home := c.home.getD {}, pcMode := c.pcMode } ∧
      s'.tables[s.size]? = some (.new c.pcMode s.slotMidReserve) := by
  unfold newPeer
  rw [if_pos h]
  refine ⟨_, rfl, ?_, fun _ => rfl, Function.update_self .., ?_⟩
  · exact TreeMap.getElem?_insert_self
  · exact TreeMap.getElem?_insert_self

theorem Ready.peerFor {c : Ctx} (h : s.Ready c.user rid rejoin) :
    (∃ p s', s.peerFor c = (some p, s') ∧ s'.Seated c.user p rid rejoin ∧
        (rejoin = true → (s'.heap p).pcMode = c.pcMode ∧
          s'.tables[p]? = some (.new c.pcMode s.slotMidReserve))) ∨
      s.peerFor c = (none, s) ∧ rejoin = false := by
  unfold Sfu.peerFor
  cases hp : s.peers[c.user]? with
  | some p =>
    have hout := h.out
    rw [peerOf_some hp] at hout
    refine .inl ⟨p, s, rfl, ⟨h.wf, h.others, h.sound, hout, h.room, hp⟩, fun hr => ?_⟩
    rw [(h.gone hr).1] at hp
    cases hp
  | none =>
    dsimp only
    cases hm : s.media with
    | false =>
      refine .inr ⟨by rw [newPeer, hm]; rfl, ?_⟩
      cases rejoin with
      | false => rfl
      | true =>
        have := (h.gone rfl).2
        rw [hm] at this
        cases this
    | true =>
      obtain ⟨s', heq, hp', hplace, hheap, htable⟩ := newPeer_spec c hm
      have honly : Only c.user s s' := by
        have := Only.newPeer (s := s) c
        rwa [heq] at this
      refine .inl ⟨s.size, s', heq, ⟨honly.wf h.wf,
        fun v hv => honly.sound h.wf hv (h.others v hv), ?_, ?_, (honly.dom _).2 h.room, hp'⟩,
        fun _ => ⟨by rw [hheap], htable⟩⟩
      · refine h.sound.congr honly.dom hplace (fun r => ?_) ?_
        · rw [peerOf_some hp', hheap, peerOf_none hp, Peer.inRoom, Peer.inRoom]
        · rw [peerOf_some hp', hheap, peerOf_none hp]
      · rw [hheap, Peer.inRoom]
        rfl

theorem seedTable_eq (s : Sfu) (p : Nat) (t : Sub.Shared) (q : JoinReq) :
    ∃ t', (s.seedTable p t q).2 = { s with tables := s.tables.insert p t' } := by
  unfold seedTable
  split_ifs
  · exact ⟨_, rfl⟩
  · exact ⟨_, rfl⟩

/-- The books do not speak of what is in a table. -/
theorem Seated.seedTable (h : s.Seated u p rid rejoin) (t : Sub.Shared) (q : JoinReq) :
    (s.seedTable p t q).2.Seated u p rid rejoin := by
  obtain ⟨t', heq⟩ := s.seedTable_eq p t q
  rw [heq]
  have hsound : ∀ {v : String} {k : Option String}, s.Sound v k →
      ({ s with tables := s.tables.insert p t' } : Sfu).Sound v k := fun hs =>
    hs.congr (fun _ => Iff.rfl) (fun _ => rfl) (fun _ => rfl) rfl
  refine ⟨⟨h.wf.user, h.wf.lt, fun v q hq => ?_, h.wf.media, h.wf.clock⟩,
    fun v hv => hsound (h.others v hv), hsound h.sound, h.out, h.room, h.peers⟩
  exact TreeMap.mem_insert.2 (.inr (h.wf.table v q hq))

/-- A new table takes codecs that can be sliced. -/
theorem seedTable_new {c : Ctx} {q : JoinReq} {slots : Nat} (hmode : (s.heap p).pcMode = c.pcMode)
    (hsafe : c.pcMode = .one → ∀ codec ∈ q.codecs.getD [], Sub.SafeCodec codec) :
    (s.seedTable p (.new c.pcMode slots) q).1 = true := by
  unfold seedTable
  split_ifs with hone
  · exact (Sub.Table.seed_completes _).2 (.inr (hsafe (hmode.symm.trans hone)))
  · rfl

/-- The room enters the set of the peer. -/
def withRoom (s : Sfu) (p : Nat) (rid joinId : String) : Sfu :=
  s.onPeer p fun y => { y with rooms := y.rooms.insert rid joinId }

theorem Seated.inv_of (h : s.Seated u p rid rejoin) {s' : Sfu} (honly : Only u s s')
    (hs : s'.Sound u none) : s'.Inv := by
  refine ⟨honly.wf h.wf, fun v => ?_⟩
  by_cases hv : v = u
  · exact hv ▸ hs
  · exact honly.sound h.wf hv (h.others v hv)

/-- The books when a roster entry without a room in the set is struck. -/
theorem Sound.strikeOut (rejoin : Bool) (h : s.Sound u (kept rid rejoin))
    (hout : (s.peerOf u).inRoom rid = false) :
    (s.onRoom rid fun r => ((r.remove u).2.announceLeft u).2).Sound u none := by
  have hplace : ∀ r, (s.onRoom rid fun r => ((r.remove u).2.announceLeft u).2).place r u =
      if rid = r then (s.place r u).map fun pl => { pl with roster := false }
      else s.place r u := by
    intro r
    refine place_onRoom (fun room => ?_) r
    refine (placeOf_remove room u u).trans ?_
    rw [if_pos rfl]
    rfl
  refine ⟨fun r pl hpl => ?_, fun r pl hpl _ => ?_, ?_, ?_⟩
  · rw [peerOf_onRoom]
    rw [hplace] at hpl
    split_ifs at hpl
    · obtain ⟨pl₀, hpl₀, rfl⟩ := Option.map_eq_some_iff.1 hpl
      exact h.seat r pl₀ hpl₀
    · exact h.seat r pl hpl
  · rw [peerOf_onRoom]
    rw [hplace] at hpl
    by_cases hr : rid = r
    · subst hr
      rw [if_pos rfl] at hpl
      obtain ⟨pl₀, -, rfl⟩ := Option.map_eq_some_iff.1 hpl
      exact hout.symm
    · rw [if_neg hr] at hpl
      exact h.roster r pl hpl (kept_ne hr rejoin)
  · rw [peerOf_onRoom]
    exact h.pubIn
  · rw [peerOf_onRoom]
    exact fun r hr => (s.onRoom_dom rid _ r).2 (h.there r hr)

/-- **Backing out.** -/
theorem Seated.backOut (h : s.Seated u p rid rejoin) (joinId : String) :
    ((s.withRoom p rid joinId).backOut p u rid rejoin).Inv := by
  have hu := h.wf.user u p h.peers
  have hwith : Only u s (s.withRoom p rid joinId) := .onPeer hu rfl
  have hu₁ : ((s.withRoom p rid joinId).heap p).user = u := by
    rw [withRoom, onPeer]
    dsimp only
    rw [Function.update_self]
    exact hu
  set s₂ := (s.withRoom p rid joinId).onPeer p fun q => { q with rooms := q.rooms.erase rid }
    with hs₂
  have honly : Only u s s₂ := hwith.trans (.onPeer hu₁ rfl)
  have hp₂ : s₂.peers[u]? = some p := h.peers
  have hpeer : s₂.heap p =
      { s.heap p with rooms := ((s.heap p).rooms.insert rid joinId).erase rid } := by
    rw [hs₂, withRoom, onPeer, onPeer]
    dsimp only
    rw [Function.update_self, Function.update_self]
  -- The entry is gone again, so the set of the peer is what it was.
  have hroom : ∀ r, (s₂.heap p).inRoom r = (s.heap p).inRoom r := by
    intro r
    have hback := inRoom_erase { s.heap p with rooms := (s.heap p).rooms.insert rid joinId } rid r
    rw [hpeer]
    refine hback.trans ?_
    rw [inRoom_insert]
    by_cases hr : rid = r
    · subst hr
      simp [h.out]
    · simp [hr]
  have hsound : s₂.Sound u (kept rid rejoin) := by
    refine h.sound.congr honly.dom (fun _ => rfl) (fun r => ?_) ?_
    · rw [peerOf_some hp₂, peerOf_some h.peers, hroom]
    · rw [peerOf_some hp₂, peerOf_some h.peers, hpeer]
  have hu₂ : (s₂.heap p).user = u := by
    rw [hpeer]
    exact hu
  have hsound₃ : (s₂.reapIfEmpty p).Sound u (kept rid rejoin) := hsound.reapIfEmpty hu₂ hp₂
  have honly₃ : Only u s (s₂.reapIfEmpty p) := honly.trans (.reapIfEmpty hu₂)
  have hout : ((s₂.reapIfEmpty p).peerOf u).inRoom rid = false := by
    rcases reapIfEmpty_peers hu₂ hp₂ with hp₃ | ⟨hp₃, -⟩
    · rw [peerOf_some hp₃, reapIfEmpty_heap, hroom]
      exact h.out
    · rw [peerOf_none hp₃, nowhere_inRoom]
  unfold Sfu.backOut
  rw [← hs₂]
  dsimp only
  split_ifs with hc
  · refine h.inv_of (honly₃.trans (.onRoom fun room v hv => ?_)) (hsound₃.strikeOut rejoin hout)
    refine (placeOf_remove room u v).trans ?_
    rw [if_neg hv.symm]
    rfl
  · refine h.inv_of honly₃ (hsound₃.settle rejoin fun pl hpl => ?_)
    cases rejoin with
    | false => exact hsound₃.roster rid pl hpl (by simp [kept])
    | true =>
      rw [member_isSome, hpl, Option.any_some] at hc
      rw [hout]
      simpa using hc

/-- The books after the user entered `rid`. The publication room is one of the rooms, so it is not
the new one. -/
theorem Sound.entered {s' : Sfu} (rejoin : Bool) (h : s.Sound u (kept rid rejoin))
    (hout : (s.peerOf u).inRoom rid = false) (hrid : rid ∈ s.rooms)
    (hdom : ∀ r, r ∈ s'.rooms ↔ r ∈ s.rooms)
    (hplace : ∀ r, s'.place r u =
      if rid = r then (s.place r u).map fun _ => ⟨true, ⟨true, false⟩⟩ else s.place r u)
    (hroom : ∀ r, (s'.peerOf u).inRoom r = ((s.peerOf u).inRoom r || decide (rid = r)))
    (hpub : (s'.peerOf u).pubRoom = (s.peerOf u).pubRoom) : s'.Sound u none where
  seat r pl hpl := by
    rw [hplace] at hpl
    rw [Peer.due, hroom, hpub]
    by_cases hr : rid = r
    · subst hr
      have hne : (s.peerOf u).pubRoom ≠ some rid := by
        intro hc
        exact Bool.false_ne_true (hout.symm.trans (h.pubIn rid hc))
      rw [if_pos rfl] at hpl
      obtain ⟨pl₀, -, rfl⟩ := Option.map_eq_some_iff.1 hpl
      simp [hne]
    · rw [if_neg hr] at hpl
      simpa [hr, Peer.due] using h.seat r pl hpl
  roster r pl hpl _ := by
    rw [hplace] at hpl
    rw [hroom]
    by_cases hr : rid = r
    · subst hr
      rw [if_pos rfl] at hpl
      obtain ⟨pl₀, -, rfl⟩ := Option.map_eq_some_iff.1 hpl
      simp
    · rw [if_neg hr] at hpl
      simpa [hr] using h.roster r pl hpl (kept_ne hr rejoin)
  pubIn r hr := by
    rw [hpub] at hr
    rw [hroom, h.pubIn r hr, Bool.true_or]
  there r hr := by
    rw [hroom, Bool.or_eq_true, decide_eq_true_iff] at hr
    refine (hdom r).2 ?_
    rcases hr with hr | rfl
    · exact h.there r hr
    · exact hrid

theorem place_join (s : Sfu) (rid : String) {m : Member} (hm : m.user = u) (rejoin : Bool)
    (tok : Option Permission) (r : String) :
    (s.onRoom rid fun r => (r.join m rejoin tok).2).place r u =
      if rid = r then (s.place r u).map fun pl => { pl with roster := true }
      else s.place r u := by
  refine place_onRoom (fun room => ?_) r
  rw [placeOf_join, if_pos hm]
  rfl

/-- The user is in the roster and in the floor. -/
theorem Seated.enrolled (h : s.Seated u p rid rejoin) (joinId : String) {m : Member}
    (hm : m.user = u) (tok : Option Permission) (perm : Bool) :
    (((s.withRoom p rid joinId).onRoom rid fun r => (r.join m rejoin tok).2).runFloor rid
      (.wsJoin u perm)).Inv := by
  have hwith : Only u s (s.withRoom p rid joinId) := .onPeer (h.wf.user u p h.peers) rfl
  set s₂ := (s.withRoom p rid joinId).onRoom rid fun r => (r.join m rejoin tok).2 with hs₂
  have h₂ : Only u s s₂ := by
    refine hwith.trans (.onRoom fun room v hv => ?_)
    rw [placeOf_join, hm, if_neg hv.symm]
    rfl
  have h₃ : Only u s (s₂.runFloor rid (.wsJoin u perm)) :=
    h₂.trans (.runFloor fun v st hv => if_neg hv.symm)
  have hpeer : (s₂.runFloor rid (.wsJoin u perm)).peerOf u =
      { s.peerOf u with rooms := (s.peerOf u).rooms.insert rid joinId } := by
    rw [peerOf_runFloor, hs₂, peerOf_onRoom, withRoom, peerOf_onPeer h.peers]
  have hout : (s.peerOf u).inRoom rid = false := by
    rw [peerOf_some h.peers]
    exact h.out
  refine h.inv_of h₃ (h.sound.entered rejoin hout h.room h₃.dom (fun r => ?_) (fun r => ?_) ?_)
  · have hjoin := (s.withRoom p rid joinId).place_join rid hm rejoin tok r
    rw [place_runFloor (h₂.wf h.wf), hs₂, hjoin]
    by_cases hr : rid = r
    · rw [if_pos hr, if_pos hr, if_pos hr, Option.map_map]
      refine Option.map_congr fun pl _ => ?_
      simp [Flr.Op.reseat]
    · rw [if_neg hr, if_neg hr, if_neg hr]
      rfl
  · rw [hpeer, inRoom_insert]
  · rw [hpeer]

/-- A floor that is told again where the user publishes. -/
theorem reselect_inv (hi : s.Inv) (hp : s.peers[u]? = some p)
    (hpub : (s.heap p).pubRoom = some rid) : (s.runFloor rid (.wsPubSelect u)).Inv := by
  have honly : Only u s (s.runFloor rid (.wsPubSelect u)) :=
    .runFloor fun v st hv => if_neg hv.symm
  refine honly.inv hi ((hi.sound u).congr honly.dom (fun r => ?_) (fun r => ?_) ?_)
  · rw [place_runFloor hi.wf]
    split_ifs with hr
    · subst hr
      cases hpl : s.place rid u with
      | none => rfl
      | some pl =>
        have hseat := (hi.sound u).seat rid pl hpl
        rw [peerOf_some hp, Peer.due, hpub] at hseat
        obtain ⟨roster, seat⟩ := pl
        subst hseat
        simp [Flr.Op.reseat]
    · rfl
  · rw [peerOf_runFloor]
  · rw [peerOf_runFloor]

/-- The roster has the user that was just put there. -/
theorem member_join (hr : rid ∈ s.rooms) (m : Member) (rejoin : Bool) (tok : Option Permission) :
    (s.onRoom rid fun r => (r.join m rejoin tok).2).member rid m.user ≠ none := by
  obtain ⟨room, hroom⟩ := Option.isSome_iff_exists.1 (TreeMap.isSome_getElem?_iff_mem.2 hr)
  rw [member, onRoom_get?, if_pos rfl, hroom, Option.map_some, Option.bind_some, Room.join_member,
    if_pos rfl]
  exact Option.some_ne_none _

theorem Seated.enter {c : Ctx} {q : JoinReq} (h : s.Seated c.user p q.roomId rejoin) (x : Media) :
    ((s.withRoom p q.roomId x.joinId).enter p c q x rejoin).2.Inv := by
  unfold Sfu.enter
  dsimp only
  have hr : q.roomId ∈ (s.withRoom p q.roomId x.joinId).rooms := h.room
  split
  · next hme => exact absurd hme (member_join hr _ rejoin c.permission)
  · next me hme =>
    set s₃ := Sfu.runFloor _ q.roomId (.wsJoin c.user me.permission.floorRequest) with hs₃
    have hi : s₃.Inv := h.enrolled x.joinId rfl c.permission me.permission.floorRequest
    have hp : s₃.peers[c.user]? = some p := by
      rw [hs₃, runFloor_peers, onRoom_eq]
      exact h.peers
    split_ifs with hsel hpub
    · refine movePub_inv hi hp (fun r hr => ?_) _
      cases hr
      rw [hs₃, runFloor_heap, onRoom_eq]
      show (Function.update s.heap p _ p).inRoom q.roomId = true
      rw [Function.update_self, inRoom_insert]
      simp
    · exact reselect_inv hi hp hpub
    · exact hi

theorem Ready.allot {c : Ctx} {q : JoinReq} (h : s.Ready c.user q.roomId rejoin) (x : Media)
    (hsafe : rejoin = true → c.pcMode = .one →
      ∀ codec ∈ q.codecs.getD [], Sub.SafeCodec codec) :
    (s.allot c q x rejoin).2.Inv := by
  unfold Sfu.allot
  cases hfull : s.peers[c.user]?.filter fun p => maxRooms ≤ (s.heap p).rooms.size with
  | some p =>
    refine h.inv ?_
    cases rejoin with
    | false => rfl
    | true =>
      rw [(h.gone rfl).1] at hfull
      cases hfull
  | none =>
    rcases h.peerFor with ⟨p, s', heq, hseat, hnew⟩ | ⟨heq, hr⟩
    · rw [heq]
      dsimp only
      obtain ⟨t, ht⟩ := Option.isSome_iff_exists.1
        (TreeMap.isSome_getElem?_iff_mem.2 (hseat.wf.table _ _ hseat.peers))
      have hseeded := hseat.seedTable t q
      rw [ht]
      dsimp only
      cases hdone : (s'.seedTable p t q).1 with
      | true =>
        rw [show s'.seedTable p t q = (true, (s'.seedTable p t q).2) from Prod.ext hdone rfl]
        dsimp only
        cases x.midLimit with
        | some b => exact hseeded.backOut x.joinId
        | none => exact hseeded.enter x
      | false =>
        rw [show s'.seedTable p t q = (false, (s'.seedTable p t q).2) from Prod.ext hdone rfl]
        dsimp only
        cases rejoin with
        | false => exact hseeded.inv_of (.refl _ _) hseeded.sound
        | true =>
          obtain ⟨hmode, htable⟩ := hnew rfl
          rw [Option.some.inj (ht.symm.trans htable), seedTable_new hmode (hsafe rfl)] at hdone
          cases hdone
    · rw [heq]
      exact h.inv hr

/-- **Every way a join can end keeps the books.** -/
theorem join_inv (hi : s.Inv) (c : Ctx) (q : JoinReq) (x : Media) (hg : s.Gentle (.join c q x)) :
    (s.join c q x).2.Inv := by
  unfold join
  cases hroom : s.rooms[q.roomId]? with
  | none => exact hi
  | some room =>
    have hr : q.roomId ∈ s.rooms := by
      rw [← TreeMap.isSome_getElem?_iff_mem, hroom]
      rfl
    have hready := makeWay_ready hi c q hr
    dsimp only
    split
    · exact hi
    · split
      · exact hi
      · split_ifs with hfull
        · refine hready.inv ?_
          simp only [Bool.and_eq_true, Bool.not_eq_true'] at hfull
          exact hfull.1
        · exact hready.allot x fun hr hone => hg hone (makeWay_rejoin c q hr)

end Join

/-! ## The other requests -/

section Requests

variable {s : Sfu}

/-- A peer that is in a room leaves it for good. -/
theorem leave_inv (hi : s.Inv) {u rid : String} {p : Nat} (hp : s.peers[u]? = some p)
    (hin : (s.heap p).inRoom rid = true) (why : Why) : (s.leave p rid why false).2.Inv := by
  obtain ⟨-, hleft⟩ := leave_left hi.wf hp (hi.sound u) hin why (k := false) (by simp)
  exact hleft.only.inv hi hleft.sound

theorem evict_inv (hi : s.Inv) {u : String} {p : Nat} (hp : s.peers[u]? = some p) (why : Why) :
    (s.evict p none why).Inv := by
  obtain ⟨honly, hsound, -⟩ := evict_spec hi.wf (hi.sound u) hp why
  exact honly.inv hi hsound

theorem followHome_inv (hi : s.Inv) (c : Ctx) : (s.followHome c).Inv := by
  unfold followHome
  split
  · next h p _ hp =>
    have honly : Only c.user s (s.onPeer p fun q => { q with home := h }) :=
      .onPeer (hi.wf.user _ _ hp) rfl
    refine honly.inv hi ((hi.sound c.user).congr honly.dom (fun _ => rfl) (fun r => ?_) ?_)
    · rw [peerOf_onPeer hp]
      rfl
    · rw [peerOf_onPeer hp]
  · exact hi

/-- The home of a peer says nothing of its rooms. -/
theorem followHome_gentle {c : Ctx} {q : JoinReq} {x : Media} (h : s.Gentle (.join c q x)) :
    (s.followHome c).Gentle (.join c q x) := by
  intro hone hin
  refine h hone ?_
  unfold followHome at hin
  split at hin
  · next p _ hp =>
    rw [peerOf_onPeer hp] at hin
    exact hin
  · exact hin

theorem joinedAs_ok {c : Ctx} {rid : String} {joinId : Option String} {p : Nat}
    (h : s.joinedAs c rid joinId = .ok p) :
    s.peers[c.user]? = some p ∧ (s.heap p).inRoom rid = true := by
  unfold joinedAs at h
  split_ifs at h
  cases hp : s.peers[c.user]? with
  | none => simp [hp] at h
  | some x =>
    simp only [hp] at h
    split_ifs at h with hin
    cases h
    exact ⟨rfl, by simpa using hin⟩

theorem roomLeave_inv (hi : s.Inv) (c : Ctx) (rid : String) (joinId : Option String) :
    (s.roomLeave c rid joinId).2.Inv := by
  unfold roomLeave
  cases hj : s.joinedAs c rid joinId with
  | error f => exact hi
  | ok p =>
    obtain ⟨hp, hin⟩ := joinedAs_ok hj
    have hleave := leave_inv hi hp hin .leave
    dsimp only
    split
    · next heq =>
      rw [heq] at hleave
      exact hleave
    · next heq =>
      rw [heq] at hleave
      exact hleave

/-- Work on a room that nobody's place depends on. -/
theorem onRoom_inv (hi : s.Inv) (rid : String) {f : Room → Room}
    (h : ∀ room v, placeOf (f room) v = placeOf room v) : (s.onRoom rid f).Inv := by
  have honly : ∀ u, Only u s (s.onRoom rid f) := fun u => .onRoom fun room v _ => h room v
  refine ⟨(honly "").wf hi.wf, fun u => (hi.sound u).congr (honly u).dom (fun r => ?_)
    (fun r => ?_) ?_⟩
  · exact place_onRoom_same h r u
  · rw [peerOf_onRoom]
  · rw [peerOf_onRoom]

theorem runFloor_inv (hi : s.Inv) (rid : String) {o : Flr.Op} (ho : IsTraffic o = true) :
    (s.runFloor rid o).Inv := by
  have hsame : ∀ v st, o.reseat v st = st := by
    intro v st
    cases o <;> first | rfl | cases ho
  rw [runFloor_eq hi.wf]
  refine onRoom_inv hi rid fun room v => ?_
  rw [placeOf_floor, hsame]
  rfl

theorem checkSelect_ok {q : AffiliationReq} {p : Peer} {sel : String}
    (h : checkSelect p q = .ok ()) (hsel : q.pubSelect = some sel) : p.inRoom sel = true := by
  unfold checkSelect checkEntry at h
  simp only [hsel] at h
  cases hj : q.pubSelectJoinId with
  | none => simp [hj] at h
  | some j =>
    simp only [hj] at h
    split_ifs at h with hid
    rw [Peer.inRoom, TreeMap.contains_eq_isSome_getElem?]
    exact Option.isSome_of_mem hid

theorem releaseFloorIfSpeaker_inv (hi : s.Inv) (user rid : String) (x : Media) :
    (s.releaseFloorIfSpeaker user rid x).Inv := by
  unfold releaseFloorIfSpeaker
  split_ifs
  · exact runFloor_inv hi rid rfl
  · exact hi

theorem releaseFloorIfSpeaker_peers (s : Sfu) (user rid : String) (x : Media) :
    (s.releaseFloorIfSpeaker user rid x).peers = s.peers := by
  unfold releaseFloorIfSpeaker
  split_ifs
  · exact runFloor_peers _ _ _
  · rfl

theorem affiliation_inv (hi : s.Inv) (c : Ctx) (q : AffiliationReq) (x : Media) :
    (s.affiliation c q x).2.Inv := by
  unfold affiliation
  cases hp : s.peers[c.user]? with
  | none => exact hi
  | some p =>
    dsimp only
    split
    · exact hi
    · exact hi
    · next hc _ =>
      dsimp only
      cases hsel : q.pubSelect with
      | some sel =>
        dsimp only
        split_ifs
        · refine movePub_inv hi hp (fun r hr => ?_) _
          cases hr
          exact checkSelect_ok hc hsel
        · exact hi
      | none =>
        cases q.pubDeselect with
        | none => exact hi
        | some de =>
          dsimp only
          split_ifs
          · have hrel := releaseFloorIfSpeaker_inv hi c.user de x
            refine movePub_inv hrel (u := c.user) ?_ (fun r hr => by cases hr) _
            rw [releaseFloorIfSpeaker_peers]
            exact hp
          · exact hi

theorem sessionGone_inv (hi : s.Inv) (user sid : Option String) : (s.sessionGone user sid).Inv := by
  unfold sessionGone
  split
  · exact hi
  · next p hp =>
    split_ifs
    · exact evict_inv hi hp .sessionGone
    · exact hi

theorem kick_inv (hi : s.Inv) (rid user : String) : (s.kick rid user).2.Inv := by
  unfold kick
  by_cases hr : rid ∈ s.rooms
  · rw [if_neg (not_not.2 hr)]
    split
    · exact hi
    · next p hp =>
      obtain ⟨hp, hin⟩ := Option.filter_eq_some_iff.1 hp
      exact leave_inv hi hp hin .kick
  · rw [if_pos hr]
    exact hi

/-- Nobody else is evicted with a peer, so a pass over the peers evicts each while it is
registered. -/
theorem evict_each_inv (f : Sfu → Nat → Bool) (why : Why) {l : List Nat} (hi : s.Inv)
    (hnd : l.Nodup) (hreg : ∀ p ∈ l, ∃ u : String, s.peers[u]? = some p) :
    (l.foldl (fun s p => if f s p then s.evict p none why else s) s).Inv := by
  induction l generalizing s with
  | nil => exact hi
  | cons p l ih =>
    obtain ⟨hp, hnd⟩ := List.nodup_cons.1 hnd
    rw [List.foldl_cons]
    by_cases hlost : f s p = true
    · rw [if_pos hlost]
      obtain ⟨u, hu⟩ := hreg p List.mem_cons_self
      obtain ⟨honly, hsound, -⟩ := evict_spec hi.wf (hi.sound u) hu why
      refine ih (honly.inv hi hsound) hnd fun q hq => ?_
      obtain ⟨v, hv⟩ := hreg q (List.mem_cons_of_mem p hq)
      refine ⟨v, (honly.peers v ?_).trans hv⟩
      rintro rfl
      rw [hu] at hv
      cases hv
      exact hp hq
    · rw [if_neg hlost]
      exact ih hi hnd fun q hq => hreg q (List.mem_cons_of_mem p hq)

theorem mem_all {p : Nat} : p ∈ s.all ↔ ∃ u : String, s.peers[u]? = some p := by
  simp only [all, List.mem_map, Prod.exists, exists_eq_right,
    TreeMap.mem_toList_iff_getElem?_eq_some]

theorem all_nodup (hwf : s.Wf) : s.all.Nodup := by
  rw [all, List.Nodup, List.pairwise_map]
  refine s.peers.distinct_keys_toList.imp_of_mem fun ha hb hne heq => hne ?_
  have hua := hwf.user _ _ (TreeMap.mem_toList_iff_getElem?_eq_some.1 ha)
  have hub := hwf.user _ _ (TreeMap.mem_toList_iff_getElem?_eq_some.1 hb)
  rw [heq] at hua
  rw [Std.compare_eq_iff_eq, ← hua, ← hub]

theorem homeLost_inv (hi : s.Inv) (n : Nodes) {order : List Nat} (ho : order.Perm s.all) :
    (s.homeLost n order).Inv := by
  unfold homeLost
  split_ifs
  · exact hi
  · refine evict_each_inv (fun s p => n.lost (s.heap p).home) .homeLost hi ?_ ?_
    · exact ho.nodup_iff.2 (all_nodup hi.wf)
    · exact fun p hp => mem_all.1 (ho.mem_iff.1 hp)

/-- Everybody in the roster is turned out. The induction is on those who are left in it. -/
theorem turnOut_all {rid : String} {l : List String} (hi : s.Inv) (hnd : l.Nodup)
    (hmem : ∀ v, v ∈ l ↔ (s.peerOf v).inRoom rid = true) :
    (l.foldl (turnOut rid) s).Inv ∧
      ∀ v, ((l.foldl (turnOut rid) s).peerOf v).inRoom rid = false := by
  induction l generalizing s with
  | nil =>
    refine ⟨hi, fun v => ?_⟩
    rw [← Bool.not_eq_true]
    exact fun hv => List.not_mem_nil ((hmem v).2 hv)
  | cons u l ih =>
    obtain ⟨hu, hnd⟩ := List.nodup_cons.1 hnd
    have hinu := (hmem u).1 List.mem_cons_self
    rw [List.foldl_cons]
    cases hp : s.peers[u]? with
    | none =>
      rw [peerOf_none hp, nowhere_inRoom] at hinu
      cases hinu
    | some p =>
      rw [peerOf_some hp] at hinu
      have hturn : s.turnOut rid u = (s.leave p rid .destroy false).2 := by
        rw [turnOut, hp]
      obtain ⟨-, hleft⟩ := leave_left hi.wf hp (hi.sound u) hinu .destroy (k := false) (by simp)
      rw [hturn]
      have hgone : ((s.leave p rid .destroy false).2.peerOf u).inRoom rid = false := by
        rcases hleft.peers with h | ⟨h, -⟩
        · rw [peerOf_some h, hleft.rooms]
          simp
        · rw [peerOf_none h, nowhere_inRoom]
      refine ih (hleft.only.inv hi hleft.sound) hnd fun v => ?_
      by_cases hvu : v = u
      · subst hvu
        simp [hu, hgone]
      · rw [hleft.only.peerOf hi.wf hvu, ← hmem v, List.mem_cons]
        simp [hvu]

/-- A room that nobody is in may go. -/
theorem destroyRoom_inv (hi : s.Inv) {rid : String}
    (hout : ∀ v, (s.peerOf v).inRoom rid = false) : (s.destroyRoom rid).Inv := by
  have hplace : ∀ r u pl, (s.destroyRoom rid).place r u = some pl → s.place r u = some pl := by
    intro r u pl hpl
    rw [place, destroyRoom] at hpl
    dsimp only at hpl
    rw [TreeMap.getElem?_erase] at hpl
    split_ifs at hpl
    · cases hpl
    · exact hpl
  refine ⟨⟨hi.wf.user, hi.wf.lt, hi.wf.table, hi.wf.media, fun r hr => ?_⟩,
    fun u => ⟨?_, ?_, ?_, ?_⟩⟩
  · obtain ⟨hne, hr⟩ := TreeMap.mem_erase.1 hr
    exact TreeSet.mem_erase.2 ⟨hne, hi.wf.clock r hr⟩
  · exact fun r pl hpl => (hi.sound u).seat r pl (hplace r u pl hpl)
  · exact fun r pl hpl hk => (hi.sound u).roster r pl (hplace r u pl hpl) hk
  · exact (hi.sound u).pubIn
  · intro r hr
    refine TreeMap.mem_erase.2 ⟨?_, (hi.sound u).there r hr⟩
    rw [ne_eq, Std.compare_eq_iff_eq]
    rintro rfl
    exact Bool.false_ne_true ((hout u).symm.trans hr)

/-- The roster of a registered room says who is in it. -/
theorem has_eq_inRoom (hi : s.Inv) {rid : String} {room : Room} (hr : s.rooms[rid]? = some room)
    (v : String) : room.has v = (s.peerOf v).inRoom rid := by
  refine (hi.sound v).roster rid ⟨room.has v, room.floor.seat v⟩ ?_ (by simp)
  rw [place, hr]
  rfl

theorem destroy_inv (hi : s.Inv) (rid : String) (ifVersion : Option String) :
    (s.destroy rid ifVersion).2.Inv := by
  unfold destroy
  split
  · exact hi
  · exact hi
  · next room want hr =>
    dsimp only
    split_ifs
    · exact hi
    · have hmem : ∀ v, v ∈ room.users ↔ (s.peerOf v).inRoom rid = true := by
        intro v
        rw [← has_eq_inRoom hi hr, Room.users, TreeMap.mem_keys, TreeMap.mem_iff_contains]
        rfl
      obtain ⟨hinv, hout⟩ := turnOut_all hi room.st.members.map.nodup_keys hmem
      exact destroyRoom_inv hinv hout

/-- A new room is empty, and nobody is in a room that was not there. -/
theorem register_inv (hi : s.Inv) {room : Room} (hnew : room.id ∉ s.rooms)
    (hempty : ∀ v, placeOf room v = ⟨false, ⟨false, false⟩⟩) : (s.register room).Inv := by
  have hplace : ∀ r u, (s.register room).place r u =
      if room.id = r then some ⟨false, ⟨false, false⟩⟩ else s.place r u := by
    intro r u
    rw [place_eq, register]
    dsimp only
    rw [TreeMap.getElem?_insert]
    simp only [Std.compare_eq_iff_eq]
    split_ifs
    · rw [Option.map_some, hempty]
    · rfl
  have hout : ∀ u, (s.peerOf u).inRoom room.id = false := by
    intro u
    rw [← Bool.not_eq_true]
    exact fun h => hnew ((hi.sound u).there _ h)
  refine ⟨⟨hi.wf.user, hi.wf.lt, hi.wf.table, hi.wf.media, fun r hr => ?_⟩,
    fun u => ⟨fun r pl hpl => ?_, fun r pl hpl hk => ?_, (hi.sound u).pubIn, fun r hr => ?_⟩⟩
  · exact TreeSet.mem_insert.2 ((TreeMap.mem_insert.1 hr).imp_right (hi.wf.clock r))
  · rw [hplace] at hpl
    split_ifs at hpl with hr
    · subst hr
      cases hpl
      show _ = (s.peerOf u).due room.id
      have hpub : (s.peerOf u).pubRoom ≠ some room.id := by
        intro hc
        exact Bool.false_ne_true ((hout u).symm.trans ((hi.sound u).pubIn _ hc))
      simp [Peer.due, hout, hpub]
    · exact (hi.sound u).seat r pl hpl
  · rw [hplace] at hpl
    split_ifs at hpl with hr
    · subst hr
      cases hpl
      exact (hout u).symm
    · exact (hi.sound u).roster r pl hpl hk
  · exact TreeMap.mem_insert.2 (.inr ((hi.sound u).there r hr))

theorem create_inv (hi : s.Inv) (i : RoomInit) (codecs : Option MediaCodecs) (now : Nat) :
    (s.create i codecs now).2.Inv := by
  unfold create
  split_ifs with hid hold
  · exact hi
  · exact hi
  · cases codecs with
    | none => exact hi
    | some m =>
      refine register_inv hi hold fun v => ?_
      simp [placeOf, Room.new, Room.has, Roster.empty, Flr.Floor.new, Flr.Floor.seat,
        Flr.Floor.part]

theorem sweep_inv (hi : s.Inv) (rid : String) (now : Nat) : (s.sweep rid now).Inv := by
  unfold sweep
  split
  · exact hi
  · next room hr =>
    dsimp only
    have hdue := onRoom_inv hi rid fun room v => placeOf_ttlDue room now v
    split_ifs with hempty
    · refine destroyRoom_inv hdue fun v => ?_
      rw [peerOf_onRoom, ← has_eq_inRoom hi hr, Room.has]
      have hsize : room.st.members.map.size = 0 := hempty
      exact TreeMap.contains_of_isEmpty (by rw [TreeMap.isEmpty_eq_size_eq_zero, hsize]; rfl)
    · exact hdue
    · exact hi

end Requests

/-! ## Runs -/

/-- One request, whatever comes of it. -/
theorem next_inv {s : Sfu} (hi : s.Inv) {a : Act} (ha : machine.ok s a) (hg : s.Gentle a) :
    (machine.next s a).Inv := by
  cases a with
  | create i codecs now => exact create_inv hi i codecs now
  | join c q x => exact join_inv (followHome_inv hi c) c q x (followHome_gentle hg)
  | leave c rid joinId => exact roomLeave_inv (followHome_inv hi c) c rid joinId
  | affiliation c q x => exact affiliation_inv (followHome_inv hi c) c q x
  | sessionGone user sid => exact sessionGone_inv hi user sid
  | homeLost n order => exact homeLost_inv hi n ha
  | kick rid user => exact kick_inv hi rid user
  | destroy rid ifVersion => exact destroy_inv hi rid ifVersion
  | sweep rid now => exact sweep_inv hi rid now
  | floor rid o => exact runFloor_inv hi rid ha
  | notice rid => exact onRoom_inv hi rid fun _ _ => rfl

theorem empty_inv (media : Bool) (slotMidReserve : Nat) :
    ({ media, slotMidReserve } : Sfu).Inv := by
  refine ⟨⟨?_, ?_, ?_, ?_, ?_⟩, fun u => ⟨?_, ?_, ?_, ?_⟩⟩ <;> simp [place, peerOf]

/-- The floor of a registered room says who is in it and who publishes there. -/
theorem seat_eq_due {s : Sfu} (hi : s.Inv) {rid : String} {room : Room}
    (hr : s.rooms[rid]? = some room) (v : String) :
    room.floor.seat v = (s.peerOf v).due rid := by
  refine (hi.sound v).seat rid ⟨room.has v, room.floor.seat v⟩ ?_
  rw [place, hr]
  rfl

theorem Inv.coherent {s : Sfu} (hi : s.Inv) : s.Coherent where
  roster u p r room hp hr := by
    rw [has_eq_inRoom hi hr, peerOf_some hp, Peer.inRoom, TreeMap.mem_iff_contains]
  floor u p r room hp hr := by
    have hmember : room.floor.members.contains u = (s.peerOf u).inRoom r :=
      congrArg Flr.Seat.member (seat_eq_due hi hr u)
    rw [has_eq_inRoom hi hr, ← hmember, TreeSet.mem_iff_contains]
  pubIn u p r hp hr := by
    have hin := (hi.sound u).pubIn r
    rw [peerOf_some hp] at hin
    exact TreeMap.mem_iff_contains.2 (hin hr)
  pubFlag u p r room hp hr _ := by
    have hpub : (room.floor.part u).pubRoom = ((s.peerOf u).pubRoom == some r) :=
      congrArg Flr.Seat.pubRoom (seat_eq_due hi hr u)
    rw [hpub, peerOf_some hp, beq_iff_eq]
  stray u r room hp hr := by
    have hmember : room.floor.members.contains u = (s.peerOf u).inRoom r :=
      congrArg Flr.Seat.member (seat_eq_due hi hr u)
    rw [has_eq_inRoom hi hr, TreeSet.mem_iff_contains, hmember, peerOf_none hp, nowhere_inRoom]
    exact ⟨rfl, Bool.false_ne_true⟩

/-- **Membership and affiliation stay coherent.** -/
theorem membership_coherent (media : Bool) (slotMidReserve : Nat) (acts : List Act)
    (hl : (machine.restrict Gentle).Legal { media, slotMidReserve } acts) :
    (machine.exec { media, slotMidReserve } acts).Coherent := by
  have hinv : ((machine.restrict Gentle).exec { media, slotMidReserve } acts).Inv :=
    Machine.invariant (M := machine.restrict Gentle) (I := Sfu.Inv)
      (fun _ _ hi ha => next_inv hi ha.1 ha.2) (empty_inv media slotMidReserve) hl
  rw [Machine.restrict_exec] at hinv
  exact hinv.coherent

instance : ∀ s a, Decidable (machine.ok s a)
  | s, .homeLost _ order => inferInstanceAs (Decidable (order.Perm s.all))
  | _, .floor _ o => inferInstanceAs (Decidable (IsTraffic o = true))
  | _, .create .. | _, .join .. | _, .leave .. | _, .affiliation .. | _, .sessionGone ..
  | _, .kick .. | _, .destroy .. | _, .sweep .. | _, .notice _ => inferInstanceAs (Decidable True)

/-- Two users and two rooms. The first comes back with a new session, which gives up the second
room and keeps its place in the first. Then the other one's home is lost. -/
def comeback : List Act :=
  [.create { id := "q", capacity := 4 } (some {}) 0,
    .create { id := "r", capacity := 2 } (some {}) 0,
    .join { user := "a", sid := "1" } { roomId := "r" } { joinId := "j1" },
    .join { user := "b", sid := "2", home := some ⟨"n", "i"⟩ } { roomId := "r" } { joinId := "j2" },
    .join { user := "a", sid := "1" } { roomId := "q" } { joinId := "j3" },
    .join { user := "a", sid := "3", pcMode := .one } { roomId := "r" } { joinId := "j4" },
    .homeLost ⟨false, fun _ _ => some (false, 0), 9, 5⟩ [1, 2]]

theorem membership_coherent_comeback : (machine.exec { media := true } comeback).Coherent ∧
    (machine.exec { media := true } comeback).peers.toList = [("a", 2)] ∧
    (machine.exec { media := true } comeback).place "r" "a" = some ⟨true, ⟨true, true⟩⟩ ∧
    (machine.exec { media := true } comeback).place "q" "a" = some ⟨false, ⟨false, false⟩⟩ ∧
    (machine.exec { media := true } comeback).place "r" "b" = some ⟨false, ⟨false, false⟩⟩ := by
  refine ⟨membership_coherent true 40 comeback ((Machine.restrict_legal ..).2 ⟨by decide, ?_⟩),
    by decide, by decide, by decide, by decide⟩
  intro l₁ a l₂ hacts
  have ha : a ∈ comeback := hacts ▸ by simp
  simp only [comeback, List.mem_cons, List.not_mem_nil, or_false] at ha
  rcases ha with rfl | rfl | rfl | rfl | rfl | rfl | rfl <;>
    first
    | trivial
    | exact fun _ _ codec hc => absurd hc List.not_mem_nil

/-- A user comes back to its room on one connection, with a codec that the table cannot slice. -/
def brokenComeback : List Act :=
  [.create { id := "r", capacity := 2 } (some {}) 0,
    .join { user := "a", sid := "1", pcMode := .one } { roomId := "r" } { joinId := "j1" },
    .join { user := "a", sid := "2", pcMode := .one }
      { roomId := "r", codecs := some [
        { kind := .video, pt := 102, name := "H264", fmtp := some "profile-level-id=42eé" }] }
      { joinId := "j2" }]

/-- The roster has the user, and its peer is in no room. -/
theorem comeback_panics : ¬ ∀ media slotMidReserve acts,
    machine.Legal { media, slotMidReserve } acts →
      (machine.exec { media, slotMidReserve } acts).Coherent := by
  intro h
  have hrun := h true 40 brokenComeback (by decide)
  have hpeer : (machine.exec { media := true } brokenComeback).peers["a"]? = some 1 := by decide
  obtain ⟨room, hroom⟩ := Option.isSome_iff_exists.1
    (show (machine.exec { media := true } brokenComeback).rooms["r"]?.isSome = true by decide)
  have hplace : (machine.exec { media := true } brokenComeback).place "r" "a" =
      some ⟨true, ⟨false, false⟩⟩ := by decide
  rw [place, hroom] at hplace
  have hhas : room.has "a" = true := congrArg Place.roster (Option.some.inj hplace)
  exact absurd ((hrun.roster "a" 1 "r" room hpeer hroom).1 hhas) (by decide)

end Sfu

end OxlensSfu.Peers
