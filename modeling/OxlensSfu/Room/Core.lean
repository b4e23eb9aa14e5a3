import OxlensSfu.Floor.Core

/-!
# Rooms

The room of `crates/oxsfud/src/room/mod.rs`: its roster, its version and its lifetime. Each
function here is one critical section of the source, so a function is what one thread does to the
room without any other thread in between; everything longer is built from these.

A notice leaves the room in the critical section that numbered it, so the functions that publish
return what they published beside the new state.
-/

namespace OxlensSfu.Rooms

open Std

/-- The time to live of a room that is never reclaimed. -/
def permanent : UInt32 := 4294967295

structure Permission where
  publishAudio : Bool
  publishVideo : Bool
  publishScreen : Bool
  floorRequest : Bool
  deriving DecidableEq, Repr

namespace Permission

def all : Permission := ⟨true, true, true, true⟩

def isDefault (p : Permission) : Bool := p == all

end Permission

structure MemberInfo where
  userId : String
  role : Option UInt8
  select : Bool
  participantType : UInt8
  metadata : Option String
  permission : Option Permission
  deriving DecidableEq, Repr

/-- A member as the roster keeps it. The metadata is carried, never read. -/
structure Member where
  user : String
  role : Option UInt8 := some 255
  select : Bool := true
  participantType : UInt8 := 0
  hidden : Bool := false
  metadata : Option String := none
  permission : Permission := .all
  deriving DecidableEq, Repr

namespace Member

def info (m : Member) : MemberInfo where
  userId := m.user
  role := m.role
  select := m.select
  participantType := m.participantType
  metadata := m.metadata
  permission := if m.permission.isDefault then none else some m.permission

def me (m : Member) : MemberInfo := { m.info with permission := some m.permission }

end Member

structure Version where
  epoch : String
  seq : Nat
  deriving DecidableEq, Repr

inductive EventType where
  | joined
  | left
  deriving DecidableEq, Repr

structure ParticipantEvent where
  type : EventType
  roomId : String
  userId : String
  role : Option UInt8 := none
  select : Option Bool := none
  participantType : Option UInt8 := none
  metadata : Option String := none
  permission : Option Permission := none
  version : Version
  deriving DecidableEq, Repr

/-- What a room publishes: participant events, and the track events and states whose bodies the
roster has no part in. -/
inductive Notice where
  | participant (body : ParticipantEvent) (exclude : List String)
  | track (version : Version)
  deriving DecidableEq, Repr

/-! ## The roster -/

/-- The members by user. Every entry is filed under its own user. -/
structure Roster where
  map : TreeMap String Member
  keyed : ∀ (u : String) (m : Member), map[u]? = some m → m.user = u

namespace Roster

def empty : Roster where
  map := ∅
  keyed := by simp

def insert (r : Roster) (m : Member) : Roster where
  map := r.map.insert m.user m
  keyed := by
    intro u m' h
    rw [TreeMap.getElem?_insert] at h
    split at h
    · next e =>
      cases h
      exact Std.compare_eq_iff_eq.1 e
    · exact r.keyed u m' h

def erase (r : Roster) (u : String) : Roster where
  map := r.map.erase u
  keyed := by
    intro v m' h
    rw [TreeMap.getElem?_erase] at h
    split at h
    · cases h
    · exact r.keyed v m' h

/-- The members in the order of their users. -/
def values (r : Roster) : List Member := r.map.toList.map (·.2)

@[simp] theorem empty_get? (u : String) : empty.map[u]? = none := by simp [empty]

theorem insert_get? (r : Roster) (m : Member) (u : String) :
    (r.insert m).map[u]? = if m.user = u then some m else r.map[u]? := by
  simp only [insert, TreeMap.getElem?_insert, Std.compare_eq_iff_eq]

theorem erase_get? (r : Roster) (u v : String) :
    (r.erase u).map[v]? = if u = v then none else r.map[v]? := by
  simp only [erase, TreeMap.getElem?_erase, Std.compare_eq_iff_eq]

theorem mem_values {r : Roster} {m : Member} : m ∈ r.values ↔ r.map[m.user]? = some m := by
  simp only [values, List.mem_map, Prod.exists, exists_eq_right,
    TreeMap.mem_toList_iff_getElem?_eq_some]
  refine ⟨?_, ?_⟩
  · intro h
    obtain ⟨u, h⟩ := h
    rw [r.keyed u m h]
    exact h
  · intro h
    exact ⟨m.user, h⟩

theorem values_user_nodup (r : Roster) : (r.values.map (·.user)).Nodup := by
  have h : r.values.map (·.user) = r.map.toList.map (·.1) := by
    rw [values, List.map_map]
    refine List.map_congr_left fun p hp => ?_
    exact r.keyed p.1 p.2 (TreeMap.mem_toList_iff_getElem?_eq_some.1 hp)
  rw [h, List.Nodup, List.pairwise_map]
  refine r.map.distinct_keys_toList.imp fun hab e => ?_
  exact hab (Std.compare_eq_iff_eq.2 e)

end Roster

/-! ## The room -/

structure MediaCodecs where
  audio : Option String := none
  video : Option String := none
  deriving DecidableEq, Repr

structure RoomState where
  members : Roster := .empty
  seq : Nat := 0
  overrides : List (String × Permission) := []
  emptySince : Nat := 0
  everJoined : Bool := false
  emptySeen : Bool := false
  closed : Bool := false

/-- A room: what is fixed at its creation and the two states behind its locks. -/
structure Room where
  id : String
  capacity : UInt32
  unusedTtl : UInt32
  departureTtl : UInt32
  mediaCodecs : MediaCodecs
  epoch : String
  st : RoomState
  floor : Flr.Floor

structure RoomInit where
  id : String
  capacity : UInt32
  unusedTtl : UInt32 := permanent
  departureTtl : UInt32 := permanent
  mediaCodecs : MediaCodecs := {}
  epoch : String := ""
  queueMax : Nat := 10
  t2Secs : Nat := 30

namespace Room

def new (i : RoomInit) (now : Nat) : Room where
  id := i.id
  capacity := i.capacity
  unusedTtl := i.unusedTtl
  departureTtl := i.departureTtl
  mediaCodecs := i.mediaCodecs
  epoch := i.epoch
  st := { seq := 0, emptySince := now }
  floor := Flr.Floor.new i.queueMax i.t2Secs

def member (r : Room) (user : String) : Option Member := r.st.members.map[user]?

def has (r : Room) (user : String) : Bool := r.st.members.map.contains user

def registered (r : Room) : Nat := r.st.members.map.size

def userCount (r : Room) : UInt32 :=
  .ofNat (r.st.members.values.filter (!·.hidden)).length

def participants (r : Room) : List MemberInfo :=
  (r.st.members.values.filter (!·.hidden)).map Member.info

def users (r : Room) : List String := r.st.members.map.keys

def version (r : Room) : Version := ⟨r.epoch, r.st.seq⟩

def permissionFor (r : Room) (user : String) (token : Option Permission) : Permission :=
  ((r.st.overrides.lookup user).or token).getD .all

def fullFor (r : Room) (hidden : Bool) : Bool := !hidden && r.userCount ≥ r.capacity

def remove (r : Room) (user : String) : Option Member × Room :=
  (r.member user, { r with st := { r.st with members := r.st.members.erase user } })

def close (r : Room) : Room := { r with st := { r.st with closed := true } }

/-- Number a notice and publish it in one critical section. -/
def bumpAndSend (r : Room) (f : Version → Option Notice) : List Notice × Room :=
  let r := { r with st := { r.st with seq := r.st.seq + 1 } }
  ((f r.version).toList, r)

def announceLeft (r : Room) (user : String) : List Notice × Room :=
  r.bumpAndSend fun v =>
    some (.participant { type := .left, roomId := r.id, userId := user, version := v } [user])

/-- Enter the roster. A first entry of a visible member is numbered and announced; a rejoin and a
hidden member change the roster alone. -/
def join (r : Room) (m : Member) (rejoin : Bool) (tokenPerm : Option Permission) :
    List Notice × Room :=
  let m := { m with permission := r.permissionFor m.user tokenPerm }
  let st := { r.st with
    everJoined := true
    emptySince := 0
    emptySeen := false
    members := r.st.members.insert m }
  if !rejoin && !m.hidden then
    let seq := st.seq + 1
    let info := m.info
    let body : ParticipantEvent := {
      type := .joined
      roomId := r.id
      userId := m.user
      role := info.role
      select := some info.select
      participantType := some info.participantType
      metadata := info.metadata
      permission := info.permission
      version := ⟨r.epoch, seq⟩ }
    ([.participant body [m.user]], { r with st := { st with seq := seq } })
  else
    ([], { r with st := st })

/-- The sweep's question. A room found empty for the first time only starts its clock. -/
def ttlDue (r : Room) (now : Nat) : Bool × Room :=
  if !r.st.members.map.isEmpty then
    (false, { r with st := { r.st with emptySince := 0, emptySeen := false } })
  else if r.st.everJoined && r.st.emptySince == 0 then
    (false, { r with st := { r.st with emptySince := now, emptySeen := true } })
  else
    let ttl := if r.st.everJoined then r.departureTtl else r.unusedTtl
    if ttl == permanent then (false, r)
    else (decide (now - r.st.emptySince ≥ ttl.toNat * 1000), r)

/-! ## Who is seen -/

/-- The user is in the roster and not hidden. -/
def visible (r : Room) (u : String) : Bool := (r.member u).any (!·.hidden)

/-- The users a list of participants names. -/
def named (ps : List MemberInfo) : Finset String := (ps.map (·.userId)).toFinset

theorem has_eq (r : Room) (u : String) : r.has u = (r.member u).isSome := by
  rw [has, member, TreeMap.contains_eq_isSome_getElem?]

theorem mem_named_participants {r : Room} {u : String} :
    u ∈ named r.participants ↔ r.visible u = true := by
  simp only [named, participants, List.map_map, List.mem_toFinset, List.mem_map, List.mem_filter,
    Roster.mem_values, visible, member, Option.any_eq_true, Function.comp_apply, Member.info]
  refine ⟨?_, ?_⟩
  · intro h
    obtain ⟨m, ⟨hm, hh⟩, rfl⟩ := h
    exact ⟨m, hm, hh⟩
  · intro h
    obtain ⟨m, hm, hh⟩ := h
    have hu := r.st.members.keyed u m hm
    exact ⟨m, ⟨hu ▸ hm, hh⟩, hu⟩

/-- The visible members are counted once each. -/
theorem card_named_participants (r : Room) :
    (named r.participants).card = (r.st.members.values.filter (!·.hidden)).length := by
  have hnd : (r.participants.map (·.userId)).Nodup := by
    have h := r.st.members.values_user_nodup
    rw [participants, List.map_map]
    exact h.sublist ((List.filter_sublist).map _)
  rw [named, List.toFinset_card_of_nodup hnd, participants]
  simp

theorem join_members (r : Room) (m : Member) (rejoin : Bool) (tok : Option Permission) :
    (r.join m rejoin tok).2.st.members =
      r.st.members.insert { m with permission := r.permissionFor m.user tok } := by
  unfold join
  dsimp only
  split <;> rfl

theorem join_member (r : Room) (m : Member) (rejoin : Bool) (tok : Option Permission)
    (u : String) : (r.join m rejoin tok).2.member u =
      if m.user = u then some { m with permission := r.permissionFor m.user tok }
      else r.member u := by
  rw [member, join_members, Roster.insert_get?]
  rfl

theorem join_visible (r : Room) (m : Member) (rejoin : Bool) (tok : Option Permission)
    (u : String) : (r.join m rejoin tok).2.visible u =
      if m.user = u then !m.hidden else r.visible u := by
  unfold visible
  rw [join_member]
  split <;> simp

/-- A first entry of a visible member publishes its joined event under the next number. -/
theorem join_announced (r : Room) {m : Member} {rejoin : Bool} (tok : Option Permission)
    (h : (!rejoin && !m.hidden) = true) : ∃ e ex, (r.join m rejoin tok).1 = [.participant e ex] ∧
      e.type = .joined ∧ e.userId = m.user ∧ e.version.seq = r.st.seq + 1 ∧
      (r.join m rejoin tok).2.st.seq = r.st.seq + 1 := by
  unfold join
  dsimp only
  rw [if_pos h]
  exact ⟨_, _, rfl, rfl, rfl, rfl, rfl⟩

theorem join_silent (r : Room) {m : Member} {rejoin : Bool} (tok : Option Permission)
    (h : ¬ (!rejoin && !m.hidden) = true) :
    (r.join m rejoin tok).1 = [] ∧ (r.join m rejoin tok).2.st.seq = r.st.seq := by
  unfold join
  dsimp only
  rw [if_neg h]
  exact ⟨rfl, rfl⟩

theorem remove_member (r : Room) (v u : String) :
    (r.remove v).2.member u = if v = u then none else r.member u :=
  Roster.erase_get? _ v u

theorem remove_visible (r : Room) (v u : String) :
    (r.remove v).2.visible u = if v = u then false else r.visible u := by
  unfold visible
  rw [remove_member]
  split <;> simp

theorem join_closed (r : Room) (m : Member) (rejoin : Bool) (tok : Option Permission) :
    (r.join m rejoin tok).2.st.closed = r.st.closed := by
  unfold join
  dsimp only
  split <;> rfl

theorem ttlDue_member (r : Room) (now : Nat) (u : String) :
    (r.ttlDue now).2.member u = r.member u := by
  unfold ttlDue
  dsimp only
  split_ifs <;> rfl

theorem ttlDue_closed (r : Room) (now : Nat) : (r.ttlDue now).2.st.closed = r.st.closed := by
  unfold ttlDue
  dsimp only
  split_ifs <;> rfl

end Room

end OxlensSfu.Rooms
