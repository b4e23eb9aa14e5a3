import OxlensSfu.Lib.Machine

/-!
# Room tokens

A server tells the others which rooms it has by a token for each (`declare_room`,
`redeclare_rooms` and `undeclare_room` of `crates/oxsfud/src/bus/mod.rs`). To declare a token is to
wait for an answer, and the token is put into `room_tokens` after the wait. `destroy_room` of
`ops/rooms.rs` takes the token out with the room and does not wait for anything, so it can fall
into the wait of a declaration.

Tasks are cut where they wait.

* **`tokens_mirror_rooms`** — when every declaration ends while its room is registered, the tokens
  are those of the rooms once nothing is under way.
* **`token_of_destroyed_room`** — a room destroyed while it is being declared leaves its token.
-/

namespace OxlensSfu.Bus

/-- A task that waits for the token of `room`, and what `redeclare_rooms` has still to do. -/
inductive Task where
  | declaring (room : String) (rest : List String)
  | done
  deriving DecidableEq, Repr

/-- The room whose token the task waits for. -/
def Task.room : Task → Option String
  | .declaring room _ => some room
  | .done => none

structure State where
  rooms : Finset String := ∅
  roomTokens : Finset String := ∅
  tasks : List Task := []
  deriving DecidableEq

inductive Act where
  | create (room : String)
  | destroyRoom (room : String)
  | redeclareRooms (rooms : List String)
  | declared (i : Nat)
  deriving DecidableEq, Repr

/-- The loop of `redeclare_rooms` up to its next wait: tokens that are gone are passed over. -/
def redeclare (tokens : Finset String) : List String → Finset String × Task
  | [] => (tokens, .done)
  | r :: rest => if r ∈ tokens then (tokens.erase r, .declaring r rest) else redeclare tokens rest

namespace State

def next (s : State) : Act → State
  | .create room =>
    if room ∈ s.rooms then s
    else { s with rooms := insert room s.rooms, tasks := s.tasks ++ [.declaring room []] }
  | .destroyRoom room =>
    { s with rooms := s.rooms.erase room, roomTokens := s.roomTokens.erase room }
  | .redeclareRooms rooms =>
    let (tokens, task) := redeclare s.roomTokens rooms
    { s with roomTokens := tokens, tasks := s.tasks ++ [task] }
  | .declared i =>
    match s.tasks[i]? with
    | some (.declaring room rest) =>
      let (tokens, task) := redeclare (insert room s.roomTokens) rest
      { s with roomTokens := tokens, tasks := s.tasks.set i task }
    | _ => s

/-- No operation is in progress. -/
def Idle (s : State) : Prop := ∀ t ∈ s.tasks, t = .done

instance (s : State) : Decidable s.Idle := inferInstanceAs (Decidable (∀ t ∈ s.tasks, _))

/-- The room is being declared. -/
def Declaring (s : State) (room : String) : Prop := ∃ t ∈ s.tasks, t.room = some room

/-- A declaration ends while its room is registered. -/
def Covered (s : State) : Act → Prop
  | .declared i => ∀ t ∈ s.tasks[i]?, ∀ room ∈ t.room, room ∈ s.rooms
  | .create _ | .destroyRoom _ | .redeclareRooms _ => True

end State

/-- The operations of one server, in any interleaving. `redeclare_rooms` goes through the tokens it
finds, in any order. -/
def machine : Machine State Act where
  ok s
    | .redeclareRooms rooms => rooms.Nodup ∧ rooms.toFinset = s.roomTokens
    | .declared i => s.tasks[i]?.any (· ≠ .done)
    | .create _ | .destroyRoom _ => True
  next := State.next

instance (s : State) : (a : Act) → Decidable (machine.ok s a)
  | .redeclareRooms rooms => inferInstanceAs (Decidable (rooms.Nodup ∧ _))
  | .declared _ => inferInstanceAs (Decidable (Option.any _ _ = true))
  | .create _ | .destroyRoom _ => .isTrue trivial

instance (s : State) : (a : Act) → Decidable (s.Covered a)
  | .declared i => inferInstanceAs (Decidable (∀ t ∈ s.tasks[i]?, ∀ room ∈ t.room, room ∈ s.rooms))
  | .create _ | .destroyRoom _ | .redeclareRooms _ => .isTrue trivial

/-! ## Tokens and rooms -/

/-- What `redeclare_rooms` takes out it waits for. -/
theorem redeclare_spec (tokens : Finset String) (l : List String) :
    (redeclare tokens l).1 ⊆ tokens ∧
      ∀ r ∈ tokens, r ∈ (redeclare tokens l).1 ∨ (redeclare tokens l).2.room = some r := by
  induction l with
  | nil => exact ⟨subset_rfl, fun r hr => .inl hr⟩
  | cons a rest ih =>
    rw [redeclare]
    split_ifs with ha
    · refine ⟨Finset.erase_subset a tokens, ?_⟩
      intro r hr
      by_cases hra : r = a
      · exact .inr (congrArg some hra.symm)
      · exact .inl (Finset.mem_erase.2 ⟨hra, hr⟩)
    · exact ih

/-- Only rooms have tokens, and every room has one or is being declared. -/
structure Mirrors (s : State) : Prop where
  rooms : s.roomTokens ⊆ s.rooms
  tokens : ∀ r ∈ s.rooms, r ∈ s.roomTokens ∨ s.Declaring r

namespace Mirrors

variable {s : State}

theorem create (h : Mirrors s) (room : String) : Mirrors (s.next (.create room)) := by
  rw [State.next]
  split_ifs with hr
  · exact h
  refine ⟨h.rooms.trans (Finset.subset_insert room s.rooms), ?_⟩
  intro r hr
  rcases Finset.mem_insert.1 hr with rfl | hr
  · exact .inr ⟨.declaring r [], List.mem_append_right _ List.mem_cons_self, rfl⟩
  · refine (h.tokens r hr).imp_right ?_
    rintro ⟨t, ht, htr⟩
    exact ⟨t, List.mem_append_left _ ht, htr⟩

theorem destroyRoom (h : Mirrors s) (room : String) : Mirrors (s.next (.destroyRoom room)) := by
  refine ⟨Finset.erase_subset_erase room h.rooms, ?_⟩
  intro r hr
  obtain ⟨hne, hr⟩ := Finset.mem_erase.1 hr
  exact (h.tokens r hr).imp_left fun ht => Finset.mem_erase.2 ⟨hne, ht⟩

theorem redeclareRooms (h : Mirrors s) (rooms : List String) :
    Mirrors (s.next (.redeclareRooms rooms)) := by
  obtain ⟨hsub, hkeep⟩ := redeclare_spec s.roomTokens rooms
  refine ⟨hsub.trans h.rooms, ?_⟩
  intro r hr
  rcases h.tokens r hr with ht | ⟨t, ht, htr⟩
  · refine (hkeep r ht).imp_right ?_
    intro htr
    exact ⟨_, List.mem_append_right _ List.mem_cons_self, htr⟩
  · exact .inr ⟨t, List.mem_append_left _ ht, htr⟩

theorem declared (h : Mirrors s) {i : Nat} (hc : s.Covered (.declared i)) :
    Mirrors (s.next (.declared i)) := by
  rw [State.next]
  split
  case h_2 => exact h
  case h_1 room rest hi =>
    have hreg : room ∈ s.rooms := hc _ hi room rfl
    obtain ⟨hsub, hkeep⟩ := redeclare_spec (insert room s.roomTokens) rest
    have hlt : i < s.tasks.length := (List.getElem?_eq_some_iff.1 hi).1
    refine ⟨hsub.trans (Finset.insert_subset hreg h.rooms), ?_⟩
    -- What the task waited for is in now; what it takes out next it waits for.
    have hin : ∀ r ∈ insert room s.roomTokens,
        r ∈ (redeclare (insert room s.roomTokens) rest).1 ∨ State.Declaring
          { s with
            roomTokens := (redeclare (insert room s.roomTokens) rest).1
            tasks := s.tasks.set i (redeclare (insert room s.roomTokens) rest).2 } r := by
      intro r hr
      refine (hkeep r hr).imp_right ?_
      intro htr
      exact ⟨_, List.mem_set hlt _, htr⟩
    intro r hr
    rcases h.tokens r hr with ht | ⟨t, ht, htr⟩
    · exact hin r (Finset.mem_insert_of_mem ht)
    · obtain ⟨j, hj⟩ := List.mem_iff_getElem?.1 ht
      by_cases hij : i = j
      · subst hij
        obtain rfl : .declaring room rest = t := Option.some.inj (hi.symm.trans hj)
        obtain rfl : room = r := Option.some.inj htr
        exact hin room (Finset.mem_insert_self room _)
      · refine .inr ⟨t, List.mem_of_getElem? (i := j) ?_, htr⟩
        rw [List.getElem?_set_ne hij, hj]

theorem next (h : Mirrors s) (a : Act) (hc : s.Covered a) : Mirrors (s.next a) := by
  cases a with
  | create room => exact h.create room
  | destroyRoom room => exact h.destroyRoom room
  | redeclareRooms rooms => exact h.redeclareRooms rooms
  | declared i => exact h.declared hc

end Mirrors

/-- **The tokens mirror the rooms**, when no declaration outlives its room. -/
theorem tokens_mirror_rooms (acts : List Act)
    (hrun : (machine.restrict State.Covered).Legal ({} : State) acts)
    (hidle : (machine.exec ({} : State) acts).Idle) :
    (machine.exec ({} : State) acts).roomTokens = (machine.exec ({} : State) acts).rooms := by
  have hm : Mirrors (machine.exec ({} : State) acts) := by
    rw [← Machine.restrict_exec _ State.Covered]
    refine Machine.invariant (fun s a h hok => h.next a hok.2) ?_ hrun
    exact ⟨subset_rfl, fun r hr => absurd hr (Finset.notMem_empty r)⟩
  refine hm.rooms.antisymm ?_
  intro r hr
  refine (hm.tokens r hr).resolve_right ?_
  rintro ⟨t, ht, htr⟩
  rw [hidle t ht] at htr
  exact absurd htr (Option.some_ne_none r).symm

/-- A room is declared, declared again and destroyed. -/
theorem tokens_mirror_rooms_redeclared :
    (machine.exec ({} : State) [.create "r", .create "q", .declared 0, .declared 1,
      .redeclareRooms ["q", "r"], .declared 2, .declared 2, .destroyRoom "q"]).roomTokens =
    (machine.exec ({} : State) [.create "r", .create "q", .declared 0, .declared 1,
      .redeclareRooms ["q", "r"], .declared 2, .declared 2, .destroyRoom "q"]).rooms :=
  tokens_mirror_rooms _ (by decide) (by decide)

/-- A room is destroyed while its creation waits for the token: the token comes after it. -/
theorem token_of_destroyed_room : ¬ ∀ acts, machine.Legal ({} : State) acts →
    (machine.exec ({} : State) acts).Idle →
    (machine.exec ({} : State) acts).roomTokens = (machine.exec ({} : State) acts).rooms := by
  intro h
  have hrun := h [.create "r", .destroyRoom "r", .declared 0] (by decide) (by decide)
  exact absurd hrun (by decide)

end OxlensSfu.Bus
