import OxlensSfu.Room.Threads

/-!
# Room capacity

`rooms::join` asks `Room::full_for` under one lock and enters the roster under another. Between
the two the table is synced, so a second join can ask before the first has entered.

A join is in its *section* from the read that admits it — `full_for`, or for a rejoin the lookup
of its old entry — to its entry.

* **`capacity_kept`** — when no two visible joins of one room are in their sections at once, and
  no rejoin turns a hidden member visible, no room ever has more visible members than it holds.
* **`capacity_exceeded`** — two joins that overlap take a room over its capacity.
-/

namespace OxlensSfu.Rooms

/-! ## One room -/

namespace Room

/-- The number of members that are not hidden. -/
def seen (r : Room) : Nat := (r.st.members.values.filter (!·.hidden)).length

/-- The user may enter: it is counted already, or there is a place. -/
def Spare (r : Room) (u : String) : Prop := r.visible u = true ∨ r.seen < r.capacity.toNat

theorem seen_eq_card (r : Room) : r.seen = (named r.participants).card :=
  (card_named_participants r).symm

theorem seen_le {r r' : Room} (h : ∀ u, r'.visible u = true → r.visible u = true) :
    r'.seen ≤ r.seen := by
  rw [seen_eq_card, seen_eq_card]
  refine Finset.card_le_card fun u hu => ?_
  exact mem_named_participants.2 (h u (mem_named_participants.1 hu))

theorem seen_lt {r r' : Room} (h : ∀ u, r'.visible u = true → r.visible u = true) {u : String}
    (hu : r.visible u = true) (hu' : r'.visible u ≠ true) : r'.seen < r.seen := by
  rw [seen_eq_card, seen_eq_card]
  refine Finset.card_lt_card ⟨fun v hv => ?_, fun hsub => hu' ?_⟩
  · exact mem_named_participants.2 (h v (mem_named_participants.1 hv))
  · exact mem_named_participants.1 (hsub (mem_named_participants.2 hu))

/-- A room that loses members keeps its places. -/
theorem spare_shrink {r r' : Room} (hcap : r'.capacity = r.capacity)
    (h : ∀ u, r'.visible u = true → r.visible u = true) (hr : r.seen ≤ r.capacity.toNat)
    {u : String} (hs : r.Spare u) : r'.Spare u := by
  unfold Spare
  rw [hcap]
  rcases hs with hv | hlt
  · by_cases hv' : r'.visible u = true
    · exact .inl hv'
    · exact .inr ((seen_lt h hv hv').trans_le hr)
  · exact .inr ((seen_le h).trans_lt hlt)

theorem join_capacity (r : Room) (m : Member) (rejoin : Bool) (tok : Option Permission) :
    (r.join m rejoin tok).2.capacity = r.capacity := by
  unfold join
  dsimp only
  split <;> rfl

theorem join_seen {r : Room} {m : Member} (rejoin : Bool) (tok : Option Permission)
    (hr : r.seen ≤ r.capacity.toNat) (hs : r.Spare m.user) :
    (r.join m rejoin tok).2.seen ≤ r.capacity.toNat := by
  have hsub : named (r.join m rejoin tok).2.participants ⊆
      insert m.user (named r.participants) := by
    intro u hu
    rw [mem_named_participants, join_visible] at hu
    rw [Finset.mem_insert, mem_named_participants]
    split at hu
    · next e => exact .inl e.symm
    · exact .inr hu
  rw [seen_eq_card] at hr ⊢
  have hcard := Finset.card_le_card hsub
  rcases hs with hv | hlt
  · rw [Finset.insert_eq_of_mem (mem_named_participants.2 hv)] at hcard
    exact hcard.trans hr
  · rw [seen_eq_card] at hlt
    exact hcard.trans ((Finset.card_insert_le _ _).trans hlt)

theorem join_hidden_visible {r : Room} {m : Member} (rejoin : Bool) (tok : Option Permission)
    (hm : m.hidden = true) (u : String) (hu : (r.join m rejoin tok).2.visible u = true) :
    r.visible u = true := by
  rw [join_visible] at hu
  split at hu
  · simp [hm] at hu
  · exact hu

theorem remove_visible_of {r : Room} (x u : String) (hu : (r.remove x).2.visible u = true) :
    r.visible u = true := by
  rw [remove_visible] at hu
  split at hu
  · cases hu
  · exact hu

theorem ttlDue_visible (r : Room) (now : Nat) (u : String) :
    (r.ttlDue now).2.visible u = r.visible u := by
  rw [visible, ttlDue_member, visible]

theorem ttlDue_capacity (r : Room) (now : Nat) : (r.ttlDue now).2.capacity = r.capacity := by
  unfold ttlDue
  dsimp only
  split_ifs <;> rfl

theorem new_seen (i : RoomInit) (now : Nat) : (Room.new i now).seen = 0 := by
  rw [seen_eq_card, Finset.card_eq_zero, Finset.eq_empty_iff_forall_notMem]
  intro u hu
  simp [mem_named_participants, visible, member, Room.new] at hu

/-- What `full_for` answers in a room that is not overfull. -/
theorem seen_lt_of_not_full {r : Room} {hidden : Bool} (hr : r.seen ≤ r.capacity.toNat)
    (hh : hidden = false) (hf : ¬ r.fullFor hidden = true) : r.seen < r.capacity.toNat := by
  have hlt : r.seen < 2 ^ 32 := hr.trans_lt r.capacity.toNat_lt
  have hcount : r.userCount.toNat = r.seen := by
    rw [userCount, UInt32.toNat_ofNat']
    exact Nat.mod_eq_of_lt hlt
  rw [fullFor, hh, Bool.not_false, Bool.true_and, decide_eq_true_eq, ge_iff_le,
    UInt32.le_iff_toNat_le, hcount] at hf
  omega

end Room

/-! ## One effect -/

theorem change_spare {w : Shared} {e : Effect} {r : Ref} {room : Room} {u : String}
    (hc : Change w e r room) (hold : r.gen < w.born)
    (hent : ∀ m rejoin tok, e = .enter r m rejoin tok → m.hidden = true)
    (hr : (w.heap r).seen ≤ (w.heap r).capacity.toNat) (hs : (w.heap r).Spare u) :
    room.Spare u := by
  cases hc with
  | keep => exact hs
  | enter m rejoin tok h =>
    exact Room.spare_shrink (Room.join_capacity ..)
      (Room.join_hidden_visible rejoin tok (hent m rejoin tok h)) hr hs
  | remove x h =>
    have hcap : ((w.heap r).remove x).2.capacity = (w.heap r).capacity := rfl
    exact Room.spare_shrink hcap (Room.remove_visible_of x) hr hs
  | ttlDue now h =>
    exact Room.spare_shrink (Room.ttlDue_capacity ..)
      (fun v hv => Room.ttlDue_visible _ now v ▸ hv) hr hs
  | close h => exact hs
  | new i now h e =>
    subst e
    exact absurd hold (Nat.lt_irrefl _)

theorem change_seen {w : Shared} {e : Effect} {r : Ref} {room : Room} (hc : Change w e r room)
    (hr : (w.heap r).seen ≤ (w.heap r).capacity.toNat)
    (hent : ∀ m rejoin tok, e = .enter r m rejoin tok → m.hidden = false →
      (w.heap r).Spare m.user) : room.seen ≤ room.capacity.toNat := by
  cases hc with
  | keep => exact hr
  | enter m rejoin tok h =>
    rw [Room.join_capacity]
    cases hm : m.hidden with
    | true => exact (Room.seen_le (Room.join_hidden_visible rejoin tok hm)).trans hr
    | false => exact Room.join_seen rejoin tok hr (hent m rejoin tok h hm)
  | remove x h => exact (Room.seen_le (Room.remove_visible_of x)).trans hr
  | ttlDue now h =>
    rw [Room.ttlDue_capacity]
    exact (Room.seen_le fun v hv => Room.ttlDue_visible _ now v ▸ hv).trans hr
  | close h => exact hr
  | new i now h e =>
    rw [Room.new_seen]
    exact Nat.zero_le _

/-! ## The sections -/

namespace JoinPc

/-- The room the thread holds. -/
def ref : JoinPc → Option Ref
  | .found r | .asked r | .settled r _ | .admitted r _ | .rolling r | .seated r _ | .entered r
  | .met r => some r
  | .start | .returned _ => none

/-- The room whose capacity the thread counts on. -/
def admits : JoinPc → Option Ref
  | .settled r true | .admitted r _ | .seated r _ => some r
  | _ => none

theorem ref_of_admits {pc : JoinPc} {r : Ref} (h : pc.admits = some r) : pc.ref = some r := by
  unfold admits at h
  split at h
  all_goals first | exact h | cases h

end JoinPc

/-- The room in whose roster the thread is about to be seen. -/
def Thread.admits : Thread → Option Ref
  | .join q pc => if q.member.hidden then none else pc.admits
  | _ => none

/-- Both threads are about to be seen in the same room. -/
def Contend (t u : Thread) : Prop := t.admits.isSome ∧ t.admits = u.admits

instance : DecidableRel Contend := fun _ _ => inferInstanceAs (Decidable (_ ∧ _))

theorem Contend.symm {t u : Thread} (h : Contend t u) : Contend u t := ⟨h.2 ▸ h.1, h.2.symm⟩

/-- The thread takes over the place of a hidden member for a visible one. -/
def Unveils (w : Shared) (o : Outcome) : Thread → Prop
  | .join q (.asked r) => o.old = .kept ∧ (w.heap r).has q.member.user = true ∧
      (w.heap r).visible q.member.user = false ∧ q.member.hidden = false
  | _ => False

instance (w : Shared) (o : Outcome) : (t : Thread) → Decidable (Unveils w o t)
  | .join _ pc =>
    match pc with
    | .asked _ => inferInstanceAs (Decidable (_ ∧ _ ∧ _ ∧ _))
    | .start | .found _ | .settled .. | .admitted .. | .rolling _ | .seated .. | .entered _
    | .met _ | .returned _ => .isFalse id
  | .leave .. | .sweep .. | .destroy .. | .create .. => .isFalse id

/-- No two visible joins of one room are in their sections after the step, and the step unveils
no one. -/
def OneByOne (p : World) (a : Sched) : Prop :=
  Program.Apart Contend (program.next p a).threads ∧
    match a with
    | .spawn _ => True
    | .step i o => ∀ t ∈ p.threads[i]?, ¬ Unveils p.shared o t

instance (p : World) : (a : Sched) → Decidable (OneByOne p a)
  | .spawn _ => inferInstanceAs (Decidable (_ ∧ True))
  | .step i o => inferInstanceAs (Decidable (_ ∧ ∀ t ∈ p.threads[i]?, ¬ Unveils p.shared o t))

/-! ## The invariant -/

/-- A join thread holds a room that exists, and one in its section finds its place in it. -/
def Thread.Seated (w : Shared) : Thread → Prop
  | .join q pc => (∀ r ∈ pc.ref, r.gen < w.born) ∧
      (q.member.hidden = false → ∀ r ∈ pc.admits, (w.heap r).Spare q.member.user)
  | _ => True

structure Within (p : World) : Prop where
  cap : ∀ r, (p.shared.heap r).seen ≤ (p.shared.heap r).capacity.toNat
  listed : p.shared.Listed
  threads : ∀ t ∈ p.threads, t.Seated p.shared
  alone : Program.Apart Contend p.threads

/-- Who enters a roster and is seen there is in its section. -/
theorem admits_of_enter {t : Thread} {r : Ref} {m : Member} {rejoin : Bool}
    {tok : Option Permission} (h : Makes t (.enter r m rejoin tok)) (hm : m.hidden = false) :
    t.admits = some r := by
  cases h
  simp [Thread.admits, JoinPc.admits, hm]

theorem spare_of_enter {w : Shared} {t : Thread} (ht : t.Seated w) {r : Ref} {m : Member}
    {rejoin : Bool} {tok : Option Permission} (h : Makes t (.enter r m rejoin tok))
    (hm : m.hidden = false) : (w.heap r).Spare m.user := by
  cases h
  exact ht.2 hm r rfl

/-- A step of another thread leaves the places of a section alone. -/
theorem seated_other {p : World} (hp : Within p) {o : Outcome} {t u : Thread}
    (hu : u.Seated p.shared) (hc : ¬ Contend t u) :
    u.Seated (p.shared.run (t.step p.shared o).1) := by
  cases u with
  | join q pc =>
    obtain ⟨hgen, hspare⟩ := hu
    refine ⟨fun r hr => (hgen r hr).trans_le (born_le _ _), fun hq r hr => ?_⟩
    have hmk := step_makes p.shared o t
    refine change_spare (run_change _ _ r) (hgen r (JoinPc.ref_of_admits hr)) ?_ (hp.cap r)
      (hspare hq r hr)
    intro m rejoin tok he
    rw [he] at hmk
    by_contra hm
    have hadm := admits_of_enter hmk (by simpa using hm)
    exact hc ⟨by simp [hadm], hadm.trans (by simpa [Thread.admits, hq] using hr.symm)⟩
  | leave | sweep | destroy | create => trivial

/-- A join thread that only moves on, with the room it holds. -/
theorem seated_move {w : Shared} {q : JoinReq} {pc pc' : JoinPc}
    (h : (Thread.join q pc).Seated w) (href : ∀ r ∈ pc'.ref, pc.ref = some r)
    (hadm : q.member.hidden = false → ∀ r ∈ pc'.admits, (w.heap r).Spare q.member.user) :
    (Thread.join q pc').Seated w :=
  ⟨fun r hr => h.1 r (href r hr), hadm⟩

theorem seated_returned (w : Shared) (q : JoinReq) (ok : Bool) :
    (Thread.join q (.returned ok)).Seated w :=
  ⟨by simp [JoinPc.ref], by simp [JoinPc.admits]⟩

/-- A step brings its own thread into its section only when there is a place. -/
theorem seated_own {p : World} (hp : Within p) {o : Outcome} {t : Thread}
    (ht : t.Seated p.shared) (hv : ¬ Unveils p.shared o t) :
    (t.step p.shared o).2.Seated (p.shared.run (t.step p.shared o).1) := by
  cases t with
  | join q pc =>
    cases pc with
    | start =>
      simp only [Thread.step, Thread.joinStep]
      split
      · exact ⟨by simp [JoinPc.ref], by simp [JoinPc.admits]⟩
      · next r hr =>
        refine ⟨fun r' hr' => ?_, by simp [JoinPc.admits]⟩
        cases hr'
        exact (hp.listed _ r hr).2
    | found r =>
      simp only [Thread.step, Thread.joinStep]
      split <;> exact seated_move ht (by simp [JoinPc.ref]) (by simp [JoinPc.admits])
    | asked r =>
      simp only [Thread.step, Thread.joinStep]
      split
      · exact seated_move ht (by simp [JoinPc.ref]) (by simp [JoinPc.admits])
      · next hold =>
        refine seated_move ht (by simp [JoinPc.ref]) fun hq r' hr' => ?_
        cases hhas : (p.shared.heap r).has q.member.user with
        | false => simp [JoinPc.admits, hhas] at hr'
        | true =>
          simp only [hhas] at hr'
          cases hr'
          refine .inl ?_
          by_contra hvis
          exact hv ⟨hold, hhas, Bool.eq_false_of_not_eq_true hvis, hq⟩
      · simp only [Prod.map, id_eq]
        split <;> exact seated_move ht (by simp [JoinPc.ref]) (by simp [JoinPc.admits])
    | settled r rejoin =>
      simp only [Thread.step, Thread.joinStep]
      split
      · exact seated_move ht (by simp [JoinPc.ref]) (by simp [JoinPc.admits])
      · next hfull =>
        refine seated_move ht (by simp [JoinPc.ref]) fun hq r' hr' => ?_
        cases hr'
        cases rejoin with
        | true => exact ht.2 hq r rfl
        | false =>
          rw [Bool.not_false, Bool.true_and] at hfull
          exact .inr (Room.seen_lt_of_not_full (hp.cap r) hq hfull)
    | admitted r rejoin =>
      simp only [Thread.step, Thread.joinStep]
      split
      · exact seated_move ht (by simp [JoinPc.ref]) fun hq r' hr' => ht.2 hq r' hr'
      · exact seated_move ht (by simp [JoinPc.ref]) (by simp [JoinPc.admits])
      · simp only [Prod.map, id_eq]
        split <;> exact seated_move ht (by simp [JoinPc.ref]) (by simp [JoinPc.admits])
    | seated r rejoin =>
      refine ⟨fun r' hr' => ?_, by simp [Thread.step, Thread.joinStep, JoinPc.admits]⟩
      cases hr'
      exact ht.1 r rfl
    | entered r =>
      simp only [Thread.step, Thread.joinStep, Prod.map, id_eq]
      split <;> exact seated_move ht (by simp [JoinPc.ref]) (by simp [JoinPc.admits])
    | rolling r => exact seated_returned _ q false
    | met r => exact seated_returned _ q o.answered
    | returned ok => exact seated_returned _ q ok
  | leave | sweep | destroy | create => trivial

theorem within_step {p : World} {a : Sched} (hp : Within p) (ha : program.machine.ok p a)
    (hc : OneByOne p a) : Within (program.next p a) := by
  have hthreads : ∀ t ∈ (program.next p a).threads, t.Seated (program.next p a).shared :=
    Program.laws_kept (fun _ _ => Contend.symm) ha hp.alone hp.threads
      (fun t ht => by cases t <;> cases ht <;> simp [Thread.Seated, JoinPc.ref, JoinPc.admits])
      (fun i o t e hi ht => by
        subst e
        exact seated_own hp ht (hc.2 t hi))
      (fun i o t u e hi ht hu hcl => seated_other hp hu hcl)
  cases a with
  | spawn t => exact ⟨hp.cap, hp.listed, hthreads, hc.1⟩
  | step i o =>
    cases hi : p.threads[i]? with
    | none =>
      rw [Program.next_step_none _ hi]
      exact hp
    | some t =>
      have ht := hp.threads t (List.mem_of_getElem? hi)
      have hmk := step_makes p.shared o t
      refine ⟨?_, ?_, hthreads, hc.1⟩
      · intro r
        rw [Program.next_step _ hi]
        refine change_seen (run_change _ _ r) (hp.cap r) fun m rejoin tok he hm => ?_
        rw [he] at hmk
        exact spare_of_enter ht hmk hm
      · rw [Program.next_step _ hi]
        exact listed_run hp.listed _

/-! ## The result -/

theorem within_start : Within World.start where
  cap r := by
    rw [World.start, Room.new_seen]
    exact Nat.zero_le _
  listed := by simp [World.start, Shared.Listed]
  threads := by simp [World.start]
  alone := List.Pairwise.nil

/-- **Capacity.** In every interleaving of joins, departures, sweeps, destructions and creations
in which visible joins of a room enter one by one and no rejoin unveils a hidden member, no room
has more visible members than its capacity. -/
theorem capacity_kept (as : List Sched)
    (hl : (program.machine.restrict OneByOne).Legal World.start as) (r : Ref) :
    ((program.machine.exec World.start as).shared.heap r).seen ≤
      ((program.machine.exec World.start as).shared.heap r).capacity.toNat := by
  have hinv : Within ((program.machine.restrict OneByOne).exec World.start as) :=
    Machine.invariant (M := program.machine.restrict OneByOne)
      (fun _ _ hp ha => within_step hp ha.1 ha.2) within_start hl
  rw [Machine.restrict_exec] at hinv
  exact hinv.cap r

/-- A room for one, and two users who want it. -/
def twoGuests : List Sched :=
  .spawn (.create { id := "r", capacity := 1 } 0 .start) :: through 0 4 ++
    [.spawn (.join { roomId := "r", member := { user := "a" } } .start),
      .spawn (.join { roomId := "r", member := { user := "b" } } .start)]

theorem capacity_kept_two_guests :
    (program.machine.restrict OneByOne).Legal World.start
      (twoGuests ++ through 1 8 ++ through 2 8) ∧
    ((program.machine.exec World.start
      (twoGuests ++ through 1 8 ++ through 2 8)).shared.heap ⟨"r", 0⟩).seen ≤
    ((program.machine.exec World.start
      (twoGuests ++ through 1 8 ++ through 2 8)).shared.heap ⟨"r", 0⟩).capacity.toNat :=
  ⟨by decide, capacity_kept _ (by decide) ⟨"r", 0⟩⟩

/-- The users of the joins in a run. -/
def guests (as : List Sched) : List String :=
  as.filterMap fun
    | .spawn (.join q _) => some q.member.user
    | _ => none

/-- Two joins of distinct users, both past the check before either enters. -/
theorem capacity_exceeded : ¬ ∀ (as : List Sched), program.machine.Legal World.start as →
    (guests as).Nodup → ∀ r : Ref, ((program.machine.exec World.start as).shared.heap r).seen ≤
      ((program.machine.exec World.start as).shared.heap r).capacity.toNat := by
  intro h
  have hle := h (twoGuests ++ through 1 5 ++ through 2 5 ++ through 1 3 ++ through 2 3) (by decide)
    (by decide) ⟨"r", 0⟩
  exact absurd hle (by decide)

end OxlensSfu.Rooms
