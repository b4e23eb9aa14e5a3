import OxlensSfu.Room.Threads

/-!
# Joins against the life of a room

A join looks its room up once and then works on the `Arc`. The sweep and an admin's destroy check
first and remove later, and nothing in a join looks at the closed flag, so the two can pass each
other.

Each thread is in the middle of something (`Hold`): a join of a user, the departure of one, the
removal of a room or its creation. Two of them may clash.

* **`join_lands`** — when no two clashing operations are ever in progress together, every join
  that returned is in a registered, open room with a floor clock, until a departure or removal
  begun later.
* **`join_lands_in_removed_room`** — the sweep decides to remove an empty room, a join enters it
  and returns, the sweep goes on.
-/

namespace OxlensSfu.Rooms

open Std

/-! ## Operations in progress -/

/-- What a thread is in the middle of. -/
inductive Hold where
  | idle
  /-- A join, and whether its old entry is at stake. -/
  | join (user id : String) (rejoin : Bool)
  | leave (user id : String)
  /-- The sweep found the room empty and has not asked for its time. -/
  | ask (id : String)
  | wreck (id : String)
  | make (id : String)
  deriving DecidableEq, Repr

namespace Hold

/-- A join keeps off its user's other operations in the room and the room's beginning and end, a
creation keeps off the room's end. -/
def bars : Hold → Hold → Bool
  | .join u id _, .join u' id' _ => u == u' && id == id'
  | .join u id _, .leave u' id' => u == u' && id == id'
  | .join _ id _, .ask id' | .join _ id _, .wreck id' | .join _ id _, .make id' => id == id'
  | .make id, .ask id' | .make id, .wreck id' => id == id'
  | _, _ => false

/-- The two cannot be in progress together. -/
def Clash (h k : Hold) : Prop := h.bars k = true ∨ k.bars h = true

instance : DecidableRel Clash := fun _ _ => inferInstanceAs (Decidable (_ ∨ _))

/-- It may end a membership that a finished join left behind. -/
def Ends : Hold → String → String → Prop
  | .join u id rejoin, u', id' => u = u' ∧ id = id' ∧ rejoin = true
  | .leave u id, u', id' => u = u' ∧ id = id'
  | .wreck id, _, id' => id = id'
  | .make id, _, id' => id = id'
  | _, _, _ => False

theorem Clash.symm {h k : Hold} (hc : h.Clash k) : k.Clash h := Or.symm hc

theorem not_ends {u id : String} {rejoin : Bool} {k : Hold}
    (hc : ¬ k.Clash (.join u id rejoin)) : ¬ k.Ends u id := by
  intro he
  refine hc (.inr ?_)
  cases k with
  | idle | ask => exact he.elim
  | join u' id' b => simp [bars, he.1, he.2.1]
  | leave u' id' => simp [bars, he.1, he.2]
  | wreck id' | make id' => simp [bars, show id' = id from he]

theorem ne_wreck {u id : String} {rejoin : Bool} {k : Hold}
    (hc : ¬ k.Clash (.join u id rejoin)) : k ≠ .wreck id := fun h => not_ends hc (by simp [h, Ends])

end Hold

/-- What a thread is in the middle of. -/
def Thread.hold : Thread → Hold
  | .join q pc =>
    match pc with
    | .start | .returned _ => .idle
    | .settled _ rejoin | .admitted _ rejoin | .seated _ rejoin =>
      .join q.member.user q.roomId rejoin
    | .rolling _ => .join q.member.user q.roomId true
    | .found _ | .asked _ | .entered _ | .met _ => .join q.member.user q.roomId false
  | .leave user roomId pc =>
    match pc with
    | .found _ => .leave user roomId
    | .start | .done => .idle
  | .sweep _ pc =>
    match pc with
    | .start | .todo _ => .idle
    | .asked r _ => .ask r.id
    | .wreck _ r _ => .wreck r.id
  | .destroy roomId pc =>
    match pc with
    | .start | .done => .idle
    | .found _ | .agreed _ | .emptying .. | .removing .. | .wreck .. => .wreck roomId
  | .create i _ pc =>
    match pc with
    | .start | .done => .idle
    | .absent | .listed | .clockless => .make i.id

def Clash (t u : Thread) : Prop := t.hold.Clash u.hold

instance : DecidableRel Clash := fun t u => inferInstanceAs (Decidable (t.hold.Clash u.hold))

/-- No two clashing operations are in progress after the step. -/
def Orderly (p : World) (a : Sched) : Prop := Program.Apart Clash (program.next p a).threads

instance (p : World) (a : Sched) : Decidable (Orderly p a) :=
  inferInstanceAs (Decidable (Program.Apart _ _))

/-! ## What a join is owed -/

/-- The user and room of the joins that returned, until a departure, an eviction or a removal
begun since. -/
abbrev Owed := List (String × String)

def record (owed : Owed) (p : World) : Sched → Owed
  | .spawn _ => owed
  | .step i o =>
    match p.threads[i]? with
    | some (.join q (.met _)) => if o.answered then (q.member.user, q.roomId) :: owed else owed
    | some (.join q (.asked _)) =>
      if o.old = .kept then owed.filter (· ≠ (q.member.user, q.roomId)) else owed
    | some (.leave user roomId .start) => owed.filter (· ≠ (user, roomId))
    | some (.sweep now (.asked r _)) =>
      if ((p.shared.heap r).ttlDue now).1 then owed.filter (·.2 ≠ r.id) else owed
    | some (.destroy roomId .start) => owed.filter (·.2 ≠ roomId)
    | _ => owed

/-- The user is in a registered, open room of that id, and its floor clock exists. -/
def Lands (w : Shared) (user id : String) : Prop :=
  ∃ r, w.map[id]? = some r ∧ (w.heap r).has user = true ∧ (w.heap r).st.closed = false ∧
    id ∈ w.clocks

/-! ## The laws -/

/-- What a thread may count on while nothing that clashes with it is in progress. -/
def Thread.Sure (w : Shared) : Thread → Prop
  | .join q pc =>
    match pc with
    | .start | .returned _ => True
    | .found r | .asked r | .settled r _ | .admitted r _ | .rolling r | .seated r _ =>
      w.map[q.roomId]? = some r
    | .entered r | .met r =>
      w.map[q.roomId]? = some r ∧ (w.heap r).has q.member.user = true
  | .leave _ roomId pc =>
    match pc with
    | .found r => r.id = roomId
    | .start | .done => True
  | .sweep _ pc =>
    match pc with
    | .wreck .unlisted r _ => w.map[r.id]? = none
    | _ => True
  | .destroy roomId pc =>
    match pc with
    | .start | .done => True
    | .found r | .agreed r | .emptying r _ => r.id = roomId
    | .removing r r' _ _ => r.id = roomId ∧ r'.id = roomId
    | .wreck p r => r.id = roomId ∧ (p = .unlisted → w.map[r.id]? = none)
  | .create i _ pc =>
    match pc with
    | .start | .done => True
    | .absent | .listed | .clockless =>
      ∀ r, w.map[i.id]? = some r → (w.heap r).st.closed = false

/-- The id whose room is half removed or half made. -/
def Thread.broken : Thread → Option String
  | .sweep _ (.wreck .closed r _) | .sweep _ (.wreck .unlisted r _)
  | .destroy _ (.wreck .closed r) | .destroy _ (.wreck .unlisted r) => some r.id
  | .create i _ .listed | .create i _ .clockless => some i.id
  | _ => none

structure Alive (p : World) (owed : Owed) : Prop where
  listed : p.shared.Listed
  sure : ∀ t ∈ p.threads, t.Sure p.shared
  fit : ∀ (id : String) (r : Ref), p.shared.map[id]? = some r →
    (∀ t ∈ p.threads, t.broken ≠ some id) →
      (p.shared.heap r).st.closed = false ∧ id ∈ p.shared.clocks
  owed : ∀ u id, (u, id) ∈ owed →
    (∃ r, p.shared.map[id]? = some r ∧ (p.shared.heap r).has u = true) ∧
      ∀ t ∈ p.threads, ¬ t.hold.Ends u id
  apart : Program.Apart Clash p.threads

/-! ## Who may make which effect -/

/-- What a thread must be in the middle of to make the effect. -/
def Right (h : Hold) : Effect → Prop
  | .remove r u => h = .leave u r.id ∨ h = .wreck r.id ∨ h = .join u r.id true
  | .close r => h = .wreck r.id
  | .unlist id => h = .wreck id
  | .closeClock id => h = .wreck id
  | .list i _ => h = .make i.id
  | .openClock id => h = .make id
  | .none | .enter .. | .ttlDue .. => True

theorem right_of_makes {w : Shared} {t : Thread} {e : Effect}
    (hw : w.Listed)
    (ht : t.Sure w) (h : Makes t e) : Right t.hold e := by
  cases h with
  | none | enter | ttlDue => trivial
  | rollback q r =>
    have hid : r.id = q.roomId := (hw _ r ht).1
    exact .inr (.inr (by rw [hid]; rfl))
  | leave user roomId r =>
    have hid : r.id = roomId := ht
    exact .inl (by rw [hid]; rfl)
  | sweepClose | sweepUnlist | sweepClock => rfl
  | clear roomId r u us =>
    have hid : r.id = roomId := ht
    exact .inr (.inl (by rw [hid]; rfl))
  | remove roomId r r' u us =>
    have hid : r'.id = roomId := ht.2
    exact .inr (.inl (by rw [hid]; rfl))
  | destroyClose roomId r | destroyUnlist roomId r | destroyClock roomId r =>
    have hid : r.id = roomId := ht.1
    show Hold.wreck roomId = _
    rw [hid]
  | list | openClock => rfl

/-! ## What an effect leaves alone -/

section frame

variable {w : Shared} {h : Hold} {e : Effect} {id : String} {r : Ref}

theorem map_kept (hr : Right h e) (hh : h ≠ .wreck id) (hm : w.map[id]? = some r) :
    (w.run e).map[id]? = some r := by
  cases e with
  | unlist id' =>
    have hne : id' ≠ id := fun e => hh (e ▸ hr)
    rw [Shared.run, TreeMap.getElem?_erase, if_neg (by simpa using hne)]
    exact hm
  | list i now =>
    have hmem : id ∈ w.map := TreeMap.mem_iff_isSome_getElem?.2 (by simp [hm])
    rw [Shared.run, TreeMap.getElem?_insertIfNew, if_neg]
    · exact hm
    · rintro ⟨hcmp, hno⟩
      rw [Std.compare_eq_iff_eq] at hcmp
      exact hno (hcmp ▸ hmem)
  | none | enter | remove | ttlDue | close | openClock | closeClock => exact hm

theorem map_none_kept (hr : Right h e) (hh : h ≠ .make id) (hm : w.map[id]? = none) :
    (w.run e).map[id]? = none := by
  cases e with
  | unlist id' =>
    rw [Shared.run, TreeMap.getElem?_erase]
    split
    · rfl
    · exact hm
  | list i now =>
    have hne : i.id ≠ id := fun e => hh (e ▸ hr)
    rw [Shared.run, TreeMap.getElem?_insertIfNew, if_neg]
    · exact hm
    · simp [hne]
  | none | enter | remove | ttlDue | close | openClock | closeClock => exact hm

theorem has_kept {u : String} (hr : Right h e) (hh : ¬ h.Ends u r.id) (hgen : r.gen < w.born)
    (hm : (w.heap r).has u = true) : ((w.run e).heap r).has u = true := by
  have hc := run_change w e r
  rw [Room.has_eq] at hm ⊢
  generalize (w.run e).heap r = room at hc
  cases hc with
  | keep => exact hm
  | enter m rejoin tok he =>
    rw [Room.join_member]
    split
    · rfl
    · exact hm
  | remove x he =>
    subst he
    rw [Room.remove_member, if_neg]
    · exact hm
    · rintro rfl
      rcases hr with rfl | rfl | rfl
      · exact hh ⟨rfl, rfl⟩
      · exact hh rfl
      · exact hh ⟨rfl, rfl, rfl⟩
  | ttlDue now he => rwa [Room.ttlDue_member]
  | close he => exact hm
  | new i now he hid =>
    subst hid
    exact absurd hgen (Nat.lt_irrefl _)

theorem closed_kept (hr : Right h e) (hh : h ≠ .wreck r.id)
    (hm : (w.heap r).st.closed = false) : ((w.run e).heap r).st.closed = false := by
  have hc := run_change w e r
  generalize (w.run e).heap r = room at hc
  cases hc with
  | keep => exact hm
  | enter m rejoin tok he => rwa [Room.join_closed]
  | remove x he => exact hm
  | ttlDue now he => rwa [Room.ttlDue_closed]
  | close he =>
    subst he
    exact absurd hr hh
  | new i now he hid => rfl

end frame

/-! ## The laws of the threads are kept -/

/-- No thread upsets what a thread it does not clash with counts on. -/
theorem sure_other {w : Shared} {h : Hold} {e : Effect} {t : Thread} (hw : w.Listed)
    (hr : Right h e) (hc : ¬ h.Clash t.hold) (ht : t.Sure w) : t.Sure (w.run e) := by
  cases t with
  | join q pc =>
    cases pc with
    | start | returned => trivial
    | found | asked | settled | admitted | rolling | seated =>
      exact map_kept hr (Hold.ne_wreck hc) ht
    | entered r | met r =>
      obtain ⟨hm, hu⟩ := ht
      obtain ⟨hid, hgen⟩ := hw _ r hm
      exact ⟨map_kept hr (Hold.ne_wreck hc) hm, has_kept hr (hid ▸ Hold.not_ends hc) hgen hu⟩
  | leave user roomId pc => exact ht
  | sweep now pc =>
    cases pc with
    | start | todo | asked => trivial
    | wreck p r rs =>
      cases p with
      | due | closed => trivial
      | unlisted =>
        refine map_none_kept hr (fun e => hc ?_) ht
        simp [e, Thread.hold, Hold.Clash, Hold.bars]
  | destroy roomId pc =>
    cases pc with
    | start | done => trivial
    | found | agreed | emptying | removing => exact ht
    | wreck p r =>
      refine ⟨ht.1, fun hp => map_none_kept hr (fun e => hc ?_) (ht.2 hp)⟩
      simp [e, Thread.hold, Hold.Clash, Hold.bars, ht.1]
  | create i now pc =>
    have hkept : (∀ r, w.map[i.id]? = some r → (w.heap r).st.closed = false) →
        ¬ h.Clash (.make i.id) →
        ∀ r, (w.run e).map[i.id]? = some r → ((w.run e).heap r).st.closed = false := by
      intro ho hc' r hm
      rcases map_origin hm with hm | ⟨j, at', rfl, -, rfl⟩
      · refine closed_kept hr (fun e => hc' ?_) (ho r hm)
        simp [e, Hold.Clash, Hold.bars, (hw _ r hm).1]
      · show (Function.update w.heap _ _ _).st.closed = false
        rw [Function.update_self]
        rfl
    cases pc with
    | start | done => trivial
    | absent | listed | clockless => exact hkept ht hc

section Own

variable {w : Shared} {o : Outcome}

theorem sure_join {q : JoinReq} {pc : JoinPc}
    (ht : (Thread.join q pc).Sure w) :
    ((Thread.join q pc).step w o).2.Sure (w.run ((Thread.join q pc).step w o).1) := by
  cases pc with
  | start =>
    simp only [Thread.step, Thread.joinStep]
    split
    · trivial
    · next r hm => exact hm
  | found r =>
    simp only [Thread.step, Thread.joinStep]
    split
    · trivial
    · exact ht
  | asked r =>
    simp only [Thread.step, Thread.joinStep]
    split
    · exact ht
    · exact ht
    · simp only [Prod.map, id_eq]
      split
      · next hu => exact ⟨ht, hu⟩
      · trivial
  | settled r rejoin =>
    simp only [Thread.step, Thread.joinStep]
    split
    · trivial
    · exact ht
  | admitted r rejoin =>
    simp only [Thread.step, Thread.joinStep]
    split
    · exact ht
    · trivial
    · simp only [Prod.map, id_eq]
      split
      · exact ht
      · trivial
  | rolling r => trivial
  | seated r rejoin =>
    refine ⟨ht, ?_⟩
    show ((w.modify r fun room => (room.join q.member rejoin q.tok).2).heap r).has _ = true
    rw [modify_heap, if_pos rfl, Room.has_eq, Room.join_member, if_pos rfl]
    rfl
  | entered r =>
    simp only [Thread.step, Thread.joinStep, Prod.map, id_eq]
    split
    · exact ht
    · trivial
  | met r => trivial
  | returned ok => trivial

theorem sure_leave {user roomId : String} {pc : LeavePc}
    (hw : w.Listed) (ht : (Thread.leave user roomId pc).Sure w) :
    ((Thread.leave user roomId pc).step w o).2.Sure
      (w.run ((Thread.leave user roomId pc).step w o).1) := by
  cases pc with
  | start =>
    simp only [Thread.step, Thread.leaveStep]
    split
    · trivial
    · next r hm => exact (hw roomId r hm).1
  | found r => trivial
  | done => trivial

theorem sure_sweep {now : Nat} {pc : SweepPc}
    (ht : (Thread.sweep now pc).Sure w) :
    ((Thread.sweep now pc).step w o).2.Sure (w.run ((Thread.sweep now pc).step w o).1) := by
  cases pc with
  | start => trivial
  | todo rs =>
    cases rs with
    | nil => trivial
    | cons r rs =>
      simp only [Thread.step, Thread.sweepStep, Prod.map, id_eq]
      split <;> trivial
  | asked r rs =>
    simp only [Thread.step, Thread.sweepStep, Prod.map, id_eq]
    split <;> trivial
  | wreck p r rs =>
    cases p with
    | due => trivial
    | closed => exact TreeMap.getElem?_erase_self
    | unlisted => trivial

theorem sure_destroy {roomId : String} {pc : DestroyPc}
    (hw : w.Listed) (ht : (Thread.destroy roomId pc).Sure w) :
    ((Thread.destroy roomId pc).step w o).2.Sure
      (w.run ((Thread.destroy roomId pc).step w o).1) := by
  cases pc with
  | start =>
    simp only [Thread.step, Thread.destroyStep]
    split
    · trivial
    · next r hm => exact (hw roomId r hm).1
  | found r =>
    simp only [Thread.step, Thread.destroyStep, Prod.map, id_eq]
    split
    · exact ht
    · trivial
  | agreed r => exact ht
  | emptying r us =>
    cases us with
    | nil => exact ⟨ht, by simp⟩
    | cons u us =>
      simp only [Thread.step, Thread.destroyStep]
      split
      · split
        · exact ht
        · next r' hm => exact ⟨ht, (hw roomId r' hm).1⟩
      · exact ht
  | removing r r' u us => exact ht.1
  | wreck p r =>
    cases p with
    | due => exact ⟨ht.1, by simp⟩
    | closed => exact ⟨ht.1, fun _ => TreeMap.getElem?_erase_self⟩
    | unlisted => trivial
  | done => trivial

theorem sure_create {i : RoomInit} {now : Nat} {pc : CreatePc}
    (hw : w.Listed) (ht : (Thread.create i now pc).Sure w) :
    ((Thread.create i now pc).step w o).2.Sure
      (w.run ((Thread.create i now pc).step w o).1) := by
  cases pc with
  | start =>
    simp only [Thread.step, Thread.createStep, Prod.map, id_eq]
    split
    · trivial
    · next hno =>
      intro r hm
      have hm' : w.map[i.id]? = some r := hm
      rw [TreeMap.contains_eq_isSome_getElem?, hm'] at hno
      exact absurd rfl hno
  | absent =>
    intro r hm
    rcases map_origin hm with hm | ⟨j, at', e, -, rfl⟩
    · have hne : r ≠ ⟨i.id, w.born⟩ := fun e => by simpa [e] using (hw _ r hm).2
      show (Function.update w.heap _ _ r).st.closed = false
      rw [Function.update_of_ne hne]
      exact ht r hm
    · cases e
      show (Function.update w.heap _ _ _).st.closed = false
      rw [Function.update_self]
      rfl
  | listed =>
    simp only [Thread.step, Thread.createStep, Prod.map, id_eq]
    split
    · trivial
    · exact ht
  | clockless => trivial
  | done => trivial

/-- A step gives its own thread what it counts on next. -/
theorem sure_own {t : Thread} (hw : w.Listed) (ht : t.Sure w) :
    (t.step w o).2.Sure (w.run (t.step w o).1) := by
  cases t with
  | join q pc => exact sure_join ht
  | leave user roomId pc => exact sure_leave hw ht
  | sweep now pc => exact sure_sweep ht
  | destroy roomId pc => exact sure_destroy hw ht
  | create i now pc => exact sure_create hw ht

end Own

/-! ## Registered rooms are fit -/

/-- The id whose room the effect begins or ends. -/
def Effect.touches : Effect → Option String
  | .close r => some r.id
  | .unlist id | .closeClock id => some id
  | .list i _ => some i.id
  | .none | .enter .. | .remove .. | .ttlDue .. | .openClock _ => Option.none

/-- Such effects are made on the way into or out of a broken state. -/
theorem broken_of_touches {w : Shared} {o : Outcome} {t : Thread} {id : String}
    (h : (t.step w o).1.touches = some id) :
    t.broken = some id ∨ (t.step w o).2.broken = some id := by
  have hmk := step_makes w o t
  generalize (t.step w o).1 = e at h hmk
  cases hmk with
  | none | enter | rollback | leave | ttlDue | clear | remove | openClock => cases h
  | sweepClose | destroyClose | list => exact .inr h
  | sweepUnlist | sweepClock | destroyUnlist | destroyClock => exact .inl h

theorem fit_untouched {w : Shared} {e : Effect} {id : String} {r : Ref} (hw : w.Listed)
    (he : e.touches ≠ some id) (hm : (w.run e).map[id]? = some r) :
    w.map[id]? = some r ∧ ((w.heap r).st.closed = false ∧ id ∈ w.clocks →
      ((w.run e).heap r).st.closed = false ∧ id ∈ (w.run e).clocks) := by
  rcases map_origin hm with hm' | ⟨i, now, rfl, hid, -⟩
  · refine ⟨hm', fun ⟨hcl, hck⟩ => ⟨?_, ?_⟩⟩
    · have hc := run_change w e r
      generalize (w.run e).heap r = room at hc
      cases hc with
      | keep => exact hcl
      | enter m rejoin tok h => rwa [Room.join_closed]
      | remove x h => exact hcl
      | ttlDue now h => rwa [Room.ttlDue_closed]
      | close h =>
        subst h
        exact absurd (congrArg some (hw id r hm').1) he
      | new i now h hr => rfl
    · cases e with
      | openClock id' =>
        rw [Shared.run, TreeSet.mem_insert]
        exact .inr hck
      | closeClock id' =>
        have hne : id' ≠ id := fun h => he (congrArg some h)
        rw [Shared.run, TreeSet.mem_erase]
        exact ⟨by simpa using hne, hck⟩
      | none | enter | remove | ttlDue | close | unlist | list => exact hck
  · exact absurd (congrArg some hid) he

/-- A thread stops being in the way of an id only by leaving its room fit, or gone. -/
theorem fit_own {w : Shared} {o : Outcome} {t : Thread} {id : String} {r : Ref}
    (ht : t.Sure w) (hb : t.broken = some id) (hb' : (t.step w o).2.broken ≠ some id)
    (hm : (w.run (t.step w o).1).map[id]? = some r) :
    ((w.run (t.step w o).1).heap r).st.closed = false ∧ id ∈ (w.run (t.step w o).1).clocks := by
  unfold Thread.broken at hb
  split at hb
  · exact absurd hb hb'
  · cases hb
    exact absurd (hm.symm.trans (show _ = none from ht)) (by simp)
  · exact absurd hb hb'
  · cases hb
    exact absurd (hm.symm.trans (show _ = none from ht.2 rfl)) (by simp)
  · next i now =>
    cases hb
    simp only [Thread.step, Thread.createStep, Prod.map, id_eq] at hb' hm ⊢
    split at hb'
    · next hck => exact ⟨ht r hm, TreeSet.mem_iff_contains.2 hck⟩
    · exact absurd rfl hb'
  · next i now =>
    cases hb
    exact ⟨ht r hm, TreeSet.mem_insert_self⟩
  · cases hb

theorem fit_step {p : World} {owed : Owed} (hp : Alive p owed) {i : Nat} {o : Outcome} {t : Thread}
    (hi : p.threads[i]? = some t) {id : String} {r : Ref}
    (hm : (p.shared.run (t.step p.shared o).1).map[id]? = some r)
    (hb : ∀ u ∈ p.threads.set i (t.step p.shared o).2, u.broken ≠ some id) :
    ((p.shared.run (t.step p.shared o).1).heap r).st.closed = false ∧
      id ∈ (p.shared.run (t.step p.shared o).1).clocks := by
  have hlt := (List.getElem?_eq_some_iff.1 hi).1
  have hb' : (t.step p.shared o).2.broken ≠ some id := hb _ (List.mem_set hlt _)
  by_cases hbt : t.broken = some id
  · exact fit_own (hp.sure t (List.mem_of_getElem? hi)) hbt hb' hm
  · have he : (t.step p.shared o).1.touches ≠ some id := fun h =>
      (broken_of_touches h).elim hbt hb'
    obtain ⟨hm', hfit⟩ := fit_untouched hp.listed he hm
    refine hfit (hp.fit id r hm' fun u hu => ?_)
    obtain ⟨j, hj⟩ := List.mem_iff_getElem?.1 hu
    by_cases hij : i = j
    · subst hij
      rw [hi] at hj
      cases hj
      exact hbt
    · refine hb u (List.mem_of_getElem? (i := j) ?_)
      rw [List.getElem?_set_ne hij]
      exact hj

/-! ## What is owed is kept -/

/-- The step begins something that may end the membership of `u` in `id`. -/
inductive Turns (w : Shared) (o : Outcome) : Thread → String → String → Prop
  | evict (q : JoinReq) (r : Ref) (h : o.old = .kept) :
      Turns w o (.join q (.asked r)) q.member.user q.roomId
  | leave (user roomId : String) : Turns w o (.leave user roomId .start) user roomId
  | sweep (now : Nat) (r : Ref) (rs : List Ref) (u : String)
      (h : ((w.heap r).ttlDue now).1 = true) : Turns w o (.sweep now (.asked r rs)) u r.id
  | destroy (roomId u : String) : Turns w o (.destroy roomId .start) u roomId
  | create (i : RoomInit) (now : Nat) (u : String) (h : w.map[i.id]? = none) :
      Turns w o (.create i now .start) u i.id

section Ends

variable {w : Shared} {o : Outcome} {u id : String}

theorem ends_join {q : JoinReq} {pc : JoinPc}
    (h : ((Thread.join q pc).step w o).2.hold.Ends u id) :
    (Thread.join q pc).hold.Ends u id ∨ Turns w o (Thread.join q pc) u id := by
  cases pc with
  | start =>
    simp only [Thread.step, Thread.joinStep] at h
    split at h
    · exact h.elim
    · cases h.2.2
  | found r =>
    simp only [Thread.step, Thread.joinStep] at h
    split at h
    · exact h.elim
    · cases h.2.2
  | asked r =>
    simp only [Thread.step, Thread.joinStep] at h
    split at h
    · cases h.2.2
    · next ho =>
      obtain ⟨rfl, rfl, -⟩ := h
      exact .inr (.evict q r ho)
    · simp only [Prod.map, id_eq] at h
      split at h
      · cases h.2.2
      · exact h.elim
  | settled r rejoin =>
    simp only [Thread.step, Thread.joinStep] at h
    split at h
    · exact h.elim
    · exact .inl h
  | admitted r rejoin =>
    simp only [Thread.step, Thread.joinStep] at h
    split at h
    · exact .inl h
    · exact h.elim
    · simp only [Prod.map, id_eq] at h
      split at h
      · next hr => exact .inl ⟨h.1, h.2.1, hr⟩
      · exact h.elim
  | rolling r => exact h.elim
  | seated r rejoin => cases h.2.2
  | entered r =>
    simp only [Thread.step, Thread.joinStep, Prod.map, id_eq] at h
    split at h
    · cases h.2.2
    · exact h.elim
  | met r => exact h.elim
  | returned ok => exact h.elim

theorem ends_leave {user roomId : String} {pc : LeavePc}
    (h : ((Thread.leave user roomId pc).step w o).2.hold.Ends u id) :
    (Thread.leave user roomId pc).hold.Ends u id ∨
      Turns w o (Thread.leave user roomId pc) u id := by
  cases pc with
  | start =>
    simp only [Thread.step, Thread.leaveStep] at h
    split at h
    · exact h.elim
    · obtain ⟨rfl, rfl⟩ := h
      exact .inr (.leave user roomId)
  | found r => exact h.elim
  | done => exact h.elim

theorem ends_sweep {now : Nat} {pc : SweepPc}
    (h : ((Thread.sweep now pc).step w o).2.hold.Ends u id) :
    (Thread.sweep now pc).hold.Ends u id ∨ Turns w o (Thread.sweep now pc) u id := by
  cases pc with
  | start => exact h.elim
  | todo rs =>
    cases rs with
    | nil => exact h.elim
    | cons r rs =>
      simp only [Thread.step, Thread.sweepStep, Prod.map, id_eq] at h
      split at h <;> exact h.elim
  | asked r rs =>
    simp only [Thread.step, Thread.sweepStep, Prod.map, id_eq] at h
    split at h
    · next hdue =>
      have hid : r.id = id := h
      subst hid
      exact .inr (.sweep now r rs u hdue)
    · exact h.elim
  | wreck p r rs =>
    cases p with
    | due | closed => exact .inl h
    | unlisted => exact h.elim

theorem ends_destroy {roomId : String} {pc : DestroyPc}
    (h : ((Thread.destroy roomId pc).step w o).2.hold.Ends u id) :
    (Thread.destroy roomId pc).hold.Ends u id ∨
      Turns w o (Thread.destroy roomId pc) u id := by
  cases pc with
  | start =>
    simp only [Thread.step, Thread.destroyStep] at h
    split at h
    · exact h.elim
    · have hid : roomId = id := h
      subst hid
      exact .inr (.destroy roomId u)
  | found r =>
    simp only [Thread.step, Thread.destroyStep, Prod.map, id_eq] at h
    split at h
    · exact .inl h
    · exact h.elim
  | agreed r => exact .inl h
  | emptying r us =>
    refine .inl ?_
    cases us with
    | nil => exact h
    | cons x us =>
      simp only [Thread.step, Thread.destroyStep] at h
      split at h
      · split at h <;> exact h
      · exact h
  | removing r r' x us => exact .inl h
  | wreck p r =>
    cases p with
    | due | closed => exact .inl h
    | unlisted => exact h.elim
  | done => exact h.elim

theorem ends_create {i : RoomInit} {now : Nat} {pc : CreatePc}
    (h : ((Thread.create i now pc).step w o).2.hold.Ends u id) :
    (Thread.create i now pc).hold.Ends u id ∨
      Turns w o (Thread.create i now pc) u id := by
  cases pc with
  | start =>
    simp only [Thread.step, Thread.createStep, Prod.map, id_eq] at h
    split at h
    · exact h.elim
    · next hno =>
      have hid : i.id = id := h
      subst hid
      rw [TreeMap.contains_eq_isSome_getElem?, Option.not_isSome_iff_eq_none] at hno
      exact .inr (.create i now u hno)
  | absent => exact .inl h
  | listed =>
    simp only [Thread.step, Thread.createStep, Prod.map, id_eq] at h
    split at h
    · exact h.elim
    · exact .inl h
  | clockless => exact h.elim
  | done => exact h.elim

/-- Only a step that begins it puts a thread in a position to end a membership. -/
theorem ends_step {t : Thread} (h : (t.step w o).2.hold.Ends u id) :
    t.hold.Ends u id ∨ Turns w o t u id := by
  cases t with
  | join q pc => exact ends_join h
  | leave user roomId pc => exact ends_leave h
  | sweep now pc => exact ends_sweep h
  | destroy roomId pc => exact ends_destroy h
  | create i now pc => exact ends_create h

end Ends

/-- What turns on a debt strikes it from the record; no room is made under an id that is
registered. -/
theorem not_turns {p : World} {owed : Owed} {i : Nat} {o : Outcome} {t : Thread} {u id : String}
    {r : Ref} (hi : p.threads[i]? = some t) (hm : p.shared.map[id]? = some r)
    (hu : (u, id) ∈ record owed p (.step i o)) : ¬ Turns p.shared o t u id := by
  intro h
  cases h with
  | evict q r' ho => simp [record, hi, ho] at hu
  | leave user roomId => simp [record, hi] at hu
  | sweep now r' rs _ hdue => simp [record, hi, hdue] at hu
  | destroy roomId _ => simp [record, hi] at hu
  | create j now _ hno =>
    rw [hm] at hno
    cases hno

/-- The record grows by the join that returns. -/
theorem mem_record {p : World} {owed : Owed} {i : Nat} {o : Outcome} {t : Thread} {u id : String}
    (hi : p.threads[i]? = some t) (hu : (u, id) ∈ record owed p (.step i o)) :
    (u, id) ∈ owed ∨ ∃ q r, t = .join q (.met r) ∧ u = q.member.user ∧ id = q.roomId := by
  simp only [record, hi] at hu
  split at hu
  · next q r e =>
    cases e
    split at hu
    · rcases List.mem_cons.1 hu with h | h
      · cases h
        exact .inr ⟨q, r, rfl, rfl, rfl⟩
      · exact .inl h
    · exact .inl hu
  · split at hu
    · exact .inl (List.mem_of_mem_filter hu)
    · exact .inl hu
  · exact .inl (List.mem_of_mem_filter hu)
  · split at hu
    · exact .inl (List.mem_of_mem_filter hu)
    · exact .inl hu
  · exact .inl (List.mem_of_mem_filter hu)
  · exact .inl hu

theorem owed_step {p : World} {owed : Owed} (hp : Alive p owed) {i : Nat} {o : Outcome}
    {t : Thread} (hi : p.threads[i]? = some t) {u id : String}
    (hu : (u, id) ∈ record owed p (.step i o)) :
    (∃ r, (p.shared.run (t.step p.shared o).1).map[id]? = some r ∧
      ((p.shared.run (t.step p.shared o).1).heap r).has u = true) ∧
      ∀ x ∈ p.threads.set i (t.step p.shared o).2, ¬ x.hold.Ends u id := by
  have htp := List.mem_of_getElem? hi
  have hsure := hp.sure t htp
  rcases mem_record hi hu with hold | ⟨q, r, rfl, rfl, rfl⟩
  · obtain ⟨⟨r, hm, hr⟩, hends⟩ := hp.owed u id hold
    obtain ⟨hid, hgen⟩ := hp.listed id r hm
    have hright := right_of_makes hp.listed hsure (step_makes p.shared o t)
    have hne : t.hold ≠ .wreck id := fun e => hends t htp (by simp [e, Hold.Ends])
    refine ⟨⟨r, map_kept hright hne hm, has_kept hright (hid ▸ hends t htp) hgen hr⟩, ?_⟩
    intro x hx
    rcases Program.mem_set_cases hi hx with rfl | ⟨j, -, hj⟩
    · intro he
      exact (ends_step he).elim (hends t htp) (not_turns hi hm hu)
    · exact hends x (List.mem_of_getElem? hj)
  · refine ⟨⟨r, hsure.1, hsure.2⟩, ?_⟩
    intro x hx
    rcases Program.mem_set_cases hi hx with rfl | ⟨j, hj, hjx⟩
    · exact not_false
    · have hc := hp.apart.of_ne (fun _ _ h => Hold.Clash.symm h) hj hi hjx
      exact Hold.not_ends fun h => hc (Hold.Clash.symm h)

/-- **The step lemma.** -/
theorem alive_step {p : World} {owed : Owed} {a : Sched} (hp : Alive p owed)
    (ha : program.machine.ok p a) (hc : Orderly p a) :
    Alive (program.next p a) (record owed p a) := by
  have hsure : ∀ t ∈ (program.next p a).threads, t.Sure (program.next p a).shared :=
    Program.laws_kept (fun _ _ h => Hold.Clash.symm h) ha hp.apart hp.sure
      (fun t ht => by cases t <;> cases ht <;> trivial)
      (fun i o t _ _ ht => sure_own hp.listed ht)
      (fun i o t u _ _ ht hu hcl =>
        sure_other hp.listed (right_of_makes hp.listed ht (step_makes _ o t)) hcl hu)
  cases a with
  | spawn t =>
    have hidle : t.hold = .idle := by
      cases t <;> cases (show _ = _ from ha) <;> rfl
    refine ⟨hp.listed, hsure, ?_, ?_, hc⟩
    · intro id r hm hb
      exact hp.fit id r hm fun x hx => hb x (List.mem_append_left _ hx)
    · intro u id hu
      obtain ⟨hr, hends⟩ := hp.owed u id hu
      refine ⟨hr, fun x hx => ?_⟩
      rcases List.mem_append.1 hx with h | h
      · exact hends x h
      · rw [List.mem_singleton.1 h, hidle]
        exact not_false
  | step i o =>
    cases hi : p.threads[i]? with
    | none =>
      have hrec : record owed p (.step i o) = owed := by simp [record, hi]
      rw [Program.next_step_none _ hi, hrec]
      exact hp
    | some t =>
      rw [Orderly] at hc
      rw [Program.next_step _ hi] at hsure hc ⊢
      exact ⟨listed_run hp.listed _, hsure, fun id r => fit_step hp hi,
        fun u id => owed_step hp hi, hc⟩

/-! ## The result -/

theorem alive_start : Alive World.start [] where
  listed := by simp [World.start, Shared.Listed]
  sure := by simp [World.start]
  fit := by simp [World.start]
  owed := by simp
  apart := List.Pairwise.nil

theorem broken_ends {t : Thread} {u id : String} {w : Shared} (ht : t.Sure w)
    (h : t.broken = some id) : t.hold.Ends u id := by
  unfold Thread.broken at h
  split at h
  · cases h; rfl
  · cases h; rfl
  · cases h; exact ht.1.symm
  · cases h; exact ht.1.symm
  · cases h; rfl
  · cases h; rfl
  · cases h

/-- The threads with the record of what their joins are owed. -/
def ledger : Machine (World × Owed) Sched := program.machine.logged record

instance (s : World × Owed) (a : Sched) : Decidable (ledger.ok s a) :=
  inferInstanceAs (Decidable (program.machine.ok s.1 a))

/-- **A join lands in a live room.** In every interleaving of joins, departures, sweeps,
destructions and creations in which no two clashing operations are in progress together, a user
whose join returned is in a registered, open room of that id with a floor clock, until a
departure, an eviction or a removal begun after the return. -/
theorem join_lands (as : List Sched)
    (hl : (ledger.restrict fun s a => Orderly s.1 a).Legal (World.start, []) as) :
    ∀ u id, (u, id) ∈ (ledger.exec (World.start, []) as).2 →
      Lands (ledger.exec (World.start, []) as).1.shared u id := by
  have hinv := Machine.invariant (M := ledger.restrict fun s a => Orderly s.1 a)
    (I := fun s => Alive s.1 s.2) (fun s a hs ha => alive_step hs ha.1 ha.2) alive_start hl
  rw [Machine.restrict_exec] at hinv
  intro u id hu
  obtain ⟨⟨r, hm, hr⟩, hends⟩ := hinv.owed u id hu
  have hfit := hinv.fit id r hm fun t ht hb => hends t ht (broken_ends (hinv.sure t ht) hb)
  exact ⟨r, hm, hr, hfit⟩

/-- A room kept for a minute after its creation, a join that has looked it up, and the sweep a
minute later. -/
def minuteRoom : List Sched :=
  .spawn (.create { id := "r", capacity := 8, unusedTtl := 60 } 0 .start) :: through 0 4 ++
    [.spawn (.join { roomId := "r", member := { user := "a" } } .start),
      .spawn (.sweep 60000 .start)]

theorem join_lands_before_sweep :
    (ledger.restrict fun s a => Orderly s.1 a).Legal (World.start, [])
      (minuteRoom ++ through 1 8 ++ through 2 4) ∧
    ("a", "r") ∈ (ledger.exec (World.start, []) (minuteRoom ++ through 1 8 ++ through 2 4)).2 ∧
    Lands (ledger.exec (World.start, [])
      (minuteRoom ++ through 1 8 ++ through 2 4)).1.shared "a" "r" :=
  ⟨by decide, by decide, join_lands _ (by decide) "a" "r" (by decide)⟩

/-- The sweep finds the room empty and due, the join enters it and returns, and the sweep removes
it with its new member inside. -/
theorem join_lands_in_removed_room : ¬ ∀ as : List Sched, ledger.Legal (World.start, []) as →
    ∀ u id, (u, id) ∈ (ledger.exec (World.start, []) as).2 →
      Lands (ledger.exec (World.start, []) as).1.shared u id := by
  intro h
  obtain ⟨r, hm, -⟩ := h (minuteRoom ++ through 1 1 ++ through 2 3 ++ through 1 7 ++ through 2 3)
    (by decide) "a" "r" (by decide)
  have hno : (ledger.exec (World.start, []) (minuteRoom ++ through 1 1 ++ through 2 3 ++
    through 1 7 ++ through 2 3)).1.shared.map["r"]? = none := by decide
  rw [hno] at hm
  cases hm

end OxlensSfu.Rooms
