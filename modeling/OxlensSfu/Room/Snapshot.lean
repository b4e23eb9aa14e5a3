import OxlensSfu.Lib.Machine
import OxlensSfu.Room.Core

/-!
# Snapshots against the event stream

A response that carries a room's participants is assembled from several reads of the room
(`snapshot_of`, `join_res` and `get` in `crates/oxsfud/src/ops/rooms.rs`), and the room goes on
changing in between. The client keeps the participants, drops every event whose number is not
above the version and applies the rest.

* A departure is two critical sections, `Room::remove` and `Room::announce_left`; users between
  them are `leaving`.
* **`snapshot_agrees`** — while no participant event falls between a response's two reads and no
  user comes back before its departure is announced, the participants are those of the version
  and the client that catches up knows who is there.
* **`snapshot_misses_join`** — a join between the two reads is lost to the client for good.
-/

namespace OxlensSfu.Rooms

/-! ## What a client does with the stream -/

namespace Notice

def seq : Notice → Nat
  | .participant e _ => e.version.seq
  | .track v => v.seq

/-- A participant event, applied to the users the client believes present. -/
def apply (ps : Finset String) : Notice → Finset String
  | .participant e _ =>
    match e.type with
    | .joined => insert e.userId ps
    | .left => ps.erase e.userId
  | .track _ => ps

end Notice

def replay (ps : Finset String) (l : List Notice) : Finset String := l.foldl Notice.apply ps

@[simp] theorem replay_nil (ps : Finset String) : replay ps [] = ps := rfl

@[simp] theorem replay_append (ps : Finset String) (l l' : List Notice) :
    replay ps (l ++ l') = replay (replay ps l) l' := List.foldl_append

/-- Drop what the version covers, apply the rest in order. -/
def catchUp (ps : Finset String) (v : Nat) (stream : List Notice) : Finset String :=
  replay ps (stream.filter (v < ·.seq))

/-! ## Responses and the machine -/

/-- One critical section of a response. The tracks come from the streams, not from the room. -/
inductive Read where
  | userCount
  | participants
  | tracks
  | version
  deriving DecidableEq, Repr

inductive Call where
  | snapshotOf
  | joinRes
  | get (tracks : Bool)
  deriving DecidableEq, Repr

/-- The reads of a response in the order of its fields. -/
def Call.reads : Call → List Read
  | .snapshotOf => [.participants, .tracks, .version]
  | .joinRes => [.participants, .tracks, .version]
  | .get tracks => [.userCount, .participants, .version] ++ if tracks then [.tracks] else []

/-- A response under construction, with the departures in flight when its participants were
read. -/
structure Response where
  todo : List Read
  userCount : Option UInt32 := none
  participants : Option (List MemberInfo) := none
  version : Option Version := none
  away : List String := []
  deriving DecidableEq, Repr

namespace Response

/-- The participants are read and the version is not. -/
def Torn (p : Response) : Prop := p.participants.isSome ∧ p.version = none

instance (p : Response) : Decidable p.Torn := inferInstanceAs (Decidable (_ ∧ _))

def read (p : Response) (r : Room) (leaving : List String) : Response :=
  match p.todo with
  | [] => p
  | .userCount :: todo => { p with todo := todo, userCount := some r.userCount }
  | .participants :: todo =>
    { p with todo := todo, participants := some r.participants, away := leaving }
  | .tracks :: todo => { p with todo := todo }
  | .version :: todo => { p with todo := todo, version := some r.version }

end Response

/-- A room, what it published, the departures in flight and the responses being assembled. -/
structure Scene where
  room : Room
  stream : List Notice := []
  leaving : List String := []
  responses : List Response := []

/-- One critical section of one thread. -/
inductive Act where
  | join (m : Member) (rejoin : Bool) (tok : Option Permission)
  /-- `gc::leave` announces a visible member only, a join rolled back announces whoever it took
  out. -/
  | remove (user : String) (rollback : Bool)
  | announceLeft (user : String)
  | track
  | call (c : Call)
  | read (i : Nat)

namespace Scene

/-- The room after the action and what it published. -/
def emit (s : Scene) : Act → List Notice × Room
  | .join m rejoin tok => s.room.join m rejoin tok
  | .remove u _ => ([], (s.room.remove u).2)
  | .announceLeft u => s.room.announceLeft u
  | .track => s.room.bumpAndSend fun v => some (.track v)
  | .call _ => ([], s.room)
  | .read _ => ([], s.room)

def departures (s : Scene) : Act → List String
  | .remove u rollback =>
    if (s.room.remove u).1.any (fun m => rollback || !m.hidden) then u :: s.leaving
    else s.leaving
  | .announceLeft u => s.leaving.erase u
  | _ => s.leaving

def answers (s : Scene) : Act → List Response
  | .call c => s.responses ++ [{ todo := c.reads }]
  | .read i => s.responses.modify i (·.read s.room s.leaving)
  | _ => s.responses

def act (s : Scene) (a : Act) : Scene where
  room := (s.emit a).2
  stream := s.stream ++ (s.emit a).1
  leaving := s.departures a
  responses := s.answers a

end Scene

/-- Any critical section at any time; a departure is announced after its removal. -/
def scenes : Machine Scene Act where
  ok s a := match a with
    | .announceLeft u => u ∈ s.leaving
    | _ => True
  next := Scene.act

instance (s : Scene) : (a : Act) → Decidable (scenes.ok s a)
  | .announceLeft u => inferInstanceAs (Decidable (u ∈ s.leaving))
  | .join .. | .remove .. | .track | .call _ | .read _ => .isTrue trivial

/-- What the action requires of the threads around it: no participant event between a response's
two reads, no announced join of a user whose departure is not announced yet, and no silent join
that changes whether its user is seen. -/
def Calm (s : Scene) : Act → Prop
  | .join m rejoin _ =>
    if !rejoin && !m.hidden then m.user ∉ s.leaving ∧ ∀ p ∈ s.responses, ¬ p.Torn
    else s.room.visible m.user = !m.hidden
  | .announceLeft _ => ∀ p ∈ s.responses, ¬ p.Torn
  | _ => True

instance (s : Scene) : (a : Act) → Decidable (Calm s a)
  | .join m rejoin _ =>
    inferInstanceAs (Decidable (if !rejoin && !m.hidden then m.user ∉ s.leaving ∧
      ∀ p ∈ s.responses, ¬ p.Torn else s.room.visible m.user = !m.hidden))
  | .announceLeft _ => inferInstanceAs (Decidable (∀ p ∈ s.responses, ¬ p.Torn))
  | .remove .. | .track | .call _ | .read _ => .isTrue trivial

/-- The participants of a response are those the events up to its version tell of, and applying
the later events to them gives who is there; users between the two halves of a departure aside. -/
structure Agrees (s : Scene) (ps : List MemberInfo) (v : Version) (away : List String) :
    Prop where
  reflected : ∀ u, u ∉ away →
    (u ∈ Room.named ps ↔ u ∈ replay ∅ (s.stream.filter (·.seq ≤ v.seq)))
  current : ∀ u, u ∉ s.leaving →
    (u ∈ catchUp (Room.named ps) v.seq s.stream ↔ s.room.visible u = true)

/-! ## The invariant -/

/-- Starting from `ps` and applying `l` leads to who is there. -/
def Tracks (s : Scene) (ps : Finset String) (l : List Notice) : Prop :=
  ∀ u, u ∉ s.leaving → (u ∈ replay ps l ↔ s.room.visible u = true)

/-- The reads already done are a first part of those of one call, and what they found is
there. -/
def Progress (p : Response) : Prop :=
  ∃ (c : Call) (past : List Read), c.reads = past ++ p.todo ∧
    (p.participants.isSome ↔ .participants ∈ past) ∧ (p.version.isSome ↔ .version ∈ past)

/-- The law of one response: what a torn one has read still tracks the stream's end. -/
structure Sound (s : Scene) (p : Response) : Prop where
  progress : Progress p
  torn : ∀ ps, p.participants = some ps → p.version = none →
    Tracks s (Room.named ps) [] ∧ ∀ u, u ∉ p.away → (u ∈ Room.named ps ↔ u ∈ replay ∅ s.stream)
  done : ∀ ps v, p.participants = some ps → p.version = some v →
    v.seq ≤ s.room.st.seq ∧ Agrees s ps v p.away

structure SceneLaw (s : Scene) : Prop where
  bounded : ∀ n ∈ s.stream, n.seq ≤ s.room.st.seq
  gone : ∀ u ∈ s.leaving, s.room.visible u = false
  log : Tracks s ∅ s.stream
  sound : ∀ p ∈ s.responses, Sound s p

/-! ## What one action does to the room -/

theorem emit_seq_mono (s : Scene) (a : Act) : s.room.st.seq ≤ (s.emit a).2.st.seq := by
  cases a with
  | join m rejoin tok =>
    show s.room.st.seq ≤ (s.room.join m rejoin tok).2.st.seq
    by_cases hn : (!rejoin && !m.hidden) = true
    · obtain ⟨e, ex, -, -, -, -, hseq⟩ := s.room.join_announced tok hn
      exact hseq ▸ Nat.le_succ _
    · exact (s.room.join_silent tok hn).2 ▸ Nat.le_refl _
  | remove u rollback => exact Nat.le_refl _
  | announceLeft u => exact Nat.le_succ _
  | track => exact Nat.le_succ _
  | call c => exact Nat.le_refl _
  | read i => exact Nat.le_refl _

/-- What an action publishes carries the number it gave the room. -/
theorem emit_seq {s : Scene} {a : Act} {n : Notice} (h : n ∈ (s.emit a).1) :
    n.seq = s.room.st.seq + 1 ∧ n.seq = (s.emit a).2.st.seq := by
  cases a with
  | join m rejoin tok =>
    have h' : n ∈ (s.room.join m rejoin tok).1 := h
    by_cases hn : (!rejoin && !m.hidden) = true
    · obtain ⟨e, ex, hns, -, -, hv, hseq⟩ := s.room.join_announced tok hn
      rw [hns, List.mem_singleton] at h'
      subst h'
      exact ⟨hv, hv.trans hseq.symm⟩
    · rw [(s.room.join_silent tok hn).1] at h'
      exact absurd h' List.not_mem_nil
  | remove u rollback => exact absurd h List.not_mem_nil
  | announceLeft u =>
    rw [List.mem_singleton.1 h]
    exact ⟨rfl, rfl⟩
  | track =>
    rw [List.mem_singleton.1 h]
    exact ⟨rfl, rfl⟩
  | call c => exact absurd h List.not_mem_nil
  | read i => exact absurd h List.not_mem_nil

theorem filter_above_append {s : Scene} {a : Act} {v : Nat} (h : v ≤ s.room.st.seq) :
    (s.act a).stream.filter (v < ·.seq) = s.stream.filter (v < ·.seq) ++ (s.emit a).1 := by
  rw [Scene.act, List.filter_append]
  congr 1
  refine List.filter_eq_self.2 fun n hn => ?_
  have := (emit_seq hn).1
  simp only [decide_eq_true_eq]
  omega

theorem filter_upto_append {s : Scene} {a : Act} {v : Nat} (h : v ≤ s.room.st.seq) :
    (s.act a).stream.filter (·.seq ≤ v) = s.stream.filter (·.seq ≤ v) := by
  rw [Scene.act, List.filter_append, List.append_right_eq_self]
  refine List.filter_eq_nil_iff.2 fun n hn => ?_
  have := (emit_seq hn).1
  simp only [decide_eq_true_eq]
  omega

/-- While a response is torn nothing that names a participant is published. -/
theorem replay_emit_of_torn {s : Scene} {a : Act} {p : Response} (hc : Calm s a)
    (hp : p ∈ s.responses) (ht : p.Torn) (ps : Finset String) :
    replay ps (s.emit a).1 = ps := by
  cases a with
  | join m rejoin tok =>
    by_cases hn : (!rejoin && !m.hidden) = true
    · rw [Calm, if_pos hn] at hc
      exact absurd ht (hc.2 p hp)
    · rw [Scene.emit, (s.room.join_silent tok hn).1, replay_nil]
  | announceLeft u => exact absurd ht (hc p hp)
  | remove u rollback => rfl
  | track => rfl
  | call c => rfl
  | read i => rfl

/-! ## The invariant is kept -/

theorem gone_step {s : Scene} {a : Act} (hs : SceneLaw s) (hc : Calm s a) :
    ∀ u ∈ (s.act a).leaving, (s.act a).room.visible u = false := by
  intro u hu
  cases a with
  | join m rejoin tok =>
    have hu' : u ∈ s.leaving := hu
    show (s.room.join m rejoin tok).2.visible u = false
    rw [Room.join_visible]
    split
    · next e =>
      subst e
      by_cases hn : (!rejoin && !m.hidden) = true
      · rw [Calm, if_pos hn] at hc
        exact absurd hu' hc.1
      · rw [Calm, if_neg hn] at hc
        rw [← hc]
        exact hs.gone _ hu'
    · exact hs.gone u hu'
  | remove w rollback =>
    show (s.room.remove w).2.visible u = false
    rw [Room.remove_visible]
    split
    · rfl
    · next hne =>
      refine hs.gone u ?_
      simp only [Scene.act, Scene.departures] at hu
      split at hu
      · exact (List.mem_cons.1 hu).resolve_left (Ne.symm hne)
      · exact hu
  | announceLeft w => exact hs.gone u (List.mem_of_mem_erase hu)
  | track => exact hs.gone u hu
  | call c => exact hs.gone u hu
  | read i => exact hs.gone u hu

/-- **The step lemma.** A set that tracks the room goes on tracking it with what the action
published. -/
theorem tracks_step {s : Scene} {a : Act} {ps : Finset String} {l : List Notice}
    (hs : SceneLaw s) (ha : scenes.ok s a) (hc : Calm s a) (ht : Tracks s ps l) :
    Tracks (s.act a) ps (l ++ (s.emit a).1) := by
  intro u hu
  rw [replay_append]
  cases a with
  | join m rejoin tok =>
    have hu' : u ∉ s.leaving := hu
    show u ∈ replay _ (s.room.join m rejoin tok).1 ↔ (s.room.join m rejoin tok).2.visible u = true
    rw [Room.join_visible]
    by_cases hn : (!rejoin && !m.hidden) = true
    · obtain ⟨e, ex, hns, ht', heu, -, -⟩ := s.room.join_announced tok hn
      have hvis : m.hidden = false := by simpa using (Bool.and_eq_true_iff.1 hn).2
      rw [hns]
      show u ∈ Notice.apply (replay ps l) (.participant e ex) ↔ _
      rw [Notice.apply, ht', heu, Finset.mem_insert, ht u hu', hvis]
      by_cases hmu : m.user = u
      · simp [hmu]
      · simp [hmu, Ne.symm hmu]
    · rw [Calm, if_neg hn] at hc
      rw [(s.room.join_silent tok hn).1, replay_nil, ht u hu']
      split
      · next hmu => rw [← hmu, hc]
      · rfl
  | remove w rollback =>
    show u ∈ replay ps l ↔ (s.room.remove w).2.visible u = true
    have hu' : u ∉ s.leaving ∧ (w = u → s.room.visible u = false) := by
      simp only [Scene.act, Scene.departures] at hu
      split at hu
      · exact ⟨fun h => hu (List.mem_cons_of_mem _ h), fun e => absurd (e ▸ List.mem_cons_self) hu⟩
      · next hn =>
        refine ⟨hu, fun e => ?_⟩
        subst e
        cases hm : s.room.member w with
        | none => simp [Room.visible, hm]
        | some m => simp_all [Room.visible, Room.remove]
    rw [ht u hu'.1, Room.remove_visible]
    split
    · next e => simp [hu'.2 e]
    · rfl
  | announceLeft w =>
    have hw : w ∈ s.leaving := ha
    show u ∈ (replay ps l).erase w ↔ s.room.visible u = true
    rw [Finset.mem_erase]
    by_cases e : u = w
    · subst e
      simp [hs.gone _ hw]
    · have hu' : u ∉ s.leaving := fun h => hu ((List.mem_erase_of_ne e).2 h)
      rw [ht u hu']
      simp [e]
  | track => exact ht u hu
  | call c => exact ht u hu
  | read i => exact ht u hu

/-- What a response has read stays sound while the room goes on. -/
theorem sound_step {s : Scene} {a : Act} {p : Response} (hs : SceneLaw s) (ha : scenes.ok s a)
    (hc : Calm s a) (hp : p ∈ s.responses) : Sound (s.act a) p := by
  have h := hs.sound p hp
  refine ⟨h.progress, ?_, ?_⟩
  · intro ps hps hv
    obtain ⟨ht, hr⟩ := h.torn ps hps hv
    have hq := replay_emit_of_torn hc hp ⟨by simp [hps], hv⟩
    refine ⟨fun u hu => ?_, fun u hu => ?_⟩
    · have := tracks_step hs ha hc ht u hu
      rwa [replay_append, hq] at this
    · rw [hr u hu]
      show _ ↔ u ∈ replay ∅ (s.stream ++ (s.emit a).1)
      rw [replay_append, hq]
  · intro ps v hps hv
    obtain ⟨hle, hag⟩ := h.done ps v hps hv
    refine ⟨hle.trans (emit_seq_mono s a), fun u hu => ?_, fun u hu => ?_⟩
    · rw [filter_upto_append hle]
      exact hag.reflected u hu
    · rw [catchUp, filter_above_append hle]
      exact tracks_step hs ha hc hag.current u hu

theorem reads_nodup (c : Call) : c.reads.Nodup := by
  rcases c with _ | _ | tracks
  · decide
  · decide
  · cases tracks <;> decide

/-- Every response reads the participants before the version. -/
theorem reads_ordered {c : Call} {past rest : List Read} (h : c.reads = past ++ .version :: rest) :
    .participants ∈ past := by
  have hi : c.reads.idxOf .participants < c.reads.idxOf .version := by
    rcases c with _ | _ | tracks
    · decide
    · decide
    · cases tracks <;> decide
  by_contra hn
  have hv : c.reads.idxOf .version ≤ past.length := by
    rw [h, List.idxOf_append]
    split
    · next hm => exact (List.idxOf_lt_length_of_mem hm).le
    · simp
  have hp : past.length < c.reads.idxOf .participants := by
    rw [h, List.idxOf_append_of_notMem hn, List.idxOf_cons_ne _ (by decide)]
    omega
  omega

theorem Progress.read {p : Response} (h : Progress p) (r : Room) (leaving : List String) :
    Progress (p.read r leaving) := by
  obtain ⟨c, past, hc, hp, hv⟩ := h
  cases e : p.todo with
  | nil =>
    rw [Response.read, e]
    exact ⟨c, past, hc, hp, hv⟩
  | cons rd todo =>
    rw [e] at hc
    refine ⟨c, past ++ [rd], ?_, ?_, ?_⟩ <;> cases rd <;> simp [Response.read, e, hc, hp, hv]

/-- Nothing is read twice, and the participants before the version. -/
theorem Progress.version_none {p : Response} (h : Progress p) {todo : List Read}
    (e : p.todo = .participants :: todo ∨ p.todo = .version :: todo) : p.version = none := by
  obtain ⟨c, past, hc, -, hv⟩ := h
  rw [← Option.not_isSome_iff_eq_none, hv]
  intro hmem
  have hnd := reads_nodup c
  rw [hc] at hnd
  have hdis := (List.nodup_append.1 hnd).2.2
  rcases e with e | e
  · rw [e] at hc hdis
    obtain ⟨l₁, l₂, rfl⟩ := List.append_of_mem hmem
    have hpart : .participants ∈ l₁ := reads_ordered (by rw [hc]; simp; rfl)
    exact hdis _ (List.mem_append_left _ hpart) _ List.mem_cons_self rfl
  · rw [e] at hdis
    exact hdis _ hmem _ List.mem_cons_self rfl

/-- A read takes what is there. -/
theorem Sound.read {s : Scene} {p : Response} (h : Sound s p) (hb : ∀ n ∈ s.stream,
    n.seq ≤ s.room.st.seq) (hlog : Tracks s ∅ s.stream) : Sound s (p.read s.room s.leaving) := by
  have hpr := h.progress.read s.room s.leaving
  cases e : p.todo with
  | nil =>
    rw [Response.read, e]
    exact h
  | cons rd todo =>
    rw [Response.read, e] at hpr ⊢
    cases rd with
    | userCount => exact ⟨hpr, h.torn, h.done⟩
    | tracks => exact ⟨hpr, h.torn, h.done⟩
    | participants =>
      have hnone := h.progress.version_none (.inl e)
      refine ⟨hpr, ?_, fun ps v _ hv => ?_⟩
      · intro ps hps _
        cases hps
        refine ⟨fun u _ => Room.mem_named_participants, fun u hu => ?_⟩
        rw [Room.mem_named_participants, hlog u hu]
      · exact absurd (hnone.symm.trans hv) (by simp)
    | version =>
      have hnone := h.progress.version_none (.inr e)
      have hall : s.stream.filter (·.seq ≤ s.room.version.seq) = s.stream :=
        List.filter_eq_self.2 fun n hn => decide_eq_true (hb n hn)
      have hno : s.stream.filter (s.room.version.seq < ·.seq) = [] :=
        List.filter_eq_nil_iff.2 fun n hn hlt => Nat.not_lt.2 (hb n hn) (of_decide_eq_true hlt)
      refine ⟨hpr, fun ps _ hv => absurd hv (by simp), fun ps v hps hv => ?_⟩
      cases hv
      obtain ⟨ht, hr⟩ := h.torn ps hps hnone
      refine ⟨Nat.le_refl _, fun u hu => ?_, fun u hu => ?_⟩
      · rw [hall]
        exact hr u hu
      · rw [catchUp, hno]
        exact ht u hu

theorem law_step {s : Scene} {a : Act} (hs : SceneLaw s) (ha : scenes.ok s a) (hc : Calm s a) :
    SceneLaw (s.act a) := by
  have hb : ∀ n ∈ (s.act a).stream, n.seq ≤ (s.act a).room.st.seq := by
    intro n hn
    rcases List.mem_append.1 hn with h | h
    · exact (hs.bounded n h).trans (emit_seq_mono s a)
    · exact (emit_seq h).2.le
  have hlog : Tracks (s.act a) ∅ (s.act a).stream := tracks_step hs ha hc hs.log
  refine ⟨hb, gone_step hs hc, hlog, ?_⟩
  have hold := fun p (hp : p ∈ s.responses) => sound_step hs ha hc hp
  intro p hp
  cases a with
  | call c =>
    rcases List.mem_append.1 hp with h | h
    · exact hold p h
    · rw [List.mem_singleton.1 h]
      exact ⟨⟨c, [], rfl, by simp, by simp⟩, by simp, by simp⟩
  | read i =>
    have hm : p ∈ s.responses.modify i (·.read s.room s.leaving) := hp
    obtain ⟨j, hj⟩ := List.mem_iff_getElem?.1 hm
    rw [List.getElem?_modify] at hj
    obtain ⟨q, hq, rfl⟩ := Option.map_eq_some_iff.1 hj
    have hqs := hold q (List.mem_of_getElem? hq)
    split
    · exact hqs.read hb hlog
    · exact hqs
  | join m rejoin tok => exact hold p hp
  | remove u rollback => exact hold p hp
  | announceLeft u => exact hold p hp
  | track => exact hold p hp

/-! ## The result -/

/-- A room just created, before anyone asked about it. -/
def Scene.start (i : RoomInit) (now : Nat) : Scene := { room := .new i now }

theorem start_law (i : RoomInit) (now : Nat) : SceneLaw (Scene.start i now) where
  bounded := by simp [Scene.start]
  gone := by simp [Scene.start]
  log := by
    intro u _
    simp [Scene.start, Room.visible, Room.member, Room.new]
  sound := by simp [Scene.start]

/-- **Snapshots and events agree.** In every interleaving of responses, joins, departures and
track events whose steps are calm, a response that has read its participants and its version
reflects every event up to that version, and a client that catches up from it knows the members
that are seen. -/
theorem snapshot_agrees (i : RoomInit) (now : Nat) (as : List Act)
    (hl : (scenes.restrict Calm).Legal (Scene.start i now) as) :
    ∀ p ∈ (scenes.exec (Scene.start i now) as).responses, ∀ ps v, p.participants = some ps →
      p.version = some v → Agrees (scenes.exec (Scene.start i now) as) ps v p.away := by
  have hinv : SceneLaw ((scenes.restrict Calm).exec (Scene.start i now) as) :=
    Machine.invariant (M := scenes.restrict Calm) (fun _ _ hs ha => law_step hs ha.1 ha.2)
      (start_law i now) hl
  rw [Machine.restrict_exec] at hinv
  intro p hp ps v hps hv
  exact ((hinv.sound p hp).done ps v hps hv).2

/-- One user leaves and another joins around a response that is assembled undisturbed, and both
events reach its client. -/
def calmRun : List Act :=
  [.join { user := "a" } false none, .call (.get true), .read 0, .read 0, .read 0,
    .remove "a" false, .announceLeft "a", .join { user := "b" } false none]

theorem snapshot_agrees_calm_run :
    (scenes.restrict Calm).Legal (Scene.start { id := "r", capacity := 8 } 0) calmRun ∧
      ∀ p ∈ (scenes.exec (Scene.start { id := "r", capacity := 8 } 0) calmRun).responses,
        ∀ ps v, p.participants = some ps → p.version = some v →
          Agrees (scenes.exec (Scene.start { id := "r", capacity := 8 } 0) calmRun) ps v p.away :=
  ⟨by decide, snapshot_agrees _ 0 calmRun (by decide)⟩

/-- A member joins after the participants were read and before the version was. -/
def tornRun : List Act :=
  [.call .snapshotOf, .read 0, .join { user := "a" } false none, .read 0, .read 0]

/-- The version covers a join the participants lack: the client drops the event and never learns
of the member. -/
theorem snapshot_misses_join : ¬ ∀ (i : RoomInit) (now : Nat) (as : List Act),
    scenes.Legal (Scene.start i now) as →
      ∀ p ∈ (scenes.exec (Scene.start i now) as).responses, ∀ ps v, p.participants = some ps →
        p.version = some v → Agrees (scenes.exec (Scene.start i now) as) ps v p.away := by
  intro h
  have hag := h { id := "r", capacity := 8 } 0 tornRun (by decide)
    { todo := [], participants := some [], version := some ⟨"", 1⟩ } (by decide) [] ⟨"", 1⟩ rfl rfl
  have hmem := (hag.current "a" (by decide)).2 (by decide)
  exact absurd hmem (by decide)

end OxlensSfu.Rooms
