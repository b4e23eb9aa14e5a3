import OxlensSfu.Media.Publish

/-!
# A failed publication

`publish` checks the whole request before it applies any of it, with one exception: whether the
duplex of a published stream may be changed is asked inside the applying loop, by `set_duplex_of`.
A simulcast stream refuses, and by then the extension ids are stored and the earlier items have
taken effect.

* `check_plan` — what the checks leave to the loop: the publisher is registered, full duplex is
  asked for in its publish room only, and the streams named are in memory.
* `applyItems_refused` and `applyItems_accepted` — the loop fails at the first item that asks a
  simulcast stream for the other duplex, and only there.
* **`publish_atomic_iff`** — a failed request leaves every store as it was exactly when nothing
  takes effect before that item.
* **`publish_not_atomic`** — a new track is left behind by a request that failed.
-/

namespace OxlensSfu.Media

open Std
open OxlensSfu.Rooms (Room)

/-! ## The statement -/

/-- The stores of the publication are what they were. -/
structure Unchanged (s s' : State) : Prop where
  ctx : ∀ id : String, s'.store.ctx[id]? = s.store.ctx[id]?
  tracks : ∀ id : String, s'.store.tracks[id]? = s.store.tracks[id]?
  ingress : s'.peer.map (·.ingress) = s.peer.map (·.ingress)
  flags : ∀ r < s.store.size, (s'.store.heap r).listed = (s.store.heap r).listed ∧
    (s'.store.heap r).duplex = (s.store.heap r).duplex
  extIds : s'.peer.map (·.extIds) = s.peer.map (·.extIds)
  uplink : s'.peer.map (·.table.map (·.table.st.uplink)) =
    s.peer.map (·.table.map (·.table.st.uplink))

/-- If the call fails, or panics, nothing has changed. -/
def Atomic (s : State) (c : Ctx) (env : Env) (b : Body) : Prop :=
  ∀ f s', publish s c env b = some (.error f, s') → Unchanged s s'

/-- The item asks a published simulcast stream for the other duplex. -/
def Refused (s : Store) (x : PublishTrack × Option Nat) : Prop :=
  ∃ r, x.2 = some r ∧ (s.heap r).simulcast = true ∧ (s.heap r).duplex ≠ x.1.wants

/-- What the items ask of one stream, in order. -/
def asked (r : Nat) (xs : List (PublishTrack × Option Nat)) : List Duplex :=
  xs.filterMap fun x => if x.2 = some r then some x.1.wants else none

/-- The items come to nothing: every one names a published stream, which ends with the duplex it
has and is listed already if it takes the other one on the way. -/
def Idle (s : Store) (xs : List (PublishTrack × Option Nat)) : Prop :=
  (∀ x ∈ xs, x.2 ≠ none) ∧ ∀ r < s.size,
    (asked r xs).getLast?.getD (s.heap r).duplex = (s.heap r).duplex ∧
      ((s.heap r).listed = true ∨ ∀ d ∈ asked r xs, d = (s.heap r).duplex)

/-- The request is an add request. -/
def Body.IsAdd (b : Body) : Prop := b.action = .absent ∨ b.action = .val "add"

/-- Whenever the request passes every check and an item asks a published simulcast stream for the
other duplex, nothing takes effect before the first such item: the extension ids are those the
transport has and the items before it come to nothing. -/
def SafeRequest (s : State) (c : Ctx) (env : Env) (b : Body) : Prop :=
  b.IsAdd → ∀ plan, check s c env b = .ok (.inr plan) → ∀ pre x post,
    plan.items = pre ++ x :: post → Refused s.store x → (∀ y ∈ pre, ¬ Refused s.store y) →
      plan.peer.extIds.merge plan.ext = plan.peer.extIds ∧ Idle s.store pre

/-! ## What the checks leave to the loop -/

theorem bind_ok {α β : Type} {x : Except Failure α} {f : α → Except Failure β} {y : β}
    (h : (x >>= f) = .ok y) : ∃ a, x = .ok a ∧ f a = .ok y := by
  cases x with
  | error e => cases h
  | ok a => exact ⟨a, rfl, h⟩

theorem mem_of_mapM {α β : Type} {f : α → Except Failure β} {l : List α} {l' : List β}
    (h : l.mapM f = .ok l') {y : β} (hy : y ∈ l') : ∃ x ∈ l, f x = .ok y := by
  induction l generalizing l' with
  | nil =>
    cases h
    cases hy
  | cons a l ih =>
    rw [List.mapM_cons] at h
    obtain ⟨z, hz, h⟩ := bind_ok h
    obtain ⟨zs, hzs, h⟩ := bind_ok h
    cases h
    rcases List.mem_cons.1 hy with rfl | hy
    · exact ⟨a, List.mem_cons_self, hz⟩
    · obtain ⟨x, hx, hxy⟩ := ih hzs hy
      exact ⟨x, List.mem_cons_of_mem _ hx, hxy⟩

/-- Reading the duplex of an item alone and as part of the item agree. -/
theorem parseItem_wants {env : Env} {rid : Option UInt8} {v : Item} {t : PublishTrack}
    (h : parseItem env rid v = .ok t) : v.duplex.item.getD .full = t.wants := by
  have hp : v.parse = some t := by
    unfold parseItem at h
    split_ifs at h
    split at h
    · cases h
    · next t' hp =>
      split_ifs at h
      cases h
      exact hp
  -- The nine fields before the duplex, the duplex, and the one after it.
  unfold Item.parse at hp
  iterate 9 obtain ⟨_, -, hp⟩ := Option.bind_eq_some_iff.1 hp
  obtain ⟨d, hd, hp⟩ := Option.bind_eq_some_iff.1 hp
  obtain ⟨_, -, hp⟩ := Option.bind_eq_some_iff.1 hp
  cases hp
  cases hv : v.duplex <;> simp [hv, Field.optional] at hd <;>
    simp [Field.item, PublishTrack.wants, ← hd]

theorem sameMid_lt {s : Store} {items : List Item} {r : Nat} (h : some r ∈ sameMid s items) :
    r < s.size := by
  obtain ⟨v, -, hv⟩ := List.mem_map.1 h
  obtain ⟨m, -, hm⟩ := Option.bind_eq_some_iff.1 hv
  obtain ⟨⟨id, r'⟩, hmem, rfl⟩ := List.mem_map.1 (List.mem_of_find?_eq_some hm)
  exact s.valid id r' (TreeMap.mem_toList_iff_getElem?_eq_some.1 hmem)

/-- What a plan promises the loop. -/
structure Plan.Sound (s : State) (p : Plan) : Prop where
  peer : s.peer = some p.peer
  pubRoom : ∀ x ∈ p.items, x.1.wants = .full → p.peer.pubRoom = some p.room.id
  named : ∀ x ∈ p.items, ∀ r, x.2 = some r → r < s.store.size

theorem check_plan {s : State} {c : Ctx} {env : Env} {b : Body} {plan : Plan}
    (h : check s c env b = .ok (.inr plan)) : plan.Sound s := by
  unfold check at h
  obtain ⟨roomId, -, h⟩ := bind_ok h
  obtain ⟨joinId, -, h⟩ := bind_ok h
  obtain ⟨items, -, h⟩ := bind_ok h
  split at h
  · cases h
  obtain ⟨ext, -, h⟩ := bind_ok h
  obtain ⟨⟨peer, room⟩, hj, h⟩ := bind_ok h
  obtain ⟨-, -, h⟩ := bind_ok h
  obtain ⟨_, hpub, h⟩ := bind_ok h
  obtain ⟨-, -, h⟩ := bind_ok h
  obtain ⟨tracks, htr, h⟩ := bind_ok h
  obtain ⟨-, -, h⟩ := bind_ok h
  obtain ⟨-, -, h⟩ := bind_ok h
  cases h
  have hjoined : s.peer = some peer ∧ room.id = roomId := by
    unfold joinedAs at hj
    split at hj
    · cases hj
    · next rm hrm =>
      split at hj
      · cases hj
      · next pr hpr =>
        split at hj
        · cases hj
          exact ⟨hpr, s.keyed _ _ hrm⟩
        · cases hj
  refine ⟨hjoined.1, fun x hx hw => ?_, fun x hx r hr => ?_⟩
  · obtain ⟨v, hv, hparse⟩ := mem_of_mapM htr (List.of_mem_zip hx).1
    have hany : (items.any fun v => v.duplex.item.getD .full == .full) = true :=
      List.any_eq_true.2 ⟨v, hv, by simp [parseItem_wants hparse, hw]⟩
    unfold checkPubRoom at hpub
    rw [hany, Bool.true_and] at hpub
    split at hpub
    · cases hpub
    · next hne => simpa [hjoined.2] using hne
  · have := (List.of_mem_zip hx).2
    rw [hr] at this
    exact sameMid_lt this

/-! ## The loop -/

/-- What the loop keeps of the store it started from: the streams stay, and a simulcast stream
keeps its duplex. -/
structure Since (s : Store) (w : Work) : Prop where
  size : s.size ≤ w.store.size
  simulcast : ∀ r < s.size, (w.store.heap r).simulcast = (s.heap r).simulcast
  duplex : ∀ r < s.size, (s.heap r).simulcast = true →
    (w.store.heap r).duplex = (s.heap r).duplex

/-- The item may be handed to the loop: its stream is in memory, and full duplex is asked for in
the publish room. -/
structure Fine (s : Store) (pubRoom : Option String) (room : Room)
    (x : PublishTrack × Option Nat) : Prop where
  named : ∀ r, x.2 = some r → r < s.size
  pubRoom : x.1.wants = .full → pubRoom = some room.id

section loop

variable (c : Ctx) (env : Env) {room : Room} {s : Store} {w : Work}
  {x : PublishTrack × Option Nat} {xs : List (PublishTrack × Option Nat)}

/-- The work after an item that is not refused. -/
def Work.after (c : Ctx) (env : Env) (room : Room) (w : Work)
    (x : PublishTrack × Option Nat) : Work := (applyItem c env room w x).2

theorem setDuplexOf_accepted (w : Work) (room : Room) (r : Nat) (d : Duplex)
    (hs : (w.store.heap r).simulcast = true → (w.store.heap r).duplex = d)
    (hp : d = .full → w.peer.pubRoom = some room.id) :
    ∃ noop, setDuplexOf w room r d = (.ok noop,
      if (w.store.heap r).duplex = d then w else
        { w with store := w.store.modify r fun st =>
          { st with duplex := d, muted := false, listed := true } }) := by
  unfold setDuplexOf
  by_cases hd : (w.store.heap r).duplex = d
  · exact ⟨true, by simp [hd]⟩
  · have hsim : (w.store.heap r).simulcast = false := by
      by_contra h
      exact hd (hs (by simpa using h))
    refine ⟨false, ?_⟩
    rw [if_neg hd, if_neg hd, hsim, if_neg (by simp), if_neg]
    rintro ⟨hf, hne⟩
    exact hne (hp hf)

variable (room) in
theorem applyItem_refused (hw : Since s w) (hx : ∀ r, x.2 = some r → r < s.size)
    (h : Refused s x) : ∃ f, applyItem c env room w x = (.error f, w) := by
  obtain ⟨t, o⟩ := x
  obtain ⟨r, rfl, hsim, hd⟩ := h
  have hr := hx r rfl
  refine ⟨{ code := .trackOpUnsupported, message := some "simulcast duplex" }, ?_⟩
  simp only [applyItem, setDuplexOf]
  rw [if_neg (by rw [hw.duplex r hr hsim]; exact hd), if_pos (by rw [hw.simulcast r hr, hsim])]

/-- An accepted item for a published stream sets its flags and nothing else. -/
theorem applyItem_named {t : PublishTrack} {r : Nat} (hw : Since s w)
    (hx : Fine s w.peer.pubRoom room (t, some r)) (h : ¬ Refused s (t, some r)) :
    ∃ a, applyItem c env room w (t, some r) = (.ok a, if (w.store.heap r).duplex = t.wants then w
      else { w with store := w.store.modify r fun st =>
        { st with duplex := t.wants, muted := false, listed := true } }) := by
  have hr := hx.named r rfl
  have hsim : (w.store.heap r).simulcast = true → (w.store.heap r).duplex = t.wants := by
    intro hs
    rw [hw.simulcast r hr] at hs
    rw [hw.duplex r hr hs]
    by_contra hd
    exact h ⟨r, rfl, hs, hd⟩
  obtain ⟨noop, hset⟩ := setDuplexOf_accepted w room r t.wants hsim hx.pubRoom
  refine ⟨⟨(w.store.heap r).mid, (w.store.heap r).trackId⟩, ?_⟩
  simp only [applyItem, hset]

theorem applyItem_accepted (hw : Since s w) (hx : Fine s w.peer.pubRoom room x)
    (h : ¬ Refused s x) : ∃ a, applyItem c env room w x = (.ok a, w.after c env room x) := by
  obtain ⟨t, o⟩ := x
  cases o with
  | none => exact ⟨_, rfl⟩
  | some r =>
    obtain ⟨a, ha⟩ := applyItem_named c env hw hx h
    exact ⟨a, by rw [Work.after, ha]⟩

theorem after_named {t : PublishTrack} {r : Nat} (hw : Since s w)
    (hx : Fine s w.peer.pubRoom room (t, some r)) (h : ¬ Refused s (t, some r)) :
    w.after c env room (t, some r) = if (w.store.heap r).duplex = t.wants then w else
      { w with store := w.store.modify r fun st =>
        { st with duplex := t.wants, muted := false, listed := true } } := by
  obtain ⟨a, ha⟩ := applyItem_named c env hw hx h
  rw [Work.after, ha]

theorem after_since (hw : Since s w) (hx : Fine s w.peer.pubRoom room x) (h : ¬ Refused s x) :
    Since s (w.after c env room x) ∧ (w.after c env room x).peer.pubRoom = w.peer.pubRoom := by
  obtain ⟨t, o⟩ := x
  cases o with
  | none =>
    refine ⟨⟨hw.size.trans (Nat.le_succ _), fun r hr => ?_, fun r hr hs => ?_⟩, rfl⟩
    · show (Function.update w.store.heap w.store.size _ r).simulcast = _
      rw [Function.update_of_ne (by have := hw.size; omega)]
      exact hw.simulcast r hr
    · show (Function.update w.store.heap w.store.size _ r).duplex = _
      rw [Function.update_of_ne (by have := hw.size; omega)]
      exact hw.duplex r hr hs
  | some r₀ =>
    rw [after_named c env hw hx h]
    split
    · exact ⟨hw, rfl⟩
    · next hd =>
      refine ⟨⟨hw.size, fun r hr => ?_, fun r hr hs => ?_⟩, rfl⟩
      · show (Function.update w.store.heap r₀ _ r).simulcast = _
        by_cases e : r = r₀
        · subst e
          rw [Function.update_self]
          exact hw.simulcast r hr
        · rw [Function.update_of_ne e]
          exact hw.simulcast r hr
      · show (Function.update w.store.heap r₀ _ r).duplex = _
        by_cases e : r = r₀
        · subst e
          exact absurd ⟨r, rfl, hs, fun e => hd (by rw [hw.duplex r hr hs, e])⟩ h
        · rw [Function.update_of_ne e]
          exact hw.duplex r hr hs

/-- The items taken one after the other. -/
def Work.through (c : Ctx) (env : Env) (room : Room) (w : Work)
    (xs : List (PublishTrack × Option Nat)) : Work := xs.foldl (Work.after c env room) w

/-- A loop without a refused item succeeds. -/
theorem applyItems_accepted (hw : Since s w) (hx : ∀ x ∈ xs, Fine s w.peer.pubRoom room x)
    (h : ∀ x ∈ xs, ¬ Refused s x) :
    ∃ l, applyItems c env room w xs = (.ok l, w.through c env room xs) := by
  induction xs generalizing w with
  | nil => exact ⟨[], rfl⟩
  | cons x xs ih =>
    obtain ⟨a, ha⟩ := applyItem_accepted c env hw (hx x List.mem_cons_self)
      (h x List.mem_cons_self)
    obtain ⟨hw', hp⟩ := after_since c env hw (hx x List.mem_cons_self)
      (h x List.mem_cons_self)
    obtain ⟨l, hl⟩ := ih hw' (fun y hy => hp ▸ hx y (List.mem_cons_of_mem _ hy))
      (fun y hy => h y (List.mem_cons_of_mem _ hy))
    refine ⟨a :: l, ?_⟩
    rw [applyItems, ha]
    simp only [hl]
    rfl

/-- A loop with a refused item fails there, with what the items before it did. -/
theorem applyItems_refused {pre post : List (PublishTrack × Option Nat)} (hw : Since s w)
    (hx : ∀ y ∈ pre ++ x :: post, Fine s w.peer.pubRoom room y) (h : ∀ y ∈ pre, ¬ Refused s y)
    (hr : Refused s x) : ∃ f, applyItems c env room w (pre ++ x :: post) =
      (.error f, w.through c env room pre) := by
  induction pre generalizing w with
  | nil =>
    obtain ⟨f, hf⟩ := applyItem_refused c env room hw
      (hx x List.mem_cons_self).named hr
    refine ⟨f, ?_⟩
    rw [List.nil_append, applyItems, hf]
    rfl
  | cons y pre ih =>
    obtain ⟨a, ha⟩ := applyItem_accepted c env hw (hx y List.mem_cons_self)
      (h y List.mem_cons_self)
    obtain ⟨hw', hp⟩ := after_since c env hw (hx y List.mem_cons_self)
      (h y List.mem_cons_self)
    obtain ⟨f, hf⟩ := ih hw' (fun z hz => hp ▸ hx z (List.mem_cons_of_mem _ hz))
      (fun z hz => h z (List.mem_cons_of_mem _ hz))
    refine ⟨f, ?_⟩
    rw [List.cons_append, applyItems, ha]
    simp only [hf]
    rfl


/-! ## What the items before a refusal did -/

theorem asked_cons_self (t : PublishTrack) (r : Nat) (xs : List (PublishTrack × Option Nat)) :
    asked r ((t, some r) :: xs) = t.wants :: asked r xs := by
  simp [asked]

theorem asked_cons_ne {r : Nat} {y : PublishTrack × Option Nat} (h : y.2 ≠ some r)
    (xs : List (PublishTrack × Option Nat)) : asked r (y :: xs) = asked r xs := by
  simp [asked, h]

/-- The flags of a stream after items that name published streams only. -/
structure Follows (w w' : Work) (xs : List (PublishTrack × Option Nat)) : Prop where
  peer : w'.peer = w.peer
  ctx : w'.store.ctx = w.store.ctx
  tracks : w'.store.tracks = w.store.tracks
  duplex : ∀ r, (w'.store.heap r).duplex = (asked r xs).getLast?.getD (w.store.heap r).duplex
  listed : ∀ r, (w'.store.heap r).listed =
    ((w.store.heap r).listed || (asked r xs).any (· ≠ (w.store.heap r).duplex))

theorem through_follows (hw : Since s w) (hx : ∀ x ∈ xs, Fine s w.peer.pubRoom room x)
    (h : ∀ x ∈ xs, ¬ Refused s x) (hn : ∀ x ∈ xs, x.2 ≠ none) :
    Follows w (w.through c env room xs) xs := by
  induction xs generalizing w with
  | nil => exact ⟨rfl, rfl, rfl, fun _ => rfl, fun _ => by simp [asked, Work.through]⟩
  | cons x xs ih =>
    obtain ⟨t, o⟩ := x
    cases o with
    | none => exact absurd rfl (hn _ List.mem_cons_self)
    | some r₀ =>
      have hx₀ := hx _ List.mem_cons_self
      have h₀ := h _ List.mem_cons_self
      obtain ⟨hw', hp⟩ := after_since c env hw hx₀ h₀
      have hf := ih hw' (fun y hy => hp ▸ hx y (List.mem_cons_of_mem _ hy))
        (fun y hy => h y (List.mem_cons_of_mem _ hy)) (fun y hy => hn y (List.mem_cons_of_mem _ hy))
      show Follows w ((w.after c env room (t, some r₀)).through c env room xs) _
      rw [after_named c env hw hx₀ h₀] at hf ⊢
      split at hf
      · next hd =>
        rw [if_pos hd]
        refine ⟨hf.peer, hf.ctx, hf.tracks, fun r => ?_, fun r => ?_⟩
        · rw [hf.duplex r]
          by_cases e : r = r₀
          · subst e
            rw [asked_cons_self, List.getLast?_cons, hd]
            rfl
          · rw [asked_cons_ne (by simpa using Ne.symm e)]
        · rw [hf.listed r]
          by_cases e : r = r₀
          · subst e
            rw [asked_cons_self, List.any_cons, hd]
            simp
          · rw [asked_cons_ne (by simpa using Ne.symm e)]
      · next hd =>
        rw [if_neg hd]
        have hne : ∀ r, r ≠ r₀ → (w.store.modify r₀ fun st =>
            { st with duplex := t.wants, muted := false, listed := true }).heap r =
              w.store.heap r := fun r e => Function.update_of_ne e ..
        have hself : (w.store.modify r₀ fun st =>
            { st with duplex := t.wants, muted := false, listed := true }).heap r₀ =
              { w.store.heap r₀ with duplex := t.wants, muted := false, listed := true } :=
          Function.update_self ..
        refine ⟨hf.peer, hf.ctx, hf.tracks, fun r => ?_, fun r => ?_⟩
        · rw [hf.duplex r]
          by_cases e : r = r₀
          · subst e
            rw [asked_cons_self, List.getLast?_cons, hself]
            rfl
          · rw [asked_cons_ne (by simpa using Ne.symm e), hne r e]
        · rw [hf.listed r]
          by_cases e : r = r₀
          · subst e
            rw [asked_cons_self, List.any_cons, hself]
            simp [Ne.symm hd]
          · rw [asked_cons_ne (by simpa using Ne.symm e), hne r e]

/-- The publisher has a stream that the store did not have. -/
def Grown (s : Store) (w : Work) : Prop :=
  ∃ (id : String) (r : Nat), s.size ≤ r ∧ w.store.ctx[id]? = some r

theorem after_grown (hw : Since s w) (hx : Fine s w.peer.pubRoom room x) (h : ¬ Refused s x)
    (hg : Grown s w ∨ x.2 = none) : Grown s (w.after c env room x) := by
  obtain ⟨t, o⟩ := x
  cases o with
  | none => exact ⟨_, w.store.size, hw.size, TreeMap.getElem?_insert_self⟩
  | some r =>
    rcases hg with hg | hg
    · rw [after_named c env hw hx h]
      split
      · exact hg
      · exact hg
    · cases hg

theorem through_grown (hw : Since s w) (hx : ∀ x ∈ xs, Fine s w.peer.pubRoom room x)
    (h : ∀ x ∈ xs, ¬ Refused s x) (hg : Grown s w ∨ ∃ x ∈ xs, x.2 = none) :
    Grown s (w.through c env room xs) := by
  induction xs generalizing w with
  | nil =>
    rcases hg with hg | ⟨y, hy, -⟩
    · exact hg
    · cases hy
  | cons x xs ih =>
    have hx₀ := hx _ List.mem_cons_self
    have h₀ := h _ List.mem_cons_self
    obtain ⟨hw', hp⟩ := after_since c env hw hx₀ h₀
    refine ih hw' (fun y hy => hp ▸ hx y (List.mem_cons_of_mem _ hy))
      (fun y hy => h y (List.mem_cons_of_mem _ hy)) ?_
    rcases hg with hg | ⟨y, hy, hyn⟩
    · exact .inl (after_grown c env hw hx₀ h₀ (.inl hg))
    · rcases List.mem_cons.1 hy with rfl | hy
      · exact .inl (after_grown c env hw hx₀ h₀ (.inr hyn))
      · exact .inr ⟨y, hy, hyn⟩


end loop

/-! ## The result -/

theorem Unchanged.refl (s : State) : Unchanged s s :=
  ⟨fun _ => rfl, fun _ => rfl, rfl, fun _ _ => ⟨rfl, rfl⟩, rfl, rfl⟩

/-- The work the loop starts from. -/
def Plan.work (p : Plan) (s : State) : Work :=
  ⟨{ p.peer with extIds := p.peer.extIds.merge p.ext }, s.store⟩

theorem publish_plan {s : State} {c : Ctx} {env : Env} {b : Body} {plan : Plan} (hb : b.IsAdd)
    (h : check s c env b = .ok (.inr plan)) : publish s c env b =
      some ((applyItems c env plan.room (plan.work s) plan.items).1,
        { s with
          peer := some (applyItems c env plan.room (plan.work s) plan.items).2.peer
          store := (applyItems c env plan.room (plan.work s) plan.items).2.store }) := by
  unfold publish
  rcases hb with hb | hb <;> rw [hb] <;> simp only [Field.field, h] <;> rfl

theorem work_since (s : State) (p : Plan) : Since s.store (p.work s) :=
  ⟨Nat.le_refl _, fun _ _ => rfl, fun _ _ _ => rfl⟩

theorem plan_fine {s : State} {p : Plan} (hp : p.Sound s) :
    ∀ x ∈ p.items, Fine s.store (p.work s).peer.pubRoom p.room x :=
  fun x hx => ⟨hp.named x hx, hp.pubRoom x hx⟩

/-- A failed request that changed nothing had nothing to apply before it failed. -/
theorem safe_of_atomic {s : State} {c : Ctx} {env : Env} {b : Body} (h : Atomic s c env b) :
    SafeRequest s c env b := by
  intro hb plan hplan pre x post hitems hx hpre
  have hsound := check_plan hplan
  have hfine := plan_fine hsound
  rw [hitems] at hfine
  have hfpre : ∀ y ∈ pre, Fine s.store (plan.work s).peer.pubRoom plan.room y :=
    fun y hy => hfine y (List.mem_append_left _ hy)
  have hsince := work_since s plan
  obtain ⟨f, hf⟩ := applyItems_refused c env hsince hfine hpre hx
  have hpub := publish_plan hb hplan
  rw [hitems, hf] at hpub
  have hun := h f _ hpub
  have hnamed : ∀ y ∈ pre, y.2 ≠ none := by
    intro y hy hyn
    obtain ⟨id, r, hr, hid⟩ := through_grown c env hsince hfpre hpre (.inr ⟨y, hy, hyn⟩)
    have hold : s.store.ctx[id]? = some r := (hun.ctx id).symm.trans hid
    have := s.store.valid id r hold
    omega
  have hfol := through_follows c env hsince hfpre hpre hnamed
  refine ⟨?_, hnamed, fun r hr => ?_⟩
  · have hext := hun.extIds
    simp only [Option.map_some, hsound.peer, hfol.peer] at hext
    exact Option.some.inj hext
  · obtain ⟨hl, hd⟩ := hun.flags r hr
    refine ⟨(hfol.duplex r).symm.trans hd, ?_⟩
    have hl' := (hfol.listed r).symm.trans hl
    by_cases hlist : (s.store.heap r).listed = true
    · exact .inl hlist
    · refine .inr fun d hd' => ?_
      by_contra hne
      have hany : (asked r pre).any (· ≠ (s.store.heap r).duplex) = true :=
        List.any_eq_true.2 ⟨d, hd', by simpa using hne⟩
      have hl'' : ((s.store.heap r).listed || (asked r pre).any (· ≠ (s.store.heap r).duplex)) =
        (s.store.heap r).listed := hl'
      rw [hany, Bool.or_true] at hl''
      exact hlist hl''.symm

theorem field_ok {f : Field String} {k : String} {o : Option String} (h : f.field k = .ok o) :
    f = (match o with | none => .absent | some a => .val a) := by
  cases f <;> cases h <;> rfl

/-- Only an add request that passed every check reaches the loop. -/
theorem publish_cases {s s' : State} {c : Ctx} {env : Env} {b : Body}
    {res : Except Failure (List AddedTrack)} (h : publish s c env b = some (res, s')) :
    s' = s ∨ b.IsAdd ∧ ∃ plan, check s c env b = .ok (.inr plan) := by
  unfold publish at h
  split at h
  · cases h
    exact .inl rfl
  · next action ha =>
    split at h
    · cases h
    · split at h
      · cases h
        exact .inl rfl
      · next hadd =>
        have hb : b.IsAdd := by
          have hf := field_ok ha
          cases action with
          | none => exact .inl hf
          | some a =>
            refine .inr (hf.trans (congrArg Field.val ?_))
            by_contra hne
            exact hadd ⟨by simp, by simpa using hne⟩
        split at h
        · cases h
          exact .inl rfl
        · cases h
          exact .inl rfl
        · next plan hplan => exact .inr ⟨hb, plan, hplan⟩

/-- With nothing to apply before the refusal a failed request changes nothing. -/
theorem atomic_of_safe {s : State} {c : Ctx} {env : Env} {b : Body}
    (h : SafeRequest s c env b) : Atomic s c env b := by
  intro f s' hpub
  rcases publish_cases hpub with rfl | ⟨hb, plan, hplan⟩
  · exact .refl _
  have hsound := check_plan hplan
  have hfine := plan_fine hsound
  have hsince := work_since s plan
  rw [publish_plan hb hplan] at hpub
  by_cases hall : ∀ x ∈ plan.items, ¬ Refused s.store x
  · obtain ⟨l, hl⟩ := applyItems_accepted c env hsince hfine hall
    rw [hl] at hpub
    cases hpub
  · -- the first refused item, and what stands before it
    obtain ⟨pre, x, post, hitems, hx, hpre⟩ : ∃ pre x post, plan.items = pre ++ x :: post ∧
        Refused s.store x ∧ ∀ y ∈ pre, ¬ Refused s.store y := by
      classical
      have hsome : (plan.items.find? fun x => decide (Refused s.store x)).isSome := by
        simpa using hall
      obtain ⟨x, hx⟩ := Option.isSome_iff_exists.1 hsome
      obtain ⟨hr, pre, post, e, hpre⟩ := List.find?_eq_some_iff_append.1 hx
      exact ⟨pre, x, post, e, by simpa using hr, fun y hy => by simpa using hpre y hy⟩
    obtain ⟨hext, hnamed, hflags⟩ := h hb plan hplan pre x post hitems hx hpre
    rw [hitems] at hfine
    have hfpre : ∀ y ∈ pre, Fine s.store (plan.work s).peer.pubRoom plan.room y :=
      fun y hy => hfine y (List.mem_append_left _ hy)
    obtain ⟨f', hf⟩ := applyItems_refused c env hsince hfine hpre hx
    have hfol := through_follows c env hsince hfpre hpre hnamed
    rw [hitems, hf] at hpub
    cases hpub
    have hpeer : s.peer = some (Work.through c env plan.room (plan.work s) pre).peer := by
      rw [hfol.peer, hsound.peer, Plan.work, hext]
    refine ⟨fun id => ?_, fun id => ?_, ?_, fun r hr => ⟨?_, ?_⟩, ?_, ?_⟩
    · show (Work.through c env plan.room (plan.work s) pre).store.ctx[id]? = _
      rw [hfol.ctx]
      rfl
    · show (Work.through c env plan.room (plan.work s) pre).store.tracks[id]? = _
      rw [hfol.tracks]
      rfl
    · rw [hpeer]
    · refine (hfol.listed r).trans ?_
      show ((s.store.heap r).listed || _) = (s.store.heap r).listed
      rcases (hflags r hr).2 with hl | hd
      · simp [hl]
      · have : (asked r pre).any (· ≠ (s.store.heap r).duplex) = false := by
          simpa using hd
        exact this ▸ Bool.or_false _
    · exact (hfol.duplex r).trans (hflags r hr).1
    · rw [hpeer]
    · rw [hpeer]

/-- **When a failed publication leaves no trace.** -/
theorem publish_atomic_iff (s : State) (c : Ctx) (env : Env) (b : Body) :
    Atomic s c env b ↔ SafeRequest s c env b := ⟨safe_of_atomic, atomic_of_safe⟩

/-- A simulcast camera, published at full duplex. -/
def camera : PubStream where
  trackId := "t0"
  user := "u"
  kind := .video
  mid := "0"
  pt := 96
  codec := some "VP8"
  simulcast := true
  ssrc := 10
  room := "r"
  state := .intended

/-- A publisher with the camera in a VP8 room. -/
def cameraState : State where
  rooms id := if id = "r" then
    some (.new { id := "r", capacity := 8, mediaCodecs := { video := some "VP8" } } 0) else none
  keyed id room h := by
    split at h
    · next e =>
      cases h
      exact e.symm
    · cases h
  peer := some {
    rooms := [("r", "j")]
    pubRoom := some "r"
    pcMode := .two
    extIds := {}
    ingress := fun _ => none
    table := none }
  store := {
    heap := fun _ => camera
    size := 1
    ctx := (∅ : TreeMap String Nat).insert "t0" 0
    tracks := (∅ : TreeMap String Nat).insert "t0" 0
    valid := by
      intro id r h
      rw [TreeMap.getElem?_insert] at h
      split at h
      · cases h
        decide
      · simp at h }

/-- A microphone, and the camera at half duplex. -/
def mixedBody : Body where
  roomId := .val "r"
  joinId := .val "j"
  tracks := .val [
    { kind := .val .audio, ssrc := .val 20, mid := .val "1", pt := .val 111 },
    { kind := .val .video, ssrc := .val 10, mid := .val "0", pt := .val 96,
      codec := .val "VP8", duplex := .val .half }]

def plainEnv : Env where
  newTrackId r := if r = 1 then "t1" else "t2"
  parseError _ := "invalid type"

/-- The camera refuses and the request fails, and the microphone is published. -/
theorem publish_not_atomic : ¬ ∀ (s : State) (c : Ctx) (env : Env) (b : Body), b.IsAdd →
    Atomic s c env b := by
  intro h
  have hfail : (publish cameraState { user := "u" } plainEnv mixedBody).any
      (fun p => !p.1.isOk && p.2.store.ctx.contains "t1") = true := by decide
  obtain ⟨⟨res, s'⟩, hpub, hbad⟩ := (Option.any_eq_true ..).1 hfail
  cases res with
  | ok added => simp [Except.isOk, Except.toBool] at hbad
  | error f =>
    have hun := h cameraState { user := "u" } plainEnv mixedBody (.inl rfl) f s' hpub
    have hold : cameraState.store.ctx["t1"]? = none := by decide
    have hnew : s'.store.ctx["t1"]?.isSome = true := by
      rw [← TreeMap.contains_eq_isSome_getElem?]
      exact (Bool.and_eq_true_iff.1 hbad).2
    rw [hun.ctx "t1", hold] at hnew
    cases hnew

end OxlensSfu.Media
