import OxlensSfu.Lib.Machine
import OxlensSfu.Media.Atomic

/-!
# The registry of publications

The streams of one user over its publish and unpublish requests: `unpublish` and `drop_stream` of
`crates/oxsfud/src/ops/media.rs`, `index_remove` of `crates/oxsfud/src/pub/mod.rs`, and the runs of
these requests.

A request to add finds the streams it repeats before it changes anything. Two new items of one
request are not compared with each other, and no new item's SSRCs are compared with those in use.

* `applyItems_active` and `active_le` — the limit on the streams is that of the first check.
* `through_registered` — the loop keeps the registry when the items it adds are apart.
* **`registry_sound`** — at most sixteen streams in every run, and in a run of requests whose new
  items are apart, distinct mids and an index that leads to the stream's own track.
* **`registry_collides`** — two new items with one mid and one SSRC become two streams.
-/

namespace OxlensSfu.Media

open Std
open OxlensSfu.Rooms (Permission Room)

/-! ## Removing -/

/-- `index_remove`. -/
def indexRemove (ingress : BitVec 32 → Option PubTrack) (r : Nat) : BitVec 32 → Option PubTrack :=
  fun x => (ingress x).filter (·.stream ≠ r)

/-- The stream leaves both maps. -/
def Store.erase (s : Store) (trackId : String) : Store where
  heap := s.heap
  size := s.size
  ctx := s.ctx.erase trackId
  tracks := s.tracks.erase trackId
  valid := by
    intro id r h
    rw [TreeMap.getElem?_erase] at h
    split at h
    · cases h
    · exact s.valid id r h

/-- `drop_stream`. -/
def dropStream (w : Work) (r : Nat) : Work :=
  let st := w.store.heap r
  { peer := { w.peer with
      ingress := indexRemove w.peer.ingress r
      table := if w.peer.pcMode = .one then
        w.peer.table.map
          (·.apply (.removeUplink (st.tracks.map (·.ssrc) ++ st.ssrc :: st.rtxSsrc.toList)))
        else w.peer.table }
    store := w.store.erase st.trackId }

/-- One round of the loop of `unpublish`. -/
def dropListed (w : Work) (r : Nat) : Work :=
  dropStream { w with store := w.store.modify r fun st => { st with listed := false } } r

inductive Refusal where
  | request (f : Failure)
  /-- `TrackNotFound`, with the id where one is at fault. -/
  | trackNotFound (trackId : Option String)
  deriving DecidableEq, Repr

/-- The peer a removal is for. Streams that lie in no room may be removed from outside of it.
`known` tells whether the user has a context. -/
def owner (s : State) (known : Bool) (roomId joinId : String) (ids : List String) :
    Except Failure Peer :=
  match joinedAs s roomId joinId with
  | .ok (p, _) => .ok p
  | .error f =>
    if f.code = .notInRoom ∨ f.code = .roomNotFound then
      let away := known && !ids.isEmpty && ids.all fun id =>
        s.store.ctx[id]?.any fun r => (s.store.heap r).room.isEmpty
      match s.peer with
      | some p => if away then .ok p else .error f
      | none => .error f
    else .error f

/-- `unpublish`. -/
def unpublish (s : State) (known : Bool) (roomId joinId : String) (ids : List String) :
    Except Refusal Unit × State :=
  match owner s known roomId joinId ids with
  | .error f => (.error (.request f), s)
  | .ok peer =>
    if !known then (.error (.trackNotFound none), s)
    else
      match ids.find? fun id => s.store.ctx[id]?.isNone with
      | some id => (.error (.trackNotFound (some id)), s)
      | none =>
        let list := ids.filterMap fun id => s.store.ctx[id]?
        let w := list.foldl dropListed ⟨peer, s.store⟩
        (.ok (), { s with peer := some w.peer, store := w.store })

/-! ## Runs -/

/-- A request of the user, with what its token grants and what the call takes from outside. -/
inductive Op where
  | publish (tok : Option Permission) (env : Env) (b : Body)
  | unpublish (known : Bool) (roomId joinId : String) (ids : List String)

def State.apply (user : String) (s : State) : Op → State
  | .publish tok env b => ((Media.publish s ⟨user, tok⟩ env b).map (·.2)).getD s
  | .unpublish known roomId joinId ids => (Media.unpublish s known roomId joinId ids).2

def registry (user : String) : Machine State Op where
  ok _ _ := True
  next := State.apply user

/-! ## The statement -/

def State.ingress (s : State) : BitVec 32 → Option PubTrack :=
  (s.peer.map (·.ingress)).getD fun _ => none

/-- The streams have distinct mids, and the index leads from the SSRC of a stream without
simulcast to the stream's own track. -/
structure Registered (s : Store) (ingress : BitVec 32 → Option PubTrack) : Prop where
  mids : ∀ (id id' : String) (r r' : Nat), s.ctx[id]? = some r → s.ctx[id']? = some r' →
    (s.heap r).mid = (s.heap r').mid → id = id'
  index : ∀ (id : String) (r : Nat), s.ctx[id]? = some r → (s.heap r).simulcast = false →
    ∃ t ∈ (s.heap r).tracks, t.stream = r ∧ t.ssrc = (s.heap r).ssrc ∧
      ingress (s.heap r).ssrc = some t

/-- The item becomes a simulcast stream, whose tracks are indexed as their packets come. -/
def PublishTrack.simulcasts (t : PublishTrack) : Bool :=
  t.simulcast.getD false && t.kind == .video && t.wants == .full

def PublishTrack.ssrcs (t : PublishTrack) : List (BitVec 32) := t.ssrc :: t.rtxSsrc.toList

/-- The items without a stream. -/
def added (xs : List (PublishTrack × Option Nat)) : List PublishTrack :=
  xs.filterMap fun x => if x.2.isNone then some x.1 else none

/-- The new items are apart: no two have one mid, and where they are indexed, none brings an SSRC
that leads to a stream or to an earlier item. -/
structure Apart (s : Store) (ts : List PublishTrack) : Prop where
  mids : (ts.map (·.mid)).Nodup
  streams : ∀ t ∈ ts, t.simulcasts = false → ∀ (id : String) (r : Nat), s.ctx[id]? = some r →
    (s.heap r).simulcast = false → (s.heap r).ssrc ∉ t.ssrcs
  items : ts.Pairwise fun t u => t.simulcasts = false → u.simulcasts = false → t.ssrc ∉ u.ssrcs

/-- Whenever the request passes every check, the new items that come before any refused one are
apart. -/
def ApartRequest (user : String) (s : State) : Op → Prop
  | .unpublish .. => True
  | .publish tok env b => b.IsAdd → ∀ plan, check s ⟨user, tok⟩ env b = .ok (.inr plan) →
    ∀ pre post, plan.items = pre ++ post → (∀ y ∈ pre, ¬ Refused s.store y) →
      Apart s.store (added pre)

/-! ## The books of the registry -/

/-- The publisher's context is by track id. -/
def Store.Named (s : Store) : Prop :=
  ∀ (id : String) (r : Nat), s.ctx[id]? = some r → (s.heap r).trackId = id

structure Work.Good (w : Work) : Prop where
  named : w.store.Named
  registered : Registered w.store w.peer.ingress

/-- What the registry reads of a stream is the same. -/
structure Alike (st st' : PubStream) : Prop where
  trackId : st'.trackId = st.trackId
  mid : st'.mid = st.mid
  simulcast : st'.simulcast = st.simulcast
  ssrc : st'.ssrc = st.ssrc
  tracks : st'.tracks = st.tracks

theorem Alike.refl (st : PubStream) : Alike st st := ⟨rfl, rfl, rfl, rfl, rfl⟩

/-- No new item has the mid of a stream. -/
def New (s : Store) (ts : List PublishTrack) : Prop :=
  ∀ t ∈ ts, ∀ (id : String) (r : Nat), s.ctx[id]? = some r → (s.heap r).mid ≠ t.mid

section alike

variable {s : Store} {r₀ : Nat} {f : PubStream → PubStream} (hf : ∀ st, Alike st (f st))

include hf

theorem modify_alike (r : Nat) : Alike (s.heap r) ((s.modify r₀ f).heap r) := by
  show Alike _ (Function.update s.heap r₀ _ r)
  by_cases e : r = r₀
  · subst e
    rw [Function.update_self]
    exact hf _
  · rw [Function.update_of_ne e]
    exact .refl _

theorem modify_good {p : Peer} (h : (Work.mk p s).Good) : (Work.mk p (s.modify r₀ f)).Good := by
  have ha : ∀ r, Alike (s.heap r) ((s.modify r₀ f).heap r) := modify_alike hf
  refine ⟨fun id r hr => ?_, ⟨fun id id' r r' hr hr' hm => ?_, fun id r hr hs => ?_⟩⟩
  · exact (ha r).trackId.trans (h.named id r hr)
  · rw [(ha r).mid, (ha r').mid] at hm
    exact h.registered.mids id id' r r' hr hr' hm
  · rw [(ha r).simulcast] at hs
    rw [(ha r).tracks, (ha r).ssrc]
    exact h.registered.index id r hr hs

theorem modify_apart {ts : List PublishTrack} (h : Apart s ts) : Apart (s.modify r₀ f) ts := by
  refine ⟨h.mids, fun t ht hi id r hr hs => ?_, h.items⟩
  rw [(modify_alike hf r).simulcast] at hs
  rw [(modify_alike hf r).ssrc]
  exact h.streams t ht hi id r hr hs

theorem modify_new {ts : List PublishTrack} (h : New s ts) : New (s.modify r₀ f) ts := by
  intro t ht id r hr
  rw [(modify_alike hf r).mid]
  exact h t ht id r hr

end alike

/-! ## An item that is added -/

theorem indexAdd_self (ingress : BitVec 32 → Option PubTrack) (t : PubTrack) :
    indexAdd ingress t t.ssrc = some t := by
  obtain ⟨x, rtx, r⟩ := t
  cases rtx with
  | none => exact Function.update_self ..
  | some y =>
    by_cases e : x = y
    · subst e
      exact Function.update_self ..
    · exact (Function.update_of_ne e ..).trans (Function.update_self ..)

theorem indexAdd_of_ne (ingress : BitVec 32 → Option PubTrack) {t : PubTrack} {x : BitVec 32}
    (h : x ∉ t.ssrc :: t.rtxSsrc.toList) : indexAdd ingress t x = ingress x := by
  obtain ⟨y, rtx, r⟩ := t
  obtain ⟨hx, hrtx⟩ := not_or.1 (List.mem_cons.not.1 h)
  cases rtx with
  | none => exact Function.update_of_ne hx ..
  | some z =>
    exact (Function.update_of_ne (fun e => hrtx (by simp [e])) ..).trans
      (Function.update_of_ne hx ..)

section add

variable (c : Ctx) (env : Env) (room : Room) {w : Work} {t : PublishTrack}

/-- The streams after an item is added: the new one, and those there were under other ids. -/
theorem addNew_ctx {id : String} {r : Nat}
    (h : (addNew c env room w t).2.store.ctx[id]? = some r) :
    (id = env.newTrackId w.store.size ∧ r = w.store.size) ∨ w.store.ctx[id]? = some r := by
  have h' : (w.store.ctx.insert (env.newTrackId w.store.size) w.store.size)[id]? = some r := h
  rw [TreeMap.getElem?_insert] at h'
  split at h'
  · next e =>
    exact .inl ⟨(LawfulEqOrd.eq_of_compare e).symm, (Option.some.inj h').symm⟩
  · exact .inr h'

theorem addNew_heap {id : String} {r : Nat} (h : w.store.ctx[id]? = some r) :
    (addNew c env room w t).2.store.heap r = w.store.heap r :=
  Function.update_of_ne (w.store.valid id r h).ne ..

/-- The stream that an item becomes. -/
theorem addNew_stream : ((addNew c env room w t).2.store.heap w.store.size).trackId =
      env.newTrackId w.store.size ∧
    ((addNew c env room w t).2.store.heap w.store.size).mid = t.mid ∧
    ((addNew c env room w t).2.store.heap w.store.size).simulcast = t.simulcasts ∧
    ((addNew c env room w t).2.store.heap w.store.size).ssrc = t.ssrc ∧
    ((addNew c env room w t).2.store.heap w.store.size).tracks =
      if t.simulcasts then [] else [⟨t.ssrc, t.rtxSsrc, w.store.size⟩] := by
  have h : (addNew c env room w t).2.store.heap w.store.size = _ := Function.update_self ..
  rw [h]
  exact ⟨rfl, rfl, rfl, rfl, rfl⟩

theorem addNew_ingress : (addNew c env room w t).2.peer.ingress = if t.simulcasts then
    w.peer.ingress else indexAdd w.peer.ingress ⟨t.ssrc, t.rtxSsrc, w.store.size⟩ := rfl

/-- An item with a mid and SSRCs of its own keeps the registry. -/
theorem addNew_good (hg : w.Good)
    (hmid : ∀ (id : String) (r : Nat), w.store.ctx[id]? = some r → (w.store.heap r).mid ≠ t.mid)
    (hssrc : t.simulcasts = false → ∀ (id : String) (r : Nat), w.store.ctx[id]? = some r →
      (w.store.heap r).simulcast = false → (w.store.heap r).ssrc ∉ t.ssrcs) :
    (addNew c env room w t).2.Good := by
  obtain ⟨hid, hm, hs, hx, htr⟩ := addNew_stream c env room (w := w) (t := t)
  refine ⟨fun id r hr => ?_, ⟨fun id id' r r' hr hr' he => ?_, fun id r hr hsim => ?_⟩⟩
  · rcases addNew_ctx c env room hr with ⟨rfl, rfl⟩ | hold
    · exact hid
    · rw [addNew_heap c env room hold]
      exact hg.named id r hold
  · rcases addNew_ctx c env room hr with ⟨rfl, rfl⟩ | hold <;>
      rcases addNew_ctx c env room hr' with ⟨rfl, rfl⟩ | hold'
    · rfl
    · rw [hm, addNew_heap c env room hold'] at he
      exact absurd he.symm (hmid id' r' hold')
    · rw [hm, addNew_heap c env room hold] at he
      exact absurd he (hmid id r hold)
    · rw [addNew_heap c env room hold, addNew_heap c env room hold'] at he
      exact hg.registered.mids id id' r r' hold hold' he
  · rw [addNew_ingress]
    rcases addNew_ctx c env room hr with ⟨rfl, rfl⟩ | hold
    · rw [hs] at hsim
      rw [htr, hx, if_neg (by simp [hsim]), if_neg (by simp [hsim])]
      exact ⟨_, List.mem_cons_self, rfl, rfl, indexAdd_self _ _⟩
    · rw [addNew_heap c env room hold] at hsim ⊢
      obtain ⟨u, hu, hur, hux, hui⟩ := hg.registered.index id r hold hsim
      refine ⟨u, hu, hur, hux, ?_⟩
      split
      · exact hui
      · next hns =>
        rw [indexAdd_of_ne _ (hssrc (by simpa using hns) id r hold hsim)]
        exact hui

theorem addNew_new {ts : List PublishTrack} (hn : New w.store (t :: ts))
    (ha : Apart w.store (t :: ts)) : New (addNew c env room w t).2.store ts := by
  intro u hu id r hr
  rcases addNew_ctx c env room hr with ⟨rfl, rfl⟩ | hold
  · rw [(addNew_stream c env room).2.1]
    intro e
    exact (List.nodup_cons.1 ha.mids).1 (List.mem_map.2 ⟨u, hu, e.symm⟩)
  · rw [addNew_heap c env room hold]
    exact hn u (List.mem_cons_of_mem _ hu) id r hold

theorem addNew_apart {ts : List PublishTrack} (ha : Apart w.store (t :: ts)) :
    Apart (addNew c env room w t).2.store ts := by
  refine ⟨(List.nodup_cons.1 ha.mids).2, fun u hu hi id r hr hs => ?_,
    (List.pairwise_cons.1 ha.items).2⟩
  rcases addNew_ctx c env room hr with ⟨rfl, rfl⟩ | hold
  · obtain ⟨-, -, hsim, hx, -⟩ := addNew_stream c env room (w := w) (t := t)
    rw [hsim] at hs
    rw [hx]
    exact (List.pairwise_cons.1 ha.items).1 u hu hs hi
  · rw [addNew_heap c env room hold] at hs ⊢
    exact ha.streams u (List.mem_cons_of_mem _ hu) hi id r hold hs

end add

/-! ## The loop of a publication -/

section loop

variable (c : Ctx) (env : Env) {room : Room} {s : Store} {w : Work}
  {xs : List (PublishTrack × Option Nat)}

@[simp] theorem added_new (t : PublishTrack) (xs : List (PublishTrack × Option Nat)) :
    added ((t, none) :: xs) = t :: added xs := rfl

@[simp] theorem added_named (t : PublishTrack) (r : Nat) (xs : List (PublishTrack × Option Nat)) :
    added ((t, some r) :: xs) = added xs := rfl

/-- The items taken keep the registry when those added are apart. -/
theorem through_good (hw : Since s w) (hx : ∀ x ∈ xs, Fine s w.peer.pubRoom room x)
    (h : ∀ x ∈ xs, ¬ Refused s x) (hg : w.Good) (hn : New w.store (added xs))
    (ha : Apart w.store (added xs)) : (w.through c env room xs).Good := by
  induction xs generalizing w with
  | nil => exact hg
  | cons x xs ih =>
    have hx₀ := hx _ List.mem_cons_self
    have h₀ := h _ List.mem_cons_self
    obtain ⟨hw', hp⟩ := after_since c env hw hx₀ h₀
    have hstep := ih hw' (fun y hy => hp ▸ hx y (List.mem_cons_of_mem _ hy))
      (fun y hy => h y (List.mem_cons_of_mem _ hy))
    obtain ⟨t, o⟩ := x
    cases o with
    | none =>
      rw [added_new] at hn ha
      exact hstep (addNew_good c env room hg (hn t List.mem_cons_self)
          (ha.streams t List.mem_cons_self))
        (addNew_new c env room hn ha) (addNew_apart c env room ha)
    | some r =>
      rw [added_named] at hn ha
      rw [after_named c env hw hx₀ h₀] at hstep
      show (Work.through c env room (w.after c env room (t, some r)) xs).Good
      rw [after_named c env hw hx₀ h₀]
      split at hstep
      · next hd =>
        rw [if_pos hd]
        exact hstep hg hn ha
      · next hd =>
        rw [if_neg hd]
        have hlike : ∀ st : PubStream, Alike st
            { st with duplex := t.wants, muted := false, listed := true } :=
          fun _ => ⟨rfl, rfl, rfl, rfl, rfl⟩
        exact hstep (modify_good hlike hg) (modify_new hlike hn) (modify_apart hlike ha)

/-- Whatever becomes of the loop, it has taken the items up to some point and refused none of
them. -/
theorem applyItems_through (hw : Since s w) (hx : ∀ x ∈ xs, Fine s w.peer.pubRoom room x) :
    ∃ pre post, xs = pre ++ post ∧ (∀ y ∈ pre, ¬ Refused s y) ∧
      (applyItems c env room w xs).2 = w.through c env room pre := by
  by_cases hall : ∀ x ∈ xs, ¬ Refused s x
  · obtain ⟨l, hl⟩ := applyItems_accepted c env hw hx hall
    exact ⟨xs, [], (List.append_nil _).symm, hall, by rw [hl]⟩
  · classical
    have hsome : (xs.find? fun x => decide (Refused s x)).isSome := by
      simpa using hall
    obtain ⟨x, hfind⟩ := Option.isSome_iff_exists.1 hsome
    obtain ⟨hr, pre, post, rfl, hpre⟩ := List.find?_eq_some_iff_append.1 hfind
    have hpre' : ∀ y ∈ pre, ¬ Refused s y := fun y hy => by simpa using hpre y hy
    obtain ⟨f, hf⟩ := applyItems_refused c env hw hx hpre' (by simpa using hr)
    exact ⟨pre, x :: post, rfl, hpre', by rw [hf]⟩

/-- An item adds at most one stream, and one that names a stream adds none. -/
theorem applyItem_active (x : PublishTrack × Option Nat) : (applyItem c env room w x).2.store.active
    ≤ w.store.active + if x.2.isNone then 1 else 0 := by
  obtain ⟨t, o⟩ := x
  cases o with
  | none => exact TreeMap.size_insert_le
  | some r =>
    have hset : (setDuplexOf w room r t.wants).2.store.active = w.store.active := by
      unfold setDuplexOf
      split_ifs <;> rfl
    rw [applyItem]
    split
    · next h =>
      rw [h] at hset
      exact hset.le
    · next h =>
      rw [h] at hset
      exact hset.le

theorem applyItems_active (xs : List (PublishTrack × Option Nat)) :
    (applyItems c env room w xs).2.store.active ≤
      w.store.active + (xs.filter (·.2.isNone)).length := by
  induction xs generalizing w with
  | nil => exact Nat.le_add_right _ _
  | cons x xs ih =>
    have hx : (applyItem c env room w x).2.store.active ≤ _ := applyItem_active c env x
    have hlen : ((x :: xs).filter (·.2.isNone)).length =
        (if x.2.isNone then 1 else 0) + (xs.filter (·.2.isNone)).length := by
      rw [List.filter_cons]
      split
      · exact Nat.add_comm _ _
      · exact (Nat.zero_add _).symm
    rw [hlen, applyItems]
    split
    · next h =>
      rw [h] at hx
      dsimp only at hx ⊢
      omega
    · next h =>
      rw [h] at hx
      refine (ih ..).trans ?_
      dsimp only at hx ⊢
      omega

end loop

/-! ## What the checks leave of the request -/

/-- A list of results beside what is looked up for its sources. -/
theorem zip_mapM {α β γ : Type} {f : α → Except Failure β} {g : α → γ} {l : List α} {l' : List β}
    (h : l.mapM f = .ok l') {p : β × γ} (hp : p ∈ l'.zip (l.map g)) :
    ∃ x ∈ l, f x = .ok p.1 ∧ p.2 = g x := by
  induction l generalizing l' with
  | nil =>
    cases h
    cases hp
  | cons a l ih =>
    rw [List.mapM_cons] at h
    obtain ⟨z, hz, h⟩ := bind_ok h
    obtain ⟨zs, hzs, h⟩ := bind_ok h
    cases h
    rw [List.map_cons, List.zip_cons_cons] at hp
    rcases List.mem_cons.1 hp with rfl | hp
    · exact ⟨a, List.mem_cons_self, hz, rfl⟩
    · obtain ⟨x, hx, hxp⟩ := ih hzs hp
      exact ⟨x, List.mem_cons_of_mem _ hx, hxp⟩

theorem filter_zip_length {β γ : Type} (p : γ → Bool) (l : List β) (l' : List γ) :
    ((l.zip l').filter (p ·.2)).length ≤ (l'.filter p).length := by
  induction l' generalizing l with
  | nil => simp
  | cons b l' ih =>
    cases l with
    | nil => simp
    | cons a l =>
      rw [List.zip_cons_cons, List.filter_cons, List.filter_cons]
      split
      · exact Nat.succ_le_succ (ih l)
      · exact ih l

/-- Reading the mid of an item alone and as part of the item agree. -/
theorem parseItem_mid {env : Env} {rid : Option UInt8} {v : Item} {t : PublishTrack}
    (h : parseItem env rid v = .ok t) : v.mid.item = some t.mid := by
  have hp : v.parse = some t := by
    unfold parseItem at h
    split_ifs at h
    split at h
    · cases h
    · next t' hp =>
      split_ifs at h
      cases h
      exact hp
  unfold Item.parse at hp
  iterate 2 obtain ⟨_, -, hp⟩ := Option.bind_eq_some_iff.1 hp
  obtain ⟨m, hm, hp⟩ := Option.bind_eq_some_iff.1 hp
  iterate 8 obtain ⟨_, -, hp⟩ := Option.bind_eq_some_iff.1 hp
  cases hp
  exact hm

/-- A mid that is not found is that of no stream. -/
theorem sameMid_none {s : Store} {v : Item} {m : String} (hv : v.mid.item = some m)
    (h : (v.mid.item.bind fun m => s.streams.find? fun r => (s.heap r).mid == m) = none)
    {id : String} {r : Nat} (hr : s.ctx[id]? = some r) : (s.heap r).mid ≠ m := by
  rw [hv, Option.bind_some, List.find?_eq_none] at h
  have hmem : r ∈ s.streams :=
    List.mem_map.2 ⟨(id, r), TreeMap.mem_toList_iff_getElem?_eq_some.2 hr, rfl⟩
  simpa using h r hmem

/-- A plan adds no mid there is, and not more than there is room for. -/
theorem check_room {s : State} {c : Ctx} {env : Env} {b : Body} {plan : Plan}
    (h : check s c env b = .ok (.inr plan)) : New s.store (added plan.items) ∧
      s.store.active + (plan.items.filter (·.2.isNone)).length ≤ perPerson := by
  unfold check at h
  obtain ⟨roomId, -, h⟩ := bind_ok h
  obtain ⟨joinId, -, h⟩ := bind_ok h
  obtain ⟨items, -, h⟩ := bind_ok h
  split at h
  · cases h
  obtain ⟨ext, -, h⟩ := bind_ok h
  obtain ⟨⟨peer, room⟩, -, h⟩ := bind_ok h
  obtain ⟨-, -, h⟩ := bind_ok h
  obtain ⟨-, -, h⟩ := bind_ok h
  obtain ⟨_, hlim, h⟩ := bind_ok h
  obtain ⟨tracks, htr, h⟩ := bind_ok h
  obtain ⟨-, -, h⟩ := bind_ok h
  obtain ⟨-, -, h⟩ := bind_ok h
  cases h
  refine ⟨fun t ht id r hr => ?_, ?_⟩
  · obtain ⟨⟨u, o⟩, hmem, hu⟩ := List.mem_filterMap.1 ht
    cases o with
    | some r => cases hu
    | none =>
      cases hu
      obtain ⟨v, -, hparse, hnone⟩ := zip_mapM htr hmem
      exact sameMid_none (parseItem_mid hparse) hnone.symm hr
  · have hle := filter_zip_length (·.isNone) tracks (sameMid s.store items)
    unfold checkLimits at hlim
    split at hlim
    · cases hlim
    · dsimp only at hlim
      split at hlim
      · cases hlim
      · dsimp only
        omega

/-! ## A removal -/

theorem dropStream_good {w : Work} (hg : w.Good) (r : Nat) : (dropStream w r).Good := by
  -- A stream that is left is another one, since the id that was erased is that of the stream.
  have hleft : ∀ (id : String) (r' : Nat), (dropStream w r).store.ctx[id]? = some r' →
      w.store.ctx[id]? = some r' ∧ r' ≠ r := by
    intro id r' h
    have h' : (w.store.ctx.erase (w.store.heap r).trackId)[id]? = some r' := h
    rw [TreeMap.getElem?_erase] at h'
    split at h'
    · cases h'
    · next hne =>
      refine ⟨h', ?_⟩
      rintro rfl
      exact hne (by rw [hg.named id r' h', ReflOrd.compare_self])
  refine ⟨fun id r' h => hg.named id r' (hleft id r' h).1, ⟨fun id id' r₁ r₂ h₁ h₂ he => ?_,
    fun id r' h hs => ?_⟩⟩
  · exact hg.registered.mids id id' r₁ r₂ (hleft id r₁ h₁).1 (hleft id' r₂ h₂).1 he
  · obtain ⟨hold, hne⟩ := hleft id r' h
    obtain ⟨t, ht, htr, hx, hi⟩ := hg.registered.index id r' hold hs
    refine ⟨t, ht, htr, hx, ?_⟩
    show (w.peer.ingress (w.store.heap r').ssrc).filter (·.stream ≠ r) = some t
    rw [hi, Option.filter_some, if_pos (by simpa [htr] using hne)]

theorem dropListed_good {w : Work} (hg : w.Good) (r : Nat) : (dropListed w r).Good := by
  have hlike : ∀ st : PubStream, Alike st { st with listed := false } :=
    fun _ => ⟨rfl, rfl, rfl, rfl, rfl⟩
  have hunlisted : (Work.mk w.peer (w.store.modify r fun st => { st with listed := false })).Good :=
    modify_good hlike hg
  exact dropStream_good hunlisted r

theorem drops_good {w : Work} (hg : w.Good) (l : List Nat) : (l.foldl dropListed w).Good := by
  induction l generalizing w with
  | nil => exact hg
  | cons r l ih => exact ih (dropListed_good hg r)

theorem drops_active (w : Work) (l : List Nat) :
    (l.foldl dropListed w).store.active ≤ w.store.active := by
  induction l generalizing w with
  | nil => exact le_rfl
  | cons r l ih => exact (ih _).trans TreeMap.size_erase_le

/-! ## A request -/

/-- The registry of a state is in order. -/
structure State.Good (s : State) : Prop where
  named : s.store.Named
  registered : Registered s.store s.ingress

theorem joinedAs_peer {s : State} {roomId joinId : String} {p : Peer} {room : Room}
    (h : joinedAs s roomId joinId = .ok (p, room)) : s.peer = some p := by
  unfold joinedAs at h
  split at h
  · cases h
  · split at h
    · cases h
    · next p' hp =>
      split at h
      · cases h
        exact hp
      · cases h

theorem owner_peer {s : State} {known : Bool} {roomId joinId : String} {ids : List String}
    {p : Peer} (h : owner s known roomId joinId ids = .ok p) : s.peer = some p := by
  unfold owner at h
  split at h
  · next hj =>
    cases h
    exact joinedAs_peer hj
  · split at h
    · dsimp only at h
      split at h
      · next p' hp =>
        split at h
        · cases h
          exact hp
        · cases h
      · cases h
    · cases h

theorem unpublish_good {s : State} (hg : s.Good) (known : Bool) (roomId joinId : String)
    (ids : List String) : (unpublish s known roomId joinId ids).2.Good := by
  unfold unpublish
  split
  · exact hg
  · next peer hp =>
    split
    · exact hg
    · split
      · exact hg
      · have hingress : s.ingress = peer.ingress := by rw [State.ingress, owner_peer hp]; rfl
        obtain ⟨hn, hr⟩ := drops_good (w := ⟨peer, s.store⟩) ⟨hg.named, hingress ▸ hg.registered⟩
          (ids.filterMap fun id => s.store.ctx[id]?)
        exact ⟨hn, hr⟩

theorem unpublish_active (s : State) (known : Bool) (roomId joinId : String) (ids : List String) :
    (unpublish s known roomId joinId ids).2.store.active ≤ s.store.active := by
  unfold unpublish
  split
  · exact le_rfl
  · split
    · exact le_rfl
    · split
      · exact le_rfl
      · exact drops_active _ _

theorem publish_good {user : String} {s s' : State} {tok : Option Permission} {env : Env} {b : Body}
    {res : Except Failure (List AddedTrack)} (hg : s.Good)
    (ha : ApartRequest user s (.publish tok env b))
    (h : publish s ⟨user, tok⟩ env b = some (res, s')) : s'.Good := by
  rcases publish_cases h with rfl | ⟨hb, plan, hplan⟩
  · exact hg
  have hsound := check_plan hplan
  have hfine := plan_fine hsound
  have hsince := work_since s plan
  obtain ⟨pre, post, hitems, hpre, hloop⟩ := applyItems_through ⟨user, tok⟩ env hsince hfine
  have hingress : s.ingress = plan.peer.ingress := by rw [State.ingress, hsound.peer]; rfl
  have hnew : New s.store (added pre) := by
    intro t ht
    refine (check_room hplan).1 t ?_
    rw [hitems, added, List.filterMap_append]
    exact List.mem_append_left _ ht
  have hgood : (Work.through ⟨user, tok⟩ env plan.room (plan.work s) pre).Good := through_good _ _
    hsince (fun x hx => hfine x (hitems ▸ List.mem_append_left _ hx)) hpre
    ⟨hg.named, hingress ▸ hg.registered⟩ hnew (ha hb plan hplan pre post hitems hpre)
  rw [publish_plan hb hplan, hloop] at h
  cases h
  exact ⟨hgood.named, hgood.registered⟩

theorem publish_active {s s' : State} {c : Ctx} {env : Env} {b : Body}
    {res : Except Failure (List AddedTrack)} (hle : s.store.active ≤ perPerson)
    (h : publish s c env b = some (res, s')) : s'.store.active ≤ perPerson := by
  rcases publish_cases h with rfl | ⟨hb, plan, hplan⟩
  · exact hle
  rw [publish_plan hb hplan] at h
  cases h
  exact (applyItems_active c env plan.items).trans (check_room hplan).2

/-! ## The result -/

theorem apply_good {user : String} {s : State} (hg : s.Good) {o : Op} (ha : ApartRequest user s o) :
    (s.apply user o).Good := by
  cases o with
  | publish tok env b =>
    rw [State.apply]
    cases h : publish s ⟨user, tok⟩ env b with
    | none => exact hg
    | some p => exact publish_good hg ha h
  | unpublish known roomId joinId ids => exact unpublish_good hg known roomId joinId ids

theorem apply_active {user : String} {s : State} (hle : s.store.active ≤ perPerson) (o : Op) :
    (s.apply user o).store.active ≤ perPerson := by
  cases o with
  | publish tok env b =>
    rw [State.apply]
    cases h : publish s ⟨user, tok⟩ env b with
    | none => exact hle
    | some p => exact publish_active hle h
  | unpublish known roomId joinId ids => exact (unpublish_active ..).trans hle

/-- A state in which the user has published nothing. -/
def State.Fresh (s : State) : Prop := s.store.ctx.isEmpty = true

theorem fresh_none {s : State} (h : s.Fresh) (id : String) : s.store.ctx[id]? = none :=
  TreeMap.getElem?_of_isEmpty h

theorem fresh_good {s : State} (h : s.Fresh) : s.Good := by
  refine ⟨fun id r hr => ?_, ⟨fun id _ r _ hr => ?_, fun id r hr => ?_⟩⟩ <;>
    rw [fresh_none h id] at hr <;> cases hr

/-- **The registry over the requests of one user.** -/
theorem registry_sound (user : String) {s : State} (hs : s.Fresh) (ops : List Op) :
    ((registry user).exec s ops).store.active ≤ 16 ∧
      (((registry user).restrict (ApartRequest user)).Legal s ops →
        Registered ((registry user).exec s ops).store ((registry user).exec s ops).ingress) := by
  have hzero : s.store.active ≤ perPerson := by
    have hsize : s.store.active = 0 := by
      simpa [State.Fresh, Store.active, TreeMap.isEmpty_eq_size_eq_zero] using hs
    rw [hsize]
    exact Nat.zero_le _
  have hall : (registry user).Legal s ops := (registry user).legal_iff.2 fun _ _ _ _ => trivial
  have hbound : ((registry user).exec s ops).store.active ≤ perPerson :=
    Machine.invariant (I := fun s => s.store.active ≤ perPerson)
      (fun _ o h _ => apply_active h o) hzero hall
  refine ⟨hbound, fun hlegal => ?_⟩
  have hstep : ∀ s o, State.Good s → ((registry user).restrict (ApartRequest user)).ok s o →
      (((registry user).restrict (ApartRequest user)).next s o).Good :=
    fun _ _ h ho => apply_good h ho.2
  have hgood := Machine.invariant hstep (fresh_good hs) hlegal
  rw [Machine.restrict_exec] at hgood
  exact hgood.registered

/-- A publisher who has published nothing. -/
def silentState : State :=
  { cameraState with store := {
      heap := fun _ => camera
      size := 0
      ctx := ∅
      tracks := ∅
      valid := by simp } }

/-- Two microphones. -/
def micsBody (mid : String) (ssrc : BitVec 32) : Body where
  roomId := .val "r"
  joinId := .val "j"
  tracks := .val [
    { kind := .val .audio, ssrc := .val 20, mid := .val "0", pt := .val 111 },
    { kind := .val .audio, ssrc := .val ssrc, mid := .val mid, pt := .val 111 }]

theorem registry_sound_mics : Registered
    ((registry "u").exec silentState [.publish none plainEnv (micsBody "1" 21)]).store
    ((registry "u").exec silentState [.publish none plainEnv (micsBody "1" 21)]).ingress := by
  refine (registry_sound "u" (s := silentState) rfl _).2 ⟨⟨trivial, ?_⟩, trivial⟩
  intro _ plan hplan pre post hitems _
  have hlist : (check silentState ⟨"u", none⟩ plainEnv (micsBody "1" 21)).toOption.map
      (Sum.elim (fun _ => []) Plan.items) = some [
        (⟨.audio, 20, "0", none, none, 111, none, none, none, none, none⟩, none),
        (⟨.audio, 21, "1", none, none, 111, none, none, none, none, none⟩, none)] := by decide
  rw [hplan] at hlist
  have hpre := Option.some.inj hlist
  dsimp only [Sum.elim_inr] at hpre
  have hsub : (added pre).Sublist (added plan.items) := by
    rw [hitems, added, added, List.filterMap_append]
    exact List.sublist_append_left _ _
  rw [hpre] at hsub
  refine ⟨(hsub.map _).nodup (by decide), ?_, List.Pairwise.sublist hsub (by decide)⟩
  intro t _ _ id r hr
  simp [silentState] at hr

/-- Two new items of one request may share a mid. -/
theorem registry_collides : ¬ ∀ (user : String) (s : State), s.Fresh → ∀ ops,
    ((registry user).exec s ops).store.active ≤ 16 ∧
      Registered ((registry user).exec s ops).store ((registry user).exec s ops).ingress := by
  intro h
  have hreg := (h "u" silentState rfl [.publish none plainEnv (micsBody "0" 20)]).2
  have hids := hreg.mids "t2" "t1" 0 1 (by decide) (by decide) (by decide)
  exact absurd hids (by decide)

end OxlensSfu.Media
