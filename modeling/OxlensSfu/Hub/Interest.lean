import OxlensSfu.Hub.Sessions

/-!
# Room interest

How often a hub asks for the notices of a room: once for every session that is in it. The counts
go up and down at `set_rooms`, `join`, `resume_session`, `unregister` and `room_dropped`
(`crates/oxhubd/src/ses/mod.rs`), each time after the rooms themselves have changed, and other
operations come in between.

**Theorem (`interest_counts`).** When no operation is in progress, the count of a room is the
number of registered sessions that are in it, in every run whose steps are `Careful`: the rooms of
a session change only while they are accounted for, no session is in a room on two nodes, tables
lose no other session than the one that is meant, and no count is lowered that has not been
raised.

The proof keeps a balance. Some list of `holders` has to account for its rooms: the registered
sessions, those that a job is about to register, and those whose rooms a job is about to lower.
Then the count of a room and the raises still to be done are the rooms of the holders and the
lowerings still to be done, and no session holds twice.

A join that is answered after the session was evicted is not careful, and its room keeps a count
(`interest_leaks`).
-/

namespace OxlensSfu.Hub

open Program (Sched)

variable {p : HubPool} {a : Sched (List Job) Told} {h h' : Ctx} {j : Job} {o : Told}
  {ks D C : List Job} {r : String}

/-! ## Holders -/

/-- The session that the job is about to register, or whose rooms it is about to lower. -/
def Job.holds : Job → List Nat
  | .insert s | .lowerRooms s => [s]
  | _ => []

namespace Ctx

/-- The sessions that account for their rooms. -/
def holders (h : Ctx) (jobs : List Job) : List Nat := h.bySid.values ++ jobs.flatMap Job.holds

def rooms (h : Ctx) (s : Nat) : List String := (h.objects s).st.rooms

/-- How often the sessions are in the room. -/
def load (h : Ctx) (l : List Nat) (r : String) : Nat := (l.map fun s => (h.rooms s).count r).sum

structure Balanced (h : Ctx) (jobs : List Job) : Prop where
  nodup : (h.holders jobs).Nodup
  sums : ∀ r, h.roomSubs r + jobs.count (.bump r true) =
    h.load (h.holders jobs) r + jobs.count (.bump r false)
  once : ∀ s, s < h.born → (h.rooms s).Nodup
  tabled : ∀ sid s, h.session sid = some s → (h.objects s).sid = sid

/-- The job keeps the books of the rooms. -/
def Careful (h : Ctx) (jobs : List Job) (o : Told) : Job → Prop
  | .askSess _ _ => ∀ d ∈ o.data, (d.servers.map (·.2)).Nodup
  | .insert s => h.session (h.objects s).sid = none
  | .dispose s _ => ∀ d ∈ h.session (h.objects s).sid, d = s
  | .clear s => s ∈ h.holders jobs → h.rooms s = []
  | .setRooms s node rooms =>
    (∀ x ∈ (h.objects s).st.servers, x.2 ∈ rooms → x.1 = node) ∧
      (s ∈ h.holders jobs ∨ (∀ r ∈ rooms, r ∈ (h.objects s).st.roomsOf node) ∧
        ∀ r ∈ (h.objects s).st.roomsOf node, r ∈ rooms)
  | .dropRoom s room => room ∈ h.rooms s → s ∈ h.holders jobs
  | .bump room up => up = false → h.roomSubs room ≠ 0
  | _ => True

instance (h : Ctx) (jobs : List Job) (o : Told) : (j : Job) → Decidable (h.Careful jobs o j) := by
  intro j
  cases j <;> unfold Careful <;> infer_instance

end Ctx

def HubPool.jobs (p : HubPool) : List Job := p.threads.flatten

def Careful (p : HubPool) : Sched (List Job) Told → Prop
  | .spawn _ => True
  | .step i o => ∀ j ∈ p.job i, p.shared.Careful p.jobs o j

instance (p : HubPool) : (a : Sched (List Job) Told) → Decidable (Careful p a)
  | .spawn _ => .isTrue trivial
  | .step i o => inferInstanceAs (Decidable (∀ j ∈ p.job i, p.shared.Careful p.jobs o j))

theorem holders_cons (h : Ctx) (j : Job) (C : List Job) :
    (h.holders (j :: C)).Perm (j.holds ++ h.holders C) := by
  simp only [Ctx.holders, List.flatMap_cons]
  exact List.perm_append_comm_assoc _ _ _

theorem holders_append (h : Ctx) (D C : List Job) :
    (h.holders (D ++ C)).Perm (D.flatMap Job.holds ++ h.holders C) := by
  simp only [Ctx.holders, List.flatMap_append]
  exact List.perm_append_comm_assoc _ _ _

theorem load_perm {l l' : List Nat} (hp : l.Perm l') (h : Ctx) (r : String) :
    h.load l r = h.load l' r :=
  (hp.map _).sum_eq

@[simp] theorem load_cons (h : Ctx) (s : Nat) (l : List Nat) (r : String) :
    h.load (s :: l) r = (h.rooms s).count r + h.load l r := rfl

theorem load_congr {l : List Nat} (hr : ∀ s ∈ l, h'.rooms s = h.rooms s) (r : String) :
    h'.load l r = h.load l r := by
  rw [Ctx.load, Ctx.load, List.map_congr_left fun s hs => by rw [hr s hs]]

theorem Ctx.Balanced.perm (hb : h.Balanced ks) {ks' : List Job} (hp : ks'.Perm ks) :
    h.Balanced ks' := by
  have hh : (h.holders ks').Perm (h.holders ks) := (hp.flatMap_right Job.holds).append_left _
  refine ⟨hh.nodup_iff.mpr hb.nodup, fun r => ?_, hb.once, hb.tabled⟩
  rw [hp.count_eq, hp.count_eq, load_perm hh]
  exact hb.sums r

/-! ## Steps that keep the balance -/

theorem count_split (j d : Job) (C : List Job) : (j :: C).count d = [j].count d + C.count d := by
  rw [← List.count_append, List.singleton_append]

/-- Counts and jobs are traded for one another, and the same sessions hold. -/
theorem Ctx.Balanced.trade (hb : h.Balanced (j :: C))
    (hheld : (h'.holders (D ++ C)).Perm (h.holders (j :: C)))
    (hrooms : ∀ s, h'.rooms s = h.rooms s) (hborn : h'.born = h.born)
    (hsums : ∀ r, h'.roomSubs r + D.count (.bump r true) + [j].count (.bump r false) =
      h.roomSubs r + [j].count (.bump r true) + D.count (.bump r false))
    (htabled : ∀ sid s, h'.session sid = some s → (h'.objects s).sid = sid) :
    h'.Balanced (D ++ C) := by
  refine ⟨hheld.nodup_iff.mpr hb.nodup, fun r => ?_, fun s hs => ?_, htabled⟩
  · have hsum := hb.sums r
    rw [load_perm hheld, load_congr (fun s _ => hrooms s), List.count_append, List.count_append]
    rw [count_split j (.bump r true) C, count_split j (.bump r false) C] at hsum
    have := hsums r
    omega
  · rw [hrooms]
    exact hb.once s (hborn ▸ hs)

/-- The job neither counts nor holds. -/
def Job.idle (j : Job) : Prop := j.holds = [] ∧ ∀ r up, j ≠ .bump r up

theorem count_idle (hj : j.idle) (r : String) (up : Bool) : [j].count (.bump r up) = 0 := by
  rw [List.count_eq_zero, List.mem_singleton]
  exact (hj.2 r up).symm

theorem count_idles (hnew : ∀ d ∈ D, d.idle) (r : String) (up : Bool) :
    D.count (.bump r up) = 0 :=
  List.count_eq_zero.mpr fun hm => (hnew _ hm).2 r up rfl

theorem holds_idles (hnew : ∀ d ∈ D, d.idle) : D.flatMap Job.holds = [] :=
  List.flatMap_eq_nil_iff.mpr fun d hd => (hnew d hd).1

theorem Ctx.Balanced.idle (hb : h.Balanced (j :: C)) (hj : j.idle) (hnew : ∀ d ∈ D, d.idle)
    (hsid : h'.bySid = h.bySid) (hrooms : ∀ s, h'.rooms s = h.rooms s) (hborn : h'.born = h.born)
    (hsubs : h'.roomSubs = h.roomSubs) (hids : ∀ s, (h'.objects s).sid = (h.objects s).sid) :
    h'.Balanced (D ++ C) := by
  refine hb.trade ?_ hrooms hborn (fun r => ?_) fun sid s hs => ?_
  · rw [Ctx.holders, hsid, List.flatMap_append, holds_idles hnew, List.nil_append]
    rw [Ctx.holders, List.flatMap_cons, hj.1, List.nil_append]
  · rw [hsubs, count_idle hj, count_idle hj, count_idles hnew, count_idles hnew]
  · rw [hids]
    exact hb.tabled sid s (by rw [Ctx.session, ← hsid]; exact hs)

/-! ## The rooms of one session change -/

theorem modify_rooms (h : Ctx) (s d : Nat) (f : SesState → SesState) :
    (h.modify s f).rooms d = if d = s then (f (h.objects s).st).rooms else h.rooms d := by
  rw [Ctx.rooms, Ctx.modify]
  dsimp only
  split
  · next e => rw [e, Function.update_self]
  · next e =>
    rw [Function.update_of_ne e]
    rfl

theorem load_modify_notMem {s : Nat} {l : List Nat} (hs : s ∉ l) (f : SesState → SesState)
    (r : String) : (h.modify s f).load l r = h.load l r := by
  refine load_congr (fun d hd => ?_) r
  have hne : d ≠ s := fun e => hs (e ▸ hd)
  rw [modify_rooms, if_neg hne]

theorem load_modify_mem {s : Nat} {l : List Nat} (hl : l.Nodup) (hs : s ∈ l)
    (f : SesState → SesState) (r : String) :
    (h.modify s f).load l r + (h.rooms s).count r =
      h.load l r + (f (h.objects s).st).rooms.count r := by
  have hp := List.perm_cons_erase hs
  have hout : s ∉ l.erase s := hl.not_mem_erase
  rw [load_perm hp, load_perm hp, load_cons, load_cons, load_modify_notMem hout, modify_rooms,
    if_pos rfl]
  omega

/-- The rooms of a session change by as much as its jobs are to change the counts, or not at all
when it accounts for nothing. -/
theorem Ctx.Balanced.change {s : Nat} {f : SesState → SesState} (hb : h.Balanced (j :: C))
    (hj : j.idle) (hnew : ∀ d ∈ D, d.holds = [])
    (hnodup : (f (h.objects s).st).rooms.Nodup)
    (hin : s ∈ h.holders (j :: C) → ∀ r, (f (h.objects s).st).rooms.count r +
      D.count (.bump r false) = (h.rooms s).count r + D.count (.bump r true))
    (hout : s ∉ h.holders (j :: C) → ∀ r up, Job.bump r up ∉ D) :
    (h.modify s f).Balanced (D ++ C) := by
  have hholders : (h.modify s f).holders (D ++ C) = h.holders (j :: C) := by
    rw [Ctx.holders, Ctx.holders, List.flatMap_append, List.flatMap_eq_nil_iff.mpr hnew,
      List.flatMap_cons, hj.1]
    rfl
  refine ⟨hholders ▸ hb.nodup, fun r => ?_, fun d hd => ?_, fun sid d hd => ?_⟩
  · have hsum := hb.sums r
    rw [count_split j (.bump r true) C, count_split j (.bump r false) C, count_idle hj,
      count_idle hj] at hsum
    have hsubs : (h.modify s f).roomSubs r = h.roomSubs r := rfl
    rw [hholders, List.count_append, List.count_append, hsubs]
    by_cases hs : s ∈ h.holders (j :: C)
    · have hload := load_modify_mem (h := h) hb.nodup hs f r
      have := hin hs r
      omega
    · have hnone : ∀ up, D.count (.bump r up) = 0 := fun up =>
        List.count_eq_zero.mpr (hout hs r up)
      rw [load_modify_notMem hs, hnone, hnone]
      omega
  · rw [modify_rooms]
    split
    · exact hnodup
    · exact hb.once d hd
  · rw [(modify_identity h d s f).1]
    exact hb.tabled sid d hd

theorem count_bumps (order : Shuffle String) (l : List String) (r : String) (up : Bool) :
    ((order.run l).map (Job.bump · up)).count (.bump r up) = l.count r := by
  rw [List.count_map_of_injective _ _ (fun _ _ e => (Job.bump.inj e).1)]
  exact (order.perm l).count_eq r

theorem count_bumps_other (l : List String) (r : String) {up up' : Bool} (h : up ≠ up') :
    (l.map (Job.bump · up)).count (.bump r up') = 0 := by
  refine List.count_eq_zero.mpr fun hm => ?_
  obtain ⟨x, -, e⟩ := List.mem_map.mp hm
  exact h (Job.bump.inj e).2

theorem holds_bumps {l : List String} {up : Bool} {d : Job} (hd : d ∈ l.map (Job.bump · up)) :
    d.holds = [] := by
  obtain ⟨x, -, rfl⟩ := List.mem_map.mp hd
  rfl

/-- The rooms of a node and those of the others. -/
theorem rooms_split (st : SesState) (node : String) : st.rooms.Perm
    ((st.servers.filter (·.1 ≠ node)).map (·.2) ++ st.roomsOf node) := by
  have := (List.filter_append_perm (fun x : String × String => x.1 ≠ node) st.servers).symm.map
    Prod.snd
  simpa [SesState.rooms, SesState.roomsOf] using this

theorem rooms_withRooms (st : SesState) (node : String) (rooms : List String) :
    (st.withRooms node rooms).rooms = (st.servers.filter (·.1 ≠ node)).map (·.2) ++ rooms := by
  simp [SesState.rooms, SesState.withRooms, Function.comp_def]

/-- What is in the one list only and what is in the other only. -/
theorem count_swap {l l' : List String} (hl : l.Nodup) (hl' : l'.Nodup) (r : String) :
    l'.count r + (l.filter (· ∉ l')).count r = l.count r + (l'.filter (· ∉ l)).count r := by
  have hnot : ∀ {k k' : List String}, r ∉ k ∨ r ∈ k' → (k.filter (· ∉ k')).count r = 0 := by
    intro k k' h
    refine List.count_eq_zero.mpr fun hm => ?_
    obtain ⟨hk, hk'⟩ := List.mem_filter.mp hm
    have hk' : r ∉ k' := of_decide_eq_true hk'
    exact h.elim (· hk) hk'
  by_cases hr : r ∈ l <;> by_cases hr' : r ∈ l'
  · rw [List.count_eq_one_of_mem hl hr, List.count_eq_one_of_mem hl' hr', hnot (.inr hr'),
      hnot (.inr hr)]
  · rw [List.count_filter (by simpa using hr'), List.count_eq_zero.mpr hr', hnot (.inl hr')]
    omega
  · rw [List.count_filter (l := l') (by simpa using hr), List.count_eq_zero.mpr hr, hnot (.inl hr)]
    omega
  · rw [List.count_eq_zero.mpr hr, List.count_eq_zero.mpr hr', hnot (.inl hr), hnot (.inl hr')]

theorem Ctx.Balanced.setRooms {s : Nat} {node : String} {rooms : List String}
    (hb : h.Balanced (.setRooms s node rooms :: C)) (hs : s < h.born)
    (hc : h.Careful (.setRooms s node rooms :: C) o (.setRooms s node rooms)) :
    (h.setRooms o s node rooms).1.Balanced ((h.setRooms o s node rooms).2 ++ C) := by
  obtain ⟨hother, hholds⟩ := hc
  have hsplit := rooms_split (h.objects s).st node
  have hold : ((h.objects s).st.roomsOf node).Nodup :=
    (List.nodup_append.mp (hsplit.nodup_iff.mp (hb.once s hs))).2.1
  rw [Ctx.setRooms]
  dsimp only
  refine hb.change ⟨rfl, fun r up e => by cases e⟩ (fun d hd => ?_) ?_ (fun _ r => ?_)
    fun hout r up hm => ?_
  · rcases List.mem_append.mp hd with hd | hd <;> exact holds_bumps hd
  · rw [rooms_withRooms]
    refine List.nodup_append.mpr ⟨(List.nodup_append.mp (hsplit.nodup_iff.mp (hb.once s hs))).1,
      List.nodup_dedup _, fun x hx y hy e => ?_⟩
    obtain ⟨⟨n, x⟩, hn, rfl⟩ := List.mem_map.mp hx
    obtain ⟨hn, hne⟩ := List.mem_filter.mp hn
    have := hother (n, x) hn (e ▸ List.mem_dedup.mp hy)
    simp_all
  · rw [rooms_withRooms, Ctx.rooms, hsplit.count_eq]
    simp only [List.count_append, count_bumps]
    rw [count_bumps_other _ _ (by decide), count_bumps_other _ _ (by decide)]
    have := count_swap hold (List.nodup_dedup rooms) r
    omega
  · obtain ⟨hsub, hsup⟩ := hholds.resolve_left hout
    rcases List.mem_append.mp hm with hm | hm <;> obtain ⟨x, hx, -⟩ := List.mem_map.mp hm <;>
      rw [Shuffle.mem_run] at hx
    · obtain ⟨hx, hne⟩ := List.mem_filter.mp hx
      exact of_decide_eq_true hne (hsub x (List.mem_dedup.mp hx))
    · obtain ⟨hx, hne⟩ := List.mem_filter.mp hx
      exact of_decide_eq_true hne (List.mem_dedup.mpr (hsup x hx))

theorem Ctx.Balanced.dropRoom {s : Nat} {room : String}
    (hb : h.Balanced (.dropRoom s room :: C)) (hs : s < h.born)
    (hc : h.Careful (.dropRoom s room :: C) o (.dropRoom s room)) :
    (h.run o (.dropRoom s room)).1.Balanced ((h.run o (.dropRoom s room)).2 ++ C) := by
  have hrooms : ((h.objects s).st.withoutRoom room).rooms = (h.rooms s).filter (· ≠ room) := by
    simp only [Ctx.rooms, SesState.rooms, SesState.withoutRoom, List.filter_map]
    rfl
  rw [Ctx.run]
  dsimp only
  refine hb.change ⟨rfl, fun r up e => by cases e⟩ (fun d hd => ?_) ?_ (fun _ r => ?_)
    fun hout r up hm => ?_
  · split at hd
    · rw [List.mem_singleton.mp hd]
      rfl
    · cases hd
  · rw [hrooms]
    exact (hb.once s hs).filter _
  · rw [hrooms]
    by_cases hr : r = room
    · subst hr
      rw [List.count_eq_zero.mpr fun hm => by simpa using (List.mem_filter.mp hm).2]
      split
      · next hmem =>
        rw [List.count_eq_one_of_mem (hb.once s hs) hmem]
        simp
      · next hmem =>
        rw [show (h.rooms s).count r = 0 from List.count_eq_zero.mpr hmem]
        simp
    · rw [List.count_filter (by simpa using hr)]
      split
      · rw [List.count_singleton, List.count_singleton, if_neg, if_neg] <;> simp [Ne.symm hr]
      · rfl
  · split at hm
    · next hmem => exact hout (hc hmem)
    · cases hm

theorem Ctx.Balanced.clear {s : Nat} (hb : h.Balanced (.clear s :: C))
    (hc : h.Careful (.clear s :: C) o (.clear s)) :
    (h.run o (.clear s)).1.Balanced ((h.run o (.clear s)).2 ++ C) := by
  rw [Ctx.run]
  dsimp only
  refine hb.change ⟨rfl, fun r up e => by cases e⟩ (fun d hd => by cases hd) List.nodup_nil
    (fun hin r => ?_) fun _ r up hm => by cases hm
  rw [hc hin]
  rfl

/-! ## Holders come and go -/

/-- The session leaves the table, and its rooms are to be lowered. -/
theorem Ctx.Balanced.unregister {s : Nat} (hb : h.Balanced (j :: C)) (hj : j.idle)
    (hlisted : ∀ d, h.session (h.objects s).sid = some d → d = s) (hnew : ∀ d ∈ D, d.idle) :
    (h.unregister s).1.Balanced ((h.unregister s).2 ++ D ++ C) := by
  by_cases hs : h.session (h.objects s).sid = none
  · rw [Ctx.unregister, if_pos hs]
    exact hb.idle hj hnew rfl (fun _ => rfl) rfl rfl fun _ => rfl
  · obtain ⟨d, hd⟩ := Option.ne_none_iff_exists'.mp hs
    obtain rfl := hlisted d hd
    have htabled : ∀ sid x, (h.unregister d).1.session sid = some x →
        ((h.unregister d).1.objects x).sid = sid := by
      intro sid x hx
      rw [unregister_session] at hx
      split at hx
      · cases hx
      · rw [(unregister_same h d).1]
        exact hb.tabled sid x hx
    revert htabled
    rw [Ctx.unregister, if_neg hs]
    intro htabled
    refine hb.trade ?_ (fun _ => rfl) rfl (fun r => ?_) htabled
    · -- what leaves the table is what `lowerRooms` holds
      have hvalues := Map.values_erase hd
      have huser : (Job.bumpUser (h.objects d).userId false).holds = [] := rfl
      have hlower : (Job.lowerRooms d).holds = [d] := rfl
      simp only [Ctx.holders, List.flatMap_append, List.flatMap_cons, hj.1, holds_idles hnew,
        List.nil_append, List.append_nil, List.flatMap_nil, huser, hlower]
      exact List.perm_middle.trans (hvalues.symm.append_right _)
    · simp only [count_idle hj, List.count_append, count_idles hnew]
      rfl

theorem Ctx.Balanced.insert {s : Nat} (hb : h.Balanced (.insert s :: C))
    (hc : h.Careful (.insert s :: C) o (.insert s)) :
    (h.run o (.insert s)).1.Balanced ((h.run o (.insert s)).2 ++ C) := by
  refine hb.trade ?_ (fun _ => rfl) rfl (fun r => rfl) fun sid d hd => ?_
  · refine .trans (.of_eq ?_) (holders_cons h (.insert s) C).symm
    show Map.values (h.bySid.insert (h.objects s).sid s) ++ C.flatMap Job.holds = _
    rw [Map.values_insert_new hc]
    rfl
  · have hd : (h.bySid.insert (h.objects s).sid s).lookup sid = some d := hd
    rw [Map.lookup_insert_if] at hd
    split at hd
    · next e =>
      rw [← Option.some.inj hd, e]
      rfl
    · exact hb.tabled sid d hd

/-- The rooms that the session accounted for are to be lowered. -/
theorem Ctx.Balanced.lowerRooms {s : Nat} (hb : h.Balanced (.lowerRooms s :: C)) :
    (h.run o (.lowerRooms s)).1.Balanced ((h.run o (.lowerRooms s)).2 ++ C) := by
  have hold := holders_cons h (.lowerRooms s) C
  have hnew : h.holders ((o.order.run (h.rooms s)).map (Job.bump · false) ++ C) =
      h.holders C := by
    rw [Ctx.holders, List.flatMap_append, List.flatMap_eq_nil_iff.mpr fun d hd => holds_bumps hd]
    rfl
  show h.Balanced ((o.order.run (h.rooms s)).map (Job.bump · false) ++ C)
  refine ⟨?_, fun r => ?_, hb.once, hb.tabled⟩
  · rw [hnew]
    exact (List.nodup_cons.mp (hold.nodup_iff.mp hb.nodup)).2
  · have hsum := hb.sums r
    rw [load_perm hold, count_split _ (.bump r true), count_split _ (.bump r false)] at hsum
    have hload : h.load ((Job.lowerRooms s).holds ++ h.holders C) r =
        (h.rooms s).count r + h.load (h.holders C) r := rfl
    have hnone : ∀ up, [Job.lowerRooms s].count (.bump r up) = 0 := fun _ => rfl
    rw [hload, hnone, hnone] at hsum
    rw [hnew, List.count_append, List.count_append, count_bumps, count_bumps_other _ _ (by decide)]
    omega

theorem Ctx.Balanced.bump {room : String} {up : Bool} (hb : h.Balanced (.bump room up :: C))
    (hc : h.Careful (.bump room up :: C) o (.bump room up)) :
    (h.run o (.bump room up)).1.Balanced ((h.run o (.bump room up)).2 ++ C) := by
  refine hb.trade (.refl _) (fun _ => rfl) rfl (fun r => ?_) hb.tabled
  show Ctx.bump h.roomSubs room up r + 0 + [Job.bump room up].count (.bump r false) =
    h.roomSubs r + [Job.bump room up].count (.bump r true) + 0
  rw [Ctx.bump, List.count_singleton, List.count_singleton]
  by_cases hr : r = room
  · subst hr
    rw [Function.update_self]
    cases up with
    | true => simp
    | false =>
      have := hc rfl
      simp
      omega
  · rw [Function.update_of_ne hr]
    simp [Ne.symm hr]

theorem Ctx.Balanced.join {s : Nat} {room : String} (hb : h.Balanced (.join s room :: C)) :
    (h.run o (.join s room)).1.Balanced ((h.run o (.join s room)).2 ++ C) := by
  rw [Ctx.run]
  cases o.node with
  | none =>
    exact hb.idle ⟨rfl, fun r up e => by cases e⟩ (fun d hd => by cases hd) rfl (fun _ => rfl) rfl
      rfl fun _ => rfl
  | some node =>
    refine hb.trade (.refl _) (fun _ => rfl) rfl (fun r => ?_) hb.tabled
    simp [List.count_cons]

/-- The table and the jobs name objects that exist, so those account for rooms. -/
theorem holders_lt (hk : h.Known) (hn : ∀ d ∈ ks, h.Names d) {s : Nat} (hs : s ∈ h.holders ks) :
    s < h.born := by
  rcases List.mem_append.mp hs with hs | hs
  · obtain ⟨sid, hsid⟩ := Map.mem_values.mp hs
    exact hk.listed sid s hsid
  · obtain ⟨d, hd, hs⟩ := List.mem_flatMap.mp hs
    refine hn d hd s ?_
    cases d with
    | insert | lowerRooms => exact hs
    | _ => nomatch hs

/-- A new session accounts for its rooms, which are to be raised. -/
theorem Ctx.Balanced.alloc {x : Session} (hb : h.Balanced (j :: C)) (hk : h.Known)
    (hn : ∀ d ∈ j :: C, h.Names d) (hj : j.idle) (hx : x.st.rooms.Nodup)
    (hnew : D.flatMap Job.holds = [h.born])
    (hups : ∀ r, D.count (.bump r true) = x.st.rooms.count r)
    (hdowns : ∀ r, D.count (.bump r false) = 0) : (h.alloc x).Balanced (D ++ C) := by
  have hfresh : ∀ {s}, s ∈ h.holders C → s < h.born := fun hs =>
    holders_lt hk (fun d hd => hn d (List.mem_cons_of_mem _ hd)) hs
  have hout : h.born ∉ h.holders C := fun hs => Nat.lt_irrefl _ (hfresh hs)
  have hrooms : ∀ s, s ≠ h.born → (h.alloc x).rooms s = h.rooms s := fun s hs => by
    rw [Ctx.rooms, Ctx.alloc]
    dsimp only
    rw [Function.update_of_ne hs]
    rfl
  have hself : (h.alloc x).rooms h.born = x.st.rooms := by
    rw [Ctx.rooms, Ctx.alloc]
    dsimp only
    rw [Function.update_self]
  have hheld : ((h.alloc x).holders (D ++ C)).Perm (h.born :: h.holders C) := by
    have := holders_append (h.alloc x) D C
    rw [hnew] at this
    exact this
  have hold := holders_cons h j C
  rw [hj.1, List.nil_append] at hold
  refine ⟨hheld.nodup_iff.mpr (List.nodup_cons.mpr ⟨hout, hold.nodup_iff.mp hb.nodup⟩),
    fun r => ?_, fun s hs => ?_, fun sid s hs => ?_⟩
  · have hsum := hb.sums r
    rw [load_perm hold, count_split j (.bump r true), count_split j (.bump r false),
      count_idle hj, count_idle hj] at hsum
    have hsubs : (h.alloc x).roomSubs r = h.roomSubs r := rfl
    rw [load_perm hheld, load_cons, hself, List.count_append, List.count_append, hups, hdowns,
      load_congr (fun s hs => hrooms s fun e => hout (e ▸ hs)), hsubs]
    omega
  · rcases Nat.lt_succ_iff_lt_or_eq.mp hs with hs | rfl
    · rw [hrooms s (Nat.ne_of_lt hs)]
      exact hb.once s hs
    · rw [hself]
      exact hx
  · have hs' : h.session sid = some s := hs
    rw [Ctx.alloc]
    dsimp only
    rw [Function.update_of_ne (Nat.ne_of_lt (hk.listed sid s hs'))]
    exact hb.tabled sid s hs'

/-! ## A step -/

/-- Whether a job has to do with rooms or with who is listed. -/
def Job.counts : Job → Bool
  | .insert _ | .lowerRooms _ | .bump _ _ | .setRooms _ _ _ | .dropRoom _ _ | .clear _
  | .dispose _ _ | .handOver _ | .askSess _ _ | .remote _ _ | .join _ _ => true
  | _ => false

/-- The other jobs change no rooms, no counts and no tables. -/
theorem run_quiet (h : Ctx) (o : Told) {j : Job} (hj : j.counts = false) :
    (h.run o j).1.bySid = h.bySid ∧ (h.run o j).1.roomSubs = h.roomSubs ∧
      (h.run o j).1.born = h.born ∧ (∀ s, (h.run o j).1.rooms s = h.rooms s) ∧
      ∀ s, ((h.run o j).1.objects s).sid = (h.objects s).sid := by
  have hsame : ∀ (s : Nat) (f : SesState → SesState), (∀ st, (f st).servers = st.servers) →
      (∀ d, (h.modify s f).rooms d = h.rooms d) ∧
        ∀ d, ((h.modify s f).objects d).sid = (h.objects d).sid := by
    refine fun s f hf => ⟨fun d => ?_, fun d => (modify_identity h d s f).1⟩
    rw [modify_rooms]
    split
    · next e =>
      rw [e, SesState.rooms, hf]
      rfl
    · rfl
  cases j with
  | resumeBind s conn =>
    simp only [Ctx.run]
    exact ⟨rfl, rfl, rfl, hsame s _ fun _ => rfl⟩
  | dropped s conn reclaim =>
    simp only [Ctx.run]
    split
    · split
      · exact ⟨rfl, rfl, rfl, fun _ => rfl, fun _ => rfl⟩
      · dsimp only
        exact ⟨rfl, rfl, rfl, hsame s _ fun _ => rfl⟩
    · exact ⟨rfl, rfl, rfl, fun _ => rfl, fun _ => rfl⟩
  | bind | findSess | verify | evictOld | evict | cut | request | call | resume | resumeNodes
  | affiliation =>
    simp only [Ctx.run]
    repeat' split
    all_goals exact ⟨rfl, rfl, rfl, fun _ => rfl, fun _ => rfl⟩
  | bumpUser | opened | sweep | roomDropped =>
    exact ⟨rfl, rfl, rfl, fun _ => rfl, fun _ => rfl⟩
  | _ => cases hj

/-- They leave jobs that neither count nor hold. -/
theorem run_idle (h : Ctx) (o : Told) {j : Job} (hj : j.counts = false) :
    ∀ d ∈ (h.run o j).2, d.idle := by
  intro d hd
  cases run_leaves hd with
  | moves | raises | makes | unlists | lowers | handsOver | joins | swaps | leavesRoom => cases hj
  | verifies => exact ⟨rfl, fun _ _ e => by cases e⟩
  | visits hd =>
    simp only [List.mem_cons, List.not_mem_nil, or_false] at hd
    rcases hd with rfl | rfl <;> exact ⟨rfl, fun _ _ e => by cases e⟩
  | _ => exact ⟨rfl, fun _ _ e => by cases e⟩

theorem Ctx.Balanced.rest (hb : h.Balanced (j :: C)) (hj : j.counts = false) :
    (h.run o j).1.Balanced ((h.run o j).2 ++ C) := by
  obtain ⟨hsid, hsubs, hborn, hrooms, hids⟩ := run_quiet h o hj
  have hidle : j.idle := by
    cases j with
    | insert | lowerRooms | bump => nomatch hj
    | _ => exact ⟨rfl, fun _ _ e => nomatch e⟩
  exact hb.idle hidle (run_idle h o hj) hsid hrooms hborn hsubs hids

theorem Ctx.Balanced.askSess {conn : Nat} {sid : String} (hb : h.Balanced (.askSess conn sid :: C))
    (hk : h.Known) (hn : ∀ d ∈ Job.askSess conn sid :: C, h.Names d)
    (hc : h.Careful (.askSess conn sid :: C) o (.askSess conn sid)) :
    (h.run o (.askSess conn sid)).1.Balanced ((h.run o (.askSess conn sid)).2 ++ C) := by
  have hidle : (Job.askSess conn sid).idle := ⟨rfl, fun _ _ e => by cases e⟩
  rw [Ctx.run]
  cases hd : o.data with
  | none =>
    refine hb.idle hidle (fun d hd => ?_) rfl (fun _ => rfl) rfl rfl fun _ => rfl
    rw [List.mem_singleton.mp hd]
    exact ⟨rfl, fun _ _ e => by cases e⟩
  | some d =>
    dsimp only
    refine hb.alloc hk hn hidle (hc d hd) ?_ (fun r => ?_) fun r => ?_
    · simp only [List.flatMap_append, List.flatMap_cons]
      rw [List.flatMap_eq_nil_iff.mpr fun d hd => holds_bumps hd]
      rfl
    · simp [-List.map_map, count_bumps, SesState.rooms]
    · simp [-List.map_map, count_bumps_other _ _ (show true ≠ false by decide)]

theorem Ctx.Balanced.remote {conn : Nat} {user : String} (hb : h.Balanced (.remote conn user :: C))
    (hk : h.Known) (hn : ∀ d ∈ Job.remote conn user :: C, h.Names d) :
    (h.run o (.remote conn user)).1.Balanced ((h.run o (.remote conn user)).2 ++ C) :=
  hb.alloc hk hn ⟨rfl, fun _ _ e => nomatch e⟩ List.nodup_nil rfl (fun _ => rfl) fun _ => rfl

theorem Ctx.Balanced.handOver {sid : String} (hb : h.Balanced (.handOver sid :: C)) :
    (h.run o (.handOver sid)).1.Balanced ((h.run o (.handOver sid)).2 ++ C) := by
  have hidle : (Job.handOver sid).idle := ⟨rfl, fun _ _ e => by cases e⟩
  rw [Ctx.run]
  cases hs : h.session sid with
  | none => exact hb.idle hidle (fun d hd => by cases hd) rfl (fun _ => rfl) rfl rfl fun _ => rfl
  | some s =>
    dsimp only
    have hids := modify_identity h s s fun st => { st with conn := none }
    have hb' : (h.modify s fun st => { st with conn := none }).Balanced (.handOver sid :: C) := by
      refine hb.idle (D := [.handOver sid]) hidle (fun d hd => ?_) rfl (fun d => ?_) rfl rfl
        fun d => (modify_identity h d s _).1
      · rw [List.mem_singleton.mp hd]
        exact hidle
      · rw [modify_rooms]
        split
        · next e =>
          rw [e]
          rfl
        · rfl
    have := hb'.unregister (s := s) (D := []) hidle (fun d hd => ?_) fun d hd => by cases hd
    · rw [List.append_nil] at this
      exact this
    · have hd : h.session (((h.modify s _).objects s).sid) = some d := hd
      rw [hids.1, hb.tabled sid s hs, hs, Option.some.injEq] at hd
      exact hd.symm

/-- A careful job keeps the balance. -/
theorem run_balanced (hk : h.Known) (hn : ∀ d ∈ j :: C, h.Names d) (hb : h.Balanced (j :: C))
    (hc : h.Careful (j :: C) o j) : (h.run o j).1.Balanced ((h.run o j).2 ++ C) := by
  have hnames : ∀ s ∈ j.names, s < h.born := hn j List.mem_cons_self
  cases j with
  | setRooms s => exact hb.setRooms (hnames s List.mem_cons_self) hc
  | dropRoom s => exact hb.dropRoom (hnames s List.mem_cons_self) hc
  | clear => exact hb.clear hc
  | insert => exact hb.insert hc
  | lowerRooms => exact hb.lowerRooms
  | bump => exact hb.bump hc
  | join => exact hb.join
  | askSess => exact hb.askSess hk hn hc
  | remote => exact hb.remote hk hn
  | handOver => exact hb.handOver
  | dispose s =>
    refine hb.unregister ⟨rfl, fun _ _ e => nomatch e⟩ (fun d hd => hc d hd) fun d hd => ?_
    rw [List.mem_singleton.mp hd]
    exact ⟨rfl, fun _ _ e => nomatch e⟩
  | _ => exact hb.rest rfl

/-! ## Runs -/

/-- The jobs before and after a step, which replaces one of them. -/
theorem jobs_step {i : Nat} {js : List Job} (hi : p.threads[i]? = some (j :: js)) :
    ∃ l₁ l₂, p.jobs = l₁ ++ j :: l₂ ∧
      ∀ D, (p.threads.set i (D ++ js)).flatten = l₁ ++ (D ++ l₂) := by
  obtain ⟨hlt, hj⟩ := List.getElem?_eq_some_iff.mp hi
  refine ⟨(p.threads.take i).flatten, js ++ (p.threads.drop (i + 1)).flatten, ?_, fun D => ?_⟩
  · rw [HubPool.jobs]
    conv_lhs => rw [← List.take_append_drop i p.threads, List.drop_eq_getElem_cons hlt, hj]
    simp
  · rw [List.set_eq_take_append_cons_drop, if_pos hlt]
    simp

theorem Ctx.Balanced.after (hb : h.Balanced ks) (o : Told) : (h.after o).Balanced ks :=
  ⟨hb.nodup, hb.sums, hb.once, hb.tabled⟩

theorem Ctx.Balanced.append {k : Job} (hb : h.Balanced ks) (hk : k.idle) :
    h.Balanced (ks ++ [k]) := by
  have hheld : h.holders (ks ++ [k]) = h.holders ks := by
    rw [Ctx.holders, List.flatMap_append, List.flatMap_singleton, hk.1, List.append_nil]
    rfl
  refine ⟨hheld ▸ hb.nodup, fun r => ?_, hb.once, hb.tabled⟩
  rw [hheld, List.count_append, List.count_append, count_idle hk, count_idle hk]
  exact hb.sums r

theorem starts_idle (hj : j.starts = true) : j.idle := by
  cases j with
  | insert | lowerRooms | bump => nomatch hj
  | _ => exact ⟨rfl, fun _ _ e => nomatch e⟩

theorem Ctx.Careful.perm {ks' : List Job} (hc : h.Careful ks o j) (hp : ks.Perm ks') :
    h.Careful ks' o j := by
  have hmem : ∀ s, s ∈ h.holders ks ↔ s ∈ h.holders ks' := fun s =>
    ((hp.flatMap_right Job.holds).append_left _).mem_iff
  cases j with
  | clear s => exact fun hs => hc ((hmem s).mpr hs)
  | setRooms s => exact ⟨hc.1, hc.2.imp_left (hmem s).mp⟩
  | dropRoom s => exact fun hr => (hmem s).mp (hc hr)
  | _ => exact hc

theorem Ctx.Careful.after {o' : Told} (hc : h.Careful ks o j) : (h.after o').Careful ks o j := by
  cases j <;> exact hc

/-- The balance and the names of every thread. -/
structure HubPool.Kept (p : HubPool) : Prop where
  known : p.Has Ctx.Known Ctx.Names
  balanced : p.shared.Balanced p.jobs

theorem balanced_next (hp : p.Kept) (hok : hubMachine.ok p a) (hc : Careful p a) :
    (hubMachine.next p a).shared.Balanced (hubMachine.next p a).jobs := by
  show (hub.next p a).shared.Balanced (HubPool.jobs (hub.next p a))
  cases a with
  | spawn js =>
    -- an operation begins with a job that neither counts nor holds
    have hjobs : HubPool.jobs (hub.next p (.spawn js)) = p.jobs ++ js := by
      show (p.threads ++ [js]).flatten = p.threads.flatten ++ js
      simp
    rw [hjobs]
    match js, (hok.1 : hub.fresh js) with
    | [k], hstarts => exact hp.balanced.append (starts_idle hstarts)
  | step i o =>
    cases hi : p.threads[i]? with
    | none =>
      rw [Program.next_step_none hub hi]
      exact hp.balanced
    | some t =>
      rw [Program.next_step hub hi]
      cases t with
      | nil =>
        rw [hub_step_nil]
        have hsame : (p.threads.set i []).flatten = p.jobs := by
          obtain ⟨hlt, ht⟩ := List.getElem?_eq_some_iff.mp hi
          rw [← ht, List.set_getElem_self]
          rfl
        show (p.shared.after o).Balanced (p.threads.set i []).flatten
        rw [hsame]
        exact hp.balanced.after o
      | cons j js =>
        rw [hub_step_cons]
        obtain ⟨l₁, l₂, hjobs, hnew⟩ := jobs_step hi
        have hjob : p.job i = some j := by
          rw [HubPool.job, hi]
          rfl
        have hperm : p.jobs.Perm (j :: (l₁ ++ l₂)) := hjobs ▸ List.perm_middle
        have hb := (hp.balanced.after o).perm hperm.symm
        have hn : ∀ d ∈ j :: (l₁ ++ l₂), (p.shared.after o).Names d := by
          intro d hd
          obtain ⟨ks, hks, hd⟩ := List.mem_flatten.mp (hperm.mem_iff.mpr hd)
          exact hp.known.2 ks hks d hd
        have hc' : (p.shared.after o).Careful (j :: (l₁ ++ l₂)) o j :=
          ((hc j hjob).perm hperm).after
        refine (run_balanced (known_after hp.known.1 o.later) hn hb hc').perm ?_
        rw [HubPool.jobs, hnew]
        exact List.perm_append_comm_assoc _ _ _

theorem kept_run {home : String} {resumeWindowMs : Nat} {as : List (Sched (List Job) Told)}
    (hl : (hubMachine.restrict Careful).Legal (Ctx.start home resumeWindowMs) as) :
    (hubMachine.exec (Ctx.start home resumeWindowMs) as).Kept := by
  have hinit : (Ctx.start home resumeWindowMs).Kept :=
    ⟨⟨known_start _ _, fun js hjs => nomatch hjs⟩, List.nodup_nil, fun r => rfl,
      fun s hs => (nomatch hs), fun sid s hs => nomatch hs⟩
  have := Machine.invariant (M := hubMachine.restrict Careful) (I := HubPool.Kept)
    (fun p a hp hok => ⟨known_next hok.1 hp.known, balanced_next hp hok.1 hok.2⟩) hinit hl
  rw [Machine.restrict_exec] at this
  exact this

/-- Sessions that are in a room at most once. -/
theorem load_eq_countP {l : List Nat} (hl : ∀ s ∈ l, (h.rooms s).Nodup) (r : String) :
    h.load l r = l.countP (r ∈ h.rooms ·) := by
  induction l with
  | nil => rfl
  | cons s l ih =>
    rw [load_cons, ih fun d hd => hl d (List.mem_cons_of_mem _ hd), List.countP_cons,
      (hl s List.mem_cons_self).count]
    simp only [decide_eq_true_eq]
    exact Nat.add_comm _ _

/-- When nothing is in progress, every count is that of the registered sessions in the room. -/
theorem interest_counts {home : String} {resumeWindowMs : Nat}
    {as : List (Sched (List Job) Told)}
    (hl : (hubMachine.restrict Careful).Legal (Ctx.start home resumeWindowMs) as)
    (hq : (hubMachine.exec (Ctx.start home resumeWindowMs) as).quiet) (room : String) :
    let h := (hubMachine.exec (Ctx.start home resumeWindowMs) as).shared
    h.roomSubs room = h.bySid.values.countP (room ∈ h.rooms ·) := by
  have hkept := kept_run hl
  generalize hubMachine.exec (Ctx.start home resumeWindowMs) as = p at hq hkept
  have hjobs : p.jobs = [] := List.flatten_eq_nil_iff.mpr hq
  have hsum := hkept.balanced.sums room
  rw [hjobs, Ctx.holders, List.flatMap_nil, List.append_nil] at hsum
  have honce : ∀ s ∈ p.shared.bySid.values, (p.shared.rooms s).Nodup := by
    intro s hs
    obtain ⟨sid, hsid⟩ := Map.mem_values.mp hs
    exact hkept.balanced.once s (hkept.known.1.listed sid s hsid)
  rw [load_eq_countP honce] at hsum
  exact hsum

/-- `u` binds, joins a room on `n`, and moves on to another one there. -/
def moveOn : List (Sched (List Job) Told) :=
  bindAlone 0 1 "u" "s1" ++
    [.spawn [.join 0 "r"], .step 1 { node := some "n" }, .step 1 {},
      .step 1 { rooms := some ["r"] }, .step 1 {}, .step 1 {}, .step 1 {},
      .spawn [.request 0], .step 2 { node := some "n" }, .step 2 { rooms := some ["q"] }] ++
    List.replicate 3 (.step 2 {})

theorem interest_counts_moveOn :
    let h := (hubMachine.exec (Ctx.start "a" 60000) moveOn).shared
    h.roomSubs "q" = h.bySid.values.countP ("q" ∈ h.rooms ·) :=
  interest_counts (by decide) (by decide) "q"

/-- `u` is evicted while the node answers a join. -/
def evictedJoin : List (Sched (List Job) Told) :=
  bindAlone 0 1 "u" "s1" ++
    [.spawn [.join 0 "r"], .step 1 { node := some "n" }, .step 1 {}, .spawn [.evict "s1"]] ++
    List.replicate 5 (.step 2 {}) ++
    [.step 1 { rooms := some ["r"] }, .step 1 {}, .step 1 {}, .step 1 {}]

/-- No session is registered, and the room keeps a count. -/
theorem interest_leaks :
    hubMachine.Legal (Ctx.start "a" 60000) evictedJoin ∧
      let p := hubMachine.exec (Ctx.start "a" 60000) evictedJoin
      p.quiet ∧ p.shared.bySid.values = [] ∧ p.shared.roomSubs "r" = 1 := by
  decide

end OxlensSfu.Hub
