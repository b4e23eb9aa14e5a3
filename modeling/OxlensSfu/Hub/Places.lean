import OxlensSfu.Hub.View

/-!
# Places and live tokens

The view of a hub keeps one place for a room, and learns late that its token is gone
(`crates/oxhubd/src/bus/view.rs`). Runs are lists of token events and settles, at any times; beside
the view stands which room tokens are live.

**Theorem (`places_backed`).** Where no delete waits and no room is held, every place is backed by
a live token, or a settle let go of it because its node was live.

**Theorem (`live_rooms_placed`).** A room with a live token has a place, of a token that is live or
of a room that is held, as long as no settle takes up the delete of a place, or lets go of it, when
another token of its room is live. A settle that does loses such a room (`unfair_settle_loses`).

The first follows one place from event to event: `Backed` says why it is there. The second follows
a room: it is `Placed` until a settle gives its place up.
-/

namespace OxlensSfu.Hub

open View (gone)

/-- The view, and the room tokens whose last event was a put. -/
structure Watch where
  view : View
  live : String → Loc → Bool := fun _ _ => false

def heard (live : String → Loc → Bool) : TokenEv → String → Loc → Bool
  | .roomPut r node inst, room, loc => if room = r ∧ loc = ⟨node, inst⟩ then true else live room loc
  | .roomDel r node inst, room, loc => if room = r ∧ loc = ⟨node, inst⟩ then false else live room loc
  | _, room, loc => live room loc

inductive ViewAct where
  | token (ev : TokenEv) (now : Nat)
  | settle (now : Nat)
  deriving DecidableEq

def watch : Machine Watch ViewAct where
  ok _ _ := True
  next w a := match a with
    | .token ev now => ⟨w.view.onToken ev now, heard w.live ev⟩
    | .settle now => { w with view := (w.view.settle now).1 }

theorem watch_token (w : Watch) (ev : TokenEv) (now : Nat) :
    watch.next w (.token ev now) = ⟨w.view.onToken ev now, heard w.live ev⟩ := rfl

theorem watch_settle (w : Watch) (now : Nat) :
    watch.next w (.settle now) = { w with view := (w.view.settle now).1 } := rfl

/-- A hub that has seen nothing. -/
def Watch.start (selfNode selfInst : String) (graceMs : Nat) : Watch :=
  ⟨.new selfNode selfInst graceMs, fun _ _ => false⟩

/-! ## Why a place is there -/

/-- The event is of this token. -/
def About (room : String) (loc : Loc) : ViewAct → Prop
  | .token ev _ => ev = .roomPut room loc.node loc.inst ∨ ev = gone room loc
  | .settle _ => False

/-- A settle lets go of the room and leaves its place: the node is live. -/
def Keeps (v : View) (now : Nat) (room : String) (loc : Loc) : Prop :=
  room ∈ v.held ∧ v.releases now ∧ (v.settle now).1.routing.lookup room = some loc ∧
    (v.settle now).1.ownerLive loc = true

/-- A settle of the run let go of the room and left its place, and nothing came of the token
since. -/
def Kept (s : Watch) (as : List ViewAct) (room : String) (loc : Loc) : Prop :=
  ∃ l₁ now l₂, as = l₁ ++ .settle now :: l₂ ∧ Keeps (watch.exec s l₁).view now room loc ∧
    ∀ a ∈ l₂, ¬ About room loc a

def Backed (s : Watch) (as : List ViewAct) (room : String) (loc : Loc) : Prop :=
  (watch.exec s as).live room loc = true ∨ gone room loc ∈ (watch.exec s as).view.pending ∨
    room ∈ (watch.exec s as).view.held ∨ Kept s as room loc

variable {s w : Watch} {as : List ViewAct} {room : String} {loc : Loc}

theorem exec_snoc (s : Watch) (as : List ViewAct) (a : ViewAct) :
    watch.exec s (as ++ [a]) = watch.next (watch.exec s as) a := by
  rw [Machine.exec_append]
  rfl

theorem Kept.snoc (h : Kept s as room loc) {a : ViewAct} (ha : ¬ About room loc a) :
    Kept s (as ++ [a]) room loc := by
  obtain ⟨l₁, now, l₂, rfl, hkeeps, hsince⟩ := h
  refine ⟨l₁, now, l₂ ++ [a], by simp, hkeeps, fun b hb => ?_⟩
  rcases List.mem_append.mp hb with hb | hb
  · exact hsince b hb
  · exact List.mem_singleton.mp hb ▸ ha

theorem heard_put (live : String → Loc → Bool) (room : String) (loc : Loc) :
    heard live (.roomPut room loc.node loc.inst) room loc = true := if_pos ⟨rfl, rfl⟩

theorem heard_gone (live : String → Loc → Bool) (room : String) (loc : Loc) :
    heard live (gone room loc) room loc = false := if_pos ⟨rfl, rfl⟩

/-- An event of another token. -/
theorem heard_other (live : String → Loc → Bool) {ev : TokenEv} {now : Nat}
    (h : ¬ About room loc (.token ev now)) : heard live ev room loc = live room loc := by
  rw [About, not_or] at h
  cases ev with
  | nodePut node inst | nodeDel node inst => rfl
  | roomPut r node inst =>
    refine if_neg fun e => h.1 ?_
    rw [e.1, e.2]
  | roomDel r node inst =>
    refine if_neg fun e => h.2 ?_
    rw [gone, e.1, e.2]

/-- One step of the run of a place. -/
theorem Backed.snoc
    (ih : ∀ room loc, (watch.exec s as).view.routing.lookup room = some loc → Backed s as room loc)
    (a : ViewAct) (h : (watch.exec s (as ++ [a])).view.routing.lookup room = some loc) :
    Backed s (as ++ [a]) room loc := by
  rw [Backed]
  rw [exec_snoc] at h ⊢
  cases a with
  | token ev now =>
    rw [watch_token] at h ⊢
    dsimp only at h ⊢
    rw [View.onToken_pending, View.onToken_held]
    by_cases habout : About room loc (.token ev now)
    · rcases habout with e | e
      · rw [e]
        exact .inl (heard_put _ _ _)
      · exact .inr (.inl (.inl e))
    · -- the place is the one of before: another put of the room would have replaced it
      have hput : ∀ node inst, ev ≠ .roomPut room node inst := by
        intro node inst e
        rw [e, View.onToken_routing] at h
        simp only [if_true, Option.some.injEq] at h
        exact habout (.inl (by rw [e, ← h]))
      have hplace : (watch.exec s as).view.routing.lookup room = some loc := by
        rw [View.onToken_routing] at h
        cases ev with
        | roomPut r node inst =>
          dsimp only at h
          rw [if_neg fun e => hput node inst (by rw [e])] at h
          exact h
        | nodePut node inst | nodeDel node inst | roomDel r node inst => exact h
      rw [heard_other _ habout]
      rcases ih room loc hplace with hlive | hpend | hheld | hkept
      · exact .inl hlive
      · exact .inr (.inl (.inr ⟨hpend, hput _ _⟩))
      · exact .inr (.inr (.inl ⟨hheld, hput⟩))
      · exact .inr (.inr (.inr (hkept.snoc habout)))
  | settle now =>
    rw [watch_settle] at h ⊢
    dsimp only at h ⊢
    obtain ⟨hpend', hroute, hheld'⟩ := View.settle_spec (watch.exec s as).view now
    have hbefore := (hroute room loc).mp h
    rcases ih room loc hbefore.1 with hlive | hpend | hheld | hkept
    · exact .inl hlive
    · by_cases hdue : (watch.exec s as).view.settleDue now = true
      · -- the delete was taken up, and the place is still there: it is held
        have hholds : (watch.exec s as).view.holds now room loc := by
          by_contra hn
          refine hbefore.2.1 ⟨hdue, hpend, fun hi => hn ⟨hdue, hpend, hi⟩⟩
        refine .inr (.inr (.inl ((hheld' room).mpr ⟨?_, .inr ⟨loc, hbefore.1, hholds⟩⟩)))
        intro hrel
        rcases hrel with hrel | hrel
        · rw [hrel.1] at hpend
          nomatch hpend
        · exact hrel.2 hholds.2.2.1
      · rw [hpend', if_neg hdue]
        exact .inr (.inl hpend)
    · by_cases hrel : (watch.exec s as).view.releases now
      · refine .inr (.inr (.inr ⟨as, now, [], rfl, ?_, fun a ha => nomatch ha⟩))
        exact ⟨hheld, hrel, h, hbefore.2.2 hrel hheld⟩
      · exact .inr (.inr (.inl ((hheld' room).mpr ⟨hrel, .inl hheld⟩)))
    · exact .inr (.inr (.inr (hkept.snoc id)))

theorem backed_run {selfNode selfInst : String} {graceMs : Nat} (as : List ViewAct) :
    ∀ room loc, (watch.exec (.start selfNode selfInst graceMs) as).view.routing.lookup room =
      some loc → Backed (.start selfNode selfInst graceMs) as room loc := by
  induction as using List.reverseRecOn with
  | nil => exact fun room loc h => nomatch h
  | append_singleton as a ih => exact fun room loc h => Backed.snoc ih a h

/-- Where no delete waits and nothing is held, a place is backed by a live token, or a settle
left it at the end of a hold. -/
theorem places_backed {selfNode selfInst : String} {graceMs : Nat} {as : List ViewAct}
    (hpend : (watch.exec (.start selfNode selfInst graceMs) as).view.pending = [])
    (hheld : (watch.exec (.start selfNode selfInst graceMs) as).view.held = [])
    (hplace : (watch.exec (.start selfNode selfInst graceMs) as).view.routing.lookup room =
      some loc) :
    (watch.exec (.start selfNode selfInst graceMs) as).live room loc = true ∨
      Kept (.start selfNode selfInst graceMs) as room loc := by
  rcases backed_run as room loc hplace with hlive | hp | hh | hkept
  · exact .inl hlive
  · rw [hpend] at hp
    nomatch hp
  · rw [hheld] at hh
    nomatch hh
  · exact .inr hkept

/-- Another node comes and goes with its room; it comes back without it. -/
def comeback : List ViewAct :=
  [.token (.nodePut "b" "h1") 0, .token (.roomPut "r" "b" "i") 0, .token (.roomDel "r" "b" "i") 10,
    .token (.nodeDel "b" "h1") 20, .settle 2000, .token (.nodePut "b" "h2") 5000, .settle 7000]

/-- The place of a room that is gone for good stays: its node is live. -/
theorem place_outlives_token :
    let w := watch.exec (.start "a" "ai" 30000) comeback
    w.view.isolated = none ∧ w.view.pending = [] ∧ w.view.held = [] ∧
      w.view.routing.lookup "r" = some ⟨"b", "i"⟩ ∧ w.live "r" ⟨"b", "i"⟩ = false := by
  decide

theorem places_backed_comeback :
    (watch.exec (.start "a" "ai" 30000) comeback).live "r" ⟨"b", "i"⟩ = true ∨
      Kept (.start "a" "ai" 30000) comeback "r" ⟨"b", "i"⟩ :=
  places_backed (by decide) (by decide) (by decide)

/-! ## Why a live room has a place -/

/-- A room with a live token has a place, whose delete may wait or be held. -/
def Placed (w : Watch) : Prop :=
  ∀ room l, w.live room l = true → ∃ loc, w.view.routing.lookup room = some loc ∧
    (w.live room loc = true ∨ gone room loc ∈ w.view.pending ∨ room ∈ w.view.held)

/-- No settle gives up the place of a room that has another live token: it neither takes up the
delete of the place, nor lets go of the room. -/
def Fair (w : Watch) : ViewAct → Prop
  | .token _ _ => True
  | .settle now => ∀ room loc, w.view.routing.lookup room = some loc →
      w.view.drops now room loc ∨ w.view.releases now ∧ room ∈ w.view.held →
      ∀ l, w.live room l = false

theorem Placed.token (h : Placed w) (ev : TokenEv) (now : Nat) :
    Placed (watch.next w (.token ev now)) := by
  rw [watch_token]
  intro room l hlive
  dsimp only at hlive ⊢
  by_cases hput : ∃ node inst, ev = .roomPut room node inst
  · obtain ⟨node, inst, rfl⟩ := hput
    refine ⟨⟨node, inst⟩, ?_, .inl (heard_put _ room ⟨node, inst⟩)⟩
    rw [View.onToken_routing]
    exact if_pos rfl
  · -- no put of the room: it has the place that it had, and its live token was live
    have hne : ∀ node inst, ev ≠ .roomPut room node inst := fun node inst e =>
      hput ⟨node, inst, e⟩
    have hbefore : w.live room l = true := by
      by_cases habout : About room l (.token ev now)
      · rcases habout with e | e
        · exact absurd e (hne _ _)
        · rw [e, heard_gone] at hlive
          nomatch hlive
      · rwa [heard_other _ habout] at hlive
    obtain ⟨loc, hloc, hwhy⟩ := h room l hbefore
    have hplace : (w.view.onToken ev now).routing.lookup room = some loc := by
      rw [View.onToken_routing]
      cases ev with
      | roomPut r node inst =>
        dsimp only
        rw [if_neg fun e => hne node inst (by rw [e])]
        exact hloc
      | nodePut node inst | nodeDel node inst | roomDel r node inst => exact hloc
    refine ⟨loc, hplace, ?_⟩
    rw [View.onToken_pending, View.onToken_held]
    by_cases habout : About room loc (.token ev now)
    · exact .inr (.inl (.inl (habout.resolve_left (hne _ _))))
    · rw [heard_other _ habout]
      rcases hwhy with hlive | hpend | hheld
      · exact .inl hlive
      · exact .inr (.inl (.inr ⟨hpend, hne _ _⟩))
      · exact .inr (.inr ⟨hheld, hne⟩)

theorem Placed.settle (h : Placed w) {now : Nat} (hfair : Fair w (.settle now)) :
    Placed (watch.next w (.settle now)) := by
  rw [watch_settle]
  intro room l hlive
  dsimp only at hlive ⊢
  obtain ⟨hpend', hroute, hheld'⟩ := View.settle_spec w.view now
  obtain ⟨loc, hloc, hwhy⟩ := h room l hlive
  -- a fair settle leaves the place of a live room, and does not let go of it
  have hstays : ¬ (w.view.drops now room loc ∨ w.view.releases now ∧ room ∈ w.view.held) := by
    intro hgives
    have := hfair room loc hloc hgives l
    rw [hlive] at this
    nomatch this
  rw [not_or] at hstays
  refine ⟨loc, (hroute room loc).mpr ⟨hloc, hstays.1, fun hr hh => absurd ⟨hr, hh⟩ hstays.2⟩, ?_⟩
  rcases hwhy with hlive | hpend | hheld
  · exact .inl hlive
  · by_cases hdue : w.view.settleDue now = true
    · have hholds : w.view.holds now room loc := by
        by_contra hn
        exact hstays.1 ⟨hdue, hpend, fun hi => hn ⟨hdue, hpend, hi⟩⟩
      refine .inr (.inr ((hheld' room).mpr ⟨fun hrel => ?_, .inr ⟨loc, hloc, hholds⟩⟩))
      rcases hrel with hrel | hrel
      · rw [hrel.1] at hpend
        nomatch hpend
      · exact hrel.2 hholds.2.2.1
    · rw [hpend', if_neg hdue]
      exact .inr (.inl hpend)
  · exact .inr (.inr ((hheld' room).mpr ⟨fun hr => hstays.2 ⟨hr, hheld⟩, .inl hheld⟩))

/-- Where no delete waits, a room with a live token has a place, of a token that is live or of a
room that is held. -/
def Found (w : Watch) : Prop :=
  w.view.pending = [] → ∀ room l, w.live room l = true →
    ∃ loc, w.view.routing.lookup room = some loc ∧ (w.live room loc = true ∨ room ∈ w.view.held)

theorem live_rooms_placed {selfNode selfInst : String} {graceMs : Nat} {as : List ViewAct}
    (hl : (watch.restrict Fair).Legal (.start selfNode selfInst graceMs) as) :
    Found (watch.exec (.start selfNode selfInst graceMs) as) := by
  have hplaced : Placed ((watch.restrict Fair).exec (.start selfNode selfInst graceMs) as) := by
    refine Machine.invariant (fun w a h hok => ?_) (fun room l h => nomatch h) hl
    cases a with
    | token ev now => exact h.token ev now
    | settle now => exact h.settle hok.2
  rw [Machine.restrict_exec] at hplaced
  intro hpend room l hlive
  obtain ⟨loc, hloc, hwhy⟩ := hplaced room l hlive
  refine ⟨loc, hloc, hwhy.imp id fun h => h.resolve_left ?_⟩
  rw [hpend]
  exact List.not_mem_nil

/-- A room is created again before the delete of its first token comes. -/
def successor : List ViewAct :=
  [.token (.roomPut "r" "b" "i") 0, .token (.roomPut "r" "c" "j") 10,
    .token (.roomDel "r" "b" "i") 20, .settle 2000]

theorem live_rooms_placed_successor : Found (watch.exec (.start "a" "ai" 30000) successor) := by
  refine live_rooms_placed ⟨⟨trivial, trivial⟩, ⟨trivial, trivial⟩, ⟨trivial, trivial⟩,
    ⟨trivial, fun room loc hplace hgives => ?_⟩, trivial⟩
  rcases hgives with hdrops | hrel
  · -- the delete that waits is not of the place
    have hgone : gone room loc ∈ [TokenEv.roomDel "r" "b" "i"] := hdrops.2.1
    rw [List.mem_singleton, gone, TokenEv.roomDel.injEq] at hgone
    obtain ⟨rfl, hnode, -⟩ := hgone
    have hother : some (⟨"c", "j"⟩ : Loc) = some loc := hplace
    rw [Option.some.injEq] at hother
    rw [← hother] at hnode
    exact absurd hnode (by decide)
  · exact absurd hrel.2 List.not_mem_nil

/-- Two tokens of a room, and the delete of the later one. -/
def overlap : List ViewAct :=
  [.token (.roomPut "r" "b" "i") 0, .token (.roomPut "r" "c" "j") 10,
    .token (.roomDel "r" "c" "j") 20, .settle 2000]

/-- The room of the first token is without a place. -/
theorem live_room_lost :
    let w := watch.exec (.start "a" "ai" 30000) overlap
    w.view.pending = [] ∧ w.live "r" ⟨"b", "i"⟩ = true ∧ w.view.routing.lookup "r" = none := by
  decide

/-! ## A settle that is not fair -/

/-- What waits to be deleted and what is held is not live. -/
structure Dead (w : Watch) : Prop where
  pending : ∀ room loc, gone room loc ∈ w.view.pending → w.live room loc = false
  held : ∀ room loc, room ∈ w.view.held → w.view.routing.lookup room = some loc →
    w.live room loc = false

theorem Dead.next (h : Dead w) (a : ViewAct) : Dead (watch.next w a) := by
  cases a with
  | token ev now =>
    rw [watch_token]
    refine ⟨fun room loc hgone => ?_, fun room loc hheld hplace => ?_⟩
    · dsimp only at hgone ⊢
      rw [View.onToken_pending] at hgone
      by_cases habout : About room loc (.token ev now)
      · rcases habout with e | e
        · exact hgone.elim (fun e' => nomatch e.symm.trans e') fun hg => absurd e hg.2
        · rw [e, heard_gone]
      · rw [heard_other _ habout]
        exact hgone.elim (fun e => absurd (.inr e) habout) fun hg => h.pending room loc hg.1
    · dsimp only at hheld hplace ⊢
      rw [View.onToken_held] at hheld
      have hbefore : w.view.routing.lookup room = some loc := by
        rw [View.onToken_routing] at hplace
        cases ev with
        | roomPut r node inst =>
          dsimp only at hplace
          rw [if_neg fun e => hheld.2 node inst (by rw [e])] at hplace
          exact hplace
        | nodePut node inst | nodeDel node inst | roomDel r node inst => exact hplace
      by_cases habout : About room loc (.token ev now)
      · rw [habout.resolve_left (hheld.2 _ _), heard_gone]
      · rw [heard_other _ habout]
        exact h.held room loc hheld.1 hbefore
  | settle now =>
    rw [watch_settle]
    obtain ⟨hpend', hroute, hheld'⟩ := View.settle_spec w.view now
    refine ⟨fun room loc hgone => ?_, fun room loc hheld hplace => ?_⟩
    · dsimp only at hgone
      rw [hpend'] at hgone
      split at hgone
      · nomatch hgone
      · exact h.pending room loc hgone
    · have hbefore := ((hroute room loc).mp hplace).1
      rcases ((hheld' room).mp hheld).2 with hheld | ⟨l, hl, hholds⟩
      · exact h.held room loc hheld hbefore
      · rw [hbefore, Option.some.injEq] at hl
        exact h.pending room loc (hl ▸ hholds.2.1)

theorem dead_run {selfNode selfInst : String} {graceMs : Nat} (as : List ViewAct) :
    Dead (watch.exec (.start selfNode selfInst graceMs) as) := by
  induction as using List.reverseRecOn with
  | nil => exact ⟨fun _ _ _ => rfl, fun _ _ _ _ => rfl⟩
  | append_singleton as a ih =>
    rw [exec_snoc]
    exact ih.next a

/-- The first settle of a run that is not fair leaves a live room without a place. -/
theorem unfair_settle_loses {selfNode selfInst : String} {graceMs now : Nat} {as : List ViewAct}
    (h : ¬ Fair (watch.exec (.start selfNode selfInst graceMs) as) (.settle now)) :
    ¬ Found (watch.exec (.start selfNode selfInst graceMs) (as ++ [.settle now])) := by
  have hdead : Dead (watch.exec (.start selfNode selfInst graceMs) as) := dead_run as
  rw [exec_snoc, watch_settle]
  generalize watch.exec (.start selfNode selfInst graceMs) as = w at h hdead
  simp only [Fair, not_forall, Bool.not_eq_false] at h
  obtain ⟨room, loc, hplace, hgives, l, hlive⟩ := h
  intro hfound
  obtain ⟨hpend', hroute, hheld'⟩ := View.settle_spec w.view now
  have hpend : (w.view.settle now).1.pending = [] := by
    rw [hpend']
    split
    · rfl
    · next hdue =>
      rcases hgives with hdrops | ⟨hrel, -⟩
      · exact absurd hdrops.1 hdue
      · exact hrel.elim And.left fun hr => absurd hr.1 hdue
  obtain ⟨loc', hplace', hwhy⟩ := hfound hpend room l hlive
  obtain ⟨hold, hstays, -⟩ := (hroute room loc').mp hplace'
  rw [hplace, Option.some.injEq] at hold
  obtain rfl := hold
  rcases hgives with hdrops | ⟨hrel, hheld⟩
  · exact hstays hdrops
  · rcases hwhy with hlive' | hheld''
    · have := hdead.held room loc hheld hplace
      dsimp only at hlive'
      rw [this] at hlive'
      nomatch hlive'
    · exact ((hheld' room).mp hheld'').1 hrel

end OxlensSfu.Hub
