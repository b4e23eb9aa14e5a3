import OxlensSfu.Floor.Queue

/-!
# Binding the media slots

The floor decides under the room lock, the media slots are bound after it is dropped, so effects
reach a slot in any order (`crates/oxsfud/src/flr/bind.rs`). Each carries the number of the grant
it belongs to, and `Slot.apply` uses the numbers to drop what is out of date.

`Slot.Shows` states what a slot shows as a property of the set of effects it was given:
the bind with the highest number, unless that grant was released. The order does not occur in it.
Along a run of the floor that bind is the holder (`BindInv`).
-/

namespace OxlensSfu.Flr

/-! ## Slots -/

/-- An effect of a decision, with the number of its grant. -/
inductive Effect where
  | bind (user : String) (g : Nat)
  | release (g : Nat)
  deriving DecidableEq, Repr

namespace Effect

def g : Effect → Nat
  | .bind _ g => g
  | .release g => g

/-- The number that a bind takes. -/
def bindNo : Effect → Option Nat
  | .bind _ g => some g
  | .release _ => none

end Effect

structure Slot where
  bound : Option (String × Nat) := none
  maxSeen : Option Nat := none
  deriving DecidableEq, Repr

namespace Slot

/-- The slot after the effect, and whether the effect took place. -/
def apply (s : Slot) : Effect → Slot × Bool
  | .bind user g =>
    if s.maxSeen.any (g ≤ ·) then (s, false)
    else ({ maxSeen := some g, bound := some (user, g) }, true)
  | .release g =>
    let s := { s with maxSeen := some (match s.maxSeen with | none => g | some m => max m g) }
    match s.bound with
    | some (_, b) => if b ≤ g then ({ s with bound := none }, true) else (s, false)
    | none => (s, false)

def speaker (s : Slot) : Option String := s.bound.map (·.1)

def applyAll (s : Slot) (es : List Effect) : Slot := es.foldl (fun s e => (s.apply e).1) s

end Slot

/-! ## What a slot shows -/

/-- Of these effects, the bind of `u` with number `n` is the one that counts. -/
structure Effect.Wins (es : List Effect) (u : String) (n : Nat) : Prop where
  bind : .bind u n ∈ es
  kept : .release n ∉ es
  top : ∀ e ∈ es, e.g ≤ n

/-- The state of a slot after the effects `es`, in whatever order they came. -/
structure Slot.Shows (es : List Effect) (s : Slot) : Prop where
  seen : ∀ m, s.maxSeen = some m → ∃ e ∈ es, e.g = m
  top : ∀ e ∈ es, ∃ m, s.maxSeen = some m ∧ e.g ≤ m
  bound : ∀ u n, s.bound = some (u, n) ↔ Effect.Wins es u n

theorem Slot.shows_nil : Slot.Shows [] {} where
  seen _ h := by simp at h
  top _ h := by simp at h
  bound u n := by
    refine ⟨?_, ?_⟩
    · intro h
      simp at h
    · intro h
      simpa using h.bind

/-- A bind above everything seen so far. -/
theorem Slot.shows_bind_new {es : List Effect} {u : String} {g : Nat} (hg : ∀ e ∈ es, e.g < g) :
    Slot.Shows (es ++ [.bind u g]) { maxSeen := some g, bound := some (u, g) } where
  seen m hm := ⟨.bind u g, by simp, Option.some.inj hm⟩
  top e he := by
    refine ⟨g, rfl, ?_⟩
    rcases List.mem_append.1 he with he | he
    · exact (hg e he).le
    · simp [List.mem_singleton.1 he, Effect.g]
  bound u' n := by
    refine ⟨?_, ?_⟩
    · intro e
      obtain ⟨rfl, rfl⟩ : u = u' ∧ g = n := by simpa using e
      refine ⟨by simp, ?_, ?_⟩
      · intro hr
        have hr' : Effect.release g ∈ es := by simpa using hr
        exact absurd (hg _ hr') (lt_irrefl _)
      · intro e he
        rcases List.mem_append.1 he with he | he
        · exact (hg e he).le
        · simp [List.mem_singleton.1 he, Effect.g]
    · intro hw
      have hle : g ≤ n := hw.top (.bind u g) (by simp)
      rcases List.mem_append.1 hw.bind with hb | hb
      · exact absurd (hg _ hb) (not_lt_of_ge hle)
      · simp at hb
        simp [hb]

/-- A bind at or below something seen: it loses, and takes the place of nothing. -/
theorem Slot.Shows.bind_old {es : List Effect} {s : Slot} (h : s.Shows es) {u : String} {g m : Nat}
    (hm : s.maxSeen = some m) (hg : g ≤ m) (hnew : g ∉ es.filterMap Effect.bindNo) :
    Slot.Shows (es ++ [.bind u g]) s where
  seen m' hm' := by
    obtain ⟨e, he, heq⟩ := h.seen m' hm'
    exact ⟨e, List.mem_append_left _ he, heq⟩
  top e he := by
    rcases List.mem_append.1 he with he | he
    · exact h.top e he
    · exact ⟨m, hm, by simpa [List.mem_singleton.1 he, Effect.g] using hg⟩
  bound u' n := by
    obtain ⟨e₀, he₀, hem⟩ := h.seen m hm
    rw [h.bound]
    refine ⟨?_, ?_⟩
    · intro hw
      have hmn : m ≤ n := hem ▸ hw.top e₀ he₀
      refine ⟨List.mem_append_left _ hw.bind, by simpa using hw.kept, ?_⟩
      intro e he
      rcases List.mem_append.1 he with he | he
      · exact hw.top e he
      · simp only [List.mem_singleton.1 he, Effect.g]
        omega
    · intro hw
      have hmn : m ≤ n := hem ▸ hw.top e₀ (List.mem_append_left _ he₀)
      have hrest : Effect.release n ∉ es := fun hr => hw.kept (List.mem_append_left _ hr)
      rcases List.mem_append.1 hw.bind with hb | hb
      · exact ⟨hb, hrest, fun e he => hw.top e (List.mem_append_left _ he)⟩
      · -- the newcomer would win: what was seen with its number is neither a bind nor a release
        obtain ⟨rfl, rfl⟩ : u' = u ∧ n = g := by simpa using hb
        obtain rfl : m = n := le_antisymm hmn hg
        cases e₀ with
        | bind w k =>
          refine absurd (List.mem_filterMap.2 ⟨_, he₀, ?_⟩) hnew
          exact congrArg some hem
        | release k => exact absurd (hem ▸ he₀) hrest

theorem Slot.Shows.release {es : List Effect} {s : Slot} (h : s.Shows es) (g : Nat) :
    Slot.Shows (es ++ [.release g]) (s.apply (.release g)).1 := by
  have hseen : (s.apply (.release g)).1.maxSeen =
      some (match s.maxSeen with | none => g | some m => max m g) := by
    rw [Slot.apply]
    dsimp only
    split
    · split_ifs <;> rfl
    · rfl
  have hbound : ∀ u n, (s.apply (.release g)).1.bound = some (u, n) ↔
      s.bound = some (u, n) ∧ g < n := by
    intro u n
    rw [Slot.apply]
    dsimp only
    cases hb : s.bound with
    | none => simp
    | some b =>
      by_cases hle : b.2 ≤ g
      · simp only [hle, if_true, reduceCtorEq, false_iff, Option.some.injEq, not_and, not_lt]
        rintro rfl
        exact hle
      · simp only [hle, if_false, Option.some.injEq, iff_self_and]
        rintro rfl
        omega
  refine ⟨?_, ?_, ?_⟩
  · intro m hm
    rw [hseen] at hm
    cases hs : s.maxSeen with
    | none =>
      rw [hs] at hm
      exact ⟨.release g, by simp, Option.some.inj hm⟩
    | some m₀ =>
      rw [hs] at hm
      obtain ⟨e, he, heq⟩ := h.seen m₀ hs
      have hmax : max m₀ g = m := Option.some.inj hm
      rcases le_total m₀ g with hle | hle
      · exact ⟨.release g, by simp, by rw [← hmax, max_eq_right hle]; rfl⟩
      · exact ⟨e, List.mem_append_left _ he, by rw [← hmax, max_eq_left hle, heq]⟩
  · intro e he
    refine ⟨_, hseen, ?_⟩
    rcases List.mem_append.1 he with he | he
    · obtain ⟨m, hm, hle⟩ := h.top e he
      rw [hm]
      exact hle.trans (le_max_left _ _)
    · rw [List.mem_singleton.1 he]
      cases s.maxSeen with
      | none => exact le_refl g
      | some m => exact le_max_right m g
  · intro u n
    rw [hbound, h.bound]
    refine ⟨?_, ?_⟩
    · intro hwins
      obtain ⟨hw, hlt⟩ := hwins
      refine ⟨List.mem_append_left _ hw.bind, ?_, ?_⟩
      · intro hr
        rcases List.mem_append.1 hr with hr | hr
        · exact hw.kept hr
        · simp at hr
          omega
      · intro e he
        rcases List.mem_append.1 he with he | he
        · exact hw.top e he
        · rw [List.mem_singleton.1 he]
          exact hlt.le
    · intro hw
      have hle : g ≤ n := hw.top (.release g) (by simp)
      have hne : g ≠ n := fun e => hw.kept (by simp [e])
      refine ⟨⟨by simpa using hw.bind, fun hr => hw.kept (List.mem_append_left _ hr),
        fun e he => hw.top e (List.mem_append_left _ he)⟩, by omega⟩

/-- **One effect.** -/
theorem Slot.Shows.apply {es : List Effect} {s : Slot} (h : s.Shows es) (e : Effect)
    (hnew : ∀ g, e.bindNo = some g → g ∉ es.filterMap Effect.bindNo) :
    Slot.Shows (es ++ [e]) (s.apply e).1 := by
  cases e with
  | release g => exact h.release g
  | bind u g =>
    rw [Slot.apply]
    split_ifs with hold
    · obtain ⟨m, hm, hle⟩ := (Option.any_eq_true _ _).1 hold
      exact h.bind_old hm (by simpa using hle) (hnew g rfl)
    · refine Slot.shows_bind_new ?_
      intro e he
      obtain ⟨m, hm, hle⟩ := h.top e he
      rw [hm] at hold
      simp only [Option.any_some, decide_eq_true_eq, not_le] at hold
      omega

/-- **A slot shows the same after its effects in any order**, if no two binds share a number. -/
theorem Slot.applyAll_shows {es : List Effect} (hd : (es.filterMap Effect.bindNo).Nodup) :
    Slot.Shows es (Slot.applyAll {} es) := by
  induction es using List.reverseRecOn with
  | nil => exact Slot.shows_nil
  | append_singleton es e ih =>
    rw [List.filterMap_append, List.nodup_append] at hd
    obtain ⟨hes, -, hdisj⟩ := hd
    rw [Slot.applyAll, List.foldl_append]
    refine (ih hes).apply e ?_
    intro g hg hmem
    exact hdisj g hmem g (by simp [hg]) rfl

theorem Effect.Wins.perm {es es' : List Effect} {u : String} {n : Nat} (h : Effect.Wins es u n)
    (hp : es'.Perm es) : Effect.Wins es' u n where
  bind := hp.mem_iff.2 h.bind
  kept hr := h.kept (hp.mem_iff.1 hr)
  top e he := h.top e (hp.mem_iff.1 he)

/-! ## Effects of a run -/

/-- The effects of one decision: a bind takes the next grant number, a release carries the current
one. The number after them comes first. -/
def number (n : Nat) : List Fx → Nat × List Effect
  | [] => (n, [])
  | .bind u :: fx =>
    let (m, es) := number (n + 1) fx
    (m, .bind u (n + 1) :: es)
  | .release _ :: fx =>
    let (m, es) := number n fx
    (m, .release n :: es)

/-- The history of a run: the grant number, and the effects of all decisions. -/
def grants (h : Nat × List Effect) (f : Floor) (o : Op) : Nat × List Effect :=
  let (n, es) := number h.1 (f.apply o).r.fx
  (n, h.2 ++ es)

/-- What the effects of a move say of the holder: a bind names the new one, a release leaves
none, and without an effect it stays. -/
inductive HolderStep (v : View) (fx : List Fx) (v' : View) : Prop
  | same : fx = [] → v'.holder = v.holder → HolderStep v fx v'
  | bind (u : String) : fx = [.bind u] → v'.holder = some u → HolderStep v fx v'
  | release (prev : Option String) : fx = [.release prev] → v'.holder = none →
      HolderStep v fx v'

/-- Giving the floor up, from any state with this queue. -/
theorem View.Freed.holderStep {v v₀ : View} {fx : List Fx} (h : v.Freed fx) :
    HolderStep v₀ fx v.idleEnter := by
  have hh := v.idleEnter_holder
  cases hq : v.queue with
  | nil =>
    rw [View.Freed, hq] at h
    obtain ⟨prev, rfl⟩ := h
    exact .release prev rfl (by rw [hh, hq]; rfl)
  | cons w ws =>
    rw [View.Freed, hq] at h
    exact .bind w.u h (by rw [hh, hq]; rfl)

theorem HolderStep.congr {v v' w w' : View} {fx : List Fx} (h : HolderStep v fx v')
    (hw : w.holder = v.holder) (hw' : w'.holder = v'.holder) : HolderStep w fx w' := by
  cases h with
  | same hfx hs => exact .same hfx (by rw [hw', hs, hw])
  | bind u hfx hs => exact .bind u hfx (hw'.trans hs)
  | release prev hfx hs => exact .release prev hfx (hw'.trans hs)

theorem Away.holderStep {u : String} {v : View} {fx : List Fx} {v' : View} (h : Away u v fx v') :
    HolderStep v fx v' := by
  cases h with
  | speaker _ _ hf => exact hf.holderStep
  | revoking | queued | other => exact .same rfl rfl

theorem Move.holderStep {o : Op} {v : View} {fx : List Fx} {v' : View} (h : Move o v fx v') :
    HolderStep v fx v' := by
  cases h with
  | tune | stray | settle | enqueue | dequeue | lower | regrant | again | join =>
    exact .same rfl rfl
  | preempt u sp p _ _ _ _ hg hs => exact .same rfl (holder_of_taken ⟨hg, hs⟩).symm
  | revoke u f cause _ hg hs => exact .same rfl (holder_of_taken ⟨hg, hs⟩).symm
  | free u f _ _ hf => exact View.Freed.holderStep (v := v.upd u f) hf
  | grant u p => exact .bind u rfl rfl
  | pubAway u h => exact h.holderStep.congr rfl rfl
  | leave u h => exact h.holderStep.congr rfl rfl
  | rejoin u perm _ _ _ hf => exact hf.holderStep.congr rfl rfl

/-- The effects of a run and the floor: the last grant is the holder's, or it was released. -/
structure BindInv (s : Floor × (Nat × List Effect)) : Prop where
  agreement : s.1.view.Agreement
  distinct : (s.2.2.filterMap Effect.bindNo).Nodup
  le : ∀ e ∈ s.2.2, e.g ≤ s.2.1
  held : ∀ u, s.1.holder = some u → .bind u s.2.1 ∈ s.2.2 ∧ .release s.2.1 ∉ s.2.2
  free : s.1.holder = none → s.2.2 = [] ∨ .release s.2.1 ∈ s.2.2

theorem bindInv_new (qmax t2Secs : Nat) : BindInv (Floor.new qmax t2Secs, (0, [])) where
  agreement := agreement_new qmax t2Secs
  distinct := .nil
  le _ h := by simp at h
  held _ h := nomatch h
  free _ := .inl rfl

theorem step_bindInv (s : Floor × (Nat × List Effect)) (o : Op) (h : BindInv s)
    (ha : o.Armed s.1) : BindInv ((machine.logged grants).next s o) := by
  obtain ⟨f, n, es⟩ := s
  have hm := f.move o h.agreement.held ha
  have hagree : (f.apply o).fl.view.Agreement := hm.agreement h.agreement
  show BindInv ((f.apply o).fl, grants (n, es) f o)
  cases hm.holderStep with
  | same hfx hs =>
    rw [show grants (n, es) f o = (n, es) by simp [grants, hfx, number]]
    refine ⟨hagree, h.distinct, h.le, fun u hu => h.held u ?_, fun hn => h.free ?_⟩
    · exact hs.symm.trans hu
    · exact hs.symm.trans hn
  | bind u hfx hs =>
    have hlt : ∀ e ∈ es, e.g < n + 1 := fun e he => Nat.lt_succ_of_le (h.le e he)
    rw [show grants (n, es) f o = (n + 1, es ++ [.bind u (n + 1)]) by simp [grants, hfx, number]]
    refine ⟨hagree, ?_, ?_, ?_, ?_⟩
    · refine List.filterMap_append ▸ List.nodup_append.2 ⟨h.distinct, by simp [Effect.bindNo], ?_⟩
      rintro k hk k' hk' rfl
      obtain ⟨e, he, hek⟩ := List.mem_filterMap.1 hk
      cases e with
      | release _ => simp [Effect.bindNo] at hek
      | bind w m =>
        have hm : m < n + 1 := hlt _ he
        simp [Effect.bindNo] at hek hk'
        omega
    · intro e he
      rcases List.mem_append.1 he with he | he
      · exact (hlt e he).le
      · simp [List.mem_singleton.1 he, Effect.g]
    · intro w hw
      obtain rfl : u = w := Option.some.inj (hs.symm.trans hw)
      refine ⟨by simp, ?_⟩
      intro hr
      have hr' : Effect.release (n + 1) ∈ es := by simpa using hr
      exact absurd (hlt _ hr') (lt_irrefl _)
    · intro hn
      exact absurd (hs.symm.trans hn) (by simp)
  | release prev hfx hs =>
    rw [show grants (n, es) f o = (n, es ++ [.release n]) by simp [grants, hfx, number]]
    refine ⟨hagree, ?_, ?_, ?_, fun _ => .inr (by simp)⟩
    · rw [List.filterMap_append, show [Effect.release n].filterMap Effect.bindNo = [] from rfl,
        List.append_nil]
      exact h.distinct
    · intro e he
      rcases List.mem_append.1 he with he | he
      · exact h.le e he
      · simp [List.mem_singleton.1 he, Effect.g]
    · intro w hw
      exact absurd (hs.symm.trans hw) (by simp)

theorem run_bindInv {qmax t2Secs : Nat} {ops : List Op}
    (hl : machine.Legal (Floor.new qmax t2Secs) ops) :
    BindInv ((machine.logged grants).exec (Floor.new qmax t2Secs, (0, [])) ops) :=
  Machine.invariant (fun s o h ha => step_bindInv s o h ha) (bindInv_new qmax t2Secs)
    ((Machine.logged_legal grants _ ops).2 hl)

/-- What a slot shows after the effects of a run in any order. -/
theorem BindInv.shows {s : Floor × (Nat × List Effect)} (h : BindInv s) {es : List Effect}
    (hp : es.Perm s.2.2) :
    (∀ u, s.1.holder = some u → (Slot.applyAll {} es).bound = some (u, s.2.1)) ∧
      (s.1.holder = none → (Slot.applyAll {} es).bound = none) := by
  have hshow : Slot.Shows es (Slot.applyAll {} es) :=
    Slot.applyAll_shows ((hp.filterMap _).nodup_iff.2 h.distinct)
  refine ⟨?_, ?_⟩
  · intro u hu
    obtain ⟨hb, hr⟩ := h.held u hu
    have hw : Effect.Wins s.2.2 u s.2.1 := ⟨hb, hr, h.le⟩
    exact (hshow.bound u _).2 (hw.perm hp)
  · intro hn
    by_contra hb
    obtain ⟨⟨u, n⟩, hb⟩ := Option.ne_none_iff_exists'.1 hb
    have hw := ((hshow.bound u n).1 hb).perm hp.symm
    rcases h.free hn with he | hr
    · exact absurd hw.bind (by simp [he])
    · have hn : n = s.2.1 := le_antisymm (h.le _ hw.bind) (hw.top _ hr)
      exact hw.kept (hn ▸ hr)

/-- **The media binding follows the floor, whatever the order of execution.** Apply the effects of
any run to a fresh slot in any order: the slot is bound to the holder under the last grant number
if the floor is held, and to nobody if it is idle. -/
theorem slot_follows_floor (qmax t2Secs : Nat) (ops : List Op)
    (hl : machine.Legal (Floor.new qmax t2Secs) ops) (es : List Effect)
    (hp : es.Perm ((machine.logged grants).exec (Floor.new qmax t2Secs, (0, [])) ops).2.2) :
    let f := machine.exec (Floor.new qmax t2Secs) ops
    let grantNo := ((machine.logged grants).exec (Floor.new qmax t2Secs, (0, [])) ops).2.1
    (f.g ≠ .idle → ∃ u, f.holder = some u ∧
      (Slot.applyAll {} es).bound = some (u, grantNo)) ∧
    (f.g = .idle → (Slot.applyAll {} es).bound = none) := by
  intro f grantNo
  have h := run_bindInv hl
  have hf : ((machine.logged grants).exec (Floor.new qmax t2Secs, (0, [])) ops).1 = f :=
    Machine.logged_exec_fst grants _ ops
  have hs := h.shows hp
  have hheld : f.view.Held := hf ▸ h.agreement.held
  rw [hf] at hs
  refine ⟨?_, fun hg => hs.2 ?_⟩
  · intro hg
    obtain ⟨u, hu⟩ := hheld.exists hg
    exact ⟨u, hu, hs.1 u hu⟩
  · rw [Floor.holder, hg]

/-- `b` follows `a` without a release in between. -/
def successionRun : List Op :=
  [.wsJoin "a" true, .wsJoin "b" true, .wsPubSelect "a", .wsPubSelect "b",
    .serverRx "a" { t := .request } true 0, .serverRx "b" { t := .request } true 0, .t1]

/-- The bind of `b` is executed first. -/
theorem slot_follows_floor_late_bind :
    machine.Legal (Floor.new 10 30) successionRun ∧
    ∃ u, (machine.exec (Floor.new 10 30) successionRun).holder = some u ∧
      (Slot.applyAll {} [.bind "b" 2, .bind "a" 1]).bound =
        some (u, ((machine.logged grants).exec (Floor.new 10 30, (0, [])) successionRun).2.1) :=
  ⟨by decide, (slot_follows_floor 10 30 successionRun (by decide) [.bind "b" 2, .bind "a" 1]
    (by decide)).1 (by decide)⟩

end OxlensSfu.Flr
