import OxlensSfu.Lib.Maps
import OxlensSfu.Lib.Threads

/-!
# Interest subscriptions

A hub subscribes to the notices of a room or user while someone is interested in it
(`interest` of `crates/oxhubd/src/bus/mod.rs`). The call counts, and when it is the first it waits
for the subscription and puts the forwarder of it into the entry. The entry may be gone by then, or
be another one with a subscription of its own; the forwarder is dropped when it finds no entry
that lacks one.

**Theorem (`interest_exact`).** When no call is in progress, the entries are those of the names with
more calls up than down, each with their difference and one live forwarder, and no other forwarder
is alive. Subscriptions are taken to succeed, and no call down to begin without a call up that has
counted.

Whoever makes an entry without a forwarder is waiting for one. This is all that the invariant has to
say about the calls in progress (`Kept.bare`).
-/

namespace OxlensSfu.Bus

/-! ## The entries -/

inductive Ev where
  | room (room : String)
  | user (user : String)
  deriving DecidableEq, Repr

/-- A task that passes notices on, until it is dropped. -/
structure Forward where
  id : Nat
  which : Ev
  deriving DecidableEq, Repr

structure Entry where
  count : Nat
  forward : Option Forward := none
  deriving DecidableEq, Repr

/-- The two maps of a `Bus`, and the forwarders that are alive. -/
structure Subs where
  roomSubs : Map String Entry := ∅
  userSubs : Map String Entry := ∅
  alive : List Forward := []
  born : Nat := 0

namespace Subs

def get (b : Subs) : Ev → Option Entry
  | .room r => b.roomSubs.lookup r
  | .user u => b.userSubs.lookup u

def insert (b : Subs) (w : Ev) (e : Entry) : Subs :=
  match w with
  | .room r => { b with roomSubs := b.roomSubs.insert r e }
  | .user u => { b with userSubs := b.userSubs.insert u e }

/-- A forwarder that is dropped is aborted. -/
def drop (b : Subs) (f : Option Forward) : Subs := { b with alive := b.alive.filter (some · ≠ f) }

def remove (b : Subs) (w : Ev) : Subs :=
  let f := (b.get w).bind (·.forward)
  match w with
  | .room r => { b with roomSubs := b.roomSubs.erase r }.drop f
  | .user u => { b with userSubs := b.userSubs.erase u }.drop f

/-- A call with a negative delta. -/
def lower (b : Subs) (w : Ev) : Subs :=
  match b.get w with
  | none => b
  | some e =>
    if e.count - 1 = 0 then b.remove w else b.insert w { e with count := e.count - 1 }

/-- A call with a positive delta up to its wait, and whether there was an entry. -/
def raise (b : Subs) (w : Ev) : Subs × Bool :=
  match b.get w with
  | some e => (b.insert w { e with count := e.count + 1 }, true)
  | none => (b.insert w { count := 1 }, false)

/-- The same call after its wait. `ok` tells whether the subscription was made. -/
def subscribed (b : Subs) (w : Ev) (ok : Bool) : Subs :=
  if ok then
    let f : Forward := ⟨b.born, w⟩
    let b := { b with alive := b.alive ++ [f], born := b.born + 1 }
    match b.get w with
    | some e => if e.forward = none then b.insert w { e with forward := some f } else b.drop (some f)
    | none => b.drop (some f)
  else
    match b.get w with
    | some e => if e.forward = none then b.remove w else b
    | none => b

def interested (b : Subs) (room : String) : Nat := ((b.get (.room room)).map (·.count)).getD 0

end Subs

/-! ## The calls -/

inductive Phase where
  | begun
  | subscribing
  | done
  deriving DecidableEq, Repr

/-- A call of `interest`; `up` is the sign of its delta. -/
structure Call where
  which : Ev
  up : Bool
  phase : Phase := .begun
  deriving DecidableEq, Repr

def program : Program Subs Call Bool where
  fresh t := t.phase = .begun
  step b ok t :=
    match t.phase with
    | .begun =>
      if t.up then
        let (b, bumped) := b.raise t.which
        (b, { t with phase := if bumped then .done else .subscribing })
      else (b.lower t.which, { t with phase := .done })
    | .subscribing => (b.subscribed t.which ok, { t with phase := .done })
    | .done => (b, t)

abbrev Pool := Program.Pool Subs Call

namespace Pool

variable (p : Pool)

/-- The calls up, also those in progress. -/
def ups (w : Ev) : Nat := p.threads.countP fun t => t.which = w ∧ t.up

def downs (w : Ev) : Nat := p.threads.countP fun t => t.which = w ∧ ¬ t.up

/-- The calls up that have counted. -/
def raised (w : Ev) : Nat := p.threads.countP fun t => t.which = w ∧ t.up ∧ t.phase ≠ .begun

def lowered (w : Ev) : Nat := p.threads.countP fun t => t.which = w ∧ ¬ t.up ∧ t.phase ≠ .begun

/-- No more calls down have begun than calls up have counted. -/
def Paired : Prop := ∀ w, p.downs w ≤ p.raised w

/-- No call is in progress. -/
def Idle : Prop := ∀ t ∈ p.threads, t.phase = .done

end Pool

/-- The subscription is made, and the calls stay paired. -/
def Assumed (p : Pool) (a : Program.Sched Call Bool) : Prop :=
  (match a with
    | .spawn _ => True
    | .step _ ok => ok = true) ∧ Pool.Paired (program.next p a)

/-! ## What is kept -/

/-- The entries have these counts, and whoever waits for a subscription is counted by `waits`. -/
structure Kept (b : Subs) (load : Ev → Nat) (waits : Ev → Prop) : Prop where
  load : ∀ w, ((b.get w).map (·.count)).getD 0 = load w
  pos : ∀ w e, b.get w = some e → 0 < e.count
  held : ∀ f, f ∈ b.alive ↔ ∃ e, b.get f.which = some e ∧ e.forward = some f
  named : ∀ w e f, b.get w = some e → e.forward = some f → f.which = w
  bare : ∀ w e, b.get w = some e → e.forward = none → waits w
  nodup : b.alive.Nodup
  young : ∀ f ∈ b.alive, f.id < b.born

namespace Subs

variable {b : Subs} {w : Ev}

theorem get_insert (b : Subs) (w : Ev) (e : Entry) (v : Ev) :
    (b.insert w e).get v = if v = w then some e else b.get v := by
  cases w <;> cases v <;> simp [insert, get, Map.lookup_insert_if]

@[simp] theorem alive_insert (b : Subs) (w : Ev) (e : Entry) : (b.insert w e).alive = b.alive := by
  cases w <;> rfl

@[simp] theorem born_insert (b : Subs) (w : Ev) (e : Entry) : (b.insert w e).born = b.born := by
  cases w <;> rfl

@[simp] theorem get_drop (b : Subs) (f : Option Forward) (v : Ev) : (b.drop f).get v = b.get v := by
  cases v <;> rfl

theorem get_remove (b : Subs) (w v : Ev) :
    (b.remove w).get v = if v = w then none else b.get v := by
  cases w <;> cases v <;> simp [remove, drop, get, Map.lookup_erase_if]

theorem alive_remove (b : Subs) (w : Ev) :
    (b.remove w).alive = b.alive.filter (some · ≠ (b.get w).bind (·.forward)) := by
  cases w <;> rfl

@[simp] theorem born_remove (b : Subs) (w : Ev) : (b.remove w).born = b.born := by
  cases w <;> rfl

end Subs

namespace Kept

variable {b b' : Subs} {load : Ev → Nat} {waits waits' : Ev → Prop} {w : Ev}

theorem mono (h : Kept b load waits) (hw : ∀ v, waits v → waits' v) : Kept b load waits' :=
  { h with bare := fun v e he hn => hw v (h.bare v e he hn) }

/-- One entry is changed, and the forwarders of its name with it. -/
theorem change (h : Kept b load waits) {o : Option Entry}
    (hget : ∀ v, b'.get v = if v = w then o else b.get v)
    (halive : ∀ f, f ∈ b'.alive ↔ f ∈ b.alive ∧ f.which ≠ w ∨ ∃ e, o = some e ∧ e.forward = some f)
    (hpos : ∀ e, o = some e → 0 < e.count)
    (hnamed : ∀ e f, o = some e → e.forward = some f → f.which = w ∧ f.id < b'.born)
    (hbare : ∀ e, o = some e → e.forward = none → waits' w)
    (hwaits : ∀ v, v ≠ w → waits v → waits' v) (hnodup : b'.alive.Nodup)
    (hborn : b.born ≤ b'.born) :
    Kept b' (Function.update load w ((o.map (·.count)).getD 0)) waits' where
  load v := by
    rw [hget, Function.update_apply]
    split_ifs
    · rfl
    · exact h.load v
  pos v e he := by
    rw [hget] at he
    split_ifs at he
    · exact hpos e he
    · exact h.pos v e he
  held f := by
    rw [halive, hget]
    split_ifs with hf
    · simp [hf]
    · constructor
      · rintro (⟨hf', -⟩ | ⟨e, ho, he⟩)
        · exact (h.held f).1 hf'
        · exact absurd (hnamed e f ho he).1 hf
      · exact fun he => .inl ⟨(h.held f).2 he, hf⟩
  named v e f he hf := by
    rw [hget] at he
    split_ifs at he with hv
    · exact (hnamed e f he hf).1.trans hv.symm
    · exact h.named v e f he hf
  bare v e he hn := by
    rw [hget] at he
    split_ifs at he with hv
    · exact hv ▸ hbare e he hn
    · exact hwaits v hv (h.bare v e he hn)
  nodup := hnodup
  young f hf := by
    rcases (halive f).1 hf with ⟨hf, -⟩ | ⟨e, ho, he⟩
    · exact Nat.lt_of_lt_of_le (h.young f hf) hborn
    · exact (hnamed e f ho he).2

/-- An entry is written. -/
theorem put (h : Kept b load waits) {e : Entry}
    (hget : ∀ v, b'.get v = if v = w then some e else b.get v)
    (halive : ∀ f, f ∈ b'.alive ↔ f ∈ b.alive ∧ f.which ≠ w ∨ e.forward = some f)
    (hpos : 0 < e.count) (hnamed : ∀ f, e.forward = some f → f.which = w ∧ f.id < b'.born)
    (hbare : e.forward = none → waits' w) (hwaits : ∀ v, v ≠ w → waits v → waits' v)
    (hnodup : b'.alive.Nodup) (hborn : b.born ≤ b'.born) :
    Kept b' (Function.update load w e.count) waits' := by
  refine h.change hget (fun f => ?_) ?_ ?_ ?_ hwaits hnodup hborn
  · rw [halive]
    simp
  · intro e' he'
    exact Option.some.inj he' ▸ hpos
  · intro e' f he' hf
    obtain rfl := Option.some.inj he'
    exact hnamed f hf
  · intro e' he' hf
    obtain rfl := Option.some.inj he'
    exact hbare hf

/-- The forwarders of one name are the one in its entry. -/
theorem split (h : Kept b load waits) (w : Ev) (f : Forward) :
    f ∈ b.alive ↔ f ∈ b.alive ∧ f.which ≠ w ∨ ∃ e, b.get w = some e ∧ e.forward = some f := by
  constructor
  · intro hf
    by_cases hw : f.which = w
    · exact .inr (hw ▸ (h.held f).1 hf)
    · exact .inl ⟨hf, hw⟩
  · rintro (⟨hf, -⟩ | ⟨e, he, hf⟩)
    · exact hf
    · exact (h.held f).2 ⟨e, h.named w e f he hf ▸ he, hf⟩

theorem split_some (h : Kept b load waits) {e : Entry} (he : b.get w = some e) (f : Forward) :
    f ∈ b.alive ↔ f ∈ b.alive ∧ f.which ≠ w ∨ e.forward = some f := by
  refine (h.split w f).trans (or_congr_right ?_)
  rw [he]
  simp

theorem split_none (h : Kept b load waits) (he : b.get w = none) (f : Forward) :
    f ∈ b.alive ↔ f ∈ b.alive ∧ f.which ≠ w := by
  refine (h.split w f).trans (or_iff_left ?_)
  rw [he]
  simp

theorem load_some (h : Kept b load waits) {e : Entry} (he : b.get w = some e) :
    load w = e.count := by
  rw [← h.load w, he, Option.map_some, Option.getD_some]

theorem load_none (h : Kept b load waits) (he : b.get w = none) : load w = 0 := by
  rw [← h.load w, he, Option.map_none, Option.getD_none]

/-- The count of an entry is changed. -/
theorem recount (h : Kept b load waits) {e : Entry} (he : b.get w = some e) {n : Nat}
    (hn : 0 < n) : Kept (b.insert w { e with count := n }) (Function.update load w n) waits := by
  refine @put b _ load waits waits w h { e with count := n } (b.get_insert w _) ?_ hn ?_
    (h.bare w e he) (fun _ _ hv => hv) ?_ ?_
  · intro f
    rw [Subs.alive_insert]
    exact h.split_some he f
  · intro f hf
    rw [Subs.born_insert]
    have halive := (h.split_some he f).2 (.inr hf)
    exact ⟨h.named w e f he hf, h.young f halive⟩
  · rw [Subs.alive_insert]
    exact h.nodup
  · rw [Subs.born_insert]

theorem raise (h : Kept b load waits) (w : Ev)
    (hwaits : ∀ v, waits v → waits' v) (hnew : (b.raise w).2 = false → waits' w) :
    Kept (b.raise w).1 (Function.update load w (load w + 1)) waits' := by
  rw [Subs.raise] at hnew ⊢
  cases he : b.get w with
  | some e =>
    rw [h.load_some he]
    exact (h.recount he (Nat.succ_pos _)).mono hwaits
  | none =>
    rw [he] at hnew
    rw [h.load_none he]
    refine @put b _ load waits waits' w h { count := 1 } (b.get_insert w _) ?_ Nat.one_pos nofun
      (fun _ => hnew rfl) (fun v _ hv => hwaits v hv) ?_ ?_
    · intro f
      rw [Subs.alive_insert, h.split_none he f]
      simp
    · rw [Subs.alive_insert]
      exact h.nodup
    · rw [Subs.born_insert]

theorem lower (h : Kept b load waits) (w : Ev) :
    Kept (b.lower w) (Function.update load w (load w - 1)) waits := by
  rw [Subs.lower]
  cases he : b.get w with
  | none =>
    have hsame : Function.update load w (load w - 1) = load := by
      rw [h.load_none he, Nat.zero_sub, ← h.load_none he, Function.update_eq_self]
    rw [hsame]
    exact h
  | some e =>
    rw [h.load_some he]
    dsimp only
    split_ifs with hlast
    · rw [hlast]
      refine h.change (b.get_remove w) ?_ nofun nofun nofun (fun _ _ hv => hv) ?_ ?_
      · intro f
        rw [Subs.alive_remove, List.mem_filter, he, Option.bind_some, decide_eq_true_eq]
        constructor
        · rintro ⟨hf, hne⟩
          rcases (h.split_some he f).1 hf with hf | hf
          · exact .inl hf
          · exact absurd hf.symm hne
        · rintro (⟨hf, hw⟩ | ⟨e', he', -⟩)
          · exact ⟨hf, fun hf => hw (h.named w e f he hf.symm)⟩
          · exact nomatch he'
      · rw [Subs.alive_remove]
        exact h.nodup.filter _
      · rw [Subs.born_remove]
    · exact h.recount he (Nat.pos_of_ne_zero hlast)

theorem same (h : Kept b load waits) (hget : b'.get = b.get) (halive : b'.alive = b.alive)
    (hborn : b.born ≤ b'.born) (hwaits : ∀ w e, b.get w = some e → e.forward = none → waits' w) :
    Kept b' load waits' where
  load := hget ▸ h.load
  pos := hget ▸ h.pos
  held f := by
    rw [halive, hget]
    exact h.held f
  named := hget ▸ h.named
  bare := hget ▸ hwaits
  nodup := halive ▸ h.nodup
  young f hf := Nat.lt_of_lt_of_le (h.young f (halive ▸ hf)) hborn

/-- A new forwarder is no old one. -/
theorem fresh (h : Kept b load waits) (w : Ev) : ⟨b.born, w⟩ ∉ b.alive :=
  fun hf => Nat.lt_irrefl _ (h.young _ hf)

/-- A forwarder that finds no entry without one is gone again. -/
theorem unused (h : Kept b load waits) (w : Ev) :
    ({ b with alive := b.alive ++ [⟨b.born, w⟩], born := b.born + 1 : Subs }.drop
      (some ⟨b.born, w⟩)).alive = b.alive := by
  have hkeep : ∀ f ∈ b.alive, decide (some f ≠ some (⟨b.born, w⟩ : Forward)) = true := by
    intro f hf
    exact decide_eq_true fun he => h.fresh w (Option.some.inj he ▸ hf)
  rw [Subs.drop, List.filter_append, List.filter_eq_self.2 hkeep]
  simp

theorem subscribed (h : Kept b load waits) (w : Ev) (hwaits : ∀ v, v ≠ w → waits v → waits' v) :
    Kept (b.subscribed w true) load waits' := by
  have hother : ∀ v e, v ≠ w → b.get v = some e → e.forward = none → waits' v :=
    fun v e hv he hn => hwaits v hv (h.bare v e he hn)
  rw [Subs.subscribed, if_pos rfl]
  dsimp only
  have hget : ∀ v, Subs.get { b with alive := b.alive ++ [⟨b.born, w⟩], born := b.born + 1 } v =
      b.get v := by
    intro v
    cases v <;> rfl
  rw [hget]
  cases he : b.get w with
  | none =>
    refine h.same (funext fun v => ?_) (h.unused w) (Nat.le_succ _) fun v e hv hn => ?_
    · rw [Subs.get_drop, hget]
    · refine hother v e ?_ hv hn
      rintro rfl
      exact nomatch he.symm.trans hv
  | some e =>
    dsimp only
    split_ifs with hn
    · have hput := @put b _ load waits waits' w h { e with forward := some ⟨b.born, w⟩ }
        (fun v => (Subs.get_insert _ w _ v).trans (by rw [hget])) ?_ (h.pos w e he) ?_ nofun hwaits
        ?_ ?_
      · have hload : Function.update load w e.count = load := by
          rw [← h.load_some he, Function.update_eq_self]
        rw [← hload]
        exact hput
      · intro f
        rw [Subs.alive_insert, List.mem_append, List.mem_singleton, h.split_some he f, hn]
        simp [eq_comm]
      · intro f hf
        rw [Subs.born_insert, ← Option.some.inj hf]
        exact ⟨rfl, Nat.lt_succ_self _⟩
      · rw [Subs.alive_insert]
        exact List.nodup_append.2 ⟨h.nodup, List.nodup_singleton _,
          fun f hf g hg he => h.fresh w (List.mem_singleton.1 hg ▸ he ▸ hf)⟩
      · rw [Subs.born_insert]
        exact Nat.le_succ _
    · refine h.same (funext fun v => ?_) (h.unused w) (Nat.le_succ _) fun v e' hv hn' => ?_
      · rw [Subs.get_drop, hget]
      · refine hother v e' ?_ hv hn'
        rintro rfl
        exact hn (Option.some.inj (he.symm.trans hv) ▸ hn')

end Kept

/-! ## The calls of a run -/

namespace Pool

variable {p : Pool} {i : Nat} {t t' : Call}

/-- A count of the calls after one of them has taken a step. -/
theorem countP_step (q : Call → Bool) {ts : List Call} (h : ts[i]? = some t) (t' : Call) :
    (ts.set i t').countP q + (if q t then 1 else 0) = ts.countP q + if q t' then 1 else 0 := by
  obtain ⟨hi, rfl⟩ := List.getElem?_eq_some_iff.1 h
  have hpos : (if q ts[i] then 1 else 0) ≤ ts.countP q := by
    split_ifs with hq
    · exact List.countP_pos_iff.2 ⟨_, List.getElem_mem hi, hq⟩
    · exact Nat.zero_le _
  rw [List.countP_set hi]
  omega

/-- The counts of the entries. -/
def load (p : Pool) (w : Ev) : Nat := p.raised w - p.lowered w

/-- Some call waits for a subscription of the name. -/
def Waits (p : Pool) (w : Ev) : Prop := ⟨w, true, .subscribing⟩ ∈ p.threads

structure Sound (p : Pool) : Prop where
  paired : p.Paired
  kept : Kept p.shared p.load p.Waits

theorem lowered_le_downs (p : Pool) (w : Ev) : p.lowered w ≤ p.downs w := by
  refine List.countP_mono_left fun t _ ht => ?_
  simp only [decide_eq_true_eq] at ht ⊢
  exact ⟨ht.1, ht.2.1⟩

theorem load_raise {w : Ev} {ph : Phase} (hi : p.threads[i]? = some ⟨w, true, .begun⟩)
    (hph : ph ≠ .begun) (hle : p.lowered w ≤ p.raised w) (b : Subs) :
    load ⟨b, p.threads.set i ⟨w, true, ph⟩⟩ = Function.update p.load w (p.load w + 1) := by
  funext v
  have hr := countP_step (fun t => t.which = v ∧ t.up ∧ t.phase ≠ .begun) hi ⟨w, true, ph⟩
  have hl := countP_step (fun t => t.which = v ∧ ¬ t.up ∧ t.phase ≠ .begun) hi ⟨w, true, ph⟩
  rw [Function.update_apply]
  rw [raised, lowered] at hle
  simp only [load, raised, lowered]
  by_cases hv : w = v
  · subst hv
    simp [hph] at hr hl hle ⊢
    omega
  · rw [if_neg (Ne.symm hv)]
    simp [hv] at hr hl ⊢
    omega

theorem load_lower {w : Ev} (hi : p.threads[i]? = some ⟨w, false, .begun⟩) (b : Subs) :
    load ⟨b, p.threads.set i ⟨w, false, .done⟩⟩ = Function.update p.load w (p.load w - 1) := by
  funext v
  have hr := countP_step (fun t => t.which = v ∧ t.up ∧ t.phase ≠ .begun) hi ⟨w, false, .done⟩
  have hl := countP_step (fun t => t.which = v ∧ ¬ t.up ∧ t.phase ≠ .begun) hi ⟨w, false, .done⟩
  rw [Function.update_apply]
  simp only [load, raised, lowered]
  by_cases hv : w = v
  · subst hv
    simp at hr hl ⊢
    omega
  · rw [if_neg (Ne.symm hv)]
    simp [hv] at hr hl ⊢
    omega

theorem load_done {w : Ev} {up : Bool} (hi : p.threads[i]? = some ⟨w, up, .subscribing⟩)
    (b : Subs) : load ⟨b, p.threads.set i ⟨w, up, .done⟩⟩ = p.load := by
  funext v
  have hr := countP_step (fun t => t.which = v ∧ t.up ∧ t.phase ≠ .begun) hi ⟨w, up, .done⟩
  have hl := countP_step (fun t => t.which = v ∧ ¬ t.up ∧ t.phase ≠ .begun) hi ⟨w, up, .done⟩
  simp only [load, raised, lowered]
  simp at hr hl ⊢
  omega

/-- A step of a call that does not wait for the name. -/
theorem Waits.step {w : Ev} (h : p.Waits w) (hi : p.threads[i]? = some t)
    (ht : t ≠ ⟨w, true, .subscribing⟩) (b : Subs) (t' : Call) :
    Waits ⟨b, p.threads.set i t'⟩ w := by
  obtain ⟨j, hj⟩ := List.mem_iff_getElem?.1 h
  refine List.mem_iff_getElem?.2 ⟨j, ?_⟩
  rw [List.getElem?_set_ne, hj]
  rintro rfl
  exact ht (Option.some.inj (hi.symm.trans hj))

theorem waits_new {w : Ev} (hi : p.threads[i]? = some t) (b : Subs) :
    Waits ⟨b, p.threads.set i ⟨w, true, .subscribing⟩⟩ w :=
  List.mem_set (List.getElem?_eq_some_iff.1 hi).1 _

/-! ## The steps -/

theorem Sound.step (h : p.Sound) (hi : p.threads[i]? = some t) :
    Kept (program.step p.shared true t).1
      (load ⟨(program.step p.shared true t).1, p.threads.set i (program.step p.shared true t).2⟩)
      (Waits ⟨(program.step p.shared true t).1,
        p.threads.set i (program.step p.shared true t).2⟩) := by
  obtain ⟨w, up, phase⟩ := t
  cases phase with
  | begun =>
    cases up with
    | true =>
      have hstep : program.step p.shared true ⟨w, true, .begun⟩ = ((p.shared.raise w).1,
          ⟨w, true, if (p.shared.raise w).2 then .done else .subscribing⟩) := rfl
      have hph : (if (p.shared.raise w).2 then Phase.done else .subscribing) ≠ .begun := by
        split_ifs <;> exact nofun
      have hle := Nat.le_trans (p.lowered_le_downs w) (h.paired w)
      rw [hstep, load_raise hi hph hle]
      refine h.kept.raise w (fun v hv => hv.step hi nofun _ _) fun hnew => ?_
      rw [hnew]
      exact waits_new hi _
    | false =>
      have hstep : program.step p.shared true ⟨w, false, .begun⟩ =
          (p.shared.lower w, ⟨w, false, .done⟩) := rfl
      rw [hstep, load_lower hi]
      exact (h.kept.lower w).mono fun v hv => hv.step hi nofun _ _
  | subscribing =>
    have hstep : program.step p.shared true ⟨w, up, .subscribing⟩ =
        (p.shared.subscribed w true, ⟨w, up, .done⟩) := rfl
    rw [hstep, load_done hi]
    refine h.kept.subscribed w fun v hv hwait => hwait.step hi ?_ _ _
    rintro ⟨rfl, -⟩
    exact hv rfl
  | done =>
    have hstep : program.step p.shared true ⟨w, up, .done⟩ = (p.shared, ⟨w, up, .done⟩) := rfl
    obtain ⟨hlt, ht⟩ := List.getElem?_eq_some_iff.1 hi
    rw [hstep, ← ht, List.set_getElem_self hlt]
    exact h.kept

theorem Sound.spawn (h : p.Sound) (ht : t.phase = .begun) :
    Kept p.shared (load ⟨p.shared, p.threads ++ [t]⟩) (Waits ⟨p.shared, p.threads ++ [t]⟩) := by
  have hload : load ⟨p.shared, p.threads ++ [t]⟩ = p.load := by
    funext w
    simp [load, raised, lowered, List.countP_append, ht]
  rw [hload]
  exact h.kept.mono fun w hw => List.mem_append_left _ hw

theorem Sound.next (h : p.Sound) {a : Program.Sched Call Bool}
    (hok : (program.machine.restrict Assumed).ok p a) : Pool.Sound (program.next p a) := by
  refine ⟨hok.2.2, ?_⟩
  cases a with
  | spawn t => exact h.spawn hok.1
  | step i ok =>
    obtain rfl : ok = true := hok.2.1
    cases hi : p.threads[i]? with
    | none =>
      rw [Program.next_step_none _ hi]
      exact h.kept
    | some t =>
      rw [Program.next_step _ hi]
      exact h.step hi

theorem sound_run {acts : List (Program.Sched Call Bool)}
    (hrun : (program.machine.restrict Assumed).Legal ⟨{}, []⟩ acts) :
    Pool.Sound (program.machine.exec ⟨{}, []⟩ acts) := by
  rw [← Machine.restrict_exec _ Assumed]
  refine Machine.invariant (I := Pool.Sound) (fun p a h hok => h.next hok) ?_ hrun
  have hget : ∀ w, Subs.get {} w = none := by
    intro w
    cases w <;> rfl
  refine ⟨fun w => Nat.le_refl 0, ?_⟩
  refine ⟨fun w => congrArg (fun o => (o.map (·.count)).getD 0) (hget w), ?_, fun f => ?_, ?_, ?_,
    List.nodup_nil, nofun⟩
  · exact fun w e he => nomatch (hget w).symm.trans he
  · exact iff_of_false List.not_mem_nil fun ⟨e, he, _⟩ => nomatch (hget _).symm.trans he
  · exact fun w e f he => nomatch (hget w).symm.trans he
  · exact fun w e he => nomatch (hget w).symm.trans he

end Pool

/-! ## When nothing is in progress -/

namespace Pool

/-- Exactly the names with more calls up than down have an entry: with the difference as its count
and the one forwarder of the name. -/
def Exact (p : Pool) : Prop :=
  (∀ w, if p.downs w < p.ups w then
      ∃ f, p.shared.get w = some ⟨p.ups w - p.downs w, some f⟩ ∧
        p.shared.alive.filter (·.which = w) = [f]
    else p.shared.get w = none) ∧
    (∀ f ∈ p.shared.alive, ∃ e, p.shared.get f.which = some e ∧ e.forward = some f) ∧
    ∀ r, p.shared.interested r = p.ups (.room r) - p.downs (.room r)

variable {p : Pool}

theorem load_idle (h : p.Idle) (w : Ev) : p.load w = p.ups w - p.downs w := by
  have hphase : ∀ t ∈ p.threads, t.phase ≠ .begun := by
    intro t ht
    rw [h t ht]
    exact nofun
  rw [load, raised, lowered, ups, downs]
  congr 1
  · refine List.countP_congr fun t ht => ?_
    simp [hphase t ht]
  · refine List.countP_congr fun t ht => ?_
    simp [hphase t ht]

theorem Sound.exact (h : p.Sound) (hidle : p.Idle) : p.Exact := by
  have hwaits : ∀ w, ¬ p.Waits w := fun w hw => nomatch hidle _ hw
  refine ⟨fun w => ?_, fun f hf => (h.kept.held f).1 hf, fun r => ?_⟩
  · cases he : p.shared.get w with
    | none =>
      have hzero := h.kept.load_none he
      rw [load_idle hidle] at hzero
      rw [if_neg (by omega)]
    | some e =>
      have hcount := h.kept.load_some he
      have hpos := h.kept.pos w e he
      rw [load_idle hidle] at hcount
      rw [if_pos (by omega), hcount]
      obtain ⟨n, forward⟩ := e
      cases forward with
      | none => exact absurd (h.kept.bare w _ he rfl) (hwaits w)
      | some f =>
        refine ⟨f, rfl, ?_⟩
        have hone : ∀ g, g ∈ p.shared.alive.filter (·.which = w) ↔ g = f := by
          intro g
          rw [List.mem_filter, decide_eq_true_eq]
          constructor
          · rintro ⟨hg, rfl⟩
            obtain ⟨e, he', hf⟩ := (h.kept.held g).1 hg
            obtain rfl := Option.some.inj (he.symm.trans he')
            exact (Option.some.inj hf).symm
          · rintro rfl
            have hw := h.kept.named w _ g he rfl
            exact ⟨(h.kept.held g).2 ⟨_, hw ▸ he, rfl⟩, hw⟩
        exact List.perm_singleton.1 ((List.perm_ext_iff_of_nodup (h.kept.nodup.filter _)
          (List.nodup_singleton f)).2 fun g => (hone g).trans List.mem_singleton.symm)
  · rw [Subs.interested, h.kept.load, load_idle hidle]

end Pool

/-- **Interest subscriptions are neither leaked nor missing.** -/
theorem interest_exact {acts : List (Program.Sched Call Bool)}
    (hrun : (program.machine.restrict Assumed).Legal ⟨{}, []⟩ acts)
    (hidle : Pool.Idle (program.machine.exec ⟨{}, []⟩ acts)) :
    Pool.Exact (program.machine.exec ⟨{}, []⟩ acts) :=
  (Pool.sound_run hrun).exact hidle

/-- The entry of the first call is gone when its subscription has been made, and there is another
one: the two subscriptions end in the other order. -/
def crossing : List (Program.Sched Call Bool) :=
  [.spawn ⟨.room "r", true, .begun⟩, .step 0 true, .spawn ⟨.room "r", false, .begun⟩,
    .step 1 true, .spawn ⟨.room "r", true, .begun⟩, .step 2 true, .step 0 true, .step 2 true]

instance (p : Pool) : Decidable p.Paired :=
  decidable_of_iff (∀ t ∈ p.threads, p.downs t.which ≤ p.raised t.which) (by
    constructor
    · intro h w
      by_cases hw : ∃ t ∈ p.threads, t.which = w
      · obtain ⟨t, ht, rfl⟩ := hw
        exact h t ht
      · have hzero : p.downs w = 0 := by
          rw [Pool.downs, List.countP_eq_zero]
          intro t ht hd
          exact hw ⟨t, ht, (of_decide_eq_true hd).1⟩
        rw [hzero]
        exact Nat.zero_le _
    · exact fun h t _ => h t.which)

instance (p : Pool) (a : Program.Sched Call Bool) : Decidable (Assumed p a) := by
  cases a <;> exact inferInstanceAs (Decidable (_ ∧ _))

instance : DecidablePred program.fresh := fun t => inferInstanceAs (Decidable (t.phase = .begun))

instance (p : Pool) : Decidable p.Idle := inferInstanceAs (Decidable (∀ t ∈ p.threads, _))

theorem interest_exact_crossing : Pool.Exact (program.machine.exec ⟨{}, []⟩ crossing) :=
  interest_exact (by decide) (by decide)

end OxlensSfu.Bus
