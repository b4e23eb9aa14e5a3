import OxlensSfu.Lib.Best
import OxlensSfu.Sub.Invariant

/-!
# What a sync makes of the rows

Of a row, a sync goes by its class, its kind, its track and its codec. The codec only decides which
one of several empty rows a track gets. The rest is the `Use` of a row, and each part of a sync has
an account of what it makes of the list of uses:

- rehoming and unloading change every use on its own (`uses_rehomeAll`, `uses_unloadWhere`);
- a step for a track to be received leaves the uses alone, when the track has a row or when there is
  no row to be had, or it puts the track into an empty row or a new one (`fullStep_place`).

What a sync leaves alone it also finds again: a part whose account says that nothing changes leaves
the rows themselves alone (`fullStep_idle`, `rehomeAll_idle`, `unloadWhere_idle`).
-/

namespace OxlensSfu.Sub

/-! ## Uses -/

structure Use where
  cls : Class
  kind : Kind
  track : Option Track
  deriving DecidableEq, Repr

def Row.use (r : Row) : Use := ⟨r.cls, r.kind, r.track⟩

def State.uses (s : State) : List Use := s.rows.map Row.use

/-- The row is of the class and the kind. -/
def Use.isOf (cls : Class) (kind : Kind) (u : Use) : Bool := u.cls = cls && u.kind = kind

theorem Use.isOf_iff {cls : Class} {kind : Kind} {u : Use} :
    u.isOf cls kind = true ↔ u.cls = cls ∧ u.kind = kind := by
  simp [isOf]

/-- The row without its track. -/
def Use.empty (u : Use) : Use := { u with track := none }

@[simp] theorem length_uses (s : State) : s.uses.length = s.rows.length := List.length_map _

theorem getElem?_uses {s : State} {i : Nat} {r : Row} (h : s.rows[i]? = some r) :
    s.uses[i]? = some r.use := by
  rw [State.uses, List.getElem?_map, h]
  rfl

theorem fullRows_eq (s : State) (kind : Kind) :
    s.fullRows kind = s.uses.countP (Use.isOf .full kind) := by
  rw [State.fullRows, State.uses, List.countP_map]
  rfl

theorem slotRows_eq (s : State) : s.slotRows = s.uses.countP (·.cls = .slot) := by
  rw [State.slotRows, State.uses, List.countP_map]
  rfl

theorem any_rows_iff {s : State} {p : Row → Bool} {q : Use → Bool} (hq : ∀ r, p r = q r.use) :
    s.rows.any p = s.uses.any q := by
  rw [State.uses, List.any_map]
  exact congrArg (List.any s.rows) (funext hq)

theorem filter_set_of_neg {α : Type} {p : α → Bool} {l : List α} {i : Nat} {a b : α}
    (h : l[i]? = some a) (ha : p a = false) (hb : p b = false) :
    (l.set i b).filter p = l.filter p := by
  induction l generalizing i with
  | nil => rfl
  | cons x l ih =>
    cases i with
    | zero =>
      obtain rfl : x = a := by simpa using h
      rw [List.set_cons_zero, List.filter_cons_of_neg (by simp [hb]),
        List.filter_cons_of_neg (by simp [ha])]
    | succ i =>
      rw [List.set_cons_succ, List.filter_cons, List.filter_cons, ih (by simpa using h)]

/-- The uses after a row was changed. -/
theorem uses_set {s s' : State} {i : Nat} {r' : Row} (h : s'.rows = s.rows.set i r') :
    s'.uses = s.uses.set i r'.use := by
  rw [State.uses, h, List.map_set]
  rfl

/-! ## A track that gets a row -/

/-- A track is put into an empty row of a class and a kind, or into a new one. -/
inductive Fill (cls : Class) (kind : Kind) (tr : Track) (us : List Use) : List Use → Prop
  | put (i : Nat) : us[i]? = some ⟨cls, kind, none⟩ →
      Fill cls kind tr us (us.set i ⟨cls, kind, some tr⟩)
  | add : Fill cls kind tr us (us ++ [⟨cls, kind, some tr⟩])

namespace Fill

variable {cls : Class} {kind : Kind} {tr : Track} {us us' : List Use}

theorem mem (h : Fill cls kind tr us us') {u : Use} (hu : u ∈ us') :
    u ∈ us ∨ u = ⟨cls, kind, some tr⟩ := by
  cases h with
  | put i hi => exact List.mem_or_eq_of_mem_set hu
  | add => simpa using hu

theorem mem_new (h : Fill cls kind tr us us') : ⟨cls, kind, some tr⟩ ∈ us' := by
  cases h with
  | put i hi => exact List.mem_set (List.getElem?_eq_some_iff.1 hi).1 _
  | add => simp

/-- What is put aside is empty. -/
theorem mem_old (h : Fill cls kind tr us us') {u : Use} (hu : u ∈ us)
    (hne : u ≠ ⟨cls, kind, none⟩) : u ∈ us' := by
  cases h with
  | put i hi =>
    obtain ⟨j, hj⟩ := List.mem_iff_getElem?.1 hu
    have hij : i ≠ j := by
      rintro rfl
      exact hne (Option.some.inj (hj.symm.trans hi))
    exact List.mem_of_getElem? (by rw [List.getElem?_set_ne hij, hj] : _ = some u)
  | add => exact List.mem_append_left _ hu

theorem length_le (h : Fill cls kind tr us us') : us.length ≤ us'.length := by
  cases h with
  | put i hi => simp
  | add => simp

/-- A count that the track makes no difference to. -/
theorem countP_le (h : Fill cls kind tr us us') {q : Use → Bool}
    (hq : q ⟨cls, kind, some tr⟩ = q ⟨cls, kind, none⟩) : us.countP q ≤ us'.countP q := by
  cases h with
  | put i hi => rw [countP_set_of_eq hi hq]
  | add => simp

theorem countP_eq (h : Fill cls kind tr us us') {q : Use → Bool}
    (hq : q ⟨cls, kind, some tr⟩ = false) (hq' : q ⟨cls, kind, none⟩ = false) :
    us'.countP q = us.countP q := by
  cases h with
  | put i hi => rw [countP_set_of_eq hi (hq.trans hq'.symm)]
  | add => simp [hq]

end Fill

/-! ## Loads -/

theorem Swap.uses {rev i : Nat} {r r' : Row} {w w' : Work} (h : Swap rev i r r' w w') :
    w'.st.uses = w.st.uses.set i ⟨r.cls, r.kind, r'.track⟩ := by
  rw [uses_set h.rows, Row.use, h.swapped.cls, h.swapped.kind]

/-- Loading an empty row. -/
theorem load_fill {w : Work} {i : Nat} {r : Row} (hi : w.st.rows[i]? = some r)
    (hr : r.track = none) (c : Cand) (rev now : Nat) :
    Fill r.cls r.kind c.track w.st.uses (w.load i c rev now).st.uses := by
  obtain ⟨r', htr, hs⟩ := Work.load_spec c rev now hi
  rw [hs.uses, htr]
  refine .put i ?_
  rw [getElem?_uses hi, Row.use, hr]

/-- Loading a row that was just made. -/
theorem grow_fill {t : Table} {w w₁ : Work} {r : Row} (hg : Grow t r w w₁) (c : Cand)
    (rev now : Nat) : Fill r.cls r.kind c.track w.st.uses
      (w₁.load (w₁.st.rows.length - 1) c rev now).st.uses := by
  have hlen : w₁.st.rows.length - 1 = w.st.rows.length := by
    rw [hg.rows, List.length_append]
    rfl
  have hlast : w₁.st.rows[w.st.rows.length]? = some r := by
    rw [hg.rows, List.getElem?_append_right le_rfl, Nat.sub_self]
    rfl
  obtain ⟨r', htr, hs⟩ := Work.load_spec c rev now hlast
  have huses : w₁.st.uses = w.st.uses ++ [r.use] := by
    rw [State.uses, hg.rows, List.map_append]
    rfl
  rw [hlen, hs.uses, htr, huses, ← length_uses, List.set_append_right _ _ le_rfl, Nat.sub_self]
  exact .add

theorem mem_rowsWhere {s : State} {p : Row → Bool} {i : Nat} :
    i ∈ s.rowsWhere p ↔ ∃ r, s.rows[i]? = some r ∧ p r = true := by
  rw [State.rowsWhere, List.mem_filter, List.mem_range, Option.any_eq_true]
  refine ⟨fun h => h.2, fun h => ⟨?_, h⟩⟩
  obtain ⟨r, hr, -⟩ := h
  exact (List.getElem?_eq_some_iff.1 hr).1

/-! ## Loops over the rows -/

/-- A loop that changes every use on its own. -/
theorem uses_loop {g : Use → Use} {f : Work → Nat → Work}
    (hf : ∀ w i r, w.st.rows[i]? = some r →
      ∃ r', (f w i).st.rows = w.st.rows.set i r' ∧ r'.use = g r.use) (w : Work) :
    ((List.range w.st.rows.length).foldl f w).st.uses = w.st.uses.map g := by
  obtain ⟨hlen, -, hdone⟩ := loop_rows hf w le_rfl
  refine List.ext_getElem? fun i => ?_
  rw [State.uses, State.uses, List.getElem?_map, List.getElem?_map, List.getElem?_map]
  cases hi : w.st.rows[i]? with
  | none =>
    rw [List.getElem?_eq_none (by rw [hlen]; exact List.getElem?_eq_none_iff.1 hi)]
    rfl
  | some r =>
    obtain ⟨r', hr', huse⟩ := hdone i r (List.getElem?_eq_some_iff.1 hi).1 hi
    rw [hr', Option.map_some, huse]
    rfl

/-- What unloading makes of a use. -/
def Use.emptied (q : Use → Bool) (u : Use) : Use := if q u then u.empty else u

theorem Use.emptied_of_neg {q : Use → Bool} {u : Use} (h : q u = false) : u.emptied q = u :=
  if_neg (by simp [h])

theorem Use.emptied_keeps (q : Use → Bool) (u : Use) :
    (u.emptied q).cls = u.cls ∧ (u.emptied q).kind = u.kind := by
  rw [emptied]
  split_ifs
  · exact ⟨rfl, rfl⟩
  · exact ⟨rfl, rfl⟩

/-- A row that is not empty is as it was, and was to be kept. -/
theorem Use.emptied_eq {q : Use → Bool} {u v : Use} (h : u.emptied q = v)
    (hv : v.track ≠ none) : u = v ∧ q u = false := by
  rw [emptied] at h
  split_ifs at h with hq
  · exact absurd (h ▸ rfl) hv
  · exact ⟨h, by simpa using hq⟩

theorem uses_unloadWhere (w : Work) {p : Row → Bool} {q : Use → Bool} (hq : ∀ r, p r = q r.use)
    (rev : Nat) : (w.unloadWhere p rev).st.uses = w.st.uses.map (Use.emptied q) := by
  refine uses_loop (fun w i r hi => ?_) w
  obtain ⟨r', hrows, hemp⟩ := unload_round p rev w i r hi
  refine ⟨r', hrows, ?_⟩
  rw [Row.use, hemp.cls, hemp.kind, hemp.track, hq, Use.emptied]
  split_ifs
  · rfl
  · rfl

/-- What rehoming makes of a use. -/
def rehomed (cands : List Cand) (kind : Kind) (u : Use) : Use :=
  if u.cls ≠ .full ∨ u.kind ≠ kind then u
  else match u.track with
    | none => u
    | some (tid, room) =>
      if cands.any fun c => c.cls = .full && c.trackId = tid && c.room = room then u
      else match cands.find? fun c =>
          c.cls = .full && c.kind = kind && c.trackId = tid && !c.paused with
        | some c => { u with track := some c.track }
        | none => u

theorem rehome_round (cands : List Cand) (kind : Kind) (rev now : Nat) (w : Work) (i : Nat)
    (r : Row) (hi : w.st.rows[i]? = some r) :
    ∃ r', (rehomeStep cands kind rev now w i).st.rows = w.st.rows.set i r' ∧
      r'.use = rehomed cands kind r.use := by
  have hstay : w.st.rows = w.st.rows.set i r := (set_eq_of_getElem? hi).symm
  rw [rehomeStep, hi]
  dsimp only
  by_cases hother : r.cls ≠ .full ∨ r.kind ≠ kind
  · rw [if_pos hother]
    exact ⟨r, hstay, (if_pos hother).symm⟩
  rw [if_neg hother]
  rcases htr : r.track with _ | ⟨tid, room⟩
  · exact ⟨r, hstay, by simp only [rehomed, Row.use, if_neg hother, htr]⟩
  dsimp only
  by_cases hany : (cands.any fun c => c.cls = .full && c.trackId = tid && c.room = room) = true
  · rw [if_pos hany]
    exact ⟨r, hstay, by simp only [rehomed, Row.use, if_neg hother, htr, if_pos hany]⟩
  rw [if_neg hany]
  cases hfind : cands.find? fun c =>
      c.cls = .full && c.kind = kind && c.trackId = tid && !c.paused with
  | none => exact ⟨r, hstay, by simp only [rehomed, Row.use, if_neg hother, htr, if_neg hany, hfind]⟩
  | some c =>
    obtain ⟨r', htr', hs⟩ := Work.rehome_spec c rev now hi
    refine ⟨r', hs.rows, ?_⟩
    simp only [rehomed, Row.use, if_neg hother, htr, if_neg hany, hfind, htr', hs.swapped.cls,
      hs.swapped.kind]

theorem uses_rehomeAll (w : Work) (cands : List Cand) (kind : Kind) (rev now : Nat) :
    (w.rehomeAll cands kind rev now).st.uses = w.st.uses.map (rehomed cands kind) :=
  uses_loop (rehome_round cands kind rev now) w

/-- Rows of another class or kind are not rehomed. -/
theorem rehomed_other {cands : List Cand} {kind : Kind} {u : Use} (h : u.isOf .full kind = false) :
    rehomed cands kind u = u := by
  rw [rehomed, if_pos]
  by_contra hn
  rw [not_or, not_not, not_not] at hn
  rw [Use.isOf_iff.2 hn] at h
  exact absurd h (by simp)

theorem rehomed_cls (cands : List Cand) (kind : Kind) (u : Use) :
    (rehomed cands kind u).cls = u.cls ∧ (rehomed cands kind u).kind = u.kind := by
  rw [rehomed]
  split_ifs
  · exact ⟨rfl, rfl⟩
  · split
    · exact ⟨rfl, rfl⟩
    · split_ifs
      · exact ⟨rfl, rfl⟩
      · split <;> exact ⟨rfl, rfl⟩

/-! ## Parts that find nothing to do -/

theorem Quiet.refl (w : Work) : Quiet w w := ⟨rfl, rfl, rfl, rfl, rfl⟩

theorem Quiet.trans {w w' w'' : Work} (h : Quiet w w') (h' : Quiet w' w'') : Quiet w w'' :=
  ⟨h'.rows.trans h.rows, h'.ch.trans h.ch, h'.ssrcs.trans h.ssrcs, h'.arev.trans h.arev,
    h'.tuned.trans h.tuned⟩

theorem Quiet.uses {w w' : Work} (h : Quiet w w') : w'.st.uses = w.st.uses := by
  rw [State.uses, State.uses, h.rows]

theorem unloadWhere_idle {w : Work} {p : Row → Bool} {q : Use → Bool} (hq : ∀ r, p r = q r.use)
    (h : ∀ u ∈ w.st.uses, q u = false) (rev : Nat) : w.unloadWhere p rev = w := by
  refine List.foldl_fixed' (fun i => ?_) _
  rw [if_neg]
  intro hany
  obtain ⟨r, hr, hp⟩ := (Option.any_eq_true _ _).1 hany
  rw [hq, h _ (List.mem_of_getElem? (getElem?_uses hr))] at hp
  exact absurd hp (by simp)

theorem rehomeAll_idle {w : Work} {cands : List Cand} {kind : Kind}
    (h : ∀ u ∈ w.st.uses, u.isOf .full kind = true → ∀ tr ∈ u.track,
      ∃ c ∈ cands, c.cls = .full ∧ c.track = tr) (rev now : Nat) :
    w.rehomeAll cands kind rev now = w := by
  refine List.foldl_fixed' (fun i => ?_) _
  rw [rehomeStep]
  split
  · rfl
  · next r hr =>
    split_ifs with hother
    · rfl
    · split
      · rfl
      · next tid room htr =>
        rw [if_pos]
        rw [not_or, not_not, not_not] at hother
        obtain ⟨c, hc, hcls, hct⟩ := h r.use (List.mem_of_getElem? (getElem?_uses hr))
          (Use.isOf_iff.2 hother) (tid, room) htr
        obtain ⟨hid, hroom⟩ := Prod.mk.inj hct
        exact List.any_eq_true.2 ⟨c, hc, by simp [hcls, hid, hroom]⟩

/-! ## A track to be received -/

/-- A full row has the track. -/
def HasRow (us : List Use) (tr : Track) : Prop := ∃ u ∈ us, u.cls = .full ∧ u.track = some tr

/-- There is no row for one more track: none of the kind is empty, and none may be made. -/
structure Stuck (t : Table) (kind : Kind) (us : List Use) : Prop where
  full : ⟨.full, kind, none⟩ ∉ us
  room : ¬ (us.countP (Use.isOf .full kind) < fullCap kind ∧ us.length < t.limit)

/-- What a step for a track makes of the uses. -/
inductive Place (t : Table) (kind : Kind) (tr : Track) (us : List Use) : List Use → Prop
  | own : HasRow us tr → Place t kind tr us us
  | fill {us' : List Use} : ¬ HasRow us tr → Fill .full kind tr us us' → Place t kind tr us us'
  | stuck : ¬ HasRow us tr → Stuck t kind us → Place t kind tr us us

theorem hasRow_iff {s : State} {c : Cand} :
    (s.rows.any fun r => r.track = some c.track && r.cls = .full) = true ↔
      HasRow s.uses c.track := by
  have h : (s.rows.any fun r => r.track = some c.track && r.cls = .full) =
      s.uses.any fun u => u.track = some c.track && u.cls = .full := any_rows_iff fun _ => rfl
  rw [h, List.any_eq_true]
  simp only [HasRow, Bool.and_eq_true, decide_eq_true_eq]
  exact exists_congr fun u => and_congr_right fun _ => and_comm

/-- The empty rows of the kind. -/
theorem emptyFull_none {s : State} {kind : Kind} :
    emptyFull s kind = none ↔ ⟨.full, kind, none⟩ ∉ s.uses := by
  rw [emptyFull, List.argmin_eq_none, List.eq_nil_iff_forall_not_mem]
  refine ⟨fun h hmem => ?_, fun h i hi => ?_⟩
  · obtain ⟨r, hr, huse⟩ := List.mem_map.1 hmem
    obtain ⟨i, hi⟩ := List.mem_iff_getElem?.1 hr
    obtain ⟨hcls, hkind, htr⟩ := Use.mk.inj huse
    exact h i (mem_rowsWhere.2 ⟨r, hi, by simp [hcls, hkind, htr]⟩)
  · obtain ⟨r, hr, hp⟩ := mem_rowsWhere.1 hi
    simp only [Bool.and_eq_true, decide_eq_true_eq, Option.isNone_iff_eq_none] at hp
    refine h (List.mem_map.2 ⟨r, List.mem_of_getElem? hr, ?_⟩)
    rw [Row.use, hp.1.1, hp.1.2, hp.2]

theorem emptyFull_some {s : State} {kind : Kind} {i : Nat} (h : emptyFull s kind = some i) :
    ∃ r, s.rows[i]? = some r ∧ r.cls = .full ∧ r.kind = kind ∧ r.track = none := by
  obtain ⟨r, hr, hp⟩ := mem_rowsWhere.1 (List.argmin_mem h)
  simp only [Bool.and_eq_true, decide_eq_true_eq, Option.isNone_iff_eq_none] at hp
  exact ⟨r, hr, hp.1.1, hp.1.2, hp.2⟩

theorem freeFull_some {s : State} {kind : Kind} {c : Cand} {i : Nat}
    (h : freeFull s kind c = some i) :
    ∃ r, s.rows[i]? = some r ∧ r.cls = .full ∧ r.kind = kind ∧ r.track = none := by
  obtain ⟨r, hr, hp⟩ := mem_rowsWhere.1 (List.argmin_mem h)
  simp only [Bool.and_eq_true, decide_eq_true_eq, Option.isNone_iff_eq_none] at hp
  exact ⟨r, hr, hp.1.1.1, hp.1.1.2, hp.1.2⟩

section Step

variable {t : Table} {kind : Kind} {rev now : Nat} {w w' : Work} {c : Cand}

/-- Loading an empty full row of the kind. -/
theorem loadFull_fill {i : Nat} (h : ∃ r, w.st.rows[i]? = some r ∧ r.cls = .full ∧
    r.kind = kind ∧ r.track = none) :
    Fill .full kind c.track w.st.uses (w.loadFull i c rev now).st.uses := by
  obtain ⟨r, hr, hcls, rfl, htr⟩ := h
  have hfill := load_fill (w := { w with
    st := { w.st with waiting := remove c.trackId w.st.waiting } }) hr htr c rev now
  rwa [hcls] at hfill

/-- **A step for a track to be received**: the track has a row, or gets one, or there is none to be
had. -/
theorem fullStep_place (h : t.fullStep kind (fullCap kind) rev now w c = some w') :
    Place t kind c.track w.st.uses w'.st.uses := by
  rw [Table.fullStep] at h
  by_cases hown : (w.st.rows.any fun r => r.track = some c.track && r.cls = .full) = true
  · rw [if_pos hown] at h
    obtain rfl := Option.some.inj h
    exact .own (hasRow_iff.1 hown)
  rw [if_neg hown] at h
  have hnone : ¬ HasRow w.st.uses c.track := fun hr => hown (hasRow_iff.2 hr)
  cases hfree : freeFull w.st kind c with
  | some i =>
    rw [hfree] at h
    obtain rfl := Option.some.inj h
    exact .fill hnone (loadFull_fill (freeFull_some hfree))
  | none =>
    rw [hfree] at h
    dsimp only at h
    by_cases hroom : w.st.fullRows kind < fullCap kind ∧ w.st.rows.length < t.limit
    · rw [if_pos hroom] at h
      obtain ⟨w₁, hnew, rfl⟩ := Option.map_eq_some_iff.1 h
      obtain ⟨r, rfl, hc, hgrow⟩ := Table.newRow_spec hnew
      have hgrow' : Grow t r w { w₁ with
          st := { w₁.st with waiting := remove c.trackId w₁.st.waiting } } :=
        ⟨hgrow.mid, hgrow.track, hgrow.since, hgrow.fresh, hgrow.nodup, hgrow.rows, hgrow.ch,
          hgrow.ssrcs, hgrow.arev, hgrow.tuned⟩
      have hfill := grow_fill hgrow' c rev now
      rw [hc] at hfill
      exact .fill hnone hfill
    · rw [if_neg hroom] at h
      cases hempty : emptyFull w.st kind with
      | none =>
        rw [hempty] at h
        obtain rfl := Option.some.inj h
        rw [fullRows_eq, ← length_uses] at hroom
        exact .stuck hnone ⟨emptyFull_none.1 hempty, hroom⟩
      | some i =>
        rw [hempty] at h
        obtain rfl := Option.some.inj h
        obtain ⟨r, hr, hcls, hkind, htr⟩ := emptyFull_some hempty
        obtain ⟨r', htune⟩ := Table.retune_spec t c.codec hr
        have huses : (t.retune w i c.codec).st.uses = w.st.uses := by
          rw [uses_set htune.rows, Row.use, htune.keeps.cls, htune.keeps.kind, htune.track]
          exact set_eq_of_getElem? (getElem?_uses hr)
        have hlt := (List.getElem?_eq_some_iff.1 hr).1
        have hfill : Fill .full kind c.track (t.retune w i c.codec).st.uses
            ((t.retune w i c.codec).loadFull i c rev now).st.uses :=
          loadFull_fill ⟨r', by rw [htune.rows, List.getElem?_set_self hlt],
            htune.keeps.cls.trans hcls, htune.keeps.kind.trans hkind, htune.track.trans htr⟩
        rw [huses] at hfill
        exact .fill hnone hfill

/-- Where no row is to be given, the step is idle. -/
theorem fullStep_idle (rev now : Nat)
    (h : HasRow w.st.uses c.track ∨ Stuck t kind w.st.uses) :
    ∃ w', t.fullStep kind (fullCap kind) rev now w c = some w' ∧ Quiet w w' := by
  rw [Table.fullStep]
  by_cases hown : (w.st.rows.any fun r => r.track = some c.track && r.cls = .full) = true
  · rw [if_pos hown]
    exact ⟨_, rfl, quiet_waiting _⟩
  rw [if_neg hown]
  have hstuck := h.resolve_left fun hr => hown (hasRow_iff.2 hr)
  have hempty : emptyFull w.st kind = none := emptyFull_none.2 hstuck.full
  have hfree : freeFull w.st kind c = none := by
    rw [Option.eq_none_iff_forall_ne_some]
    intro i hi
    obtain ⟨r, hr, hcls, hkind, htr⟩ := freeFull_some hi
    refine hstuck.full (List.mem_map.2 ⟨r, List.mem_of_getElem? hr, ?_⟩)
    rw [Row.use, hcls, hkind, htr]
  have hroom : ¬ (w.st.fullRows kind < fullCap kind ∧ w.st.rows.length < t.limit) := by
    rw [fullRows_eq, ← length_uses]
    exact hstuck.room
  rw [hfree]
  dsimp only
  rw [if_neg hroom, hempty]
  exact ⟨w, rfl, .refl w⟩

end Step

end OxlensSfu.Sub
