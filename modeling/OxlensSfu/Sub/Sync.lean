import OxlensSfu.Sub.Moves

/-!
# A sync is all or nothing

A subscription that needs more slot rows than the table may have is refused as a whole. So `sync`
counts the rows it will have to make before it touches anything: `freshSlotRows` walks through the
candidates on the state as it is, and remembers in a set which rows it has spoken for. The loop that
loads the rows has a test of its own for the limit, and stops there in the middle of its work.

The two walks are related step by step (`Predicts`): where the count speaks for a row the loop loads
it, and where the count goes up the loop makes a row. So the loop never gets to its own test.
-/

namespace OxlensSfu.Sub

/-! ## Unloading -/

/-- The row as a slot: an unloaded row has no track, everything else stays. -/
structure Row.Emptied (p : Row → Bool) (r r' : Row) : Prop where
  kind : r'.kind = r.kind
  cls : r'.cls = r.cls
  tuple : r'.tuple = r.tuple
  track : r'.track = if p r then none else r.track

theorem Row.Emptied.refl {p : Row → Bool} {r : Row} (h : p r = true → r.track = none) :
    r.Emptied p r := by
  refine ⟨rfl, rfl, rfl, ?_⟩
  by_cases hp : p r = true
  · rw [if_pos hp, h hp]
  · rw [if_neg hp]

theorem set_eq_of_getElem? {α : Type} {l : List α} {i : Nat} {a : α} (h : l[i]? = some a) :
    l.set i a = l := by
  obtain ⟨hi, rfl⟩ := List.getElem?_eq_some_iff.1 h
  exact List.set_getElem_self hi

/-- A loop that changes row `i` in round `i` visits each row once, so what it finds there is the row
it started with. -/
theorem loop_rows {R : Row → Row → Prop} {f : Work → Nat → Work}
    (hf : ∀ w i r, w.st.rows[i]? = some r →
      ∃ r', (f w i).st.rows = w.st.rows.set i r' ∧ R r r') (w : Work) {n : Nat}
    (hn : n ≤ w.st.rows.length) :
    ((List.range n).foldl f w).st.rows.length = w.st.rows.length ∧
      (∀ i, n ≤ i → ((List.range n).foldl f w).st.rows[i]? = w.st.rows[i]?) ∧
      ∀ i r, i < n → w.st.rows[i]? = some r →
        ∃ r', ((List.range n).foldl f w).st.rows[i]? = some r' ∧ R r r' := by
  induction n with
  | zero => simp
  | succ n ih =>
    obtain ⟨hlen, hrest, hdone⟩ := ih (by omega)
    rw [List.range_succ, List.foldl_append, List.foldl_cons, List.foldl_nil]
    set w₁ := (List.range n).foldl f w
    obtain ⟨r₀, hr₀⟩ : ∃ r, w.st.rows[n]? = some r := ⟨_, List.getElem?_eq_getElem hn⟩
    have hn₁ : w₁.st.rows[n]? = some r₀ := (hrest n le_rfl).trans hr₀
    have hlt : n < w₁.st.rows.length := (List.getElem?_eq_some_iff.1 hn₁).1
    obtain ⟨r', hrows, hR⟩ := hf w₁ n r₀ hn₁
    rw [hrows]
    refine ⟨by rw [List.length_set, hlen], ?_, ?_⟩
    · intro i hi
      rw [List.getElem?_set_ne (by omega), hrest i (by omega)]
    · intro i r hi hr
      rcases Nat.lt_succ_iff_lt_or_eq.1 hi with h | rfl
      · obtain ⟨r'', hr'', hR'⟩ := hdone i r h hr
        exact ⟨r'', by rw [List.getElem?_set_ne (by omega), hr''], hR'⟩
      · obtain rfl : r₀ = r := Option.some.inj (hr₀.symm.trans hr)
        exact ⟨r', List.getElem?_set_self hlt, hR⟩

/-- One round of unloading empties row `i` as it has to be. -/
theorem unload_round (p : Row → Bool) (rev : Nat) (w : Work) (i : Nat) (r : Row)
    (hi : w.st.rows[i]? = some r) :
    ∃ r', (if w.st.rows[i]?.any p then w.unload i rev else w).st.rows = w.st.rows.set i r' ∧
      r.Emptied p r' := by
  rw [hi, Option.any_some]
  by_cases hp : p r = true
  · rw [if_pos hp]
    rcases Work.unload_spec rev hi with ⟨htr, heq⟩ | ⟨r', htr, hs⟩
    · refine ⟨r, ?_, .refl fun _ => htr⟩
      rw [heq, set_eq_of_getElem? hi]
    · refine ⟨r', hs.rows, hs.swapped.kind, hs.swapped.cls, hs.swapped.tuple, ?_⟩
      rw [htr, if_pos hp]
  · rw [if_neg hp]
    exact ⟨r, (set_eq_of_getElem? hi).symm, .refl fun h => absurd h hp⟩

/-! ## The count and the loop -/

theorem countP_set_of_eq {α : Type} {p : α → Bool} {l : List α} {i : Nat} {a b : α}
    (h : l[i]? = some a) (hp : p b = p a) : (l.set i b).countP p = l.countP p := by
  induction l generalizing i with
  | nil => rfl
  | cons x l ih =>
    cases i with
    | zero =>
      obtain rfl : x = a := by simpa using h
      rw [List.set_cons_zero, List.countP_cons, List.countP_cons, hp]
    | succ i =>
      rw [List.set_cons_succ, List.countP_cons, List.countP_cons, ih (by simpa using h)]

/-- The loop is where the count is: the rows spoken for are loaded, those counted are made. -/
structure Predicts (s : State) (want : List (String × Kind)) (acc : Finset Nat × Nat)
    (w : State) : Prop where
  len : w.rows.length = s.rows.length + acc.2
  slots : w.slotRows = s.slotRows + acc.2
  old : ∀ i r, s.rows[i]? = some r → ∃ r', w.rows[i]? = some r' ∧ r'.kind = r.kind ∧
    r'.cls = r.cls ∧ r'.tuple = r.tuple ∧
    (r.cls = .slot → (r'.track = none ↔ (r.track = none ∨ unwanted want r) ∧ i ∉ acc.1))
  new : ∀ i r, s.rows.length ≤ i → w.rows[i]? = some r → r.track ≠ none

/-- The row that the count would take for a candidate. -/
def countedFree (s : State) (want : List (String × Kind)) (claimed : Finset Nat) (c : Cand) :
    Option Nat :=
  (s.rowsWhere fun r =>
    r.cls = .slot && r.kind = c.kind && r.tuple = tupleOf c.kind c.codec &&
      (r.track.isNone || unwanted want r)).find? (· ∉ claimed)

theorem freshStep_eq {s : State} (want : List (String × Kind)) (acc : Finset Nat × Nat) {c : Cand}
    (h : s.rows.any (carries c) = false) :
    freshStep s want acc c = match countedFree s want acc.1 c with
      | some i => (insert i acc.1, acc.2)
      | none => (acc.1, acc.2 + 1) := by
  rw [freshStep, h]
  rfl

namespace Predicts

variable {s w : State} {want : List (String × Kind)} {acc : Finset Nat × Nat}

/-- The row that the count takes is the row that the loop finds. -/
theorem free (h : Predicts s want acc w) (c : Cand) :
    freeSlot w c = countedFree s want acc.1 c := by
  rw [freeSlot, countedFree, State.rowsWhere, State.rowsWhere, List.head?_filter,
    List.find?_filter, h.len, List.range_add, List.find?_append]
  have hnew : ((List.range acc.2).map (s.rows.length + ·)).find? (fun i =>
      w.rows[i]?.any fun r => r.cls = .slot && r.kind = c.kind && r.track.isNone &&
        r.tuple = tupleOf c.kind c.codec) = none := by
    rw [List.find?_eq_none]
    intro i hi hany
    obtain ⟨k, -, rfl⟩ := List.mem_map.1 hi
    obtain ⟨r, hr, hp⟩ := (Option.any_eq_true _ _).1 hany
    have htr := h.new _ r (Nat.le_add_right _ _) hr
    simp at hp
    exact htr hp.1.2
  rw [hnew, Option.or_none]
  refine List.find?_congr ?_
  intro i hi
  obtain ⟨r, hr⟩ : ∃ r, s.rows[i]? = some r :=
    ⟨_, List.getElem?_eq_getElem (List.mem_range.1 hi)⟩
  obtain ⟨r', hr', hkind, hcls, htuple, htrack⟩ := h.old i r hr
  rw [hr, hr', Option.any_some, Option.any_some, hkind, hcls, htuple]
  by_cases hslot : r.cls = .slot
  · have htr := htrack hslot
    rw [Bool.eq_iff_iff]
    simp only [hslot, Bool.and_eq_true, decide_eq_true_eq, Option.isNone_iff_eq_none,
      Bool.or_eq_true, htr]
    tauto
  · simp [hslot]

/-- The loop loads a row that is spoken for. -/
theorem claim (h : Predicts s want acc w) {c : Cand} {i : Nat}
    (hfree : countedFree s want acc.1 c = some i) {w' : Work} {r r' : Row} {rev : Nat}
    {w₀ : Work} (hw : w₀.st = w) (hs : Swap rev i r r' w₀ w') (htr : r'.track ≠ none) :
    Predicts s want (insert i acc.1, acc.2) w'.st := by
  subst hw
  have hi : i < s.rows.length := by
    have hmem := List.mem_of_find?_eq_some hfree
    rw [State.rowsWhere, List.mem_filter, List.mem_range] at hmem
    exact hmem.1
  have hlt : i < w₀.st.rows.length := (List.getElem?_eq_some_iff.1 hs.at_i).1
  refine ⟨by rw [hs.rows, List.length_set, h.len], ?_, ?_, ?_⟩
  · rw [State.slotRows, hs.rows, countP_set_of_eq hs.at_i (by rw [hs.swapped.cls])]
    exact h.slots
  · intro j q hq
    obtain ⟨q', hq', hkind, hcls, htuple, htrack⟩ := h.old j q hq
    by_cases hj : i = j
    · subst hj
      obtain rfl : r = q' := Option.some.inj (hs.at_i.symm.trans hq')
      refine ⟨r', by rw [hs.rows, List.getElem?_set_self hlt], hs.swapped.kind.trans hkind,
        hs.swapped.cls.trans hcls, hs.swapped.tuple.trans htuple, ?_⟩
      intro _
      simp [htr]
    · refine ⟨q', by rw [hs.rows, List.getElem?_set_ne hj, hq'], hkind, hcls, htuple, ?_⟩
      intro hslot
      rw [htrack hslot, Finset.mem_insert, not_or]
      simp [Ne.symm hj]
  · intro j q hj hq
    rw [hs.rows, List.getElem?_set_ne (by omega)] at hq
    exact h.new j q hj hq

/-- The loop makes a row that is counted, and loads it. -/
theorem count (h : Predicts s want acc w) {t : Table} {w₀ w₁ w₂ : Work} {r r' : Row} {rev : Nat}
    (hw : w₀.st = w) (hcls : r.cls = .slot) (hg : Grow t r w₀ w₁)
    (hs : Swap rev w₀.st.rows.length r r' w₁ w₂) (htr : r'.track ≠ none) :
    Predicts s want (acc.1, acc.2 + 1) w₂.st := by
  subst hw
  have hrows : w₂.st.rows = w₀.st.rows ++ [r'] := by
    rw [hs.rows, hg.rows, List.set_append_right _ _ le_rfl, Nat.sub_self]
    rfl
  have hlen := h.len
  refine ⟨by rw [hrows, List.length_append, List.length_singleton, hlen, Nat.add_assoc], ?_, ?_, ?_⟩
  · have hr' : r'.cls = .slot := hs.swapped.cls.trans hcls
    rw [State.slotRows, hrows, List.countP_append, List.countP_singleton, ← Nat.add_assoc]
    simp only [hr', decide_true, if_true]
    exact congrArg (· + 1) h.slots
  · intro j q hq
    obtain ⟨q', hq', hrest⟩ := h.old j q hq
    have hlt : j < w₀.st.rows.length := (List.getElem?_eq_some_iff.1 hq').1
    exact ⟨q', by rw [hrows, List.getElem?_append_left hlt, hq'], hrest⟩
  · intro j q hj hq
    by_cases hlt : j < w₀.st.rows.length
    · rw [hrows, List.getElem?_append_left hlt] at hq
      exact h.new j q hj hq
    · rw [hrows, List.getElem?_append_right (by omega)] at hq
      obtain ⟨-, rfl⟩ : j - w₀.st.rows.length = 0 ∧ r' = q := by
        cases hk : j - w₀.st.rows.length with
        | zero => simpa [hk] using hq
        | succ k => simp [hk] at hq
      exact htr

end Predicts

theorem freshStep_mono {s : State} {want : List (String × Kind)} (acc : Finset Nat × Nat)
    (c : Cand) : acc.2 ≤ (freshStep s want acc c).2 := by
  rw [freshStep]
  split_ifs
  · exact le_rfl
  · dsimp only
    split
    · exact le_rfl
    · exact Nat.le_succ _

theorem fresh_foldl_mono (s : State) (want : List (String × Kind)) (cs : List Cand)
    (acc : Finset Nat × Nat) : acc.2 ≤ (cs.foldl (freshStep s want) acc).2 := by
  induction cs generalizing acc with
  | nil => exact le_rfl
  | cons c cs ih => exact (freshStep_mono acc c).trans (ih _)

/-- **Within the count, the loop has a row for every candidate.** -/
theorem slotLoop_within {t : Table} {s : State} {want : List (String × Kind)} {rev now : Nat}
    {cs : List Cand} (hcs : ∀ c ∈ cs, s.rows.any (carries c) = false)
    {acc : Finset Nat × Nat} {w : Work} (h : Predicts s want acc w.st)
    (hslots : acc.2 < (cs.foldl (freshStep s want) acc).2 →
      s.slotRows + (cs.foldl (freshStep s want) acc).2 ≤ t.slotBudget ∧
      s.rows.length + (cs.foldl (freshStep s want) acc).2 ≤ t.limit)
    {w' : Work} {b : Nat × Nat} : t.slotLoop rev now cs w ≠ some (w', some b) := by
  induction cs generalizing acc w with
  | nil => simp [Table.slotLoop]
  | cons c cs ih =>
    have hstep := freshStep_eq want acc (hcs c List.mem_cons_self)
    rw [List.foldl_cons] at hslots
    rw [Table.slotLoop, h.free c]
    cases hfree : countedFree s want acc.1 c with
    | some i =>
      simp only [hfree] at hstep
      rw [hstep] at hslots
      have hi : freeSlot w.st c = some i := (h.free c).trans hfree
      have hmem := List.mem_of_mem_head? hi
      rw [State.rowsWhere, List.mem_filter, List.mem_range] at hmem
      obtain ⟨r', htr, hs⟩ := Work.load_spec c rev now
        (List.getElem?_eq_getElem hmem.1)
      exact ih (fun d hd => hcs d (List.mem_cons_of_mem c hd))
        (h.claim hfree rfl hs (by simp [htr])) hslots
    | none =>
      simp only [hfree] at hstep
      rw [hstep] at hslots
      have hmono : acc.2 + 1 ≤ _ :=
        fresh_foldl_mono s want cs (acc.1, acc.2 + 1)
      obtain ⟨hbudget, hlimit⟩ := hslots (by omega)
      have hs := h.slots
      have hl := h.len
      rw [if_neg (by omega)]
      intro hloop
      obtain ⟨w₁, hnew, hloop⟩ := Option.bind_eq_some_iff.1 hloop
      obtain ⟨r, hk, hc, hgrow⟩ := Table.newRow_spec hnew
      have hlen : w₁.st.rows.length - 1 = w.st.rows.length := by
        rw [hgrow.rows, List.length_append]
        rfl
      have hlast : w₁.st.rows[w.st.rows.length]? = some r := by
        rw [hgrow.rows, List.getElem?_append_right le_rfl, Nat.sub_self]
        rfl
      obtain ⟨r', htr, hswap⟩ := Work.load_spec c rev now hlast
      rw [hlen] at hloop
      exact ih (fun d hd => hcs d (List.mem_cons_of_mem c hd))
        (h.count rfl hc hgrow hswap (by simp [htr])) (fun _ => ⟨hbudget, hlimit⟩) hloop

/-! ## All or nothing -/

/-- The candidates that have a row make no difference to the count. -/
theorem fresh_foldl_filter {s : State} {want : List (String × Kind)} (cs : List Cand)
    (acc : Finset Nat × Nat) :
    (cs.filter fun c => !s.rows.any (carries c)).foldl (freshStep s want) acc =
      cs.foldl (freshStep s want) acc := by
  induction cs generalizing acc with
  | nil => rfl
  | cons c cs ih =>
    by_cases hc : s.rows.any (carries c) = true
    · have hskip : freshStep s want acc c = acc := by rw [freshStep, if_pos hc]
      rw [List.filter_cons_of_neg (by simp [hc]), List.foldl_cons, hskip, ih]
    · rw [List.filter_cons_of_pos (by simp [hc]), List.foldl_cons, List.foldl_cons, ih]

section

variable {s : State} {cands : List Cand} {draws : List (BitVec 32)} {rev : Nat}

theorem unloadWhere_rows (w : Work) (p : Row → Bool) (rev : Nat) :
    (w.unloadWhere p rev).st.rows.length = w.st.rows.length ∧
      ∀ (i : Nat) (r : Row), w.st.rows[i]? = some r →
        ∃ r', (w.unloadWhere p rev).st.rows[i]? = some r' ∧ r.Emptied p r' := by
  obtain ⟨hlen, -, hdone⟩ := loop_rows (unload_round p rev) w le_rfl
  exact ⟨hlen, fun i r hr => hdone i r (List.getElem?_eq_some_iff.1 hr).1 hr⟩

theorem predicts_start :
    Predicts s (wantSlot cands) (∅, 0)
      (Work.unloadWhere { st := s, draws } (unwanted (wantSlot cands)) rev).st := by
  obtain ⟨hlen, hdone⟩ := unloadWhere_rows { st := s, draws }
    (unwanted (wantSlot cands)) rev
  set w := Work.unloadWhere { st := s, draws } (unwanted (wantSlot cands)) rev
  refine ⟨hlen, ?_, ?_, ?_⟩
  · have hcls : w.st.rows.map (·.cls) = s.rows.map (·.cls) := by
      refine List.ext_getElem? fun i => ?_
      rw [List.getElem?_map, List.getElem?_map]
      cases hi : s.rows[i]? with
      | none =>
        have hout : w.st.rows[i]? = none := by
          rw [List.getElem?_eq_none_iff] at hi ⊢
          exact hlen.trans_le hi
        rw [hout]
      | some r =>
        obtain ⟨r', hr', hemp⟩ := hdone i r hi
        rw [hr', Option.map_some, Option.map_some, hemp.cls]
    have hcount := congrArg (List.countP (· = Class.slot)) hcls
    rw [List.countP_map, List.countP_map] at hcount
    exact hcount
  · intro i r hr
    obtain ⟨r', hr', hemp⟩ := hdone i r hr
    refine ⟨r', hr', hemp.kind, hemp.cls, hemp.tuple, ?_⟩
    intro _
    rw [hemp.track]
    by_cases hu : unwanted (wantSlot cands) r = true
    · simp [hu]
    · simp [hu]
  · intro i r hi hr
    have hlt := (List.getElem?_eq_some_iff.1 hr).1
    rw [hlen] at hlt
    exact absurd hlt (not_lt.2 hi)

/-- A row that carries the talk of a candidate is wanted, so unloading leaves it alone. -/
theorem carries_unloadWhere {c : Cand} (hc : c ∈ cands) (hslot : c.cls = .slot) :
    (Work.unloadWhere { st := s, draws } (unwanted (wantSlot cands)) rev).st.rows.any (carries c) =
      s.rows.any (carries c) := by
  obtain ⟨hlen, hdone⟩ := unloadWhere_rows { st := s, draws }
    (unwanted (wantSlot cands)) rev
  have hwant : (c.room, c.kind) ∈ wantSlot cands :=
    List.mem_map.2 ⟨c, List.mem_filter.2 ⟨hc, by simpa using hslot⟩, rfl⟩
  have hsame : ∀ {r r' : Row}, r.Emptied (unwanted (wantSlot cands)) r' →
      carries c r' = carries c r := by
    intro r r' h
    rw [carries, carries, h.kind, h.cls, h.track]
    by_cases hu : unwanted (wantSlot cands) r = true
    · rw [if_pos hu]
      simp only [unwanted, Bool.and_eq_true, decide_eq_true_eq, Option.any_eq_true] at hu
      obtain ⟨-, tr, htr, hnot⟩ := hu
      have hother : ¬ (r.kind = c.kind ∧ tr.2 = c.room) := by
        rintro ⟨hk, hroom⟩
        rw [hroom, hk] at hnot
        exact hnot hwant
      rw [Bool.eq_iff_iff]
      simp only [htr, Option.any_none, Option.any_some, Bool.and_eq_true, decide_eq_true_eq,
        Bool.false_eq_true]
      tauto
    · rw [if_neg hu]
  rw [Bool.eq_iff_iff, List.any_eq_true, List.any_eq_true]
  refine ⟨?_, ?_⟩
  · rintro ⟨r', hr', hcar⟩
    obtain ⟨i, hi⟩ := List.mem_iff_getElem?.1 hr'
    have hlt : i < s.rows.length := hlen ▸ (List.getElem?_eq_some_iff.1 hi).1
    obtain ⟨r'', hr'', hemp⟩ := hdone i _ (List.getElem?_eq_getElem hlt)
    obtain rfl : r'' = r' := Option.some.inj (hr''.symm.trans hi)
    exact ⟨_, List.getElem_mem hlt, hsame hemp ▸ hcar⟩
  · rintro ⟨r, hr, hcar⟩
    obtain ⟨i, hi⟩ := List.mem_iff_getElem?.1 hr
    obtain ⟨r', hr', hemp⟩ := hdone i r hi
    exact ⟨r', List.mem_of_getElem? hr', (hsame hemp).trans hcar⟩

theorem slotsNeeded_unloadWhere :
    slotsNeeded (Work.unloadWhere { st := s, draws } (unwanted (wantSlot cands)) rev).st cands =
      (cands.filter (·.cls = .slot)).filter fun c => !s.rows.any (carries c) := by
  rw [slotsNeeded, List.filter_filter]
  refine List.filter_congr ?_
  intro c hc
  by_cases hslot : c.cls = .slot
  · simp [hslot, carries_unloadWhere hc hslot]
  · simp [hslot]

end

/-- Past the count, the slot part of a sync never meets its limit. -/
theorem syncSlots_within {t : Table} {cands : List Cand} {rev now : Nat}
    {draws : List (BitVec 32)}
    (h : ¬ t.overBudget (freshSlotRows t.st cands (wantSlot cands))) {w : Work} {b : Nat × Nat} :
    t.syncSlots cands rev now draws ≠ some (w, some b) := by
  rw [Table.syncSlots, slotsNeeded_unloadWhere]
  refine slotLoop_within ?_ (predicts_start (s := t.st)) ?_
  · intro c hc
    simpa using (List.mem_filter.1 hc).2
  · rw [fresh_foldl_filter]
    intro hpos
    rw [Table.overBudget] at h
    change 0 < freshSlotRows t.st cands (wantSlot cands) at hpos
    change t.st.slotRows + freshSlotRows t.st cands (wantSlot cands) ≤ _ ∧
      t.st.rows.length + freshSlotRows t.st cands (wantSlot cands) ≤ _
    omega

/-- **A sync that reports the limit has changed nothing**, and it is the count that reports it. -/
theorem sync_all_or_nothing (t : Table) (cands : List Cand) (now : Nat)
    (draws : List (BitVec 32)) :
    (∀ out t', t.sync cands now draws = some (out, t') → out.midLimit = true →
      t' = t ∧ out.changes = []) ∧
    (¬ t.overBudget (freshSlotRows t.st cands (wantSlot cands)) →
      ∀ w b, t.syncSlots cands (t.st.arev + 1) now draws ≠ some (w, some b)) := by
  refine ⟨?_, fun h w b => syncSlots_within h⟩
  intro out t' hsync hlim
  rcases sync_moves hsync with ⟨heq, -, hch, -⟩ | ⟨hpre, w, b, hslots⟩ | ⟨w, -, heq⟩
  · exact ⟨heq, hch⟩
  · exact absurd hslots (syncSlots_within hpre)
  · rw [Table.finish] at heq
    obtain ⟨rfl, -⟩ := Prod.mk.inj heq
    simp at hlim

/-- The talk of a room. -/
def talk (room : String) : Cand :=
  ⟨"ptt-" ++ room ++ "-audio", room, .audio, .slot, "opus", 0, false⟩

/-- Talk of two rooms, and one slot row to be had. -/
theorem sync_over_budget :
    ∃ out t', (Table.new .two 1).sync [talk "a", talk "b"] 0 [] = some (out, t') ∧
      out.midLimit = true ∧ t' = Table.new .two 1 ∧ out.changes = [] := by
  have hsync : (Table.new .two 1).sync [talk "a", talk "b"] 0 [] =
      some ({ midLimit := true, budget := some (1, 0) }, Table.new .two 1) := by decide
  obtain ⟨ht, hch⟩ := (sync_all_or_nothing _ _ _ _).1 _ _ hsync rfl
  exact ⟨_, _, hsync, rfl, ht, hch⟩

end OxlensSfu.Sub
