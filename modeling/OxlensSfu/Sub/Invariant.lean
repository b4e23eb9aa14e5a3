import OxlensSfu.Lib.Machine
import OxlensSfu.Sub.Sync

/-!
# The invariant of the table

The operations of one table in any order. Rows are only ever added, at the end; their SSRCs are
theirs alone; their numbers stay within the caps. A row that is given another track is marked with a
revision that is not acknowledged yet, and every call that changes what the client sees moves the
revision on. So the row is closed until the client has acknowledged its change.

A sync is taken move by move (`Trail`), the other operations leave the rows alone but for their
state (`Steady`). All this is about a table whose lock is whole; what a panic under the lock makes of
it is in `Sub.Shared`.
-/

namespace OxlensSfu.Sub

/-- The operations of a table whose lock is whole: a sync returns when the numbers drawn suffice, a
seed when it does not panic. -/
def machine : Machine Table Op where
  ok t
    | .sync cands now draws => (t.sync cands now draws).isSome
    | .seed codecs extmap => (t.seed codecs extmap).2.isSome
    | _ => True
  next := Table.apply

/-! ## The laws -/

/-- What holds between the calls. -/
structure TableLaw (t : Table) : Prop where
  mids : ∀ i r, t.st.rows[i]? = some r → r.mid = t.start + i
  ssrcs : (t.st.rows.flatMap Row.ssrcs).Nodup
  full : ∀ kind, t.st.fullRows kind ≤ 25
  slots : t.st.slotRows ≤ t.slotBudget
  rows : t.st.rows.length ≤ t.limit
  acked : t.acked ≤ t.st.arev

/-- What holds of one call. -/
structure CallLaw (t t' : Table) : Prop where
  rows : ∀ (i : Nat) (r : Row), t.st.rows[i]? = some r →
    ∃ r', t'.st.rows[i]? = some r' ∧ r.Keeps r'
  arev : t.st.arev ≤ t'.st.arev
  acked : t.acked ≤ t'.acked
  mlines : ∀ sfuId, (t'.snapshot sfuId).mlines ≠ (t.snapshot sfuId).mlines →
    t.st.arev < t'.st.arev

/-- The invariant: the law, the SSRCs in use, and that no row is marked with a revision to come. -/
structure Inv (t : Table) : Prop extends TableLaw t where
  inUse : ∀ r ∈ t.st.rows, ∀ x ∈ r.ssrcs, x ∈ t.st.ssrcs
  since : ∀ r ∈ t.st.rows, r.down.since ≤ t.st.arev

/-! ## Rows that are kept -/

theorem Row.Keeps.refl (r : Row) : r.Keeps r := ⟨rfl, rfl, rfl, rfl, rfl⟩

theorem Row.Keeps.trans {r r' r'' : Row} (h : r.Keeps r') (h' : r'.Keeps r'') : r.Keeps r'' :=
  ⟨h'.mid.trans h.mid, h'.kind.trans h.kind, h'.cls.trans h.cls, h'.ssrc.trans h.ssrc,
    h'.rtxSsrc.trans h.rtxSsrc⟩

theorem Row.Keeps.ssrcs_eq {r r' : Row} (h : r.Keeps r') : r'.ssrcs = r.ssrcs := by
  rw [Row.ssrcs, Row.ssrcs, h.ssrc, h.rtxSsrc]

/-- The part of the law that is about the rows of a state. -/
structure RowsLaw (t : Table) (s : State) : Prop where
  mids : ∀ i r, s.rows[i]? = some r → r.mid = t.start + i
  ssrcs : (s.rows.flatMap Row.ssrcs).Nodup
  full : ∀ kind, s.fullRows kind ≤ 25
  slots : s.slotRows ≤ t.slotBudget
  rows : s.rows.length ≤ t.limit
  inUse : ∀ r ∈ s.rows, ∀ x ∈ r.ssrcs, x ∈ s.ssrcs

namespace RowsLaw

variable {t : Table} {s s' : State}

theorem of_rows (h : RowsLaw t s) (hrows : s'.rows = s.rows) (hssrcs : s'.ssrcs = s.ssrcs) :
    RowsLaw t s' := by
  refine ⟨hrows ▸ h.mids, hrows ▸ h.ssrcs, ?_, ?_, hrows ▸ h.rows, ?_⟩
  · intro kind
    rw [State.fullRows, hrows]
    exact h.full kind
  · rw [State.slotRows, hrows]
    exact h.slots
  · rw [hrows, hssrcs]
    exact h.inUse

/-- A row may change in everything but what it keeps. -/
theorem set (h : RowsLaw t s) {i : Nat} {r r' : Row} (hi : s.rows[i]? = some r)
    (hk : r.Keeps r') (hrows : s'.rows = s.rows.set i r') (hssrcs : s'.ssrcs = s.ssrcs) :
    RowsLaw t s' := by
  have hlt : i < s.rows.length := (List.getElem?_eq_some_iff.1 hi).1
  have hmap : s'.rows.map Row.ssrcs = s.rows.map Row.ssrcs := by
    rw [hrows, List.map_set]
    refine set_eq_of_getElem? ?_
    rw [List.getElem?_map, hi, Option.map_some, hk.ssrcs_eq]
  refine ⟨?_, ?_, ?_, ?_, ?_, ?_⟩
  · intro j q hq
    rw [hrows, List.getElem?_set] at hq
    split_ifs at hq with hij
    · obtain rfl := Option.some.inj hq
      rw [hk.mid, ← hij]
      exact h.mids i r hi
    · exact h.mids j q hq
  · rw [List.flatMap_def, hmap, ← List.flatMap_def]
    exact h.ssrcs
  · intro kind
    rw [State.fullRows, hrows, countP_set_of_eq hi (by rw [hk.cls, hk.kind])]
    exact h.full kind
  · rw [State.slotRows, hrows, countP_set_of_eq hi (by rw [hk.cls])]
    exact h.slots
  · rw [hrows, List.length_set]
    exact h.rows
  · intro q hq x hx
    rw [hssrcs]
    rw [hrows] at hq
    rcases List.mem_or_eq_of_mem_set hq with hq | rfl
    · exact h.inUse q hq x hx
    · exact h.inUse r (List.mem_of_getElem? hi) x (hk.ssrcs_eq ▸ hx)

theorem limit_le (t : Table) : t.limit ≤ 128 := by
  rw [Table.limit]
  split_ifs
  · decide
  · decide

theorem fullCap_eq (kind : Kind) : fullCap kind = 25 := by
  cases kind with
  | audio => rfl
  | video => rfl

/-- A row is made where there is room for it. -/
theorem grow (h : RowsLaw t s) {w w' : Work} {r : Row} (hw : w.st = s) (hg : Grow t r w w')
    (hroom : t.hasRoom s r.kind r.cls) : RowsLaw t w'.st := by
  subst hw
  have hlen : w.st.rows.length < t.limit := by
    cases hc : r.cls with
    | full => exact (by rw [hc] at hroom; exact hroom.2)
    | slot => exact (by rw [hc] at hroom; exact hroom.2)
  have hmod : w.st.rows.length % 2 ^ 16 = w.st.rows.length := by
    refine Nat.mod_eq_of_lt ?_
    have hle := limit_le t
    omega
  refine ⟨?_, ?_, ?_, ?_, ?_, ?_⟩
  · intro i q hq
    rw [hg.rows] at hq
    by_cases hlt : i < w.st.rows.length
    · rw [List.getElem?_append_left hlt] at hq
      exact h.mids i q hq
    · rw [List.getElem?_append_right (by omega)] at hq
      cases hk : i - w.st.rows.length with
      | succ k => simp [hk] at hq
      | zero =>
        obtain rfl : r = q := by simpa [hk] using hq
        rw [hg.mid, hmod]
        omega
  · rw [hg.rows, List.flatMap_append, List.flatMap_singleton, List.nodup_append]
    refine ⟨h.ssrcs, hg.nodup, ?_⟩
    intro x hx y hy hxy
    obtain ⟨q, hq, hxq⟩ := List.mem_flatMap.1 hx
    exact hg.fresh y hy (hxy ▸ h.inUse q hq x hxq)
  · intro kind
    rw [State.fullRows, hg.rows, List.countP_append, List.countP_singleton]
    split_ifs with hp
    · simp only [Bool.and_eq_true, decide_eq_true_eq] at hp
      rw [hp.1, hp.2] at hroom
      have hcap := hroom.1
      rw [fullCap_eq] at hcap
      exact hcap
    · exact h.full kind
  · rw [State.slotRows, hg.rows, List.countP_append, List.countP_singleton]
    split_ifs with hp
    · rw [of_decide_eq_true hp] at hroom
      exact hroom.1
    · exact h.slots
  · rw [hg.rows, List.length_append]
    exact hlen
  · intro q hq x hx
    rw [hg.ssrcs, Finset.mem_union, List.mem_toFinset]
    rw [hg.rows] at hq
    rcases List.mem_append.1 hq with hq | hq
    · exact .inl (h.inUse q hq x hx)
    · rw [List.mem_singleton.1 hq] at hx
      exact .inr hx

theorem move (h : RowsLaw t s) {rev : Nat} {w w' : Work} (hw : w.st = s) (hm : Move t rev w w') :
    RowsLaw t w'.st := by
  subst hw
  cases hm with
  | quiet hq => exact h.of_rows hq.rows hq.ssrcs
  | swap i r r' hs => exact h.set hs.at_i hs.swapped.toKeeps hs.rows hs.ssrcs
  | grow r hg hroom => exact h.grow rfl hg hroom
  | tune i r r' ht => exact h.set ht.at_i ht.keeps ht.rows ht.ssrcs

theorem moves (h : RowsLaw t s) {rev : Nat} {w w' : Work} (hw : w.st = s)
    (hm : Moves t rev w w') : RowsLaw t w'.st := by
  induction hm with
  | refl => rwa [hw]
  | tail _ hstep ih => exact ih.move rfl hstep

end RowsLaw

/-! ## The trail of a sync -/

/-- How far a sync has come from where it started. -/
structure Trail (rev : Nat) (w₀ w : Work) : Prop where
  rows : ∀ (i : Nat) (r : Row), w₀.st.rows[i]? = some r →
    ∃ r', w.st.rows[i]? = some r' ∧ r.Keeps r' ∧
      (r'.down.since = r.down.since ∨ r'.down.since = rev)
  fresh : ∀ (i : Nat) (r : Row), w₀.st.rows.length ≤ i → w.st.rows[i]? = some r → r.down.since ≤ rev
  idle : w.ch = [] → w.tuned = false → w.st.rows.length = w₀.st.rows.length →
    w.st.rows = w₀.st.rows
  changed : ∀ c ∈ w.ch, ∃ (i : Nat) (r : Row),
    w.st.rows[i]? = some r ∧ r.mid = c.mid ∧ r.down.since = rev

namespace Trail

variable {rev : Nat} {w₀ w w' : Work}

theorem refl (hch : w₀.ch = []) : Trail rev w₀ w₀ where
  rows i r hr := ⟨r, hr, .refl r, .inl rfl⟩
  fresh i r hi hr := absurd (List.getElem?_eq_some_iff.1 hr).1 (not_lt.2 hi)
  idle _ _ _ := rfl
  changed c hc := by simp [hch] at hc

theorem length_le (h : Trail rev w₀ w) : w₀.st.rows.length ≤ w.st.rows.length := by
  by_contra hlt
  obtain ⟨r', hr', -⟩ := h.rows _ _ (List.getElem?_eq_getElem (not_le.1 hlt))
  exact absurd (List.getElem?_eq_some_iff.1 hr').1 (lt_irrefl _)

/-- The move of one row: where it was marked with the revision it stays so. -/
theorem set (h : Trail rev w₀ w) {i : Nat} {r r' : Row} (hi : w.st.rows[i]? = some r)
    (hk : r.Keeps r') (hsince : r'.down.since = r.down.since ∨ r'.down.since = rev)
    (hrows : w'.st.rows = w.st.rows.set i r')
    (hmoved : w'.ch ≠ [] ∨ w'.tuned = true)
    (hch : ∀ c ∈ w'.ch, c ∈ w.ch ∨ c.mid = r.mid ∧ r'.down.since = rev) : Trail rev w₀ w' := by
  have hlt : i < w.st.rows.length := (List.getElem?_eq_some_iff.1 hi).1
  refine ⟨?_, ?_, ?_, ?_⟩
  · intro j q hq
    obtain ⟨q', hq', hkq, hsq⟩ := h.rows j q hq
    by_cases hij : i = j
    · subst hij
      obtain rfl : r = q' := Option.some.inj (hi.symm.trans hq')
      refine ⟨r', by rw [hrows, List.getElem?_set_self hlt], hkq.trans hk, ?_⟩
      rcases hsince with hs | hs
      · rw [hs]
        exact hsq
      · exact .inr hs
    · exact ⟨q', by rw [hrows, List.getElem?_set_ne hij, hq'], hkq, hsq⟩
  · intro j q hj hq
    rw [hrows, List.getElem?_set] at hq
    split_ifs at hq with hij
    · obtain rfl := Option.some.inj hq
      subst hij
      rcases hsince with hs | hs
      · rw [hs]
        exact h.fresh i r hj hi
      · exact hs.le
    · exact h.fresh j q hj hq
  · intro hnil htuned
    rcases hmoved with hne | ht
    · exact absurd hnil hne
    · simp [ht] at htuned
  · intro c hc
    rcases hch c hc with hc | ⟨hmid, hs⟩
    · obtain ⟨j, q, hq, hqm, hqs⟩ := h.changed c hc
      by_cases hij : i = j
      · subst hij
        obtain rfl : r = q := Option.some.inj (hi.symm.trans hq)
        refine ⟨i, r', by rw [hrows, List.getElem?_set_self hlt], hk.mid.trans hqm, ?_⟩
        rcases hsince with hs | hs
        · exact hs.trans hqs
        · exact hs
      · exact ⟨j, q, by rw [hrows, List.getElem?_set_ne hij, hq], hqm, hqs⟩
    · exact ⟨i, r', by rw [hrows, List.getElem?_set_self hlt], hk.mid.trans hmid.symm, hs⟩

theorem grow (h : Trail rev w₀ w) {t : Table} {r : Row} (hg : Grow t r w w') :
    Trail rev w₀ w' := by
  have hkeep : ∀ (j : Nat) (q : Row), w.st.rows[j]? = some q → w'.st.rows[j]? = some q := by
    intro j q hq
    rw [hg.rows, List.getElem?_append_left (List.getElem?_eq_some_iff.1 hq).1, hq]
  refine ⟨?_, ?_, ?_, ?_⟩
  · intro j q hq
    obtain ⟨q', hq', hrest⟩ := h.rows j q hq
    exact ⟨q', hkeep j q' hq', hrest⟩
  · intro j q hj hq
    by_cases hlt : j < w.st.rows.length
    · rw [hg.rows, List.getElem?_append_left hlt] at hq
      exact h.fresh j q hj hq
    · have hmem : q ∈ [r] := by
        rw [hg.rows, List.getElem?_append_right (not_lt.1 hlt)] at hq
        exact List.mem_of_getElem? hq
      rw [List.mem_singleton.1 hmem, hg.since]
      exact Nat.zero_le rev
  · intro _ _ hlen
    rw [hg.rows, List.length_append] at hlen
    have hle := h.length_le
    simp only [List.length_singleton] at hlen
    omega
  · intro c hc
    rw [hg.ch] at hc
    obtain ⟨j, q, hq, hrest⟩ := h.changed c hc
    exact ⟨j, q, hkeep j q hq, hrest⟩

theorem move (h : Trail rev w₀ w) {t : Table} (hm : Move t rev w w') : Trail rev w₀ w' := by
  cases hm with
  | quiet hq =>
    exact ⟨hq.rows ▸ h.rows, hq.rows ▸ h.fresh, by rw [hq.rows, hq.ch, hq.tuned]; exact h.idle,
      by rw [hq.rows, hq.ch]; exact h.changed⟩
  | swap i r r' hs =>
    refine h.set hs.at_i hs.swapped.toKeeps (.inr hs.swapped.since) hs.rows ?_ ?_
    · exact .inl (by rw [hs.ch]; simp)
    · intro c hc
      rw [hs.ch] at hc
      rcases List.mem_append.1 hc with hc | hc
      · exact .inl hc
      · rw [List.mem_singleton.1 hc]
        exact .inr ⟨rfl, hs.swapped.since⟩
  | grow r hg hroom => exact h.grow hg
  | tune i r r' ht =>
    exact h.set ht.at_i ht.keeps (.inl ht.since) ht.rows (.inr ht.tuned)
      fun c hc => .inl (ht.ch ▸ hc)

theorem moves {t : Table} (hch : w₀.ch = []) (hm : Moves t rev w₀ w) : Trail rev w₀ w := by
  induction hm with
  | refl => exact .refl hch
  | tail _ hstep ih => exact ih.move hstep

/-- No row is marked with a revision after that of the sync. -/
theorem since_le (h : Trail rev w₀ w) (h₀ : ∀ r ∈ w₀.st.rows, r.down.since ≤ rev) {r : Row}
    (hr : r ∈ w.st.rows) : r.down.since ≤ rev := by
  obtain ⟨i, hi⟩ := List.mem_iff_getElem?.1 hr
  by_cases hlt : i < w₀.st.rows.length
  · obtain ⟨r', hr', -, hs⟩ := h.rows i _ (List.getElem?_eq_getElem hlt)
    obtain rfl : r' = r := Option.some.inj (hr'.symm.trans hi)
    rcases hs with hs | hs
    · rw [hs]
      exact h₀ _ (List.getElem_mem hlt)
    · exact hs.le
  · exact h.fresh i r (not_lt.1 hlt) hi

end Trail

/-! ## One call -/

/-- Later calls mark a row with no earlier revision. -/
def SinceMono (t t' : Table) : Prop :=
  ∀ (i : Nat) (r r' : Row), t.st.rows[i]? = some r → t'.st.rows[i]? = some r' →
    r.down.since ≤ r'.down.since

/-- The table itself is the same. -/
structure SameTable (t t' : Table) : Prop where
  pcMode : t'.pcMode = t.pcMode
  slotBudget : t'.slotBudget = t.slotBudget

/-- What a call keeps. -/
structure Step (t t' : Table) : Prop where
  inv : Inv t'
  law : CallLaw t t'
  since : SinceMono t t'

theorem Inv.rowsLaw {t : Table} (h : Inv t) : RowsLaw t t.st :=
  ⟨h.mids, h.ssrcs, h.full, h.slots, h.rows, h.inUse⟩

/-- A call that leaves the rows alone, but for what the client does not see. -/
structure Steady (t t' : Table) : Prop extends SameTable t t' where
  rows : ∃ f : Row → Row, (∀ r, r.Keeps (f r) ∧ (f r).down.since = r.down.since ∧
    (f r).entry = r.entry) ∧ t'.st.rows = t.st.rows.map f
  ssrcs : t'.st.ssrcs = t.st.ssrcs
  arev : t.st.arev ≤ t'.st.arev
  acked : t.acked ≤ t'.acked
  ack_le : t'.acked ≤ t'.st.arev

theorem Steady.step {t t' : Table} (h : Steady t t') (hinv : Inv t) : Step t t' := by
  obtain ⟨f, hf, hrows⟩ := h.rows
  have hstart : t'.start = t.start := by rw [Table.start, Table.start, h.pcMode]
  have hlimit : t'.limit = t.limit := by rw [Table.limit, Table.limit, h.pcMode]
  have hget : ∀ (i : Nat) (r' : Row), t'.st.rows[i]? = some r' →
      ∃ r, t.st.rows[i]? = some r ∧ f r = r' := by
    intro i r' hr'
    rw [hrows, List.getElem?_map] at hr'
    exact Option.map_eq_some_iff.1 hr'
  refine ⟨⟨⟨?_, ?_, ?_, ?_, ?_, h.ack_le⟩, ?_, ?_⟩, ⟨?_, h.arev, h.acked, ?_⟩, ?_⟩
  · intro i r' hr'
    obtain ⟨r, hr, rfl⟩ := hget i r' hr'
    rw [(hf r).1.mid, hstart]
    exact hinv.mids i r hr
  · have hssrcs : Row.ssrcs ∘ f = Row.ssrcs := by
      funext r
      exact (hf r).1.ssrcs_eq
    rw [hrows, List.flatMap_map]
    change (t.st.rows.flatMap (Row.ssrcs ∘ f)).Nodup
    rw [hssrcs]
    exact hinv.ssrcs
  · intro kind
    refine le_of_eq_of_le ?_ (hinv.full kind)
    rw [State.fullRows, State.fullRows, hrows, List.countP_map]
    refine List.countP_congr fun r _ => ?_
    simp only [Function.comp_apply, (hf r).1.cls, (hf r).1.kind]
  · rw [h.slotBudget]
    refine le_of_eq_of_le ?_ hinv.slots
    rw [State.slotRows, State.slotRows, hrows, List.countP_map]
    refine List.countP_congr fun r _ => ?_
    simp only [Function.comp_apply, (hf r).1.cls]
  · rw [hrows, List.length_map, hlimit]
    exact hinv.rows
  · intro r' hr' x hx
    rw [hrows] at hr'
    obtain ⟨r, hr, rfl⟩ := List.mem_map.1 hr'
    rw [h.ssrcs]
    exact hinv.inUse r hr x ((hf r).1.ssrcs_eq ▸ hx)
  · intro r' hr'
    rw [hrows] at hr'
    obtain ⟨r, hr, rfl⟩ := List.mem_map.1 hr'
    rw [(hf r).2.1]
    exact (hinv.since r hr).trans h.arev
  · intro i r hr
    exact ⟨f r, by rw [hrows, List.getElem?_map, hr]; rfl, (hf r).1⟩
  · intro sfuId hne
    refine absurd ?_ hne
    rw [Table.snapshot, Table.snapshot, hrows, List.map_map]
    exact List.map_congr_left fun r _ => (hf r).2.2
  · intro i r r' hr hr'
    obtain ⟨q, hq, rfl⟩ := hget i r' hr'
    obtain rfl : r = q := Option.some.inj (hr.symm.trans hq)
    rw [(hf r).2.1]

/-- A call that does not touch the rows. -/
theorem Steady.of_rows {t t' : Table} (hinv : Inv t) (hsame : SameTable t t')
    (hrows : t'.st.rows = t.st.rows) (hssrcs : t'.st.ssrcs = t.st.ssrcs)
    (harev : t.st.arev ≤ t'.st.arev) (hacked : t'.acked = t.acked) : Steady t t' where
  toSameTable := hsame
  rows := ⟨id, fun r => ⟨.refl r, rfl, rfl⟩, by rw [hrows, List.map_id]⟩
  ssrcs := hssrcs
  arev := harev
  acked := hacked.ge
  ack_le := hacked.le.trans (hinv.acked.trans harev)

/-- The end of a sync: the revision moves on, or the rows are as they were. -/
theorem finish_step {t t' : Table} {draws : List (BitVec 32)} {w : Work} (hinv : Inv t)
    (hlaw : RowsLaw t w.st) (htrail : Trail (t.st.arev + 1) { st := t.st, draws } w)
    (hsame : SameTable t t') (hrows : t'.st.rows = w.st.rows)
    (hssrcs : t'.st.ssrcs = w.st.ssrcs) (hacked : t'.acked = t.acked)
    (harev : t'.st.arev = t.st.arev + 1 ∨ t'.st.arev = t.st.arev ∧ w.st.rows = t.st.rows) :
    Step t t' := by
  have hstart : t'.start = t.start := by rw [Table.start, Table.start, hsame.pcMode]
  have hlimit : t'.limit = t.limit := by rw [Table.limit, Table.limit, hsame.pcMode]
  have hlaw' : RowsLaw t t'.st := hlaw.of_rows hrows hssrcs
  have hle : t.st.arev ≤ t'.st.arev := by omega
  refine ⟨⟨⟨?_, hlaw'.ssrcs, hlaw'.full, ?_, ?_, ?_⟩, hlaw'.inUse, ?_⟩,
    ⟨?_, hle, hacked.ge, ?_⟩, ?_⟩
  · rw [hstart]
    exact hlaw'.mids
  · rw [hsame.slotBudget]
    exact hlaw'.slots
  · rw [hlimit]
    exact hlaw'.rows
  · rw [hacked]
    exact hinv.acked.trans hle
  · intro r hr
    rw [hrows] at hr
    rcases harev with harev | ⟨-, hsame⟩
    · rw [harev]
      exact htrail.since_le (fun q hq => Nat.le_succ_of_le (hinv.since q hq)) hr
    · exact (hinv.since r (hsame ▸ hr)).trans hle
  · intro i r hr
    obtain ⟨r', hr', hk, -⟩ := htrail.rows i r hr
    exact ⟨r', by rw [hrows, hr'], hk⟩
  · intro sfuId hne
    rcases harev with harev | ⟨-, hsame⟩
    · omega
    · refine absurd ?_ hne
      rw [Table.snapshot, Table.snapshot, hrows, hsame]
  · intro i r r' hr hr'
    obtain ⟨q, hq, -, hs⟩ := htrail.rows i r hr
    rw [hrows] at hr'
    obtain rfl : q = r' := Option.some.inj (hq.symm.trans hr')
    have hold := hinv.since r (List.mem_of_getElem? hr)
    omega

theorem moves_arev {t : Table} {rev : Nat} {w w' : Work} (h : Moves t rev w w') :
    w'.st.arev = w.st.arev := by
  induction h with
  | refl => rfl
  | tail _ hm ih =>
    cases hm with
    | quiet hq => exact hq.arev.trans ih
    | swap i r r' hs => exact hs.arev.trans ih
    | grow r hg hroom => exact hg.arev.trans ih
    | tune i r r' ht => exact ht.arev.trans ih

/-- A sync marks the rows it changes with its revision. -/
theorem sync_step {t t' : Table} {cands : List Cand} {now : Nat} {draws : List (BitVec 32)}
    {out : SyncOut} (hinv : Inv t) (h : t.sync cands now draws = some (out, t')) :
    Step t t' ∧ t'.acked = t.acked ∧
      ∀ c ∈ out.changes, ∃ (i : Nat) (r : Row),
        t'.st.rows[i]? = some r ∧ r.mid = c.mid ∧ r.down.since = t.st.arev + 1 := by
  rcases sync_moves h with ⟨rfl, -, hch, -⟩ | ⟨hpre, w, b, hslots⟩ | ⟨w, hmoves, heq⟩
  · refine ⟨(Steady.of_rows hinv ⟨rfl, rfl⟩ rfl rfl le_rfl rfl).step hinv, rfl, ?_⟩
    intro c hc
    simp [hch] at hc
  · exact absurd hslots (syncSlots_within hpre)
  · have hlaw := hinv.rowsLaw.moves rfl hmoves
    have htrail : Trail (t.st.arev + 1) { st := t.st, draws } w := .moves rfl hmoves
    rw [Table.finish] at heq
    obtain ⟨rfl, rfl⟩ := Prod.mk.inj heq
    by_cases hc : (!w.ch.isEmpty || w.st.rows.length != t.st.rows.length || w.tuned) = true
    · rw [if_pos hc]
      exact ⟨finish_step hinv hlaw htrail ⟨rfl, rfl⟩ rfl rfl rfl (.inl rfl), rfl, htrail.changed⟩
    · rw [if_neg hc]
      have hidle : w.st.rows = t.st.rows := by
        simp only [Bool.or_eq_true, not_or, bne_iff_ne, ne_eq, not_not, Bool.not_eq_true,
          Bool.not_eq_false'] at hc
        exact htrail.idle (List.isEmpty_iff.1 hc.1.1) hc.2 hc.1.2
      exact ⟨finish_step hinv hlaw htrail ⟨rfl, rfl⟩ rfl rfl rfl
        (.inr ⟨moves_arev hmoves, hidle⟩), rfl, htrail.changed⟩

theorem seed_steady {t : Table} (hinv : Inv t) (codecs : List JoinCodec) (extmap : List ExtMap) :
    Steady t (t.seed codecs extmap).1 := by
  obtain ⟨hsame, hacked, hmode, hbudget⟩ := t.seed_same codecs extmap
  exact .of_rows hinv ⟨hmode, hbudget⟩ hsame.rows hsame.ssrcs hsame.arev.ge hacked

theorem ready_steady {t : Table} (hinv : Inv t) (room : String) (arev now : Nat) :
    Steady t (t.ready room arev now).1 where
  pcMode := rfl
  slotBudget := rfl
  rows := by
    refine ⟨_, ?_, rfl⟩
    intro r
    split_ifs
    · exact ⟨⟨rfl, rfl, rfl, rfl, rfl⟩, rfl, rfl⟩
    · exact ⟨.refl r, rfl, rfl⟩
  ssrcs := rfl
  arev := le_rfl
  acked := le_max_left _ _
  ack_le := max_le hinv.acked (min_le_left _ _)

theorem carry_steady {t : Table} (hinv : Inv t) (arev : Nat) : Steady t (t.carry arev) := by
  rw [Table.carry]
  split_ifs with h
  · exact .of_rows hinv ⟨rfl, rfl⟩ rfl rfl h.le rfl
  · exact .of_rows hinv ⟨rfl, rfl⟩ rfl rfl le_rfl rfl

theorem apply_sync {t t' : Table} {cands : List Cand} {now : Nat} {draws : List (BitVec 32)}
    {out : SyncOut} (h : t.sync cands now draws = some (out, t')) :
    t.apply (.sync cands now draws) = t' := by
  rw [Table.apply, h]
  rfl

/-- Every call keeps the law. -/
theorem apply_step {t : Table} {op : Op} (hinv : Inv t) (hok : machine.ok t op) :
    Step t (t.apply op) := by
  cases op with
  | sync cands now draws =>
    obtain ⟨⟨out, t'⟩, hsync⟩ := Option.isSome_iff_exists.1 hok
    rw [apply_sync hsync]
    exact (sync_step hinv hsync).1
  | seed codecs extmap => exact (seed_steady hinv codecs extmap).step hinv
  | ready room arev now => exact (ready_steady hinv room arev now).step hinv
  | carry arev => exact (carry_steady hinv arev).step hinv
  -- The others touch neither the rows nor the revisions.
  | markSeeded | gateTimeouts | setPref | forgetRoom | addUplink | removeUplink =>
    refine Steady.step ?_ hinv
    exact .of_rows hinv ⟨rfl, rfl⟩ rfl rfl le_rfl rfl

/-! ## Runs -/

theorem inv_new (pcMode : PcMode) (slotBudget : Nat) : Inv (Table.new pcMode slotBudget) where
  mids i r hr := by simp [Table.new] at hr
  ssrcs := by simp [Table.new]
  full kind := by simp [Table.new, State.fullRows]
  slots := by simp [Table.new, State.slotRows]
  rows := by simp [Table.new]
  acked := le_rfl
  inUse r hr := by simp [Table.new] at hr
  since r hr := by simp [Table.new] at hr

theorem run_inv {t : Table} (hinv : Inv t) {ops : List Op} (h : machine.Legal t ops) :
    Inv (machine.exec t ops) :=
  Machine.invariant (M := machine) (fun _ _ hi hok => (apply_step hi hok).inv) hinv h

/-- Only an acknowledgement by the client raises what is acknowledged. -/
theorem acked_apply {t : Table} {op : Op} (hinv : Inv t) (hok : machine.ok t op) {rev : Nat}
    (h : rev ≤ (t.apply op).acked) :
    rev ≤ t.acked ∨ ∃ room arev now, op = .ready room arev now ∧ rev ≤ t.ack arev := by
  cases op with
  | sync cands now draws =>
    obtain ⟨⟨out, t'⟩, hsync⟩ := Option.isSome_iff_exists.1 hok
    rw [apply_sync hsync, (sync_step hinv hsync).2.1] at h
    exact .inl h
  | ready room arev now =>
    rcases le_max_iff.1 h with h | h
    · exact .inl h
    · exact .inr ⟨room, arev, now, rfl, h⟩
  | seed codecs extmap => exact .inl ((t.seed_same codecs extmap).2.1 ▸ h)
  | carry arev =>
    rw [Table.apply, Table.carry] at h
    split_ifs at h
    · exact .inl h
    · exact .inl h
  | markSeeded => exact .inl h
  | gateTimeouts now => exact .inl h
  | setPref track priority paused => exact .inl h
  | forgetRoom room => exact .inl h
  | addUplink ssrcs => exact .inl h
  | removeUplink ssrcs => exact .inl h

theorem acked_run {t : Table} {ops : List Op} (hinv : Inv t) (hl : machine.Legal t ops) {rev : Nat}
    (h : rev ≤ (machine.exec t ops).acked) :
    rev ≤ t.acked ∨ ∃ l₁ room arev now l₂, ops = l₁ ++ .ready room arev now :: l₂ ∧
      rev ≤ (machine.exec t l₁).ack arev := by
  induction ops generalizing t with
  | nil => exact .inl h
  | cons op ops ih =>
    obtain ⟨hok, hl⟩ := hl
    rcases ih (apply_step hinv hok).inv hl h with h₁ | ⟨l₁, room, arev, now, l₂, rfl, hack⟩
    · rcases acked_apply hinv hok h₁ with h₂ | ⟨room, arev, now, rfl, hack⟩
      · exact .inl h₂
      · exact .inr ⟨[], room, arev, now, ops, rfl, hack⟩
    · exact .inr ⟨op :: l₁, room, arev, now, l₂, rfl, hack⟩

theorem since_run {t : Table} {ops : List Op} (hinv : Inv t) (hl : machine.Legal t ops) {i : Nat}
    {r : Row} (hr : t.st.rows[i]? = some r) :
    ∃ r', (machine.exec t ops).st.rows[i]? = some r' ∧ r'.mid = r.mid ∧
      r.down.since ≤ r'.down.since := by
  induction ops generalizing t r with
  | nil => exact ⟨r, hr, rfl, le_rfl⟩
  | cons op ops ih =>
    have hstep := apply_step hinv hl.1
    obtain ⟨q, hq, hk⟩ := hstep.law.rows i r hr
    obtain ⟨r', hr', hmid, hle⟩ := ih hstep.inv hl.2 hq
    exact ⟨r', hr', hmid.trans hk.mid, (hstep.since i r q hr hq).trans hle⟩

/-- A row of the table is known by its mid. -/
theorem Inv.row_unique {t : Table} (h : Inv t) {i : Nat} {r r' : Row}
    (hr : t.st.rows[i]? = some r) (hr' : r' ∈ t.st.rows) (hmid : r'.mid = r.mid) : r' = r := by
  obtain ⟨j, hj⟩ := List.mem_iff_getElem?.1 hr'
  have hij : j = i := by
    have hi := h.mids i r hr
    have hj' := h.mids j r' hj
    omega
  subst hij
  exact Option.some.inj (hj.symm.trans hr)

/-- A row that a sync has changed is closed until the client acknowledges that revision. -/
theorem changed_row_closed {t t' : Table} {cands : List Cand} {now : Nat}
    {draws : List (BitVec 32)} {out : SyncOut} (hinv : Inv t)
    (hsync : t.sync cands now draws = some (out, t')) {ops : List Op}
    (hl : machine.Legal t' ops) {c : Change} (hc : c ∈ out.changes) {r : Row}
    (hr : r ∈ (machine.exec t' ops).st.rows) (hmid : r.mid = c.mid)
    (hopen : (machine.exec t' ops).opened r = true) :
    ∃ l₁ room arev at_ l₂, ops = l₁ ++ .ready room arev at_ :: l₂ ∧
      t.st.arev + 1 ≤ (machine.exec t' l₁).ack arev := by
  obtain ⟨hstep, hacked, hchanged⟩ := sync_step hinv hsync
  obtain ⟨i, q, hq, hqm, hqs⟩ := hchanged c hc
  obtain ⟨q', hq', hmid', hle⟩ := since_run hstep.inv hl hq
  obtain rfl : r = q' := (run_inv hstep.inv hl).row_unique hq' hr (by rw [hmid, hmid', hqm])
  have hup : t.st.arev + 1 ≤ (machine.exec t' ops).acked := by
    have ho : r.down.since ≤ (machine.exec t' ops).acked := of_decide_eq_true hopen
    omega
  rcases acked_run hstep.inv hl hup with h | h
  · rw [hacked] at h
    have hlow := hinv.acked
    omega
  · exact h

end OxlensSfu.Sub
