import OxlensSfu.Sub.Table

/-!
# The moves of a sync

Whatever `sync` does to the rows it does in moves of four kinds: a row is given another track, a
row is made, an empty row is given another codec, or the rows stay as they are. `sync_moves` says
this once, with everything that is known where a move is made; the invariants of the table are
then proved move by move.
-/

namespace OxlensSfu.Sub

/-! ## One move -/

/-- The SSRCs of a row. -/
def Row.ssrcs (r : Row) : List (BitVec 32) := r.ssrc :: r.rtxSsrc.toList

/-- What a row keeps for good. -/
structure Row.Keeps (r r' : Row) : Prop where
  mid : r'.mid = r.mid
  kind : r'.kind = r.kind
  cls : r'.cls = r.cls
  ssrc : r'.ssrc = r.ssrc
  rtxSsrc : r'.rtxSsrc = r.rtxSsrc

/-- The row has been given another track at revision `rev`. -/
structure Row.Swapped (rev : Nat) (r r' : Row) : Prop extends r.Keeps r' where
  tuple : r'.tuple = r.tuple
  since : r'.down.since = rev

/-- The move of row `i` from `r` to `r'`. -/
structure Swap (rev i : Nat) (r r' : Row) (w w' : Work) : Prop where
  at_i : w.st.rows[i]? = some r
  swapped : r.Swapped rev r'
  rows : w'.st.rows = w.st.rows.set i r'
  ch : w'.ch = w.ch ++ [⟨r.mid, r.kind, r.cls, r.track, r'.track⟩]
  ssrcs : w'.st.ssrcs = w.st.ssrcs
  arev : w'.st.arev = w.st.arev
  tuned : w'.tuned = w.tuned

/-- There is room for one more row. -/
def Table.hasRoom (t : Table) (s : State) (kind : Kind) : Class → Prop
  | .slot => s.slotRows < t.slotBudget ∧ s.rows.length < t.limit
  | .full => s.fullRows kind < fullCap kind ∧ s.rows.length < t.limit

/-- The move that makes row `r`. -/
structure Grow (t : Table) (r : Row) (w w' : Work) : Prop where
  mid : r.mid = t.start + w.st.rows.length % 2 ^ 16
  track : r.track = none
  since : r.down.since = 0
  fresh : ∀ x ∈ r.ssrcs, x ∉ w.st.ssrcs
  nodup : r.ssrcs.Nodup
  rows : w'.st.rows = w.st.rows ++ [r]
  ch : w'.ch = w.ch
  ssrcs : w'.st.ssrcs = w.st.ssrcs ∪ r.ssrcs.toFinset
  arev : w'.st.arev = w.st.arev
  tuned : w'.tuned = w.tuned

/-- The move that gives row `i` another codec. -/
structure Tune (i : Nat) (r r' : Row) (w w' : Work) : Prop where
  at_i : w.st.rows[i]? = some r
  keeps : r.Keeps r'
  track : r'.track = r.track
  since : r'.down.since = r.down.since
  rows : w'.st.rows = w.st.rows.set i r'
  ch : w'.ch = w.ch
  ssrcs : w'.st.ssrcs = w.st.ssrcs
  arev : w'.st.arev = w.st.arev
  tuned : w'.tuned = true

/-- The rows stay as they are. -/
structure Quiet (w w' : Work) : Prop where
  rows : w'.st.rows = w.st.rows
  ch : w'.ch = w.ch
  ssrcs : w'.st.ssrcs = w.st.ssrcs
  arev : w'.st.arev = w.st.arev
  tuned : w'.tuned = w.tuned

inductive Move (t : Table) (rev : Nat) (w w' : Work) : Prop
  | quiet (h : Quiet w w')
  | swap (i : Nat) (r r' : Row) (h : Swap rev i r r' w w')
  | grow (r : Row) (h : Grow t r w w') (room : t.hasRoom w.st r.kind r.cls)
  | tune (i : Nat) (r r' : Row) (h : Tune i r r' w w')

abbrev Moves (t : Table) (rev : Nat) : Work → Work → Prop := Relation.ReflTransGen (Move t rev)

/-! ## What leaves the rows alone -/

structure SameRows (s s' : State) : Prop where
  rows : s'.rows = s.rows
  ssrcs : s'.ssrcs = s.ssrcs
  arev : s'.arev = s.arev

theorem SameRows.foldl {α : Type} {f : State → α → State} (hf : ∀ s a, SameRows s (f s a))
    (l : List α) (s : State) : SameRows s (l.foldl f s) := by
  induction l generalizing s with
  | nil => exact ⟨rfl, rfl, rfl⟩
  | cons a l ih =>
    have h := hf s a
    have h' := ih (f s a)
    exact ⟨h'.rows.trans h.rows, h'.ssrcs.trans h.ssrcs, h'.arev.trans h.arev⟩

theorem gate_rows (s : State) (room : String) (now : Nat) :
    SameRows s (gate s room now).1 := by
  rw [gate]
  cases s.gates.lookup room with
  | none => exact ⟨rfl, rfl, rfl⟩
  | some g => exact ⟨rfl, rfl, rfl⟩

theorem Table.ptFor_rows (t : Table) (s : State) (kind : Kind) (tu : Tuple) (codec : String) :
    SameRows s (t.ptFor s kind tu codec).1 := by
  rw [ptFor]
  cases s.pts.lookup tu with
  | none => exact ⟨rfl, rfl, rfl⟩
  | some p => exact ⟨rfl, rfl, rfl⟩

theorem noteWaiting_rows (loaded : List (Track × Nat)) (now : Nat) (s : State) (c : Cand) :
    SameRows s (noteWaiting loaded now s c) := by
  rw [noteWaiting]
  split_ifs
  · exact ⟨rfl, rfl, rfl⟩
  · exact ⟨rfl, rfl, rfl⟩

theorem Table.seedLoop_rows (s : State) (cs : List JoinCodec) : SameRows s (seedLoop s cs).1 := by
  induction cs generalizing s with
  | nil => exact ⟨rfl, rfl, rfl⟩
  | cons c cs ih =>
    rw [seedLoop]
    cases joinTuple c with
    | none => exact ⟨rfl, rfl, rfl⟩
    | some t =>
      cases t with
      | none => exact ⟨(ih _).rows, (ih _).ssrcs, (ih _).arev⟩
      | some tu => exact ⟨(ih _).rows, (ih _).ssrcs, (ih _).arev⟩

/-- A seed leaves the rows and the revisions alone, also when it panics. -/
theorem Table.seed_same (t : Table) (codecs : List JoinCodec) (extmap : List ExtMap) :
    SameRows t.st (t.seed codecs extmap).1.st ∧ (t.seed codecs extmap).1.acked = t.acked ∧
      (t.seed codecs extmap).1.pcMode = t.pcMode ∧
      (t.seed codecs extmap).1.slotBudget = t.slotBudget := by
  rw [seed]
  by_cases hs : t.st.seeded = true
  · rw [if_pos hs]
    exact ⟨⟨rfl, rfl, rfl⟩, rfl, rfl, rfl⟩
  · rw [if_neg hs]
    have hsame := seedLoop_rows { t.st with seeded := true } codecs
    generalize seedLoop { t.st with seeded := true } codecs = x at hsame
    obtain ⟨st, b⟩ := x
    cases b with
    | false => exact ⟨⟨hsame.rows, hsame.ssrcs, hsame.arev⟩, rfl, rfl, rfl⟩
    | true => exact ⟨⟨hsame.rows, hsame.ssrcs, hsame.arev⟩, rfl, rfl, rfl⟩

/-! ## Rows that are given another track -/

namespace Work

variable {w : Work} {i rev now : Nat} {r : Row} {c : Cand}

/-- The change of row `i`, after one that leaves the rows alone. -/
theorem swap_spec {f : Row → Row} {s : State}
    (hs : SameRows w.st s) (h : w.st.rows[i]? = some r) (hf : r.Swapped rev (f r)) :
    Swap rev i r (f r) w (swap { w with st := s } i f) := by
  obtain ⟨hrows, hssrcs, harev⟩ := hs
  have hi : s.rows[i]? = some r := by rw [hrows, h]
  simp only [swap, hi]
  exact ⟨h, hf, by rw [hrows], rfl, hssrcs, harev, rfl⟩

theorem load_spec (c : Cand) (rev now : Nat) (h : w.st.rows[i]? = some r) :
    ∃ r', r'.track = some c.track ∧ Swap rev i r r' w (w.load i c rev now) := by
  rw [load]
  by_cases hc : c.cls = .full ∧ c.kind = .video
  · rw [if_pos hc]
    exact ⟨_, rfl, swap_spec (gate_rows w.st c.room now) h ⟨⟨rfl, rfl, rfl, rfl, rfl⟩, rfl, rfl⟩⟩
  · rw [if_neg hc]
    exact ⟨_, rfl, swap_spec ⟨rfl, rfl, rfl⟩ h ⟨⟨rfl, rfl, rfl, rfl, rfl⟩, rfl, rfl⟩⟩

theorem rehome_spec (c : Cand) (rev now : Nat) (h : w.st.rows[i]? = some r) :
    ∃ r', r'.track = some c.track ∧ Swap rev i r r' w (w.rehome i c rev now) := by
  rw [rehome]
  by_cases hc : c.kind = .video
  · rw [if_pos hc]
    exact ⟨_, rfl, swap_spec (gate_rows w.st c.room now) h ⟨⟨rfl, rfl, rfl, rfl, rfl⟩, rfl, rfl⟩⟩
  · rw [if_neg hc]
    exact ⟨_, rfl, swap_spec ⟨rfl, rfl, rfl⟩ h ⟨⟨rfl, rfl, rfl, rfl, rfl⟩, rfl, rfl⟩⟩

/-- An empty row is left alone. -/
theorem unload_spec (rev : Nat) (h : w.st.rows[i]? = some r) :
    (r.track = none ∧ w.unload i rev = w) ∨
      ∃ r', r'.track = none ∧ Swap rev i r r' w (w.unload i rev) := by
  rw [unload, h, Option.bind_some]
  cases htr : r.track with
  | none => exact .inl ⟨rfl, rfl⟩
  | some tr =>
    exact .inr ⟨_, rfl, swap_spec ⟨rfl, rfl, rfl⟩ h ⟨⟨rfl, rfl, rfl, rfl, rfl⟩, rfl, rfl⟩⟩

end Work

/-! ## New rows and other codecs -/

theorem freshSsrc_spec {s s' : State} {draws draws' : List (BitVec 32)} {v : BitVec 32}
    (h : freshSsrc s draws = some (v, s', draws')) :
    v ∉ s.ssrcs ∧ s' = { s with ssrcs := insert v s.ssrcs } := by
  induction draws with
  | nil => simp [freshSsrc] at h
  | cons x draws ih =>
    rw [freshSsrc] at h
    split_ifs at h with hx
    · simp only [Option.some.injEq, Prod.mk.injEq] at h
      obtain ⟨rfl, rfl, -⟩ := h
      exact ⟨hx.2.1, rfl⟩
    · exact ih h

theorem freshRtx_spec {s s' : State} {kind : Kind} {draws draws' : List (BitVec 32)}
    {rtx : Option (BitVec 32)} (h : freshRtx s kind draws = some (rtx, s', draws')) :
    (∀ x ∈ rtx, x ∉ s.ssrcs) ∧ s' = { s with ssrcs := s.ssrcs ∪ rtx.toFinset } := by
  rw [freshRtx] at h
  split_ifs at h with hk
  · obtain ⟨⟨v, s₁, draws₁⟩, hv, heq⟩ := Option.map_eq_some_iff.1 h
    simp only [Prod.mk.injEq] at heq
    obtain ⟨rfl, rfl, -⟩ := heq
    obtain ⟨hnew, rfl⟩ := freshSsrc_spec hv
    refine ⟨by simpa using hnew, ?_⟩
    rw [Option.toFinset_some, Finset.union_comm]
    rfl
  · simp only [Option.some.injEq, Prod.mk.injEq] at h
    obtain ⟨rfl, rfl, -⟩ := h
    exact ⟨by simp, by simp⟩

namespace Table

variable {t : Table} {w w' : Work} {i rev now : Nat} {kind : Kind} {cls : Class}
  {codec : String}

theorem newRow_spec (h : t.newRow w kind cls codec = some w') :
    ∃ r, r.kind = kind ∧ r.cls = cls ∧ Grow t r w w' := by
  obtain ⟨hrows, hssrcs, harev⟩ :=
    ptFor_rows t w.st kind (tupleOf kind codec) codec
  simp only [newRow, Option.bind_eq_bind, Option.bind_eq_some_iff] at h
  obtain ⟨⟨v, s, draws⟩, hv, ⟨rtx, s', draws'⟩, hrtx, h⟩ := h
  obtain ⟨hnew, rfl⟩ := freshSsrc_spec hv
  obtain ⟨hnew', rfl⟩ := freshRtx_spec hrtx
  obtain rfl := Option.some.inj h
  rw [hssrcs] at hnew
  simp only [hssrcs] at hnew'
  refine ⟨t.blankRow (t.start + w.st.rows.length % 2 ^ 16) kind cls codec
    (t.ptFor w.st kind (tupleOf kind codec) codec).2.1
    (t.ptFor w.st kind (tupleOf kind codec) codec).2.2 v rtx, rfl, rfl, ?_⟩
  refine ⟨rfl, rfl, rfl, ?_, ?_, by simp only [hrows], rfl, ?_, harev, rfl⟩
  · intro x hx
    rcases List.mem_cons.1 hx with rfl | hx
    · exact hnew
    · exact fun hmem => hnew' x (Option.mem_toList.1 hx) (Finset.mem_insert_of_mem hmem)
  · cases rtx with
    | none => simp [Row.ssrcs, blankRow]
    | some x =>
      have hne : v ≠ x := fun e => hnew' x rfl (e ▸ Finset.mem_insert_self v _)
      simpa [Row.ssrcs, blankRow] using hne
  · simp only [hssrcs]
    ext x
    cases rtx with
    | none => simp [Row.ssrcs, blankRow]
    | some y => simp [Row.ssrcs, blankRow]

theorem retune_spec (t : Table) (codec : String) {r : Row} (h : w.st.rows[i]? = some r) :
    ∃ r', Tune i r r' w (t.retune w i codec) := by
  obtain ⟨hrows, hssrcs, harev⟩ :=
    ptFor_rows t w.st r.kind (tupleOf r.kind codec) codec
  simp only [retune, h]
  refine ⟨tunedRow r codec (t.ptFor w.st r.kind (tupleOf r.kind codec) codec).2.1
    (t.ptFor w.st r.kind (tupleOf r.kind codec) codec).2.2, ?_⟩
  exact ⟨h, ⟨rfl, rfl, rfl, rfl, rfl⟩, rfl, rfl, by rw [hrows], rfl, hssrcs, harev, rfl⟩

end Table

/-! ## The parts of a sync -/

section

variable {t : Table} {w w' : Work} {rev now : Nat}

theorem load_moves (i : Nat) (c : Cand) : Moves t rev w (w.load i c rev now) := by
  cases hi : w.st.rows[i]? with
  | some r =>
    obtain ⟨r', -, h⟩ := Work.load_spec c rev now hi
    exact .single (.swap i r r' h)
  | none =>
    obtain ⟨hrows, hssrcs, harev⟩ := gate_rows w.st c.room now
    refine .single (.quiet ?_)
    rw [Work.load]
    split_ifs
    · simp only [Work.swap, hrows, hi]
      exact ⟨hrows, rfl, hssrcs, harev, rfl⟩
    · simp only [Work.swap, hi]
      exact ⟨rfl, rfl, rfl, rfl, rfl⟩

theorem unload_moves (i : Nat) : Moves t rev w (w.unload i rev) := by
  cases hi : w.st.rows[i]? with
  | none =>
    rw [Work.unload, hi]
    exact .refl
  | some r =>
    rcases Work.unload_spec rev hi with ⟨-, heq⟩ | ⟨r', -, h⟩
    · rw [heq]
    · exact .single (.swap i r r' h)

theorem moves_foldl {α : Type} {f : Work → α → Work} (hf : ∀ w a, Moves t rev w (f w a))
    (l : List α) (w : Work) : Moves t rev w (l.foldl f w) := by
  induction l generalizing w with
  | nil => exact .refl
  | cons a l ih => exact (hf w a).trans (ih (f w a))

theorem moves_foldlM {α : Type} {f : Work → α → Option Work}
    (hf : ∀ w a w', f w a = some w' → Moves t rev w w') (l : List α) {w w' : Work}
    (h : l.foldlM f w = some w') : Moves t rev w w' := by
  induction l generalizing w with
  | nil =>
    obtain rfl := Option.some.inj h
    exact .refl
  | cons a l ih =>
    rw [List.foldlM_cons, Option.bind_eq_bind, Option.bind_eq_some_iff] at h
    obtain ⟨w₁, h₁, h⟩ := h
    exact (hf w a w₁ h₁).trans (ih h)

theorem unloadWhere_moves (p : Row → Bool) : Moves t rev w (w.unloadWhere p rev) := by
  refine moves_foldl ?_ _ w
  intro w i
  split_ifs
  · exact unload_moves i
  · exact .refl

theorem slotLoop_moves {cs : List Cand} {b : Option (Nat × Nat)}
    (h : t.slotLoop rev now cs w = some (w', b)) : Moves t rev w w' := by
  induction cs generalizing w with
  | nil =>
    simp only [Table.slotLoop, Option.some.injEq, Prod.mk.injEq] at h
    rw [h.1]
  | cons c cs ih =>
    rw [Table.slotLoop] at h
    cases hfree : freeSlot w.st c with
    | some i =>
      rw [hfree] at h
      exact (load_moves i c).trans (ih h)
    | none =>
      simp only [hfree] at h
      split_ifs at h with hlim hbudget
      · simp only [Option.some.injEq, Prod.mk.injEq] at h
        rw [h.1]
      · simp only [Option.some.injEq, Prod.mk.injEq] at h
        rw [h.1]
      · obtain ⟨w₁, hnew, h⟩ := Option.bind_eq_some_iff.1 h
        obtain ⟨r, hk, hc, hgrow⟩ := Table.newRow_spec hnew
        have hroom : t.hasRoom w.st r.kind r.cls := by
          rw [hc]
          exact ⟨by omega, by omega⟩
        exact .head (.grow r hgrow hroom) ((load_moves _ c).trans (ih h))

theorem rehomeStep_moves (cands : List Cand) (kind : Kind) (w : Work) (i : Nat) :
    Moves t rev w (rehomeStep cands kind rev now w i) := by
  rw [rehomeStep]
  cases hi : w.st.rows[i]? with
  | none => exact .refl
  | some r =>
    dsimp only
    split_ifs
    · exact .refl
    · cases r.track with
      | none => exact .refl
      | some tr =>
        dsimp only
        split_ifs
        · exact .refl
        · split
          · obtain ⟨r', -, h⟩ := Work.rehome_spec _ rev now hi
            exact .single (.swap i r r' h)
          · exact .refl

theorem rehomeAll_moves (cands : List Cand) (kind : Kind) :
    Moves t rev w (w.rehomeAll cands kind rev now) :=
  moves_foldl (rehomeStep_moves cands kind) _ w

theorem retune_moves (i : Nat) (codec : String) : Moves t rev w (t.retune w i codec) := by
  cases hi : w.st.rows[i]? with
  | none =>
    rw [Table.retune, hi]
  | some r =>
    obtain ⟨r', h⟩ := Table.retune_spec t codec hi
    exact .single (.tune i r r' h)

theorem quiet_waiting (f : List (String × Nat) → List (String × Nat)) :
    Quiet w { w with st := { w.st with waiting := f w.st.waiting } } :=
  ⟨rfl, rfl, rfl, rfl, rfl⟩

theorem loadFull_moves (i : Nat) (c : Cand) : Moves t rev w (w.loadFull i c rev now) :=
  .head (.quiet (quiet_waiting _)) (load_moves i c)

theorem fullStep_moves {kind : Kind} {c : Cand}
    (h : t.fullStep kind (fullCap kind) rev now w c = some w') : Moves t rev w w' := by
  rw [Table.fullStep] at h
  by_cases hown : w.st.rows.any fun r => r.track = some c.track && r.cls = .full
  · rw [if_pos hown] at h
    obtain rfl := Option.some.inj h
    exact .single (.quiet (quiet_waiting _))
  rw [if_neg hown] at h
  cases hfree : freeFull w.st kind c with
  | some i =>
    rw [hfree] at h
    obtain rfl := Option.some.inj h
    exact loadFull_moves i c
  | none =>
    rw [hfree] at h
    dsimp only at h
    split_ifs at h with hroom
    · obtain ⟨w₁, hnew, rfl⟩ := Option.map_eq_some_iff.1 h
      obtain ⟨r, rfl, hc, hgrow⟩ := Table.newRow_spec hnew
      refine .head (.grow r hgrow ?_) (loadFull_moves _ c)
      rw [hc]
      exact hroom
    · cases hempty : emptyFull w.st kind with
      | none =>
        rw [hempty] at h
        obtain rfl := Option.some.inj h
        exact .refl
      | some i =>
        rw [hempty] at h
        obtain rfl := Option.some.inj h
        exact (retune_moves i c.codec).trans (loadFull_moves i c)

theorem syncFull_moves {cands : List Cand} {kind : Kind}
    (h : t.syncFull cands rev now w kind = some w') : Moves t rev w w' := by
  rw [Table.syncFull] at h
  have hnote : ∀ (w : Work) loaded cs, Moves t rev w (w.noteAll loaded now cs) := by
    intro w loaded cs
    obtain ⟨hrows, hssrcs, harev⟩ := SameRows.foldl (noteWaiting_rows loaded now) cs w.st
    exact .single (.quiet ⟨hrows, rfl, hssrcs, harev, rfl⟩)
  exact (rehomeAll_moves cands kind).trans ((hnote _ _ _).trans
    ((unloadWhere_moves _).trans (moves_foldlM (fun _ _ _ => fullStep_moves) _ h)))

/-- **Everything a sync can do:** it stops before the first move, or at the limit of the slot
rows, or it makes its moves and finishes. -/
theorem sync_moves {cands : List Cand} {draws : List (BitVec 32)} {out : SyncOut} {t' : Table}
    (h : t.sync cands now draws = some (out, t')) :
    (t' = t ∧ out.midLimit = true ∧ out.changes = [] ∧ out.changed = false) ∨
      (¬ t.overBudget (freshSlotRows t.st cands (wantSlot cands)) ∧
        ∃ w b, t.syncSlots cands (t.st.arev + 1) now draws = some (w, some b)) ∨
      ∃ w, Moves t (t.st.arev + 1) { st := t.st, draws } w ∧
        (out, t') = t.finish cands (t.st.arev + 1) t.st.rows.length w := by
  rw [Table.sync] at h
  dsimp only at h
  split_ifs at h with hpre hbudget
  · simp only [Option.some.injEq, Prod.mk.injEq] at h
    obtain ⟨rfl, rfl⟩ := h
    exact .inl ⟨rfl, rfl, rfl, rfl⟩
  · simp only [Option.some.injEq, Prod.mk.injEq] at h
    obtain ⟨rfl, rfl⟩ := h
    exact .inl ⟨rfl, rfl, rfl, rfl⟩
  · obtain ⟨⟨w, b⟩, hslot, h⟩ := Option.bind_eq_some_iff.1 h
    cases b with
    | some b => exact .inr (.inl ⟨hpre, w, b, hslot⟩)
    | none =>
      obtain ⟨w₁, ha, h⟩ := Option.bind_eq_some_iff.1 h
      obtain ⟨w₂, hv, h⟩ := Option.bind_eq_some_iff.1 h
      refine .inr (.inr ⟨w₂, ?_, (Option.some.inj h).symm⟩)
      exact (unloadWhere_moves _).trans
        ((slotLoop_moves hslot).trans ((syncFull_moves ha).trans (syncFull_moves hv)))

end

end OxlensSfu.Sub
