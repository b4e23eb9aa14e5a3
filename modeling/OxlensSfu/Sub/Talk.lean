import OxlensSfu.Sub.Uses

/-!
# The talk of the rooms

The slot part of a sync seen in the uses of the rows. Rows with talk that is not wanted are emptied,
then every candidate whose talk no row carries is loaded (`Loaded`). When it is through, every
candidate is carried and nothing else is (`syncSlots_talk`); where that is so, the slot part of the
next sync is idle (`syncSlots_idle`). The full rows are left alone.
-/

namespace OxlensSfu.Sub

/-- `carries`, of a use. -/
def Use.carries (c : Cand) (u : Use) : Bool :=
  u.cls = .slot && u.kind = c.kind && u.track.any (·.2 = c.room)

/-- `unwanted`, of a use. -/
def Use.unwanted (want : List (String × Kind)) (u : Use) : Bool :=
  u.cls = .slot && unheard want u.kind u.track

/-- The uses of the full rows. -/
def fulls (us : List Use) : List Use := us.filter (·.cls = .full)

theorem mem_fulls {us : List Use} {kind : Kind} {x : Option Track} :
    ⟨.full, kind, x⟩ ∈ fulls us ↔ ⟨.full, kind, x⟩ ∈ us := by
  simp [fulls]

theorem any_carries {s : State} (c : Cand) :
    s.rows.any (carries c) = s.uses.any (Use.carries c) :=
  any_rows_iff fun _ => rfl

/-! ## Loading -/

/-- What the slot loop makes of the uses. -/
structure Loaded (cs : List Cand) (us us' : List Use) : Prop where
  full : fulls us' = fulls us
  mem : ∀ u ∈ us', u ∈ us ∨ ∃ c ∈ cs, u = ⟨.slot, c.kind, some c.track⟩
  old : ∀ u ∈ us, u.track ≠ none → u ∈ us'
  done : ∀ c ∈ cs, ⟨.slot, c.kind, some c.track⟩ ∈ us'

namespace Loaded

theorem refl (us : List Use) : Loaded [] us us :=
  ⟨rfl, fun _ hu => .inl hu, fun _ hu _ => hu, by simp⟩

theorem cons {c : Cand} {cs : List Cand} {us us₁ us' : List Use}
    (hfill : Fill .slot c.kind c.track us us₁) (h : Loaded cs us₁ us') :
    Loaded (c :: cs) us us' := by
  have hold : ∀ u ∈ us, u.track ≠ none → u ∈ us₁ := by
    intro u hu hne
    refine hfill.mem_old hu ?_
    rintro rfl
    exact hne rfl
  refine ⟨?_, fun u hu => ?_, fun u hu hne => h.old u (hold u hu hne) hne, fun d hd => ?_⟩
  · rw [h.full]
    cases hfill with
    | put i hi => exact filter_set_of_neg hi (by simp) (by simp)
    | add => rw [fulls, List.filter_append]; simp [fulls]
  · rcases h.mem u hu with hu | ⟨d, hd, rfl⟩
    · exact (hfill.mem hu).imp_right fun h => ⟨c, List.mem_cons_self, h⟩
    · exact .inr ⟨d, List.mem_cons_of_mem c hd, rfl⟩
  · rcases List.mem_cons.1 hd with rfl | hd
    · exact h.old _ hfill.mem_new (by simp)
    · exact h.done d hd

end Loaded

section

variable {t : Table} {rev now : Nat}

/-- **A slot loop that gets through has loaded every candidate.** -/
theorem slotLoop_loaded {cs : List Cand} {w w' : Work}
    (h : t.slotLoop rev now cs w = some (w', none)) : Loaded cs w.st.uses w'.st.uses := by
  induction cs generalizing w with
  | nil =>
    obtain rfl := (Prod.mk.inj (Option.some.inj h)).1
    exact .refl _
  | cons c cs ih =>
    rw [Table.slotLoop] at h
    cases hfree : freeSlot w.st c with
    | some i =>
      rw [hfree] at h
      obtain ⟨r, hr, hp⟩ := mem_rowsWhere.1 (List.mem_of_mem_head? hfree)
      simp only [Bool.and_eq_true, decide_eq_true_eq, Option.isNone_iff_eq_none] at hp
      obtain ⟨⟨⟨hcls, hkind⟩, htr⟩, -⟩ := hp
      have hfill := load_fill hr htr c rev now
      rw [hcls, hkind] at hfill
      exact .cons hfill (ih h)
    | none =>
      rw [hfree] at h
      dsimp only at h
      by_cases hlim : t.slotBudget ≤ w.st.slotRows ∨ t.limit ≤ w.st.rows.length
      · rw [if_pos hlim] at h
        exact absurd (Prod.mk.inj (Option.some.inj h)).2 (by simp)
      rw [if_neg hlim] at h
      obtain ⟨w₁, hnew, h⟩ := Option.bind_eq_some_iff.1 h
      obtain ⟨r, hkind, hcls, hgrow⟩ := Table.newRow_spec hnew
      have hfill := grow_fill hgrow c rev now
      rw [hcls, hkind] at hfill
      exact .cons hfill (ih h)

/-- What the slot part of a sync leaves behind. -/
structure Talk (cands : List Cand) (us : List Use) : Prop where
  carried : ∀ c ∈ cands, c.cls = .slot → us.any (Use.carries c) = true
  wanted : ∀ u ∈ us, u.unwanted (wantSlot cands) = false

variable {cands : List Cand} {draws : List (BitVec 32)}

theorem syncSlots_talk {w : Work} (h : t.syncSlots cands rev now draws = some (w, none)) :
    fulls w.st.uses = fulls t.st.uses ∧ Talk cands w.st.uses := by
  rw [Table.syncSlots] at h
  set w₀ := Work.unloadWhere { st := t.st, draws } (unwanted (wantSlot cands)) rev
  have huses : w₀.st.uses = t.st.uses.map (Use.emptied (Use.unwanted (wantSlot cands))) :=
    uses_unloadWhere { st := t.st, draws } (q := Use.unwanted (wantSlot cands))
      (fun _ => rfl) rev
  have hload := slotLoop_loaded h
  refine ⟨?_, fun c hc hcls => ?_, fun u hu => ?_⟩
  · rw [hload.full, huses, fulls, List.filter_map]
    have hcomp : ((fun u : Use => decide (u.cls = .full)) ∘
        Use.emptied (Use.unwanted (wantSlot cands))) = fun u => decide (u.cls = .full) := by
      funext u
      rw [Function.comp_apply, (Use.emptied_keeps _ u).1]
    rw [hcomp]
    refine (List.map_congr_left fun u hu => Use.emptied_of_neg ?_).trans (List.map_id _)
    have hfull := (List.mem_filter.1 hu).2
    simp only [decide_eq_true_eq] at hfull
    simp [Use.unwanted, hfull]
  · by_cases hcar : w₀.st.rows.any (carries c) = true
    · rw [any_carries] at hcar
      obtain ⟨u, hu, hcu⟩ := List.any_eq_true.1 hcar
      refine List.any_eq_true.2 ⟨u, hload.old u hu ?_, hcu⟩
      intro hnone
      simp [Use.carries, hnone] at hcu
    · have hneed : c ∈ slotsNeeded w₀.st cands := by
        simpa [slotsNeeded, hc, hcls] using hcar
      exact List.any_eq_true.2 ⟨_, hload.done c hneed, by simp [Use.carries, Cand.track]⟩
  · rcases hload.mem u hu with hu | ⟨c, hc, rfl⟩
    · rw [huses] at hu
      obtain ⟨u, -, hu⟩ := List.mem_map.1 hu
      rcases htr : (u.emptied (Use.unwanted (wantSlot cands))).track with _ | tr
      · simp [← hu, Use.unwanted, unheard, htr]
      · obtain ⟨rfl, hwant⟩ := Use.emptied_eq hu (by simp [← hu, htr])
        exact hwant
    · -- What was loaded is wanted.
      obtain ⟨hc, hneed⟩ := List.mem_filter.1 hc
      simp only [Bool.and_eq_true, decide_eq_true_eq] at hneed
      have hwant : (c.room, c.kind) ∈ wantSlot cands :=
        List.mem_map.2 ⟨c, List.mem_filter.2 ⟨hc, by simpa using hneed.1⟩, rfl⟩
      simp [Use.unwanted, unheard, Cand.track, hwant]

/-! ## Nothing to do -/

theorem Talk.fresh {s : State} (h : Talk cands s.uses) :
    freshSlotRows s cands (wantSlot cands) = 0 := by
  rw [freshSlotRows, ← fresh_foldl_filter, List.filter_eq_nil_iff.2]
  · rfl
  intro c hc
  obtain ⟨hc, hcls⟩ := List.mem_filter.1 hc
  rw [any_carries, h.carried c hc (by simpa using hcls)]
  simp

theorem syncSlots_idle (h : Talk cands t.st.uses) :
    t.syncSlots cands rev now draws = some ({ st := t.st, draws }, none) := by
  have hidle : Work.unloadWhere { st := t.st, draws } (unwanted (wantSlot cands)) rev =
      { st := t.st, draws } :=
    unloadWhere_idle (q := Use.unwanted (wantSlot cands)) (fun _ => rfl) h.wanted rev
  have hnone : slotsNeeded t.st cands = [] := by
    rw [slotsNeeded, List.filter_eq_nil_iff]
    intro c hc
    by_cases hcls : c.cls = .slot
    · simp [any_carries, h.carried c hc hcls]
    · simp [hcls]
  rw [Table.syncSlots, hidle]
  dsimp only
  rw [hnone]
  rfl

end

end OxlensSfu.Sub
