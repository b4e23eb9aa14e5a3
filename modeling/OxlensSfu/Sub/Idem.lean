import OxlensSfu.Sub.Talk
import OxlensSfu.Sub.Targets

/-!
# A second sync finds nothing to do

A sync ranks the candidates by what is loaded and by how long the others have waited, and both it
changes itself. What a second sync with the same candidates chooses is therefore not the same list,
but it makes no difference: the tracks that have rows are ranked first among equals, so they are
chosen again (`mem_choice`), and a track that has none is chosen only where there is no row to be
had. `Settled` says what the first sync leaves behind, and that is enough for the second to be idle.

Rows of the other kind matter in one place. A track that a full row holds is not placed again, of
whatever kind the row is, and the kinds are synced one after the other. So a track that was video
and is audio now gets no row from the first sync, which still sees the video row, and one from the
second.
-/

namespace OxlensSfu.Sub

/-! ## Loaded tracks -/

theorem mem_uses_iff {s : State} {u : Use} : u ∈ s.uses ↔ ∃ r ∈ s.rows, r.use = u := List.mem_map

/-- The tracks that count as loaded are those of the rows of the kind. -/
theorem loaded_iff {s : State} {kind : Kind} {tr : Track} :
    ((s.loadedAt kind).lookup tr).isSome = true ↔ ⟨.full, kind, some tr⟩ ∈ s.uses := by
  rw [List.lookup_isSome_iff]
  simp only [State.loadedAt, List.mem_reverse, List.mem_filterMap, List.mem_filter,
    Option.map_eq_some_iff, Bool.and_eq_true, decide_eq_true_eq, beq_iff_eq]
  refine ⟨?_, fun h => ?_⟩
  · rintro ⟨_, ⟨r, ⟨hr, hcls, hkind⟩, tr', htr, rfl⟩, rfl⟩
    exact mem_uses_iff.2 ⟨r, hr, by rw [Row.use, hcls, hkind, htr]⟩
  · obtain ⟨r, hr, huse⟩ := mem_uses_iff.1 h
    obtain ⟨hcls, hkind, htr⟩ := Use.mk.inj huse
    exact ⟨(tr, r.loadedAt), ⟨r, ⟨hr, hcls, hkind⟩, tr, htr, rfl⟩, rfl⟩

theorem waitKey_loaded {s s' : State} {kind : Kind} {now : Nat} {c : Cand} :
    (waitKey (s.loadedAt kind) s' now c).1 = 0 ↔ ⟨.full, kind, some c.track⟩ ∈ s.uses := by
  rw [← loaded_iff, waitKey]
  cases (s.loadedAt kind).lookup c.track with
  | none => simp
  | some t => simp

/-! ## What a sync leaves behind -/

/-- The rows of the kind hold tracks of the target, and a track of the target that is missing has no
row to be had. -/
structure Settled (t : Table) (cands : List Cand) (kind : Kind) (us : List Use)
    (target : List Cand) : Prop where
  chosen : Chosen (fullCap kind) (desired cands kind) target
  mem : ∀ tr, ⟨.full, kind, some tr⟩ ∈ us → tr ∈ target.map (·.track)
  done : ∀ c ∈ target, ⟨.full, kind, some c.track⟩ ∈ us ∨ Stuck t kind us

/-- The full candidates are known by their tracks. -/
def Distinct (cands : List Cand) : Prop :=
  ((cands.filter (·.cls = .full)).map (·.track)).Nodup

/-- No candidate of the kind has a track that a full row of another kind holds. -/
def Apart (cands : List Cand) (kind : Kind) (us : List Use) : Prop :=
  ∀ c ∈ desired cands kind, ∀ k, ⟨.full, k, some c.track⟩ ∈ us → k = kind

section

variable {t : Table} {cands : List Cand} {kind : Kind} {us us' : List Use} {target : List Cand}

theorem Distinct.eq (h : Distinct cands) {c c' : Cand} (hc : c ∈ cands) (hc' : c' ∈ cands)
    (hcls : c.cls = .full) (hcls' : c'.cls = .full) (htr : c.track = c'.track) : c = c' :=
  List.inj_on_of_nodup_map h (List.mem_filter.2 ⟨hc, by simpa using hcls⟩)
    (List.mem_filter.2 ⟨hc', by simpa using hcls'⟩) htr

theorem Distinct.desired (h : Distinct cands) (kind : Kind) :
    ((desired cands kind).map (·.track)).Nodup := by
  refine h.sublist (List.Sublist.map _ ?_)
  rw [Sub.desired]
  refine List.monotone_filter_right cands fun c hc => ?_
  simp only [Bool.and_eq_true] at hc
  exact hc.1.1

/-- Steps for rows of the other kind make no difference. -/
theorem Settled.frame {k : Kind} (h : Settled t cands kind us target) (hk : k ≠ kind)
    (hothers : others k us' = others k us) (hlen : us.length ≤ us'.length) :
    Settled t cands kind us' target := by
  have hisOf : ∀ x, Use.isOf .full k ⟨.full, kind, x⟩ = false := by
    intro x
    simp [Use.isOf, Ne.symm hk]
  have hmem : ∀ x, ⟨.full, kind, x⟩ ∈ us' ↔ ⟨.full, kind, x⟩ ∈ us :=
    fun x => mem_of_others hothers (hisOf x)
  have hcount : us'.countP (Use.isOf .full kind) = us.countP (Use.isOf .full kind) := by
    rw [List.countP_eq_length_filter, List.countP_eq_length_filter,
      filter_of_others hothers fun u hu => ?_]
    rw [Use.isOf_iff] at hu
    simp [Use.isOf, hu.2, Ne.symm hk]
  refine ⟨h.chosen, fun tr htr => h.mem tr ((hmem _).1 htr), fun c hc => ?_⟩
  refine (h.done c hc).imp (hmem _).2 fun hs => ⟨fun hu => hs.full ((hmem _).1 hu), ?_⟩
  rw [hcount]
  exact fun hroom => hs.room ⟨hroom.1, hlen.trans_lt hroom.2⟩

end

theorem Talk.frame {k : Kind} {cands : List Cand} {us us' : List Use} (h : Talk cands us)
    (hothers : others k us' = others k us) : Talk cands us' := by
  have hslot : ∀ u : Use, u.cls = .slot → (u ∈ us' ↔ u ∈ us) := by
    intro u hu
    exact mem_of_others hothers (by simp [Use.isOf, hu])
  refine ⟨fun c hc hcls => ?_, fun u hu => ?_⟩
  · obtain ⟨u, hu, hcar⟩ := List.any_eq_true.1 (h.carried c hc hcls)
    refine List.any_eq_true.2 ⟨u, (hslot u ?_).2 hu, hcar⟩
    simp only [Use.carries, Bool.and_eq_true, decide_eq_true_eq] at hcar
    exact hcar.1.1
  · cases hcls : u.cls with
    | slot => exact h.wanted u ((hslot u hcls).1 hu)
    | full => simp [Use.unwanted, hcls]

section First

variable {t : Table} {cands : List Cand} {kind : Kind} {rev now : Nat} {w w' : Work}

theorem syncFull_others (h : t.syncFull cands rev now w kind = some w') :
    others kind w'.st.uses = others kind w.st.uses ∧
      w.st.uses.length ≤ w'.st.uses.length := by
  obtain ⟨target, -, hplaces⟩ := syncFull_places h
  refine ⟨hplaces.others.trans ?_, ?_⟩
  · rw [others_map (fun _ hu => Use.emptied_of_neg (not_dropped hu)) (Use.emptied_keeps _),
      others_map (fun _ => rehomed_other) (rehomed_cls cands kind)]
  · have hlen := hplaces.length_le
    rwa [List.length_map, List.length_map] at hlen

/-- **A sync settles the full rows of its kind.** -/
theorem syncFull_settles (h : t.syncFull cands rev now w kind = some w')
    (hapart : Apart cands kind w.st.uses) :
    ∃ target, Settled t cands kind w'.st.uses target := by
  obtain ⟨target, hchosen, hplaces⟩ := syncFull_places h
  refine ⟨target, hchosen, fun tr htr => ?_, fun c hc => ?_⟩
  · rcases hplaces.mem htr with hu | ⟨tr', htr', heq⟩
    · -- A row that is not cleared holds a track of the target.
      obtain ⟨u, -, hu⟩ := List.mem_map.1 hu
      obtain ⟨rfl, hdrop⟩ := Use.emptied_eq hu (by simp)
      simpa [dropped, strays] using hdrop
    · obtain rfl : tr = tr' := Option.some.inj (Use.mk.inj heq).2.2
      exact htr'
  · refine (hplaces.done c.track (List.mem_map_of_mem hc)).imp_left ?_
    rintro ⟨⟨cls, k, tr⟩, hu, rfl, rfl⟩
    by_cases hk : k = kind
    · rwa [← hk]
    · -- A row of another kind was there before.
      have hold := (mem_of_others (syncFull_others h).1 (by simp [Use.isOf, hk])).1 hu
      exact absurd (hapart c (hchosen.subperm.subset hc) k hold) hk

end First

/-! ## The second sync -/

section Second

variable {t : Table} {cands : List Cand} {kind : Kind} {rev now : Nat} {w : Work}
  {target : List Cand}

theorem Settled.heard (h : Settled t cands kind w.st.uses target) :
    w.rehomeAll cands kind rev now = w := by
  refine rehomeAll_idle (fun u hu hof tr htr => ?_) rev now
  obtain ⟨hcls, hkind⟩ := Use.isOf_iff.1 hof
  obtain ⟨cls, k, x⟩ := u
  obtain rfl : cls = .full := hcls
  obtain rfl : k = kind := hkind
  obtain rfl : x = some tr := htr
  obtain ⟨c, hc, htrack⟩ := List.mem_map.1 (h.mem tr hu)
  obtain ⟨hcands, hfull, -⟩ := mem_desired.1 (h.chosen.subperm.subset hc)
  exact ⟨c, hcands, hfull, htrack⟩

/-- A track of the target that has a row is chosen again. -/
theorem Settled.mem_choice (h : Settled t cands kind w.st.uses target) (hd : Distinct cands)
    {c : Cand} (hc : c ∈ target) (hrow : ⟨.full, kind, some c.track⟩ ∈ w.st.uses) :
    c ∈ choice w cands kind rev now := by
  have hlen : target.length ≤ fullCap kind := h.chosen.length.trans_le (min_le_left _ _)
  refine mem_best_of_few (hd.desired kind).of_map (h.chosen.subperm.subset hc) hc hlen ?_
  intro b hb hbefore
  rw [h.heard] at hbefore
  rcases hbefore with hrank | ⟨-, hkey⟩
  · exact h.chosen.rank c hc b hb hrank
  · -- What is ranked no later among equals is loaded too.
    have hkey' : (waitKey (w.st.loadedAt kind) (noted w cands kind rev now).st now b).1 = 0 := by
      have hzero : (waitKey (w.st.loadedAt kind) (noted w cands kind rev now).st now c).1 = 0 :=
        waitKey_loaded.2 hrow
      omega
    obtain ⟨b', hb', htr⟩ := List.mem_map.1 (h.mem b.track (waitKey_loaded.1 hkey'))
    obtain ⟨hcb, hfb, -⟩ := mem_desired.1 hb
    obtain ⟨hcb', hfb', -⟩ := mem_desired.1 (h.chosen.subperm.subset hb')
    rwa [← hd.eq hcb' hcb hfb' hfb htr]

/-- What is chosen has a row already, or there is none to be had. -/
theorem Settled.placed (h : Settled t cands kind w.st.uses target) (hd : Distinct cands)
    {c : Cand} (hc : c ∈ choice w cands kind rev now) :
    HasRow w.st.uses c.track ∨ Stuck t kind w.st.uses := by
  by_cases hs : Stuck t kind w.st.uses
  · exact .inr hs
  have hrow : ∀ c ∈ target, ⟨.full, kind, some c.track⟩ ∈ w.st.uses :=
    fun c hc => (h.done c hc).resolve_right hs
  have hsub : target ⊆ choice w cands kind rev now :=
    fun c hc => h.mem_choice hd hc (hrow c hc)
  -- The two lists are equally long, so there is nothing else in the second.
  have hnd : target.Nodup := h.chosen.nodup (hd.desired kind).of_map
  have hlen : (choice w cands kind rev now).length ≤ target.length := by
    rw [h.chosen.length]
    exact (length_best _ _ _).le
  have hperm := (List.subperm_of_subset hnd hsub).perm_of_length_le hlen
  exact .inl ⟨_, hrow c (hperm.mem_iff.2 hc), rfl, rfl⟩

/-- **Where a sync has settled, the next one is idle.** -/
theorem syncFull_idle (h : Settled t cands kind w.st.uses target) (hd : Distinct cands)
    (rev now : Nat) :
    ∃ w', t.syncFull cands rev now w kind = some w' ∧ Quiet w w' := by
  have hnoted : Quiet w (noted w cands kind rev now) := by
    have hquiet : Quiet (w.rehomeAll cands kind rev now) (noted w cands kind rev now) :=
      noted_quiet
    rwa [h.heard] at hquiet
  have hkept : ∀ u ∈ (noted w cands kind rev now).st.uses,
      dropped kind ((choice w cands kind rev now).map (·.track)) u = false := by
    intro u hu
    rw [hnoted.uses] at hu
    rw [Bool.eq_false_iff]
    intro hdrop
    obtain ⟨cls, k, x⟩ := u
    simp only [dropped, strays, Bool.and_eq_true, decide_eq_true_eq, Option.any_eq_true] at hdrop
    obtain ⟨⟨rfl, rfl⟩, tr, rfl, hnot⟩ := hdrop
    obtain ⟨c, hc, rfl⟩ := List.mem_map.1 (h.mem tr hu)
    exact hnot (List.mem_map_of_mem (h.mem_choice hd hc hu))
  rw [syncFull_eq, unloadWhere_idle (fun _ => rfl) hkept]
  obtain ⟨w', hw', hquiet⟩ := foldlM_idle rev now (choice w cands kind rev now)
    (fun c hc => h.placed hd hc) hnoted.uses
  exact ⟨w', hw', hnoted.trans hquiet⟩

end Second

/-! ## Two syncs -/

/-- A track that a video row holds is not that of an audio candidate. -/
def KindsKept (t : Table) (cands : List Cand) : Prop :=
  ∀ c ∈ cands, c.cls = .full → c.kind = .audio → c.paused = false →
    ∀ r ∈ t.st.rows, r.cls = .full → r.kind = .video → r.track ≠ some c.track

instance (t : Table) (cands : List Cand) : Decidable (KindsKept t cands) :=
  inferInstanceAs (Decidable (∀ c ∈ cands, c.cls = .full → c.kind = .audio → c.paused = false →
    ∀ r ∈ t.st.rows, r.cls = .full → r.kind = .video → r.track ≠ some c.track))

instance (cands : List Cand) : Decidable (Distinct cands) :=
  inferInstanceAs (Decidable ((cands.filter (·.cls = .full)).map (·.track)).Nodup)

section

variable {t t' : Table} {cands : List Cand}

theorem KindsKept.apart (h : KindsKept t cands) {us : List Use} (hus : fulls us = fulls t.st.uses) :
    Apart cands .audio us := by
  intro c hc k hu
  rw [← mem_fulls, hus, mem_fulls] at hu
  obtain ⟨hcands, hfull, haudio, hpaused⟩ := mem_desired.1 hc
  obtain ⟨r, hr, huse⟩ := mem_uses_iff.1 hu
  obtain ⟨hcls, hkind, htr⟩ := Use.mk.inj huse
  cases k with
  | audio => rfl
  | video => exact absurd htr (h c hcands hfull haudio hpaused r hr hcls hkind)

theorem finish_uses (t : Table) (cands : List Cand) (rev n : Nat) (w : Work) :
    (t.finish cands rev n w).2.st.uses = w.st.uses := by
  simp only [Table.finish]
  split_ifs
  · rfl
  · rfl

theorem Settled.of_limit {kind : Kind} {us : List Use} {target : List Cand}
    (h : Settled t cands kind us target) (ht : t'.limit = t.limit) :
    Settled t' cands kind us target :=
  ⟨h.chosen, h.mem, fun c hc => (h.done c hc).imp_right fun hs => ⟨hs.full, ht ▸ hs.room⟩⟩

/-- Past the count a sync goes through all its parts. -/
theorem sync_parts {now : Nat} {draws : List (BitVec 32)} {out : SyncOut}
    (hpre : ¬ t.overBudget (freshSlotRows t.st cands (wantSlot cands)))
    (h : t.sync cands now draws = some (out, t')) :
    ∃ w w₁ w₂, t.syncSlots cands (t.st.arev + 1) now draws = some (w, none) ∧
      t.syncFull cands (t.st.arev + 1) now w .audio = some w₁ ∧
      t.syncFull cands (t.st.arev + 1) now w₁ .video = some w₂ ∧
      t'.st.uses = w₂.st.uses ∧ t'.limit = t.limit ∧ out.midLimit = false := by
  rw [Table.sync] at h
  dsimp only at h
  rw [if_neg hpre] at h
  obtain ⟨⟨w, b⟩, hslot, h⟩ := Option.bind_eq_some_iff.1 h
  cases b with
  | some b => exact absurd hslot (syncSlots_within hpre)
  | none =>
    obtain ⟨w₁, ha, h⟩ := Option.bind_eq_some_iff.1 h
    obtain ⟨w₂, hv, h⟩ := Option.bind_eq_some_iff.1 h
    have hfin := Option.some.inj h
    refine ⟨w, w₁, w₂, hslot, ha, hv, ?_, ?_, ?_⟩
    · rw [← finish_uses t cands (t.st.arev + 1) t.st.rows.length w₂, hfin]
    · exact congrArg (fun p => p.2.limit) hfin.symm
    · exact congrArg (fun p => p.1.midLimit) hfin.symm

theorem sync_over (now : Nat) (draws : List (BitVec 32))
    (hpre : t.overBudget (freshSlotRows t.st cands (wantSlot cands))) :
    ∃ budget, t.sync cands now draws = some ({ midLimit := true, budget }, t) := by
  rw [Table.sync]
  dsimp only
  rw [if_pos hpre]
  exact ⟨_, rfl⟩

/-- **A sync settles the table.** -/
theorem sync_settles {now : Nat} {draws : List (BitVec 32)} {out : SyncOut}
    (hd : Distinct cands) (hkinds : KindsKept t cands)
    (hpre : ¬ t.overBudget (freshSlotRows t.st cands (wantSlot cands)))
    (h : t.sync cands now draws = some (out, t')) :
    Talk cands t'.st.uses ∧ ∀ kind, ∃ target, Settled t' cands kind t'.st.uses target := by
  obtain ⟨w, w₁, w₂, hslot, ha, hv, huses, hlimit, -⟩ := sync_parts hpre h
  obtain ⟨hfull, htalk⟩ := syncSlots_talk hslot
  obtain ⟨hothers₁, hlen₁⟩ := syncFull_others ha
  obtain ⟨hothers₂, hlen₂⟩ := syncFull_others hv
  obtain ⟨ta, hta⟩ := syncFull_settles ha (hkinds.apart hfull)
  -- The audio rows hold audio tracks by now.
  have hvideo : Apart cands .video w₁.st.uses := by
    intro c hc k hu
    cases k with
    | video => rfl
    | audio =>
      obtain ⟨hcands, hcls, hkind, -⟩ := mem_desired.1 hc
      obtain ⟨c', hc', htr⟩ := List.mem_map.1 (hta.mem c.track hu)
      obtain ⟨hcands', hcls', hkind', -⟩ := mem_desired.1 (hta.chosen.subperm.subset hc')
      rw [hd.eq hcands' hcands hcls' hcls htr, hkind] at hkind'
      exact absurd hkind' (by decide)
  obtain ⟨tv, htv⟩ := syncFull_settles hv hvideo
  rw [huses]
  refine ⟨(htalk.frame hothers₁).frame hothers₂, fun kind => ?_⟩
  cases kind with
  | audio => exact ⟨ta, (hta.frame (by decide) hothers₂ hlen₂).of_limit hlimit⟩
  | video => exact ⟨tv, htv.of_limit hlimit⟩

/-- **A settled table is left alone.** -/
theorem sync_idle (hd : Distinct cands) (htalk : Talk cands t.st.uses)
    (hsettled : ∀ kind, ∃ target, Settled t cands kind t.st.uses target) (now : Nat)
    (draws : List (BitVec 32)) :
    ∃ t', t.sync cands now draws = some ({}, t') ∧ t'.st.rows = t.st.rows ∧
      t'.st.arev = t.st.arev := by
  have hpre : ¬ t.overBudget (freshSlotRows t.st cands (wantSlot cands)) := by
    rw [htalk.fresh, Table.overBudget]
    omega
  obtain ⟨ta, hta⟩ := hsettled .audio
  obtain ⟨tv, htv⟩ := hsettled .video
  obtain ⟨w₁, ha, hquiet₁⟩ := syncFull_idle (w := { st := t.st, draws }) hta hd
    (t.st.arev + 1) now
  have huses : w₁.st.uses = t.st.uses := hquiet₁.uses
  obtain ⟨w₂, hv, hquiet₂⟩ := syncFull_idle (w := w₁) (huses ▸ htv) hd (t.st.arev + 1) now
  obtain ⟨hrows, hch, -, harev, htuned⟩ := hquiet₁.trans hquiet₂
  have hfin : t.finish cands (t.st.arev + 1) t.st.rows.length w₂ =
      ({}, { t with st := { w₂.st with
        waiting := w₂.st.waiting.filter (·.1 ∈ cands.map (·.trackId)) } }) := by
    simp [Table.finish, hrows, hch, htuned]
  refine ⟨{ t with st := { w₂.st with
    waiting := w₂.st.waiting.filter (·.1 ∈ cands.map (·.trackId)) } }, ?_, hrows, harev⟩
  rw [Table.sync]
  dsimp only
  rw [if_neg hpre, syncSlots_idle htalk]
  dsimp only [Option.bind_eq_bind, Option.bind_some]
  rw [ha, Option.bind_some, hv, Option.bind_some, hfin]

/-- **A second sync with the same candidates changes nothing**, whatever the time, and reports the
limit again. -/
theorem sync_twice {now : Nat} {draws : List (BitVec 32)} {out : SyncOut}
    (hd : Distinct cands) (hkinds : KindsKept t cands)
    (h : t.sync cands now draws = some (out, t')) (now' : Nat) (draws' : List (BitVec 32)) :
    ∃ out' t'', t'.sync cands now' draws' = some (out', t'') ∧
      out'.changes = [] ∧ out'.changed = false ∧ t''.st.rows = t'.st.rows ∧
      t''.st.arev = t'.st.arev ∧ (out.midLimit = true → out'.midLimit = true) := by
  by_cases hpre : t.overBudget (freshSlotRows t.st cands (wantSlot cands))
  · obtain ⟨budget, hover⟩ := sync_over now draws hpre
    obtain ⟨-, rfl⟩ := Prod.mk.inj (Option.some.inj (h.symm.trans hover))
    obtain ⟨budget', hover'⟩ := sync_over now' draws' hpre
    exact ⟨_, _, hover', rfl, rfl, rfl, rfl, fun _ => rfl⟩
  · obtain ⟨-, -, -, -, -, -, -, -, hlim⟩ := sync_parts hpre h
    obtain ⟨htalk, hsettled⟩ := sync_settles hd hkinds hpre h
    obtain ⟨t'', hsync, hrows, harev⟩ := sync_idle hd htalk hsettled now' draws'
    refine ⟨{}, t'', hsync, rfl, rfl, hrows, harev, fun hout => ?_⟩
    rw [hlim] at hout
    exact absurd hout (by decide)

end

/-- A track as audio or as video. -/
def solo (kind : Kind) : Cand := ⟨"a", "r", kind, .full, "vp8", 0, false⟩

/-- Two tracks for a table with rows for both. -/
theorem sync_twice_solo :
    ∃ out t' out' t'', (Table.new .two 4).sync [solo .video, talk "r"] 1 [7, 8, 9] = some (out, t') ∧
      t'.sync [solo .video, talk "r"] 2 [] = some (out', t'') ∧ out.changed = true ∧
      out'.changed = false := by
  have hsome : ((Table.new .two 4).sync [solo .video, talk "r"] 1 [7, 8, 9]).map (·.1.changed) =
      some true := by decide
  obtain ⟨⟨out, t'⟩, hsync, hchanged⟩ := Option.map_eq_some_iff.1 hsome
  obtain ⟨out', t'', hsync', -, hchanged', -⟩ :=
    sync_twice (by decide) (by decide) hsync 2 []
  exact ⟨out, t', out', t'', hsync, hsync', hchanged, hchanged'⟩

/-- A track that was video and is audio now gets its row from the second sync. -/
theorem sync_not_twice :
    ¬ ∀ (pcMode : PcMode) (slotBudget : Nat) (ops : List Op) (cands : List Cand)
      (now now' : Nat) (draws draws' : List (BitVec 32)) (out out' : SyncOut) (t' t'' : Table),
      machine.Legal (Table.new pcMode slotBudget) ops →
      ((cands.filter (·.cls = .slot)).map fun c => (c.room, c.kind)).Nodup → Distinct cands →
      now ≤ now' →
      (machine.exec (Table.new pcMode slotBudget) ops).sync cands now draws = some (out, t') →
      t'.sync cands now' draws' = some (out', t'') → out'.changed = false := by
  intro h
  have hlegal : machine.Legal (Table.new .two 4) [.sync [solo .video] 1 [7, 8]] := by
    refine ⟨?_, trivial⟩
    show ((Table.new .two 4).sync [solo .video] 1 [7, 8]).isSome = true
    decide
  have hrun : (((machine.exec (Table.new .two 4) [.sync [solo .video] 1 [7, 8]]).sync
      [solo .audio] 2 []).bind fun p => p.2.sync [solo .audio] 2 [9]).map (·.1.changed) =
      some true := by decide
  obtain ⟨⟨out', t''⟩, hboth, hchanged⟩ := Option.map_eq_some_iff.1 hrun
  obtain ⟨⟨out, t'⟩, hfirst, hsecond⟩ := Option.bind_eq_some_iff.1 hboth
  have hsame := h .two 4 _ [solo .audio] 2 2 [] [9] out out' t' t'' hlegal (by decide) (by decide)
    le_rfl hfirst hsecond
  rw [hsame] at hchanged
  exact absurd hchanged (by decide)

end OxlensSfu.Sub
