import OxlensSfu.Sub.Uses

/-!
# The tracks to be received

Of one kind a sync receives the best of the candidates that are not paused, as many as there may be
rows (`Chosen`). In the uses it leaves the rows of other classes and kinds alone (`others`), empties
the rows of the kind whose track is not among the chosen ones, and then takes a step for each chosen
track (`Places`): at its end every chosen track has a row or there is none to be had.
-/

namespace OxlensSfu.Sub

/-! ## The other rows -/

/-- The uses of the rows that are not full rows of the kind. -/
def others (kind : Kind) (us : List Use) : List Use := us.filter fun u => !u.isOf .full kind

section Others

variable {kind : Kind} {us us' : List Use}

theorem filter_of_others (h : others kind us' = others kind us) {q : Use → Bool}
    (hq : ∀ u, q u = true → u.isOf .full kind = false) : us'.filter q = us.filter q := by
  have hfilter : ∀ us : List Use, us.filter q = (others kind us).filter q := by
    intro us
    rw [others, List.filter_filter]
    refine List.filter_congr fun u _ => ?_
    cases hu : q u with
    | false => rfl
    | true => simp [hq u hu]
  rw [hfilter, h, ← hfilter]

theorem mem_of_others (h : others kind us' = others kind us) {u : Use}
    (hu : u.isOf .full kind = false) : u ∈ us' ↔ u ∈ us := by
  have hmem : ∀ us : List Use, u ∈ us ↔ u ∈ others kind us := by
    intro us
    simp [others, hu]
  rw [hmem, h, ← hmem]

/-- What is done to each use on its own. -/
theorem others_map {g : Use → Use} (hg : ∀ u, u.isOf .full kind = false → g u = u)
    (hkeeps : ∀ u, (g u).cls = u.cls ∧ (g u).kind = u.kind) (us : List Use) :
    others kind (us.map g) = others kind us := by
  have hisOf : ∀ u, (g u).isOf .full kind = u.isOf .full kind := by
    intro u
    rw [Use.isOf, Use.isOf, (hkeeps u).1, (hkeeps u).2]
  rw [others, others, List.filter_map]
  have hcomp : ((fun u => !u.isOf .full kind) ∘ g) = fun u => !u.isOf .full kind := by
    funext u
    rw [Function.comp_apply, hisOf]
  rw [hcomp]
  refine (List.map_congr_left fun u hu => hg u ?_).trans (List.map_id _)
  simpa using (List.mem_filter.1 hu).2

theorem Fill.others {tr : Track} (h : Fill .full kind tr us us') :
    others kind us' = others kind us := by
  have hisOf : ∀ x, (!Use.isOf .full kind ⟨.full, kind, x⟩) = false := by
    intro x
    simp [Use.isOf]
  cases h with
  | put i hi => exact filter_set_of_neg hi (hisOf _) (hisOf _)
  | add => rw [Sub.others, Sub.others, List.filter_append, List.filter_singleton, hisOf]; simp

end Others

/-! ## The steps for several tracks -/

/-- The steps for the tracks, one after the other. -/
inductive Places (t : Table) (kind : Kind) : List Track → List Use → List Use → Prop
  | nil (us : List Use) : Places t kind [] us us
  | cons {tr : Track} {trs : List Track} {us us₁ us' : List Use} : Place t kind tr us us₁ →
      Places t kind trs us₁ us' → Places t kind (tr :: trs) us us'

section Place

variable {t : Table} {kind : Kind} {tr : Track} {us us' : List Use}

namespace Place

theorem others (h : Place t kind tr us us') : others kind us' = others kind us := by
  cases h with
  | own _ => rfl
  | fill _ h => exact h.others
  | stuck _ _ => rfl

theorem mem (h : Place t kind tr us us') {u : Use} (hu : u ∈ us') :
    u ∈ us ∨ u = ⟨.full, kind, some tr⟩ := by
  cases h with
  | own _ => exact .inl hu
  | fill _ h => exact h.mem hu
  | stuck _ _ => exact .inl hu

theorem hasRow (h : Place t kind tr us us') {x : Track} (hx : HasRow us x) : HasRow us' x := by
  cases h with
  | own _ => exact hx
  | fill _ h =>
    obtain ⟨u, hu, hcls, htr⟩ := hx
    refine ⟨u, h.mem_old hu ?_, hcls, htr⟩
    rintro rfl
    exact absurd htr (by simp)
  | stuck _ _ => exact hx

theorem length_le (h : Place t kind tr us us') : us.length ≤ us'.length := by
  cases h with
  | own _ => exact le_rfl
  | fill _ h => exact h.length_le
  | stuck _ _ => exact le_rfl

/-- Where there is no row to be had, there is none later. -/
theorem stuck_mono (h : Place t kind tr us us') (hs : Stuck t kind us) : Stuck t kind us' := by
  cases h with
  | own _ => exact hs
  | fill _ h =>
    refine ⟨fun hu => ?_, fun hroom => hs.room ⟨?_, h.length_le.trans_lt hroom.2⟩⟩
    · exact (h.mem hu).elim hs.full (by simp)
    · exact (h.countP_le (by simp [Use.isOf])).trans_lt hroom.1
  | stuck _ _ => exact hs

/-- After its step the track has a row, or there is none to be had. -/
theorem done (h : Place t kind tr us us') : HasRow us' tr ∨ Stuck t kind us' := by
  cases h with
  | own h => exact .inl h
  | fill _ h => exact .inl ⟨_, h.mem_new, rfl, rfl⟩
  | stuck _ h => exact .inr h

end Place

namespace Places

variable {trs : List Track}

theorem others (h : Places t kind trs us us') : others kind us' = others kind us := by
  induction h with
  | nil us => rfl
  | cons h _ ih => exact ih.trans h.others

theorem mem (h : Places t kind trs us us') {u : Use} (hu : u ∈ us') :
    u ∈ us ∨ ∃ tr ∈ trs, u = ⟨.full, kind, some tr⟩ := by
  induction h with
  | nil us => exact .inl hu
  | cons h _ ih =>
    rcases ih hu with hu | ⟨tr, htr, rfl⟩
    · rcases h.mem hu with hu | rfl
      · exact .inl hu
      · exact .inr ⟨_, List.mem_cons_self, rfl⟩
    · exact .inr ⟨tr, List.mem_cons_of_mem _ htr, rfl⟩

theorem hasRow (h : Places t kind trs us us') {x : Track} (hx : HasRow us x) : HasRow us' x := by
  induction h with
  | nil us => exact hx
  | cons h _ ih => exact ih (h.hasRow hx)

theorem length_le (h : Places t kind trs us us') : us.length ≤ us'.length := by
  induction h with
  | nil us => exact le_rfl
  | cons h _ ih => exact h.length_le.trans ih

theorem stuck_mono (h : Places t kind trs us us') (hs : Stuck t kind us) :
    Stuck t kind us' := by
  induction h with
  | nil us => exact hs
  | cons h _ ih => exact ih (h.stuck_mono hs)

/-- **At the end every track has a row, or there is none to be had.** -/
theorem done (h : Places t kind trs us us') :
    ∀ tr ∈ trs, HasRow us' tr ∨ Stuck t kind us' := by
  induction h with
  | nil us => simp
  | cons h hs ih =>
    intro x hx
    rcases List.mem_cons.1 hx with rfl | hx
    · exact h.done.imp hs.hasRow hs.stuck_mono
    · exact ih x hx

end Places

end Place

theorem places_foldlM {t : Table} {kind : Kind} {rev now : Nat} {cs : List Cand} {w w' : Work}
    (h : cs.foldlM (t.fullStep kind (fullCap kind) rev now) w = some w') :
    Places t kind (cs.map (·.track)) w.st.uses w'.st.uses := by
  induction cs generalizing w with
  | nil =>
    obtain rfl := Option.some.inj h
    exact .nil _
  | cons c cs ih =>
    rw [List.foldlM_cons, Option.bind_eq_bind, Option.bind_eq_some_iff] at h
    obtain ⟨w₁, h₁, h⟩ := h
    exact .cons (fullStep_place h₁) (ih h)

theorem foldlM_idle {t : Table} {kind : Kind} {us : List Use} (rev now : Nat) (cs : List Cand)
    (h : ∀ c ∈ cs, HasRow us c.track ∨ Stuck t kind us) {w : Work} (hw : w.st.uses = us) :
    ∃ w', cs.foldlM (t.fullStep kind (fullCap kind) rev now) w = some w' ∧ Quiet w w' := by
  induction cs generalizing w with
  | nil => exact ⟨w, rfl, .refl w⟩
  | cons c cs ih =>
    subst hw
    obtain ⟨w₁, h₁, hquiet₁⟩ := fullStep_idle rev now (h c List.mem_cons_self)
    obtain ⟨w', h', hquiet⟩ := ih (fun d hd => h d (List.mem_cons_of_mem c hd)) hquiet₁.uses
    exact ⟨w', by rw [List.foldlM_cons, h₁]; exact h', hquiet₁.trans hquiet⟩

/-! ## The choice -/

/-- The candidates for the full rows of a kind. -/
def desired (cands : List Cand) (kind : Kind) : List Cand :=
  cands.filter fun c => c.cls = .full && c.kind = kind && !c.paused

theorem mem_desired {cands : List Cand} {kind : Kind} {c : Cand} :
    c ∈ desired cands kind ↔ c ∈ cands ∧ c.cls = .full ∧ c.kind = kind ∧ c.paused = false := by
  simp [desired, and_assoc]

instance (loaded : List (Track × Nat)) (s : State) (now : Nat) :
    Std.Total (ranksBefore loaded s now) where
  total a b := by
    unfold ranksBefore
    omega

instance (loaded : List (Track × Nat)) (s : State) (now : Nat) :
    IsTrans Cand (ranksBefore loaded s now) where
  trans a b c := by
    unfold ranksBefore
    omega

/-- The target holds the best of the candidates. -/
structure Chosen (cap : Nat) (pool target : List Cand) : Prop where
  subperm : target.Subperm pool
  length : target.length = min cap pool.length
  rank : ∀ a ∈ target, ∀ b ∈ pool, a.rank < b.rank → b ∈ target

theorem Chosen.nodup {cap : Nat} {pool target : List Cand} (h : Chosen cap pool target)
    (hnd : pool.Nodup) : target.Nodup := by
  obtain ⟨l, hperm, hsub⟩ := h.subperm
  exact hperm.nodup_iff.1 (hnd.sublist hsub)

theorem chosen_targets (loaded : List (Track × Nat)) (s : State) (now : Nat) (kind : Kind)
    (cs : List Cand) : Chosen (fullCap kind) cs (targets loaded s now kind cs) := by
  refine ⟨best_subperm _ _ cs, length_best _ _ cs, fun a ha b hb hrank => ?_⟩
  refine mem_best_of_before ha hb ?_
  rw [ranksBefore]
  omega

/-- The use of a row whose track is not to be received. -/
def dropped (kind : Kind) (trs : List Track) (u : Use) : Bool :=
  u.cls = .full && u.kind = kind && strays trs u.track

theorem not_dropped {kind : Kind} {trs : List Track} {u : Use}
    (h : u.isOf .full kind = false) : dropped kind trs u = false := by
  rw [Use.isOf] at h
  rw [dropped, h, Bool.false_and]

/-- The rows of the kind are rehomed, and it is noted who waits. -/
def noted (w : Work) (cands : List Cand) (kind : Kind) (rev now : Nat) : Work :=
  let w := w.rehomeAll cands kind rev now
  w.noteAll (w.st.loadedAt kind) now (desired cands kind)

/-- What a sync chooses to receive. -/
def choice (w : Work) (cands : List Cand) (kind : Kind) (rev now : Nat) : List Cand :=
  targets ((w.rehomeAll cands kind rev now).st.loadedAt kind) (noted w cands kind rev now).st now
    kind (desired cands kind)

section SyncFull

variable {t : Table} {cands : List Cand} {rev now : Nat} {w w' : Work} {kind : Kind}

theorem syncFull_eq : t.syncFull cands rev now w kind =
    (choice w cands kind rev now).foldlM (t.fullStep kind (fullCap kind) rev now)
      ((noted w cands kind rev now).unloadWhere
        (fun r => dropped kind ((choice w cands kind rev now).map (·.track)) r.use) rev) := rfl

theorem noted_quiet : Quiet (w.rehomeAll cands kind rev now) (noted w cands kind rev now) := by
  obtain ⟨hrows, hssrcs, harev⟩ := SameRows.foldl
    (noteWaiting_rows ((w.rehomeAll cands kind rev now).st.loadedAt kind) now)
    (desired cands kind) (w.rehomeAll cands kind rev now).st
  exact ⟨hrows, rfl, hssrcs, harev, rfl⟩

/-- The full rows of one kind: they are rehomed and cleared, then the chosen tracks are placed. -/
theorem syncFull_places (h : t.syncFull cands rev now w kind = some w') :
    ∃ target, Chosen (fullCap kind) (desired cands kind) target ∧
      Places t kind (target.map (·.track))
        ((w.st.uses.map (rehomed cands kind)).map
          (Use.emptied (dropped kind (target.map (·.track)))))
        w'.st.uses := by
  rw [syncFull_eq] at h
  refine ⟨choice w cands kind rev now, chosen_targets _ _ _ _ _, ?_⟩
  have hplaces := places_foldlM h
  rw [uses_unloadWhere _ fun _ => rfl, noted_quiet.uses, uses_rehomeAll] at hplaces
  exact hplaces

end SyncFull

end OxlensSfu.Sub
