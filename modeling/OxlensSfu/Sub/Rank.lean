import OxlensSfu.Sub.Idem
import OxlensSfu.Sub.Shared

/-!
# Rank decides who is subscribed

A sync chooses as many candidates of a kind as there may be rows, the ones of highest rank. Whether
the rows then hold just those is a matter of two things.

- No two rows may hold the same track. Placing gives no track a second row, but rehoming goes by the
  track id alone, so the ids must differ before the sync (`sync_nodup`).
- No chosen track may go without a row. Where there is none to be had, the rows of the kind are as
  many as they may be, unless the other rows have used up what the table may have (`Settled.perm`).

In every run in which the candidates are what the rooms give, the ids differ and a track keeps its
kind (`tidy_run`), and within a certain budget the slot rows leave enough (`room_of_budget`).
Without these, or behind a poisoned lock, rank does not decide (`rank_not_decides`).
-/

namespace OxlensSfu.Sub

/-! ## Held tracks -/

/-- The tracks that the full rows of the kind hold. -/
def held (kind : Kind) (us : List Use) : List Track :=
  (us.filter (Use.isOf .full kind)).filterMap (·.track)

section Held

variable {kind k : Kind} {us us' : List Use} {tr : Track}

theorem mem_held : tr ∈ held kind us ↔ ⟨.full, kind, some tr⟩ ∈ us := by
  simp only [held, List.mem_filterMap, List.mem_filter, Use.isOf_iff]
  refine ⟨?_, fun h => ⟨_, ⟨h, rfl, rfl⟩, rfl⟩⟩
  rintro ⟨⟨cls, k, x⟩, ⟨hu, rfl, rfl⟩, rfl⟩
  exact hu

theorem held_append (us us' : List Use) : held kind (us ++ us') = held kind us ++ held kind us' := by
  rw [held, List.filter_append, List.filterMap_append]
  rfl

theorem held_cons (u : Use) (us : List Use) :
    held kind (u :: us) = held kind [u] ++ held kind us :=
  held_append [u] us

theorem held_empty (u : Use) : held kind [u.empty] = [] := by
  rw [held, List.filter_cons]
  split_ifs
  · rfl
  · rfl

theorem held_cons_some (us : List Use) :
    held kind (⟨.full, kind, some tr⟩ :: us) = tr :: held kind us := by
  simp [held, Use.isOf]

theorem held_cons_none (us : List Use) : held kind (⟨.full, kind, none⟩ :: us) = held kind us := by
  simp [held, Use.isOf]

theorem held_of_others (hk : k ≠ kind) (h : others k us' = others k us) :
    held kind us' = held kind us := by
  rw [held, held, filter_of_others h fun u hu => ?_]
  rw [Use.isOf_iff] at hu
  simp [Use.isOf, hu.2, Ne.symm hk]

theorem held_of_fulls (h : fulls us' = fulls us) : held kind us' = held kind us := by
  have hfulls : ∀ us : List Use, us.filter (Use.isOf .full kind) =
      (fulls us).filter (Use.isOf .full kind) := by
    intro us
    rw [fulls, List.filter_filter]
    refine List.filter_congr fun u _ => ?_
    cases hof : u.isOf .full kind with
    | false => rfl
    | true => simp [(Use.isOf_iff.1 hof).1]
  rw [held, held, hfulls, h, ← hfulls]

theorem Fill.held (h : Fill .full kind tr us us') : (held kind us').Perm (tr :: held kind us) := by
  cases h with
  | put i hi =>
    have hlt := (List.getElem?_eq_some_iff.1 hi).1
    have hsplit : ∀ u, us.set i u = us.take i ++ u :: us.drop (i + 1) := by
      intro u
      rw [List.set_eq_take_append_cons_drop, if_pos hlt]
    have hold : Sub.held kind us =
        Sub.held kind (us.take i) ++ Sub.held kind (us.drop (i + 1)) := by
      rw [← held_cons_none (us.drop (i + 1)), ← held_append, ← hsplit, set_eq_of_getElem? hi]
    rw [hsplit, held_append, held_cons_some, hold]
    exact List.perm_middle
  | add =>
    rw [held_append, held_cons_some]
    exact List.perm_append_comm

/-- Placing gives no track a second row. -/
theorem Place.held_nodup {t : Table} (h : Place t kind tr us us') (hnd : (held kind us).Nodup) :
    (held kind us').Nodup := by
  cases h with
  | own _ => exact hnd
  | fill hnone hfill =>
    refine hfill.held.nodup_iff.2 (List.nodup_cons.2 ⟨fun hmem => hnone ?_, hnd⟩)
    exact ⟨_, mem_held.1 hmem, rfl, rfl⟩
  | stuck _ _ => exact hnd

theorem Places.held_nodup {t : Table} {trs : List Track} (h : Places t kind trs us us')
    (hnd : (held kind us).Nodup) : (held kind us').Nodup := by
  induction h with
  | nil us => exact hnd
  | cons h _ ih => exact ih (h.held_nodup hnd)

/-- Emptying rows takes tracks away. -/
theorem held_emptied (q : Use → Bool) (us : List Use) :
    (held kind (us.map (Use.emptied q))).Sublist (held kind us) := by
  induction us with
  | nil => exact .slnil
  | cons u us ih =>
    rw [List.map_cons, held_cons, held_cons u us]
    refine List.Sublist.append ?_ ih
    rw [Use.emptied]
    split_ifs
    · rw [held_empty]
      exact List.nil_sublist _
    · exact List.Sublist.refl _

/-- A row that is rehomed holds a track of the same id. -/
theorem rehomed_id (cands : List Cand) (kind : Kind) (u : Use) :
    (rehomed cands kind u).track.map (·.1) = u.track.map (·.1) := by
  rw [rehomed]
  split_ifs
  · rfl
  · split
    · rfl
    · next tid room htr =>
      split_ifs
      · rfl
      · split
        · next c hfind =>
          have hc := List.find?_some hfind
          simp only [Bool.and_eq_true, decide_eq_true_eq] at hc
          simp [htr, Cand.track, hc.1.2]
        · rfl

theorem held_rehomed (cands : List Cand) (us : List Use) :
    (held kind (us.map (rehomed cands kind))).map (·.1) = (held kind us).map (·.1) := by
  have hof : (Use.isOf .full kind ∘ rehomed cands kind) = Use.isOf .full kind := by
    funext u
    rw [Function.comp_apply, Use.isOf, Use.isOf, (rehomed_cls cands kind u).1,
      (rehomed_cls cands kind u).2]
  rw [held, held, List.filter_map, hof, List.filterMap_map, List.map_filterMap, List.map_filterMap]
  exact congrArg (List.filterMap · _) (funext fun u => rehomed_id cands kind u)

end Held

/-! ## Enough rows -/

theorem syncFull_nodup {t : Table} {cands : List Cand} {kind : Kind} {rev now : Nat}
    {w w' : Work} (h : t.syncFull cands rev now w kind = some w')
    (hids : ((held kind w.st.uses).map (·.1)).Nodup) : (held kind w'.st.uses).Nodup := by
  obtain ⟨target, -, hplaces⟩ := syncFull_places h
  refine hplaces.held_nodup (List.Nodup.sublist (held_emptied _ _) ?_)
  rw [← held_rehomed cands] at hids
  exact hids.of_map

/-- Each row is a slot row or a full row of one of the kinds. -/
theorem length_uses_eq (us : List Use) : us.length = us.countP (·.cls = .slot) +
    us.countP (Use.isOf .full .audio) + us.countP (Use.isOf .full .video) := by
  induction us with
  | nil => rfl
  | cons u us ih =>
    obtain ⟨cls, kind, tr⟩ := u
    rw [List.length_cons, List.countP_cons, List.countP_cons, List.countP_cons, ih]
    cases cls with
    | slot => simp [Use.isOf]; omega
    | full =>
      cases kind with
      | audio => simp [Use.isOf]; omega
      | video => simp [Use.isOf]; omega

/-- Where no row of the kind is empty, there are as many rows as tracks. -/
theorem length_held {kind : Kind} {us : List Use} (h : ⟨.full, kind, none⟩ ∉ us) :
    (held kind us).length = us.countP (Use.isOf .full kind) := by
  rw [held, List.countP_eq_length_filter, List.filterMap_length_eq_length]
  intro u hu
  obtain ⟨hmem, hof⟩ := List.mem_filter.1 hu
  obtain ⟨hcls, hkind⟩ := Use.isOf_iff.1 hof
  rw [Option.isSome_iff_ne_none]
  intro hnone
  rw [← hcls, ← hkind, ← hnone] at h
  exact h hmem

/-- **The rows hold the chosen tracks**, unless the table is full before the rows of the kind are
as many as they may be. -/
theorem Settled.perm {t : Table} {cands : List Cand} {kind : Kind} {us : List Use}
    {target : List Cand} (h : Settled t cands kind us target) (hd : Distinct cands)
    (hnd : (held kind us).Nodup)
    (hroom : us.countP (Use.isOf .full kind) < fullCap kind → us.length < t.limit) :
    (held kind us).Perm (target.map (·.track)) := by
  have hsub : (held kind us).Subperm (target.map (·.track)) :=
    List.subperm_of_subset hnd fun tr htr => h.mem tr (mem_held.1 htr)
  by_cases hs : Stuck t kind us
  · refine hsub.perm_of_length_le ?_
    have hcap : fullCap kind ≤ us.countP (Use.isOf .full kind) := by
      by_contra hlt
      exact hs.room ⟨by omega, hroom (by omega)⟩
    rw [List.length_map, length_held hs.full, h.chosen.length]
    exact (min_le_left _ _).trans hcap
  · have htracks : (target.map (·.track)).Nodup := by
      obtain ⟨l, hperm, hl⟩ := h.chosen.subperm
      exact (hperm.map _).nodup_iff.1 ((hd.desired kind).sublist (hl.map _))
    refine hsub.antisymm (List.subperm_of_subset htracks fun tr htr => ?_)
    obtain ⟨c, hc, rfl⟩ := List.mem_map.1 htr
    exact mem_held.2 ((h.done c hc).resolve_right hs)

/-! ## The ranking -/

/-- The tracks that are loaded into the full rows of a kind. -/
def Table.loadedTracks (t : Table) (kind : Kind) : List Track :=
  (t.st.rows.filter fun r => r.cls = .full && r.kind = kind).filterMap (·.track)

theorem loadedTracks_eq (t : Table) (kind : Kind) : t.loadedTracks kind = held kind t.st.uses := by
  rw [held, State.uses, List.filter_map, List.filterMap_map]
  rfl

/-- The loaded tracks are the best of the candidates that are not paused. -/
structure Ranked (cands : List Cand) (kind : Kind) (trs : List Track) : Prop where
  nodup : trs.Nodup
  cand : ∀ tr ∈ trs, ∃ c ∈ desired cands kind, c.track = tr
  number : trs.length = min 25 (desired cands kind).length
  rank : ∀ a ∈ desired cands kind, a.track ∈ trs →
    ∀ b ∈ desired cands kind, b.track ∉ trs → b.rank ≤ a.rank

theorem Ranked.of_perm {cands : List Cand} {kind : Kind} {trs : List Track} {target : List Cand}
    (hd : Distinct cands) (hchosen : Chosen (fullCap kind) (desired cands kind) target)
    (hnd : trs.Nodup) (h : trs.Perm (target.map (·.track))) : Ranked cands kind trs := by
  have hmem : ∀ c ∈ desired cands kind, c.track ∈ trs → c ∈ target := by
    intro c hc htr
    obtain ⟨c', hc', heq⟩ := List.mem_map.1 (h.mem_iff.1 htr)
    obtain ⟨hcands, hcls, -⟩ := mem_desired.1 hc
    obtain ⟨hcands', hcls', -⟩ := mem_desired.1 (hchosen.subperm.subset hc')
    rwa [← hd.eq hcands' hcands hcls' hcls heq]
  refine ⟨hnd, fun tr htr => ?_, ?_, fun a ha hatr b hb hbtr => ?_⟩
  · obtain ⟨c, hc, rfl⟩ := List.mem_map.1 (h.mem_iff.1 htr)
    exact ⟨c, hchosen.subperm.subset hc, rfl⟩
  · rw [h.length_eq, List.length_map, hchosen.length, RowsLaw.fullCap_eq]
  · by_contra hlt
    have hb' := hchosen.rank a (hmem a ha hatr) b hb (by omega)
    exact hbtr (h.mem_iff.2 (List.mem_map_of_mem hb'))

/-- The candidates for full rows are known by their ids. -/
def OneEach (cands : List Cand) : Prop :=
  ((cands.filter (·.cls = .full)).map (·.trackId)).Nodup

instance (cands : List Cand) : Decidable (OneEach cands) :=
  inferInstanceAs (Decidable ((cands.filter (·.cls = .full)).map (·.trackId)).Nodup)

theorem OneEach.distinct {cands : List Cand} (h : OneEach cands) : Distinct cands := by
  have hmap : (cands.filter (·.cls = .full)).map (·.trackId) =
      ((cands.filter (·.cls = .full)).map (·.track)).map (·.1) := by
    rw [List.map_map]
    rfl
  rw [OneEach, hmap] at h
  exact h.of_map

section

variable {t t' : Table} {cands : List Cand} {now : Nat} {draws : List (BitVec 32)} {out : SyncOut}

/-- After a sync no track is loaded twice. -/
theorem sync_nodup (hids : ∀ kind, ((t.loadedTracks kind).map (·.1)).Nodup)
    (hpre : ¬ t.overBudget (freshSlotRows t.st cands (wantSlot cands)))
    (h : t.sync cands now draws = some (out, t')) (kind : Kind) : (t'.loadedTracks kind).Nodup := by
  obtain ⟨w, w₁, w₂, hslot, ha, hv, huses, -, -⟩ := sync_parts hpre h
  have hheld : ∀ k, held k w.st.uses = t.loadedTracks k := by
    intro k
    rw [loadedTracks_eq]
    exact held_of_fulls (syncSlots_talk hslot).1
  rw [loadedTracks_eq, huses]
  cases kind with
  | audio =>
    rw [held_of_others (by decide) (syncFull_others hv).1]
    refine syncFull_nodup ha ?_
    rw [hheld]
    exact hids .audio
  | video =>
    refine syncFull_nodup hv ?_
    rw [held_of_others (by decide) (syncFull_others ha).1, hheld]
    exact hids .video

/-- A kind that may have more rows finds the table below its limit. -/
def Table.Spare (t : Table) (kind : Kind) : Prop :=
  t.st.fullRows kind < 25 → t.st.rows.length < t.limit

/-- Loaded tracks of a kind have different ids. -/
def Table.IdsDiffer (t : Table) : Prop := ∀ kind, ((t.loadedTracks kind).map (·.1)).Nodup

/-- **A sync loads the best candidates**, where the table has room for the rows of the kind. -/
theorem sync_ranked (hone : OneEach cands) (hids : t.IdsDiffer) (hkinds : KindsKept t cands)
    (h : t.sync cands now draws = some (out, t')) (hlim : out.midLimit = false) {kind : Kind}
    (hroom : t'.Spare kind) : Ranked cands kind (t'.loadedTracks kind) := by
  have hpre : ¬ t.overBudget (freshSlotRows t.st cands (wantSlot cands)) := by
    intro hover
    obtain ⟨budget, hsync⟩ := sync_over now draws hover
    rw [(Prod.mk.inj (Option.some.inj (h.symm.trans hsync))).1] at hlim
    exact absurd hlim (by simp)
  have hnd := sync_nodup hids hpre h kind
  obtain ⟨target, htarget⟩ := (sync_settles hone.distinct hkinds hpre h).2 kind
  refine .of_perm hone.distinct htarget.chosen hnd ?_
  rw [loadedTracks_eq] at hnd ⊢
  refine htarget.perm hone.distinct hnd fun hlt => ?_
  rw [length_uses]
  refine hroom ?_
  rwa [fullRows_eq, ← RowsLaw.fullCap_eq kind]

end

/-! ## Whole runs -/

/-- The candidates of a sync as the rooms give them: a track is in one room, and is of the kind that
it was published as. -/
def Op.tidy (kindOf : String → Kind) : Op → Prop
  | .sync cands _ _ => OneEach cands ∧ ∀ c ∈ cands, c.cls = .full → c.kind = kindOf c.trackId
  | _ => True

structure Tidy (kindOf : String → Kind) (t : Table) : Prop where
  ids : t.IdsDiffer
  kinds : ∀ kind, ∀ tr ∈ t.loadedTracks kind, kind = kindOf tr.1

namespace Tidy

variable {kindOf : String → Kind} {t t' : Table} {cands : List Cand}

theorem of_uses (h : Tidy kindOf t) (huses : t'.st.uses = t.st.uses) : Tidy kindOf t' := by
  have htracks : t'.loadedTracks = t.loadedTracks := by
    funext kind
    rw [loadedTracks_eq, loadedTracks_eq, huses]
  refine ⟨fun kind => ?_, htracks ▸ h.kinds⟩
  rw [htracks]
  exact h.ids kind

theorem kindsKept (h : Tidy kindOf t)
    (hkind : ∀ c ∈ cands, c.cls = .full → c.kind = kindOf c.trackId) : KindsKept t cands := by
  intro c hc hcls haudio _ r hr hfull hvideo htr
  have hmem : c.track ∈ t.loadedTracks .video := by
    refine List.mem_filterMap.2 ⟨r, List.mem_filter.2 ⟨hr, ?_⟩, htr⟩
    simp [hfull, hvideo]
  have hnot := (hkind c hc hcls).trans (h.kinds .video c.track hmem).symm
  rw [haudio] at hnot
  exact absurd hnot (by decide)

theorem sync (h : Tidy kindOf t) (hone : OneEach cands)
    (hkind : ∀ c ∈ cands, c.cls = .full → c.kind = kindOf c.trackId) {now : Nat}
    {draws : List (BitVec 32)} {out : SyncOut} (hsync : t.sync cands now draws = some (out, t')) :
    Tidy kindOf t' := by
  by_cases hpre : t.overBudget (freshSlotRows t.st cands (wantSlot cands))
  · obtain ⟨budget, hover⟩ := sync_over now draws hpre
    obtain ⟨-, rfl⟩ := Prod.mk.inj (Option.some.inj (hsync.symm.trans hover))
    exact h
  have hsettled := (sync_settles hone.distinct (h.kindsKept hkind) hpre hsync).2
  -- What is loaded is a candidate of the kind.
  have hcand : ∀ kind, ∀ tr ∈ t'.loadedTracks kind, ∃ c ∈ cands,
      c.cls = .full ∧ c.kind = kind ∧ c.track = tr := by
    intro kind tr htr
    obtain ⟨target, htarget⟩ := hsettled kind
    rw [loadedTracks_eq, mem_held] at htr
    obtain ⟨c, hc, rfl⟩ := List.mem_map.1 (htarget.mem tr htr)
    obtain ⟨hcands, hcls, hk, -⟩ := mem_desired.1 (htarget.chosen.subperm.subset hc)
    exact ⟨c, hcands, hcls, hk, rfl⟩
  refine ⟨fun kind => ?_, fun kind tr htr => ?_⟩
  · refine List.Nodup.map_on (fun x hx y hy hid => ?_) (sync_nodup h.ids hpre hsync kind)
    obtain ⟨c, hc, hcls, -, rfl⟩ := hcand kind x hx
    obtain ⟨c', hc', hcls', -, rfl⟩ := hcand kind y hy
    exact congrArg Cand.track (List.inj_on_of_nodup_map hone
      (List.mem_filter.2 ⟨hc, by simpa using hcls⟩) (List.mem_filter.2 ⟨hc', by simpa using hcls'⟩)
      hid)
  · obtain ⟨c, hc, hcls, rfl, rfl⟩ := hcand kind tr htr
    exact hkind c hc hcls

end Tidy

/-- No call but a sync gives a row another track. -/
theorem apply_uses (t : Table) {op : Op} (h : ∀ cands now draws, op ≠ .sync cands now draws) :
    (t.apply op).st.uses = t.st.uses := by
  cases op with
  | sync cands now draws => exact absurd rfl (h cands now draws)
  | seed codecs extmap =>
    exact congrArg (List.map Row.use) (t.seed_same codecs extmap).1.rows
  | ready room arev now =>
    rw [Table.apply, Table.ready, State.uses, State.uses, List.map_map]
    refine List.map_congr_left fun r _ => ?_
    rw [Function.comp_apply]
    split_ifs
    · rfl
    · rfl
  | carry arev =>
    rw [Table.apply, Table.carry]
    split_ifs
    · rfl
    · rfl
  | markSeeded | gateTimeouts | setPref | forgetRoom | addUplink | removeUplink => rfl

/-- **Where the rooms give the candidates, no id is loaded twice and every kind is kept**, over
every run of the table. -/
theorem tidy_run (kindOf : String → Kind) (pcMode : PcMode) (slotBudget : Nat) {ops : List Op}
    (h : machine.Legal (Table.new pcMode slotBudget) ops) (htidy : ∀ op ∈ ops, op.tidy kindOf) :
    Tidy kindOf (machine.exec (Table.new pcMode slotBudget) ops) := by
  have hnew : Tidy kindOf (Table.new pcMode slotBudget) :=
    ⟨fun _ => List.nodup_nil, fun _ tr htr => by simp [Table.loadedTracks, Table.new] at htr⟩
  generalize Table.new pcMode slotBudget = t at h hnew
  induction ops generalizing t with
  | nil => exact hnew
  | cons op ops ih =>
    obtain ⟨hok, hl⟩ := h
    refine ih (fun o ho => htidy o (List.mem_cons_of_mem op ho)) _ hl ?_
    by_cases hop : ∃ cands now draws, op = .sync cands now draws
    · obtain ⟨cands, now, draws, rfl⟩ := hop
      obtain ⟨⟨out, t'⟩, hsync⟩ := Option.isSome_iff_exists.1 hok
      obtain ⟨hone, hkind⟩ := htidy _ List.mem_cons_self
      rw [show machine.next t (.sync cands now draws) = t' from apply_sync hsync]
      exact hnew.sync hone hkind hsync
    · refine hnew.of_uses (apply_uses t fun cands now draws he => hop ⟨cands, now, draws, he⟩)

theorem sync_same {t t' : Table} {cands : List Cand} {now : Nat} {draws : List (BitVec 32)}
    {out : SyncOut} (h : t.sync cands now draws = some (out, t')) : SameTable t t' := by
  rcases sync_moves h with ⟨rfl, -⟩ | ⟨hpre, w, b, hslots⟩ | ⟨w, -, heq⟩
  · exact ⟨rfl, rfl⟩
  · exact absurd hslots (syncSlots_within hpre)
  · rw [Table.finish] at heq
    obtain ⟨-, rfl⟩ := Prod.mk.inj heq
    exact ⟨rfl, rfl⟩

/-- Mode and budget of a table are fixed. -/
theorem apply_same (t : Table) (op : Op) : SameTable t (t.apply op) := by
  cases op with
  | sync cands now draws =>
    cases h : t.sync cands now draws with
    | none =>
      rw [Table.apply, h]
      exact ⟨rfl, rfl⟩
    | some y =>
      rw [apply_sync h]
      exact sync_same h
  | seed codecs extmap => exact ⟨(t.seed_same codecs extmap).2.2.1, (t.seed_same codecs extmap).2.2.2⟩
  | carry arev =>
    rw [Table.apply, Table.carry]
    split_ifs
    · exact ⟨rfl, rfl⟩
    · exact ⟨rfl, rfl⟩
  | _ => exact ⟨rfl, rfl⟩

theorem run_same (t : Table) (ops : List Op) : SameTable t (machine.exec t ops) := by
  induction ops generalizing t with
  | nil => exact ⟨rfl, rfl⟩
  | cons op ops ih =>
    have hfirst := apply_same t op
    have hrest := ih (t.apply op)
    exact ⟨hrest.pcMode.trans hfirst.pcMode, hrest.slotBudget.trans hfirst.slotBudget⟩

/-- With a budget of at most 46 slot rows, or of 78 where there are two connections, there is always
room: the slot rows leave 50 rows to the others, and the rows of the other kind are within their
cap. -/
theorem room_of_budget {t t' : Table} {cands : List Cand} {now : Nat} {draws : List (BitVec 32)}
    {out : SyncOut} (hinv : Inv t) (h : t.sync cands now draws = some (out, t'))
    (hbudget : t.slotBudget + 50 ≤ t.limit) (kind : Kind) : t'.Spare kind := by
  intro hlt
  have hinv' : Inv t' := (sync_step hinv h).1.inv
  have hsame := sync_same h
  have hlimit : t'.limit = t.limit := by rw [Table.limit, Table.limit, hsame.pcMode]
  have hslots := hinv'.slots
  have haudio := hinv'.full .audio
  have hvideo := hinv'.full .video
  have hlen := length_uses_eq t'.st.uses
  rw [hsame.slotBudget, slotRows_eq] at hslots
  rw [fullRows_eq] at haudio hvideo hlt
  rw [length_uses] at hlen
  cases kind with
  | audio => omega
  | video => omega

/-- **Rank decides who is subscribed**: in a reachable table whose lock is whole, where loaded tracks
have different ids and keep their kind and a kind below its cap finds room. There is room within a
certain budget, and the tracks are so in every run of what the rooms give. -/
theorem rank_decides {pcMode : PcMode} {slotBudget : Nat} {ops : List Op} {x x' : Shared}
    (hlegal : Shared.machine.Legal (.new pcMode slotBudget) ops)
    (hx : x = .after pcMode slotBudget ops) (hwhole : x.poisoned = false) {cands : List Cand}
    {now : Nat} {draws : List (BitVec 32)} {out : SyncOut} (hone : OneEach cands)
    (hsync : x.sync cands now draws = some (out, x')) (hlim : out.midLimit = false) :
    (x.view.IdsDiffer → KindsKept x.view cands → ∀ kind, x'.view.Spare kind →
      Ranked cands kind (x'.view.loadedTracks kind)) ∧
    (slotBudget + 50 ≤ x.view.limit → ∀ kind, x'.view.Spare kind) ∧
    ∀ kindOf : String → Kind, (∀ op ∈ ops, op.tidy kindOf) →
      (Op.sync cands now draws).tidy kindOf → x.view.IdsDiffer ∧ KindsKept x.view cands := by
  subst hx
  obtain ⟨hl, hexec⟩ := Shared.whole_run hlegal hwhole
  have hafter : Shared.after pcMode slotBudget ops =
      ⟨machine.exec (Table.new pcMode slotBudget) ops, false⟩ := hexec
  rw [hafter] at hsync ⊢
  obtain ⟨t', hsync', rfl⟩ := Shared.sync_whole hsync
  refine ⟨fun hids hkinds kind hroom => sync_ranked hone hids hkinds hsync' hlim hroom, ?_, ?_⟩
  · intro hbudget
    refine room_of_budget (run_inv (inv_new pcMode slotBudget) hl) hsync' ?_
    rw [(run_same (Table.new pcMode slotBudget) ops).slotBudget]
    exact hbudget
  · intro kindOf hops hthis
    have htidy := tidy_run kindOf pcMode slotBudget hl hops
    exact ⟨htidy.ids, htidy.kindsKept hthis.2⟩

/-- A track and the talk of its room. -/
theorem rank_decides_solo :
    ∃ out x', (Shared.new .two 4).sync [solo .video, talk "r"] 1 [7, 8, 9] = some (out, x') ∧
      Ranked [solo .video, talk "r"] .video (x'.view.loadedTracks .video) := by
  have hsome : ((Shared.new .two 4).sync [solo .video, talk "r"] 1 [7, 8, 9]).map
      (·.1.midLimit) = some false := by decide
  obtain ⟨⟨out, x'⟩, hsync, hlim⟩ := Option.map_eq_some_iff.1 hsome
  have hlegal : Shared.machine.Legal (.new .two 4) [] := trivial
  obtain ⟨hranked, hroom, -⟩ := rank_decides hlegal rfl rfl (by decide) hsync hlim
  exact ⟨out, x', hsync,
    hranked (fun _ => List.nodup_nil) (by decide) .video (hroom (by decide) .video)⟩

/-! ## A full table -/

section

variable {t : Table} {w w' : Work} {rev now : Nat}

theorem Moves.length_le (h : Moves t rev w w') : w.st.rows.length ≤ w'.st.rows.length := by
  induction h with
  | refl => exact le_rfl
  | tail _ hm ih =>
    refine ih.trans ?_
    cases hm with
    | quiet h => rw [h.rows]
    | swap i r r' h => rw [h.rows, List.length_set]
    | grow r h _ => simp [h.rows]
    | tune i r r' h => rw [h.rows, List.length_set]

/-- With no row left to make, a full row needs no number. -/
theorem fullStep_full (kind : Kind) (cap rev now : Nat) (c : Cand) (h : t.limit ≤ w.st.rows.length) :
    (t.fullStep kind cap rev now w c).isSome := by
  rw [Table.fullStep]
  by_cases hown : w.st.rows.any fun r => r.track = some c.track && r.cls = .full
  · rw [if_pos hown]
    rfl
  rw [if_neg hown]
  cases freeFull w.st kind c with
  | some i => rfl
  | none =>
    dsimp only
    rw [if_neg (by omega)]
    cases emptyFull w.st kind with
    | some i => rfl
    | none => rfl

/-- The full rows of a full table are synced, whatever the numbers are. -/
theorem syncFull_full (kind : Kind) (rev now : Nat) (cands : List Cand)
    (h : t.limit ≤ w.st.rows.length) :
    ∃ w', t.syncFull cands rev now w kind = some w' ∧ t.limit ≤ w'.st.rows.length := by
  rw [Table.syncFull]
  set w₁ := w.rehomeAll cands kind rev now
  have hrehome : Moves t rev w w₁ := rehomeAll_moves cands kind
  set w₂ := w₁.noteAll (w₁.st.loadedAt kind) now
    (cands.filter fun c => c.cls = .full && c.kind = kind && !c.paused)
  have hnote : w₂.st.rows = w₁.st.rows := (SameRows.foldl (noteWaiting_rows _ now) _ w₁.st).rows
  generalize targets (w₁.st.loadedAt kind) w₂.st now kind
    (cands.filter fun c => c.cls = .full && c.kind = kind && !c.paused) = target
  have hlen : t.limit ≤ (w₂.unloadWhere (fun r => r.cls = .full && r.kind = kind &&
      r.track.any (· ∉ target.map (·.track))) rev).st.rows.length := by
    refine h.trans (hrehome.length_le.trans ?_)
    rw [← hnote]
    exact Moves.length_le (@unloadWhere_moves t w₂ rev _)
  generalize w₂.unloadWhere (fun r => r.cls = .full && r.kind = kind &&
      r.track.any (· ∉ target.map (·.track))) rev = w₃ at hlen
  generalize hts : target = ts
  clear hts
  induction ts generalizing w₃ with
  | nil => exact ⟨w₃, rfl, hlen⟩
  | cons c ts ih =>
    obtain ⟨w₄, hw₄⟩ := Option.isSome_iff_exists.1
      (fullStep_full kind (fullCap kind) rev now c hlen)
    rw [List.foldlM_cons, hw₄]
    exact ih w₄ (hlen.trans (fullStep_moves hw₄).length_le)

/-- The numbers to come are all free, and no two of them are the same. -/
structure Work.Fresh (w : Work) : Prop where
  nodup : w.draws.Nodup
  free : ∀ v ∈ w.draws, 1 < v ∧ v ∉ w.st.ssrcs ∧ v ∉ w.st.uplink

theorem Work.Fresh.load (h : w.Fresh) (i : Nat) (c : Cand) (rev now : Nat) :
    (w.load i c rev now).Fresh ∧ (w.load i c rev now).draws = w.draws := by
  have hsame : (w.load i c rev now).draws = w.draws ∧ (w.load i c rev now).st.ssrcs = w.st.ssrcs ∧
      (w.load i c rev now).st.uplink = w.st.uplink := by
    simp only [Work.load, Work.swap, gate]
    split_ifs
    · split
      · split <;> exact ⟨rfl, rfl, rfl⟩
      · split <;> exact ⟨rfl, rfl, rfl⟩
    · split <;> exact ⟨rfl, rfl, rfl⟩
  refine ⟨⟨?_, ?_⟩, hsame.1⟩
  · rw [hsame.1]
    exact h.nodup
  · rw [hsame.1, hsame.2.1, hsame.2.2]
    exact h.free

/-- An audio row takes one number. -/
theorem newRow_audio (h : w.Fresh) (hne : w.draws ≠ []) (cls : Class) (codec : String) :
    ∃ w', t.newRow w .audio cls codec = some w' ∧ w'.Fresh ∧
      w'.draws.length + 1 = w.draws.length := by
  obtain ⟨v, vs, hdraws⟩ := List.exists_cons_of_ne_nil hne
  have hnd := h.nodup
  have hfree := h.free
  rw [hdraws] at hnd hfree
  have hpt : (t.ptFor w.st .audio (tupleOf .audio codec) codec).1.ssrcs = w.st.ssrcs ∧
      (t.ptFor w.st .audio (tupleOf .audio codec) codec).1.uplink = w.st.uplink := by
    rw [Table.ptFor]
    split <;> exact ⟨rfl, rfl⟩
  have hv := hfree v List.mem_cons_self
  rw [← hpt.1, ← hpt.2] at hv
  simp only [Table.newRow, Option.bind_eq_bind, hdraws, freshSsrc, if_pos hv, freshRtx,
    Option.bind_some, reduceCtorEq, if_false]
  refine ⟨_, rfl, ⟨(List.nodup_cons.1 hnd).2, fun x hx => ?_⟩, rfl⟩
  obtain ⟨hlt, hssrcs, hup⟩ := hfree x (List.mem_cons_of_mem v hx)
  refine ⟨hlt, ?_, by rwa [hpt.2]⟩
  rw [hpt.1, Finset.mem_insert]
  exact not_or.2 ⟨fun heq => (List.nodup_cons.1 hnd).1 (heq ▸ hx), hssrcs⟩

/-- A number for each audio candidate is enough. -/
theorem slotLoop_some {cs : List Cand} (hkind : ∀ c ∈ cs, c.kind = .audio) (h : w.Fresh)
    (hlen : cs.length ≤ w.draws.length) : (t.slotLoop rev now cs w).isSome := by
  induction cs generalizing w with
  | nil => rfl
  | cons c cs ih =>
    have hcs := fun d hd => hkind d (List.mem_cons_of_mem c hd)
    rw [List.length_cons] at hlen
    rw [Table.slotLoop]
    cases freeSlot w.st c with
    | some i =>
      obtain ⟨hload, hdraws⟩ := h.load i c rev now
      exact ih hcs hload (by rw [hdraws]; omega)
    | none =>
      dsimp only
      split_ifs
      · rfl
      · rfl
      · have hne : w.draws ≠ [] := by
          intro hnil
          rw [hnil, List.length_nil] at hlen
          omega
        obtain ⟨w₁, hnew, hfresh, hcount⟩ := newRow_audio h hne .slot c.codec
        obtain ⟨hload, hdraws⟩ := hfresh.load (w₁.st.rows.length - 1) c rev now
        rw [hkind c List.mem_cons_self, hnew]
        exact ih hcs hload (by rw [hdraws]; omega)

/-- Each room whose talk is carried has a slot row of its own. -/
theorem Talk.rooms_le {cands : List Cand} {us : List Use} (h : Talk cands us) {rooms : List String}
    (hnd : rooms.Nodup) (hrooms : ∀ room ∈ rooms, ∃ c ∈ cands, c.cls = .slot ∧ c.room = room) :
    rooms.length ≤ us.countP (·.cls = .slot) := by
  have hsub : rooms ⊆ (us.filter (·.cls = .slot)).filterMap fun u => u.track.map (·.2) := by
    intro room hroom
    obtain ⟨c, hc, hcls, rfl⟩ := hrooms room hroom
    obtain ⟨u, hu, hcar⟩ := List.any_eq_true.1 (h.carried c hc hcls)
    simp only [Use.carries, Bool.and_eq_true, decide_eq_true_eq, Option.any_eq_true] at hcar
    obtain ⟨⟨hslot, -⟩, tr, htr, hroom⟩ := hcar
    exact List.mem_filterMap.2
      ⟨u, List.mem_filter.2 ⟨hu, by simpa using hslot⟩, by simp [htr, hroom]⟩
  rw [List.countP_eq_length_filter]
  exact (List.subperm_of_subset hnd hsub).length_le.trans (List.length_filterMap_le _ _)

end

/-! ## Why the conditions are there -/

/-- That rank decides, where the tables before and after a sync meet the condition. -/
def RankDecides (cond : Shared → List Cand → Shared → Kind → Prop) : Prop :=
  ∀ (pcMode : PcMode) (slotBudget : Nat) (ops : List Op) (cands : List Cand) (now : Nat)
    (draws : List (BitVec 32)) (out : SyncOut) (x' : Shared), slotBudget ≤ 128 →
    Shared.machine.Legal (.new pcMode slotBudget) ops → OneEach cands →
    (Shared.after pcMode slotBudget ops).sync cands now draws = some (out, x') →
    out.midLimit = false → ∀ kind, cond (.after pcMode slotBudget ops) cands x' kind →
    Ranked cands kind (x'.view.loadedTracks kind)

/-- Talk of 96 rooms, and one track more. -/
def crowd : List Cand :=
  solo .audio :: (List.range 96).map fun i => talk (String.singleton (Char.ofNat (i + 32)))

/-- A number for each room of the crowd. -/
def crowdDraws : List (BitVec 32) := (List.range 96).map fun i => BitVec.ofNat 32 (i + 2)

theorem crowdDraws_fresh : Work.Fresh { st := {}, draws := crowdDraws } := by
  refine ⟨by decide, fun v hv => ?_⟩
  obtain ⟨i, hi, rfl⟩ := List.mem_map.1 hv
  rw [List.mem_range] at hi
  refine ⟨?_, Finset.notMem_empty _, Finset.notMem_empty _⟩
  rw [BitVec.lt_def, BitVec.toNat_ofNat, Nat.mod_eq_of_lt (by omega)]
  show 1 < i + 2
  omega

/-- Wherever the talk of the crowd is carried, there is a slot row for each room. -/
theorem crowd_rows {us : List Use} (h : Talk crowd us) : 96 ≤ us.countP (·.cls = .slot) := by
  have hnd : ((List.range 96).map fun i => String.singleton (Char.ofNat (i + 32))).Nodup := by
    decide
  refine h.rooms_le hnd fun room hroom => ?_
  obtain ⟨i, hi, rfl⟩ := List.mem_map.1 hroom
  exact ⟨talk _, List.mem_cons_of_mem _ (List.mem_map.2 ⟨i, hi, rfl⟩), rfl, rfl⟩

theorem crowd_fits : ¬ (Table.new .one 96).overBudget
    (freshSlotRows (Table.new .one 96).st crowd (wantSlot crowd)) := by decide

/-- The talk of the crowd is loaded, and takes all the rows. -/
theorem crowd_sync : ∃ out t', (Table.new .one 96).sync crowd 1 crowdDraws = some (out, t') ∧
    out.midLimit = false := by
  have hslot : ((Table.new .one 96).syncSlots crowd 1 1 crowdDraws).isSome := by
    rw [Table.syncSlots]
    exact slotLoop_some (by decide) crowdDraws_fresh (by decide)
  obtain ⟨⟨w, b⟩, hslot⟩ := Option.isSome_iff_exists.1 hslot
  cases b with
  | some b => exact absurd hslot (syncSlots_within crowd_fits)
  | none =>
    have hfull : (Table.new .one 96).limit ≤ w.st.rows.length := by
      rw [← length_uses]
      exact (crowd_rows (syncSlots_talk hslot).2).trans List.countP_le_length
    obtain ⟨w₁, ha, hfull⟩ := syncFull_full .audio 1 1 crowd hfull
    obtain ⟨w₂, hv, -⟩ := syncFull_full .video 1 1 crowd hfull
    have hsync : (Table.new .one 96).sync crowd 1 crowdDraws =
        some ((Table.new .one 96).finish crowd 1 0 w₂) := by
      rw [Table.sync]
      dsimp only
      rw [if_neg crowd_fits]
      refine Option.bind_eq_some_iff.2 ⟨_, hslot, ?_⟩
      exact Option.bind_eq_some_iff.2 ⟨w₁, ha, Option.bind_eq_some_iff.2 ⟨w₂, hv, rfl⟩⟩
    exact ⟨_, _, hsync, rfl⟩

/-- The slot rows use up what the table may have. -/
theorem crowd_out : ¬ RankDecides fun x cands _ _ =>
    x.poisoned = false ∧ x.view.IdsDiffer ∧ KindsKept x.view cands := by
  intro h
  obtain ⟨out, t', hsync, hlim⟩ := crowd_sync
  have hone : OneEach crowd := by decide
  have hkinds : KindsKept (Table.new .one 96) crowd := by decide
  have hshared : (Shared.new .one 96).sync crowd 1 crowdDraws = some (out, ⟨t', false⟩) := by
    rw [Shared.sync, if_neg (by decide)]
    show Option.map _ ((Table.new .one 96).sync crowd 1 crowdDraws) = _
    rw [hsync]
    rfl
  have hranked := h .one 96 [] crowd 1 _ out _ (by decide) trivial hone hshared hlim .audio
    ⟨rfl, fun _ => List.nodup_nil, hkinds⟩
  have hone' : (desired crowd .audio).length = 1 := by decide
  have hnumber : (t'.loadedTracks .audio).length = _ := hranked.number
  rw [loadedTracks_eq, hone'] at hnumber
  have hheld : (held .audio t'.st.uses).length ≤ t'.st.uses.countP (Use.isOf .full .audio) := by
    rw [held, List.countP_eq_length_filter]
    exact List.length_filterMap_le _ _
  have hslots := crowd_rows (sync_settles hone.distinct hkinds crowd_fits hsync).1
  have hrows := (sync_step (inv_new .one 96) hsync).1.inv.rows
  have hlimit : t'.limit = 96 := by
    rw [Table.limit, (sync_same hsync).pcMode]
    rfl
  rw [← length_uses, length_uses_eq, hlimit] at hrows
  omega

/-- A track that is heard in a room. -/
def heardIn (room : String) : Cand := { solo .video with room }

/-- A track that is loaded from two rooms and moves to a third is loaded twice. -/
theorem moved_twice : ¬ RankDecides fun x cands x' kind =>
    x.poisoned = false ∧ KindsKept x.view cands ∧ x'.view.Spare kind := by
  intro h
  have hlegal : Shared.machine.Legal (.new .two 4)
      [.sync [heardIn "r", heardIn "s"] 1 [7, 8, 9, 10]] := by
    refine ⟨?_, trivial⟩
    show ((Shared.new .two 4).sync [heardIn "r", heardIn "s"] 1 [7, 8, 9, 10]).isSome = true
    decide
  have hsome : ((Shared.after .two 4
      [.sync [heardIn "r", heardIn "s"] 1 [7, 8, 9, 10]]).sync [heardIn "t"] 2 []).map
      (fun p => (p.1.midLimit, p.2.view.loadedTracks .video,
        decide (p.2.view.st.rows.length < p.2.view.limit))) =
      some (false, [("a", "t"), ("a", "t")], true) := by decide
  obtain ⟨⟨out, x'⟩, hsync, heq⟩ := Option.map_eq_some_iff.1 hsome
  obtain ⟨hlim, heq⟩ := Prod.mk.inj heq
  obtain ⟨htracks, hroom⟩ := Prod.mk.inj heq
  have hranked := h .two 4 _ [heardIn "t"] 2 [] out x' (by decide) hlegal (by decide) hsync hlim
    .video ⟨by decide, by decide, fun _ => of_decide_eq_true hroom⟩
  have hnodup := hranked.nodup
  rw [htracks] at hnodup
  exact absurd hnodup (by decide)

/-- A track that was video and is audio now gets no row. -/
theorem other_kind : ¬ RankDecides fun x _ x' kind =>
    x.poisoned = false ∧ x.view.IdsDiffer ∧ x'.view.Spare kind := by
  intro h
  have hlegal : Shared.machine.Legal (.new .two 4) [.sync [solo .video] 1 [7, 8]] := by
    refine ⟨?_, trivial⟩
    show ((Shared.new .two 4).sync [solo .video] 1 [7, 8]).isSome = true
    decide
  have hsome : ((Shared.after .two 4 [.sync [solo .video] 1 [7, 8]]).sync
      [solo .audio] 2 []).map
      (fun p => (p.1.midLimit, p.2.view.loadedTracks .audio,
        decide (p.2.view.st.rows.length < p.2.view.limit))) =
      some (false, [], true) := by decide
  obtain ⟨⟨out, x'⟩, hsync, heq⟩ := Option.map_eq_some_iff.1 hsome
  obtain ⟨hlim, heq⟩ := Prod.mk.inj heq
  obtain ⟨htracks, hroom⟩ := Prod.mk.inj heq
  have hids : (Shared.after .two 4 [.sync [solo .video] 1 [7, 8]]).view.IdsDiffer := by
    intro kind
    cases kind with
    | audio => decide
    | video => decide
  have hranked := h .two 4 _ [solo .audio] 2 [] out x' (by decide) hlegal (by decide) hsync hlim
    .audio ⟨by decide, hids, fun _ => of_decide_eq_true hroom⟩
  have hnumber := hranked.number
  rw [htracks] at hnumber
  exact absurd hnumber (by decide)

/-- Nothing is loaded once a seed has panicked. -/
theorem nothing_loaded : ¬ RankDecides fun x cands x' kind =>
    x.view.IdsDiffer ∧ KindsKept x.view cands ∧ x'.view.Spare kind := by
  intro h
  have hids : (Shared.after .two 4 [.seed [oddProfile] []]).view.IdsDiffer := by
    intro kind
    cases kind with
    | audio => decide
    | video => decide
  have hranked := h .two 4 [.seed [oddProfile] []] [solo .video] 1 [] {}
    (.after .two 4 [.seed [oddProfile] []]) (by decide) ⟨trivial, trivial⟩ (by decide) (by decide)
    rfl .video ⟨hids, by decide, fun _ => by decide⟩
  exact absurd hranked.number (by decide)

/-- **Rank alone does not decide**, and none of the four conditions can be left out. -/
theorem rank_not_decides :
    (¬ RankDecides fun _ _ _ _ => True) ∧
    (¬ RankDecides fun x cands _ _ =>
      x.poisoned = false ∧ x.view.IdsDiffer ∧ KindsKept x.view cands) ∧
    (¬ RankDecides fun x cands x' kind =>
      x.poisoned = false ∧ KindsKept x.view cands ∧ x'.view.Spare kind) ∧
    (¬ RankDecides fun x _ x' kind =>
      x.poisoned = false ∧ x.view.IdsDiffer ∧ x'.view.Spare kind) ∧
    ¬ RankDecides fun x cands x' kind =>
      x.view.IdsDiffer ∧ KindsKept x.view cands ∧ x'.view.Spare kind := by
  refine ⟨fun h => other_kind ?_, crowd_out, moved_twice, other_kind, nothing_loaded⟩
  intro pcMode slotBudget ops cands now draws out x' hbudget hlegal hone hsync hlim kind _
  exact h pcMode slotBudget ops cands now draws out x' hbudget hlegal hone hsync hlim kind trivial

end OxlensSfu.Sub
