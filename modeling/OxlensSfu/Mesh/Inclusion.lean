import OxlensSfu.Mesh.KeyExpr

/-!
# When one key expression includes another

`includes` (`crates/oxmesh/src/keyexpr.rs`) goes along both expressions like `intersects`, but it
takes the wildcards of the left one only: a `**` on the right is passed by a `**` on the left or
not at all. So it may miss an inclusion, as of `**/*` in `*/**`. What it finds is one, and against
a right side without wildcards it misses nothing.

The one key that this has to be seen for is the empty rest of the right side, at which the loop
gives up: a `**` that something follows does not match it, because what follows is no second `**`.

**Theorem (`includes_exact`).** On valid expressions the function ends. What it includes is matched,
key by key, and a key is included exactly when it is matched, which is when the two intersect.
-/

namespace OxlensSfu.Mesh

open Glob

/-- The loop of `includes`. Rounds that run out are told from an answer. -/
def includesWithin : Nat → Bool → List Char → List Char → Option Bool
  | 0, _, _, _ => none
  | n + 1, called, l, r =>
    if called ∧ l = r then some true
    else
      let (lc, lr) := nextChunk l
      if lc = ['*', '*'] then
        if lr = [] then some true
        else do
          if ← includesWithin n true lr r then some true
          else
            let r := (nextChunk r).2
            if r = [] then some false else includesWithin n false l r
      else
        let (rc, rr) := nextChunk r
        if rc = [] ∨ rc = ['*', '*'] ∨ ¬ (lc = rc ∨ lc = ['*']) then some false
        else if lr = [] then some (rr = [])
        else includesWithin n false lr rr

/-- Each round takes a chunk away, as in `intersects`. -/
def includes (l r : String) : Bool :=
  (includesWithin (l.toList.length + r.toList.length + 1) true l.toList r.toList).getD false

/-! ## Expressions without wildcards -/

/-- None of the chunks has a star. -/
def Plain (cs : List (List Char)) : Prop := ∀ c ∈ cs, '*' ∉ c

theorem Plain.tail {c : List Char} {cs : List (List Char)} (h : Plain (c :: cs)) : Plain cs :=
  fun d hd => h d (List.mem_cons_of_mem c hd)

theorem ne_star {c : List Char} (h : '*' ∉ c) : c ≠ ['*'] ∧ c ≠ ['*', '*'] := by
  constructor
  · rintro rfl
    exact h (by decide)
  · rintro rfl
    exact h (by decide)

/-- As a pattern, such an expression is the word of its chunks. -/
theorem Plain.pattern {cs : List (List Char)} (h : Plain cs) : pattern cs = cs.map .lit := by
  refine List.map_congr_left fun c hc => ?_
  obtain ⟨hone, hmany⟩ := ne_star (h c hc)
  rw [piece, if_neg hone, if_neg hmany]

theorem Plain.letter {cs : List (List Char)} (h : Plain cs) (hcs : Chunks cs) :
    ∀ c ∈ cs, Letter c :=
  fun c hc => ⟨hcs.ne_nil c hc, hcs.no_slash c hc, ne_star (h c hc)⟩

theorem mem_splitOn {c : List Char} {s : List Char} (hc : c ∈ s.splitOn '/') {x : Char}
    (hx : x ∈ c) : x ∈ s := by
  induction s generalizing c with
  | nil =>
    rw [List.splitOn_nil, List.mem_singleton] at hc
    exact absurd (hc ▸ hx) List.not_mem_nil
  | cons y s ih =>
    rw [List.splitOn_cons_eq_if_modifyHead] at hc
    split_ifs at hc with hy
    · rcases List.mem_cons.mp hc with rfl | hc
      · exact absurd hx List.not_mem_nil
      · exact List.mem_cons_of_mem y (ih hc hx)
    · cases hs : s.splitOn '/' with
      | nil => exact absurd hs (List.splitOn_ne_nil _ _)
      | cons d ds =>
        rw [hs, List.modifyHead_cons] at hc
        rcases List.mem_cons.mp hc with rfl | hc
        · rcases List.mem_cons.mp hx with rfl | hx
          · exact List.mem_cons_self
          · exact List.mem_cons_of_mem y (ih (hs ▸ List.mem_cons_self) hx)
        · exact List.mem_cons_of_mem y (ih (hs ▸ List.mem_cons_of_mem d hc) hx)

theorem plain_of_concrete {e : String} (h : concrete e = true) : Plain (e.toList.splitOn '/') := by
  intro c hc hx
  have hstar : '*' ∈ e.toList := mem_splitOn hc hx
  rw [concrete, Bool.not_eq_true', List.contains_eq_mem, decide_eq_false_iff_not] at h
  exact h hstar

/-! ## One round -/

variable {c d : List Char} {cs ds : List (List Char)}

/-- The left chunk stands for everything the right one stands for. -/
theorem fits_of_fits (hc : c ≠ ['*', '*']) (hcd : c = d ∨ c = ['*']) :
    ∀ a, Fits (piece d) a → Fits (piece c) a := by
  rintro a ha
  rcases hcd with rfl | rfl
  · exact ha
  · exact trivial

/-- A chunk of the left side and one without a wildcard. -/
theorem fits_iff_eq (hc : c ≠ ['*', '*']) : Fits (piece c) d ↔ c = d ∨ c = ['*'] := by
  rw [piece]
  split_ifs with hone
  · exact iff_of_true trivial (.inr hone)
  · simp [Fits, hone]

/-- What follows a `**` does not match the empty rest. -/
theorem not_matches_nil (h : Chunks (['*', '*'] :: cs)) (hne : cs ≠ []) :
    ¬ Matches (pattern cs) [] := by
  rw [matches_nil_iff]
  intro hall
  cases cs with
  | nil => exact hne rfl
  | cons c cs =>
    have hc : c = ['*', '*'] := piece_eq_many.mp (hall (piece c) List.mem_cons_self)
    exact (List.isChain_cons_cons.mp h.single).1 ⟨rfl, hc⟩

/-- What the answer for these chunks is good for. -/
structure Tells (cs ds : List (List Char)) (b : Bool) : Prop where
  sound : b = true → Includes (pattern cs) (pattern ds)
  complete : Plain ds → Matches (pattern cs) ds → b = true

theorem tells_true (h : Includes (pattern cs) (pattern ds)) : Tells cs ds true :=
  ⟨fun _ => h, fun _ _ => rfl⟩

theorem tells_false (h : Plain ds → ¬ Matches (pattern cs) ds) : Tells cs ds false :=
  ⟨nofun, fun hp hm => absurd hm (h hp)⟩

/-- A `**` on the left and the end of the right. -/
theorem Tells.stop (h : Chunks (['*', '*'] :: cs)) (hne : cs ≠ []) {b : Bool}
    (ha : Tells cs ds b) (hds : ds.length ≤ 1) : Tells (['*', '*'] :: cs) ds b where
  sound hb := (ha.sound hb).skip
  complete hp hm := by
    have hstar : pattern (['*', '*'] :: cs) = .many :: pattern cs := rfl
    rw [hstar] at hm
    cases hm with
    | stop hm => exact ha.complete hp hm
    | more hm =>
      rename_i l
      obtain rfl : l = [] := List.length_eq_zero_iff.mp (by simpa using hds)
      cases hm with
      | stop hm => exact absurd hm (not_matches_nil h hne)

/-- A `**` on the left that takes the next chunk of the right. -/
theorem Tells.take {b : Bool} (hskip : Tells cs (d :: ds) false)
    (ha : Tells (['*', '*'] :: cs) ds b) : Tells (['*', '*'] :: cs) (d :: ds) b where
  sound hb := (ha.sound hb).take
  complete hp hm := by
    rcases matches_many_cons.mp hm with hm | hm
    · exact absurd (hskip.complete hp hm) nofun
    · exact ha.complete hp.tail hm

/-- Two chunks that are taken together. -/
theorem Tells.cons {b : Bool} (hc : c ≠ ['*', '*']) (hd : d ≠ ['*', '*'])
    (hcd : c = d ∨ c = ['*']) (ha : Tells cs ds b) : Tells (c :: cs) (d :: ds) b where
  sound hb := (ha.sound hb).cons (mt piece_eq_many.mp hc) (mt piece_eq_many.mp hd)
    (fits_of_fits hc hcd)
  complete hp hm := by
    obtain ⟨a, m, he, -, hm⟩ := (matches_cons (mt piece_eq_many.mp hc)).mp hm
    obtain ⟨-, rfl⟩ := List.cons.inj he
    exact ha.complete hp.tail hm

/-! ## The loop -/

theorem nextChunk_eq_nil (h : Chunks ds) : (nextChunk (render ds)).2 = [] ↔ ds.length ≤ 1 := by
  match ds, h with
  | [], _ => exact iff_of_true rfl (Nat.zero_le 1)
  | d :: ds, h =>
    rw [nextChunk_render h, render_eq_nil h.tail, ← List.length_eq_zero_iff, List.length_cons]
    omega

/-- The right side when a chunk of it is taken. -/
theorem taken (h : Chunks ds) (hgo : ¬ ((nextChunk (render ds)).1 = [] ∨
      (nextChunk (render ds)).1 = ['*', '*'] ∨
        ¬ (c = (nextChunk (render ds)).1 ∨ c = ['*']))) :
    ∃ d ds', ds = d :: ds' ∧ d ≠ ['*', '*'] ∧ (c = d ∨ c = ['*']) := by
  match ds, h with
  | [], _ => exact absurd (.inl rfl) hgo
  | d :: ds, h =>
    rw [nextChunk_render h] at hgo
    exact ⟨d, ds, rfl, fun hd => hgo (.inr (.inl hd)),
      by_contra fun hcd => hgo (.inr (.inr hcd))⟩

/-- **With rounds enough the loop has an answer, and it is a good one.** -/
theorem includesWithin_tells {n : Nat} : ∀ {cs ds : List (List Char)} (called : Bool), Chunks cs →
    Chunks ds → cs ≠ [] → (render cs).length + (render ds).length < n →
    ∃ b, includesWithin n called (render cs) (render ds) = some b ∧ Tells cs ds b := by
  induction n with
  | zero => exact fun _ _ _ _ hn => absurd hn (Nat.not_lt_zero _)
  | succ n ih =>
    intro cs ds called hcs hds hne hn
    obtain ⟨c, cs, rfl⟩ := List.exists_cons_of_ne_nil hne
    have hlc := length_render hcs
    rw [includesWithin, nextChunk_render hcs]
    dsimp only
    split_ifs with hsame hmany hlast hend hstop hlast
    · obtain rfl := render_injective hcs hds hsame.2
      exact ⟨true, rfl, tells_true (.refl _)⟩
    · subst hmany
      obtain rfl := (render_eq_nil hcs.tail).mp hlast
      exact ⟨true, rfl, tells_true (includes_any _)⟩
    · subst hmany
      have hcs' : cs ≠ [] := mt (render_eq_nil hcs.tail).mpr hlast
      obtain ⟨b, hb, hskip⟩ := ih true hcs.tail hds hcs' (by omega)
      rw [hb]
      cases b with
      | true => exact ⟨true, rfl, tells_true (hskip.sound rfl).skip⟩
      | false => exact ⟨false, rfl, hskip.stop hcs hcs' ((nextChunk_eq_nil hds).mp hend)⟩
    · subst hmany
      have hcs' : cs ≠ [] := mt (render_eq_nil hcs.tail).mpr hlast
      obtain ⟨b, hb, hskip⟩ := ih true hcs.tail hds hcs' (by omega)
      rw [hb]
      cases b with
      | true => exact ⟨true, rfl, tells_true (hskip.sound rfl).skip⟩
      | false =>
        match ds, hds with
        | [], _ => exact absurd rfl hend
        | d :: ds, hds =>
          have hld := length_render hds
          rw [nextChunk_render hds] at hend ⊢
          obtain ⟨b, hb, htake⟩ := ih false hcs hds.tail (List.cons_ne_nil _ _) (by omega)
          exact ⟨b, hb, hskip.take htake⟩
    · refine ⟨false, rfl, tells_false fun hp hm => ?_⟩
      -- The chunks do not fit, as the one on the right is no wildcard here.
      obtain ⟨d, m, rfl, hfit, -⟩ := (matches_cons (mt piece_eq_many.mp hmany)).mp hm
      rw [nextChunk_render hds] at hstop
      rcases hstop with h | h | h
      · exact hds.ne_nil d List.mem_cons_self h
      · exact (ne_star (hp d List.mem_cons_self)).2 h
      · exact h ((fits_iff_eq hmany).mp hfit)
    · obtain ⟨d, ds, rfl, hd, hcd⟩ := taken hds hstop
      rw [nextChunk_render hds]
      obtain rfl := (render_eq_nil hcs.tail).mp hlast
      refine ⟨_, rfl, Tells.cons hmany hd hcd ?_⟩
      by_cases hnil : ds = []
      · subst hnil
        exact tells_true (.refl _)
      · rw [decide_eq_false (mt (render_eq_nil hds.tail).mp hnil)]
        refine tells_false fun _ hm => hnil ?_
        cases hm
        rfl
    · obtain ⟨d, ds, rfl, hd, hcd⟩ := taken hds hstop
      have hld := length_render hds
      have hcs' : cs ≠ [] := mt (render_eq_nil hcs.tail).mpr hlast
      obtain ⟨b, hb, hrest⟩ := ih false hcs.tail hds.tail hcs' (by omega)
      rw [nextChunk_render hds]
      exact ⟨b, hb, hrest.cons hmany hd hcd⟩

/-- More rounds than enough change nothing. -/
theorem includesWithin_mono {n : Nat} : ∀ {m : Nat} {called : Bool} {l r : List Char} {b : Bool},
    n ≤ m → includesWithin n called l r = some b → includesWithin m called l r = some b := by
  induction n with
  | zero => exact fun _ h => nomatch h
  | succ n ih =>
    intro m called l r b hm h
    obtain ⟨m, rfl⟩ : ∃ k, m = k + 1 := ⟨m - 1, by omega⟩
    have hm : n ≤ m := by omega
    rw [includesWithin] at h ⊢
    dsimp only at h ⊢
    split_ifs at h ⊢ with hsame hmany hlast hrest hstop hlast
    · exact h
    · exact h
    · cases hin : includesWithin n true (nextChunk l).2 r with
      | none => simp [hin] at h
      | some x =>
        rw [hin] at h
        rw [ih hm hin]
        exact h
    · cases hin : includesWithin n true (nextChunk l).2 r with
      | none => simp [hin] at h
      | some x =>
        rw [hin] at h
        rw [ih hm hin]
        cases x with
        | true => exact h
        | false => exact ih hm h
    · exact h
    · exact h
    · exact ih hm h

/-! ## What it finds -/

/-- A key is matched exactly when the expression intersects it. -/
theorem intersects_iff_stands {e k : String} (he : valid e = true) (hk : valid k = true)
    (hc : concrete k = true) : intersects e k = true ↔ Stands e k := by
  obtain ⟨hcs, hcr⟩ := valid_spec he
  obtain ⟨hds, hdr⟩ := valid_spec hk
  have hplain := plain_of_concrete hc
  have hloop := intersectsLoop_iff true hcs hds
    (n := (render (e.toList.splitOn '/')).length + (render (k.toList.splitOn '/')).length + 1)
    (Nat.lt_succ_self _)
  rw [hplain.pattern, meets_word (hplain.letter hds), hcr, hdr] at hloop
  exact hloop

/-- **The inclusion is sound, and exact on keys.** -/
theorem includes_exact {l r : String} (hl : valid l = true) (hr : valid r = true) :
    (∃ n, ∀ m ≥ n, includesWithin m true l.toList r.toList = some (includes l r)) ∧
      (includes l r = true → ∀ k, Stands r k → Stands l k) ∧
      (concrete r = true → (includes l r = true ↔ Stands l r) ∧
        (includes l r = true ↔ intersects l r = true)) := by
  obtain ⟨hcs, hcr⟩ := valid_spec hl
  obtain ⟨hds, hdr⟩ := valid_spec hr
  obtain ⟨b, hb, htells⟩ := includesWithin_tells true hcs hds (List.splitOn_ne_nil _ _)
    (Nat.lt_succ_self _)
  rw [hcr, hdr] at hb
  have hval : includes l r = b := by rw [includes, hb, Option.getD_some]
  rw [hval]
  refine ⟨⟨_, fun m hm => includesWithin_mono hm hb⟩, fun h k => htells.sound h _, fun hc => ?_⟩
  have hplain := plain_of_concrete hc
  have hstands : b = true ↔ Stands l r := by
    constructor
    · intro h
      have hincl := htells.sound h
      rw [hplain.pattern, includes_word] at hincl
      exact hincl
    · exact htells.complete hplain
  exact ⟨hstands, hstands.trans (intersects_iff_stands hl hr hc).symm⟩

theorem includes_exact_both :
    (∀ k, Stands "a/**/c/*" k → Stands "a/**/*" k) ∧
      (includes "a/**" "a/b" = true ↔ intersects "a/**" "a/b" = true) :=
  ⟨(includes_exact (by decide) (by decide)).2.1 (by decide),
    ((includes_exact (by decide) (by decide)).2.2 (by decide)).2⟩

end OxlensSfu.Mesh
