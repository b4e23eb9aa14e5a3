import OxlensSfu.Sub.Invariant

/-!
# The forwarding lists

Each track has a list of the rows it is sent to, and so has the talk of a room. A resync of a peer
decides under the lock of the table which row carries what, and brings the lists up to date after
it has let the lock go, change by change (`apply_changes` in `crates/oxsfud/src/ops/media.rs`). So
the changes of two resyncs may reach a list in the other order.

What the lists are to become is told by the changes still to be applied, taken in the order in
which they were decided (`replay`). A change that reaches its lists in this order makes no
difference to that.
-/

namespace OxlensSfu.Sub

/-! ## The model -/

/-- A list of rows: that of a track, or that of the talk of a room. -/
inductive Dest where
  | stream (trackId : String)
  | slot (room : String) (kind : Kind)
  deriving DecidableEq, Repr

def destOf (cls : Class) (kind : Kind) (tr : Track) : Dest :=
  match cls with
  | .full => .stream tr.1
  | .slot => .slot tr.2 kind

def Row.dest (r : Row) : Option Dest := r.track.map (destOf r.cls r.kind)

def Change.oldDest (c : Change) : Option Dest := c.old.map (destOf c.cls c.kind)

def Change.newDest (c : Change) : Option Dest := c.new.map (destOf c.cls c.kind)

abbrev Lists := Dest → List Nat

/-- Takes row `mid` out of a list, if it is there to be found; `live` are the tracks and rooms that
are registered. -/
def takeOut (live : Dest → Bool) (l : Lists) (mid : Nat) : Option Dest → Lists
  | some d => if live d then Function.update l d ((l d).filter (· ≠ mid)) else l
  | none => l

def putIn (live : Dest → Bool) (l : Lists) (mid : Nat) : Option Dest → Lists
  | some d => if live d then Function.update l d (l d ++ [mid]) else l
  | none => l

/-- One round of `apply_changes`. -/
def applyChange (live : Dest → Bool) (l : Lists) (c : Change) : Lists :=
  putIn live (takeOut live l c.mid c.oldDest) c.mid c.newDest

/-- A peer whose table is being resynced: the calls under way, in the order of their syncs, each
with the changes it has yet to apply. -/
structure Resync where
  table : Table
  lists : Lists
  calls : List (List Change) := []

inductive Act where
  | sync (cands : List Cand) (now : Nat) (draws : List (BitVec 32))
  | apply (k : Nat)
  deriving DecidableEq

def Resync.next (live : Dest → Bool) (s : Resync) : Act → Resync
  | .sync cands now draws =>
    match s.table.sync cands now draws with
    | none => s
    | some (out, table) => { s with table, calls := s.calls ++ [out.changes] }
  | .apply k =>
    match s.calls[k]? with
    | some (c :: cs) =>
      { s with lists := applyChange live s.lists c, calls := s.calls.set k cs }
    | _ => s

/-- Any number of calls of `resync_peer` in any interleaving. -/
def resync (live : Dest → Bool) : Machine Resync Act where
  ok s
    | .sync cands now draws => (s.table.sync cands now draws).isSome
    | .apply k => s.calls[k]?.any (!·.isEmpty)
  next := Resync.next live

instance (live : Dest → Bool) (s : Resync) : (a : Act) → Decidable ((resync live).ok s a)
  | .sync _ _ _ => inferInstanceAs (Decidable (Option.isSome _ = true))
  | .apply _ => inferInstanceAs (Decidable (Option.any _ _ = true))

/-- All calls are done. -/
def Resync.Done (s : Resync) : Prop := ∀ cs ∈ s.calls, cs = []

instance (s : Resync) : Decidable s.Done := inferInstanceAs (Decidable (∀ cs ∈ s.calls, cs = []))

/-- How often row `mid` has to be in a list. -/
def expected (rows : List Row) (mid : Nat) (d : Dest) : Nat :=
  if rows.any fun r => r.mid = mid && r.dest = some d then 1 else 0

/-- The rows are in the lists of their tracks, once, and nowhere else. -/
def Agree (live : Dest → Bool) (t : Table) (l : Lists) : Prop :=
  ∀ mid d, live d → (l d).count mid = expected t.st.rows mid d

/-- The change takes its row out of the list or puts it in. -/
def Change.touches (c : Change) (d : Dest) : Prop := c.oldDest = some d ∨ c.newDest = some d

/-- A change is applied after all earlier ones of its row that touch one of its lists. -/
def InOrder (live : Dest → Bool) (s : Resync) : Act → Prop
  | .sync _ _ _ => True
  | .apply k => ∀ c cs, s.calls[k]? = some (c :: cs) →
      ∀ j < k, ∀ cs', s.calls[j]? = some cs' → ∀ c' ∈ cs', c'.mid = c.mid →
        ∀ d, live d → c.touches d → ¬ c'.touches d

/-! ## Replaying changes -/

/-- What a change makes of the number of times its row is in a list. -/
def opOn (mid : Nat) (d : Dest) (n : Nat) (c : Change) : Nat :=
  if c.mid = mid then
    (if c.oldDest = some d then 0 else n) + (if c.newDest = some d then 1 else 0)
  else n

def replay (mid : Nat) (d : Dest) (cs : List Change) (n : Nat) : Nat := cs.foldl (opOn mid d) n

theorem opOn_of_not_touches {mid : Nat} {d : Dest} {c : Change}
    (h : c.mid = mid → ¬ c.touches d) (n : Nat) : opOn mid d n c = n := by
  rw [opOn]
  by_cases hm : c.mid = mid
  · have ht := h hm
    rw [Change.touches, not_or] at ht
    rw [if_pos hm, if_neg ht.1, if_neg ht.2, Nat.add_zero]
  · rw [if_neg hm]

theorem replay_of_not_touches {mid : Nat} {d : Dest} {cs : List Change}
    (h : ∀ c ∈ cs, c.mid = mid → ¬ c.touches d) (n : Nat) : replay mid d cs n = n := by
  induction cs with
  | nil => rfl
  | cons c cs ih =>
    rw [replay, List.foldl_cons, opOn_of_not_touches (h c List.mem_cons_self)]
    exact ih fun x hx => h x (List.mem_cons_of_mem c hx)

theorem replay_append (mid : Nat) (d : Dest) (cs cs' : List Change) (n : Nat) :
    replay mid d (cs ++ cs') n = replay mid d cs' (replay mid d cs n) :=
  List.foldl_append ..

theorem count_takeOut (live : Dest → Bool) (l : Lists) (m mid : Nat) (o : Option Dest) {d : Dest}
    (hd : live d) : (takeOut live l m o d).count mid =
      if m = mid ∧ o = some d then 0 else (l d).count mid := by
  cases o with
  | none => simp [takeOut]
  | some e =>
    by_cases he : e = d
    · subst he
      rw [takeOut, if_pos hd, Function.update_self]
      by_cases hm : m = mid
      · rw [if_pos ⟨hm, rfl⟩]
        exact List.count_eq_zero.2 (by simp [hm])
      · rw [if_neg (fun h => hm h.1), List.count_filter (by simpa using Ne.symm hm)]
    · have hstay : takeOut live l m (some e) d = l d := by
        rw [takeOut]
        split_ifs
        · exact Function.update_of_ne (Ne.symm he) _ _
        · rfl
      rw [hstay, if_neg (by simpa using fun _ => he)]

theorem count_putIn (live : Dest → Bool) (l : Lists) (m mid : Nat) (o : Option Dest) {d : Dest}
    (hd : live d) : (putIn live l m o d).count mid =
      (l d).count mid + if m = mid ∧ o = some d then 1 else 0 := by
  cases o with
  | none => simp [putIn]
  | some e =>
    by_cases he : e = d
    · subst he
      rw [putIn, if_pos hd, Function.update_self, List.count_append, List.count_singleton]
      simp
    · have hstay : putIn live l m (some e) d = l d := by
        rw [putIn]
        split_ifs
        · exact Function.update_of_ne (Ne.symm he) _ _
        · rfl
      rw [hstay, if_neg (by simpa using fun _ => he)]
      rfl

/-- A change acts on the lists as it acts on the numbers. -/
theorem count_applyChange (live : Dest → Bool) (l : Lists) (c : Change) (mid : Nat) {d : Dest}
    (hd : live d) : (applyChange live l c d).count mid = opOn mid d ((l d).count mid) c := by
  rw [applyChange, count_putIn live _ _ _ _ hd, count_takeOut live _ _ _ _ hd, opOn]
  by_cases hm : c.mid = mid
  · simp [hm]
  · simp [hm]

/-! ## The changes of a sync -/

/-- Rows with distinct mids. -/
theorem expected_of_getElem? {t : Table} {s : State} (h : RowsLaw t s) {i : Nat} {r : Row}
    (hi : s.rows[i]? = some r) (d : Dest) :
    expected s.rows r.mid d = if r.dest = some d then 1 else 0 := by
  have hany : (s.rows.any fun q => q.mid = r.mid && q.dest = some d) = true ↔
      r.dest = some d := by
    rw [List.any_eq_true]
    refine ⟨?_, ?_⟩
    · rintro ⟨q, hq, hp⟩
      simp only [Bool.and_eq_true, decide_eq_true_eq] at hp
      obtain ⟨j, hj⟩ := List.mem_iff_getElem?.1 hq
      have hij : j = i := by
        have hmi := h.mids i r hi
        have hmj := h.mids j q hj
        omega
      subst hij
      obtain rfl : q = r := Option.some.inj (hj.symm.trans hi)
      exact hp.2
    · intro hd
      exact ⟨r, List.mem_of_getElem? hi, by simp [hd]⟩
  rw [expected, if_congr hany rfl rfl]

/-- The other rows do not depend on row `i`. -/
theorem expected_set_ne {rows : List Row} {i mid : Nat} {r r' : Row} (hi : rows[i]? = some r)
    (hmid : r'.mid = r.mid) (hne : r.mid ≠ mid) (d : Dest) :
    expected (rows.set i r') mid d = expected rows mid d := by
  have hlt : i < rows.length := (List.getElem?_eq_some_iff.1 hi).1
  have hany : ∀ q ∈ rows.set i r', (q.mid = mid → q ∈ rows) := by
    intro q hq hqm
    rcases List.mem_or_eq_of_mem_set hq with hq | rfl
    · exact hq
    · exact absurd (hmid.symm.trans hqm) hne
  have hback : ∀ q ∈ rows, (q.mid = mid → q ∈ rows.set i r') := by
    intro q hq hqm
    obtain ⟨j, hj⟩ := List.mem_iff_getElem?.1 hq
    have hij : i ≠ j := by
      rintro rfl
      obtain rfl : r = q := Option.some.inj (hi.symm.trans hj)
      exact hne hqm
    exact List.mem_of_getElem? (by rw [List.getElem?_set_ne hij, hj] : _ = some q)
  rw [expected, expected]
  refine if_congr ?_ rfl rfl
  simp only [List.any_eq_true, Bool.and_eq_true, decide_eq_true_eq]
  refine ⟨?_, ?_⟩
  · rintro ⟨q, hq, hqm, hqd⟩
    exact ⟨q, hany q hq hqm, hqm, hqd⟩
  · rintro ⟨q, hq, hqm, hqd⟩
    exact ⟨q, hback q hq hqm, hqm, hqd⟩

/-- One move of a sync, and the change it reports. -/
theorem expected_move {t : Table} {rev : Nat} {w w' : Work} (hlaw : RowsLaw t w.st)
    (hm : Move t rev w w') (mid : Nat) (d : Dest) :
    ∃ cs, w'.ch = w.ch ++ cs ∧
      replay mid d cs (expected w.st.rows mid d) = expected w'.st.rows mid d := by
  cases hm with
  | quiet hq => exact ⟨[], by rw [hq.ch, List.append_nil], by rw [hq.rows]; rfl⟩
  | grow r hg hroom =>
    refine ⟨[], by rw [hg.ch, List.append_nil], ?_⟩
    rw [hg.rows, expected, expected, List.any_append]
    simp [replay, Row.dest, hg.track]
  | tune i r r' ht =>
    refine ⟨[], by rw [ht.ch, List.append_nil], ?_⟩
    have hlaw' := hlaw.set ht.at_i ht.keeps ht.rows ht.ssrcs
    have hlt : i < w.st.rows.length := (List.getElem?_eq_some_iff.1 ht.at_i).1
    have hdest : r'.dest = r.dest := by
      rw [Row.dest, Row.dest, ht.track, ht.keeps.cls, ht.keeps.kind]
    show expected w.st.rows mid d = expected w'.st.rows mid d
    by_cases hmid : r.mid = mid
    · have hi' : w'.st.rows[i]? = some r' := by rw [ht.rows, List.getElem?_set_self hlt]
      rw [← hmid, expected_of_getElem? hlaw ht.at_i, ← ht.keeps.mid,
        expected_of_getElem? hlaw' hi', hdest]
    · rw [ht.rows, expected_set_ne ht.at_i ht.keeps.mid hmid]
  | swap i r r' hs =>
    refine ⟨_, hs.ch, ?_⟩
    have hlaw' := hlaw.set hs.at_i hs.swapped.toKeeps hs.rows hs.ssrcs
    have hlt : i < w.st.rows.length := (List.getElem?_eq_some_iff.1 hs.at_i).1
    rw [replay, List.foldl_cons, List.foldl_nil, opOn]
    by_cases hmid : r.mid = mid
    · have hi' : w'.st.rows[i]? = some r' := by rw [hs.rows, List.getElem?_set_self hlt]
      have hold : expected w.st.rows mid d = if r.dest = some d then 1 else 0 := by
        rw [← hmid, expected_of_getElem? hlaw hs.at_i]
      have hnew : expected w'.st.rows mid d = if r'.dest = some d then 1 else 0 := by
        rw [← hmid, ← hs.swapped.mid, expected_of_getElem? hlaw' hi']
      have hdest : r'.dest = r'.track.map (destOf r.cls r.kind) := by
        rw [Row.dest, hs.swapped.cls, hs.swapped.kind]
      rw [if_pos hmid, hold, hnew, hdest]
      show (if r.dest = some d then 0 else if r.dest = some d then 1 else 0) +
        (if r'.track.map (destOf r.cls r.kind) = some d then 1 else 0) = _
      by_cases hr : r.dest = some d
      · rw [if_pos hr, Nat.zero_add]
      · rw [if_neg hr, if_neg hr, Nat.zero_add]
    · rw [if_neg hmid, hs.rows, expected_set_ne hs.at_i hs.swapped.mid hmid]

/-- **The changes of a sync lead from the rows before it to the rows after it.** -/
theorem expected_sync {t t' : Table} {cands : List Cand} {now : Nat} {draws : List (BitVec 32)}
    {out : SyncOut} (hinv : Inv t) (h : t.sync cands now draws = some (out, t')) (mid : Nat)
    (d : Dest) :
    replay mid d out.changes (expected t.st.rows mid d) = expected t'.st.rows mid d := by
  rcases sync_moves h with ⟨rfl, -, hch, -⟩ | ⟨hpre, w, b, hslots⟩ | ⟨w, hmoves, heq⟩
  · rw [hch]
    rfl
  · exact absurd hslots (syncSlots_within hpre)
  · have hrun : replay mid d w.ch (expected t.st.rows mid d) = expected w.st.rows mid d := by
      clear heq h
      induction hmoves with
      | refl => rfl
      | tail hm hstep ih =>
        obtain ⟨cs, hch, hreplay⟩ := expected_move (hinv.rowsLaw.moves rfl hm) hstep mid d
        rw [hch, replay_append, ih, hreplay]
    rw [Table.finish] at heq
    obtain ⟨rfl, rfl⟩ := Prod.mk.inj heq
    rw [hrun]
    split_ifs
    · rfl
    · rfl

/-! ## Interleavings -/

/-- The lists, once the changes under way are applied in the order of the syncs, agree with the
table. -/
structure Pending (live : Dest → Bool) (s : Resync) : Prop where
  inv : Inv s.table
  settles : ∀ mid d, live d →
    replay mid d s.calls.flatten ((s.lists d).count mid) = expected s.table.st.rows mid d

theorem Pending.sync {live : Dest → Bool} {s : Resync} (h : Pending live s) {cands : List Cand}
    {now : Nat} {draws : List (BitVec 32)} (hok : (s.table.sync cands now draws).isSome) :
    Pending live (s.next live (.sync cands now draws)) := by
  obtain ⟨⟨out, t'⟩, hsync⟩ := Option.isSome_iff_exists.1 hok
  simp only [Resync.next, hsync]
  refine ⟨(sync_step h.inv hsync).1.inv, ?_⟩
  intro mid d hd
  rw [List.flatten_append, List.flatten_singleton, replay_append, h.settles mid d hd]
  exact expected_sync h.inv hsync mid d

theorem Pending.apply {live : Dest → Bool} {s : Resync} (h : Pending live s) {k : Nat}
    {c : Change} {cs : List Change} (hk : s.calls[k]? = some (c :: cs))
    (hord : InOrder live s (.apply k)) : Pending live (s.next live (.apply k)) := by
  obtain ⟨hlt, hget⟩ := List.getElem?_eq_some_iff.1 hk
  have hbefore : s.calls.flatten =
      (s.calls.take k).flatten ++ c :: (cs ++ (s.calls.drop (k + 1)).flatten) := by
    conv_lhs => rw [← List.take_append_drop k s.calls, List.drop_eq_getElem_cons hlt, hget]
    rw [List.flatten_append, List.flatten_cons, List.cons_append]
  have hafter : (s.calls.set k cs).flatten =
      (s.calls.take k).flatten ++ (cs ++ (s.calls.drop (k + 1)).flatten) := by
    rw [List.set_eq_take_append_cons_drop, if_pos hlt, List.flatten_append, List.flatten_cons]
  generalize cs ++ (s.calls.drop (k + 1)).flatten = rest at hbefore hafter
  simp only [Resync.next, hk]
  refine ⟨h.inv, ?_⟩
  intro mid d hd
  rw [← h.settles mid d hd, count_applyChange live s.lists c mid hd, hafter, hbefore,
    replay_append, replay_append]
  show _ = replay mid d rest (opOn mid d _ c)
  by_cases htouch : c.mid = mid ∧ c.touches d
  · -- Nothing before the change touches this list for its row.
    have hskip : ∀ n, replay mid d (s.calls.take k).flatten n = n := by
      refine replay_of_not_touches ?_
      intro c' hc' hm'
      obtain ⟨cs', hcs', hmem⟩ := List.mem_flatten.1 hc'
      obtain ⟨j, hj, rfl⟩ := List.getElem_of_mem hcs'
      rw [List.length_take] at hj
      refine hord c cs hk j (by omega) _ ?_ c' hmem (hm'.trans htouch.1.symm) d hd htouch.2
      rw [List.getElem_take]
      exact List.getElem?_eq_getElem (by omega)
    rw [hskip, hskip]
  · have hid : ∀ n, opOn mid d n c = n :=
      opOn_of_not_touches fun hm ht => htouch ⟨hm, ht⟩
    rw [hid, hid]

/-- **Where changes reach their lists in order, the lists agree with the table** once all calls
are done. -/
theorem lists_agree (live : Dest → Bool) (t : Table) (l : Lists) (acts : List Act) (ht : Inv t)
    (hl : Agree live t l)
    (hrun : ((resync live).restrict (InOrder live)).Legal { table := t, lists := l } acts)
    (hdone : ((resync live).exec { table := t, lists := l } acts).Done) :
    Agree live ((resync live).exec { table := t, lists := l } acts).table
      ((resync live).exec { table := t, lists := l } acts).lists := by
  have hpend : Pending live ((resync live).exec { table := t, lists := l } acts) := by
    rw [← Machine.restrict_exec _ (InOrder live)]
    refine Machine.invariant ?_ (⟨ht, hl⟩ : Pending live { table := t, lists := l }) hrun
    intro s a h hok
    cases a with
    | sync cands now draws => exact h.sync hok.1
    | apply k =>
      obtain ⟨hk, hord⟩ := hok
      obtain ⟨cs, hcs, hne⟩ := (Option.any_eq_true _ _).1 hk
      cases cs with
      | nil => simp at hne
      | cons c cs => exact h.apply hcs hord
  intro mid d hd
  rw [← hpend.settles mid d hd, List.flatten_eq_nil_iff.2 hdone]
  rfl

/-- A call is in order when those before it are done. -/
theorem inOrder_of_done {live : Dest → Bool} {s : Resync} {k : Nat}
    (h : (s.calls.take k).all (·.isEmpty) = true) : InOrder live s (.apply k) := by
  intro c cs _ j hj cs' hcs' c' hc'
  have hmem : cs' ∈ s.calls.take k :=
    List.mem_of_getElem? (by rw [List.getElem?_take_of_lt hj, hcs'] : _ = some cs')
  have hnil := List.all_eq_true.1 h cs' hmem
  rw [List.isEmpty_iff.1 hnil] at hc'
  simp at hc'

/-- The voice of one user. -/
def voice (trackId : String) : Cand := ⟨trackId, "a", .audio, .full, "opus", 0, false⟩

/-- Two resyncs: the first loads one voice, the second gives its row to another. -/
def twoResyncs : List Act := [.sync [voice "x"] 1 [7], .sync [voice "y"] 2 []]

theorem lists_agree_two_resyncs :
    Agree (fun _ => true)
      ((resync fun _ => true).exec { table := Table.new .two 40, lists := fun _ => [] }
        (twoResyncs ++ [.apply 0, .apply 1, .apply 1])).table
      ((resync fun _ => true).exec { table := Table.new .two 40, lists := fun _ => [] }
        (twoResyncs ++ [.apply 0, .apply 1, .apply 1])).lists := by
  refine lists_agree _ _ _ _ (inv_new .two 40) (fun _ _ _ => rfl) ?_ (by decide)
  exact ⟨⟨by decide, trivial⟩, ⟨by decide, trivial⟩, ⟨by decide, inOrder_of_done (by decide)⟩,
    ⟨by decide, inOrder_of_done (by decide)⟩, ⟨by decide, inOrder_of_done (by decide)⟩, trivial⟩

/-- The second resync reaches the lists first: the row is left in the list of the first voice. -/
theorem lists_disagree : ¬ ∀ live t l acts, Inv t → Agree live t l →
    (resync live).Legal { table := t, lists := l } acts →
    ((resync live).exec { table := t, lists := l } acts).Done →
    Agree live ((resync live).exec { table := t, lists := l } acts).table
      ((resync live).exec { table := t, lists := l } acts).lists := by
  intro h
  have hrun := h (fun _ => true) (Table.new .two 40) (fun _ => [])
    (twoResyncs ++ [.apply 1, .apply 1, .apply 0]) (inv_new .two 40) (fun _ _ _ => rfl)
    (by decide) (by decide)
  exact absurd (hrun 0 (.stream "x") rfl) (by decide)

end OxlensSfu.Sub
