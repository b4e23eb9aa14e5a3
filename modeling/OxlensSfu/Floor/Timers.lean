import OxlensSfu.Floor.Queue

/-!
# The floor frees itself

Left alone, the floor runs on its timers, and these start one another: succession resets T20 and
T21, revocation starts T8, the expiry of T2 arms T9. The measure that falls is lexicographic. First
comes how far the room is from idle (`Floor.distance`), which T1, T2 and T3 lower; then what is
left of the retransmissions (`Floor.backlog`), which the others lower without touching the first.
-/

namespace OxlensSfu.Flr

open Std

/-- The floor when nobody does anything: only armed timers fire. -/
def timers : Machine Floor Op := machine.restrict fun _ o => o.isTimer = true

/-! ## The measure -/

/-- Each waiter is granted the floor and may be revoked before the next one has it. -/
def Floor.distance (f : Floor) : Nat :=
  2 * f.queue.length + match f.g with
    | .idle => 0
    | .prevoke => 1
    | .taken => 2

/-- The expiries of T8, T9 and T21 that are left to a user. -/
def Part.backlog (p : Part) : Nat :=
  (if p.part = some .prevoke ∨ p.part = some .npSends then Cap.c8 - p.c8 else 0) +
  (if p.retry then 1 else 0) +
  (if p.part = some .npTaken ∧ 1 ≤ p.c21 then Cap.c21 + 1 - p.c21 else 0)

/-- The expiries that are left to all users. -/
def Floor.partsBacklog (f : Floor) : Nat := ∑ u ∈ f.parts.keys.toFinset, (f.part u).backlog

/-- The expiries of T7 and T20 that are left, and those of all users. -/
def Floor.backlog (f : Floor) : Nat :=
  (Cap.c7 - f.c7) + (Cap.c20 + 1 - f.c20) + f.partsBacklog

theorem part_of_not_mem {f : Floor} {u : String} (h : u ∉ f.parts) : f.part u = {} := by
  rw [Floor.part, TreeMap.getD_eq_fallback h]

/-- Users without a record have nothing left, so they may be counted or not. -/
theorem Floor.partsBacklog_eq (f : Floor) {S : Finset String} (h : f.parts.keys.toFinset ⊆ S) :
    f.partsBacklog = ∑ u ∈ S, (f.part u).backlog := by
  refine Finset.sum_subset h ?_
  intro u _ hu
  rw [part_of_not_mem (by simpa using hu)]
  rfl

theorem partsBacklog_le (f f' : Floor) (h : ∀ u, (f'.part u).backlog ≤ (f.part u).backlog) :
    f'.partsBacklog ≤ f.partsBacklog := by
  let S := f.parts.keys.toFinset ∪ f'.parts.keys.toFinset
  rw [f.partsBacklog_eq (S := S) Finset.subset_union_left,
    f'.partsBacklog_eq (S := S) Finset.subset_union_right]
  exact Finset.sum_le_sum fun u _ => h u

theorem partsBacklog_lt (f f' : Floor) {u : String} (hu : u ∈ f.parts)
    (hlt : (f'.part u).backlog < (f.part u).backlog)
    (h : ∀ x, (f'.part x).backlog ≤ (f.part x).backlog) :
    f'.partsBacklog < f.partsBacklog := by
  let S := f.parts.keys.toFinset ∪ f'.parts.keys.toFinset
  rw [f.partsBacklog_eq (S := S) Finset.subset_union_left,
    f'.partsBacklog_eq (S := S) Finset.subset_union_right]
  refine Finset.sum_lt_sum (fun x _ => h x) ⟨u, ?_, hlt⟩
  exact Finset.mem_union_left _ (by simpa using hu)

/-! ## Hearing of something leaves less to send -/

/-- A user that hears that the floor is granted to it or idle is no longer retransmitted to. -/
theorem Part.hear_backlog {t : Mt} (ht : t = .granted ∨ t = .idle) (n : Nat) (p : Part) :
    (p.hear t n).backlog ≤ p.backlog := by
  rcases ht with rfl | rfl <;> rcases hp : p.part with _ | (_ | _ | _ | _ | _ | _) <;>
    simp [Part.hear, hp, Part.enter, Part.backlog]

theorem View.hear_backlog {v : View} (u x : String) (n : Nat) :
    ((v.hear u .granted n).part x).backlog ≤ (v.part x).backlog := by
  by_cases hx : x = u
  · subst hx
    rw [View.hear, View.upd_part_self]
    exact Part.hear_backlog (.inl rfl) n _
  · rw [View.hear, View.upd_part_ne _ _ hx]

theorem View.hearAll_backlog {v : View} (skip : Option String) (x : String) :
    ((v.hearAll .idle 0 skip).part x).backlog ≤ (v.part x).backlog := by
  rw [View.hearAll]
  dsimp only
  split_ifs
  · exact Part.hear_backlog (.inr rfl) 0 _
  · exact Nat.le_refl _

/-! ## Every timer lowers the measure -/

theorem idleEnter_distance (s : St) (hg : s.fl.g ≠ .idle) :
    s.idleEnter.fl.distance < s.fl.distance := by
  cases hq : s.fl.queue with
  | nil =>
    obtain ⟨⟨P, q, e⟩, -⟩ := St.idleEnter_fl_nil hq
    rw [e]
    cases h : s.fl.g <;> simp_all [Floor.distance]
  | cons w ws =>
    obtain ⟨⟨P, q, e⟩, -⟩ := St.idleEnter_fl_cons hq
    rw [e]
    cases h : s.fl.g <;> simp_all [Floor.distance]
    all_goals omega

theorem t1_distance (f : Floor) (h : .T1 ∈ f.armedServer) : f.t1.fl.distance < f.distance := by
  have hg : f.g ≠ .idle := mem_armedServer.1.1 h
  rw [Floor.t1]
  split_ifs <;> exact idleEnter_distance (St.setPrev _ _) hg

theorem t3_distance (f : Floor) (h : .T3 ∈ f.armedServer) : f.t3.fl.distance < f.distance := by
  have hg : f.g = .prevoke := mem_armedServer.2.2.1.1 h
  refine idleEnter_distance ((f.start.label "FLR.S.G.PREVOKE.T3").setPrev f.revoking) ?_
  rw [show St.fl _ = { f with prev := f.revoking } from rfl]
  simp [hg]

theorem t2_distance (f : Floor) (h : .T2 ∈ f.armedServer) : f.t2.fl.distance < f.distance := by
  have hg : f.g = .taken := (mem_armedServer.2.1.1 h).1
  obtain ⟨⟨P, q, e⟩, -⟩ := St.prevokeEnter_fl ((f.start.label "FLR.S.G.TAKEN.T2").p
    (f.speaker.getD "") fun p => { p with retry := true }) (f.speaker.getD "") Revoke.tooLong
  rw [Floor.t2, e]
  simp [Floor.distance, hg, St.p, St.label, Floor.start]

/-- The measure falls, in its second part. -/
def Floor.Lowers (f f' : Floor) : Prop := f'.distance = f.distance ∧ f'.backlog < f.backlog

theorem t7_lowers (f : Floor) (h : .T7 ∈ f.armedServer) : f.Lowers f.t7.fl := by
  obtain ⟨-, -, hc⟩ := mem_armedServer.2.2.2.1.1 h
  let s : St := { f.start.label "FLR.S.G.IDLE.T7" with fl := { f with c7 := f.c7 + 1 } }
  have hview : f.t7.view = s.view.hearAll .idle 0 none := St.view_fan s _ none
  have hparts : f.t7.fl.partsBacklog ≤ f.partsBacklog := partsBacklog_le _ _ fun u => by
    rw [show f.t7.fl.part = (s.view.hearAll .idle 0 none).part from congrArg View.part hview]
    exact View.hearAll_backlog none u
  obtain ⟨⟨P, q, e⟩, -⟩ := St.Same.fan s { t := .idle, a := f.prev } none
  have hfl : f.t7.fl = { f with c7 := f.c7 + 1, parts := P, seq := q } := e
  have hc7 : f.t7.fl.c7 = f.c7 + 1 := by rw [hfl]
  have hc20 : f.t7.fl.c20 = f.c20 := by rw [hfl]
  refine ⟨by rw [hfl]; rfl, ?_⟩
  rw [Floor.backlog, Floor.backlog, hc7, hc20]
  omega

theorem t20_lowers (f : Floor) (h : .T20 ∈ f.armedServer) : f.Lowers f.t20.fl := by
  obtain ⟨-, -, -, hc⟩ := mem_armedServer.2.2.2.2.1 h
  rw [Floor.t20]
  split_ifs
  · let s : St := { f.start.label "FLR.S.G.TAKEN.T20" with fl := { f with c20 := f.c20 + 1 } }
    let ev : Msg := { t := .granted, n := f.sprio, d := f.t2Full }
    let s' := s.partA (f.speaker.getD "") ev
    show f.Lowers s'.fl
    have hview : s'.view = s.view.hear (f.speaker.getD "") .granted f.sprio := St.view_partA s _ ev
    have hparts : s'.fl.partsBacklog ≤ f.partsBacklog := partsBacklog_le _ _ fun u => by
      rw [show s'.fl.part = (s.view.hear (f.speaker.getD "") .granted f.sprio).part from
        congrArg View.part hview]
      exact View.hear_backlog _ u _
    obtain ⟨⟨P, q, e⟩, -⟩ := St.Same.partA s (f.speaker.getD "") ev
    have hfl : s'.fl = { f with c20 := f.c20 + 1, parts := P, seq := q } := e
    have hc7 : s'.fl.c7 = f.c7 := by rw [hfl]
    have hc20 : s'.fl.c20 = f.c20 + 1 := by rw [hfl]
    refine ⟨by rw [hfl]; rfl, ?_⟩
    rw [Floor.backlog, Floor.backlog, hc7, hc20]
    omega
  · refine ⟨rfl, ?_⟩
    show Cap.c7 - f.c7 + (Cap.c20 + 1 - (f.c20 + 1)) + f.partsBacklog < _
    rw [Floor.backlog]
    omega

/-- A timer of `u` that changes only the record of `u`, and lowers what is left to it. -/
theorem record_lowers {f : Floor} {s : St} {u : String} {k : Part → Part} (hu : u ∈ f.parts)
    (hfl : ∃ q, s.fl = { f with parts := f.parts.insert u (k (f.part u)), seq := q })
    (hlt : (k (f.part u)).backlog < (f.part u).backlog) : f.Lowers s.fl := by
  obtain ⟨q, e⟩ := hfl
  have hpart : s.fl.part = Function.update f.part u (k (f.part u)) := by
    rw [e]
    exact St.part_insert f u _
  have hparts : s.fl.partsBacklog < f.partsBacklog := by
    refine partsBacklog_lt f s.fl hu ?_ ?_
    · rw [hpart, Function.update_self]
      exact hlt
    · intro x
      rw [hpart]
      by_cases hx : x = u
      · subst hx
        rw [Function.update_self]
        exact hlt.le
      · rw [Function.update_of_ne hx]
  have hc7 : s.fl.c7 = f.c7 := by rw [e]
  have hc20 : s.fl.c20 = f.c20 := by rw [e]
  refine ⟨by rw [e]; rfl, ?_⟩
  rw [Floor.backlog, Floor.backlog, hc7, hc20]
  omega

/-- When the timers of a user are armed. -/
theorem mem_armedParticipant {f : Floor} {u : String} {t : Timer}
    (h : t ∈ f.armedParticipant u) :
    u ∈ f.parts ∧
      ((t = .T8 ∧ ((f.part u).part = some .prevoke ∨ (f.part u).part = some .npSends) ∧
        (f.part u).c8 < Cap.c8) ∨
      (t = .T9 ∧ (f.part u).retry = true) ∨
      (t = .T21 ∧ (f.part u).part = some .npTaken ∧ 1 ≤ (f.part u).c21 ∧
        (f.part u).c21 ≤ Cap.c21)) := by
  rw [Floor.armedParticipant] at h
  cases hp : f.parts[u]? with
  | none => simp [hp] at h
  | some p =>
    have hpart : f.part u = p := by rw [Floor.part, TreeMap.getD_eq_getD_getElem?, hp]; rfl
    have hmem : u ∈ f.parts := by
      rw [TreeMap.mem_iff_isSome_getElem?, hp]
      rfl
    rw [hp] at h
    rw [hpart]
    refine ⟨hmem, ?_⟩
    simp only [List.mem_append, List.mem_ite_nil_right, List.mem_singleton] at h
    rcases h with (⟨hc, rfl⟩ | ⟨hc, rfl⟩) | ⟨hc, rfl⟩
    · exact .inl ⟨rfl, hc⟩
    · exact .inr (.inl ⟨rfl, hc⟩)
    · exact .inr (.inr ⟨rfl, hc⟩)

theorem t8_lowers (f : Floor) (u : String) (h : .T8 ∈ f.armedParticipant u) :
    f.Lowers (f.t8 u).fl := by
  obtain ⟨hu, hc⟩ := mem_armedParticipant h
  obtain ⟨hp, hc⟩ : ((f.part u).part = some .prevoke ∨ (f.part u).part = some .npSends) ∧
      (f.part u).c8 < Cap.c8 := by simpa using hc
  refine record_lowers (k := fun p => { p with c8 := p.c8 + 1 }) hu ⟨(f.t8 u).fl.seq, ?_⟩ ?_
  · rw [Floor.t8]
    split_ifs <;> rfl
  · rcases hp with hp | hp <;> simp [Part.backlog, hp] <;> omega

theorem t9_lowers (f : Floor) (u : String) (h : .T9 ∈ f.armedParticipant u) :
    f.Lowers (f.t9 u).fl := by
  obtain ⟨hu, hc⟩ := mem_armedParticipant h
  have hr : (f.part u).retry = true := by simpa using hc
  refine record_lowers (k := fun p => { p with retry := false }) hu ⟨f.seq, rfl⟩ ?_
  simp [Part.backlog, hr]

theorem t21_lowers (f : Floor) (u : String) (h : .T21 ∈ f.armedParticipant u) :
    f.Lowers (f.t21 u).fl := by
  obtain ⟨hu, hc⟩ := mem_armedParticipant h
  obtain ⟨hp, h₁, h₂⟩ : (f.part u).part = some .npTaken ∧ 1 ≤ (f.part u).c21 ∧
      (f.part u).c21 ≤ Cap.c21 := by simpa using hc
  refine record_lowers (k := fun p => { p with c21 := p.c21 + 1 }) hu ⟨(f.t21 u).fl.seq, ?_⟩ ?_
  · rw [Floor.t21]
    split_ifs <;> rfl
  · simp [Part.backlog, hp, h₁]
    omega

/-- The measure of a floor that runs on its timers. -/
def Floor.measure (f : Floor) : ℕ ×ₗ ℕ := toLex (f.distance, f.backlog)

theorem Floor.measure_of_distance {f f' : Floor} (h : f'.distance < f.distance) :
    f'.measure < f.measure := Prod.Lex.toLex_lt_toLex.2 (.inl h)

theorem Floor.Lowers.measure {f f' : Floor} (h : f.Lowers f') : f'.measure < f.measure :=
  Prod.Lex.toLex_lt_toLex.2 (.inr h)

/-- **Every timer lowers the measure.** -/
theorem timers_lower (f : Floor) (o : Op) (h : timers.ok f o) :
    (timers.next f o).measure < f.measure := by
  obtain ⟨ha, ht⟩ := h
  cases o with
  | t1 => exact Floor.measure_of_distance (t1_distance f ha)
  | t2 => exact Floor.measure_of_distance (t2_distance f ha)
  | t3 => exact Floor.measure_of_distance (t3_distance f ha)
  | t7 => exact (t7_lowers f ha).measure
  | t20 => exact (t20_lowers f ha).measure
  | t8 u => exact (t8_lowers f u ha).measure
  | t9 u => exact (t9_lowers f u ha).measure
  | t21 u => exact (t21_lowers f u ha).measure
  | serverRx | ready | permDown | permUp | wsPubSelect | wsPubAway | wsLeave | wsJoin | rtp =>
    simp [Op.isTimer] at ht

/-! ## Rest -/

/-- Nothing is armed when no timer can fire. -/
theorem unarmed_of_halted {f : Floor} (h : timers.Halted f) :
    f.armedServer = [] ∧ ∀ u, f.armedParticipant u = [] := by
  refine ⟨?_, ?_⟩
  · refine List.eq_nil_iff_forall_not_mem.2 ?_
    intro t ht
    cases t with
    | T1 => exact h .t1 ⟨ht, rfl⟩
    | T2 => exact h .t2 ⟨ht, rfl⟩
    | T3 => exact h .t3 ⟨ht, rfl⟩
    | T7 => exact h .t7 ⟨ht, rfl⟩
    | T20 => exact h .t20 ⟨ht, rfl⟩
    | T8 | T9 | T21 => simp [Floor.armedServer] at ht
  · refine fun u => List.eq_nil_iff_forall_not_mem.2 ?_
    intro t ht
    rcases (mem_armedParticipant ht).2 with ⟨rfl, -⟩ | ⟨rfl, -⟩ | ⟨rfl, -⟩
    · exact h (.t8 u) ⟨ht, rfl⟩
    · exact h (.t9 u) ⟨ht, rfl⟩
    · exact h (.t21 u) ⟨ht, rfl⟩

/-- **The floor always frees itself.** From every reachable state, firing armed timers in any
order comes to an end, and where no timer is left to fire the floor is idle, the queue is empty
and nothing is armed. -/
theorem floor_frees_itself (qmax t2Secs : Nat) (ops : List Op)
    (hl : machine.Legal (Floor.new qmax t2Secs) ops) :
    let f := machine.exec (Floor.new qmax t2Secs) ops
    (¬ ∃ as : ℕ → Op, ∀ n, timers.Legal f ((List.range n).map as)) ∧
    (∃ as, timers.Legal f as ∧ timers.Halted (timers.exec f as)) ∧
    (∀ as, timers.Legal f as → timers.Halted (timers.exec f as) →
      (timers.exec f as).g = .idle ∧ (timers.exec f as).queue = [] ∧
      (timers.exec f as).armedServer = [] ∧
      ∀ u, (timers.exec f as).armedParticipant u = []) := by
  intro f
  have hwf : WellFounded fun a b : ℕ ×ₗ ℕ => a < b := wellFounded_lt
  refine ⟨?_, ?_, ?_⟩
  · exact Machine.no_infinite_run (I := fun _ => True) hwf Floor.measure (fun _ _ _ _ => trivial)
      (fun f o _ ho => timers_lower f o ho) trivial
  · exact Machine.exists_halted (I := fun _ => True) hwf Floor.measure (fun _ _ _ _ => trivial)
      (fun f o _ ho => timers_lower f o ho) trivial
  · intro as has hh
    obtain ⟨hserver, hparts⟩ := unarmed_of_halted hh
    have hg : (timers.exec f as).g = .idle := by
      by_contra hg
      have hT1 := mem_armedServer.1.2 hg
      rw [hserver] at hT1
      simp at hT1
    have hrun : machine.Legal (Floor.new qmax t2Secs) (ops ++ as) :=
      (machine.legal_append _ _ _).2 ⟨hl, ((machine.restrict_legal _ _ _).1 has).1⟩
    have hq := (run_queueOk hrun).idle
    rw [Machine.exec_append, ← Machine.restrict_exec machine (fun _ o => o.isTimer = true)] at hq
    exact ⟨hg, hq hg, hserver, hparts⟩

theorem floor_frees_itself_crowd :
    machine.Legal (Floor.new 2 30) crowdRun ∧
    (machine.exec (Floor.new 2 30) crowdRun).g = .prevoke ∧
    ¬ ∃ as : ℕ → Op, ∀ n, timers.Legal (machine.exec (Floor.new 2 30) crowdRun)
      ((List.range n).map as) :=
  ⟨by decide, by decide, (floor_frees_itself 2 30 crowdRun (by decide)).1⟩

end OxlensSfu.Flr
