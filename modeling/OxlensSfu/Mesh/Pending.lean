import OxlensSfu.Mesh.Core

/-!
# What happens to a pending query

Every handler of the core treats its pending queries in a few ways only (`Move`): a reply of a
target goes out, a target leaves, the query ends with a `Final` for the session that asked, or it
goes with whoever asked. `Moves` says so of a part of an event and that it touches nothing else.
-/

namespace OxlensSfu.Mesh

/-- The query an entry is about. -/
def Fx.about : Fx → Option Nat
  | .reply q _ _ _ _ _ _ | .final q _ _ _ | .asked q _ _ | .ended q _ => some q
  | _ => none

/-- A declaration comes or goes. -/
def Msg.declares : Msg → Bool
  | .declare _ _ _ | .undeclare _ _ => true
  | _ => false

def Fx.declares : Fx → Bool
  | .push _ m _ => m.declares
  | _ => false

/-- The pending queries and what has been sent, delivered or decided. -/
structure Trace where
  pending : Map Nat Pending
  log : List Fx

/-- One thing that happens to a query. -/
inductive Move (live : Nat → Prop) : Trace → Trace → Prop where
  | reply {m l q p t} (key ok payload queued) (hp : m.lookup q = some p) (ht : t ∈ p.targets) :
    Move live ⟨m, l⟩ ⟨m, l ++ [.reply q t p.origin key ok payload queued]⟩
  | ended {m l q p t} (hp : m.lookup q = some p) (ht : t ∈ p.targets) :
    Move live ⟨m, l⟩
      ⟨m.insert q { p with targets := p.targets.filter (· ≠ t) }, l ++ [.ended q t]⟩
  | final {m l q p uid theirs} (queued) (hp : m.lookup q = some p)
      (ho : p.origin = .sess uid theirs) :
    Move live ⟨m, l⟩ ⟨m.erase q, l ++ [.final q uid theirs queued]⟩
  | forget {m m' l} (hm : ∀ q p, m'.lookup q = some p → m.lookup q = some p)
      (ho : ∀ q p uid theirs, m.lookup q = some p → p.origin = .sess uid theirs → live uid →
        m'.lookup q = some p) :
    Move live ⟨m, l⟩ ⟨m', l⟩
  | other {m l x} (hx : x.about = none) : Move live ⟨m, l⟩ ⟨m, l ++ [x]⟩

theorem log_subset {live : Nat → Prop} {a b : Trace} (h : Relation.ReflTransGen (Move live) a b) :
    a.log ⊆ b.log := by
  induction h with
  | refl => exact List.Subset.refl _
  | tail _ hstep ih =>
    refine List.Subset.trans ih ?_
    cases hstep with
    | forget => exact List.Subset.refl _
    | reply | ended | final | other => exact List.subset_append_left _ _

/-- A query that is still pending asked the same, of the same targets or fewer, and waits for one
if it did before. -/
def Less (m m' : Map Nat Pending) : Prop :=
  ∀ q p', m'.lookup q = some p' → ∃ p, m.lookup q = some p ∧ p'.origin = p.origin ∧
    p'.targets ⊆ p.targets ∧ (p'.targets = [] → p.targets = [])

theorem Less.refl (m : Map Nat Pending) : Less m m :=
  fun _ p hp => ⟨p, hp, rfl, List.Subset.refl _, id⟩

theorem Less.trans {m m' m'' : Map Nat Pending} (h : Less m m') (h' : Less m' m'') :
    Less m m'' := by
  intro q p'' hp''
  obtain ⟨p', hp', ho', hs', hn'⟩ := h' q p'' hp''
  obtain ⟨p, hp, ho, hs, hn⟩ := h q p' hp'
  exact ⟨p, hp, ho'.trans ho, List.Subset.trans hs' hs, fun e => hn (hn' e)⟩

theorem Less.sub {m m' : Map Nat Pending}
    (h : ∀ q p, m'.lookup q = some p → m.lookup q = some p) : Less m m' :=
  fun q p hp => ⟨p, h q p hp, rfl, List.Subset.refl _, id⟩

namespace Core

def trace (c : Core) : Trace := ⟨c.pending, c.fx⟩

/-- More has been sent, and no declaration. -/
def Hushed (l l' : List Fx) : Prop := ∃ d, l' = l ++ d ∧ ∀ x ∈ d, x.declares = false

theorem Hushed.refl (l : List Fx) : Hushed l l :=
  ⟨[], (List.append_nil l).symm, fun _ hx => absurd hx List.not_mem_nil⟩

theorem Hushed.trans {l l' l'' : List Fx} (h : Hushed l l') (h' : Hushed l' l'') :
    Hushed l l'' := by
  obtain ⟨d, rfl, hd⟩ := h
  obtain ⟨d', rfl, hd'⟩ := h'
  exact ⟨d ++ d', List.append_assoc l d d', List.forall_mem_append.2 ⟨hd, hd'⟩⟩

theorem Hushed.one (l : List Fx) {x : Fx} (hx : x.declares = false) : Hushed l (l ++ [x]) :=
  ⟨[x], rfl, List.forall_mem_singleton.2 hx⟩

/-- Nothing but queries and what is sent, declarations apart. -/
structure Moves (c c' : Core) : Prop where
  frame : ∃ m l, c' = { c with pending := m, fx := l }
  moves : Relation.ReflTransGen (Move (· ∈ c.sessions)) c.trace c'.trace
  less : Less c.pending c'.pending
  hushed : Hushed c.fx c'.fx

namespace Moves

variable {c c' c'' : Core}

theorem refl (c : Core) : Moves c c := ⟨⟨_, _, rfl⟩, .refl, .refl _, .refl _⟩

theorem trans (h : Moves c c') (h' : Moves c' c'') : Moves c c'' := by
  obtain ⟨m, l, rfl⟩ := h.frame
  obtain ⟨m', l', rfl⟩ := h'.frame
  exact ⟨⟨m', l', rfl⟩, h.moves.trans h'.moves, h.less.trans h'.less, h.hushed.trans h'.hushed⟩

theorem one {m : Map Nat Pending} {l : List Fx} (h : Move (· ∈ c.sessions) c.trace ⟨m, l⟩)
    (hl : Less c.pending m) (hh : Hushed c.fx l) : Moves c { c with pending := m, fx := l } :=
  ⟨⟨m, l, rfl⟩, .single h, hl, hh⟩

theorem fx_subset (h : Moves c c') : c.fx ⊆ c'.fx := log_subset h.moves

theorem sessions (h : Moves c c') : c'.sessions = c.sessions := by
  obtain ⟨m, l, rfl⟩ := h.frame
  rfl

theorem lQabls (h : Moves c c') : c'.lQabls = c.lQabls := by
  obtain ⟨m, l, rfl⟩ := h.frame
  rfl

end Moves

variable {c : Core} {o : Told}

theorem emits_moves (c : Core) {l : List Fx}
    (hl : ∀ x ∈ l, x.about = none ∧ x.declares = false) : Moves c (c.emits l) := by
  induction l generalizing c with
  | nil =>
    have hnil : c.emits [] = c := by simp [emits]
    rw [hnil]
    exact .refl c
  | cons x l ih =>
    have hcons : c.emits (x :: l) = (c.emits [x]).emits l := by simp [emits]
    obtain ⟨habout, hhush⟩ := hl x List.mem_cons_self
    rw [hcons]
    exact Moves.trans (.one (.other habout) (.refl _) (.one _ hhush))
      (ih _ fun y hy => hl y (List.mem_cons_of_mem x hy))

theorem push_moves (c : Core) (uid : Nat) {m : Msg} (hm : m.declares = false) :
    Moves c (c.push uid m) :=
  emits_moves c (List.forall_mem_singleton.2 ⟨rfl, hm⟩)

theorem toRouters_moves (c : Core) {m : Msg} (hm : m.declares = false) : Moves c (c.toRouters m) :=
  emits_moves c (List.forall_mem_map.2 fun _ _ => ⟨rfl, hm⟩)

theorem batchEnd_moves (c : Core) : Moves c c.batchEnd := by
  refine emits_moves c (List.forall_mem_append.2 ⟨List.forall_mem_map.2 fun _ _ => ⟨rfl, rfl⟩, ?_⟩)
  intro x hx
  obtain ⟨s, -, hx⟩ := List.mem_flatMap.1 hx
  obtain ⟨t, -, rfl⟩ := List.mem_map.1 hx
  exact ⟨rfl, rfl⟩

theorem tokNotify_moves (c : Core) (kind : TokenEvtKind) (key : String) :
    Moves c (c.tokNotify kind key) := by
  refine emits_moves c (List.forall_mem_append.2 ⟨List.forall_mem_map.2 fun _ _ => ⟨rfl, rfl⟩, ?_⟩)
  intro x hx
  obtain ⟨s, -, hx⟩ := List.mem_flatMap.1 hx
  obtain ⟨t, -, rfl⟩ := List.mem_map.1 hx
  exact ⟨rfl, rfl⟩

theorem tellUpstream_moves (c : Core) (o : Told) {m : Msg} (hm : m.declares = false) :
    Moves c (c.tellUpstream o m) := by
  rw [tellUpstream]
  cases c.upstream o with
  | none => exact .refl c
  | some u => exact c.push_moves u hm

/-- A reply goes out when its target has not left the query. -/
theorem forwardReply_moves {q : Nat} {t : Target}
    (ht : ∀ p, c.pending.lookup q = some p → t ∈ p.targets) (key : String) (ok : Bool)
    (payload : Payload) : Moves c (c.forwardReply o q t key ok payload) := by
  rw [forwardReply]
  cases hp : c.pending.lookup q with
  | none => exact .refl c
  | some p =>
    simp only
    cases ho : p.origin with
    | loc tx =>
      have hm : Move (· ∈ c.sessions) c.trace ⟨c.pending, _⟩ :=
        .reply key ok payload true hp (ht p hp)
      rw [ho] at hm
      exact .one hm (.refl _) (.one _ rfl)
    | sess uid theirs =>
      simp only
      split_ifs
      · have hm : Move (· ∈ c.sessions) c.trace ⟨c.pending, c.fx ++ [.reply q t p.origin key ok
            payload (c.takes o uid (.reply theirs key ok payload))]⟩ :=
          .reply key ok payload _ hp (ht p hp)
        rw [ho] at hm
        exact .one hm (.refl _) (.one _ rfl)
      · exact .refl c

/-- The query is gone, and nobody that is there waits for its end. -/
theorem erase_moves {q : Nat} {p : Pending} (hp : c.pending.lookup q = some p)
    (ho : ∀ uid theirs, p.origin = .sess uid theirs → uid ∉ c.sessions) :
    Moves c { c with pending := c.pending.erase q } := by
  have hsub : ∀ q' p', (c.pending.erase q).lookup q' = some p' → c.pending.lookup q' = some p' := by
    intro q' p' hp'
    rw [Map.lookup_erase_if] at hp'
    split_ifs at hp'
    exact hp'
  refine .one (.forget hsub ?_) (.sub hsub) (.refl _)
  intro q' p' uid theirs hp' horig hlive
  rw [Map.lookup_erase_if, if_neg]
  · exact hp'
  · intro hq
    rw [hq, hp] at hp'
    rw [← Option.some.inj hp'] at horig
    exact ho uid theirs horig hlive

theorem finish_moves (c : Core) (o : Told) (q : Nat) : Moves c (c.finish o q) := by
  rw [finish]
  cases hp : c.pending.lookup q with
  | none => exact .refl c
  | some p =>
    simp only
    cases ho : p.origin with
    | loc tx => exact erase_moves hp (by simp [ho])
    | sess uid theirs =>
      simp only
      split_ifs with hlive
      · refine .one (.final _ hp ho) (.sub ?_) (.one _ rfl)
        intro q' p' hp'
        rw [Map.lookup_erase_if] at hp'
        split_ifs at hp'
        exact hp'
      · exact erase_moves hp (by simp [ho, show uid ∉ c.sessions from hlive])

theorem finish_lookup (c : Core) (o : Told) (q q' : Nat) :
    (c.finish o q).pending.lookup q' = if q' = q then none else c.pending.lookup q' := by
  rw [finish]
  cases hp : c.pending.lookup q with
  | none =>
    simp only
    split_ifs with h
    · rw [h, hp]
    · rfl
  | some p =>
    simp only
    rw [← Map.lookup_erase_if]
    cases p.origin with
    | loc tx => rfl
    | sess uid theirs =>
      simp only
      split_ifs <;> rfl

/-- The query after a target has left it: it is gone, or it waits for the others. -/
theorem dropTarget_lookup {q : Nat} {p : Pending} (hp : c.pending.lookup q = some p) (t : Target)
    (q' : Nat) : (c.dropTarget o q p t).pending.lookup q' =
      if q' = q then
        if t ∈ p.targets ∧ p.targets.filter (· ≠ t) = [] then none
        else some { p with targets := p.targets.filter (· ≠ t) }
      else c.pending.lookup q' := by
  rw [dropTarget]
  by_cases ht : t ∈ p.targets
  · simp only [ht, true_and, if_true]
    by_cases hnil : p.targets.filter (· ≠ t) = []
    · rw [if_pos hnil, if_pos hnil, finish_lookup]
      split_ifs with hq
      · rfl
      · simp only [emit, emits, AList.lookup_insert_ne hq]
    · rw [if_neg hnil, if_neg hnil]
      simp only [emit, emits, Map.lookup_insert_if]
  · have hsame : p.targets.filter (· ≠ t) = p.targets :=
      List.filter_eq_self.2 fun x hx => by
        simpa using fun he : x = t => ht (he ▸ hx)
    simp only [ht, false_and, if_false, hsame]
    split_ifs with hq
    · rw [hq, hp]
    · rfl

theorem forwardReply_pending (c : Core) (o : Told) (q : Nat) (t : Target) (key : String) (ok : Bool)
    (payload : Payload) : (c.forwardReply o q t key ok payload).pending = c.pending := by
  rw [forwardReply]
  cases c.pending.lookup q with
  | none => rfl
  | some p =>
    simp only
    cases p.origin with
    | loc tx => rfl
    | sess uid theirs =>
      simp only
      split_ifs <;> rfl

theorem dropTarget_less {q : Nat} {p : Pending} (hp : c.pending.lookup q = some p) (t : Target) :
    Less c.pending (c.dropTarget o q p t).pending := by
  intro q' p' hp'
  rw [dropTarget_lookup hp] at hp'
  split_ifs at hp' with hq hnil
  · obtain rfl := Option.some.inj hp'
    refine ⟨p, hq ▸ hp, rfl, List.filter_sublist.subset, fun hn => ?_⟩
    by_contra hne
    by_cases ht : t ∈ p.targets
    · exact hnil ⟨ht, hn⟩
    · obtain ⟨x, hx⟩ := List.exists_mem_of_ne_nil _ hne
      have hmem : x ∈ p.targets.filter (· ≠ t) :=
        List.mem_filter.2 ⟨hx, by simpa using fun he : x = t => ht (he ▸ hx)⟩
      exact List.ne_nil_of_mem hmem hn
  · exact Less.refl _ q' p' hp'

theorem dropTarget_moves {q : Nat} {p : Pending} (hp : c.pending.lookup q = some p) (t : Target) :
    Moves c (c.dropTarget o q p t) := by
  have hless := dropTarget_less (o := o) hp t
  rw [dropTarget] at hless ⊢
  split_ifs at hless ⊢ with ht
  · simp only at hless ⊢
    split_ifs at hless ⊢
    · let p' : Pending := { p with targets := p.targets.filter (· ≠ t) }
      have hfinish := finish_moves ({ c with pending := c.pending.insert q p' }.emit (.ended q t)) o q
      obtain ⟨m, l, hfin⟩ := hfinish.frame
      exact ⟨⟨m, l, hfin⟩, .head (.ended hp ht) hfinish.moves, hless,
        .trans (.one _ rfl) hfinish.hushed⟩
    · exact .one (.ended hp ht) hless (.one _ rfl)
  · exact .refl c

theorem targetDone_moves (c : Core) (o : Told) (q : Nat) (t : Target) :
    Moves c (c.targetDone o q t) := by
  rw [targetDone]
  cases hp : c.pending.lookup q with
  | none => exact .refl c
  | some p => exact dropTarget_moves hp t

/-- The target does not wait any more. -/
theorem dropTarget_gone {q : Nat} {p p' : Pending} (hp : c.pending.lookup q = some p) (t : Target)
    (hp' : (c.dropTarget o q p t).pending.lookup q = some p') : t ∉ p'.targets := by
  rw [dropTarget_lookup hp, if_pos rfl] at hp'
  split_ifs at hp'
  obtain rfl := Option.some.inj hp'
  simp

theorem dropTarget_other {q q' : Nat} {p : Pending} (hp : c.pending.lookup q = some p) (t : Target)
    (hq : q' ≠ q) : (c.dropTarget o q p t).pending.lookup q' = c.pending.lookup q' := by
  rw [dropTarget_lookup hp, if_neg hq]

theorem targetDone_gone {q : Nat} {t : Target} {p' : Pending}
    (hp' : (c.targetDone o q t).pending.lookup q = some p') : t ∉ p'.targets := by
  rw [targetDone] at hp'
  cases hp : c.pending.lookup q with
  | none =>
    rw [hp] at hp'
    exact absurd (hp.symm.trans hp') nofun
  | some p =>
    rw [hp] at hp'
    exact dropTarget_gone hp t hp'

theorem targetDone_other {q q' : Nat} (t : Target) (hq : q' ≠ q) :
    (c.targetDone o q t).pending.lookup q' = c.pending.lookup q' := by
  rw [targetDone]
  cases hp : c.pending.lookup q with
  | none => rfl
  | some p => exact dropTarget_other hp t hq

/-- A closed session leaves a query, or takes it with it. -/
theorem closePending_moves {uid : Nat} (hu : uid ∉ c.sessions) (q : Nat) :
    Moves c (closePending o uid c q) := by
  rw [closePending]
  cases hp : c.pending.lookup q with
  | none => exact .refl c
  | some p =>
    simp only
    split_ifs with ho
    · refine erase_moves hp ?_
      intro u theirs he
      rw [he] at ho
      obtain rfl := Option.some.inj ho
      exact hu
    · exact dropTarget_moves hp _

/-- The session has nothing to do with the query any more. -/
theorem closePending_gone {uid q : Nat} {p' : Pending}
    (hp' : (closePending o uid c q).pending.lookup q = some p') :
    Origin.src p'.origin ≠ some uid ∧ .sess uid ∉ p'.targets := by
  rw [closePending] at hp'
  cases hp : c.pending.lookup q with
  | none =>
    rw [hp] at hp'
    exact absurd (hp.symm.trans hp') nofun
  | some p =>
    simp only [hp] at hp'
    split_ifs at hp' with ho
    · simp only [AList.lookup_erase] at hp'
      exact absurd hp' nofun
    · obtain ⟨p₀, hp₀, horig, -⟩ := dropTarget_less hp _ q p' hp'
      obtain rfl := Option.some.inj (hp.symm.trans hp₀)
      exact ⟨horig ▸ ho, dropTarget_gone hp _ hp'⟩

/-- A session that is closed leaves all the queries. -/
theorem closePendings {uid : Nat} (hu : uid ∉ c.sessions) (qs : List Nat) :
    Moves c (qs.foldl (closePending o uid) c) ∧
      ∀ q ∈ qs, ∀ p, (qs.foldl (closePending o uid) c).pending.lookup q = some p →
        Origin.src p.origin ≠ some uid ∧ .sess uid ∉ p.targets := by
  induction qs generalizing c with
  | nil => exact ⟨.refl c, fun q hq => absurd hq List.not_mem_nil⟩
  | cons q qs ih =>
    have hm := closePending_moves (o := o) hu q
    obtain ⟨hm', hg'⟩ := ih (c := closePending o uid c q) (hm.sessions ▸ hu)
    rw [List.foldl_cons]
    refine ⟨hm.trans hm', ?_⟩
    intro q' hq' p hp
    rcases List.mem_cons.1 hq' with rfl | hq'
    · obtain ⟨p₀, hp₀, ho, hs, -⟩ := hm'.less q' p hp
      obtain ⟨hsrc, ht⟩ := closePending_gone hp₀
      exact ⟨ho ▸ hsrc, fun hmem => ht (hs hmem)⟩
    · exact hg' q' hq' p hp

/-! ## A query is asked -/

section Ask

variable {q : Nat} {expr : String} {payload : Payload} {timeoutMs : Nat}

/-- The query has gone out to the target. -/
def Sent (l : List Fx) (q : Nat) : Target → Prop
  | .loc id => ∃ expr payload, .query q id expr payload ∈ l
  | .sess u => ∃ expr payload timeoutMs, .push u (.request q expr payload timeoutMs) true ∈ l

theorem Sent.mono {l l' : List Fx} {t : Target} (h : Sent l q t) (hl : l ⊆ l') : Sent l' q t := by
  cases t with
  | loc id =>
    obtain ⟨expr, payload, h⟩ := h
    exact ⟨expr, payload, hl h⟩
  | sess u =>
    obtain ⟨expr, payload, timeoutMs, h⟩ := h
    exact ⟨expr, payload, timeoutMs, hl h⟩

theorem ask_moves {t : Target} (ht : ∀ p, c.pending.lookup q = some p → t ∈ p.targets) :
    Moves c (ask o q expr payload timeoutMs c t) := by
  cases t with
  | loc id =>
    simp only [ask]
    split_ifs
    · exact c.targetDone_moves o q _
    · exact emits_moves c (List.forall_mem_singleton.2 ⟨rfl, rfl⟩)
    · exact .refl c
  | sess u =>
    rw [ask]
    cases c.sessions.lookup u with
    | none => exact (forwardReply_moves ht _ _ _).trans (targetDone_moves _ o q _)
    | some s =>
      simp only
      have hpush : Moves c (c.emit (.push u (.request q expr payload timeoutMs)
          (c.takes o u (.request q expr payload timeoutMs)))) :=
        emits_moves c (List.forall_mem_singleton.2 ⟨rfl, rfl⟩)
      split_ifs
      · exact hpush
      · refine hpush.trans ?_
        exact (forwardReply_moves (by exact ht) _ _ _).trans (targetDone_moves _ o q _)

/-- Nothing happens to the pending queries, or the target is done with this one. -/
theorem ask_pending (o : Told) (q : Nat) (expr : String) (payload : Payload) (timeoutMs : Nat)
    (c : Core) (t : Target) :
    (ask o q expr payload timeoutMs c t).pending = c.pending ∨
      ∃ c' : Core, c'.pending = c.pending ∧
        (ask o q expr payload timeoutMs c t).pending = (c'.targetDone o q t).pending := by
  cases t with
  | loc id =>
    simp only [ask]
    split_ifs
    · exact .inr ⟨c, rfl, rfl⟩
    · exact .inl rfl
    · exact .inl rfl
  | sess u =>
    rw [ask]
    cases c.sessions.lookup u with
    | none => exact .inr ⟨_, forwardReply_pending _ _ _ _ _ _ _, rfl⟩
    | some s =>
      simp only
      split_ifs
      · exact .inl rfl
      · exact .inr ⟨(c.emit (.push u (.request q expr payload timeoutMs)
          (c.takes o u (.request q expr payload timeoutMs)))).forwardReply o q (.sess u) s.peer false
            laneFull, forwardReply_pending _ _ _ _ _ _ _, rfl⟩

theorem ask_other (c : Core) (t : Target) {q' : Nat} (hq : q' ≠ q) :
    (ask o q expr payload timeoutMs c t).pending.lookup q' = c.pending.lookup q' := by
  rcases ask_pending o q expr payload timeoutMs c t with h | ⟨c', hc', h⟩
  · rw [h]
  · rw [h, targetDone_other t hq, hc']

theorem targetDone_keeps {t x : Target} {p' : Pending} (hx : x ≠ t)
    (hp' : (c.targetDone o q t).pending.lookup q = some p') :
    ∀ p, c.pending.lookup q = some p → x ∈ p.targets → x ∈ p'.targets := by
  intro p hp hmem
  simp only [targetDone, hp] at hp'
  rw [dropTarget_lookup hp, if_pos rfl] at hp'
  split_ifs at hp'
  obtain rfl := Option.some.inj hp'
  exact List.mem_filter.2 ⟨hmem, by simpa using hx⟩

theorem ask_keeps {t x : Target} {p' : Pending} (hx : x ≠ t)
    (hp' : (ask o q expr payload timeoutMs c t).pending.lookup q = some p') :
    ∀ p, c.pending.lookup q = some p → x ∈ p.targets → x ∈ p'.targets := by
  intro p hp hmem
  rcases ask_pending o q expr payload timeoutMs c t with h | ⟨c', hc', h⟩
  · rw [h] at hp'
    obtain rfl := Option.some.inj (hp.symm.trans hp')
    exact hmem
  · rw [h] at hp'
    exact targetDone_keeps hx hp' p (hc' ▸ hp) hmem

/-- A target that still waits has been sent the query. -/
theorem ask_sent {t : Target} (ht : ∀ id, t = .loc id → id ∈ c.lQabls) {p' : Pending}
    (hp' : (ask o q expr payload timeoutMs c t).pending.lookup q = some p') (hmem : t ∈ p'.targets) :
    Sent (ask o q expr payload timeoutMs c t).fx q t := by
  cases t with
  | loc id =>
    simp only [ask, if_pos (ht id rfl)] at hp' ⊢
    split_ifs at hp' ⊢
    · exact absurd hmem (targetDone_gone hp')
    · exact ⟨expr, payload, List.mem_append_right _ (List.mem_singleton_self _)⟩
  | sess u =>
    rw [ask] at hp' ⊢
    cases hs : c.sessions.lookup u with
    | none =>
      rw [hs] at hp'
      exact absurd hmem (targetDone_gone hp')
    | some s =>
      simp only [hs] at hp' ⊢
      split_ifs at hp' ⊢ with hqueued
      · rw [hqueued]
        exact ⟨expr, payload, timeoutMs, List.mem_append_right _ (List.mem_singleton_self _)⟩
      · exact absurd hmem (targetDone_gone hp')

/-- All targets are asked, one after another. -/
theorem asks (expr : String) (payload : Payload) (timeoutMs : Nat) {ts : List Target}
    (hnodup : ts.Nodup)
    (hts : ∀ p, c.pending.lookup q = some p → ∀ t ∈ ts, t ∈ p.targets)
    (hloc : ∀ id, .loc id ∈ ts → id ∈ c.lQabls) :
    Moves c (ts.foldl (ask o q expr payload timeoutMs) c) ∧
      (∀ q', q' ≠ q →
        (ts.foldl (ask o q expr payload timeoutMs) c).pending.lookup q' = c.pending.lookup q') ∧
      ∀ p, (ts.foldl (ask o q expr payload timeoutMs) c).pending.lookup q = some p →
        ∀ t ∈ ts, t ∈ p.targets → Sent (ts.foldl (ask o q expr payload timeoutMs) c).fx q t := by
  induction ts generalizing c with
  | nil => exact ⟨.refl c, fun q' _ => rfl, fun p _ t ht => absurd ht List.not_mem_nil⟩
  | cons t ts ih =>
    obtain ⟨ht, hnodup⟩ := List.nodup_cons.1 hnodup
    have hmove : Moves c (ask o q expr payload timeoutMs c t) :=
      ask_moves fun p hp => hts p hp t List.mem_cons_self
    obtain ⟨hmoves, hother, hsent⟩ := ih (c := ask o q expr payload timeoutMs c t) hnodup
      (by
        intro p' hp' x hx
        obtain ⟨p, hp, -⟩ := hmove.less q p' hp'
        have hne : x ≠ t := fun he => ht (he ▸ hx)
        exact ask_keeps hne hp' p hp (hts p hp x (List.mem_cons_of_mem t hx)))
      (by
        intro id hid
        rw [hmove.lQabls]
        exact hloc id (List.mem_cons_of_mem t hid))
    rw [List.foldl_cons]
    refine ⟨hmove.trans hmoves, fun q' hq => (hother q' hq).trans (ask_other c t hq), ?_⟩
    intro p hp x hx hmem
    rcases List.mem_cons.1 hx with rfl | hx
    · obtain ⟨p', hp', -, hsub, -⟩ := hmoves.less q p hp
      have hfirst := ask_sent (fun id he => hloc id (he ▸ List.mem_cons_self)) hp' (hsub hmem)
      exact hfirst.mono hmoves.fx_subset
    · exact hsent p hp x hx hmem

end Ask

/-- A new query, before its targets are asked. -/
def begin (c : Core) (o : Told) (origin : Origin) (expr : String) (timeoutMs : Nat) : Core :=
  { c with
    nextId := c.nextId + 1
    pending := c.pending.insert c.nextId
      ⟨origin, c.targets (Origin.src origin) expr, o.now + timeoutMs⟩ }.emit
    (.asked c.nextId origin (c.targets (Origin.src origin) expr))

theorem nodup_map_keys {ν α : Type} (m : Map Nat ν) (p : ((_ : Nat) × ν) → Bool) {f : Nat → α}
    (hf : Function.Injective f) : ((m.entries.filter p).map fun x => f x.1).Nodup := by
  have hkeys : ((m.entries.filter p).map fun x => f x.1) = (m.entries.filter p).keys.map f := by
    rw [List.keys, List.map_map]
    rfl
  rw [hkeys]
  exact (m.nodupKeys.sublist List.filter_sublist).map hf

theorem targets_nodup (c : Core) (src : Option Nat) (expr : String) : (c.targets src expr).Nodup := by
  rw [targets, List.nodup_append]
  refine ⟨nodup_map_keys _ _ fun _ _ => Target.loc.inj, nodup_map_keys _ _ fun _ _ => Target.sess.inj,
    ?_⟩
  intro x hx y hy
  obtain ⟨a, -, rfl⟩ := List.mem_map.1 hx
  obtain ⟨b, -, rfl⟩ := List.mem_map.1 hy
  exact nofun

theorem mem_targets_loc {c : Core} {src : Option Nat} {expr : String} {id : Nat}
    (h : .loc id ∈ c.targets src expr) : id ∈ c.lQabls := by
  rcases List.mem_append.1 h with h | h
  · obtain ⟨x, hx, he⟩ := List.mem_map.1 h
    obtain rfl := Target.loc.inj he
    exact AList.mem_keys.2 (List.mem_keys_of_mem (List.mem_of_mem_filter hx))
  · obtain ⟨x, -, he⟩ := List.mem_map.1 h
    exact absurd he nofun

theorem mem_targets_sess {c : Core} {src : Option Nat} {expr : String} {u : Nat}
    (h : .sess u ∈ c.targets src expr) : u ∈ c.sessions := by
  rcases List.mem_append.1 h with h | h
  · obtain ⟨x, -, he⟩ := List.mem_map.1 h
    exact absurd he nofun
  · obtain ⟨x, hx, he⟩ := List.mem_map.1 h
    obtain rfl := Target.sess.inj he
    exact AList.mem_keys.2 (List.mem_keys_of_mem (List.mem_of_mem_filter hx))

/-- A query is begun, and what follows are moves. If it still waits, then for targets that have been
sent it. -/
theorem routeGet_moves (c : Core) (o : Told) (origin : Origin) (expr : String) (payload : Payload)
    (timeoutMs : Nat) :
    Moves (c.begin o origin expr timeoutMs) (c.routeGet o origin expr payload timeoutMs) ∧
      (∀ q, q ≠ c.nextId → (c.routeGet o origin expr payload timeoutMs).pending.lookup q =
        c.pending.lookup q) ∧
      ∀ p, (c.routeGet o origin expr payload timeoutMs).pending.lookup c.nextId = some p →
        p.targets ≠ [] ∧ ∀ t ∈ p.targets,
          Sent (c.routeGet o origin expr payload timeoutMs).fx c.nextId t := by
  have hbegin : ∀ p, (c.begin o origin expr timeoutMs).pending.lookup c.nextId = some p →
      p.targets = c.targets (Origin.src origin) expr := by
    intro p hp
    simp only [begin, emit, emits, AList.lookup_insert, Option.some.injEq] at hp
    rw [← hp]
  obtain ⟨hm, ho, hsent⟩ := asks (c := c.begin o origin expr timeoutMs) (o := o) (q := c.nextId)
    expr payload timeoutMs ((o.targets.nodup_run).2 (c.targets_nodup (Origin.src origin) expr))
    (fun p hp t ht => hbegin p hp ▸ o.targets.mem_run.1 ht)
    (fun id hid => mem_targets_loc (o.targets.mem_run.1 hid))
  generalize hc : (o.targets.run (c.targets (Origin.src origin) expr)).foldl
    (ask o c.nextId expr payload timeoutMs) (c.begin o origin expr timeoutMs) = c' at hm ho hsent
  have hget : c.routeGet o origin expr payload timeoutMs =
      if (c'.pending.lookup c.nextId).any (·.targets = []) then c'.finish o c.nextId else c' := by
    rw [← hc]
    rfl
  have hother : ∀ q, q ≠ c.nextId → c'.pending.lookup q = c.pending.lookup q := by
    intro q hq
    rw [ho q hq]
    simp only [begin, emit, emits, AList.lookup_insert_ne hq]
  rw [hget]
  split_ifs with hnil
  · refine ⟨hm.trans (finish_moves c' o _), ?_, ?_⟩
    · intro q hq
      rw [finish_lookup, if_neg hq, hother q hq]
    · intro p hp
      rw [finish_lookup, if_pos rfl] at hp
      exact absurd hp nofun
  · refine ⟨hm, hother, ?_⟩
    intro p hp
    refine ⟨fun hn => hnil (by simp [hp, hn]), fun t ht => hsent p hp t ?_ ht⟩
    obtain ⟨p₀, hp₀, -, hsub, -⟩ := hm.less _ p hp
    exact o.targets.mem_run.2 (hbegin p₀ hp₀ ▸ hsub ht)

end Core

end OxlensSfu.Mesh
