import OxlensSfu.Mesh.Works

/-!
# Queries

A query goes to every queryable that matches, and whoever asked gets their replies and one `Final`
when all of them are done. What has been sent and decided so far is the log of the core, and every
entry about a query stands in it with a right to: `Allowed` says what must stand before it.

* **`queries_answered`** — after every run of a node, its log and its pending queries are in order:
  one `Final` at most for each request and nothing after it, replies only of targets that were
  selected and are not done, and no pending query without a target that still has to answer.
-/

namespace OxlensSfu.Mesh

/-! ## The log -/

/-- The entry may follow these. -/
def Allowed (l : List Fx) : Fx → Prop
  | .reply q t origin _ _ _ _ =>
    (∃ ts, .asked q origin ts ∈ l ∧ t ∈ ts) ∧ .ended q t ∉ l ∧ ∀ uid qid b, .final q uid qid b ∉ l
  | .final q uid qid _ =>
    (∃ ts, .asked q (.sess uid qid) ts ∈ l) ∧ ∀ uid qid b, .final q uid qid b ∉ l
  | .ended q t =>
    (∃ origin ts, .asked q origin ts ∈ l ∧ t ∈ ts) ∧ .ended q t ∉ l ∧
      ∀ uid qid b, .final q uid qid b ∉ l
  | .asked q _ _ => ∀ x ∈ l, x.about ≠ some q
  | _ => True

/-- Every entry was allowed where it stands. -/
def Sound (l : List Fx) : Prop := ∀ l₁ x l₂, l = l₁ ++ x :: l₂ → Allowed l₁ x

theorem sound_nil : Sound [] := fun l₁ x l₂ he => absurd he (by simp)

theorem Sound.append {l : List Fx} (h : Sound l) {x : Fx} (hx : Allowed l x) :
    Sound (l ++ [x]) := by
  intro l₁ y l₂ he
  rcases List.eq_nil_or_concat l₂ with rfl | ⟨l₃, z, rfl⟩
  · obtain ⟨hl, hy⟩ := List.append_inj' he rfl
    rw [← hl, ← (List.cons.inj hy).1]
    exact hx
  · rw [List.concat_eq_append, ← List.cons_append, ← List.append_assoc] at he
    exact h l₁ y l₃ (List.append_inj' he rfl).1

/-- After the `Final` nothing more is about the query. -/
theorem Sound.after_final {l l₁ l₂ : List Fx} (h : Sound l) {q uid qid : Nat} {b : Bool}
    (he : l = l₁ ++ .final q uid qid b :: l₂) : ∀ x ∈ l₂, x.about ≠ some q := by
  intro x hx hq
  obtain ⟨a, d, rfl⟩ := List.append_of_mem hx
  have hallow := h (l₁ ++ .final q uid qid b :: a) x d (by rw [he]; simp)
  have hfin : Fx.final q uid qid b ∈ l₁ ++ .final q uid qid b :: a := by simp
  cases x with
  | reply q' =>
    obtain rfl := Option.some.inj hq
    exact hallow.2.2 uid qid b hfin
  | final q' =>
    obtain rfl := Option.some.inj hq
    exact hallow.2 uid qid b hfin
  | asked q' =>
    obtain rfl := Option.some.inj hq
    exact hallow _ hfin rfl
  | ended q' =>
    obtain rfl := Option.some.inj hq
    exact hallow.2.2 uid qid b hfin
  | _ => exact absurd hq nofun

/-- A query is asked once. -/
theorem Sound.asked_unique {l : List Fx} (h : Sound l) {q : Nat} {o o' : Origin}
    {ts ts' : List Target} (hx : .asked q o ts ∈ l) (hy : .asked q o' ts' ∈ l) :
    o = o' ∧ ts = ts' := by
  obtain ⟨a, b, rfl⟩ := List.append_of_mem hx
  rcases List.mem_append.1 hy with hy | hy
  · exact absurd rfl (h a _ b rfl _ hy)
  rcases List.mem_cons.1 hy with he | hy
  · obtain ⟨-, ho, hts⟩ := Fx.asked.inj he
    exact ⟨ho.symm, hts.symm⟩
  · obtain ⟨b₁, b₂, rfl⟩ := List.append_of_mem hy
    have hallow := h (a ++ .asked q o ts :: b₁) (.asked q o' ts') b₂ (by simp)
    exact absurd rfl (hallow (.asked q o ts) (by simp))

/-- The log is in order and knows the pending queries. Queries from `n` on are still to come. -/
structure Answers (a : Trace) (n : Nat) : Prop where
  sound : Sound a.log
  ids : ∀ x ∈ a.log, ∀ q, x.about = some q → q < n
  pend : ∀ q p, a.pending.lookup q = some p → ∃ ts, .asked q p.origin ts ∈ a.log ∧
    (∀ t, t ∈ p.targets ↔ t ∈ ts ∧ .ended q t ∉ a.log) ∧ ∀ uid qid b, .final q uid qid b ∉ a.log

theorem Answers.mono {a : Trace} {n n' : Nat} (h : Answers a n) (hn : n ≤ n') : Answers a n' :=
  ⟨h.sound, fun x hx q hq => (h.ids x hx q hq).trans_le hn, h.pend⟩

theorem Answers.lt {a : Trace} {n q : Nat} {p : Pending} (h : Answers a n)
    (hp : a.pending.lookup q = some p) : q < n := by
  obtain ⟨ts, hask, -⟩ := h.pend q p hp
  exact h.ids _ hask q rfl

theorem Answers.move {live : Nat → Prop} {a b : Trace} {n : Nat} (h : Answers a n)
    (hm : Move live a b) : Answers b n := by
  cases hm with
  | @reply m l q p t key ok payload queued hp ht =>
    obtain ⟨ts, hask, hts, hfin⟩ := h.pend q p hp
    refine ⟨h.sound.append ⟨⟨ts, hask, ((hts t).1 ht).1⟩, ((hts t).1 ht).2, hfin⟩, ?_, ?_⟩
    · intro x hx q' hq'
      rcases List.mem_append.1 hx with hx | hx
      · exact h.ids x hx q' hq'
      · rw [List.mem_singleton.1 hx] at hq'
        exact Option.some.inj hq' ▸ h.lt hp
    · intro q' p' hp'
      simpa using h.pend q' p' hp'
  | @ended m l q p t hp ht =>
    obtain ⟨ts, hask, hts, hfin⟩ := h.pend q p hp
    refine ⟨h.sound.append ⟨⟨_, ts, hask, ((hts t).1 ht).1⟩, ((hts t).1 ht).2, hfin⟩, ?_, ?_⟩
    · intro x hx q' hq'
      rcases List.mem_append.1 hx with hx | hx
      · exact h.ids x hx q' hq'
      · rw [List.mem_singleton.1 hx] at hq'
        exact Option.some.inj hq' ▸ h.lt hp
    · intro q' p' hp'
      rw [Map.lookup_insert_if] at hp'
      split_ifs at hp' with hq
      · obtain rfl := Option.some.inj hp'
        subst hq
        refine ⟨ts, by simpa using hask, fun x => ?_, by simpa using hfin⟩
        simp only [List.mem_filter, hts x, decide_eq_true_eq, List.mem_append, List.mem_singleton,
          Fx.ended.injEq, true_and, not_or, and_assoc]
      · simpa [hq] using h.pend q' p' hp'
  | @final m l q p uid theirs queued hp ho =>
    obtain ⟨ts, hask, hts, hfin⟩ := h.pend q p hp
    refine ⟨h.sound.append ⟨⟨ts, ho ▸ hask⟩, hfin⟩, ?_, ?_⟩
    · intro x hx q' hq'
      rcases List.mem_append.1 hx with hx | hx
      · exact h.ids x hx q' hq'
      · rw [List.mem_singleton.1 hx] at hq'
        exact Option.some.inj hq' ▸ h.lt hp
    · intro q' p' hp'
      rw [Map.lookup_erase_if] at hp'
      split_ifs at hp' with hq
      simpa [hq] using h.pend q' p' hp'
  | forget hm ho => exact ⟨h.sound, h.ids, fun q p hp => h.pend q p (hm q p hp)⟩
  | @other m l x hx =>
    have hin : ∀ (y : Fx) q, y.about = some q → (y ∈ l ++ [x] ↔ y ∈ l) := by
      intro y q hy
      have hne : y ≠ x := by
        intro he
        rw [he, hx] at hy
        exact absurd hy nofun
      simp [hne]
    refine ⟨h.sound.append ?_, ?_, ?_⟩
    · cases x with
      | reply | final | asked | ended => exact absurd hx nofun
      | _ => trivial
    · intro y hy q hq
      rcases List.mem_append.1 hy with hy | hy
      · exact h.ids y hy q hq
      · rw [List.mem_singleton.1 hy, hx] at hq
        exact absurd hq nofun
    · intro q p hp
      obtain ⟨ts, hask, hts, hfin⟩ := h.pend q p hp
      refine ⟨ts, (hin (.asked q p.origin ts) q rfl).2 hask, fun t => ?_, fun uid qid b => ?_⟩
      · rw [hin (.ended q t) q rfl]
        exact hts t
      · rw [hin (.final q uid qid b) q rfl]
        exact hfin uid qid b

theorem Answers.moves {live : Nat → Prop} {a b : Trace} {n : Nat} (h : Answers a n)
    (hm : Relation.ReflTransGen (Move live) a b) : Answers b n := by
  induction hm with
  | refl => exact h
  | tail _ hstep ih => exact ih.move hstep

/-- A query of a live session is pending or has been answered. -/
def Replied (live : Nat → Prop) (a : Trace) : Prop :=
  ∀ q uid theirs ts, .asked q (.sess uid theirs) ts ∈ a.log → live uid →
    (∃ p, a.pending.lookup q = some p ∧ p.origin = .sess uid theirs) ∨
      ∃ b, .final q uid theirs b ∈ a.log

theorem Replied.move {live : Nat → Prop} {a b : Trace} (h : Replied live a) (hm : Move live a b) :
    Replied live b := by
  intro q uid theirs ts hask hlive
  cases hm with
  | @reply m l q' p t key ok payload queued hp ht =>
    have hask : .asked q (.sess uid theirs) ts ∈ l := by simpa using hask
    exact (h q uid theirs ts hask hlive).imp_right fun ⟨b, hb⟩ => ⟨b, List.mem_append_left _ hb⟩
  | @ended m l q' p t hp ht =>
    have hask : .asked q (.sess uid theirs) ts ∈ l := by simpa using hask
    rcases h q uid theirs ts hask hlive with ⟨p', hp', ho'⟩ | ⟨b, hb⟩
    · refine .inl ?_
      rw [Map.lookup_insert_if]
      split_ifs with hq
      · subst hq
        obtain rfl := Option.some.inj (hp.symm.trans hp')
        exact ⟨_, rfl, ho'⟩
      · exact ⟨p', hp', ho'⟩
    · exact .inr ⟨b, List.mem_append_left _ hb⟩
  | @final m l q' p uid' theirs' queued hp ho =>
    have hask : .asked q (.sess uid theirs) ts ∈ l := by simpa using hask
    rcases h q uid theirs ts hask hlive with ⟨p', hp', ho'⟩ | ⟨b, hb⟩
    · by_cases hq : q = q'
      · subst hq
        obtain rfl := Option.some.inj (hp.symm.trans hp')
        obtain ⟨rfl, rfl⟩ := Origin.sess.inj (ho.symm.trans ho')
        exact .inr ⟨queued, List.mem_append_right _ (List.mem_singleton_self _)⟩
      · exact .inl ⟨p', by rw [AList.lookup_erase_ne hq, hp'], ho'⟩
    · exact .inr ⟨b, List.mem_append_left _ hb⟩
  | forget hm ho =>
    refine (h q uid theirs ts hask hlive).imp_left ?_
    intro hpend
    obtain ⟨p, hp, horig⟩ := hpend
    exact ⟨p, ho q p uid theirs hp horig hlive, horig⟩
  | @other m l x hx =>
    have hask : .asked q (.sess uid theirs) ts ∈ l := by
      rcases List.mem_append.1 hask with hask | hask
      · exact hask
      · rw [← List.mem_singleton.1 hask] at hx
        exact absurd hx nofun
    exact (h q uid theirs ts hask hlive).imp_right fun ⟨b, hb⟩ => ⟨b, List.mem_append_left _ hb⟩

theorem Replied.moves {live : Nat → Prop} {a b : Trace} (h : Replied live a)
    (hm : Relation.ReflTransGen (Move live) a b) : Replied live b := by
  induction hm with
  | refl => exact h
  | tail _ hstep ih => exact ih.move hstep

/-- The target is done with the query since the log had `n` entries. -/
structure Over (a : Trace) (q : Nat) (t : Target) (n : Nat) : Prop where
  left : ∀ p, a.pending.lookup q = some p → t ∉ p.targets
  since : n ≤ a.log.length
  silent : ∀ origin key ok payload b, .reply q t origin key ok payload b ∉ a.log.drop n

theorem Over.move {live : Nat → Prop} {a b : Trace} {q : Nat} {t : Target} {n : Nat}
    (h : Over a q t n) (hm : Move live a b) : Over b q t n := by
  have hlog : ∀ l x, (∀ origin key ok payload b, x ≠ Fx.reply q t origin key ok payload b) →
      n ≤ l.length → (∀ origin key ok payload b, .reply q t origin key ok payload b ∉ l.drop n) →
      n ≤ (l ++ [x]).length ∧
        ∀ origin key ok payload b, .reply q t origin key ok payload b ∉ (l ++ [x]).drop n := by
    intro l x hx hn hl
    refine ⟨hn.trans (by simp), fun origin key ok payload b hmem => ?_⟩
    rw [List.drop_append_of_le_length hn] at hmem
    rcases List.mem_append.1 hmem with hmem | hmem
    · exact hl origin key ok payload b hmem
    · exact hx origin key ok payload b (List.mem_singleton.1 hmem).symm
  obtain ⟨hleft, hsince, hsilent⟩ := h
  cases hm with
  | @reply m l q' p t' key ok payload queued hp ht =>
    obtain ⟨hn, hs⟩ := hlog l (.reply q' t' p.origin key ok payload queued) (by
      intro origin key ok payload b he
      simp only [Fx.reply.injEq] at he
      obtain ⟨rfl, rfl, -⟩ := he
      exact hleft p hp ht) hsince hsilent
    exact ⟨hleft, hn, hs⟩
  | @ended m l q' p t' hp ht =>
    obtain ⟨hn, hs⟩ := hlog l (.ended q' t') (by simp) hsince hsilent
    refine ⟨?_, hn, hs⟩
    intro p' hp' hmem
    rw [Map.lookup_insert_if] at hp'
    split_ifs at hp' with hq
    · obtain rfl := Option.some.inj hp'
      exact hleft p (hq ▸ hp) (List.mem_of_mem_filter hmem)
    · exact hleft p' hp' hmem
  | @final m l q' p uid theirs queued hp ho =>
    obtain ⟨hn, hs⟩ := hlog l (.final q' uid theirs queued) (by simp) hsince hsilent
    refine ⟨?_, hn, hs⟩
    intro p' hp'
    rw [Map.lookup_erase_if] at hp'
    split_ifs at hp'
    exact hleft p' hp'
  | forget hm ho => exact ⟨fun p hp => hleft p (hm q p hp), hsince, hsilent⟩
  | @other m l x hx =>
    obtain ⟨hn, hs⟩ := hlog l x (by
      intro origin key ok payload b he
      rw [he] at hx
      exact absurd hx nofun) hsince hsilent
    exact ⟨hleft, hn, hs⟩

theorem Over.moves {live : Nat → Prop} {a b : Trace} {q : Nat} {t : Target} {n : Nat}
    (h : Over a q t n) (hm : Relation.ReflTransGen (Move live) a b) : Over b q t n := by
  induction hm with
  | refl => exact h
  | tail _ hstep ih => exact ih.move hstep

/-- No query is begun on the way. -/
theorem asked_of_moves {live : Nat → Prop} {a b : Trace}
    (hm : Relation.ReflTransGen (Move live) a b) {q : Nat} {origin : Origin} {ts : List Target}
    (h : .asked q origin ts ∈ b.log) : .asked q origin ts ∈ a.log := by
  induction hm with
  | refl => exact h
  | tail _ hstep ih =>
    refine ih ?_
    cases hstep with
    | forget => exact h
    | reply | ended | final => simpa using h
    | @other m l x hx =>
      rcases List.mem_append.1 h with h | h
      · exact h
      · rw [← List.mem_singleton.1 h] at hx
        exact absurd hx nofun

namespace Core

/-! ## The queries of a node -/

/-- A query waits for targets that are there and have been sent it, for somebody who is there. -/
structure Waits (c : Core) (q : Nat) (p : Pending) : Prop where
  some_target : p.targets ≠ []
  origin : ∀ u, Origin.src p.origin = some u → u ∈ c.sessions
  targets : ∀ u, .sess u ∈ p.targets → u ∈ c.sessions
  sent : ∀ t ∈ p.targets, Sent c.fx q t

/-- The log of a node is in order, and it knows the queries of its sessions. The targets in `h` have
said that they are done. -/
structure Ordered (c : Core) (h : List (Nat × Target × Nat)) : Prop where
  uids : ∀ u ∈ c.sessions, u < c.nextUid
  answers : Answers c.trace c.nextId
  asked : ∀ q uid theirs ts, .asked q (.sess uid theirs) ts ∈ c.fx → uid < c.nextUid
  replied : Replied (· ∈ c.sessions) c.trace
  done : ∀ x ∈ h, x.1 < c.nextId ∧ Over c.trace x.1 x.2.1 x.2.2

/-- What holds of the queries of a node between events. -/
structure Queries (c : Core) (h : List (Nat × Target × Nat)) : Prop extends Ordered c h where
  waits : ∀ q p, c.pending.lookup q = some p → c.Waits q p

variable {c c' : Core} {o : Told} {h : List (Nat × Target × Nat)}

theorem Ordered.works (hq : c.Ordered h) (hw : Works c c') : c'.Ordered h where
  uids u hu := hw.nextUid ▸ hq.uids u (hw.sessions u hu)
  answers := (hq.answers.moves hw.moves).mono hw.nextId
  asked q uid theirs ts hask := hw.nextUid ▸ hq.asked q uid theirs ts (asked_of_moves hw.moves hask)
  replied := Replied.moves (fun q uid theirs ts hask hlive =>
    hq.replied q uid theirs ts hask (hw.sessions uid hlive)) hw.moves
  done x hx := ⟨(hq.done x hx).1.trans_le hw.nextId, (hq.done x hx).2.moves hw.moves⟩

theorem Queries.works (hq : c.Queries h) (hw : Works c c') : c'.Queries h := by
  refine ⟨hq.toOrdered.works hw, fun q p hp => ?_⟩
  obtain ⟨p₀, hp₀, ho, hs, hn⟩ := hw.less q p hp
  obtain ⟨hsome, horig, htgt, hsent⟩ := hq.waits q p₀ hp₀
  refine ⟨fun he => hsome (hn he), ?_, ?_, fun t ht => (hsent t (hs ht)).mono (log_subset hw.moves)⟩
  · intro u hu
    by_contra hgone
    exact (hw.gone q p u hp (horig u (ho ▸ hu)) hgone).1 hu
  · intro u hu
    by_contra hgone
    exact (hw.gone q p u hp (htgt u (hs hu)) hgone).2 hu

/-- A target says that it is done with a query. -/
theorem targetDone_over (c : Core) (o : Told) (q : Nat) (t : Target) :
    Over (c.targetDone o q t).trace q t c.fx.length := by
  have hstart : ∀ m : Map Nat Pending, (∀ p, m.lookup q = some p → t ∉ p.targets) →
      ∀ l, (∀ x ∈ l, x.about ≠ some q ∨ x = .ended q t) → Over ⟨m, c.fx ++ l⟩ q t c.fx.length := by
    intro m hm l hl
    refine ⟨hm, by simp, fun origin key ok payload b hmem => ?_⟩
    rw [List.drop_append_of_le_length le_rfl, List.drop_length, List.nil_append] at hmem
    rcases hl _ hmem with h | h
    · exact h rfl
    · exact absurd h (by simp)
  have hsame := hstart c.pending
  rw [targetDone]
  cases hp : c.pending.lookup q with
  | none =>
    have h := hsame (fun p hp' => absurd (hp.symm.trans hp') (by simp)) [] (by simp)
    rw [List.append_nil] at h
    exact h
  | some p =>
    simp only [dropTarget]
    split
    · let c₁ : Core := { c with
        pending := c.pending.insert q { p with targets := p.targets.filter (· ≠ t) }
        fx := c.fx ++ [.ended q t] }
      have h : Over c₁.trace q t c.fx.length := hstart _ (by
        intro p' hp'
        rw [AList.lookup_insert] at hp'
        rw [← Option.some.inj hp']
        simp) [.ended q t] (by simp)
      split
      · exact h.moves (c₁.finish_moves o q).moves
      · exact h
    · rename_i ht
      have h := hsame (fun p' hp' => Option.some.inj (hp.symm.trans hp') ▸ ht) [] (by simp)
      rw [List.append_nil] at h
      exact h

/-! ## Sessions and queries that come -/

theorem Queries.install (hq : c.Queries h) (o : Told) (stream : Nat) (hello : Hello)
    (dialer : String) (boot sno : Nat) : (c.install o stream hello dialer boot sno).Queries h := by
  rw [install_eq]
  refine Queries.works ?_ (greet_works _ o c.nextUid hello.role)
  have hmem : ∀ u, u ∈ (c.enter stream hello dialer boot sno).sessions ↔
      u = c.nextUid ∨ u ∈ c.sessions := fun u => AList.mem_insert _
  refine ⟨⟨?_, hq.answers, ?_, ?_, hq.done⟩, ?_⟩
  · intro u hu
    rcases (hmem u).1 hu with rfl | hu
    · exact Nat.lt_succ_self _
    · exact (hq.uids u hu).trans (Nat.lt_succ_self _)
  · exact fun q uid theirs ts hask => (hq.asked q uid theirs ts hask).trans (Nat.lt_succ_self _)
  · intro q uid theirs ts hask hlive
    rcases (hmem uid).1 hlive with rfl | hlive
    · exact absurd (hq.asked q _ theirs ts hask) (lt_irrefl _)
    · exact hq.replied q uid theirs ts hask hlive
  · intro q p hp
    obtain ⟨hsome, horig, htgt, hsent⟩ := hq.waits q p hp
    exact ⟨hsome, fun u hu => (hmem u).2 (.inr (horig u hu)),
      fun u hu => (hmem u).2 (.inr (htgt u hu)), hsent⟩

/-- A query is begun. All but its targets is in order at once. -/
theorem begin_answers (hans : Answers c.trace c.nextId) (o : Told) (origin : Origin) (expr : String)
    (timeoutMs : Nat) :
    Answers (c.begin o origin expr timeoutMs).trace (c.begin o origin expr timeoutMs).nextId := by
  have hnew : ∀ x ∈ c.fx, x.about ≠ some c.nextId :=
    fun x hx hq => lt_irrefl _ (hans.ids x hx _ hq)
  refine ⟨hans.sound.append hnew, ?_, ?_⟩
  · intro x hx q hq
    rcases List.mem_append.1 hx with hx | hx
    · exact (hans.ids x hx q hq).trans (Nat.lt_succ_self _)
    · rw [List.mem_singleton.1 hx] at hq
      rw [← Option.some.inj hq]
      exact Nat.lt_succ_self _
  · intro q p hp
    have hp : (c.pending.insert c.nextId
        ⟨origin, c.targets (Origin.src origin) expr, o.now + timeoutMs⟩).lookup q = some p := hp
    rw [Map.lookup_insert_if] at hp
    split_ifs at hp with hq
    · obtain rfl := Option.some.inj hp
      refine ⟨c.targets (Origin.src origin) expr, ?_, fun t => ?_, fun uid qid b hb => ?_⟩
      · rw [hq]
        exact List.mem_append_right _ (List.mem_singleton_self _)
      · refine (and_iff_left fun hend => ?_).symm
        rcases List.mem_append.1 hend with hend | hend
        · exact hnew _ hend (congrArg some hq)
        · exact absurd (List.mem_singleton.1 hend) nofun
      · rcases List.mem_append.1 hb with hb | hb
        · exact hnew _ hb (congrArg some hq)
        · exact absurd (List.mem_singleton.1 hb) nofun
    · obtain ⟨ts, hask, hts, hfin⟩ := hans.pend q p hp
      refine ⟨ts, List.mem_append_left _ hask, fun t => ?_, fun uid qid b hb => ?_⟩
      · have hin : .ended q t ∈ c.fx ++ [.asked c.nextId origin
            (c.targets (Origin.src origin) expr)] ↔ .ended q t ∈ c.fx := by simp
        rw [hts t]
        exact and_congr_right' (not_congr hin.symm)
      · rcases List.mem_append.1 hb with hb | hb
        · exact hfin uid qid b hb
        · exact absurd (List.mem_singleton.1 hb) nofun

theorem Ordered.begin (hq : c.Ordered h) (o : Told) (origin : Origin) (expr : String)
    (timeoutMs : Nat) (horig : ∀ u, Origin.src origin = some u → u ∈ c.sessions) :
    (c.begin o origin expr timeoutMs).Ordered h := by
  have hask : ∀ {q orig ts}, .asked q orig ts ∈ (c.begin o origin expr timeoutMs).fx →
      .asked q orig ts ∈ c.fx ∨ q = c.nextId ∧ orig = origin := by
    intro q orig ts hmem
    rcases List.mem_append.1 hmem with hmem | hmem
    · exact .inl hmem
    · obtain ⟨hid, ho, -⟩ := Fx.asked.inj (List.mem_singleton.1 hmem)
      exact .inr ⟨hid, ho⟩
  have hother : ∀ {q}, q < c.nextId → (c.begin o origin expr timeoutMs).pending.lookup q =
      c.pending.lookup q := fun hlt => AList.lookup_insert_ne hlt.ne
  refine ⟨hq.uids, begin_answers hq.answers o origin expr timeoutMs, ?_, ?_, ?_⟩
  · intro q uid theirs ts hmem
    rcases hask hmem with hmem | ⟨-, ho⟩
    · exact hq.asked q uid theirs ts hmem
    · exact hq.uids uid (horig uid (by rw [← ho]; rfl))
  · intro q uid theirs ts hmem hlive
    rcases hask hmem with hmem | ⟨rfl, ho⟩
    · rcases hq.replied q uid theirs ts hmem hlive with hp | ⟨b, hb⟩
      · refine .inl ?_
        rw [trace, hother (hq.answers.ids _ hmem q rfl)]
        exact hp
      · exact .inr ⟨b, List.mem_append_left _ hb⟩
    · exact .inl ⟨_, AList.lookup_insert _, ho.symm⟩
  · intro x hx
    obtain ⟨hlt, hleft, hsince, hsilent⟩ := hq.done x hx
    have hsince : x.2.2 ≤ c.fx.length := hsince
    refine ⟨hlt.trans (Nat.lt_succ_self _), ?_, ?_, ?_⟩
    · intro p hp
      exact hleft p ((hother hlt).symm.trans hp)
    · show x.2.2 ≤ (c.fx ++ [_]).length
      rw [List.length_append]
      exact hsince.trans (Nat.le_add_right _ _)
    · intro origin' key ok payload b hmem
      have hmem : Fx.reply x.1 x.2.1 origin' key ok payload b ∈ List.drop x.2.2 (c.fx ++
          [.asked c.nextId origin (c.targets (Origin.src origin) expr)]) := hmem
      rw [List.drop_append_of_le_length hsince] at hmem
      rcases List.mem_append.1 hmem with hmem | hmem
      · exact hsilent origin' key ok payload b hmem
      · exact absurd (List.mem_singleton.1 hmem) (by simp)

theorem Queries.routeGet (hq : c.Queries h) (o : Told) (origin : Origin) (expr : String)
    (payload : Payload) (timeoutMs : Nat)
    (horig : ∀ u, Origin.src origin = some u → u ∈ c.sessions) :
    (c.routeGet o origin expr payload timeoutMs).Queries h := by
  obtain ⟨hm, hother, hnew⟩ := c.routeGet_moves o origin expr payload timeoutMs
  refine ⟨(hq.toOrdered.begin o origin expr timeoutMs horig).works hm.works, ?_⟩
  have hsess : (c.routeGet o origin expr payload timeoutMs).sessions = c.sessions := hm.sessions
  have hlog : c.fx ⊆ (c.routeGet o origin expr payload timeoutMs).fx :=
    List.Subset.trans (List.subset_append_left _ _) hm.fx_subset
  intro q p hp
  by_cases he : q = c.nextId
  · subst he
    obtain ⟨hsome, hsent⟩ := hnew p hp
    obtain ⟨p₀, hp₀, ho, hs, -⟩ := hm.less _ p hp
    have hp₀ : p₀ = ⟨origin, c.targets (Origin.src origin) expr, o.now + timeoutMs⟩ :=
      Option.some.inj (hp₀.symm.trans (AList.lookup_insert _))
    subst hp₀
    have ho : p.origin = origin := ho
    refine ⟨hsome, fun u hu => ?_, fun u hu => ?_, hsent⟩
    · rw [hsess]
      exact horig u (ho ▸ hu)
    · rw [hsess]
      exact mem_targets_sess (hs hu)
  · obtain ⟨hsome, ho, ht, hsent⟩ := hq.waits q p ((hother q he).symm.trans hp)
    refine ⟨hsome, fun u hu => ?_, fun u hu => ?_, fun t hmem => (hsent t hmem).mono hlog⟩
    · rw [hsess]
      exact ho u hu
    · rw [hsess]
      exact ht u hu

theorem Queries.handles (hq : c.Queries h) (hh : Handles c c') : c'.Queries h := by
  cases hh with
  | works hw => exact hq.works hw
  | install hw o stream hello dialer boot sno =>
    exact (hq.works hw).install o stream hello dialer boot sno
  | query o origin expr payload timeoutMs horig =>
    exact hq.routeGet o origin expr payload timeoutMs horig

/-! ## Every run -/

/-- The targets that have said that they are done with a query that has been asked, and how long the
log was then. -/
def saysDone (h : List (Nat × Target × Nat)) (c : Core) (a : Told × Ev) :
    List (Nat × Target × Nat) :=
  h ++ match a.2 with
    | .msg u (.final q) => if u ∈ c.sessions ∧ q < c.nextId then [(q, .sess u, c.fx.length)] else []
    | .cmd (.localFinal q id) => if q < c.nextId then [(q, .loc id, c.fx.length)] else []
    | _ => []

theorem Queries.next (hq : c.Queries h) (a : Told × Ev) :
    (machine.next c a).Queries (saysDone h c a) := by
  obtain ⟨o, e⟩ := a
  have hnext : (c.onEv o e).Queries h := hq.handles (c.onEv_handles o e)
  have hdone : ∀ q t, q < c.nextId → c.onEv o e = c.targetDone o q t →
      (c.onEv o e).Queries (h ++ [(q, t, c.fx.length)]) := by
    intro q t hlt he
    refine ⟨⟨hnext.uids, hnext.answers, hnext.asked, hnext.replied, ?_⟩, hnext.waits⟩
    refine List.forall_mem_append.2 ⟨hnext.done, List.forall_mem_singleton.2 ?_⟩
    rw [he]
    exact ⟨hlt.trans_le (c.targetDone_moves o q t).works.nextId, c.targetDone_over o q t⟩
  have hsame : (c.onEv o e).Queries (h ++ []) := by
    rw [List.append_nil]
    exact hnext
  show (c.onEv o e).Queries (h ++ _)
  split
  · rename_i u q he
    obtain rfl : e = .msg u (.final q) := he
    split_ifs with hlt
    · refine hdone q (.sess u) hlt.2 ?_
      obtain ⟨s, hs⟩ := Map.mem_iff_lookup.1 hlt.1
      simp [onEv, onMsg, hs]
    · exact hsame
  · rename_i q id he
    obtain rfl : e = .cmd (.localFinal q id) := he
    split_ifs with hlt
    · exact hdone q (.loc id) hlt rfl
    · exact hsame
  · exact hsame

theorem queries_new (node : String) (router : Bool) (leaseMs boot : Nat) (adv : Option String)
    (seeds : List String) : (Core.new node router leaseMs boot adv seeds).Queries [] where
  uids u hu := absurd hu (AList.notMem_empty u)
  answers := ⟨sound_nil, fun _ hx => absurd hx List.not_mem_nil, fun q _ hp =>
    absurd ((AList.lookup_empty q).symm.trans hp) nofun⟩
  asked _ _ _ _ hx := absurd hx List.not_mem_nil
  replied _ _ _ _ hx := absurd hx List.not_mem_nil
  done _ hx := absurd hx List.not_mem_nil
  waits q _ hp := absurd ((AList.lookup_empty q).symm.trans hp) nofun

theorem Queries.run {acts : List (Told × Ev)} (hq : c.Queries h) (hrun : machine.Legal c acts) :
    ((machine.logged saysDone).exec (c, h) acts).1.Queries
      ((machine.logged saysDone).exec (c, h) acts).2 :=
  Machine.invariant (I := fun x => x.1.Queries x.2) (fun _ a hx _ => hx.next a) hq
    ((machine.logged_legal saysDone (c, h) acts).2 hrun)

/-- The target has said that it is done, its session is closed, or it has not been sent the query. -/
def Finished (c : Core) (h : List (Nat × Target × Nat)) (q : Nat) (t : Target) : Prop :=
  (∃ n, (q, t, n) ∈ h) ∨ (∃ u, t = .sess u ∧ u ∉ c.sessions) ∨ ¬ Sent c.fx q t

/-- How a node answers queries: what its log and its pending queries say when the targets in `h`
have said that they are done. -/
structure Answered (c : Core) (h : List (Nat × Target × Nat)) : Prop where
  /-- A query begins once. -/
  asked : ∀ l₁ q origin ts l₂, c.fx = l₁ ++ .asked q origin ts :: l₂ → ∀ x ∈ l₁, x.about ≠ some q
  /-- A `Final` is for a request that came before, and ends it. -/
  final : ∀ l₁ q uid qid b l₂, c.fx = l₁ ++ .final q uid qid b :: l₂ →
    (∃ ts, .asked q (.sess uid qid) ts ∈ l₁) ∧ ∀ x ∈ l₂, x.about ≠ some q
  /-- A reply comes from a target that was selected and has not left the query. -/
  reply : ∀ l₁ q t origin key ok payload b l₂,
    c.fx = l₁ ++ .reply q t origin key ok payload b :: l₂ →
      (∃ ts, .asked q origin ts ∈ l₁ ∧ t ∈ ts) ∧ .ended q t ∉ l₁ ∧
        ∀ uid qid b, .final q uid qid b ∉ l₁
  /-- None comes after the target has said that it is done. -/
  silent : ∀ q t n, (q, t, n) ∈ h →
    ∀ origin key ok payload b, .reply q t origin key ok payload b ∉ c.fx.drop n
  /-- A pending query waits for a target that was selected and has not left it. -/
  waits : ∀ q p, c.pending.lookup q = some p → p.targets ≠ [] ∧
    ∃ ts, .asked q p.origin ts ∈ c.fx ∧ ∀ t ∈ p.targets, t ∈ ts ∧ .ended q t ∉ c.fx
  /-- A query all of whose targets are finished is over, and who asked has been told. -/
  finished : ∀ q origin ts, .asked q origin ts ∈ c.fx → (∀ t ∈ ts, c.Finished h q t) →
    c.pending.lookup q = none ∧ ∀ uid qid, origin = .sess uid qid → uid ∈ c.sessions →
      ∃ b, .final q uid qid b ∈ c.fx

theorem Queries.answered (hq : c.Queries h) : c.Answered h where
  asked l₁ q origin ts l₂ he := hq.answers.sound l₁ _ l₂ he
  final l₁ q uid qid b l₂ he :=
    ⟨(hq.answers.sound l₁ _ l₂ he).1, hq.answers.sound.after_final he⟩
  reply l₁ q t origin key ok payload b l₂ he := hq.answers.sound l₁ _ l₂ he
  silent q t n hx := (hq.done _ hx).2.silent
  waits := by
    intro q p hp
    obtain ⟨ts, hask, hts, -⟩ := hq.answers.pend q p hp
    exact ⟨(hq.waits q p hp).some_target, ts, hask, fun t ht => (hts t).1 ht⟩
  finished := by
    intro q origin ts hask hfin
    have hgone : c.pending.lookup q = none := by
      by_contra hne
      obtain ⟨p, hp⟩ := Option.ne_none_iff_exists'.1 hne
      obtain ⟨hsome, -, hlive, hsent⟩ := hq.waits q p hp
      obtain ⟨t, ht⟩ := List.exists_mem_of_ne_nil _ hsome
      obtain ⟨ts', hask', hts, -⟩ := hq.answers.pend q p hp
      obtain ⟨-, rfl⟩ := hq.answers.sound.asked_unique hask hask'
      rcases hfin t ((hts t).1 ht).1 with ⟨n, hx⟩ | ⟨u, rfl, hu⟩ | hnot
      · exact (hq.done _ hx).2.left p hp ht
      · exact hu (hlive u ht)
      · exact hnot (hsent t ht)
    refine ⟨hgone, fun uid qid ho hlive => ?_⟩
    rcases hq.replied q uid qid ts (ho ▸ hask) hlive with ⟨p, hp, -⟩ | hb
    · exact absurd (hgone.symm.trans hp) nofun
    · exact hb

end Core

end OxlensSfu.Mesh
