import OxlensSfu.Hub.Ses

/-!
# One session per user, and no sweep of a bound one

Both are about what may happen between two awaits of an operation
(`crates/oxhubd/src/ses/mod.rs`).

**Theorem (`one_session_per_user`).** As long as no two operations are between the look for the old
session of a user and the registration of a new one at once (`Unrivalled`), every registered session
is the one that its user is listed with: what a bind has looked for and disposed is all that there
is. Two binds of one user at once register two (`two_sessions_of_a_user`).

**Theorem (`sweep_spares_bound`).** As long as no session is resumed that a sweep has collected, a
sweep disposes only sessions that are not bound and dropped for the length of the window. A sweep
that awaits the end of one session disposes another that was resumed meanwhile
(`swept_while_bound`).

A thread names only objects that exist; `kept` is the rule for what holds of the state and of
every job that is still to be done.
-/

namespace OxlensSfu.Hub

open Program (Sched)

variable {p : HubPool} {a : Sched (List Job) Told} {h : Ctx} {j : Job} {o : Told}

/-! ## Steps -/

/-- The clock goes on before a step. -/
def Ctx.after (h : Ctx) (o : Told) : Ctx := { h with now := h.now + o.later }

theorem hub_step_nil (h : Ctx) (o : Told) : hub.step h o [] = (h.after o, []) := rfl

theorem hub_step_cons (h : Ctx) (o : Told) (j : Job) (js : List Job) :
    hub.step h o (j :: js) = (((h.after o).run o j).1, ((h.after o).run o j).2 ++ js) := rfl

/-- `I` holds of the state, and `J` of every job to be done. -/
def HubPool.Has (p : HubPool) (I : Ctx → Prop) (J : Ctx → Job → Prop) : Prop :=
  I p.shared ∧ ∀ js ∈ p.threads, ∀ j ∈ js, J p.shared j

/-- What holds of the state and of every job to be done is kept by a step, when the job that is
done keeps both and what it leaves has it, and when operations begin with it. -/
theorem kept {I : Ctx → Prop} {J : Ctx → Job → Prop} (hok : hubMachine.ok p a)
    (hlater : ∀ n, I p.shared → I { p.shared with now := p.shared.now + n } ∧
      ∀ j, J p.shared j → J { p.shared with now := p.shared.now + n } j)
    (hspawn : ∀ j, j.starts = true → (∀ s ∈ j.asks, s ∈ p.shared.given) → I p.shared →
      J p.shared j)
    (hrun : ∀ i o j, a = .step i o → p.job i = some j → I (p.shared.after o) →
      J (p.shared.after o) j →
      I ((p.shared.after o).run o j).1 ∧
      (∀ d ∈ ((p.shared.after o).run o j).2, J ((p.shared.after o).run o j).1 d) ∧
      ∀ js ∈ p.threads, ∀ d ∈ js, J (p.shared.after o) d → J ((p.shared.after o).run o j).1 d)
    (hp : p.Has I J) : (hubMachine.next p a).Has I J := by
  obtain ⟨hI, hJ⟩ := hp
  show HubPool.Has (hub.next p a) I J
  cases a with
  | spawn js =>
    refine ⟨hI, fun ks hks j hj => ?_⟩
    rcases List.mem_append.mp hks with hks | hks
    · exact hJ ks hks j hj
    · rw [List.mem_singleton.mp hks] at hj
      obtain ⟨hfresh, hcalled⟩ : hub.fresh js ∧ ∀ j ∈ js, ∀ s ∈ j.asks, s ∈ p.shared.given := hok
      match js, hfresh with
      | [k], hstarts =>
        rw [List.mem_singleton] at hj
        subst hj
        exact hspawn j hstarts (hcalled j List.mem_cons_self) hI
  | step i o =>
    cases hi : p.threads[i]? with
    | none =>
      rw [Program.next_step_none hub hi]
      exact ⟨hI, hJ⟩
    | some t =>
      rw [Program.next_step hub hi]
      obtain ⟨hI', hJ'⟩ := hlater o.later hI
      cases t with
      | nil =>
        rw [hub_step_nil]
        refine ⟨hI', fun ks hks j hj => ?_⟩
        rcases Program.mem_set_cases hi hks with rfl | ⟨k, -, hk⟩
        · nomatch hj
        · exact hJ' j (hJ ks (List.mem_of_getElem? hk) j hj)
      | cons j js =>
        rw [hub_step_cons]
        have hjob : p.job i = some j := by
          rw [HubPool.job, hi]
          rfl
        have hmem := List.mem_of_getElem? hi
        obtain ⟨hrun₁, hnew, hold⟩ :=
          hrun i o j rfl hjob hI' (hJ' j (hJ _ hmem j List.mem_cons_self))
        refine ⟨hrun₁, fun ks hks d hd => ?_⟩
        rcases Program.mem_set_cases hi hks with rfl | ⟨k, -, hk⟩
        · rcases List.mem_append.mp hd with hd | hd
          · exact hnew d hd
          · have hd := List.mem_cons_of_mem j hd
            exact hold _ hmem d hd (hJ' d (hJ _ hmem d hd))
        · have hk := List.mem_of_getElem? hk
          exact hold ks hk d hd (hJ' d (hJ ks hk d hd))

/-! ## Jobs name objects that exist -/

def Job.names : Job → List Nat
  | .insert s | .opened s | .resumeBind s _ | .dispose s _ | .lowerRooms s | .clear s
  | .dropped s _ _ | .join s _ | .request s | .call s _ | .resume s | .resumeNodes s _
  | .setRooms s _ _ | .dropRoom s _ => [s]
  | _ => []

/-- The tables name objects that exist. -/
structure Ctx.Known (h : Ctx) : Prop where
  given : ∀ s ∈ h.given, s < h.born
  listed : ∀ sid s, h.session sid = some s → s < h.born

def Ctx.Names (h : Ctx) (j : Job) : Prop := ∀ s ∈ j.names, s < h.born

/-! ## What a job does -/

theorem unregister_same (h : Ctx) (s : Nat) :
    (h.unregister s).1.objects = h.objects ∧ (h.unregister s).1.born = h.born ∧
      (h.unregister s).1.given = h.given ∧ (h.unregister s).1.roomSubs = h.roomSubs := by
  rw [Ctx.unregister]
  split <;> exact ⟨rfl, rfl, rfl, rfl⟩

/-- An unregistered session is no longer listed, and the others are as they were. -/
theorem unregister_session (h : Ctx) (s : Nat) (sid : String) :
    (h.unregister s).1.session sid = if sid = (h.objects s).sid then none else h.session sid := by
  rw [Ctx.unregister]
  split
  · next hnone =>
    split
    · next e => exact e ▸ hnone
    · rfl
  · exact Map.lookup_erase_if _ _ _

theorem run_born (h : Ctx) (o : Told) (j : Job) :
    (h.run o j).1.born = h.born ∨ (h.run o j).1.born = h.born + 1 := by
  cases j with
  | remote => exact .inr rfl
  | askSess =>
    simp only [Ctx.run]
    split
    · exact .inl rfl
    · exact .inr rfl
  | dispose s => exact .inl (unregister_same h s).2.1
  | handOver sid =>
    simp only [Ctx.run]
    split
    · exact .inl rfl
    · next s _ => exact .inl (unregister_same (h.modify s _) s).2.1
  | bind | findSess | verify | evictOld | evict | cut | join | request | call | resume | resumeNodes
  | affiliation =>
    simp only [Ctx.run]
    repeat' split
    all_goals exact .inl rfl
  | dropped =>
    simp only [Ctx.run]
    repeat' split
    all_goals exact .inl rfl
  | bumpUser | insert | opened | resumeBind | lowerRooms | clear | sweep | setRooms | bump
  | roomDropped | dropRoom => exact .inl rfl

/-- A session gets listed by its `insert` only. -/
theorem run_session {sid : String} {s : Nat} (hs : (h.run o j).1.session sid = some s) :
    h.session sid = some s ∨ j = .insert s := by
  cases j with
  | insert d =>
    have := Map.lookup_insert_if h.bySid (h.objects d).sid sid d
    rw [Ctx.run, Ctx.session, this] at hs
    split at hs
    · exact .inr (by rw [Option.some.inj hs])
    · exact .inl hs
  | dispose d =>
    have hs : (h.unregister d).1.session sid = some s := hs
    rw [unregister_session] at hs
    split at hs
    · nomatch hs
    · exact .inl hs
  | handOver id =>
    simp only [Ctx.run] at hs
    split at hs
    · exact .inl hs
    · rw [unregister_session] at hs
      split at hs
      · nomatch hs
      · exact .inl hs
  | bind | findSess | askSess | verify | evictOld | evict | cut | join | request | call | resume
  | resumeNodes | affiliation | dropped =>
    simp only [Ctx.run] at hs
    repeat' split at hs
    all_goals exact .inl hs
  | remote | bumpUser | opened | resumeBind | lowerRooms | clear | sweep | setRooms | bump
  | roomDropped | dropRoom => exact .inl hs

theorem run_given {s : Nat} (hs : s ∈ (h.run o j).1.given) : s ∈ h.given ∨ j = .opened s := by
  cases j with
  | opened d =>
    rcases List.mem_cons.mp hs with e | hs
    · exact .inr (by rw [e])
    · exact .inl hs
  | dispose d =>
    have hs : s ∈ (h.unregister d).1.given := hs
    rw [(unregister_same h d).2.2.1] at hs
    exact .inl hs
  | handOver id =>
    simp only [Ctx.run] at hs
    split at hs
    · exact .inl hs
    · rw [(unregister_same _ _).2.2.1] at hs
      exact .inl hs
  | bind | findSess | askSess | verify | evictOld | evict | cut | join | request | call | resume
  | resumeNodes | affiliation | dropped =>
    simp only [Ctx.run] at hs
    repeat' split at hs
    all_goals exact .inl hs
  | remote | bumpUser | insert | resumeBind | lowerRooms | clear | sweep | setRooms | bump
  | roomDropped | dropRoom => exact .inl hs

theorem sessionOfUser_session {user : String} {s : Nat} (hs : h.sessionOfUser user = some s) :
    ∃ sid, h.session sid = some s := by
  obtain ⟨sid, -, hsid⟩ := Option.bind_eq_some_iff.mp hs
  exact ⟨sid, hsid⟩

/-- The job is a part of a bind, up to the registration. -/
def Job.binds : Job → Bool
  | .bind _ _ | .findSess _ _ | .askSess _ _ | .verify _ | .evictOld _ _ | .remote _ _
  | .insert _ => true
  | _ => false

/-- **What a job leaves**, one case for each way to leave one. -/
inductive Ctx.Leaves (h : Ctx) (o : Told) : Job → Job → Prop
  | resumes {conn : Nat} {sid : String} {s : Nat} : h.session sid = some s →
    Leaves h o (.bind conn (some sid)) (.resumeBind s conn)
  | looks {conn : Nat} {sid : String} : Leaves h o (.bind conn (some sid)) (.findSess conn sid)
  | asks {conn : Nat} {sid : String} : Leaves h o (.findSess conn sid) (.askSess conn sid)
  | verifies {j : Job} {conn : Nat} : j.binds = true → Leaves h o j (.verify conn)
  | moves {conn : Nat} {sid : String} {x : SessionData} {d : Job} : o.data = some x →
    d ∈ [Job.bumpUser x.userId true, .insert h.born, .resumeBind h.born conn] →
    Leaves h o (.askSess conn sid) d
  | raises {conn : Nat} {sid room : String} : Leaves h o (.askSess conn sid) (.bump room true)
  | evicts {conn : Nat} {user : String} : Leaves h o (.verify conn) (.evictOld conn user)
  | ousts {conn : Nat} {user : String} {s : Nat} : h.sessionOfUser user = some s →
    Leaves h o (.evictOld conn user) (.dispose s .evict)
  | goesOn {conn : Nat} {user : String} : o.full = false →
    Leaves h o (.evictOld conn user) (.remote conn user)
  | makes {conn : Nat} {user : String} {d : Job} :
    d ∈ [Job.bumpUser user true, .insert h.born, .opened h.born] →
    Leaves h o (.remote conn user) d
  | opens {s conn : Nat} : Leaves h o (.resumeBind s conn) (.opened s)
  | unlists {s : Nat} {cause : Cause} {user : String} {d : Job} :
    d ∈ [Job.bumpUser user false, .lowerRooms s, .clear s] → Leaves h o (.dispose s cause) d
  | lowers {s : Nat} {room : String} : Leaves h o (.lowerRooms s) (.bump room false)
  | handsOver {sid user : String} {s : Nat} {d : Job} : h.session sid = some s →
    d ∈ [Job.bumpUser user false, .lowerRooms s] → Leaves h o (.handOver sid) d
  | evict {sid : String} {s : Nat} : h.session sid = some s →
    Leaves h o (.evict sid) (.dispose s .evict)
  | cut {user : String} {s : Nat} : h.sessionOfUser user = some s →
    Leaves h o (.cut user) (.dispose s .cut)
  | sweeps {sid : String} {s : Nat} : h.session sid = some s → h.due s = true →
    Leaves h o .sweep (.dispose s .window)
  | reclaims {s conn : Nat} : Leaves h o (.dropped s conn true) (.dispose s .reclaim)
  | joins {s : Nat} {room node : String} {d : Job} :
    d ∈ [Job.bump room true, .call s node, .bump room false] → Leaves h o (.join s room) d
  | requests {s : Nat} {node : String} : Leaves h o (.request s) (.call s node)
  | answers {s : Nat} {node : String} {rooms : List String} :
    Leaves h o (.call s node) (.setRooms s node rooms)
  | walks {s : Nat} {nodes : List String} : Leaves h o (.resume s) (.resumeNodes s nodes)
  | visits {s : Nat} {node : String} {nodes rooms : List String} {d : Job} :
    d ∈ [Job.setRooms s node rooms, .resumeNodes s nodes] →
    Leaves h o (.resumeNodes s (node :: nodes)) d
  | affiliates {user node : String} {s : Nat} {rooms : List String} :
    h.sessionOfUser user = some s → Leaves h o (.affiliation user) (.setRooms s node rooms)
  | swaps {s : Nat} {node room : String} {rooms : List String} {up : Bool} :
    Leaves h o (.setRooms s node rooms) (.bump room up)
  | drops {sid room : String} {s : Nat} : h.session sid = some s →
    Leaves h o (.roomDropped room) (.dropRoom s room)
  | leavesRoom {s : Nat} {room : String} : Leaves h o (.dropRoom s room) (.bump room false)

theorem mem_unregister {d : Job} {s : Nat} (hd : d ∈ (h.unregister s).2) :
    ∃ user, d ∈ [Job.bumpUser user false, .lowerRooms s] := by
  rw [Ctx.unregister] at hd
  split at hd
  · exact absurd hd List.not_mem_nil
  · exact ⟨_, hd⟩

theorem mem_setRooms {d : Job} {s : Nat} {node : String} {rooms : List String}
    (hd : d ∈ (h.setRooms o s node rooms).2) : ∃ room up, d = .bump room up := by
  simp only [Ctx.setRooms, List.mem_append, List.mem_map] at hd
  rcases hd with ⟨r, -, rfl⟩ | ⟨r, -, rfl⟩
  · exact ⟨r, true, rfl⟩
  · exact ⟨r, false, rfl⟩

theorem run_leaves {d : Job} (hd : d ∈ (h.run o j).2) : h.Leaves o j d := by
  cases j with
  | bind conn sid =>
    simp only [Ctx.run] at hd
    split at hd
    · rw [List.mem_singleton.mp hd]
      exact .verifies rfl
    · split at hd
      · next hs =>
        rw [List.mem_singleton.mp hd]
        exact .resumes hs
      · rw [List.mem_singleton.mp hd]
        exact .looks
  | findSess conn sid =>
    simp only [Ctx.run] at hd
    split at hd
    · rw [List.mem_singleton.mp hd]
      exact .verifies rfl
    · rw [List.mem_singleton.mp hd]
      split
      · exact .verifies rfl
      · exact .asks
  | askSess conn sid =>
    simp only [Ctx.run] at hd
    split at hd
    · rw [List.mem_singleton.mp hd]
      exact .verifies rfl
    · next x hx =>
      simp only [List.cons_append, List.mem_cons, List.mem_append, List.mem_map,
        List.not_mem_nil, or_false] at hd
      rcases hd with rfl | rfl | ⟨r, -, rfl⟩ | rfl
      · exact .moves hx (by simp)
      · exact .moves hx (by simp)
      · exact .raises
      · exact .moves hx (by simp)
  | verify conn =>
    simp only [Ctx.run] at hd
    split at hd
    · exact absurd hd List.not_mem_nil
    · rw [List.mem_singleton.mp hd]
      exact .evicts
  | evictOld conn user =>
    simp only [Ctx.run] at hd
    split at hd
    · exact absurd hd List.not_mem_nil
    · next hfull =>
      have hfull : o.full = false := by simpa using hfull
      split at hd
      · next s hs =>
        rcases List.mem_cons.mp hd with rfl | hd
        · exact .ousts hs
        · rw [List.mem_singleton.mp hd]
          exact .goesOn hfull
      · rw [List.mem_singleton.mp hd]
        exact .goesOn hfull
  | remote conn user => exact .makes hd
  | resumeBind s conn =>
    rw [List.mem_singleton.mp hd]
    exact .opens
  | dispose s cause =>
    have hd : d ∈ (h.unregister s).2 ++ [.clear s] := hd
    rcases List.mem_append.mp hd with hd | hd
    · obtain ⟨user, hd⟩ := mem_unregister hd
      have hd : d ∈ [Job.bumpUser user false, .lowerRooms s] ++ [.clear s] :=
        List.mem_append_left _ hd
      exact .unlists hd
    · have hd : d ∈ [Job.bumpUser "" false, .lowerRooms s] ++ [.clear s] :=
        List.mem_append_right _ hd
      exact .unlists hd
  | lowerRooms s =>
    obtain ⟨r, -, rfl⟩ := List.mem_map.mp hd
    exact .lowers
  | handOver sid =>
    simp only [Ctx.run] at hd
    split at hd
    · exact absurd hd List.not_mem_nil
    · next s hs =>
      obtain ⟨user, hd⟩ := mem_unregister hd
      exact .handsOver hs hd
  | evict sid =>
    simp only [Ctx.run] at hd
    split at hd
    · exact absurd hd List.not_mem_nil
    · next s hs =>
      rw [List.mem_singleton.mp hd]
      exact .evict hs
  | cut user =>
    simp only [Ctx.run] at hd
    split at hd
    · exact absurd hd List.not_mem_nil
    · next s hs =>
      rw [List.mem_singleton.mp hd]
      exact .cut hs
  | sweep =>
    simp only [Ctx.run, List.mem_map, List.mem_filter, Shuffle.mem_run] at hd
    obtain ⟨s, ⟨hs, hdue⟩, rfl⟩ := hd
    obtain ⟨sid, hsid⟩ := Map.mem_values.mp hs
    exact .sweeps hsid hdue
  | dropped s conn reclaim =>
    simp only [Ctx.run] at hd
    split at hd
    · split at hd
      · next hr =>
        rw [List.mem_singleton.mp hd, hr]
        exact .reclaims
      · exact absurd hd List.not_mem_nil
    · exact absurd hd List.not_mem_nil
  | join s room =>
    simp only [Ctx.run] at hd
    split at hd
    · exact absurd hd List.not_mem_nil
    · exact .joins hd
  | request s =>
    simp only [Ctx.run] at hd
    split at hd
    · exact absurd hd List.not_mem_nil
    · rw [List.mem_singleton.mp hd]
      exact .requests
  | call s node =>
    simp only [Ctx.run] at hd
    split at hd
    · exact absurd hd List.not_mem_nil
    · rw [List.mem_singleton.mp hd]
      exact .answers
  | resume s =>
    simp only [Ctx.run] at hd
    split at hd
    · rw [List.mem_singleton.mp hd]
      exact .walks
    · exact absurd hd List.not_mem_nil
  | resumeNodes s nodes =>
    simp only [Ctx.run] at hd
    split at hd
    · exact absurd hd List.not_mem_nil
    · split at hd
      · exact absurd hd List.not_mem_nil
      · exact .visits hd
  | affiliation user =>
    simp only [Ctx.run] at hd
    split at hd
    · next s _ _ hs _ _ =>
      rw [List.mem_singleton.mp hd]
      exact .affiliates hs
    · exact absurd hd List.not_mem_nil
  | setRooms s node rooms =>
    obtain ⟨r, up, rfl⟩ := mem_setRooms hd
    exact .swaps
  | roomDropped room =>
    simp only [Ctx.run, List.mem_map, Shuffle.mem_run] at hd
    obtain ⟨s, hs, rfl⟩ := hd
    obtain ⟨sid, hsid⟩ := Map.mem_values.mp hs
    exact .drops hsid
  | dropRoom s room =>
    simp only [Ctx.run] at hd
    split at hd
    · rw [List.mem_singleton.mp hd]
      exact .leavesRoom
    · exact absurd hd List.not_mem_nil
  | bumpUser | insert | opened | clear | bump => exact absurd hd List.not_mem_nil

/-- What a job leaves names the session that the job is about, or one that is listed, or a new
one. -/
theorem run_names {d : Job} {s : Nat} (hd : d ∈ (h.run o j).2) (hs : s ∈ d.names) :
    s ∈ j.names ∨ (∃ sid, h.session sid = some s) ∨
      s = h.born ∧ (h.run o j).1.born = h.born + 1 := by
  cases run_leaves hd with
  | resumes hlisted | evict hlisted | sweeps hlisted | drops hlisted =>
    rw [List.mem_singleton.mp hs]
    exact .inr (.inl ⟨_, hlisted⟩)
  | ousts huser | cut huser | affiliates huser =>
    rw [List.mem_singleton.mp hs]
    exact .inr (.inl (sessionOfUser_session huser))
  | moves hx hd =>
    refine .inr (.inr ⟨?_, by rw [Ctx.run, hx]; rfl⟩)
    simp only [List.mem_cons, List.not_mem_nil, or_false] at hd
    rcases hd with rfl | rfl | rfl
    · exact absurd hs List.not_mem_nil
    · exact List.mem_singleton.mp hs
    · exact List.mem_singleton.mp hs
  | makes hd =>
    refine .inr (.inr ⟨?_, rfl⟩)
    simp only [List.mem_cons, List.not_mem_nil, or_false] at hd
    rcases hd with rfl | rfl | rfl
    · exact absurd hs List.not_mem_nil
    · exact List.mem_singleton.mp hs
    · exact List.mem_singleton.mp hs
  | unlists hd =>
    simp only [List.mem_cons, List.not_mem_nil, or_false] at hd
    rcases hd with rfl | rfl | rfl
    · exact absurd hs List.not_mem_nil
    · exact .inl hs
    · exact .inl hs
  | handsOver hlisted hd =>
    simp only [List.mem_cons, List.not_mem_nil, or_false] at hd
    rcases hd with rfl | rfl
    · exact absurd hs List.not_mem_nil
    · rw [List.mem_singleton.mp hs]
      exact .inr (.inl ⟨_, hlisted⟩)
  | joins hd =>
    simp only [List.mem_cons, List.not_mem_nil, or_false] at hd
    rcases hd with rfl | rfl | rfl
    · exact absurd hs List.not_mem_nil
    · exact .inl hs
    · exact absurd hs List.not_mem_nil
  | visits hd =>
    simp only [List.mem_cons, List.not_mem_nil, or_false] at hd
    rcases hd with rfl | rfl
    · exact .inl hs
    · exact .inl hs
  | opens | reclaims | requests | answers | walks => exact .inl hs
  | looks | asks | verifies | raises | evicts | goesOn | lowers | swaps | leavesRoom =>
    exact absurd hs List.not_mem_nil

theorem run_known (hk : h.Known) (hj : h.Names j) : (h.run o j).1.Known ∧
    (∀ d ∈ (h.run o j).2, (h.run o j).1.Names d) ∧
    ∀ d, h.Names d → (h.run o j).1.Names d := by
  have hborn : h.born ≤ (h.run o j).1.born := by
    rcases run_born h o j with e | e <;> omega
  refine ⟨⟨fun s hs => ?_, fun sid s hs => ?_⟩, fun d hd s hs => ?_, fun d hd s hs => ?_⟩
  · rcases run_given hs with hs | rfl
    · exact (hk.given s hs).trans_le hborn
    · exact (hj s List.mem_cons_self).trans_le hborn
  · rcases run_session hs with hs | rfl
    · exact (hk.listed sid s hs).trans_le hborn
    · exact (hj s List.mem_cons_self).trans_le hborn
  · rcases run_names hd hs with hs | ⟨sid, hs⟩ | ⟨rfl, e⟩
    · exact (hj s hs).trans_le hborn
    · exact (hk.listed sid s hs).trans_le hborn
    · omega
  · exact (hd s hs).trans_le hborn

theorem modify_identity (h : Ctx) (s d : Nat) (f : SesState → SesState) :
    ((h.modify d f).objects s).sid = (h.objects s).sid ∧
      ((h.modify d f).objects s).userId = (h.objects s).userId := by
  rw [Ctx.modify]
  dsimp only
  by_cases e : s = d
  · rw [e, Function.update_self]
    exact ⟨rfl, rfl⟩
  · rw [Function.update_of_ne e]
    exact ⟨rfl, rfl⟩

/-- An object has its id and its user for life. -/
theorem run_identity (h : Ctx) (o : Told) (j : Job) {s : Nat} (hs : s < h.born) :
    ((h.run o j).1.objects s).sid = (h.objects s).sid ∧
      ((h.run o j).1.objects s).userId = (h.objects s).userId := by
  have hne : s ≠ h.born := Nat.ne_of_lt hs
  cases j with
  | remote => simp [Ctx.run, Ctx.alloc, Function.update_of_ne hne]
  | askSess =>
    simp only [Ctx.run]
    split
    · exact ⟨rfl, rfl⟩
    · simp [Ctx.alloc, Function.update_of_ne hne]
  | dispose d =>
    rw [show ((h.run o (.dispose d _)).1.objects s) = ((h.unregister d).1.objects s) from rfl,
      (unregister_same h d).1]
    exact ⟨rfl, rfl⟩
  | handOver sid =>
    simp only [Ctx.run]
    split
    · exact ⟨rfl, rfl⟩
    · next d _ =>
      rw [(unregister_same _ _).1]
      exact modify_identity h s d _
  | resumeBind d | clear d | setRooms d | dropRoom d =>
    simp only [Ctx.run, Ctx.setRooms]
    exact modify_identity h s d _
  | dropped d =>
    simp only [Ctx.run]
    split
    · split
      · exact ⟨rfl, rfl⟩
      · dsimp only
        exact modify_identity h s d _
    · exact ⟨rfl, rfl⟩
  | bind | findSess | verify | evictOld | evict | cut | join | request | call | resume | resumeNodes
  | affiliation =>
    simp only [Ctx.run]
    repeat' split
    all_goals exact ⟨rfl, rfl⟩
  | bumpUser | insert | opened | lowerRooms | sweep | bump | roomDropped => exact ⟨rfl, rfl⟩

/-- The jobs that change who is listed. -/
def Job.lists : Job → Bool
  | .insert _ | .dispose _ _ | .handOver _ => true
  | _ => false

theorem run_lists (h : Ctx) (o : Told) {j : Job} (hj : j.lists = false) :
    (h.run o j).1.bySid = h.bySid ∧ (h.run o j).1.byUser = h.byUser := by
  cases j with
  | insert | dispose | handOver => nomatch hj
  | bind | findSess | askSess | verify | evictOld | evict | cut | join | request | call | resume
  | resumeNodes | affiliation | dropped =>
    simp only [Ctx.run]
    repeat' split
    all_goals exact ⟨rfl, rfl⟩
  | remote | bumpUser | opened | resumeBind | lowerRooms | clear | sweep | setRooms | bump
  | roomDropped | dropRoom => exact ⟨rfl, rfl⟩

/-! ## One session per user -/

/-- A listed session has the id that it is listed with, and is the one of its user. -/
def Ctx.Single (h : Ctx) : Prop := ∀ sid s, h.session sid = some s →
  (h.objects s).sid = sid ∧ h.byUser.lookup (h.objects s).userId = some sid

/-- The user of whom the job registers a session, after the look for the one before it. -/
def Ctx.registers (h : Ctx) : Job → Option String
  | .remote _ user => some user
  | .insert s => some (h.objects s).userId
  | _ => none

/-- No operation is between that look and the registration. -/
def HubPool.Free (p : HubPool) (user : String) : Prop :=
  ∀ js ∈ p.threads, ∀ j ∈ js, p.shared.registers j ≠ some user

instance (p : HubPool) (user : String) : Decidable (p.Free user) :=
  inferInstanceAs (Decidable (∀ js ∈ p.threads, ∀ j ∈ js, p.shared.registers j ≠ some user))

/-- No bind looks for the old session of its user, and no session comes from another hub, while
another operation is between the look and the registration for this user. A session that comes
from another hub, which is registered without a look, is the only one of its user. -/
def Unrivalled (p : HubPool) : Sched (List Job) Told → Prop
  | .spawn _ => True
  | .step i o =>
    match p.job i with
    | some (.evictOld _ user) => o.full = false → p.Free user
    | some (.askSess _ _) => ∀ d ∈ o.data, p.Free d.userId ∧ ∀ x ∈ p.shared.bySid.entries,
        (p.shared.objects x.2).userId = d.userId → x.1 = d.sid
    | _ => True

instance (p : HubPool) : (a : Sched (List Job) Told) → Decidable (Unrivalled p a)
  | .spawn _ => .isTrue trivial
  | .step i _ => by
    unfold Unrivalled
    dsimp only
    split <;> infer_instance

theorem unregister_single (hs : h.Single) (s : Nat) : (h.unregister s).1.Single := by
  intro sid d hd
  rw [unregister_session] at hd
  split at hd
  · nomatch hd
  · next hne =>
    obtain ⟨hsid, huser⟩ := hs sid d hd
    rw [(unregister_same h s).1]
    refine ⟨hsid, ?_⟩
    rw [Ctx.unregister]
    split
    · exact huser
    · dsimp only
      split
      · next hmine =>
        -- the user of `d` is listed with `d`, so it is not the one that is unlisted
        have hother : (h.objects d).userId ≠ (h.objects s).userId := by
          intro e
          rw [e, hmine, Option.some.injEq] at huser
          exact hne huser.symm
        rw [Map.lookup_erase_if, if_neg hother]
        exact huser
      · exact huser

theorem insert_single {s : Nat} (hs : h.Single)
    (halone : ∀ sid d, h.session sid = some d → (h.objects d).userId = (h.objects s).userId →
      sid = (h.objects s).sid) : (h.run o (.insert s)).1.Single := by
  intro sid d hd
  have hd : (h.bySid.insert (h.objects s).sid s).lookup sid = some d := hd
  show (h.objects d).sid = sid ∧
    (h.byUser.insert (h.objects s).userId (h.objects s).sid).lookup (h.objects d).userId = some sid
  rw [Map.lookup_insert_if] at hd
  rw [Map.lookup_insert_if]
  split at hd
  · next e =>
    obtain rfl := Option.some.inj hd
    exact ⟨e.symm, by rw [if_pos rfl, e]⟩
  · next hne =>
    obtain ⟨hsid, huser⟩ := hs sid d hd
    rw [if_neg fun e => hne (halone sid d hd e)]
    exact ⟨hsid, huser⟩

theorem run_single (hk : h.Known) (hs : h.Single) (hj : h.Names j)
    (halone : ∀ s, j = .insert s → ∀ sid d, h.session sid = some d →
      (h.objects d).userId = (h.objects s).userId → sid = (h.objects s).sid) :
    (h.run o j).1.Single := by
  by_cases hl : j.lists = false
  · obtain ⟨hsid, huser⟩ := run_lists h o hl
    intro sid d hd
    have hd' : h.session sid = some d := by
      rw [Ctx.session, ← hsid]
      exact hd
    obtain ⟨e₁, e₂⟩ := run_identity h o j (hk.listed sid d hd')
    rw [e₁, e₂, huser]
    exact hs sid d hd'
  · cases j with
    | insert s => exact insert_single hs (halone s rfl)
    | dispose s => exact unregister_single hs s
    | handOver sid =>
      simp only [Ctx.run]
      split
      · exact hs
      · next s hs' =>
        refine unregister_single (fun sid d hd => ?_) s
        obtain ⟨e₁, e₂⟩ := modify_identity h d s fun st => { st with conn := none }
        rw [e₁, e₂]
        exact hs sid d hd
    | _ => exact absurd rfl hl

theorem known_after (hk : h.Known) (n : Nat) : Ctx.Known { h with now := h.now + n } :=
  ⟨hk.given, hk.listed⟩

theorem known_start (home : String) (resumeWindowMs : Nat) :
    (Ctx.start home resumeWindowMs).shared.Known :=
  ⟨fun _ hs => (nomatch hs), fun _ _ hs => nomatch hs⟩

/-- An operation begins with a job about the session of its connection, or about none. -/
theorem starts_known (hstarts : j.starts = true) (hasks : ∀ s ∈ j.asks, s ∈ h.given)
    (hk : h.Known) : h.Names j := by
  intro s hs
  cases j with
  | dispose d cause =>
    cases cause with
    | leave => exact hk.given s (hasks s (by rw [List.mem_singleton.mp hs]; rfl))
    | evict | reclaim | cut | window => nomatch hstarts
  | dropped d | join d | request d | resume d =>
    exact hk.given s (hasks s (by rw [List.mem_singleton.mp hs]; rfl))
  | bind | handOver | evict | cut | sweep | affiliation | roomDropped => nomatch hs
  | _ => nomatch hstarts

/-- What holds in every state of a run. -/
theorem known_run {g : HubPool → Sched (List Job) Told → Prop} {home : String}
    {resumeWindowMs : Nat} {as : List (Sched (List Job) Told)}
    (hl : (hubMachine.restrict g).Legal (Ctx.start home resumeWindowMs) as) {I : Ctx → Prop}
    {J : Ctx → Job → Prop} (hstart : I (Ctx.start home resumeWindowMs).shared)
    (hlater : ∀ h n, I h → I { h with now := h.now + n } ∧
      ∀ j, J h j → J { h with now := h.now + n } j)
    (hspawn : ∀ h j, j.starts = true → J h j)
    (hrun : ∀ p i o j, g p (.step i o) → p.job i = some j → (p.shared.after o).Known →
      (p.shared.after o).Names j → I (p.shared.after o) → J (p.shared.after o) j →
      I ((p.shared.after o).run o j).1 ∧
      (∀ d ∈ ((p.shared.after o).run o j).2, J ((p.shared.after o).run o j).1 d) ∧
      ∀ js ∈ p.threads, ∀ d ∈ js, (p.shared.after o).Names d → J (p.shared.after o) d →
        J ((p.shared.after o).run o j).1 d) :
    (hubMachine.exec (Ctx.start home resumeWindowMs) as).Has I J := by
  have hinv : ((hubMachine.restrict g).exec (Ctx.start home resumeWindowMs) as).Has
      (fun h => h.Known ∧ I h) fun h j => h.Names j ∧ J h j := by
    have hinit : (Ctx.start home resumeWindowMs).Has (fun h => h.Known ∧ I h)
        fun h j => h.Names j ∧ J h j := ⟨⟨known_start _ _, hstart⟩, fun js hjs => nomatch hjs⟩
    refine Machine.invariant (I := fun p : HubPool => p.Has (fun h => h.Known ∧ I h)
      fun h j => h.Names j ∧ J h j) (fun p a hp hok => ?_) hinit hl
    refine kept hok.1 (fun n hI => ?_) (fun j hstarts hasks hI => ?_)
      (fun i o j ha hjob hI hj => ?_) hp
    · obtain ⟨hI', hJ'⟩ := hlater _ n hI.2
      exact ⟨⟨known_after hI.1 n, hI'⟩, fun j hj => ⟨hj.1, hJ' j hj.2⟩⟩
    · exact ⟨starts_known hstarts hasks hI.1, hspawn _ j hstarts⟩
    · obtain ⟨hk', hnew, hold⟩ := run_known (o := o) hI.1 hj.1
      obtain ⟨hI', hnew', hold'⟩ := hrun p i o j (ha ▸ hok.2) hjob hI.1 hj.1 hI.2 hj.2
      exact ⟨⟨hk', hI'⟩, fun d hd => ⟨hnew d hd, hnew' d hd⟩, fun js hjs d hd hJ =>
        ⟨hold d hJ.1, hold' js hjs d hd hJ.1 hJ.2⟩⟩
  rw [Machine.restrict_exec] at hinv
  exact ⟨hinv.1.2, fun js hjs j hj => (hinv.2 js hjs j hj).2⟩

/-! ### Between the look and the registration -/

def Job.disposes : Job → List Nat
  | .dispose s _ => [s]
  | _ => []

/-- Where the job registers a session, the listed ones of its user are among `gone`, or have the id
of the new one. -/
def Ctx.Clear (h : Ctx) (gone : List Nat) (j : Job) : Prop :=
  ∀ user ∈ h.registers j, ∀ sid d, h.session sid = some d → (h.objects d).userId = user →
    d ∈ gone ∨ ∃ s, j = .insert s ∧ sid = (h.objects s).sid

/-- **The law of a thread**: what it has still to dispose before it registers a session is all that
is listed for the user. -/
def Ctx.Cleared (h : Ctx) (gone : List Nat) : List Job → Prop
  | [] => True
  | j :: js => h.Clear gone j ∧ h.Cleared (j.disposes ++ gone) js

/-- The law in another state, where no session of the users in question gets listed. -/
theorem Ctx.Cleared.change {h' : Ctx} {js : List Job} : ∀ {gone gone' : List Nat},
    h.Cleared gone js →
    (∀ j ∈ js, h'.registers j = h.registers j ∧
      ∀ s, j = .insert s → (h'.objects s).sid = (h.objects s).sid) →
    (∀ j ∈ js, ∀ user ∈ h.registers j, ∀ sid d, h'.session sid = some d →
      (h'.objects d).userId = user → h.session sid = some d ∧ (h.objects d).userId = user ∧
        (d ∈ gone → d ∈ gone')) → h'.Cleared gone' js := by
  induction js with
  | nil => exact fun _ _ _ => trivial
  | cons j js ih =>
    intro gone gone' hc hsame hlist
    obtain ⟨hj, hjs⟩ := hc
    obtain ⟨hreg, hid⟩ := hsame j List.mem_cons_self
    refine ⟨fun user huser sid d hd hu => ?_, ih hjs (fun x hx => hsame x (.tail j hx)) ?_⟩
    · rw [hreg] at huser
      obtain ⟨hd', hu', hgone⟩ := hlist j List.mem_cons_self user huser sid d hd hu
      rcases hj user huser sid d hd' hu' with hmem | ⟨s, hs, e⟩
      · exact .inl (hgone hmem)
      · exact .inr ⟨s, hs, e.trans (hid s hs).symm⟩
    · intro x hx user huser sid d hd hu
      obtain ⟨hd', hu', hgone⟩ := hlist x (.tail j hx) user huser sid d hd hu
      refine ⟨hd', hu', fun hmem => ?_⟩
      rcases List.mem_append.mp hmem with hmem | hmem
      · exact List.mem_append_left gone' hmem
      · exact List.mem_append_right _ (hgone hmem)

theorem Ctx.Cleared.mono {js : List Job} {gone gone' : List Nat} (hc : h.Cleared gone js)
    (hsub : ∀ d ∈ gone, d ∈ gone') : h.Cleared gone' js :=
  hc.change (fun _ _ => ⟨rfl, fun _ _ => rfl⟩) fun _ _ _ _ _ d hd hu => ⟨hd, hu, hsub d⟩

/-- Jobs that register nothing keep to it. -/
theorem cleared_idle {js : List Job} (hjs : ∀ j ∈ js, h.registers j = none) :
    ∀ gone, h.Cleared gone js := by
  induction js with
  | nil => exact fun _ => trivial
  | cons j js ih =>
    refine fun gone => ⟨fun user hu => ?_, ih (fun d hd => hjs d (.tail j hd)) _⟩
    rw [hjs j List.mem_cons_self] at hu
    nomatch hu

theorem cleared_append_idle {ks : List Job} (hks : ∀ j ∈ ks, h.registers j = none)
    {js : List Job} : ∀ {gone : List Nat}, h.Cleared gone js → h.Cleared gone (js ++ ks) := by
  induction js with
  | nil => exact fun _ => cleared_idle hks _
  | cons j js ih => exact fun hc => ⟨hc.1, ih hc.2⟩

theorem cleared_idle_append {ks : List Job} (hks : ∀ j ∈ ks, h.registers j = none)
    {js : List Job} : ∀ {gone : List Nat}, h.Cleared gone js → h.Cleared gone (ks ++ js) := by
  induction ks with
  | nil => exact fun hc => hc
  | cons j ks ih =>
    intro gone hc
    refine ⟨fun user hu => ?_, ih (fun d hd => hks d (.tail j hd)) ?_⟩
    · rw [hks j List.mem_cons_self] at hu
      nomatch hu
    · exact hc.mono fun d hd => List.mem_append_right _ hd

theorem registers_idle (h : Ctx) (hj : j.binds = false) : h.registers j = none := by
  cases j with
  | remote | insert => nomatch hj
  | _ => rfl

/-- What is no part of a bind leaves none. -/
theorem run_idle_binds (hj : j.binds = false) : ∀ d ∈ (h.run o j).2, d.binds = false := by
  intro d hd
  cases run_leaves hd with
  | looks | asks | moves | raises | evicts | ousts | goesOn | makes =>
    exact absurd hj Bool.false_ne_true.symm
  | verifies hb => exact absurd (hj.symm.trans hb) Bool.false_ne_true
  | unlists hd | handsOver _ hd | joins hd | visits hd =>
    simp only [List.mem_cons, List.not_mem_nil, or_false] at hd
    rcases hd with rfl | hd
    · rfl
    · rcases hd with rfl | rfl <;> rfl
  | _ => rfl

/-- A bind goes on as one bind, and nothing else becomes one. -/
theorem run_binds (h : Ctx) (o : Told) (j : Job) :
    (h.run o j).2.countP Job.binds ≤ [j].countP Job.binds := by
  cases hj : j.binds with
  | false =>
    rw [List.countP_eq_zero.mpr fun d hd => by simp [run_idle_binds hj d hd]]
    exact Nat.zero_le _
  | true =>
    cases j with
    | bind | findSess | verify | evictOld =>
      simp only [Ctx.run]
      repeat' split
      all_goals first
        | exact le_refl 1
        | exact Nat.zero_le 1
    | askSess conn sid =>
      simp only [Ctx.run]
      split
      · exact le_refl 1
      · next d _ =>
        have hbumps : ((o.order.run (d.servers.map (·.2))).map (Job.bump · true)).countP
            Job.binds = 0 := by
          refine List.countP_eq_zero.mpr fun x hx => ?_
          obtain ⟨r, -, rfl⟩ := List.mem_map.mp hx
          exact Bool.false_ne_true
        rw [List.countP_append, List.countP_cons, List.countP_cons, hbumps]
        exact le_refl 1
    | remote conn user => exact le_refl 1
    | insert => exact Nat.zero_le _
    | _ => exact absurd hj Bool.false_ne_true

/-- Who registers a session goes on from one who did, or begins with a look or with the data of
another hub. -/
theorem run_registers {d : Job} {user : String} (hd : d ∈ (h.run o j).2)
    (hu : (h.run o j).1.registers d = some user) : h.registers j = some user ∨
      (∃ conn, j = .evictOld conn user ∧ o.full = false) ∨
      ∃ conn sid, j = .askSess conn sid ∧ ∃ x ∈ o.data, x.userId = user := by
  have hb : d.binds = true := by
    by_contra hb
    rw [registers_idle _ (by simpa using hb)] at hu
    exact Option.some_ne_none _ hu.symm
  have hstate : ∀ x, o.data = some x → ∀ conn sid,
      (h.run o (.askSess conn sid)).1 = h.alloc ⟨x.sid, x.userId, { servers := x.servers }⟩ := by
    intro x hx conn sid
    rw [Ctx.run, hx]
  have hnew : ∀ x : Session, ((h.alloc x).objects h.born).userId = x.userId := by
    intro x
    simp only [Ctx.alloc, Function.update_self]
  cases run_leaves hd with
  | goesOn hfull => exact .inr (.inl ⟨_, by rw [Option.some.inj hu], hfull⟩)
  | @moves conn sid x _ hx hd =>
    refine .inr (.inr ⟨conn, sid, rfl, x, hx, ?_⟩)
    simp only [List.mem_cons, List.not_mem_nil, or_false] at hd
    rw [hstate x hx] at hu
    rcases hd with rfl | rfl | rfl
    · exact absurd hb Bool.false_ne_true
    · exact (hnew _).symm.trans (Option.some.inj hu)
    · exact absurd hb Bool.false_ne_true
  | makes hd =>
    left
    simp only [List.mem_cons, List.not_mem_nil, or_false] at hd
    rcases hd with rfl | rfl | rfl
    · exact absurd hb Bool.false_ne_true
    · exact congrArg some ((hnew _).symm.trans (Option.some.inj hu))
    · exact absurd hb Bool.false_ne_true
  | unlists hd | handsOver _ hd | joins hd | visits hd =>
    simp only [List.mem_cons, List.not_mem_nil, or_false] at hd
    rcases hd with rfl | hd
    · exact absurd hb Bool.false_ne_true
    · rcases hd with rfl | rfl <;> exact absurd hb Bool.false_ne_true
  | looks | asks | verifies | evicts => exact absurd hu.symm (Option.some_ne_none _)
  | _ => exact absurd hb Bool.false_ne_true

/-- What a job registers, and under which id, it does in the next state. -/
theorem run_same_registers {d : Job} (hn : h.Names d) :
    (h.run o j).1.registers d = h.registers d ∧
      ∀ s, d = .insert s → ((h.run o j).1.objects s).sid = (h.objects s).sid := by
  cases d with
  | insert s =>
    obtain ⟨hsid, huser⟩ := run_identity h o j (hn s List.mem_cons_self)
    refine ⟨congrArg some huser, fun s' e => ?_⟩
    obtain rfl := Job.insert.inj e
    exact hsid
  | _ => exact ⟨rfl, fun _ e => nomatch e⟩

/-- A step of one thread keeps the law of another that registers for other users. -/
theorem Ctx.Cleared.other {js : List Job} {gone : List Nat} (hc : h.Cleared gone js)
    (hk : h.Known) (hj : h.Names j) (hn : ∀ d ∈ js, h.Names d)
    (hapart : ∀ s, j = .insert s → ∀ d ∈ js, h.registers d ≠ some (h.objects s).userId) :
    (h.run o j).1.Cleared gone js := by
  refine hc.change (fun d hd => run_same_registers (hn d hd)) fun d hd user huser sid e he hu => ?_
  rcases run_session he with he | rfl
  · rw [(run_identity h o j (hk.listed sid e he)).2] at hu
    exact ⟨he, hu, id⟩
  · rw [(run_identity h o _ (hj e List.mem_cons_self)).2] at hu
    exact absurd (hu ▸ huser) (hapart e rfl d hd)

/-- The look finds the session that is listed for a user. -/
theorem Ctx.Single.looked (hs : h.Single) {sid : String} {d : Nat} (hd : h.session sid = some d) :
    h.sessionOfUser (h.objects d).userId = some d := by
  rw [Ctx.sessionOfUser, (hs sid d hd).2]
  exact hd

/-- A bind that has looked disposes what it has found before it registers its own. -/
theorem run_looks (hs : h.Single) (conn : Nat) (user : String) :
    (h.run o (.evictOld conn user)).1.Cleared [] (h.run o (.evictOld conn user)).2 := by
  have hidle : ∀ {gone : List Nat}, h.Cleared gone [] := trivial
  rw [Ctx.run]
  split
  · exact hidle
  · cases hold : h.sessionOfUser user with
    | none =>
      refine ⟨fun u hu sid d hd huser => ?_, hidle⟩
      obtain rfl : user = u := Option.some.inj hu
      rw [← huser, hs.looked hd] at hold
      nomatch hold
    | some old =>
      refine ⟨fun u hu => (nomatch hu), fun u hu sid d hd huser => ?_, hidle⟩
      obtain rfl : user = u := Option.some.inj hu
      rw [← huser, hs.looked hd, Option.some.injEq] at hold
      rw [hold]
      exact .inl List.mem_cons_self

/-- What is listed is listed beside a new object. -/
theorem alloc_listed {x : Session} {user : String} (hk : h.Known) {sid : String} {d : Nat}
    (hd : (h.alloc x).session sid = some d) (hu : ((h.alloc x).objects d).userId = user) :
    h.session sid = some d ∧ (h.objects d).userId = user := by
  have hlt := hk.listed sid d hd
  refine ⟨hd, ?_⟩
  simpa [Ctx.alloc, Function.update_of_ne (Nat.ne_of_lt hlt)] using hu

/-- A new object may be registered where nothing is listed for its user but under its id. -/
theorem alloc_clear {x : Session} (hk : h.Known) (hnone : ∀ sid d, h.session sid = some d →
    (h.objects d).userId = x.userId → sid = x.sid) : (h.alloc x).Clear [] (.insert h.born) := by
  intro user hu sid d hd huser
  obtain ⟨hd, huser⟩ := alloc_listed hk hd huser
  have hnew : (h.alloc x).objects h.born = x := by
    simp only [Ctx.alloc, Function.update_self]
  have hux : x.userId = user := by
    simpa [Ctx.registers, hnew] using hu
  refine .inr ⟨h.born, rfl, ?_⟩
  rw [hnew]
  exact hnone sid d hd (huser.trans hux.symm)

/-- A bind goes on by the law. -/
theorem run_cleared (hs : h.Single) (hk : h.Known) (hclear : h.Clear [] j) (hb : j.binds = true)
    (hask : ∀ conn sid, j = .askSess conn sid → ∀ x ∈ o.data, ∀ id d, h.session id = some d →
      (h.objects d).userId = x.userId → id = x.sid) :
    (h.run o j).1.Cleared [] (h.run o j).2 := by
  cases j with
  | evictOld conn user => exact run_looks hs conn user
  | remote conn user =>
    refine ⟨fun _ hu => (nomatch hu), alloc_clear hk fun sid d hd huser => ?_,
      cleared_idle (fun d hd => ?_) _⟩
    · rcases hclear user rfl sid d hd huser with hmem | ⟨s, hs, -⟩
      · nomatch hmem
      · nomatch hs
    · rw [List.mem_singleton.mp hd]
      rfl
  | askSess conn sid =>
    rw [Ctx.run]
    cases hdata : o.data with
    | none => exact ⟨fun _ hu => (nomatch hu), trivial⟩
    | some x =>
      refine ⟨fun _ hu => (nomatch hu), alloc_clear hk fun id d hd huser => ?_,
        cleared_idle (fun d hd => ?_) _⟩
      · exact hask conn sid rfl x hdata id d hd huser
      · rcases List.mem_append.mp hd with hd | hd
        · obtain ⟨r, -, rfl⟩ := List.mem_map.mp hd
          rfl
        · rw [List.mem_singleton.mp hd]
          rfl
  | insert => trivial
  | bind | findSess | verify =>
    simp only [Ctx.run]
    repeat' split
    all_goals first
      | trivial
      | exact ⟨fun _ hu => (nomatch hu), trivial⟩
  | _ => nomatch hb

/-- **A thread keeps its law.** -/
theorem Ctx.Cleared.own {js : List Job} (hc : h.Cleared [] (j :: js)) (hs : h.Single)
    (hk : h.Known) (hn : ∀ d ∈ j :: js, h.Names d) (hone : (j :: js).countP Job.binds ≤ 1)
    (hask : ∀ conn sid, j = .askSess conn sid → ∀ x ∈ o.data, ∀ id d, h.session id = some d →
      (h.objects d).userId = x.userId → id = x.sid) :
    (h.run o j).1.Cleared [] ((h.run o j).2 ++ js) := by
  obtain ⟨hclear, hrest⟩ := hc
  have hnames : ∀ d ∈ js, h.Names d := fun d hd => hn d (.tail j hd)
  cases hb : j.binds with
  | true =>
    rw [List.countP_cons_of_pos hb] at hone
    have hjs : ∀ d ∈ js, (h.run o j).1.registers d = none := fun d hd =>
      registers_idle _ (by simpa using List.countP_eq_zero.mp (by omega) d hd)
    exact cleared_append_idle hjs (run_cleared hs hk hclear hb hask)
  | false =>
    refine cleared_idle_append (fun d hd => registers_idle _ (run_idle_binds hb d hd)) ?_
    have hinsert : ∀ s, j ≠ .insert s := fun s e => by
      rw [e] at hb
      nomatch hb
    cases hj : j.disposes with
    | nil =>
      rw [hj] at hrest
      exact hrest.other hk (hn j List.mem_cons_self) hnames fun s e => absurd e (hinsert s)
    | cons s l =>
      obtain ⟨cause, rfl⟩ : ∃ cause, j = .dispose s cause := by
        cases j with
        | dispose d cause => exact ⟨cause, by rw [(List.cons.inj hj).1]⟩
        | _ => nomatch hj
      refine hrest.change (fun d hd => run_same_registers (hnames d hd)) ?_
      intro d hd user huser sid e he hu
      have he' : (h.unregister s).1.session sid = some e := he
      rw [unregister_session] at he'
      split at he'
      · nomatch he'
      · next hne =>
        rw [(run_identity h o _ (hk.listed sid e he')).2] at hu
        refine ⟨he', hu, fun hmem => ?_⟩
        -- what is still listed has another id than the one that is disposed
        obtain rfl : e = s := List.mem_singleton.mp hmem
        exact absurd (hs sid e he').1.symm hne

/-! ### All threads -/

/-- Two threads do not register for one user. -/
def Ctx.Apart (h : Ctx) (js ks : List Job) : Prop :=
  ∀ j ∈ js, ∀ d ∈ ks, ∀ user, h.registers j = some user → h.registers d ≠ some user

theorem Ctx.Apart.symm {js ks : List Job} (ha : h.Apart js ks) : h.Apart ks js :=
  fun d hd j hj user hu hu' => ha j hj d hd user hu' hu

structure HubPool.Settled (p : HubPool) : Prop where
  single : p.shared.Single
  cleared : ∀ js ∈ p.threads, p.shared.Cleared [] js
  one : ∀ js ∈ p.threads, js.countP Job.binds ≤ 1
  apart : ∀ (i k : Nat) (js ks : List Job), p.threads[i]? = some js → p.threads[k]? = some ks →
    i ≠ k → p.shared.Apart js ks

/-- One thread goes on. -/
theorem HubPool.Settled.set (hp : p.Settled) {i : Nat} {js js' : List Job} {h' : Ctx}
    (hi : p.threads[i]? = some js) (hsingle : h'.Single) (hcleared : h'.Cleared [] js')
    (hone : js'.countP Job.binds ≤ 1)
    (hother : ∀ k ks, k ≠ i → p.threads[k]? = some ks → h'.Cleared [] ks ∧ h'.Apart js' ks ∧
      ∀ d ∈ ks, h'.registers d = p.shared.registers d) :
    HubPool.Settled ⟨h', p.threads.set i js'⟩ where
  single := hsingle
  cleared ks hks := by
    rcases Program.mem_set_cases hi hks with rfl | ⟨k, hk, hks⟩
    · exact hcleared
    · exact (hother k ks hk hks).1
  one ks hks := by
    rcases Program.mem_set_cases hi hks with rfl | ⟨k, -, hks⟩
    · exact hone
    · exact hp.one ks (List.mem_of_getElem? hks)
  apart a b ks ls hks hls hab := by
    obtain ⟨hlt, -⟩ := List.getElem?_eq_some_iff.mp hi
    dsimp only at hks hls
    by_cases ha : i = a <;> by_cases hb : i = b
    · exact absurd (ha.symm.trans hb) hab
    · subst ha
      rw [List.getElem?_set_self hlt] at hks
      rw [List.getElem?_set_ne hb] at hls
      exact Option.some.inj hks ▸ (hother b ls (Ne.symm hb) hls).2.1
    · subst hb
      rw [List.getElem?_set_self hlt] at hls
      rw [List.getElem?_set_ne ha] at hks
      exact Option.some.inj hls ▸ (hother a ks (Ne.symm ha) hks).2.1.symm
    · rw [List.getElem?_set_ne ha] at hks
      rw [List.getElem?_set_ne hb] at hls
      intro j hj d hd user hu
      rw [(hother a ks (Ne.symm ha) hks).2.2 j hj] at hu
      rw [(hother b ls (Ne.symm hb) hls).2.2 d hd]
      exact hp.apart a b ks ls hks hls hab j hj d hd user hu

theorem HubPool.Settled.spawn (hp : p.Settled) (hj : j.starts = true) :
    HubPool.Settled ⟨p.shared, p.threads ++ [[j]]⟩ := by
  have hidle : p.shared.registers j = none := by
    cases j with
    | remote | insert => nomatch hj
    | _ => rfl
  have hcases : ∀ {i : Nat} {js : List Job}, (p.threads ++ [[j]])[i]? = some js →
      p.threads[i]? = some js ∨ js = [j] := by
    intro i js hi
    rw [List.getElem?_append] at hi
    split at hi
    · exact .inl hi
    · exact .inr (List.mem_singleton.mp (List.mem_of_getElem? hi))
  refine ⟨hp.single, fun js hjs => ?_, fun js hjs => ?_, fun a b ks ls hks hls hab => ?_⟩
  · rcases List.mem_append.mp hjs with hjs | hjs
    · exact hp.cleared js hjs
    · rw [List.mem_singleton.mp hjs]
      refine cleared_idle (fun d hd => ?_) []
      rw [List.mem_singleton.mp hd]
      exact hidle
  · rcases List.mem_append.mp hjs with hjs | hjs
    · exact hp.one js hjs
    · rw [List.mem_singleton.mp hjs]
      exact List.countP_le_length
  · rcases hcases hks with hks | rfl
    · rcases hcases hls with hls | rfl
      · exact hp.apart a b ks ls hks hls hab
      · intro _ _ d hd user _ hu
        rw [List.mem_singleton.mp hd, hidle] at hu
        nomatch hu
    · intro d hd _ _ user hu
      rw [List.mem_singleton.mp hd, hidle] at hu
      nomatch hu

/-- A step of a thread that does not register beside another. -/
theorem HubPool.Settled.step (hp : p.Settled) (hhas : p.Has Ctx.Known Ctx.Names) {i : Nat}
    {js : List Job} (hi : p.threads[i]? = some (j :: js)) (hu : Unrivalled p (.step i o)) :
    HubPool.Settled ⟨((p.shared.after o).run o j).1,
      p.threads.set i (((p.shared.after o).run o j).2 ++ js)⟩ := by
  obtain ⟨hk, hnames⟩ := hhas
  have hmem := List.mem_of_getElem? hi
  have hk : (p.shared.after o).Known := known_after hk o.later
  have hn : ∀ d ∈ j :: js, (p.shared.after o).Names d := hnames _ hmem
  have hs : (p.shared.after o).Single := hp.single
  have hcleared : ∀ ks ∈ p.threads, (p.shared.after o).Cleared [] ks := fun ks hks =>
    (hp.cleared ks hks).change (fun _ _ => ⟨rfl, fun _ _ => rfl⟩)
      fun _ _ _ _ _ d hd hu => ⟨hd, hu, id⟩
  have hjob : p.job i = some j := by
    rw [HubPool.job, hi]
    rfl
  have hone := hp.one _ hmem
  have hfew : ((((p.shared.after o).run o j).2 ++ js)).countP Job.binds ≤ 1 := by
    have hrun := run_binds (p.shared.after o) o j
    rw [← List.singleton_append, List.countP_append] at hone
    rw [List.countP_append]
    omega
  have hask : ∀ conn sid, j = .askSess conn sid → ∀ x ∈ o.data, ∀ id d,
      (p.shared.after o).session id = some d →
        ((p.shared.after o).objects d).userId = x.userId → id = x.sid := by
    rintro conn sid rfl x hx id d hd huser
    rw [Unrivalled, hjob] at hu
    exact (hu x hx).2 ⟨id, d⟩ ((Map.mem_entries _).mpr hd) huser
  have hlone : ∀ s, j = .insert s → ∀ sid d, (p.shared.after o).session sid = some d →
      ((p.shared.after o).objects d).userId = ((p.shared.after o).objects s).userId →
        sid = ((p.shared.after o).objects s).sid := by
    rintro s rfl sid d hd huser
    rcases (hcleared _ hmem).1 _ rfl sid d hd huser with hin | ⟨s', e, hsid⟩
    · nomatch hin
    · rw [hsid, Job.insert.inj e]
  refine hp.set hi (run_single hk hs (hn j List.mem_cons_self) hlone)
    ((hcleared _ hmem).own hs hk hn hone hask) hfew fun k ks hki hks => ?_
  have hksn : ∀ d ∈ ks, (p.shared.after o).Names d := hnames ks (List.mem_of_getElem? hks)
  have hapart := hp.apart i k _ ks hi hks (Ne.symm hki)
  refine ⟨(hcleared ks (List.mem_of_getElem? hks)).other hk (hn j List.mem_cons_self) hksn ?_,
    fun d hd e he user hd' => ?_, fun d hd => (run_same_registers (hksn d hd)).1⟩
  · rintro s rfl d hd
    exact hapart _ List.mem_cons_self d hd _ rfl
  · rw [(run_same_registers (hksn e he)).1]
    rcases List.mem_append.mp hd with hd | hd
    · rw [Unrivalled, hjob] at hu
      rcases run_registers hd hd' with hreg | ⟨conn, rfl, hfull⟩ | ⟨conn, sid, rfl, x, hx, rfl⟩
      · exact hapart j List.mem_cons_self e he user hreg
      · exact hu hfull ks (List.mem_of_getElem? hks) e he
      · exact (hu x hx).1 ks (List.mem_of_getElem? hks) e he
    · rw [(run_same_registers (hn d (.tail j hd))).1] at hd'
      exact hapart d (.tail j hd) e he user hd'

theorem HubPool.Settled.next (hp : p.Settled) (hhas : p.Has Ctx.Known Ctx.Names)
    (hok : (hubMachine.restrict Unrivalled).ok p a) : (hubMachine.next p a).Settled := by
  show HubPool.Settled (hub.next p a)
  cases a with
  | spawn js =>
    obtain ⟨⟨hfresh, -⟩, -⟩ : (hub.fresh js ∧ _) ∧ _ := hok
    match js, hfresh with
    | [j], hstarts => exact hp.spawn hstarts
  | step i o =>
    cases hi : p.threads[i]? with
    | none =>
      rw [Program.next_step_none hub hi]
      exact hp
    | some js =>
      rw [Program.next_step hub hi]
      cases js with
      | nil =>
        rw [hub_step_nil]
        refine hp.set hi hp.single trivial (Nat.zero_le 1) fun k ks hki hks => ⟨?_, nofun, ?_⟩
        · exact (hp.cleared ks (List.mem_of_getElem? hks)).change
            (fun _ _ => ⟨rfl, fun _ _ => rfl⟩) fun _ _ _ _ _ d hd hu => ⟨hd, hu, id⟩
        · exact fun _ _ => rfl
      | cons j js =>
        rw [hub_step_cons]
        exact hp.step hhas hi hok.2

theorem known_next (hok : hubMachine.ok p a) (hp : p.Has Ctx.Known Ctx.Names) :
    (hubMachine.next p a).Has Ctx.Known Ctx.Names := by
  refine kept hok (fun n hk => ⟨known_after hk n, fun _ hj => hj⟩)
    (fun j hstarts hasks hk => starts_known hstarts hasks hk) (fun i o j _ _ hk hj => ?_) hp
  obtain ⟨hk', hnew, hold⟩ := run_known (o := o) hk hj
  exact ⟨hk', hnew, fun _ _ d _ => hold d⟩

/-- In every state of a run without rivals, each listed session is the one of its user. -/
theorem single_run {home : String} {resumeWindowMs : Nat} {as : List (Sched (List Job) Told)}
    (hl : (hubMachine.restrict Unrivalled).Legal (Ctx.start home resumeWindowMs) as) :
    (hubMachine.exec (Ctx.start home resumeWindowMs) as).shared.Single := by
  have hstart : (Ctx.start home resumeWindowMs).Has Ctx.Known Ctx.Names ∧
      (Ctx.start home resumeWindowMs).Settled := by
    have hnone : ∀ js, js ∉ (Ctx.start home resumeWindowMs).threads := fun _ => List.not_mem_nil
    refine ⟨⟨known_start _ _, fun js hjs => absurd hjs (hnone js)⟩, fun sid s hs => (nomatch hs),
      fun js hjs => absurd hjs (hnone js), fun js hjs => absurd hjs (hnone js),
      fun i k js ks hjs => absurd (List.mem_of_getElem? hjs) (hnone js)⟩
  have hinv := Machine.invariant (M := hubMachine.restrict Unrivalled)
    (I := fun p : HubPool => p.Has Ctx.Known Ctx.Names ∧ p.Settled)
    (fun p a hp hok => ⟨known_next hok.1 hp.1, hp.2.next hp.1 hok⟩) hstart hl
  rw [Machine.restrict_exec] at hinv
  exact hinv.2.single

/-- Every registered session is the one that its user is listed with, so no user has two. -/
def Ctx.OneEach (h : Ctx) : Prop := ∀ sid s, h.session sid = some s →
  h.byUser.lookup (h.objects s).userId = some (h.objects s).sid ∧
    ∀ sid' s', h.session sid' = some s' → (h.objects s').userId = (h.objects s).userId → s' = s

theorem Ctx.Single.oneEach (hs : h.Single) : h.OneEach := by
  intro sid s hsid
  obtain ⟨rfl, huser⟩ := hs sid s hsid
  refine ⟨huser, fun sid' s' hsid' e => ?_⟩
  obtain ⟨-, huser'⟩ := hs sid' s' hsid'
  rw [e, huser, Option.some.injEq] at huser'
  rw [← huser', hsid, Option.some.injEq] at hsid'
  exact hsid'.symm

theorem one_session_per_user {home : String} {resumeWindowMs : Nat}
    {as : List (Sched (List Job) Told)}
    (hl : (hubMachine.restrict Unrivalled).Legal (Ctx.start home resumeWindowMs) as) :
    (hubMachine.exec (Ctx.start home resumeWindowMs) as).shared.OneEach :=
  (single_run hl).oneEach

/-- A new bind on `conn`, done by thread `i` while no session of the user is there. -/
def bindAlone (i conn : Nat) (user sid : String) : List (Sched (List Job) Told) :=
  [.spawn [.bind conn none], .step i {}, .step i { user := some user }, .step i {}] ++
    .step i { sid } :: List.replicate 3 (.step i {})

/-- `u` binds, and binds again from elsewhere: the first session is evicted. -/
def rebind : List (Sched (List Job) Told) :=
  bindAlone 0 1 "u" "s1" ++
    [.spawn [.bind 2 none], .step 1 {}, .step 1 { user := some "u" }, .step 1 {}] ++
      List.replicate 4 (.step 1 {}) ++ .step 1 { sid := "s2" } :: List.replicate 3 (.step 1 {})

theorem one_session_per_user_rebind :
    (hubMachine.exec (Ctx.start "a" 60000) rebind).shared.session "s2" = some 1 ∧
      (hubMachine.exec (Ctx.start "a" 60000) rebind).shared.OneEach :=
  ⟨by decide, one_session_per_user (by decide)⟩

/-- Two devices of `u` bind at once: both find no session to evict. -/
def bindTwice : List (Sched (List Job) Told) :=
  [.spawn [.bind 1 none], .step 0 {}, .step 0 { user := some "u" }, .step 0 {},
    .spawn [.bind 2 none], .step 1 {}, .step 1 { user := some "u" }, .step 1 {}] ++
      .step 0 { sid := "s1" } :: List.replicate 3 (.step 0 {}) ++
        .step 1 { sid := "s2" } :: List.replicate 3 (.step 1 {})

/-- Both sessions are registered, and `u` is listed with the second. -/
theorem two_sessions_of_a_user :
    hubMachine.Legal (Ctx.start "a" 60000) bindTwice ∧
      let p := hubMachine.exec (Ctx.start "a" 60000) bindTwice
      p.quiet ∧ p.shared.session "s1" = some 0 ∧ p.shared.session "s2" = some 1 ∧
        (p.shared.objects 0).userId = "u" ∧ (p.shared.objects 1).userId = "u" ∧
        p.shared.byUser.lookup "u" = some "s2" := by
  decide

/-- The first registration of a run that is not alone leaves a user with two sessions. -/
theorem crowded_registers_two {s d : Nat} {sid : String} (hs : h.Single)
    (hd : h.session sid = some d) (huser : (h.objects d).userId = (h.objects s).userId)
    (hne : sid ≠ (h.objects s).sid) : ¬ (h.run o (.insert s)).1.OneEach := by
  intro hone
  obtain ⟨rfl, -⟩ := hs sid d hd
  have hstays : (h.run o (.insert s)).1.session (h.objects d).sid = some d := by
    show (h.bySid.insert (h.objects s).sid s).lookup (h.objects d).sid = some d
    rw [Map.lookup_insert_if, if_neg hne]
    exact hd
  have hlisted : (h.byUser.insert (h.objects s).userId (h.objects s).sid).lookup
      (h.objects d).userId = some (h.objects d).sid := (hone _ d hstays).1
  rw [huser, Map.lookup_insert_if, if_pos rfl, Option.some.injEq] at hlisted
  exact hne hlisted.symm

/-! ## The sweep -/

theorem due_iff {s : Nat} : h.due s = true ↔ (h.objects s).st.bound = false ∧
    ∃ d, (h.objects s).st.droppedAt = some d ∧ d + h.resumeWindowMs ≤ h.now := by
  simp only [Ctx.due, Bool.and_eq_true, Bool.not_eq_true', Option.any_eq_true, decide_eq_true_eq]

/-- A session that is not bound has no connection. -/
def Ctx.Loose (h : Ctx) : Prop :=
  ∀ s, s < h.born → (h.objects s).st.bound = false → (h.objects s).st.conn = none

/-- What a sweep has collected is still due. -/
def Ctx.Collected (h : Ctx) (j : Job) : Prop :=
  ∀ s, j = .dispose s .window → h.due s = true

/-- No session is resumed that a sweep has collected. -/
def Spared (p : HubPool) : Sched (List Job) Told → Prop
  | .spawn _ => True
  | .step i _ =>
    match p.job i with
    | some (.resumeBind s _) => ∀ js ∈ p.threads, Job.dispose s .window ∉ js
    | _ => True

instance (p : HubPool) : (a : Sched (List Job) Told) → Decidable (Spared p a)
  | .spawn _ => .isTrue trivial
  | .step i _ => by
    unfold Spared
    dsimp only
    split <;> infer_instance

theorem unregister_clock (h : Ctx) (s : Nat) :
    (h.unregister s).1.now = h.now ∧ (h.unregister s).1.resumeWindowMs = h.resumeWindowMs := by
  rw [Ctx.unregister]
  split <;> exact ⟨rfl, rfl⟩

theorem run_clock (h : Ctx) (o : Told) (j : Job) :
    (h.run o j).1.now = h.now ∧ (h.run o j).1.resumeWindowMs = h.resumeWindowMs := by
  cases j with
  | dispose s => exact unregister_clock h s
  | handOver sid =>
    simp only [Ctx.run]
    split
    · exact ⟨rfl, rfl⟩
    · exact unregister_clock _ _
  | bind | findSess | askSess | verify | evictOld | evict | cut | join | request | call | resume
  | resumeNodes | affiliation | dropped =>
    simp only [Ctx.run]
    repeat' split
    all_goals exact ⟨rfl, rfl⟩
  | remote | bumpUser | insert | opened | resumeBind | lowerRooms | clear | sweep | setRooms | bump
  | roomDropped | dropRoom => exact ⟨rfl, rfl⟩

/-- What a job makes of the state of a session: that of one that is bound, that of one that has
lost its connection now, or one that is as long dropped as it was. -/
inductive Turn (h : Ctx) (s : Nat) (j : Job) : SesState → Prop where
  | bound {st} (hj : ∃ conn, j = .resumeBind s conn) (hb : st.bound = true) : Turn h s j st
  | drop {st} (hb : ∃ conn, (h.objects s).st.conn = some conn) (hn : st.conn = none) : Turn h s j st
  | stay {st} (hb : st.bound = true → (h.objects s).st.bound = true)
      (hd : st.droppedAt = (h.objects s).st.droppedAt)
      (hn : st.conn = none ∨
        st.conn = (h.objects s).st.conn ∧ st.bound = (h.objects s).st.bound) : Turn h s j st

theorem Turn.same (h : Ctx) (s : Nat) (j : Job) : Turn h s j (h.objects s).st :=
  .stay id rfl (.inr ⟨rfl, rfl⟩)

theorem Turn.modify {s d : Nat} {f : SesState → SesState}
    (hf : d = s → Turn h s j (f (h.objects s).st)) : Turn h s j ((h.modify d f).objects s).st := by
  rw [Ctx.modify]
  dsimp only
  by_cases e : s = d
  · subst e
    rw [Function.update_self]
    exact hf rfl
  · rw [Function.update_of_ne e]
    exact .same h s j

theorem run_turn (h : Ctx) (o : Told) (j : Job) {s : Nat} (hs : s < h.born) :
    Turn h s j ((h.run o j).1.objects s).st := by
  have hne : s ≠ h.born := Nat.ne_of_lt hs
  cases j with
  | remote =>
    simp only [Ctx.run, Ctx.alloc]
    rw [Function.update_of_ne hne]
    exact .same h s _
  | askSess =>
    simp only [Ctx.run, Ctx.alloc]
    split
    · exact .same h s _
    · dsimp only
      rw [Function.update_of_ne hne]
      exact .same h s _
  | dispose d =>
    show Turn h s _ ((h.unregister d).1.objects s).st
    rw [(unregister_same h d).1]
    exact .same h s _
  | handOver sid =>
    simp only [Ctx.run]
    split
    · exact .same h s _
    · rw [(unregister_same _ _).1]
      exact .modify fun _ => .stay id rfl (.inl rfl)
  | resumeBind d conn =>
    simp only [Ctx.run]
    exact .modify fun e => .bound ⟨conn, by rw [e]⟩ rfl
  | clear d =>
    simp only [Ctx.run]
    exact .modify fun _ => .stay (fun hb => nomatch hb) rfl (.inl rfl)
  | setRooms d | dropRoom d =>
    simp only [Ctx.run, Ctx.setRooms]
    exact .modify fun _ => .stay id rfl (.inr ⟨rfl, rfl⟩)
  | dropped d conn reclaim =>
    simp only [Ctx.run]
    split
    · next hmine =>
      split
      · exact .same h s _
      · dsimp only
        exact .modify fun e => .drop ⟨conn, e ▸ hmine.1⟩ rfl
    · exact .same h s _
  | bind | findSess | verify | evictOld | evict | cut | join | request | call | resume | resumeNodes
  | affiliation =>
    simp only [Ctx.run]
    repeat' split
    all_goals exact .same h s _
  | bumpUser | insert | opened | lowerRooms | sweep | bump | roomDropped => exact .same h s _

/-- A new object is bound, or has no connection. -/
theorem run_new (h : Ctx) (o : Told) (j : Job) (hborn : (h.run o j).1.born = h.born + 1) :
    ((h.run o j).1.objects h.born).st.bound = true ∨
      ((h.run o j).1.objects h.born).st.conn = none := by
  have hsame : h.born ≠ h.born + 1 := by omega
  cases j with
  | remote =>
    simp only [Ctx.run, Ctx.alloc]
    rw [Function.update_self]
    exact .inl rfl
  | askSess =>
    simp only [Ctx.run, Ctx.alloc] at hborn ⊢
    split at hborn
    · exact absurd hborn hsame
    · dsimp only
      rw [Function.update_self]
      exact .inr rfl
  | dispose d => exact absurd ((unregister_same h d).2.1.symm.trans hborn) hsame
  | handOver sid =>
    simp only [Ctx.run] at hborn
    split at hborn
    · exact absurd hborn hsame
    · exact absurd ((unregister_same _ _).2.1.symm.trans hborn) hsame
  | bind | findSess | verify | evictOld | evict | cut | join | request | call | resume | resumeNodes
  | affiliation | dropped =>
    simp only [Ctx.run] at hborn
    repeat' split at hborn
    all_goals exact absurd hborn hsame
  | bumpUser | insert | opened | resumeBind | lowerRooms | clear | sweep | setRooms | bump
  | roomDropped | dropRoom => exact absurd hborn hsame

theorem run_loose (hl : h.Loose) (o : Told) (j : Job) : (h.run o j).1.Loose := by
  intro s hs hfree
  rcases Nat.lt_or_ge s h.born with hlt | hge
  · cases run_turn h o j hlt with
    | bound _ hb => rw [hb] at hfree; nomatch hfree
    | drop _ hn => exact hn
    | stay _ _ hn =>
      rcases hn with hn | ⟨hn, hb⟩
      · exact hn
      · rw [hn]
        exact hl s hlt (hb ▸ hfree)
  · obtain hb | hb := run_born h o j
    · omega
    · obtain rfl : s = h.born := by omega
      rcases run_new h o j hb with hbound | hn
      · rw [hbound] at hfree; nomatch hfree
      · exact hn

/-- A session that is due stays due, unless it is resumed. -/
theorem run_due {s : Nat} (hl : h.Loose) (hs : s < h.born) (hdue : h.due s = true)
    (hj : ∀ conn, j ≠ .resumeBind s conn) : (h.run o j).1.due s = true := by
  obtain ⟨hfree, d, hd, hold⟩ := due_iff.mp hdue
  obtain ⟨hnow, hwin⟩ := run_clock h o j
  rw [due_iff, hnow, hwin]
  cases run_turn h o j hs with
  | bound hj' =>
    obtain ⟨conn, e⟩ := hj'
    exact absurd e (hj conn)
  | drop hb =>
    obtain ⟨conn, e⟩ := hb
    rw [hl s hs hfree] at e
    nomatch e
  | stay hb hd' => exact ⟨by simpa [hfree] using hb, d, hd' ▸ hd, hold⟩

/-- It is a sweep that leaves the disposals of a sweep, and of what is due. -/
theorem run_collects {s : Nat} (hd : Job.dispose s .window ∈ (h.run o j).2) :
    j = .sweep ∧ h.due s = true := by
  cases run_leaves hd with
  | sweeps _ hdue => exact ⟨rfl, hdue⟩
  | moves _ hd | makes hd | unlists hd | handsOver _ hd | joins hd | visits hd =>
    exact absurd hd (by simp)

theorem due_after {s : Nat} (hdue : h.due s = true) (n : Nat) :
    Ctx.due { h with now := h.now + n } s = true := by
  obtain ⟨hfree, d, hd, hold⟩ := due_iff.mp hdue
  exact due_iff.mpr ⟨hfree, d, hd, hold.trans (Nat.le_add_right _ _)⟩

/-- Whatever thread is to dispose a session for a sweep: the session is not bound, and has been
dropped for the length of the window. -/
theorem sweep_spares_bound {home : String} {resumeWindowMs : Nat}
    {as : List (Sched (List Job) Told)}
    (hl : (hubMachine.restrict Spared).Legal (Ctx.start home resumeWindowMs) as) {i s : Nat}
    (hi : (hubMachine.exec (Ctx.start home resumeWindowMs) as).job i = some (.dispose s .window))
    (o : Told) :
    let h := (hubMachine.exec (Ctx.start home resumeWindowMs) as).shared.after o
    (h.objects s).st.bound = false ∧
      ∃ d, (h.objects s).st.droppedAt = some d ∧ d + h.resumeWindowMs ≤ h.now := by
  have hinv := known_run hl (I := Ctx.Loose) (J := Ctx.Collected) (fun s hs => nomatch hs)
    (fun h n hI => ⟨hI, fun j hj s e => due_after (hj s e) n⟩)
    (fun h j hstarts s e => by rw [e] at hstarts; nomatch hstarts)
    (fun p i o j hspared hjob hk hj hI hJ => ?_)
  · obtain ⟨js, hjs, hhead⟩ := Option.bind_eq_some_iff.mp hi
    have hmem := List.mem_of_mem_head? hhead
    exact due_iff.mp (due_after (hinv.2 js (List.mem_of_getElem? hjs) _ hmem s rfl) o.later)
  · refine ⟨run_loose hI o j, fun d hd s e => ?_, fun js hjs d hd hn hJd s e => ?_⟩
    · obtain ⟨rfl, hdue⟩ := run_collects (e ▸ hd)
      exact hdue
    · refine run_due hI (hn s (by rw [e]; exact List.mem_singleton_self s)) (hJd s e) ?_
      rintro conn rfl
      rw [Spared, hjob] at hspared
      exact hspared js hjs (e ▸ hd)

/-- `u` binds and loses the connection; a minute later a sweep collects the session. -/
def lapse : List (Sched (List Job) Told) :=
  bindAlone 0 1 "u" "s1" ++
    [.spawn [.dropped 0 1 false], .step 1 {}, .spawn [.sweep], .step 2 { later := 60000 }]

theorem sweep_spares_bound_lapse :
    let h := (hubMachine.exec (Ctx.start "a" 60000) lapse).shared.after {}
    (h.objects 0).st.bound = false ∧
      ∃ d, (h.objects 0).st.droppedAt = some d ∧ d + h.resumeWindowMs ≤ h.now :=
  sweep_spares_bound (i := 2) (by decide) (by decide) {}

/-- Two sessions are due; while the sweep disposes one, the other is resumed. -/
def lateResume : List (Sched (List Job) Told) :=
  bindAlone 0 1 "u" "s1" ++ bindAlone 1 2 "v" "s2" ++
    [.spawn [.dropped 0 1 false], .step 2 {}, .spawn [.dropped 1 2 false], .step 3 {},
      .spawn [.sweep], .step 4 { later := 60000 }, .step 4 {}, .step 4 {}, .step 4 {},
      .spawn [.bind 3 (some "s1")], .step 5 {}, .step 5 {}, .step 5 {}, .step 4 {}]

/-- The sweep goes on with the other one, which is bound to its new connection. -/
theorem swept_while_bound :
    hubMachine.Legal (Ctx.start "a" 60000) lateResume ∧
      let p := hubMachine.exec (Ctx.start "a" 60000) lateResume
      p.job 4 = some (.dispose 0 .window) ∧ (p.shared.objects 0).st.bound = true ∧
        (p.shared.objects 0).st.conn = some 3 ∧ (p.shared.objects 0).st.droppedAt = none := by
  decide

end OxlensSfu.Hub
