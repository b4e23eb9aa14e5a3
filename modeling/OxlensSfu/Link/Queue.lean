import OxlensSfu.Link.Creds

/-!
# The queue of the receive thread

The index lags behind the books: a name waits in a call, then in the queue. `settled` is the entry
of a name once the queue is empty, and `Inv` says of it what the index is to have. Pushing a
command keeps `Inv` when the command is prompt, and applying one always does.
-/

namespace OxlensSfu.Ice

/-- The name a call has still to register, and its transport. -/
def Call.registers : Call → Option (Nat × String)
  | .creating tr u => some (tr, u)
  | .dropping _ tr u => some (tr, u)
  | .registering tr u => some (tr, u)
  | .unregistering _ | .done => none

/-- The name a restart has still to register, and its transport. -/
def Call.restarts : Call → Option (Nat × String)
  | .dropping _ tr u => some (tr, u)
  | .registering tr u => some (tr, u)
  | .creating _ _ | .unregistering _ | .done => none

/-- What a command makes of the entry of `u`. -/
def RecvCmd.on (u : String) (x : Option Nat) : RecvCmd → Option Nat
  | .register u' tr => if u' = u then some tr else x
  | .dropUfrag u' => if u' = u then none else x
  | .unregister tr => x.filter (· ≠ tr)

namespace State

/-- The entry of `u` once the commands of the queue are applied. -/
def settled (s : State) (u : String) : Option Nat := s.recvCmds.foldl (RecvCmd.on u) (s.byUfrag u)

/-- A call has still to register the name. -/
def Due (s : State) (u : String) : Prop :=
  ∃ (i : Nat) (c : Call) (tr : Nat), s.calls[i]? = some c ∧ c.registers = some (tr, u)

/-- Every name is used for the transport it was drawn for, and registered by the call that drew
it. -/
structure Names (s : State) : Prop where
  call : ∀ i c tr u, s.calls[i]? = some c → c.registers = some (tr, u) → s.drawn u = some (tr, i)
  cmd : ∀ u tr, .register u tr ∈ s.recvCmds → ∃ i, s.drawn u = some (tr, i)
  index : ∀ u tr, s.byUfrag u = some tr → ∃ i, s.drawn u = some (tr, i)
  book : ∀ (tr : Nat) (t : Transport), s.transports[tr]? = some t →
    ∀ u ∈ t.creds.ufrags, ∃ i, s.drawn u = some (tr, i)
  distinct : ∀ (tr : Nat) (t : Transport), s.transports[tr]? = some t → t.creds.ufrags.Nodup
  range : ∀ u tr i, s.drawn u = some (tr, i) → tr < s.transports.length

/-- Every name is registered once: by a call, then in the queue, then in the index. -/
structure Once (s : State) : Prop where
  call : ∀ u, s.Due u → (∀ tr, .register u tr ∉ s.recvCmds) ∧ s.byUfrag u = none
  index : ∀ u, s.byUfrag u ≠ none → ∀ tr, .register u tr ∉ s.recvCmds
  cmds : s.recvCmds.Pairwise fun c c' => ∀ u tr tr', c = .register u tr → c' ≠ .register u tr'

/-- The name in use is registered before all others of its transport. -/
structure First (s : State) : Prop where
  cmd : ∀ tr t l₁ l₂, s.transports[tr]? = some t →
    s.recvCmds = l₁ ++ .register t.creds.active.ufrag tr :: l₂ →
      (∀ u, s.byUfrag u ≠ some tr) ∧ ∀ u, .register u tr ∉ l₁
  restarts : ∀ c ∈ s.calls, ∀ tr u, c.restarts = some (tr, u) → ∀ t, s.transports[tr]? = some t →
    t.creds.active.ufrag ≠ u
  creating : ∀ tr u, .creating tr u ∈ s.calls →
    (∃ t, s.transports[tr]? = some t ∧ t.closed = false ∧ t.creds.ufrags = [u]) ∧
      ∀ u' i, s.drawn u' = some (tr, i) → u' = u

/-- What is dropped is in no book, and what is unregistered is closed. -/
structure Gone (s : State) : Prop where
  known : ∀ u, .dropUfrag u ∈ s.recvCmds ∨ s.Doomed u → s.drawn u ≠ none
  drop : ∀ u, .dropUfrag u ∈ s.recvCmds ∨ s.Doomed u → ∀ (tr : Nat) (t : Transport),
    s.transports[tr]? = some t → u ∉ t.creds.ufrags
  unregister : ∀ tr, .unregister tr ∈ s.recvCmds ∨ .unregistering tr ∈ s.calls →
    ∃ t, s.transports[tr]? = some t ∧ t.closed = true

/-- The index will have the names of an open transport, and none of a closed one. -/
structure Settles (s : State) : Prop where
  only : ∀ tr t, s.transports[tr]? = some t → t.closed = false → ∀ u, s.settled u = some tr →
    u ∈ t.creds.ufrags ∨ s.Doomed u
  all : ∀ tr t, s.transports[tr]? = some t → t.closed = false → ∀ u ∈ t.creds.ufrags, ¬ s.Due u →
    s.settled u = some tr
  closed : ∀ tr t, s.transports[tr]? = some t → t.closed = true → .unregistering tr ∉ s.calls →
    (∀ u, s.settled u ≠ some tr) ∧ ∀ key, s.byAddr key = some tr → .unregister tr ∈ s.recvCmds
  addr : ∀ key tr, s.byAddr key = some tr → tr < s.transports.length

structure Inv (s : State) : Prop where
  names : s.Names
  once : s.Once
  first : s.First
  gone : s.Gone
  settles : s.Settles

/-! ## Names and their places -/

section Mono

variable {s s' : State}

/-- A step that draws no name. -/
theorem Names.mono (h : s.Names) (hdrawn : s'.drawn = s.drawn)
    (hcall : ∀ (i : Nat) (c' : Call) x, s'.calls[i]? = some c' → c'.registers = some x →
      ∃ c, s.calls[i]? = some c ∧ c.registers = some x)
    (hcmd : ∀ u tr, .register u tr ∈ s'.recvCmds → .register u tr ∈ s.recvCmds ∨
      ∃ (i : Nat) (c : Call), s.calls[i]? = some c ∧ c.registers = some (tr, u))
    (hindex : ∀ u tr, s'.byUfrag u = some tr → s.byUfrag u = some tr ∨
      .register u tr ∈ s.recvCmds)
    (hbook : ∀ (tr : Nat) (t' : Transport), s'.transports[tr]? = some t' →
      ∃ t, s.transports[tr]? = some t ∧ t'.creds.ufrags.Sublist t.creds.ufrags)
    (hlen : s'.transports.length = s.transports.length) : s'.Names where
  call i c' tr u hi hc := by
    obtain ⟨c, hi, hc⟩ := hcall i c' _ hi hc
    rw [hdrawn]
    exact h.call i c tr u hi hc
  cmd u tr hu := by
    rw [hdrawn]
    rcases hcmd u tr hu with hu | ⟨i, c, hi, hc⟩
    · exact h.cmd u tr hu
    · exact ⟨i, h.call i c tr u hi hc⟩
  index u tr hu := by
    rw [hdrawn]
    rcases hindex u tr hu with hu | hu
    · exact h.index u tr hu
    · exact h.cmd u tr hu
  book tr t' ht' u hu := by
    obtain ⟨t, ht, hsub⟩ := hbook tr t' ht'
    rw [hdrawn]
    exact h.book tr t ht u (hsub.subset hu)
  distinct tr t' ht' := by
    obtain ⟨t, ht, hsub⟩ := hbook tr t' ht'
    exact (h.distinct tr t ht).sublist hsub
  range u tr i hd := by
    rw [hdrawn] at hd
    rw [hlen]
    exact h.range u tr i hd

/-- Two transports do not share a name. -/
theorem drawn_unique {u : String} {tr tr' : Nat} (ht : ∃ i, s.drawn u = some (tr, i))
    (ht' : ∃ i, s.drawn u = some (tr', i)) : tr = tr' := by
  obtain ⟨i, hi⟩ := ht
  obtain ⟨j, hj⟩ := ht'
  exact (Prod.mk.inj (Option.some.inj (hi.symm.trans hj))).1

end Mono

/-! ## The entry of a name through the queue -/

@[simp] theorem on_unregister {u : String} {x : Option Nat} {tr tr' : Nat} :
    (RecvCmd.unregister tr).on u x = some tr' ↔ x = some tr' ∧ tr' ≠ tr := by
  simp [RecvCmd.on, Option.filter_eq_some_iff]

@[simp] theorem on_register_of_ne {u u' : String} (h : u' ≠ u) (x : Option Nat) (tr : Nat) :
    (RecvCmd.register u' tr).on u x = x := if_neg h

@[simp] theorem on_dropUfrag_of_ne {u u' : String} (h : u' ≠ u) (x : Option Nat) :
    (RecvCmd.dropUfrag u').on u x = x := if_neg h

theorem byUfrag_apply (s : State) (c : RecvCmd) (u : String) :
    (s.apply c).byUfrag u = c.on u (s.byUfrag u) := by
  cases c with
  | register u' tr => simp [apply, RecvCmd.on, Function.update_apply, eq_comm]
  | dropUfrag u' => simp [apply, RecvCmd.on, Function.update_apply, eq_comm]
  | unregister tr => rfl

/-- An entry that is there and does not last is dropped, unregistered or given to another. -/
theorem foldl_on_ne {u : String} {tr : Nat} {q : List RecvCmd}
    (h : q.foldl (RecvCmd.on u) (some tr) ≠ some tr) :
    .dropUfrag u ∈ q ∨ .unregister tr ∈ q ∨ ∃ tr', tr' ≠ tr ∧ .register u tr' ∈ q := by
  by_contra hnot
  simp only [not_or, not_exists, not_and] at hnot
  obtain ⟨hd, hu, hr⟩ := hnot
  refine h ?_
  clear h
  induction q with
  | nil => rfl
  | cons c q ih =>
    have hc : c.on u (some tr) = some tr := by
      cases c with
      | register u' tr' =>
        rw [RecvCmd.on]
        split_ifs with he
        · by_contra hne
          exact hr tr' (fun e => hne (congrArg some e)) (he ▸ List.mem_cons_self)
        · rfl
      | dropUfrag u' => exact on_dropUfrag_of_ne (fun e : u' = u => hd (e ▸ List.mem_cons_self)) _
      | unregister tr' => exact on_unregister.2 ⟨rfl, fun e => hu (e ▸ List.mem_cons_self)⟩
    rw [List.foldl_cons, hc]
    exact ih (fun hm => hd (List.mem_cons_of_mem c hm)) (fun hm => hu (List.mem_cons_of_mem c hm))
      fun tr' hne hm => hr tr' hne (List.mem_cons_of_mem c hm)

/-- A name without entry gets one only by being registered. -/
theorem foldl_on_none {u : String} {q : List RecvCmd} (hr : ∀ tr, .register u tr ∉ q) :
    q.foldl (RecvCmd.on u) none = none := by
  induction q with
  | nil => rfl
  | cons c q ih =>
    have hc : c.on u none = none := by
      cases c with
      | register u' tr' =>
        exact on_register_of_ne (fun e : u' = u => hr tr' (e ▸ List.mem_cons_self)) _ _
      | dropUfrag u' => simp [RecvCmd.on]
      | unregister tr' => rfl
    rw [List.foldl_cons, hc]
    exact ih fun tr hm => hr tr (List.mem_cons_of_mem c hm)

/-! ## A command is pushed -/

section Push

variable {s : State} {i : Nat} {c c' : Call} {cmd : RecvCmd}

theorem push_eq (hi : s.calls[i]? = some c) (hc : Call.push c = (some cmd, c')) :
    s.push i = { s with recvCmds := s.recvCmds ++ [cmd], calls := s.calls.set i c' } := by
  simp only [push, hi, hc, Option.toList_some]

theorem settled_push (hi : s.calls[i]? = some c) (hc : Call.push c = (some cmd, c')) (u : String) :
    (s.push i).settled u = cmd.on u (s.settled u) := by
  rw [push_eq hi hc]
  simp [settled]

/-- The four kinds of command a call pushes. -/
theorem push_cases (hc : Call.push c = (some cmd, c')) :
    (∃ tr u, c = .creating tr u ∧ cmd = .register u tr ∧ c' = .done) ∨
    (∃ tr u, c = .registering tr u ∧ cmd = .register u tr ∧ c' = .done) ∨
    (∃ old tr u, c = .dropping old tr u ∧ cmd = .dropUfrag old ∧ c' = .registering tr u) ∨
    ∃ tr, c = .unregistering tr ∧ cmd = .unregister tr ∧ c' = .done := by
  cases c with
  | creating tr u =>
    obtain ⟨h, rfl⟩ := Prod.mk.inj hc
    exact .inl ⟨tr, u, rfl, (Option.some.inj h).symm, rfl⟩
  | registering tr u =>
    obtain ⟨h, rfl⟩ := Prod.mk.inj hc
    exact .inr (.inl ⟨tr, u, rfl, (Option.some.inj h).symm, rfl⟩)
  | dropping old tr u =>
    obtain ⟨h, rfl⟩ := Prod.mk.inj hc
    exact .inr (.inr (.inl ⟨old, tr, u, rfl, (Option.some.inj h).symm, rfl⟩))
  | unregistering tr =>
    obtain ⟨h, rfl⟩ := Prod.mk.inj hc
    exact .inr (.inr (.inr ⟨tr, rfl, (Option.some.inj h).symm, rfl⟩))
  | done => simp [Call.push] at hc

/-- What is left of a call was part of it. -/
theorem push_registers (hc : Call.push c = (some cmd, c')) {x : Nat × String}
    (h : c'.registers = some x) : c.registers = some x ∧ ∀ u tr, cmd ≠ .register u tr := by
  rcases push_cases hc with ⟨_, _, rfl, rfl, rfl⟩ | ⟨_, _, rfl, rfl, rfl⟩ |
    ⟨_, _, _, rfl, rfl, rfl⟩ | ⟨_, rfl, rfl, rfl⟩
  · simp [Call.registers] at h
  · simp [Call.registers] at h
  · exact ⟨h, fun _ _ => nofun⟩
  · simp [Call.registers] at h

theorem push_restarts (hc : Call.push c = (some cmd, c')) {x : Nat × String}
    (h : c'.restarts = some x) : c.restarts = some x := by
  rcases push_cases hc with ⟨_, _, rfl, rfl, rfl⟩ | ⟨_, _, rfl, rfl, rfl⟩ |
    ⟨_, _, _, rfl, rfl, rfl⟩ | ⟨_, rfl, rfl, rfl⟩
  · simp [Call.restarts] at h
  · simp [Call.restarts] at h
  · exact h
  · simp [Call.restarts] at h

theorem push_register (hc : Call.push c = (some cmd, c')) {u : String} {tr : Nat}
    (h : cmd = .register u tr) :
    c.registers = some (tr, u) ∧ (c = .creating tr u ∨ c = .registering tr u) := by
  subst h
  rcases push_cases hc with ⟨_, _, rfl, h, -⟩ | ⟨_, _, rfl, h, -⟩ | ⟨_, _, _, -, h, -⟩ | ⟨_, -, h, -⟩
  · obtain ⟨rfl, rfl⟩ := RecvCmd.register.inj h
    exact ⟨rfl, .inl rfl⟩
  · obtain ⟨rfl, rfl⟩ := RecvCmd.register.inj h
    exact ⟨rfl, .inr rfl⟩
  · exact absurd h nofun
  · exact absurd h nofun

theorem due_of_push (hi : s.calls[i]? = some c) (hc : Call.push c = (some cmd, c')) {u : String}
    (h : (s.push i).Due u) : s.Due u ∧ (s.Names → ∀ tr, cmd ≠ .register u tr) := by
  rw [push_eq hi hc] at h
  obtain ⟨j, d, tr, hj, hd⟩ := h
  rw [getElem?_set_slot hi] at hj
  split_ifs at hj with hji
  · obtain rfl := Option.some.inj hj
    obtain ⟨hreg, hne⟩ := push_registers hc hd
    exact ⟨⟨i, c, tr, hi, hreg⟩, fun _ tr' => hne u tr'⟩
  · refine ⟨⟨j, d, tr, hj, hd⟩, ?_⟩
    -- The name was drawn by call `j` and so is not registered by call `i`.
    intro hn tr' he
    have hdi := hn.call i c tr' u hi (push_register hc he).1
    have hdj := hn.call j d tr u hj hd
    exact hji (Prod.mk.inj (Option.some.inj (hdj.symm.trans hdi))).2

theorem Names.push (h : s.Names) (hi : s.calls[i]? = some c)
    (hc : Call.push c = (some cmd, c')) : (s.push i).Names := by
  rw [push_eq hi hc]
  refine h.mono rfl ?_ ?_ (fun u tr hu => .inl hu) (fun tr t ht => ⟨t, ht, .refl _⟩) rfl
  · intro j d x hj hd
    rw [getElem?_set_slot hi] at hj
    split_ifs at hj with hji
    · obtain rfl := Option.some.inj hj
      exact ⟨c, hji ▸ hi, (push_registers hc hd).1⟩
    · exact ⟨d, hj, hd⟩
  · intro u tr hu
    rcases List.mem_append.1 hu with hu | hu
    · exact .inl hu
    · exact .inr ⟨i, c, hi, (push_register hc (List.mem_singleton.1 hu).symm).1⟩

theorem Once.push (h : s.Once) (hn : s.Names) (hi : s.calls[i]? = some c)
    (hc : Call.push c = (some cmd, c')) : (s.push i).Once := by
  have hdue : ∀ u tr, cmd = .register u tr → s.Due u := fun u tr he =>
    ⟨i, c, tr, hi, (push_register hc he).1⟩
  refine ⟨?_, ?_, ?_⟩
  · intro u hu
    obtain ⟨hold, hne⟩ := due_of_push hi hc hu
    obtain ⟨hcmd, hidx⟩ := h.call u hold
    rw [push_eq hi hc]
    refine ⟨?_, hidx⟩
    intro tr hm
    rcases List.mem_append.1 hm with hm | hm
    · exact hcmd tr hm
    · exact hne hn tr (List.mem_singleton.1 hm).symm
  · rw [push_eq hi hc]
    intro u hu tr hm
    rcases List.mem_append.1 hm with hm | hm
    · exact h.index u hu tr hm
    · exact hu (h.call u (hdue u tr (List.mem_singleton.1 hm).symm)).2
  · rw [push_eq hi hc]
    refine List.pairwise_append.2 ⟨h.cmds, List.pairwise_singleton _ _, ?_⟩
    intro d hd e he u tr tr' hdu heu
    rw [List.mem_singleton.1 he] at heu
    exact (h.call u (hdue u tr' heu)).1 tr (hdu ▸ hd)

theorem mem_push (hi : s.calls[i]? = some c) (hc : Call.push c = (some cmd, c')) {d : Call}
    (h : d ∈ (s.push i).calls) : d = c' ∨ d ∈ s.calls := by
  rw [push_eq hi hc] at h
  exact (List.mem_or_eq_of_mem_set h).symm

theorem First.push (h : s.First) (hn : s.Names) (ho : s.Once) (hi : s.calls[i]? = some c)
    (hc : Call.push c = (some cmd, c')) : (s.push i).First := by
  have hmem : c ∈ s.calls := List.mem_of_getElem? hi
  refine ⟨?_, ?_, ?_⟩
  · rw [push_eq hi hc]
    intro tr t l₁ l₂ ht heq
    rcases l₂.eq_nil_or_concat with rfl | ⟨l, d, rfl⟩
    · -- The command is the one that is pushed.
      obtain ⟨rfl, hcmd⟩ := List.append_inj' heq rfl
      obtain ⟨hreg, hcase⟩ := push_register hc (List.singleton_inj.1 hcmd)
      obtain ⟨hnot, hnone⟩ := ho.call _ ⟨i, c, tr, hi, hreg⟩
      rcases hcase with rfl | rfl
      · obtain ⟨-, huniq⟩ := h.creating _ _ hmem
        refine ⟨?_, ?_⟩
        · intro u hu
          obtain ⟨j, hj⟩ := hn.index u _ hu
          rw [huniq u j hj] at hu
          exact absurd (hnone.symm.trans hu) (Option.some_ne_none _).symm
        · intro u hu
          obtain ⟨j, hj⟩ := hn.cmd u _ hu
          rw [huniq u j hj] at hu
          exact hnot _ hu
      · exact absurd rfl (h.restarts _ hmem tr _ rfl t ht)
    · rw [List.concat_eq_append, ← List.cons_append, ← List.append_assoc] at heq
      exact h.cmd tr t l₁ l ht (List.append_inj' heq rfl).1
  · intro d hd tr u hdu t ht
    rw [push_eq hi hc] at ht
    rcases mem_push hi hc hd with rfl | hd
    · exact h.restarts c hmem tr u (push_restarts hc hdu) t ht
    · exact h.restarts d hd tr u hdu t ht
  · intro tr u hd
    have hd : .creating tr u ∈ s.calls := by
      refine (mem_push hi hc hd).resolve_left ?_
      rintro rfl
      rcases push_cases hc with ⟨_, _, -, -, h⟩ | ⟨_, _, -, -, h⟩ | ⟨_, _, _, -, -, h⟩ | ⟨_, -, -, h⟩
      all_goals exact absurd h nofun
    rw [push_eq hi hc]
    exact h.creating tr u hd

/-- A call that drops a name, or unregisters a transport, other than the one that pushes. -/
theorem mem_push_of_ne (hi : s.calls[i]? = some c) (hc : Call.push c = (some cmd, c')) {d : Call}
    (h : d ∈ s.calls) (hne : d ≠ c) : d ∈ (s.push i).calls := by
  rw [push_eq hi hc]
  exact mem_set_slot hi _ h hne

theorem drop_of_push (hi : s.calls[i]? = some c) (hc : Call.push c = (some cmd, c')) {u : String}
    (hu : .dropUfrag u ∈ (s.push i).recvCmds ∨ (s.push i).Doomed u) :
    .dropUfrag u ∈ s.recvCmds ∨ s.Doomed u := by
  rcases hu with hu | ⟨d, hd, hdu⟩
  · rw [push_eq hi hc] at hu
    refine (List.mem_append.1 hu).imp_right fun hm => ?_
    rcases push_cases hc with ⟨_, _, -, rfl, -⟩ | ⟨_, _, -, rfl, -⟩ | ⟨_, _, _, rfl, rfl, -⟩ |
      ⟨_, -, rfl, -⟩
    · simp at hm
    · simp at hm
    · exact ⟨_, List.mem_of_getElem? hi, by simp_all [Call.drops]⟩
    · simp at hm
  · refine .inr ⟨d, (mem_push hi hc hd).resolve_left ?_, hdu⟩
    rintro rfl
    rcases push_cases hc with ⟨_, _, -, -, rfl⟩ | ⟨_, _, -, -, rfl⟩ | ⟨_, _, _, -, -, rfl⟩ |
      ⟨_, -, -, rfl⟩
    all_goals exact absurd hdu nofun

theorem unregister_of_push (hi : s.calls[i]? = some c) (hc : Call.push c = (some cmd, c')) {tr : Nat}
    (hu : .unregister tr ∈ (s.push i).recvCmds ∨ .unregistering tr ∈ (s.push i).calls) :
    .unregister tr ∈ s.recvCmds ∨ .unregistering tr ∈ s.calls := by
  have hmem : c ∈ s.calls := List.mem_of_getElem? hi
  rcases hu with hu | hu
  · rw [push_eq hi hc] at hu
    refine (List.mem_append.1 hu).imp_right fun hm => ?_
    rcases push_cases hc with ⟨_, _, -, rfl, -⟩ | ⟨_, _, -, rfl, -⟩ | ⟨_, _, _, -, rfl, -⟩ |
      ⟨_, rfl, rfl, -⟩
    · simp at hm
    · simp at hm
    · simp at hm
    · simpa using (by simpa using hm : tr = _) ▸ hmem
  · refine .inr ((mem_push hi hc hu).resolve_left ?_)
    rintro rfl
    rcases push_cases hc with ⟨_, _, -, -, h⟩ | ⟨_, _, -, -, h⟩ | ⟨_, _, _, -, -, h⟩ | ⟨_, -, -, h⟩
    all_goals exact absurd h nofun

theorem Gone.push (h : s.Gone) (hi : s.calls[i]? = some c) (hc : Call.push c = (some cmd, c')) :
    (s.push i).Gone := by
  refine ⟨?_, ?_, ?_⟩
  · intro u hu
    have hold := drop_of_push hi hc hu
    rw [push_eq hi hc]
    exact h.known u hold
  · intro u hu tr t ht
    rw [push_eq hi hc] at ht
    exact h.drop u (drop_of_push hi hc hu) tr t ht
  · intro tr hu
    have hold := unregister_of_push hi hc hu
    rw [push_eq hi hc]
    exact h.unregister tr hold

/-- A name is registered while it can still be removed. -/
theorem Settles.push_register {tr₀ : Nat} {u₀ : String} (h : s.Settles) (hn : s.Names)
    (hi : s.calls[i]? = some c) (hc : Call.push c = (some (.register u₀ tr₀), .done))
    (hreg : c.registers = some (tr₀, u₀)) (hdrops : c.drops = none)
    (hunreg : ∀ tr, c ≠ .unregistering tr) (hprompt : s.Removable tr₀ u₀) :
    (s.push i).Settles := by
  have htr : (s.push i).transports = s.transports := by rw [push_eq hi hc]
  have hdoomed : ∀ u, s.Doomed u → (s.push i).Doomed u := by
    rintro u ⟨d, hd, hdu⟩
    refine ⟨d, mem_push_of_ne hi hc hd ?_, hdu⟩
    rintro rfl
    exact absurd (hdrops.symm.trans hdu) (Option.some_ne_none u).symm
  have hcalls : ∀ tr, .unregistering tr ∉ (s.push i).calls → .unregistering tr ∉ s.calls := by
    intro tr hnot hm
    exact hnot (mem_push_of_ne hi hc hm fun e => hunreg tr e.symm)
  refine ⟨?_, ?_, ?_, ?_⟩
  · intro tr t ht ho u hu
    rw [htr] at ht
    rw [settled_push hi hc, RecvCmd.on] at hu
    split_ifs at hu with he
    · obtain rfl := Option.some.inj hu
      have hp := hprompt t ht
      rw [ho, if_neg Bool.false_ne_true, he] at hp
      exact hp.imp_right (hdoomed u)
    · exact (h.only tr t ht ho u hu).imp_right (hdoomed u)
  · intro tr t ht ho u hu hdue
    rw [htr] at ht
    rw [settled_push hi hc, RecvCmd.on]
    split_ifs with he
    · subst he
      exact congrArg some (drawn_unique ⟨i, hn.call i c tr₀ u₀ hi hreg⟩ (hn.book tr t ht u₀ hu))
    · refine h.all tr t ht ho u hu ?_
      rintro ⟨j, d, tr', hj, hd⟩
      refine hdue ⟨j, d, tr', ?_, hd⟩
      rw [push_eq hi hc, getElem?_set_slot hi, if_neg ?_, hj]
      rintro rfl
      obtain rfl := Option.some.inj (hi.symm.trans hj)
      exact he (Prod.mk.inj (Option.some.inj (hreg.symm.trans hd))).2
  · intro tr t ht hcl hnot
    rw [htr] at ht
    obtain ⟨hset, haddr⟩ := h.closed tr t ht hcl (hcalls tr hnot)
    refine ⟨?_, ?_⟩
    · intro u hu
      rw [settled_push hi hc, RecvCmd.on] at hu
      split_ifs at hu with he
      · obtain rfl := Option.some.inj hu
        have hp := hprompt t ht
        rw [hcl, if_pos rfl] at hp
        exact hcalls tr₀ hnot hp
      · exact hset u hu
    · intro key hkey
      rw [push_eq hi hc] at hkey ⊢
      exact List.mem_append_left _ (haddr key hkey)
  · rw [push_eq hi hc]
    exact h.addr

theorem Settles.push_drop {old u₀ : String} {tr₀ : Nat} (h : s.Settles) (hg : s.Gone)
    (hi : s.calls[i]? = some (.dropping old tr₀ u₀)) : (s.push i).Settles := by
  have hc : Call.push (.dropping old tr₀ u₀) = (some (.dropUfrag old), .registering tr₀ u₀) := rfl
  have hmem := List.mem_of_getElem? hi
  have htr : (s.push i).transports = s.transports := by rw [push_eq hi hc]
  refine ⟨?_, ?_, ?_, ?_⟩
  · intro tr t ht ho u hu
    rw [htr] at ht
    rw [settled_push hi hc, RecvCmd.on] at hu
    split_ifs at hu with he
    refine (h.only tr t ht ho u hu).imp_right ?_
    rintro ⟨d, hd, hdu⟩
    refine ⟨d, mem_push_of_ne hi hc hd ?_, hdu⟩
    rintro rfl
    exact he (Option.some.inj hdu)
  · intro tr t ht ho u hu hdue
    rw [htr] at ht
    rw [settled_push hi hc, RecvCmd.on, if_neg]
    · refine h.all tr t ht ho u hu ?_
      rintro ⟨j, d, tr', hj, hd⟩
      by_cases hji : j = i
      · subst hji
        obtain rfl := Option.some.inj (hi.symm.trans hj)
        refine hdue ⟨j, .registering tr₀ u₀, tr', ?_, hd⟩
        rw [push_eq hi hc, getElem?_set_slot hi, if_pos rfl]
      · refine hdue ⟨j, d, tr', ?_, hd⟩
        rw [push_eq hi hc, getElem?_set_slot hi, if_neg hji, hj]
    · rintro rfl
      exact hg.drop old (.inr ⟨_, hmem, rfl⟩) tr t ht hu
  · intro tr t ht hcl hnot
    rw [htr] at ht
    have hnot' : .unregistering tr ∉ s.calls := fun hm => hnot (mem_push_of_ne hi hc hm nofun)
    obtain ⟨hset, haddr⟩ := h.closed tr t ht hcl hnot'
    refine ⟨?_, ?_⟩
    · intro u hu
      rw [settled_push hi hc, RecvCmd.on] at hu
      split_ifs at hu
      exact hset u hu
    · intro key hkey
      rw [push_eq hi hc] at hkey ⊢
      exact List.mem_append_left _ (haddr key hkey)
  · rw [push_eq hi hc]
    exact h.addr

theorem Settles.push_unregister {tr₀ : Nat} (h : s.Settles) (hg : s.Gone)
    (hi : s.calls[i]? = some (.unregistering tr₀)) : (s.push i).Settles := by
  have hc : Call.push (.unregistering tr₀) = (some (.unregister tr₀), .done) := rfl
  have hmem := List.mem_of_getElem? hi
  have htr : (s.push i).transports = s.transports := by rw [push_eq hi hc]
  have hopen : ∀ (tr : Nat) (t : Transport), s.transports[tr]? = some t → t.closed = false →
      tr ≠ tr₀ := by
    rintro tr t ht ho rfl
    obtain ⟨t', ht', hcl⟩ := hg.unregister tr (.inr hmem)
    obtain rfl := Option.some.inj (ht.symm.trans ht')
    exact absurd (ho.symm.trans hcl) Bool.false_ne_true
  refine ⟨?_, ?_, ?_, ?_⟩
  · intro tr t ht ho u hu
    rw [htr] at ht
    rw [settled_push hi hc, on_unregister] at hu
    refine (h.only tr t ht ho u hu.1).imp_right ?_
    rintro ⟨d, hd, hdu⟩
    exact ⟨d, mem_push_of_ne hi hc hd (by rintro rfl; exact absurd hdu nofun), hdu⟩
  · intro tr t ht ho u hu hdue
    rw [htr] at ht
    rw [settled_push hi hc, on_unregister]
    refine ⟨h.all tr t ht ho u hu ?_, hopen tr t ht ho⟩
    rintro ⟨j, d, tr', hj, hd⟩
    refine hdue ⟨j, d, tr', ?_, hd⟩
    rw [push_eq hi hc, getElem?_set_slot hi, if_neg ?_, hj]
    rintro rfl
    obtain rfl := Option.some.inj (hi.symm.trans hj)
    exact absurd hd nofun
  · intro tr t ht hcl hnot
    rw [htr] at ht
    by_cases he : tr = tr₀
    · subst he
      refine ⟨?_, ?_⟩
      · intro u hu
        rw [settled_push hi hc, on_unregister] at hu
        exact hu.2 rfl
      · intro key _
        rw [push_eq hi hc]
        exact List.mem_append_right _ List.mem_cons_self
    · have hnot' : .unregistering tr ∉ s.calls := fun hm =>
        hnot (mem_push_of_ne hi hc hm fun e => he (Call.unregistering.inj e))
      obtain ⟨hset, haddr⟩ := h.closed tr t ht hcl hnot'
      refine ⟨?_, ?_⟩
      · intro u hu
        rw [settled_push hi hc, on_unregister] at hu
        exact hset u hu.1
      · intro key hkey
        rw [push_eq hi hc] at hkey ⊢
        exact List.mem_append_left _ (haddr key hkey)
  · rw [push_eq hi hc]
    exact h.addr

theorem Inv.push (h : s.Inv) (hi : s.calls[i]? = some c) (hc : Call.push c = (some cmd, c'))
    (hp : s.Prompt (.push i)) : (s.push i).Inv := by
  refine ⟨h.names.push hi hc, h.once.push h.names hi hc, h.first.push h.names h.once hi hc,
    h.gone.push hi hc, ?_⟩
  rcases push_cases hc with ⟨tr, u, rfl, rfl, rfl⟩ | ⟨tr, u, rfl, rfl, rfl⟩ |
    ⟨_, _, _, rfl, -⟩ | ⟨_, rfl, -⟩
  · refine h.settles.push_register h.names hi hc rfl rfl (fun _ => nofun) ?_
    intro t ht
    obtain ⟨⟨t', ht', ho, hu⟩, -⟩ := h.first.creating tr u (List.mem_of_getElem? hi)
    obtain rfl := Option.some.inj (ht.symm.trans ht')
    rw [ho, if_neg Bool.false_ne_true, hu]
    exact .inl List.mem_cons_self
  · refine h.settles.push_register h.names hi hc rfl rfl (fun _ => nofun) (hp _ hi (tr, u) rfl)
  · exact h.settles.push_drop h.gone hi
  · exact h.settles.push_unregister h.gone hi

end Push

/-! ## A command is applied -/

section Pop

variable {s : State} {cmd : RecvCmd} {cs : List RecvCmd}

theorem pop_eq (hq : s.recvCmds = cmd :: cs) : s.pop = { s with recvCmds := cs }.apply cmd := by
  simp only [pop, hq]

theorem apply_frame (s : State) (cmd : RecvCmd) : (s.apply cmd).transports = s.transports ∧
    (s.apply cmd).calls = s.calls ∧ (s.apply cmd).recvCmds = s.recvCmds ∧
    (s.apply cmd).drawn = s.drawn := by
  cases cmd with
  | register u tr => exact ⟨rfl, rfl, rfl, rfl⟩
  | dropUfrag u => exact ⟨rfl, rfl, rfl, rfl⟩
  | unregister tr => exact ⟨rfl, rfl, rfl, rfl⟩

theorem byUfrag_pop (hq : s.recvCmds = cmd :: cs) (u : String) :
    s.pop.byUfrag u = cmd.on u (s.byUfrag u) := by
  rw [pop_eq hq, byUfrag_apply]

/-- An entry of the index after a command was there or is made by the command. -/
theorem on_eq_some {u : String} {x : Option Nat} {tr : Nat} (h : cmd.on u x = some tr) :
    x = some tr ∨ cmd = .register u tr := by
  cases cmd with
  | register u' tr' =>
    rw [RecvCmd.on] at h
    split_ifs at h with he
    · exact .inr (by rw [he, Option.some.inj h])
    · exact .inl h
  | dropUfrag u' =>
    rw [RecvCmd.on] at h
    split_ifs at h
    exact .inl h
  | unregister tr' => exact .inl (on_unregister.1 h).1

theorem byAddr_pop (hq : s.recvCmds = cmd :: cs) {key : PathKey} {tr : Nat}
    (h : s.pop.byAddr key = some tr) : s.byAddr key = some tr ∧ cmd ≠ .unregister tr := by
  rw [pop_eq hq] at h
  cases cmd with
  | register u tr' => exact ⟨h, nofun⟩
  | dropUfrag u => exact ⟨h, nofun⟩
  | unregister tr' =>
    simp only [apply, Option.filter_eq_some_iff, decide_eq_true_eq] at h
    exact ⟨h.1, fun e => h.2 (RecvCmd.unregister.inj e).symm⟩

theorem Inv.pop (h : s.Inv) (hq : s.recvCmds = cmd :: cs) : s.pop.Inv := by
  obtain ⟨htr, hcalls, hcmds, hdrawn⟩ : s.pop.transports = s.transports ∧
      s.pop.calls = s.calls ∧ s.pop.recvCmds = cs ∧ s.pop.drawn = s.drawn := by
    rw [pop_eq hq]
    exact apply_frame { s with recvCmds := cs } cmd
  have hmem : ∀ d ∈ cs, d ∈ s.recvCmds := fun d hd => hq ▸ List.mem_cons_of_mem cmd hd
  have hhead : cmd ∈ s.recvCmds := hq ▸ List.mem_cons_self
  have hidx : ∀ u tr, s.pop.byUfrag u = some tr → s.byUfrag u = some tr ∨ cmd = .register u tr :=
    fun u tr hu => on_eq_some (byUfrag_pop hq u ▸ hu)
  have hset : ∀ u, s.pop.settled u = s.settled u := by
    intro u
    rw [settled, settled, hcmds, hq, byUfrag_pop hq]
    rfl
  have hdue : ∀ u, s.pop.Due u ↔ s.Due u := by
    intro u
    rw [Due, Due, hcalls]
  have hdoomed : ∀ u, s.pop.Doomed u ↔ s.Doomed u := by
    intro u
    rw [Doomed, Doomed, hcalls]
  refine ⟨?_, ⟨?_, ?_, ?_⟩, ⟨?_, ?_, ?_⟩, ⟨?_, ?_, ?_⟩, ⟨?_, ?_, ?_, ?_⟩⟩
  · refine h.names.mono hdrawn ?_ ?_ ?_ ?_ (by rw [htr])
    · intro i c x hi hc
      rw [hcalls] at hi
      exact ⟨c, hi, hc⟩
    · intro u tr hu
      rw [hcmds] at hu
      exact .inl (hmem _ hu)
    · intro u tr hu
      exact (hidx u tr hu).imp_right fun e : cmd = .register u tr => e ▸ hhead
    · intro tr t ht
      rw [htr] at ht
      exact ⟨t, ht, .refl _⟩
  · intro u hu
    obtain ⟨hnot, hnone⟩ := h.once.call u ((hdue u).1 hu)
    rw [hcmds]
    refine ⟨fun tr hm => hnot tr (hmem _ hm), ?_⟩
    refine Option.eq_none_iff_forall_ne_some.2 fun tr hs => ?_
    rcases hidx u tr hs with hs | rfl
    · exact absurd (hnone.symm.trans hs) (Option.some_ne_none tr).symm
    · exact hnot tr hhead
  · intro u hu tr hm
    rw [hcmds] at hm
    obtain ⟨tr', htr'⟩ := Option.ne_none_iff_exists'.1 hu
    rcases hidx u tr' htr' with hs | rfl
    · exact h.once.index u (by simp [hs]) tr (hmem _ hm)
    · have hp := h.once.cmds
      rw [hq] at hp
      exact (List.pairwise_cons.1 hp).1 _ hm u tr' tr rfl rfl
  · rw [hcmds]
    have hp := h.once.cmds
    rw [hq] at hp
    exact (List.pairwise_cons.1 hp).2
  · intro tr t l₁ l₂ ht heq
    rw [htr] at ht
    rw [hcmds] at heq
    obtain ⟨hno, hnot⟩ := h.first.cmd tr t (cmd :: l₁) l₂ ht (by rw [hq, heq]; rfl)
    refine ⟨?_, fun u hm => hnot u (List.mem_cons_of_mem cmd hm)⟩
    intro u hu
    rcases hidx u tr hu with hu | rfl
    · exact hno u hu
    · exact hnot u List.mem_cons_self
  · rw [hcalls, htr]
    exact h.first.restarts
  · rw [hcalls, htr, hdrawn]
    exact h.first.creating
  · intro u hu
    rw [hcmds, hdoomed] at hu
    rw [hdrawn]
    exact h.gone.known u (hu.imp_left (hmem _))
  · intro u hu tr t ht
    rw [hcmds, hdoomed] at hu
    rw [htr] at ht
    exact h.gone.drop u (hu.imp_left (hmem _)) tr t ht
  · intro tr hu
    rw [hcmds, hcalls] at hu
    rw [htr]
    exact h.gone.unregister tr (hu.imp_left (hmem _))
  · intro tr t ht ho u hu
    rw [htr] at ht
    rw [hset] at hu
    rw [hdoomed]
    exact h.settles.only tr t ht ho u hu
  · intro tr t ht ho u hu hd
    rw [htr] at ht
    rw [hdue] at hd
    rw [hset]
    exact h.settles.all tr t ht ho u hu hd
  · intro tr t ht hcl hnot
    rw [htr] at ht
    rw [hcalls] at hnot
    obtain ⟨hs, haddr⟩ := h.settles.closed tr t ht hcl hnot
    refine ⟨fun u => hset u ▸ hs u, ?_⟩
    intro key hkey
    obtain ⟨hkey, hne⟩ := byAddr_pop hq hkey
    have hm := haddr key hkey
    rw [hq] at hm
    rw [hcmds]
    exact (List.mem_cons.1 hm).resolve_left fun e => hne e.symm
  · intro key tr hkey
    rw [htr]
    exact h.settles.addr key tr (byAddr_pop hq hkey).1

end Pop

end State

end OxlensSfu.Ice
