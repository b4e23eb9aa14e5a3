import OxlensSfu.Mesh.Books

/-!
# Declarations on the wire

A session hears of declarations in messages, first of all that there are and then of each change.
This is what a list of such messages makes of what the receiver has (`Decls.after`), and what the
handlers of a node add to the messages: nothing about declarations (`Quiet`), or what keeps all
routers in step with what a router passes on (`Relays`).
-/

namespace OxlensSfu.Mesh

/-! ## Messages -/

/-- What a session has declared. -/
abbrev Decls := DeclKind × Nat → Option String

namespace Decls

def apply (D : Decls) : Msg → Decls
  | .declare k id e => Function.update D (k, id) (some e)
  | .undeclare k id => Function.update D (k, id) none
  | _ => D

def after (D : Decls) (ms : List Msg) : Decls := ms.foldl apply D

@[simp] theorem after_nil (D : Decls) : D.after [] = D := rfl

@[simp] theorem after_cons (D : Decls) (m : Msg) (ms : List Msg) :
    D.after (m :: ms) = (D.apply m).after ms := rfl

@[simp] theorem after_append (D : Decls) (ms ms' : List Msg) :
    D.after (ms ++ ms') = (D.after ms).after ms' := List.foldl_append

/-- The message does not declare what has been declared. -/
def Takes (D : Decls) : Msg → Prop
  | .declare k id _ => D (k, id) = none
  | _ => True

/-- None of the messages does. -/
def Clean (D : Decls) : List Msg → Prop
  | [] => True
  | m :: ms => D.Takes m ∧ (D.apply m).Clean ms

@[simp] theorem clean_nil (D : Decls) : D.Clean [] := trivial

@[simp] theorem clean_cons (D : Decls) (m : Msg) (ms : List Msg) :
    D.Clean (m :: ms) ↔ D.Takes m ∧ (D.apply m).Clean ms := Iff.rfl

@[simp] theorem clean_append (D : Decls) (ms ms' : List Msg) :
    D.Clean (ms ++ ms') ↔ D.Clean ms ∧ (D.after ms).Clean ms' := by
  induction ms generalizing D with
  | nil => simp
  | cons m ms ih => simp [ih, and_assoc]

theorem apply_of_hush (D : Decls) {m : Msg} (hm : m.declares = false) :
    D.apply m = D ∧ D.Takes m := by
  cases m with
  | declare | undeclare => exact absurd hm nofun
  | _ => exact ⟨rfl, trivial⟩

/-- Messages about other things change nothing. -/
theorem after_of_hush (D : Decls) {ms : List Msg} (h : ∀ m ∈ ms, m.declares = false) :
    D.after ms = D ∧ D.Clean ms := by
  induction ms with
  | nil => simp
  | cons m ms ih =>
    obtain ⟨happly, htakes⟩ := D.apply_of_hush (h m List.mem_cons_self)
    obtain ⟨hafter, hclean⟩ := ih fun m' hm' => h m' (List.mem_cons_of_mem m hm')
    simp [happly, htakes, hafter, hclean]

/-- Nothing has an id from `n` on. -/
def Below (D : Decls) (n : Nat) : Prop := ∀ k id, n ≤ id → D (k, id) = none

theorem Below.mono {D : Decls} {n n' : Nat} (h : D.Below n) (hn : n ≤ n') : D.Below n' :=
  fun k id hid => h k id (hn.trans hid)

theorem Below.declare {D : Decls} {n : Nat} (h : D.Below n) (k : DeclKind) (e : String) :
    (D.apply (.declare k n e)).Below (n + 1) := by
  intro k' id hid
  have hne : (k', id) ≠ (k, n) := by simp; omega
  exact (Function.update_of_ne hne _ _).trans (h k' id (Nat.le_of_succ_le hid))

theorem Below.undeclare {D : Decls} {n : Nat} (h : D.Below n) (k : DeclKind) (id : Nat) :
    (D.apply (.undeclare k id)).Below n := by
  intro k' id' hid
  simp only [apply, Function.update_apply]
  split_ifs
  · rfl
  · exact h k' id' hid

/-- Declarations with different ids, told one after another. -/
theorem after_declares (D : Decls) {L : List ((DeclKind × Nat) × String)}
    (hnodup : (L.map Prod.fst).Nodup) (hnew : ∀ x ∈ L, D x.1 = none) :
    D.Clean (L.map fun x => .declare x.1.1 x.1.2 x.2) ∧
      ∀ d e, D.after (L.map fun x => .declare x.1.1 x.1.2 x.2) d = some e ↔
        (d, e) ∈ L ∨ D d = some e := by
  induction L generalizing D with
  | nil => simp
  | cons x L ih =>
    obtain ⟨hx, hnodup⟩ := List.nodup_cons.1 hnodup
    have hfirst : ∀ d, D.apply (.declare x.1.1 x.1.2 x.2) d = if d = x.1 then some x.2 else D d :=
      fun d => Function.update_apply _ _ _ _
    obtain ⟨hclean, hafter⟩ := ih (D.apply (.declare x.1.1 x.1.2 x.2)) hnodup (by
      intro y hy
      have hne : y.1 ≠ x.1 := fun he => hx (he ▸ List.mem_map_of_mem hy)
      rw [hfirst, if_neg hne]
      exact hnew y (List.mem_cons_of_mem x hy))
    refine ⟨⟨hnew x List.mem_cons_self, hclean⟩, fun d e => ?_⟩
    rw [List.map_cons, after_cons, hafter, hfirst, List.mem_cons]
    by_cases hd : d = x.1
    · subst hd
      have hnone := hnew x List.mem_cons_self
      simp only [if_pos, Option.some.injEq, hnone]
      constructor
      · rintro (h | h)
        · exact .inl (.inr h)
        · exact .inl (.inl (by rw [← h]))
      · rintro ((h | h) | h)
        · exact .inr (by rw [← h])
        · exact .inl h
        · exact absurd h nofun
    · have hne : (d, e) ≠ x := fun he => hd (by rw [← he])
      simp [hd, hne]

end Decls

/-- The messages to the session on its lane for declarations. -/
def pushed (u : Nat) (l : List Fx) : List Msg :=
  l.filterMap fun
    | .push v m true => if v = u ∧ m.lane = .declare then some m else none
    | _ => none

@[simp] theorem pushed_append (u : Nat) (l l' : List Fx) :
    pushed u (l ++ l') = pushed u l ++ pushed u l' := List.filterMap_append ..

theorem pushed_hush {u : Nat} {l : List Fx} (h : ∀ x ∈ l, x.declares = false) :
    ∀ m ∈ pushed u l, m.declares = false := by
  intro m hm
  obtain ⟨x, hx, he⟩ := List.mem_filterMap.1 hm
  have hhush := h x hx
  cases x with
  | push v m' queued =>
    cases queued with
    | false => exact absurd he nofun
    | true =>
      simp only at he
      split_ifs at he
      exact Option.some.inj he ▸ hhush
  | _ => exact absurd he nofun

/-- The same session with the same declarations. -/
structure Sess.Like (s s' : Sess) : Prop where
  peer : s'.peer = s.peer
  role : s'.role = s.role
  stream : s'.stream = s.stream
  decls : s'.decls = s.decls

theorem Sess.Like.refl (s : Sess) : s.Like s := ⟨rfl, rfl, rfl, rfl⟩

theorem Sess.Like.trans {s s' s'' : Sess} (h : s.Like s') (h' : s'.Like s'') : s.Like s'' :=
  ⟨h'.peer.trans h.peer, h'.role.trans h.role, h'.stream.trans h.stream, h'.decls.trans h.decls⟩

namespace Core

/-- What a router passes on. -/
def passed (c : Core) : Decls := fun d =>
  (c.out.lookup d.2).bind fun x => if x.1 = d.1 then some x.2 else none

/-- What the own process has declared. -/
def mine (c : Core) : Decls := fun d => c.own d.1 d.2

theorem passed_eq_some {c : Core} {d : DeclKind × Nat} {e : String} :
    c.passed d = some e ↔ c.out.lookup d.2 = some (d.1, e) := by
  simp only [passed, Option.bind_eq_some_iff]
  constructor
  · intro h
    obtain ⟨⟨k, e'⟩, hl, he⟩ := h
    split_ifs at he with hk
    obtain rfl := Option.some.inj he
    rw [hl, ← hk]
  · exact fun h => ⟨_, h, if_pos rfl⟩

/-- The sessions that stay keep what they have declared. -/
structure Kept (c c' : Core) : Prop where
  node : c'.node = c.node
  router : c'.router = c.router
  running : c'.running = c.running
  nextId : c.nextId ≤ c'.nextId
  nextUid : c'.nextUid = c.nextUid
  sessions : ∀ u s', c'.sessions.lookup u = some s' → ∃ s, c.sessions.lookup u = some s ∧ s.Like s'

variable {c c' c'' : Core} {o : Told} {u : Nat} {s : Sess}

theorem Kept.trans (h : Kept c c') (h' : Kept c' c'') : Kept c c'' where
  node := h'.node.trans h.node
  router := h'.router.trans h.router
  running := h'.running.trans h.running
  nextId := h.nextId.trans h'.nextId
  nextUid := h'.nextUid.trans h.nextUid
  sessions u s'' hs := by
    obtain ⟨s', hs', hl'⟩ := h'.sessions u s'' hs
    obtain ⟨s, hs, hl⟩ := h.sessions u s' hs'
    exact ⟨s, hs, hl.trans hl'⟩

theorem Kept.same (hn : c'.node = c.node) (hr : c'.router = c.router)
    (hrun : c'.running = c.running) (hid : c.nextId ≤ c'.nextId) (huid : c'.nextUid = c.nextUid)
    (hs : c'.sessions = c.sessions) : Kept c c' :=
  ⟨hn, hr, hrun, hid, huid, fun _ s' h => ⟨s', hs ▸ h, .refl s'⟩⟩

theorem Kept.mem (h : Kept c c') (hu : u ∈ c'.sessions) : u ∈ c.sessions := by
  obtain ⟨s', hs'⟩ := Map.mem_iff_lookup.1 hu
  obtain ⟨s, hs, -⟩ := h.sessions u s' hs'
  exact Map.mem_iff_lookup.2 ⟨s, hs⟩

/-! ## Nothing about declarations -/

structure Quiet (c c' : Core) : Prop extends Kept c c' where
  out : c'.out = c.out
  own : c'.own = c.own
  hushed : Hushed c.fx c'.fx

theorem Quiet.refl (c : Core) : Quiet c c := ⟨.same rfl rfl rfl le_rfl rfl rfl, rfl, rfl, .refl _⟩

theorem Quiet.trans (h : Quiet c c') (h' : Quiet c' c'') : Quiet c c'' :=
  ⟨h.toKept.trans h'.toKept, h'.out.trans h.out, h'.own.trans h.own, h.hushed.trans h'.hushed⟩

theorem Moves.quiet (h : Moves c c') : Quiet c c' := by
  have hh := h.hushed
  obtain ⟨m, l, rfl⟩ := h.frame
  exact ⟨.same rfl rfl rfl le_rfl rfl rfl, rfl, rfl, hh⟩

theorem Aside.quiet (h : Aside c c') : Quiet c c' := by
  have hh := h.hushed
  have hid := h.nextId
  obtain ⟨n, sno, m, ts, d, k, l, rfl⟩ := h.frame
  exact ⟨.same rfl rfl rfl hid rfl rfl, rfl, rfl, hh⟩

theorem Quiet.session (hs : c.sessions.lookup u = some s) (s' : Sess) (hl : s.Like s') :
    Quiet c { c with sessions := c.sessions.insert u s' } := by
  refine ⟨⟨rfl, rfl, rfl, le_rfl, rfl, fun v s'' h => ?_⟩, rfl, rfl, .refl _⟩
  have h : (c.sessions.insert u s').lookup v = some s'' := h
  rw [Map.lookup_insert_if] at h
  split_ifs at h with hv
  · obtain rfl := Option.some.inj h
    exact ⟨s, hv ▸ hs, hl⟩
  · exact ⟨s'', h, .refl s''⟩

theorem tokAdd_quiet (c : Core) (key : String) : Quiet c (c.tokAdd key) := by
  rw [tokAdd]
  cases c.tok.lookup key with
  | some n => exact ⟨.same rfl rfl rfl le_rfl rfl rfl, rfl, rfl, .refl _⟩
  | none =>
    refine .trans ?_ (tokNotify_moves _ .put key).quiet
    exact ⟨.same rfl rfl rfl le_rfl rfl rfl, rfl, rfl, .refl _⟩

theorem tokDel_quiet (c : Core) (key : String) : Quiet c (c.tokDel key).1 := by
  rw [tokDel]
  cases c.tok.lookup key with
  | none => exact .refl c
  | some n =>
    simp only
    split_ifs
    · exact ⟨.same rfl rfl rfl le_rfl rfl rfl, rfl, rfl, .refl _⟩
    · refine .trans ?_ (tokNotify_moves _ .delete key).quiet
      exact ⟨.same rfl rfl rfl le_rfl rfl rfl, rfl, rfl, .refl _⟩

theorem unlist_quiet (c : Core) (u : Nat) (d : DeclKind × Nat) (e : String) :
    Quiet c (c.unlist u d e).1 := by
  rw [unlist]
  cases d.1 with
  | token => exact c.tokDel_quiet e
  | sub => exact ⟨.same rfl rfl rfl le_rfl rfl rfl, rfl, rfl, .refl _⟩
  | qabl => exact .refl c

theorem enlist_quiet (c : Core) (u : Nat) (k : DeclKind) (i : Nat) (e : String) :
    Quiet c (c.enlist u k i e) := by
  cases k with
  | token => exact c.tokAdd_quiet e
  | sub => exact ⟨.same rfl rfl rfl le_rfl rfl rfl, rfl, rfl, .refl _⟩
  | qabl => exact .refl c

theorem leave_quiet (c : Core) (u : Nat) (s : Sess) (reason : CloseReason) :
    Quiet c (c.leave u s reason) := by
  refine ⟨⟨rfl, rfl, rfl, le_rfl, rfl, fun v s' h => ?_⟩, rfl, rfl, .one _ rfl⟩
  have h : (c.sessions.erase u).lookup v = some s' := h
  rw [Map.lookup_erase_if] at h
  split_ifs at h
  exact ⟨s', h, .refl s'⟩

theorem routeGet_quiet (c : Core) (o : Told) (origin : Origin) (expr : String) (payload : Payload)
    (timeoutMs : Nat) : Quiet c (c.routeGet o origin expr payload timeoutMs) := by
  have hbegin : Quiet c (c.begin o origin expr timeoutMs) :=
    ⟨.same rfl rfl rfl (Nat.le_succ _) rfl rfl, rfl, rfl, .one _ rfl⟩
  exact hbegin.trans (c.routeGet_moves o origin expr payload timeoutMs).1.quiet

/-! ## Routers -/

/-- Every router that is a session and stays is told of what is passed on, and nobody else of any
declaration. -/
structure Relays (c c' : Core) : Prop extends Kept c c' where
  tells : ∃ l, c'.fx = c.fx ++ l ∧
    (∀ u s, c.sessions.lookup u = some s → s.role = .router → c.passed.Clean (pushed u l) ∧
      (u ∈ c'.sessions → c.passed.after (pushed u l) = c'.passed)) ∧
    ∀ u, u ∉ c.sessions → ∀ m ∈ pushed u l, m.declares = false

theorem Relays.trans (h : Relays c c') (h' : Relays c' c'') : Relays c c'' := by
  obtain ⟨l, hl, htells, hrest⟩ := h.tells
  obtain ⟨l', hl', htells', hrest'⟩ := h'.tells
  refine ⟨h.toKept.trans h'.toKept, l ++ l', by rw [hl', hl, List.append_assoc], ?_, ?_⟩
  · intro u s hs hr
    obtain ⟨hclean, hafter⟩ := htells u s hs hr
    rw [pushed_append, Decls.clean_append, Decls.after_append]
    by_cases hu : u ∈ c'.sessions
    · obtain ⟨s', hs'⟩ := Map.mem_iff_lookup.1 hu
      obtain ⟨t, ht, hlike⟩ := h.sessions u s' hs'
      obtain rfl := Option.some.inj (ht.symm.trans hs)
      rw [hafter hu]
      obtain ⟨hclean', hafter'⟩ := htells' u s' hs' (hlike.role.trans hr)
      exact ⟨⟨hclean, hclean'⟩, hafter'⟩
    · obtain ⟨-, hclean'⟩ := (c.passed.after (pushed u l)).after_of_hush (hrest' u hu)
      exact ⟨⟨hclean, hclean'⟩, fun hu' => absurd (h'.mem hu') hu⟩
  · intro u hu m hm
    rw [pushed_append] at hm
    rcases List.mem_append.1 hm with hm | hm
    · exact hrest u hu m hm
    · exact hrest' u (fun hu' => hu (h.mem hu')) m hm

theorem passed_congr (h : c'.out = c.out) : c'.passed = c.passed := by
  funext d
  simp only [passed, h]

theorem Kept.relays (hk : Kept c c') (ho : c'.out = c.out) (hh : Hushed c.fx c'.fx) :
    Relays c c' := by
  obtain ⟨l, hl, hhush⟩ := hh
  refine ⟨hk, l, hl, fun u s _ _ => ?_, fun u _ => pushed_hush hhush⟩
  obtain ⟨hafter, hclean⟩ := c.passed.after_of_hush (pushed_hush (u := u) hhush)
  exact ⟨hclean, fun _ => hafter.trans (passed_congr ho).symm⟩

theorem Quiet.relays (h : Quiet c c') : Relays c c' := h.toKept.relays h.out h.hushed

theorem filterMap_of_nodupKeys {L : List ((_ : Nat) × Sess)} (h : L.NodupKeys) (m : Msg)
    (hs : ⟨u, s⟩ ∈ L) : L.filterMap (fun x => if x.1 = u then some m else none) = [m] := by
  induction L with
  | nil => exact absurd hs List.not_mem_nil
  | cons x L ih =>
    obtain ⟨hx, hL⟩ := List.nodupKeys_cons.1 h
    have hrest : x.1 = u → L.filterMap (fun y => if y.1 = u then some m else none) = [] := by
      intro he
      refine List.filterMap_eq_nil_iff.2 fun y hy => if_neg fun hyu => hx ?_
      rw [he, ← hyu]
      exact List.mem_keys_of_mem hy
    rcases List.mem_cons.1 hs with rfl | hs
    · rw [List.filterMap_cons, if_pos rfl, hrest rfl]
    · have hne : x.1 ≠ u := fun he => hx (he ▸ List.mem_keys_of_mem hs)
      rw [List.filterMap_cons, if_neg hne]
      exact ih hL hs

/-- Every session with a router gets the message. -/
theorem pushed_routers (hs : c.sessions.lookup u = some s) (hr : s.role = .router) {m : Msg}
    (hm : m.lane = .declare) : pushed u ((c.having .router).map fun x => .push x.1 m true) = [m] := by
  rw [pushed, List.filterMap_map]
  have hfun : ((fun x : (_ : Nat) × Sess => if x.1 = u then some m else none)) =
      (fun x : Fx => match x with
        | .push v m true => if v = u ∧ m.lane = .declare then some m else none
        | _ => none) ∘ fun x => .push x.1 m true := by
    funext x
    simp [hm]
  rw [← hfun]
  refine filterMap_of_nodupKeys (c.sessions.nodupKeys.sublist List.filter_sublist) m (s := s) ?_
  exact List.mem_filter.2 ⟨(Map.mem_entries _).2 hs, by simpa using hr⟩

theorem pushed_others (hu : u ∉ c.sessions) (m : Msg) :
    pushed u ((c.having .router).map fun x => .push x.1 m true) = [] := by
  refine List.filterMap_eq_nil_iff.2 (List.forall_mem_map.2 fun x hx => if_neg fun he => hu ?_)
  have hx : x ∈ c.sessions.entries := (List.mem_filter.1 hx).1
  exact Map.mem_iff_lookup.2 ⟨x.2, he.1 ▸ (Map.mem_entries _).1 hx⟩

/-- The routers are told of one change. -/
theorem relays_announce (m : Msg) (hk : Kept c c') (hf : c'.fx = c.fx) (hr : c.router = true)
    (hm : m.lane = .declare) (htakes : c.passed.Takes m) (happly : c.passed.apply m = c'.passed) :
    Relays c (c'.announce m) := by
  rw [announce, if_pos (hk.router.trans hr)]
  refine ⟨⟨hk.node, hk.router, hk.running, hk.nextId, hk.nextUid, hk.sessions⟩, _,
    congrArg (· ++ _) hf, ?_, ?_⟩
  · intro u s hs hrole
    by_cases hu : u ∈ c'.sessions
    · obtain ⟨s', hs'⟩ := Map.mem_iff_lookup.1 hu
      obtain ⟨t, ht, hlike⟩ := hk.sessions u s' hs'
      obtain rfl := Option.some.inj (ht.symm.trans hs)
      rw [pushed_routers hs' (hlike.role.trans hrole) hm]
      exact ⟨⟨htakes, trivial⟩, fun _ => happly⟩
    · rw [pushed_others hu]
      exact ⟨trivial, fun hu' => absurd hu' hu⟩
  · intro u hu
    rw [pushed_others fun hu' => hu (hk.mem hu')]
    exact fun m' hm' => absurd hm' List.not_mem_nil

section Passes

variable {own : DeclKind → Nat → Option String} {cl : Nat → DeclKind × Nat → Option String}
  {n : Nat} {k : DeclKind} {i id : Nat} {e : String}

theorem passed_below (h : Passes own cl c.out c.south n) : c.passed.Below n := by
  intro k id hid
  obtain ⟨hown, hsouth⟩ := h.fresh id hid
  by_contra hne
  obtain ⟨e, he⟩ := Option.ne_none_iff_exists'.1 hne
  rcases (h.entries id k e).1 (passed_eq_some.1 he) with ho | ⟨u, i, hs, -⟩
  · exact absurd ((hown k).symm.trans ho) nofun
  · exact hsouth _ hs

theorem passed_insert (h : Passes own cl c.out c.south n) (k : DeclKind) (e : String) :
    c.passed.apply (.declare k n e) = passed { c with out := c.out.insert n (k, e) } := by
  funext ⟨k', id⟩
  show Function.update c.passed (k, n) (some e) (k', id) =
    ((c.out.insert n (k, e)).lookup id).bind fun x => if x.1 = k' then some x.2 else none
  rw [Function.update_apply, Map.lookup_insert_if]
  by_cases hid : id = n
  · subst hid
    have hnone := passed_below h k' id le_rfl
    by_cases hk : k' = k
    · simp [hk]
    · simp [hk, Ne.symm hk, hnone]
  · rw [if_neg fun he => hid (Prod.mk.inj he).2, if_neg hid]
    rfl

theorem passed_erase (hid : c.out.lookup id = some (k, e)) :
    c.passed.apply (.undeclare k id) = passed { c with out := c.out.erase id } := by
  funext ⟨k', id'⟩
  show Function.update c.passed (k, id) none (k', id') =
    ((c.out.erase id).lookup id').bind fun x => if x.1 = k' then some x.2 else none
  rw [Function.update_apply, Map.lookup_erase_if]
  by_cases he : id' = id
  · subst he
    by_cases hk : k' = k
    · simp [hk]
    · simp [hk, passed, hid, Ne.symm hk]
  · rw [if_neg fun h => he (Prod.mk.inj h).2, if_neg he]
    rfl

/-- The id a declaration of a client is passed on under. -/
theorem out_of_south (h : Passes own cl c.out c.south n) {d : DeclKind × Nat}
    (hs : c.south.lookup (u, d) = some id) : ∃ e, c.out.lookup id = some (d.1, e) := by
  have hids := h.ids u d
  rw [hs] at hids
  obtain ⟨e, he⟩ := Option.isSome_iff_exists.1 (hids.1 rfl)
  exact ⟨e, (h.entries id d.1 e).2 (.inr ⟨u, d.2, hs, he⟩)⟩

theorem retract_relays (h : Passes own cl c.out c.south n) (hr : c.router = true) (u : Nat)
    (d : DeclKind × Nat) : Relays c (c.retract u d) := by
  rw [retract]
  cases hs : c.south.lookup (u, d) with
  | none => exact (Quiet.refl c).relays
  | some rid =>
    obtain ⟨e, hout⟩ := out_of_south h hs
    refine relays_announce (.undeclare d.1 rid) ?_ rfl hr rfl trivial ?_
    · exact .same rfl rfl rfl le_rfl rfl rfl
    · exact (passed_erase hout).trans rfl

theorem passOn_relays (h : Passes own cl c.out c.south c.nextId) (hr : c.router = true) (u : Nat)
    (k : DeclKind) (i : Nat) (e : String) : Relays c (c.passOn u k i e) := by
  refine relays_announce (.declare k c.nextId e) ?_ rfl hr rfl (passed_below h k _ le_rfl) ?_
  · exact .same rfl rfl rfl (Nat.le_succ _) rfl rfl
  · exact (passed_insert h k e).trans rfl

end Passes

theorem closeDecls_relays {v : View} {n : String → Nat} (ds : List ((_ : DeclKind × Nat) × String))
    (h : Index v c) (hr : c.router = true) (hn : ∀ key, v.tokens key = n key + tokensOf ds key)
    (b : Bool) : Relays c (ds.foldl (closeDecl u) (c, b)).1 := by
  induction ds generalizing c v b with
  | nil => exact (Quiet.refl c).relays
  | cons d ds ih =>
    have hn' : ∀ key, v.tokens key = n key + tokensOf ds key + d.1.1.tokens d.2 key := by
      intro key
      rw [hn key, tokensOf, List.map_cons, List.sum_cons, tokensOf]
      omega
    have hunlist := h.unlist (u := u) (i := d.1.2) hn'
    have hquiet := c.unlist_quiet u d.1 d.2
    have hr' : (c.unlist u d.1 d.2).1.router = true := hquiet.router.trans hr
    have hretract := retract_relays hunlist.passes hr' u d.1
    have hfirst : Relays c (closeDecl u (c, b) d).1 := hquiet.relays.trans hretract
    have hd := h.closeDecl (u := u) (i := d.1.2) hn' b
    exact hfirst.trans (ih (c := (closeDecl u (c, b) d).1) hd (hfirst.router.trans hr)
      (fun _ => rfl) (closeDecl u (c, b) d).2)

theorem Stands.close_relays (h : c.Stands) (o : Told) (u : Nat) (reason : CloseReason) :
    Relays c (c.close o u reason) := by
  cases hs : c.sessions.lookup u with
  | none =>
    have hsame : c.close o u reason = c := by simp [Core.close, hs]
    rw [hsame]
    exact (Quiet.refl c).relays
  | some s =>
    have hu : u ∉ (c.leave u s reason).sessions := by simp [Core.leave]
    have hwork := (c.leave u s reason).dropDecls_works o u s
    have hm := (dropQueries_moves (o := o) fun hmem => hu (hwork.sessions u hmem)).1
    have hindex : Index c.view (c.leave u s reason) :=
      ⟨h.index.tok, h.index.subs, h.index.passes⟩
    have hdecls := closeDecls_relays (u := u) ((o.decls u).run s.decls.entries) hindex h.router
      (tokens_leave hs o reason) false
    have hends : Relays (c.leave u s reason) ((c.leave u s reason).dropDecls o u s) := by
      refine hdecls.trans (Quiet.relays ?_)
      show Quiet _ (if _ then (if _ then _ else _) else _)
      rw [if_pos (hdecls.router.trans h.router)]
      split
      · exact (batchEnd_moves _).quiet
      · exact .refl _
    rw [close_eq hs]
    exact (c.leave_quiet u s reason).relays.trans
      (hends.trans (hm.quiet.relays.trans (tellLeft_moves _ s).quiet.relays))

theorem Stands.closeAll_relays (h : c.Stands) (o : Told) (reason : CloseReason) (us : List Nat) :
    Relays c (c.closeAll o reason us) := by
  induction us generalizing c with
  | nil => exact (Quiet.refl c).relays
  | cons u us ih => exact (h.close_relays o u reason).trans (ih (h.close o u reason))

/-- A declaration of the own process, when all but passing it on is done. -/
theorem Stands.declare_relays (h : c.Stands) (hk : Kept c c') (hh : Hushed c.fx c'.fx)
    (ho : c'.out = c.out) (k : DeclKind) (e : String) :
    Relays c ({ c' with out := c'.out.insert c.nextId (k, e) }.announce
      (.declare k c.nextId e)) := by
  have hpassed : c'.passed = c.passed := passed_congr ho
  refine (hk.relays ho hh).trans (relays_announce (.declare k c.nextId e) (.same rfl rfl rfl le_rfl rfl rfl)
    rfl (hk.router.trans h.router) rfl ?_ ?_)
  · rw [hpassed]
    exact passed_below h.index.passes k _ le_rfl
  · rw [hpassed, passed_insert h.index.passes]
    exact passed_congr (congrArg (·.insert c.nextId (k, e)) ho.symm)

theorem Stands.declareLocal_relays (h : c.Stands) (o : Told) (k : DeclKind) (e : String) :
    Relays c (c.declareLocal o k e) := by
  cases k with
  | token =>
    let c₁ : Core := { c with nextId := c.nextId + 1, lTokens := c.lTokens.insert c.nextId e }
    have hk : Kept c c₁ := .same rfl rfl rfl (Nat.le_succ _) rfl rfl
    have hq := c₁.tokAdd_quiet e
    have hd : c.declareLocal o .token e = ({ c₁.tokAdd e with
        out := (c₁.tokAdd e).out.insert c.nextId (.token, e) } : Core).announce
          (.declare .token c.nextId e) := if_pos h.router
    rw [hd]
    exact h.declare_relays (hk.trans hq.toKept) hq.hushed hq.out .token e
  | sub =>
    let c₁ : Core := { c with
      nextId := c.nextId + 1
      subs := c.subs.add (.loc c.nextId) c.nextId e
      lSubs := c.lSubs.insert c.nextId e }
    have hk : Kept c c₁ := .same rfl rfl rfl (Nat.le_succ _) rfl rfl
    have hd : c.declareLocal o .sub e = ({ c₁ with
        out := c₁.out.insert c.nextId (.sub, e) } : Core).announce (.declare .sub c.nextId e) :=
      if_pos h.router
    rw [hd]
    exact h.declare_relays hk (.refl _) rfl .sub e
  | qabl =>
    let c₁ : Core := { c with
      nextId := c.nextId + 1, lQabls := c.lQabls.insert c.nextId e }
    have hk : Kept c c₁ := .same rfl rfl rfl (Nat.le_succ _) rfl rfl
    have hd : c.declareLocal o .qabl e = ({ c₁ with
        out := c₁.out.insert c.nextId (.qabl, e) } : Core).announce (.declare .qabl c.nextId e) :=
      if_pos h.router
    rw [hd]
    exact h.declare_relays hk (.refl _) rfl .qabl e

theorem Stands.undeclare_relays (h : c.Stands) (hk : Kept c c') (hh : Hushed c.fx c'.fx)
    (ho : c'.out = c.out) {k : DeclKind} {id : Nat} {e : String} (hid : c.own k id = some e) :
    Relays c ({ c' with out := c'.out.erase id }.announce (.undeclare k id)) := by
  have hpassed : c'.passed = c.passed := passed_congr ho
  refine (hk.relays ho hh).trans (relays_announce (.undeclare k id) (.same rfl rfl rfl le_rfl rfl rfl)
    rfl (hk.router.trans h.router) rfl trivial ?_)
  rw [hpassed, passed_erase ((h.index.passes.entries id k e).2 (.inl hid))]
  exact passed_congr (congrArg (·.erase id) ho.symm)

theorem Stands.undeclareLocal_relays (h : c.Stands) (o : Told) (k : DeclKind) (id : Nat) :
    Relays c (c.undeclareLocal o k id) := by
  cases hid : c.own k id with
  | none =>
    rw [h.index.undeclareLocal_none o hid]
    exact (Quiet.refl c).relays
  | some e =>
    cases k with
    | token =>
      let c₁ : Core := { c with lTokens := c.lTokens.erase id }
      have hk : Kept c c₁ := .same rfl rfl rfl le_rfl rfl rfl
      have hq := c₁.tokDel_quiet e
      have hlook : c.lTokens.lookup id = some e := hid
      have hgone : (if c₁.router = true then (c₁.tokDel e).1 else c₁) = (c₁.tokDel e).1 :=
        if_pos h.router
      have hd : c.undeclareLocal o .token id = ({ (c₁.tokDel e).1 with
          out := (c₁.tokDel e).1.out.erase id } : Core).announce (.undeclare .token id) := by
        simp only [Core.undeclareLocal, hlook, if_true]
        rw [hgone, if_pos]
        exact hq.router.trans h.router
      rw [hd]
      exact h.undeclare_relays (hk.trans hq.toKept) hq.hushed hq.out hid
    | sub =>
      have hmem : id ∈ c.lSubs := Map.mem_iff_lookup.2 ⟨e, hid⟩
      simp only [Core.undeclareLocal, hmem, decide_true, if_true]
      rw [if_pos h.router]
      let c₁ : Core := { c with
        subs := c.subs.remove (.loc id) id, lSubs := c.lSubs.erase id }
      have hk : Kept c c₁ := .same rfl rfl rfl le_rfl rfl rfl
      exact h.undeclare_relays hk (.refl _) rfl hid
    | qabl =>
      have hmem : id ∈ c.lQabls := Map.mem_iff_lookup.2 ⟨e, hid⟩
      simp only [Core.undeclareLocal, hmem, decide_true, if_true]
      rw [if_pos h.router]
      let c₁ : Core := { c with lQabls := c.lQabls.erase id }
      have hk : Kept c c₁ := .same rfl rfl rfl le_rfl rfl rfl
      exact h.undeclare_relays hk (.refl _) rfl hid

/-! ## What a session says -/

end Core

/-- The session has what the message says. -/
def Sess.hear (s : Sess) : Msg → Sess
  | .declare k id e => { s with decls := s.decls.insert (k, id) e }
  | .undeclare k id => { s with decls := s.decls.erase (k, id) }
  | _ => s

theorem Sess.peer_hear (s : Sess) (m : Msg) : (s.hear m).peer = s.peer := by
  cases m <;> rfl

theorem Sess.role_hear (s : Sess) (m : Msg) : (s.hear m).role = s.role := by
  cases m <;> rfl

theorem Sess.stream_hear (s : Sess) (m : Msg) : (s.hear m).stream = s.stream := by
  cases m <;> rfl

def Sess.has (s : Sess) : Decls := fun d => s.decls.lookup d

theorem Sess.Like.has {s s' : Sess} (h : s.Like s') : s'.has = s.has := by
  funext d
  exact congrArg (·.lookup d) h.decls

theorem Sess.has_hear (s : Sess) (m : Msg) : (s.hear m).has = s.has.apply m := by
  cases m with
  | declare k id e =>
    funext d
    show _ = Function.update s.has (k, id) (some e) d
    rw [Function.update_apply]
    exact Map.lookup_insert_if ..
  | undeclare k id =>
    funext d
    show _ = Function.update s.has (k, id) none d
    rw [Function.update_apply]
    exact Map.lookup_erase_if ..
  | _ => rfl

namespace Core

variable {c c' c'' : Core} {o : Told} {u : Nat} {s : Sess}

def heard (c : Core) (u : Nat) (s : Sess) (m : Msg) : Core :=
  { c with sessions := c.sessions.insert u (s.hear m) }

theorem Stands.remoteDeclare_relays (h : c.Stands) {k : DeclKind} {i : Nat}
    (hnew : s.decls.lookup (k, i) = none) (e : String) :
    Relays (c.heard u s (.declare k i e)) (c.remoteDeclare u s k i e) := by
  let c₁ := c.heard u s (.declare k i e)
  have hlist := c₁.enlist_quiet u k i e
  obtain ⟨tok, subs, l, hc⟩ := c₁.enlist_eq u k i e
  rw [remoteDeclare_eq h.router hnew]
  show Relays c₁ (if s.role = .client then (c₁.enlist u k i e).passOn u k i e
    else c₁.enlist u k i e)
  split
  · refine hlist.relays.trans ?_
    have hpasses := h.index.passes
    rw [hc]
    exact passOn_relays (c := { c₁ with tok := tok, subs := subs, fx := l }) hpasses h.router u k i e
  · exact hlist.relays

theorem Stands.remoteUndeclare_relays (h : c.Stands) (hs : c.sessions.lookup u = some s)
    (k : DeclKind) (i : Nat) :
    Relays (c.heard u s (.undeclare k i)) (c.remoteUndeclare u s k i) := by
  rw [Core.remoteUndeclare]
  cases he : s.decls.lookup (k, i) with
  | none =>
    refine Kept.relays ⟨rfl, rfl, rfl, le_rfl, rfl, fun v s' hs' => ?_⟩ rfl (.refl _)
    by_cases hv : v = u
    · subst hv
      obtain rfl := Option.some.inj (hs.symm.trans hs')
      refine ⟨_, AList.lookup_insert _, rfl, rfl, rfl, ?_⟩
      exact (Map.erase_of_none he).symm
    · exact ⟨s', (AList.lookup_insert_ne hv).trans hs', .refl s'⟩
  | some e =>
    let c₁ := c.heard u s (.undeclare k i)
    obtain ⟨tok, subs, l, hc⟩ := c₁.unlist_eq u (k, i) e
    have hretract : Relays (c₁.unlist u (k, i) e).1 ((c₁.unlist u (k, i) e).1.retract u (k, i)) := by
      have hpasses := h.index.passes
      rw [hc]
      exact retract_relays (c := { c₁ with tok := tok, subs := subs, fx := l }) hpasses h.router u (k, i)
    exact (c₁.unlist_quiet u (k, i) e).relays.trans hretract

/-- A message that neither declares nor ends the session. -/
theorem onMsg_quiet {m : Msg} (hm : m.declares = false) (hclose : ∀ r, m ≠ .close r) (c : Core)
    (o : Told) (u : Nat) : Quiet c (c.onMsg o u m) := by
  rw [onMsg]
  cases hs : c.sessions.lookup u with
  | none => exact .refl c
  | some s =>
    cases m with
    | close r => exact absurd rfl (hclose r)
    | hello | keepAlive | declareDone => exact .refl c
    | declare | undeclare => cases hm
    | tokenSub id expr history =>
      simp only
      split
      · refine .trans (.session hs { s with tsubs := s.tsubs.insert id expr } ⟨rfl, rfl, rfl, rfl⟩)
          (emits_moves _ ?_).quiet
        split
        · refine List.forall_mem_append.2 ⟨List.forall_mem_map.2 fun _ _ => ⟨rfl, rfl⟩, ?_⟩
          exact List.forall_mem_singleton.2 ⟨rfl, rfl⟩
        · exact fun x hx => absurd hx List.not_mem_nil
      · exact .refl c
    | tokenUnsub id =>
      exact .session hs { s with tsubs := s.tsubs.erase id } ⟨rfl, rfl, rfl, rfl⟩
    | tokenEvt id kind key => exact (c.onTokenEvt_aside id kind key).quiet
    | peers list =>
      have hknown : Quiet c (c.learn list) := (Aside.own c le_rfl _ _ _ _).quiet
      exact hknown.trans
        (.session (c := c.learn list) hs { s with peers := list } ⟨rfl, rfl, rfl, rfl⟩)
    | put key payload => exact (c.routePut_aside o _ key payload).quiet
    | request qid expr payload timeoutMs => exact c.routeGet_quiet o _ expr payload timeoutMs
    | reply q key ok payload =>
      simp only
      split_ifs with ht
      · exact (forwardReply_aside ht _ _ _).quiet
      · exact .refl c
    | final q => exact (c.targetDone_moves o q _).quiet

end Core

end OxlensSfu.Mesh
