import OxlensSfu.Link.Queue

/-!
# The index of the receive thread

* **`index_matches`** — when no credential is registered after its `DropUfrag` or after the
  `Unregister` of its transport, the index has the credentials of the open transports and nothing
  else, whenever nothing is under way.
* **`index_keeps_closed`** — a restart that overlaps a reap leaves an entry of a closed transport.
-/

namespace OxlensSfu.Ice

namespace State

variable {s : State}

/-! ## A check -/

theorem mem_ufrags_of_pwd {c : Creds} {u : String} (h : (c.pwd u).isSome) : u ∈ c.ufrags := by
  rw [Creds.pwd] at h
  split_ifs at h with he
  · exact he ▸ List.mem_cons_self
  · rw [Option.isSome_map] at h
    obtain ⟨p, hp⟩ := Option.isSome_iff_exists.1 h
    obtain ⟨hpend, hpu⟩ := Option.filter_eq_some_iff.1 hp
    rw [Creds.ufrags, hpend, ← of_decide_eq_true hpu]
    simp

/-- The address of a check is stored. The index may have the transport of a closed one only while
its `Unregister` is in the queue. -/
theorem Inv.address (h : s.Inv) {u : String} {tr : Nat} {t : Transport} (key : PathKey)
    (hu : s.byUfrag u = some tr) (ht : s.transports[tr]? = some t) (hmem : u ∈ t.creds.ufrags) :
    Inv { s with byAddr := Function.update s.byAddr key (some tr) } := by
  refine ⟨{ h.names with }, { h.once with }, { h.first with }, { h.gone with },
    h.settles.only, h.settles.all, ?_, ?_⟩
  · intro tr' t' ht' hcl hnot
    obtain ⟨hset, haddr⟩ := h.settles.closed tr' t' ht' hcl hnot
    refine ⟨hset, ?_⟩
    intro key' hkey'
    simp only [Function.update_apply] at hkey'
    split_ifs at hkey' with he
    · obtain rfl := Option.some.inj hkey'
      have hne : s.recvCmds.foldl (RecvCmd.on u) (some tr) ≠ some tr := hu ▸ hset u
      rcases foldl_on_ne hne with hd | hun | ⟨tr', hne, hr⟩
      · exact absurd hmem (h.gone.drop u (.inl hd) tr t ht)
      · exact hun
      · exact absurd (drawn_unique (h.names.cmd u tr' hr) (h.names.index u tr hu)) hne
    · exact haddr key' hkey'
  · intro key' tr' hkey'
    simp only [Function.update_apply] at hkey'
    split_ifs at hkey' with he
    · obtain rfl := Option.some.inj hkey'
      exact (List.getElem?_eq_some_iff.1 ht).1
    · exact h.settles.addr key' tr' hkey'

/-- The name that was in use is in no command: it was registered before the one that is now. -/
theorem Inv.register_active (h : s.Inv) {u : String} {tr : Nat} {t : Transport}
    (hu : s.byUfrag u = some tr) (ht : s.transports[tr]? = some t) (tr' : Nat) :
    .register t.creds.active.ufrag tr' ∉ s.recvCmds := by
  intro hm
  obtain rfl := drawn_unique (h.names.cmd _ tr' hm) (h.names.book tr t ht _ List.mem_cons_self)
  obtain ⟨l₁, l₂, heq⟩ := List.append_of_mem hm
  exact (h.first.cmd tr' t l₁ l₂ ht heq).1 u hu

theorem registers_of_restarts {c : Call} {x : Nat × String} (h : c.restarts = some x) :
    c.registers = some x := by
  cases c with
  | dropping _ _ _ => exact h
  | registering _ _ => exact h
  | creating _ _ => exact absurd h nofun
  | unregistering _ => exact absurd h nofun
  | done => exact absurd h nofun

/-- The credential that waited is put in use. -/
theorem Inv.promote (h : s.Inv) {tr : Nat} {t : Transport} {p : Cred}
    (hu : s.byUfrag p.ufrag = some tr) (ht : s.transports[tr]? = some t)
    (hp : t.creds.pending = some p) : (s.promote tr t.creds p.ufrag).Inv := by
  have hs' : s.promote tr t.creds p.ufrag =
      { s.onTransport tr fun t => { t with creds := ⟨p, none⟩ } with
        byUfrag := Function.update s.byUfrag t.creds.active.ufrag none } := by
    simp [State.promote, Creds.checked, hp]
  generalize s.promote tr t.creds p.ufrag = s' at hs' ⊢
  have htr : s'.transports = s.transports.modify tr fun t => { t with creds := ⟨p, none⟩ } :=
    hs' ▸ rfl
  have hcalls : s'.calls = s.calls := hs' ▸ rfl
  have hcmds : s'.recvCmds = s.recvCmds := hs' ▸ rfl
  have hindex : s'.byUfrag = Function.update s.byUfrag t.creds.active.ufrag none := hs' ▸ rfl
  have haddr : s'.byAddr = s.byAddr := hs' ▸ rfl
  have hdrawn : s'.drawn = s.drawn := hs' ▸ rfl
  have hdue : ∀ u, s'.Due u ↔ s.Due u := fun u => by rw [Due, Due, hcalls]
  have hdoomed : ∀ u, s'.Doomed u ↔ s.Doomed u := fun u => by rw [Doomed, Doomed, hcalls]
  have hufrags : t.creds.ufrags = [t.creds.active.ufrag, p.ufrag] := by simp [Creds.ufrags, hp]
  have hdistinct : t.creds.active.ufrag ≠ p.ufrag := by
    have hd := h.names.distinct tr t ht
    rw [hufrags] at hd
    simpa using hd
  -- Only the book of `tr` has changed, and only to have fewer names.
  have hslot : ∀ (tr' : Nat) (t' : Transport), s'.transports[tr']? = some t' →
      (tr' ≠ tr ∧ s.transports[tr']? = some t') ∨
        (tr' = tr ∧ t' = { t with creds := ⟨p, none⟩ }) := by
    intro tr' t' ht'
    rw [htr, getElem?_modify_slot] at ht'
    split_ifs at ht' with he
    · rw [he, ht] at ht'
      exact .inr ⟨he, (Option.some.inj ht').symm⟩
    · exact .inl ⟨he, ht'⟩
  have hbook : ∀ (tr' : Nat) (t' : Transport), s'.transports[tr']? = some t' →
      ∃ t₀, s.transports[tr']? = some t₀ ∧ t₀.closed = t'.closed ∧
        t'.creds.ufrags.Sublist t₀.creds.ufrags := by
    intro tr' t' ht'
    rcases hslot tr' t' ht' with ⟨-, ht'⟩ | ⟨rfl, rfl⟩
    · exact ⟨t', ht', rfl, .refl _⟩
    · exact ⟨t, ht, rfl, by rw [hufrags]; exact List.sublist_cons_self _ _⟩
  have hidx : ∀ u tr', s'.byUfrag u = some tr' → s.byUfrag u = some tr' := by
    intro u tr' hu
    rw [hindex, Function.update_apply] at hu
    split_ifs at hu
    exact hu
  have hset : ∀ u, s'.settled u = if u = t.creds.active.ufrag then none else s.settled u := by
    intro u
    rw [settled, hcmds, hindex, Function.update_apply]
    split_ifs with he
    · exact foldl_on_none (he ▸ h.register_active hu ht)
    · rfl
  refine ⟨?_, ⟨?_, ?_, ?_⟩, ⟨?_, ?_, ?_⟩, ⟨?_, ?_, ?_⟩, ⟨?_, ?_, ?_, ?_⟩⟩
  · refine h.names.mono hdrawn ?_ ?_ (fun u tr' hu => .inl (hidx u tr' hu)) ?_
      (by rw [htr, List.length_modify])
    · intro i c x hi hc
      rw [hcalls] at hi
      exact ⟨c, hi, hc⟩
    · intro u tr' hm
      rw [hcmds] at hm
      exact .inl hm
    · intro tr' t' ht'
      obtain ⟨t₀, ht₀, -, hsub⟩ := hbook tr' t' ht'
      exact ⟨t₀, ht₀, hsub⟩
  · intro u hu
    obtain ⟨hnot, hnone⟩ := h.once.call u ((hdue u).1 hu)
    rw [hcmds]
    refine ⟨hnot, Option.eq_none_iff_forall_ne_some.2 fun tr' hs => ?_⟩
    exact absurd (hnone.symm.trans (hidx u tr' hs)) (Option.some_ne_none tr').symm
  · intro u hne
    obtain ⟨tr', htr'⟩ := Option.ne_none_iff_exists'.1 hne
    rw [hcmds]
    exact h.once.index u (by simp [hidx u tr' htr'])
  · rw [hcmds]
    exact h.once.cmds
  · intro tr' t' l₁ l₂ ht' heq
    rw [hcmds] at heq
    rcases hslot tr' t' ht' with ⟨-, ht'⟩ | ⟨rfl, rfl⟩
    · obtain ⟨hno, hnot⟩ := h.first.cmd tr' t' l₁ l₂ ht' heq
      exact ⟨fun u hu => hno u (hidx u tr' hu), hnot⟩
    · refine absurd ?_ (h.once.index p.ufrag (by simp [hu]) tr')
      exact heq ▸ List.mem_append_right _ List.mem_cons_self
  · intro c hc tr' u hcu t' ht' he
    rw [hcalls] at hc
    rcases hslot tr' t' ht' with ⟨-, ht'⟩ | ⟨rfl, rfl⟩
    · exact h.first.restarts c hc tr' u hcu t' ht' he
    · -- The name is in the index and so no call has to register it.
      obtain ⟨i, hi⟩ := List.mem_iff_getElem?.1 hc
      have hp' : s.Due p.ufrag := ⟨i, c, tr', hi, registers_of_restarts (he ▸ hcu)⟩
      exact absurd ((h.once.call _ hp').2.symm.trans hu) (Option.some_ne_none tr').symm
  · intro tr' u hc
    rw [hcalls] at hc
    obtain ⟨⟨t', ht', ho, hone⟩, huniq⟩ := h.first.creating tr' u hc
    rw [hdrawn]
    refine ⟨⟨t', ?_, ho, hone⟩, huniq⟩
    rw [htr, getElem?_modify_slot, if_neg ?_, ht']
    rintro rfl
    obtain rfl := Option.some.inj (ht.symm.trans ht')
    simp [hufrags] at hone
  · intro u hu
    rw [hcmds, hdoomed] at hu
    rw [hdrawn]
    exact h.gone.known u hu
  · intro u hd tr' t' ht' hm
    rw [hcmds, hdoomed] at hd
    obtain ⟨t₀, ht₀, -, hsub⟩ := hbook tr' t' ht'
    exact h.gone.drop u hd tr' t₀ ht₀ (hsub.subset hm)
  · intro tr' hu
    rw [hcmds, hcalls] at hu
    obtain ⟨t', ht', hcl⟩ := h.gone.unregister tr' hu
    rw [htr, getElem?_modify_slot, ht']
    split_ifs
    · exact ⟨_, rfl, hcl⟩
    · exact ⟨t', rfl, hcl⟩
  · intro tr' t' ht' ho u hs
    rw [hset] at hs
    rw [hdoomed]
    split_ifs at hs with he
    rcases hslot tr' t' ht' with ⟨-, ht'⟩ | ⟨rfl, rfl⟩
    · exact h.settles.only tr' t' ht' ho u hs
    · refine (h.settles.only tr' t ht ho u hs).imp_left fun hm => ?_
      rw [hufrags] at hm
      exact (List.mem_cons.1 hm).resolve_left he
  · intro tr' t' ht' ho u hm hd
    obtain ⟨t₀, ht₀, hcl, hsub⟩ := hbook tr' t' ht'
    rw [hset, if_neg]
    · exact h.settles.all tr' t₀ ht₀ (hcl.trans ho) u (hsub.subset hm) fun hu => hd ((hdue u).2 hu)
    · rintro rfl
      rcases hslot tr' t' ht' with ⟨hne, ht'⟩ | ⟨rfl, rfl⟩
      · exact hne (drawn_unique (h.names.book tr' t' ht' _ hm)
          (h.names.book tr t ht _ List.mem_cons_self))
      · exact hdistinct (List.mem_singleton.1 hm)
  · intro tr' t' ht' hcl hnot
    rw [hcalls] at hnot
    obtain ⟨t₀, ht₀, hcl₀, -⟩ := hbook tr' t' ht'
    obtain ⟨hno, ha⟩ := h.settles.closed tr' t₀ ht₀ (hcl₀.trans hcl) hnot
    rw [haddr, hcmds]
    refine ⟨?_, ha⟩
    intro u hs
    rw [hset] at hs
    split_ifs at hs
    exact hno u hs
  · rw [haddr, htr, List.length_modify]
    exact h.settles.addr

theorem Inv.check (h : s.Inv) (u : String) (key : PathKey) : (s.check u key).Inv := by
  rw [State.check]
  cases hu : s.byUfrag u with
  | none => exact h
  | some tr =>
    simp only
    cases hc : (s.creds tr).filter fun c => (c.pwd u).isSome with
    | none => exact h
    | some c =>
      obtain ⟨hcr, hpwd⟩ := Option.filter_eq_some_iff.1 hc
      obtain ⟨t, ht, rfl⟩ := Option.map_eq_some_iff.1 hcr
      have ha := h.address key hu ht (mem_ufrags_of_pwd hpwd)
      cases hp : t.creds.pending with
      | none => simpa [State.promote, Creds.checked, hp] using ha
      | some p =>
        by_cases he : p.ufrag = u
        · subst he
          exact ha.promote hu ht hp
        · simpa [State.promote, Creds.checked, hp, he] using ha

/-! ## A name is drawn -/

section Draw

variable {s' : State} {c : Call} {u : String} {tr : Nat}

/-- A call draws a name for a transport. -/
structure Draws (s s' : State) (c : Call) (u : String) (tr : Nat) : Prop where
  fresh : s.drawn u = none
  call : c.registers = some (tr, u)
  calls : s'.calls = s.calls ++ [c]
  cmds : s'.recvCmds = s.recvCmds
  index : s'.byUfrag = s.byUfrag
  addr : s'.byAddr = s.byAddr
  drawn : s'.drawn = Function.update s.drawn u (some (tr, s.calls.length))

theorem Draws.ne (hd : Draws s s' c u tr) {u' : String} {x : Nat × Nat}
    (h : s.drawn u' = some x) : u' ≠ u := by
  rintro rfl
  exact absurd (hd.fresh.symm.trans h) (Option.some_ne_none x).symm

theorem Draws.keeps (hd : Draws s s' c u tr) {u' : String} {x : Nat × Nat}
    (h : s.drawn u' = some x) : s'.drawn u' = some x := by
  rw [hd.drawn, Function.update_of_ne (hd.ne h), h]

theorem Draws.settled (hd : Draws s s' c u tr) (u' : String) : s'.settled u' = s.settled u' := by
  rw [State.settled, State.settled, hd.cmds, hd.index]

theorem Draws.mem (hd : Draws s s' c u tr) {c' : Call} : c' ∈ s'.calls ↔ c' ∈ s.calls ∨ c' = c := by
  rw [hd.calls, List.mem_append, List.mem_singleton]

theorem Draws.slot (hd : Draws s s' c u tr) (i : Nat) :
    s'.calls[i]? = if i = s.calls.length then some c else s.calls[i]? := by
  rw [hd.calls, getElem?_concat]

theorem Draws.due (hd : Draws s s' c u tr) (u' : String) : s'.Due u' ↔ s.Due u' ∨ u' = u := by
  constructor
  · rintro ⟨i, c', tr', hi, hc'⟩
    rw [hd.slot] at hi
    split_ifs at hi with he
    · obtain rfl := Option.some.inj hi
      exact .inr (Prod.mk.inj (Option.some.inj (hc'.symm.trans hd.call))).2
    · exact .inl ⟨i, c', tr', hi, hc'⟩
  · rintro (⟨i, c', tr', hi, hc'⟩ | rfl)
    · exact ⟨i, c', tr', by rw [hd.slot, if_neg (slot_ne_length hi), hi], hc'⟩
    · exact ⟨s.calls.length, c, tr, by rw [hd.slot, if_pos rfl], hd.call⟩

theorem Names.draw (h : s.Names) (hd : Draws s s' c u tr)
    (hlen : s.transports.length ≤ s'.transports.length) (htr : tr < s'.transports.length)
    (hbook : ∀ (tr' : Nat) (t' : Transport), s'.transports[tr']? = some t' →
      s.transports[tr']? = some t' ∨ tr' = tr ∧ ∃ l, t'.creds.ufrags = l ++ [u] ∧ l.Nodup ∧
        ∀ v ∈ l, ∃ i, s.drawn v = some (tr, i)) : s'.Names where
  call i c' tr' u' hi hc' := by
    rw [hd.slot] at hi
    split_ifs at hi with he
    · obtain rfl := Option.some.inj hi
      obtain ⟨rfl, rfl⟩ := Prod.mk.inj (Option.some.inj (hc'.symm.trans hd.call))
      rw [hd.drawn, Function.update_self, he]
    · exact hd.keeps (h.call i c' tr' u' hi hc')
  cmd u' tr' hm := by
    rw [hd.cmds] at hm
    obtain ⟨i, hi⟩ := h.cmd u' tr' hm
    exact ⟨i, hd.keeps hi⟩
  index u' tr' hu' := by
    rw [hd.index] at hu'
    obtain ⟨i, hi⟩ := h.index u' tr' hu'
    exact ⟨i, hd.keeps hi⟩
  book tr' t' ht' v hv := by
    rcases hbook tr' t' ht' with ht | ⟨rfl, l, hl, -, hdrawn⟩
    · obtain ⟨i, hi⟩ := h.book tr' t' ht v hv
      exact ⟨i, hd.keeps hi⟩
    · rw [hl, List.mem_append, List.mem_singleton] at hv
      rcases hv with hv | rfl
      · obtain ⟨i, hi⟩ := hdrawn v hv
        exact ⟨i, hd.keeps hi⟩
      · exact ⟨s.calls.length, by rw [hd.drawn, Function.update_self]⟩
  distinct tr' t' ht' := by
    rcases hbook tr' t' ht' with ht | ⟨rfl, l, hl, hnodup, hdrawn⟩
    · exact h.distinct tr' t' ht
    · rw [hl, List.nodup_append]
      refine ⟨hnodup, List.nodup_singleton u, ?_⟩
      intro v hv w hw
      obtain ⟨i, hi⟩ := hdrawn v hv
      rw [List.mem_singleton.1 hw]
      exact hd.ne hi
  range u' tr' i hi := by
    rw [hd.drawn, Function.update_apply] at hi
    split_ifs at hi with he
    · obtain ⟨rfl, -⟩ := Prod.mk.inj (Option.some.inj hi)
      exact htr
    · exact (h.range u' tr' i hi).trans_le hlen

theorem Once.draw (h : s.Once) (hn : s.Names) (hd : Draws s s' c u tr) : s'.Once := by
  refine ⟨?_, by rw [hd.index, hd.cmds]; exact h.index, by rw [hd.cmds]; exact h.cmds⟩
  intro u' hu'
  rw [hd.cmds, hd.index]
  rcases (hd.due u').1 hu' with hu' | rfl
  · exact h.call u' hu'
  · refine ⟨?_, Option.eq_none_iff_forall_ne_some.2 ?_⟩
    · intro tr' hm
      obtain ⟨i, hi⟩ := hn.cmd u' tr' hm
      exact hd.ne hi rfl
    · intro tr' hm
      obtain ⟨i, hi⟩ := hn.index u' tr' hm
      exact hd.ne hi rfl

/-- An entry of the index, now or once the queue is empty, is of a name that was drawn. -/
theorem Names.settled (h : s.Names) {u : String} {tr : Nat} (hs : s.settled u = some tr) :
    ∃ i, s.drawn u = some (tr, i) := by
  suffices hstep : ∀ (q : List RecvCmd) (x : Option Nat),
      (∀ tr, .register u tr ∈ q → ∃ i, s.drawn u = some (tr, i)) →
      (∀ tr, x = some tr → ∃ i, s.drawn u = some (tr, i)) →
      q.foldl (RecvCmd.on u) x = some tr → ∃ i, s.drawn u = some (tr, i) from
    hstep s.recvCmds (s.byUfrag u) (h.cmd u) (h.index u) hs
  intro q
  induction q with
  | nil => exact fun x _ hx => hx tr
  | cons c q ih =>
    intro x hq hx
    refine ih (c.on u x) (fun tr hm => hq tr (List.mem_cons_of_mem c hm)) ?_
    intro tr hc
    rcases on_eq_some hc with hc | rfl
    · exact hx tr hc
    · exact hq tr List.mem_cons_self

theorem Inv.newTransport (h : s.Inv) {c : Cred} (hfresh : s.drawn c.ufrag = none) :
    (s.newTransport c).Inv := by
  have hd : Draws s (s.newTransport c) (.creating s.transports.length c.ufrag) c.ufrag
      s.transports.length := ⟨hfresh, rfl, rfl, rfl, rfl, rfl, rfl⟩
  have htr : (s.newTransport c).transports = s.transports ++ [{ creds := { active := c } }] := rfl
  generalize s.newTransport c = s' at hd htr ⊢
  have hslot : ∀ (tr : Nat) (t : Transport), s'.transports[tr]? = some t →
      s.transports[tr]? = some t ∨ tr = s.transports.length ∧ t = { creds := { active := c } } := by
    intro tr t ht
    rw [htr, getElem?_concat] at ht
    split_ifs at ht with he
    · exact .inr ⟨he, (Option.some.inj ht).symm⟩
    · exact .inl ht
  have hold : ∀ (tr : Nat) (t : Transport), s.transports[tr]? = some t →
      s'.transports[tr]? = some t := by
    intro tr t ht
    rw [htr, getElem?_concat, if_neg (slot_ne_length ht), ht]
  have hdoomed : ∀ u, s'.Doomed u → s.Doomed u := by
    rintro u ⟨d, hdm, hdu⟩
    rcases hd.mem.1 hdm with hdm | rfl
    · exact ⟨d, hdm, hdu⟩
    · exact absurd hdu nofun
  refine ⟨?_, h.once.draw h.names hd, ⟨?_, ?_, ?_⟩, ⟨?_, ?_, ?_⟩, ⟨?_, ?_, ?_, ?_⟩⟩
  · refine h.names.draw hd (by simp [htr]) (by simp [htr]) ?_
    intro tr t ht
    refine (hslot tr t ht).imp_right ?_
    rintro ⟨rfl, rfl⟩
    exact ⟨rfl, [], rfl, List.nodup_nil, fun v hv => absurd hv List.not_mem_nil⟩
  · intro tr t l₁ l₂ ht heq
    rw [hd.cmds] at heq
    rw [hd.index]
    rcases hslot tr t ht with ht | ⟨rfl, rfl⟩
    · exact h.first.cmd tr t l₁ l₂ ht heq
    · obtain ⟨i, hi⟩ := h.names.cmd c.ufrag _ (heq ▸ List.mem_append_right _ List.mem_cons_self)
      exact absurd rfl (hd.ne hi)
  · intro d hdm tr u hdu t ht
    rcases hd.mem.1 hdm with hdm | rfl
    · rcases hslot tr t ht with ht | ⟨rfl, rfl⟩
      · exact h.first.restarts d hdm tr u hdu t ht
      · obtain ⟨i, hi⟩ := List.mem_iff_getElem?.1 hdm
        exact (hd.ne (h.names.call i d _ u hi (registers_of_restarts hdu))).symm
    · exact absurd hdu nofun
  · intro tr u hdm
    rcases hd.mem.1 hdm with hdm | he
    · obtain ⟨⟨t, ht, ho, hone⟩, huniq⟩ := h.first.creating tr u hdm
      refine ⟨⟨t, hold tr t ht, ho, hone⟩, ?_⟩
      intro u' i hi
      rw [hd.drawn, Function.update_apply] at hi
      split_ifs at hi
      · obtain ⟨rfl, -⟩ := Prod.mk.inj (Option.some.inj hi)
        exact absurd rfl (slot_ne_length ht)
      · exact huniq u' i hi
    · obtain ⟨rfl, rfl⟩ := Call.creating.inj he
      refine ⟨⟨_, by rw [htr, getElem?_concat, if_pos rfl], rfl, rfl⟩, ?_⟩
      intro u' i hi
      rw [hd.drawn, Function.update_apply] at hi
      split_ifs at hi with he
      · exact he
      · exact absurd (h.names.range u' _ i hi) (lt_irrefl _)
  · intro u hu
    rw [hd.cmds] at hu
    obtain ⟨x, hx⟩ := Option.ne_none_iff_exists'.1 (h.gone.known u (hu.imp_right (hdoomed u)))
    rw [hd.keeps hx]
    exact Option.some_ne_none x
  · intro u hu tr t ht
    rw [hd.cmds] at hu
    have hu := hu.imp_right (hdoomed u)
    rcases hslot tr t ht with ht | ⟨rfl, rfl⟩
    · exact h.gone.drop u hu tr t ht
    · obtain ⟨x, hx⟩ := Option.ne_none_iff_exists'.1 (h.gone.known u hu)
      simpa [Creds.ufrags] using hd.ne hx
  · intro tr hu
    rw [hd.cmds, hd.mem] at hu
    obtain ⟨t, ht, hcl⟩ := h.gone.unregister tr (hu.imp_right fun hm => hm.resolve_right nofun)
    exact ⟨t, hold tr t ht, hcl⟩
  · intro tr t ht ho u hu
    rw [hd.settled] at hu
    rcases hslot tr t ht with ht | ⟨rfl, rfl⟩
    · refine (h.settles.only tr t ht ho u hu).imp_right ?_
      rintro ⟨d, hdm, hdu⟩
      exact ⟨d, hd.mem.2 (.inl hdm), hdu⟩
    · obtain ⟨i, hi⟩ := h.names.settled hu
      exact absurd (h.names.range u _ i hi) (lt_irrefl _)
  · intro tr t ht ho u hu hdue
    rw [hd.due, not_or] at hdue
    rw [hd.settled]
    rcases hslot tr t ht with ht | ⟨rfl, rfl⟩
    · exact h.settles.all tr t ht ho u hu hdue.1
    · exact absurd (List.mem_singleton.1 hu) hdue.2
  · intro tr t ht hcl hnot
    rw [hd.mem, not_or] at hnot
    rw [hd.cmds, hd.addr]
    rcases hslot tr t ht with ht | ⟨rfl, rfl⟩
    · obtain ⟨hno, ha⟩ := h.settles.closed tr t ht hcl hnot.1
      exact ⟨fun u => (hd.settled u).symm ▸ hno u, ha⟩
    · exact absurd hcl nofun
  · intro key tr hkey
    rw [hd.addr] at hkey
    rw [htr, List.length_append]
    exact (h.settles.addr key tr hkey).trans_le (Nat.le_add_right _ _)

/-- What a restart does to a book that is there: its call drops the pending name, if there is one. -/
theorem iceRestart_eq {tr : Nat} {t : Transport} (ht : s.transports[tr]? = some t) (next : Cred) :
    ∃ c : Call, c.restarts = some (tr, next.ufrag) ∧
      (∀ u, c.drops = some u ↔ ∃ old, t.creds.pending = some old ∧ u = old.ufrag) ∧
      s.iceRestart tr next =
        { s.onTransport tr fun t' =>
            { t' with creds := { t.creds with pending := some next } } with
          calls := s.calls ++ [c]
          drawn := Function.update s.drawn next.ufrag (some (tr, s.calls.length)) } := by
  simp only [iceRestart, creds, ht, Option.map_some, Creds.restart]
  cases t.creds.pending with
  | none => exact ⟨.registering tr next.ufrag, rfl, by simp [Call.drops], rfl⟩
  | some old => exact ⟨.dropping old.ufrag tr next.ufrag, rfl, by simp [Call.drops, eq_comm], rfl⟩

theorem Inv.iceRestart (h : s.Inv) {tr : Nat} {next : Cred} (hcr : s.Created tr)
    (hfresh : s.drawn next.ufrag = none) : (s.iceRestart tr next).Inv := by
  obtain ⟨t, ht⟩ : ∃ t, s.transports[tr]? = some t := ⟨_, List.getElem?_eq_getElem hcr.1⟩
  obtain ⟨c, hres, hdrops, hs'⟩ := iceRestart_eq ht next
  generalize s.iceRestart tr next = s' at hs' ⊢
  have hd : Draws s s' c next.ufrag tr :=
    ⟨hfresh, registers_of_restarts hres, hs' ▸ rfl, hs' ▸ rfl, hs' ▸ rfl, hs' ▸ rfl, hs' ▸ rfl⟩
  have htr : s'.transports = s.transports.modify tr
      fun t' => { t' with creds := { t.creds with pending := some next } } := hs' ▸ rfl
  have hslot : ∀ (tr' : Nat) (t' : Transport), s'.transports[tr']? = some t' →
      (tr' ≠ tr ∧ s.transports[tr']? = some t') ∨
        (tr' = tr ∧ t' = { t with creds := { t.creds with pending := some next } }) := by
    intro tr' t' ht'
    rw [htr, getElem?_modify_slot] at ht'
    split_ifs at ht' with he
    · rw [he, ht] at ht'
      exact .inr ⟨he, (Option.some.inj ht').symm⟩
    · exact .inl ⟨he, ht'⟩
  have hbook : ∀ u ∈ t.creds.ufrags, ∃ i, s.drawn u = some (tr, i) := h.names.book tr t ht
  -- The name that waited is dropped by this call, the others of the book stay.
  have hufrags : ∀ u ∈ t.creds.ufrags, u = t.creds.active.ufrag ∨ c.drops = some u := by
    intro u hu
    refine (List.mem_cons.1 hu).imp_right fun hu => ?_
    obtain ⟨old, hold, rfl⟩ := Option.map_eq_some_iff.1 (Option.mem_toList.1 hu)
    exact (hdrops _).2 ⟨old, hold, rfl⟩
  have hdropped : ∀ u, c.drops = some u → u ∈ t.creds.ufrags ∧ u ≠ t.creds.active.ufrag := by
    intro u hu
    obtain ⟨old, hold, rfl⟩ := (hdrops u).1 hu
    have hdist := h.names.distinct tr t ht
    simp only [Creds.ufrags, hold, Option.map_some, Option.toList_some] at hdist ⊢
    exact ⟨by simp, by simpa [eq_comm] using hdist⟩
  have hdoomed : ∀ u, s'.Doomed u ↔ s.Doomed u ∨ c.drops = some u := by
    intro u
    simp only [Doomed, hd.mem]
    constructor
    · rintro ⟨d, hm | rfl, hdu⟩
      · exact .inl ⟨d, hm, hdu⟩
      · exact .inr hdu
    · rintro (⟨d, hm, hdu⟩ | hdu)
      · exact ⟨d, .inl hm, hdu⟩
      · exact ⟨c, .inr rfl, hdu⟩
  have hnotreg : ∀ tr', c ≠ .unregistering tr' := by
    rintro tr' rfl
    cases hres
  refine ⟨?_, h.once.draw h.names hd, ⟨?_, ?_, ?_⟩, ⟨?_, ?_, ?_⟩, ⟨?_, ?_, ?_, ?_⟩⟩
  · refine h.names.draw hd (by simp [htr]) (by simpa [htr] using hcr.1) ?_
    intro tr' t' ht'
    rcases hslot tr' t' ht' with ⟨-, ht'⟩ | ⟨rfl, rfl⟩
    · exact .inl ht'
    · refine .inr ⟨rfl, [t.creds.active.ufrag], rfl, List.nodup_singleton _, ?_⟩
      intro v hv
      exact hbook v (List.mem_singleton.1 hv ▸ List.mem_cons_self)
  · intro tr' t' l₁ l₂ ht' heq
    rw [hd.cmds] at heq
    rw [hd.index]
    rcases hslot tr' t' ht' with ⟨-, ht'⟩ | ⟨rfl, rfl⟩
    · exact h.first.cmd tr' t' l₁ l₂ ht' heq
    · exact h.first.cmd tr' t l₁ l₂ ht heq
  · intro d hdm tr' u hdu t' ht'
    rcases hd.mem.1 hdm with hdm | rfl
    · rcases hslot tr' t' ht' with ⟨-, ht'⟩ | ⟨rfl, rfl⟩
      · exact h.first.restarts d hdm tr' u hdu t' ht'
      · exact h.first.restarts d hdm tr' u hdu t ht
    · obtain ⟨rfl, rfl⟩ := Prod.mk.inj (Option.some.inj (hres.symm.trans hdu))
      rcases hslot tr t' ht' with ⟨hne, -⟩ | ⟨-, rfl⟩
      · exact absurd rfl hne
      · obtain ⟨i, hi⟩ := hbook _ List.mem_cons_self
        exact hd.ne hi
  · intro tr' u hdm
    rcases hd.mem.1 hdm with hdm | rfl
    · obtain ⟨⟨t', ht', ho, hone⟩, huniq⟩ := h.first.creating tr' u hdm
      have hne : tr' ≠ tr := by
        rintro rfl
        exact hcr.2 _ hdm rfl
      refine ⟨⟨t', by rw [htr, getElem?_modify_slot, if_neg hne, ht'], ho, hone⟩, ?_⟩
      intro u' i hi
      rw [hd.drawn, Function.update_apply] at hi
      split_ifs at hi
      · exact absurd (Prod.mk.inj (Option.some.inj hi)).1.symm hne
      · exact huniq u' i hi
    · cases hres
  · intro u hu
    rw [hd.cmds, hdoomed, ← or_assoc] at hu
    obtain ⟨x, hx⟩ : ∃ x, s.drawn u = some x := by
      rcases hu with hu | hu
      · exact Option.ne_none_iff_exists'.1 (h.gone.known u hu)
      · obtain ⟨i, hi⟩ := hbook u (hdropped u hu).1
        exact ⟨_, hi⟩
    rw [hd.keeps hx]
    exact Option.some_ne_none x
  · intro u hu tr' t' ht' hm
    rw [hd.cmds, hdoomed, ← or_assoc] at hu
    rcases hslot tr' t' ht' with ⟨hne, ht'⟩ | ⟨rfl, rfl⟩
    · rcases hu with hu | hu
      · exact h.gone.drop u hu tr' t' ht' hm
      · exact hne (drawn_unique (h.names.book tr' t' ht' u hm) (hbook u (hdropped u hu).1))
    · have hm : u = t.creds.active.ufrag ∨ u = next.ufrag := by simpa [Creds.ufrags] using hm
      rcases hu with hu | hu
      · obtain ⟨x, hx⟩ := Option.ne_none_iff_exists'.1 (h.gone.known u hu)
        rcases hm with rfl | rfl
        · exact h.gone.drop _ hu tr' t ht List.mem_cons_self
        · exact hd.ne hx rfl
      · obtain ⟨i, hi⟩ := hbook u (hdropped u hu).1
        exact hm.elim (hdropped u hu).2 (hd.ne hi)
  · intro tr' hu
    rw [hd.cmds, hd.mem] at hu
    obtain ⟨t', ht', hcl⟩ := h.gone.unregister tr'
      (hu.imp_right fun hm => hm.resolve_right (hnotreg tr').symm)
    rw [htr, getElem?_modify_slot, ht']
    split_ifs
    · exact ⟨_, rfl, hcl⟩
    · exact ⟨t', rfl, hcl⟩
  · intro tr' t' ht' ho u hu
    rw [hd.settled] at hu
    rw [hdoomed]
    rcases hslot tr' t' ht' with ⟨-, ht'⟩ | ⟨rfl, rfl⟩
    · exact (h.settles.only tr' t' ht' ho u hu).imp_right .inl
    · rcases h.settles.only tr' t ht ho u hu with hm | hm
      · exact (hufrags u hm).imp (fun e => List.mem_cons.2 (.inl e)) .inr
      · exact .inr (.inl hm)
  · intro tr' t' ht' ho u hu hdue
    rw [hd.due, not_or] at hdue
    rw [hd.settled]
    rcases hslot tr' t' ht' with ⟨-, ht'⟩ | ⟨rfl, rfl⟩
    · exact h.settles.all tr' t' ht' ho u hu hdue.1
    · have hu : u = t.creds.active.ufrag ∨ u = next.ufrag := by simpa [Creds.ufrags] using hu
      obtain rfl := hu.resolve_right hdue.2
      exact h.settles.all tr' t ht ho _ List.mem_cons_self hdue.1
  · intro tr' t' ht' hcl hnot
    rw [hd.mem, not_or] at hnot
    rw [hd.cmds, hd.addr]
    have hold : ∃ t₀, s.transports[tr']? = some t₀ ∧ t₀.closed = true := by
      rcases hslot tr' t' ht' with ⟨-, ht'⟩ | ⟨rfl, rfl⟩
      · exact ⟨t', ht', hcl⟩
      · exact ⟨t, ht, hcl⟩
    obtain ⟨t₀, ht₀, hcl₀⟩ := hold
    obtain ⟨hno, ha⟩ := h.settles.closed tr' t₀ ht₀ hcl₀ hnot.1
    exact ⟨fun u => (hd.settled u).symm ▸ hno u, ha⟩
  · intro key tr' hkey
    rw [hd.addr] at hkey
    rw [htr, List.length_modify]
    exact h.settles.addr key tr' hkey

end Draw

/-! ## A transport is closed -/

theorem Inv.reap (h : s.Inv) {tr : Nat} (hcr : s.Created tr) : (s.reap tr).Inv := by
  have htr : (s.reap tr).transports =
      s.transports.modify tr fun t => { t with closed := true } := rfl
  have hcalls : (s.reap tr).calls = s.calls ++ [.unregistering tr] := rfl
  have hcmds : (s.reap tr).recvCmds = s.recvCmds := rfl
  have hdrawn : (s.reap tr).drawn = s.drawn := rfl
  have hindex : (s.reap tr).byUfrag = s.byUfrag := rfl
  have haddr : (s.reap tr).byAddr = s.byAddr := rfl
  generalize s.reap tr = s' at htr hcalls hcmds hdrawn hindex haddr ⊢
  have hdue : ∀ u, s'.Due u ↔ s.Due u := by
    intro u
    simp only [Due, hcalls, getElem?_concat]
    constructor
    · rintro ⟨i, c, tr', hi, hc⟩
      split_ifs at hi
      · obtain rfl := Option.some.inj hi
        cases hc
      · exact ⟨i, c, tr', hi, hc⟩
    · rintro ⟨i, c, tr', hi, hc⟩
      exact ⟨i, c, tr', by rw [if_neg (slot_ne_length hi), hi], hc⟩
  have hmem : ∀ c, c ∈ s'.calls ↔ c ∈ s.calls ∨ c = .unregistering tr := by simp [hcalls]
  have hdoomed : ∀ u, s'.Doomed u ↔ s.Doomed u := by
    intro u
    simp only [Doomed, hmem]
    constructor
    · rintro ⟨d, hm | rfl, hdu⟩
      · exact ⟨d, hm, hdu⟩
      · cases hdu
    · rintro ⟨d, hm, hdu⟩
      exact ⟨d, .inl hm, hdu⟩
  have hset : ∀ u, s'.settled u = s.settled u := fun u => by rw [settled, settled, hcmds, hindex]
  have hslot : ∀ (tr' : Nat) (t' : Transport), s'.transports[tr']? = some t' →
      ∃ t, s.transports[tr']? = some t ∧ t'.creds = t.creds ∧
        (tr' ≠ tr ∧ t'.closed = t.closed ∨ tr' = tr ∧ t'.closed = true) := by
    intro tr' t' ht'
    rw [htr, getElem?_modify_slot] at ht'
    split_ifs at ht' with he
    · obtain ⟨t, ht, rfl⟩ := Option.map_eq_some_iff.1 ht'
      exact ⟨t, ht, rfl, .inr ⟨he, rfl⟩⟩
    · exact ⟨t', ht', rfl, .inl ⟨he, rfl⟩⟩
  have hopen : ∀ (tr' : Nat) (t' : Transport), s'.transports[tr']? = some t' →
      t'.closed = false → ∃ t, s.transports[tr']? = some t ∧ t'.creds = t.creds ∧
        t.closed = false := by
    intro tr' t' ht' ho
    obtain ⟨t, ht, hcr, ⟨-, hcl⟩ | ⟨-, hcl⟩⟩ := hslot tr' t' ht'
    · exact ⟨t, ht, hcr, hcl.symm.trans ho⟩
    · exact absurd (ho.symm.trans hcl) Bool.false_ne_true
  refine ⟨?_, ⟨?_, ?_, ?_⟩, ⟨?_, ?_, ?_⟩, ⟨?_, ?_, ?_⟩, ⟨?_, ?_, ?_, ?_⟩⟩
  · refine h.names.mono hdrawn ?_ (fun u tr' hm => .inl (hcmds ▸ hm))
      (fun u tr' hu => .inl (hindex ▸ hu)) ?_ (by rw [htr, List.length_modify])
    · intro i c x hi hc
      rw [hcalls, getElem?_concat] at hi
      split_ifs at hi
      · obtain rfl := Option.some.inj hi
        cases hc
      · exact ⟨c, hi, hc⟩
    · intro tr' t' ht'
      obtain ⟨t, ht, hcr, -⟩ := hslot tr' t' ht'
      exact ⟨t, ht, hcr ▸ .refl _⟩
  · intro u hu
    rw [hcmds, hindex]
    exact h.once.call u ((hdue u).1 hu)
  · rw [hcmds, hindex]
    exact h.once.index
  · rw [hcmds]
    exact h.once.cmds
  · intro tr' t' l₁ l₂ ht' heq
    obtain ⟨t, ht, hcr, -⟩ := hslot tr' t' ht'
    rw [hcmds, hcr] at heq
    rw [hindex]
    exact h.first.cmd tr' t l₁ l₂ ht heq
  · intro c hc tr' u hcu t' ht'
    obtain ⟨t, ht, hcr, -⟩ := hslot tr' t' ht'
    rw [hcr]
    rcases (hmem c).1 hc with hc | rfl
    · exact h.first.restarts c hc tr' u hcu t ht
    · cases hcu
  · intro tr' u hc
    have hc := ((hmem _).1 hc).resolve_right (by simp)
    obtain ⟨⟨t, ht, ho, hone⟩, huniq⟩ := h.first.creating tr' u hc
    rw [hdrawn]
    refine ⟨⟨t, ?_, ho, hone⟩, huniq⟩
    rw [htr, getElem?_modify_slot, if_neg ?_, ht]
    rintro rfl
    exact hcr.2 _ hc rfl
  · intro u hu
    rw [hcmds, hdoomed] at hu
    rw [hdrawn]
    exact h.gone.known u hu
  · intro u hu tr' t' ht'
    rw [hcmds, hdoomed] at hu
    obtain ⟨t, ht, hcr, -⟩ := hslot tr' t' ht'
    rw [hcr]
    exact h.gone.drop u hu tr' t ht
  · intro tr' hu
    rw [hcmds, hmem, ← or_assoc] at hu
    rw [htr, getElem?_modify_slot]
    rcases hu with hu | hu
    · obtain ⟨t, ht, hcl⟩ := h.gone.unregister tr' hu
      split_ifs
      · exact ⟨_, by rw [ht]; rfl, rfl⟩
      · exact ⟨t, ht, hcl⟩
    · obtain rfl := Call.unregistering.inj hu
      rw [if_pos rfl, List.getElem?_eq_getElem hcr.1]
      exact ⟨_, rfl, rfl⟩
  · intro tr' t' ht' ho u hu
    obtain ⟨t, ht, hcr, ho⟩ := hopen tr' t' ht' ho
    rw [hset] at hu
    rw [hcr, hdoomed]
    exact h.settles.only tr' t ht ho u hu
  · intro tr' t' ht' ho u hu hd
    obtain ⟨t, ht, hcr, ho⟩ := hopen tr' t' ht' ho
    rw [hcr] at hu
    rw [hdue] at hd
    rw [hset]
    exact h.settles.all tr' t ht ho u hu hd
  · intro tr' t' ht' hcl hnot
    rw [hmem, not_or] at hnot
    obtain ⟨t, ht, -, ⟨-, hc⟩ | ⟨rfl, -⟩⟩ := hslot tr' t' ht'
    · obtain ⟨hno, ha⟩ := h.settles.closed tr' t ht (hc.symm.trans hcl) hnot.1
      rw [haddr, hcmds]
      exact ⟨fun u => (hset u).symm ▸ hno u, ha⟩
    · exact absurd rfl hnot.2
  · rw [haddr, htr, List.length_modify]
    exact h.settles.addr

theorem Inv.tcpClosed (h : s.Inv) (id : Nat) : (s.next (.tcpClosed id)).Inv := by
  have hsub : ∀ key tr, Function.update s.byAddr (.tcp id) none key = some tr →
      s.byAddr key = some tr := by
    intro key tr hkey
    rw [Function.update_apply] at hkey
    split_ifs at hkey
    exact hkey
  refine ⟨{ h.names with }, { h.once with }, { h.first with }, { h.gone with },
    h.settles.only, h.settles.all, ?_, fun key tr hkey => h.settles.addr key tr (hsub key tr hkey)⟩
  intro tr t ht hcl hnot
  obtain ⟨hno, ha⟩ := h.settles.closed tr t ht hcl hnot
  exact ⟨hno, fun key hkey => ha key (hsub key tr hkey)⟩

/-! ## Every run -/

theorem push_of_ne_done {c : Call} (h : c ≠ .done) :
    ∃ cmd, Call.push c = (some cmd, (Call.push c).2) := by
  cases c with
  | done => exact absurd rfl h
  | _ => exact ⟨_, rfl⟩

theorem Inv.next (h : s.Inv) {a : Act} (hok : machine.ok s a) (hp : s.Prompt a) :
    (s.next a).Inv := by
  cases a with
  | newTransport c => exact h.newTransport hok
  | iceRestart tr c => exact h.iceRestart hok.1 hok.2
  | reap tr => exact h.reap hok
  | push i =>
    obtain ⟨c, hi, hc⟩ := (Option.any_eq_true _ _).1 hok
    obtain ⟨cmd, hcmd⟩ := push_of_ne_done (of_decide_eq_true hc)
    exact h.push hi hcmd hp
  | pop =>
    obtain ⟨c, cs, hq⟩ := List.exists_cons_of_ne_nil hok
    exact h.pop hq
  | check u key => exact h.check u key
  | tcpClosed id => exact h.tcpClosed id

theorem inv_start : ({} : State).Inv := by
  refine ⟨⟨?_, ?_, ?_, ?_, ?_, ?_⟩, ⟨?_, ?_, List.Pairwise.nil⟩, ⟨?_, ?_, ?_⟩, ⟨?_, ?_, ?_⟩,
    ⟨?_, ?_, ?_, ?_⟩⟩
  all_goals simp [Due, Doomed]

/-- With nothing under way what will be in the index is in it. -/
theorem Inv.matches (h : s.Inv) (hq : s.Quiet) : s.Matches := by
  obtain ⟨hdone, hcmds⟩ := hq
  have hset : ∀ u, s.settled u = s.byUfrag u := fun u => by rw [settled, hcmds, List.foldl_nil]
  have hdue : ∀ u, ¬ s.Due u := by
    rintro u ⟨i, c, tr, hi, hc⟩
    rw [hdone c (List.mem_of_getElem? hi)] at hc
    cases hc
  have hdoomed : ∀ u, ¬ s.Doomed u := by
    rintro u ⟨c, hc, hdu⟩
    rw [hdone c hc] at hdu
    cases hdu
  have hreap : ∀ tr, .unregistering tr ∉ s.calls := fun tr hm => absurd (hdone _ hm) (by simp)
  refine ⟨?_, ?_⟩
  · intro u tr
    constructor
    · intro hu
      obtain ⟨i, hi⟩ := h.names.index u tr hu
      have ht := List.getElem?_eq_getElem (h.names.range u tr i hi)
      cases hcl : (s.transports.get ⟨tr, h.names.range u tr i hi⟩).closed with
      | false => exact ⟨_, ht, hcl, (h.settles.only tr _ ht hcl u (hset u ▸ hu)).resolve_right
          (hdoomed u)⟩
      | true => exact absurd (hset u ▸ hu) ((h.settles.closed tr _ ht hcl (hreap tr)).1 u)
    · rintro ⟨t, ht, ho, hu⟩
      rw [← hset]
      exact h.settles.all tr t ht ho u hu (hdue u)
  · intro key tr hkey
    have ht := List.getElem?_eq_getElem (h.settles.addr key tr hkey)
    refine ⟨_, ht, Bool.eq_false_iff.2 fun hcl => ?_⟩
    have hm := (h.settles.closed tr _ ht hcl (hreap tr)).2 key hkey
    rw [hcmds] at hm
    exact absurd hm List.not_mem_nil

end State

open State

/-- **The index has the names of the open transports**, in every run whose restarts are prompt,
whenever nothing is under way. -/
theorem index_matches (acts : List Act)
    (hrun : (machine.restrict State.Prompt).Legal ({} : State) acts)
    (hq : (machine.exec ({} : State) acts).Quiet) :
    (machine.exec ({} : State) acts).Matches := by
  have hinv : (machine.exec ({} : State) acts).Inv := by
    rw [← Machine.restrict_exec _ State.Prompt]
    exact Machine.invariant (fun s a h hok => h.next hok.1 hok.2) inv_start hrun
  exact hinv.matches hq

/-- A transport is restarted and checked. -/
theorem index_matches_restarted :
    (machine.exec ({} : State) [.newTransport ⟨"a", "pa"⟩, .push 0, .pop,
      .iceRestart 0 ⟨"b", "pb"⟩, .push 1, .pop, .check "b" (.udp "x"), .reap 0, .push 2,
      .pop]).Matches :=
  index_matches _ (by decide) (by decide)

/-- A restart has changed the book, the transport is reaped, and the restart registers its
credential. -/
theorem index_keeps_closed : ¬ ∀ acts, machine.Legal ({} : State) acts →
    (machine.exec ({} : State) acts).Quiet → (machine.exec ({} : State) acts).Matches := by
  intro h
  have hrun := h [.newTransport ⟨"a", "pa"⟩, .push 0, .pop, .iceRestart 0 ⟨"b", "pb"⟩, .reap 0,
    .push 2, .pop, .push 1, .pop] (by decide) (by decide)
  obtain ⟨t, ht, ho, -⟩ := (hrun.byUfrag "b" 0).1 (by decide)
  have hclosed : (((machine.exec ({} : State) [.newTransport ⟨"a", "pa"⟩, .push 0, .pop,
      .iceRestart 0 ⟨"b", "pb"⟩, .reap 0, .push 2, .pop, .push 1, .pop]).transports[0]?).map
        (·.closed)) = some true := by
    decide
  rw [ht] at hclosed
  exact absurd (ho.symm.trans (Option.some.inj hclosed)) Bool.false_ne_true

end OxlensSfu.Ice
