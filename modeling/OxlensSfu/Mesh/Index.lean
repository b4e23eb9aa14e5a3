import OxlensSfu.Mesh.Core

/-!
# What stands on top of the declarations

A router keeps what its process and its sessions have declared, and on top of that the number of
tokens of each key, the subscription index and the declarations it passes on. A `View` is what is
declared; `Index` says that what stands on top agrees with it. Every handler changes both alike.
-/

namespace OxlensSfu.Mesh

/-- What is declared: by the own process, by the sessions, by those of them that are clients, and
how often each token. -/
structure View where
  own : DeclKind → Nat → Option String
  remote : Nat → DeclKind × Nat → Option String
  south : Nat → DeclKind × Nat → Option String
  tokens : String → Nat

/-- One of `e`. -/
def oneOf (e key : String) : Nat := if e = key then 1 else 0

@[simp] theorem oneOf_self (e : String) : oneOf e e = 1 := if_pos rfl

theorem oneOf_of_ne {e key : String} (h : key ≠ e) : oneOf e key = 0 := if_neg h.symm

/-- The tokens that a declaration counts for. -/
def DeclKind.tokens (k : DeclKind) (e key : String) : Nat := if k = .token then oneOf e key else 0

def Sess.tokens (s : Sess) (key : String) : Nat :=
  Map.total (fun d e => d.1.tokens e key) s.decls

namespace Core

def own (c : Core) (k : DeclKind) (id : Nat) : Option String :=
  match k with
  | .token => c.lTokens.lookup id
  | .sub => c.lSubs.lookup id
  | .qabl => c.lQabls.lookup id

def remote (c : Core) (u : Nat) (d : DeclKind × Nat) : Option String :=
  (c.sessions.lookup u).bind (·.decls.lookup d)

def clients (c : Core) (u : Nat) (d : DeclKind × Nat) : Option String :=
  ((c.sessions.lookup u).filter (·.role = .client)).bind (·.decls.lookup d)

/-- The number of tokens of the key, here and on the sessions. -/
def tokens (c : Core) (key : String) : Nat :=
  Map.total (fun _ e => oneOf e key) c.lTokens +
    Map.total (fun _ s => s.tokens key) c.sessions

def view (c : Core) : View := ⟨c.own, c.remote, c.clients, c.tokens⟩

end Core

/-! ## The subscription index -/

/-- The index has exactly these expressions. -/
structure SubIndex.Holds (x : SubIndex) (want : Owner × Nat → Option String) : Prop where
  exprs : ∀ k, x.exprs.lookup k = want k
  exact : ∀ e k, k ∈ (x.exact.lookup e).getD [] ↔ concrete e ∧ want k = some e
  wild : ∀ k, k ∈ x.wild ↔ ∃ e, want k = some e ∧ ¬ concrete e
  nonempty : ∀ e, x.exact.lookup e ≠ some []

namespace SubIndex

variable {x : SubIndex} {want : Owner × Nat → Option String} {o : Owner} {id : Nat}

theorem lookup_dropExact (m : Map String (List (Owner × Nat))) (e e' : String) (k : Owner × Nat) :
    ((dropExact m e k).lookup e').getD [] =
      if e' = e then ((m.lookup e).getD []).filter (· ≠ k) else (m.lookup e').getD [] := by
  rw [dropExact]
  cases hm : m.lookup e with
  | none =>
    split_ifs with he
    · rw [he, hm]
      rfl
    · rfl
  | some set =>
    simp only
    split_ifs with hset he he
    · rw [he, AList.lookup_erase]
      exact hset.symm
    · rw [AList.lookup_erase_ne he]
    · rw [he, AList.lookup_insert]
      rfl
    · rw [AList.lookup_insert_ne he]

theorem dropExact_ne_nil {m : Map String (List (Owner × Nat))} (h : ∀ e, m.lookup e ≠ some [])
    (e e' : String) (k : Owner × Nat) : (dropExact m e k).lookup e' ≠ some [] := by
  rw [dropExact]
  cases hm : m.lookup e with
  | none => exact h e'
  | some set =>
    simp only
    split_ifs with hset
    · rw [Map.lookup_erase_if]
      split_ifs
      · exact nofun
      · exact h e'
    · rw [Map.lookup_insert_if]
      split_ifs
      · exact fun hs => hset (Option.some.inj hs)
      · exact h e'

theorem Holds.remove (h : x.Holds want) (o : Owner) (id : Nat) :
    (x.remove o id).Holds (Function.update want (o, id) none) := by
  rw [SubIndex.remove]
  cases he : x.exprs.lookup (o, id) with
  | none =>
    have hw : want (o, id) = none := (h.exprs _).symm.trans he
    have hsame : Function.update want (o, id) none = want := by rw [← hw, Function.update_eq_self]
    rw [hsame]
    exact h
  | some e =>
    have hw : want (o, id) = some e := (h.exprs _).symm.trans he
    refine ⟨?_, ?_, ?_, fun e' => dropExact_ne_nil h.nonempty e e' (o, id)⟩
    · intro k
      simp only [Map.lookup_erase_if, Function.update_apply, h.exprs]
    · intro e' k
      rw [lookup_dropExact]
      by_cases hk : k = (o, id)
      · subst hk
        rw [Function.update_self]
        by_cases hee : e' = e
        · simp [hee]
        · rw [if_neg hee, h.exact, hw]
          simp [Ne.symm hee]
      · rw [Function.update_of_ne hk, ← h.exact]
        by_cases hee : e' = e
        · subst hee
          simp [hk]
        · rw [if_neg hee]
    · intro k
      simp only [List.mem_filter, decide_eq_true_eq, h.wild, Function.update_apply]
      split_ifs with hk
      · simp [hk]
      · simp [hk]

theorem Holds.add (h : x.Holds want) (o : Owner) (id : Nat) (e : String) :
    (x.add o id e).Holds (Function.update want (o, id) (some e)) := by
  have hr := h.remove o id
  rw [SubIndex.add]
  generalize x.remove o id = y at hr ⊢
  have hold : ∀ k, k ≠ (o, id) → Function.update want (o, id) none k =
      Function.update want (o, id) (some e) k := by
    intro k hk
    rw [Function.update_of_ne hk, Function.update_of_ne hk]
  refine ⟨?_, ?_, ?_, ?_⟩
  · intro k
    simp only [Map.lookup_insert_if, Function.update_apply, hr.exprs]
    split_ifs <;> rfl
  · intro e' k
    have hmem : k ∈ ((if concrete e then y.exact.insert e
        (((y.exact.lookup e).getD []).insert (o, id)) else y.exact).lookup e').getD [] ↔
        k ∈ (y.exact.lookup e').getD [] ∨ concrete e ∧ e' = e ∧ k = (o, id) := by
      by_cases hc : concrete e
      · rw [if_pos hc, Map.lookup_insert_if]
        by_cases hee : e' = e
        · subst hee
          simp [hc, List.mem_insert_iff, or_comm]
        · simp [hee]
      · simp [hc]
    refine hmem.trans ?_
    rw [hr.exact]
    by_cases hk : k = (o, id)
    · subst hk
      simp only [Function.update_self, Option.some.injEq]
      aesop
    · rw [hold k hk]
      simp [hk]
  · intro k
    have hmem : k ∈ (if concrete e then y.wild else y.wild.insert (o, id)) ↔
        k ∈ y.wild ∨ ¬ concrete e ∧ k = (o, id) := by
      by_cases hc : concrete e
      · simp [hc]
      · simp [hc, List.mem_insert_iff, or_comm]
    refine hmem.trans ?_
    rw [hr.wild]
    by_cases hk : k = (o, id)
    · subst hk
      simp
    · rw [hold k hk]
      simp [hk]
  · intro e'
    show (if concrete e then y.exact.insert e (((y.exact.lookup e).getD []).insert (o, id))
      else y.exact).lookup e' ≠ some []
    split_ifs
    · rw [Map.lookup_insert_if]
      split_ifs
      · intro hs
        exact List.ne_nil_of_mem (List.mem_insert_self) (Option.some.inj hs)
      · exact hr.nonempty e'
    · exact hr.nonempty e'

end SubIndex

/-! ## The tokens -/

/-- The map has the numbers that are not zero. -/
def Counts (m : Map String Nat) (n : String → Nat) : Prop :=
  ∀ key, m.lookup key = if n key = 0 then none else some (n key)

namespace Core

variable {c : Core} {n : String → Nat} {key : String}

theorem tokAdd_eq (c : Core) (key : String) : ∃ l, c.tokAdd key =
    { c with tok := c.tok.insert key ((c.tok.lookup key).getD 0 + 1), fx := l } := by
  rw [tokAdd]
  cases h : c.tok.lookup key with
  | none => exact ⟨_, rfl⟩
  | some n => exact ⟨_, rfl⟩

theorem counts_tokAdd (h : Counts c.tok n) (e : String) :
    Counts (c.tokAdd e).tok fun key => n key + oneOf e key := by
  obtain ⟨l, hl⟩ := c.tokAdd_eq e
  rw [hl]
  intro key
  rw [Map.lookup_insert_if]
  by_cases hk : key = e
  · subst hk
    simp only [h key, oneOf_self, if_true, if_neg (Nat.succ_ne_zero _)]
    split_ifs with hz
    · simp [hz]
    · rfl
  · simp only [if_neg hk, h key, oneOf_of_ne hk]
    rfl

/-- What is left of the tokens. -/
def tokLess (c : Core) (key : String) : Map String Nat :=
  match c.tok.lookup key with
  | none => c.tok
  | some n => if 1 < n then c.tok.insert key (n - 1) else c.tok.erase key

theorem tokDel_eq (c : Core) (key : String) : ∃ l, (c.tokDel key).1 =
    { c with tok := c.tokLess key, fx := l } := by
  rw [tokDel, tokLess]
  cases h : c.tok.lookup key with
  | none => exact ⟨_, rfl⟩
  | some n =>
    simp only
    split_ifs
    · exact ⟨_, rfl⟩
    · exact ⟨_, rfl⟩

theorem counts_tokDel {e : String} (h : Counts c.tok fun key => n key + oneOf e key) :
    Counts (c.tokLess e) n := by
  have he : c.tok.lookup e = some (n e + 1) := by
    have he := h e
    simp only [oneOf_self] at he
    rwa [if_neg (Nat.succ_ne_zero _)] at he
  intro key
  rw [tokLess, he]
  by_cases hk : key = e
  · subst hk
    simp only
    split_ifs with hlt hz hz
    · omega
    · rw [AList.lookup_insert]
      rfl
    · rw [AList.lookup_erase]
    · omega
  · have hkey : c.tok.lookup key = if n key = 0 then none else some (n key) := by
      simpa [oneOf_of_ne hk] using h key
    rw [← hkey]
    simp only
    split_ifs with hlt
    · rw [AList.lookup_insert_ne hk]
    · rw [AList.lookup_erase_ne hk]

theorem announce_eq (c : Core) (m : Msg) : ∃ l, c.announce m = { c with fx := l } := by
  rw [announce]
  split_ifs
  · exact ⟨_, rfl⟩
  · exact ⟨c.fx, rfl⟩

end Core

/-! ## What a router passes on -/

/-- `out` has the declarations of the own process and, under the ids that `south` gives them, those
of the clients. Ids below `n` are in use or were. -/
structure Passes (own : DeclKind → Nat → Option String) (clients : Nat → DeclKind × Nat → Option String)
    (out : Map Nat (DeclKind × String)) (south : Map (Nat × DeclKind × Nat) Nat) (n : Nat) :
    Prop where
  ids : ∀ u d, (south.lookup (u, d)).isSome ↔ (clients u d).isSome
  entries : ∀ id k e, out.lookup id = some (k, e) ↔
    own k id = some e ∨ ∃ u i, south.lookup (u, k, i) = some id ∧ clients u (k, i) = some e
  inj : ∀ x y id, south.lookup x = some id → south.lookup y = some id → x = y
  apart : ∀ x id k, south.lookup x = some id → own k id = none
  kinds : ∀ id k k', own k id ≠ none → own k' id ≠ none → k = k'
  fresh : ∀ id, n ≤ id → (∀ k, own k id = none) ∧ ∀ x, south.lookup x ≠ some id

/-- One value of a function of two arguments is changed. -/
def put₂ {α β γ : Type} [DecidableEq α] [DecidableEq β] (f : α → β → γ) (a : α) (b : β) (x : γ)
    (a' : α) (b' : β) : γ := if a' = a ∧ b' = b then x else f a' b'

theorem put₂_self {α β γ : Type} [DecidableEq α] [DecidableEq β] {f : α → β → γ} {a : α} {b : β}
    {x : γ} (h : f a b = x) : put₂ f a b x = f := by
  funext a' b'
  rw [put₂]
  split_ifs with hc
  · rw [hc.1, hc.2, h]
  · rfl

namespace Passes

variable {own : DeclKind → Nat → Option String} {clients : Nat → DeclKind × Nat → Option String}
  {out : Map Nat (DeclKind × String)} {south : Map (Nat × DeclKind × Nat) Nat} {n : Nat}

/-- The fresh id of a declaration of the own process. -/
theorem declare (h : Passes own clients out south n) (k : DeclKind) (e : String) :
    Passes (put₂ own k n (some e)) clients (out.insert n (k, e)) south (n + 1) := by
  obtain ⟨hown, hsouth⟩ := h.fresh n le_rfl
  refine ⟨h.ids, ?_, h.inj, ?_, ?_, ?_⟩
  · intro id k' e'
    rw [Map.lookup_insert_if]
    by_cases hid : id = n
    · subst hid
      simp only [put₂, and_true, if_true, Option.some.injEq, Prod.mk.injEq]
      have hnone : ¬ ∃ u i, south.lookup (u, k', i) = some id ∧ clients u (k', i) = some e' :=
        fun ⟨u, i, hs, _⟩ => hsouth _ hs
      by_cases hk : k' = k
      · simp [hk, hsouth]
      · simp [hk, Ne.symm hk, hown, hsouth]
    · rw [if_neg hid, h.entries]
      simp [put₂, hid]
  · intro x id k' hx
    have hid : id ≠ n := by
      rintro rfl
      exact hsouth x hx
    simp only [put₂, hid, and_false, if_false]
    exact h.apart x id k' hx
  · intro id k₁ k₂ h₁ h₂
    simp only [put₂] at h₁ h₂
    by_cases hid : id = n
    · subst hid
      have hk₁ : k₁ = k := by
        by_contra hne
        exact h₁ (by simp [hne, hown])
      have hk₂ : k₂ = k := by
        by_contra hne
        exact h₂ (by simp [hne, hown])
      rw [hk₁, hk₂]
    · simp only [hid, and_false, if_false] at h₁ h₂
      exact h.kinds id k₁ k₂ h₁ h₂
  · intro id hid
    obtain ⟨hown', hsouth'⟩ := h.fresh id (Nat.le_of_succ_le hid)
    refine ⟨fun k' => ?_, hsouth'⟩
    rw [put₂, if_neg, hown']
    omega

/-- A declaration of the own process is taken back. -/
theorem undeclare (h : Passes own clients out south n) {k : DeclKind} {id : Nat} {e : String}
    (hid : own k id = some e) : Passes (put₂ own k id none) clients (out.erase id) south n := by
  refine ⟨h.ids, ?_, h.inj, ?_, ?_, ?_⟩
  · intro id' k' e'
    rw [Map.lookup_erase_if]
    by_cases he : id' = id
    · subst he
      simp only [if_true]
      have hsouth : ∀ x, south.lookup x ≠ some id' := by
        intro x hx
        exact absurd (hid.symm.trans (h.apart x id' k hx)) nofun
      by_cases hk : k' = k
      · simp [put₂, hk, hsouth]
      · have hnone : own k' id' = none := by
          by_contra hne
          exact hk (h.kinds id' k' k hne (by simp [hid]))
        simp [put₂, hk, hnone, hsouth]
    · rw [if_neg he, h.entries]
      simp [put₂, he]
  · intro x id' k' hx
    rw [put₂]
    split_ifs
    · rfl
    · exact h.apart x id' k' hx
  · intro id' k₁ k₂ h₁ h₂
    refine h.kinds id' k₁ k₂ (fun hn => h₁ ?_) fun hn => h₂ ?_
    · rw [put₂, hn, ite_self]
    · rw [put₂, hn, ite_self]
  · intro id' hid'
    obtain ⟨hown, hsouth⟩ := h.fresh id' hid'
    exact ⟨fun k' => by rw [put₂, hown, ite_self], hsouth⟩

/-- A declaration of a client gets a fresh id. -/
theorem accept (h : Passes own clients out south n) {u : Nat} {k : DeclKind} {i : Nat}
    (hnew : clients u (k, i) = none) (e : String) :
    Passes own (put₂ clients u (k, i) (some e)) (out.insert n (k, e)) (south.insert (u, k, i) n)
      (n + 1) := by
  obtain ⟨hown, hsouth⟩ := h.fresh n le_rfl
  refine ⟨?_, ?_, ?_, ?_, h.kinds, ?_⟩
  · intro u' d
    rw [Map.lookup_insert_if, put₂]
    by_cases hd : (u', d) = (u, k, i)
    · obtain ⟨rfl, rfl⟩ := Prod.mk.inj hd
      simp
    · rw [if_neg hd, if_neg (fun hc => hd (by rw [hc.1, hc.2])), h.ids]
  · intro id k' e'
    rw [Map.lookup_insert_if]
    by_cases hid : id = n
    · subst hid
      rw [if_pos rfl, hown]
      constructor
      · intro heq
        obtain ⟨rfl, rfl⟩ := Prod.mk.inj (Option.some.inj heq)
        exact .inr ⟨u, i, by simp, by simp [put₂]⟩
      · rintro (hn | ⟨u', i', hs, hc⟩)
        · exact absurd hn nofun
        · rw [Map.lookup_insert_if] at hs
          split_ifs at hs with hx
          · simp only [Prod.mk.injEq] at hx
            obtain ⟨rfl, rfl, rfl⟩ := hx
            have he : e = e' := by simpa [put₂] using hc
            rw [he]
          · exact absurd hs (hsouth _)
    · rw [if_neg hid, h.entries]
      refine or_congr_right ?_
      constructor
      · rintro ⟨u', i', hs, hc⟩
        have hx : (u', k', i') ≠ (u, k, i) := by
          intro hx
          simp only [Prod.mk.injEq] at hx
          rw [hx.1, hx.2.1, hx.2.2, hnew] at hc
          exact absurd hc nofun
        refine ⟨u', i', by rw [Map.lookup_insert_if, if_neg hx, hs], ?_⟩
        rw [put₂, if_neg (fun hd => hx (by rw [hd.1, hd.2])), hc]
      · rintro ⟨u', i', hs, hc⟩
        rw [Map.lookup_insert_if] at hs
        split_ifs at hs with hx
        · exact absurd (Option.some.inj hs).symm hid
        · rw [put₂, if_neg (fun hd => hx (by rw [hd.1, hd.2]))] at hc
          exact ⟨u', i', hs, hc⟩
  · intro x y id hx hy
    rw [Map.lookup_insert_if] at hx hy
    split_ifs at hx hy with hxu hyu hyu
    · rw [hxu, hyu]
    · rw [← Option.some.inj hx] at hy
      exact absurd hy (hsouth y)
    · rw [← Option.some.inj hy] at hx
      exact absurd hx (hsouth x)
    · exact h.inj x y id hx hy
  · intro x id k' hx
    rw [Map.lookup_insert_if] at hx
    split_ifs at hx
    · rw [← Option.some.inj hx]
      exact hown k'
    · exact h.apart x id k' hx
  · intro id hid
    obtain ⟨hown', hsouth'⟩ := h.fresh id (Nat.le_of_succ_le hid)
    refine ⟨hown', fun x hx => ?_⟩
    rw [Map.lookup_insert_if] at hx
    split_ifs at hx
    · have := Option.some.inj hx
      omega
    · exact hsouth' x hx

theorem mono (h : Passes own clients out south n) {n' : Nat} (hn : n ≤ n') :
    Passes own clients out south n' :=
  ⟨h.ids, h.entries, h.inj, h.apart, h.kinds, fun id hid => h.fresh id (hn.trans hid)⟩

/-- A declaration of a client is taken back. -/
theorem drop (h : Passes own clients out south n) {u : Nat} {d : DeclKind × Nat} {id : Nat}
    (hid : south.lookup (u, d) = some id) :
    Passes own (put₂ clients u d none) (out.erase id) (south.erase (u, d)) n := by
  refine ⟨?_, ?_, ?_, ?_, h.kinds, ?_⟩
  · intro u' d'
    rw [Map.lookup_erase_if, put₂]
    by_cases hd : (u', d') = (u, d)
    · obtain ⟨rfl, rfl⟩ := Prod.mk.inj hd
      simp
    · rw [if_neg hd, if_neg (fun hc => hd (by rw [hc.1, hc.2])), h.ids]
  · intro id' k e
    rw [Map.lookup_erase_if]
    by_cases he : id' = id
    · subst he
      simp only [if_true, h.apart _ _ k hid]
      constructor
      · exact nofun
      · rintro (hn | ⟨u', i, hs, -⟩)
        · exact absurd hn nofun
        · rw [Map.lookup_erase_if] at hs
          split_ifs at hs with hx
          exact absurd (h.inj _ _ _ hs hid) hx
    · rw [if_neg he, h.entries]
      refine or_congr_right ?_
      constructor
      · rintro ⟨u', i, hs, hc⟩
        have hx : (u', k, i) ≠ (u, d) := by
          intro hx
          rw [hx, hid] at hs
          exact he (Option.some.inj hs).symm
        refine ⟨u', i, by rw [Map.lookup_erase_if, if_neg hx, hs], ?_⟩
        rw [put₂, if_neg (fun hd => hx (by rw [hd.1, hd.2])), hc]
      · rintro ⟨u', i, hs, hc⟩
        rw [Map.lookup_erase_if] at hs
        split_ifs at hs with hx
        rw [put₂, if_neg (fun hd => hx (by rw [hd.1, hd.2]))] at hc
        exact ⟨u', i, hs, hc⟩
  · intro x y id' hx hy
    rw [Map.lookup_erase_if] at hx hy
    split_ifs at hx hy
    exact h.inj x y id' hx hy
  · intro x id' k hx
    rw [Map.lookup_erase_if] at hx
    split_ifs at hx
    exact h.apart x id' k hx
  · intro id' hid'
    obtain ⟨hown, hsouth⟩ := h.fresh id' hid'
    refine ⟨hown, fun x hx => ?_⟩
    rw [Map.lookup_erase_if] at hx
    split_ifs at hx
    exact hsouth x hx

end Passes

/-! ## The books on top -/

/-- The expressions the subscription index is to have. -/
def View.wants (v : View) : Owner × Nat → Option String
  | (.loc i, id) => if i = id then v.own .sub id else none
  | (.sess u, id) => v.remote u (.sub, id)

/-- What stands on top of the declarations agrees with them. -/
structure Index (v : View) (c : Core) : Prop where
  tok : Counts c.tok v.tokens
  subs : c.subs.Holds v.wants
  passes : Passes v.own v.south c.out c.south c.nextId

namespace View

/-- A session declares nothing there any more. -/
def drop (v : View) (u : Nat) (d : DeclKind × Nat) (n : String → Nat) : View :=
  { v with remote := put₂ v.remote u d none, south := put₂ v.south u d none, tokens := n }

theorem wants_put₂ (v : View) (u : Nat) (k : DeclKind) (i : Nat) (x : Option String) :
    View.wants { v with remote := put₂ v.remote u (k, i) x } =
      if k = .sub then Function.update v.wants (.sess u, i) x else v.wants := by
  funext ⟨o, id⟩
  cases o with
  | loc j =>
    split_ifs
    · rw [Function.update_of_ne (by simp)]
      rfl
    · rfl
  | sess u' =>
    simp only [wants, put₂]
    split_ifs with h hk hk
    · obtain ⟨rfl, h⟩ := h
      obtain ⟨-, rfl⟩ := Prod.mk.inj h
      rw [Function.update_self]
    · exact absurd (Prod.mk.inj h.2).1.symm hk
    · rw [Function.update_of_ne, wants]
      rintro heq
      obtain ⟨hu, hi⟩ := Prod.mk.inj heq
      exact h ⟨Owner.sess.inj hu, by rw [hk, hi]⟩
    · rfl

end View

section Session

variable {c : Core} {v : View} {n : String → Nat}

theorem Index.unlist (h : Index v c) {u : Nat} {k : DeclKind} {i : Nat} {e : String}
    (hn : ∀ key, v.tokens key = n key + k.tokens e key) :
    Index { v with remote := put₂ v.remote u (k, i) none, tokens := n }
      (c.unlist u (k, i) e).1 := by
  have hw := v.wants_put₂ u k i none
  cases k with
  | token =>
    obtain ⟨l, hl⟩ := c.tokDel_eq e
    have hc : Counts c.tok fun key => n key + oneOf e key := by
      intro key
      rw [h.tok key, hn key]
      rfl
    show Index _ (c.tokDel e).1
    rw [hl]
    exact ⟨Core.counts_tokDel hc, hw ▸ h.subs, h.passes⟩
  | sub =>
    have hn : v.tokens = n := funext fun key => hn key
    exact ⟨hn ▸ h.tok, hw ▸ h.subs.remove (.sess u) i, h.passes⟩
  | qabl =>
    have hn : v.tokens = n := funext fun key => hn key
    exact ⟨hn ▸ h.tok, hw ▸ h.subs, h.passes⟩

theorem Index.retract (h : Index v c) (u : Nat) (d : DeclKind × Nat) :
    Index { v with south := put₂ v.south u d none } (c.retract u d) := by
  rw [Core.retract]
  cases hid : c.south.lookup (u, d) with
  | none =>
    have hs : v.south u d = none := by
      have hi := h.passes.ids u d
      rw [hid] at hi
      simpa using hi
    rw [put₂_self hs]
    exact h
  | some rid =>
    simp only
    obtain ⟨l, hl⟩ := Core.announce_eq
      { c with south := c.south.erase (u, d), out := c.out.erase rid } (.undeclare d.1 rid)
    rw [hl]
    exact ⟨h.tok, h.subs, h.passes.drop hid⟩

/-- A declaration of a session goes. -/
theorem Index.closeDecl (h : Index v c) {u : Nat} {k : DeclKind} {i : Nat} {e : String}
    (hn : ∀ key, v.tokens key = n key + k.tokens e key) (b : Bool) :
    Index (v.drop u (k, i) n) (Core.closeDecl u (c, b) ⟨(k, i), e⟩).1 :=
  (h.unlist hn).retract u (k, i)

/-- Nothing else changes with it. -/
theorem Core.unlist_eq (c : Core) (u : Nat) (d : DeclKind × Nat) (e : String) :
    ∃ tok subs l, (c.unlist u d e).1 = { c with tok := tok, subs := subs, fx := l } := by
  rw [Core.unlist]
  cases d.1 with
  | token =>
    obtain ⟨l, hl⟩ := c.tokDel_eq e
    exact ⟨_, _, l, hl⟩
  | sub => exact ⟨_, _, _, rfl⟩
  | qabl => exact ⟨_, _, _, rfl⟩

theorem Core.retract_eq (c : Core) (u : Nat) (d : DeclKind × Nat) :
    ∃ out south l, c.retract u d = { c with out := out, south := south, fx := l } := by
  rw [Core.retract]
  cases c.south.lookup (u, d) with
  | none => exact ⟨_, _, _, rfl⟩
  | some rid =>
    obtain ⟨l, hl⟩ := Core.announce_eq
      { c with south := c.south.erase (u, d), out := c.out.erase rid } (.undeclare d.1 rid)
    exact ⟨_, _, l, hl⟩

theorem Core.closeDecl_eq (u : Nat) (x : Core × Bool) (d : (_ : DeclKind × Nat) × String) :
    ∃ tok subs out south l, (Core.closeDecl u x d).1 =
      { x.1 with tok := tok, subs := subs, out := out, south := south, fx := l } := by
  obtain ⟨tok, subs, l, hu⟩ := x.1.unlist_eq u d.1 d.2
  obtain ⟨out, south, l', hr⟩ := (x.1.unlist u d.1 d.2).1.retract_eq u d.1
  refine ⟨tok, subs, out, south, l', ?_⟩
  rw [Core.closeDecl]
  simp only [hr]
  rw [hu]

end Session

/-! ## A session declares -/

/-- A declaration of a session joins the tokens or the subscription index. -/
def Core.enlist (c : Core) (u : Nat) (k : DeclKind) (i : Nat) (e : String) : Core :=
  match k with
  | .token => c.tokAdd e
  | .sub => { c with subs := c.subs.add (.sess u) i e }
  | .qabl => c

/-- The routers are told of a declaration of a client. -/
def Core.passOn (c : Core) (u : Nat) (k : DeclKind) (i : Nat) (e : String) : Core :=
  { c with
    nextId := c.nextId + 1
    south := c.south.insert (u, k, i) c.nextId
    out := c.out.insert c.nextId (k, e) }.announce (.declare k c.nextId e)

section Declared

variable {c : Core} {v : View} {u : Nat} {s : Sess} {k : DeclKind} {i : Nat}

theorem Core.remoteDeclare_eq (hr : c.router = true) (hnew : s.decls.lookup (k, i) = none)
    (e : String) : c.remoteDeclare u s k i e =
      let s' : Sess := { s with decls := s.decls.insert (k, i) e }
      let c' := Core.enlist { c with sessions := c.sessions.insert u s' } u k i e
      if s.role = .client then c'.passOn u k i e else c' := by
  rw [remoteDeclare, if_pos hr]
  exact if_neg (AList.lookup_eq_none.1 hnew)

theorem Core.enlist_eq (c : Core) (u : Nat) (k : DeclKind) (i : Nat) (e : String) :
    ∃ tok subs l, c.enlist u k i e = { c with tok := tok, subs := subs, fx := l } := by
  cases k with
  | token =>
    obtain ⟨l, hl⟩ := c.tokAdd_eq e
    exact ⟨_, _, l, hl⟩
  | sub => exact ⟨_, _, _, rfl⟩
  | qabl => exact ⟨_, _, _, rfl⟩

theorem Core.passOn_eq (c : Core) (u : Nat) (k : DeclKind) (i : Nat) (e : String) :
    ∃ l, c.passOn u k i e = { c with
      nextId := c.nextId + 1
      south := c.south.insert (u, k, i) c.nextId
      out := c.out.insert c.nextId (k, e)
      fx := l } := Core.announce_eq _ _

theorem Index.enlist (h : Index v c) (u : Nat) (k : DeclKind) (i : Nat) (e : String) :
    Index { v with
      remote := put₂ v.remote u (k, i) (some e)
      tokens := fun key => v.tokens key + k.tokens e key } (c.enlist u k i e) := by
  have hw := v.wants_put₂ u k i (some e)
  cases k with
  | token =>
    have ht := Core.counts_tokAdd h.tok e
    obtain ⟨l, hl⟩ := c.tokAdd_eq e
    show Index _ (c.tokAdd e)
    rw [hl] at ht ⊢
    exact ⟨ht, hw ▸ h.subs, h.passes⟩
  | sub => exact ⟨h.tok, hw ▸ h.subs.add (.sess u) i e, h.passes⟩
  | qabl => exact ⟨h.tok, hw ▸ h.subs, h.passes⟩

theorem Index.passOn (h : Index v c) (hnew : v.south u (k, i) = none) (e : String) :
    Index { v with south := put₂ v.south u (k, i) (some e) } (c.passOn u k i e) := by
  obtain ⟨l, hl⟩ := c.passOn_eq u k i e
  rw [hl]
  exact ⟨h.tok, h.subs, h.passes.accept hnew e⟩

end Declared

/-! ## A session is closed -/

/-- The tokens among declarations. -/
def tokensOf (ds : List ((_ : DeclKind × Nat) × String)) (key : String) : Nat :=
  (ds.map fun d => d.1.1.tokens d.2 key).sum

/-- A session declares none of these any more. -/
def View.dropAll (v : View) (u : Nat) (ds : List (DeclKind × Nat)) (n : String → Nat) : View :=
  { v with
    remote := fun u' d => if u' = u ∧ d ∈ ds then none else v.remote u' d
    south := fun u' d => if u' = u ∧ d ∈ ds then none else v.south u' d
    tokens := n }

theorem View.dropAll_drop (v : View) (u : Nat) (d : DeclKind × Nat) (ds : List (DeclKind × Nat))
    (m n : String → Nat) : (v.drop u d m).dropAll u ds n = v.dropAll u (d :: ds) n := by
  have hput : ∀ f : Nat → DeclKind × Nat → Option String,
      (fun u' d' => if u' = u ∧ d' ∈ ds then none else put₂ f u d none u' d') =
        fun u' d' => if u' = u ∧ d' ∈ d :: ds then none else f u' d' := by
    intro f
    funext u' d'
    simp only [put₂, List.mem_cons]
    by_cases hu : u' = u
    · by_cases hd : d' = d
      · simp [hu, hd]
      · simp [hu, hd]
    · simp [hu]
  simp only [dropAll, drop, hput]

section Closed

variable {c : Core} {v : View} {n : String → Nat}

theorem Index.closeDecls {u : Nat} (ds : List ((_ : DeclKind × Nat) × String)) (h : Index v c)
    (hn : ∀ key, v.tokens key = n key + tokensOf ds key) (b : Bool) :
    Index (v.dropAll u ds.keys n) (ds.foldl (Core.closeDecl u) (c, b)).1 := by
  induction ds generalizing c v b with
  | nil =>
    have hv : v.dropAll u [] n = v := by
      have htok : v.tokens = n := funext hn
      simp [View.dropAll, ← htok]
    show Index (v.dropAll u [] n) c
    rw [hv]
    exact h
  | cons d ds ih =>
    have hd := h.closeDecl (u := u) (k := d.1.1) (i := d.1.2) (e := d.2)
      (n := fun key => n key + tokensOf ds key) (by
        intro key
        rw [hn key, tokensOf, List.map_cons, List.sum_cons, tokensOf]
        omega) b
    have hrest := ih (c := (Core.closeDecl u (c, b) d).1) hd (fun _ => rfl)
      (Core.closeDecl u (c, b) d).2
    rw [View.dropAll_drop] at hrest
    exact hrest

theorem Core.closeDecls_eq (u : Nat) (ds : List ((_ : DeclKind × Nat) × String))
    (x : Core × Bool) : ∃ tok subs out south l, (ds.foldl (Core.closeDecl u) x).1 =
      { x.1 with tok := tok, subs := subs, out := out, south := south, fx := l } := by
  induction ds generalizing x with
  | nil => exact ⟨_, _, _, _, _, rfl⟩
  | cons d ds ih =>
    obtain ⟨tok, subs, out, south, l, hd⟩ := Core.closeDecl_eq u x d
    obtain ⟨tok', subs', out', south', l', hds⟩ := ih (Core.closeDecl u x d)
    refine ⟨tok', subs', out', south', l', ?_⟩
    rw [List.foldl_cons, hds, hd]

end Closed

/-! ## Declarations of the own process -/

section Own

variable {c : Core} {v : View} {o : Told} {k : DeclKind} {id : Nat} {e : String}

theorem View.wants_own (v : View) (k : DeclKind) (id : Nat) (x : Option String) :
    View.wants { v with own := put₂ v.own k id x } =
      if k = .sub then Function.update v.wants (.loc id, id) x else v.wants := by
  funext ⟨w, i⟩
  cases w with
  | sess u =>
    split_ifs
    · rw [Function.update_of_ne (by simp)]
      rfl
    · rfl
  | loc j =>
    simp only [wants, put₂]
    by_cases hk : k = .sub
    · by_cases hi : i = id
      · by_cases hj : j = id
        · simp [hk, hi, hj]
        · simp [hk, hi, hj, wants]
      · simp [hk, hi, wants]
    · simp [hk, Ne.symm hk, wants]

/-- The map after an entry of the kind. -/
def DeclKind.stores (k k' : DeclKind) (m : Map Nat String) (id : Nat) (e : String) :
    Map Nat String := if k = k' then m.insert id e else m

def DeclKind.forgets (k k' : DeclKind) (m : Map Nat String) (id : Nat) : Map Nat String :=
  if k = k' then m.erase id else m

theorem Core.declareLocal_eq (hr : c.router = true) (o : Told) (k : DeclKind) (e : String) :
    ∃ l, c.declareLocal o k e = { c with
      nextId := c.nextId + 1
      lTokens := k.stores .token c.lTokens c.nextId e
      lSubs := k.stores .sub c.lSubs c.nextId e
      lQabls := k.stores .qabl c.lQabls c.nextId e
      tok := if k = .token then c.tok.insert e ((c.tok.lookup e).getD 0 + 1) else c.tok
      subs := if k = .sub then c.subs.add (.loc c.nextId) c.nextId e else c.subs
      out := c.out.insert c.nextId (k, e)
      fx := l } := by
  cases k with
  | token =>
    let c' : Core := { c with nextId := c.nextId + 1, lTokens := c.lTokens.insert c.nextId e }
    obtain ⟨l, hl⟩ := c'.tokAdd_eq e
    have hd : c.declareLocal o .token e =
        ({ c'.tokAdd e with out := (c'.tokAdd e).out.insert c.nextId (.token, e) } : Core).announce
          (.declare .token c.nextId e) := if_pos hr
    rw [hd, hl]
    exact Core.announce_eq _ _
  | sub =>
    have hd : c.declareLocal o .sub e = ({ c with
        nextId := c.nextId + 1
        subs := c.subs.add (.loc c.nextId) c.nextId e
        lSubs := c.lSubs.insert c.nextId e
        out := c.out.insert c.nextId (.sub, e) } : Core).announce (.declare .sub c.nextId e) :=
      if_pos hr
    rw [hd]
    exact Core.announce_eq _ _
  | qabl =>
    have hd : c.declareLocal o .qabl e = ({ c with
        nextId := c.nextId + 1
        lQabls := c.lQabls.insert c.nextId e
        out := c.out.insert c.nextId (.qabl, e) } : Core).announce (.declare .qabl c.nextId e) :=
      if_pos hr
    rw [hd]
    exact Core.announce_eq _ _

theorem Index.declareLocal (h : Index v c) (hr : c.router = true) (o : Told) (k : DeclKind)
    (e : String) : Index { v with
      own := put₂ v.own k c.nextId (some e)
      tokens := fun key => v.tokens key + k.tokens e key } (c.declareLocal o k e) := by
  obtain ⟨l, hl⟩ := Core.declareLocal_eq hr o k e
  have hw := v.wants_own k c.nextId (some e)
  have hp := h.passes.declare k e
  rw [hl]
  cases k with
  | token =>
    have ht := Core.counts_tokAdd h.tok e
    obtain ⟨l', hl'⟩ := c.tokAdd_eq e
    rw [hl'] at ht
    exact ⟨ht, hw ▸ h.subs, hp⟩
  | sub => exact ⟨h.tok, hw ▸ h.subs.add (.loc c.nextId) c.nextId e, hp⟩
  | qabl => exact ⟨h.tok, hw ▸ h.subs, hp⟩

theorem Core.undeclareLocal_eq (hr : c.router = true) (o : Told) (h : c.own k id = some e) :
    ∃ l, c.undeclareLocal o k id = { c with
      lTokens := k.forgets .token c.lTokens id
      lSubs := k.forgets .sub c.lSubs id
      lQabls := k.forgets .qabl c.lQabls id
      tok := if k = .token then c.tokLess e else c.tok
      subs := if k = .sub then c.subs.remove (.loc id) id else c.subs
      out := c.out.erase id
      fx := l } := by
  cases k with
  | token =>
    let c' : Core := { c with lTokens := c.lTokens.erase id }
    obtain ⟨l, hl⟩ := c'.tokDel_eq e
    have hlook : c.lTokens.lookup id = some e := h
    have hgone : (if c'.router = true then (c'.tokDel e).1 else c') = (c'.tokDel e).1 := if_pos hr
    have hd : c.undeclareLocal o .token id =
        ({ (c'.tokDel e).1 with out := (c'.tokDel e).1.out.erase id } : Core).announce
          (.undeclare .token id) := by
      simp only [undeclareLocal, hlook, if_true]
      rw [hgone, if_pos]
      rw [hl]
      exact hr
    rw [hd, hl]
    exact Core.announce_eq _ _
  | sub =>
    have hmem : id ∈ c.lSubs := Map.mem_iff_lookup.2 ⟨e, h⟩
    simp only [undeclareLocal, hmem, decide_true, if_true]
    rw [if_pos hr]
    exact Core.announce_eq _ _
  | qabl =>
    have hmem : id ∈ c.lQabls := Map.mem_iff_lookup.2 ⟨e, h⟩
    simp only [undeclareLocal, hmem, decide_true, if_true]
    rw [if_pos hr]
    exact Core.announce_eq _ _

theorem Index.undeclareLocal (h : Index c.view c) (hr : c.router = true) (o : Told)
    (hid : c.own k id = some e) {n : String → Nat}
    (hn : ∀ key, c.tokens key = n key + k.tokens e key) :
    Index { c.view with own := put₂ c.own k id none, tokens := n } (c.undeclareLocal o k id) := by
  obtain ⟨l, hl⟩ := Core.undeclareLocal_eq hr o hid
  have hw := c.view.wants_own k id none
  have hp := h.passes.undeclare hid
  rw [hl]
  cases k with
  | token =>
    have ht : Counts (c.tokLess e) n := Core.counts_tokDel (by
      intro key
      rw [h.tok key]
      show (if c.tokens key = 0 then none else some (c.tokens key)) = _
      rw [hn key]
      rfl)
    exact ⟨ht, hw ▸ h.subs, hp⟩
  | sub =>
    have hn : c.tokens = n := funext fun key => hn key
    exact ⟨hn ▸ h.tok, hw ▸ h.subs.remove (.loc id) id, hp⟩
  | qabl =>
    have hn : c.tokens = n := funext fun key => hn key
    exact ⟨hn ▸ h.tok, hw ▸ h.subs, hp⟩

/-- Nothing happens when there is nothing to take back. -/
theorem Index.undeclareLocal_none (h : Index c.view c) (o : Told) (hid : c.own k id = none) :
    c.undeclareLocal o k id = c := by
  cases k with
  | token =>
    have hlook : c.lTokens.lookup id = none := hid
    simp [Core.undeclareLocal, hlook]
  | sub =>
    have hlook : c.lSubs.lookup id = none := hid
    have hmem : id ∉ c.lSubs := AList.lookup_eq_none.1 hlook
    have hx : c.subs.exprs.lookup (.loc id, id) = none := by
      rw [h.subs.exprs]
      exact (if_pos rfl).trans hid
    simp [Core.undeclareLocal, hmem, SubIndex.remove, hx, Map.erase_of_none hlook]
  | qabl =>
    have hlook : c.lQabls.lookup id = none := hid
    have hmem : id ∉ c.lQabls := AList.lookup_eq_none.1 hlook
    simp [Core.undeclareLocal, hmem, Map.erase_of_none hlook]

end Own

end OxlensSfu.Mesh
