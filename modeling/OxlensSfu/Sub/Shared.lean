import OxlensSfu.Sub.Invariant
import OxlensSfu.Sub.Seed

/-!
# The table behind its lock

All calls on a table in any order, with the seeds that panic among them: such a seed leaves the lock
poisoned, and no later call gets at the state.

**Theorem (`table_invariant`).** As long as every seed is of codecs that it can slice, or of a table
that is seeded already, the laws of the table hold of what its calls see, over every run.

A run that leaves the lock whole is the run of the table alone (`whole_run`).
-/

namespace OxlensSfu.Sub

namespace Shared

/-- A call may be made when the table's own may: a sync needs numbers enough. -/
def machine : Machine Shared Op where
  ok x
    | .sync cands now draws => (x.sync cands now draws).isSome
    | _ => True
  next := apply

/-- A seed has no parameter that it cannot slice, or is not the first. -/
def Gentle (x : Shared) : Op → Prop
  | .seed codecs _ => x.table.st.seeded = true ∨ ∀ c ∈ codecs, SafeCodec c
  | _ => True

/-! ## Without a panic -/

theorem sync_snd {x x' : Shared} {cands : List Cand} {now : Nat} {draws : List (BitVec 32)}
    {out : SyncOut} (h : x.sync cands now draws = some (out, x')) :
    x.apply (.sync cands now draws) = x' := by
  rw [sync] at h
  rw [apply]
  split_ifs at h ⊢ with hp
  · exact (Prod.mk.inj (Option.some.inj h)).2
  · obtain ⟨⟨out', t'⟩, ht, he⟩ := Option.map_eq_some_iff.1 h
    obtain ⟨rfl, rfl⟩ := Prod.mk.inj he
    simp [apply_sync ht, panics, hp]

/-- A sync of a table whose lock is whole is the table's. -/
theorem sync_whole {t : Table} {x' : Shared} {cands : List Cand} {now : Nat}
    {draws : List (BitVec 32)} {out : SyncOut}
    (h : (⟨t, false⟩ : Shared).sync cands now draws = some (out, x')) :
    ∃ t', t.sync cands now draws = some (out, t') ∧ x' = ⟨t', false⟩ := by
  obtain ⟨⟨out', t'⟩, ht, he⟩ := Option.map_eq_some_iff.1 h
  obtain ⟨rfl, rfl⟩ := Prod.mk.inj he
  exact ⟨t', ht, rfl⟩

/-- A call that leaves the lock whole is that of the table. -/
theorem apply_whole {t : Table} {op : Op} (hok : machine.ok ⟨t, false⟩ op)
    (hp : (apply ⟨t, false⟩ op).poisoned = false) :
    Sub.machine.ok t op ∧ apply ⟨t, false⟩ op = ⟨t.apply op, false⟩ := by
  refine ⟨?_, congrArg (Shared.mk (t.apply op)) hp⟩
  cases op with
  | seed codecs extmap => exact Option.isNone_eq_false_iff.1 hp
  | sync cands now draws =>
    obtain ⟨⟨out, x⟩, hx⟩ := Option.isSome_iff_exists.1 hok
    obtain ⟨t', ht, -⟩ := sync_whole hx
    exact Option.isSome_iff_exists.2 ⟨_, ht⟩
  | _ => exact trivial

/-- No call makes a poisoned lock whole. -/
theorem poisoned_run {x : Shared} {ops : List Op} (h : x.poisoned = true) :
    machine.exec x ops = x := by
  induction ops with
  | nil => rfl
  | cons op ops ih =>
    have happly : machine.next x op = x := if_pos h
    rw [Machine.exec_cons, happly, ih]

/-- **A run that leaves the lock whole is the run of the table.** -/
theorem whole_run {t : Table} {ops : List Op} (h : machine.Legal ⟨t, false⟩ ops)
    (hp : (machine.exec ⟨t, false⟩ ops).poisoned = false) :
    Sub.machine.Legal t ops ∧ machine.exec ⟨t, false⟩ ops = ⟨Sub.machine.exec t ops, false⟩ := by
  induction ops generalizing t with
  | nil => exact ⟨trivial, rfl⟩
  | cons op ops ih =>
    obtain ⟨hok, hl⟩ := h
    have hfirst : (apply ⟨t, false⟩ op).poisoned = false := by
      by_contra hbad
      have hrest : machine.exec ⟨t, false⟩ (op :: ops) = apply ⟨t, false⟩ op :=
        poisoned_run (Bool.eq_true_of_not_eq_false hbad)
      exact hbad (hrest ▸ hp)
    obtain ⟨hok', happly⟩ := apply_whole hok hfirst
    rw [show machine.next ⟨t, false⟩ op = ⟨t.apply op, false⟩ from happly] at hl
    have hexec : machine.exec ⟨t, false⟩ (op :: ops) = machine.exec ⟨t.apply op, false⟩ ops :=
      congrArg (machine.exec · ops) happly
    rw [hexec] at hp ⊢
    obtain ⟨hl', hrun⟩ := ih hl hp
    exact ⟨⟨hok', hl'⟩, hrun⟩

/-- A gentle call does not panic. -/
theorem apply_gentle {x : Shared} {op : Op} (h : x.poisoned = false) (hg : x.Gentle op) :
    (x.apply op).poisoned = false := by
  rw [apply, h]
  cases op with
  | seed codecs extmap =>
    exact Option.isNone_eq_false_iff.2 ((Table.seed_completes extmap).2 hg)
  | _ => rfl

theorem gentle_run {t : Table} {ops : List Op}
    (h : (machine.restrict Gentle).Legal ⟨t, false⟩ ops) :
    Sub.machine.Legal t ops ∧ machine.exec ⟨t, false⟩ ops = ⟨Sub.machine.exec t ops, false⟩ := by
  refine whole_run ((machine.restrict_legal ..).1 h).1 ?_
  rw [← Machine.restrict_exec _ Gentle]
  exact Machine.invariant (M := machine.restrict Gentle) (I := (·.poisoned = false))
    (fun _ _ hi ha => apply_gentle hi ha.2) rfl h

/-- The table after the calls. -/
def after (pcMode : PcMode) (slotBudget : Nat) (ops : List Op) : Shared :=
  machine.exec (new pcMode slotBudget) ops

/-- The laws of a run: what holds all along, what each call keeps, and that a row which a sync has
changed is closed until the client acknowledges its revision. -/
structure Lawful (pcMode : PcMode) (slotBudget : Nat) (ops : List Op) : Prop where
  between : ∀ l₁ l₂, ops = l₁ ++ l₂ → TableLaw (after pcMode slotBudget l₁).view
  calls : ∀ l₁ op l₂, ops = l₁ ++ op :: l₂ →
    CallLaw (after pcMode slotBudget l₁).view (after pcMode slotBudget (l₁ ++ [op])).view
  closed : ∀ l₁ cands now draws l₂ out x,
    ops = l₁ ++ .sync cands now draws :: l₂ →
    (after pcMode slotBudget l₁).sync cands now draws = some (out, x) →
    ∀ c ∈ out.changes, ∀ r ∈ (after pcMode slotBudget ops).view.st.rows,
      r.mid = c.mid → (after pcMode slotBudget ops).view.opened r = true →
      ∃ l₃ room arev at_ l₄, l₂ = l₃ ++ .ready room arev at_ :: l₄ ∧
        (after pcMode slotBudget l₁).view.st.arev + 1 ≤ (machine.exec x l₃).view.ack arev

/-- A part of the run. -/
theorem gentle_prefix {pcMode : PcMode} {slotBudget : Nat} {l₁ l₂ : List Op}
    (h : (machine.restrict Gentle).Legal (new pcMode slotBudget) (l₁ ++ l₂)) :
    ∃ t, after pcMode slotBudget l₁ = ⟨t, false⟩ ∧ Inv t ∧
      (machine.restrict Gentle).Legal ⟨t, false⟩ l₂ := by
  obtain ⟨h₁, h₂⟩ := (Machine.legal_append _ _ _ _).1 h
  obtain ⟨hl, hexec⟩ := gentle_run h₁
  rw [Machine.restrict_exec, new, hexec] at h₂
  exact ⟨_, hexec, run_inv (inv_new pcMode slotBudget) hl, h₂⟩

end Shared

open Shared in
/-- **The invariant of the subscription table**, over every run of its operations in which every
seed comes to its end. -/
theorem table_invariant (pcMode : PcMode) (slotBudget : Nat) (ops : List Op)
    (h : (Shared.machine.restrict Gentle).Legal (Shared.new pcMode slotBudget) ops) :
    Lawful pcMode slotBudget ops := by
  constructor
  · intro l₁ l₂ hops
    subst hops
    obtain ⟨t, ht, hinv, -⟩ := gentle_prefix h
    rw [ht]
    exact hinv.toTableLaw
  · intro l₁ op l₂ hops
    subst hops
    obtain ⟨t, ht, hinv, ⟨hok, hg⟩, -⟩ := gentle_prefix h
    obtain ⟨hok', happly⟩ := apply_whole hok (apply_gentle rfl hg)
    have hnext : after pcMode slotBudget (l₁ ++ [op]) = ⟨t.apply op, false⟩ := by
      rw [after, Machine.exec_append]
      exact (congrArg (apply · op) ht).trans happly
    rw [hnext, ht]
    exact (apply_step hinv hok').law
  · intro l₁ cands now draws l₂ out x hops hsync c hc r hr hmid hopen
    subst hops
    obtain ⟨t, ht, hinv, -, hl⟩ := gentle_prefix h
    rw [ht] at hsync ⊢
    obtain ⟨t', hsync', rfl⟩ := sync_whole hsync
    have hnext : (Shared.machine.restrict Gentle).next ⟨t, false⟩ (.sync cands now draws) =
        ⟨t', false⟩ := sync_snd hsync
    rw [hnext] at hl
    have hexec : after pcMode slotBudget (l₁ ++ .sync cands now draws :: l₂) =
        Shared.machine.exec ⟨t', false⟩ l₂ := by
      rw [after, Machine.exec_append, Machine.exec_cons]
      refine congrArg (Shared.machine.exec · l₂) ?_
      exact (congrArg (Shared.machine.next · _) ht).trans hnext
    obtain ⟨hl', hexec'⟩ := gentle_run hl
    rw [hexec, hexec'] at hr hopen
    obtain ⟨l₃, room, arev, at_, l₄, rfl, hack⟩ :=
      changed_row_closed hinv hsync' hl' hc hr hmid hopen
    refine ⟨l₃, room, arev, at_, l₄, rfl, ?_⟩
    rw [(gentle_run ((Machine.legal_append _ _ _ _).1 hl).1).2]
    exact hack

open Shared in
/-- Talk of a room is loaded, acknowledged and taken away. -/
theorem table_invariant_talk : Lawful .two 40
    [.seed [{ kind := .video, pt := 102, name := "H264", fmtp := none }] [],
      .sync [talk "a"] 1 [7], .ready "a" 1 2, .sync [] 3 []] := by
  refine table_invariant .two 40 _ ⟨⟨trivial, .inr ?_⟩, ⟨?_, trivial⟩, ⟨trivial, trivial⟩,
    ⟨?_, trivial⟩, trivial⟩
  · intro c hc _ _ p hp
    obtain rfl := List.mem_singleton.1 hc
    exact absurd hp nofun
  · show (Shared.sync _ _ _ _).isSome = true
    decide
  · show (Shared.sync _ _ _ _).isSome = true
    decide

/-- A profile that ends in a character of two bytes, the second of which is the fifth. -/
def oddProfile : JoinCodec :=
  { kind := .video, pt := 102, name := "H264", fmtp := some "profile-level-id=42eé" }

/-- The seed panics on a table whose revision has been carried over from another one. -/
theorem seed_drops_arev : ¬ ∀ pcMode slotBudget ops,
    Shared.machine.Legal (Shared.new pcMode slotBudget) ops →
      Shared.Lawful pcMode slotBudget ops := by
  intro h
  have hrun := h .one 2 [.carry 5, .seed [oddProfile] []] ⟨trivial, trivial, trivial⟩
  have harev := (hrun.calls [.carry 5] _ [] rfl).arev
  exact absurd harev (by decide)

end OxlensSfu.Sub
