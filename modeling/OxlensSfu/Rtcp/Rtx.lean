import OxlensSfu.Forward.Packet
import OxlensSfu.Lib.Rate

/-!
# Retransmission

A receiver that misses packets of a video row names their numbers in a NACK, and `send_rtx` of
`crates/oxsfud/src/rtcp/mod.rs` sends them again from the cache of the source
(`Cache`, `crates/oxsfud/src/pub/mod.rs`), as long as the budget of the user lasts. The cache is
filled by what comes in (`on_ingress`, `on_repair`), the rewriter of the row by what goes out
(`send_down`, `crates/oxsfud/src/fwd/mod.rs`); a resync and the floor change the row in between.
A packet is sent again when it is handed to the connection (`send_built`), which may still refuse
it.

* `budget_kept`: the budget lets through two hundred packets of a user in each window of three
  seconds, and refuses only when they have been used up.
* `rtx_content`: what is sent again is the newest packet that came from the current source under the
  number that was asked for. If it went out since the source last changed, it was under this number
  and with this time.
* `rtx_answered_iff`: exactly when a packet that went out is sent again.
-/

namespace OxlensSfu.Rtx

/-! ## The budget -/

def rtxBudget : Nat := 200
def rtxWindowMs : Nat := 3000

/-- For each user the start of the window and what it has let through. -/
abbrev Budget := String → Option (Nat × Nat)

def budgetOk (g : Budget) (user : String) (now : Nat) : Bool × Budget :=
  let e := (g user).getD (now, 0)
  let e := if rtxWindowMs ≤ now - e.1 then (now, 0) else e
  if rtxBudget ≤ e.2 then (false, Function.update g user (some e))
  else (true, Function.update g user (some (e.1, e.2 + 1)))

inductive Ask where
  | ask (user : String) (now : Nat)
  | forgetUser (user : String)
  deriving DecidableEq, Repr

def budget : Machine Budget Ask where
  ok _ _ := True
  next g a := match a with
    | .ask user now => (budgetOk g user now).2
    | .forgetUser user => Function.update g user none

/-- A packet of the user is let through. -/
def Ask.grants (user : String) (g : Budget) : Ask → Bool
  | .ask u now => u = user ∧ (budgetOk g u now).1
  | .forgetUser _ => false

/-- How many packets of the user a run lets through. -/
def granted (user : String) (g : Budget) : List Ask → Nat
  | [] => 0
  | a :: as => (if a.grants user g then 1 else 0) + granted user (budget.next g a) as

/-- The times at which the user asks. -/
def asked (user : String) (as : List Ask) : List Nat :=
  as.filterMap fun a => match a with
    | .ask u now => if u = user then some now else none
    | .forgetUser _ => none

theorem budgetOk_eq (g : Budget) (user : String) (now : Nat) : budgetOk g user now =
    ((Rate.take rtxBudget rtxWindowMs (Rate.entry (g user) now) now).1,
      Function.update g user
        (some (Rate.take rtxBudget rtxWindowMs (Rate.entry (g user) now) now).2)) := by
  have hif : ∀ e : Nat × Nat,
      (if rtxBudget ≤ e.2 then (false, Function.update g user (some e))
        else (true, Function.update g user (some (e.1, e.2 + 1)))) =
      ((if rtxBudget ≤ e.2 then (false, e) else (true, (e.1, e.2 + 1))).1,
        Function.update g user
          (some (if rtxBudget ≤ e.2 then (false, e) else (true, (e.1, e.2 + 1))).2)) := by
    intro e
    split_ifs <;> rfl
  exact hif _

theorem budget_ask (g : Budget) (user : String) (now : Nat) : budget.next g (.ask user now) =
    Function.update g user
      (some (Rate.take rtxBudget rtxWindowMs (Rate.entry (g user) now) now).2) := by
  show (budgetOk g user now).2 = _
  rw [budgetOk_eq]

theorem budget_forget (g : Budget) (user : String) :
    budget.next g (.forgetUser user) = Function.update g user none := rfl

/-- One user sees only the windows of his own. -/
theorem granted_eq {user : String} {as : List Ask} (hno : .forgetUser user ∉ as) (g : Budget) :
    granted user g as = Rate.taken rtxBudget rtxWindowMs (g user) (asked user as) := by
  induction as generalizing g with
  | nil => rfl
  | cons a as ih =>
    have ih := ih fun hm => hno (List.mem_cons_of_mem a hm)
    rw [granted, ih]
    cases a with
    | ask u now =>
      simp only [budget_ask, Ask.grants, budgetOk_eq]
      by_cases hu : u = user
      · subst hu
        simp [asked, Rate.taken]
      · simp [asked, hu, Function.update_of_ne (Ne.symm hu)]
    | forgetUser u =>
      have hu : user ≠ u := fun e => hno (e ▸ List.mem_cons_self)
      simp [budget_forget, Ask.grants, asked, Function.update_of_ne hu]

theorem granted_append (user : String) (g : Budget) (as bs : List Ask) :
    granted user g (as ++ bs) = granted user g as + granted user (budget.exec g as) bs := by
  induction as generalizing g with
  | nil => simp [granted]
  | cons a as ih => simp only [List.cons_append, granted, ih, Machine.exec_cons, Nat.add_assoc]

theorem granted_one (g : Budget) (user : String) (now : Nat) : granted user g [.ask user now] =
    if (Rate.take rtxBudget rtxWindowMs (Rate.entry (g user) now) now).1 then 1 else 0 := by
  simp [granted, Ask.grants, budgetOk_eq]

/-- The last packet that a window of the user began with came at `st`, and `n` have been granted
since. -/
def Opened (user : String) (acts : List Ask) (st n : Nat) : Prop :=
  ∃ l₁ l₂, acts = l₁ ++ .ask user st :: l₂ ∧ 0 < n ∧
    granted user (budget.exec (fun _ => none) l₁) (.ask user st :: l₂) = n

section Opened

variable {user : String} {acts : List Ask} {st n : Nat} {a : Ask}

theorem Opened.keep {k : Nat} (h : Opened user acts st k)
    (hn : granted user (budget.exec (fun _ => none) acts) [a] + k = n) :
    Opened user (acts ++ [a]) st n := by
  obtain ⟨l₁, l₂, rfl, hpos, hg⟩ := h
  refine ⟨l₁, l₂ ++ [a], by simp, by omega, ?_⟩
  rw [← List.cons_append, granted_append, hg, ← Machine.exec_append]
  omega

theorem opened_now (user : String) (acts : List Ask) (st : Nat)
    (hg : granted user (budget.exec (fun _ => none) acts) [.ask user st] = 1) :
    Opened user (acts ++ [.ask user st]) st 1 :=
  ⟨acts, [], rfl, Nat.one_pos, hg⟩

/-- A packet of the user begins a window, or counts in the one that is open. -/
theorem Opened.ask {now : Nat}
    (ih : ∀ {st n}, budget.exec (fun _ => none) acts user = some (st, n) → Opened user acts st n)
    (h : budget.exec (fun _ => none) (acts ++ [.ask user now]) user = some (st, n)) :
    Opened user (acts ++ [.ask user now]) st n := by
  simp only [Machine.exec_append, Machine.exec_cons, Machine.exec_nil, budget_ask,
    Function.update_self, Option.some.injEq] at h
  have hone := granted_one (budget.exec (fun _ => none) acts) user now
  cases hg : budget.exec (fun _ => none) acts user with
  | none =>
    rw [hg] at h hone
    rcases Rate.take_cases (show 0 < rtxBudget by decide) rtxWindowMs (Rate.entry none now) now
      with ⟨-, heq⟩ | ⟨-, -, heq⟩ | ⟨-, hfull, -⟩
    · rw [heq] at h hone
      obtain ⟨rfl, rfl⟩ := Prod.mk.inj h
      exact opened_now user acts now hone
    · rw [heq] at h hone
      obtain ⟨rfl, rfl⟩ := Prod.mk.inj h
      exact opened_now user acts now hone
    · exact absurd hfull (show ¬ rtxBudget ≤ 0 by decide)
  | some e =>
    rw [hg] at h hone
    rcases Rate.take_cases (show 0 < rtxBudget by decide) rtxWindowMs (Rate.entry (some e) now) now
      with ⟨-, heq⟩ | ⟨-, -, heq⟩ | ⟨-, -, heq⟩
    · rw [heq] at h hone
      obtain ⟨rfl, rfl⟩ := Prod.mk.inj h
      exact opened_now user acts now hone
    · rw [heq] at h hone
      obtain ⟨rfl, rfl⟩ := Prod.mk.inj h
      refine (ih hg).keep ?_
      rw [hone, if_pos rfl]
      exact Nat.add_comm _ _
    · rw [heq] at h hone
      obtain rfl : e = (st, n) := h
      refine (ih hg).keep ?_
      rw [hone]
      exact Nat.zero_add _

end Opened

/-- The window of a user was started by a packet of his, and has let through what it has since. -/
theorem window_since (user : String) (acts : List Ask) {st n : Nat}
    (h : budget.exec (fun _ => none) acts user = some (st, n)) : Opened user acts st n := by
  induction acts using List.reverseRecOn generalizing st n with
  | nil => cases h
  | append_singleton acts a ih =>
    cases a with
    | ask u now =>
      by_cases hu : u = user
      · subst hu
        exact Opened.ask ih h
      · rw [Machine.exec_append] at h
        have hother : budget.exec (fun _ => none) acts user = some (st, n) := by
          simpa [budget_ask, Function.update_of_ne (Ne.symm hu)] using h
        refine (ih hother).keep ?_
        simp [granted, Ask.grants, hu]
    | forgetUser u =>
      rw [Machine.exec_append] at h
      by_cases hu : user = u
      · simp [budget_forget, hu] at h
      · have hother : budget.exec (fun _ => none) acts user = some (st, n) := by
          simpa [budget_forget, Function.update_of_ne hu] using h
        exact (ih hother).keep (by simp [granted, Ask.grants])

/-- **The budget is kept, and used up before anything is refused.** -/
theorem budget_kept (user : String) :
    (∀ l₁ l₂ a b, .forgetUser user ∉ l₂ → (∀ now, .ask user now ∈ l₂ → a ≤ now ∧ now ≤ b) →
      granted user (budget.exec (fun _ => none) l₁) l₂ ≤
        rtxBudget * ((b - a) / rtxWindowMs + 2)) ∧
    ∀ acts now, (budgetOk (budget.exec (fun _ => none) acts) user now).1 = false →
      ∃ l₁ st l₂, acts = l₁ ++ .ask user st :: l₂ ∧ now < st + rtxWindowMs ∧
        rtxBudget ≤ granted user (budget.exec (fun _ => none) l₁) (.ask user st :: l₂) := by
  refine ⟨?_, ?_⟩
  · intro l₁ l₂ a b hno hin
    rw [granted_eq hno]
    refine Rate.taken_le (by decide) (by decide) (fun t ht => hin t ?_) _
    obtain ⟨x, hx, hxt⟩ := List.mem_filterMap.1 ht
    cases x with
    | ask u now =>
      simp only at hxt
      split_ifs at hxt with hu
      rw [← hu, ← Option.some.inj hxt]
      exact hx
    | forgetUser u => cases hxt
  · intro acts now h
    rw [budgetOk_eq] at h
    set g := budget.exec (fun _ => none) acts
    rcases Rate.take_cases (show 0 < rtxBudget by decide) rtxWindowMs (Rate.entry (g user) now) now
      with ⟨-, heq⟩ | ⟨-, -, heq⟩ | ⟨hin, hfull, heq⟩
    · rw [heq] at h
      cases h
    · rw [heq] at h
      cases h
    · cases hg : g user with
      | none =>
        rw [hg] at hfull
        exact absurd hfull (show ¬ rtxBudget ≤ 0 by decide)
      | some e =>
        rw [hg] at hin hfull
        obtain ⟨l₁, l₂, hacts, -, hgr⟩ := @window_since user acts e.1 e.2 hg
        refine ⟨l₁, e.1, l₂, hacts, ?_, hgr ▸ hfull⟩
        have hin : now - e.1 < rtxWindowMs := hin
        omega

/-- Asks at one time are granted up to the budget. -/
theorem grants_many (user : String) (now : Nat) {g : Budget} (hg : g user = none) {k : Nat}
    (hk : k < rtxBudget) :
    budget.exec g (List.replicate (k + 1) (.ask user now)) user = some (now, k + 1) := by
  induction k with
  | zero => simp [budget_ask, hg, Rate.entry, Rate.take, rtxBudget]
  | succ k ih =>
    rw [List.replicate_succ', Machine.exec_append, Machine.exec_cons, Machine.exec_nil, budget_ask,
      Function.update_self, ih (by omega)]
    simp [Rate.entry, Rate.take, rtxWindowMs, show ¬ rtxBudget ≤ k + 1 by omega]

/-- Two hundred packets, and one that is refused. -/
theorem budget_kept_spent :
    let asks := List.replicate 200 (Ask.ask "u" 4)
    (budgetOk (budget.exec (fun _ => none) asks) "u" 5).1 = false ∧
      granted "u" (fun _ => none) asks ≤ rtxBudget * ((4 - 4) / rtxWindowMs + 2) ∧
      ∃ l₁ st l₂, asks = l₁ ++ .ask "u" st :: l₂ ∧ 5 < st + rtxWindowMs ∧
        rtxBudget ≤ granted "u" (budget.exec (fun _ => none) l₁) (.ask "u" st :: l₂) := by
  intro asks
  have hfull : budget.exec (fun _ => none) asks "u" = some (4, 200) :=
    grants_many "u" 4 rfl (show 199 < rtxBudget by decide)
  have hno : (budgetOk (budget.exec (fun _ => none) asks) "u" 5).1 = false := by
    rw [budgetOk_eq, hfull]
    decide
  have hin : ∀ now, Ask.ask "u" now ∈ asks → 4 ≤ now ∧ now ≤ 4 := fun now hm => by
    have hask := List.eq_of_mem_replicate hm
    simp_all
  have hkeep : .forgetUser "u" ∉ asks := fun hm => by cases List.eq_of_mem_replicate hm
  exact ⟨hno, (budget_kept "u").1 [] asks 4 4 hkeep hin, (budget_kept "u").2 asks 5 hno⟩

/-! ## The row -/

open OxlensSfu.Fwd (Rewriter Mapped Rtp parseRtp)
open OxlensSfu.Rtcp (be16)

/-- A packet for each number modulo 1024. -/
structure Cache where
  slots : Nat → Option (UInt16 × List UInt8) := fun _ => none

namespace Cache

def put (c : Cache) (seq : UInt16) (b : List UInt8) : Cache where
  slots := Function.update c.slots (seq.toNat % Fwd.cache) (some (seq, b))

def get (c : Cache) (seq : UInt16) : Option (List UInt8) :=
  match c.slots (seq.toNat % Fwd.cache) with
  | some (s, b) => if s = seq then some b else none
  | none => none

theorem get_put (c : Cache) (seq : UInt16) (b : List UInt8) (seq' : UInt16) :
    (c.put seq b).get seq' = if seq = seq' then some b
      else if seq'.toNat % Fwd.cache = seq.toNat % Fwd.cache then none else c.get seq' := by
  by_cases hs : seq'.toNat % Fwd.cache = seq.toNat % Fwd.cache
  · rw [get, put]
    simp only [hs, Function.update_self, if_true]
  · have hne : seq ≠ seq' := fun e => hs (e ▸ rfl)
    rw [get, put, if_neg hne, if_neg hs, get]
    simp only [Function.update_of_ne hs]

end Cache

/-- The numbers of a video row that do not change. -/
structure DownRow where
  user : String
  rtxPt : UInt8
  rtxSsrc : UInt32

/-- A row, the caches of the tracks, and the budget of all users. `srcTrack` is known by the number
of its source. -/
structure State where
  rw : Rewriter := Rewriter.new 90000
  srcTrack : Option Nat := none
  gateUntilNew : Bool := false
  rtxSeq : UInt16 := 0
  caches : Nat → Cache := fun _ => {}
  budget : Budget := fun _ => none

structure Built where
  pt : UInt8
  seq : UInt16
  ts : BitVec 32
  ssrc : UInt32
  marker : Bool
  payload : List UInt8
  deriving DecidableEq

namespace State

/-- A packet comes in from a track, or is sent again by its publisher. -/
def put (s : State) (key : Nat) (raw : List UInt8) : State :=
  match parseRtp raw with
  | none => s
  | some rtp =>
    { s with caches := Function.update s.caches key ((s.caches key).put rtp.seq raw) }

/-- `send_down`, as far as it is about the numbers. -/
def sendDown (s : State) (key : Nat) (raw : List UInt8) (now : Nat) (keyframe : Bool) :
    State × Option Mapped :=
  match parseRtp raw with
  | none => (s, none)
  | some rtp =>
    if s.rw.src ≠ some key ∧ keyframe = false then (s, none)
    else
      let (rw, m) := s.rw.map ⟨key, rtp.seq.toBitVec, rtp.ts.toBitVec, now, 1⟩
      if m.switched ∨ s.srcTrack = none then
        ({ s with rw := rw, gateUntilNew := false, srcTrack := some key }, some m)
      else ({ s with rw := rw }, some m)

/-- The packet that is asked for, or the name under which it is counted that there is none. -/
def wanted (s : State) (outSeq : UInt16) : Except String (List UInt8) :=
  if s.gateUntilNew then .error "rtx_gate"
  else
    match s.rw.unmapNack outSeq.toBitVec with
    | none => .error "rtx_gate"
    | some srcSeq =>
      match s.srcTrack with
      | none => .error "rtx_cache_miss"
      | some key =>
        match (s.caches key).get ⟨srcSeq⟩ with
        | none => .error "rtx_cache_miss"
        | some orig => .ok orig

/-- `send_rtx` for one number. A packet that is not sent is counted under a name, unless it cannot
be read. -/
def sendRtx (row : DownRow) (s : State) (outSeq : UInt16) (now : Nat) :
    Except (Option String) Built × State :=
  match s.wanted outSeq with
  | .error name => (.error name, s)
  | .ok orig =>
    let (granted, budget) := budgetOk s.budget row.user now
    let s := { s with budget }
    if granted then
      match parseRtp orig with
      | none => (.error none, s)
      | some rtp =>
        (.ok {
          pt := row.rtxPt, seq := s.rtxSeq, ts := rtp.ts.toBitVec + s.rw.tsOff
          ssrc := row.rtxSsrc, marker := rtp.marker
          payload := be16 outSeq.toNat ++ orig.drop rtp.hlen },
          { s with rtxSeq := s.rtxSeq + 1 })
    else (.error "rtx_budget", s)

end State

/-- `budget` is what others ask of the budget. -/
inductive Act where
  | put (key : Nat) (raw : List UInt8)
  | sendDown (key : Nat) (raw : List UInt8) (now : Nat) (keyframe : Bool)
  | sendRtx (outSeq : UInt16) (now : Nat)
  | budget (a : Ask)
  | unload
  | shut
  deriving DecidableEq, Repr

def machine (row : DownRow) : Machine State Act where
  ok _ _ := True
  next s a := match a with
    | .put key raw => s.put key raw
    | .sendDown key raw now keyframe => (s.sendDown key raw now keyframe).1
    | .sendRtx outSeq now => (s.sendRtx row outSeq now).2
    | .budget a => { s with budget := Rtx.budget.next s.budget a }
    | .unload => { s with srcTrack := none }
    | .shut => { s with gateUntilNew := true }

/-- What a step asks of the budget. -/
def Act.asks (row : DownRow) (s : State) : Act → List Ask
  | .sendRtx outSeq now =>
    match s.wanted outSeq with
    | .error _ => []
    | .ok _ => [.ask row.user now]
  | .budget a => [a]
  | _ => []

/-- What a run asks of the budget. -/
def asks (row : DownRow) (s : State) : List Act → List Ask
  | [] => []
  | a :: as => a.asks row s ++ asks row ((machine row).next s a) as

/-- A packet that went out. -/
structure Sent where
  raw : List UInt8
  rtp : Rtp
  mapped : Mapped
  deriving DecidableEq

/-- What went out since the source of the row last changed. -/
def since (h : List Sent) (s : State) : Act → List Sent
  | .sendDown key raw now keyframe =>
    match parseRtp raw, (s.sendDown key raw now keyframe).2 with
    | some rtp, some m => if s.rw.src = some key then h ++ [⟨raw, rtp, m⟩] else [⟨raw, rtp, m⟩]
    | _, _ => h
  | _ => h

def sentSince (row : DownRow) (acts : List Act) : List Sent :=
  (((machine row).logged since).exec ({}, []) acts).2

/-! ## What a step does -/

variable {row : DownRow} {s : State}

/-- A packet goes out or it does not. -/
theorem sendDown_cases (s : State) (key : Nat) (raw : List UInt8) (now : Nat) (keyframe : Bool) :
    s.sendDown key raw now keyframe = (s, none) ∨
    ∃ rtp rw m, parseRtp raw = some rtp ∧
      s.rw.map ⟨key, rtp.seq.toBitVec, rtp.ts.toBitVec, now, 1⟩ = (rw, m) ∧
      ((m.switched ∨ s.srcTrack = none) ∧ s.sendDown key raw now keyframe =
          ({ s with rw := rw, gateUntilNew := false, srcTrack := some key }, some m) ∨
        ¬ (m.switched ∨ s.srcTrack = none) ∧
          s.sendDown key raw now keyframe = ({ s with rw := rw }, some m)) := by
  rw [State.sendDown]
  cases hp : parseRtp raw with
  | none => exact .inl rfl
  | some rtp =>
    simp only
    split_ifs with hwait hnew
    · exact .inl rfl
    · exact .inr ⟨rtp, _, _, rfl, rfl, .inl ⟨hnew, rfl⟩⟩
    · exact .inr ⟨rtp, _, _, rfl, rfl, .inr ⟨hnew, rfl⟩⟩

/-- A number that is asked for changes nothing but the number of what is sent again, and the
budget. -/
theorem sendRtx_state (s : State) (outSeq : UInt16) (now : Nat) : ∃ seq,
    (s.sendRtx row outSeq now).2 = { s with
      rtxSeq := seq
      budget := budget.exec s.budget (Act.asks row s (.sendRtx outSeq now)) } := by
  rw [State.sendRtx, Act.asks]
  cases hw : s.wanted outSeq with
  | error name => exact ⟨s.rtxSeq, rfl⟩
  | ok orig =>
    dsimp only
    split_ifs
    · split
      · exact ⟨s.rtxSeq, rfl⟩
      · exact ⟨s.rtxSeq + 1, rfl⟩
    · exact ⟨s.rtxSeq, rfl⟩

theorem wanted_ok_iff {outSeq : UInt16} {orig : List UInt8} :
    s.wanted outSeq = .ok orig ↔ s.gateUntilNew = false ∧ ∃ srcSeq key,
      s.rw.unmapNack outSeq.toBitVec = some srcSeq ∧ s.srcTrack = some key ∧
        (s.caches key).get ⟨srcSeq⟩ = some orig := by
  rw [State.wanted]
  cases s.gateUntilNew with
  | true => simp
  | false =>
    cases s.rw.unmapNack outSeq.toBitVec with
    | none => simp
    | some srcSeq =>
      cases s.srcTrack with
      | none => simp
      | some key => cases hc : (s.caches key).get ⟨srcSeq⟩ <;> simp [hc]

/-- What is needed for a packet to be sent again, and what it is made of. -/
theorem sendRtx_ok_iff {outSeq : UInt16} {now : Nat} {b : Built} :
    (s.sendRtx row outSeq now).1 = .ok b ↔
      (budgetOk s.budget row.user now).1 = true ∧ ∃ orig rtp, s.wanted outSeq = .ok orig ∧
        parseRtp orig = some rtp ∧ b = {
          pt := row.rtxPt, seq := s.rtxSeq, ts := rtp.ts.toBitVec + s.rw.tsOff
          ssrc := row.rtxSsrc, marker := rtp.marker
          payload := be16 outSeq.toNat ++ orig.drop rtp.hlen } := by
  rw [State.sendRtx]
  cases hw : s.wanted outSeq with
  | error name => simp
  | ok orig =>
    dsimp only
    cases hg : (budgetOk s.budget row.user now).1 with
    | false => simp
    | true =>
      cases hp : parseRtp orig with
      | none => simp [hp]
      | some rtp => simp [hp, eq_comm]

/-- The budget is as what a run has asked of it has left it. -/
theorem run_budget (row : DownRow) (s : State) (acts : List Act) :
    ((machine row).exec s acts).budget = budget.exec s.budget (asks row s acts) := by
  induction acts generalizing s with
  | nil => rfl
  | cons a acts ih =>
    rw [Machine.exec_cons, ih, asks, Machine.exec_append]
    congr 1
    cases a with
    | put key raw =>
      change (s.put key raw).budget = s.budget
      rw [State.put]
      split <;> rfl
    | sendDown key raw now keyframe =>
      change (s.sendDown key raw now keyframe).1.budget = s.budget
      rcases sendDown_cases s key raw now keyframe with
        heq | ⟨rtp, rw', m, -, -, ⟨-, heq⟩ | ⟨-, heq⟩⟩ <;> rw [heq]
    | sendRtx outSeq now =>
      obtain ⟨seq, heq⟩ := @sendRtx_state row s outSeq now
      change (s.sendRtx row outSeq now).2.budget = _
      rw [heq]
    | budget a => rfl
    | unload => rfl
    | shut => rfl

/-! ## The numbers of what went out -/

theorem map_numbers (r : Rewriter) (p : Fwd.Packet) :
    (r.map p).2.seq = p.seq + (r.map p).1.seqOff ∧ (r.map p).2.ts = p.ts + (r.map p).1.tsOff := by
  by_cases h : r.src = some p.src
  · simp [Rewriter.map, h]
  · simp [Rewriter.map, h]

theorem map_same_tsOff {r : Rewriter} {p : Fwd.Packet} (h : r.src = some p.src) :
    (r.map p).1.tsOff = r.tsOff := by simp [Rewriter.map, h]

theorem map_switched (r : Rewriter) (p : Fwd.Packet) :
    (r.map p).2.switched = (r.src != some p.src && (r.src.isSome || r.last.isSome)) := rfl

/-- Since the source changed the offsets have been the same, and the track is that of the source. -/
structure SinceInv (s : State) (h : List Sent) : Prop where
  empty : h = [] → s.rw.src = none
  first : ∀ e ∈ h.head?, s.rw.boundary = some e.mapped.seq
  each : ∀ e ∈ h, parseRtp e.raw = some e.rtp ∧
    e.mapped.seq = e.rtp.seq.toBitVec + s.rw.seqOff ∧ e.mapped.ts = e.rtp.ts.toBitVec + s.rw.tsOff
  track : ∀ k ∈ s.srcTrack, s.rw.src = some k

theorem SinceInv.of_rw {s s' : State} {h : List Sent} (hi : SinceInv s h) (hrw : s'.rw = s.rw)
    (ht : ∀ k ∈ s'.srcTrack, k ∈ s.srcTrack) : SinceInv s' h := by
  refine ⟨?_, ?_, ?_, ?_⟩
  · rw [hrw]
    exact hi.empty
  · rw [hrw]
    exact hi.first
  · rw [hrw]
    exact hi.each
  · rw [hrw]
    exact fun k hk => hi.track k (ht k hk)

/-- A packet goes out: it is the first of its source, or its numbers are moved like the others. -/
theorem SinceInv.sendDown {s : State} {h : List Sent} (hi : SinceInv s h) (key : Nat)
    (raw : List UInt8) (now : Nat) (keyframe : Bool) :
    SinceInv (s.sendDown key raw now keyframe).1 (since h s (.sendDown key raw now keyframe)) := by
  rcases sendDown_cases s key raw now keyframe with heq | ⟨rtp, rw', m, hp, hmap, hcase⟩
  · simp only [since, heq]
    cases parseRtp raw <;> exact hi
  have hnum := map_numbers s.rw ⟨key, rtp.seq.toBitVec, rtp.ts.toBitVec, now, 1⟩
  have hsw := map_switched s.rw ⟨key, rtp.seq.toBitVec, rtp.ts.toBitVec, now, 1⟩
  rw [hmap] at hnum hsw
  -- The row's track is the source's in both cases.
  have hsent : since h s (.sendDown key raw now keyframe) =
      if s.rw.src = some key then h ++ [⟨raw, rtp, m⟩] else [⟨raw, rtp, m⟩] := by
    rcases hcase with ⟨-, heq⟩ | ⟨-, heq⟩ <;> simp only [since, hp, heq]
  have hrw : (s.sendDown key raw now keyframe).1.rw = rw' := by
    rcases hcase with ⟨-, heq⟩ | ⟨-, heq⟩ <;> rw [heq]
  have htrack : rw'.src = some key →
      ∀ k ∈ (s.sendDown key raw now keyframe).1.srcTrack, rw'.src = some k := by
    intro hsrc k hk
    rcases hcase with ⟨-, heq⟩ | ⟨hno, heq⟩
    · rw [heq] at hk
      rw [hsrc, ← Option.mem_def.1 hk]
    · rw [heq] at hk
      have hold := hi.track k hk
      rw [not_or, hsw] at hno
      have hkey : s.rw.src = some key := by simpa [hold] using hno.1
      rw [hsrc, ← hkey, hold]
  by_cases hsrc : s.rw.src = some key
  · obtain ⟨hsrc', hoff, hbound, -, -⟩ :=
      Rewriter.map_same (p := ⟨key, rtp.seq.toBitVec, rtp.ts.toBitVec, now, 1⟩) hsrc
    have hts := map_same_tsOff (p := ⟨key, rtp.seq.toBitVec, rtp.ts.toBitVec, now, 1⟩) hsrc
    rw [hmap] at hsrc' hoff hbound hts
    rw [hsent, if_pos hsrc]
    have hne : h ≠ [] := fun e => by simp [hi.empty e] at hsrc
    refine ⟨fun e => absurd e (by simp), ?_, ?_, ?_⟩
    · rw [hrw, hbound, List.head?_append_of_ne_nil _ hne]
      exact hi.first
    · intro e he
      rw [hrw, hoff, hts]
      rcases List.mem_append.1 he with he | he
      · exact hi.each e he
      · rw [List.mem_singleton.1 he, ← hoff, ← hts]
        exact ⟨hp, hnum⟩
    · rw [hrw]
      exact htrack hsrc'
  · obtain ⟨hsrc', hbound, -, -, -⟩ :=
      Rewriter.map_other (p := ⟨key, rtp.seq.toBitVec, rtp.ts.toBitVec, now, 1⟩) hsrc
    rw [hmap] at hsrc' hbound
    rw [hsent, if_neg hsrc]
    refine ⟨fun e => absurd e (by simp), ?_, ?_, ?_⟩
    · intro e he
      obtain rfl : _ = e := by simpa using he
      rw [hrw]
      exact hbound
    · intro e he
      rw [List.mem_singleton.1 he, hrw]
      exact ⟨hp, hnum⟩
    · rw [hrw]
      exact htrack hsrc'

theorem sinceInv (row : DownRow) (acts : List Act) :
    SinceInv ((machine row).exec {} acts) (sentSince row acts) := by
  have hinv : ∀ x : State × List Sent, ∀ a, SinceInv x.1 x.2 →
      ((machine row).logged since).ok x a →
      SinceInv (((machine row).logged since).next x a).1
        (((machine row).logged since).next x a).2 := by
    intro x a hi _
    cases a with
    | put key raw =>
      refine hi.of_rw ?_ fun k hk => ?_
      · change (x.1.put key raw).rw = x.1.rw
        rw [State.put]
        split <;> rfl
      · change k ∈ (x.1.put key raw).srcTrack at hk
        rw [State.put] at hk
        split at hk <;> exact hk
    | sendDown key raw now keyframe => exact hi.sendDown key raw now keyframe
    | sendRtx outSeq now =>
      obtain ⟨seq, heq⟩ := @sendRtx_state row x.1 outSeq now
      change SinceInv (x.1.sendRtx row outSeq now).2 x.2
      rw [heq]
      exact hi.of_rw rfl fun k hk => hk
    | budget a => exact hi.of_rw rfl fun k hk => hk
    | unload => exact hi.of_rw rfl fun k hk => absurd hk (by simp [machine, Machine.logged])
    | shut => exact hi.of_rw rfl fun k hk => hk
  have h := Machine.invariant (M := (machine row).logged since) (I := fun x => SinceInv x.1 x.2)
    hinv (s := ({}, [])) ⟨fun _ => rfl, by simp, by simp, by simp⟩
    ((Machine.legal_iff _).2 fun l₁ a l₂ (_ : acts = l₁ ++ a :: l₂) => trivial)
  rw [Machine.logged_exec_fst] at h
  exact h

/-! ## What is cached -/

/-- A packet comes in from the track that takes the place of the number. -/
def Displaces (key : Nat) (seq : UInt16) (a : Act) : Prop :=
  ∃ raw rtp, a = .put key raw ∧ parseRtp raw = some rtp ∧
    seq.toNat % Fwd.cache = rtp.seq.toNat % Fwd.cache

/-- The last packet that came in from the track in the place of the number is this one. -/
structure Newest (acts : List Act) (key : Nat) (raw : List UInt8) (rtp : Rtp) : Prop where
  read : parseRtp raw = some rtp
  last : ∃ l₁ l₂, acts = l₁ ++ .put key raw :: l₂ ∧ ∀ a ∈ l₂, ¬ Displaces key rtp.seq a

theorem get_step (s : State) (a : Act) (key : Nat) (seq : UInt16) :
    (∃ raw rtp, a = .put key raw ∧ parseRtp raw = some rtp ∧ rtp.seq = seq ∧
      (((machine row).next s a).caches key).get seq = some raw) ∨
    (Displaces key seq a ∧ (((machine row).next s a).caches key).get seq = none) ∨
    (¬ Displaces key seq a ∧
      (((machine row).next s a).caches key).get seq = (s.caches key).get seq) := by
  cases a with
  | put key' raw =>
    change (∃ raw' rtp, _ ∧ _ ∧ _ ∧ ((s.put key' raw).caches key).get seq = some raw') ∨
      (_ ∧ ((s.put key' raw).caches key).get seq = none) ∨
      (_ ∧ ((s.put key' raw).caches key).get seq = _)
    rw [State.put]
    cases hp : parseRtp raw with
    | none =>
      refine .inr (.inr ⟨?_, rfl⟩)
      rintro ⟨raw', rtp, e, hp', -⟩
      rw [← (Act.put.inj e).2, hp] at hp'
      cases hp'
    | some rtp =>
      by_cases hk : key = key'
      · subst hk
        simp only [Function.update_self, Cache.get_put]
        by_cases hs : rtp.seq = seq
        · exact .inl ⟨raw, rtp, rfl, hp, hs, if_pos hs⟩
        · by_cases hd : seq.toNat % Fwd.cache = rtp.seq.toNat % Fwd.cache
          · refine .inr (.inl ⟨⟨raw, rtp, rfl, hp, hd⟩, ?_⟩)
            rw [if_neg hs, if_pos hd]
          · refine .inr (.inr ⟨?_, ?_⟩)
            · rintro ⟨raw', rtp', e, hp', hd'⟩
              rw [← (Act.put.inj e).2, hp] at hp'
              exact hd (Option.some.inj hp' ▸ hd')
            · rw [if_neg hs, if_neg hd]
      · simp only [Function.update_of_ne hk]
        refine .inr (.inr ⟨?_, trivial⟩)
        rintro ⟨raw', rtp', e, -, -⟩
        exact hk (Act.put.inj e).1.symm
  | sendDown key' raw now keyframe =>
    refine .inr (.inr ⟨?_, ?_⟩)
    · rintro ⟨raw', rtp', e, -, -⟩
      cases e
    · change ((s.sendDown key' raw now keyframe).1.caches key).get seq = _
      rcases sendDown_cases s key' raw now keyframe with
        heq | ⟨rtp, rw', m, -, -, ⟨-, heq⟩ | ⟨-, heq⟩⟩ <;> rw [heq]
  | sendRtx outSeq now =>
    refine .inr (.inr ⟨?_, ?_⟩)
    · rintro ⟨raw', rtp', e, -, -⟩
      cases e
    · obtain ⟨q, heq⟩ := @sendRtx_state row s outSeq now
      change ((s.sendRtx row outSeq now).2.caches key).get seq = _
      rw [heq]
  | budget a =>
    refine .inr (.inr ⟨?_, rfl⟩)
    rintro ⟨raw', rtp', e, -, -⟩
    cases e
  | unload =>
    refine .inr (.inr ⟨?_, rfl⟩)
    rintro ⟨raw', rtp', e, -, -⟩
    cases e
  | shut =>
    refine .inr (.inr ⟨?_, rfl⟩)
    rintro ⟨raw', rtp', e, -, -⟩
    cases e

/-- What the cache has under a number is the newest packet in its place. -/
theorem cached_iff {acts : List Act} {key : Nat} {seq : UInt16} {raw : List UInt8} :
    ((((machine row).exec {} acts).caches key).get seq = some raw) ↔
      ∃ rtp, Newest acts key raw rtp ∧ rtp.seq = seq := by
  refine ⟨?_, ?_⟩
  · intro h
    obtain ⟨l₁, a, l₂, rfl, ⟨rtp, rfl, hp, hs⟩, hkeep⟩ :=
      Machine.since (M := machine row) (P := fun s : State => (s.caches key).get seq = some raw)
        (B := fun _ a => ∃ rtp, a = .put key raw ∧ parseRtp raw = some rtp ∧ rtp.seq = seq)
        (K := fun _ a => ¬ Displaces key seq a)
        (fun s a _ hP => by
          rcases @get_step row s a key seq with
            ⟨raw', rtp, rfl, hp, hs, hget⟩ | ⟨-, hget⟩ | ⟨hno, hget⟩
          · rw [hget] at hP
            obtain rfl := Option.some.inj hP
            exact .inl ⟨rtp, rfl, hp, hs⟩
          · rw [hget] at hP
            cases hP
          · exact .inr ⟨hget ▸ hP, hno⟩)
        (by simp [Cache.get]) ((Machine.legal_iff _).2 fun _ _ _ _ => trivial) h
    refine ⟨rtp, ⟨hp, l₁, l₂, rfl, fun a ha => ?_⟩, hs⟩
    obtain ⟨m₁, m₂, e⟩ := List.append_of_mem ha
    rw [hs]
    exact hkeep m₁ a m₂ e
  · rintro ⟨rtp, ⟨hp, l₁, l₂, rfl, hno⟩, rfl⟩
    rw [Machine.exec_append, Machine.exec_cons]
    generalize (machine row).exec {} l₁ = s
    have hput : (((machine row).next s (.put key raw)).caches key).get rtp.seq = some raw := by
      change ((s.put key raw).caches key).get rtp.seq = some raw
      rw [State.put, hp]
      simp [Cache.get_put]
    generalize (machine row).next s (.put key raw) = s' at hput
    induction l₂ generalizing s' with
    | nil => exact hput
    | cons a l₂ ih =>
      have hna := hno a List.mem_cons_self
      refine ih (fun b hb => hno b (List.mem_cons_of_mem a hb)) _ ?_
      rcases @get_step row s' a key rtp.seq with
        ⟨raw', rtp', rfl, hp', hs, -⟩ | ⟨hd, -⟩ | ⟨-, hget⟩
      · exact absurd ⟨raw', rtp', rfl, hp', hs ▸ rfl⟩ hna
      · exact absurd hd hna
      · rw [hget, hput]

/-! ## What is sent again -/

/-- A number goes back to the packet that it was given to. -/
theorem unmapNack_eq {r : Rewriter} {out seq : BitVec 16} (h : r.unmapNack out = some seq) :
    out = seq + r.seqOff := by
  rw [Rewriter.unmapNack] at h
  split_ifs at h
  rw [← Option.some.inj h, sub_add_cancel]

/-- **What is sent again is what came under the number**: the newest packet from the source of the
row. If it went out since the source last changed, it was under this number and with this time. -/
theorem rtx_content {acts : List Act} {outSeq : UInt16} {now : Nat} {b : Built}
    (h : (((machine row).exec {} acts).sendRtx row outSeq now).1 = .ok b) :
    ∃ key raw rtp, ((machine row).exec {} acts).rw.src = some key ∧ Newest acts key raw rtp ∧
      b.payload = be16 outSeq.toNat ++ raw.drop rtp.hlen ∧ b.marker = rtp.marker ∧
      ∀ e ∈ sentSince row acts,
        (e.mapped.seq = outSeq.toBitVec → e.rtp.seq = rtp.seq) ∧
        (e.raw = raw → e.rtp = rtp ∧ e.mapped.seq = outSeq.toBitVec ∧ e.mapped.ts = b.ts) := by
  have hinv := sinceInv row acts
  obtain ⟨-, raw, rtp, hw, hp, rfl⟩ := sendRtx_ok_iff.1 h
  obtain ⟨-, srcSeq, key, hu, ht, hc⟩ := wanted_ok_iff.1 hw
  obtain ⟨rtp', hnew, hseq⟩ := cached_iff.1 hc
  obtain rfl : rtp = rtp' := Option.some.inj (hp.symm.trans hnew.read)
  have hout := unmapNack_eq hu
  have hsrc : srcSeq = rtp.seq.toBitVec := by rw [hseq]
  refine ⟨key, raw, rtp, hinv.track key ht, hnew, rfl, rfl, fun e he => ?_⟩
  obtain ⟨hread, hes, hets⟩ := hinv.each e he
  refine ⟨fun heq => ?_, fun heq => ?_⟩
  · rw [hes, hout, hsrc] at heq
    exact UInt16.toBitVec_inj.1 (add_right_cancel heq)
  · obtain rfl : e.rtp = rtp := Option.some.inj (hread.symm.trans (heq ▸ hp))
    exact ⟨rfl, by rw [hes, hout, hsrc], hets⟩

/-- **Exactly when a packet that went out is sent again**: the gate is open, the budget grants it
after all that was asked of it in the run, the source has not gone on for half a circle since its
first packet, and nothing newer has come in the packet's place. -/
theorem rtx_answered_iff {acts : List Act} {e₀ e : Sent} (h₀ : e₀ ∈ (sentSince row acts).head?)
    (he : e ∈ sentSince row acts) (now : Nat) :
    (∃ b, (((machine row).exec {} acts).sendRtx row ⟨e.mapped.seq⟩ now).1 = .ok b) ↔
      ((machine row).exec {} acts).gateUntilNew = false ∧
        (budgetOk (budget.exec (fun _ => none) (asks row {} acts)) row.user now).1 = true ∧
        (e.rtp.seq - e₀.rtp.seq).toNat ≤ 32768 ∧
        ∃ key ∈ ((machine row).exec {} acts).srcTrack, ∃ raw rtp, Newest acts key raw rtp ∧
          rtp.seq = e.rtp.seq := by
  have hinv := sinceInv row acts
  obtain ⟨-, hes, -⟩ := hinv.each e he
  obtain ⟨-, hes₀, -⟩ := hinv.each e₀ (List.mem_of_mem_head? h₀)
  have hfirst := hinv.first e₀ h₀
  have hdiff : e.mapped.seq - e₀.mapped.seq = e.rtp.seq.toBitVec - e₀.rtp.seq.toBitVec := by
    rw [hes, hes₀, add_sub_add_right_eq_sub]
  have hafter : serialAfter e₀.mapped.seq e.mapped.seq = false ↔
      (e.rtp.seq - e₀.rtp.seq).toNat ≤ 32768 := by
    rw [serialAfter_eq_false_iff, hdiff]
    show _ ↔ (e.rtp.seq.toBitVec - e₀.rtp.seq.toBitVec).toNat ≤ 32768
    omega
  have hback : e.mapped.seq - ((machine row).exec {} acts).rw.seqOff = e.rtp.seq.toBitVec := by
    rw [hes, add_sub_cancel_right]
  have hunmap : ∀ seq, ((machine row).exec {} acts).rw.unmapNack e.mapped.seq = some seq ↔
      (e.rtp.seq - e₀.rtp.seq).toNat ≤ 32768 ∧ seq = e.rtp.seq.toBitVec := by
    intro seq
    rw [← hafter, Rewriter.unmapNack, hfirst, Option.any_some, hback]
    cases serialAfter e₀.mapped.seq e.mapped.seq <;> simp [eq_comm]
  have hbudget : ((machine row).exec {} acts).budget =
      budget.exec (fun _ => none) (asks row {} acts) := run_budget row {} acts
  rw [← hbudget]
  constructor
  · rintro ⟨b, hb⟩
    obtain ⟨hgr, raw, rtp, hw, hp, -⟩ := sendRtx_ok_iff.1 hb
    obtain ⟨hg, seq, key, hu, ht, hc⟩ := wanted_ok_iff.1 hw
    obtain ⟨hnear, rfl⟩ := (hunmap seq).1 hu
    obtain ⟨rtp', hnew, hseq⟩ := cached_iff.1 hc
    exact ⟨hg, hgr, hnear, key, ht, raw, rtp', hnew, hseq⟩
  · rintro ⟨hg, hgr, hnear, key, ht, raw, rtp, hnew, hseq⟩
    have hc : ((((machine row).exec {} acts).caches key).get ⟨e.rtp.seq.toBitVec⟩) = some raw :=
      cached_iff.2 ⟨rtp, hnew, hseq⟩
    have hw : ((machine row).exec {} acts).wanted ⟨e.mapped.seq⟩ = .ok raw :=
      wanted_ok_iff.2 ⟨hg, _, key, (hunmap _).2 ⟨hnear, rfl⟩, ht, hc⟩
    exact ⟨_, sendRtx_ok_iff.2 ⟨hgr, raw, rtp, hw, hnew.read, rfl⟩⟩

/-- A packet with two bytes of payload. -/
def frame (seq : UInt8) : List UInt8 := [128, 96, 0, seq, 0, 0, 0, 50, 0, 0, 0, 9, 1, 2]

def videoRow : DownRow := { user := "u", rtxPt := 97, rtxSsrc := 4 }

/-- Two packets of track 3, the second one lost on its way down. -/
def twoFrames : List Act :=
  [.put 3 (frame 7), .sendDown 3 (frame 7) 5 true, .put 3 (frame 8), .sendDown 3 (frame 8) 6 false]

theorem rtx_content_two : ∃ key raw rtp,
    ((machine videoRow).exec {} twoFrames).rw.src = some key ∧ Newest twoFrames key raw rtp ∧
      [0, 8, 1, 2] = be16 8 ++ raw.drop rtp.hlen ∧ false = rtp.marker ∧
      ∀ e ∈ sentSince videoRow twoFrames, (e.mapped.seq = 8#16 → e.rtp.seq = rtp.seq) ∧
        (e.raw = raw → e.rtp = rtp ∧ e.mapped.seq = 8#16 ∧ e.mapped.ts = 50#32) := by
  have h : (((machine videoRow).exec {} twoFrames).sendRtx videoRow 8 7).1 =
      .ok ⟨97, 0, 50, 4, false, [0, 8, 1, 2]⟩ := by decide
  exact rtx_content h

theorem rtx_answered_iff_two :
    (∃ b, (((machine videoRow).exec {} twoFrames).sendRtx videoRow ⟨8⟩ 7).1 = .ok b) ↔
      ((machine videoRow).exec {} twoFrames).gateUntilNew = false ∧
        (budgetOk (budget.exec (fun _ => none) (asks videoRow {} twoFrames)) "u" 7).1 = true ∧
        ((8 : UInt16) - 7).toNat ≤ 32768 ∧
        ∃ key ∈ ((machine videoRow).exec {} twoFrames).srcTrack, ∃ raw rtp,
          Newest twoFrames key raw rtp ∧ rtp.seq = 8 := by
  have hsent : sentSince videoRow twoFrames =
      [⟨frame 7, Fwd.rtpOf (frame 7) 12 none, ⟨7, 50, false⟩⟩,
        ⟨frame 8, Fwd.rtpOf (frame 8) 12 none, ⟨8, 50, false⟩⟩] := by decide
  have h₀ : (⟨frame 7, Fwd.rtpOf (frame 7) 12 none, ⟨7, 50, false⟩⟩ : Sent) ∈
      (sentSince videoRow twoFrames).head? := by rw [hsent]; rfl
  have he : (⟨frame 8, Fwd.rtpOf (frame 8) 12 none, ⟨8, 50, false⟩⟩ : Sent) ∈
      sentSince videoRow twoFrames := by rw [hsent]; decide
  exact rtx_answered_iff h₀ he 7

end OxlensSfu.Rtx
