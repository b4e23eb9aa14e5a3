import OxlensSfu.Lib.Machine
import OxlensSfu.Lib.Rate
import OxlensSfu.Sub.Table

/-!
# Keyframe requests

`request_pli` of `crates/oxsfud/src/rtcp/mod.rs` asks the sender of a track for a keyframe, not more
often than the policy allows. Requests of the server that come too early are remembered, and
`uplink` makes up for them on its next rounds; requests of receivers are let go. When a speaker
loses the floor, `release_media` of `ops/floor.rs` forgets what is remembered for its tracks.
Anybody may ask at any time. A step is what is done under the lock of `PliState`, with the time that
its caller has read before; times need not be in order. What goes on from there is handed to `emit`,
which drops it where the transport is gone or the queue of its worker is full; `PliState` does not
get to know, and nothing makes up for it.

* `plis_apart`: between two requests for a track that go out lies the time of the policy, so in any
  stretch of time they are few.
* `pli_for_request`: there are no more of them than there were requests.
* `request_answered`: a request of the server is answered, at the latest by the first round of
  `uplink` after that time, unless the floor is released before, or `emit` drops what answers it.
-/

namespace OxlensSfu.Pli

open OxlensSfu.Sub (Kind)

/-- The part of a policy that matters here, in the bounds that `Policy::validate` of
`crates/common/src/policy.rs` asks for. -/
structure Policy where
  pliThrottleHighMs : Nat := 1000
  pliThrottleLowMs : Nat := 500
  high_ok : 300 ≤ pliThrottleHighMs ∧ pliThrottleHighMs ≤ 10000 := by decide
  low_ok : 300 ≤ pliThrottleLowMs ∧ pliThrottleLowMs ≤ 10000 := by decide

/-- The part of a track that matters here. -/
structure PubTrack where
  kind : Kind
  rid : Option Nat

def throttleMs (p : Policy) (t : PubTrack) : Nat :=
  if t.rid = some 0 then p.pliThrottleLowMs else p.pliThrottleHighMs

theorem throttleMs_bounds (p : Policy) (t : PubTrack) :
    300 ≤ throttleMs p t ∧ throttleMs p t ≤ 10000 := by
  rw [throttleMs]
  split_ifs
  · exact p.low_ok
  · exact p.high_ok

structure PliState where
  lastMs : Nat := 0
  pending : Bool := false
  sent : Nat := 0
  deriving DecidableEq, Repr

/-- What `request_pli` does under the lock; the answer is whether the request goes out. -/
def PliState.request (s : PliState) (gap now : Nat) (infra : Bool) : Bool × PliState :=
  if s.lastMs = 0 ∨ gap ≤ now - s.lastMs then
    (true, { lastMs := now, pending := false, sent := s.sent + 1 })
  else (false, if infra then { s with pending := true } else s)

/-- `turn` is what `uplink` has found when it looked, until it acts on it. `out` are the times of
what `emit` has handed to the worker of the transport. -/
structure State where
  pli : PliState := {}
  turn : Option Bool := none
  out : List Nat := []
  deriving DecidableEq, Repr

/-- `taken` is the answer of `emit`, should the request come to it: the transport is still there
and the queue of its worker takes the packet. -/
inductive Act where
  | request (infra : Bool) (now : Nat) (taken : Bool)
  | look (now : Nat)
  | flush (now : Nat) (taken : Bool)
  | release
  deriving DecidableEq, Repr

namespace State

def request (p : Policy) (t : PubTrack) (s : State) (infra : Bool) (now : Nat) (taken : Bool) :
    State :=
  if t.kind = .video then
    let (fire, pli) := s.pli.request (throttleMs p t) now infra
    { s with pli := pli, out := if fire && taken then s.out ++ [now] else s.out }
  else s

/-- The first half of the round of `uplink`. -/
def look (p : Policy) (t : PubTrack) (s : State) (now : Nat) : State :=
  { s with
    turn := some (t.kind = .video ∧ s.pli.pending ∧ throttleMs p t ≤ now - s.pli.lastMs) }

/-- The second half. -/
def flush (p : Policy) (t : PubTrack) (s : State) (now : Nat) (taken : Bool) : State :=
  if s.turn = some true then { s.request p t true now taken with turn := none }
  else { s with turn := none }

def next (p : Policy) (t : PubTrack) (s : State) : Act → State
  | .request infra now taken => s.request p t infra now taken
  | .look now => s.look p t now
  | .flush now taken => s.flush p t now taken
  | .release => { s with pli := { s.pli with pending := false } }

end State

/-- The clock is past its zero, and a round of `uplink` is over before the next one. -/
def machine (p : Policy) (t : PubTrack) : Machine State Act where
  ok s a := match a with
    | .request _ now _ => 0 < now
    | .look _ => s.turn = none
    | .flush now _ => 0 < now ∧ s.turn.isSome
    | .release => True
  next := State.next p t

instance (p : Policy) (t : PubTrack) (s : State) : (a : Act) → Decidable ((machine p t).ok s a)
  | .request _ now _ => inferInstanceAs (Decidable (0 < now))
  | .look _ => inferInstanceAs (Decidable (s.turn = none))
  | .flush now _ => inferInstanceAs (Decidable (0 < now ∧ s.turn.isSome))
  | .release => .isTrue trivial

/-! ## What a request does -/

section

variable {p : Policy} {t : PubTrack} {s : State}

/-- A request of video goes on to `emit`, or it is too early and at most remembered. -/
theorem request_cases (hv : t.kind = .video) (infra : Bool) (now : Nat) (taken : Bool) :
    ((s.pli.lastMs = 0 ∨ throttleMs p t ≤ now - s.pli.lastMs) ∧
      s.request p t infra now taken =
        { s with
          pli := ⟨now, false, s.pli.sent + 1⟩
          out := if taken then s.out ++ [now] else s.out }) ∨
    (s.pli.lastMs ≠ 0 ∧ now - s.pli.lastMs < throttleMs p t ∧
      s.request p t infra now taken =
        { s with pli := { s.pli with pending := infra || s.pli.pending } }) := by
  rw [State.request, if_pos hv, PliState.request]
  by_cases h : s.pli.lastMs = 0 ∨ throttleMs p t ≤ now - s.pli.lastMs
  · exact .inl ⟨h, by simp [h]⟩
  · rw [not_or, not_le] at h
    refine .inr ⟨h.1, h.2, ?_⟩
    rw [if_neg (by rw [not_or, not_le]; exact h)]
    cases infra <;> simp

theorem request_other (hv : t.kind ≠ .video) (infra : Bool) (now : Nat) (taken : Bool) :
    s.request p t infra now taken = s := if_neg hv

end

/-! ## The distance -/

/-- What went out is apart, and nothing is later than what the next one is measured from. -/
structure Apart (gap : Nat) (s : State) : Prop where
  spaced : Rate.Spaced gap s.out
  last : ∀ x ∈ s.out.getLast?, 0 < s.pli.lastMs ∧ x ≤ s.pli.lastMs

variable {p : Policy} {t : PubTrack}

theorem Apart.request {s : State} (h : Apart (throttleMs p t) s) (infra : Bool) {now : Nat}
    (hnow : 0 < now) (taken : Bool) :
    Apart (throttleMs p t) (s.request p t infra now taken) := by
  by_cases hv : t.kind = .video
  · rcases request_cases (s := s) (p := p) hv infra now taken with ⟨hdue, heq⟩ | ⟨-, -, heq⟩
    · rw [heq]
      have hlate : ∀ x ∈ s.out.getLast?, x + throttleMs p t ≤ now := by
        intro x hx
        obtain ⟨hpos, hx⟩ := h.last x hx
        have hgap := (throttleMs_bounds p t).1
        rcases hdue with hdue | hdue <;> omega
      cases taken with
      | true => exact ⟨h.spaced.concat hlate, by simp [hnow]⟩
      | false => exact ⟨h.spaced, fun x hx => ⟨hnow, (Nat.le_add_right _ _).trans (hlate x hx)⟩⟩
    · rw [heq]
      exact ⟨h.spaced, h.last⟩
  · rw [request_other hv]
    exact h

theorem Apart.step {s : State} {a : Act} (h : Apart (throttleMs p t) s)
    (hok : (machine p t).ok s a) : Apart (throttleMs p t) ((machine p t).next s a) := by
  cases a with
  | request infra now taken => exact h.request infra hok taken
  | look now => exact ⟨h.spaced, h.last⟩
  | release => exact ⟨h.spaced, h.last⟩
  | flush now taken =>
    change Apart _ (s.flush p t now taken)
    rw [State.flush]
    split_ifs
    · have hreq := h.request true hok.1 taken
      exact ⟨hreq.spaced, hreq.last⟩
    · exact ⟨h.spaced, h.last⟩

/-- **The keyframe requests for a track are apart.** -/
theorem plis_apart {acts : List Act} (hl : (machine p t).Legal {} acts) :
    let s := (machine p t).exec {} acts
    Rate.Spaced (throttleMs p t) s.out ∧
      ∀ l₁ l₂ l₃ a b, s.out = l₁ ++ l₂ ++ l₃ → (∀ x ∈ l₂, a ≤ x ∧ x ≤ b) →
        l₂.length ≤ (b - a) / throttleMs p t + 1 := by
  intro s
  have h : Apart (throttleMs p t) s :=
    Machine.invariant (fun _ _ => Apart.step) ⟨by simp, by simp⟩ hl
  refine ⟨h.spaced, fun l₁ l₂ l₃ a b heq hin => ?_⟩
  have hspaced := h.spaced
  rw [heq] at hspaced
  have hgap : 0 < throttleMs p t := Nat.lt_of_lt_of_le (by decide) (throttleMs_bounds p t).1
  exact (Rate.spaced_append.1 (Rate.spaced_append.1 hspaced).1).2.1.length_le hgap hin

/-! ## The account -/

theorem length_taken (out : List Nat) (now : Nat) (taken : Bool) :
    (if taken then out ++ [now] else out).length = out.length + if taken then 1 else 0 := by
  cases taken <;> simp

/-- What went out, what is remembered, and a round of `uplink` that has found something to make up
for which has gone out in the meantime. -/
def State.account (s : State) : Nat :=
  s.out.length + (if s.pli.pending then 1 else 0) +
    (if s.turn = some true ∧ s.pli.pending = false then 1 else 0)

def Act.requests : Act → Nat
  | .request _ _ _ => 1
  | _ => 0

theorem account_step {s : State} {a : Act} (hok : (machine p t).ok s a) :
    ((machine p t).next s a).account ≤ s.account + a.requests := by
  cases a with
  | request infra now taken =>
    change (s.request p t infra now taken).account ≤ s.account + 1
    by_cases hv : t.kind = .video
    · rcases request_cases (s := s) (p := p) hv infra now taken with ⟨-, heq⟩ | ⟨-, -, heq⟩
      · rw [heq]
        simp only [State.account, length_taken]
        cases taken <;> cases s.pli.pending <;> by_cases ht : s.turn = some true <;>
          simp [ht, Nat.add_assoc]
      · rw [heq]
        simp only [State.account]
        cases s.pli.pending <;> cases infra <;> by_cases ht : s.turn = some true <;> simp [ht]
    · rw [request_other hv]
      exact Nat.le_succ _
  | look now =>
    have hturn : s.turn = none := hok
    change (s.look p t now).account ≤ s.account + 0
    simp only [State.account, State.look, hturn]
    by_cases hp : s.pli.pending = true <;> simp [hp]
  | flush now taken =>
    change (s.flush p t now taken).account ≤ s.account + 0
    rw [State.flush]
    split_ifs with ht
    · by_cases hv : t.kind = .video
      · rcases request_cases (s := s) (p := p) hv true now taken with ⟨-, heq⟩ | ⟨-, -, heq⟩
        · rw [heq]
          simp only [State.account, length_taken, ht]
          cases taken <;> cases s.pli.pending <;> simp
        · rw [heq]
          simp only [State.account, ht]
          cases s.pli.pending <;> simp
      · rw [request_other hv]
        simp only [State.account, ht]
        cases s.pli.pending <;> simp
    · simp only [State.account]
      cases s.pli.pending <;> simp
  | release =>
    change State.account { s with pli := { s.pli with pending := false } } ≤ s.account + 0
    simp only [State.account]
    cases s.pli.pending <;> by_cases ht : s.turn = some true <;> simp [ht]

/-- **No keyframe is asked for that nobody wanted.** -/
theorem pli_for_request {acts : List Act} (hl : (machine p t).Legal {} acts) :
    let s := (machine p t).exec {} acts
    s.out.length + (if s.pli.pending then 1 else 0) ≤ (acts.map Act.requests).sum := by
  suffices hacc : ∀ (acts : List Act) (s : State), (machine p t).Legal s acts →
      ((machine p t).exec s acts).account ≤ s.account + (acts.map Act.requests).sum by
    have h := hacc acts {} hl
    rw [show ({} : State).account = 0 from rfl, Nat.zero_add] at h
    exact (Nat.le_add_right _ _).trans h
  intro acts
  induction acts with
  | nil => exact fun s _ => le_of_eq rfl
  | cons a acts ih =>
    intro s hl
    have h := ih _ hl.2
    have hstep := account_step hl.1
    simp only [Machine.exec_cons, List.map_cons, List.sum_cons]
    omega

/-! ## The answer -/

/-- The request that was made when `n` had gone on to `emit` is answered, or remembered until the
time since the last one is over. -/
structure Waits (n last : Nat) (s : State) : Prop where
  grown : n ≤ s.pli.sent
  waits : s.pli.sent = n → s.pli.pending = true ∧ s.pli.lastMs = last

theorem Waits.request {n last : Nat} {s : State} (h : Waits n last s) (infra : Bool) (now : Nat)
    (taken : Bool) : Waits n last (s.request p t infra now taken) := by
  by_cases hv : t.kind = .video
  · rcases request_cases (s := s) (p := p) hv infra now taken with ⟨-, heq⟩ | ⟨-, -, heq⟩
    · rw [heq]
      have hgrown := h.grown
      exact ⟨Nat.le_succ_of_le hgrown, fun he => absurd he (by dsimp only; omega)⟩
    · rw [heq]
      refine ⟨h.grown, fun he => ?_⟩
      obtain ⟨hp, hlast⟩ := h.waits he
      exact ⟨by simp [hp], hlast⟩
  · rw [request_other hv]
    exact h

theorem Waits.step {n last : Nat} {s : State} (h : Waits n last s) {a : Act} (ha : a ≠ .release) :
    Waits n last ((machine p t).next s a) := by
  cases a with
  | request infra now taken => exact h.request infra now taken
  | look now => exact ⟨h.grown, h.waits⟩
  | release => exact absurd rfl ha
  | flush now taken =>
    change Waits n last (s.flush p t now taken)
    rw [State.flush]
    split_ifs
    · have hreq : Waits n last (s.request p t true now taken) := h.request true now taken
      exact ⟨hreq.grown, hreq.waits⟩
    · exact ⟨h.grown, h.waits⟩

theorem Waits.exec {n last : Nat} {s : State} (h : Waits n last s) {acts : List Act}
    (hno : .release ∉ acts) : Waits n last ((machine p t).exec s acts) := by
  induction acts generalizing s with
  | nil => exact h
  | cons a acts ih =>
    refine ih (h.step fun e => hno (e ▸ List.mem_cons_self)) ?_
    exact fun hm => hno (List.mem_cons_of_mem a hm)

/-- A request of the server has gone on or is remembered. -/
theorem waits_request (hv : t.kind = .video) (s : State) (now : Nat) (taken : Bool) :
    Waits s.pli.sent s.pli.lastMs (s.request p t true now taken) := by
  rcases request_cases (s := s) (p := p) hv true now taken with ⟨-, heq⟩ | ⟨-, -, heq⟩
  · rw [heq]
    exact ⟨Nat.le_succ _, fun he => absurd he (Nat.succ_ne_self _)⟩
  · rw [heq]
    exact ⟨le_rfl, fun _ => ⟨rfl, rfl⟩⟩

/-- `emit` drops nothing in this step. -/
def Act.takes : Act → Bool
  | .request _ _ taken | .flush _ taken => taken
  | .look _ | .release => true

/-- What goes on from a step, and what goes out. -/
structure Sends (s s' : State) (takes : Bool) : Prop where
  sent : s.pli.sent ≤ s'.pli.sent
  out : takes = true → s'.out.length + s.pli.sent = s.out.length + s'.pli.sent

theorem Sends.refl (s : State) (takes : Bool) : Sends s s takes := ⟨le_rfl, fun _ => rfl⟩

theorem sends_request (s : State) (infra : Bool) (now : Nat) (taken : Bool) :
    Sends s (s.request p t infra now taken) taken := by
  by_cases hv : t.kind = .video
  · rcases request_cases (s := s) (p := p) hv infra now taken with ⟨-, heq⟩ | ⟨-, -, heq⟩
    · rw [heq]
      refine ⟨Nat.le_succ _, fun ht => ?_⟩
      rw [length_taken, ht, if_pos rfl]
      dsimp only
      omega
    · rw [heq]
      exact ⟨le_rfl, fun _ => rfl⟩
  · rw [request_other hv]
    exact .refl s taken

theorem sends_step (s : State) (a : Act) : Sends s ((machine p t).next s a) a.takes := by
  cases a with
  | request infra now taken => exact sends_request s infra now taken
  | look now => exact ⟨le_rfl, fun _ => rfl⟩
  | release => exact ⟨le_rfl, fun _ => rfl⟩
  | flush now taken =>
    change Sends s (s.flush p t now taken) taken
    rw [State.flush]
    split_ifs
    · have hreq : Sends s (s.request p t true now taken) taken := sends_request s true now taken
      exact ⟨hreq.sent, hreq.out⟩
    · exact ⟨le_rfl, fun _ => rfl⟩

/-- Where `emit` drops nothing, all that goes on goes out. -/
theorem sends_exec (s : State) (acts : List Act) :
    Sends s ((machine p t).exec s acts) (acts.all Act.takes) := by
  induction acts generalizing s with
  | nil => exact .refl s true
  | cons a acts ih =>
    have hstep := sends_step (p := p) (t := t) s a
    have hrest := ih ((machine p t).next s a)
    refine ⟨hstep.sent.trans hrest.sent, fun h => ?_⟩
    rw [List.all_cons, Bool.and_eq_true] at h
    have hout := hstep.out h.1
    have hout' := hrest.out h.2
    rw [Machine.exec_cons]
    omega

/-- Between the halves of a round there are only requests. -/
theorem turn_requests {s : State} {acts : List Act} (hr : ∀ a ∈ acts, a.requests = 1) :
    ((machine p t).exec s acts).turn = s.turn := by
  induction acts generalizing s with
  | nil => rfl
  | cons a acts ih =>
    rw [Machine.exec_cons, ih fun b hb => hr b (List.mem_cons_of_mem a hb)]
    cases a with
    | request infra now taken =>
      change (s.request p t infra now taken).turn = s.turn
      by_cases hv : t.kind = .video
      · rcases request_cases (s := s) (p := p) hv infra now taken with ⟨-, heq⟩ | ⟨-, -, heq⟩
        · rw [heq]
        · rw [heq]
      · rw [request_other hv]
    | look now => exact absurd (hr _ List.mem_cons_self) (by simp [Act.requests])
    | flush now => exact absurd (hr _ List.mem_cons_self) (by simp [Act.requests])
    | release => exact absurd (hr _ List.mem_cons_self) (by simp [Act.requests])

/-- A round of `uplink` makes up for what is remembered, once the time since the last one is
over. -/
theorem round_answers (hv : t.kind = .video) {n last : Nat} {s : State} (hw : Waits n last s)
    {l : List Act} (hr : ∀ a ∈ l, a.requests = 1) {look flush : Nat} (taken : Bool)
    (hlook : throttleMs p t ≤ look - last) (hflush : look ≤ flush) :
    n < ((machine p t).exec s (.look look :: l ++ [.flush flush taken])).pli.sent := by
  rw [List.cons_append, Machine.exec_cons, Machine.exec_append, Machine.exec_cons]
  set s' := (machine p t).exec ((machine p t).next s (.look look)) l
  have hno : .release ∉ l := fun hm => absurd (hr _ hm) (by decide)
  have hw' : Waits n last s' := (hw.step (by simp)).exec hno
  have hturn : s'.turn = (s.look p t look).turn := turn_requests hr
  have hgrow := (sends_exec (p := p) (t := t) ((machine p t).next s (.look look)) l).sent
  change n < (s'.flush p t flush taken).pli.sent
  rcases Nat.eq_or_lt_of_le hw'.grown with he | hlt
  · -- It still waits, so it waited when `uplink` looked.
    obtain ⟨-, hlast⟩ := hw'.waits he.symm
    have hsent : s.pli.sent = n := Nat.le_antisymm (he ▸ hgrow) hw.grown
    obtain ⟨hp, hlast'⟩ := hw.waits hsent
    have htrue : s'.turn = some true := by
      rw [hturn, State.look]
      simp [hv, hp, hlast', hlook]
    rw [State.flush, if_pos htrue]
    rcases request_cases (s := s') (p := p) hv true flush taken with ⟨-, heq⟩ | ⟨-, hearly, -⟩
    · rw [heq]
      exact Nat.lt_succ_of_le hw'.grown
    · rw [hlast] at hearly
      omega
  · exact hlt.trans_le (sends_step (p := p) (t := t) s' (.flush flush taken)).sent

/-- **A request of the server is answered** by a keyframe request that goes on to `emit` after it,
at the latest in the first round of `uplink` that starts when the time since the last one is over,
if the floor is not released before. It goes out where `emit` drops nothing. -/
theorem request_answered (hv : t.kind = .video) {l₁ l₂ l₃ l₄ : List Act} {now look flush : Nat}
    {taken made : Bool} (hno : .release ∉ l₂) (hr : ∀ a ∈ l₃, a.requests = 1)
    (hlook : throttleMs p t ≤ look - ((machine p t).exec {} l₁).pli.lastMs)
    (hflush : look ≤ flush) :
    let l := .request true now taken :: l₂ ++ .look look :: l₃ ++ .flush flush made :: l₄
    ((machine p t).exec {} l₁).pli.sent < ((machine p t).exec {} (l₁ ++ l)).pli.sent ∧
      (l.all Act.takes = true →
        ((machine p t).exec {} l₁).out.length < ((machine p t).exec {} (l₁ ++ l)).out.length) := by
  intro l
  rw [Machine.exec_append]
  set s := (machine p t).exec {} l₁
  have hsent : s.pli.sent < ((machine p t).exec s l).pli.sent := by
    have hw : Waits s.pli.sent s.pli.lastMs
        ((machine p t).exec s (.request true now taken :: l₂)) :=
      (waits_request hv s now taken).exec hno
    have hround := round_answers hv hw hr made hlook hflush
    have hsplit : l = (.request true now taken :: l₂) ++
        ((.look look :: l₃ ++ [.flush flush made]) ++ l₄) := by simp [l]
    rw [hsplit, Machine.exec_append, Machine.exec_append]
    exact hround.trans_le (sends_exec _ l₄).sent
  refine ⟨hsent, fun htakes => ?_⟩
  have hout := (sends_exec (p := p) (t := t) s l).out htakes
  omega

/-- Two requests of the server in a row: the second waits for a round of `uplink`. -/
def twoRequests : List Act :=
  [.request true 100 true, .request true 200 true, .look 600, .flush 600 true, .look 1100,
    .flush 1100 true]

def camera : PubTrack := { kind := .video, rid := some 1 }

theorem plis_apart_two : let s := (machine {} camera).exec {} twoRequests
    Rate.Spaced (throttleMs {} camera) s.out ∧
      ∀ l₁ l₂ l₃ a b, s.out = l₁ ++ l₂ ++ l₃ → (∀ x ∈ l₂, a ≤ x ∧ x ≤ b) →
        l₂.length ≤ (b - a) / throttleMs {} camera + 1 := by
  have hl : (machine {} camera).Legal {} twoRequests := by decide
  exact plis_apart hl

theorem pli_for_request_two : ((machine {} camera).exec {} twoRequests).out.length + 0 ≤ 2 := by
  have hl : (machine {} camera).Legal {} twoRequests := by decide
  exact pli_for_request hl

theorem request_answered_two :
    ((machine {} camera).exec {} [.request true 100 true]).out.length <
      ((machine {} camera).exec {} twoRequests).out.length := by
  have hlook : throttleMs {} camera ≤
      1100 - ((machine {} camera).exec {} [.request true 100 true]).pli.lastMs := by decide
  have hr : ∀ a ∈ ([] : List Act), a.requests = 1 := by decide
  exact (@request_answered {} camera rfl [.request true 100 true] [.look 600, .flush 600 true] []
    [] 200 1100 1100 true true (by decide) hr hlook (le_refl 1100)).2 (by decide)

/-- What `emit` drops is not made up for. -/
example : ((machine {} camera).exec {}
    [.request true 100 false, .look 1100, .flush 1100 true]).out = [] := by decide

end OxlensSfu.Pli
