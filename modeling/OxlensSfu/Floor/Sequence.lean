import OxlensSfu.Floor.Agreement

/-!
# Message numbers

`TAKEN` and `IDLE` carry a 16-bit number. A single message takes the next one; a broadcast takes
one and every recipient's message is to carry it. Inside the code the number of a broadcast
travels in the field `d`, where 0 means "take the next number", so a broadcast that is given the
number 0 numbers its messages one by one (`Op.Wraps`). That happens once in 65536 numbers.

The numbers of a run are kept as a history of numbering events (`Step.events`): one for each
broadcast, with the numbers of its messages, and one for each single message.
-/

namespace OxlensSfu.Flr

open Std

/-! ## Numbering events -/

/-- The numbers of the `TAKEN` and `IDLE` messages of a step. -/
def Step.numbers (r : Step) : List Nat := (r.out.filter (·.m.t.seqd)).map (·.m.q)

/-- What an operation broadcasts: `TAKEN` when it binds the media to a new holder, `IDLE` when it
releases them, and `IDLE` again on T7. -/
def Step.cast (r : Step) (o : Op) : Option Mt :=
  match r.fx with
  | .bind _ :: _ => some .taken
  | .release _ :: _ => some .idle
  | [] => if o = .t7 then some .idle else none

/-- The numbering events of an operation, each with the numbers of its messages. -/
def Step.events (r : Step) (o : Op) : List (List Nat) :=
  if (r.cast o).isSome then [r.numbers] else r.numbers.map fun q => [q]

/-- The history of a run. -/
def numberings (h : List (List Nat)) (f : Floor) (o : Op) : List (List Nat) :=
  h ++ (f.apply o).r.events o

def nextSeq (n : Nat) : Nat := (n + 1) % seqWrap

/-- A member in this state is sent a message when `t` is broadcast. -/
def told (t : Mt) : Option P → Bool
  | some .npIdle | some .npTaken | some .prevoke => true
  | some .permitted => t == .taken
  | _ => false

/-- Somebody is sent a message when the operation broadcasts `t`. The new speaker hears of its
grant in another way. -/
def Floor.Heard (f : Floor) (o : Op) (t : Mt) : Prop :=
  ∃ u ∈ f.members, (t = .taken → (f.apply o).fl.speaker ≠ some u) ∧ told t (f.partOf u)

/-- The operation makes a broadcast that somebody hears while the last number is 65535. -/
def Op.Wraps (f : Floor) (o : Op) : Prop :=
  f.seq = seqWrap - 1 ∧ ∃ t, (f.apply o).r.cast o = some t ∧ f.Heard o t

/-! ## The helpers -/

namespace St

def numbers (s : St) : List Nat := s.r.numbers

/-- No number is taken, none is sent, and there is no effect. -/
structure Mute (s s' : St) : Prop where
  seq : s'.fl.seq = s.fl.seq
  numbers : s'.numbers = s.numbers
  fx : s'.r.fx = s.r.fx

namespace Mute

theorem refl (s : St) : Mute s s := ⟨rfl, rfl, rfl⟩

theorem trans {s t w : St} (h : Mute s t) (h' : Mute t w) : Mute s w :=
  ⟨h'.seq.trans h.seq, h'.numbers.trans h.numbers, h'.fx.trans h.fx⟩

theorem label (s : St) (l : String) : Mute s (s.label l) := ⟨rfl, rfl, rfl⟩

theorem p (s : St) (u : String) (f : Part → Part) : Mute s (s.p u f) := ⟨rfl, rfl, rfl⟩

theorem dequeue (s : St) (u : String) : Mute s (s.dequeue u) := ⟨rfl, rfl, rfl⟩

theorem insertQ (s : St) (w : Waiter) : Mute s (s.insertQ w) := ⟨rfl, rfl, rfl⟩

theorem send (s : St) (u : String) {t : Mt} (a : Option String) (n d : Nat)
    (ht : t.seqd = false) : Mute s (s.send u t a n d) := by
  refine ⟨?_, ?_, ?_⟩
  · simp [St.send, ht]
  · simp [St.numbers, Step.numbers, St.send, ht]
  · rfl

theorem enterR (s : St) (u : String) (st : P) : Mute s (s.enterR u st) := by
  cases st <;> exact (p s u _).trans (label _ _)

theorem sendE (s : St) (u : String) (st : P) {m : Msg} (hm : m.t.seqd = false) :
    Mute s (s.sendE u st m) := (enterR s u st).trans (send _ _ _ _ _ hm)

theorem partA (s : St) (u : String) (ev : Msg) (h : ev.t.seqd = false) :
    Mute s (s.partA u ev) := by
  rw [St.partA]
  split
  -- Peel the helpers of each branch from its end; what it sends carries no number.
  all_goals repeat' first
    | with_reducible exact label _ _
    | with_reducible refine trans ?_ (send _ _ _ _ _ ?_)
    | with_reducible refine trans ?_ (sendE _ _ _ ?_)
    | with_reducible refine trans ?_ (enterR _ _ _)
    | with_reducible refine trans ?_ (p _ _ _)
  all_goals first
    | rfl
    | simp_all [Mt.seqd]

end Mute

/-- A message with a number: the next one if it comes without. -/
theorem send_numbers (s : St) (u : String) {t : Mt} (a : Option String) (n d : Nat)
    (ht : t.seqd = true) :
    (s.send u t a n d).numbers =
        s.numbers ++ [if d = 0 then nextSeq s.fl.seq else d] ∧
      (s.send u t a n d).fl.seq = if d = 0 then nextSeq s.fl.seq else s.fl.seq := by
  by_cases hd : d = 0
  · simp [St.numbers, Step.numbers, St.send, ht, hd, nextSeq]
  · simp [St.numbers, Step.numbers, St.send, ht, hd]

/-- A message that follows mute steps. -/
theorem send_numbers_of_mute {s s₀ : St} (h : Mute s s₀) (u : String) {t : Mt}
    (a : Option String) (n d : Nat) (ht : t.seqd = true) :
    (s₀.send u t a n d).numbers =
        s.numbers ++ [if d = 0 then nextSeq s.fl.seq else d] ∧
      (s₀.send u t a n d).fl.seq = if d = 0 then nextSeq s.fl.seq else s.fl.seq := by
  have hs := s₀.send_numbers u a n d ht
  rwa [h.seq, h.numbers] at hs

/-- A broadcast reaches `u`: it is sent a message if its state is told, and nothing otherwise. -/
theorem partA_numbers (s : St) (u : String) {ev : Msg} (ht : ev.t = .taken ∨ ev.t = .idle) :
    (told ev.t (s.fl.partOf u) = true ∧
      (s.partA u ev).numbers =
        s.numbers ++ [if ev.q = 0 then nextSeq s.fl.seq else ev.q] ∧
      (s.partA u ev).fl.seq = if ev.q = 0 then nextSeq s.fl.seq else s.fl.seq) ∨
    (told ev.t (s.fl.partOf u) = false ∧ Mute s (s.partA u ev)) := by
  obtain ⟨t, a, n, d, q⟩ := ev
  rcases ht with ht | ht
  · obtain rfl : t = .taken := ht
    rcases hp : s.fl.partOf u with _ | (_ | _ | _ | _ | _ | _) <;>
      simp only [St.partA, hp, St.sendE]
    case none => exact .inr ⟨rfl, (Mute.label _ _).trans (Mute.p _ _ _)⟩
    case some.npSends => exact .inr ⟨rfl, (Mute.label _ _).trans (Mute.p _ _ _)⟩
    case some.releasing => exact .inr ⟨rfl, Mute.label _ _⟩
    case some.npTaken =>
      exact .inl ⟨rfl, send_numbers_of_mute ((Mute.label _ _).trans (Mute.p _ _ _)) u _ _ _ rfl⟩
    all_goals
      exact .inl ⟨rfl, send_numbers_of_mute ((Mute.label _ _).trans (Mute.enterR _ _ _)) u _ _ _
        rfl⟩
  · obtain rfl : t = .idle := ht
    rcases hp : s.fl.partOf u with _ | (_ | _ | _ | _ | _ | _) <;>
      simp only [St.partA, hp, St.sendE]
    case none => exact .inr ⟨rfl, (Mute.label _ _).trans (Mute.p _ _ _)⟩
    case some.npSends => exact .inr ⟨rfl, (Mute.label _ _).trans (Mute.p _ _ _)⟩
    case some.releasing => exact .inr ⟨rfl, Mute.label _ _⟩
    case some.permitted => exact .inr ⟨rfl, (Mute.label _ _).trans (Mute.enterR _ _ _)⟩
    case some.npIdle => exact .inl ⟨rfl, send_numbers_of_mute (Mute.label _ _) u _ _ _ rfl⟩
    all_goals
      exact .inl ⟨rfl, send_numbers_of_mute ((Mute.label _ _).trans (Mute.enterR _ _ _)) u _ _ _
        rfl⟩

/-- Hearing of an event changes nobody else's state. -/
theorem partOf_partA (s : St) {u x : String} (ev : Msg) (h : x ≠ u) :
    (s.partA u ev).fl.partOf x = s.fl.partOf x := by
  rw [Floor.partOf_eq, Floor.partOf_eq]
  have hv : (s.partA u ev).view.part x = s.view.part x := by
    rw [view_partA, View.hear, View.upd_part_ne _ _ h]
  exact congrArg Part.part hv

/-! ## Broadcasts -/

/-- What is known after a broadcast with number `n`; `heard` says whether anybody is told. -/
structure Cast (n : Nat) (heard : Prop) (s : St) : Prop where
  same : n ≠ 0 → s.fl.seq = n ∧ ∀ q ∈ s.numbers, q = n
  unheard : n = 0 → ¬ heard → s.fl.seq = 0 ∧ s.numbers = []
  wrapped : n = 0 → heard → 1 ∈ s.numbers

theorem foldl_same (ev : Msg) (ht : ev.t = .taken ∨ ev.t = .idle) (hq : ev.q ≠ 0)
    (l : List String) (s : St) (hs : ∀ q ∈ s.numbers, q = ev.q) :
    (l.foldl (fun s u => s.partA u ev) s).fl.seq = s.fl.seq ∧
      ∀ q ∈ (l.foldl (fun s u => s.partA u ev) s).numbers, q = ev.q := by
  induction l generalizing s with
  | nil => exact ⟨rfl, hs⟩
  | cons x l ih =>
    rw [List.foldl_cons]
    rcases s.partA_numbers x ht with ⟨-, hn, hseq⟩ | ⟨-, hm⟩
    · rw [if_neg hq] at hn hseq
      rw [← hseq]
      refine ih _ ?_
      intro q hqm
      rw [hn] at hqm
      rcases List.mem_append.1 hqm with hqm | hqm
      · exact hs q hqm
      · exact List.mem_singleton.1 hqm
    · rw [← hm.seq]
      exact ih _ (hm.numbers ▸ hs)

theorem foldl_keeps {ev : Msg} (ht : ev.t = .taken ∨ ev.t = .idle) (l : List String) (s : St)
    {q : Nat} (hq : q ∈ s.numbers) :
    q ∈ (l.foldl (fun s u => s.partA u ev) s).numbers := by
  induction l generalizing s with
  | nil => exact hq
  | cons x l ih =>
    refine ih _ ?_
    rcases s.partA_numbers x ht with ⟨-, hn, -⟩ | ⟨-, hm⟩
    · exact hn ▸ List.mem_append_left _ hq
    · exact hm.numbers ▸ hq

/-- A broadcast with number 0: the first message takes the number 1 for itself. -/
theorem foldl_zero (ev : Msg) (ht : ev.t = .taken ∨ ev.t = .idle) (hq : ev.q = 0)
    (l : List String) (s : St) (hl : l.Nodup) (hs : s.fl.seq = 0) :
    ((∃ u ∈ l, told ev.t (s.fl.partOf u) = true) →
      1 ∈ (l.foldl (fun s u => s.partA u ev) s).numbers) ∧
    ((¬ ∃ u ∈ l, told ev.t (s.fl.partOf u) = true) →
      Mute s (l.foldl (fun s u => s.partA u ev) s)) := by
  induction l generalizing s with
  | nil => exact ⟨by simp, fun _ => Mute.refl s⟩
  | cons x l ih =>
    obtain ⟨hx, hl⟩ := List.nodup_cons.1 hl
    have hrest : ∀ u ∈ l, (s.partA x ev).fl.partOf u = s.fl.partOf u := fun u hu =>
      s.partOf_partA ev fun e => hx (e ▸ hu)
    rw [List.foldl_cons]
    rcases s.partA_numbers x ht with ⟨htold, hn, -⟩ | ⟨htold, hm⟩
    · refine ⟨fun _ => foldl_keeps ht l _ ?_, ?_⟩
      · rw [hn, if_pos hq, hs]
        exact List.mem_append_right _ (by decide)
      · intro hno
        exact absurd ⟨x, List.mem_cons_self, htold⟩ hno
    · obtain ⟨h₁, h₂⟩ := ih (s.partA x ev) hl (hm.seq.trans hs)
      refine ⟨?_, fun hno => hm.trans (h₂ ?_)⟩
      · intro hex
        obtain ⟨u, hu, hut⟩ := hex
        rcases List.mem_cons.1 hu with rfl | hu
        · rw [htold] at hut
          simp at hut
        · exact h₁ ⟨u, hu, (hrest u hu).symm ▸ hut⟩
      · intro hex
        obtain ⟨u, hu, hut⟩ := hex
        exact hno ⟨u, List.mem_cons_of_mem _ hu, hrest u hu ▸ hut⟩

theorem fan_cast (s : St) (ev : Msg) (skip : Option String)
    (ht : ev.t = .taken ∨ ev.t = .idle) (hs : s.numbers = []) :
    Cast (nextSeq s.fl.seq)
      (∃ u ∈ s.fl.members, some u ≠ skip ∧ told ev.t (s.fl.partOf u) = true) (s.fan ev skip) := by
  have hseqd : ev.t.seqd = true := by rcases ht with h | h <;> rw [h] <;> rfl
  let s₁ : St := { s with fl := { s.fl with seq := nextSeq s.fl.seq } }
  let ev₁ : Msg := { ev with q := nextSeq s.fl.seq }
  let rest := s.fl.members.toList.filter fun x => some x ≠ skip
  have hfan : s.fan ev skip = rest.foldl (fun s u => s.partA u ev₁) s₁ := by
    simp only [St.fan, St.numbered, hseqd, if_true]
    rfl
  have hnodup : rest.Nodup := (members_nodup _).filter _
  have hheard : (∃ u ∈ rest, told ev₁.t (s₁.fl.partOf u) = true) ↔
      ∃ u ∈ s.fl.members, some u ≠ skip ∧ told ev.t (s.fl.partOf u) = true := by
    simp only [rest, List.mem_filter, TreeSet.mem_toList, decide_eq_true_eq, and_assoc]
    rfl
  rw [hfan, ← hheard]
  refine ⟨?_, ?_, ?_⟩
  · intro hn
    exact foldl_same ev₁ ht hn rest s₁ (by simp [show s₁.numbers = [] from hs])
  · intro hn hno
    have hm := (foldl_zero ev₁ ht hn rest s₁ hnodup hn).2 hno
    exact ⟨hm.seq.trans hn, hm.numbers.trans hs⟩
  · intro hn hyes
    exact (foldl_zero ev₁ ht hn rest s₁ hnodup hn).1 hyes

/-! ## Before and after a broadcast -/

/-- `s` is on the way from `f` to its only broadcast: nothing was numbered yet, and who is told is
still decided by the states in `f`. -/
structure Before (f : Floor) (s : St) : Prop where
  seq : s.fl.seq = f.seq
  numbers : s.numbers = []
  fx : s.r.fx = []
  members : s.fl.members = f.members
  part : ∀ u, s.fl.partOf u = f.partOf u

namespace Before

variable {f : Floor} {s : St}

theorem start (f : Floor) : Before f f.start := ⟨rfl, rfl, rfl, rfl, fun _ => rfl⟩

theorem label (h : Before f s) (l : String) : Before f (s.label l) := ⟨h.1, h.2, h.3, h.4, h.5⟩

theorem setPrev (h : Before f s) (u : Option String) : Before f (s.setPrev u) :=
  ⟨h.1, h.2, h.3, h.4, h.5⟩

theorem p (h : Before f s) (u : String) {k : Part → Part}
    (hk : ∀ p, (k p).part = p.part) : Before f (s.p u k) := by
  refine ⟨h.1, h.2, h.3, h.4, ?_⟩
  intro x
  rw [← h.part x, Floor.partOf_eq, Floor.partOf_eq]
  have hv : (s.p u k).fl.part x = (s.view.upd u k).part x := by rw [← view_p]; rfl
  rw [hv]
  by_cases hx : x = u
  · subst hx
    rw [View.upd_part_self]
    exact hk _
  · rw [View.upd_part_ne _ _ hx]
    rfl

theorem send (h : Before f s) (u : String) {t : Mt} (a : Option String) (n d : Nat)
    (ht : t.seqd = false) : Before f (s.send u t a n d) :=
  ⟨(Mute.send s u a n d ht).seq.trans h.1, (Mute.send s u a n d ht).numbers.trans h.2, h.3, h.4,
    h.5⟩

end Before

/-- An operation of `f` has made its broadcast: `IDLE` to all members, or `TAKEN` to all but the
new speaker. -/
inductive HasCast (f : Floor) (s : St) : Prop
  | idle (prev : Option String) : s.r.fx = [.release prev] →
      Cast (nextSeq f.seq) (∃ u ∈ f.members, told .idle (f.partOf u) = true) s → HasCast f s
  | taken (u : String) : s.r.fx = [.bind u] →
      Cast (nextSeq f.seq) (∃ x ∈ f.members, s.fl.speaker ≠ some x ∧
        told .taken (f.partOf x) = true) s → HasCast f s

/-- What comes after the broadcast does not touch it. -/
theorem HasCast.congr {f : Floor} {s s' : St} (h : HasCast f s) (hm : Mute s s')
    (hs : s'.fl.speaker = s.fl.speaker) : HasCast f s' := by
  have hcast : ∀ {n : Nat} {heard : Prop}, Cast n heard s → Cast n heard s' := by
    rintro n heard ⟨h₁, h₂, h₃⟩
    exact ⟨hm.seq ▸ hm.numbers ▸ h₁, hm.seq ▸ hm.numbers ▸ h₂, hm.numbers ▸ h₃⟩
  cases h with
  | idle prev hfx hc => exact .idle prev (hm.fx.trans hfx) (hcast hc)
  | taken u hfx hc => exact .taken u (hm.fx.trans hfx) (hs ▸ hcast hc)

theorem Cast.congr_heard {n : Nat} {heard heard' : Prop} {s : St} (h : Cast n heard s)
    (he : heard ↔ heard') : Cast n heard' s :=
  ⟨h.same, fun hn hno => h.unheard hn fun hy => hno (he.1 hy), fun hn hy => h.wrapped hn (he.2 hy)⟩

theorem Before.enterTaken {f : Floor} {s : St} (h : Before f s) {u : String}
    (hs : s.fl.speaker = some u) : HasCast f s.enterTaken := by
  have hu : s.fl.speaker.getD "" = u := by rw [hs]; rfl
  let s₁ : St := { s.label "FLR.S.G.TAKEN.enter" with fl := { s.fl with idleBcast := false } }
  let ev : Msg := { t := .granted, n := s.fl.sprio, d := s.fl.t2Full }
  let s₂ := s₁.partA u ev
  have hmute : Mute s s₂ := Mute.trans (t := s₁) ⟨rfl, rfl, rfl⟩ (Mute.partA s₁ u ev rfl)
  obtain ⟨⟨P, q, e⟩, -⟩ := Same.partA s₁ u ev
  have hcast := s₂.fan_cast { t := .taken, a := some u } (some u) (.inl rfl)
    (hmute.numbers.trans h.numbers)
  obtain ⟨⟨P', q', e'⟩, hfx⟩ := s.enterTaken_fl
  refine .taken u (by rw [hfx, h.fx, hu]; rfl) ?_
  have hspeaker : s.enterTaken.fl.speaker = some u := by rw [e']; exact hs
  have hrun : s.enterTaken = (s₂.fan { t := .taken, a := some u } (some u)).fx (.bind u) := by
    subst hu
    rfl
  rw [hmute.seq, h.seq] at hcast
  rw [hspeaker, hrun]
  refine Cast.congr_heard (s := St.fx _ _) ⟨hcast.same, hcast.unheard, hcast.wrapped⟩ ?_
  rw [show s₂.fl.members = f.members by rw [e]; exact h.members]
  refine exists_congr fun x => and_congr_right ?_
  intro _
  refine ⟨?_, ?_⟩
  · intro hx
    obtain ⟨hne, ht⟩ := hx
    refine ⟨Ne.symm hne, ?_⟩
    rwa [partOf_partA s₁ ev fun hx => hne (by rw [hx]), show s₁.fl.partOf x = f.partOf x from
      h.part x] at ht
  · intro hx
    obtain ⟨hne, ht⟩ := hx
    refine ⟨Ne.symm hne, ?_⟩
    rwa [partOf_partA s₁ ev fun hx => hne (by rw [hx]), show s₁.fl.partOf x = f.partOf x from
      h.part x]

theorem Before.idleEnter {f : Floor} {s : St} (h : Before f s) : HasCast f s.idleEnter := by
  cases hq : s.fl.queue with
  | nil =>
    let s₁ : St := { s.label "FLR.S.G.IDLE.enter_empty" with fl := { s.fl with
      g := .idle, speaker := none, revoking := none, firstRtp := false, idleBcast := true,
      c7 := 1 } }
    have hcast := s₁.fan_cast { t := .idle, a := s.fl.prev } none (.inr rfl) h.numbers
    refine .idle s.fl.prev (by rw [(St.idleEnter_fl_nil hq).2, h.fx]; rfl) ?_
    have hrun : s.idleEnter =
        (s₁.fan { t := .idle, a := s.fl.prev } none).fx (.release s.fl.prev) := by
      rw [St.idleEnter, hq]
      rfl
    rw [hrun]
    rw [show s₁.fl.seq = f.seq from h.seq] at hcast
    refine Cast.congr_heard (s := St.fx _ _) ⟨hcast.same, hcast.unheard, hcast.wrapped⟩ ?_
    rw [show s₁.fl.members = f.members from h.members]
    refine exists_congr fun x => and_congr_right ?_
    intro _
    rw [show s₁.fl.partOf x = f.partOf x from h.part x]
    simp
  | cons w ws =>
    rw [St.idleEnter, hq]
    exact Before.enterTaken (u := w.u) ⟨h.seq, h.numbers, h.fx, h.members, h.part⟩ rfl

/-! ## What an operation numbers -/

/-- An operation of `f` numbers nothing, one message, or one broadcast. -/
inductive Tally (f : Floor) (s : St) : Prop
  | quiet : Mute f.start s → Tally f s
  | single : s.fl.seq = nextSeq f.seq → s.numbers = [nextSeq f.seq] → s.r.fx = [] → Tally f s
  | cast : HasCast f s → Tally f s

theorem Before.mute {f : Floor} {s : St} (h : Before f s) : Mute f.start s :=
  ⟨h.seq, h.numbers, h.fx⟩

/-- A single message that takes the next number. -/
theorem Mute.single {f : Floor} {s : St} (h : Mute f.start s) (u : String) {t : Mt}
    (a : Option String) (n : Nat) (ht : t.seqd = true) : Tally f (s.send u t a n 0) := by
  obtain ⟨hn, hseq⟩ := send_numbers_of_mute h u a n 0 ht
  exact .single hseq hn h.fx

section Ops

variable {f : Floor} {s : St} {u : String}

theorem arbReqIdle_tally (h : Before f s) (u : String) (p : Nat) : Tally f (s.arbReqIdle u p) := by
  rw [St.arbReqIdle]
  split_ifs
  · exact .quiet (h.label _).mute
  · exact .quiet ((h.label _).mute.trans (Mute.partA _ _ _ rfl))
  · exact .quiet ((h.label _).mute.trans (Mute.partA _ _ _ rfl))
  · exact .cast (Before.enterTaken (u := u) ⟨h.seq, h.numbers, h.fx, h.members, h.part⟩ rfl)

theorem arbRel_tally (h : Before f s) (u : String) : Tally f (s.arbRel u) := by
  rw [St.arbRel]
  split_ifs
  · exact .cast ((h.label _).setPrev _).idleEnter
  · exact .cast ((h.label _).setPrev _).idleEnter
  · exact .quiet (h.label _).mute

theorem Mute.prevokeEnter (s : St) (u : String) (cause : Nat) :
    Mute s (s.prevokeEnter u cause) :=
  Mute.trans (t := { s.label "FLR.S.G.PREVOKE.enter" with fl := { s.fl with
    g := .prevoke, revoking := some u, rprio := s.fl.sprio, rcauseG := cause,
    speaker := none } }) ⟨rfl, rfl, rfl⟩ (Mute.partA _ _ _ rfl)

theorem Mute.revoke3 (s : St) (u : String) : Mute s (s.revoke3 u) :=
  (Mute.p _ _ _).trans ((Mute.enterR _ _ _).trans (Mute.send _ _ _ _ _ rfl))

theorem Mute.arbRtp (s : St) (u : String) : Mute s (s.arbRtp u) := by
  rw [St.arbRtp]
  split_ifs <;> exact ⟨rfl, rfl, rfl⟩

theorem Mute.arbReqPermitted (s : St) (u : String) (d : Nat) :
    Mute s (s.arbReqPermitted u d) := by
  rw [St.arbReqPermitted]
  split_ifs
  · exact (Mute.label _ _).trans (Mute.partA _ _ _ rfl)
  · exact Mute.label _ _

theorem Mute.arbPreempt (s : St) (u : String) (p : Nat) : Mute s (s.arbPreempt u p) := by
  rw [St.arbPreempt]
  split_ifs
  · refine Mute.trans (t := { s.label "FLR.S.G.TAKEN.preempt" with
      fl := { s.fl with queue := ⟨u, p, true⟩ :: s.fl.queue } }) ⟨rfl, rfl, rfl⟩ ?_
    exact (Mute.prevokeEnter _ _ _).trans (Mute.partA _ _ _ rfl)
  · exact Mute.label _ _

theorem Mute.takenReq (s : St) (u : String) (p : Nat) : Mute s (s.takenReq u p) := by
  rw [St.takenReq]
  split_ifs
  · exact (Mute.label _ _).trans (Mute.send _ _ _ _ _ rfl)
  · exact (Mute.label _ _).trans (Mute.send _ _ _ _ _ rfl)
  · exact (Mute.label _ _).trans (Mute.arbPreempt _ _ _)
  · exact Mute.label _ _
  · exact (Mute.label _ _).trans (Mute.send _ _ _ _ _ rfl)
  · exact ((Mute.label _ _).trans (Mute.insertQ _ _)).trans (Mute.send _ _ _ _ _ rfl)

theorem partC_tally (f : Floor) (u : String) (ev : Msg) (d : Nat) :
    Tally f (f.start.partC u ev d) := by
  have h := Before.start f
  have hl : ∀ l, Mute f.start (f.start.label l) := Mute.label _
  rw [St.partC]
  split
  · exact arbReqIdle_tally (h.label _) u _
  · exact Mute.single (((hl _).trans (Mute.send _ _ _ _ _ rfl)).trans (Mute.dequeue _ _)) u _ _ rfl
  · split_ifs
    · exact .quiet ((hl _).trans (Mute.revoke3 _ _))
    · exact .quiet (hl _)
  · exact .quiet (hl _)
  · exact .quiet ((hl _).trans (Mute.takenReq _ _ _))
  · exact Mute.single ((((hl _).trans (Mute.send _ _ _ _ _ rfl)).trans (Mute.p _ _ _)).trans
      (Mute.dequeue _ _)) u _ _ rfl
  · split_ifs
    · exact .quiet ((hl _).trans (Mute.p _ _ _))
    · exact .quiet (hl _)
  · exact .quiet ((hl _).trans (Mute.send _ _ _ _ _ rfl))
  · exact .quiet ((hl _).trans (Mute.revoke3 _ _))
  · exact .quiet (hl _)
  · exact arbRel_tally (((h.label _).p u (k := fun p => { p with released := true })
      fun _ => rfl).send u _ _ _ rfl) u
  · exact .quiet ((hl _).trans (Mute.arbReqPermitted _ _ _))
  · exact .quiet ((hl _).trans (Mute.arbRtp _ _))
  · exact .quiet (hl _)
  · exact arbRel_tally ((h.label _).send u _ _ _ rfl) u
  · exact .quiet ((hl _).trans (Mute.arbRtp _ _))
  · exact .quiet (hl _)
  · split_ifs
    · exact Mute.single (((hl _).trans (Mute.send _ _ _ _ _ rfl)).trans (Mute.enterR _ _ _)) u _ _
        rfl
    · exact Mute.single (((hl _).trans (Mute.send _ _ _ _ _ rfl)).trans (Mute.enterR _ _ _)) u _ _
        rfl
  · exact .quiet (hl _)
  · exact .quiet (hl _)

theorem away_tally (h : Before f s) (u : String) : Tally f (s.away u) := by
  rw [St.away]
  split_ifs
  · exact .cast ((h.label _).setPrev _).idleEnter
  · exact .quiet (h.label _).mute
  · exact .quiet ((h.label _).mute.trans (Mute.dequeue _ _))
  · exact .quiet (h.label _).mute

/-- What follows the numbering part of an operation. -/
theorem Tally.congr {f : Floor} {s s' : St} (h : Tally f s) (hm : Mute s s')
    (hs : s'.fl.speaker = s.fl.speaker) : Tally f s' := by
  cases h with
  | quiet h => exact .quiet (h.trans hm)
  | single h₁ h₂ h₃ =>
    exact .single (hm.seq.trans h₁) (hm.numbers.trans h₂) (hm.fx.trans h₃)
  | cast h => exact .cast (h.congr hm hs)

/-- **Every operation but T7 numbers at most one message or broadcast.** -/
theorem apply_tally (f : Floor) (o : Op) (ho : o ≠ .t7) : Tally f (f.apply o) := by
  have h := Before.start f
  have hl : ∀ l, Mute f.start (f.start.label l) := Mute.label _
  cases o with
  | serverRx u m half d =>
    rw [Floor.apply, Floor.serverRx]
    by_cases hu : u ∈ f.members
    · simp only [hu, not_true_eq_false, false_and, if_false]
      split_ifs
      · exact .quiet (hl _)
      · exact .quiet ((hl _).trans (Mute.send _ _ _ _ _ rfl))
      · exact .quiet ((hl _).trans (Mute.send _ _ _ _ _ rfl))
      · exact .quiet ((hl _).trans (Mute.send _ _ _ _ _ rfl))
      · exact partC_tally f u m d
    · simp only [hu, not_false_eq_true, true_and, if_true]
      split_ifs
      · exact .quiet (hl _)
      · exact .quiet ((hl _).trans (Mute.send _ _ _ _ _ rfl))
      · exact .quiet (hl _)
  | ready u =>
    rw [Floor.apply, Floor.ready]
    split_ifs
    · exact .quiet (hl _)
    · exact Mute.single (hl _) u _ _ rfl
    · exact Mute.single (hl _) u _ _ rfl
  | permDown u =>
    rw [Floor.apply, Floor.permDown]
    split_ifs
    · exact .quiet (((Mute.p _ _ _).trans (Mute.label _ _)).trans (Mute.prevokeEnter _ _ _))
    · exact .quiet ((((Mute.p _ _ _).trans (Mute.label _ _)).trans (Mute.dequeue _ _)).trans
        (Mute.partA _ _ _ rfl))
    · exact .quiet ((Mute.p _ _ _).trans (Mute.label _ _))
  | permUp u => exact .quiet ⟨rfl, rfl, rfl⟩
  | wsPubSelect u => exact .quiet ⟨rfl, rfl, rfl⟩
  | wsPubAway u =>
    exact away_tally ((h.label _).p u (k := fun p => { p with pubRoom := false }) fun _ => rfl) u
  | wsLeave u =>
    exact (away_tally ((h.label "FLR.S.ws.leave").p u (k := fun p => { p with pubRoom := false })
      fun _ => rfl) u).congr ⟨rfl, rfl, rfl⟩ rfl
  | wsJoin u perm =>
    rw [Floor.apply, Floor.wsJoin]
    split_ifs
    · exact Tally.congr (.cast ((h.label _).setPrev _).idleEnter) ⟨rfl, rfl, rfl⟩ rfl
    · exact .quiet ⟨rfl, rfl, rfl⟩
  | rtp u =>
    rw [Floor.apply, Floor.rtp]
    split_ifs
    · exact partC_tally f u _ _
    · exact .quiet (hl _)
  | t1 =>
    rw [Floor.apply, Floor.t1]
    split_ifs <;> exact .cast ((h.label _).setPrev _).idleEnter
  | t2 => exact .quiet (((hl _).trans (Mute.p _ _ _)).trans (Mute.prevokeEnter _ _ _))
  | t3 => exact .cast ((h.label _).setPrev _).idleEnter
  | t7 => exact absurd rfl ho
  | t20 =>
    rw [Floor.apply, Floor.t20]
    dsimp only
    split_ifs
    · refine .quiet (Mute.trans (t := { f.start.label "FLR.S.G.TAKEN.T20" with
        fl := { f with c20 := f.c20 + 1 } }) ⟨rfl, rfl, rfl⟩ (Mute.partA _ _ _ rfl))
    · exact .quiet ⟨rfl, rfl, rfl⟩
  | t8 u =>
    rw [Floor.apply, Floor.t8]
    split_ifs <;>
      exact .quiet (((Mute.p _ _ _).trans (Mute.label _ _)).trans (Mute.send _ _ _ _ _ rfl))
  | t9 u => exact .quiet ⟨rfl, rfl, rfl⟩
  | t21 u =>
    rw [Floor.apply, Floor.t21]
    split_ifs
    · exact Mute.single ((Mute.p _ _ _).trans (Mute.label _ _)) u _ _ rfl
    · exact .quiet ((Mute.p _ _ _).trans (Mute.label _ _))

end Ops

end St

/-- The numbering events of an operation, with what is known of their numbers. -/
inductive Numbered (f : Floor) (o : Op) : Prop
  | none : (f.apply o).fl.seq = f.seq → (f.apply o).r.cast o = none →
      (f.apply o).r.events o = [] → Numbered f o
  | single : (f.apply o).fl.seq = nextSeq f.seq → (f.apply o).r.cast o = none →
      (f.apply o).r.events o = [[nextSeq f.seq]] → Numbered f o
  | cast (t : Mt) : (f.apply o).r.cast o = some t →
      (f.apply o).r.events o = [(f.apply o).numbers] →
      St.Cast (nextSeq f.seq) (f.Heard o t) (f.apply o) → Numbered f o

theorem t7_cast (f : Floor) : St.Cast (nextSeq f.seq) (f.Heard .t7 .idle) f.t7 := by
  let s : St := { f.start.label "FLR.S.G.IDLE.T7" with fl := { f with c7 := f.c7 + 1 } }
  refine (s.fan_cast { t := .idle, a := f.prev } none (.inr rfl) rfl).congr_heard ?_
  refine exists_congr fun u => and_congr_right ?_
  intro _
  simp only [ne_eq, reduceCtorEq, not_false_eq_true, true_and, false_implies]
  rfl

/-- **Every operation numbers at most one message or broadcast.** -/
theorem Floor.numbered (f : Floor) (o : Op) : Numbered f o := by
  by_cases ho : o = .t7
  · subst ho
    have hfx : (f.apply .t7).r.fx = [] := by
      rw [Floor.apply, Floor.t7, (St.Same.fan _ _ _).fx]
      rfl
    have hc : (f.apply .t7).r.cast .t7 = some .idle := by rw [Step.cast, hfx]; rfl
    exact .cast .idle hc (by rw [Step.events, hc]; rfl) (t7_cast f)
  · cases St.apply_tally f o ho with
    | quiet h =>
      have hn : (f.apply o).r.numbers = [] := h.numbers
      have hc : (f.apply o).r.cast o = none := by
        rw [Step.cast, show (f.apply o).r.fx = [] from h.fx]
        simp [ho]
      exact .none h.seq hc (by rw [Step.events, hc, hn]; rfl)
    | single h₁ h₂ h₃ =>
      have hn : (f.apply o).r.numbers = [nextSeq f.seq] := h₂
      have hc : (f.apply o).r.cast o = none := by
        rw [Step.cast, h₃]
        simp [ho]
      exact .single h₁ hc (by rw [Step.events, hc, hn]; rfl)
    | cast h =>
      cases h with
      | idle prev hfx hcast =>
        have hc : (f.apply o).r.cast o = some .idle := by rw [Step.cast, hfx]
        refine .cast .idle hc (by rw [Step.events, hc]; rfl) (hcast.congr_heard ?_)
        exact exists_congr fun u => and_congr_right fun _ => by simp
      | taken u hfx hcast =>
        have hc : (f.apply o).r.cast o = some .taken := by rw [Step.cast, hfx]
        refine .cast .taken hc (by rw [Step.events, hc]; rfl) (hcast.congr_heard ?_)
        exact exists_congr fun u => and_congr_right fun _ => by simp

/-! ## Runs -/

/-- The numbers of the events count up from 1, modulo 65536, and each event has one number. -/
def Consecutive (events : List (List Nat)) : Prop :=
  ∀ i qs, events[i]? = some qs → ∀ q ∈ qs, q = (i + 1) % seqWrap

theorem consecutive_append {events : List (List Nat)} {qs : List Nat} :
    Consecutive (events ++ [qs]) ↔
      Consecutive events ∧ ∀ q ∈ qs, q = (events.length + 1) % seqWrap := by
  refine ⟨?_, ?_⟩
  · intro h
    refine ⟨fun i qs' hi => h i qs' ?_, h events.length qs (by simp)⟩
    obtain ⟨hlt, -⟩ := List.getElem?_eq_some_iff.1 hi
    rw [List.getElem?_append_left hlt]
    exact hi
  · rintro ⟨h, hqs⟩ i qs' hi
    by_cases hlt : i < events.length
    · rw [List.getElem?_append_left hlt] at hi
      exact h i qs' hi
    · have hle : events.length ≤ i := Nat.le_of_not_lt hlt
      rw [List.getElem?_append_right hle] at hi
      have hi0 : i - events.length = 0 := by
        by_contra hne
        rw [List.getElem?_eq_none (by simp; omega)] at hi
        simp at hi
      rw [hi0] at hi
      obtain rfl : qs = qs' := by simpa using hi
      rw [show i = events.length by omega]
      exact hqs

/-- The last number is the number of events so far. -/
structure NumInv (s : Floor × List (List Nat)) : Prop where
  seq : s.1.seq = s.2.length % seqWrap
  consecutive : Consecutive s.2

theorem NumInv.next {s : Floor × List (List Nat)} (h : NumInv s) :
    nextSeq s.1.seq = (s.2.length + 1) % seqWrap := by
  rw [nextSeq, h.seq, Nat.mod_add_mod]

theorem NumInv.next_eq_zero {s : Floor × List (List Nat)} (h : NumInv s) :
    nextSeq s.1.seq = 0 ↔ s.1.seq = seqWrap - 1 := by
  have hlt : s.1.seq < seqWrap := h.seq ▸ Nat.mod_lt _ (by decide)
  unfold nextSeq seqWrap at *
  omega

/-- **One operation**: the numbers stay consecutive exactly when it does not wrap. -/
theorem step_numInv {s : Floor × List (List Nat)} (h : NumInv s) (o : Op) :
    (¬ o.Wraps s.1 → NumInv ((machine.logged numberings).next s o)) ∧
      (o.Wraps s.1 → ¬ Consecutive ((machine.logged numberings).next s o).2) := by
  obtain ⟨f, events⟩ := s
  show (¬ o.Wraps f → NumInv ((f.apply o).fl, events ++ (f.apply o).r.events o)) ∧
    (o.Wraps f → ¬ Consecutive (events ++ (f.apply o).r.events o))
  have hnext : nextSeq f.seq = (events.length + 1) % seqWrap := h.next
  cases f.numbered o with
  | none hseq hc hev =>
    rw [hev, List.append_nil]
    refine ⟨fun _ => ⟨hseq.trans h.seq, h.consecutive⟩, ?_⟩
    intro hw
    obtain ⟨-, t, ht, -⟩ := hw
    rw [hc] at ht
    simp at ht
  | single hseq hc hev =>
    rw [hev]
    refine ⟨fun _ => ⟨?_, consecutive_append.2 ⟨h.consecutive, ?_⟩⟩, ?_⟩
    · rw [List.length_append]
      exact hseq.trans hnext
    · simpa using hnext
    · intro hw
      obtain ⟨-, t, ht, -⟩ := hw
      rw [hc] at ht
      simp at ht
  | cast t hc hev hcast =>
    have hzero : nextSeq f.seq = 0 ↔ f.seq = seqWrap - 1 := h.next_eq_zero
    rw [hev]
    refine ⟨?_, ?_⟩
    · intro hw
      have hnum : (f.apply o).fl.seq = nextSeq f.seq ∧
          ∀ q ∈ (f.apply o).numbers, q = nextSeq f.seq := by
        by_cases hn : nextSeq f.seq = 0
        · -- nobody is told, so that the wrong number reaches nobody
          have hno : ¬ f.Heard o t := fun hy => hw ⟨hzero.1 hn, t, hc, hy⟩
          obtain ⟨hs, hq⟩ := hcast.unheard hn hno
          exact ⟨hs.trans hn.symm, by simp [hq]⟩
        · exact hcast.same hn
      refine ⟨?_, consecutive_append.2 ⟨h.consecutive, fun q hq => (hnum.2 q hq).trans hnext⟩⟩
      rw [List.length_append]
      exact hnum.1.trans hnext
    · intro hw hcons
      obtain ⟨hlast, t', ht', hy⟩ := hw
      obtain rfl : t = t' := Option.some.inj (hc.symm.trans ht')
      have hn : nextSeq f.seq = 0 := hzero.2 hlast
      have h1 := (consecutive_append.1 hcons).2 1 (hcast.wrapped hn hy)
      rw [← hnext, hn] at h1
      simp at h1

/-- The history only grows. -/
theorem numberings_append (s : Floor × List (List Nat)) (ops : List Op) :
    s.2 <+: ((machine.logged numberings).exec s ops).2 := by
  induction ops generalizing s with
  | nil => exact List.prefix_refl _
  | cons o ops ih =>
    have hstep : s.2 <+: ((machine.logged numberings).next s o).2 := List.prefix_append _ _
    exact hstep.trans (ih _)

theorem Consecutive.initial {es es' : List (List Nat)} (h : Consecutive es) (hp : es' <+: es) :
    Consecutive es' := by
  intro i qs hi
  obtain ⟨rest, rfl⟩ := hp
  obtain ⟨hlt, -⟩ := List.getElem?_eq_some_iff.1 hi
  exact h i qs (by rw [List.getElem?_append_left hlt]; exact hi)

/-- As long as the numbers of a run are consecutive, none of its operations has wrapped. -/
theorem numInv_of_consecutive {s : Floor × List (List Nat)} (h : NumInv s) (ops : List Op)
    (hc : Consecutive ((machine.logged numberings).exec s ops).2) :
    NumInv ((machine.logged numberings).exec s ops) ∧
      ∀ l₁ o l₂, ops = l₁ ++ o :: l₂ → ¬ o.Wraps (machine.exec s.1 l₁) := by
  induction ops generalizing s with
  | nil => exact ⟨h, by simp⟩
  | cons o ops ih =>
    have hfirst : ¬ o.Wraps s.1 := by
      intro hw
      exact (step_numInv h o).2 hw (hc.initial (numberings_append _ ops))
    obtain ⟨hinv, hrest⟩ := ih ((step_numInv h o).1 hfirst) hc
    refine ⟨hinv, ?_⟩
    intro l₁ o' l₂ e
    cases l₁ with
    | nil =>
      obtain ⟨rfl, -⟩ := List.cons.inj e
      exact hfirst
    | cons x l₁ =>
      obtain ⟨rfl, e'⟩ := List.cons.inj e
      exact hrest l₁ o' l₂ e'

theorem consecutive_of_not_wraps {s : Floor × List (List Nat)} (h : NumInv s) (ops : List Op)
    (hw : ∀ l₁ o l₂, ops = l₁ ++ o :: l₂ → ¬ o.Wraps (machine.exec s.1 l₁)) :
    NumInv ((machine.logged numberings).exec s ops) := by
  induction ops generalizing s with
  | nil => exact h
  | cons o ops ih =>
    refine ih ((step_numInv h o).1 (hw [] o ops rfl)) ?_
    intro l₁ o' l₂ e
    exact hw (o :: l₁) o' l₂ (by rw [e]; rfl)

theorem numInv_new (qmax t2Secs : Nat) : NumInv (Floor.new qmax t2Secs, []) :=
  ⟨rfl, fun i qs hi => by simp at hi⟩

/-- **When the numbers of a room are consecutive.** In any run, each numbering event has one
number and these count up by one modulo 65536, exactly when no operation makes a broadcast that
somebody hears while the last number is 65535. -/
theorem numbers_consecutive_iff (qmax t2Secs : Nat) (ops : List Op) :
    let events := ((machine.logged numberings).exec (Floor.new qmax t2Secs, []) ops).2
    (∀ i qs, events[i]? = some qs → ∀ q ∈ qs, q = (i + 1) % 65536) ↔
      ∀ l₁ o l₂, ops = l₁ ++ o :: l₂ →
        ¬ o.Wraps (machine.exec (Floor.new qmax t2Secs) l₁) :=
  ⟨fun h => (numInv_of_consecutive (numInv_new qmax t2Secs) ops h).2,
    fun h => (consecutive_of_not_wraps (numInv_new qmax t2Secs) ops h).consecutive⟩

/-- Announcing the state of an idle floor over and over only counts up. -/
theorem exec_ready (u : String) (n : Nat) {f : Floor} (hg : f.g = .idle)
    (hs : f.seq < seqWrap) :
    machine.exec f (List.replicate n (.ready u)) = { f with seq := (f.seq + n) % seqWrap } := by
  induction n generalizing f with
  | zero =>
    rw [Nat.add_zero, Nat.mod_eq_of_lt hs]
    rfl
  | succ n ih =>
    have hh : f.holder = none := by rw [Floor.holder, hg]
    have hstep : machine.next f (.ready u) = { f with seq := (f.seq + 1) % seqWrap } := by
      simp [machine, Floor.apply, Floor.ready, hh, St.send, Mt.seqd, St.label, Floor.start]
    rw [List.replicate_succ, Machine.exec_cons, hstep]
    refine (ih (f := { f with seq := (f.seq + 1) % seqWrap }) hg
      (Nat.mod_lt _ (by decide))).trans ?_
    simp only [Nat.mod_add_mod]
    rw [show f.seq + 1 + n = f.seq + (n + 1) by omega]

/-- Three members, one of which may ask for the floor. -/
def gathering : List Op :=
  [.wsJoin "a" true, .wsJoin "b" true, .wsJoin "c" true, .wsPubSelect "a"]

/-- After 65535 announcements `a` is granted the floor: `b` is sent the number 1 and `c` 2. -/
theorem numbers_not_consecutive :
    ¬ ∀ (qmax t2Secs : Nat) (ops : List Op), machine.Legal (Floor.new qmax t2Secs) ops →
      let events := ((machine.logged numberings).exec (Floor.new qmax t2Secs, []) ops).2
      ∀ i qs, events[i]? = some qs → ∀ q ∈ qs, q = (i + 1) % 65536 := by
  intro h
  let f := machine.exec (Floor.new 10 30) gathering
  let o : Op := .serverRx "a" { t := .request } true 0
  have hexec : machine.exec (Floor.new 10 30)
      (gathering ++ List.replicate 65535 (.ready "b")) = { f with seq := 65535 } := by
    rw [Machine.exec_append, exec_ready "b" 65535 (by decide) (by decide)]
    rfl
  have hl : machine.Legal (Floor.new 10 30)
      ((gathering ++ List.replicate 65535 (.ready "b")) ++ [o]) := by
    refine (Machine.legal_iff _).2 ?_
    intro l₁ x l₂ e
    have hx : x ∈ (gathering ++ List.replicate 65535 (.ready "b")) ++ [o] := by rw [e]; simp
    simp only [gathering, o, List.mem_append, List.mem_replicate, List.mem_cons,
      List.not_mem_nil, or_false] at hx
    rcases hx with ((rfl | rfl | rfl | rfl) | ⟨-, rfl⟩) | rfl <;> trivial
  refine (numInv_of_consecutive (numInv_new 10 30) _ (h 10 30 _ hl)).2 _ o [] rfl ?_
  rw [hexec]
  exact ⟨rfl, .taken, by decide, "b", by decide, by decide, by decide⟩

end OxlensSfu.Flr
