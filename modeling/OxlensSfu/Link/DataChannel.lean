import OxlensSfu.Lib.Machine

/-!
# The opening of a data channel

Floor frames go out on the data channel of a peer (`dc_send` and `flush` of
`crates/oxsfud/src/aux/mod.rs`, `dc_opened` of `ops/mod.rs`). While it is not open they wait in a
buffer, of which the oldest are dropped when there are too many; the opening sends what waits. The
flag that says the channel is open is an atomic and the buffer has a lock of its own, so a frame
can miss the only flush and a later frame can overtake those that still wait.

A call is the step that reads the flag and the step that hands the frame over or buffers it. A
frame is known by the number of its call.

* **`frames_delivered`** — when no frame is buffered after the flush has taken the buffer and none
  is handed over while one that has to be before it waits, every frame gets out, once and in order.
* **`frame_lost`** — a frame that is buffered too late stays.
-/

namespace OxlensSfu.Dc

def dcBuffer : Nat := 64

/-- A call of `dc_send`: what it read, the calls that had returned when it began, and whether it
has returned. -/
structure Call where
  isOpen : Bool
  after : List Nat
  returned : Bool := false
  deriving DecidableEq, Repr

/-- Where the opening of the channel is. -/
inductive Opening where
  | closed
  | stored
  | flushing (rest : List Nat)
  deriving DecidableEq, Repr

/-- The frames the flush has taken and not yet sent. -/
def Opening.rest : Opening → List Nat
  | .flushing rest => rest
  | _ => []

structure Channel where
  dcOpen : Bool := false
  pending : List Nat := []
  /-- What was handed to `dc_out`. -/
  dcOut : List Nat := []
  /-- What was counted as `dc_backlog_full`. -/
  dropped : List Nat := []
  calls : List Call := []
  opening : Opening := .closed
  deriving DecidableEq, Repr

inductive Act where
  | read
  | finish (i : Nat)
  | store
  | take
  | send
  deriving DecidableEq, Repr

namespace Channel

def hasReturned (s : Channel) (i : Nat) : Bool := s.calls[i]?.any (·.returned)

/-- The calls that have returned. -/
def returned (s : Channel) : List Nat := (List.range s.calls.length).filter s.hasReturned

/-- `push_back`, then the oldest go until the rest fits. -/
def buffer (s : Channel) (i : Nat) : Channel :=
  let q := s.pending ++ [i]
  { s with
    pending := q.drop (q.length - dcBuffer)
    dropped := s.dropped ++ q.take (q.length - dcBuffer) }

/-- The second step of a call. -/
def handOver (s : Channel) (i : Nat) (c : Call) : Channel :=
  if c.isOpen then { s with dcOut := s.dcOut ++ [i] } else s.buffer i

def next (s : Channel) : Act → Channel
  | .read => { s with calls := s.calls ++ [{ isOpen := s.dcOpen, after := s.returned }] }
  | .finish i =>
    match s.calls[i]? with
    | none => s
    | some c =>
      { s.handOver i c with calls := s.calls.set i { c with returned := true } }
  | .store => { s with dcOpen := true, opening := .stored }
  | .take => { s with pending := [], opening := .flushing s.pending }
  | .send =>
    match s.opening with
    | .flushing (i :: rest) => { s with dcOut := s.dcOut ++ [i], opening := .flushing rest }
    | _ => s

/-- All calls have returned and the channel has been opened. -/
def Done (s : Channel) : Prop := (∀ c ∈ s.calls, c.returned = true) ∧ s.opening = .flushing []

instance (s : Channel) : Decidable s.Done := inferInstanceAs (Decidable (_ ∧ _))

/-- The calls that had returned when call `i` began. -/
def after (s : Channel) (i : Nat) : List Nat := (s.calls[i]?.map (·.after)).getD []

/-- Nothing waits, every frame was handed over once or counted, and none was handed over before
one whose call had returned when its own began. -/
structure Delivered (s : Channel) : Prop where
  pending : s.pending = []
  once : ∀ i < s.calls.length, s.dcOut.count i + s.dropped.count i = 1
  inOrder : s.dcOut.Pairwise fun i j => j ∉ s.after i

/-- A frame is not buffered once the flush has taken the buffer, and not handed over while one that
has to be before it waits. -/
def Timely (s : Channel) : Act → Prop
  | .finish i => ∀ c ∈ s.calls[i]?,
      if c.isOpen then ∀ j ∈ c.after, j ∉ s.pending ∧ j ∉ s.opening.rest
      else s.opening = .closed ∨ s.opening = .stored
  | .read | .store | .take | .send => True

instance (s : Channel) : (a : Act) → Decidable (s.Timely a)
  | .finish i => inferInstanceAs (Decidable (∀ c ∈ s.calls[i]?, ite _ _ _))
  | .read | .store | .take | .send => .isTrue trivial

end Channel

/-- Any number of calls and one opening, in any interleaving. -/
def machine : Machine Channel Act where
  ok s
    | .read => True
    | .finish i => s.calls[i]?.any (!·.returned)
    | .store => s.opening = .closed
    | .take => s.opening = .stored
    | .send => s.opening.rest ≠ []
  next := Channel.next

instance (s : Channel) : (a : Act) → Decidable (machine.ok s a)
  | .read => inferInstanceAs (Decidable True)
  | .finish _ => inferInstanceAs (Decidable (Option.any _ _ = true))
  | .store => inferInstanceAs (Decidable (_ = _))
  | .take => inferInstanceAs (Decidable (_ = _))
  | .send => inferInstanceAs (Decidable (_ ≠ _))

/-! ## The line of frames -/

namespace Channel

/-- The frames in the order in which they will have been handed over. -/
def line (s : Channel) : List Nat := s.dcOut ++ (s.opening.rest ++ s.pending)

/-- Each call that has returned left its frame in one place, the line keeps the order of the calls,
and nothing is buffered behind the flush. -/
structure Inv (s : Channel) : Prop where
  placed : ∀ i, s.line.count i + s.dropped.count i =
    if s.hasReturned i then 1 else 0
  seen : ∀ i, ∀ j ∈ s.after i, s.hasReturned j
  order : s.line.Pairwise fun i j => j ∉ s.after i
  taken : s.opening ≠ .closed → s.opening ≠ .stored → s.pending = []

theorem mem_returned {s : Channel} {i : Nat} :
    i ∈ s.returned ↔ s.hasReturned i := by
  rw [returned, List.mem_filter, List.mem_range, and_iff_right_iff_imp]
  intro h
  obtain ⟨c, hc, -⟩ := (Option.any_eq_true _ _).1 h
  exact (List.getElem?_eq_some_iff.1 hc).1

theorem Inv.returned_of_mem {s : Channel} (h : s.Inv) {i : Nat} (hi : i ∈ s.line) :
    s.hasReturned i := by
  by_contra hr
  have hplaced := h.placed i
  rw [if_neg hr] at hplaced
  have hpos := List.count_pos_iff.2 hi
  omega

/-- A call that begins. -/
theorem Inv.read {s : Channel} (h : s.Inv) : (s.next .read).Inv := by
  have hany : ∀ i, (s.next .read).hasReturned i = s.hasReturned i := by
    intro i
    show Option.any _ (s.calls ++ _)[i]? = Option.any _ s.calls[i]?
    rcases lt_trichotomy i s.calls.length with hi | rfl | hi
    · rw [List.getElem?_append_left hi]
    · simp
    · rw [List.getElem?_eq_none (by simp; omega), List.getElem?_eq_none hi.le]
  have hafter : ∀ i, i < s.calls.length → (s.next .read).after i = s.after i := by
    intro i hi
    show Option.getD (Option.map _ (s.calls ++ _)[i]?) [] = _
    rw [List.getElem?_append_left hi]
    rfl
  refine ⟨?_, ?_, ?_, h.taken⟩
  · intro i
    rw [hany]
    exact h.placed i
  · intro i j hj
    rw [hany]
    rcases lt_trichotomy i s.calls.length with hi | rfl | hi
    · rw [hafter i hi] at hj
      exact h.seen i j hj
    · refine mem_returned.1 ?_
      simpa [after, next] using hj
    · rw [after, List.getElem?_eq_none (by simp [next]; omega)] at hj
      simp at hj
  · refine h.order.imp_of_mem ?_
    intro i j hi _ hij
    obtain ⟨c, hc, -⟩ := (Option.any_eq_true _ _).1 (h.returned_of_mem hi)
    rw [hafter i (List.getElem?_eq_some_iff.1 hc).1]
    exact hij

section Finish

variable {s : Channel} {i : Nat} {c : Call}

theorem next_finish (hc : s.calls[i]? = some c) : s.next (.finish i) =
    { s.handOver i c with calls := s.calls.set i { c with returned := true } } := by
  simp only [next, hc]

theorem hasReturned_finish (hc : s.calls[i]? = some c) (k : Nat) :
    (s.next (.finish i)).hasReturned k ↔ k = i ∨ s.hasReturned k := by
  have hlt : i < s.calls.length := (List.getElem?_eq_some_iff.1 hc).1
  rw [next_finish hc, hasReturned, hasReturned]
  by_cases hk : k = i
  · subst hk
    simp [List.getElem?_set_self hlt]
  · simp [List.getElem?_set_ne (Ne.symm hk), hk]

theorem after_finish (hc : s.calls[i]? = some c) (k : Nat) :
    (s.next (.finish i)).after k = s.after k := by
  have hlt : i < s.calls.length := (List.getElem?_eq_some_iff.1 hc).1
  rw [next_finish hc, after, after]
  by_cases hk : k = i
  · subst hk
    simp [List.getElem?_set_self hlt, hc]
  · rw [List.getElem?_set_ne (Ne.symm hk)]

/-- A call that returns, from what it makes of the line. -/
theorem Inv.finish_of (h : s.Inv) (hc : s.calls[i]? = some c) (hr : c.returned = false)
    (hcount : ∀ k, (s.next (.finish i)).line.count k + (s.next (.finish i)).dropped.count k =
      s.line.count k + s.dropped.count k + if k = i then 1 else 0)
    (horder : (s.next (.finish i)).line.Pairwise fun a b => b ∉ s.after a)
    (htaken : (s.next (.finish i)).opening ≠ .closed → (s.next (.finish i)).opening ≠ .stored →
      (s.next (.finish i)).pending = []) :
    (s.next (.finish i)).Inv := by
  have hnot : ¬ s.hasReturned i := by simp [hasReturned, hc, hr]
  refine ⟨?_, ?_, ?_, htaken⟩
  · intro k
    rw [hcount, h.placed, if_congr (hasReturned_finish hc k) rfl rfl]
    by_cases hk : k = i
    · subst hk
      simp [hnot]
    · simp [hk]
  · intro k j hj
    rw [after_finish hc] at hj
    exact (hasReturned_finish hc j).2 (.inr (h.seen k j hj))
  · simp only [after_finish hc]
    exact horder

/-- A call that has not returned is not one of those that others have to wait for. -/
theorem Inv.notMem_after (h : s.Inv) (hc : s.calls[i]? = some c) (hr : c.returned = false)
    (k : Nat) : i ∉ s.after k := by
  intro hi
  have hret := h.seen k i hi
  simp [hasReturned, hc, hr] at hret

/-- A frame that is handed over goes in front of those that wait. -/
theorem Inv.finish_open (h : s.Inv) (hc : s.calls[i]? = some c) (hr : c.returned = false)
    (ho : c.isOpen = true) (hwait : ∀ j ∈ c.after, j ∉ s.pending ∧ j ∉ s.opening.rest) :
    (s.next (.finish i)).Inv := by
  have heq : s.next (.finish i) = { s with
      dcOut := s.dcOut ++ [i], calls := s.calls.set i { c with returned := true } } := by
    rw [next_finish hc, handOver, if_pos ho]
  have hafter : s.after i = c.after := by rw [after, hc]; rfl
  refine h.finish_of hc hr ?_ ?_ ?_
  · intro k
    rw [heq]
    simp only [line, List.count_append, List.count_singleton', eq_comm (a := i)]
    omega
  · rw [heq]
    show ((s.dcOut ++ [i]) ++ (s.opening.rest ++ s.pending)).Pairwise _
    obtain ⟨hout, hrest, hcross⟩ := List.pairwise_append.1 h.order
    refine List.pairwise_append.2 ⟨?_, hrest, ?_⟩
    · refine List.pairwise_append.2 ⟨hout, List.pairwise_singleton _ _, ?_⟩
      intro a _ b hb
      rw [List.mem_singleton.1 hb]
      exact h.notMem_after hc hr a
    · intro a ha b hb
      rcases List.mem_append.1 ha with ha | ha
      · exact hcross a ha b hb
      · rw [List.mem_singleton.1 ha, hafter]
        intro hba
        rcases List.mem_append.1 hb with hb | hb
        · exact (hwait b hba).2 hb
        · exact (hwait b hba).1 hb
  · rw [heq]
    exact h.taken

/-- A frame that is buffered goes to the end of the line. -/
theorem Inv.finish_closed (h : s.Inv) (hc : s.calls[i]? = some c) (hr : c.returned = false)
    (ho : c.isOpen = false) (hop : s.opening = .closed ∨ s.opening = .stored) :
    (s.next (.finish i)).Inv := by
  have heq : s.next (.finish i) =
      { s.buffer i with calls := s.calls.set i { c with returned := true } } := by
    rw [next_finish hc, handOver, if_neg (by simp [ho])]
  have hrest : s.opening.rest = [] := by
    rcases hop with hop | hop
    · rw [hop]; rfl
    · rw [hop]; rfl
  refine h.finish_of hc hr ?_ ?_ ?_
  · intro k
    rw [heq]
    generalize hn : (s.pending ++ [i]).length - dcBuffer = n
    have hsplit : ((s.pending ++ [i]).take n).count k + ((s.pending ++ [i]).drop n).count k =
        s.pending.count k + if k = i then 1 else 0 := by
      rw [← List.count_append, List.take_append_drop, List.count_append, List.count_singleton',
        if_congr eq_comm rfl rfl]
    simp only [line, buffer, hn, List.count_append]
    omega
  · rw [heq]
    have hsub : (s.dcOut ++ (s.pending ++ [i]).drop ((s.pending ++ [i]).length - dcBuffer)).Sublist
        (s.line ++ [i]) := by
      rw [line, hrest, List.nil_append, List.append_assoc]
      exact (List.drop_sublist _ _).append_left _
    have hline : (s.line ++ [i]).Pairwise fun a b => b ∉ s.after a := by
      refine List.pairwise_append.2 ⟨h.order, List.pairwise_singleton _ _, ?_⟩
      intro a _ b hb
      rw [List.mem_singleton.1 hb]
      exact h.notMem_after hc hr a
    show (s.dcOut ++ (s.opening.rest ++ _)).Pairwise _
    rw [hrest, List.nil_append]
    exact hline.sublist hsub
  · rw [heq]
    intro h₁ h₂
    rcases hop with hop | hop
    · exact absurd hop h₁
    · exact absurd hop h₂

end Finish

/-! ## Whole runs -/

/-- The opening moves frames along the line. -/
theorem Inv.of_line {s s' : Channel} (h : s.Inv) (hline : s'.line = s.line)
    (hdrop : s'.dropped = s.dropped) (hcalls : s'.calls = s.calls)
    (htaken : s'.opening ≠ .closed → s'.opening ≠ .stored → s'.pending = []) : s'.Inv := by
  have hret : s'.hasReturned = s.hasReturned := by
    funext i
    rw [hasReturned, hasReturned, hcalls]
  have hafter : s'.after = s.after := by
    funext i
    rw [after, after, hcalls]
  refine ⟨?_, ?_, ?_, htaken⟩
  · intro i
    rw [hline, hdrop, hret]
    exact h.placed i
  · rw [hafter, hret]
    exact h.seen
  · rw [hline, hafter]
    exact h.order

theorem Inv.next {s : Channel} {a : Act} (h : s.Inv) (hok : machine.ok s a) (ht : s.Timely a) :
    (s.next a).Inv := by
  cases a with
  | read => exact h.read
  | finish i =>
    obtain ⟨c, hc, hr⟩ := (Option.any_eq_true _ _).1 hok
    have hr : c.returned = false := by simpa using hr
    have ht := ht c hc
    by_cases ho : c.isOpen = true
    · rw [if_pos ho] at ht
      exact h.finish_open hc hr ho ht
    · rw [if_neg ho] at ht
      exact h.finish_closed hc hr (Bool.eq_false_iff.2 ho) ht
  | store =>
    refine h.of_line ?_ rfl rfl fun _ h₂ => absurd rfl h₂
    rw [line, line, show s.opening = .closed from hok]
    rfl
  | take =>
    refine h.of_line ?_ rfl rfl fun _ _ => rfl
    rw [line, line, show s.opening = .stored from hok]
    show s.dcOut ++ (s.pending ++ []) = _
    rw [List.append_nil]
    rfl
  | send =>
    cases hop : s.opening with
    | closed => exact absurd (by rw [hop]; rfl) hok
    | stored => exact absurd (by rw [hop]; rfl) hok
    | flushing rest =>
      cases rest with
      | nil => exact absurd (by rw [hop]; rfl) hok
      | cons i rest =>
        have heq : s.next .send =
            { s with dcOut := s.dcOut ++ [i], opening := .flushing rest } := by
          simp only [Channel.next, hop]
        rw [heq]
        refine h.of_line ?_ rfl rfl fun _ _ => h.taken (by simp [hop]) (by simp [hop])
        rw [line, line, hop]
        simp [Opening.rest]

end Channel

open Channel

/-- **A frame that is on time gets out.** -/
theorem frames_delivered (acts : List Act)
    (hrun : (machine.restrict Timely).Legal ({} : Channel) acts)
    (hdone : (machine.exec ({} : Channel) acts).Done) :
    (machine.exec ({} : Channel) acts).Delivered := by
  have hstart : ({} : Channel).Inv := by
    refine ⟨fun i => by simp [hasReturned, line, Opening.rest], fun i j hj => ?_,
      List.Pairwise.nil, fun h => absurd rfl h⟩
    simp [after] at hj
  have hinv : (machine.exec ({} : Channel) acts).Inv := by
    rw [← Machine.restrict_exec _ Timely]
    exact Machine.invariant (fun s a h hok => h.next hok.1 hok.2) hstart hrun
  generalize machine.exec ({} : Channel) acts = s at hdone hinv
  obtain ⟨hret, hop⟩ := hdone
  have hpend : s.pending = [] := hinv.taken (by simp [hop]) (by simp [hop])
  have hline : s.line = s.dcOut := by rw [line, hop, hpend]; simp [Opening.rest]
  refine ⟨hpend, ?_, hline ▸ hinv.order⟩
  intro i hi
  have hplaced := hinv.placed i
  have hi' : s.hasReturned i := by
    rw [hasReturned, List.getElem?_eq_getElem hi]
    exact hret _ (List.getElem_mem hi)
  rw [hline, if_pos hi'] at hplaced
  exact hplaced

/-- One frame waits for the channel, the next finds it open. -/
theorem frames_delivered_in_turn :
    (machine.exec ({} : Channel)
      [.read, .finish 0, .store, .take, .send, .read, .finish 1]).Delivered :=
  frames_delivered _ (by decide) (by decide)

/-- A call finds the channel closed, the channel is opened, the call buffers its frame: it stays
in the buffer. -/
theorem frame_lost : ¬ ∀ acts, machine.Legal ({} : Channel) acts →
    (machine.exec ({} : Channel) acts).Done → (machine.exec ({} : Channel) acts).Delivered := by
  intro h
  have hrun := h [.read, .store, .take, .finish 0] (by decide) (by decide)
  exact absurd hrun.pending (by decide)

end OxlensSfu.Dc
