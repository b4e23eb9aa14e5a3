import OxlensSfu.Floor.Agreement

/-!
# The waiting queue

The queue changes in three ways only (`QStep`): it loses entries, a waiter is inserted by
`insertQ`, or a preempting one is put at the head. What holds of it follows from that:

* `QueueOk` — nobody waits twice, the order is by preemption and then by priority, a preempting
  entry stands alone at the head and only while the floor is being revoked, an idle floor has no
  queue, and the bound is kept.
* `Fifo` — waiters of equal priority stand in the order in which they came. The order of arrival
  is not in the state, so it is kept beside it as a history (`arrivals`).
-/

namespace OxlensSfu.Flr

open Std

/-! ## Insertion -/

namespace Queue

theorem inQ_iff {q : Queue} {u : String} : q.inQ u = true ↔ u ∈ q.map (·.u) := by
  simp [inQ]

theorem not_inQ {q : Queue} {u : String} (h : q.inQ u = false) : u ∉ q.map (·.u) := fun hm => by
  simp [inQ_iff.2 hm] at h

/-- `a` may stand before `b`. -/
def Ordered (a b : Waiter) : Prop := before b a = false

theorem ordered_iff (a b : Waiter) :
    Ordered a b ↔ (a.pre = true ∧ b.pre = false) ∨ (a.pre = b.pre ∧ b.p ≤ a.p) := by
  cases ha : a.pre <;> cases hb : b.pre <;> simp [Ordered, before, ha, hb]

theorem before_trans {w x y : Waiter} (h : before w x = true) (ho : Ordered x y) :
    before w y = true := by
  cases hw : w.pre <;> cases hx : x.pre <;> cases hy : y.pre <;>
    simp_all [Ordered, before]
  all_goals omega

theorem insertQ_cons (x w : Waiter) (q : Queue) :
    insertQ (x :: q) w = if before w x then w :: x :: q else x :: insertQ q w := by
  unfold insertQ
  rw [List.findIdx?_cons]
  by_cases h : before w x
  · simp [h]
  · cases q.findIdx? (before w) <;> simp [h]

/-- Where `insertQ` puts `w` in an ordered queue: behind everybody it does not go before. -/
theorem insertQ_split (w : Waiter) :
    ∀ q : Queue, q.Pairwise Ordered → ∃ l₁ l₂, q = l₁ ++ l₂ ∧ insertQ q w = l₁ ++ w :: l₂ ∧
      (∀ x ∈ l₁, before w x = false) ∧ ∀ x ∈ l₂, before w x = true
  | [], _ => ⟨[], [], rfl, rfl, by simp, by simp⟩
  | x :: q, h => by
    obtain ⟨hx, hq⟩ := List.pairwise_cons.1 h
    rw [insertQ_cons]
    by_cases hb : before w x = true
    · refine ⟨[], x :: q, rfl, by simp [hb], by simp, ?_⟩
      intro y hy
      rcases List.mem_cons.1 hy with rfl | hy
      · exact hb
      · exact before_trans hb (hx y hy)
    · obtain ⟨l₁, l₂, rfl, hi, h₁, h₂⟩ := insertQ_split w q hq
      refine ⟨x :: l₁, l₂, rfl, by simp [hb, hi], ?_, h₂⟩
      intro y hy
      rcases List.mem_cons.1 hy with rfl | hy
      · exact Bool.not_eq_true _ ▸ hb
      · exact h₁ y hy

/-- A pairwise property of an ordered queue survives insertion. -/
theorem pairwise_insertQ {R : Waiter → Waiter → Prop} {q : Queue} {w : Waiter}
    (ho : q.Pairwise Ordered) (h : q.Pairwise R)
    (h₁ : ∀ x ∈ q, before w x = false → R x w) (h₂ : ∀ x ∈ q, before w x = true → R w x) :
    (insertQ q w).Pairwise R := by
  obtain ⟨l₁, l₂, rfl, hi, hl₁, hl₂⟩ := insertQ_split w q ho
  rw [hi]
  obtain ⟨hp₁, hp₂, hp⟩ := List.pairwise_append.1 h
  refine List.pairwise_append.2
    ⟨hp₁, List.pairwise_cons.2 ⟨?_, hp₂⟩, ?_⟩
  · intro x hx
    exact h₂ x (List.mem_append_right _ hx) (hl₂ x hx)
  · intro x hx y hy
    rcases List.mem_cons.1 hy with rfl | hy
    · exact h₁ x (List.mem_append_left _ hx) (hl₁ x hx)
    · exact hp x hx y hy

theorem insertQ_perm (w : Waiter) : ∀ q : Queue, (insertQ q w).Perm (w :: q)
  | [] => .refl _
  | x :: q => by
    rw [insertQ_cons]
    split_ifs
    · exact .refl _
    · exact ((insertQ_perm w q).cons x).trans (.swap w x q)

end Queue

/-! ## What a move does to the queue -/

/-- The queue loses entries, takes a waiter in, or is jumped by a preempting one. -/
inductive QStep (qmax : Nat) (q : Queue) : Queue → Prop
  | shrink {q' : Queue} : q'.Sublist q → QStep qmax q q'
  | insert (u : String) (p : Nat) : q.inQ u = false → q.length < qmax →
      QStep qmax q (q.insertQ ⟨u, p, false⟩)
  | jump (u : String) (p : Nat) : q.inQ u = false → q.preQ = false →
      QStep qmax q (⟨u, p, true⟩ :: q)

theorem QStep.refl (qmax : Nat) (q : Queue) : QStep qmax q q := .shrink (List.Sublist.refl q)

theorem View.idleEnter_queue (v : View) : v.idleEnter.queue = v.queue.tail := by
  cases hq : v.queue with
  | nil => rw [View.idleEnter_nil hq]; exact hq
  | cons w ws => rw [View.idleEnter_cons hq]; rfl

theorem View.idleEnter_qmax (v : View) : v.idleEnter.qmax = v.qmax := by
  rw [View.idleEnter]
  split <;> rfl

theorem View.idleEnter_g (v : View) :
    (v.queue = [] ∧ v.idleEnter.g = .idle) ∨ (v.queue ≠ [] ∧ v.idleEnter.g = .taken) := by
  cases hq : v.queue with
  | nil => rw [View.idleEnter_nil hq]; exact .inl ⟨rfl, rfl⟩
  | cons w ws => rw [View.idleEnter_cons hq]; exact .inr ⟨by simp, rfl⟩

theorem View.idleEnter_holder (v : View) : v.idleEnter.holder = v.queue.head?.map (·.u) := by
  cases hq : v.queue with
  | nil => rw [View.idleEnter_nil hq]; rfl
  | cons w ws => rw [View.idleEnter_cons hq]; rfl

theorem Away.queue {u : String} {v : View} {fx : List Fx} {v' : View} (h : Away u v fx v') :
    v'.queue.Sublist v.queue := by
  cases h with
  | speaker => rw [View.idleEnter_queue]; exact List.tail_sublist _
  | revoking => exact List.Sublist.refl _
  | queued => exact List.filter_sublist
  | other => exact List.Sublist.refl _

theorem Move.queue {o : Op} {v : View} {fx : List Fx} {v' : View} (h : Move o v fx v') :
    QStep v.qmax v.queue v'.queue := by
  cases h with
  | tune | stray | settle | lower | revoke | grant | regrant | again | join => exact .refl _ _
  | enqueue u p _ _ hq hlen => exact .insert u p hq hlen
  | dequeue => exact .shrink List.filter_sublist
  | preempt u sp p _ _ hq hpre => exact .jump u p hq hpre
  | free | rejoin =>
    refine .shrink ?_
    show (View.idleEnter _).queue.Sublist _
    rw [View.idleEnter_queue]
    exact List.tail_sublist _
  | pubAway u h => exact .shrink h.queue
  | leave u h => exact .shrink h.queue

/-! ## The discipline -/

/-- What holds of the queue in every reachable state. -/
structure View.QueueOk (v : View) : Prop where
  nodup : (v.queue.map (·.u)).Nodup
  ordered : v.queue.Pairwise Queue.Ordered
  behind : v.queue.Pairwise fun _ w => w.pre = false
  preQ : v.queue.preQ = true → v.g = .prevoke
  idle : v.g = .idle → v.queue = []
  bound : (v.queue.filter (!·.pre)).length ≤ v.qmax

theorem Queue.preQ_sublist {q q' : Queue} (h : q'.Sublist q) (hp : q'.preQ = true) :
    q.preQ = true := by
  obtain ⟨w, hw, hpre⟩ := List.any_eq_true.1 hp
  exact List.any_eq_true.2 ⟨w, h.subset hw, hpre⟩

theorem Queue.preQ_perm {q q' : Queue} (h : q'.Perm q) : q'.preQ = q.preQ := by
  rw [Bool.eq_iff_iff, Queue.preQ, Queue.preQ, List.any_eq_true, List.any_eq_true]
  simp only [h.mem_iff]

/-- Losing entries keeps what does not speak of `g`. -/
theorem View.QueueOk.shrink {v v' : View} (h : v.QueueOk) (hs : v'.queue.Sublist v.queue)
    (hm : v'.qmax = v.qmax) (hpre : v'.queue.preQ = true → v'.g = .prevoke)
    (hidle : v'.g = .idle → v'.queue = []) : v'.QueueOk where
  nodup := h.nodup.sublist (hs.map _)
  ordered := h.ordered.sublist hs
  behind := h.behind.sublist hs
  preQ := hpre
  idle := hidle
  bound := hm ▸ ((hs.filter _).length_le.trans h.bound)

theorem View.QueueOk.shrink_same {v v' : View} (h : v.QueueOk)
    (hs : v'.queue.Sublist v.queue) (hm : v'.qmax = v.qmax) (hg : v'.g = v.g) : v'.QueueOk :=
  h.shrink hs hm (fun hp => hg ▸ h.preQ (Queue.preQ_sublist hs hp)) fun hi =>
    List.sublist_nil.1 (h.idle (hg ▸ hi) ▸ hs)

theorem View.QueueOk.congr {v v' : View} (h : v.QueueOk) (hq : v'.queue = v.queue)
    (hm : v'.qmax = v.qmax) (hg : v'.g = v.g) : v'.QueueOk :=
  h.shrink_same (hq ▸ List.Sublist.refl _) hm hg

/-- Behind the head nobody preempts. -/
theorem View.QueueOk.tail {v : View} (h : v.QueueOk) : ∀ w ∈ v.queue.tail, w.pre = false := by
  cases hq : v.queue with
  | nil => simp
  | cons w ws =>
    have hb := h.behind
    rw [hq] at hb
    exact (List.pairwise_cons.1 hb).1

theorem View.QueueOk.idleEnter {v : View} (h : v.QueueOk) : v.idleEnter.QueueOk := by
  have hq : v.idleEnter.queue = v.queue.tail := v.idleEnter_queue
  refine h.shrink (hq ▸ List.tail_sublist _) v.idleEnter_qmax ?_ ?_
  · intro hp
    rw [hq] at hp
    obtain ⟨w, hw, hpre⟩ := List.any_eq_true.1 hp
    simp [h.tail w hw] at hpre
  · intro hi
    rcases v.idleEnter_g with ⟨hn, -⟩ | ⟨-, hg⟩
    · rw [hq, hn]; rfl
    · rw [hg] at hi
      simp at hi

theorem View.QueueOk.insert {v : View} {u : String} {p : Nat} (h : v.QueueOk)
    (hg : v.g ≠ .idle) (hq : v.queue.inQ u = false) (hlen : v.queue.length < v.qmax) :
    View.QueueOk { v with queue := v.queue.insertQ ⟨u, p, false⟩ } := by
  let w : Waiter := ⟨u, p, false⟩
  have hperm : (v.queue.insertQ w).Perm (w :: v.queue) := Queue.insertQ_perm w v.queue
  refine ⟨?_, ?_, ?_, ?_, ?_, ?_⟩
  · refine (hperm.map (·.u)).nodup_iff.2 ?_
    exact List.nodup_cons.2 ⟨Queue.not_inQ hq, h.nodup⟩
  · refine Queue.pairwise_insertQ h.ordered h.ordered (fun x _ hb => hb) ?_
    intro x _ hb
    rw [Queue.ordered_iff]
    cases hx : x.pre <;> simp_all [Queue.before]
    omega
  · refine Queue.pairwise_insertQ h.ordered h.behind (fun _ _ _ => rfl) ?_
    intro x _ hb
    cases hx : x.pre <;> simp_all [Queue.before]
  · intro hp
    refine h.preQ ?_
    rw [Queue.preQ_perm hperm] at hp
    exact hp
  · exact fun hi => absurd hi hg
  · have hf := (hperm.filter (!·.pre)).length_eq
    have hle : (v.queue.filter (!·.pre)).length ≤ v.queue.length := List.length_filter_le _ _
    show ((v.queue.insertQ w).filter (!·.pre)).length ≤ v.qmax
    rw [hf]
    simp only [w, List.filter_cons, Bool.not_false, if_true, List.length_cons]
    omega

theorem View.QueueOk.jump {v v' : View} {u : String} {p : Nat} (h : v.QueueOk)
    (hq : v.queue.inQ u = false) (hpre : v.queue.preQ = false) (hg : v'.g = .prevoke)
    (hv : v'.queue = ⟨u, p, true⟩ :: v.queue) (hm : v'.qmax = v.qmax) : v'.QueueOk := by
  have hall : ∀ w ∈ v.queue, w.pre = false := fun w hw => by
    simpa using List.any_eq_false.1 hpre w hw
  refine ⟨?_, ?_, ?_, ?_, ?_, ?_⟩
  · rw [hv]
    exact List.nodup_cons.2 ⟨Queue.not_inQ hq, h.nodup⟩
  · rw [hv]
    refine List.pairwise_cons.2 ⟨?_, h.ordered⟩
    intro w hw
    exact (Queue.ordered_iff _ _).2 (.inl ⟨rfl, hall w hw⟩)
  · rw [hv]
    exact List.pairwise_cons.2 ⟨hall, h.behind⟩
  · exact fun _ => hg
  · intro hi
    rw [hg] at hi
    simp at hi
  · rw [hv, hm]
    simpa [List.filter_cons] using h.bound

theorem Away.queueOk {u : String} {v : View} {fx : List Fx} {v' : View} (h : Away u v fx v')
    (ho : v.QueueOk) : v'.QueueOk := by
  cases h with
  | speaker => exact ho.idleEnter
  | revoking => exact ho
  | queued => exact ho.shrink_same List.filter_sublist rfl rfl
  | other => exact ho

/-- **Every move keeps the discipline.** Only `enqueue` needs the agreement: who may enqueue is
in `NP_TAKEN`, so the floor is not idle. -/
theorem Move.queueOk {o : Op} {v : View} {fx : List Fx} {v' : View} (h : Move o v fx v')
    (ha : v.Agreement) (ho : v.QueueOk) : v'.QueueOk := by
  cases h with
  | tune | stray | settle | lower | regrant | again | join => exact ho.congr rfl rfl rfl
  | enqueue u p hmay hp hq hlen =>
    refine ho.insert ?_ hq hlen
    have hv := ha.member u hmay.member
    rw [View.Agrees, hp] at hv
    exact hv.1
  | dequeue => exact ho.shrink_same List.filter_sublist rfl rfl
  | preempt u sp p _ _ hq hpre => exact ho.jump hq hpre rfl rfl rfl
  | revoke => exact ho.shrink (List.Sublist.refl _) rfl (fun _ => rfl) fun hi => by cases hi
  | free u f =>
    have hu : (v.upd u f).QueueOk := ho.congr rfl rfl rfl
    exact hu.idleEnter
  | grant u p _ _ hg =>
    have hq : v.queue = [] := ho.idle hg
    refine ho.shrink (List.Sublist.refl _) rfl ?_ fun _ => hq
    intro hp
    have hp' : v.queue.preQ = true := hp
    rw [hq] at hp'
    simp [Queue.preQ] at hp'
  | pubAway u h => exact h.queueOk (ho.congr rfl rfl rfl)
  | leave u h => exact (h.queueOk (ho.congr rfl rfl rfl)).congr rfl rfl rfl
  | rejoin => exact ho.idleEnter.congr rfl rfl rfl

theorem Away.qmax {u : String} {v : View} {fx : List Fx} {v' : View} (h : Away u v fx v') :
    v'.qmax = v.qmax := by
  cases h with
  | speaker => exact View.idleEnter_qmax _
  | revoking | queued | other => rfl

/-- The bound on the queue never changes. -/
theorem Move.qmax {o : Op} {v : View} {fx : List Fx} {v' : View} (h : Move o v fx v') :
    v'.qmax = v.qmax := by
  cases h with
  | tune | stray | settle | lower | regrant | again | join | enqueue | dequeue | preempt | revoke
  | grant => rfl
  | free u f => exact View.idleEnter_qmax (v.upd u f)
  | pubAway u h => exact h.qmax
  | leave u h => exact h.qmax
  | rejoin => exact View.idleEnter_qmax v

/-! ## The order of arrival -/

/-- The waiting users in the order in which they entered the queue, after it went from `q` to
`q'`: who left is struck out, who entered comes last. -/
def Queue.arrive (q q' : Queue) (h : List String) : List String :=
  h.filter q'.inQ ++ (q'.map (·.u)).filter fun u => !q.inQ u

/-- The history of a run: the waiting users in the order of their arrival. -/
def arrivals (h : List String) (f : Floor) (o : Op) : List String :=
  f.queue.arrive (f.apply o).fl.queue h

/-- Waiters of equal priority that do not preempt stand in the order of `h`. -/
structure Queue.Fifo (q : Queue) (h : List String) : Prop where
  perm : h.Perm (q.map (·.u))
  order : q.Pairwise fun a b => a.pre = false → b.pre = false → a.p = b.p →
    [a.u, b.u].Sublist h

theorem Queue.inQ_of_mem {q : Queue} {w : Waiter} (h : w ∈ q) : q.inQ w.u = true :=
  inQ_iff.2 (List.mem_map_of_mem h)

theorem Queue.Fifo.shrink {q q' : Queue} {h : List String} (hf : q.Fifo h)
    (hn : (q.map (·.u)).Nodup) (hs : q'.Sublist q) : q'.Fifo (q.arrive q' h) := by
  have hnew : ((q'.map (·.u)).filter fun u => !q.inQ u) = [] := by
    refine List.filter_eq_nil_iff.2 ?_
    intro u hu
    simp [inQ_iff.2 ((hs.map (·.u)).subset hu)]
  rw [Queue.arrive, hnew, List.append_nil]
  refine ⟨?_, ?_⟩
  · refine (List.perm_ext_iff_of_nodup ((hf.perm.nodup_iff.2 hn).filter _)
      (hn.sublist (hs.map _))).2 ?_
    intro u
    rw [List.mem_filter, inQ_iff, hf.perm.mem_iff]
    exact and_iff_right_of_imp fun hu => (hs.map (·.u)).subset hu
  · refine (hf.order.sublist hs).imp_of_mem ?_
    intro a b ha hb hab hpa hpb hp
    have hsub := (hab hpa hpb hp).filter q'.inQ
    rwa [List.filter_cons, if_pos (inQ_of_mem ha), List.filter_cons, if_pos (inQ_of_mem hb),
      List.filter_nil] at hsub

/-- The newcomer is the last of the history. -/
theorem Queue.arrive_new {q q' : Queue} {h : List String} {w : Waiter} (hf : q.Fifo h)
    (hw : q.inQ w.u = false) (hp : q'.Perm (w :: q)) : q.arrive q' h = h ++ [w.u] := by
  have hold : h.filter q'.inQ = h := by
    refine List.filter_eq_self.2 fun u hu => inQ_iff.2 ?_
    rw [(hp.map (·.u)).mem_iff]
    exact List.mem_cons_of_mem _ (hf.perm.mem_iff.1 hu)
  have hnew : ((q'.map (·.u)).filter fun u => !q.inQ u).Perm [w.u] := by
    refine ((hp.map (·.u)).filter _).trans ?_
    rw [List.map_cons, List.filter_cons, hw, List.filter_eq_nil_iff.2 fun u hu => ?_]
    · exact .refl _
    · simp [inQ_iff.2 hu]
  rw [Queue.arrive, hold, List.perm_singleton.1 hnew]

theorem Queue.Fifo.perm_new {q q' : Queue} {h : List String} {w : Waiter} (hf : q.Fifo h)
    (hp : q'.Perm (w :: q)) : (h ++ [w.u]).Perm (q'.map (·.u)) := by
  have hmap : (q'.map (·.u)).Perm (w.u :: q.map (·.u)) := hp.map _
  exact (List.perm_append_singleton _ _).trans ((hf.perm.cons w.u).trans hmap.symm)

theorem Queue.Fifo.older {q : Queue} {h : List String} (hf : q.Fifo h) (u : String) :
    q.Pairwise fun a b => a.pre = false → b.pre = false → a.p = b.p →
      [a.u, b.u].Sublist (h ++ [u]) :=
  hf.order.imp fun hab hpa hpb hp => (hab hpa hpb hp).trans (List.sublist_append_left _ _)

/-- **Every change of the queue keeps the order of arrival.** -/
theorem QStep.fifo {qmax : Nat} {q q' : Queue} {h : List String} (hs : QStep qmax q q')
    (ho : q.Pairwise Queue.Ordered) (hn : (q.map (·.u)).Nodup) (hf : q.Fifo h) :
    q'.Fifo (q.arrive q' h) := by
  cases hs with
  | shrink hs => exact hf.shrink hn hs
  | insert u p hu _ =>
    have hperm := Queue.insertQ_perm ⟨u, p, false⟩ q
    rw [Queue.arrive_new hf hu hperm]
    refine ⟨hf.perm_new hperm, ?_⟩
    refine Queue.pairwise_insertQ ho (hf.older u) ?_ ?_
    · intro x hx _ _ _ _
      have hxh : x.u ∈ h := hf.perm.mem_iff.2 (List.mem_map_of_mem hx)
      exact (List.singleton_sublist.2 hxh).append (List.Sublist.refl [u])
    · intro x _ hb _ hpx hp
      -- going before `x` without preempting takes a higher priority
      simp_all [Queue.before]
  | jump u p hu _ =>
    have hperm : (⟨u, p, true⟩ :: q : Queue).Perm (⟨u, p, true⟩ :: q) := .refl _
    rw [Queue.arrive_new hf hu hperm]
    refine ⟨hf.perm_new hperm, List.pairwise_cons.2 ⟨?_, hf.older u⟩⟩
    intro x _ hpre
    simp at hpre

/-! ## Runs -/

/-- The invariant of a run with its history of arrivals. -/
structure QueueInv (qmax : Nat) (s : Floor × List String) : Prop where
  agreement : s.1.view.Agreement
  queueOk : s.1.view.QueueOk
  fifo : s.1.queue.Fifo s.2
  bound : s.1.qmax = qmax

theorem queueInv_new (qmax t2Secs : Nat) : QueueInv qmax (Floor.new qmax t2Secs, []) where
  agreement := agreement_new qmax t2Secs
  queueOk := ⟨.nil, .nil, .nil, nofun, fun _ => rfl, Nat.zero_le _⟩
  fifo := ⟨.refl _, .nil⟩
  bound := rfl

theorem step_queueInv {qmax : Nat} (s : Floor × List String) (o : Op) (h : QueueInv qmax s)
    (ha : o.Armed s.1) : QueueInv qmax ((machine.logged arrivals).next s o) := by
  have hm := s.1.move o h.agreement.held ha
  exact {
    agreement := hm.agreement h.agreement
    queueOk := hm.queueOk h.agreement h.queueOk
    fifo := hm.queue.fifo h.queueOk.ordered h.queueOk.nodup h.fifo
    bound := hm.qmax.trans h.bound }

theorem run_queueInv {qmax t2Secs : Nat} {ops : List Op}
    (hl : machine.Legal (Floor.new qmax t2Secs) ops) :
    QueueInv qmax ((machine.logged arrivals).exec (Floor.new qmax t2Secs, []) ops) :=
  Machine.invariant (fun s o h ha => step_queueInv s o h ha) (queueInv_new qmax t2Secs)
    ((Machine.logged_legal arrivals _ ops).2 hl)

/-- The discipline holds in every reachable state. -/
theorem run_queueOk {qmax t2Secs : Nat} {ops : List Op}
    (hl : machine.Legal (Floor.new qmax t2Secs) ops) :
    (machine.exec (Floor.new qmax t2Secs) ops).view.QueueOk := by
  have h := (run_queueInv hl).queueOk
  rwa [Machine.logged_exec_fst] at h

/-- The number of waiters, from the bound on those that do not preempt. -/
theorem View.QueueOk.length_le {v : View} (h : v.QueueOk) :
    v.queue.length ≤ if v.queue.preQ then v.qmax + 1 else v.qmax := by
  have hb := h.bound
  have hrest : v.queue.tail.filter (!·.pre) = v.queue.tail :=
    List.filter_eq_self.2 fun w hw => by simp [h.tail w hw]
  cases hq : v.queue with
  | nil => simp
  | cons w ws =>
    rw [hq] at hb hrest
    rw [List.tail_cons] at hrest
    rw [List.filter_cons, hrest] at hb
    cases hw : w.pre <;> simp only [hw, Bool.not_false, Bool.not_true, if_true, Bool.false_eq_true,
      if_false, List.length_cons] at hb ⊢
    · split_ifs <;> omega
    · rw [if_pos (by simp [Queue.preQ, hw])]
      omega

/-- **The queue discipline.** In every reachable state: nobody waits twice; preempting entries
come first, then higher priorities, then earlier arrivals (`arr` lists the waiting users in the
order in which they entered the queue); a preempting entry stands at the head, alone, and only
while the floor is being revoked; an idle floor has no queue; and the queue keeps its bound, up to
one place for a preempting entry. -/
theorem queue_discipline (qmax t2Secs : Nat) (ops : List Op)
    (hl : machine.Legal (Floor.new qmax t2Secs) ops) :
    let f := machine.exec (Floor.new qmax t2Secs) ops
    let arr := ((machine.logged arrivals).exec (Floor.new qmax t2Secs, []) ops).2
    (f.queue.map (·.u)).Nodup ∧
    f.queue.Pairwise (fun a b => (a.pre = true ∧ b.pre = false) ∨ (a.pre = b.pre ∧ b.p ≤ a.p)) ∧
    arr.Perm (f.queue.map (·.u)) ∧
    f.queue.Pairwise (fun a b => a.pre = false → b.pre = false → a.p = b.p →
      [a.u, b.u].Sublist arr) ∧
    (∀ w ∈ f.queue.tail, w.pre = false) ∧
    (∀ w ∈ f.queue, w.pre = true → f.g = .prevoke) ∧
    (f.g = .idle → f.queue = []) ∧
    f.queue.length ≤ (if f.queue.preQ then qmax + 1 else qmax) := by
  intro f arr
  have h := run_queueInv hl
  have hf : ((machine.logged arrivals).exec (Floor.new qmax t2Secs, []) ops).1 = f :=
    Machine.logged_exec_fst arrivals _ ops
  have hok : f.view.QueueOk := hf ▸ h.queueOk
  have hfifo : f.queue.Fifo arr := hf ▸ h.fifo
  have hmax : f.view.qmax = qmax := hf ▸ h.bound
  refine ⟨hok.nodup, hok.ordered.imp fun hab => (Queue.ordered_iff _ _).1 hab, hfifo.perm,
    hfifo.order, hok.tail, ?_, hok.idle, hmax ▸ hok.length_le⟩
  intro w hw hpre
  exact hok.preQ (List.any_eq_true.2 ⟨w, hw, hpre⟩)

/-- Four users: `a` holds the floor, `b` and `c` wait with equal priority and `d` preempts. -/
def crowdRun : List Op :=
  (["a", "b", "c", "d"].flatMap fun u => [.wsJoin u true, .wsPubSelect u]) ++
    [.serverRx "a" { t := .request, n := 1 } true 0,
      .serverRx "c" { t := .request, n := 1 } true 0,
      .serverRx "b" { t := .request, n := 1 } true 0,
      .serverRx "d" { t := .request, n := 2 } true 0]

theorem queue_discipline_crowd :
    machine.Legal (Floor.new 2 30) crowdRun ∧
    (let f := machine.exec (Floor.new 2 30) crowdRun
     let arr := ((machine.logged arrivals).exec (Floor.new 2 30, []) crowdRun).2
     (f.queue.map (·.u)) = ["d", "c", "b"] ∧ arr = ["c", "b", "d"] ∧
     f.queue.length ≤ (if f.queue.preQ then 2 + 1 else 2)) :=
  ⟨by decide, by decide, by decide,
    (queue_discipline 2 30 crowdRun (by decide)).2.2.2.2.2.2.2⟩

end OxlensSfu.Flr
