import OxlensSfu.Lib.Slots
import OxlensSfu.Mesh.Shed

/-!
# Two routers that dial each other

Both dial, again and again, and each may have to choose between two connections. A connection has
two ends, and the router of each decides on its own (`on_ev`, `accept_verdict`, `install` and
`close` of `crates/oxmesh/src/core.rs`): the accepting one when the hello of the dialer arrives,
the dialer when that is answered. In between anything may happen at both, connections and sessions
may break at any time, and a router may start anew with a greater boot.

A session carries the identity of the dial its connection comes from (`Inv.held`), at either end.
So the routers agree as soon as no session waits for the end of its stream (`Inv.agrees`).
-/

namespace OxlensSfu.Mesh

/-- A connection that one of the routers has dialed. Its end `true` is the dialer's. -/
structure Conn where
  who : Bool
  target : String
  hello : Hello
  /-- What the other router said when it accepted. -/
  reply : Option Hello := none
  /-- The end has been given to its router, or never will be. -/
  came : Bool → Bool := fun _ => false

namespace Conn

/-- The router at an end. -/
def side (x : Conn) (b : Bool) : Bool := if b then x.who else !x.who

def comes (x : Conn) (b : Bool) : Conn := { x with came := Function.update x.came b true }

theorem comes_self (x : Conn) (b : Bool) : (x.comes b).came b = true := Function.update_self ..

/-- The process of the router is gone. -/
def drops (i : Bool) (x : Conn) : Conn := { x with came := fun b => x.came b || x.side b == i }

end Conn

structure Pair where
  core : Bool → Core
  conns : List Conn := []

namespace Pair

inductive Act where
  | own (i : Bool) (o : Told) (e : Ev)
  /-- A dial, with a greater number than those before it of the same process. -/
  | dial (i : Bool) (sno : Nat) (target : String)
  /-- The hello of the dialer arrives. -/
  | accept (k : Nat) (o : Told)
  /-- The dialer is answered. -/
  | answer (k : Nat) (o : Told)
  /-- An end breaks before it is given to its router. -/
  | fail (k : Nat) (b : Bool)
  /-- The process of a router ends, and another one starts. -/
  | restart (i : Bool) (leaseMs boot : Nat) (adv : Option String) (seeds : List String)

def new (names : Bool → String) (leaseMs boot : Bool → Nat) (adv : Bool → Option String)
    (seeds : Bool → List String) : Pair where
  core i := Core.new (names i) true (leaseMs i) (boot i) (adv i) (seeds i)

def handle (w : Pair) (i : Bool) (o : Told) (e : Ev) : Pair :=
  { w with core := Function.update w.core i ((w.core i).onEv o e) }

/-- The end has a session. -/
def on (w : Pair) (k : Nat) (b : Bool) : Bool :=
  (w.conns[k]?).any fun x => ((w.core (x.side b)).on k).isSome

def came (w : Pair) (k : Nat) (b : Bool) : Bool := (w.conns[k]?).any (·.came b)

/-- Nothing is on its way: both ends of every connection have been given to their routers, and no
session waits for the end of its stream, whose other end is gone. -/
def Still (w : Pair) : Prop :=
  ∀ k < w.conns.length, ∀ b, w.came k b = true ∧ (w.on k b = true → w.on k (!b) = true)

instance (w : Pair) : Decidable w.Still :=
  inferInstanceAs (Decidable (∀ k < w.conns.length, ∀ _ : Bool, _))

/-- Both routers have a session of the same dial, or none. -/
def Agrees (w : Pair) : Prop :=
  (∃ y z, (w.core true).Has y ∧ (w.core false).Has z ∧
    (y.dialer, y.boot, y.sno) = (z.dialer, z.boot, z.sno)) ∨ ∀ i y, ¬ (w.core i).Has y

/-- Both routers have a session that this router has dialed. -/
def DialedBy (w : Pair) (n : String) : Prop := ∀ i, ∃ y, (w.core i).Has y ∧ y.dialer = n

end Pair

def meeting : Machine Pair Pair.Act where
  ok w
    | .own i _ e => (w.core i).running = true ∧ e.brings = none
    | .dial i sno target => (w.core i).running = true ∧ target ∈ (w.core i).dials ∧
      ∀ x ∈ w.conns, x.who = i → x.hello.boot = (w.core i).boot → x.hello.sno < sno
    | .accept k _ => ∃ x ∈ w.conns[k]?, (w.core (!x.who)).running = true ∧ x.came false = false
    | .answer k _ => ∃ x ∈ w.conns[k]?, (w.core x.who).running = true ∧ x.came true = false ∧
      x.reply ≠ none
    | .fail k b => ∃ x ∈ w.conns[k]?, x.came b = false
    | .restart i _ boot _ _ => (w.core i).boot < boot
  next w
    | .own i o e => w.handle i o e
    | .dial i sno target =>
      { w with conns := w.conns ++ [{ who := i, target, hello := (w.core i).myHello sno }] }
    | .accept k o => match w.conns[k]? with
      | none => w
      | some x =>
        let reply := if o.broken then none else some ((w.core (!x.who)).myHello x.hello.sno)
        { w.handle (!x.who) o (.accepted k x.hello) with
          conns := w.conns.set k { x.comes false with reply } }
    | .answer k o => match w.conns[k]? with
      | none => w
      | some x =>
        { w.handle x.who o (.dialed x.target x.hello.sno (x.reply.map (k, ·))) with
          conns := w.conns.set k (x.comes true) }
    | .fail k b => { w with conns := w.conns.modify k (·.comes b) }
    | .restart i leaseMs boot adv seeds =>
      { core := Function.update w.core i (Core.new (w.core i).node true leaseMs boot adv seeds)
        conns := w.conns.map (·.drops i) }

namespace Pair

/-! ## Sessions and their connections -/

theorem on_iff {w : Pair} {k : Nat} {x : Conn} (hx : w.conns[k]? = some x) (b : Bool) :
    w.on k b = true ↔ ∃ y, (w.core (x.side b)).Has y ∧ y.stream = k := by
  rw [on, hx]
  show ((w.core (x.side b)).on k).isSome = true ↔ _
  rw [Option.isSome_iff_exists]
  refine ⟨fun ⟨u, hu⟩ => ?_, fun ⟨y, ⟨u, hu⟩, hk⟩ => ?_⟩
  · obtain ⟨s, hs, hk⟩ := Core.of_on hu
    exact ⟨s.ident, ⟨u, Core.ident_of hs⟩, hk⟩
  · by_contra hno
    obtain ⟨s, hs, rfl⟩ := Core.of_ident hu
    cases hon : (w.core (x.side b)).on k with
    | some v => exact hno ⟨v, hon⟩
    | none =>
      rw [Core.on, Option.map_eq_none_iff, List.find?_eq_none] at hon
      have hne : ¬ s.stream = k := by simpa using hon ⟨u, s⟩ ((Map.mem_entries _).2 hs)
      exact absurd hk hne

theorem came_of {w : Pair} {k : Nat} {x : Conn} (hx : w.conns[k]? = some x) (b : Bool) :
    w.came k b = x.came b := by
  rw [came, hx]
  rfl

/-- The connection later in a run. -/
structure Grown (x x' : Conn) : Prop where
  who : x'.who = x.who
  target : x'.target = x.target
  hello : x'.hello = x.hello
  came : ∀ b, x.came b = true → x'.came b = true
  reply : ∀ r, x.reply = some r → x'.reply = some r

def Later (l l' : List Conn) : Prop := List.Forall₂ Grown l l'

/-- The identity of a session on the connection, at one of the routers. -/
def ident (names : Bool → String) (x : Conn) (k : Nat) (i : Bool) : Ident :=
  ⟨names (!i), names x.who, x.hello.boot, x.hello.sno, k⟩

/-- The router has an end of the connection, which has been accepted. What it has dialed itself has
its boot. -/
def Held (names : Bool → String) (l : List Conn) (boot : Nat) (i : Bool) (y : Ident) : Prop :=
  ∃ x, l[y.stream]? = some x ∧ y = ident names x y.stream i ∧ x.reply ≠ none ∧
    ∃ b, x.side b = i ∧ x.came b = true ∧ (b = true → x.hello.boot = boot)

structure Inv (names : Bool → String) (w : Pair) : Prop where
  node : ∀ i, (w.core i).node = names i
  router : ∀ i, (w.core i).router = true
  seated : ∀ i, (w.core i).Seated
  held : ∀ i y, (w.core i).Has y → Held names w.conns (w.core i).boot i y
  order : ∀ (j k : Nat) (x z : Conn), j < k → w.conns[j]? = some x → w.conns[k]? = some z →
    x.who = z.who → x.hello.boot < z.hello.boot ∨
      x.hello.boot = z.hello.boot ∧ x.hello.sno < z.hello.sno
  hello : ∀ (k : Nat) (x : Conn), w.conns[k]? = some x → x.hello.proto = proto ∧
    x.hello.role = .router ∧ x.hello.node = names x.who
  reply : ∀ (k : Nat) (x : Conn) r, w.conns[k]? = some x → x.reply = some r → r.proto = proto ∧
    r.role = .router ∧ r.node = names (!x.who) ∧ x.came false = true
  boot : ∀ (k : Nat) (x : Conn), w.conns[k]? = some x → x.hello.boot ≤ (w.core x.who).boot
  /-- A dial that is not answered is one of the process that runs. -/
  waits : ∀ (k : Nat) (x : Conn), w.conns[k]? = some x → x.came true = false →
    x.hello.boot = (w.core x.who).boot ∧ x.target ∈ (w.core x.who).dials

variable {names : Bool → String} {w : Pair} {i : Bool} {k : Nat} {b : Bool} {x x' : Conn}
  {l l' : List Conn} {y : Ident}

theorem Grown.refl (x : Conn) : Grown x x := ⟨rfl, rfl, rfl, fun _ h => h, fun _ h => h⟩

theorem Grown.side (h : Grown x x') (b : Bool) : x'.side b = x.side b := by
  rw [Conn.side, h.who, Conn.side]

theorem Grown.reply_ne (h : Grown x x') (hx : x.reply ≠ none) : x'.reply ≠ none := by
  obtain ⟨r, hr⟩ := Option.ne_none_iff_exists'.1 hx
  rw [h.reply r hr]
  exact nofun

theorem Grown.comes (x : Conn) (b : Bool) : Grown x (x.comes b) := by
  refine ⟨rfl, rfl, rfl, fun b' h => ?_, fun _ h => h⟩
  simp only [Conn.comes, Function.update_apply]
  split_ifs
  · rfl
  · exact h

namespace Later

theorem refl (l : List Conn) : Later l l := List.forall₂_same.2 fun x _ => .refl x

theorem get (h : Later l l') (hx : l[k]? = some x) : ∃ x', l'[k]? = some x' ∧ Grown x x' := by
  induction h generalizing k with
  | nil => exact absurd hx nofun
  | cons hg _ ih =>
    cases k with
    | zero =>
      obtain rfl := Option.some.inj hx
      exact ⟨_, rfl, hg⟩
    | succ k => exact ih hx

theorem back (h : Later l l') (hx : l'[k]? = some x') : ∃ x, l[k]? = some x ∧ Grown x x' := by
  induction h generalizing k with
  | nil => exact absurd hx nofun
  | cons hg _ ih =>
    cases k with
    | zero =>
      obtain rfl := Option.some.inj hx
      exact ⟨_, rfl, hg⟩
    | succ k => exact ih hx

theorem set (hx : l[k]? = some x) (hg : Grown x x') : Later l (l.set k x') := by
  induction l generalizing k with
  | nil => exact absurd hx nofun
  | cons z l ih =>
    cases k with
    | zero =>
      obtain rfl := Option.some.inj hx
      exact .cons hg (refl l)
    | succ k => exact .cons (.refl z) (ih hx)

theorem map {f : Conn → Conn} (hf : ∀ x, Grown x (f x)) (l : List Conn) : Later l (l.map f) :=
  List.forall₂_map_right_iff.2 (List.forall₂_same.2 fun x _ => hf x)

theorem held (h : Later l l') {boot : Nat} : Held names l boot i y → Held names l' boot i y
  | ⟨x, hx, hy, hr, b, hb, hc, hboot⟩ => by
    obtain ⟨x', hx', hg⟩ := h.get hx
    refine ⟨x', hx', ?_, hg.reply_ne hr, b, (hg.side b).trans hb, hg.came b hc, fun h => ?_⟩
    · rw [hy, ident, ident, hg.who, hg.hello]
    · rw [hg.hello, hboot h]

end Later

/-! ## Ends that are given to their routers -/

/-- The connection when it has been accepted by the router. -/
def accepted (x : Conn) (c : Core) (o : Told) : Conn :=
  { x.comes false with reply := if o.broken then none else some (c.myHello x.hello.sno) }

theorem next_accept (hx : w.conns[k]? = some x) (o : Told) : meeting.next w (.accept k o) =
    ⟨Function.update w.core (!x.who) ((w.core (!x.who)).onAccepted o k x.hello),
      w.conns.set k (accepted x (w.core (!x.who)) o)⟩ := by
  simp only [meeting, hx]
  rfl

theorem next_answer (hx : w.conns[k]? = some x) {r : Hello} (hr : x.reply = some r) (o : Told) :
    meeting.next w (.answer k o) =
      ⟨Function.update w.core x.who
        ((w.core x.who).onDialed o x.target x.hello.sno (some (k, r))),
        w.conns.set k (x.comes true)⟩ := by
  simp only [meeting, hx, hr]
  rfl

theorem next_fail (hx : w.conns[k]? = some x) (b : Bool) :
    meeting.next w (.fail k b) = ⟨w.core, w.conns.set k (x.comes b)⟩ := by
  have hset : w.conns.modify k (·.comes b) = w.conns.set k (x.comes b) := by
    rw [List.modify_eq_set_getElem?, hx]
    rfl
  rw [← hset]
  rfl

/-- A dial is one connection more. -/
theorem dial_get {sno : Nat} {target : String}
    (hx : (meeting.next w (.dial i sno target)).conns[k]? = some x) :
    k = w.conns.length ∧ x = { who := i, target, hello := (w.core i).myHello sno } ∨
      w.conns[k]? = some x := by
  rw [meeting, getElem?_concat] at hx
  split_ifs at hx with hk
  · exact .inl ⟨hk, (Option.some.inj hx).symm⟩
  · exact .inr hx

theorem dial_old (hx : w.conns[k]? = some x) (i : Bool) (sno : Nat) (target : String) :
    (meeting.next w (.dial i sno target)).conns[k]? = some x := by
  rw [meeting, getElem?_concat, if_neg (slot_ne_length hx), hx]

/-! ## What every run keeps -/

/-- The router has gone on. -/
structure Runs (c c' : Core) : Prop where
  node : c'.node = c.node
  router : c'.router = c.router
  boot : c'.boot = c.boot
  dials : ∀ t ∈ c.dials, t ∈ c'.dials
  seated : c'.Seated

theorem Runs.of_sheds {c c' : Core} (h : Core.Sheds c c') (hc : c.Seated) : Runs c c' :=
  ⟨h.node, h.router, h.boot, h.dials, h.seated hc⟩

theorem Runs.of_takes {c c' : Core} {y : Ident} (h : Core.Takes c y c') : Runs c c' :=
  ⟨h.node, h.router, h.boot, h.dials, h.seated⟩

namespace Inv

theorem change {w' : Pair} (h : w.Inv names) (hl : Later w.conns w'.conns)
    (hnode : ∀ i, (w'.core i).node = (w.core i).node) (hrouter : ∀ i, (w'.core i).router = true)
    (hseated : ∀ i, (w'.core i).Seated)
    (hheld : ∀ i y, (w'.core i).Has y → Held names w'.conns (w'.core i).boot i y)
    (hboot : ∀ i, (w.core i).boot ≤ (w'.core i).boot)
    (hreply : ∀ (k : Nat) (x : Conn) r, w'.conns[k]? = some x → x.reply = some r → r.proto = proto ∧
      r.role = .router ∧ r.node = names (!x.who) ∧ x.came false = true)
    (hwaits : ∀ (k : Nat) (x : Conn), w'.conns[k]? = some x → x.came true = false →
      x.hello.boot = (w'.core x.who).boot ∧ x.target ∈ (w'.core x.who).dials) :
    w'.Inv names where
  node i := (hnode i).trans (h.node i)
  router := hrouter
  seated := hseated
  held := hheld
  order := by
    intro j k x' z' hjk hx' hz' hw
    obtain ⟨x, hx, hgx⟩ := hl.back hx'
    obtain ⟨z, hz, hgz⟩ := hl.back hz'
    rw [hgx.hello, hgz.hello]
    exact h.order j k x z hjk hx hz (hgx.who ▸ hgz.who ▸ hw)
  hello := by
    intro k x' hx'
    obtain ⟨x, hx, hg⟩ := hl.back hx'
    rw [hg.hello, hg.who]
    exact h.hello k x hx
  reply := hreply
  boot := by
    intro k x' hx'
    obtain ⟨x, hx, hg⟩ := hl.back hx'
    rw [hg.hello, hg.who]
    exact (h.boot k x hx).trans (hboot x.who)
  waits := hwaits

/-- One router goes on, and may take in a connection. -/
theorem run {c' : Core} (h : w.Inv names) (hr : Runs (w.core i) c') (hl : Later w.conns l')
    (hheld : ∀ y, c'.Has y → (w.core i).Has y ∨ Held names l' (w.core i).boot i y)
    (hreply : ∀ (k : Nat) (x : Conn) r, l'[k]? = some x → x.reply = some r → r.proto = proto ∧
      r.role = .router ∧ r.node = names (!x.who) ∧ x.came false = true) :
    Inv names ⟨Function.update w.core i c', l'⟩ := by
  have hcore : ∀ (p : Bool → Core → Prop), (∀ j, p j (w.core j)) → p i c' →
      ∀ j, p j (Function.update w.core i c' j) := by
    intro p hall hi j
    rw [Function.update_apply]
    split_ifs with hj
    · exact hj ▸ hi
    · exact hall j
  refine h.change hl (hcore (fun j c => c.node = (w.core j).node) (fun _ => rfl) hr.node)
    (hcore (fun _ c => c.router = true) h.router (hr.router.trans (h.router i)))
    (hcore (fun _ c => c.Seated) h.seated hr.seated)
    (hcore (fun j c => ∀ y, c.Has y → Held names l' c.boot j y)
      (fun j y hy => hl.held (h.held j y hy)) ?_)
    (hcore (fun j c => (w.core j).boot ≤ c.boot) (fun _ => le_rfl) hr.boot.ge) hreply ?_
  · intro y hy
    rw [hr.boot]
    exact (hheld y hy).elim (fun hold => hl.held (h.held i y hold)) id
  · intro k x' hx' hw
    obtain ⟨x, hx, hg⟩ := hl.back hx'
    have hw' : x.came true = false := by
      cases hc : x.came true with
      | false => rfl
      | true => exact absurd (hg.came true hc) (by simp [hw])
    obtain ⟨hb, ht⟩ := h.waits k x hx hw'
    rw [hg.hello, hg.who, hg.target]
    refine hcore (fun j c => x.who = j → x.hello.boot = c.boot ∧ x.target ∈ c.dials) ?_ ?_ x.who rfl
    · rintro j rfl
      exact ⟨hb, ht⟩
    · rintro rfl
      exact ⟨hb.trans hr.boot.symm, hr.dials _ ht⟩

theorem seated_new (node : String) (leaseMs boot : Nat) (adv : Option String)
    (seeds : List String) : (Core.new node true leaseMs boot adv seeds).Seated := by
  refine ⟨fun n u => iff_of_false nofun ?_, fun u x hx => absurd hx nofun⟩
  rintro ⟨x, hx, -⟩
  exact absurd hx nofun

theorem start (names : Bool → String) (leaseMs boot : Bool → Nat) (adv : Bool → Option String)
    (seeds : Bool → List String) : (new names leaseMs boot adv seeds).Inv names where
  node _ := rfl
  router _ := rfl
  seated _ := seated_new ..
  held _ _ h := absurd h fun ⟨_, h⟩ => absurd h nofun
  order _ _ _ _ _ h := absurd h nofun
  hello _ _ h := absurd h nofun
  reply _ _ _ h := absurd h nofun
  boot _ _ h := absurd h nofun
  waits _ _ h := absurd h nofun

/-- An end is given to its router, which takes in a session of the connection or none. -/
theorem comes {c' : Core} (h : w.Inv names) (hx : w.conns[k]? = some x) (hr : Runs (w.core i) c')
    (hb : x.side b = i) (hboot : b = true → x.hello.boot = (w.core i).boot)
    (hg : Grown (x.comes b) x')
    (hheld : ∀ y, c'.Has y → (w.core i).Has y ∨ y = ident names x k i ∧ x'.reply ≠ none)
    (hreply : ∀ r, x'.reply = some r → r.proto = proto ∧ r.role = .router ∧
      r.node = names (!x.who) ∧ x'.came false = true) :
    Inv names ⟨Function.update w.core i c', w.conns.set k x'⟩ := by
  have hgx : Grown x x' := by
    obtain ⟨hw, ht, hh, hc, hr⟩ := hg
    exact ⟨hw, ht, hh, fun b' h' => hc b' ((Grown.comes x b).came b' h'), hr⟩
  refine h.run hr (.set hx hgx) (fun y hy => ?_) fun j z r hz hzr => ?_
  · refine (hheld y hy).imp_right fun ⟨he, hne⟩ => ?_
    have hk : y.stream = k := he ▸ rfl
    refine ⟨x', ?_, ?_, hne, b, (hgx.side b).trans hb, hg.came b (x.comes_self b), fun h => ?_⟩
    · rw [hk, getElem?_set_slot hx, if_pos rfl]
    · rw [hk, he, ident, ident, hgx.who, hgx.hello]
    · rw [hgx.hello, hboot h]
  · rw [getElem?_set_slot hx] at hz
    split_ifs at hz with hj
    · obtain rfl := Option.some.inj hz
      rw [hgx.who]
      exact hreply r hzr
    · exact h.reply j z r hz hzr

theorem accept (h : w.Inv names) (hx : w.conns[k]? = some x) (hcame : x.came false = false)
    (o : Told) : Inv names (meeting.next w (.accept k o)) := by
  obtain ⟨hproto, -, hnode⟩ := h.hello k x hx
  have hnone : ∀ r, x.reply ≠ some r := by
    intro r hr
    rw [(h.reply k x r hx hr).2.2.2] at hcame
    exact absurd hcame nofun
  rw [next_accept hx]
  refine h.comes hx (b := false) ?_ rfl nofun ?_ ?_ ?_
  · obtain ⟨-, -, htakes⟩ | ⟨-, hsame⟩ := Core.onAccepted_spec (h.seated _) o k x.hello
    · exact .of_takes htakes
    · exact .of_sheds (.of_roster hsame) (h.seated _)
  · exact ⟨rfl, rfl, rfl, fun _ hb => hb, fun r hr => absurd hr (hnone r)⟩
  · intro y hy
    obtain ⟨hb, -, htakes⟩ | ⟨-, hsame⟩ := Core.onAccepted_spec (h.seated _) o k x.hello
    · refine ((htakes.has y).1 hy).symm.imp And.left fun he => ⟨?_, by simp [accepted, hb]⟩
      rw [he, ident, hnode, Bool.not_not]
    · exact .inl ((Core.Sheds.of_roster hsame).has hy)
  · intro r hr
    rw [accepted] at hr
    split_ifs at hr
    obtain rfl := Option.some.inj hr
    refine ⟨rfl, ?_, h.node _, x.comes_self false⟩
    simp [Core.myHello, h.router]

theorem answer (h : w.Inv names) (hx : w.conns[k]? = some x) (hcame : x.came true = false)
    (hreply : x.reply ≠ none) (o : Told) : Inv names (meeting.next w (.answer k o)) := by
  obtain ⟨r, hr⟩ := Option.ne_none_iff_exists'.1 hreply
  obtain ⟨-, -, hnode, hfirst⟩ := h.reply k x r hx hr
  obtain ⟨hboot, ht⟩ := h.waits k x hx hcame
  rw [next_answer hx hr]
  refine h.comes hx (b := true) ?_ rfl (fun _ => hboot) (.refl _) ?_ ?_
  · obtain ⟨-, htakes⟩ | ⟨-, hsheds, -⟩ := Core.onDialed_spec (h.seated _) o ht x.hello.sno k r
    · exact .of_takes htakes
    · exact .of_sheds hsheds (h.seated _)
  · intro y hy
    obtain ⟨-, htakes⟩ | ⟨-, hsheds, -⟩ := Core.onDialed_spec (h.seated _) o ht x.hello.sno k r
    · refine ((htakes.has y).1 hy).symm.imp And.left fun he => ⟨?_, hreply⟩
      rw [he, ident, hnode, h.node, hboot]
    · exact .inl (hsheds.has hy)
  · intro r' hr'
    obtain ⟨hp, hrole, hn, hc⟩ := h.reply k x r' hx hr'
    exact ⟨hp, hrole, hn, (Grown.comes x true).came false hc⟩

theorem dial (h : w.Inv names) {sno : Nat} {target : String} (ht : target ∈ (w.core i).dials)
    (hs : ∀ x ∈ w.conns, x.who = i → x.hello.boot = (w.core i).boot → x.hello.sno < sno) :
    Inv names (meeting.next w (.dial i sno target)) := by
  refine ⟨h.node, h.router, h.seated, fun j y hy => ?_, fun j k x z hjk hx hz hw => ?_,
    fun k x hx => ?_, fun k x r hx hr => ?_, fun k x hx => ?_, fun k x hx hc => ?_⟩
  · obtain ⟨x, hx, hrest⟩ := h.held j y hy
    exact ⟨x, dial_old hx i sno target, hrest⟩
  · have hlt : ∀ {k : Nat} {x : Conn}, w.conns[k]? = some x → k < w.conns.length :=
      fun h => (List.getElem?_eq_some_iff.1 h).1
    obtain ⟨rfl, rfl⟩ | hz := dial_get hz
    · obtain ⟨rfl, rfl⟩ | hx := dial_get hx
      · exact absurd hjk (lt_irrefl _)
      · have hwho : x.who = i := hw
        have hle := h.boot j x hx
        rw [hwho] at hle
        refine hle.lt_or_eq.imp_right fun he => ⟨he, ?_⟩
        exact hs x (List.mem_of_getElem? hx) hwho he
    · obtain ⟨rfl, rfl⟩ | hx := dial_get hx
      · exact absurd (hlt hz) hjk.not_gt
      · exact h.order j k x z hjk hx hz hw
  · obtain ⟨-, rfl⟩ | hx := dial_get hx
    · exact ⟨rfl, by simp [Core.myHello, h.router], h.node i⟩
    · exact h.hello k x hx
  · obtain ⟨-, rfl⟩ | hx := dial_get hx
    · exact absurd hr nofun
    · exact h.reply k x r hx hr
  · obtain ⟨-, rfl⟩ | hx := dial_get hx
    · exact le_rfl
    · exact h.boot k x hx
  · obtain ⟨-, rfl⟩ | hx := dial_get hx
    · exact ⟨rfl, ht⟩
    · exact h.waits k x hx hc

theorem restart (h : w.Inv names) {boot : Nat} (hb : (w.core i).boot < boot) (leaseMs : Nat)
    (adv : Option String) (seeds : List String) :
    Inv names (meeting.next w (.restart i leaseMs boot adv seeds)) := by
  have hcore : ∀ (p : Bool → Core → Prop), (∀ j, j ≠ i → p j (w.core j)) →
      p i (Core.new (w.core i).node true leaseMs boot adv seeds) →
      ∀ j, p j ((meeting.next w (.restart i leaseMs boot adv seeds)).core j) := by
    intro p hall hi j
    simp only [meeting, Function.update_apply]
    split_ifs with hj
    · exact hj ▸ hi
    · exact hall j hj
  have hdrops : ∀ x, Grown x (x.drops i) :=
    fun x => ⟨rfl, rfl, rfl, fun b hc => by simp [Conn.drops, hc], fun _ hr => hr⟩
  have hl : Later w.conns (meeting.next w (.restart i leaseMs boot adv seeds)).conns :=
    .map hdrops w.conns
  have hget : ∀ {k : Nat} {x' : Conn},
      (meeting.next w (.restart i leaseMs boot adv seeds)).conns[k]? = some x' →
      ∃ x, w.conns[k]? = some x ∧ x' = x.drops i := by
    intro k x' hx'
    rw [meeting, List.getElem?_map, Option.map_eq_some_iff] at hx'
    obtain ⟨x, hx, rfl⟩ := hx'
    exact ⟨x, hx, rfl⟩
  refine h.change hl (hcore (fun j c => c.node = (w.core j).node) (fun _ _ => rfl) rfl)
    (hcore (fun _ c => c.router = true) (fun j _ => h.router j) rfl)
    (hcore (fun _ c => c.Seated) (fun j _ => h.seated j) (seated_new ..))
    (hcore (fun j c => ∀ y, c.Has y → Held names _ c.boot j y)
      (fun j _ y hy => hl.held (h.held j y hy)) fun y ⟨_, hy⟩ => absurd hy nofun)
    (hcore (fun j c => (w.core j).boot ≤ c.boot) (fun _ _ => le_rfl) hb.le) ?_ ?_
  · intro k x' r hx' hr
    obtain ⟨x, hx, rfl⟩ := hget hx'
    obtain ⟨hp, hrole, hn, hc⟩ := h.reply k x r hx hr
    exact ⟨hp, hrole, hn, (hdrops x).came false hc⟩
  · intro k x' hx' hc
    obtain ⟨x, hx, rfl⟩ := hget hx'
    simp only [Conn.drops, Conn.side, Bool.or_eq_false_iff, beq_eq_false_iff_ne] at hc
    have hwait := h.waits k x hx hc.1
    refine hcore (fun j c => x.who = j → x.hello.boot = c.boot ∧ x.target ∈ c.dials) ?_ ?_ x.who rfl
    · rintro j - rfl
      exact hwait
    · exact fun he => absurd he hc.2

theorem fail (h : w.Inv names) (hx : w.conns[k]? = some x) (b : Bool) :
    Inv names (meeting.next w (.fail k b)) := by
  have hget : ∀ {j : Nat} {x' : Conn}, (w.conns.set k (x.comes b))[j]? = some x' →
      ∃ z, w.conns[j]? = some z ∧ Grown z x' ∧ x'.reply = z.reply := by
    intro j x' hx'
    rw [getElem?_set_slot hx] at hx'
    split_ifs at hx' with hj
    · obtain rfl := Option.some.inj hx'
      exact ⟨x, hj ▸ hx, .comes x b, rfl⟩
    · exact ⟨x', hx', .refl x', rfl⟩
  have hl : Later w.conns (w.conns.set k (x.comes b)) := .set hx (.comes x b)
  rw [next_fail hx]
  refine h.change hl (fun _ => rfl) h.router h.seated (fun i y hy => hl.held (h.held i y hy))
    (fun _ => le_rfl) (fun j x' r hx' hr => ?_) fun j x' hx' hc => ?_
  · obtain ⟨z, hz, hg, hsame⟩ := hget hx'
    obtain ⟨hp, hrole, hn, hc⟩ := h.reply j z r hz (hsame ▸ hr)
    exact ⟨hp, hrole, hg.who ▸ hn, hg.came false hc⟩
  · obtain ⟨z, hz, hg, -⟩ := hget hx'
    rw [hg.hello, hg.target, hg.who]
    exact h.waits j z hz (Bool.eq_false_of_not_eq_true fun ht => by simp [hg.came true ht] at hc)

/-- **Every step keeps what holds of sessions and connections.** -/
theorem next (h : w.Inv names) {a : Act} (ha : meeting.ok w a) : (meeting.next w a).Inv names := by
  cases a with
  | own i o e =>
    have hsheds := (w.core i).onEv_sheds o ha.2
    exact h.run (.of_sheds hsheds (h.seated i)) (.refl _) (fun y hy => .inl (hsheds.has hy)) h.reply
  | dial i sno target => exact h.dial ha.2.1 ha.2.2
  | accept k o =>
    obtain ⟨x, hx, -, hc⟩ := ha
    exact h.accept hx hc o
  | answer k o =>
    obtain ⟨x, hx, -, hc, hr⟩ := ha
    exact h.answer hx hc hr o
  | fail k b =>
    obtain ⟨x, hx, -⟩ := ha
    exact h.fail hx b
  | restart i leaseMs boot adv seeds => exact h.restart ha leaseMs adv seeds

end Inv

/-! ## Agreement -/

theorem side_of (x : Conn) (i : Bool) : ∃ b, x.side b = i := by
  cases h : x.who == i with
  | true => exact ⟨true, by simpa [Conn.side] using h⟩
  | false =>
    refine ⟨false, ?_⟩
    cases hw : x.who <;> cases i <;> simp_all [Conn.side]

theorem side_not (x : Conn) (b : Bool) : x.side (!b) = !x.side b := by
  cases b <;> simp [Conn.side]

/-- An end with a session has the identity of the connection. -/
theorem Inv.has_of_on (h : w.Inv names) (hx : w.conns[k]? = some x) (hon : w.on k b = true) :
    (w.core (x.side b)).Has (ident names x k (x.side b)) := by
  obtain ⟨y, hy, rfl⟩ := (on_iff hx b).1 hon
  obtain ⟨x', hx', he, -⟩ := h.held _ y hy
  obtain rfl := Option.some.inj (hx.symm.trans hx')
  rwa [← he]

theorem Inv.agrees (h : w.Inv names) (hs : w.Still) : w.Agrees := by
  have hother : ∀ i y, (w.core i).Has y → ∃ z, (w.core (!i)).Has z ∧
      (y.dialer, y.boot, y.sno) = (z.dialer, z.boot, z.sno) := by
    intro i y hy
    obtain ⟨x, hx, he, -, b, rfl, -⟩ := h.held i y hy
    have hon' := (hs _ (List.getElem?_eq_some_iff.1 hx).1 b).2 ((on_iff hx b).2 ⟨y, hy, rfl⟩)
    have hz := h.has_of_on hx hon'
    rw [side_not] at hz
    exact ⟨_, hz, by rw [he]; rfl⟩
  by_cases hany : ∃ i y, (w.core i).Has y
  · obtain ⟨i, y, hy⟩ := hany
    obtain ⟨z, hz, he⟩ := hother i y hy
    cases i with
    | true => exact .inl ⟨y, z, hy, hz, he⟩
    | false => exact .inl ⟨z, y, hz, hy, he.symm⟩
  · exact .inr fun i y hy => hany ⟨i, y, hy⟩

end Pair

end OxlensSfu.Mesh
