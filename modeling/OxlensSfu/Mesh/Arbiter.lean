import Mathlib.Data.String.Basic
import OxlensSfu.Mesh.Pair

/-!
# The smaller name wins

When both routers have dialed, the connection of the one with the smaller name stays
(`accept_verdict` and `on_ev` of `crates/oxmesh/src/core.rs`). The acceptor and the dialer do not
ask each other, so what one of them takes the other must not refuse.

**Theorem (`sessions_arbitrated`).** Each router has one session with the other at most. When
nothing is on its way, both have a session of the same dial or neither has one. While the
connections of the router with the smaller name do not break, what they have is one of its dials, if
it has any that was accepted.

The invariant of the last part (`Leads`) is about its last accepted dial: the acceptor has a session
of it, and the dialer has one as soon as the answer came. No other connection is preferred to it, at
either end.

When such a session breaks, a later dial of the greater name is as good
(`greater_name_survives`).
-/

namespace OxlensSfu.Mesh

namespace Pair

variable {names : Bool → String} {w w' : Pair} {i lo : Bool} {k n : Nat} {b : Bool} {x x' : Conn}
  {o : Told}

/-! ## The router with the smaller name -/

/-- Connections of this dialer do not break: their sessions end only when the other end is gone,
and a dial is given up only when the accepting end has failed. No router starts anew. -/
def Calm (lo : Bool) (w : Pair) : Act → Prop
  | .own i o e => ∀ k < w.conns.length, ∀ b, (w.conns[k]?).any (·.who = lo) = true →
    w.on k b = true → (w.handle i o e).on k b = false →
      w.came k (!b) = true ∧ w.on k (!b) = false
  | .accept k o => (w.conns[k]?).any (·.who = lo) = true → o.broken = false
  | .fail k b => b = true → ∀ x ∈ w.conns[k]?, x.who = lo → x.came false = true ∧ x.reply = none
  | .restart .. => False
  | .dial .. | .answer .. => True

/-- The last dial of the router that has been accepted, if it is one of those from `n` on. -/
def Front (lo : Bool) (n : Nat) (w : Pair) (k : Nat) (x : Conn) : Prop :=
  n ≤ k ∧ w.conns[k]? = some x ∧ x.who = lo ∧ x.reply ≠ none ∧
    ∀ (j : Nat) (z : Conn), k < j → w.conns[j]? = some z → z.who = lo → z.reply = none

structure Leads (lo : Bool) (n : Nat) (w : Pair) : Prop where
  on : ∀ k x, Front lo n w k x →
    w.on k false = true ∧ (x.came true = true → w.on k true = true)
  early : ∀ (k : Nat) (x : Conn), n ≤ k → w.conns[k]? = some x → x.who = lo →
    x.came true = true → x.came false = true

theorem on_mono (hx : w.conns[k]? = some x) (hx' : w'.conns[k]? = some x') (hw : x'.who = x.who)
    (hcore : ∀ y, (w.core (x.side b)).Has y → (w'.core (x.side b)).Has y)
    (hon : w.on k b = true) : w'.on k b = true := by
  obtain ⟨y, hy, hk⟩ := (on_iff hx b).1 hon
  have hs : x'.side b = x.side b := by rw [Conn.side, Conn.side, hw]
  exact (on_iff hx' b).2 ⟨y, hs ▸ hcore y hy, hk⟩

theorem Leads.own (hl : Leads lo n w) {i : Bool} {e : Ev} (hc : Calm lo w (.own i o e)) :
    Leads lo n (w.handle i o e) where
  early := hl.early
  on k x hf := by
    obtain ⟨hlow, hhigh⟩ := hl.on k x hf
    have hx : w.conns[k]? = some x := hf.2.1
    have hlost : ∀ b, w.on k b = true → (w.handle i o e).on k b = false →
        x.came (!b) = true ∧ w.on k (!b) = false := by
      intro b hon hoff
      rw [← came_of hx]
      exact hc k (List.getElem?_eq_some_iff.1 hx).1 b (by simp [hx, hf.2.2.1]) hon hoff
    refine ⟨?_, fun hcame => ?_⟩
    · by_contra hoff
      obtain ⟨hcame, hgone⟩ := hlost false hlow (by simpa using hoff)
      exact absurd ((hhigh hcame).symm.trans hgone) nofun
    · by_contra hoff
      obtain ⟨-, hgone⟩ := hlost true (hhigh hcame) (by simpa using hoff)
      exact absurd (hlow.symm.trans hgone) nofun

theorem Leads.dial (hl : Leads lo n w) (i : Bool) (sno : Nat) (target : String) :
    Leads lo n (meeting.next w (.dial i sno target)) where
  early k x hn hx hw hc := by
    obtain ⟨-, rfl⟩ | hx := dial_get hx
    · exact absurd hc nofun
    · exact hl.early k x hn hx hw hc
  on k x hf := by
    obtain ⟨hn, hx, hw, hr, hlast⟩ := hf
    obtain ⟨-, rfl⟩ | hold := dial_get hx
    · exact absurd rfl hr
    · obtain ⟨hlow, hhigh⟩ := hl.on k x ⟨hn, hold, hw, hr, fun j z hj hz =>
        hlast j z hj (dial_old hz i sno target)⟩
      exact ⟨on_mono hold hx rfl (fun _ hy => hy) hlow,
        fun hc => on_mono hold hx rfl (fun _ hy => hy) (hhigh hc)⟩

/-- What is last was last before, when no dial of the router has been accepted. -/
theorem Front.of_set {c : Bool → Core} {j : Nat} {z : Conn}
    (hf : Front lo n ⟨c, w.conns.set k x'⟩ j z) (hx : w.conns[k]? = some x)
    (hw : x'.who = x.who) (hr : x.who = lo → x'.reply = x.reply) :
    (j = k ∧ z = x' ∧ Front lo n w k x) ∨ (j ≠ k ∧ Front lo n w j z) := by
  obtain ⟨hn, hz, hwho, hne, hlast⟩ := hf
  have hbefore : ∀ (m : Nat) (v : Conn), j < m → w.conns[m]? = some v → v.who = lo →
      v.reply = none := by
    intro m v hm hv hvw
    by_cases hmk : m = k
    · subst hmk
      obtain rfl := Option.some.inj (hx.symm.trans hv)
      rw [← hr hvw]
      exact hlast m x' hm (by rw [getElem?_set_slot hx, if_pos rfl]) (hw.trans hvw)
    · exact hlast m v hm (by rw [getElem?_set_slot hx, if_neg hmk, hv]) hvw
  rw [getElem?_set_slot hx] at hz
  split_ifs at hz with hjk
  · obtain rfl := Option.some.inj hz
    subst hjk
    have hxw := hw.symm.trans hwho
    exact .inl ⟨rfl, rfl, hn, hx, hxw, hr hxw ▸ hne, hbefore⟩
  · exact .inr ⟨hjk, hn, hz, hwho, hne, hbefore⟩

theorem Leads.fail (hl : Leads lo n w) (hx : w.conns[k]? = some x) (hc : Calm lo w (.fail k b)) :
    Leads lo n (meeting.next w (.fail k b)) := by
  rw [next_fail hx]
  refine ⟨fun j z hf' => ?_, fun j z hn hz hw hcame => ?_⟩
  · have hz : (w.conns.set k (x.comes b))[j]? = some z := hf'.2.1
    obtain ⟨rfl, rfl, hf⟩ | ⟨hj, hf⟩ := hf'.of_set hx rfl fun _ => rfl
    · obtain ⟨hlow, hhigh⟩ := hl.on j x hf
      have hb : b = false := by
        cases b with
        | false => rfl
        | true => exact absurd (hc rfl x hx hf.2.2.1).2 hf.2.2.2.1
      subst hb
      refine ⟨on_mono hx hz rfl (fun _ hy => hy) hlow, fun hcame => ?_⟩
      exact on_mono hx hz rfl (fun _ hy => hy) (hhigh (by simpa [Conn.comes] using hcame))
    · obtain ⟨hlow, hhigh⟩ := hl.on j z hf
      exact ⟨on_mono hf.2.1 hz rfl (fun _ hy => hy) hlow,
        fun hcame => on_mono hf.2.1 hz rfl (fun _ hy => hy) (hhigh hcame)⟩
  · rw [getElem?_set_slot hx] at hz
    split_ifs at hz with hj
    · obtain rfl := Option.some.inj hz
      subst hj
      cases b with
      | false => exact x.comes_self false
      | true => exact (Grown.comes x true).came false (hc rfl x hx hw).1
    · exact hl.early j z hn hz hw hcame

/-- The last dial of the router with the smaller name is accepted, whatever session there is. -/
theorem Inv.accepts (h : w.Inv names) (hlt : names x.who < names (!x.who))
    (hx : w.conns[k]? = some x) (hcame : x.came false = false)
    (hlast : ∀ (j : Nat) (z : Conn), k < j → w.conns[j]? = some z → z.who = x.who →
      z.reply = none) : (w.core (!x.who)).Accepts x.hello := by
  obtain ⟨hproto, -, hnode⟩ := h.hello k x hx
  refine ⟨hproto, ?_, h.router _, fun y hy _ => ?_⟩
  · rw [hnode, h.node]
    exact hlt.ne
  obtain ⟨z, hz, he, hr, -⟩ := h.held _ y hy
  have hdialer : y.dialer = names z.who := by rw [he]; rfl
  rw [hdialer, hnode, h.node]
  refine ⟨fun hd => ?_, fun _ => hlt⟩
  have hw : z.who = x.who := by
    by_contra hne
    rw [Bool.eq_not_iff.2 hne] at hd
    exact hlt.ne' hd
  have hlex := fun hj => h.order y.stream k z x hj hz hx hw
  have hboot : y.boot = z.hello.boot ∧ y.sno = z.hello.sno := by
    rw [he]
    exact ⟨rfl, rfl⟩
  rw [hboot.1, hboot.2]
  obtain hj | hj | hj := lt_trichotomy y.stream k
  · exact hlex hj
  · -- Nobody has accepted this connection yet.
    rw [hj] at hz
    obtain rfl := Option.some.inj (hx.symm.trans hz)
    obtain ⟨r, hr⟩ := Option.ne_none_iff_exists'.1 hr
    rw [(h.reply k x r hx hr).2.2.2] at hcame
    exact absurd hcame nofun
  · exact absurd (hlast _ z hj hz hw) hr

/-- A later dial of the same router has the greater identity. -/
theorem Inv.later_of_accepts (h : w.Inv names) (hx : w.conns[k]? = some x) {j : Nat} {z : Conn}
    (hz : w.conns[j]? = some z) (hw : z.who = x.who) (hon : w.on j false = true)
    (ha : (w.core (!x.who)).Accepts x.hello) : ¬ k < j := by
  intro hkj
  obtain ⟨-, -, hnode⟩ := h.hello k x hx
  have hy := h.has_of_on hz hon
  have hs : z.side false = !x.who := by rw [Conn.side, if_neg (by simp), hw]
  rw [hs] at hy
  have hlt := (ha.2.2.2 _ hy (by simp [ident, hnode])).1 (by simp [ident, hnode, hw])
  have hgt := h.order k j x z hkj hx hz hw.symm
  simp only [ident] at hlt
  omega

/-- The last accepted dial of the router with the smaller name is taken when the answer comes. -/
theorem Inv.prefers (h : w.Inv names) (hlt : names x.who < names (!x.who))
    (hx : w.conns[k]? = some x) (hcame : x.came true = false) {r : Hello} (hr : x.reply = some r)
    (hlast : ∀ (j : Nat) (z : Conn), k < j → w.conns[j]? = some z → z.who = x.who →
      z.reply = none) : (w.core x.who).Prefers r x.hello.sno := by
  obtain ⟨hproto, hrole, hnode, -⟩ := h.reply k x r hx hr
  refine ⟨hproto, ?_, .inl (h.router _), fun y hy _ => ?_⟩
  · rw [hnode, h.node]
    exact hlt.ne'
  obtain ⟨z, hz, he, hzr, b, hs, hzc, hzb⟩ := h.held _ y hy
  have hdialer : y.dialer = names z.who := by rw [he]; rfl
  have hsno : y.sno = z.hello.sno := by rw [he]; rfl
  rw [hdialer, hsno, hnode, h.node]
  refine ⟨fun hd hgt => ?_, fun _ => lt_asymm hlt⟩
  have hw : z.who = x.who := by
    by_contra hne
    rw [Bool.eq_not_iff.2 hne] at hd
    exact hlt.ne' hd
  have hb : b = true := by
    cases b with
    | true => rfl
    | false => exact absurd (hw ▸ hs) (by simp [Conn.side])
  obtain hj | hj | hj := lt_trichotomy y.stream k
  · have hlex := h.order y.stream k z x hj hz hx hw
    have hboot := (hzb hb).trans (h.waits k x hx hcame).1.symm
    omega
  · -- The answer has not been given to the router yet.
    rw [hj] at hz
    obtain rfl := Option.some.inj (hx.symm.trans hz)
    rw [hb, hcame] at hzc
    exact absurd hzc (by simp)
  · exact absurd (hlast _ z hj hz hw) hzr

theorem has_update {c' : Core} (hc : ∀ y, (w.core i).Has y → c'.Has y) (j : Bool) (y : Ident)
    (hy : (w.core j).Has y) : (Function.update w.core i c' j).Has y := by
  rw [Function.update_apply]
  split_ifs with hj
  · exact hc y (hj ▸ hy)
  · exact hy

theorem has_other {c' : Core} {j : Bool} (hj : j ≠ i) (y : Ident) (hy : (w.core j).Has y) :
    (Function.update w.core i c' j).Has y := by
  rwa [Function.update_of_ne hj]

/-- While the smaller name's session is there, the other one's connections are not accepted. -/
theorem Inv.not_accepts (h : w.Inv names) (hlt : names lo < names (!lo))
    (hx : w.conns[k]? = some x) (hw : x.who = !lo) {j : Nat} {z : Conn}
    (hz : w.conns[j]? = some z) (hzw : z.who = lo) (hon : w.on j true = true) :
    ¬ (w.core (!x.who)).Accepts x.hello := by
  intro ha
  obtain ⟨-, -, hnode⟩ := h.hello k x hx
  have hy := h.has_of_on hz hon
  have hs : z.side true = !x.who := by simp [Conn.side, hzw, hw]
  rw [hs] at hy
  have hless := (ha.2.2.2 _ hy (by simp [ident, hnode])).2 (by simp [ident, hnode, hw, hzw, hlt.ne])
  rw [hnode, h.node, hw, Bool.not_not] at hless
  exact lt_asymm hlt hless

/-- And the other one does not take its own dials for sessions. -/
theorem Inv.not_prefers (h : w.Inv names) (hlt : names lo < names (!lo))
    (hx : w.conns[k]? = some x) (hw : x.who = !lo) {r : Hello} (hr : x.reply = some r) {j : Nat}
    {z : Conn} (hz : w.conns[j]? = some z) (hzw : z.who = lo) (hon : w.on j false = true) :
    ¬ (w.core x.who).Prefers r x.hello.sno := by
  intro ha
  obtain ⟨-, -, hnode, -⟩ := h.reply k x r hx hr
  have hy := h.has_of_on hz hon
  have hs : z.side false = x.who := by simp [Conn.side, hzw, hw]
  rw [hs] at hy
  have hless := (ha.2.2.2 _ hy (by simp [ident, hnode])).2
    (by simp [ident, h.node, hw, hzw, hlt.ne])
  rw [hnode, h.node, hw, Bool.not_not] at hless
  exact hless hlt

/-- An older dial of the same router does not replace its session. -/
theorem Inv.older_not_preferred (h : w.Inv names) (hx : w.conns[k]? = some x)
    (hcame : x.came true = false) {r : Hello} (hr : x.reply = some r) {j : Nat} {z : Conn}
    (hz : w.conns[j]? = some z) (hzw : z.who = x.who) (hon : w.on j true = true) (hkj : k < j) :
    ¬ (w.core x.who).Prefers r x.hello.sno := by
  intro ha
  obtain ⟨-, -, hnode, -⟩ := h.reply k x r hx hr
  have hy := h.has_of_on hz hon
  have hs : z.side true = x.who := by simp [Conn.side, hzw]
  rw [hs] at hy
  have hge := (ha.2.2.2 _ hy (by simp [ident, hnode])).1 (by simp [ident, h.node, hzw])
  have hlex := h.order k j x z hkj hx hz hzw.symm
  have hle := h.boot j z hz
  have hboot := (h.waits k x hx hcame).1
  rw [hzw] at hle
  simp only [ident] at hge
  omega

theorem Leads.accept (hl : Leads lo n w) (h : w.Inv names) (hlt : names lo < names (!lo))
    (hx : w.conns[k]? = some x) (hcame : x.came false = false) (hc : Calm lo w (.accept k o)) :
    Leads lo n (meeting.next w (.accept k o)) := by
  rw [next_accept hx]
  have hearly : ∀ (j : Nat) (z : Conn), n ≤ j →
      (w.conns.set k (accepted x (w.core (!x.who)) o))[j]? = some z → z.who = lo →
      z.came true = true → z.came false = true := by
    intro j z hn hz hw hct
    rw [getElem?_set_slot hx] at hz
    split_ifs at hz
    · obtain rfl := Option.some.inj hz
      exact x.comes_self false
    · exact hl.early j z hn hz hw hct
  refine ⟨fun j z hf' => ?_, hearly⟩
  have hz : (w.conns.set k (accepted x (w.core (!x.who)) o))[j]? = some z := hf'.2.1
  have hspec := Core.onAccepted_spec (h.seated (!x.who)) o k x.hello
  by_cases hw : x.who = lo
  · subst hw
    have hb : o.broken = false := hc (by simp [hx])
    have hnew : (accepted x (w.core (!x.who)) o).reply ≠ none := by simp [accepted, hb]
    obtain ⟨hn, -, hzw, hne, hlast⟩ := hf'
    have hkj : ¬ j < k := fun hj =>
      hnew (hlast k _ hj (by rw [getElem?_set_slot hx, if_pos rfl]) rfl)
    have hlast' : ∀ (m : Nat) (v : Conn), j < m → w.conns[m]? = some v → v.who = x.who →
        v.reply = none := fun m v hm hv =>
      hlast m v hm (by rw [getElem?_set_slot hx, if_neg (by omega), hv])
    have hslot := hz
    rw [getElem?_set_slot hx] at hslot
    split_ifs at hslot with hj
    · obtain rfl := Option.some.inj hslot
      subst hj
      have hacc := h.accepts hlt hx hcame hlast'
      obtain ⟨-, -, htakes⟩ | ⟨hbroken | hno, -⟩ := hspec
      · refine ⟨(on_iff hz false).2
          ⟨⟨x.hello.node, x.hello.node, x.hello.boot, x.hello.sno, j⟩, ?_, rfl⟩, fun hct => ?_⟩
        · show (Function.update w.core (!x.who) _ (!x.who)).Has _
          rw [Function.update_self]
          exact (htakes.has _).2 (.inl rfl)
        · have hct : x.came true = true := by simpa [accepted, Conn.comes] using hct
          exact absurd (hcame.symm.trans (hl.early j x hn hx rfl hct)) (by simp)
      · exact absurd (hb.symm.trans hbroken) (by simp)
      · exact absurd hacc hno
    · obtain ⟨hlow, hhigh⟩ := hl.on j z ⟨hn, hslot, hzw, hne, hlast'⟩
      obtain ⟨-, hacc, -⟩ | ⟨-, hsame⟩ := hspec
      · exact absurd (by omega) (h.later_of_accepts hx hslot hzw hlow hacc)
      · have hkeep := has_update (w := w) fun _ => (Core.Sheds.of_roster hsame.symm).has
        exact ⟨on_mono hslot hz rfl (hkeep _) hlow,
          fun hct => on_mono hslot hz rfl (hkeep _) (hhigh hct)⟩
  · -- The router accepts a connection of the other one, which has the greater name.
    have hwho : x.who = !lo := Bool.eq_not_iff.2 hw
    obtain ⟨rfl, rfl, hf⟩ | ⟨hj, hf⟩ := hf'.of_set hx rfl fun hw' => absurd hw' hw
    · exact absurd hf.2.2.1 hw
    obtain ⟨hlow, hhigh⟩ := hl.on j z hf
    obtain ⟨-, hzw, hzlo, -⟩ := hf
    obtain ⟨-, hacc, -⟩ | ⟨-, hsame⟩ := hspec
    · refine ⟨on_mono hzw hz rfl (has_other ?_) hlow, fun hct => ?_⟩
      · simp [Conn.side, hzlo, hwho]
      · exact absurd hacc (h.not_accepts hlt hx hwho hzw hzlo (hhigh hct))
    · have hkeep := has_update (w := w) fun _ => (Core.Sheds.of_roster hsame.symm).has
      exact ⟨on_mono hzw hz rfl (hkeep _) hlow, fun hct => on_mono hzw hz rfl (hkeep _) (hhigh hct)⟩

theorem Leads.answer (hl : Leads lo n w) (h : w.Inv names) (hlt : names lo < names (!lo))
    (hx : w.conns[k]? = some x) (hcame : x.came true = false) (hr : x.reply ≠ none) :
    Leads lo n (meeting.next w (.answer k o)) := by
  obtain ⟨r, hr⟩ := Option.ne_none_iff_exists'.1 hr
  obtain ⟨-, -, hnode, hfirst⟩ := h.reply k x r hx hr
  rw [next_answer hx hr]
  have hspec := Core.onDialed_spec (h.seated x.who) o (h.waits k x hx hcame).2 x.hello.sno k r
  refine ⟨fun j z hf' => ?_, fun j z hn hz hw hct => ?_⟩
  · have hz : (w.conns.set k (x.comes true))[j]? = some z := hf'.2.1
    by_cases hw : x.who = lo
    · subst hw
      have hside : ∀ {z : Conn}, z.who = x.who → z.side false ≠ x.who := by
        intro z hzw
        simp [Conn.side, hzw]
      obtain ⟨rfl, rfl, hf⟩ | ⟨hj, hf⟩ := hf'.of_set hx rfl fun _ => rfl
      · obtain ⟨hlow, -⟩ := hl.on j x hf
        refine ⟨on_mono hx hz rfl (has_other (hside rfl)) hlow, fun _ => ?_⟩
        have hpref := h.prefers hlt hx hcame hr hf.2.2.2.2
        obtain ⟨-, htakes⟩ | ⟨hno, -⟩ := hspec
        · refine (on_iff hz true).2
            ⟨⟨r.node, (w.core x.who).node, (w.core x.who).boot, x.hello.sno, j⟩, ?_, rfl⟩
          show (Function.update w.core x.who _ x.who).Has _
          rw [Function.update_self]
          exact (htakes.has _).2 (.inl rfl)
        · exact absurd hpref hno
      · obtain ⟨hlow, hhigh⟩ := hl.on j z hf
        obtain ⟨-, hzw, hzlo, -, hlast⟩ := hf
        refine ⟨on_mono hzw hz rfl (has_other (hside hzlo)) hlow, fun hct => ?_⟩
        have hkj : k < j := by
          by_contra hle
          exact absurd (hlast k x (by omega) hx rfl) (by simp [hr])
        obtain ⟨hpref, -⟩ | ⟨-, -, hkeep⟩ := hspec
        · exact absurd hpref (h.older_not_preferred hx hcame hr hzw hzlo (hhigh hct) hkj)
        · exact on_mono hzw hz rfl (has_update hkeep _) (hhigh hct)
    · -- The router has dialed the one with the smaller name.
      have hwho : x.who = !lo := Bool.eq_not_iff.2 hw
      obtain ⟨rfl, rfl, hf⟩ | ⟨hj, hf⟩ := hf'.of_set hx rfl fun _ => rfl
      · exact absurd hf.2.2.1 hw
      obtain ⟨hlow, hhigh⟩ := hl.on j z hf
      obtain ⟨-, hzw, hzlo, -⟩ := hf
      have hside : z.side true ≠ x.who := by simp [Conn.side, hzlo, hwho]
      refine ⟨?_, fun hct => on_mono hzw hz rfl (has_other hside) (hhigh hct)⟩
      obtain ⟨hpref, -⟩ | ⟨-, -, hkeep⟩ := hspec
      · exact absurd hpref (h.not_prefers hlt hx hwho hr hzw hzlo hlow)
      · exact on_mono hzw hz rfl (has_update hkeep _) hlow
  · rw [getElem?_set_slot hx] at hz
    split_ifs at hz
    · obtain rfl := Option.some.inj hz
      exact (Grown.comes x true).came false hfirst
    · exact hl.early j z hn hz hw hct

theorem Leads.next (hl : Leads lo n w) (h : w.Inv names) (hlt : names lo < names (!lo)) {a : Act}
    (ha : meeting.ok w a) (hc : Calm lo w a) : Leads lo n (meeting.next w a) := by
  cases a with
  | own i o e => exact hl.own hc
  | dial i sno target => exact hl.dial i sno target
  | accept k o =>
    obtain ⟨x, hx, -, hcame⟩ := ha
    exact hl.accept h hlt hx hcame hc
  | answer k o =>
    obtain ⟨x, hx, -, hcame, hr⟩ := ha
    exact hl.answer h hlt hx hcame hr
  | fail k b =>
    obtain ⟨x, hx, -⟩ := ha
    exact hl.fail hx hc
  | restart i leaseMs boot adv seeds => exact absurd hc id

/-- Some dial is the last one that has been accepted. -/
theorem exists_front (hn : n ≤ k) (hx : w.conns[k]? = some x) (hw : x.who = lo)
    (hr : x.reply ≠ none) : ∃ j z, Front lo n w j z := by
  have hfin : {j | ∃ z, n ≤ j ∧ w.conns[j]? = some z ∧ z.who = lo ∧ z.reply ≠ none}.Finite := by
    refine (Set.finite_lt_nat w.conns.length).subset ?_
    rintro j ⟨z, -, hz, -⟩
    exact (List.getElem?_eq_some_iff.1 hz).1
  obtain ⟨j, ⟨z, hj, hz, hzw, hzr⟩, hmax⟩ := hfin.exists_maximal ⟨k, x, hn, hx, hw, hr⟩
  refine ⟨j, z, hj, hz, hzw, hzr, fun m v hm hv hvw => ?_⟩
  by_contra hvr
  exact absurd (hmax ⟨v, hj.trans hm.le, hv, hvw, hvr⟩ hm.le) hm.not_ge

theorem Leads.dialedBy (hl : Leads lo n w) (h : w.Inv names) (hs : w.Still) (hn : n ≤ k)
    (hx : w.conns[k]? = some x) (hw : x.who = lo) (hr : x.reply ≠ none) :
    w.DialedBy (names lo) := by
  obtain ⟨j, z, hf⟩ := exists_front hn hx hw hr
  obtain ⟨hlow, hhigh⟩ := hl.on j z hf
  obtain ⟨-, hz, rfl, -⟩ := hf
  have hcame := (hs j (List.getElem?_eq_some_iff.1 hz).1 true).1
  rw [came_of hz] at hcame
  intro i
  obtain ⟨b, rfl⟩ := side_of z i
  cases b with
  | false => exact ⟨_, h.has_of_on hz hlow, rfl⟩
  | true => exact ⟨_, h.has_of_on hz (hhigh hcame), rfl⟩

/-- **Sessions are arbitrated.** Whatever the two routers do and whatever breaks, each has one
session with the other at most, and its books say so. When nothing is on its way, both have a
session of the same dial or neither has one. When from some state on the connections of the router
with the smaller name do not break, and one that it has dialed since is accepted, then what both
have is a session that it has dialed. -/
theorem sessions_arbitrated (names : Bool → String) (leaseMs boot : Bool → Nat)
    (adv : Bool → Option String) (seeds : Bool → List String) {as : List Act}
    (hrun : meeting.Legal (new names leaseMs boot adv seeds) as) :
    let start := new names leaseMs boot adv seeds
    let w := meeting.exec start as
    (∀ i n u, (w.core i).byPeer.lookup n = some u ↔
      ∃ s, (w.core i).sessions.lookup u = some s ∧ s.peer = n) ∧
    (w.Still → w.Agrees) ∧
    ∀ (as₁ as₂ : List Act) (lo : Bool) (k : Nat) (x : Conn), as = as₁ ++ as₂ →
      names lo < names (!lo) → (meeting.restrict (Calm lo)).Legal (meeting.exec start as₁) as₂ →
      (meeting.exec start as₁).conns.length ≤ k → w.conns[k]? = some x → x.who = lo →
      x.reply ≠ none → w.Still → w.DialedBy (names lo) := by
  have hinv : ∀ bs, meeting.Legal (new names leaseMs boot adv seeds) bs →
      (meeting.exec (new names leaseMs boot adv seeds) bs).Inv names :=
    fun bs hbs => Machine.invariant (fun _ _ h ha => h.next ha)
      (.start names leaseMs boot adv seeds) hbs
  have h := hinv as hrun
  refine ⟨fun i n u => ?_, h.agrees, ?_⟩
  · rw [(h.seated i).peers]
    refine ⟨fun ⟨x, hx, hp⟩ => ?_, fun ⟨s, hs, hp⟩ => ⟨s.ident, Core.ident_of hs, hp⟩⟩
    obtain ⟨s, hs, rfl⟩ := Core.of_ident hx
    exact ⟨s, hs, hp⟩
  · rintro as₁ as₂ lo k x rfl hlt hcalm hk hx hw hr hs
    have h₁ := hinv as₁ ((meeting.legal_append _ as₁ as₂).1 hrun).1
    rw [Machine.exec_append] at hx hs h ⊢
    have hleads : ∀ {w : Pair}, w.Inv names → Leads lo w.conns.length w := fun _ =>
      ⟨fun k x hf => absurd hf.1 (List.getElem?_eq_some_iff.1 hf.2.1).1.not_ge,
        fun k x hn hx => absurd hn (List.getElem?_eq_some_iff.1 hx).1.not_ge⟩
    have hrun₂ := Machine.invariant (M := meeting.restrict (Calm lo))
      (I := fun w => w.Inv names ∧ Leads lo (meeting.exec (new names leaseMs boot adv seeds)
        as₁).conns.length w)
      (fun w a hw ha => ⟨hw.1.next ha.1, hw.2.next hw.1 hlt ha.1 ha.2⟩) ⟨h₁, hleads h₁⟩ hcalm
    rw [Machine.restrict_exec] at hrun₂
    exact hrun₂.2.dialedBy h hs hk hx hw hr

/-! ## Two runs -/

instance (w : Pair) (a : Act) : Decidable (meeting.ok w a) :=
  match a with
  | .own .. | .dial .. => inferInstanceAs (Decidable (_ ∧ _))
  | .accept .. | .answer .. | .fail .. => inferInstanceAs (Decidable (∃ x ∈ _, _))
  | .restart .. => inferInstanceAs (Decidable (_ < _))

instance (lo : Bool) (w : Pair) (a : Act) : Decidable (Calm lo w a) :=
  match a with
  | .own .. => inferInstanceAs (Decidable (∀ k < _, ∀ _ : Bool, _))
  | .accept .. => inferInstanceAs (Decidable (_ → _))
  | .fail .. => inferInstanceAs (Decidable (_ → ∀ x ∈ _, _))
  | .restart .. => .isFalse id
  | .dial .. | .answer .. => .isTrue trivial

/-- Two routers that know each other's address. -/
def strangers : Pair :=
  new (if · then "a" else "b") (fun _ => 400) (fun _ => 1) (fun _ => none)
    (if · then ["b:1"] else ["a:1"])

/-- Both dial at once. -/
def crossing : List Act :=
  [.dial true 1 "b:1", .dial false 1 "a:1", .accept 1 {}, .accept 0 {}, .answer 0 {}, .answer 1 {}]

theorem sessions_arbitrated_crossing :
    (meeting.exec strangers crossing).Agrees ∧ (meeting.exec strangers crossing).DialedBy "a" := by
  have hrun : meeting.Legal strangers crossing := by decide
  have hcalm : (meeting.restrict (Calm true)).Legal strangers crossing := by decide
  have hstill : (meeting.exec strangers crossing).Still := by decide
  have hfirst : ∃ x ∈ (meeting.exec strangers crossing).conns[0]?,
      x.who = true ∧ x.reply ≠ none := by decide
  obtain ⟨x, hx, hw, hr⟩ := hfirst
  have hall := sessions_arbitrated _ _ _ _ _ hrun
  exact ⟨hall.2.1 hstill,
    hall.2.2 [] crossing true 0 x rfl (by decide) hcalm le_rfl hx hw hr hstill⟩

/-- Both dial, the session breaks, and the one with the greater name dials again. -/
def redialing : List Act :=
  [.dial true 1 "b:1", .accept 0 {}, .answer 0 {}, .dial false 1 "a:1", .accept 1 {}, .answer 1 {},
    .own true {} (.closed 1 .io), .own false {} (.closed 1 .io),
    .dial false 2 "a:1", .accept 2 {}, .answer 2 {}]

/-- The dials of both have reached both routers, and nothing is on its way, but what they have is a
session that the one with the greater name has dialed. -/
theorem greater_name_survives :
    meeting.Legal strangers redialing ∧ "a" < "b" ∧
      (let w := meeting.exec strangers redialing
       w.Still ∧ w.conns.map (·.who) = [true, false, false] ∧ (∀ x ∈ w.conns, x.reply ≠ none) ∧
        ∀ i, (w.core i).sessions.entries.map (·.2.dialer) = ["b"]) := by
  decide

end Pair

end OxlensSfu.Mesh
