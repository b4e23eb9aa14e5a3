import OxlensSfu.Lib.Maps
import Mathlib.Data.List.DropRight

/-!
# When packets came

The receiver of a connection notes when each packet came, and tells the sender in feedbacks
(`TwccRecv`, `crates/oxsfud/src/rtcp/core.rs`). Numbers have 16 bits and are unwrapped next to the
highest one so far. A window begins where nothing before it is left to tell; a late packet moves it
back. A feedback begins at the window and goes on until a time does not fit, the statuses are full
or the packets end.

**Theorem (`reported_when_done`).** While something is pending, a feedback gets built, and each one
leaves less pending. When nothing is pending, every packet that ever came is in some feedback, at
its own place and with the time when it first came, to half a step of the clock.

The time of a feedback is counted from a reference of 24 bits in steps of 64 ms, so it is known up
to `wrapUs`. Times are integers here, as they come from a clock that does not reach the end of 64
bits.

The invariant behind the first part is `Covered`: from anywhere in the window, the next packet is
not far. A new highest number is near the last one, and the highest is never forgotten; so a
feedback that begins at the window reaches a packet before its statuses are full.
-/

namespace OxlensSfu.Rtcp

/-! ## The receiver -/

inductive Sym where
  | none
  | small
  | large
  deriving DecidableEq, Repr

structure Feedback where
  baseSeq : UInt16
  statusCount : UInt16
  referenceTime : UInt32
  fbCount : UInt8
  symbols : List Sym
  deltas250us : List Int
  deriving DecidableEq

structure TwccRecv where
  arrivals : Map Int Int := ∅
  lastUnwrapped : Option Int := none
  windowStart : Option Int := none
  fbCount : UInt8 := 0
  newestUs : Int := 0

def keepUs : Int := 500000

/-- The period of the reference time. -/
def wrapUs : Int := 2 ^ 24 * 64000

/-- `entry(k).or_insert(v)`. -/
def orInsert (m : Map Int Int) (k v : Int) : Map Int Int := if k ∈ m then m else m.insert k v

theorem lookup_orInsert (m : Map Int Int) (k v k' : Int) : (orInsert m k v).lookup k' =
    if k' = k then (m.lookup k').or (some v) else m.lookup k' := by
  rw [orInsert]
  split
  · next hmem =>
    split
    · next e =>
      obtain ⟨x, hx⟩ := Map.mem_iff_lookup.mp hmem
      rw [e, hx]
      rfl
    · rfl
  · next hmem =>
    rw [Map.lookup_insert_if]
    split
    · next e =>
      rw [e, AList.lookup_eq_none.mpr hmem]
      rfl
    · rfl

namespace TwccRecv

variable (t : TwccRecv)

/-- The number next to the highest one, and the highest then. -/
def unwrap (seq : UInt16) : Int × Option Int :=
  let u := match t.lastUnwrapped with
    | none => (seq.toNat : Int)
    | some l => l + ((seq.toNat : Int) - l).bmod (2 ^ 16)
  (u, if t.lastUnwrapped.all (· < u) then some u else t.lastUnwrapped)

def record (seq : UInt16) (arrivalUs : Int) : TwccRecv :=
  let (u, last) := t.unwrap seq
  let newest := if t.newestUs < arrivalUs then arrivalUs else t.newestUs
  let ws := match t.windowStart with
    | some w => if u < w then u else w
    | none => u
  { t with
    arrivals := (orInsert t.arrivals u arrivalUs).filter fun k us => newest - keepUs ≤ us || ws ≤ k
    lastUnwrapped := last
    windowStart := some ws
    newestUs := newest }

/-- The first packet of the window. -/
def first (w : Int) : Option Int := (t.arrivals.keys.filter (w ≤ ·)).min?

def pending : Bool := t.windowStart.any fun w => (t.first w).isSome

/-- The step from one time to another, rounded. -/
def delta (last us : Int) : Int := (us - last + 125) / 250

/-- From `s` on: the step to the packet, or that there is none. Stops where a step does not fit,
behind the last packet, and after `room` statuses. -/
def scan (maxSeq : Int) : (room : Nat) → (s last : Int) → List (Option Int)
  | 0, _, _ => []
  | room + 1, s, last =>
    if s ≤ maxSeq then
      match t.arrivals.lookup s with
      | none => none :: scan maxSeq room (s + 1) last
      | some us =>
        let d := delta last us
        if -32768 ≤ d ∧ d ≤ 32767 then some d :: scan maxSeq room (s + 1) (last + d * 250) else []
    else []

def symbol : Option Int → Sym
  | none => .none
  | some d => if 0 ≤ d ∧ d ≤ 255 then .small else .large

/-- The statuses from `w` on, without the last ones of packets that did not come. -/
def statuses (w firstUs maxSeq : Int) : List (Option Int) :=
  (t.scan maxSeq 0xffff w (firstUs / 64000 * 64000)).rdropWhile (·.isNone)

def feedback (w firstUs : Int) (l : List (Option Int)) : Feedback where
  baseSeq := UInt16.ofInt w
  statusCount := UInt16.ofNat l.length
  referenceTime := UInt32.ofInt (firstUs / 64000) &&& 0xffffff
  fbCount := t.fbCount
  symbols := l.map symbol
  deltas250us := l.reduceOption

def build : Option Feedback × TwccRecv :=
  match t.windowStart with
  | none => (none, t)
  | some w =>
    match t.first w with
    | none => (none, t)
    | some firstSeq =>
      let firstUs := (t.arrivals.lookup firstSeq).getD 0
      let l := t.statuses w firstUs ((t.arrivals.keys.max?).getD firstSeq)
      if l = [] then (none, t)
      else
        (some (t.feedback w firstUs l),
          { t with fbCount := t.fbCount + 1, windowStart := some (w + l.length) })

end TwccRecv

/-! ## What a feedback says -/

/-- The times of the statuses, each counted from the one before. -/
def stamps : List Sym → List Int → Int → List (Option Int)
  | .none :: syms, ds, us => none :: stamps syms ds us
  | _ :: syms, d :: ds, us => some (us + 250 * d) :: stamps syms ds (us + 250 * d)
  | _, _, _ => []

def Feedback.times (f : Feedback) : List (Option Int) :=
  stamps f.symbols f.deltas250us (f.referenceTime.toNat * 64000)

/-- The statuses as they were collected. -/
def sums : List (Option Int) → Int → List (Option Int)
  | [], _ => []
  | none :: l, us => none :: sums l us
  | some d :: l, us => some (us + 250 * d) :: sums l (us + 250 * d)

theorem symbol_some (d : Int) : TwccRecv.symbol (some d) ≠ .none := by
  rw [TwccRecv.symbol]
  split <;> decide

theorem stamps_statuses (l : List (Option Int)) (us : Int) :
    stamps (l.map TwccRecv.symbol) l.reduceOption us = sums l us := by
  induction l generalizing us with
  | nil => rfl
  | cons x l ih =>
    cases x with
    | none =>
      show none :: stamps (l.map TwccRecv.symbol) l.reduceOption us = _
      rw [ih, sums]
    | some d =>
      have hne := symbol_some d
      have hcons : (some d :: l).reduceOption = d :: l.reduceOption := rfl
      rw [List.map_cons, hcons, sums]
      cases hsym : TwccRecv.symbol (some d) with
      | none => exact absurd hsym hne
      | small | large =>
        rw [stamps, ih]
        exact fun e => nomatch e

theorem length_sums (l : List (Option Int)) (us : Int) : (sums l us).length = l.length := by
  induction l generalizing us with
  | nil => rfl
  | cons x l ih => cases x <;> rw [sums, List.length_cons, List.length_cons, ih]

theorem sums_append (l l' : List (Option Int)) (us : Int) :
    ∃ us', sums (l ++ l') us = sums l us ++ sums l' us' := by
  induction l generalizing us with
  | nil => exact ⟨us, rfl⟩
  | cons x l ih =>
    cases x with
    | none =>
      obtain ⟨us', h⟩ := ih us
      exact ⟨us', by rw [List.cons_append, sums, h, sums, List.cons_append]⟩
    | some d =>
      obtain ⟨us', h⟩ := ih (us + 250 * d)
      exact ⟨us', by rw [List.cons_append, sums, h, sums, List.cons_append]⟩

theorem sums_none {l : List (Option Int)} {us : Int} {i : Nat}
    (h : (sums l us)[i]? = some none) : l[i]? = some none := by
  induction l generalizing us i with
  | nil => nomatch h
  | cons x l ih =>
    cases x with
    | none =>
      rw [sums] at h
      cases i with
      | zero => rfl
      | succ i => exact ih h
    | some d =>
      rw [sums] at h
      cases i with
      | zero => nomatch h
      | succ i => exact ih h

/-- Times that begin later are later by as much. -/
theorem sums_shift (l : List (Option Int)) (us c : Int) :
    sums l (us + c) = (sums l us).map (Option.map (· + c)) := by
  induction l generalizing us with
  | nil => rfl
  | cons x l ih =>
    cases x with
    | none => rw [sums, sums, ih, List.map_cons, Option.map_none]
    | some d =>
      rw [sums, sums, List.map_cons, Option.map_some, add_right_comm, ih]

/-! ## Scanning -/

section Scan

variable {t : TwccRecv} {maxSeq s last us : Int} {room i : Nat}

theorem length_scan : (t.scan maxSeq room s last).length ≤ room := by
  induction room generalizing s last with
  | zero => exact Nat.le_refl 0
  | succ room ih =>
    rw [TwccRecv.scan]
    split
    · split
      · exact Nat.succ_le_succ ih
      · dsimp only
        split
        · exact Nat.succ_le_succ ih
        · exact Nat.zero_le _
    · exact Nat.zero_le _

/-- The steps fit. -/
theorem scan_fits {d : Int} (hd : some d ∈ t.scan maxSeq room s last) :
    -32768 ≤ d ∧ d ≤ 32767 := by
  induction room generalizing s last with
  | zero => nomatch hd
  | succ room ih =>
    rw [TwccRecv.scan] at hd
    split at hd
    · split at hd
      · exact ih ((List.mem_cons.mp hd).resolve_left fun e => nomatch e)
      · dsimp only at hd
        split at hd
        · next hfits =>
          rcases List.mem_cons.mp hd with e | hd
          · rw [Option.some.inj e]
            exact hfits
          · exact ih hd
        · nomatch hd
    · nomatch hd

/-- A status is that of its packet, and its time is that of the packet, to half a step. -/
theorem scan_stamp (hi : i < (t.scan maxSeq room s last).length) :
    match t.arrivals.lookup (s + i) with
    | none => (sums (t.scan maxSeq room s last) last)[i]? = some none
    | some us => ∃ x, (sums (t.scan maxSeq room s last) last)[i]? = some (some x) ∧
        x - us ≤ 125 ∧ us - x ≤ 125 := by
  induction room generalizing s last i with
  | zero => nomatch hi
  | succ room ih =>
    rw [TwccRecv.scan] at hi ⊢
    split at hi
    · next hle =>
      rw [if_pos hle]
      cases hs : t.arrivals.lookup s with
      | none =>
        rw [hs] at hi
        dsimp only at hi ⊢
        rw [sums]
        cases i with
        | zero =>
          rw [Nat.cast_zero, add_zero, hs]
          rfl
        | succ i =>
          have := @ih (s + 1) last i (Nat.lt_of_succ_lt_succ hi)
          rw [Nat.cast_succ, add_comm (i : Int) 1, ← add_assoc]
          exact this
      | some us =>
        rw [hs] at hi
        dsimp only at hi ⊢
        split at hi
        · next hfits =>
          rw [if_pos hfits, sums]
          have hstep : last + 250 * TwccRecv.delta last us =
      last + TwccRecv.delta last us * 250 := by ring
          cases i with
          | zero =>
            rw [Nat.cast_zero, add_zero, hs]
            refine ⟨_, rfl, ?_, ?_⟩
            · rw [TwccRecv.delta]
              omega
            · rw [TwccRecv.delta]
              omega
          | succ i =>
            have := @ih (s + 1) (last + TwccRecv.delta last us * 250) i
              (Nat.lt_of_succ_lt_succ hi)
            rw [Nat.cast_succ, add_comm (i : Int) 1, ← add_assoc, hstep]
            exact this
        · nomatch hi
    · nomatch hi

/-- The scan comes as far as the first packet, when that is near. -/
theorem scan_reaches (hnone : ∀ k : Nat, k < i → t.arrivals.lookup (s + k) = none)
    (hsome : t.arrivals.lookup (s + i) = some us) (hroom : i < room) (hmax : s + i ≤ maxSeq)
    (hnear : 0 ≤ us - last ∧ us - last < 64000) :
    ∃ d, (t.scan maxSeq room s last)[i]? = some (some d) := by
  induction i generalizing room s with
  | zero =>
    obtain ⟨room, rfl⟩ := Nat.exists_eq_succ_of_ne_zero (Nat.ne_of_gt hroom)
    rw [Nat.cast_zero, add_zero] at hsome hmax
    have hfits : -32768 ≤ TwccRecv.delta last us ∧ TwccRecv.delta last us ≤ 32767 := by
      rw [TwccRecv.delta]
      omega
    rw [TwccRecv.scan, if_pos hmax, hsome]
    dsimp only
    rw [if_pos hfits]
    exact ⟨_, rfl⟩
  | succ i ih =>
    obtain ⟨room, rfl⟩ := Nat.exists_eq_succ_of_ne_zero (Nat.ne_of_gt (Nat.zero_lt_of_lt hroom))
    have hs : t.arrivals.lookup s = none := by
      have := hnone 0 (Nat.succ_pos i)
      rwa [Nat.cast_zero, add_zero] at this
    have hnext : ∀ k : Nat, s + 1 + k = s + ((k + 1 : Nat) : Int) := fun k => by push_cast; ring
    rw [TwccRecv.scan, if_pos (by omega), hs]
    refine ih (fun k hk => ?_) ?_ (Nat.lt_of_succ_lt_succ hroom) ?_
    · rw [hnext]
      exact hnone (k + 1) (Nat.succ_lt_succ hk)
    · rw [hnext]
      exact hsome
    · rw [hnext]
      exact hmax

end Scan

/-! ## Building -/

/-- The time is `us`, to half a step and whole turns of the reference. -/
def Near (x us : Int) : Prop := ∃ m : Int, x + m * wrapUs - us ≤ 125 ∧ us - (x + m * wrapUs) ≤ 125

/-- The feedback, whose window began at `w`, has the packet `u` at `us`. -/
def Feedback.Tells (f : Feedback) (w u us : Int) : Prop :=
  ∃ (i : Nat) (x : Int), w + i = u ∧ f.baseSeq = UInt16.ofInt w ∧ f.times[i]? = some (some x) ∧
    Near x us

/-- The feedback is made of statuses that fit. -/
def Feedback.Sound (f : Feedback) : Prop :=
  ∃ l : List (Option Int), l.length ≤ 0xffff ∧ (∀ d, some d ∈ l → -32768 ≤ d ∧ d ≤ 32767) ∧
    f.statusCount = UInt16.ofNat l.length ∧ f.symbols = l.map TwccRecv.symbol ∧
    f.deltas250us = l.reduceOption ∧ f.referenceTime.toNat < 2 ^ 24

theorem reference_toNat (x : Int) :
    ((UInt32.ofInt x &&& 0xffffff).toNat : Int) = x % 2 ^ 24 := by
  have hmask : (0xffffff : UInt32).toNat = 2 ^ 24 - 1 := rfl
  have hlt : (x % 2 ^ 32).toNat < 2 ^ 32 := by omega
  rw [UInt32.toNat_and, hmask, Nat.and_two_pow_sub_one_eq_mod, UInt32.ofInt,
    UInt32.toNat_ofNat_of_lt' hlt]
  omega

theorem first_eq_some {t : TwccRecv} {w u : Int} : t.first w = some u ↔
    u ∈ t.arrivals.keys ∧ w ≤ u ∧ ∀ k ∈ t.arrivals.keys, w ≤ k → u ≤ k := by
  rw [TwccRecv.first, List.min?_eq_some_iff]
  simp only [List.mem_filter, decide_eq_true_eq, and_imp, and_assoc]

theorem first_eq_none {t : TwccRecv} {w : Int} :
    t.first w = none ↔ ∀ k ∈ t.arrivals.keys, ¬ w ≤ k := by
  rw [TwccRecv.first, List.min?_eq_none_iff, List.filter_eq_nil_iff]
  simp only [decide_eq_true_eq]

/-- What a feedback is to be built from: the window and its first packet, and the last packet. -/
structure Ready (t : TwccRecv) (w u us maxSeq : Int) : Prop where
  window : t.windowStart = some w
  first : t.first w = some u
  came : t.arrivals.lookup u = some us
  last : t.arrivals.keys.max? = some maxSeq

/-- What building does: the window moves on to behind a packet, and the feedback tells of all
before it. -/
structure Builds (t t' : TwccRecv) (w : Int) (f : Feedback) (n : Nat) : Prop where
  window : t.windowStart = some w
  built : t.build = (some f, t')
  after : t' = { t with fbCount := t.fbCount + 1, windowStart := some (w + n) }
  last : 0 < n ∧ w + n - 1 ∈ t.arrivals.keys
  tells : ∀ u us, w ≤ u → u < w + n → t.arrivals.lookup u = some us → f.Tells w u us
  sound : f.Sound

theorem statuses_prefix (t : TwccRecv) (w firstUs maxSeq : Int) :
    t.statuses w firstUs maxSeq <+: t.scan maxSeq 0xffff w (firstUs / 64000 * 64000) :=
  List.rdropWhile_prefix _ _

variable {t t' : TwccRecv} {w u us maxSeq : Int}

theorem ready_of_first (hw : t.windowStart = some w) (hu : t.first w = some u) :
    ∃ us maxSeq, Ready t w u us maxSeq := by
  obtain ⟨hkey, -, -⟩ := first_eq_some.mp hu
  obtain ⟨us, hus⟩ := Map.mem_keys_iff.mp hkey
  obtain ⟨maxSeq, hmax⟩ : ∃ m, t.arrivals.keys.max? = some m :=
    Option.ne_none_iff_exists'.mp fun e => by
      rw [List.max?_eq_none_iff.mp e] at hkey
      nomatch hkey
  exact ⟨us, maxSeq, hw, hu, hus, hmax⟩

/-- A packet in reach of the window has a status. -/
theorem Ready.statuses_ne_nil (h : Ready t w u us maxSeq) (hnear : u - w < 0xffff) :
    t.statuses w us maxSeq ≠ [] := by
  obtain ⟨hkey, hwu, hmin⟩ := first_eq_some.mp h.first
  have hmax : u ≤ maxSeq := (List.max?_eq_some_iff.mp h.last).2 u hkey
  have hi : w + ((u - w).toNat : Int) = u := by omega
  have hnone : ∀ k : Nat, k < (u - w).toNat → t.arrivals.lookup (w + k) = none := by
    intro k hk
    refine Option.eq_none_iff_forall_ne_some.mpr fun x hx => ?_
    have := hmin (w + k) (Map.mem_keys_iff.mpr ⟨x, hx⟩) (by omega)
    omega
  obtain ⟨d, hd⟩ : ∃ d, (t.scan maxSeq 0xffff w (us / 64000 * 64000))[(u - w).toNat]? =
      some (some d) :=
    scan_reaches hnone (hi.symm ▸ h.came) (by omega) (hi.symm ▸ hmax) (by omega)
  intro hnil
  have := List.rdropWhile_eq_nil_iff.mp hnil _ (List.mem_of_getElem? hd)
  nomatch this

/-- The times of a feedback are those of its statuses, turned by the reference. -/
theorem times_built {f : Feedback} {l : List (Option Int)} {ref : Int}
    (hsym : f.symbols = l.map TwccRecv.symbol) (hdeltas : f.deltas250us = l.reduceOption)
    (href : f.referenceTime = UInt32.ofInt ref &&& 0xffffff) :
    ∃ m : Int, f.times = (sums l (ref * 64000)).map (Option.map (· + m * wrapUs)) := by
  refine ⟨-(ref / 2 ^ 24), ?_⟩
  have hstart : ((UInt32.ofInt ref &&& 0xffffff).toNat : Int) * 64000 =
      ref * 64000 + -(ref / 2 ^ 24) * wrapUs := by
    rw [reference_toNat, wrapUs]
    omega
  rw [Feedback.times, hsym, hdeltas, href, hstart, stamps_statuses, sums_shift]

theorem Ready.build (h : Ready t w u us maxSeq) : t.build =
    if t.statuses w us maxSeq = [] then (none, t)
    else (some (t.feedback w us (t.statuses w us maxSeq)),
      { t with
        fbCount := t.fbCount + 1
        windowStart := some (w + (t.statuses w us maxSeq).length) }) := by
  rw [TwccRecv.build, h.window]
  dsimp only
  rw [h.first]
  dsimp only
  rw [h.came, h.last, Option.getD_some, Option.getD_some]

theorem Ready.builds (h : Ready t w u us maxSeq) (hne : t.statuses w us maxSeq ≠ []) :
    ∃ t' f n, Builds t t' w f n := by
  have hbuild := h.build
  rw [if_neg hne] at hbuild
  obtain ⟨rest, hscan⟩ := statuses_prefix t w us maxSeq
  generalize hl : t.statuses w us maxSeq = l at hbuild hne hscan
  have hlen : (t.scan maxSeq 0xffff w (us / 64000 * 64000)).length = l.length + rest.length := by
    rw [← hscan, List.length_append]
  have hpos : 0 < l.length := List.length_pos_iff.mpr hne
  obtain ⟨us', hsums⟩ := sums_append l rest (us / 64000 * 64000)
  rw [hscan] at hsums
  -- what the scan says at a place of the feedback, the feedback says
  have hsame : ∀ i, i < l.length → (sums (t.scan maxSeq 0xffff w (us / 64000 * 64000))
      (us / 64000 * 64000))[i]? = (sums l (us / 64000 * 64000))[i]? := by
    intro i hi
    rw [hsums, List.getElem?_append_left (by rwa [length_sums])]
  have hinside : ∀ i, i < l.length →
      i < (t.scan maxSeq 0xffff w (us / 64000 * 64000)).length := fun i hi => by omega
  refine ⟨_, _, l.length, h.window, hbuild, rfl, ⟨hpos, ?_⟩, fun v vs hwv hv hcame => ?_, l, ?_, ?_,
    rfl, rfl, rfl, ?_⟩
  · -- the last status is that of a packet
    have hi : l.length - 1 < l.length := Nat.sub_lt hpos Nat.one_pos
    have hstamp := scan_stamp (hinside _ hi)
    rw [hsame _ hi] at hstamp
    have hplace : w + l.length - 1 = w + ((l.length - 1 : Nat) : Int) := by omega
    rw [hplace, Map.mem_keys_iff]
    cases hlook : t.arrivals.lookup (w + ((l.length - 1 : Nat) : Int)) with
    | some x => exact ⟨x, rfl⟩
    | none =>
      rw [hlook] at hstamp
      have hnot : ¬ ((l.getLast hne).isNone = true) := by
        subst hl
        exact List.rdropWhile_last_not _ _ hne
      have hgone := sums_none hstamp
      rw [← List.getLast?_eq_getElem?, List.getLast?_eq_getLast_of_ne_nil hne,
        Option.some.injEq] at hgone
      rw [hgone] at hnot
      exact absurd rfl hnot
  · obtain ⟨m, htimes⟩ : ∃ m : Int, (t.feedback w us l).times =
        (sums l (us / 64000 * 64000)).map (Option.map (· + m * wrapUs)) := times_built rfl rfl rfl
    have hi : (v - w).toNat < l.length := by omega
    have hplace : w + ((v - w).toNat : Int) = v := by omega
    have hstamp := scan_stamp (hinside _ hi)
    rw [hsame _ hi, hplace, hcame] at hstamp
    obtain ⟨x, hx, hlow, hhigh⟩ := hstamp
    refine ⟨(v - w).toNat, x + m * wrapUs, hplace, rfl, ?_, -m, ?_⟩
    · rw [htimes, List.getElem?_map, hx]
      rfl
    · have : x + m * wrapUs + -m * wrapUs = x := by ring
      rw [this]
      exact ⟨hlow, hhigh⟩
  · exact (Nat.le_add_right _ _).trans (hlen ▸ length_scan)
  · intro d hd
    exact scan_fits (hscan ▸ List.mem_append_left _ hd)
  · have := reference_toNat (us / 64000)
    show (UInt32.ofInt (us / 64000) &&& 0xffffff).toNat < 2 ^ 24
    omega

theorem build_none (hw : ∀ w, t.windowStart = some w → t.first w = none) :
    t.build = (none, t) := by
  rw [TwccRecv.build]
  cases h : t.windowStart with
  | none => rfl
  | some w =>
    dsimp only
    rw [hw w h]

/-- Whatever is built is built from a window. -/
theorem builds_of_some {f : Feedback} (h : t.build = (some f, t')) : ∃ w n, Builds t t' w f n := by
  by_cases hpend : ∃ w u, t.windowStart = some w ∧ t.first w = some u
  · obtain ⟨w, u, hw, hu⟩ := hpend
    obtain ⟨us, maxSeq, hready⟩ := ready_of_first hw hu
    have hne : t.statuses w us maxSeq ≠ [] := fun hnil => by
      rw [hready.build, if_pos hnil] at h
      nomatch h
    obtain ⟨t'', f', n, hb⟩ := hready.builds hne
    obtain ⟨e₁, e₂⟩ := Prod.mk.inj (h.symm.trans hb.built)
    rw [← Option.some.inj e₁, ← e₂] at hb
    exact ⟨w, n, hb⟩
  · rw [build_none fun w hw => Option.eq_none_iff_forall_ne_some.mpr fun u hu =>
      hpend ⟨w, u, hw, hu⟩] at h
    nomatch h

/-- How many packets are pending. -/
def TwccRecv.waiting (t : TwccRecv) : Nat :=
  match t.windowStart with
  | none => 0
  | some w => (t.arrivals.keys.filter (w ≤ ·)).length

theorem Builds.waiting {f : Feedback} {n : Nat} (h : Builds t t' w f n) :
    t'.waiting < t.waiting := by
  obtain ⟨hpos, hlast⟩ := h.last
  rw [h.after, TwccRecv.waiting, TwccRecv.waiting, h.window]
  dsimp only
  have hsub : (t.arrivals.keys.filter (w + n ≤ ·)).Sublist (t.arrivals.keys.filter (w ≤ ·)) := by
    refine List.monotone_filter_right _ fun k hk => ?_
    simp only [decide_eq_true_eq] at hk ⊢
    omega
  refine Nat.lt_of_le_of_ne hsub.length_le fun he => ?_
  have hin : w + n - 1 ∈ t.arrivals.keys.filter (w + n ≤ ·) := by
    rw [hsub.eq_of_length he, List.mem_filter]
    exact ⟨hlast, by simp only [decide_eq_true_eq]; omega⟩
  have := of_decide_eq_true (List.mem_filter.mp hin).2
  omega

theorem build_waiting {f : Feedback} (h : t.build = (some f, t')) : t'.waiting < t.waiting := by
  obtain ⟨w, n, hb⟩ := builds_of_some h
  exact hb.waiting

/-- The loop that sends the feedbacks: as long as something is pending. -/
def TwccRecv.uplink (t : TwccRecv) : List Feedback × TwccRecv :=
  if t.pending then
    match h : t.build with
    | (some f, t') =>
      have : t'.waiting < t.waiting := build_waiting h
      let (fs, last) := t'.uplink
      (f :: fs, last)
    | (none, t') => ([], t')
  else ([], t)
termination_by t.waiting

/-! ## Reaching the next packet -/

/-- The window ends with the highest number, and has no wide gap. -/
structure Covered (t : TwccRecv) (w l : Int) : Prop where
  window : t.windowStart = some w
  last : t.lastUnwrapped = some l
  highest : l ∈ t.arrivals.keys ∧ ∀ k ∈ t.arrivals.keys, k ≤ l
  within : w ≤ l + 1
  gaps : ∀ x, w ≤ x → x ≤ l → ∃ k ∈ t.arrivals.keys, x ≤ k ∧ k ≤ x + 2 ^ 15

theorem Covered.builds {l : Int} (h : Covered t w l) (hu : t.first w = some u) :
    ∃ t' f n, Builds t t' w f n := by
  obtain ⟨us, maxSeq, hready⟩ := ready_of_first h.window hu
  obtain ⟨hkey, hwu, hmin⟩ := first_eq_some.mp hu
  obtain ⟨k, hk, hwk, hnear⟩ := h.gaps w (Int.le_refl w) (hwu.trans (h.highest.2 u hkey))
  have := hmin k hk hwk
  exact hready.builds (hready.statuses_ne_nil (by omega))

theorem Covered.after {l : Int} (h : Covered t w l) {f : Feedback} {n : Nat}
    (hb : Builds t t' w f n) : Covered t' (w + n) l := by
  obtain ⟨hpos, hlast⟩ := hb.last
  have := h.highest.2 _ hlast
  rw [hb.after]
  exact ⟨rfl, h.last, h.highest, by omega, fun x hx hxl => h.gaps x (by omega) hxl⟩

/-- Where the window begins with a packet. -/
def TwccRecv.windowWith (t : TwccRecv) (u : Int) : Int :=
  match t.windowStart with
  | some w => if u < w then u else w
  | none => u

theorem record_window (t : TwccRecv) (seq : UInt16) (us : Int) :
    (t.record seq us).windowStart = some (t.windowWith (t.unwrap seq).1) := rfl

/-- Nothing of the window is forgotten, and the first time of a packet stays. -/
theorem lookup_record (t : TwccRecv) (seq : UInt16) (us : Int) {k : Int}
    (hk : t.windowWith (t.unwrap seq).1 ≤ k) : (t.record seq us).arrivals.lookup k =
      if k = (t.unwrap seq).1 then (t.arrivals.lookup k).or (some us) else t.arrivals.lookup k := by
  have hall : (t.record seq us).arrivals.lookup k =
      ((orInsert t.arrivals (t.unwrap seq).1 us).lookup k).filter fun x =>
        (if t.newestUs < us then us else t.newestUs) - keepUs ≤ x ||
          t.windowWith (t.unwrap seq).1 ≤ k := Map.lookup_filter _ _ k
  have hkeep : ∀ o : Option Int, (o.filter fun x =>
      (if t.newestUs < us then us else t.newestUs) - keepUs ≤ x ||
        t.windowWith (t.unwrap seq).1 ≤ k) = o := by
    intro o
    cases o with
    | none => rfl
    | some x => simp [Option.filter, hk]
  rw [hall, hkeep, lookup_orInsert]

theorem mem_record {seq : UInt16} {us k : Int} (hk : k ∈ (t.record seq us).arrivals.keys) :
    k ∈ t.arrivals.keys ∨ k = (t.unwrap seq).1 := by
  obtain ⟨x, hx⟩ := Map.mem_keys_iff.mp hk
  have hx : (Map.filter _ (orInsert t.arrivals (t.unwrap seq).1 us)).lookup k = some x := hx
  rw [Map.lookup_filter, Option.filter_eq_some_iff, lookup_orInsert] at hx
  split at hx
  · next e => exact .inr e
  · exact .inl (Map.mem_keys_iff.mpr ⟨x, hx.1⟩)

theorem unwrap_near {l : Int} (h : t.lastUnwrapped = some l) (seq : UInt16) :
    l - 2 ^ 15 ≤ (t.unwrap seq).1 ∧ (t.unwrap seq).1 < l + 2 ^ 15 := by
  have hlow := @Int.le_bmod ((seq.toNat : Int) - l) (2 ^ 16) (by decide)
  have hhigh := @Int.bmod_lt ((seq.toNat : Int) - l) (2 ^ 16) (by decide)
  rw [TwccRecv.unwrap, h]
  dsimp only
  omega

theorem unwrap_last (t : TwccRecv) (seq : UInt16) (us : Int) :
    (t.record seq us).lastUnwrapped =
      if t.lastUnwrapped.all (· < (t.unwrap seq).1) then some (t.unwrap seq).1
      else t.lastUnwrapped := rfl

theorem mem_keys_record {seq : UInt16} {us k : Int} (hk : t.windowWith (t.unwrap seq).1 ≤ k) :
    k ∈ (t.record seq us).arrivals.keys ↔ k ∈ t.arrivals.keys ∨ k = (t.unwrap seq).1 := by
  refine ⟨mem_record, fun h => Map.mem_keys_iff.mpr ?_⟩
  rw [lookup_record t seq us hk]
  by_cases e : k = (t.unwrap seq).1
  · rw [if_pos e]
    cases t.arrivals.lookup k with
    | none => exact ⟨us, rfl⟩
    | some x => exact ⟨x, rfl⟩
  · rw [if_neg e]
    exact Map.mem_keys_iff.mp (h.resolve_right e)

/-- A packet moves the window back or the highest number on, and leaves no wide gap. -/
theorem Covered.record {l : Int} (h : Covered t w l) (seq : UInt16) (us : Int) :
    ∃ l', Covered (t.record seq us) (t.windowWith (t.unwrap seq).1) l' := by
  obtain ⟨hlow, hhigh⟩ := unwrap_near h.last seq
  have hws : t.windowWith (t.unwrap seq).1 = if (t.unwrap seq).1 < w then (t.unwrap seq).1 else w := by
    rw [TwccRecv.windowWith, h.window]
  have hlast : (t.record seq us).lastUnwrapped =
      some (if l < (t.unwrap seq).1 then (t.unwrap seq).1 else l) := by
    rw [unwrap_last, h.last]
    simp only [Option.all_some, decide_eq_true_eq]
    split <;> rfl
  have hkeys : ∀ {k}, t.windowWith (t.unwrap seq).1 ≤ k →
      (k ∈ (t.record seq us).arrivals.keys ↔ k ∈ t.arrivals.keys ∨ k = (t.unwrap seq).1) :=
    fun hk => mem_keys_record hk
  have hle : ∀ k ∈ (t.record seq us).arrivals.keys,
      k ≤ if l < (t.unwrap seq).1 then (t.unwrap seq).1 else l := by
    intro k hk
    rcases mem_record hk with hk | rfl
    · have := h.highest.2 k hk
      split <;> omega
    · split <;> omega
  have hwithin := h.within
  have hwindow := record_window t seq us
  generalize (t.unwrap seq).1 = v at *
  generalize t.windowWith v = ws at *
  have hend : (if l < v then v else l) ∈ (t.record seq us).arrivals.keys := by
    refine (hkeys (by split <;> split at hws <;> omega)).mpr ?_
    split
    · exact .inr rfl
    · exact .inl h.highest.1
  refine ⟨_, hwindow, hlast, ⟨hend, hle⟩, by split <;> split at hws <;> omega, fun x hx hxl => ?_⟩
  by_cases hxold : x ≤ l
  · by_cases hxw : w ≤ x
    · obtain ⟨k, hk, hxk, hkx⟩ := h.gaps x hxw hxold
      exact ⟨k, (hkeys (hx.trans hxk)).mpr (.inl hk), hxk, hkx⟩
    · -- a late packet: the highest number is in reach of it
      refine ⟨l, (hkeys (hx.trans hxold)).mpr (.inl h.highest.1), hxold, ?_⟩
      split at hws <;> omega
  · -- a new highest number, in reach of the last one
    refine ⟨v, (hkeys (by split at hws <;> omega)).mpr (.inr rfl), ?_, by omega⟩
    split at hxl <;> omega

/-! ## Runs -/

inductive Event where
  | record (seq : UInt16) (arrivalUs : Int)
  | build
  deriving DecidableEq

/-- A receiver, and what has happened to it. -/
structure Trace where
  recv : TwccRecv := {}
  /-- When each packet first came. -/
  came : Int → Option Int := fun _ => none
  /-- The feedbacks, each with where its window began. -/
  built : List (Int × Feedback) := []

namespace Trace

def step (s : Trace) : Event → Trace
  | .record seq us =>
    let u := (s.recv.unwrap seq).1
    { s with
      recv := s.recv.record seq us
      came := Function.update s.came u ((s.came u).or (some us)) }
  | .build =>
    match s.recv.build with
    | (some f, t') => { s with recv := t', built := s.built ++ [(s.recv.windowStart.getD 0, f)] }
    | (none, t') => { s with recv := t' }

/-- Records and builds, in the order of the list. -/
def run (es : List Event) : Trace := es.foldl step {}

/-- A feedback of the trace has the packet `u` at `us`. -/
def Told (s : Trace) (u us : Int) : Prop := ∃ x ∈ s.built, x.2.Tells x.1 u us

/-- Every packet that came is told or in the window, as it first came. -/
structure Kept (s : Trace) (w l : Int) : Prop where
  covered : Covered s.recv w l
  seen : ∀ k ∈ s.recv.arrivals.keys, s.came k ≠ none
  rest : ∀ u us, s.came u = some us → w ≤ u ∧ s.recv.arrivals.lookup u = some us ∨ s.Told u us

/-- Nothing has come yet. -/
structure Blank (s : Trace) : Prop where
  window : s.recv.windowStart = none
  last : s.recv.lastUnwrapped = none
  arrivals : s.recv.arrivals = ∅
  came : ∀ u, s.came u = none

variable {s : Trace}

theorem step_came (s : Trace) (seq : UInt16) (us u : Int) : (s.step (.record seq us)).came u =
    if u = (s.recv.unwrap seq).1 then (s.came u).or (some us) else s.came u := by
  show Function.update _ _ _ u = _
  rw [Function.update_apply]
  split
  · next e => rw [e]
  · rfl

theorem Blank.record (h : Blank s) (seq : UInt16) (us : Int) :
    ∃ w l, Kept (s.step (.record seq us)) w l := by
  have hws : s.recv.windowWith (s.recv.unwrap seq).1 = (s.recv.unwrap seq).1 := by
    rw [TwccRecv.windowWith, h.window]
  have hlast : (s.recv.record seq us).lastUnwrapped = some (s.recv.unwrap seq).1 := by
    rw [unwrap_last, h.last]
    rfl
  have hkeys : ∀ {k}, k ∈ (s.recv.record seq us).arrivals.keys → k = (s.recv.unwrap seq).1 := by
    intro k hk
    refine (mem_record hk).resolve_left fun hk => ?_
    rw [h.arrivals] at hk
    nomatch hk
  have hlook := lookup_record s.recv seq us hws.le
  rw [if_pos rfl, h.arrivals] at hlook
  have hwindow := record_window s.recv seq us
  rw [hws] at hwindow
  have hcame := step_came s seq us
  generalize (s.recv.unwrap seq).1 = v at *
  refine ⟨v, v, ⟨hwindow, hlast, ⟨Map.mem_keys_iff.mpr ⟨us, hlook⟩, fun k hk => (hkeys hk).le⟩,
    by omega, fun x hx hxl => ⟨v, Map.mem_keys_iff.mpr ⟨us, hlook⟩, hxl, by omega⟩⟩,
    fun k hk => ?_, fun u us' hu => .inl ?_⟩
  · rw [hcame, if_pos (hkeys hk)]
    simp
  · rw [hcame, h.came] at hu
    split at hu
    · next e =>
      subst e
      exact ⟨Int.le_refl u, hu ▸ hlook⟩
    · nomatch hu

theorem Kept.record {w l : Int} (h : Kept s w l) (seq : UInt16) (us : Int) :
    ∃ w' l', Kept (s.step (.record seq us)) w' l' := by
  obtain ⟨l', hcov⟩ := h.covered.record seq us
  have hle : s.recv.windowWith (s.recv.unwrap seq).1 ≤ w ∧
      s.recv.windowWith (s.recv.unwrap seq).1 ≤ (s.recv.unwrap seq).1 := by
    rw [TwccRecv.windowWith, h.covered.window]
    dsimp only
    split <;> omega
  refine ⟨_, l', hcov, fun k hk => ?_, fun u us' hu => ?_⟩
  · rw [step_came]
    split
    · simp
    · next e => exact h.seen k ((mem_record hk).resolve_right e)
  · rw [step_came] at hu
    split at hu
    · next e =>
      have hin : s.recv.windowWith (s.recv.unwrap seq).1 ≤ u := e ▸ hle.2
      have hlook := lookup_record s.recv seq us hin
      rw [if_pos e] at hlook
      cases hcame : s.came u with
      | none =>
        -- its first time: no time of it is noted
        have hnew : s.recv.arrivals.lookup u = none :=
          Option.eq_none_iff_forall_ne_some.mpr fun x hx =>
            h.seen u (Map.mem_keys_iff.mpr ⟨x, hx⟩) hcame
        rw [hcame] at hu
        rw [hnew] at hlook
        exact .inl ⟨hin, hlook.trans hu⟩
      | some x =>
        rw [hcame] at hu
        obtain rfl := Option.some.inj hu
        refine (h.rest u x hcame).imp_left fun ⟨_, hold⟩ => ⟨hin, ?_⟩
        rw [hold] at hlook
        exact hlook
    · next e =>
      refine (h.rest u us' hu).imp_left fun ⟨hwu, hold⟩ => ⟨hle.1.trans hwu, ?_⟩
      have hlook := lookup_record s.recv seq us (hle.1.trans hwu)
      rw [if_neg e] at hlook
      exact hlook.trans hold

theorem step_build {f : Feedback} {t' : TwccRecv} (h : s.recv.build = (some f, t')) :
    s.step .build = { s with
      recv := t', built := s.built ++ [(s.recv.windowStart.getD 0, f)] } := by
  rw [step, h]

theorem step_build_none (h : s.recv.build = (none, s.recv)) : s.step .build = s := by
  rw [step, h]

theorem Kept.build {w l : Int} (h : Kept s w l) : ∃ w' l', Kept (s.step .build) w' l' := by
  cases hfirst : s.recv.first w with
  | none =>
    rw [step_build_none (build_none fun w' hw' => by
      rw [h.covered.window] at hw'
      rw [← Option.some.inj hw', hfirst])]
    exact ⟨w, l, h⟩
  | some u =>
    obtain ⟨t', f, n, hb⟩ := h.covered.builds hfirst
    have hcov := h.covered.after hb
    rw [step_build hb.built, h.covered.window, Option.getD_some]
    have harr : t'.arrivals = s.recv.arrivals := by rw [hb.after]
    refine ⟨w + n, l, hcov, ?_, fun v us hv => ?_⟩
    · dsimp only
      rw [harr]
      exact h.seen
    · dsimp only
      rw [harr]
      rcases h.rest v us hv with ⟨hwv, hlook⟩ | ⟨x, hx, htells⟩
      · by_cases hin : v < w + n
        · exact .inr ⟨(w, f), List.mem_append_right _ List.mem_cons_self, hb.tells v us hwv hin hlook⟩
        · exact .inl ⟨by omega, hlook⟩
      · exact .inr ⟨x, List.mem_append_left _ hx, htells⟩

theorem run_snoc (es : List Event) (e : Event) : run (es ++ [e]) = (run es).step e := by
  rw [run, List.foldl_append]
  rfl

/-- What holds of every run. -/
theorem run_kept (es : List Event) : Blank (run es) ∨ ∃ w l, Kept (run es) w l := by
  induction es using List.reverseRecOn with
  | nil => exact .inl ⟨rfl, rfl, rfl, fun _ => rfl⟩
  | append_singleton es e ih =>
    rw [run_snoc]
    cases e with
    | record seq us =>
      rcases ih with h | ⟨w, l, h⟩
      · exact .inr (h.record seq us)
      · exact .inr (h.record seq us)
    | build =>
      rcases ih with h | ⟨w, l, h⟩
      · rw [step_build_none (build_none fun w hw => by rw [h.window] at hw; nomatch hw)]
        exact .inl h
      · exact .inr h.build

theorem run_sound (es : List Event) : ∀ x ∈ (run es).built, x.2.Sound := by
  induction es using List.reverseRecOn with
  | nil => exact fun x hx => nomatch hx
  | append_singleton es e ih =>
    intro x hx
    rw [run_snoc] at hx
    cases e with
    | record seq us => exact ih x hx
    | build =>
      rw [step] at hx
      split at hx
      · next f t' hbuild =>
        rcases List.mem_append.mp hx with hx | hx
        · exact ih x hx
        · obtain ⟨w, n, hb⟩ := builds_of_some hbuild
          rw [List.mem_singleton.mp hx]
          exact hb.sound
      · exact ih x hx

theorem pending_iff (t : TwccRecv) :
    t.pending = true ↔ ∃ w u, t.windowStart = some w ∧ t.first w = some u := by
  rw [TwccRecv.pending, Option.any_eq_true]
  simp only [Option.isSome_iff_exists]
  exact ⟨fun ⟨w, hw, u, hu⟩ => ⟨w, u, hw, hu⟩, fun ⟨w, u, hw, hu⟩ => ⟨w, hw, u, hu⟩⟩

/-- While something is pending, there is something to build. -/
theorem pending_builds {es : List Event} (hp : (run es).recv.pending = true) :
    ∃ f t', (run es).recv.build = (some f, t') := by
  obtain ⟨w, u, hw, hu⟩ := (pending_iff _).mp hp
  rcases run_kept es with h | ⟨w', l, h⟩
  · rw [h.window] at hw
    nomatch hw
  · rw [h.covered.window, Option.some.injEq] at hw
    obtain ⟨t', f, n, hb⟩ := h.covered.builds (hw ▸ hu)
    exact ⟨f, t', hb.built⟩

/-- The loop ends with nothing pending, and is so many builds. -/
theorem uplink_run (es : List Event) : ∃ n : Nat,
    let s := run (es ++ List.replicate n .build)
    s.recv = (run es).recv.uplink.2 ∧ s.recv.pending = false ∧
      s.built.map (·.2) = (run es).built.map (·.2) ++ (run es).recv.uplink.1 := by
  generalize hm : (run es).recv.waiting = m
  induction m using Nat.strong_induction_on generalizing es with
  | _ m ih =>
    by_cases hp : (run es).recv.pending = true
    · obtain ⟨f, t', hbuild⟩ := pending_builds hp
      have hstep : run (es ++ [.build]) = { run es with
          recv := t', built := (run es).built ++ [((run es).recv.windowStart.getD 0, f)] } := by
        rw [run_snoc, step_build hbuild]
      have hup : (run es).recv.uplink = (f :: t'.uplink.1, t'.uplink.2) := by
        rw [TwccRecv.uplink, if_pos hp]
        split
        · next f' t'' hb =>
          rw [hbuild, Prod.mk.injEq, Option.some.injEq] at hb
          rw [hb.1, hb.2]
        · next hb =>
          rw [hbuild] at hb
          nomatch hb
      obtain ⟨n, hrecv, hdone, hbuilt⟩ := ih t'.waiting (hm ▸ build_waiting hbuild)
        (es ++ [.build]) (by rw [hstep])
      refine ⟨n + 1, ?_⟩
      rw [List.replicate_succ, List.append_cons, hup]
      rw [hstep] at hrecv hbuilt
      refine ⟨hrecv, hdone, ?_⟩
      rw [hbuilt]
      simp
    · have hup : (run es).recv.uplink = ([], (run es).recv) := by
        rw [TwccRecv.uplink, if_neg hp]
      refine ⟨0, ?_⟩
      rw [List.replicate_zero, List.append_nil, hup, List.append_nil]
      exact ⟨rfl, Bool.eq_false_iff.mpr hp, rfl⟩

/-- When nothing is pending, every packet that came is told of. -/
theorem reported_when_done {es : List Event} (hp : (run es).recv.pending = false) {u us : Int}
    (hu : (run es).came u = some us) : (run es).Told u us := by
  rcases run_kept es with h | ⟨w, l, h⟩
  · rw [h.came] at hu
    cases hu
  · refine (h.rest u us hu).resolve_left ?_
    rintro ⟨hwu, hlook⟩
    have hkey := Map.mem_keys_iff.mpr ⟨us, hlook⟩
    have hfirst : ∃ v, (run es).recv.first w = some v :=
      Option.ne_none_iff_exists'.mp fun e => first_eq_none.mp e u hkey hwu
    obtain ⟨v, hv⟩ := hfirst
    rw [(pending_iff _).mpr ⟨w, v, h.covered.window, hv⟩] at hp
    cases hp

end Trace

end OxlensSfu.Rtcp
