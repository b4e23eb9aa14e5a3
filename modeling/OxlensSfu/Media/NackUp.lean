import OxlensSfu.Lib.Serial

/-!
# Packets asked for again

What a stream is still missing, and when it is asked for (`NackUp`,
`crates/oxsfud/src/pub/mod.rs`). A number of 16 bits is taken next to the last highest one. A jump
ahead of less than 128 makes gaps of what it skips, as long as there are fewer than 128 of them; a
late packet closes its gap. A gap is asked for every 200 ms, and forgotten 1000 ms after it was
first seen.

**Theorem (`asked_soundly`).** For packets whose true numbers are within 32767 of the highest one,
every number that is asked for ends a true number below the highest that has not come. Two requests
for one number are 200 ms or more apart, and none is later than 1000 ms after the jump that skipped
it. What a short jump skips while there is room is asked for by the next sweep within 1000 ms of
it, unless it comes before. Nothing is needed of the clock: times that run back are differences of
nothing.

The ghost of a run is an `Uplink`: the true numbers that came, the jumps, and every request with
its true number. The counter of the code starts in the turn of the first packet, so `turn` is what
lies between its numbers and the true ones.
-/

namespace OxlensSfu.Media

def nackResendMs : Nat := 200
def nackGiveupMs : Nat := 1000
def nackMax : Nat := 128

/-- When a gap was first seen and last asked for. -/
structure Gap where
  seen : Nat
  asked : Option Nat
  deriving DecidableEq

/-- What is missing is kept in the order of the numbers. -/
structure NackUp where
  last : Option UInt16 := none
  missing : List (Int × Gap) := []
  base : Int := 0
  sent : Nat := 0

/-- `entry(s).or_insert(g)`. -/
def orInsertGap (s : Int) (g : Gap) : List (Int × Gap) → List (Int × Gap)
  | [] => [(s, g)]
  | x :: m =>
    if s < x.1 then (s, g) :: x :: m
    else if s = x.1 then x :: m
    else x :: orInsertGap s g m

/-- The gaps from `s` on, `n` of them while there is room. -/
def recordGaps (now : Nat) : (n : Nat) → (s : Int) → List (Int × Gap) → List (Int × Gap)
  | 0, _, m => m
  | n + 1, s, m =>
    if nackMax ≤ m.length then m
    else recordGaps now n (s + 1) (orInsertGap s { seen := now, asked := none } m)

namespace NackUp

variable (k : NackUp)

def onPacket (seq : UInt16) (now : Nat) : NackUp :=
  match k.last with
  | none => { k with last := some seq, base := seq.toNat }
  | some l =>
    let u := k.base + (seq - l).toInt16.toInt
    let diff := u - k.base
    if diff ≤ 0 then { k with missing := k.missing.filter (·.1 ≠ u) }
    else
      { k with
        missing :=
          if 1 < diff ∧ diff < 128 then
            recordGaps now (u - (k.base + 1)).toNat (k.base + 1) k.missing
          else k.missing
        last := some seq
        base := u }

/-- The gap was seen too long ago. -/
def stale (now : Nat) (g : Gap) : Bool := nackGiveupMs < now - g.seen

/-- The gap has not been asked for, or not lately. -/
def ready (now : Nat) (g : Gap) : Bool := g.asked.all (nackResendMs ≤ now - ·)

def kept (now : Nat) : List (Int × Gap) := k.missing.filter (!stale now ·.2)

/-- The numbers that are asked for now. -/
def asks (now : Nat) : List Int := ((k.kept now).filter (ready now ·.2)).map (·.1)

/-- What is asked for, whether a gap was given up, and the gaps left. -/
def due (now : Nat) : (List UInt16 × Bool) × NackUp :=
  let out := (k.asks now).map UInt16.ofInt
  ((out, k.missing.any (stale now ·.2)),
    { k with
      missing := (k.kept now).map fun x =>
        (x.1, if ready now x.2 then { x.2 with asked := some now } else x.2)
      sent := k.sent + out.length })

end NackUp

/-! ## Runs -/

inductive Moment where
  /-- A packet with its true number. -/
  | packet (n : Int) (now : Nat)
  | due (now : Nat)

/-- The highest number went from `lo` to `hi`. -/
structure Jump where
  lo : Int
  hi : Int
  now : Nat

structure Uplink where
  nack : NackUp := {}
  high : Option Int := none
  turn : Int := 0
  came : List Int := []
  jumps : List Jump := []
  asked : List (Int × Nat) := []

namespace Uplink

variable (s : Uplink)

/-- The true numbers that are asked for now. -/
def asks (now : Nat) : List Int := (s.nack.asks now).map (· + s.turn)

def step : Moment → Uplink
  | .packet n now =>
    { s with
      nack := s.nack.onPacket (.ofInt n) now
      high := some (s.high.elim n (max n))
      turn := if s.high.isNone then n - n % 2 ^ 16 else s.turn
      came := n :: s.came
      jumps := (s.high.filter (· < n)).toList.map (⟨·, n, now⟩) ++ s.jumps }
  | .due now =>
    { s with
      nack := (s.nack.due now).2
      asked := s.asked ++ (s.asks now).map (·, now) }

def run (es : List Moment) : Uplink := es.foldl step {}

end Uplink

/-- Every number is within 32767 of the highest one before it. -/
def Nearby : Option Int → List Moment → Prop
  | _, [] => True
  | high, .packet n _ :: es =>
    (∀ h ∈ high, -32767 ≤ n - h ∧ n - h ≤ 32767) ∧ Nearby (some (high.elim n (max n))) es
  | high, .due _ :: es => Nearby high es

/-! ## Numbers -/

theorem toBitVec_ofInt (n : Int) : (UInt16.ofInt n).toBitVec = BitVec.ofInt 16 n := by
  apply BitVec.eq_of_toNat_eq
  rw [BitVec.toNat_ofInt, UInt16.toNat_toBitVec, UInt16.ofInt, UInt16.toNat_ofNat']
  omega

theorem toInt_sub_ofInt {n h : Int} (hlow : -32767 ≤ n - h) (hhigh : n - h ≤ 32767) :
    (UInt16.ofInt n - UInt16.ofInt h).toInt16.toInt = n - h := by
  have hbits : (UInt16.ofInt n - UInt16.ofInt h).toInt16.toInt =
      ((UInt16.ofInt n).toBitVec - (UInt16.ofInt h).toBitVec).toInt := rfl
  rw [hbits, toBitVec_ofInt, toBitVec_ofInt, ofInt_sub_ofInt, BitVec.toInt_ofInt]
  exact Int.bmod_eq_of_le_mul_two (by omega) (by omega)

/-- The turns do not show in 16 bits. -/
theorem ofInt_add_turn {turn : Int} (h : 2 ^ 16 ∣ turn) (n : Int) :
    UInt16.ofInt (n + turn) = .ofInt n := by
  obtain ⟨c, rfl⟩ := h
  have hmod : (n + 2 ^ 16 * c) % 2 ^ 16 = n % 2 ^ 16 := by omega
  rw [UInt16.ofInt, UInt16.ofInt, hmod]

/-! ## Gaps -/

theorem orInsertGap_concat {s : Int} {m : List (Int × Gap)} (h : ∀ x ∈ m, x.1 < s) (g : Gap) :
    orInsertGap s g m = m ++ [(s, g)] := by
  induction m with
  | nil => rfl
  | cons x m ih =>
    have hx := h x List.mem_cons_self
    rw [orInsertGap, if_neg (by omega), if_neg (by omega),
      ih fun y hy => h y (List.mem_cons_of_mem _ hy)]
    rfl

/-- `c` gaps in a row, from `s` on. -/
def gapsFrom (now : Nat) (s : Int) (c : Nat) : List (Int × Gap) :=
  (List.range c).map fun (j : Nat) => (s + j, { seen := now, asked := none })

theorem gapsFrom_succ (now : Nat) (s : Int) (c : Nat) :
    gapsFrom now s (c + 1) = (s, { seen := now, asked := none }) :: gapsFrom now (s + 1) c := by
  rw [gapsFrom, gapsFrom, List.range_succ_eq_map, List.map_cons, List.map_map]
  congr 2
  · simp
  · funext j
    simp only [Function.comp_apply, Nat.succ_eq_add_one, Nat.cast_add, Nat.cast_one, add_assoc,
      add_comm (1 : Int)]

theorem mem_gapsFrom {now : Nat} {s : Int} {c : Nat} {x : Int × Gap} : x ∈ gapsFrom now s c ↔
    s ≤ x.1 ∧ x.1 < s + c ∧ x.2 = { seen := now, asked := none } := by
  rw [gapsFrom, List.mem_map]
  refine ⟨?_, fun ⟨hle, hlt, hx⟩ => ⟨(x.1 - s).toNat, ?_, ?_⟩⟩
  · rintro ⟨j, hj, rfl⟩
    rw [List.mem_range] at hj
    exact ⟨by dsimp only; omega, by dsimp only; omega, rfl⟩
  · rw [List.mem_range]
    omega
  · rw [← hx]
    exact Prod.ext (by dsimp only; omega) rfl

theorem sorted_gapsFrom (now : Nat) (s : Int) (c : Nat) :
    (gapsFrom now s c).Pairwise (·.1 < ·.1) := by
  rw [gapsFrom, List.pairwise_map]
  exact List.pairwise_lt_range.imp fun h => by omega

/-- Behind all gaps, new ones come while there is room. -/
theorem recordGaps_eq (now : Nat) : ∀ (n : Nat) {s : Int} {m : List (Int × Gap)},
    (∀ x ∈ m, x.1 < s) → recordGaps now n s m = m ++ gapsFrom now s (min n (nackMax - m.length))
  | 0, s, m, _ => by
    rw [recordGaps, Nat.zero_min]
    exact (List.append_nil m).symm
  | n + 1, s, m, h => by
    rw [recordGaps]
    split
    · next hfull =>
      rw [Nat.sub_eq_zero_of_le hfull, Nat.min_zero]
      exact (List.append_nil m).symm
    · next hroom =>
      have hlt : ∀ x ∈ m ++ [(s, { seen := now, asked := none })], x.1 < s + 1 := by
        intro x hx
        rcases List.mem_append.mp hx with hx | hx
        · have := h x hx
          omega
        · rw [List.mem_singleton.mp hx]
          exact Int.lt_succ s
      have hc : min (n + 1) (nackMax - m.length) = min n (nackMax - (m.length + 1)) + 1 := by omega
      rw [orInsertGap_concat h, recordGaps_eq now n hlt, hc, gapsFrom_succ, List.length_append,
        List.append_assoc]
      rfl

/-! ## What waits -/

/-- When packets have come up to `h`: every gap is below it and open, its time is that of the jump
over it, and it was last asked for when the requests say. -/
structure Waits (s : Uplink) (h : Int) : Prop where
  last : s.nack.last = some (.ofInt h)
  base : s.nack.base + s.turn = h
  turn : 2 ^ 16 ∣ s.turn
  highest : h ∈ s.came ∧ ∀ n ∈ s.came, n ≤ h
  sorted : s.nack.missing.Pairwise (·.1 < ·.1)
  lacking : ∀ x ∈ s.nack.missing, x.1 + s.turn < h ∧ x.1 + s.turn ∉ s.came
  seen : ∀ x ∈ s.nack.missing, ∃ j ∈ s.jumps, j.lo < x.1 + s.turn ∧ x.1 + s.turn < j.hi ∧
    x.2.seen = j.now
  latest : ∀ x ∈ s.nack.missing, ∀ r ∈ s.asked, r.1 = x.1 + s.turn →
    ∃ t, x.2.asked = some t ∧ r.2 ≤ t
  below : ∀ r ∈ s.asked, r.1 < h
  apart : s.asked.Pairwise fun q r => q.1 = r.1 → q.2 + nackResendMs ≤ r.2
  inTime : ∀ r ∈ s.asked, ∃ j ∈ s.jumps, j.lo < r.1 ∧ r.1 < j.hi ∧ r.2 ≤ j.now + nackGiveupMs

namespace Waits

variable {s : Uplink} {h n : Int} {now : Nat}

/-- The place of a packet in the counter, and how far it is ahead. -/
theorem place (hs : Waits s h) (n : Int) :
    s.nack.base + (n - h) = n - s.turn ∧ n - s.turn - s.nack.base = n - h := by
  have hbase := hs.base
  omega

theorem onPacket_late (hs : Waits s h) (hlow : -32767 ≤ n - h) (hlate : n ≤ h) (now : Nat) :
    s.nack.onPacket (.ofInt n) now =
      { s.nack with missing := s.nack.missing.filter (·.1 + s.turn ≠ n) } := by
  obtain ⟨hu, hdiff⟩ := hs.place n
  have hsame : s.nack.missing.filter (·.1 ≠ n - s.turn) =
      s.nack.missing.filter (·.1 + s.turn ≠ n) :=
    List.filter_congr fun x _ => by
      rw [decide_eq_decide]
      omega
  rw [NackUp.onPacket, hs.last]
  dsimp only
  rw [toInt_sub_ofInt hlow (by omega), hu, hdiff, if_pos (by omega), hsame, hs.last]

theorem onPacket_ahead (hs : Waits s h) (hhigh : n - h ≤ 32767) (hahead : h < n) (now : Nat) :
    s.nack.onPacket (.ofInt n) now =
      { s.nack with
        missing :=
          s.nack.missing ++ gapsFrom now (s.nack.base + 1)
            (if n < h + 128 then min (n - h - 1).toNat (nackMax - s.nack.missing.length) else 0)
        last := some (.ofInt n)
        base := n - s.turn } := by
  obtain ⟨hu, hdiff⟩ := hs.place n
  have hlt : ∀ x ∈ s.nack.missing, x.1 < s.nack.base + 1 := fun x hx => by
    have := (hs.lacking x hx).1
    have hbase := hs.base
    omega
  have hcount : (n - s.turn - (s.nack.base + 1)).toNat = (n - h - 1).toNat := by omega
  have hmissing : (if 1 < n - h ∧ n - h < 128 then
        recordGaps now (n - s.turn - (s.nack.base + 1)).toNat (s.nack.base + 1) s.nack.missing
      else s.nack.missing) =
      s.nack.missing ++ gapsFrom now (s.nack.base + 1)
        (if n < h + 128 then min (n - h - 1).toNat (nackMax - s.nack.missing.length) else 0) := by
    rw [hcount, recordGaps_eq now _ hlt]
    by_cases hfar : n < h + 128
    · rw [if_pos hfar]
      split
      · rfl
      · have hzero : (n - h - 1).toNat = 0 := by omega
        rw [hzero, Nat.zero_min]
        exact (List.append_nil _).symm
    · rw [if_neg hfar, if_neg (by omega)]
      exact (List.append_nil _).symm
  rw [NackUp.onPacket, hs.last]
  dsimp only
  rw [toInt_sub_ofInt (by omega) hhigh, hu, hdiff, if_neg (by omega), hmissing]

theorem late (hs : Waits s h) (hhigh : s.high = some h) (hlow : -32767 ≤ n - h) (hlate : n ≤ h)
    (now : Nat) : Waits (s.step (.packet n now)) h := by
  have hnack := hs.onPacket_late hlow hlate now
  rw [Uplink.step, hnack, hhigh, Option.filter_some_neg (by simpa using hlate)]
  have hkept : ∀ x ∈ s.nack.missing.filter (·.1 + s.turn ≠ n), x ∈ s.nack.missing :=
    fun x hx => (List.mem_filter.mp hx).1
  exact { hs with
    highest := ⟨List.mem_cons_of_mem _ hs.highest.1, List.forall_mem_cons.mpr ⟨hlate, hs.highest.2⟩⟩
    sorted := hs.sorted.filter _
    lacking := by
      intro x hx
      obtain ⟨hmem, hne⟩ := List.mem_filter.mp hx
      obtain ⟨hlt, hnew⟩ := hs.lacking x hmem
      exact ⟨hlt, List.not_mem_cons_of_ne_of_not_mem (of_decide_eq_true hne) hnew⟩
    seen := fun x hx => hs.seen x (hkept x hx)
    latest := fun x hx => hs.latest x (hkept x hx) }

/-- A jump makes gaps of numbers that have neither come nor been asked for. -/
theorem ahead (hs : Waits s h) (hhigh : s.high = some h) (hlow : n - h ≤ 32767) (hahead : h < n)
    (now : Nat) : Waits (s.step (.packet n now)) n := by
  have hnack := hs.onPacket_ahead hlow hahead now
  have hbase := hs.base
  generalize hc : (if n < h + 128 then min (n - h - 1).toNat (nackMax - s.nack.missing.length)
    else 0) = c at hnack
  have hfits : c = 0 ∨ (c : Int) ≤ n - h - 1 := by
    split at hc <;> omega
  -- the new gaps lie between the two highest numbers
  have hnew : ∀ x ∈ gapsFrom now (s.nack.base + 1) c,
      h < x.1 + s.turn ∧ x.1 + s.turn < n ∧ x.2 = { seen := now, asked := none } := fun x hx => by
    obtain ⟨hle, hlt, hgap⟩ := mem_gapsFrom.mp hx
    exact ⟨by omega, by omega, hgap⟩
  have hold : ∀ j ∈ s.jumps, j ∈ (⟨h, n, now⟩ : Jump) :: s.jumps := fun j hj =>
    List.mem_cons_of_mem _ hj
  rw [Uplink.step, hnack, hhigh, Option.filter_some_pos (by simpa using hahead)]
  exact {
    last := rfl
    base := Int.sub_add_cancel n s.turn
    turn := hs.turn
    highest := ⟨List.mem_cons_self, List.forall_mem_cons.mpr
      ⟨le_refl n, fun m hm => (hs.highest.2 m hm).trans hahead.le⟩⟩
    sorted := by
      refine List.pairwise_append.mpr ⟨hs.sorted, sorted_gapsFrom _ _ _, fun x hx y hy => ?_⟩
      have hxlt := (hs.lacking x hx).1
      have hylt := (hnew y hy).1
      omega
    lacking := by
      intro x hx
      rcases List.mem_append.mp hx with hx | hx
      · obtain ⟨hlt, hnot⟩ := hs.lacking x hx
        have hlt' := hlt.trans hahead
        exact ⟨hlt', List.not_mem_cons_of_ne_of_not_mem hlt'.ne hnot⟩
      · obtain ⟨hgt, hlt, -⟩ := hnew x hx
        refine ⟨hlt, List.not_mem_cons_of_ne_of_not_mem hlt.ne fun hmem => ?_⟩
        exact absurd (hs.highest.2 _ hmem) hgt.not_ge
    seen := by
      intro x hx
      rcases List.mem_append.mp hx with hx | hx
      · obtain ⟨j, hj, hbetween⟩ := hs.seen x hx
        exact ⟨j, hold j hj, hbetween⟩
      · obtain ⟨hgt, hlt, hgap⟩ := hnew x hx
        exact ⟨⟨h, n, now⟩, List.mem_cons_self, hgt, hlt, by rw [hgap]⟩
    latest := by
      intro x hx r hr heq
      rcases List.mem_append.mp hx with hx | hx
      · exact hs.latest x hx r hr heq
      · have hgt := (hnew x hx).1
        have hlt := hs.below r hr
        change r.1 = x.1 + s.turn at heq
        omega
    below := fun r hr => (hs.below r hr).trans hahead
    apart := hs.apart
    inTime := by
      intro r hr
      obtain ⟨j, hj, hbetween⟩ := hs.inTime r hr
      exact ⟨j, hold j hj, hbetween⟩ }

/-! ### A sweep -/

theorem mem_asks {i : Int} : i ∈ s.asks now ↔ ∃ x ∈ s.nack.missing,
    NackUp.stale now x.2 = false ∧ NackUp.ready now x.2 = true ∧ x.1 + s.turn = i := by
  simp only [Uplink.asks, NackUp.asks, NackUp.kept, List.mem_map, List.mem_filter,
    Bool.not_eq_true']
  refine ⟨?_, fun ⟨x, hx, hstale, hready, heq⟩ => ⟨_, ⟨x, ⟨⟨hx, hstale⟩, hready⟩, rfl⟩, heq⟩⟩
  rintro ⟨_, ⟨x, ⟨⟨hx, hstale⟩, hready⟩, rfl⟩, heq⟩
  exact ⟨x, hx, hstale, hready, heq⟩

/-- Each number is asked for once in a sweep. -/
theorem asks_sorted (hs : Waits s h) (now : Nat) : (s.asks now).Pairwise (· < ·) := by
  rw [Uplink.asks, NackUp.asks, NackUp.kept, List.pairwise_map, List.pairwise_map]
  exact ((hs.sorted.filter _).filter _).imp fun h => by omega

/-- What was asked for before and is asked for again was asked for long ago. -/
theorem asks_apart (hs : Waits s h) {i : Int} (hi : i ∈ s.asks now) {r : Int × Nat}
    (hr : r ∈ s.asked) (heq : r.1 = i) : r.2 + nackResendMs ≤ now := by
  obtain ⟨x, hx, -, hready, rfl⟩ := mem_asks.mp hi
  obtain ⟨t, ht, hle⟩ := hs.latest x hx r hr heq
  rw [NackUp.ready, ht] at hready
  have := of_decide_eq_true hready
  simp only [nackResendMs] at this ⊢
  omega

theorem asks_lacking (hs : Waits s h) {i : Int} (hi : i ∈ s.asks now) : i < h ∧ i ∉ s.came := by
  obtain ⟨x, hx, -, -, rfl⟩ := mem_asks.mp hi
  exact hs.lacking x hx

theorem asks_inTime (hs : Waits s h) {i : Int} (hi : i ∈ s.asks now) :
    ∃ j ∈ s.jumps, j.lo < i ∧ i < j.hi ∧ now ≤ j.now + nackGiveupMs := by
  obtain ⟨x, hx, hstale, -, rfl⟩ := mem_asks.mp hi
  obtain ⟨j, hj, hlo, hhi, hseen⟩ := hs.seen x hx
  have := of_decide_eq_false hstale
  exact ⟨j, hj, hlo, hhi, by omega⟩

theorem eq_of_key (hs : Waits s h) {x y : Int × Gap} (hx : x ∈ s.nack.missing)
    (hy : y ∈ s.nack.missing) (heq : x.1 = y.1) : x = y := by
  have hnodup : (s.nack.missing.map Prod.fst).Nodup :=
    List.pairwise_map.mpr (hs.sorted.imp fun h => h.ne)
  exact List.inj_on_of_nodup_map hnodup hx hy heq

/-- A gap after a sweep was asked for in it, or is as it was and was not. -/
theorem mem_due (hs : Waits s h) {x : Int × Gap} (hx : x ∈ (s.nack.due now).2.missing) :
    (∃ y ∈ s.nack.missing, y.1 = x.1 ∧ y.2.seen = x.2.seen) ∧
      (x.2.asked = some now ∧ x.1 + s.turn ∈ s.asks now ∨
        x ∈ s.nack.missing ∧ x.1 + s.turn ∉ s.asks now) := by
  obtain ⟨y, hy, rfl⟩ := List.mem_map.mp hx
  obtain ⟨hmem, hstale⟩ := List.mem_filter.mp hy
  rw [Bool.not_eq_true'] at hstale
  by_cases hready : NackUp.ready now y.2 = true
  · rw [if_pos hready]
    exact ⟨⟨y, hmem, rfl, rfl⟩, .inl ⟨rfl, mem_asks.mpr ⟨y, hmem, hstale, hready, rfl⟩⟩⟩
  · rw [if_neg hready]
    refine ⟨⟨y, hmem, rfl, rfl⟩, .inr ⟨hmem, fun hask => ?_⟩⟩
    obtain ⟨z, hz, -, hzready, heq⟩ := mem_asks.mp hask
    rw [hs.eq_of_key hz hmem (add_right_cancel heq)] at hzready
    exact hready hzready

theorem due (hs : Waits s h) (now : Nat) : Waits (s.step (.due now)) h := by
  have hlog : ∀ r ∈ s.asked ++ (s.asks now).map (·, now),
      r ∈ s.asked ∨ r.1 ∈ s.asks now ∧ r.2 = now := by
    intro r hr
    rcases List.mem_append.mp hr with hr | hr
    · exact .inl hr
    · obtain ⟨i, hi, rfl⟩ := List.mem_map.mp hr
      exact .inr ⟨hi, rfl⟩
  exact { hs with
    sorted := List.pairwise_map.mpr (hs.sorted.filter _)
    lacking := by
      intro x hx
      obtain ⟨⟨y, hy, hkey, -⟩, -⟩ := hs.mem_due hx
      rw [← hkey]
      exact hs.lacking y hy
    seen := by
      intro x hx
      obtain ⟨⟨y, hy, hkey, hseen⟩, -⟩ := hs.mem_due hx
      rw [← hkey, ← hseen]
      exact hs.seen y hy
    latest := by
      intro x hx r hr heq
      obtain ⟨-, ⟨hasked, hask⟩ | ⟨hmem, hnot⟩⟩ := hs.mem_due hx
      · refine ⟨now, hasked, ?_⟩
        rcases hlog r hr with hr | ⟨-, hnow⟩
        · exact (Nat.le_add_right _ _).trans (hs.asks_apart hask hr heq)
        · exact hnow.le
      · rcases hlog r hr with hr | ⟨hr, -⟩
        · exact hs.latest x hmem r hr heq
        · exact absurd (heq ▸ hr) hnot
    below := by
      intro r hr
      rcases hlog r hr with hr | ⟨hr, -⟩
      · exact hs.below r hr
      · exact (hs.asks_lacking hr).1
    apart := by
      refine List.pairwise_append.mpr ⟨hs.apart, ?_, fun q hq r hr heq => ?_⟩
      · exact List.pairwise_map.mpr ((hs.asks_sorted now).imp fun h he => absurd he h.ne)
      · obtain ⟨i, hi, rfl⟩ := List.mem_map.mp hr
        exact hs.asks_apart hi hq heq
    inTime := by
      intro r hr
      rcases hlog r hr with hr | ⟨hr, hnow⟩
      · exact hs.inTime r hr
      · rw [hnow]
        exact hs.asks_inTime hr }

/-- **What a short jump skips while there is room is asked for within the time.** -/
theorem asked_after_jump (hs : Waits s h) {i : Int} (hlow : h < i) (hi : i < n)
    (hshort : n < h + 128)
    (hroom : (s.nack.missing.length : Int) + (i - h - 1) < nackMax) (now : Nat) :
    (i - s.turn, { seen := now, asked := none }) ∈
      (s.nack.onPacket (.ofInt n) now).missing := by
  have hbase := hs.base
  rw [hs.onPacket_ahead (by omega) (by omega) now, if_pos hshort]
  refine List.mem_append_right _ (mem_gapsFrom.mpr ⟨by dsimp only; omega, ?_, rfl⟩)
  simp only [nackMax] at hroom ⊢
  omega

end Waits

/-! ## Runs of packets -/

/-- Before the first packet there is nothing; from then on, what waits. -/
def Tracks (s : Uplink) : Prop :=
  match s.high with
  | none => s = {}
  | some h => Waits s h

theorem waits_first (n : Int) (now : Nat) : Waits (({} : Uplink).step (.packet n now)) n := by
  have hn : ((UInt16.ofInt n).toNat : Int) = n % 2 ^ 16 := by
    rw [UInt16.ofInt, UInt16.toNat_ofNat']
    omega
  exact {
    last := rfl
    base := by
      show ((UInt16.ofInt n).toNat : Int) + (n - n % 2 ^ 16) = n
      omega
    turn := Int.dvd_self_sub_emod
    highest := ⟨List.mem_singleton_self n, fun m hm => (List.mem_singleton.mp hm).le⟩
    sorted := List.Pairwise.nil
    lacking := fun x hx => nomatch hx
    seen := fun x hx => nomatch hx
    latest := fun x hx => nomatch hx
    below := fun r hr => nomatch hr
    apart := List.Pairwise.nil
    inTime := fun r hr => nomatch hr }

theorem Tracks.packet {s : Uplink} {n : Int} (hs : Tracks s)
    (hnear : ∀ h ∈ s.high, -32767 ≤ n - h ∧ n - h ≤ 32767) (now : Nat) :
    Tracks (s.step (.packet n now)) := by
  unfold Tracks at hs
  split at hs
  · rw [hs]
    exact waits_first n now
  · next h hhigh =>
    obtain ⟨hlow, hhi⟩ := hnear h hhigh
    have hmax : (s.step (.packet n now)).high = some (max n h) := by
      rw [Uplink.step, hhigh]
      rfl
    rw [Tracks, hmax]
    by_cases hlate : n ≤ h
    · rw [max_eq_right hlate]
      exact hs.late hhigh hlow hlate now
    · rw [max_eq_left (not_le.mp hlate).le]
      exact hs.ahead hhigh hhi (not_le.mp hlate) now

theorem Tracks.due {s : Uplink} (hs : Tracks s) (now : Nat) : Tracks (s.step (.due now)) := by
  unfold Tracks at hs
  split at hs
  · rw [hs]
    rfl
  · next h hhigh =>
    have hsame : (s.step (.due now)).high = some h := hhigh
    rw [Tracks, hsame]
    exact hs.due now

theorem Tracks.foldl {s : Uplink} (hs : Tracks s) {es : List Moment} (h : Nearby s.high es) :
    Tracks (es.foldl Uplink.step s) := by
  induction es generalizing s with
  | nil => exact hs
  | cons e es ih =>
    cases e with
    | packet n now => exact ih (hs.packet h.1 now) h.2
    | due now => exact ih (hs.due now) h

/-- A gap waits until its packet comes. -/
theorem Waits.stays {s : Uplink} {h n : Int} (hs : Waits s h)
    (hnear : -32767 ≤ n - h ∧ n - h ≤ 32767) {x : Int × Gap} (hx : x ∈ s.nack.missing)
    (hne : x.1 + s.turn ≠ n) (now : Nat) : x ∈ (s.nack.onPacket (.ofInt n) now).missing := by
  by_cases hlate : n ≤ h
  · rw [hs.onPacket_late hnear.1 hlate]
    exact List.mem_filter.mpr ⟨hx, decide_eq_true hne⟩
  · rw [hs.onPacket_ahead hnear.2 (not_le.mp hlate)]
    exact List.mem_append_left _ hx

/-- The packets of a list of numbers and times. -/
def packets (l : List (Int × Nat)) : List Moment := l.map fun x => .packet x.1 x.2

theorem Tracks.stays {s : Uplink} (hs : Tracks s) {h : Int} (hhigh : s.high = some h)
    {l : List (Int × Nat)} (hl : Nearby s.high (packets l)) {x : Int × Gap}
    (hx : x ∈ s.nack.missing) (hne : x.1 + s.turn ∉ l.map (·.1)) :
    x ∈ ((packets l).foldl Uplink.step s).nack.missing ∧
      ((packets l).foldl Uplink.step s).turn = s.turn := by
  induction l generalizing s h with
  | nil => exact ⟨hx, rfl⟩
  | cons p l ih =>
    have hw := hs
    rw [Tracks, hhigh] at hw
    have hturn : (s.step (.packet p.1 p.2)).turn = s.turn := by
      rw [Uplink.step, hhigh]
      rfl
    rw [List.map_cons, List.mem_cons, not_or] at hne
    obtain ⟨hmem, hsame⟩ := ih (hs.packet hl.1 p.2) rfl hl.2
      (hw.stays (hl.1 h hhigh) hx hne.1 p.2) (hturn.symm ▸ hne.2)
    exact ⟨hmem, hsame.trans hturn⟩

/-- The packet `n` skips `i` while there is room for it. -/
def Skips (s : Uplink) (i n : Int) : Prop :=
  ∃ h, s.high = some h ∧ h < i ∧ i < n ∧ n < h + 128 ∧
    (s.nack.missing.length : Int) + (i - h - 1) < nackMax

theorem Tracks.asks {s : Uplink} (hs : Tracks s) (now : Nat) :
    (s.nack.due now).1.1 = (s.asks now).map .ofInt ∧
      ∀ i ∈ s.asks now, i ∉ s.came ∧ ∃ n ∈ s.came, i < n := by
  unfold Tracks at hs
  split at hs
  · rw [hs]
    exact ⟨rfl, fun i hi => nomatch hi⟩
  · next h hhigh =>
    refine ⟨?_, fun i hi => ?_⟩
    · rw [Uplink.asks, List.map_map]
      exact List.map_congr_left fun k _ => (ofInt_add_turn hs.turn k).symm
    · obtain ⟨hlt, hnew⟩ := hs.asks_lacking hi
      exact ⟨hnew, h, hs.highest.1, hlt⟩

theorem Tracks.asked_after_jump {s : Uplink} (hs : Tracks s) {i n : Int} (hskip : Skips s i n)
    (now : Nat) {l : List (Int × Nat)} (hl : Nearby (some n) (packets l))
    (hi : i ∉ l.map (·.1)) {t : Nat} (ht : t ≤ now + nackGiveupMs) :
    i ∈ ((packets l).foldl Uplink.step (s.step (.packet n now))).asks t := by
  obtain ⟨h, hhigh, hlow, hlt, hshort, hroom⟩ := hskip
  have hw := hs
  rw [Tracks, hhigh] at hw
  have hgap := hw.asked_after_jump hlow hlt hshort hroom now
  have hnext : (s.step (.packet n now)).high = some n := by
    rw [Uplink.step, hhigh]
    exact congrArg some (max_eq_left (hlow.trans hlt).le)
  have hturn : (s.step (.packet n now)).turn = s.turn := by
    rw [Uplink.step, hhigh]
    rfl
  have hback : i - s.turn + s.turn = i := Int.sub_add_cancel i s.turn
  have hnear : ∀ h' ∈ s.high, -32767 ≤ n - h' ∧ n - h' ≤ 32767 := fun h' hh' => by
    rw [hhigh, Option.mem_some_iff] at hh'
    omega
  obtain ⟨hmem, hsame⟩ := (hs.packet hnear now).stays hnext (hnext ▸ hl) hgap
    (by rw [hturn, hback]; exact hi)
  refine Waits.mem_asks.mpr ⟨_, hmem, decide_eq_false ?_, rfl, ?_⟩
  · dsimp only
    omega
  · rw [hsame, hturn]
    exact hback

/-- **Requests are sound, apart, in time, and made in time.** -/
theorem asked_soundly (es : List Moment) (h : Nearby none es) :
    let s := Uplink.run es
    (∀ now, (s.nack.due now).1.1 = (s.asks now).map .ofInt ∧
      ∀ i ∈ s.asks now, i ∉ s.came ∧ ∃ n ∈ s.came, i < n) ∧
    s.asked.Pairwise (fun q r => q.1 = r.1 → q.2 + 200 ≤ r.2) ∧
    (∀ r ∈ s.asked, ∃ j ∈ s.jumps, j.lo < r.1 ∧ r.1 < j.hi ∧ r.2 ≤ j.now + 1000) ∧
    ∀ i n now l t, Skips s i n → Nearby (some n) (packets l) → i ∉ l.map (·.1) → t ≤ now + 1000 →
      i ∈ (Uplink.run (es ++ .packet n now :: packets l)).asks t := by
  intro s
  have hs : Tracks s := Tracks.foldl (show Tracks ({} : Uplink) from rfl) h
  refine ⟨hs.asks, ?_, ?_, fun i n now l t hskip hl hi ht => ?_⟩
  · unfold Tracks at hs
    split at hs
    · rw [hs]
      exact List.Pairwise.nil
    · exact hs.apart
  · unfold Tracks at hs
    split at hs
    · rw [hs]
      exact fun r hr => nomatch hr
    · exact hs.inTime
  · rw [Uplink.run, List.foldl_append]
    exact hs.asked_after_jump hskip now hl hi ht

/-- Two packets are skipped across the wrap, one of them comes, and the other is asked for. -/
theorem asked_soundly_wrap :
    65536 ∈ (Uplink.run ([.packet 65534 0] ++ .packet 65537 10 :: packets [(65535, 20)])).asks 900 :=
  (asked_soundly [.packet 65534 0] ⟨by rintro h ⟨⟩, trivial⟩).2.2.2 65536 65537 10 [(65535, 20)] 900
    ⟨65534, rfl, by decide, by decide, by decide, by decide⟩
    ⟨by rintro h ⟨⟩; decide, trivial⟩ (by decide) (by decide)

end OxlensSfu.Media
