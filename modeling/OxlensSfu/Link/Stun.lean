import Mathlib.Tactic
import OxlensSfu.Forward.Ingress

/-!
# STUN checks

A STUN request (`crates/oxsfud/src/link/stun.rs`) names a user in an attribute and carries a code
over the bytes before it, `MESSAGE-INTEGRITY`. `check` reads the attributes, looks the password of
the named user up and compares the code. The code is an arbitrary function of a password and bytes.

Bytes are read from positions, and a position outside the datagram is a fault. So is a loop that
runs out of rounds: neither comes (`check_total`).

**What the code covers.** The loop goes on behind the attribute with the code until it meets an
attribute of another kind, and only then stops. That one is taken still: a `USERNAME` there takes
the place of the one under the code, while a `USE-CANDIDATE` there does not count. A datagram is
`Plain` when there is no such name, or the one under the code again. `check_covers_iff` says that
just then its result is that of its bytes up to the code, and that a plain datagram and another one
that agrees with it name the same users exactly when the other one is plain. `tail_names_user` is a
case in which they do not.
-/

namespace OxlensSfu.Stun

open Ingress (fromUtf8Lossy)
open Rtcp (be16 of16)

/-! ## Reading -/

/-- What keeps the code from coming to a result. -/
inductive Fault where
  | outside
  | rounds
  deriving DecidableEq, Repr

def byte (b : List UInt8) (i : Nat) : Except Fault UInt8 :=
  match b[i]? with
  | some x => .ok x
  | none => .error .outside

def u16 (b : List UInt8) (i : Nat) : Except Fault Nat := do
  let x ← byte b i
  let y ← byte b (i + 1)
  return of16 x y

/-- `&b[i..j]`. -/
def slice (b : List UInt8) (i j : Nat) : Except Fault (List UInt8) :=
  if i ≤ j ∧ j ≤ b.length then .ok ((b.take j).drop i) else .error .outside

def magic : Nat := 0x2112a442
def bindingRequest : Nat := 0x0001
def attrUsername : Nat := 0x0006
def attrMessageIntegrity : Nat := 0x0008
def attrUseCandidate : Nat := 0x0025

structure Binding where
  txid : List UInt8
  localUfrag : String
  remoteUfrag : String
  useCandidate : Bool
  miOffset : Nat
  mi : List UInt8
  deriving DecidableEq, Repr

inductive StunError where
  | notStun
  | notBinding
  | malformed
  | noUsername
  | noIntegrity
  | unknownUfrag
  | badIntegrity
  deriving DecidableEq, Repr

def isStun (b : List UInt8) : Except Fault Bool := do
  if b.length < 20 then return false
  let first ← byte b 0
  if ¬ first < 4 then return false
  let hi ← u16 b 4
  let lo ← u16 b 6
  return hi * 2 ^ 16 + lo = magic

/-- What the loop over the attributes has found. -/
structure Seen where
  username : Option String := none
  mi : Option (Nat × List UInt8) := none
  useCandidate : Bool := false
  deriving DecidableEq, Repr

structure Attr where
  off : Nat
  ty : Nat
  val : List UInt8
  deriving DecidableEq, Repr

namespace Seen

/-- The `match` on the type of an attribute. -/
def take (s : Seen) (a : Attr) : Seen :=
  if a.ty = attrUsername then { s with username := some (fromUtf8Lossy a.val) }
  else if a.ty = attrMessageIntegrity ∧ a.val.length = 20 then { s with mi := some (a.off, a.val) }
  else if a.ty = attrUseCandidate ∧ s.mi = none then { s with useCandidate := true }
  else s

/-- The loop ends with this attribute. -/
def stops (s : Seen) (a : Attr) : Bool := s.mi.isSome ∧ a.ty ≠ attrMessageIntegrity

end Seen

/-- The attribute at `i`, unless its value would not fit into the datagram. -/
def attrAt (b : List UInt8) (i : Nat) : Except Fault (Option Attr) := do
  let ty ← u16 b i
  let al ← u16 b (i + 2)
  if b.length < i + 4 + al then return none
  let val ← slice b (i + 4) (i + 4 + al)
  return some ⟨i, ty, val⟩

/-- Values are filled up to a multiple of four bytes. -/
def Attr.next (a : Attr) : Nat := a.off + 4 + (a.val.length + 3) / 4 * 4

/-- The loop of `parse` over the attributes before `stop`. -/
def readAttrs (b : List UInt8) (stop : Nat) :
    Nat → Nat → Seen → Except Fault (Except StunError Seen)
  | 0, _, _ => .error .rounds
  | n + 1, i, s =>
    if stop < i + 4 then .ok (.ok s)
    else do
      match ← attrAt b i with
      | none => return .error .malformed
      | some a =>
        let s := s.take a
        if s.stops a then return .ok s else readAttrs b stop n a.next s

/-- `split_once(':')`. -/
def splitOnce (u : String) : Option (String × String) :=
  if ':' ∈ u.toList then
    some (String.ofList (u.toList.takeWhile (· ≠ ':')),
      String.ofList (u.toList.dropWhile (· ≠ ':')).tail)
  else none

/-- The end of `parse`. -/
def finish (txid : List UInt8) (s : Seen) : Except StunError Binding :=
  match s.username.bind splitOnce with
  | none => .error .noUsername
  | some (localUfrag, remoteUfrag) =>
    match s.mi with
    | none => .error .noIntegrity
    | some (miOffset, mi) =>
      .ok { txid, localUfrag, remoteUfrag, useCandidate := s.useCandidate, miOffset, mi }

def parse (b : List UInt8) : Except Fault (Except StunError Binding) := do
  if !(← isStun b) then return .error .notStun
  if (← u16 b 0) ≠ bindingRequest then return .error .notBinding
  let len ← u16 b 2
  if b.length < 20 + len then return .error .malformed
  let txid ← slice b 8 20
  match ← readAttrs b (20 + len) (len / 4 + 1) 20 {} with
  | .error e => return .error e
  | .ok s => return finish txid s

/-- The comparison takes the same time wherever the two differ. -/
def same (x y : List UInt8) : Bool :=
  ((x.zip y).foldl (fun acc p => acc ||| (p.1 ^^^ p.2)) 0) == 0

section Check

variable (hmac : List UInt8 → List UInt8 → List UInt8)

def verify (raw : List UInt8) (b : Binding) (pwd : String) : Except Fault Bool := do
  let head ← slice raw 0 b.miOffset
  if head.length < 4 ∨ b.miOffset < 20 then .error .outside
  else
    let head := head.take 2 ++ be16 (b.miOffset - 20 + 24) ++ head.drop 4
    return same (hmac pwd.toUTF8.toList head) b.mi

def check (raw : List UInt8) (pwdOf : String → Option String) :
    Except Fault (Except StunError Binding) := do
  match ← parse raw with
  | .error e => return .error e
  | .ok b =>
    match pwdOf b.localUfrag with
    | none => return .error .unknownUfrag
    | some pwd => if ← verify hmac raw b pwd then return .ok b else return .error .badIntegrity

end Check

/-! ## Nothing outside is read -/

@[simp] theorem ok_bind {α β : Type} (x : α) (f : α → Except Fault β) :
    (Except.ok x >>= f) = f x := rfl

@[simp] theorem ok_map {α β : Type} (x : α) (f : α → β) :
    f <$> (Except.ok x : Except Fault α) = .ok (f x) := rfl

theorem byte_ok {b : List UInt8} {i : Nat} (h : i < b.length) : byte b i = .ok b[i] := by
  rw [byte, List.getElem?_eq_getElem h]

theorem u16_ok {b : List UInt8} {i : Nat} (h : i + 1 < b.length) :
    ∃ x, u16 b i = .ok x ∧ x < 2 ^ 16 := by
  have hi : i < b.length := Nat.lt_of_succ_lt h
  refine ⟨of16 b[i] b[i + 1], ?_, ?_⟩
  · rw [u16, byte_ok hi, byte_ok h]
    rfl
  · have hx := b[i].toNat_lt
    have hy := b[i + 1].toNat_lt
    rw [of16]
    omega

theorem slice_ok {b : List UInt8} {i j : Nat} (hij : i ≤ j) (hj : j ≤ b.length) :
    slice b i j = .ok ((b.take j).drop i) := if_pos ⟨hij, hj⟩

theorem length_slice {b : List UInt8} {i j : Nat} (hij : i ≤ j) (hj : j ≤ b.length) :
    ((b.take j).drop i).length = j - i := by
  rw [List.length_drop, List.length_take]
  omega

/-- What is at `i` is read from the bytes up to its end. -/
theorem attrAt_ok {b : List UInt8} {i : Nat} (h : i + 4 ≤ b.length) :
    ∃ r, attrAt b i = .ok r ∧ ∀ a, r = some a →
      a.off = i ∧ i + 4 + a.val.length ≤ b.length := by
  obtain ⟨ty, hty, -⟩ := u16_ok (b := b) (i := i) (by omega)
  obtain ⟨al, hal, -⟩ := u16_ok (b := b) (i := i + 2) (by omega)
  by_cases hlong : b.length < i + 4 + al
  · refine ⟨none, ?_, by simp⟩
    simp [attrAt, hty, hal, hlong]
  · have hfits := Nat.le_of_not_lt hlong
    refine ⟨some ⟨i, ty, (b.take (i + 4 + al)).drop (i + 4)⟩, ?_, ?_⟩
    · simp [attrAt, hty, hal, hlong, slice_ok (Nat.le_add_right (i + 4) al) hfits]
    · rintro a ha
      obtain rfl := Option.some.inj ha
      have hlen := length_slice (Nat.le_add_right (i + 4) al) hfits
      exact ⟨rfl, by rw [hlen]; omega⟩

theorem Attr.lt_next (a : Attr) : a.off + 4 ≤ a.next := Nat.le_add_right _ _

theorem readAttrs_ok {b : List UInt8} {stop : Nat} (hstop : stop ≤ b.length) {n : Nat} :
    ∀ {i : Nat} (s : Seen), 0 < n → stop < i + 4 * n → ∃ r, readAttrs b stop n i s = .ok r := by
  induction n with
  | zero => exact fun _ h => absurd h (lt_irrefl 0)
  | succ n ih =>
    intro i s _ h
    rw [readAttrs]
    split_ifs with hend
    · exact ⟨_, rfl⟩
    · obtain ⟨r, hr, ha⟩ := attrAt_ok (b := b) (i := i) (by omega)
      rw [hr, ok_bind]
      cases r with
      | none => exact ⟨_, rfl⟩
      | some a =>
        obtain ⟨rfl, -⟩ := ha a rfl
        dsimp only
        split_ifs
        · exact ⟨_, rfl⟩
        · have hnext := a.lt_next
          exact ih _ (by omega) (by omega)

theorem isStun_ok (b : List UInt8) : ∃ r, isStun b = .ok r ∧ (r = true → 20 ≤ b.length) := by
  rw [isStun]
  split_ifs with hshort
  · exact ⟨false, rfl, by simp⟩
  · obtain ⟨hi, hhi, -⟩ := u16_ok (b := b) (i := 4) (by omega)
    obtain ⟨lo, hlo, -⟩ := u16_ok (b := b) (i := 6) (by omega)
    rw [byte_ok (show 0 < b.length by omega), hhi, hlo]
    simp only [ok_bind]
    split_ifs
    · exact ⟨_, rfl, fun _ => Nat.le_of_not_lt hshort⟩
    · exact ⟨_, rfl, fun _ => Nat.le_of_not_lt hshort⟩

theorem parse_ok (b : List UInt8) : ∃ r, parse b = .ok r := by
  obtain ⟨stun, hstun, hlong⟩ := isStun_ok b
  rw [parse, hstun, ok_bind]
  cases stun with
  | false => exact ⟨_, rfl⟩
  | true =>
    have hlong := hlong rfl
    obtain ⟨ty, hty, -⟩ := u16_ok (b := b) (i := 0) (by omega)
    obtain ⟨len, hlen, -⟩ := u16_ok (b := b) (i := 2) (by omega)
    simp only [Bool.not_true, Bool.false_eq_true, if_false, hty, hlen, ok_bind]
    split_ifs with h₁ h₂
    · exact ⟨_, rfl⟩
    · exact ⟨_, rfl⟩
    · rw [slice_ok (by decide) hlong, ok_bind]
      obtain ⟨r, hr⟩ := readAttrs_ok (Nat.le_of_not_lt h₂) (n := len / 4 + 1) (i := 20) {}
        (Nat.succ_pos _) (by omega)
      rw [hr, ok_bind]
      cases r with
      | error e => exact ⟨_, rfl⟩
      | ok s => exact ⟨_, rfl⟩

/-! ## The attributes of a datagram -/

/-- The attributes from `i` on, each where the one before it leads. -/
def attrsFrom (b : List UInt8) (stop : Nat) : Nat → Nat → List Attr
  | 0, _ => []
  | n + 1, i =>
    if stop < i + 4 then []
    else
      match attrAt b i with
      | .ok (some a) => a :: attrsFrom b stop n a.next
      | _ => []

/-- The loop over attributes that are all there. -/
def Seen.through (s : Seen) : List Attr → Seen
  | [] => s
  | a :: as => if (s.take a).stops a then s.take a else (s.take a).through as

theorem readAttrs_through {b : List UInt8} {stop n : Nat} :
    ∀ {i : Nat} {s t : Seen}, readAttrs b stop n i s = .ok (.ok t) →
      s.through (attrsFrom b stop n i) = t := by
  induction n with
  | zero => exact fun h => nomatch h
  | succ n ih =>
    intro i s t h
    rw [readAttrs] at h
    rw [attrsFrom]
    split_ifs at h with hend
    · rw [if_pos hend]
      exact Except.ok.inj (Except.ok.inj h)
    · rw [if_neg hend]
      cases hat : attrAt b i with
      | error e => rw [hat] at h; cases h
      | ok r =>
        rw [hat, ok_bind] at h
        cases r with
        | none => cases h
        | some a =>
          dsimp only at h ⊢
          rw [Seen.through]
          split_ifs at h ⊢ with hstop
          · exact Except.ok.inj (Except.ok.inj h)
          · exact ih h

theorem attrAt_eq {b : List UInt8} {i : Nat} {a : Attr} (h : attrAt b i = .ok (some a)) :
    ∃ ty al, u16 b i = .ok ty ∧ u16 b (i + 2) = .ok al ∧ i + 4 + al ≤ b.length ∧
      a = ⟨i, ty, (b.take (i + 4 + al)).drop (i + 4)⟩ := by
  rw [attrAt] at h
  cases hty : u16 b i with
  | error e => rw [hty] at h; cases h
  | ok ty =>
    cases hal : u16 b (i + 2) with
    | error e => rw [hty, hal] at h; cases h
    | ok al =>
      rw [hty, hal, ok_bind, ok_bind] at h
      split_ifs at h with hlong
      · cases h
      · have hfits := Nat.le_of_not_lt hlong
        rw [slice_ok (Nat.le_add_right _ _) hfits, ok_bind] at h
        exact ⟨ty, al, rfl, rfl, hfits, (Option.some.inj (Except.ok.inj h)).symm⟩

theorem attrAt_off {b : List UInt8} {i : Nat} {a : Attr} (h : attrAt b i = .ok (some a)) :
    a.off = i := by
  obtain ⟨ty, al, -, -, -, rfl⟩ := attrAt_eq h
  rfl

theorem attrAt_end {b : List UInt8} {i : Nat} {a : Attr} (h : attrAt b i = .ok (some a)) :
    a.off + 4 + a.val.length ≤ b.length := by
  obtain ⟨ty, al, -, -, hfits, rfl⟩ := attrAt_eq h
  have hlen := length_slice (Nat.le_add_right (i + 4) al) hfits
  dsimp only
  rw [hlen]
  omega

/-- Each attribute is behind those before it, and inside the datagram. -/
theorem attrsFrom_spec {b : List UInt8} {stop n : Nat} : ∀ {i : Nat},
    (∀ a ∈ attrsFrom b stop n i, i ≤ a.off ∧ a.off + 4 + a.val.length ≤ b.length) ∧
      (attrsFrom b stop n i).Pairwise fun x y => x.off < y.off := by
  induction n with
  | zero => exact ⟨by simp [attrsFrom], by simp [attrsFrom]⟩
  | succ n ih =>
    intro i
    rw [attrsFrom]
    split_ifs
    · exact ⟨by simp, .nil⟩
    · split
      · next a hat =>
        have hoff := attrAt_off hat
        have hnext := a.lt_next
        obtain ⟨hall, hsorted⟩ := @ih a.next
        refine ⟨List.forall_mem_cons.mpr ⟨⟨hoff.ge, attrAt_end hat⟩, fun x hx => ?_⟩, ?_⟩
        · exact ⟨by have := (hall x hx).1; omega, (hall x hx).2⟩
        · refine List.pairwise_cons.mpr ⟨fun x hx => ?_, hsorted⟩
          have := (hall x hx).1
          omega
      · exact ⟨by simp, .nil⟩

/-- Each begins before the stop. -/
theorem attrsFrom_stop {b : List UInt8} {stop n : Nat} : ∀ {i : Nat},
    ∀ a ∈ attrsFrom b stop n i, a.off + 4 ≤ stop := by
  induction n with
  | zero => simp [attrsFrom]
  | succ n ih =>
    intro i
    rw [attrsFrom]
    split_ifs with hend
    · simp
    · split
      · next a hat =>
        refine List.forall_mem_cons.mpr ⟨?_, ih⟩
        rw [attrAt_off hat]
        omega
      · simp

/-! ## Two datagrams that agree -/

/-- The bytes before `o` are the same, but for the length in the header. -/
def Agree (o : Nat) (b₁ b₂ : List UInt8) : Prop := ∀ i < o, i ≠ 2 → i ≠ 3 → b₁[i]? = b₂[i]?

instance (o : Nat) (b₁ b₂ : List UInt8) : Decidable (Agree o b₁ b₂) :=
  inferInstanceAs (Decidable (∀ i < o, i ≠ 2 → i ≠ 3 → b₁[i]? = b₂[i]?))

section Two

variable {b₁ b₂ : List UInt8} {o : Nat}

theorem Agree.mono (h : Agree o b₁ b₂) {o' : Nat} (ho : o' ≤ o) : Agree o' b₁ b₂ :=
  fun i hi => h i (lt_of_lt_of_le hi ho)

theorem u16_agree (h : Agree o b₁ b₂) {i : Nat} (hi : i + 1 < o) (hlen : 4 ≤ i) :
    u16 b₁ i = u16 b₂ i := by
  rw [u16, u16, byte, byte, byte, byte, h i (by omega) (by omega) (by omega),
    h (i + 1) hi (by omega) (by omega)]

theorem slice_agree (h : Agree o b₁ b₂) {i j : Nat} (hi : 4 ≤ i) (hj : j ≤ o) :
    (b₁.take j).drop i = (b₂.take j).drop i := by
  refine List.ext_getElem? fun k => ?_
  rw [List.getElem?_drop, List.getElem?_drop, List.getElem?_take, List.getElem?_take]
  split_ifs with hk
  · exact h (i + k) (by omega) (by omega) (by omega)
  · rfl

/-- What ends before `o` in the one is there in the other, when it is long enough. -/
theorem attrAt_copy (h : Agree o b₁ b₂) (hlen : o ≤ b₂.length) {i : Nat} (hi : 4 ≤ i) {x : Attr}
    (hx : attrAt b₁ i = .ok (some x)) (ho : x.off + 4 + x.val.length ≤ o) :
    attrAt b₂ i = .ok (some x) := by
  obtain ⟨ty, al, hty, hal, hfits, rfl⟩ := attrAt_eq hx
  have hval := length_slice (Nat.le_add_right (i + 4) al) hfits
  dsimp only at ho
  rw [hval] at ho
  rw [attrAt, ← u16_agree h (i := i) (by omega) hi, ← u16_agree h (i := i + 2) (by omega) (by omega),
    hty, hal]
  simp only [ok_bind]
  rw [if_neg (by omega), slice_ok (Nat.le_add_right _ _) (by omega),
    slice_agree h (by omega) (by omega)]
  rfl

/-- An attribute that ends before `o` is the same in both. -/
theorem attrAt_agree (h : Agree o b₁ b₂) {i : Nat} (hi : 4 ≤ i) {x y : Attr}
    (hx : attrAt b₁ i = .ok (some x)) (hy : attrAt b₂ i = .ok (some y)) (ho : x.next ≤ o) :
    x = y := by
  obtain ⟨ty, al, hty, hal, hfits, rfl⟩ := attrAt_eq hx
  obtain ⟨ty', al', hty', hal', -, rfl⟩ := attrAt_eq hy
  have hlen := length_slice (Nat.le_add_right (i + 4) al) hfits
  rw [Attr.next] at ho
  dsimp only at ho
  rw [hlen] at ho
  have hsame₁ := u16_agree h (i := i) (by omega) hi
  have hsame₂ := u16_agree h (i := i + 2) (by omega) (by omega)
  obtain rfl : ty = ty' := Except.ok.inj (hty.symm.trans (hsame₁.trans hty'))
  obtain rfl : al = al' := Except.ok.inj (hal.symm.trans (hsame₂.trans hal'))
  rw [slice_agree h (by omega) (by omega)]

/-- Up to an attribute at `o` the two have the same attributes. -/
theorem attrsFrom_agree (h : Agree o b₁ b₂) {s₁ s₂ n : Nat} : ∀ {m i : Nat}, 4 ≤ i →
    (∃ x ∈ attrsFrom b₁ s₁ n i, x.off = o) → (∃ y ∈ attrsFrom b₂ s₂ m i, y.off = o) →
      ∃ pre x y t₁ t₂, attrsFrom b₁ s₁ n i = pre ++ x :: t₁ ∧
        attrsFrom b₂ s₂ m i = pre ++ y :: t₂ ∧ x.off = o ∧ y.off = o := by
  induction n with
  | zero =>
    rintro m i - ⟨x, hx, -⟩
    simp [attrsFrom] at hx
  | succ n ih =>
    intro m i hi hx hy
    obtain _ | m := m
    · obtain ⟨y, hy, -⟩ := hy
      simp [attrsFrom] at hy
    rw [attrsFrom] at hx hy ⊢
    rw [attrsFrom]
    split_ifs at hx hy ⊢
    · simp at hx
    · simp at hx
    · simp at hy
    cases hat₁ : attrAt b₁ i with
    | error e => simp [hat₁] at hx
    | ok r₁ =>
      cases hat₂ : attrAt b₂ i with
      | error e => simp [hat₂] at hy
      | ok r₂ =>
        cases r₁ with
        | none => simp [hat₁] at hx
        | some a₁ =>
          cases r₂ with
          | none => simp [hat₂] at hy
          | some a₂ =>
            simp only [hat₁] at hx
            simp only [hat₂] at hy
            dsimp only
            have hoff₁ := attrAt_off hat₁
            have hoff₂ := attrAt_off hat₂
            by_cases hhere : i = o
            · exact ⟨[], a₁, a₂, _, _, rfl, rfl, hoff₁.trans hhere, hoff₂.trans hhere⟩
            · have htail : ∀ {b : List UInt8} {s k : Nat} {a : Attr}, a.off = i →
                  (∃ x ∈ a :: attrsFrom b s k a.next, x.off = o) →
                    (∃ x ∈ attrsFrom b s k a.next, x.off = o) ∧ a.next ≤ o := by
                rintro b s k a ha ⟨x, hx, ho⟩
                rcases List.mem_cons.mp hx with rfl | hx
                · exact absurd (ha.symm.trans ho) hhere
                · exact ⟨⟨x, hx, ho⟩, ho ▸ (attrsFrom_spec.1 x hx).1⟩
              obtain ⟨hx, hle⟩ := htail hoff₁ hx
              obtain ⟨hy, -⟩ := htail hoff₂ hy
              obtain rfl := attrAt_agree h hi hat₁ hat₂ hle
              have hnext := a₁.lt_next
              obtain ⟨pre, x, y, t₁, t₂, he₁, he₂, ho⟩ := ih (by omega) hx hy
              exact ⟨a₁ :: pre, x, y, t₁, t₂, by rw [he₁]; rfl, by rw [he₂]; rfl, ho⟩

end Two

/-! ## What is found behind the code -/

/-- The name in the attribute. -/
def Attr.name (a : Attr) : Option String :=
  if a.ty = attrUsername then some (fromUtf8Lossy a.val) else none

/-- The name in the first attribute of another kind than the code. -/
def nameIn (as : List Attr) : Option String :=
  (as.find? (·.ty ≠ attrMessageIntegrity)).bind Attr.name

namespace Seen

theorem take_username (s : Seen) (a : Attr) : (s.take a).username = (a.name <|> s.username) := by
  rw [take, Attr.name]
  split_ifs <;> simp

theorem take_mi (s : Seen) (a : Attr) :
    (s.take a).mi = s.mi ∨ (s.take a).mi = some (a.off, a.val) ∧
      a.ty = attrMessageIntegrity ∧ a.val.length = 20 := by
  rw [take]
  split_ifs with h₁ h₂ h₃
  · exact .inl rfl
  · exact .inr ⟨rfl, h₂⟩
  · exact .inl rfl
  · exact .inl rfl

/-- The code that is found is that of an attribute. -/
theorem through_mi {as : List Attr} : ∀ {s : Seen}, (s.through as).mi = s.mi ∨
    ∃ a ∈ as, (s.through as).mi = some (a.off, a.val) ∧ a.ty = attrMessageIntegrity ∧
      a.val.length = 20 := by
  induction as with
  | nil => exact .inl rfl
  | cons a as ih =>
    intro s
    rw [through]
    split_ifs
    · rcases s.take_mi a with h | h
      · exact .inl h
      · exact .inr ⟨a, List.mem_cons_self, h⟩
    · rcases @ih (s.take a) with h | ⟨x, hx, h⟩
      · rw [h]
        rcases s.take_mi a with h | h
        · exact .inl h
        · exact .inr ⟨a, List.mem_cons_self, h⟩
      · exact .inr ⟨x, List.mem_cons_of_mem a hx, h⟩

/-- Behind a code that is found in the end, only a name is still taken. -/
theorem through_behind {as : List Attr} : ∀ {s : Seen} {o : Nat} {m m' : List UInt8},
    s.mi = some (o, m) → (∀ a ∈ as, a.off ≠ o) → (s.through as).mi = some (o, m') →
      s.through as = { s with username := nameIn as <|> s.username } := by
  induction as with
  | nil => exact fun _ _ _ => rfl
  | cons a as ih =>
    intro s o m m' hmi hoff h
    obtain ⟨ha, hoff⟩ := List.forall_mem_cons.mp hoff
    by_cases hty : a.ty = attrMessageIntegrity
    · -- Another code would have taken the place of this one.
      have hshort : a.val.length ≠ 20 := by
        intro hlen
        have htake : (s.take a).mi = some (a.off, a.val) := by
          simp [take, hty, hlen, attrMessageIntegrity, attrUsername]
        rw [through, if_neg (by simp [stops, hty])] at h
        rcases @through_mi as (s.take a) with hm | ⟨x, hx, hm, -⟩
        · rw [hm, htake] at h
          exact ha (congrArg Prod.fst (Option.some.inj h))
        · rw [hm] at h
          exact hoff x hx (congrArg Prod.fst (Option.some.inj h))
      have hsame : s.take a = s := by
        simp [take, hty, hshort, attrMessageIntegrity, attrUsername, attrUseCandidate]
      rw [through, hsame, if_neg (by simp [stops, hty])] at h ⊢
      rw [ih hmi hoff h, nameIn, nameIn, List.find?_cons_of_neg (by simp [hty])]
    · have hstop : (s.take a).stops a = true := by
        rcases s.take_mi a with hm | hm
        · simp [stops, hm, hmi, hty]
        · exact absurd hm.2.1 hty
      rw [through, if_pos hstop, nameIn, List.find?_cons_of_pos (by simp [hty])]
      obtain ⟨username, mi, useCandidate⟩ := s
      obtain rfl : mi = some (o, m) := hmi
      simp only [take, Attr.name, Option.bind_some, hty, false_and, if_false, reduceCtorEq,
        and_false]
      split_ifs <;> rfl

/-- The loop goes through all that is before the code it finds. -/
theorem through_before {a : Attr} {post : List Attr} {o : Nat} {m : List UInt8} :
    ∀ {pre : List Attr} {s : Seen}, (∀ x ∈ pre, x.off ≠ o) → (∀ m', s.mi ≠ some (o, m')) →
      (s.through (pre ++ a :: post)).mi = some (o, m) →
        s.through (pre ++ a :: post) = (pre.foldl take s).through (a :: post) ∧
          ∀ m', (pre.foldl take s).mi ≠ some (o, m') := by
  intro pre
  induction pre with
  | nil => exact fun _ hs _ => ⟨rfl, hs⟩
  | cons x pre ih =>
    intro s hoff hs h
    obtain ⟨hx, hoff⟩ := List.forall_mem_cons.mp hoff
    have htake : ∀ m', (s.take x).mi ≠ some (o, m') := by
      intro m' hm'
      rcases s.take_mi x with hm | ⟨hm, -⟩
      · exact hs m' (hm.symm.trans hm')
      · exact hx (congrArg Prod.fst (Option.some.inj (hm.symm.trans hm')))
    rw [List.cons_append, through] at h ⊢
    split_ifs at h ⊢
    · exact absurd h (htake m)
    · exact ih hoff htake h

theorem foldl_take_username {as : List Attr} : ∀ {s : Seen},
    (as.foldl take s).username = (as.reverse.findSome? Attr.name <|> s.username) := by
  induction as with
  | nil => simp
  | cons a as ih =>
    intro s
    rw [List.foldl_cons, ih, take_username, List.reverse_cons, List.findSome?_append]
    cases as.reverse.findSome? Attr.name <;> simp

end Seen

/-- The attributes of the datagram. -/
def attrs (raw : List UInt8) : List Attr :=
  match u16 raw 2 with
  | .ok len => attrsFrom raw (20 + len) (len / 4 + 1) 20
  | .error _ => []

/-- The name of the last `USERNAME` before `o`. -/
def nameBefore (raw : List UInt8) (o : Nat) : Option String :=
  ((attrs raw).filter (·.off < o)).reverse.findSome? Attr.name

/-- The name directly behind the code at `o`: in the first attribute there that is not a code. -/
def nameBehind (raw : List UInt8) (o : Nat) : Option String :=
  nameIn ((attrs raw).filter (o < ·.off))

/-- What a datagram that was parsed holds. -/
structure Parsed (raw : List UInt8) (b : Binding) : Prop where
  txid : b.txid = (raw.take 20).drop 8
  seen : ∃ t, ({} : Seen).through (attrs raw) = t ∧ t.mi = some (b.miOffset, b.mi) ∧
    t.useCandidate = b.useCandidate ∧
      ∃ u, t.username = some u ∧ splitOnce u = some (b.localUfrag, b.remoteUfrag)

theorem parse_spec {raw : List UInt8} {b : Binding} (h : parse raw = .ok (.ok b)) :
    Parsed raw b := by
  obtain ⟨stun, hstun, hlong⟩ := isStun_ok raw
  rw [parse, hstun, ok_bind] at h
  cases stun with
  | false => cases h
  | true =>
    have hlong := hlong rfl
    obtain ⟨ty, hty, -⟩ := u16_ok (b := raw) (i := 0) (by omega)
    obtain ⟨len, hlen, -⟩ := u16_ok (b := raw) (i := 2) (by omega)
    simp only [Bool.not_true, Bool.false_eq_true, if_false, hty, hlen, ok_bind] at h
    split_ifs at h with h₁ h₂
    · cases h
    · cases h
    rw [slice_ok (by decide) hlong, ok_bind] at h
    cases hread : readAttrs raw (20 + len) (len / 4 + 1) 20 {} with
    | error e => rw [hread] at h; cases h
    | ok r =>
      rw [hread, ok_bind] at h
      cases r with
      | error e => cases h
      | ok t =>
        have hthrough : ({} : Seen).through (attrs raw) = t := by
          rw [attrs, hlen]
          exact readAttrs_through hread
        have hfin : finish ((raw.take 20).drop 8) t = .ok b := Except.ok.inj h
        rw [finish] at hfin
        cases hname : t.username.bind splitOnce with
        | none => rw [hname] at hfin; cases hfin
        | some p =>
          obtain ⟨u, hu, hp⟩ := Option.bind_eq_some_iff.mp hname
          cases hmi : t.mi with
          | none => rw [hname, hmi] at hfin; cases hfin
          | some q =>
            rw [hname, hmi] at hfin
            obtain rfl := Except.ok.inj hfin
            exact ⟨rfl, t, hthrough, hmi, rfl, u, hu, hp⟩

theorem attrs_spec (raw : List UInt8) :
    (∀ a ∈ attrs raw, 20 ≤ a.off ∧ a.off + 4 + a.val.length ≤ raw.length) ∧
      (attrs raw).Pairwise fun x y => x.off < y.off := by
  rw [attrs]
  split
  · exact attrsFrom_spec
  · exact ⟨by simp, .nil⟩

/-- The code is that of an attribute. -/
theorem Parsed.mi_mem {raw : List UInt8} {b : Binding} (h : Parsed raw b) :
    ∃ a ∈ attrs raw, a.off = b.miOffset ∧ a.val.length = 20 := by
  obtain ⟨t, ht, hmi, -⟩ := h.seen
  rcases @Seen.through_mi (attrs raw) {} with hm | ⟨a, ha, hm, -, hlen⟩
  · rw [ht, hmi] at hm
    cases hm
  · rw [ht, hmi] at hm
    exact ⟨a, ha, (congrArg Prod.fst (Option.some.inj hm)).symm, hlen⟩

section Check

variable (hmac : List UInt8 → List UInt8 → List UInt8)

theorem verify_ok {raw : List UInt8} {b : Binding} (h : Parsed raw b) (pwd : String) :
    ∃ r, verify hmac raw b pwd = .ok r := by
  obtain ⟨a, ha, hoff, -⟩ := h.mi_mem
  obtain ⟨hlow, hhigh⟩ := (attrs_spec raw).1 a ha
  have hfits : b.miOffset ≤ raw.length := by omega
  have hlen := length_slice (Nat.zero_le b.miOffset) hfits
  rw [verify, slice_ok (Nat.zero_le _) hfits, ok_bind, if_neg (by omega)]
  exact ⟨_, rfl⟩

/-- **The check comes to a result, and reads nothing outside the datagram.** -/
theorem check_total (raw : List UInt8) (pwdOf : String → Option String) :
    ∃ r, check hmac raw pwdOf = .ok r := by
  obtain ⟨r, hr⟩ := parse_ok raw
  rw [check, hr, ok_bind]
  cases r with
  | error e => exact ⟨_, rfl⟩
  | ok b =>
    dsimp only
    cases pwdOf b.localUfrag with
    | none => exact ⟨_, rfl⟩
    | some pwd =>
      obtain ⟨v, hv⟩ := verify_ok hmac (parse_spec hr) pwd
      simp only [hv, ok_bind]
      cases v <;> exact ⟨_, rfl⟩

/-- What passes was parsed, and its code is right under the password of its user. -/
theorem check_accepts {raw : List UInt8} {pwdOf : String → Option String} {b : Binding}
    (h : check hmac raw pwdOf = .ok (.ok b)) : parse raw = .ok (.ok b) ∧
      ∃ pwd, pwdOf b.localUfrag = some pwd ∧ verify hmac raw b pwd = .ok true := by
  obtain ⟨r, hr⟩ := parse_ok raw
  rw [check, hr, ok_bind] at h
  cases r with
  | error e => cases h
  | ok c =>
    dsimp only at h
    cases hpwd : pwdOf c.localUfrag with
    | none => rw [hpwd] at h; cases h
    | some pwd =>
      obtain ⟨v, hv⟩ := verify_ok hmac (parse_spec hr) pwd
      rw [hpwd] at h
      simp only [hv, ok_bind] at h
      cases v with
      | false => cases h
      | true =>
        obtain rfl := Except.ok.inj (Except.ok.inj h)
        exact ⟨hr, pwd, hpwd, hv⟩

theorem check_parsed {raw : List UInt8} {pwdOf : String → Option String} {b : Binding}
    (h : check hmac raw pwdOf = .ok (.ok b)) : Parsed raw b := parse_spec (check_accepts hmac h).1

end Check

theorem splitOnce_eq {u l r : String} (h : splitOnce u = some (l, r)) :
    u.toList = l.toList ++ ':' :: r.toList := by
  rw [splitOnce] at h
  split_ifs at h with hmem
  obtain ⟨rfl, rfl⟩ := Prod.mk.inj (Option.some.inj h)
  rw [String.toList_ofList, String.toList_ofList]
  have hne : u.toList.dropWhile (· ≠ ':') ≠ [] := by
    rw [ne_eq, List.dropWhile_eq_nil_iff]
    exact fun hall => absurd (hall ':' hmem) (by simp)
  have hhead : (u.toList.dropWhile (· ≠ ':')).head hne = ':' := by
    simpa using List.head_dropWhile_not (fun c => decide (c ≠ ':')) hne
  conv_lhs => rw [← List.takeWhile_append_dropWhile (p := fun c => decide (c ≠ ':'))
    (l := u.toList), ← List.cons_head_tail hne, hhead]

/-- What is found, with the names before and behind the code. -/
theorem Parsed.split {raw : List UInt8} {b : Binding} (h : Parsed raw b) {pre post : List Attr}
    {a : Attr} (ha : attrs raw = pre ++ a :: post) (hoff : a.off = b.miOffset) :
    (pre.foldl Seen.take {}).take a =
        { pre.foldl Seen.take {} with mi := some (b.miOffset, b.mi) } ∧
      a.ty = attrMessageIntegrity ∧ a.val.length = 20 ∧
      (pre.foldl Seen.take {}).useCandidate = b.useCandidate ∧
      ∃ u, (nameIn post <|> pre.reverse.findSome? Attr.name) = some u ∧
        splitOnce u = some (b.localUfrag, b.remoteUfrag) := by
  obtain ⟨t, ht, hmi, huse, u, hu, hsplit⟩ := h.seen
  have hsorted := (attrs_spec raw).2
  rw [ha] at hsorted ht
  obtain ⟨-, hpost, hpre⟩ := List.pairwise_append.mp hsorted
  have hbefore : ∀ x ∈ pre, x.off ≠ b.miOffset := fun x hx =>
    hoff ▸ (hpre x hx a List.mem_cons_self).ne
  have hbehind : ∀ x ∈ post, x.off ≠ b.miOffset := fun x hx =>
    hoff ▸ ((List.pairwise_cons.mp hpost).1 x hx).ne'
  obtain ⟨hgo, hnone⟩ := Seen.through_before hbefore (by simp) (ht ▸ hmi)
  rw [ht] at hgo
  set s : Seen := pre.foldl Seen.take {} with hs
  -- The attribute at the offset is the code, for nothing else has this offset.
  have hcode : s.take a = { s with mi := some (a.off, a.val) } ∧ a.ty = attrMessageIntegrity ∧
      a.val.length = 20 := by
    rcases s.take_mi a with hm | ⟨hm, hty, hlen⟩
    · exfalso
      rw [Seen.through] at hgo
      split_ifs at hgo
      · rw [hgo, hm] at hmi
        exact hnone _ hmi
      · rcases @Seen.through_mi post (s.take a) with hm' | ⟨x, hx, hm', -⟩
        · rw [← hgo, hmi, hm] at hm'
          exact hnone _ hm'.symm
        · rw [← hgo, hmi] at hm'
          exact hbehind x hx (congrArg Prod.fst (Option.some.inj hm')).symm
    · exact ⟨by simp [Seen.take, hty, hlen, attrMessageIntegrity, attrUsername], hty, hlen⟩
  obtain ⟨htake, hty, hlen⟩ := hcode
  rw [Seen.through, htake, if_neg (by simp [Seen.stops, hty])] at hgo
  have hend := @Seen.through_behind post { s with mi := some (a.off, a.val) } b.miOffset
    a.val b.mi (by rw [hoff]) hbehind (by rw [← hgo, hmi])
  rw [hend] at hgo
  subst hgo
  have hval : some (a.off, a.val) = some (b.miOffset, b.mi) := hmi
  refine ⟨by rw [htake, hval], hty, hlen, huse, u, ?_, hsplit⟩
  rw [← hu]
  dsimp only
  rw [hs, Seen.foldl_take_username]
  simp

/-- Before and behind an attribute of a sorted list. -/
theorem filter_split {as pre post : List Attr} {a : Attr} {o : Nat} (h : as = pre ++ a :: post)
    (hsorted : as.Pairwise fun x y => x.off < y.off) (ho : a.off = o) :
    as.filter (·.off < o) = pre ∧ as.filter (o < ·.off) = post := by
  subst h ho
  obtain ⟨-, hpost, hpre⟩ := List.pairwise_append.mp hsorted
  have hbefore : ∀ x ∈ pre, x.off < a.off := fun x hx => hpre x hx a List.mem_cons_self
  have hbehind := (List.pairwise_cons.mp hpost).1
  rw [List.filter_append, List.filter_append, List.filter_cons, List.filter_cons]
  constructor
  · rw [List.filter_eq_self.mpr fun x hx => decide_eq_true (hbefore x hx),
      List.filter_eq_nil_iff.mpr fun x hx => by simpa using (hbehind x hx).le]
    simp
  · rw [List.filter_eq_nil_iff.mpr fun x hx => by simpa using (hbefore x hx).le,
      List.filter_eq_self.mpr fun x hx => decide_eq_true (hbehind x hx)]
    simp

theorem splitOnce_injective {u v : String} {p : String × String} (hu : splitOnce u = some p)
    (hv : splitOnce v = some p) : u = v := by
  obtain ⟨l, r⟩ := p
  exact String.toList_inj.mp ((splitOnce_eq hu).trans (splitOnce_eq hv).symm)

/-! ## The datagram up to the code -/

/-- The bytes up to the end of the code at `o`, with the length in the header that goes with them. -/
def cut (raw : List UInt8) (o : Nat) : List UInt8 :=
  match u16 raw 2 with
  | .ok len => raw.take 2 ++ be16 (min len (o + 4)) ++ (raw.take (o + 24)).drop 4
  | .error _ => raw

/-- No name directly behind the code at `o`, or the one in force before it again. -/
def Plain (raw : List UInt8) (o : Nat) : Prop :=
  ∀ u, nameBehind raw o = some u → nameBefore raw o = some u

instance (raw : List UInt8) (o : Nat) : Decidable (Plain raw o) :=
  match h : nameBehind raw o with
  | none => .isTrue fun u hu => by rw [h] at hu; cases hu
  | some u => decidable_of_iff (nameBefore raw o = some u) (by simp [Plain, h])

theorem attrsFrom_cons {b : List UInt8} {stop n i : Nat} {x : Attr} {l : List Attr}
    (h : attrsFrom b stop n i = x :: l) :
    ∃ k, n = k + 1 ∧ attrAt b i = .ok (some x) ∧ l = attrsFrom b stop k x.next := by
  cases n with
  | zero => cases h
  | succ k =>
    rw [attrsFrom] at h
    split_ifs at h
    split at h
    · next y hy =>
      obtain ⟨rfl, rfl⟩ := List.cons.inj h
      exact ⟨k, rfl, hy, rfl⟩
    · cases h

/-- A datagram that agrees up to the end of the code at `o` and ends there is read up to it. The
induction is on what stands before the code; none of it ends the loop, for the code is found. -/
theorem readAttrs_cut {b b' : List UInt8} {stop stop' o : Nat} {m : List UInt8}
    (h : Agree (o + 24) b b') (hlen : o + 24 ≤ b'.length) (hlow : o + 4 ≤ stop')
    (hhigh : stop' < o + 28) {a : Attr} {post : List Attr} (hoff : a.off = o)
    (hty : a.ty = attrMessageIntegrity) (hval : a.val.length = 20) :
    ∀ {pre : List Attr} {i n k : Nat} {s : Seen}, 4 ≤ i →
      attrsFrom b stop n i = pre ++ a :: post → (∀ m', s.mi ≠ some (o, m')) →
      (s.through (pre ++ a :: post)).mi = some (o, m) → stop' < i + 4 * k →
        readAttrs b' stop' k i s = .ok (.ok ((pre.foldl Seen.take s).take a)) := by
  intro pre
  induction pre with
  | nil =>
    intro i n k s hi hat _ _ hk
    obtain ⟨n, rfl, hx, -⟩ := attrsFrom_cons hat
    obtain rfl : i = o := (attrAt_off hx).symm.trans hoff
    have hcopy := attrAt_copy h hlen hi hx (by omega)
    obtain _ | _ | k := k
    · omega
    · omega
    · have hnext : a.next = i + 24 := by
        rw [Attr.next, hoff, hval]
      rw [readAttrs, if_neg (by omega), hcopy, ok_bind]
      dsimp only
      rw [if_neg (by simp [Seen.stops, hty]), readAttrs, hnext, if_pos (by omega)]
      rfl
  | cons x pre ih =>
    intro i n k s hi hat hs hmi hk
    obtain ⟨n, rfl, hx, hrest⟩ := attrsFrom_cons hat
    have hxoff := attrAt_off hx
    have hxend : x.next ≤ o := by
      have hmem : a ∈ attrsFrom b stop n x.next := hrest ▸ by simp
      exact hoff ▸ (attrsFrom_spec.1 a hmem).1
    have hxlen : x.off + 4 + x.val.length ≤ x.next := by
      rw [Attr.next]
      omega
    have hcopy := attrAt_copy h hlen hi hx (by omega)
    have htake : ∀ m', (s.take x).mi ≠ some (o, m') := by
      intro m' hm'
      rcases s.take_mi x with hm | ⟨hm, -⟩
      · exact hs m' (hm.symm.trans hm')
      · have := congrArg Prod.fst (Option.some.inj (hm.symm.trans hm'))
        have hfar := x.lt_next
        dsimp only at this
        omega
    rw [List.cons_append, Seen.through] at hmi
    split_ifs at hmi with hstop
    · exact absurd hmi (htake m)
    obtain _ | k := k
    · omega
    · have hfar := x.lt_next
      rw [readAttrs, if_neg (by omega), hcopy, ok_bind]
      dsimp only
      rw [if_neg hstop]
      exact ih (by omega) hrest.symm htake hmi (by omega)

section Cut

variable {raw : List UInt8} {o len : Nat} (hlen : u16 raw 2 = .ok len) (hlong : o + 24 ≤ raw.length)
include hlen hlong

theorem length_cut : (cut raw o).length = o + 24 := by
  rw [cut, hlen]
  simp only [List.length_append, List.length_take, List.length_drop, Rtcp.length_be16]
  omega

theorem agree_cut : Agree (o + 24) raw (cut raw o) := by
  intro i hi h2 h3
  rw [cut, hlen]
  dsimp only
  by_cases hlow : i < 2
  · rw [List.append_assoc, List.getElem?_append_left (by simp; omega), List.getElem?_take,
      if_pos hlow]
  · rw [List.getElem?_append_right (by simp [Rtcp.length_be16]; omega), List.getElem?_drop,
      List.getElem?_take, List.length_append, List.length_take, Rtcp.length_be16,
      min_eq_left (by omega)]
    rw [show 4 + (i - (2 + 2)) = i by omega, if_pos hi]

theorem u16_cut (hfew : len < 2 ^ 16) : u16 (cut raw o) 2 = .ok (min len (o + 4)) := by
  have h2 : (cut raw o)[2]? = (be16 (min len (o + 4)))[0]? := by
    rw [cut, hlen]
    dsimp only
    rw [List.getElem?_append_left (by simp [Rtcp.length_be16]; omega),
      List.getElem?_append_right (by simp), List.length_take,
      min_eq_left (show 2 ≤ raw.length by omega)]
  have h3 : (cut raw o)[3]? = (be16 (min len (o + 4)))[1]? := by
    rw [cut, hlen]
    dsimp only
    rw [List.getElem?_append_left (by simp [Rtcp.length_be16]; omega),
      List.getElem?_append_right (by simp), List.length_take,
      min_eq_left (show 2 ≤ raw.length by omega)]
  rw [u16, byte, byte, h2, h3]
  show Except.ok (of16 _ _) = _
  rw [Rtcp.of16_be16, Nat.mod_eq_of_lt (by omega)]

end Cut

theorem isStun_agree {b b' : List UInt8} {o : Nat} (h : Agree o b b') (ho : 20 ≤ o)
    (hb : 20 ≤ b.length) (hb' : 20 ≤ b'.length) : isStun b' = isStun b := by
  have hfirst : byte b' 0 = byte b 0 := by rw [byte, byte, h 0 (by omega) (by decide) (by decide)]
  rw [isStun, isStun, if_neg (by omega), if_neg (by omega), hfirst,
    u16_agree h (i := 4) (by omega) (by decide), u16_agree h (i := 6) (by omega) (by decide)]

theorem type_agree {b b' : List UInt8} {o : Nat} (h : Agree o b b') (ho : 2 ≤ o) :
    u16 b' 0 = u16 b 0 := by
  rw [u16, u16, byte, byte, byte, byte, h 0 (by omega) (by decide) (by decide),
    h 1 (by omega) (by decide) (by decide)]

/-- The facts about a datagram that was parsed, with the attribute of its code. -/
theorem parse_facts {raw : List UInt8} {b : Binding} (h : parse raw = .ok (.ok b)) :
    ∃ len pre a post, isStun raw = .ok true ∧ u16 raw 0 = .ok bindingRequest ∧
      u16 raw 2 = .ok len ∧ len < 2 ^ 16 ∧ attrs raw = pre ++ a :: post ∧
      a.off = b.miOffset ∧ 20 ≤ b.miOffset ∧ b.miOffset + 4 ≤ 20 + len ∧
      b.miOffset + 24 ≤ raw.length := by
  have hp := parse_spec h
  obtain ⟨stun, hstun, hlong⟩ := isStun_ok raw
  rw [parse, hstun, ok_bind] at h
  cases stun with
  | false => cases h
  | true =>
    have hlong := hlong rfl
    obtain ⟨ty, hty, -⟩ := u16_ok (b := raw) (i := 0) (by omega)
    obtain ⟨len, hlen, hfew⟩ := u16_ok (b := raw) (i := 2) (by omega)
    simp only [Bool.not_true, Bool.false_eq_true, if_false, hty, ok_bind] at h
    split_ifs at h with h₁
    · cases h
    obtain ⟨a, ha, hoff, hval⟩ := hp.mi_mem
    obtain ⟨pre, post, hsplit⟩ := List.append_of_mem ha
    obtain ⟨hlow, hhigh⟩ := (attrs_spec raw).1 a ha
    have hstop : a.off + 4 ≤ 20 + len := by
      rw [attrs, hlen] at ha
      exact attrsFrom_stop a ha
    exact ⟨len, pre, a, post, hstun, by rw [hty, not_not.1 h₁], hlen, hfew, hsplit, hoff, by omega,
      by omega, by omega⟩

/-- The name in force where the loop has taken what stands before the code and the code. -/
theorem finish_plain {txid : List UInt8} {b : Binding} {s : Seen} {behind before : Option String}
    (hs : s.username = before) (hmi : s.mi = some (b.miOffset, b.mi))
    (huse : s.useCandidate = b.useCandidate) (htx : txid = b.txid) {u : String}
    (hu : (behind <|> before) = some u) (hsplit : splitOnce u = some (b.localUfrag, b.remoteUfrag)) :
    finish txid s = .ok b ↔ ∀ w, behind = some w → before = some w := by
  subst htx
  rw [finish, hs, hmi]
  constructor
  · intro h w hw
    obtain rfl : w = u := by simpa [hw] using hu
    cases hv : before with
    | none => simp [hv] at h
    | some v =>
      cases hp : splitOnce v with
      | none => simp [hv, hp] at h
      | some p =>
        obtain ⟨l, r⟩ := p
        simp only [hv, Option.bind_some, hp] at h
        obtain ⟨hl, hr⟩ : l = b.localUfrag ∧ r = b.remoteUfrag := by
          have hb := Except.ok.inj h
          exact ⟨congrArg Binding.localUfrag hb, congrArg Binding.remoteUfrag hb⟩
        rw [hl, hr] at hp
        rw [splitOnce_injective hp hsplit]
  · intro h
    have hv : before = some u := by
      cases behind with
      | none => exact hu
      | some w =>
        rw [h w rfl]
        exact hu
    rw [hv, Option.bind_some, hsplit]
    dsimp only
    rw [huse]

/-- **What is behind the code is read when it names another user, and only then.** The datagram
up to its code is read as the whole is exactly when no other name is directly behind the code. -/
theorem parse_cut {raw : List UInt8} {b : Binding} (h : parse raw = .ok (.ok b)) :
    ∃ r, parse (cut raw b.miOffset) = .ok r ∧ (r = .ok b ↔ Plain raw b.miOffset) := by
  obtain ⟨len, pre, a, post, hstun, hty, hlen, hfew, hat, hoff, hlow, hstop, hlong⟩ := parse_facts h
  have hp := parse_spec h
  obtain ⟨htake, hmity, hval, huse, u, hu, hsplit⟩ := hp.split hat hoff
  have hagree := agree_cut hlen hlong
  have hsize := length_cut hlen hlong
  have hcut := u16_cut hlen hlong hfew
  obtain ⟨t, ht, hmi, -⟩ := hp.seen
  have hread : readAttrs (cut raw b.miOffset) (20 + min len (b.miOffset + 4))
      (min len (b.miOffset + 4) / 4 + 1) 20 {} =
        .ok (.ok ((pre.foldl Seen.take {}).take a)) := by
    have hfrom : attrsFrom raw (20 + len) (len / 4 + 1) 20 = pre ++ a :: post := by
      rw [← hat, attrs, hlen]
    refine readAttrs_cut hagree (by omega) (by omega) (by omega) hoff hmity hval (by decide) hfrom
      (by simp) (m := b.mi) ?_ (by omega)
    rw [← hat, ht, hmi]
  have hshort : ¬ (cut raw b.miOffset).length < 20 + min len (b.miOffset + 4) := by omega
  refine ⟨finish ((raw.take 20).drop 8) ((pre.foldl Seen.take {}).take a), ?_, ?_⟩
  · rw [parse, isStun_agree hagree (by omega) (by omega) (by omega), hstun, ok_bind]
    simp only [Bool.not_true, Bool.false_eq_true, if_false, type_agree hagree (by omega), hty, hcut,
      ok_bind, ne_eq, not_true_eq_false]
    rw [if_neg hshort, slice_ok (by decide) (by omega), ← slice_agree hagree (by decide) (by omega),
      ok_bind, hread, ok_bind]
    rfl
  · obtain ⟨hbefore, hbehind⟩ := filter_split hat (attrs_spec raw).2 hoff
    rw [Plain, nameBehind, nameBefore, hbefore, hbehind, htake]
    refine finish_plain ?_ rfl huse hp.txid.symm hu hsplit
    rw [Seen.foldl_take_username]
    simp

section Check

variable (hmac : List UInt8 → List UInt8 → List UInt8)

/-- The code covers the same bytes in both. -/
theorem verify_agree {raw raw' : List UInt8} {b : Binding} (pwd : String)
    (h : Agree b.miOffset raw raw') (hlow : 20 ≤ b.miOffset) (hraw : b.miOffset ≤ raw.length)
    (hraw' : b.miOffset ≤ raw'.length) : verify hmac raw b pwd = verify hmac raw' b pwd := by
  rw [verify, verify, slice_ok (Nat.zero_le _) hraw, slice_ok (Nat.zero_le _) hraw', ok_bind,
    ok_bind, List.drop_zero, List.drop_zero]
  have hfirst : (raw.take b.miOffset).take 2 = (raw'.take b.miOffset).take 2 := by
    rw [List.take_take, List.take_take]
    refine List.ext_getElem? fun k => ?_
    rw [List.getElem?_take, List.getElem?_take]
    split_ifs
    · exact h k (by omega) (by omega) (by omega)
    · rfl
  have hrest := slice_agree h (i := 4) (le_refl 4) (le_refl b.miOffset)
  rw [List.length_take, List.length_take, min_eq_left hraw, min_eq_left hraw', hfirst, hrest]

/-- Up to the code a datagram passes with the same result exactly when it is plain. -/
theorem check_cut {raw : List UInt8} {pwdOf : String → Option String} {b : Binding}
    (h : check hmac raw pwdOf = .ok (.ok b)) :
    check hmac (cut raw b.miOffset) pwdOf = .ok (.ok b) ↔ Plain raw b.miOffset := by
  obtain ⟨hparse, pwd, hpwd, hverify⟩ := check_accepts hmac h
  obtain ⟨len, pre, a, post, hstun, hty, hlen, hfew, hat, hoff, hlow, hstop, hlong⟩ :=
    parse_facts hparse
  obtain ⟨r, hr, hplain⟩ := parse_cut hparse
  have hsize := length_cut hlen hlong
  have hsame := verify_agree hmac (b := b) pwd
    ((agree_cut hlen hlong).mono (Nat.le_add_right b.miOffset 24)) hlow (by omega) (by omega)
  rw [← hplain]
  constructor
  · intro hcheck
    obtain ⟨hb, -⟩ := check_accepts hmac hcheck
    exact Except.ok.inj (hr.symm.trans hb)
  · rintro rfl
    rw [check, hr, ok_bind]
    simp only [hpwd, ← hsame, hverify, ok_bind, if_true]
    rfl

end Check

/-- Two datagrams with codes at one offset, the same up to the end of these: one list of attributes
before the code, and two behind it. -/
theorem Parsed.common {raw₁ raw₂ : List UInt8} {b₁ b₂ : Binding} (hp₁ : Parsed raw₁ b₁)
    (hp₂ : Parsed raw₂ b₂) (hoff : b₁.miOffset = b₂.miOffset)
    (hagree : Agree (b₁.miOffset + 24) raw₁ raw₂) :
    ∃ pre a₁ a₂ t₁ t₂, attrs raw₁ = pre ++ a₁ :: t₁ ∧ attrs raw₂ = pre ++ a₂ :: t₂ ∧
      a₁.off = b₁.miOffset ∧ a₂.off = b₂.miOffset := by
  obtain ⟨x, hx, hxo, -⟩ := hp₁.mi_mem
  obtain ⟨y, hy, hyo, -⟩ := hp₂.mi_mem
  have hfrom : ∀ raw, ∃ s n, attrs raw = attrsFrom raw s n 20 := by
    intro raw
    rw [attrs]
    split
    · exact ⟨_, _, rfl⟩
    · exact ⟨0, 0, rfl⟩
  obtain ⟨s₁, n₁, hs₁⟩ := hfrom raw₁
  obtain ⟨s₂, n₂, hs₂⟩ := hfrom raw₂
  rw [hs₁] at hx ⊢
  rw [hs₂] at hy ⊢
  rw [← hoff]
  exact attrsFrom_agree (hagree.mono (Nat.le_add_right _ _)) (by decide) ⟨x, hx, hxo⟩
    ⟨y, hy, hyo.trans hoff.symm⟩

/-- Of two names in force, each behind or before, with the same before. -/
theorem names_agree_iff {before behind₁ behind₂ : Option String} {u v : String}
    (hu : (behind₁ <|> before) = some u) (hv : (behind₂ <|> before) = some v) :
    u = v ↔ (∀ w, behind₁ = some w → before = some w) ∧ (∀ w, behind₂ = some w → before = some w) ∨
      behind₁ = behind₂ := by
  cases behind₁ <;> cases behind₂ <;> cases before <;> simp_all
  exact eq_comm

/-- **What the code covers.** The check always comes to a result. A datagram that passes it is
answered as its bytes up to the code are exactly when it is plain. Two datagrams that pass it with
their codes at one offset, and agree up to the end of the code, have the same transaction and the
same candidate flag; they name the same users exactly when both are plain, or the same name is
directly behind both codes. -/
theorem check_covers_iff (hmac : List UInt8 → List UInt8 → List UInt8)
    (pwdOf : String → Option String) :
    (∀ raw, ∃ r, check hmac raw pwdOf = .ok r) ∧
      (∀ {raw : List UInt8} {b : Binding}, check hmac raw pwdOf = .ok (.ok b) →
        (check hmac (cut raw b.miOffset) pwdOf = .ok (.ok b) ↔ Plain raw b.miOffset)) ∧
      ∀ {raw₁ raw₂ : List UInt8} {b₁ b₂ : Binding}, check hmac raw₁ pwdOf = .ok (.ok b₁) →
        check hmac raw₂ pwdOf = .ok (.ok b₂) → b₁.miOffset = b₂.miOffset →
          Agree (b₁.miOffset + 24) raw₁ raw₂ →
            (b₁.txid = b₂.txid ∧ b₁.useCandidate = b₂.useCandidate) ∧
              ((b₁.localUfrag = b₂.localUfrag ∧ b₁.remoteUfrag = b₂.remoteUfrag) ↔
                Plain raw₁ b₁.miOffset ∧ Plain raw₂ b₂.miOffset ∨
                  nameBehind raw₁ b₁.miOffset = nameBehind raw₂ b₂.miOffset) := by
  refine ⟨fun raw => check_total hmac raw pwdOf, fun h => check_cut hmac h, ?_⟩
  intro raw₁ raw₂ b₁ b₂ h₁ h₂ hoff hagree
  have hp₁ := check_parsed hmac h₁
  have hp₂ := check_parsed hmac h₂
  obtain ⟨pre, a₁, a₂, t₁, t₂, he₁, he₂, ho₁, ho₂⟩ := hp₁.common hp₂ hoff hagree
  have hlow : 20 ≤ b₁.miOffset := ho₁ ▸ ((attrs_spec raw₁).1 a₁ (he₁ ▸ by simp)).1
  obtain ⟨-, -, -, huse₁, u, hu, hsplit₁⟩ := hp₁.split he₁ ho₁
  obtain ⟨-, -, -, huse₂, v, hv, hsplit₂⟩ := hp₂.split he₂ ho₂
  have hnames : (b₁.localUfrag = b₂.localUfrag ∧ b₁.remoteUfrag = b₂.remoteUfrag) ↔ u = v := by
    constructor
    · rintro ⟨hl, hr⟩
      rw [hl, hr] at hsplit₁
      exact splitOnce_injective hsplit₁ hsplit₂
    · rintro rfl
      obtain ⟨hl, hr⟩ := Prod.mk.inj (Option.some.inj (hsplit₁.symm.trans hsplit₂))
      exact ⟨hl, hr⟩
  obtain ⟨hbefore₁, hbehind₁⟩ := filter_split he₁ (attrs_spec raw₁).2 ho₁
  obtain ⟨hbefore₂, hbehind₂⟩ := filter_split he₂ (attrs_spec raw₂).2 ho₂
  refine ⟨⟨?_, huse₁.symm.trans huse₂⟩, ?_⟩
  · rw [hp₁.txid, hp₂.txid]
    exact slice_agree hagree (by decide) (by omega)
  · rw [hnames, Plain, Plain, nameBehind, nameBehind, nameBefore, nameBefore, hbefore₁, hbefore₂,
      hbehind₁, hbehind₂]
    exact names_agree_iff hu hv

/-- A request of `a` to `b` with a code of twenty zeros, and what follows the code. -/
def signed (len : UInt8) (tail : List UInt8) : List UInt8 :=
  [0, 1, 0, len, 0x21, 0x12, 0xa4, 0x42] ++ List.replicate 12 7 ++
    [0, 6, 0, 3, 0x61, 0x3a, 0x62, 0] ++ [0, 8, 0, 20] ++ List.replicate 20 0 ++ tail

def binding (remote : String) : Binding :=
  ⟨List.replicate 12 7, "a", remote, false, 28, List.replicate 20 0⟩

theorem check_covers_iff_signed :
    check (fun _ _ => List.replicate 20 0) (cut (signed 36 [0x80, 0x28, 0, 0]) 28)
        (fun _ => some "pw") = .ok (.ok (binding "b")) ∧
      (("a" = "a" ∧ "b" = "b") ↔
        Plain (signed 32 []) 28 ∧ Plain (signed 36 [0x80, 0x28, 0, 0]) 28 ∨
          nameBehind (signed 32 []) 28 = nameBehind (signed 36 [0x80, 0x28, 0, 0]) 28) := by
  have hbare : check (fun _ _ => List.replicate 20 0) (signed 32 []) (fun _ => some "pw") =
      .ok (.ok (binding "b")) := by decide
  have htail : check (fun _ _ => List.replicate 20 0) (signed 36 [0x80, 0x28, 0, 0])
      (fun _ => some "pw") = .ok (.ok (binding "b")) := by decide
  have hagree : Agree (28 + 24) (signed 32 []) (signed 36 [0x80, 0x28, 0, 0]) := by decide
  have hplain : Plain (signed 36 [0x80, 0x28, 0, 0]) 28 := by decide
  exact ⟨((check_covers_iff _ _).2.1 htail).2 hplain,
    ((check_covers_iff _ _).2.2 hbare htail rfl hagree).2⟩

/-- A name behind the code takes the place of the one under it. -/
theorem tail_names_user : ∃ raw₁ raw₂ b₁ b₂,
    check (fun _ _ => List.replicate 20 0) raw₁ (fun _ => some "pw") = .ok (.ok b₁) ∧
      check (fun _ _ => List.replicate 20 0) raw₂ (fun _ => some "pw") = .ok (.ok b₂) ∧
        b₁.miOffset = b₂.miOffset ∧ Agree (b₁.miOffset + 24) raw₁ raw₂ ∧
          b₁.remoteUfrag ≠ b₂.remoteUfrag :=
  ⟨signed 32 [], signed 40 [0, 6, 0, 3, 0x61, 0x3a, 0x63, 0], binding "b", binding "c",
    by decide, by decide, rfl, by decide, by decide⟩

end OxlensSfu.Stun
