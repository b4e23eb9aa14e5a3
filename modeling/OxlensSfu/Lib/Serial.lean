import Mathlib.Data.BitVec
import Mathlib.Tactic

/-!
# Serial numbers

Numbers that wrap, compared by the sign of their difference: `a` is after `b` when `a` lies in
the half circle that starts behind `b`. `serialAfter_iff` and `serialAfter_eq_false_iff` say which
numbers these are, counted from `b` and counted from `a`, at every width.
-/

namespace OxlensSfu

variable {w : Nat}

/-- `a` is after `b`. -/
def serialAfter (a b : BitVec w) : Bool := 0 < (a - b).toInt

/-- Moving both numbers along the circle changes nothing. -/
@[simp] theorem serialAfter_add_right (a b c : BitVec w) :
    serialAfter (a + c) (b + c) = serialAfter a b := by
  rw [serialAfter, serialAfter, add_sub_add_right_eq_sub]

theorem ofInt_sub_ofInt (x y : ℤ) :
    BitVec.ofInt w x - BitVec.ofInt w y = BitVec.ofInt w (x - y) := by
  rw [sub_eq_add_neg, sub_eq_add_neg, BitVec.ofInt_add, BitVec.ofInt_neg]

/-- Of numbers that are the ends of counters, less than half a circle apart, the one after the
other is the one whose counter is ahead. -/
theorem serialAfter_ofInt {x y : ℤ} (hle : -2 ^ w ≤ (x - y) * 2) (hlt : (x - y) * 2 < 2 ^ w) :
    serialAfter (BitVec.ofInt w x) (BitVec.ofInt w y) = true ↔ y < x := by
  have hint : (BitVec.ofInt w (x - y)).toInt = x - y := by
    rw [BitVec.toInt_ofInt]
    exact Int.bmod_eq_of_le_mul_two (by exact_mod_cast hle) (by exact_mod_cast hlt)
  rw [serialAfter, decide_eq_true_iff, ofInt_sub_ofInt, hint, sub_pos]

/-- The numbers after `b` are those less than half a circle ahead of it. -/
theorem serialAfter_iff (a b : BitVec w) :
    serialAfter a b = true ↔ 0 < (a - b).toNat ∧ 2 * (a - b).toNat < 2 ^ w := by
  have hlt := (a - b).isLt
  rw [serialAfter, decide_eq_true_iff, BitVec.toInt_eq_toNat_cond]
  split_ifs with h
  · refine ⟨?_, ?_⟩
    · intro hpos
      exact ⟨by omega, h⟩
    · intro hpos
      omega
  · refine ⟨?_, ?_⟩
    · intro hpos
      omega
    · intro hpos
      exact absurd hpos.2 h

theorem toNat_sub_comm (a b : BitVec w) (h : a ≠ b) :
    (a - b).toNat + (b - a).toNat = 2 ^ w := by
  have ha := a.isLt
  have hb := b.isLt
  have hne : a.toNat ≠ b.toNat := fun e => h (BitVec.eq_of_toNat_eq e)
  rcases Nat.lt_or_gt_of_ne hne with hlt | hlt
  · rw [BitVec.toNat_sub_of_lt (BitVec.lt_def.2 hlt),
      BitVec.toNat_sub_of_le (BitVec.le_def.2 hlt.le)]
    omega
  · rw [BitVec.toNat_sub_of_lt (BitVec.lt_def.2 hlt),
      BitVec.toNat_sub_of_le (BitVec.le_def.2 hlt.le)]
    omega

/-- The numbers that `a` is not after: those up to half a circle ahead of `a`. -/
theorem serialAfter_eq_false_iff (a b : BitVec w) :
    serialAfter a b = false ↔ 2 * (b - a).toNat ≤ 2 ^ w := by
  rw [← Bool.not_eq_true, serialAfter_iff]
  by_cases h : a = b
  · subst h
    simp
  · have hsum := toNat_sub_comm a b h
    have hpos : (a - b).toNat ≠ 0 := by
      intro h0
      have := (b - a).isLt
      omega
    omega

end OxlensSfu
