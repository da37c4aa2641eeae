import JsonTypedef.Json.Number
import Mathlib.Algebra.Order.Field.Basic
import Mathlib.Data.Rat.Cast.Order
import Mathlib.Tactic.NormNum
import Mathlib.Tactic.Ring

/-!
# Exact values of numbers

The exact value of a number is a rational.  That of a double is read off the
fields of its binary64 pattern, of which the rank holds all bits but the sign.
Counting in units of `2 ^ (-1074)` agrees with it.
-/

namespace JsonTypedef

theorem cast_natPow_two (k : ℕ) : ((Nat.pow 2 k : ℕ) : ℚ) = 2 ^ k := by
  rw [Nat.pow_eq, Nat.cast_pow, Nat.cast_ofNat]

theorem unitsPerOne_eq : (unitsPerOne : ℚ) = 2 ^ 1074 :=
  cast_natPow_two 1074

theorem unitsPerOne_pos : (0 : ℚ) < unitsPerOne := by
  rw [unitsPerOne_eq]
  exact pow_pos (by norm_num) 1074

namespace Double

/-- The exponent field of the pattern. -/
def exponent (d : Double) : ℕ :=
  d.rank / 2 ^ 52

/-- The fraction field of the pattern. -/
def fraction (d : Double) : ℕ :=
  d.rank % 2 ^ 52

/-- The exact value of a subnormal or a normal number. -/
def exact (d : Double) : ℚ :=
  (if d.negative then -1 else 1) *
    if d.exponent = 0 then (d.fraction : ℚ) * 2 ^ (-1074 : ℤ)
    else (2 ^ 52 + d.fraction : ℚ) * 2 ^ ((d.exponent : ℤ) - 1075)

theorem units_of_exponent_zero {d : Double} (h : d.exponent = 0) :
    Magnitude.units d.rank = d.fraction := by
  have hlt : d.rank < 2 ^ 52 := by
    unfold exponent at h
    omega
  rw [Magnitude.units, if_pos (by unfold Magnitude.perOctave; omega), fraction,
    Nat.mod_eq_of_lt hlt]

theorem units_of_exponent_succ {d : Double} {e : ℕ} (h : d.exponent = e + 1) :
    Magnitude.units d.rank = (2 ^ 52 + d.fraction) * 2 ^ e := by
  have hrank := Nat.div_add_mod d.rank (2 ^ 52)
  change 2 ^ 52 * d.exponent + d.fraction = d.rank at hrank
  unfold Magnitude.units Magnitude.perOctave
  split
  next hlt =>
    -- the first octave of normal numbers lies as densely as the subnormal ones
    obtain rfl : e = 0 := by omega
    omega
  next =>
    have hexponent : d.rank / 0x10000000000000 = e + 1 := h
    have hfraction : d.rank % 0x10000000000000 = d.fraction := rfl
    rw [hexponent, hfraction, Nat.add_sub_cancel, Nat.pow_eq]
    norm_num

theorem two_zpow_exponent (e : ℕ) :
    (2 : ℚ) ^ (((e + 1 : ℕ) : ℤ) - 1075) * unitsPerOne = 2 ^ e := by
  have htwo : (2 : ℚ) ≠ 0 := by norm_num
  rw [unitsPerOne_eq, ← zpow_natCast, ← zpow_add₀ htwo, ← zpow_natCast]
  congr 1
  omega

theorem units_magnitude (d : Double) :
    (Magnitude.units d.rank : ℚ) =
      (if d.exponent = 0 then (d.fraction : ℚ) * 2 ^ (-1074 : ℤ)
        else (2 ^ 52 + d.fraction : ℚ) * 2 ^ ((d.exponent : ℤ) - 1075)) *
      unitsPerOne := by
  cases hexponent : d.exponent with
  | zero =>
      have hunit : (2 : ℚ) ^ (-1074 : ℤ) * unitsPerOne = 1 :=
        two_zpow_exponent 0
      rw [units_of_exponent_zero hexponent, if_pos rfl, mul_assoc, hunit,
        mul_one]
  | succ e =>
      rw [units_of_exponent_succ hexponent, if_neg (Nat.succ_ne_zero e),
        mul_assoc, two_zpow_exponent]
      push_cast
      ring

theorem units_eq (d : Double) : (d.units : ℚ) = d.exact * unitsPerOne := by
  rw [exact, mul_assoc, ← units_magnitude, units]
  cases d.negative with
  | true => simp
  | false => simp

end Double

namespace Number

/-- The exact value of a number. -/
def exact : Number → ℚ
  | .int n _ => n
  | .float d => d.exact

theorem units_eq (n : Number) : (n.units : ℚ) = n.exact * unitsPerOne := by
  cases n with
  | int n _ => rw [units, exact, Int.cast_mul, Int.cast_natCast]
  | float d => exact d.units_eq

theorem isIntegral_iff_dvd {n : Number} :
    n.isIntegral = true ↔ (unitsPerOne : ℤ) ∣ n.units := by
  cases n with
  | int n _ => exact ⟨fun _ => Dvd.intro_left n rfl, fun _ => rfl⟩
  | float d =>
      rw [isIntegral, Double.isIntegral, decide_eq_true_eq]
      exact Int.dvd_iff_emod_eq_zero.symm

/-- A number is whole exactly when its exact value is an integer. -/
theorem isIntegral_iff {n : Number} :
    n.isIntegral = true ↔ ∃ z : ℤ, n.exact = z := by
  rw [isIntegral_iff_dvd]
  constructor
  · rintro ⟨z, hz⟩
    refine ⟨z, mul_right_cancel₀ unitsPerOne_pos.ne' ?_⟩
    rw [← units_eq, hz]
    push_cast
    ring
  · rintro ⟨z, hz⟩
    refine ⟨z, ?_⟩
    have hunits := n.units_eq
    rw [hz] at hunits
    have hcast : (n.units : ℚ) = ((unitsPerOne * z : ℤ) : ℚ) := by
      rw [hunits]
      push_cast
      ring
    exact_mod_cast hcast

theorem units_le_iff {n : Number} {z : ℤ} :
    n.units ≤ z * (unitsPerOne : ℤ) ↔ n.exact ≤ z := by
  rw [← mul_le_mul_iff_of_pos_right unitsPerOne_pos, ← units_eq]
  exact_mod_cast Iff.rfl

theorem le_units_iff {n : Number} {z : ℤ} :
    z * (unitsPerOne : ℤ) ≤ n.units ↔ (z : ℚ) ≤ n.exact := by
  rw [← mul_le_mul_iff_of_pos_right unitsPerOne_pos, ← units_eq]
  exact_mod_cast Iff.rfl

theorem isWithin_iff {n : Number} {low high : ℤ} :
    n.isWithin low high = true ↔ (low : ℚ) ≤ n.exact ∧ n.exact ≤ high := by
  rw [isWithin, Bool.and_eq_true, decide_eq_true_eq, decide_eq_true_eq,
    le_units_iff, units_le_iff]

end Number
end JsonTypedef
