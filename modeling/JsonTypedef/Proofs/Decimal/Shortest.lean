import JsonTypedef.Decimal.Shortest
import JsonTypedef.Proofs.Decimal.Magnitude

/-!
# Shortest decimals round back

The grid of the sixteenth digit behind the leading one is finer than the
distance from a magnitude to the next one below, so that its point nearest to
the magnitude lies between the midpoints.  The search for the shortest decimal
gets to this grid at last, and what it finds rounds to the magnitude.
-/

namespace JsonTypedef
namespace Decimal

open Magnitude (units RoundsTo)

/-- The value of a decimal. -/
def value (d : Decimal) : ℚ :=
  d.digits * 10 ^ d.exponent

/-! ## Powers of ten -/

theorem cast_natPow_ten (k : ℕ) : ((Nat.pow 10 k : ℕ) : ℚ) = 10 ^ k := by
  rw [Nat.pow_eq, Nat.cast_pow, Nat.cast_ofNat]

theorem stepDen_pos (e : ℤ) : 0 < stepDen e :=
  Nat.pow_pos (by decide)

theorem stepNum_pos (e : ℤ) : 0 < stepNum e :=
  Nat.pow_pos (by decide)

/-- The fraction that stands for a step is the power of ten. -/
theorem stepNum_div_stepDen (e : ℤ) :
    (stepNum e : ℚ) / stepDen e = 10 ^ e := by
  rw [stepNum, stepDen, cast_natPow_ten, cast_natPow_ten, ← zpow_natCast,
    ← zpow_natCast, ← zpow_sub₀ (by norm_num)]
  congr 1
  omega

theorem lt_pow_width (n : ℕ) : n < 10 ^ width n :=
  (Nat.length_toDigits_le_iff (by decide) Nat.length_toDigits_pos).mp le_rfl

theorem pow_width_le {n : ℕ} (hn : 0 < n) : 10 ^ (width n - 1) ≤ n := by
  by_cases hone : width n = 1
  · rw [hone]
    exact hn
  · by_contra hlt
    have hpos : 0 < width n := Nat.length_toDigits_pos
    have hle : width n ≤ width n - 1 :=
      (Nat.length_toDigits_le_iff (by decide) (by omega)).mpr
        (Nat.lt_of_not_le hlt)
    omega

/-! ## Points that read back -/

/-- A point reads back as the magnitude that it rounds to. -/
theorem readsBack_iff {r n : ℕ} {e : ℤ} (hr : 0 < r) :
    readsBack r n e = true ↔
      RoundsTo r ((n : ℚ) * 10 ^ e * unitsPerOne) := by
  have hpoint : (n : ℚ) * 10 ^ e * unitsPerOne =
      (n * stepNum e * unitsPerOne : ℕ) / (stepDen e : ℚ) := by
    rw [← stepNum_div_stepDen]
    push_cast
    ring
  have htwice : n * stepNum e * (2 * unitsPerOne) =
      2 * (n * stepNum e * unitsPerOne) := by
    ring
  rw [hpoint, Magnitude.roundsTo_div_iff (stepDen_pos e), readsBack, htwice]
  by_cases heven : r % 2 = 0
  · rw [if_pos heven, Bool.and_eq_true, decide_eq_true_eq, decide_eq_true_eq]
    constructor
    · rintro ⟨hlow, hhigh⟩
      exact ⟨hr, hlow, hhigh, fun hodd => by omega⟩
    · rintro ⟨-, hlow, hhigh, -⟩
      exact ⟨hlow, hhigh⟩
  · rw [if_neg heven, Bool.and_eq_true, decide_eq_true_eq, decide_eq_true_eq]
    constructor
    · rintro ⟨hlow, hhigh⟩
      exact ⟨hr, hlow.le, hhigh.le, fun _ => ⟨hlow.ne, hhigh.ne⟩⟩
    · rintro ⟨-, hlow, hhigh, hodd⟩
      obtain ⟨hne, hne'⟩ := hodd (by omega)
      exact ⟨lt_of_le_of_ne hlow hne, lt_of_le_of_ne hhigh hne'⟩

/-- On a grid with more than `2 ^ 53` steps below a magnitude the nearest point
rounds to the magnitude. -/
theorem roundsTo_of_fine {r n : ℕ} {t : ℚ} (hr : 0 < r)
    (hfine : 10 ^ 16 * t ≤ units r) (hlow : 2 * (n * t) ≤ 2 * units r + t)
    (hhigh : 2 * (units r : ℚ) ≤ 2 * (n * t) + t) : RoundsTo r (n * t) := by
  obtain ⟨k, rfl⟩ := Nat.exists_eq_succ_of_ne_zero hr.ne'
  obtain ⟨o, hstep, hle, hnext⟩ := Magnitude.exists_step k
  have hstep : (units (k + 1) : ℚ) = units k + 2 ^ o := by exact_mod_cast hstep
  have hle : (units (k + 1) : ℚ) ≤ 2 ^ 53 * 2 ^ o := by exact_mod_cast hle
  have hnext : (units (k + 1) + 2 ^ o : ℚ) ≤ units (k + 2) := by
    exact_mod_cast hnext
  have hpos : (0 : ℚ) < 2 ^ o := by positivity
  have hwidth : t < 2 ^ o := by
    have hscaled : 10 ^ 16 * t < 10 ^ 16 * 2 ^ o := by
      calc 10 ^ 16 * t ≤ 2 ^ 53 * 2 ^ o := hfine.trans hle
        _ < 10 ^ 16 * 2 ^ o := by
          have hlt : (2 : ℚ) ^ 53 < 10 ^ 16 := by norm_num
          exact mul_lt_mul_of_pos_right hlt hpos
    exact lt_of_mul_lt_mul_left hscaled (by norm_num)
  have hprevious : k + 1 - 1 = k := Nat.add_sub_cancel k 1
  refine ⟨hr, ?_, ?_, fun _ => ⟨?_, ?_⟩⟩
  · rw [Nat.succ_eq_add_one, hprevious]
    linarith
  · linarith
  · rw [Nat.succ_eq_add_one, hprevious]
    apply ne_of_lt
    linarith
  · apply ne_of_lt
    linarith

/-- The nearest point of a grid is at most half a step away. -/
theorem nearestPoint_spec {r best : ℕ} {e : ℤ}
    (hbest : divNearestEven (units r * stepDen e) (unitsPerOne * stepNum e) =
      best) :
    2 * (best * (10 ^ e * unitsPerOne) : ℚ) ≤
        2 * units r + 10 ^ e * unitsPerOne ∧
      2 * (units r : ℚ) ≤
        2 * (best * (10 ^ e * unitsPerOne)) + 10 ^ e * unitsPerOne := by
  have hunits : 0 < unitsPerOne * stepNum e :=
    Nat.mul_pos (by exact_mod_cast unitsPerOne_pos) (stepNum_pos e)
  obtain ⟨hlow, hhigh⟩ :=
    @divNearestEven_spec (units r * stepDen e) _ hunits
  rw [hbest] at hlow hhigh
  have hden : (0 : ℚ) < stepDen e := by exact_mod_cast stepDen_pos e
  have hlow : 2 * (best * (unitsPerOne * stepNum e) : ℚ) ≤
      2 * (units r * stepDen e) + unitsPerOne * stepNum e := by
    exact_mod_cast hlow
  have hhigh : 2 * (units r * stepDen e : ℚ) ≤
      2 * (best * (unitsPerOne * stepNum e)) + unitsPerOne * stepNum e := by
    exact_mod_cast hhigh
  rw [← stepNum_div_stepDen]
  generalize (unitsPerOne : ℚ) = one at *
  have hstep : (stepNum e : ℚ) / stepDen e * one * stepDen e =
      one * stepNum e := by
    rw [mul_right_comm, div_mul_cancel₀ _ hden.ne', mul_comm]
  generalize (stepNum e : ℚ) / stepDen e * one = step at *
  rw [← hstep] at hlow hhigh
  constructor
  · refine le_of_mul_le_mul_right ?_ hden
    linarith
  · refine le_of_mul_le_mul_right ?_ hden
    linarith

/-! ## The search -/

theorem readsBack_of_onGrid? {r n : ℕ} {e : ℤ} (h : onGrid? r e = some n) :
    readsBack r n e = true := by
  unfold onGrid? at h
  dsimp only at h
  split at h
  next hback =>
    rw [← Option.some.inj h]
    exact hback
  next =>
    split at h
    next hback =>
      rw [← Option.some.inj h]
      exact hback
    next =>
      split at h
      next hback =>
        rw [← Option.some.inj h]
        exact hback
      next => cases h

/-- The search finds a decimal that reads back if it gets to a grid whose
nearest point does. -/
theorem readsBack_search {r tries : ℕ} :
    ∀ {e : ℤ} {j : ℕ}, j < tries → (onGrid? r (e - j)).isSome →
      readsBack r (search r tries e).digits (search r tries e).exponent =
        true := by
  induction tries with
  | zero => exact fun hj => absurd hj (Nat.not_lt_zero _)
  | succ tries ih =>
      intro e j hj hgrid
      rw [search]
      cases hfirst : onGrid? r e with
      | some n => exact readsBack_of_onGrid? hfirst
      | none =>
          cases j with
          | zero =>
              rw [Nat.cast_zero, sub_zero, hfirst] at hgrid
              cases hgrid
          | succ j =>
              apply ih (Nat.lt_of_succ_lt_succ hj)
              have hplace : e - ((j + 1 : ℕ) : ℤ) = e - 1 - j := by omega
              rwa [hplace] at hgrid

theorem unitsPerOne_le : (unitsPerOne : ℚ) ≤ 10 ^ 400 := by
  rw [unitsPerOne_eq]
  calc (2 : ℚ) ^ 1074 ≤ 2 ^ (3 * 400) :=
        pow_le_pow_right₀ (by norm_num) (by norm_num)
    _ = (2 ^ 3) ^ 400 := pow_mul 2 3 400
    _ ≤ 10 ^ 400 := pow_le_pow_left₀ (by norm_num) (by norm_num) 400

/-- The exponent of the leading digit shows in the width of the whole part of
the magnitude, once it is scaled up far enough to have one. -/
theorem zpow_width_le {r k : ℕ} (hr : 0 < r)
    (hscale : (unitsPerOne : ℚ) ≤ 10 ^ k) :
    (10 : ℚ) ^ ((width (units r * Nat.pow 10 k / unitsPerOne) : ℤ) - (k + 1)) *
      unitsPerOne ≤ units r := by
  have hunits : 0 < unitsPerOne := by exact_mod_cast unitsPerOne_pos
  rw [← cast_natPow_ten] at hscale
  have hle : unitsPerOne ≤ Nat.pow 10 k := by exact_mod_cast hscale
  have hpos : 0 < units r * Nat.pow 10 k / unitsPerOne :=
    Nat.div_pos (hle.trans (Nat.le_mul_of_pos_left _ (Magnitude.units_pos hr)))
      hunits
  have hone : 0 < width (units r * Nat.pow 10 k / unitsPerOne) :=
    Nat.length_toDigits_pos
  have hwidth := pow_width_le hpos
  obtain ⟨w, hw⟩ := Nat.exists_eq_succ_of_ne_zero hone.ne'
  rw [hw, Nat.succ_sub_one] at hwidth
  have hexponent : ((w.succ : ℕ) : ℤ) - (k + 1) = w - k := by
    rw [Nat.succ_eq_add_one, Nat.cast_add, Nat.cast_one]
    exact add_sub_add_right_eq_sub _ _ _
  have hscaled : 10 ^ w * unitsPerOne ≤ units r * Nat.pow 10 k :=
    (Nat.le_div_iff_mul_le hunits).mp hwidth
  have hscaled : (10 : ℚ) ^ w * unitsPerOne ≤ units r * (Nat.pow 10 k : ℕ) := by
    exact_mod_cast hscaled
  rw [hw, hexponent, zpow_sub₀ (by norm_num), zpow_natCast, zpow_natCast,
    div_mul_eq_mul_div, div_le_iff₀ (by positivity), ← cast_natPow_ten k]
  exact hscaled

/-- The leading digit of a magnitude stands no higher than at its exponent. -/
theorem leadingExponent_le {r : ℕ} (hr : 0 < r) :
    (10 : ℚ) ^ leadingExponent r * unitsPerOne ≤ units r := by
  have hle := @zpow_width_le r 400 hr unitsPerOne_le
  have hplace : ((400 : ℕ) : ℤ) + 1 = 401 := rfl
  rwa [hplace] at hle

theorem isSome_onGrid? {r : ℕ} (hr : 0 < r) :
    (onGrid? r (leadingExponent r + 1 - (17 : ℕ))).isSome := by
  have hback : readsBack r (divNearestEven
      (units r * stepDen (leadingExponent r + 1 - (17 : ℕ)))
      (unitsPerOne * stepNum (leadingExponent r + 1 - (17 : ℕ))))
      (leadingExponent r + 1 - (17 : ℕ)) = true := by
    rw [readsBack_iff hr, mul_assoc]
    obtain ⟨hlow, hhigh⟩ := @nearestPoint_spec r _ _ rfl
    refine roundsTo_of_fine hr ?_ hlow hhigh
    have hten : (10 : ℚ) ^ leadingExponent r =
        10 ^ 16 * 10 ^ (leadingExponent r + 1 - (17 : ℕ)) := by
      rw [← zpow_natCast, ← zpow_add₀ (by norm_num)]
      congr 1
      omega
    rw [← mul_assoc, ← hten]
    exact leadingExponent_le hr
  rw [onGrid?, if_pos hback]
  rfl

/-- The shortest decimal of a positive magnitude rounds to the magnitude. -/
theorem roundsTo_shortest {r : ℕ} (hr : 0 < r) :
    RoundsTo r ((shortest r).value * unitsPerOne) :=
  (readsBack_iff hr).mp
    (readsBack_search (by decide) (isSome_onGrid? hr))

end Decimal
end JsonTypedef
