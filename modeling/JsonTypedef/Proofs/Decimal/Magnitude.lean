import JsonTypedef.Proofs.Json.Exact
import Mathlib.Order.Monotone.Basic
import Mathlib.Tactic.Linarith

/-!
# Rounding to magnitudes

A magnitude is `m * 2 ^ o` units, and its rank is `o * 2 ^ 52 + m`.
`Magnitude.RoundsTo` says that a number of units lies between the midpoints to
the neighbouring magnitudes, and `Magnitude.nearest` finds the rank to which its
argument rounds.
-/

namespace JsonTypedef

/-! ## Division rounded to the nearest -/

theorem divNearestEven_spec {n d : ℕ} (hd : 0 < d) :
    2 * (divNearestEven n d * d) ≤ 2 * n + d ∧
      2 * n ≤ 2 * (divNearestEven n d * d) + d := by
  have hdiv := Nat.div_add_mod n d
  have hmod := Nat.mod_lt n hd
  rw [Nat.mul_comm] at hdiv
  unfold divNearestEven
  dsimp only
  split
  next => omega
  next =>
    split
    next =>
      rw [Nat.add_mul]
      omega
    next =>
      split
      next => omega
      next =>
        rw [Nat.add_mul]
        omega

/-- A quotient rounds to `m` if it lies no further than a half from it, and
closer if `m` is odd. -/
theorem divNearestEven_eq {n d m : ℕ} (hd : 0 < d)
    (hlow : 2 * (m * d) ≤ 2 * n + d) (hhigh : 2 * n ≤ 2 * (m * d) + d)
    (hodd : m % 2 = 1 → 2 * (m * d) ≠ 2 * n + d ∧ 2 * n ≠ 2 * (m * d) + d) :
    divNearestEven n d = m := by
  have hdiv := Nat.div_add_mod n d
  have hmod := Nat.mod_lt n hd
  rw [Nat.mul_comm] at hdiv
  have hle : m ≤ n / d + 1 := by
    by_contra hgt
    have hmul : (n / d + 2) * d ≤ m * d := Nat.mul_le_mul_right d (by omega)
    rw [Nat.add_mul] at hmul
    omega
  have hge : n / d ≤ m := by
    by_contra hlt
    have hmul : (m + 1) * d ≤ n / d * d := Nat.mul_le_mul_right d (by omega)
    rw [Nat.add_mul] at hmul
    omega
  obtain rfl | rfl : m = n / d ∨ m = n / d + 1 := by omega
  · unfold divNearestEven
    dsimp only
    split
    next => rfl
    next =>
      split
      next => omega
      next =>
        split
        next => rfl
        next => omega
  · rw [Nat.add_mul] at hlow hhigh hodd
    unfold divNearestEven
    dsimp only
    split
    next => omega
    next =>
      split
      next => rfl
      next =>
        split
        next => omega
        next => rfl

namespace Magnitude

/-! ## Octaves -/

/-- The magnitudes of an octave are the multiples of a power of two; those up to
the first power come before the first octave as well. -/
theorem units_octave {o m : ℕ} (hm : m ≤ 2 * perOctave)
    (ho : o = 0 ∨ perOctave ≤ m) : units (o * perOctave + m) = m * 2 ^ o := by
  unfold units
  by_cases hsmall : o * perOctave + m < 2 * perOctave
  · rw [if_pos hsmall]
    obtain rfl : o = 0 := by
      unfold perOctave at *
      omega
    simp
  · rw [if_neg hsmall, Nat.pow_eq]
    by_cases hlast : m = 2 * perOctave
    · have hdiv : (o * perOctave + m) / perOctave = o + 2 := by
        unfold perOctave at *
        omega
      have hmod : (o * perOctave + m) % perOctave = 0 := by
        unfold perOctave at *
        omega
      rw [hdiv, hmod, hlast, Nat.add_zero, Nat.add_sub_assoc (by decide),
        Nat.pow_add]
      ring
    · have hdiv : (o * perOctave + m) / perOctave = o + 1 := by
        unfold perOctave at *
        omega
      have hmod : (o * perOctave + m) % perOctave = m - perOctave := by
        unfold perOctave at *
        omega
      have hge : perOctave ≤ m := by
        unfold perOctave at *
        omega
      rw [hdiv, hmod, Nat.add_sub_cancel, Nat.add_sub_cancel' hge]

/-- A rank is that of a multiple of a power of two in some octave, followed by
the next multiple. -/
theorem exists_octave (r : ℕ) :
    ∃ o m, r = o * perOctave + m ∧ m < 2 * perOctave ∧
      (o = 0 ∨ perOctave ≤ m) := by
  refine ⟨r / perOctave - 1, r - (r / perOctave - 1) * perOctave, ?_⟩
  unfold perOctave
  omega

theorem exists_step (r : ℕ) :
    ∃ o, units (r + 1) = units r + 2 ^ o ∧ units (r + 1) ≤ 2 ^ 53 * 2 ^ o ∧
      units (r + 1) + 2 ^ o ≤ units (r + 2) := by
  obtain ⟨o, m, rfl, hm, ho⟩ := exists_octave r
  have hfirst := units_octave hm.le ho
  have hsecond : units (o * perOctave + (m + 1)) = (m + 1) * 2 ^ o :=
    units_octave hm (by omega)
  refine ⟨o, ?_, ?_, ?_⟩
  · rw [Nat.add_assoc, hfirst, hsecond]
    ring
  · rw [Nat.add_assoc, hsecond]
    exact Nat.mul_le_mul_right _ hm
  · rw [Nat.add_assoc, Nat.add_assoc, hsecond]
    by_cases hlast : m + 1 = 2 * perOctave
    · -- the last step of an octave is followed by one of twice its width
      have hnext : o * perOctave + (m + 2) =
          (o + 1) * perOctave + (perOctave + 1) := by
        rw [Nat.add_mul]
        omega
      have hle : perOctave + 1 ≤ 2 * perOctave := by decide
      rw [hnext, units_octave hle (Or.inr (Nat.le_succ _)), hlast, Nat.pow_succ]
      have hpos := Nat.two_pow_pos o
      nlinarith
    · rw [units_octave (by omega) (by omega)]
      apply le_of_eq
      ring

theorem units_strictMono : StrictMono units := by
  apply strictMono_nat_of_lt_succ
  intro r
  obtain ⟨o, ho, -⟩ := exists_step r
  rw [ho]
  exact Nat.lt_add_of_pos_right (Nat.two_pow_pos o)

theorem units_pos {r : ℕ} (hr : 0 < r) : 0 < units r :=
  Nat.zero_lt_of_lt (units_strictMono hr)

theorem units_infinity : units infinity = perOctave * 2 ^ 2046 := by
  have hinfinity : infinity = 2046 * perOctave + perOctave := rfl
  have hle : perOctave ≤ 2 * perOctave := by decide
  rw [hinfinity, units_octave hle (Or.inr le_rfl)]

/-! ## Rounding -/

/-- A number of units rounds to the magnitude of a positive rank: it lies
between the midpoints to the neighbouring magnitudes, and on none of them if the
rank is odd. -/
structure RoundsTo (r : ℕ) (x : ℚ) : Prop where
  pos : 0 < r
  low : (units (r - 1) + units r : ℚ) ≤ 2 * x
  high : 2 * x ≤ units r + units (r + 1)
  odd : r % 2 = 1 → (units (r - 1) + units r : ℚ) ≠ 2 * x ∧
    2 * x ≠ units r + units (r + 1)

theorem RoundsTo.one_le {r : ℕ} {x : ℚ} (h : RoundsTo r x) : 1 ≤ 2 * x := by
  have hunits : (1 : ℚ) ≤ units r := by exact_mod_cast units_pos h.pos
  have hbelow : (0 : ℚ) ≤ units (r - 1) := Nat.cast_nonneg _
  have hlow := h.low
  linarith

theorem RoundsTo.le_infinity {r : ℕ} {x : ℚ} (h : RoundsTo r x)
    (hr : r < infinity) : x ≤ units infinity := by
  have hfirst : (units r : ℚ) ≤ units infinity :=
    Nat.cast_le.mpr (units_strictMono.monotone hr.le)
  have hsecond : (units (r + 1) : ℚ) ≤ units infinity :=
    Nat.cast_le.mpr (units_strictMono.monotone hr)
  have hhigh := h.high
  linarith

theorem roundsTo_div_iff {r n d : ℕ} (hd : 0 < d) :
    RoundsTo r ((n : ℚ) / d) ↔ 0 < r ∧
      (units (r - 1) + units r) * d ≤ 2 * n ∧
      2 * n ≤ (units r + units (r + 1)) * d ∧
      (r % 2 = 1 → (units (r - 1) + units r) * d ≠ 2 * n ∧
        2 * n ≠ (units r + units (r + 1)) * d) := by
  have hpos : (0 : ℚ) < d := by exact_mod_cast hd
  have hx : 2 * ((n : ℚ) / d) = (2 * n : ℕ) / (d : ℚ) := by
    push_cast
    ring
  have hlow : ∀ k l : ℕ, ((k : ℚ) + l ≤ 2 * ((n : ℚ) / d) ↔
      (k + l) * d ≤ 2 * n) := by
    intro k l
    rw [hx, le_div_iff₀ hpos]
    exact_mod_cast Iff.rfl
  have hhigh : ∀ k l : ℕ, (2 * ((n : ℚ) / d) ≤ (k : ℚ) + l ↔
      2 * n ≤ (k + l) * d) := by
    intro k l
    rw [hx, div_le_iff₀ hpos]
    exact_mod_cast Iff.rfl
  have heq : ∀ k l : ℕ, ((k : ℚ) + l = 2 * ((n : ℚ) / d) ↔
      (k + l) * d = 2 * n) := by
    intro k l
    rw [hx, eq_div_iff hpos.ne']
    exact_mod_cast Iff.rfl
  constructor
  · intro h
    refine ⟨h.pos, (hlow _ _).mp h.low, (hhigh _ _).mp h.high, fun hodd => ?_⟩
    obtain ⟨hne, hne'⟩ := h.odd hodd
    exact ⟨fun h => hne ((heq _ _).mpr h),
      fun h => hne' ((heq _ _).mpr h.symm).symm⟩
  · rintro ⟨hr, hl, hh, hne⟩
    refine ⟨hr, (hlow _ _).mpr hl, (hhigh _ _).mpr hh, fun hodd => ?_⟩
    obtain ⟨hne, hne'⟩ := hne hodd
    exact ⟨fun h => hne ((heq _ _).mp h),
      fun h => hne' ((heq _ _).mp h.symm).symm⟩

/-- The shift brings a quotient into an octave, or leaves it below the first
power of two. -/
theorem shift_spec {n d : ℕ} (hd : 0 < d) :
    n < 2 * perOctave * 2 ^ ((n / d).log2 - 52) * d ∧
      ((n / d).log2 - 52 = 0 ∨
        perOctave * 2 ^ ((n / d).log2 - 52) * d ≤ n) := by
  have hperOctave : perOctave = 2 ^ 52 := rfl
  have hlt := Nat.lt_log2_self (n := n / d)
  constructor
  · have hpow : 2 ^ ((n / d).log2 + 1) ≤
        2 * perOctave * 2 ^ ((n / d).log2 - 52) := by
      rw [hperOctave, ← Nat.pow_succ', ← Nat.pow_add]
      exact Nat.pow_le_pow_right (by decide) (by omega)
    exact (Nat.div_lt_iff_lt_mul hd).mp (hlt.trans_le hpow)
  · by_cases hlog : (n / d).log2 ≤ 52
    · left
      omega
    · right
      have hne : n / d ≠ 0 := by
        intro hzero
        rw [hzero] at hlog
        exact hlog (by decide)
      have hle := Nat.log2_self_le hne
      have hpow : perOctave * 2 ^ ((n / d).log2 - 52) = 2 ^ (n / d).log2 := by
        rw [hperOctave, ← Nat.pow_add]
        congr 1
        omega
      rw [hpow]
      exact (Nat.le_div_iff_mul_le hd).mp hle

section

variable {r n den s : ℕ}

/-- A quotient in an octave rounds to a magnitude of that octave or to the first
one behind it, for otherwise a midpoint would separate them. -/
theorem octave_of_roundsTo (hden : 0 < den) (h : RoundsTo r ((n : ℚ) / den))
    (hlt : n < 2 * perOctave * 2 ^ s * den)
    (hge : s = 0 ∨ perOctave * 2 ^ s * den ≤ n) :
    ∃ m, r = s * perOctave + m ∧ m ≤ 2 * perOctave ∧
      (s = 0 ∨ perOctave ≤ m) := by
  obtain ⟨-, hlow, hhigh, -⟩ := (roundsTo_div_iff hden).mp h
  have habove : r ≤ s * perOctave + 2 * perOctave := by
    by_contra hgt
    have hlast :
        units (s * perOctave + 2 * perOctave) = 2 * perOctave * 2 ^ s :=
      units_octave le_rfl (Or.inr (by decide))
    have hfirst : units (s * perOctave + 2 * perOctave) ≤ units (r - 1) :=
      units_strictMono.monotone (by omega)
    have hsecond : units (s * perOctave + 2 * perOctave) ≤ units r :=
      units_strictMono.monotone (by omega)
    have hmul := Nat.mul_le_mul_right den (Nat.add_le_add hfirst hsecond)
    rw [hlast, Nat.add_mul] at hmul
    omega
  have hbelow : s = 0 ∨ s * perOctave + perOctave ≤ r := by
    refine hge.imp_right fun hge => ?_
    by_contra hgt
    have hpower : units (s * perOctave + perOctave) = perOctave * 2 ^ s :=
      units_octave (by decide) (Or.inr le_rfl)
    have hfirst : units r < units (s * perOctave + perOctave) :=
      units_strictMono (by omega)
    have hsecond : units (r + 1) ≤ units (s * perOctave + perOctave) :=
      units_strictMono.monotone (by omega)
    have hmul := Nat.mul_lt_mul_of_pos_right
      (Nat.add_lt_add_of_lt_of_le hfirst hsecond) hden
    rw [hpower, ← Nat.two_mul, Nat.mul_assoc 2] at hmul
    omega
  refine ⟨r - s * perOctave, ?_⟩
  unfold perOctave at *
  omega

/-- A quotient that rounds to a magnitude rounds to its multiple in the units of
the octave.  At the ends of the octave the neighbour that lies outside is at
another distance, but the quotient does not go there. -/
theorem quotient_of_roundsTo {m : ℕ} (hden : 0 < den)
    (h : RoundsTo (s * perOctave + m) ((n : ℚ) / den))
    (hlt : n < 2 * perOctave * 2 ^ s * den)
    (hge : s = 0 ∨ perOctave * 2 ^ s * den ≤ n)
    (hm : m ≤ 2 * perOctave) (hs : s = 0 ∨ perOctave ≤ m) :
    divNearestEven n (den * 2 ^ s) = m := by
  obtain ⟨hr, hlow, hhigh, hodd⟩ := (roundsTo_div_iff hden).mp h
  rw [units_octave hm hs] at hlow hhigh hodd
  have heven : (s * perOctave + m) % 2 = m % 2 := by
    unfold perOctave
    omega
  rw [heven] at hodd
  have hdistance : ∀ k, (k * 2 ^ s + (k + 1) * 2 ^ s) * den =
      2 * (k * (den * 2 ^ s)) + den * 2 ^ s := fun k => by ring
  have hupper : 2 * n ≤ 2 * (m * (den * 2 ^ s)) + den * 2 ^ s ∧
      (m % 2 = 1 → 2 * n ≠ 2 * (m * (den * 2 ^ s)) + den * 2 ^ s) := by
    by_cases hlast : m = 2 * perOctave
    · have hproduct : m * (den * 2 ^ s) = 2 * perOctave * 2 ^ s * den := by
        rw [hlast]
        ring
      omega
    · have hnext : units (s * perOctave + m + 1) = (m + 1) * 2 ^ s := by
        rw [Nat.add_assoc]
        exact units_octave (by omega) (by omega)
      rw [hnext, hdistance] at hhigh hodd
      exact ⟨hhigh, fun hm => (hodd hm).2⟩
  have hlower : 2 * (m * (den * 2 ^ s)) ≤ 2 * n + den * 2 ^ s ∧
      (m % 2 = 1 → 2 * (m * (den * 2 ^ s)) ≠ 2 * n + den * 2 ^ s) := by
    by_cases hfirst : s ≠ 0 ∧ m = perOctave
    · obtain ⟨hne, rfl⟩ := hfirst
      have hproduct : perOctave * (den * 2 ^ s) = perOctave * 2 ^ s * den := by
        ring
      have hparity : perOctave % 2 = 0 := by decide
      have hge := hge.resolve_left hne
      omega
    · obtain ⟨k, rfl⟩ : ∃ k, m = k + 1 := by
        refine Nat.exists_eq_succ_of_ne_zero ?_
        rintro rfl
        unfold perOctave at *
        omega
      have hprevious : units (s * perOctave + (k + 1) - 1) = k * 2 ^ s := by
        rw [← Nat.add_assoc, Nat.add_sub_cancel]
        exact units_octave (by omega) (by omega)
      rw [hprevious, hdistance] at hlow hodd
      rw [Nat.add_mul, Nat.one_mul]
      constructor
      · omega
      · intro hm
        have hne := (hodd hm).1
        omega
  exact divNearestEven_eq (Nat.mul_pos hden (Nat.two_pow_pos s)) hlower.1
    hupper.1 fun hm => ⟨hlower.2 hm, hupper.2 hm⟩

end

/-- The nearest magnitude is the one that a quotient rounds to. -/
theorem nearest_eq {r num den : ℕ} (hden : 0 < den)
    (h : RoundsTo r ((num * unitsPerOne : ℕ) / (den : ℚ))) :
    nearest num den = r := by
  obtain ⟨hlt, hge⟩ := @shift_spec (num * unitsPerOne) den hden
  obtain ⟨m, rfl, hm, hs⟩ := octave_of_roundsTo hden h hlt hge
  rw [nearest, Nat.pow_eq, quotient_of_roundsTo hden h hlt hge hm hs]

end Magnitude
end JsonTypedef
