import JsonTypedef.Proofs.Decimal.Shortest
import JsonTypedef.Proofs.Json.Reader
import JsonTypedef.Proofs.Json.Writing

/-!
# Doubles are read back from their text

The compact text of a double spells a numeral whose value is the shortest
decimal of the double's magnitude, whatever the layout does with the decimal
point and the exponent.  Reading rounds that value to the double again.
-/

namespace JsonTypedef

open Magnitude (units RoundsTo infinity)

/-! ## Reading a decimal -/

theorem two_pow_le_ten_pow : (2 : ℚ) ^ 1023 ≤ 10 ^ 308 := by
  calc (2 : ℚ) ^ (93 * 11) = (2 ^ 93) ^ 11 := pow_mul 2 93 11
    _ ≤ (10 ^ 28) ^ 11 := pow_le_pow_left₀ (by norm_num) (by norm_num) 11
    _ = 10 ^ (28 * 11) := (pow_mul 10 28 11).symm

theorem inv_ten_pow_le {q : ℚ} (h : 1 ≤ 2 * (q * 2 ^ 1074)) :
    (10 : ℚ) ^ (-324 : ℤ) ≤ q := by
  have hscale : (2 : ℚ) * 2 ^ 1074 ≤ 10 ^ 324 := by
    calc (2 : ℚ) * 2 ^ 1074 = 2 ^ 1023 * 2 ^ 52 := by
          rw [← pow_succ', ← pow_add]
      _ ≤ 10 ^ 308 * 10 ^ 16 :=
          mul_le_mul two_pow_le_ten_pow (by norm_num) (by positivity)
            (by positivity)
      _ = 10 ^ 324 := by rw [← pow_add]
  have hpos : 0 < q := by
    by_contra hneg
    have hle : 2 * (q * 2 ^ 1074) ≤ 0 :=
      mul_nonpos_of_nonneg_of_nonpos (by norm_num)
        (mul_nonpos_of_nonpos_of_nonneg (not_lt.mp hneg) (by positivity))
    exact absurd (h.trans hle) (not_le.mpr one_pos)
  have hten : (10 : ℚ) ^ (-324 : ℤ) = (10 ^ 324)⁻¹ := by
    rw [zpow_neg]
    rfl
  rw [hten, inv_le_iff_one_le_mul₀ (by positivity)]
  calc (1 : ℚ) ≤ 2 * (q * 2 ^ 1074) := h
    _ = q * (2 * 2 ^ 1074) := mul_left_comm _ _ _
    _ ≤ q * 10 ^ 324 := mul_le_mul_of_nonneg_left hscale hpos.le

theorem lt_ten_pow {q : ℚ} (h : q * 2 ^ 1074 ≤ 2 ^ 52 * 2 ^ 2046) :
    q < 10 ^ (309 : ℤ) := by
  have hscale : (2 : ℚ) ^ 52 * 2 ^ 2046 = 2 ^ 1024 * 2 ^ 1074 := by
    rw [← pow_add, ← pow_add]
  rw [hscale, mul_le_mul_iff_of_pos_right (by positivity)] at h
  have hten : (10 : ℚ) ^ (309 : ℤ) = 10 * 10 ^ 308 := by
    rw [← pow_succ']
    rfl
  have hpos : (0 : ℚ) < 10 ^ 308 := by positivity
  rw [hten]
  calc q ≤ 2 ^ 1024 := h
    _ = 2 * 2 ^ 1023 := pow_succ' 2 1023
    _ ≤ 2 * 10 ^ 308 := mul_le_mul_of_nonneg_left two_pow_le_ten_pow (by norm_num)
    _ < 10 * 10 ^ 308 := mul_lt_mul_of_pos_right (by norm_num) hpos

/-- Values that round to finite positive magnitudes have their leading digit
between the decimal exponents -324 and 308. -/
theorem Magnitude.RoundsTo.value_bounds {r : ℕ} {q : ℚ}
    (h : RoundsTo r (q * unitsPerOne)) (hr : r < infinity) :
    (10 : ℚ) ^ (-324 : ℤ) ≤ q ∧ q < 10 ^ (309 : ℤ) := by
  have hperOctave : (Magnitude.perOctave : ℚ) = 2 ^ 52 := by
    norm_num [Magnitude.perOctave]
  have hone := h.one_le
  have hinfinity := h.le_infinity hr
  rw [unitsPerOne_eq] at hone hinfinity
  rw [Magnitude.units_infinity, Nat.cast_mul, hperOctave, Nat.cast_pow,
    Nat.cast_ofNat] at hinfinity
  exact ⟨inv_ten_pow_le hone, lt_ten_pow hinfinity⟩

section

variable {s r : ℕ} {e : ℤ}

/-- The exponent of the leading digit of a decimal in the finite range. -/
theorem width_bounds (h : RoundsTo r ((s : ℚ) * 10 ^ e * unitsPerOne))
    (hr : r < infinity) :
    -323 ≤ (Decimal.width s : ℤ) + e ∧ (Decimal.width s : ℤ) + e ≤ 309 := by
  obtain ⟨hlow, hhigh⟩ := h.value_bounds hr
  have hpower : (0 : ℚ) < 10 ^ e := zpow_pos (by norm_num) e
  have hs : 0 < s := by
    by_contra hzero
    obtain rfl : s = 0 := by omega
    have hpos : (0 : ℚ) < 10 ^ (-324 : ℤ) := zpow_pos (by norm_num) _
    rw [Nat.cast_zero, zero_mul] at hlow
    exact absurd hlow (not_le.mpr hpos)
  have hwidth : 0 < Decimal.width s := Nat.length_toDigits_pos
  have habove : (s : ℚ) * 10 ^ e < 10 ^ ((Decimal.width s : ℤ) + e) := by
    rw [zpow_add₀ (by norm_num), zpow_natCast]
    exact mul_lt_mul_of_pos_right (by exact_mod_cast Decimal.lt_pow_width s)
      hpower
  have hbelow :
      (10 : ℚ) ^ ((Decimal.width s : ℤ) + e - 1) ≤ (s : ℚ) * 10 ^ e := by
    have hexponent : (Decimal.width s : ℤ) + e - 1 =
        ((Decimal.width s - 1 : ℕ) : ℤ) + e := by omega
    rw [hexponent, zpow_add₀ (by norm_num), zpow_natCast]
    exact mul_le_mul_of_nonneg_right
      (by exact_mod_cast Decimal.pow_width_le hs) hpower.le
  have hfirst := (zpow_lt_zpow_iff_right₀ (by norm_num)).mp
    (hlow.trans_lt habove)
  have hlast := (zpow_lt_zpow_iff_right₀ (by norm_num)).mp
    (hbelow.trans_lt hhigh)
  omega

/-- A decimal has the rank of the magnitude that it rounds to. -/
theorem Double.decimalRank_eq
    (h : RoundsTo r ((s : ℚ) * 10 ^ e * unitsPerOne)) (hr : r < infinity) :
    Double.decimalRank s e = r := by
  obtain ⟨hlow, hhigh⟩ := width_bounds h hr
  have hs : s ≠ 0 := by
    rintro rfl
    have hone := h.one_le
    rw [Nat.cast_zero, zero_mul, zero_mul, mul_zero] at hone
    exact absurd hone (not_le.mpr one_pos)
  unfold Decimal.width at hlow hhigh
  unfold Double.decimalRank
  dsimp only
  rw [if_neg (by omega), if_neg (by omega)]
  apply Magnitude.nearest_eq (Decimal.stepDen_pos e)
  have hvalue : (s : ℚ) * 10 ^ e * unitsPerOne =
      ((s * Decimal.stepNum e * unitsPerOne : ℕ) : ℚ) / Decimal.stepDen e := by
    rw [← Decimal.stepNum_div_stepDen]
    push_cast
    ring
  rwa [hvalue] at h

end

namespace Numeral

/-! ## Digits -/

theorem foldl_digits (ds : List Char) : ∀ k : ℕ,
    ds.foldl (fun n c => n * 10 + digitValue c) k =
      k * 10 ^ ds.length + digitsValue ds := by
  unfold digitsValue
  induction ds with
  | nil =>
      intro k
      simp
  | cons c ds ih =>
      intro k
      rw [List.foldl_cons, List.foldl_cons, ih, ih (0 * 10 + digitValue c),
        List.length_cons]
      ring

theorem digitsValue_append (ds es : List Char) :
    digitsValue (ds ++ es) =
      digitsValue ds * 10 ^ es.length + digitsValue es := by
  rw [digitsValue, List.foldl_append, foldl_digits]
  rfl

theorem digitsValue_zeros (k : ℕ) : digitsValue (List.replicate k '0') = 0 := by
  induction k with
  | zero => rfl
  | succ k ih =>
      have hcons : List.replicate (k + 1) '0' = ['0'] ++ List.replicate k '0' :=
        rfl
      rw [hcons, digitsValue_append, ih]
      exact Nat.zero_mul _

/-- An exponent below the bound is read as the number that its digits spell. -/
theorem exponentValue_eq (ds : List Char) : ∀ {k : ℕ},
    k * 10 ^ ds.length + digitsValue ds < exponentBound →
      exponentValue k ds = .ok (k * 10 ^ ds.length + digitsValue ds) := by
  induction ds with
  | nil =>
      intro k _
      rw [exponentValue]
      simp [digitsValue]
  | cons c ds ih =>
      intro k hk
      have hvalue : k * 10 ^ (c :: ds).length + digitsValue (c :: ds) =
          (k * 10 + digitValue c) * 10 ^ ds.length + digitsValue ds := by
        rw [← foldl_digits, ← foldl_digits, List.foldl_cons]
      rw [hvalue] at hk ⊢
      have hfirst : k * 10 + digitValue c < exponentBound := by
        have hpow : 0 < 10 ^ ds.length := by positivity
        have hle := Nat.le_mul_of_pos_right (k * 10 + digitValue c) hpow
        omega
      rw [exponentValue, if_pos hfirst]
      exact ih hk

end Numeral

namespace Layout

theorem exists_trimZeros (ds : List Char) :
    ∃ k, ds = trimZeros ds ++ List.replicate k '0' := by
  have hzeros : ds.reverse.takeWhile (· = '0') =
      List.replicate (ds.reverse.takeWhile (· = '0')).length '0' :=
    List.eq_replicate_of_mem fun c hc =>
      of_decide_eq_true (List.all_eq_true.mp List.all_takeWhile c hc)
  have hsplit := congrArg List.reverse
    (List.takeWhile_append_dropWhile (p := fun c => decide (c = '0'))
      (l := ds.reverse))
  rw [List.reverse_append, List.reverse_reverse, hzeros,
    List.reverse_replicate] at hsplit
  exact ⟨_, hsplit.symm⟩

end Layout

/-! ## The numeral of a decimal -/

/-- A numeral is the text of a signed value: its characters are those of the
text, and the double nearest to the value is what it is read as. -/
structure Numeral.Spells (n : Numeral) (negative : Bool) (text : List Char)
    (q : ℚ) : Prop where
  valid : n.Valid
  sign : n.negative = negative
  text : n.spelled 'e' = (if negative then ['-'] else []) ++ text
  value : ∃ e : ℤ, n.value = n.nearestDouble e ∧
    (Numeral.digitsValue (n.whole ++ n.fraction) : ℚ) *
      10 ^ (e - n.fraction.length) = q

namespace Layout

open Numeral (AllDigits IsWhole digitsValue)

theorem value_of_fraction {negative : Bool} {whole fraction : List Char}
    (hfraction : fraction ≠ []) :
    Numeral.value ⟨negative, whole, fraction, none⟩ =
      Numeral.nearestDouble ⟨negative, whole, fraction, none⟩ 0 := by
  obtain ⟨d, ds, rfl⟩ := List.exists_cons_of_ne_nil hfraction
  rfl

theorem spelled_of_fraction {negative : Bool} {whole fraction : List Char}
    (hfraction : fraction ≠ []) :
    Numeral.spelled 'e' ⟨negative, whole, fraction, none⟩ =
      (if negative then ['-'] else []) ++ (whole ++ '.' :: fraction) := by
  obtain ⟨d, ds, rfl⟩ := List.exists_cons_of_ne_nil hfraction
  simp [Numeral.spelled, Numeral.fractionText, Numeral.exponentText]

theorem allDigits_zeros (k : ℕ) : AllDigits (List.replicate k '0') := by
  intro c hc
  rw [List.eq_of_mem_replicate hc]
  rfl

theorem allDigits_append {ds es : List Char} (hds : AllDigits ds)
    (hes : AllDigits es) : AllDigits (ds ++ es) := by
  intro c hc
  rcases List.mem_append.mp hc with hc | hc
  · exact hds c hc
  · exact hes c hc

section

variable (negative : Bool) {ds : List Char} {x : ℤ} {l : Layout}

/-- Digits that all stand behind the point. -/
theorem exists_spells_small (hds : AllDigits ds) (hne : ds ≠ []) (hx : x < 0) :
    ∃ n : Numeral, n.Spells negative (l.positional ds x)
      (digitsValue ds * 10 ^ (x + 1 - ds.length)) := by
  have hfraction : List.replicate (-x - 1).toNat '0' ++ ds ≠ [] := by
    simp [hne]
  refine ⟨⟨negative, ['0'], List.replicate (-x - 1).toNat '0' ++ ds, none⟩,
    ⟨Or.inl rfl, allDigits_append (allDigits_zeros _) hds, by simp⟩, rfl, ?_,
    0, value_of_fraction hfraction, ?_⟩
  · rw [spelled_of_fraction hfraction, positional, if_pos hx]
    rfl
  · have hvalue : digitsValue
        (['0'] ++ (List.replicate (-x - 1).toNat '0' ++ ds)) =
          digitsValue ds := by
      have hzeros : ['0'] ++ (List.replicate (-x - 1).toNat '0' ++ ds) =
          List.replicate ((-x - 1).toNat + 1) '0' ++ ds := rfl
      rw [hzeros, Numeral.digitsValue_append, Numeral.digitsValue_zeros,
        Nat.zero_mul, Nat.zero_add]
    dsimp only
    rw [hvalue, List.length_append, List.length_replicate]
    congr 2
    push_cast
    omega

/-- Digits on both sides of the point. -/
theorem exists_spells_split (hds : AllDigits ds) (hhead : ds.head? ≠ some '0')
    (hx : 0 ≤ x) (hlt : x.toNat + 1 < ds.length) :
    ∃ n : Numeral, n.Spells negative (l.positional ds x)
      (digitsValue ds * 10 ^ (x + 1 - ds.length)) := by
  have hfraction : ds.drop (x.toNat + 1) ≠ [] := by
    simpa using hlt
  have hwhole : IsWhole (ds.take (x.toNat + 1)) := by
    obtain ⟨c, cs, rfl⟩ := List.exists_cons_of_length_pos
      (Nat.zero_lt_of_lt hlt)
    refine Or.inr ⟨by simp, by simpa using hhead, fun c hc => ?_⟩
    exact hds c (List.mem_of_mem_take hc)
  refine ⟨⟨negative, ds.take (x.toNat + 1), ds.drop (x.toNat + 1), none⟩,
    ⟨hwhole, fun c hc => hds c (List.mem_of_mem_drop hc), by simp⟩, rfl, ?_,
    0, value_of_fraction hfraction, ?_⟩
  · have hnonneg : ¬ x < 0 := not_lt.mpr hx
    rw [spelled_of_fraction hfraction, positional, if_neg hnonneg]
    dsimp only
    rw [if_pos hlt]
  · dsimp only
    rw [List.take_append_drop, List.length_drop]
    congr 2
    omega

/-- Digits in front of the point, filled up with zeros. -/
theorem exists_spells_large (hl : l.fraction = true) (hds : AllDigits ds)
    (hne : ds ≠ []) (hhead : ds.head? ≠ some '0') (hx : 0 ≤ x)
    (hle : ds.length ≤ x.toNat + 1) :
    ∃ n : Numeral, n.Spells negative (l.positional ds x)
      (digitsValue ds * 10 ^ (x + 1 - ds.length)) := by
  have hwhole :
      IsWhole (ds ++ List.replicate (x.toNat + 1 - ds.length) '0') := by
    refine Or.inr ⟨by simp [hne], ?_, allDigits_append hds (allDigits_zeros _)⟩
    rwa [List.head?_append_of_ne_nil _ hne]
  have hfraction : ['0'] ≠ [] := by simp
  refine ⟨⟨negative, ds ++ List.replicate (x.toNat + 1 - ds.length) '0', ['0'],
    none⟩, ⟨hwhole, allDigits_zeros 1, by simp⟩, rfl, ?_, 0,
    value_of_fraction hfraction, ?_⟩
  · have hnonneg : ¬ x < 0 := not_lt.mpr hx
    have hge : ¬ x.toNat + 1 < ds.length := not_lt.mpr hle
    rw [spelled_of_fraction hfraction, positional, if_neg hnonneg]
    dsimp only
    rw [if_neg hge, hl]
    rfl
  · have hvalue : digitsValue
        (ds ++ List.replicate (x.toNat + 1 - ds.length) '0' ++ ['0']) =
          digitsValue ds * 10 ^ (x.toNat + 1 - ds.length) * 10 := by
      rw [Numeral.digitsValue_append, Numeral.digitsValue_append,
        Numeral.digitsValue_zeros, List.length_replicate]
      rfl
    have hexponent : x + 1 - ds.length =
        ((x.toNat + 1 - ds.length : ℕ) : ℤ) := by omega
    dsimp only
    rw [hvalue, hexponent, zpow_natCast]
    push_cast
    rw [List.length_singleton]
    ring

/-- Digits with an exponent. -/
theorem exists_spells_scientific (hl : l.plus = true) (hds : AllDigits ds)
    (hne : ds ≠ []) (hhead : ds.head? ≠ some '0')
    (hx : x.natAbs < Numeral.exponentBound) :
    ∃ n : Numeral, n.Spells negative (l.scientific ds x)
      (digitsValue ds * 10 ^ (x + 1 - ds.length)) := by
  obtain ⟨c, cs, rfl⟩ := List.exists_cons_of_ne_nil hne
  have hwhole : IsWhole [c] := by
    refine Or.inr ⟨by simp, by simpa using hhead, fun d hd => ?_⟩
    exact hds d (by simpa using Or.inl (List.mem_singleton.mp hd))
  refine ⟨⟨negative, [c], cs, some ⟨some (decide (x < 0)), digits x.natAbs⟩⟩,
    ⟨hwhole, fun d hd => hds d (List.mem_cons_of_mem _ hd), ?_⟩, rfl, ?_, x,
    ?_, ?_⟩
  · rintro e ⟨⟩
    exact ⟨Nat.toDigits_ne_nil, fun d hd => Grammar.isDigit_of_mem_digits hd⟩
  · cases cs with
    | nil => by_cases hneg : x < 0 <;> simp [Numeral.spelled, scientific,
        Numeral.fractionText, Numeral.exponentText, Numeral.signText, hneg, hl]
    | cons d cs => by_cases hneg : x < 0 <;> simp [Numeral.spelled, scientific,
        Numeral.fractionText, Numeral.exponentText, Numeral.signText, hneg, hl]
  · have hexponent : Numeral.exponentValue 0 (digits x.natAbs) =
        .ok x.natAbs := by
      have hvalue := Grammar.digitsValue_digits x.natAbs
      rw [Numeral.exponentValue_eq, hvalue, Nat.zero_mul, Nat.zero_add]
      rwa [hvalue, Nat.zero_mul, Nat.zero_add]
    simp only [Numeral.value, hexponent]
    congr 1
    by_cases hneg : x < 0
    · rw [if_pos (by simpa using hneg)]
      omega
    · rw [if_neg (by simpa using hneg)]
      omega
  · dsimp only
    rw [List.singleton_append, List.length_cons]
    congr 2
    push_cast
    omega

end

/-- The compact text of a decimal spells its value.  The zeros that are cut off
at the end of the digits come back in the exponent. -/
theorem exists_spells_decimal (negative : Bool) {d : Decimal}
    (hd : 0 < d.digits)
    (hwidth : -323 ≤ (Decimal.width d.digits : ℤ) + d.exponent ∧
      (Decimal.width d.digits : ℤ) + d.exponent ≤ 309) :
    ∃ n : Numeral, n.Spells negative (compact.decimal d) d.value := by
  obtain ⟨k, hsplit⟩ := exists_trimZeros (digits d.digits)
  have hall : AllDigits (digits d.digits) :=
    fun c hc => Grammar.isDigit_of_mem_digits hc
  have hvalue := Grammar.digitsValue_digits d.digits
  have hwidth' : Decimal.width d.digits = (digits d.digits).length := rfl
  have hhead : (digits d.digits).head? ≠ some '0' := Grammar.head_toDigits hd
  rw [hwidth'] at hwidth
  unfold decimal
  dsimp only
  generalize hx : d.exponent + ((digits d.digits).length : ℤ) - 1 = x
  generalize trimZeros (digits d.digits) = ds at *
  rw [hsplit] at hvalue hhead hall
  rw [Numeral.digitsValue_append, Numeral.digitsValue_zeros, Nat.add_zero,
    List.length_replicate] at hvalue
  have hlength : (digits d.digits).length = ds.length + k := by
    rw [hsplit, List.length_append, List.length_replicate]
  have hne : ds ≠ [] := by
    rintro rfl
    have hzero : 0 * 10 ^ k = d.digits := hvalue
    omega
  have hds : AllDigits ds := fun c hc => hall c (List.mem_append_left _ hc)
  rw [List.head?_append_of_ne_nil _ hne] at hhead
  have hq : d.value = digitsValue ds * 10 ^ (x + 1 - ds.length) := by
    have hexponent : x + 1 - ds.length = k + d.exponent := by omega
    rw [Decimal.value, ← hvalue, hexponent, zpow_add₀ (by norm_num),
      zpow_natCast]
    push_cast
    ring
  rw [hq]
  split
  next =>
    by_cases hneg : x < 0
    · exact exists_spells_small negative hds hne hneg
    · by_cases hlt : x.toNat + 1 < ds.length
      · exact exists_spells_split negative hds hhead (not_lt.mp hneg) hlt
      · exact exists_spells_large negative rfl hds hne hhead (not_lt.mp hneg)
          (not_lt.mp hlt)
  next =>
    refine exists_spells_scientific negative rfl hds hne hhead ?_
    have hbound : 324 < Numeral.exponentBound := by decide
    omega

end Layout

/-! ## Doubles -/

namespace Double

theorem ofRank?_rank (d : Double) : ofRank? d.negative d.rank = some d :=
  dif_pos d.finite

/-- The compact text of a double spells a numeral that is read as the double. -/
theorem exists_numeral (d : Double) :
    ∃ n : Numeral, n.Valid ∧ n.spelled 'e' = Layout.compact.double d ∧
      n.value = .ok (.float d) := by
  by_cases hzero : d.rank = 0
  · refine ⟨⟨d.negative, ['0'], ['0'], none⟩,
      ⟨Or.inl rfl, Layout.allDigits_zeros 1, by simp⟩, ?_, ?_⟩
    · rw [Layout.double, if_pos hzero]
      cases d.negative with
      | true => rfl
      | false => rfl
    · have hdouble := ofRank?_rank d
      rw [hzero] at hdouble
      have hdecimal : ofDecimal? d.negative
          (Numeral.digitsValue (['0'] ++ ['0'])) (0 - (['0'].length : Int)) =
            some d := by
        change ofDecimal? d.negative 0 (-1) = some d
        rw [ofDecimal?, decimalRank, if_pos (Or.inl rfl), hdouble]
      have hvalue : Numeral.value ⟨d.negative, ['0'], ['0'], none⟩ =
          Numeral.nearestDouble ⟨d.negative, ['0'], ['0'], none⟩ 0 := rfl
      rw [hvalue, Numeral.nearestDouble, hdecimal]
  · have hrank : 0 < d.rank := Nat.pos_of_ne_zero hzero
    have hshortest := Decimal.roundsTo_shortest hrank
    have hwidth := width_bounds hshortest d.finite
    have hdigits : 0 < (Decimal.shortest d.rank).digits := by
      by_contra hnot
      have hnone : (Decimal.shortest d.rank).digits = 0 := by omega
      have hone := hshortest.one_le
      rw [Decimal.value, hnone, Nat.cast_zero, zero_mul, zero_mul,
        mul_zero] at hone
      exact absurd hone (not_le.mpr one_pos)
    obtain ⟨n, hn⟩ :=
      Layout.exists_spells_decimal d.negative hdigits hwidth
    refine ⟨n, hn.valid, ?_, ?_⟩
    · rw [hn.text, Layout.double, if_neg hzero]
    · obtain ⟨e, hvalue, hq⟩ := hn.value
      rw [hvalue, Numeral.nearestDouble, ofDecimal?]
      rw [← hq] at hshortest
      rw [decimalRank_eq hshortest d.finite, hn.sign, ofRank?_rank]

/-- Every finite double is read back from its compact text. -/
theorem readsBack (d : Double) : d.ReadsBack := by
  obtain ⟨n, hvalid, htext, hvalue⟩ := exists_numeral d
  have hwritten : n.Written (Layout.compact.double d) [] :=
    ⟨hvalid, 'e', Or.inl rfl, by rw [htext, List.append_nil]⟩
  have hstops : n.Stops [] := Numeral.stops_of_isFinal n (by simp)
  rw [ReadsBack, Numeral.ofText?, String.toList_ofList,
    Numeral.read_of_written hwritten hstops]
  dsimp only
  rw [hvalue]
  rfl

end Double

/-- Every value is denoted by its compact text. -/
theorem Value.denotes_write (v : Value) : Grammar.Denotes v.write v :=
  Grammar.denotes_write v fun d _ => d.readsBack

/-- Values with the same compact text are the same, members in their order. -/
theorem Value.write_injective : Function.Injective Value.write := by
  intro v w h
  have hv := v.denotes_write
  rw [h] at hv
  exact Value.denotes_unique hv w.denotes_write

end JsonTypedef
