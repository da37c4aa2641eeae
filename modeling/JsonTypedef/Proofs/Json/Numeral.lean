import JsonTypedef.Json.Numeral

/-!
# The grammar of numerals

`Numeral.spelled` puts the parts of a numeral together again, `Numeral.Valid`
says which parts make up a number of the grammar, and `Numeral.Stops` that a
text does not continue a numeral in front of it.  Reading takes exactly the
spellings that stop.
-/

namespace JsonTypedef
namespace Numeral

/-- All characters are digits. -/
def AllDigits (ds : List Char) : Prop :=
  ∀ c ∈ ds, isDigit c = true

/-- The whole digits of a numeral: a zero alone, or digits that do not start
with one. -/
def IsWhole (ds : List Char) : Prop :=
  ds = ['0'] ∨ (ds ≠ [] ∧ ds.head? ≠ some '0' ∧ AllDigits ds)

/-- The parts are those of a number of the grammar. -/
structure Valid (n : Numeral) : Prop where
  whole : IsWhole n.whole
  fraction : AllDigits n.fraction
  exponent : ∀ e ∈ n.exponent, e.digits ≠ [] ∧ AllDigits e.digits

/-- The sign of an exponent as it is written. -/
def signText : Option Bool → List Char
  | none => []
  | some false => ['+']
  | some true => ['-']

/-- The exponent as it is written with the given letter. -/
def exponentText (letter : Char) : Option Exponent → List Char
  | none => []
  | some e => letter :: (signText e.sign ++ e.digits)

/-- The fraction as it is written. -/
def fractionText : List Char → List Char
  | [] => []
  | d :: ds => '.' :: d :: ds

/-- The numeral as it is written, its exponent with the given letter. -/
def spelled (letter : Char) (n : Numeral) : List Char :=
  (if n.negative then ['-'] else []) ++
    (n.whole ++ (fractionText n.fraction ++ exponentText letter n.exponent))

/-- An exponent is written with this letter. -/
def IsLetter (c : Char) : Prop :=
  c = 'e' ∨ c = 'E'

/-- A text starts with the characters of a numeral. -/
def Written (n : Numeral) (cs rest : List Char) : Prop :=
  n.Valid ∧ ∃ letter, IsLetter letter ∧ cs = n.spelled letter ++ rest

/-- The text does not start with a digit. -/
def NoDigit (rest : List Char) : Prop :=
  ∀ c ∈ rest.head?, isDigit c = false

/-- The text does not continue an exponent, or start one that is missing. -/
def StopsExponent (e : Option Exponent) (rest : List Char) : Prop :=
  (e.isSome → NoDigit rest) ∧ (e = none → ∀ c ∈ rest.head?, ¬ IsLetter c)

/-- The text does not continue a fraction, or start one that is missing. -/
def StopsFraction (fraction : List Char) (e : Option Exponent)
    (rest : List Char) : Prop :=
  StopsExponent e rest ∧
    (e = none → (fraction ≠ [] → NoDigit rest) ∧
      (fraction = [] → ∀ c ∈ rest.head?, c ≠ '.'))

/-- The text does not continue the numeral in front of it. -/
def Stops (n : Numeral) (rest : List Char) : Prop :=
  StopsFraction n.fraction n.exponent rest ∧
    (n.exponent = none → n.fraction = [] → n.whole ≠ ['0'] → NoDigit rest)

/-! ## Digits -/

theorem spanDigits_append {ds rest : List Char} (hds : AllDigits ds)
    (hrest : NoDigit rest) : spanDigits (ds ++ rest) = (ds, rest) := by
  induction ds with
  | nil =>
      cases rest with
      | nil => rfl
      | cons c rest =>
          have hc : isDigit c = false := hrest c (by simp)
          simp [spanDigits, hc]
  | cons d ds ih =>
      have hd : isDigit d = true := hds d List.mem_cons_self
      have htail := ih fun c hc => hds c (List.mem_cons_of_mem _ hc)
      simp [spanDigits, hd, htail]

theorem spanDigits_spec {cs ds rest : List Char}
    (h : spanDigits cs = (ds, rest)) :
    cs = ds ++ rest ∧ AllDigits ds ∧ NoDigit rest := by
  induction cs generalizing ds with
  | nil =>
      cases h
      simp [AllDigits, NoDigit]
  | cons c cs ih =>
      unfold spanDigits at h
      split at h
      next hc =>
        cases hspan : spanDigits cs with
        | mk es tail =>
            rw [hspan] at h
            cases h
            obtain ⟨rfl, hes, htail⟩ := ih hspan
            refine ⟨rfl, fun d hd => ?_, htail⟩
            rcases List.mem_cons.mp hd with rfl | hd
            · exact hc
            · exact hes d hd
      next hc =>
        cases h
        refine ⟨rfl, by simp [AllDigits], ?_⟩
        simpa [NoDigit] using hc

/-- The digits of a non-empty list stand in front of whatever is no digit. -/
theorem spanDigits_cons_append {d : Char} {ds rest : List Char}
    (hds : AllDigits (d :: ds)) (hrest : NoDigit rest) :
    spanDigits (d :: (ds ++ rest)) = (d :: ds, rest) :=
  spanDigits_append hds hrest

theorem digit_ne_sign {d : Char} (hd : isDigit d = true) :
    d ≠ '+' ∧ d ≠ '-' ∧ d ≠ '.' := by
  refine ⟨?_, ?_, ?_⟩ <;> rintro rfl <;> exact absurd hd (by decide)

/-! ## Reading a spelling -/

section

variable (negative : Bool) (whole fraction : List Char) {rest : List Char}
    {letter : Char}

private theorem readExponent_digits (hletter : IsLetter letter)
    {sign : Option Bool} {ds : List Char} (hne : ds ≠ []) (hds : AllDigits ds)
    (hrest : NoDigit rest) :
    readExponent negative whole fraction
      (letter :: (signText sign ++ ds ++ rest)) =
      .numeral ⟨negative, whole, fraction, some ⟨sign, ds⟩⟩ rest := by
  obtain ⟨d, ds, rfl⟩ := List.exists_cons_of_ne_nil hne
  have hspan := spanDigits_cons_append hds hrest
  obtain ⟨hplus, hminus, -⟩ := digit_ne_sign (hds d List.mem_cons_self)
  have hif : letter = 'e' ∨ letter = 'E' := hletter
  unfold readExponent
  dsimp only
  rw [if_pos hif]
  match sign with
  | none =>
      simp only [signText, List.nil_append, List.cons_append]
      split
      next x tail heq =>
        split at heq
        next t hsplit => exact absurd (List.cons.inj hsplit).1 hplus
        next t hsplit => exact absurd (List.cons.inj hsplit).1 hminus
        next =>
          rw [hspan] at heq
          cases heq
      next x es tail hes heq =>
        split at heq
        next t hsplit => exact absurd (List.cons.inj hsplit).1 hplus
        next t hsplit => exact absurd (List.cons.inj hsplit).1 hminus
        next =>
          rw [hspan] at heq
          cases heq
          rfl
  | some false => simp only [signText, List.cons_append, List.nil_append, hspan]
  | some true => simp only [signText, List.cons_append, List.nil_append, hspan]

theorem readExponent_spelled (hletter : IsLetter letter) {e : Option Exponent}
    (he : ∀ x ∈ e, x.digits ≠ [] ∧ AllDigits x.digits)
    (hstop : StopsExponent e rest) :
    readExponent negative whole fraction (exponentText letter e ++ rest) =
      .numeral ⟨negative, whole, fraction, e⟩ rest := by
  cases e with
  | none =>
      cases rest with
      | nil => rfl
      | cons c rest =>
          have hc : ¬ (c = 'e' ∨ c = 'E') := hstop.2 rfl c (by simp)
          unfold readExponent
          dsimp only [exponentText, List.nil_append]
          rw [if_neg hc]
  | some e =>
      obtain ⟨hne, hds⟩ := he e rfl
      exact readExponent_digits negative whole fraction hletter hne hds
        (hstop.1 rfl)

theorem noDigit_exponentText (hletter : IsLetter letter) {e : Option Exponent}
    (hrest : e = none → NoDigit rest) :
    NoDigit (exponentText letter e ++ rest) := by
  cases e with
  | none => exact hrest rfl
  | some e =>
      intro c hc
      obtain rfl : letter = c := by simpa [exponentText] using hc
      rcases hletter with rfl | rfl <;> decide

theorem readFraction_spelled (hletter : IsLetter letter) {e : Option Exponent}
    (hfraction : AllDigits fraction)
    (he : ∀ x ∈ e, x.digits ≠ [] ∧ AllDigits x.digits)
    (hstop : StopsFraction fraction e rest) :
    readFraction negative whole
        (fractionText fraction ++ (exponentText letter e ++ rest)) =
      .numeral ⟨negative, whole, fraction, e⟩ rest := by
  have hexponent :=
    readExponent_spelled negative whole fraction hletter he hstop.1
  cases fraction with
  | nil =>
      rw [fractionText, List.nil_append, readFraction]
      · exact hexponent
      · intro tail heq
        cases e with
        | none =>
            have hrest : rest = '.' :: tail := heq
            exact (hstop.2 rfl).2 rfl '.' (by simp [hrest]) rfl
        | some e =>
            obtain rfl : letter = '.' := (List.cons.inj heq).1
            rcases hletter with h | h <;> exact absurd h (by decide)
  | cons d ds =>
      have hspan := spanDigits_cons_append hfraction
        (noDigit_exponentText hletter fun h => (hstop.2 h).1 (by simp))
      simp only [fractionText, List.cons_append, readFraction, hspan]
      exact hexponent

theorem readWhole_spelled (hletter : IsLetter letter) {e : Option Exponent}
    (hvalid : Valid ⟨negative, whole, fraction, e⟩)
    (hstop : Stops ⟨negative, whole, fraction, e⟩ rest) :
    readWhole negative
        (whole ++ (fractionText fraction ++ (exponentText letter e ++ rest))) =
      .numeral ⟨negative, whole, fraction, e⟩ rest := by
  have hfraction :=
    readFraction_spelled negative whole fraction hletter hvalid.fraction
      hvalid.exponent
      hstop.1
  rcases hvalid.whole with rfl | ⟨hne, hhead, hdigits⟩
  · exact hfraction
  · obtain ⟨d, ds, rfl⟩ := List.exists_cons_of_ne_nil hne
    have hzero : d ≠ '0' := by simpa using hhead
    have hbehind :
        NoDigit (fractionText fraction ++ (exponentText letter e ++ rest)) := by
      cases fraction with
      | nil =>
          refine noDigit_exponentText hletter fun h => ?_
          exact hstop.2 h rfl (by simpa using fun h => absurd h hzero)
      | cons f fs =>
          intro c hc
          obtain rfl : '.' = c := by simpa [fractionText] using hc
          decide
    have hspan := spanDigits_cons_append hdigits hbehind
    unfold readWhole
    split
    next tail heq => exact absurd (List.cons.inj heq).1 hzero
    next =>
      rw [List.cons_append, hspan]
      exact hfraction

end

theorem whole_ne_minus {whole rest tail : List Char} (hwhole : IsWhole whole) :
    whole ++ rest ≠ '-' :: tail := by
  rcases hwhole with rfl | ⟨hne, -, hdigits⟩
  · simp
  · obtain ⟨d, ds, rfl⟩ := List.exists_cons_of_ne_nil hne
    intro heq
    exact (digit_ne_sign (hdigits d List.mem_cons_self)).2.1
      (List.cons.inj heq).1

/-- A numeral is read from its spelling where the text behind does not continue
it. -/
theorem read_of_written {n : Numeral} {cs rest : List Char}
    (h : n.Written cs rest) (hstop : n.Stops rest) :
    read cs = .numeral n rest := by
  obtain ⟨hvalid, letter, hletter, rfl⟩ := h
  obtain ⟨negative, whole, fraction, e⟩ := n
  have hwhole := readWhole_spelled negative whole fraction hletter hvalid hstop
  cases negative with
  | true => simpa [spelled, read] using hwhole
  | false =>
      simp only [spelled, Bool.false_eq_true, if_false, List.nil_append,
        List.append_assoc]
      unfold read
      split
      next tail heq => exact absurd heq (whole_ne_minus hvalid.whole)
      next => exact hwhole

/-! ## Spellings that are read -/

section

variable {negative : Bool} {whole fraction cs rest : List Char} {n : Numeral}

theorem readExponent_spec
    (h : readExponent negative whole fraction cs = .numeral n rest) :
    ∃ e letter, n = ⟨negative, whole, fraction, e⟩ ∧ IsLetter letter ∧
      (∀ x ∈ e, x.digits ≠ [] ∧ AllDigits x.digits) ∧
      cs = exponentText letter e ++ rest ∧ StopsExponent e rest := by
  unfold readExponent at h
  split at h
  next =>
    cases h
    exact ⟨none, 'e', rfl, Or.inl rfl, by simp, rfl, by simp [StopsExponent]⟩
  next c tail =>
    split at h
    next hletter =>
      split at h
      next sign digits hsign =>
        split at h
        next => cases h
        next ds rest' hds hspan =>
          cases h
          obtain ⟨rfl, halldigits, hrest⟩ := spanDigits_spec hspan
          refine ⟨some ⟨sign, ds⟩, c, rfl, hletter, ?_, ?_,
            fun _ => hrest, by simp⟩
          · rintro x ⟨⟩
            exact ⟨hds, halldigits⟩
          · split at hsign <;> cases hsign <;> simp [exponentText, signText]
    next hletter =>
      cases h
      refine ⟨none, 'e', rfl, Or.inl rfl, by simp, rfl, by simp,
        fun _ d hd => ?_⟩
      obtain rfl : c = d := by simpa using hd
      exact hletter

theorem readFraction_spec
    (h : readFraction negative whole cs = .numeral n rest) :
    ∃ fraction e letter, n = ⟨negative, whole, fraction, e⟩ ∧ IsLetter letter ∧
      AllDigits fraction ∧ (∀ x ∈ e, x.digits ≠ [] ∧ AllDigits x.digits) ∧
      cs = fractionText fraction ++ (exponentText letter e ++ rest) ∧
      StopsFraction fraction e rest := by
  unfold readFraction at h
  split at h
  next tail =>
    split at h
    next => cases h
    next ds behind hds hspan =>
      obtain ⟨rfl, halldigits, hbehind⟩ := spanDigits_spec hspan
      obtain ⟨e, letter, rfl, hletter, he, rfl, hstop⟩ := readExponent_spec h
      obtain ⟨d, ds, rfl⟩ := List.exists_cons_of_ne_nil hds
      refine ⟨d :: ds, e, letter, rfl, hletter, halldigits, he, rfl, hstop, ?_⟩
      rintro rfl
      exact ⟨fun _ => hbehind, by simp⟩
  next hdot =>
    obtain ⟨e, letter, rfl, hletter, he, rfl, hstop⟩ := readExponent_spec h
    refine ⟨[], e, letter, rfl, hletter, by simp [AllDigits], he, rfl, hstop,
      ?_⟩
    rintro rfl
    refine ⟨by simp, fun _ c hc => ?_⟩
    rintro rfl
    obtain ⟨tail, htail⟩ := List.head?_eq_some_iff.mp hc
    exact hdot tail htail

theorem readWhole_spec (h : readWhole negative cs = .numeral n rest) :
    n.negative = negative ∧ n.Valid ∧ n.Stops rest ∧ ∃ letter, IsLetter letter ∧
      cs = n.whole ++
        (fractionText n.fraction ++
          (exponentText letter n.exponent ++ rest)) := by
  unfold readWhole at h
  split at h
  next tail =>
    obtain ⟨fraction, e, letter, rfl, hletter, hfraction, he, rfl, hstop⟩ :=
      readFraction_spec h
    exact ⟨rfl, ⟨Or.inl rfl, hfraction, he⟩, ⟨hstop, by simp⟩, letter, hletter,
      rfl⟩
  next hzero =>
    split at h
    next => cases h
    next ds behind hds hspan =>
      obtain ⟨rfl, halldigits, hbehind⟩ := spanDigits_spec hspan
      obtain ⟨fraction, e, letter, rfl, hletter, hfraction, he, rfl, hstop⟩ :=
        readFraction_spec h
      refine ⟨rfl, ⟨Or.inr ⟨hds, ?_, halldigits⟩, hfraction, he⟩, ⟨hstop, ?_⟩,
        letter, hletter, rfl⟩
      · intro hhead
        obtain ⟨tail, rfl⟩ : ∃ tail, ds = '0' :: tail :=
          List.head?_eq_some_iff.mp hhead
        exact hzero _ rfl
      · rintro rfl rfl -
        exact hbehind

end

/-- What is read as a numeral is spelled by the characters it takes up, and what
is left does not continue it. -/
theorem written_of_read {n : Numeral} {cs rest : List Char}
    (h : read cs = .numeral n rest) : n.Written cs rest ∧ n.Stops rest := by
  unfold read at h
  split at h
  next tail =>
    obtain ⟨hnegative, hvalid, hstop, letter, hletter, rfl⟩ := readWhole_spec h
    exact ⟨⟨hvalid, letter, hletter, by simp [spelled, hnegative]⟩, hstop⟩
  next =>
    obtain ⟨hnegative, hvalid, hstop, letter, hletter, rfl⟩ := readWhole_spec h
    exact ⟨⟨hvalid, letter, hletter, by simp [spelled, hnegative]⟩, hstop⟩

/-- A character that no numeral goes on with. -/
def IsFinal (c : Char) : Prop :=
  isDigit c = false ∧ ¬ IsLetter c ∧ c ≠ '.'

instance : DecidablePred IsFinal := fun c =>
  inferInstanceAs (Decidable (isDigit c = false ∧ ¬ (c = 'e' ∨ c = 'E') ∧
    c ≠ '.'))

theorem stops_of_isFinal (n : Numeral) {rest : List Char}
    (h : ∀ c ∈ rest.head?, IsFinal c) : n.Stops rest := by
  have hdigit : NoDigit rest := fun c hc => (h c hc).1
  exact ⟨⟨⟨fun _ => hdigit, fun _ c hc => (h c hc).2.1⟩,
    fun _ => ⟨fun _ => hdigit, fun _ c hc => (h c hc).2.2⟩⟩,
    fun _ _ _ => hdigit⟩

end Numeral
end JsonTypedef
