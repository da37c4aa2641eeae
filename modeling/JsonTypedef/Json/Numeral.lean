import JsonTypedef.Json.Number

/-!
# Numerals: the text of a JSON number

A numeral is the spelling of a JSON number taken apart into sign, whole digits,
fraction digits and exponent.  `Numeral.read` follows the JSON grammar, and
`Numeral.value` gives the stored number: an integer where no fraction or
exponent is written and 64 bits suffice, otherwise the nearest double.
-/

namespace JsonTypedef

/-- The exponent part of a numeral. -/
structure Exponent where
  /-- A sign character is written: `some true` for a minus. -/
  sign : Option Bool
  digits : List Char
deriving DecidableEq

/-- The number of characters of an exponent, its letter included. -/
def Exponent.size (e : Exponent) : Nat :=
  1 + (if e.sign.isSome then 1 else 0) + e.digits.length

/-- The parts of a JSON number's text. -/
structure Numeral where
  negative : Bool
  whole : List Char
  /-- The digits after the point; empty when no point is written. -/
  fraction : List Char
  exponent : Option Exponent
deriving DecidableEq

namespace Numeral

/-- Where a numeral lacks a digit. -/
inductive Gap where
  | whole
  | fraction
  | exponent
deriving DecidableEq

/-- Why a complete numeral denotes no number: `column` counts its characters up
to the place where this was settled. -/
inductive Fault where
  | outOfRange (column : Nat)
  | malformed (column : Nat)
deriving DecidableEq

/-- The characters `0` to `9`. -/
def isDigit (c : Char) : Bool :=
  '0' ≤ c && c ≤ '9'

/-- The value of a digit character. -/
def digitValue (c : Char) : Nat :=
  c.toNat - '0'.toNat

/-- Split off the digits at the front. -/
def spanDigits : List Char → List Char × List Char
  | [] => ([], [])
  | c :: rest =>
    if isDigit c then
      let (ds, tail) := spanDigits rest
      (c :: ds, tail)
    else ([], c :: rest)

theorem spanDigits_length (cs : List Char) :
    (spanDigits cs).1.length + (spanDigits cs).2.length = cs.length := by
  induction cs with
  | nil => rfl
  | cons c rest ih =>
    unfold spanDigits
    split
    · simp only [List.length_cons]
      omega
    · simp

/-- The number of characters before the exponent. -/
def mantissaSize (n : Numeral) : Nat :=
  (if n.negative then 1 else 0) + n.whole.length +
    (if n.fraction.isEmpty then 0 else 1 + n.fraction.length)

/-- The number of characters of the numeral. -/
def size (n : Numeral) : Nat :=
  n.mantissaSize + (n.exponent.map Exponent.size).getD 0

/-- A numeral read from the front of a text with what follows it, or the text
from where a digit is missing. -/
inductive Reading where
  | numeral (n : Numeral) (rest : List Char)
  | missing (gap : Gap) (rest : List Char)

/-- Read the exponent of a numeral whose other parts are known. -/
def readExponent (negative : Bool) (whole fraction : List Char) (cs : List Char) : Reading :=
  match cs with
  | [] => .numeral ⟨negative, whole, fraction, none⟩ []
  | c :: tail =>
    if c = 'e' ∨ c = 'E' then
      let (sign, tail) : Option Bool × List Char :=
        match tail with
        | '+' :: t => (some false, t)
        | '-' :: t => (some true, t)
        | t => (none, t)
      match spanDigits tail with
      | ([], rest) => .missing .exponent rest
      | (ds, rest) => .numeral ⟨negative, whole, fraction, some ⟨sign, ds⟩⟩ rest
    else .numeral ⟨negative, whole, fraction, none⟩ (c :: tail)

/-- Read what follows the whole digits. -/
def readFraction (negative : Bool) (whole : List Char) (cs : List Char) : Reading :=
  match cs with
  | '.' :: tail =>
    match spanDigits tail with
    | ([], rest) => .missing .fraction rest
    | (ds, rest) => readExponent negative whole ds rest
  | cs => readExponent negative whole [] cs

/-- Read the whole digits: a zero alone, or digits that do not start with one. -/
def readWhole (negative : Bool) (cs : List Char) : Reading :=
  match cs with
  | '0' :: tail => readFraction negative ['0'] tail
  | cs =>
    match spanDigits cs with
    | ([], rest) => .missing .whole rest
    | (ds, rest) => readFraction negative ds rest

/-- Read the longest numeral at the front of a text. -/
def read (cs : List Char) : Reading :=
  match cs with
  | '-' :: tail => readWhole true tail
  | cs => readWhole false cs

theorem readExponent_numeral {negative : Bool} {whole fraction cs rest : List Char}
    {n : Numeral} (h : readExponent negative whole fraction cs = .numeral n rest) :
    n.negative = negative ∧ n.whole = whole ∧ n.fraction = fraction ∧
      (n.exponent.map Exponent.size).getD 0 + rest.length = cs.length := by
  unfold readExponent at h
  split at h
  · cases h
    simp
  · split at h
    · rename_i c tail _
      split at h
      rename_i sign digits hsign
      have hlength := spanDigits_length digits
      split at h
      · cases h
      · rename_i ds rest' _ hspan
        cases h
        rw [hspan] at hlength
        simp only [Option.map_some, Option.getD_some, Exponent.size, List.length_cons]
        split at hsign <;> cases hsign <;> simp_all <;> omega
    · cases h
      simp

theorem readFraction_numeral {negative : Bool} {whole cs rest : List Char} {n : Numeral}
    (h : readFraction negative whole cs = .numeral n rest) :
    n.negative = negative ∧ n.whole = whole ∧
      n.size + rest.length = (if negative then 1 else 0) + whole.length + cs.length := by
  unfold readFraction at h
  split at h
  · rename_i tail
    have hlength := spanDigits_length tail
    split at h
    · cases h
    · rename_i ds rest' hds hspan
      rw [hspan] at hlength
      obtain ⟨h1, h2, h3, h4⟩ := readExponent_numeral h
      have hne : ds.isEmpty = false := by
        cases ds with
        | nil => exact absurd rfl hds
        | cons => rfl
      refine ⟨h1, h2, ?_⟩
      simp only [size, mantissaSize, h1, h2, h3, hne, Bool.false_eq_true, if_false,
        List.length_cons] at *
      omega
  · obtain ⟨h1, h2, h3, h4⟩ := readExponent_numeral h
    refine ⟨h1, h2, ?_⟩
    simp only [size, mantissaSize, h1, h2, h3, List.isEmpty_nil, if_true]
    omega

theorem readWhole_numeral {negative : Bool} {cs rest : List Char} {n : Numeral}
    (h : readWhole negative cs = .numeral n rest) :
    n.size + rest.length = (if negative then 1 else 0) + cs.length ∧
      rest.length < cs.length := by
  unfold readWhole at h
  split at h
  · rename_i tail
    obtain ⟨h1, h2, h3⟩ := readFraction_numeral h
    have hmantissa : n.size ≥ (if negative then 1 else 0) + 1 := by
      simp only [size, mantissaSize, h1, h2, List.length_singleton]
      omega
    rw [List.length_singleton] at h3
    rw [List.length_cons]
    omega
  · have hlength := spanDigits_length cs
    split at h
    · cases h
    · rename_i ds rest' hds hspan
      rw [hspan] at hlength
      obtain ⟨h1, h2, h3⟩ := readFraction_numeral h
      have hmantissa : n.size ≥ (if negative then 1 else 0) + ds.length := by
        simp only [size, mantissaSize, h1, h2]
        omega
      have hpos : 0 < ds.length := List.length_pos_iff.mpr hds
      simp only at hlength
      omega

/-- A numeral accounts for the characters that it was read from. -/
theorem read_size {cs rest : List Char} {n : Numeral} (h : read cs = .numeral n rest) :
    n.size + rest.length = cs.length := by
  unfold read at h
  split at h
  · have := (readWhole_numeral h).1
    simp only [if_true, List.length_cons] at *
    omega
  · have := (readWhole_numeral h).1
    simp only [Bool.false_eq_true, if_false] at *
    omega

theorem read_rest_lt {cs rest : List Char} {n : Numeral} (h : read cs = .numeral n rest) :
    rest.length < cs.length := by
  unfold read at h
  split at h
  · have := (readWhole_numeral h).2
    simp only [List.length_cons]
    omega
  · exact (readWhole_numeral h).2

/-- The natural number that digits spell. -/
def digitsValue (ds : List Char) : Nat :=
  ds.foldl (fun n c => n * 10 + digitValue c) 0

/-- Exponents are read up to this bound. -/
def exponentBound : Nat :=
  0x80000000

/-- The value of exponent digits from `k` on, or the digits from the first one
with which the value reaches the bound. -/
def exponentValue (k : Nat) : List Char → Except (List Char) Nat
  | [] => .ok k
  | c :: rest =>
    let next := k * 10 + digitValue c
    if next < exponentBound then exponentValue next rest else .error (c :: rest)

/-- The number nearest to the digits of a numeral times `10 ^ e`. -/
def nearestDouble (n : Numeral) (e : Int) : Except Fault Number :=
  match Double.ofDecimal? n.negative (digitsValue (n.whole ++ n.fraction)) (e - n.fraction.length)
  with
  | some d => .ok (.float d)
  | none => .error (.outOfRange n.size)

/-- The double zero of the given sign. -/
def signedZero (negative : Bool) : Number :=
  .float ⟨negative, 0, Magnitude.infinity_pos⟩

/-- The value of a numeral whose exponent reaches the bound with the first of the
digits `left`.  It is zero when all digits are zero or the exponent is negative.
Else it is out of range, which is settled at that first digit; further digits
behind it make the numeral malformed. -/
def hugeExponentValue (n : Numeral) (e : Exponent) (left : List Char) : Except Fault Number :=
  if digitsValue (n.whole ++ n.fraction) = 0 ∨ e.sign = some true then
    .ok (signedZero n.negative)
  else
    let column := n.size - left.length + 1
    if left.length = 1 then .error (.outOfRange column)
    else .error (.malformed (column + 1))

/-- The integer that whole digits spell, if it can be stored; negative zero is
no integer. -/
def integer? (negative : Bool) (whole : List Char) : Option Number :=
  let n := digitsValue whole
  if negative then
    if n = 0 then none else Number.ofInt? (-(n : Int))
  else Number.ofInt? n

/-- The stored number that a numeral denotes. -/
def value (n : Numeral) : Except Fault Number :=
  match n.exponent with
  | some e =>
    match exponentValue 0 e.digits with
    | .ok k => n.nearestDouble (if e.sign = some true then -(k : Int) else k)
    | .error left => n.hugeExponentValue e left
  | none =>
    if n.fraction.isEmpty then
      match integer? n.negative n.whole with
      | some number => .ok number
      | none => n.nearestDouble 0
    else n.nearestDouble 0

/-- The number that a whole text spells, if it spells one. -/
def ofText? (text : String) : Option Number :=
  match read text.toList with
  | .numeral n [] => n.value.toOption
  | _ => none

end Numeral

end JsonTypedef
