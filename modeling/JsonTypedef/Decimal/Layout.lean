import JsonTypedef.Decimal.Shortest

/-!
# Layouts of decimal text

A layout says how the digits of a decimal are spelled: which decimal exponents
are written positionally, whether a whole number keeps a fraction, how the
exponent is signed, and whether zero keeps its sign.
-/

namespace JsonTypedef

/-- How decimal digits are spelled. -/
structure Layout where
  /-- The least decimal exponent of the leading digit written positionally. -/
  least : Int
  /-- The greatest decimal exponent of the leading digit written positionally. -/
  most : Int
  /-- A whole number written positionally ends in `.0`. -/
  fraction : Bool
  /-- A positive exponent carries a plus sign. -/
  plus : Bool
  /-- Negative zero carries a minus sign. -/
  signedZero : Bool

namespace Layout

/-- The digits of `n` as characters. -/
def digits (n : Nat) : List Char :=
  Nat.toDigits 10 n

/-- Remove the zeros at the end of a digit list. -/
def trimZeros (ds : List Char) : List Char :=
  (ds.reverse.dropWhile (· = '0')).reverse

/-- The digits `ds` with the leading one at decimal exponent `x`, written
positionally. -/
def positional (l : Layout) (ds : List Char) (x : Int) : List Char :=
  if x < 0 then
    '0' :: '.' :: (List.replicate (-x - 1).toNat '0' ++ ds)
  else
    let whole := x.toNat + 1
    if whole < ds.length then
      ds.take whole ++ '.' :: ds.drop whole
    else
      ds ++ List.replicate (whole - ds.length) '0' ++ (if l.fraction then ['.', '0'] else [])

/-- The digits `ds` with the leading one at decimal exponent `x`, written with
an exponent. -/
def scientific (l : Layout) (ds : List Char) (x : Int) : List Char :=
  let mantissa :=
    match ds with
    | d :: e :: rest => d :: '.' :: e :: rest
    | short => short
  let sign := if x < 0 then ['-'] else if l.plus then ['+'] else []
  mantissa ++ 'e' :: sign ++ digits x.natAbs

/-- The text of a positive decimal. -/
def decimal (l : Layout) (d : Decimal) : List Char :=
  let all := digits d.digits
  let x := d.exponent + (all.length : Int) - 1
  let ds := trimZeros all
  if l.least ≤ x ∧ x ≤ l.most then l.positional ds x else l.scientific ds x

/-- The text of a double. -/
def double (l : Layout) (d : Double) : List Char :=
  if d.rank = 0 then
    (if d.negative && l.signedZero then ['-'] else []) ++
      (if l.fraction then ['0', '.', '0'] else ['0'])
  else
    (if d.negative then ['-'] else []) ++ l.decimal (Decimal.shortest d.rank)

/-- Compact JSON text keeps a fraction or an exponent on every double, so that
it reads back as a double. -/
def compact : Layout :=
  ⟨-5, 15, true, true, true⟩

/-- Canonical text follows the number spelling of ECMAScript. -/
def canonical : Layout :=
  ⟨-6, 20, false, true, false⟩

end Layout

end JsonTypedef
