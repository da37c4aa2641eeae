import JsonTypedef.Decimal.Double

/-!
# Shortest decimal digits

The decimal text of a double is a point of the coarsest decimal grid that meets
the interval of reals rounding to the double; of the points of that grid the
nearest one is taken, and of two equally near ones the even one.  All
comparisons are between natural numbers.
-/

namespace JsonTypedef

/-- A positive decimal: the natural number `digits` times `10 ^ exponent`. -/
structure Decimal where
  digits : Nat
  exponent : Int
deriving DecidableEq

namespace Decimal

/-- The number of decimal digits of `n`. -/
def width (n : Nat) : Nat :=
  (Nat.toDigits 10 n).length

/-- A grid step `10 ^ e` as a fraction of natural numbers. -/
def stepNum (e : Int) : Nat :=
  Nat.pow 10 e.toNat

/-- The denominator of the grid step `10 ^ e`. -/
def stepDen (e : Int) : Nat :=
  Nat.pow 10 (-e).toNat

/-- The point `n * 10 ^ e` rounds to the magnitude of rank `r`: it lies between
the midpoints to the neighbouring magnitudes, the midpoints included exactly
when the rank is even. -/
def readsBack (r n : Nat) (e : Int) : Bool :=
  let low := (Magnitude.units (r - 1) + Magnitude.units r) * stepDen e
  let high := (Magnitude.units r + Magnitude.units (r + 1)) * stepDen e
  let point := n * stepNum e * (2 * unitsPerOne)
  if r % 2 = 0 then low ≤ point && point ≤ high
  else low < point && point < high

/-- The point of the grid `10 ^ e` that reads back as rank `r` and lies nearest
to it, if the grid has one. -/
def onGrid? (r : Nat) (e : Int) : Option Nat :=
  let num := Magnitude.units r * stepDen e
  let den := unitsPerOne * stepNum e
  let below := num / den
  let best := divNearestEven num den
  if readsBack r best e then some best
  else if readsBack r below e then some below
  else if readsBack r (below + 1) e then some (below + 1)
  else none

/-- Search the grids from `10 ^ e` downwards, `tries` further grids at most. -/
def search (r : Nat) : Nat → Int → Decimal
  | 0, e => ⟨divNearestEven (Magnitude.units r * stepDen e) (unitsPerOne * stepNum e), e⟩
  | tries + 1, e =>
    match onGrid? r e with
    | some n => ⟨n, e⟩
    | none => search r tries (e - 1)

/-- The decimal exponent of the leading digit of the magnitude of rank `r`. -/
def leadingExponent (r : Nat) : Int :=
  (width (Magnitude.units r * Nat.pow 10 400 / unitsPerOne) : Int) - 401

/-- The shortest decimal that reads back as the positive magnitude of rank `r`.
Seventeen digits always read back, so eighteen grids from the one above the
leading digit suffice. -/
def shortest (r : Nat) : Decimal :=
  search r 18 (leadingExponent r + 1)

end Decimal

end JsonTypedef
