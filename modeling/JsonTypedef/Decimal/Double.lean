/-!
# Finite double-precision numbers

A finite IEEE 754 binary64 number is held as a sign and a *rank*: the position
of its magnitude in the increasing list of all finite magnitudes.  Zero has
rank 0, the least positive number rank 1, and the next larger magnitude always
the next rank.  Every finite magnitude is a whole multiple of `2 ^ (-1074)`, so
a decimal is rounded once, to nearest with ties to even, in exact arithmetic on
natural numbers.
-/

namespace JsonTypedef

/-- The quotient of `n` by `d` rounded to the nearest natural number, an exact
half going to the even neighbour. -/
def divNearestEven (n d : Nat) : Nat :=
  let q := n / d
  let r := n % d
  if 2 * r < d then q
  else if d < 2 * r then q + 1
  else if q % 2 = 0 then q
  else q + 1

/-- The units that make up one: magnitudes are counted in units of
`2 ^ (-1074)`. -/
def unitsPerOne : Nat :=
  Nat.pow 2 1074

namespace Magnitude

/-- The number of magnitudes from a power of two up to the next, `2 ^ 52`. -/
def perOctave : Nat :=
  0x10000000000000

/-- The number of finite magnitudes: the rank that an infinite one would have. -/
def infinity : Nat :=
  2047 * perOctave

theorem infinity_pos : 0 < infinity := by
  decide

/-- The value of the magnitude of rank `r`, counted in units of `2 ^ (-1074)`. -/
def units (r : Nat) : Nat :=
  if r < 2 * perOctave then r
  else (perOctave + r % perOctave) * Nat.pow 2 (r / perOctave - 1)

/-- The rank of the magnitude nearest to the quotient of `num` by `den`.  It is
at least `infinity` when the quotient rounds beyond the finite range. -/
def nearest (num den : Nat) : Nat :=
  let scaled := num * unitsPerOne
  let shift := (scaled / den).log2 - 52
  shift * perOctave + divNearestEven scaled (den * Nat.pow 2 shift)

end Magnitude

/-- A finite double: a sign and the rank of its magnitude. -/
structure Double where
  /-- The sign bit; zero has both signs. -/
  negative : Bool
  /-- The position of the magnitude among all finite magnitudes. -/
  rank : Nat
  /-- The magnitude is finite. -/
  finite : rank < Magnitude.infinity
deriving DecidableEq

namespace Double

/-- The double of the given sign and rank, if that rank is finite. -/
def ofRank? (negative : Bool) (rank : Nat) : Option Double :=
  if h : rank < Magnitude.infinity then some ⟨negative, rank, h⟩ else none

/-- The exact value, counted in units of `2 ^ (-1074)`. -/
def units (d : Double) : Int :=
  if d.negative then -(Magnitude.units d.rank : Int) else Magnitude.units d.rank

/-- The value is a whole number. -/
def isIntegral (d : Double) : Bool :=
  d.units % (unitsPerOne : Int) = 0

/-- The rank of the magnitude nearest to `s * 10 ^ e`.  A decimal with its
leading digit beyond `10 ^ 308` is not finite and one that stays below
`10 ^ (-324)` is nearest to zero, so neither power is worked out. -/
def decimalRank (s : Nat) (e : Int) : Nat :=
  let leading : Int := (Nat.toDigits 10 s).length + e
  if s = 0 ∨ leading < -323 then 0
  else if 309 < leading then Magnitude.infinity
  else Magnitude.nearest (s * Nat.pow 10 e.toNat) (Nat.pow 10 (-e).toNat)

/-- The double nearest to `s * 10 ^ e`, if that is finite. -/
def ofDecimal? (negative : Bool) (s : Nat) (e : Int) : Option Double :=
  ofRank? negative (decimalRank s e)

end Double

end JsonTypedef
