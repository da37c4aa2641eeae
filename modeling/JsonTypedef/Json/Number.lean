import JsonTypedef.Decimal.Layout

/-!
# JSON numbers

A JSON number is stored as an integer of at most 64 bits, signed or unsigned,
or as a finite double.  The two kinds are different values even when they denote
the same quantity: `1` and `1.0` are written differently.
-/

namespace JsonTypedef

/-- The integer fits a signed or an unsigned 64-bit word. -/
def Number.fits (n : Int) : Bool :=
  -0x8000000000000000 ≤ n && n ≤ 0xffffffffffffffff

/-- A stored JSON number. -/
inductive Number where
  /-- An integer of at most 64 bits. -/
  | int (n : Int) (fits : Number.fits n)
  /-- A finite double. -/
  | float (d : Double)
deriving DecidableEq

namespace Number

/-- The number for an integer, if it fits. -/
def ofInt? (n : Int) : Option Number :=
  if h : fits n then some (.int n h) else none

/-- The exact value, counted in units of `2 ^ (-1074)`. -/
def units : Number → Int
  | .int n _ => n * (unitsPerOne : Int)
  | .float d => d.units

/-- The value is a whole number. -/
def isIntegral : Number → Bool
  | .int _ _ => true
  | .float d => d.isIntegral

/-- The value lies between two whole numbers, both included. -/
def isWithin (n : Number) (low high : Int) : Bool :=
  low * (unitsPerOne : Int) ≤ n.units && n.units ≤ high * (unitsPerOne : Int)

/-- The decimal text of an integer. -/
def intText (n : Int) : List Char :=
  if n < 0 then '-' :: Layout.digits n.natAbs else Layout.digits n.natAbs

/-- The text of a number under a layout; integers are spelled alike by all. -/
def text (l : Layout) : Number → List Char
  | .int n _ => intText n
  | .float d => l.double d

end Number

end JsonTypedef
