import JsonTypedef.Json.Number

/-!
# Primitive types

The eleven types that a schema can name, and the numbers that each of them
admits.
-/

namespace JsonTypedef

/-- The types of the type form. -/
inductive TypeKind where
  | boolean
  | float32
  | float64
  | int8
  | uint8
  | int16
  | uint16
  | int32
  | uint32
  | string
  | timestamp
deriving DecidableEq

namespace TypeKind

/-- All types, in the order of the vocabulary. -/
def all : List TypeKind :=
  [.boolean, .float32, .float64, .int8, .uint8, .int16, .uint16, .int32, .uint32, .string,
    .timestamp]

/-- The keyword value that names a type. -/
def name : TypeKind → String
  | .boolean => "boolean"
  | .float32 => "float32"
  | .float64 => "float64"
  | .int8 => "int8"
  | .uint8 => "uint8"
  | .int16 => "int16"
  | .uint16 => "uint16"
  | .int32 => "int32"
  | .uint32 => "uint32"
  | .string => "string"
  | .timestamp => "timestamp"

/-- The type that a keyword value names. -/
def ofName? (s : String) : Option TypeKind :=
  all.find? fun kind => kind.name = s

/-- The type admits numbers. -/
def isNumeric : TypeKind → Bool
  | .boolean | .string | .timestamp => false
  | _ => true

/-- The least and the greatest number of an integer type. -/
def bounds? : TypeKind → Option (Int × Int)
  | .int8 => some (-128, 127)
  | .uint8 => some (0, 255)
  | .int16 => some (-32768, 32767)
  | .uint16 => some (0, 65535)
  | .int32 => some (-2147483648, 2147483647)
  | .uint32 => some (0, 4294967295)
  | _ => none

/-- The type is one of the two whose range check can be turned off. -/
def isWide : TypeKind → Bool
  | .int32 | .uint32 => true
  | _ => false

/-- The type admits the number.  Float types admit every number, integer types
the whole numbers within their bounds; without `wideRange` the 32-bit types
admit every whole number. -/
def acceptsNumber (kind : TypeKind) (wideRange : Bool) (n : Number) : Bool :=
  match kind.bounds? with
  | none => kind.isNumeric
  | some (low, high) =>
    n.isIntegral && ((!wideRange && kind.isWide) || n.isWithin low high)

end TypeKind

end JsonTypedef
