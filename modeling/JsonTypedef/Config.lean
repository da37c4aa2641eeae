import JsonTypedef.Text.Blank
import JsonTypedef.Text.Quotation

/-!
# Configuration

The options that every run of a compiled schema obeys, and their reading from
named variables.
-/

namespace JsonTypedef

/-- The options of a run. -/
structure Config where
  /-- Collect every violation instead of stopping at the first. -/
  allErrors : Bool := false
  /-- The greatest nesting of schema nodes. -/
  maxDepth : Nat := 256
  /-- Check the range of the 32-bit integer types. -/
  int32Range : Bool := true
  /-- Accept a bare date as a timestamp. -/
  allowDate : Bool := false
deriving DecidableEq

/-- A run met a nesting beyond the configured limit. -/
structure DepthExceeded where
  limit : Nat
deriving DecidableEq

namespace DepthExceeded

/-- The wording of the failure. -/
def message (e : DepthExceeded) : String :=
  "maximum depth of " ++ toString e.limit ++ " exceeded"

end DepthExceeded

namespace Config

/-- Why the value of a variable cannot be interpreted. -/
inductive Reason where
  | notBoolean
  | notDigit
  | noDigits
  | tooLarge
  | zero
deriving DecidableEq

/-- The wording of a reason. -/
def Reason.message : Reason → String
  | .notBoolean => "expected a boolean"
  | .notDigit => "invalid digit found in string"
  | .noDigits => "cannot parse integer from empty string"
  | .tooLarge => "number too large to fit in target type"
  | .zero => "must be at least 1"

/-- A variable whose value cannot be interpreted. -/
structure InvalidValue where
  name : String
  value : String
  reason : Reason

/-- The wording of the refusal of a variable. -/
def InvalidValue.message (e : InvalidValue) : String :=
  "invalid value " ++ Text.quoted e.value ++ " for " ++ e.name ++ ": " ++ e.reason.message

/-- A letter of ASCII in lower case. -/
def lower (c : Char) : Char :=
  if 'A' ≤ c ∧ c ≤ 'Z' then Char.ofNat (c.toNat + 32) else c

/-- A boolean in one of its spellings, blanks at the ends and case of ASCII
letters aside. -/
def readFlag (value : String) : Except Reason Bool :=
  let word := String.ofList ((Text.trim value.toList).map lower)
  if word ∈ ["1", "true", "yes", "on"] then .ok true
  else if word ∈ ["0", "false", "no", "off"] then .ok false
  else .error .notBoolean

/-- The number of depths: they fit an unsigned 64-bit word. -/
def depthBound : Nat :=
  0x10000000000000000

/-- Decimal digits behind those of `n`; the first fault from the left counts. -/
def readDecimal (n : Nat) : List Char → Except Reason Nat
  | [] => .ok n
  | c :: rest =>
    if '0' ≤ c ∧ c ≤ '9' then
      let next := n * 10 + (c.toNat - '0'.toNat)
      if next < depthBound then readDecimal next rest else .error .tooLarge
    else .error .notDigit

/-- A depth: a positive decimal with an optional plus sign, blanks at the ends
aside. -/
def readDepth (value : String) : Except Reason Nat := do
  let digits ← (match Text.trim value.toList with
    | [] => .error .noDigits
    | ['+'] => .error .notDigit
    | '+' :: rest => .ok rest
    | cs => .ok cs : Except Reason (List Char))
  let n ← readDecimal 0 digits
  if n = 0 then .error .zero else .ok n

/-- The option under a variable, or its default where the variable is unset. -/
def readOption {α : Type} (lookup : String → Option String) (name : String) (default : α)
    (reader : String → Except Reason α) : Except InvalidValue α :=
  match lookup name with
  | none => .ok default
  | some value =>
    match reader value with
    | .ok a => .ok a
    | .error reason => .error ⟨name, value, reason⟩

/-- Read the options from variables, in the order in which faults are found. -/
def ofVariables (lookup : String → Option String) : Except InvalidValue Config := do
  let defaults : Config := {}
  let allErrors ← readOption lookup "JTDC_ALL_ERRORS" defaults.allErrors readFlag
  let maxDepth ← readOption lookup "JTDC_MAX_DEPTH" defaults.maxDepth readDepth
  let int32Range ← readOption lookup "JTDC_INT32_RANGE" defaults.int32Range readFlag
  let allowDate ← readOption lookup "JTDC_ALLOW_DATE" defaults.allowDate readFlag
  .ok ⟨allErrors, maxDepth, int32Range, allowDate⟩

end Config

end JsonTypedef
