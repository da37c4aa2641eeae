import JsonTypedef.Json.Value
import JsonTypedef.Yaml.Value

/-!
# YAML values as JSON values

A YAML value that uses what JSON has becomes a JSON value.  Tags are dropped,
and keys that are strings, numbers or booleans are named by their text.  Where
two keys have one text the first place and the last value count.
-/

namespace JsonTypedef
namespace Yaml

/-- Why a YAML value is no JSON value. -/
inductive Fault where
  /-- The key of an entry is no string, number or boolean. -/
  | key (k : Value)
  /-- The number is not finite. -/
  | number (text : String)

/-- The wording of a fault. -/
def Fault.message : Fault → String
  | .key k => "unsupported YAML map key type: " ++ k.shown
  | .number text => "cannot represent float " ++ text ++ " in JSON"

namespace Value

/-- The name of a member for a key. -/
def keyText : Value → Except Fault String
  | .str s => .ok s
  | .num n => .ok n.text
  | .bool b => .ok (toString b)
  | k => .error (.key k)

/-- A number as JSON stores it; integers of a document have at most 64 bits. -/
def numberToJson : Number → Except Fault JsonTypedef.Value
  | .int n =>
    match JsonTypedef.Number.ofInt? n with
    | some n => .ok (.num n)
    | none => .error (.number (toString n))
  | .float d => .ok (.num (.float d))
  | .infinity negative => .error (.number (if negative then "-inf" else "inf"))
  | .nan => .error (.number "NaN")

mutual

/-- The JSON value for a YAML value. -/
def toJson : Value → Except Fault JsonTypedef.Value
  | .null => .ok .null
  | .bool b => .ok (.bool b)
  | .num n => numberToJson n
  | .str s => .ok (.str s)
  | .seq items => (itemsToJson items).map .arr
  | .map entries => (entriesToJson entries).map fun ms => .obj (Members.distinct ms)
  | .tagged _ v => toJson v

/-- The JSON values for the items of a sequence. -/
def itemsToJson : List Value → Except Fault (List JsonTypedef.Value)
  | [] => .ok []
  | v :: vs => do
    let item ← toJson v
    let rest ← itemsToJson vs
    .ok (item :: rest)

/-- The members for the entries of a mapping. -/
def entriesToJson : List (Value × Value) → Except Fault (List (String × JsonTypedef.Value))
  | [] => .ok []
  | (k, v) :: es => do
    let key ← keyText k
    let value ← toJson v
    let rest ← entriesToJson es
    .ok ((key, value) :: rest)

end

end Value
end Yaml
end JsonTypedef
