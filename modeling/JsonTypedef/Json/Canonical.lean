import JsonTypedef.Json.Writer

/-!
# Canonical text

The canonical text of a value depends neither on the order of its members nor
on the spelling of its doubles.  Members are sorted by their names as written,
quotes and escapes included, and doubles are spelled as in ECMAScript.
-/

namespace JsonTypedef
namespace Value

/-- Order of written names: code point by code point, a proper beginning first. -/
def nameLe (a b : String × List Char) : Bool :=
  (compare (String.ofList (Quoted.encode a.1)) (String.ofList (Quoted.encode b.1))).isLE

/-- The members of an object with their texts, sorted by written name. -/
def sortedMembers (ms : List (String × List Char)) : List (String × List Char) :=
  ms.mergeSort nameLe

mutual

/-- The canonical text of a value. -/
def canonical : Value → List Char
  | .null => ['n', 'u', 'l', 'l']
  | .bool true => ['t', 'r', 'u', 'e']
  | .bool false => ['f', 'a', 'l', 's', 'e']
  | .num n => n.text .canonical
  | .str s => Quoted.encode s
  | .arr items => bracketed '[' ']' (canonicalItems items)
  | .obj ms =>
    bracketed '\x7b' '\x7d'
      ((sortedMembers (canonicalMembers ms)).map fun m => memberText m.1 m.2)

/-- The canonical texts of the values of a list. -/
def canonicalItems : List Value → List (List Char)
  | [] => []
  | v :: vs => canonical v :: canonicalItems vs

/-- The members of a list with their values' canonical texts. -/
def canonicalMembers : List (String × Value) → List (String × List Char)
  | [] => []
  | (key, v) :: ms => (key, canonical v) :: canonicalMembers ms

end

/-- The canonical text of a value as a string. -/
def canonicalText (v : Value) : String :=
  String.ofList v.canonical

end Value
end JsonTypedef
