import JsonTypedef.Json.Quoted
import JsonTypedef.Json.Value

/-!
# Writing JSON text

Values are written compactly, without blanks, members in their order.
-/

namespace JsonTypedef
namespace Value

/-- Pieces of text with commas between them. -/
def commaSeparated : List (List Char) → List Char
  | [] => []
  | [piece] => piece
  | piece :: rest => piece ++ ',' :: commaSeparated rest

/-- The pieces of an array or an object between its brackets. -/
def bracketed (opening closing : Char) (pieces : List (List Char)) : List Char :=
  opening :: (commaSeparated pieces ++ [closing])

/-- A member: its quoted name, a colon and the text of its value. -/
def memberText (key : String) (value : List Char) : List Char :=
  Quoted.encode key ++ ':' :: value

mutual

/-- The compact text of a value. -/
def text : Value → List Char
  | .null => ['n', 'u', 'l', 'l']
  | .bool true => ['t', 'r', 'u', 'e']
  | .bool false => ['f', 'a', 'l', 's', 'e']
  | .num n => n.text .compact
  | .str s => Quoted.encode s
  | .arr items => bracketed '[' ']' (itemTexts items)
  | .obj ms => bracketed '\x7b' '\x7d' (memberTexts ms)

/-- The compact texts of the values of a list. -/
def itemTexts : List Value → List (List Char)
  | [] => []
  | v :: vs => text v :: itemTexts vs

/-- The compact texts of the members of a list. -/
def memberTexts : List (String × Value) → List (List Char)
  | [] => []
  | (key, v) :: ms => memberText key (text v) :: memberTexts ms

end

/-- The compact text of a value as a string. -/
def write (v : Value) : String :=
  String.ofList v.text

end Value
end JsonTypedef
