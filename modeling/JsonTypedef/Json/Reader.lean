import JsonTypedef.Json.Scan
import JsonTypedef.Json.Value

/-!
# Reading JSON text

`Value.scan` reads one value whose containers nest no deeper than a given
bound, keeping repeated member names as written.  `Value.read?` reads a whole
text with its repetitions resolved.
-/

namespace JsonTypedef
namespace Value

/-- A member of an object: a string, a colon and a value. -/
def scanMember (value : Scanner Unit Value) : Scanner Unit (String × Value) := fun c =>
  match c.take? with
  | some ⟨.str key, afterKey, hkey⟩ =>
    match afterKey.accept? .colon with
    | some colon =>
      (value colon.rest).map fun t =>
        ((t.map (key, ·)).after colon.shorter).after hkey
    | none => .error ()
  | _ => .error ()

/-- A value whose containers are filled by `inner`; without it there are none. -/
def scanWith (inner : Option (Scanner Unit Value)) : Scanner Unit Value := fun c =>
  match c.take? with
  | some ⟨.null, rest, h⟩ => .ok ⟨.null, rest, h⟩
  | some ⟨.bool b, rest, h⟩ => .ok ⟨.bool b, rest, h⟩
  | some ⟨.str s, rest, h⟩ => .ok ⟨.str s, rest, h⟩
  | some ⟨.num _ n, rest, h⟩ => .ok ⟨.num n, rest, h⟩
  | some ⟨.openBracket, rest, h⟩ =>
    match inner with
    | none => .error ()
    | some value =>
      (Scanner.enclosed .closeBracket (fun _ => ()) (fun _ => value) rest).map fun t =>
        (t.map .arr).after h
  | some ⟨.openBrace, rest, h⟩ =>
    match inner with
    | none => .error ()
    | some value =>
      (Scanner.enclosed .closeBrace (fun _ => ()) (fun _ => scanMember value) rest).map fun t =>
        (t.map .obj).after h
  | _ => .error ()

/-- A value whose containers nest at most `levels` deep. -/
def scan : Nat → Scanner Unit Value
  | 0 => scanWith none
  | levels + 1 => scanWith (some (scan levels))

/-- Read a whole text as one value, repeated names kept as written. -/
def readRaw? (levels : Nat) (text : String) : Option Value :=
  match scan levels (.ofText text) with
  | .ok ⟨v, ⟨_, .finish _⟩, _⟩ => some v
  | _ => none

/-- Read a whole text whose containers nest at most `levels` deep. -/
def read? (levels : Nat) (text : String) : Option Value :=
  (readRaw? levels text).map distinct

/-- Read a whole text of any nesting: no text nests deeper than it has tokens. -/
def ofText? (text : String) : Option Value :=
  read? (Cursor.ofText text).size text

end Value
end JsonTypedef
