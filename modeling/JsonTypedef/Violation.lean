import JsonTypedef.Json.Skim
import JsonTypedef.Json.Token
import JsonTypedef.Pointer

/-!
# Violations

A violation names a place in an instance and the place in the schema that
rejects it.
-/

namespace JsonTypedef

/-- A rejected value and the keyword that rejects it. -/
structure Violation where
  instancePath : Pointer
  schemaPath : Pointer
deriving DecidableEq

namespace Violation

/-- One line of a report. -/
def text (v : Violation) : String :=
  let place := if v.instancePath.segments.isEmpty then "(root)" else v.instancePath.text
  "  " ++ place ++ ": rejected by " ++ v.schemaPath.text

/-- The report on a list of violations, one line each. -/
def report (vs : List Violation) : String :=
  "\n".intercalate (vs.map text)

/-- Order by instance path, then by schema path. -/
def order (v w : Violation) : Ordering :=
  (v.instancePath.order w.instancePath).then (v.schemaPath.order w.schemaPath)

/-- Violations in increasing order. -/
def sorted (vs : List Violation) : List Violation :=
  vs.mergeSort fun v w => order v w ≠ .gt

/-- The name of the instance path member in JSON. -/
def instanceKey : String :=
  "instancePath"

/-- The name of the schema path member in JSON. -/
def schemaKey : String :=
  "schemaPath"

/-! ## Reading -/

/-- The token at the front of a text, blanks skipped. -/
def token? (cs : List Char) : Option (Token × List Char) :=
  match Lexeme.read (Source.skipBlanks 0 cs) with
  | .token t rest => some (t, rest.chars)
  | _ => none

/-- Read a string. -/
def readString (cs : List Char) : Option (String × List Char) :=
  match token? cs with
  | some (.str s, rest) => some (s, rest)
  | _ => none

/-- Read the items of an array up to its closing bracket, which may also stand in
front of the first of them. -/
def readItems {α : Type} (item : List Char → Option (α × List Char)) (first : Bool)
    (cs : List Char) : Option (List α × List Char) :=
  match token? cs with
  | some (.closeBracket, rest) => if first then some ([], rest) else none
  | _ =>
    match item cs with
    | none => none
    | some (a, rest) =>
      match token? rest with
      | some (.closeBracket, rest) => some ([a], rest)
      | some (.comma, rest) =>
        if rest.length < cs.length then
          (readItems item false rest).map fun (as, tail) => (a :: as, tail)
        else none
      | _ => none
termination_by cs.length

/-- Read an array. -/
def readArray {α : Type} (item : List Char → Option (α × List Char)) (cs : List Char) :
    Option (List α × List Char) :=
  match token? cs with
  | some (.openBracket, rest) => readItems item true rest
  | _ => none

/-- Read a pointer, written as the array of its segments. -/
def readPointer (cs : List Char) : Option (Pointer × List Char) :=
  (readArray readString cs).map fun (segments, rest) => (⟨segments⟩, rest)

/-- The paths of a violation found among the members of an object so far. -/
structure Found where
  place : Option Pointer
  keyword : Option Pointer

/-- Read the value of a member: a path that was not found before, or a value
that is ignored. -/
def readMember (found : Found) (key : String) (cs : List Char) : Option (Found × List Char) :=
  if key = instanceKey then
    if found.place.isSome then none
    else (readPointer cs).map fun (p, rest) => (⟨some p, found.keyword⟩, rest)
  else if key = schemaKey then
    if found.keyword.isSome then none
    else (readPointer cs).map fun (p, rest) => (⟨found.place, some p⟩, rest)
  else (Skim.value? cs).map (found, ·)

/-- Read the members of an object up to its closing brace; both paths have to be
among them. -/
def readMembers (found : Found) (cs : List Char) : Option (Violation × List Char) :=
  match token? cs with
  | some (.str key, rest) =>
    match token? rest with
    | some (.colon, rest) =>
      match readMember found key rest with
      | none => none
      | some (found, rest) =>
        match token? rest, found with
        | some (.comma, rest), found =>
          if rest.length < cs.length then readMembers found rest else none
        | some (.closeBrace, rest), ⟨some place, some keyword⟩ => some (⟨place, keyword⟩, rest)
        | _, _ => none
    | _ => none
  | _ => none
termination_by cs.length

/-- Read a violation: an object in which each path stands once and other members
are ignored, or the array of the two paths. -/
def read (cs : List Char) : Option (Violation × List Char) :=
  match token? cs with
  | some (.openBrace, rest) => readMembers ⟨none, none⟩ rest
  | _ =>
    match readArray readPointer cs with
    | some ([place, keyword], rest) => some (⟨place, keyword⟩, rest)
    | _ => none

/-- Read a whole text as a list of violations. -/
def ofText? (text : String) : Option (List Violation) :=
  match readArray read text.toList with
  | some (vs, rest) => if (Source.skipBlanks 0 rest).chars.isEmpty then some vs else none
  | none => none

end Violation

end JsonTypedef
