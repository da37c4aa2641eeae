import JsonTypedef.Json.Numeral
import JsonTypedef.Json.Quoted

/-!
# Skimming values

A value that nobody asks for is skimmed: its text has to follow the grammar of
JSON, but what it denotes is not looked at.  Numbers out of range and unpaired
surrogates pass, and so does any nesting.
-/

namespace JsonTypedef
namespace Skim

/-- A value with brackets of its own. -/
inductive Container where
  | array
  | object
deriving DecidableEq

/-- A piece of text that a skim goes over at once.  Only strings are told apart
from other values without brackets, since keys are strings. -/
inductive Piece where
  | opening (c : Container)
  | closing (c : Container)
  | comma
  | colon
  | string
  | other

/-- What has to come next inside the innermost open container.  Where the first
item or key is awaited the container may end as well. -/
inductive Awaited where
  | value (first : Bool)
  | key (first : Bool)
  | colon
  | separator
deriving DecidableEq

/-- What comes behind the opening bracket of a container, or behind a comma. -/
def Container.awaits (first : Bool) : Container → Awaited
  | .array => .value first
  | .object => .key first

/-- The containers still open behind a piece, the innermost first, and what has
to come next, if the piece may stand at its place. -/
def next (opened : List Container) (awaited : Awaited) (p : Piece) :
    Option (List Container × Awaited) :=
  match awaited, p, opened with
  | .value _, .string, opened | .value _, .other, opened => some (opened, .separator)
  | .value _, .opening c, opened => some (c :: opened, c.awaits true)
  | .value true, .closing .array, .array :: outer => some (outer, .separator)
  | .key _, .string, opened => some (opened, .colon)
  | .key true, .closing .object, .object :: outer => some (outer, .separator)
  | .colon, .colon, opened => some (opened, .value false)
  | .separator, .comma, c :: outer => some (c :: outer, c.awaits false)
  | .separator, .closing c, d :: outer => if c = d then some (outer, .separator) else none
  | _, _, _ => none

/-- Skip a string from behind its opening quote. -/
def skipString (cs : List Char) : Option (List Char) :=
  match cs with
  | [] => none
  | '"' :: rest => some rest
  | '\\' :: 'u' :: rest =>
    match h : Quoted.readHex rest with
    | none => none
    | some (_, tail) =>
      have := Quoted.readHex_length h
      skipString tail
  | '\\' :: c :: rest => if (Quoted.shortEscape? c).isSome then skipString rest else none
  | c :: rest => if c.toNat < 0x20 then none else skipString rest
termination_by cs.length
decreasing_by all_goals (simp only [List.length_cons]; omega)

/-- The piece at the front of a text that starts with no blank. -/
def piece? (cs : List Char) : Option (Piece × List Char) :=
  match cs with
  | '[' :: rest => some (.opening .array, rest)
  | '\x7b' :: rest => some (.opening .object, rest)
  | ']' :: rest => some (.closing .array, rest)
  | '\x7d' :: rest => some (.closing .object, rest)
  | ',' :: rest => some (.comma, rest)
  | ':' :: rest => some (.colon, rest)
  | '"' :: rest => (skipString rest).map (.string, ·)
  | 'n' :: 'u' :: 'l' :: 'l' :: rest => some (.other, rest)
  | 't' :: 'r' :: 'u' :: 'e' :: rest => some (.other, rest)
  | 'f' :: 'a' :: 'l' :: 's' :: 'e' :: rest => some (.other, rest)
  | cs =>
    match Numeral.read cs with
    | .numeral _ rest => some (.other, rest)
    | .missing _ _ => none

/-- Go over the pieces of a text until all containers are closed behind a value;
a piece takes up at least one character. -/
def skim (opened : List Container) (awaited : Awaited) (cs : List Char) : Option (List Char) :=
  if opened.isEmpty && awaited = .separator then some cs
  else
    match piece? (Source.skipBlanks 0 cs).chars with
    | none => none
    | some (p, rest) =>
      match next opened awaited p with
      | none => none
      | some (opened, awaited) =>
        if rest.length < cs.length then skim opened awaited rest else none
termination_by cs.length

/-- Skim a value at the front of a text: what follows it. -/
def value? (cs : List Char) : Option (List Char) :=
  skim [] (.value false) cs

end Skim
end JsonTypedef
