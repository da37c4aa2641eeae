import JsonTypedef.Parsing.Parser
import JsonTypedef.Proofs.Bytewise.Lexer
import JsonTypedef.Proofs.Program.Index
import Mathlib.Data.Nat.PSub

/-!
# Parsing a text byte by byte

The parser that looks at bytes decides by the next byte how to go on, and finds
members, branches and the targets of refs at their places in the program.  It
panics at a place where the program has no entry, as well as where a reader of
tokens does.  The depth that is left is handed down and not counted up.
-/

namespace JsonTypedef
namespace Bytewise

open Parsing Program

section

variable (text : String)

/-! ## Containers -/

section

variable {α : Type} (close : Char) (what : Expected)

/-- Read the comma behind an item, or the closing bracket, whose offset is
given. -/
def closeOrContinue : Reader (Option Nat) := do
  skipBlanks text
  if ← eat text ',' then return none
  else do
    let offset ← get
    expect text close what
    return some offset

/-- Read items up to the closing bracket, whose offset is given too.  Each item
is read with the list of the items before it, the latest first. -/
def Text.separatedFrom (text : Text) (close : Char) (what : Expected)
    (item : List α → Reader α) (before : List α) : Reader (List α × Nat) := do
  let a ← item before
  match ← closeOrContinue text close what with
  | some offset => return ([a], offset)
  | none => do
    let (rest, offset) ← text |>.separatedFrom close what item (a :: before)
    return (a :: rest, offset)
partial_fixpoint

export Text (separatedFrom)

/-- Read items from behind the opening bracket.  Where there are none, the
closing bracket was read last. -/
def enclosed (item : List α → Reader α) : Reader (List α × Nat) := do
  skipBlanks text
  if ← eat text close then do
    let offset ← Nat.ppred (← get)
    return ([], offset)
  else separatedFrom text close what item []

end

/-- Read the items of an array from behind its opening bracket. -/
def items (item : Reader Value) : Reader (List Value) := do
  let (vs, _) ← enclosed text ']' .commaOrBracket fun _ => item
  return vs

/-- Read the colon behind the name of a member. -/
def colon : Reader Unit := do
  skipBlanks text
  expect text ':' .colon

/-- Read the name of a member, which must not be that of a member before it. -/
def key (before : Members) : Reader String := do
  skipBlanks text
  let start ← get
  let name ← stringAs text .key
  if before.has name then throw ⟨.duplicateKey name, start⟩
  else do
    colon text
    return name

/-- Read one member of an object, given the members before it. -/
def member (value : String → Nat → Reader Value) (before : Members) :
    Reader (String × Value) := do
  let start ← get
  let name ← key text before
  let v ← value name start
  return (name, v)

/-- Read the members of an object from behind its opening brace, and the offset
of its closing brace. -/
def members (value : String → Nat → Reader Value) : Reader (Members × Nat) :=
  enclosed text '\x7d' .commaOrBrace (member text value)

/-! ## Values without a node -/

/-- Read any value, its containers filled by `inner`; without it the depth is
used up. -/
def untypedWith (config : Config) (inner : Option (Reader Value)) :
    Reader Value := do
  skipBlanks text
  match ← peek text, inner with
  | some '\x7b', none | some '[', none =>
    throw ⟨.depthExceeded config.maxDepth, ← get⟩
  | some '\x7b', some value => do
    let _ ← eat text '\x7b'
    let (ms, _) ← members text fun _ _ => value
    return .obj ms
  | some '[', some value => do
    let _ ← eat text '['
    return .arr (← items text value)
  | _, _ => scalar text true .value

/-- Read any value with the given depth left. -/
def untyped (config : Config) : Nat → Reader Value
  | 0 => untypedWith text config none
  | depth + 1 => untypedWith text config (some (untyped config depth))

/-! ## Values along a node -/

/-- Read a primitive value of a type. -/
def primitive (config : Config) (kind : TypeKind) : Reader Value := do
  let start ← get
  let v ← scalar text false (.primitive kind)
  if Validator.typeAccepts config kind v then return v
  else throw ⟨.typeMismatch kind v, start⟩

/-- Read one of the listed strings. -/
def enumValue (values : List String) : Reader Value := do
  let start ← get
  let s ← stringAs text .enumString
  if s ∈ values then return .str s
  else throw ⟨.unknownEnumValue s, start⟩

/-- Read the value of a member: the tag as a string, a declared member along its
node, which the index finds, others as any value where they are accepted. -/
def memberValue (node : Node → Reader Value) (other : Reader Value)
    (p : Program.Properties) (tag : Option String) (name : String)
    (start : Nat) : Reader Value := do
  if tag = some name then do
    skipBlanks text
    return .str (← string text)
  else
    match p.index[name]? with
    | some slot => do
      let m ← p.inSlot? slot
      node m.2
    | none =>
      if p.additional then other
      else throw ⟨.unexpectedProperty name, start⟩

/-- Read an object along its declarations from behind its opening brace. -/
def properties (node : Node → Reader Value) (other : Reader Value)
    (p : Program.Properties) (tag : Option String) : Reader Value := do
  let (ms, close) ← members text (memberValue text node other p tag)
  match p.required.find? fun m => !ms.has m.1 with
  | some m => throw ⟨.missingProperty m.1, close⟩
  | none => return .obj ms

/-- Read the value of the tag. -/
def tagValue : Reader (String × Nat) := do
  let start ← get
  if (← peek text) = some '"' then do
    let value ← string text
    return (value, start)
  else throw ⟨.tagNotString, start⟩

/-- Look for the tag among the members from here on. -/
def Text.findTag (text : Text) (tag : String) : Reader (String × Nat) := do
  skipBlanks text
  let name ← stringAs text .key
  colon text
  skipBlanks text
  if name = tag then tagValue text
  else do
    skipValue text 0
    skipBlanks text
    if ← eat text ',' then text |>.findTag tag
    else if (← peek text) = some '\x7d' then throw ⟨.missingTag tag, ← get⟩
    else unexpected text .commaOrBrace
partial_fixpoint

export Text (findTag)

/-- Look for the tag of the object that starts here. -/
def scanTag (tag : String) : Reader (String × Nat) := do
  expect text '\x7b' .object
  skipBlanks text
  if (← peek text) = some '\x7d' then throw ⟨.missingTag tag, ← get⟩
  else findTag text tag

/-- Read an object along the branch that its tag selects: the object is scanned
for the tag and then read from its opening brace again. -/
def discriminator (node : Node → Reader Value) (other : Reader Value)
    (tag : String) (branches : List (String × Program.Branch)) : Reader Value := do
  if (← peek text) = some '\x7b' then do
    let rewind ← get
    let (value, start) ← scanTag text tag
    match (branchIndex branches)[value]? with
    | none => throw ⟨.unmappedTag value, start⟩
    | some i => do
      let branch ← branches[i]?
      set rewind
      expect text '\x7b' .object
      properties text node other branch.2.properties (some tag)
  else unexpected text .object

/-- Read a value along a form. -/
def form (parser : Parser) (node : Node → Reader Value) (other : Reader Value) :
    Program.Form → Reader Value
  | .empty => other
  | .ref i => do
    let d ← parser.program.definitions[i]?
    node d.2
  | .type kind => primitive text parser.config kind
  | .enum values => enumValue text values
  | .elements item => do
    expect text '[' .array
    return .arr (← items text (node item))
  | .values item => do
    expect text '\x7b' .object
    let (ms, _) ← members text fun _ _ => node item
    return .obj ms
  | .properties p => do
    expect text '\x7b' .object
    properties text node other p none
  | .discriminator tag branches => discriminator text node other tag branches

/-- Read a value along a node with the given depth left. -/
def node (parser : Parser) : Nat → Node → Reader Value
  | 0, _ => do throw ⟨.depthExceeded parser.config.maxDepth, ← get⟩
  | depth + 1, n => do
    skipBlanks text
    if n.nullable ∧ (← peek text) = some 'n' then do
      literal text "null"
      return .null
    else
      form text parser (node parser depth)
        (untyped text parser.config depth) n.form

/-- Read a whole text as one value. -/
def document (parser : Parser) : Reader Value := do
  let v ← node text parser parser.config.maxDepth parser.program.root
  skipBlanks text
  if (← peek text) = none then return v
  else throw ⟨.trailing, ← get⟩

end

/-- Read a whole text byte by byte. -/
def parse (parser : Parser) (text : String) : Option (Except Failure Value) :=
  (document text parser).run' 0

end Bytewise
end JsonTypedef
