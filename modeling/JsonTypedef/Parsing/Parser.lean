import JsonTypedef.Parsing.Lookahead
import JsonTypedef.Validation

/-!
# Parsing

A parser reads JSON text along the nodes of a program and stops at the first
place where the text is no JSON or does not fit its node.  It accepts what the
validator accepts: a text is parsed to the value it denotes, members in their
order, and repeated names are refused.  Nodes count towards the depth, and so do
the containers of values that no node describes.
-/

namespace JsonTypedef
namespace Parsing

/-- Read the value of a member: the member's name, the position of the cursor in
front of the member, and the scanner for what follows the colon. -/
abbrev MemberValue :=
  String → Nat → Scanner Failure Value

/-- Read one member of an object, given the members before it. -/
def member (value : MemberValue) (before : Members) : Scanner Failure (String × Value) := fun c =>
  match c.take? with
  | some ⟨.str key, afterKey, hkey⟩ =>
    if before.has key then .error ⟨.duplicateKey key, c.stream.start⟩
    else
      match afterKey.accept? .colon with
      | none => .error (.unexpected .colon afterKey)
      | some colon =>
        (value key c.pos colon.rest).map fun t =>
          ((t.map (key, ·)).after colon.shorter).after hkey
  | _ => .error (.stuck isQuote .key c)

/-- Read the members of an object from behind its opening brace. -/
def members (value : MemberValue) : Scanner Failure Members :=
  Scanner.enclosed .closeBrace (.unexpected .commaOrBrace) (member value)

/-- Read the items of an array from behind its opening bracket. -/
def items (item : Scanner Failure Value) : Scanner Failure (List Value) :=
  Scanner.enclosed .closeBracket (.unexpected .commaOrBracket) fun _ => item

/-- Read any value, its containers filled by `inner`; without it the depth is
used up and there are none. -/
def untypedWith (config : Config) (inner : Option (Scanner Failure Value)) :
    Scanner Failure Value := fun c =>
  match c.take? with
  | some ⟨.null, rest, h⟩ => .ok ⟨.null, rest, h⟩
  | some ⟨.bool b, rest, h⟩ => .ok ⟨.bool b, rest, h⟩
  | some ⟨.str s, rest, h⟩ => .ok ⟨.str s, rest, h⟩
  | some ⟨.num _ n, rest, h⟩ => .ok ⟨.num n, rest, h⟩
  | some ⟨.openBracket, rest, h⟩ =>
    match inner with
    | none => .error ⟨.depthExceeded config.maxDepth, c.stream.start⟩
    | some value => (items value rest).map fun t => (t.map .arr).after h
  | some ⟨.openBrace, rest, h⟩ =>
    match inner with
    | none => .error ⟨.depthExceeded config.maxDepth, c.stream.start⟩
    | some value =>
      (members (fun _ _ => value) rest).map fun t => (t.map .obj).after h
  | some _ => .error (.unexpected .value c)
  | none => .error (.stuck opensValue .value c)

/-- Read any value with the given depth left. -/
def untyped (config : Config) : Nat → Scanner Failure Value
  | 0 => untypedWith config none
  | depth + 1 => untypedWith config (some (untyped config depth))

/-- Keep a primitive value that the type admits. -/
def typed (config : Config) (kind : TypeKind) {c : Cursor} (t : Taken Value c) :
    Except Failure (Taken Value c) :=
  if Validator.typeAccepts config kind t.value then .ok t
  else .error ⟨.typeMismatch kind t.value, c.stream.start⟩

/-- Read a primitive value of a type. -/
def primitive (config : Config) (kind : TypeKind) : Scanner Failure Value := fun c =>
  match c.take? with
  | some ⟨.bool b, rest, h⟩ => typed config kind ⟨.bool b, rest, h⟩
  | some ⟨.str s, rest, h⟩ => typed config kind ⟨.str s, rest, h⟩
  | some ⟨.num _ n, rest, h⟩ => typed config kind ⟨.num n, rest, h⟩
  | _ => .error (.stuck opensPrimitive (.primitive kind) c)

/-- Read one of the listed strings. -/
def enumValue (values : List String) : Scanner Failure Value := fun c =>
  match c.take? with
  | some ⟨.str s, rest, h⟩ =>
    if s ∈ values then .ok ⟨.str s, rest, h⟩
    else .error ⟨.unknownEnumValue s, c.stream.start⟩
  | _ => .error (.stuck isQuote .enumString c)

/-- Read the value of a tag member. -/
def tagString : Scanner Failure Value := fun c =>
  match c.take? with
  | some ⟨.str s, rest, h⟩ => .ok ⟨.str s, rest, h⟩
  | _ => .error (.stuck isQuote .string c)

/-- How the value of an object's member is read: the tag as a string, declared
members along their nodes, others as any value where they are accepted. -/
def memberValue (node : Program.Node → Scanner Failure Value) (untyped : Scanner Failure Value)
    (p : Program.Properties) (tag : Option String) : MemberValue := fun key pos =>
  if tag = some key then tagString
  else
    match p.member? key with
    | some n => node n
    | none =>
      if p.additional then untyped
      else fun _ => .error ⟨.unexpectedProperty key, pos⟩

/-- Read an object along its declarations from behind its opening brace. -/
def properties (node : Program.Node → Scanner Failure Value) (untyped : Scanner Failure Value)
    (p : Program.Properties) (tag : Option String) : Scanner Failure Value := fun c =>
  match members (memberValue node untyped p tag) c with
  | .error e => .error e
  | .ok t =>
    match p.required.find? fun m => !t.value.has m.1 with
    | some m => .error ⟨.missingProperty m.1, t.rest.pos - 1⟩
    | none => .ok (t.map .obj)

/-- Read an object along the branch that its tag selects. -/
def discriminator (node : Program.Node → Scanner Failure Value)
    (untyped : Scanner Failure Value) (tag : String)
    (branches : List (String × Program.Branch)) : Scanner Failure Value := fun c =>
  match c.accept? .openBrace with
  | none => .error (.unexpected .object c)
  | some brace =>
    match lookAhead tag brace.rest with
    | .error e => .error e
    | .ok (value, pos) =>
      match List.lookup value branches with
      | none => .error ⟨.unmappedTag value, pos⟩
      | some branch =>
        (properties node untyped branch.properties (some tag) brace.rest).map fun t =>
          t.after brace.shorter

/-- Read a value along a form. -/
def form (config : Config) (target : Nat → Program.Node)
    (node : Program.Node → Scanner Failure Value) (untyped : Scanner Failure Value) :
    Program.Form → Scanner Failure Value
  | .empty => untyped
  | .ref i => node (target i)
  | .type kind => primitive config kind
  | .enum values => enumValue values
  | .elements item => fun c =>
    match c.accept? .openBracket with
    | none => .error (.unexpected .array c)
    | some bracket =>
      (items (node item) bracket.rest).map fun t =>
        (t.map .arr).after bracket.shorter
  | .values item => fun c =>
    match c.accept? .openBrace with
    | none => .error (.unexpected .object c)
    | some brace =>
      (members (fun _ _ => node item) brace.rest).map fun t =>
        (t.map .obj).after brace.shorter
  | .properties p => fun c =>
    match c.accept? .openBrace with
    | none => .error (.unexpected .object c)
    | some brace =>
      (properties node untyped p none brace.rest).map fun t =>
        t.after brace.shorter
  | .discriminator tag branches => discriminator node untyped tag branches

/-- Read null where a nullable node meets a word that starts like it, else read
along the form. -/
def nullOr (nullable : Bool) (other : Scanner Failure Value) : Scanner Failure Value := fun c =>
  match nullable, c.stream with
  | true, .stuck _ 'n' (some (fault, pos)) => .error ⟨.token fault, pos⟩
  | true, _ =>
    match c.accept? .null with
    | some t => .ok (t.map fun _ => .null)
    | none => other c
  | false, _ => other c

/-- Read a value along a node with the given depth left. -/
def node (config : Config) (target : Nat → Program.Node) :
    Nat → Program.Node → Scanner Failure Value
  | 0, _ => fun c => .error ⟨.depthExceeded config.maxDepth, c.pos⟩
  | depth + 1, n => fun c =>
    (nullOr n.nullable (form config target (node config target depth) (untyped config depth) n.form)
      c.skipBlanks).map Taken.afterBlanks

end Parsing

/-- A program that reads text, with the options of its runs. -/
structure Parser where
  program : Program
  config : Config

namespace Parser

/-- Read a whole text as one value that the schema accepts. -/
def parse (parser : Parser) (text : String) : Except Parsing.Failure Value :=
  match
    Parsing.node parser.config parser.program.target parser.config.maxDepth parser.program.root
      (.ofText text)
  with
  | .error e => .error e
  | .ok t =>
    match t.rest.stream with
    | .finish _ => .ok t.value
    | rest => .error ⟨.trailing, rest.start⟩

end Parser

end JsonTypedef
