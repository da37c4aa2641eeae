import JsonTypedef.Parsing.Parser
import Mathlib.Data.Nat.PSub

/-!
# Parsing with a depth counter

A parser may keep one counter of its depth instead of handing down the depth
that is left.  To enter a node, or a container that no node describes, raises the
counter unless it is at the limit; to leave lowers it again.  A failure leaves
everything at once and lowers nothing, and the look-ahead for a tag does not
touch the counter.  Calls nest as deep as there is room for, whatever the counter
says.
-/

namespace JsonTypedef
namespace Counted

open Parsing Program

/-! ## Runs -/

/-- The counter of a run, and the greatest depth that it has shown. -/
structure Counter where
  depth : Nat
  peak : Nat

/-- A run with a counter.  It ends with a value or a failure, and with the counter
as it then stands.  It gives `none` where the counter is lowered below zero, and
where calls nest deeper than there is room for. -/
abbrev Run :=
  ExceptT Failure (StateT Counter Option)

/-- Reads a value at a cursor in a run. -/
abbrev Counting (α : Type) :=
  (c : Cursor) → Run (Taken α c)

/-- Raise the counter, unless it is at the limit. -/
def enter (config : Config) (pos : Nat) : Run Unit := do
  let k ← get
  if config.maxDepth ≤ k.depth then
    throw ⟨.depthExceeded config.maxDepth, pos⟩
  else set (Counter.mk (k.depth + 1) (max k.peak (k.depth + 1)))

/-- Lower the counter. -/
def leave : Run Unit := do
  let k ← get
  let depth ← Nat.ppred k.depth
  set (Counter.mk depth k.peak)

/-- A call for which there is no room. -/
def overflow {α : Type} : Run α :=
  liftM (none : Option α)

/-! ## Containers -/

/-- Read items separated by commas up to the closing token. -/
def separated {α : Type} (close : Token) (mismatch : Cursor → Failure)
    (item : List α → Counting α) (before : List α) (c : Cursor) :
    Run (Taken (List α) c) := do
  let ⟨a, behind, hitem⟩ ← item before c
  match behind.take? with
  | none => throw (mismatch behind)
  | some ⟨t, next, hnext⟩ =>
    if t = close then return ⟨[a], next, Nat.lt_trans hnext hitem⟩
    else if t = .comma then do
      let ⟨rest, last, hrest⟩ ← separated close mismatch item (a :: before) next
      return ⟨a :: rest, last, Nat.lt_trans hrest (Nat.lt_trans hnext hitem)⟩
    else throw (mismatch behind)
termination_by c.size
decreasing_by exact Nat.lt_trans hnext hitem

/-- Read the items of a container from behind its opening token. -/
def enclosed {α : Type} (close : Token) (mismatch : Cursor → Failure)
    (item : List α → Counting α) : Counting (List α) := fun c =>
  match c.accept? close with
  | some t => return t.map fun _ => []
  | none =>
    Taken.afterBlanks <$> separated close mismatch item [] c.skipBlanks

/-- Read one member of an object, given the members before it. -/
def member (value : String → Nat → Counting Value) (before : Members) :
    Counting (String × Value) := fun c =>
  match c.take? with
  | some ⟨.str key, afterKey, hkey⟩ =>
    if before.has key then throw ⟨.duplicateKey key, c.stream.start⟩
    else
      match afterKey.accept? .colon with
      | none => throw (.unexpected .colon afterKey)
      | some colon =>
        (fun t => ((t.map (key, ·)).after colon.shorter).after hkey) <$>
          value key c.pos colon.rest
  | _ => throw (.stuck isQuote .key c)

/-- Read the members of an object from behind its opening brace. -/
def members (value : String → Nat → Counting Value) : Counting Members :=
  enclosed .closeBrace (.unexpected .commaOrBrace) (member value)

/-- Read the items of an array from behind its opening bracket. -/
def items (item : Counting Value) : Counting (List Value) :=
  enclosed .closeBracket (.unexpected .commaOrBracket) fun _ => item

/-- Read any value, with room for a number of calls.  Each container is entered
and left; other values leave the counter as it is. -/
def untyped (config : Config) : Nat → Counting Value
  | 0 => fun _ => overflow
  | calls + 1 => fun c =>
    match c.take? with
    | some ⟨.openBracket, rest, h⟩ => do
      enter config c.stream.start
      let t ← items (untyped config calls) rest
      leave
      return (t.map .arr).after h
    | some ⟨.openBrace, rest, h⟩ => do
      enter config c.stream.start
      let t ← members (fun _ _ => untyped config calls) rest
      leave
      return (t.map .obj).after h
    | _ => liftM (untypedWith config none c)

/-! ## Values along a node -/

/-- Read the value of an object's member. -/
def memberValue (node : Node → Counting Value) (other : Counting Value)
    (p : Program.Properties) (tag : Option String) :
    String → Nat → Counting Value := fun key pos =>
  if tag = some key then fun c => liftM (tagString c)
  else
    match p.member? key with
    | some n => node n
    | none =>
      if p.additional then other
      else fun _ => throw ⟨.unexpectedProperty key, pos⟩

/-- Read an object along its declarations from behind its opening brace. -/
def properties (node : Node → Counting Value) (other : Counting Value)
    (p : Program.Properties) (tag : Option String) : Counting Value := fun c => do
  let t ← members (memberValue node other p tag) c
  match p.required.find? fun m => !t.value.has m.1 with
  | some m => throw ⟨.missingProperty m.1, t.rest.pos - 1⟩
  | none => return t.map .obj

/-- Read an object along the branch that its tag selects.  The look-ahead goes
over the object first, which is then read from its brace. -/
def discriminator (node : Node → Counting Value) (other : Counting Value)
    (tag : String) (branches : List (String × Program.Branch)) :
    Counting Value := fun c =>
  match c.accept? .openBrace with
  | none => throw (.unexpected .object c)
  | some brace => do
    let (value, pos) ← liftM (lookAhead tag brace.rest)
    match List.lookup value branches with
    | none => throw ⟨.unmappedTag value, pos⟩
    | some branch =>
      (fun t => t.after brace.shorter) <$>
        properties node other branch.properties (some tag) brace.rest

/-- Read a value along a form. -/
def form (config : Config) (target : Nat → Node) (node : Node → Counting Value)
    (other : Counting Value) : Program.Form → Counting Value
  | .empty => other
  | .ref i => node (target i)
  | .type kind => fun c => liftM (primitive config kind c)
  | .enum values => fun c => liftM (enumValue values c)
  | .elements item => fun c =>
    match c.accept? .openBracket with
    | none => throw (.unexpected .array c)
    | some bracket =>
      (fun t => (t.map .arr).after bracket.shorter) <$>
        items (node item) bracket.rest
  | .values item => fun c =>
    match c.accept? .openBrace with
    | none => throw (.unexpected .object c)
    | some brace =>
      (fun t => (t.map .obj).after brace.shorter) <$>
        members (fun _ _ => node item) brace.rest
  | .properties p => fun c =>
    match c.accept? .openBrace with
    | none => throw (.unexpected .object c)
    | some brace =>
      (fun t => t.after brace.shorter) <$> properties node other p none brace.rest
  | .discriminator tag branches => discriminator node other tag branches

/-- Read null where a nullable node meets a word that starts like it, else read
along the form. -/
def nullOr (nullable : Bool) (other : Counting Value) : Counting Value := fun c =>
  match nullable, c.stream with
  | true, .stuck _ 'n' (some (fault, pos)) => throw ⟨.token fault, pos⟩
  | true, _ =>
    match c.accept? .null with
    | some t => return t.map fun _ => .null
    | none => other c
  | false, _ => other c

/-- Read a value along a node, with room for a number of calls.  The node is
entered in front of the blanks before the value, and left behind the value. -/
def node (config : Config) (target : Nat → Node) :
    Nat → Node → Counting Value
  | 0, _ => fun _ => overflow
  | calls + 1, n => fun c => do
    enter config c.pos
    let t ← nullOr n.nullable
      (form config target (node config target calls) (untyped config calls)
        n.form) c.skipBlanks
    leave
    return t.afterBlanks

/-- Read a whole text as one value, with room for a number of calls. -/
def parse (parser : Parser) (calls : Nat) (text : String) : Run Value := do
  let t ← node parser.config parser.program.target calls parser.program.root
    (.ofText text)
  match t.rest.stream with
  | .finish _ => return t.value
  | rest => throw ⟨.trailing, rest.start⟩

end Counted
end JsonTypedef
