import JsonTypedef.Config
import JsonTypedef.Json.Writer
import JsonTypedef.Program

/-!
# Serialization

A serializer writes a value as compact JSON text along the nodes of a program:
the tag of a discriminator first, then required and optional members in order
of declaration, then undeclared members where these are accepted.  What does
not fit its node is written as it stands.  A run that meets too deep a nesting
keeps what it has written.
-/

namespace JsonTypedef

/-- Text written by a run, and whether the run came to its end. -/
structure Written where
  text : List Char
  complete : Bool
deriving DecidableEq

namespace Written

/-- A text written to its end. -/
def ofText (text : List Char) : Written :=
  ⟨text, true⟩

/-- Go on writing unless the first run was cut short. -/
def andThen (a : Written) (b : Unit → Written) : Written :=
  if a.complete then
    let rest := b ()
    ⟨a.text ++ rest.text, rest.complete⟩
  else a

/-- Pieces with commas between them. -/
def commaSeparated {α : Type} (write : α → Written) : List α → Written
  | [] => ofText []
  | [a] => write a
  | a :: b :: rest =>
    ((write a).andThen fun _ => ofText [',']).andThen fun _ => commaSeparated write (b :: rest)

/-- Pieces between brackets. -/
def bracketed {α : Type} (opening closing : Char) (write : α → Written) (pieces : List α) :
    Written :=
  ((ofText [opening]).andThen fun _ => commaSeparated write pieces).andThen fun _ =>
    ofText [closing]

/-- A member whose value is written by a run. -/
def member (key : String) (value : Unit → Written) : Written :=
  (ofText (Quoted.encode key ++ [':'])).andThen value

end Written

/-- A program that writes values, with the options of its runs. -/
structure Serializer where
  program : Program
  config : Config

namespace Serializer

/-- Write a child along its node. -/
abbrev Run :=
  Program.Node → Value → Written

/-- Write a value as it stands. -/
def plain (v : Value) : Written :=
  .ofText v.text

/-- The declared members that an object has, in order of declaration, each with
the node to write it along; undeclared ones follow, where accepted, without. -/
def selected (p : Program.Properties) (tag : Option String) (ms : Members) :
    List (String × Option Program.Node × Value) :=
  p.declared.filterMap (fun m => (ms.get? m.1).map fun v => (m.1, some m.2, v)) ++
    if p.additional then
      (ms.filter fun m => !(tag = some m.1 || p.declares m.1)).map fun m => (m.1, none, m.2)
    else []

/-- Write one selected member. -/
def selectedMember (run : Run) (m : String × Option Program.Node × Value) : Written :=
  .member m.1 fun _ =>
    match m.2.1 with
    | some n => run n m.2.2
    | none => plain m.2.2

/-- Write an object along its declarations. -/
def object (run : Run) (p : Program.Properties) (ms : Members) : Written :=
  .bracketed '\x7b' '\x7d' (selectedMember run) (selected p none ms)

/-- Write an object along the branch that its tag selects, the tag first. -/
def tagged (run : Run) (p : Program.Properties) (tag value : String) (ms : Members) : Written :=
  .bracketed '\x7b' '\x7d' (selectedMember run)
    ((tag, none, .str value) :: selected p (some tag) ms)

/-- The branch that an object's tag selects, with the tag's value. -/
def branch? (tag : String) (branches : List (String × Program.Branch)) (ms : Members) :
    Option (String × Program.Branch) :=
  match ms.get? tag with
  | some (.str value) => (List.lookup value branches).map (value, ·)
  | _ => none

/-- Write a value that is not null along a form. -/
def form (target : Nat → Program.Node) (run : Run) (v : Value) : Program.Form → Written
  | .ref i => run (target i) v
  | .elements item =>
    match v with
    | .arr items => .bracketed '[' ']' (run item) items
    | _ => plain v
  | .values item =>
    match v with
    | .obj ms =>
      .bracketed '\x7b' '\x7d' (fun m => .member m.1 fun _ => run item m.2) ms
    | _ => plain v
  | .properties p =>
    match v with
    | .obj ms => object run p ms
    | _ => plain v
  | .discriminator tag branches =>
    match v with
    | .obj ms =>
      match branch? tag branches ms with
      | some (value, branch) => tagged run branch.properties tag value ms
      | none => plain v
    | _ => plain v
  | _ => plain v

/-- Write a value along a node with the given depth left. -/
def node (target : Nat → Program.Node) : Nat → Run
  | 0, _, _ => ⟨[], false⟩
  | depth + 1, n, v =>
    match v with
    | .null => plain .null
    | v => form target (node target depth) v n.form

/-- What a run over a whole value writes. -/
def run (serializer : Serializer) (v : Value) : Written :=
  node serializer.program.target serializer.config.maxDepth serializer.program.root v

/-- Append the text of a value to a buffer.  The buffer that comes back holds
what was written, also when the run met too deep a nesting. -/
def serializeInto (serializer : Serializer) (buffer : String) (v : Value) :
    String × Except DepthExceeded Unit :=
  let written := serializer.run v
  (buffer ++ String.ofList written.text,
    if written.complete then .ok () else .error ⟨serializer.config.maxDepth⟩)

/-- The text of a value. -/
def serialize (serializer : Serializer) (v : Value) : Except DepthExceeded String :=
  let (text, result) := serializer.serializeInto "" v
  result.map fun _ => text

end Serializer

end JsonTypedef
