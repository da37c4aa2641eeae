import JsonTypedef.Digest.Schema
import JsonTypedef.Schema.Check

/-!
# Programs

A program is a schema document made ready to run.  It has a unit for the root
and one for every definition, in increasing order of the names.  A ref points to
a unit and is never copied, so that recursive definitions make finite programs.
Every node knows its own path in the document.
-/

namespace JsonTypedef
namespace Program

mutual

/-- A schema node with its path and with its refs resolved. -/
structure Node where
  nullable : Bool
  path : Pointer
  form : Form

/-- What a node accepts. -/
inductive Form where
  | empty
  /-- What the definition at the given place among the definitions accepts. -/
  | ref (target : Nat)
  | type (kind : TypeKind)
  | enum (values : List String)
  | elements (item : Node)
  | values (item : Node)
  | properties (properties : Properties)
  | discriminator (tag : String) (branches : List (String × Branch))

/-- The declared members of an object. -/
structure Properties where
  required : List (String × Node)
  optional : List (String × Node)
  additional : Bool
  /-- The keyword that rejects a value which is no object. -/
  keyword : String

/-- One branch of a discriminator with its path. -/
structure Branch where
  path : Pointer
  properties : Properties

end

namespace Properties

/-- All declared members, required ones first. -/
def declared (p : Properties) : List (String × Node) :=
  p.required ++ p.optional

/-- The node of the declared member named `key`. -/
def member? (p : Properties) (key : String) : Option Node :=
  List.lookup key p.declared

/-- The member named `key` is declared. -/
def declares (p : Properties) (key : String) : Bool :=
  p.declared.any fun m => m.1 = key

end Properties

/-- What a unit was made from. -/
inductive UnitName where
  | root
  | definition (name : String)
deriving DecidableEq

namespace UnitName

/-- The name of a unit for display. -/
def text : UnitName → String
  | .root => "#"
  | .definition name => "#/definitions/" ++ name

end UnitName

end Program

/-- A compiled schema. -/
structure Program where
  /-- The digest of the canonical document. -/
  digest : Digest
  document : Document
  root : Program.Node
  /-- The definitions in increasing order of their names. -/
  definitions : List (String × Program.Node)

namespace Program

/-- The node that a ref points to.  A place behind the last definition leads to
the root; refs of generated programs never name one. -/
def target (p : Program) (i : Nat) : Node :=
  (p.definitions[i]?.map Prod.snd).getD p.root

/-- The names of all units: the root, then the definitions. -/
def unitNames (p : Program) : List UnitName :=
  .root :: p.definitions.map fun d => .definition d.1

/-- All units: the root, then the definitions. -/
def units (p : Program) : List (UnitName × Node) :=
  (.root, p.root) :: p.definitions.map fun d => (.definition d.1, d.2)

/-- The place among all units of the unit for a definition. -/
def unitFor? (p : Program) (name : String) : Option Nat :=
  (p.definitions.findIdx? fun d => d.1 = name).map (· + 1)

/-- The place of a definition among the definitions' names. -/
def resolve (names : List String) (path : Pointer) (name : String) : Except SchemaError Nat :=
  match names.findIdx? (· = name) with
  | some i => .ok i
  | none => .error ⟨path.child "ref", .unresolvedRef name⟩

mutual

/-- Compile the schema at `path`. -/
def compile (names : List String) (path : Pointer) : Schema → Except SchemaError Node
  | ⟨nullable, _, form⟩ =>
    (compileForm names path form).map fun form => ⟨nullable, path, form⟩

/-- Compile the form of the schema at `path`. -/
def compileForm (names : List String) (path : Pointer) :
    JsonTypedef.Form → Except SchemaError Form
  | .empty => .ok .empty
  | .ref name => (resolve names path name).map .ref
  | .type kind => .ok (.type kind)
  | .enum values => .ok (.enum values)
  | .elements item => (compile names (path.child "elements") item).map .elements
  | .values item => (compile names (path.child "values") item).map .values
  | .properties p => (compileProperties names path p).map .properties
  | .discriminator tag mapping =>
    (compileBranches names (path.child "mapping") mapping).map (.discriminator tag)

/-- Compile the declared members of the schema at `path`. -/
def compileProperties (names : List String) (path : Pointer) :
    JsonTypedef.Properties → Except SchemaError Properties
  | ⟨required, optional, additional, declaresRequired⟩ => do
    let required ← compileMembers names (path.child "properties") required
    let optional ← compileMembers names (path.child "optionalProperties") optional
    .ok ⟨required, optional, additional,
      if declaresRequired then "properties" else "optionalProperties"⟩

/-- Compile a list of members whose object stands at `base`. -/
def compileMembers (names : List String) (base : Pointer) :
    List (String × Schema) → Except SchemaError (List (String × Node))
  | [] => .ok []
  | (name, s) :: rest => do
    let node ← compile names (base.child name) s
    let nodes ← compileMembers names base rest
    .ok ((name, node) :: nodes)

/-- Compile the branches of a mapping that stands at `base`. -/
def compileBranches (names : List String) (base : Pointer) :
    List (String × JsonTypedef.Branch) → Except SchemaError (List (String × Branch))
  | [] => .ok []
  | (value, ⟨_, properties⟩) :: rest => do
    let properties ← compileProperties names (base.child value) properties
    let branches ← compileBranches names base rest
    .ok ((value, ⟨base.child value, properties⟩) :: branches)

end

/-- Generate the program of a checked document. -/
def ofDocument (document : Document) (digest : Digest) : Except SchemaError Program := do
  let names := document.definitions.map Prod.fst
  let root ← compile names .root document.root
  let definitions ← compileMembers names (Pointer.root.child "definitions") document.definitions
  .ok ⟨digest, document, root, definitions⟩

/-- Check a schema document and generate its program. -/
def ofValue (schema : Value) : Except SchemaError Program := do
  let document ← Document.ofValue schema
  ofDocument document (Digest.ofSchema schema)

end Program

end JsonTypedef
