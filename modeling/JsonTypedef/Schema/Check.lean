import JsonTypedef.Schema.Basic
import JsonTypedef.Schema.Error

/-!
# Checking schema documents

`Document.ofValue` turns a JSON value into a checked document or names the first
rule that it breaks.  Definitions are checked before the root, in the order of
the text, and may be referred to from anywhere.  Within a node the keywords are
looked at in the order of the text, then `nullable` and `metadata`, then the
form that the keywords select.
-/

namespace JsonTypedef
namespace Schema

/-- The groups of keywords of which a node may use one. -/
inductive Group where
  | ref
  | type
  | enum
  | elements
  | values
  | properties
  | discriminator
deriving DecidableEq

/-- The group that a form keyword belongs to. -/
def Group.ofKeyword? (keyword : String) : Option Group :=
  if keyword = "ref" then some .ref
  else if keyword = "type" then some .type
  else if keyword = "enum" then some .enum
  else if keyword = "elements" then some .elements
  else if keyword = "values" then some .values
  else if keyword = "properties" ∨ keyword = "optionalProperties" ∨
      keyword = "additionalProperties" then some .properties
  else if keyword = "discriminator" ∨ keyword = "mapping" then some .discriminator
  else none

/-- The error for a keyword whose value has the wrong type. -/
def wrongType (path : Pointer) (keyword expected : String) : SchemaError :=
  ⟨path.child keyword, .wrongType keyword expected⟩

/-- The keyword group of a node, `found` being the group of the keywords before
with the first of them. -/
def groupOf (isRoot : Bool) (path : Pointer) (found : Option (Group × String)) :
    List String → Except SchemaError (Option Group)
  | [] => .ok (found.map Prod.fst)
  | key :: rest =>
    if key = "definitions" then
      if isRoot then groupOf isRoot path found rest
      else .error ⟨path.child "definitions", .nestedDefinitions⟩
    else if key = "nullable" ∨ key = "metadata" then groupOf isRoot path found rest
    else
      match Group.ofKeyword? key with
      | none => .error ⟨path.child key, .unknownKeyword key⟩
      | some group =>
        match found with
        | none => groupOf isRoot path (some (group, key)) rest
        | some (existing, first) =>
          if existing = group then groupOf isRoot path found rest
          else .error ⟨path, .conflictingForms first key⟩

/-- The boolean under a keyword, false when it is absent. -/
def flagOf (path : Pointer) (keyword : String) (ms : Members) : Except SchemaError Bool :=
  match ms.get? keyword with
  | none => .ok false
  | some (.bool b) => .ok b
  | some _ => .error (wrongType path keyword "a boolean")

/-- The metadata of a node. -/
def metadataOf (path : Pointer) (ms : Members) : Except SchemaError (Option Members) :=
  match ms.get? "metadata" with
  | none => .ok none
  | some (.obj m) => .ok (some m)
  | some _ => .error (wrongType path "metadata" "an object")

/-- The ref form; `names` are the names of the definitions. -/
def refOf (names : List String) (path : Pointer) (ms : Members) : Except SchemaError Form :=
  match ms.get? "ref" with
  | some (.str name) =>
    if name ∈ names then .ok (.ref name) else .error ⟨path.child "ref", .unresolvedRef name⟩
  | _ => .error (wrongType path "ref" "a string")

/-- The type form. -/
def typeOf (path : Pointer) (ms : Members) : Except SchemaError Form :=
  match ms.get? "type" with
  | some (.str name) =>
    match TypeKind.ofName? name with
    | some kind => .ok (.type kind)
    | none => .error ⟨path.child "type", .unknownType name⟩
  | _ => .error (wrongType path "type" "a string")

/-- The values of an enum from position `i` on, `seen` being those before. -/
def enumValues (path : Pointer) (i : Nat) (seen : List String) :
    List Value → Except SchemaError (List String)
  | [] => .ok []
  | .str s :: rest =>
    if s ∈ seen then .error ⟨path.child (toString i), .duplicateEnumValue s⟩
    else (enumValues path (i + 1) (s :: seen) rest).map (s :: ·)
  | _ :: _ => .error ⟨path.child (toString i), .wrongType "enum" "an array of strings"⟩

/-- The enum form. -/
def enumOf (path : Pointer) (ms : Members) : Except SchemaError Form :=
  match ms.get? "enum" with
  | some (.arr []) => .error ⟨path.child "enum", .emptyEnum⟩
  | some (.arr items) => (enumValues (path.child "enum") 0 [] items).map .enum
  | _ => .error (wrongType path "enum" "an array of strings")

/-- Put the two member lists of a properties form together; `none` stands for
an absent keyword. -/
def propertiesOf (path : Pointer) (ms : Members)
    (required optional : Option (Except SchemaError (List (String × Schema)))) :
    Except SchemaError Properties :=
  if required.isNone && optional.isNone then
    .error ⟨path, .incompleteForm "additionalProperties" "properties"⟩
  else do
    let declared ← required.getD (.ok [])
    let extra ← optional.getD (.ok [])
    match extra.find? fun m => declared.any (·.1 = m.1) with
    | some (name, _) =>
      .error ⟨(path.child "optionalProperties").child name, .overlappingProperty name⟩
    | none =>
      let additional ← flagOf path "additionalProperties" ms
      .ok ⟨declared, extra, additional, required.isSome⟩

/-- The tag of a discriminator form that has both its keywords. -/
def tagOf (path : Pointer) (ms : Members) : Except SchemaError String :=
  if ms.has "discriminator" && ms.has "mapping" then
    match ms.get? "discriminator" with
    | some (.str tag) => .ok tag
    | _ => .error (wrongType path "discriminator" "a string")
  else if ms.has "mapping" then .error ⟨path, .incompleteForm "mapping" "discriminator"⟩
  else .error ⟨path, .incompleteForm "discriminator" "mapping"⟩

/-- The branch of a discriminator with the given tag that a schema makes up. -/
def branchOf (path : Pointer) (tag : String) (s : Schema) : Except SchemaError Branch :=
  if s.nullable then .error ⟨path.child "nullable", .nullableMapping⟩
  else
    match s.form with
    | .properties p =>
      if p.required.any (·.1 = tag) then
        .error ⟨(path.child "properties").child tag, .tagRedeclared tag⟩
      else if p.optional.any (·.1 = tag) then
        .error ⟨(path.child "optionalProperties").child tag, .tagRedeclared tag⟩
      else .ok ⟨s.metadata, p⟩
    | _ => .error ⟨path, .mappingNotProperties⟩

mutual

/-- Check the schema node at `path`. -/
def check (names : List String) (isRoot : Bool) (path : Pointer) :
    Value → Except SchemaError Schema
  | .obj ms => do
    let group ← groupOf isRoot path none (Members.keys ms)
    let nullable ← flagOf path "nullable" ms
    let metadata ← metadataOf path ms
    let form ← (match group with
      | none => .ok .empty
      | some .ref => refOf names path ms
      | some .type => typeOf path ms
      | some .enum => enumOf path ms
      | some .elements => (checkUnder names path "elements" ms).map .elements
      | some .values => (checkUnder names path "values" ms).map .values
      | some .properties =>
        (propertiesOf path ms (checkTable? names path "properties" ms)
          (checkTable? names path "optionalProperties" ms)).map .properties
      | some .discriminator =>
        (tagOf path ms).bind fun tag =>
          (checkMapping names path tag ms).map (.discriminator tag) : Except SchemaError Form)
    .ok ⟨nullable, metadata, form⟩
  | _ => .error ⟨path, .notAnObject⟩

/-- Check the schema under a keyword of the node at `path`. -/
def checkUnder (names : List String) (path : Pointer) (keyword : String) :
    List (String × Value) → Except SchemaError Schema
  | [] => .error ⟨path.child keyword, .notAnObject⟩
  | (key, v) :: ms =>
    if key = keyword then check names false (path.child keyword) v
    else checkUnder names path keyword ms

/-- Check the object of schemas under a keyword of the node at `path`. -/
def checkTable? (names : List String) (path : Pointer) (keyword : String) :
    List (String × Value) → Option (Except SchemaError (List (String × Schema)))
  | [] => none
  | (key, v) :: ms =>
    if key = keyword then
      match v with
      | .obj entries => some (checkEntries names (path.child keyword) entries)
      | _ => some (.error (wrongType path keyword "an object"))
    else checkTable? names path keyword ms

/-- Check the schemas of an object that stands at `base`. -/
def checkEntries (names : List String) (base : Pointer) :
    List (String × Value) → Except SchemaError (List (String × Schema))
  | [] => .ok []
  | (name, v) :: ms => do
    let s ← check names false (base.child name) v
    let rest ← checkEntries names base ms
    .ok ((name, s) :: rest)

/-- Check the mapping of the discriminator at `path`. -/
def checkMapping (names : List String) (path : Pointer) (tag : String) :
    List (String × Value) → Except SchemaError (List (String × Branch))
  | [] => .ok []
  | (key, v) :: ms =>
    if key = "mapping" then
      match v with
      | .obj entries => checkBranches names (path.child "mapping") tag entries
      | _ => .error (wrongType path "mapping" "an object")
    else checkMapping names path tag ms

/-- Check the branches of a mapping that stands at `base`. -/
def checkBranches (names : List String) (base : Pointer) (tag : String) :
    List (String × Value) → Except SchemaError (List (String × Branch))
  | [] => .ok []
  | (value, v) :: ms => do
    let s ← check names false (base.child value) v
    let branch ← branchOf (base.child value) tag s
    let rest ← checkBranches names base tag ms
    .ok ((value, branch) :: rest)

end

end Schema

namespace Document

/-- The definitions of a document in the order of the text, with their names. -/
def definitionsOf (ms : Members) : Except SchemaError (List String × List (String × Schema)) :=
  match ms.get? "definitions" with
  | none => .ok ([], [])
  | some (.obj entries) =>
    let names := Members.keys entries
    (Schema.checkEntries names (Pointer.root.child "definitions") entries).map (names, ·)
  | some _ => .error (Schema.wrongType .root "definitions" "an object")

/-- Check a JSON value as a schema document. -/
def ofValue : Value → Except SchemaError Document
  | .obj ms => do
    let (names, definitions) ← definitionsOf ms
    let root ← Schema.check names true .root (.obj ms)
    .ok ⟨root, definitions.mergeSort fun a b => a.1 ≤ b.1⟩
  | _ => .error ⟨.root, .notAnObject⟩

end Document

end JsonTypedef
