import JsonTypedef.Config
import JsonTypedef.Program
import JsonTypedef.Timestamp.Basic
import JsonTypedef.Violation

/-!
# Validation

A validator walks a value along the nodes of a program and reports every value
that a node rejects: required members in order of declaration, then optional
ones, then undeclared ones in order of the instance, and array items by index.
A run that stops at the first violation walks the same way.  The depth of a run
counts nested nodes, refs included; `Validator.node` takes the depth that is
left, so that every run ends.
-/

namespace JsonTypedef

/-- Why a run ended before its end. -/
inductive Halt where
  /-- The first violation was found and no more are wanted. -/
  | violation
  /-- The nodes nest deeper than configured. -/
  | depth
deriving DecidableEq

/-- The violations that a run has found and why it halted, if it did. -/
structure Outcome where
  violations : List Violation
  halt : Option Halt
deriving DecidableEq

namespace Outcome

/-- Nothing is rejected. -/
def accepted : Outcome :=
  ⟨[], none⟩

/-- Go on with a further run unless the first one halted. -/
def andThen (a : Outcome) (b : Unit → Outcome) : Outcome :=
  match a.halt with
  | some _ => a
  | none =>
    let rest := b ()
    ⟨a.violations ++ rest.violations, rest.halt⟩

/-- One run after the other over a list. -/
def each {α : Type} (run : α → Outcome) : List α → Outcome
  | [] => accepted
  | a :: rest => (run a).andThen fun _ => each run rest

end Outcome

/-- A program that checks values, with the options of its runs. -/
structure Validator where
  program : Program
  config : Config

namespace Validator

/-- The primitive type admits the value. -/
def typeAccepts (config : Config) (kind : TypeKind) : Value → Bool
  | .bool _ => kind = .boolean
  | .str s => kind = .string || (kind = .timestamp && Timestamp.accepts config.allowDate s)
  | .num n => kind.acceptsNumber config.int32Range n
  | _ => false

/-- Report a violation, and halt where one is enough. -/
def reject (config : Config) (place keyword : Pointer) : Outcome :=
  ⟨[⟨place, keyword⟩], if config.allErrors then none else some .violation⟩

/-- Report a violation if a condition fails. -/
def check (config : Config) (condition : Bool) (place keyword : Pointer) : Outcome :=
  if condition then .accepted else reject config place keyword

/-- Check a node's children: the node, the child's place and the child. -/
abbrev Run :=
  Program.Node → Pointer → Value → Outcome

/-- Check the required members of an object. -/
def required (config : Config) (run : Run) (place : Pointer) (ms : Members)
    (declared : List (String × Program.Node)) : Outcome :=
  Outcome.each
    (fun m =>
      match ms.get? m.1 with
      | some v => run m.2 (place.child m.1) v
      | none => reject config place m.2.path)
    declared

/-- Check the optional members of an object. -/
def optional (run : Run) (place : Pointer) (ms : Members)
    (declared : List (String × Program.Node)) : Outcome :=
  Outcome.each
    (fun m =>
      match ms.get? m.1 with
      | some v => run m.2 (place.child m.1) v
      | none => .accepted)
    declared

/-- Reject the members of an object that are neither declared nor the tag. -/
def undeclared (config : Config) (place keyword : Pointer) (ms : Members)
    (p : Program.Properties) (tag : Option String) : Outcome :=
  if p.additional then .accepted
  else
    Outcome.each
      (fun key =>
        check config (tag = some key || p.declares key) (place.child key) keyword)
      ms.keys

/-- Check the members of an object against their declarations. -/
def properties (config : Config) (run : Run) (place keyword : Pointer) (ms : Members)
    (p : Program.Properties) (tag : Option String) : Outcome :=
  ((required config run place ms p.required).andThen fun _ =>
    optional run place ms p.optional).andThen fun _ =>
      undeclared config place keyword ms p tag

/-- Check an object whose tag member selects one of the branches. -/
def discriminator (config : Config) (run : Run) (path place : Pointer) (ms : Members)
    (tag : String) (branches : List (String × Program.Branch)) : Outcome :=
  match ms.get? tag with
  | none => reject config place (path.child "discriminator")
  | some (.str value) =>
    match List.lookup value branches with
    | some branch => properties config run place branch.path ms branch.properties (some tag)
    | none => reject config (place.child tag) (path.child "mapping")
  | some _ => reject config (place.child tag) (path.child "discriminator")

/-- Check a value against the form of the node at `path`. -/
def form (config : Config) (target : Nat → Program.Node) (run : Run) (path place : Pointer)
    (v : Value) : Program.Form → Outcome
  | .empty => .accepted
  | .ref i => run (target i) place v
  | .type kind => check config (typeAccepts config kind v) place (path.child "type")
  | .enum values =>
    check config (match v with
      | .str s => s ∈ values
      | _ => false) place (path.child "enum")
  | .elements item =>
    match v with
    | .arr items =>
      Outcome.each (fun (child, i) => run item (place.child (toString i)) child) items.zipIdx
    | _ => reject config place (path.child "elements")
  | .values item =>
    match v with
    | .obj ms => Outcome.each (fun (key, child) => run item (place.child key) child) ms
    | _ => reject config place (path.child "values")
  | .properties p =>
    match v with
    | .obj ms => properties config run place path ms p none
    | _ => reject config place (path.child p.keyword)
  | .discriminator tag branches =>
    match v with
    | .obj ms => discriminator config run path place ms tag branches
    | _ => reject config place (path.child "discriminator")

/-- The value is the null that a nullable node accepts. -/
def isNullAt (n : Program.Node) : Value → Bool
  | .null => n.nullable
  | _ => false

/-- Check a value against a node with the given depth left. -/
def node (config : Config) (target : Nat → Program.Node) : Nat → Run
  | 0, _, _, _ => ⟨[], some .depth⟩
  | depth + 1, n, place, v =>
    if isNullAt n v then .accepted
    else form config target (node config target depth) n.path place v n.form

/-- The outcome of a run over a whole value. -/
def run (validator : Validator) (v : Value) : Outcome :=
  node validator.config validator.program.target validator.config.maxDepth
    validator.program.root .root v

/-- All violations of a value, or the first one alone where one is enough. -/
def validate (validator : Validator) (v : Value) : Except DepthExceeded (List Violation) :=
  let outcome := validator.run v
  match outcome.halt with
  | some .depth => .error ⟨validator.config.maxDepth⟩
  | _ => .ok outcome.violations

/-- The validator that stops at the first violation. -/
def firstOnly (validator : Validator) : Validator :=
  ⟨validator.program, { validator.config with allErrors := false }⟩

/-- The value has no violation, found by a run that stops at the first. -/
def isValid (validator : Validator) (v : Value) : Except DepthExceeded Bool :=
  (validator.firstOnly.validate v).map List.isEmpty

end Validator

end JsonTypedef
