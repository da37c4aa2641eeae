import JsonTypedef.Json.Value
import JsonTypedef.Schema.TypeKind

/-!
# Schemas

A schema node has exactly one of eight forms, and may be nullable and carry
metadata.  A document is a root schema with the definitions that its refs name,
sorted by name.
-/

namespace JsonTypedef

mutual

/-- One schema node. -/
structure Schema where
  /-- The value `null` is accepted besides what the form accepts. -/
  nullable : Bool
  /-- Members that no check looks at. -/
  metadata : Option (List (String × Value))
  form : Form

/-- What a schema node accepts. -/
inductive Form where
  /-- Every value. -/
  | empty
  /-- What the named definition accepts. -/
  | ref (name : String)
  /-- The values of a primitive type. -/
  | type (kind : TypeKind)
  /-- The listed strings. -/
  | enum (values : List String)
  /-- Arrays of items that all match. -/
  | elements (item : Schema)
  /-- Objects whose members' values all match. -/
  | values (item : Schema)
  /-- Objects with declared members. -/
  | properties (properties : Properties)
  /-- Objects whose tag member selects the properties of one branch. -/
  | discriminator (tag : String) (mapping : List (String × Branch))

/-- The declared members of an object. -/
structure Properties where
  required : List (String × Schema)
  optional : List (String × Schema)
  /-- Members that are not declared are accepted. -/
  additional : Bool
  /-- The keyword for required members is present, with or without members. -/
  declaresRequired : Bool

/-- One branch of a discriminator. -/
structure Branch where
  metadata : Option (List (String × Value))
  properties : Properties

end

namespace Properties

/-- The keyword that rejects a value which is no object. -/
def containerKeyword (p : Properties) : String :=
  if p.declaresRequired then "properties" else "optionalProperties"

end Properties

namespace Form

/-- The name of a form. -/
def name : Form → String
  | .empty => "empty"
  | .ref _ => "ref"
  | .type _ => "type"
  | .enum _ => "enum"
  | .elements _ => "elements"
  | .values _ => "values"
  | .properties _ => "properties"
  | .discriminator _ _ => "discriminator"

end Form

/-- A checked schema document. -/
structure Document where
  root : Schema
  /-- The definitions in increasing order of their names. -/
  definitions : List (String × Schema)

namespace Document

/-- The definition of the given name. -/
def definition? (d : Document) (name : String) : Option Schema :=
  List.lookup name d.definitions

end Document

end JsonTypedef
