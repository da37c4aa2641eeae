import JsonTypedef.Pointer

/-!
# Schema errors

A document that is no schema is rejected with the rule it breaks and the place
where it breaks it.
-/

namespace JsonTypedef

namespace SchemaError

/-- The rules that a document can break. -/
inductive Kind where
  | notAnObject
  | unknownKeyword (keyword : String)
  | wrongType (keyword : String) (expected : String)
  | nestedDefinitions
  | unknownType (name : String)
  | emptyEnum
  | duplicateEnumValue (value : String)
  | unresolvedRef (name : String)
  | conflictingForms (first second : String)
  | incompleteForm (present missing : String)
  | overlappingProperty (name : String)
  | mappingNotProperties
  | nullableMapping
  | tagRedeclared (tag : String)
deriving DecidableEq

/-- The wording of a broken rule. -/
def Kind.message : Kind → String
  | .notAnObject => "schema must be an object"
  | .unknownKeyword keyword => "unknown keyword '" ++ keyword ++ "'"
  | .wrongType keyword expected => "keyword '" ++ keyword ++ "' must be " ++ expected
  | .nestedDefinitions => "definitions are only allowed at the root of a schema"
  | .unknownType name => "unknown type '" ++ name ++ "'"
  | .emptyEnum => "enum must not be empty"
  | .duplicateEnumValue value => "duplicate enum value '" ++ value ++ "'"
  | .unresolvedRef name => "ref to undefined definition '" ++ name ++ "'"
  | .conflictingForms first second =>
    "keywords '" ++ first ++ "' and '" ++ second ++ "' belong to different forms"
  | .incompleteForm present missing =>
    "keyword '" ++ present ++ "' requires '" ++ missing ++ "'"
  | .overlappingProperty name =>
    "property '" ++ name ++ "' is declared in both properties and optionalProperties"
  | .mappingNotProperties => "mapping values must be of the properties form"
  | .nullableMapping => "mapping values must not be nullable"
  | .tagRedeclared tag => "mapping value redeclares discriminator tag '" ++ tag ++ "'"

end SchemaError

/-- A broken rule and the path of the offending place in the document. -/
structure SchemaError where
  path : Pointer
  kind : SchemaError.Kind
deriving DecidableEq

namespace SchemaError

/-- The wording of a schema error. -/
def message (e : SchemaError) : String :=
  "invalid schema at '" ++ e.path.text ++ "': " ++ e.kind.message

end SchemaError

end JsonTypedef
