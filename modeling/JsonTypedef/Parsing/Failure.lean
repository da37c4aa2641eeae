import JsonTypedef.Config
import JsonTypedef.Json.Scan
import JsonTypedef.Json.Writer
import JsonTypedef.Schema.TypeKind

/-!
# Parse failures

A parse fails for one reason at one byte offset.  `Failure.unexpected` reports
the next character in place of something expected; `Failure.stuck` reports
instead why a token cannot be read, where such a token was admissible.
-/

namespace JsonTypedef
namespace Parsing

/-- What a parser expects at a place. -/
inductive Expected where
  | value
  | primitive (kind : TypeKind)
  | enumString
  | array
  | object
  | key
  | string
  | colon
  | commaOrBracket
  | commaOrBrace
deriving DecidableEq

/-- The name of something expected. -/
def Expected.text : Expected → String
  | .value => "value"
  | .primitive kind => kind.name
  | .enumString => "enum string"
  | .array => "array"
  | .object => "object"
  | .key => "string key"
  | .string => "string"
  | .colon => "':'"
  | .commaOrBracket => "',' or ']'"
  | .commaOrBrace => "',' or '\x7d'"

/-- Why a parse fails. -/
inductive Reason where
  | token (fault : Token.Fault)
  | unexpected (what : Expected) (found : Option Char)
  | depthExceeded (limit : Nat)
  | typeMismatch (kind : TypeKind) (found : Value)
  | unknownEnumValue (value : String)
  | unexpectedProperty (key : String)
  | duplicateKey (key : String)
  | missingProperty (key : String)
  | missingTag (tag : String)
  | tagNotString
  | unmappedTag (value : String)
  | trailing

/-- The wording of a reason. -/
def Reason.message : Reason → String
  | .token fault => fault.message
  | .unexpected what found => Token.expectedText what.text found
  | .depthExceeded limit => DepthExceeded.message ⟨limit⟩
  | .typeMismatch kind found => "expected " ++ kind.name ++ ", found " ++ found.write
  | .unknownEnumValue value => "unrecognized enum value " ++ Text.quoted value
  | .unexpectedProperty key => "unexpected property " ++ Text.quoted key
  | .duplicateKey key => "duplicate key " ++ Text.quoted key
  | .missingProperty key => "missing required property " ++ Text.quoted key
  | .missingTag tag => "missing discriminator tag " ++ Text.quoted tag
  | .tagNotString => "discriminator tag value must be a string"
  | .unmappedTag value => "unmapped discriminator tag value " ++ Text.quoted value
  | .trailing => "unexpected content after value"

/-- A failed parse: why, and at which byte offset. -/
structure Failure where
  reason : Reason
  position : Nat

namespace Failure

/-- The wording of a failure. -/
def message (f : Failure) : String :=
  f.reason.message

/-- The wording of a failure with its position. -/
def text (f : Failure) : String :=
  f.message ++ " at position " ++ toString f.position

/-- Something else stands at a cursor than expected. -/
def unexpected (what : Expected) (c : Cursor) : Failure :=
  ⟨.unexpected what c.stream.first?, c.stream.start⟩

/-- No admissible token can be read at a cursor.  Where the characters there
start like a token that `admits` allows, the failure is that of the token. -/
def stuck (admits : Char → Bool) (what : Expected) (c : Cursor) : Failure :=
  match c.stream with
  | .stuck _ first (some (fault, pos)) =>
    if admits first then ⟨.token fault, pos⟩ else unexpected what c
  | _ => unexpected what c

end Failure

/-- The character opens a string. -/
def isQuote (c : Char) : Bool :=
  c = '"'

/-- The character opens a token that is a primitive value other than null. -/
def opensPrimitive (c : Char) : Bool :=
  c ≠ 'n'

/-- The character opens any value. -/
def opensValue (_ : Char) : Bool :=
  true

end Parsing
end JsonTypedef
