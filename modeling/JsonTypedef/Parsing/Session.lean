import JsonTypedef.Parsing.Parser

/-!
# Parse sessions

A session parses one text after the other and remembers how the last one
failed.
-/

namespace JsonTypedef

/-- A parser with the failure of its last parse. -/
structure Session where
  parser : Parser
  failure : Option Parsing.Failure

namespace Session

/-- A session that has parsed nothing. -/
def start (parser : Parser) : Session :=
  ⟨parser, none⟩

/-- Parse a text: the value, if there is one, and the session behind it. -/
def parse (s : Session) (text : String) : Option Value × Session :=
  match s.parser.parse text with
  | .ok v => (some v, ⟨s.parser, none⟩)
  | .error e => (none, ⟨s.parser, some e⟩)

/-- Why the last parse failed. -/
def message (s : Session) : Option String :=
  s.failure.map Parsing.Failure.message

/-- The byte offset at which the last parse failed. -/
def position (s : Session) : Option Nat :=
  s.failure.map Parsing.Failure.position

end Session

end JsonTypedef
