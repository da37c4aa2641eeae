import JsonTypedef.Text.Printable

/-!
# Quotation of text in messages

Messages quote a string between double quotes and a character between single
quotes.  The quote in use, the backslash and the common controls are escaped
with a backslash, other characters that are not printable by their code point
in braces.
-/

namespace JsonTypedef
namespace Text

/-- The digits of a code point in lower-case hexadecimal. -/
def hex (n : Nat) : List Char :=
  Nat.toDigits 16 n

/-- One character inside a quotation that `mark` opens and closes. -/
def quoteChar (mark c : Char) : List Char :=
  if c = '\x00' then ['\\', '0']
  else if c = '\t' then ['\\', 't']
  else if c = '\r' then ['\\', 'r']
  else if c = '\n' then ['\\', 'n']
  else if c = '\\' ∨ c = mark then ['\\', c]
  else if isPrintable c then [c]
  else "\\u\x7b".toList ++ hex c.toNat ++ "\x7d".toList

/-- The quotation of a string. -/
def quoted (s : String) : String :=
  String.ofList ('"' :: (s.toList.flatMap (quoteChar '"') ++ ['"']))

/-- The quotation of a single character. -/
def quotedChar (c : Char) : String :=
  String.ofList ('\'' :: (quoteChar '\'' c ++ ['\'']))

end Text
end JsonTypedef
