import JsonTypedef.Json.Numeral
import JsonTypedef.Json.Quoted
import JsonTypedef.Text.Quotation

/-!
# Tokens

A JSON text is a stream of tokens separated by blanks.  The stream ends at the
end of the text, or at the first characters that form no token; the characters
behind those are never looked at.  Every token carries the byte offsets of its
start and its end.
-/

namespace JsonTypedef

/-- A JSON token. -/
inductive Token where
  | openBrace
  | closeBrace
  | openBracket
  | closeBracket
  | comma
  | colon
  | null
  | bool (b : Bool)
  | str (s : String)
  /-- A number with the first character of its spelling. -/
  | num (lead : Char) (n : Number)
deriving DecidableEq

namespace Token

/-- The first character of a token. -/
def first : Token → Char
  | .openBrace => '\x7b'
  | .closeBrace => '\x7d'
  | .openBracket => '['
  | .closeBracket => ']'
  | .comma => ','
  | .colon => ':'
  | .null => 'n'
  | .bool true => 't'
  | .bool false => 'f'
  | .str _ => '"'
  | .num lead _ => lead

/-- Why the characters at the end of a stream form no token. -/
inductive Fault where
  /-- The string that starts here cannot be read. -/
  | string (fault : Quoted.Fault)
  /-- The characters start like the word but do not spell it. -/
  | literal (word : String)
  /-- A numeral lacks a digit before the character found. -/
  | digit (gap : Numeral.Gap) (found : Option Char)
  /-- A numeral denotes no number. -/
  | numeral (fault : Numeral.Fault)
deriving DecidableEq

/-- A fault and the byte offset that it is reported at. -/
abbrev Located :=
  Fault × Nat

/-- The name of a missing digit. -/
def gapText : Numeral.Gap → String
  | .whole => "digit"
  | .fraction => "digit after decimal point"
  | .exponent => "digit in exponent"

/-- What was found in place of something expected. -/
def foundText : Option Char → String
  | none => "end of input"
  | some c => Text.quotedChar c

/-- The wording of a message on an unexpected character. -/
def expectedText (what : String) (found : Option Char) : String :=
  "expected " ++ what ++ ", found " ++ foundText found

/-- The wording of a string fault. -/
def stringText : Quoted.Fault → String
  | .unterminated => "unterminated string"
  | .control => "control character in string"
  | .escape => "invalid escape"
  | .loneSurrogate => "lone surrogate in escape"
  | .surrogatePair => "invalid surrogate pair in escape"
  | .unicode => "invalid unicode escape"

/-- The wording of a numeral fault, which counts columns from the numeral. -/
def numeralText : Numeral.Fault → String
  | .outOfRange column =>
    "invalid number: number out of range at line 1 column " ++ toString column
  | .malformed column =>
    "invalid number: invalid number at line 1 column " ++ toString column

/-- The wording of a fault. -/
def Fault.message : Fault → String
  | .string fault => stringText fault
  | .literal word => "invalid literal, expected " ++ word
  | .digit gap found => expectedText (gapText gap) found
  | .numeral fault => numeralText fault

end Token

/-- What stands at the front of a source that starts with no blank. -/
inductive Lexeme where
  /-- The source is used up. -/
  | finish
  /-- No token starts here; the fault says why where the first character could
  have started one. -/
  | stuck (first : Char) (fault : Option Token.Located)
  /-- A token and the source behind it. -/
  | token (t : Token) (rest : Source)

namespace Lexeme

/-- Read the word that makes up a token, its first character being `first`. -/
def readWord (first : Char) (word : String) (t : Token) (s : Source) : Lexeme :=
  if word.toList.isPrefixOf s.chars then
    .token t ⟨s.pos + word.length, s.chars.drop word.length⟩
  else .stuck first (some (.literal word, s.pos))

/-- Read a number whose first character is `first`. -/
def readNumber (first : Char) (s : Source) : Lexeme :=
  match Numeral.read s.chars with
  | .missing gap rest =>
    .stuck first (some (.digit gap rest.head?, s.pos + (s.chars.length - rest.length)))
  | .numeral n rest =>
    match n.value with
    | .error fault => .stuck first (some (.numeral fault, s.pos))
    | .ok number => .token (.num first number) ⟨s.pos + n.size, rest⟩

/-- The token that a single punctuation character makes up. -/
def mark? (c : Char) : Option Token :=
  if c = '\x7b' then some .openBrace
  else if c = '\x7d' then some .closeBrace
  else if c = '[' then some .openBracket
  else if c = ']' then some .closeBracket
  else if c = ',' then some .comma
  else if c = ':' then some .colon
  else none

/-- Read a string whose opening quote stands at `pos`. -/
def readString (pos : Nat) (cs : List Char) : Lexeme :=
  match Quoted.read (pos + 1) cs with
  | .error (fault, stop) => .stuck '"' (some (.string fault, stop))
  | .ok (ds, rest) => .token (.str (String.ofList ds)) rest

/-- Read the lexeme at the front of a source. -/
def read (s : Source) : Lexeme :=
  match s.chars with
  | [] => .finish
  | c :: rest =>
    match mark? c with
    | some t => .token t ⟨s.pos + 1, rest⟩
    | none =>
      if c = '"' then readString s.pos rest
      else if c = 't' then readWord c "true" (.bool true) s
      else if c = 'f' then readWord c "false" (.bool false) s
      else if c = 'n' then readWord c "null" .null s
      else if c = '-' ∨ Numeral.isDigit c then readNumber c s
      else .stuck c none

theorem readWord_length {first : Char} {word : String} {t u : Token} {s rest : Source}
    (hword : 0 < word.length) (h : readWord first word t s = .token u rest) :
    rest.chars.length < s.chars.length := by
  unfold readWord at h
  split at h
  · rename_i hprefix
    have hle := (List.isPrefixOf_iff_prefix.mp hprefix).length_le
    rw [String.length_toList] at hle
    cases h
    simp only [List.length_drop]
    omega
  · cases h

theorem readNumber_length {first : Char} {u : Token} {s rest : Source}
    (h : readNumber first s = .token u rest) : rest.chars.length < s.chars.length := by
  unfold readNumber at h
  split at h
  · cases h
  · rename_i n tail hread
    split at h
    · cases h
    · cases h
      exact Numeral.read_rest_lt hread

theorem readString_length {pos : Nat} {cs : List Char} {u : Token} {rest : Source}
    (h : readString pos cs = .token u rest) : rest.chars.length < cs.length := by
  unfold readString at h
  split at h
  · cases h
  · rename_i hread
    cases h
    exact Quoted.read_length hread

/-- A token takes up at least one character. -/
theorem read_length {u : Token} {s rest : Source} (h : read s = .token u rest) :
    rest.chars.length < s.chars.length := by
  unfold read at h
  split at h
  · cases h
  · rename_i c tail hchars
    have hsucc : s.chars.length = tail.length + 1 := by simp [hchars]
    split at h
    · cases h
      exact hsucc ▸ Nat.lt_succ_self _
    · split at h
      · have := readString_length h
        omega
      split at h
      · exact readWord_length (by decide) h
      split at h
      · exact readWord_length (by decide) h
      split at h
      · exact readWord_length (by decide) h
      split at h
      · exact readNumber_length h
      · cases h

end Lexeme

/-- The tokens of a text with their byte offsets. -/
inductive Stream where
  /-- The text ends at `pos`. -/
  | finish (pos : Nat)
  /-- No token starts at `pos`. -/
  | stuck (pos : Nat) (first : Char) (fault : Option Token.Located)
  /-- A token from `start` to `stop`. -/
  | token (start : Nat) (t : Token) (stop : Nat) (rest : Stream)

namespace Stream

/-- Cut a source into tokens. -/
def ofSource (s : Source) : Stream :=
  let front := Source.skipBlanks s.pos s.chars
  match _h : Lexeme.read front with
  | .finish => .finish front.pos
  | .stuck first fault => .stuck front.pos first fault
  | .token t rest => .token front.pos t rest.pos (ofSource rest)
termination_by s.chars.length
decreasing_by
  exact Nat.lt_of_lt_of_le (Lexeme.read_length _h) (Source.skipBlanks_length_le _ _)

/-- The tokens of a text. -/
def ofText (text : String) : Stream :=
  ofSource (Source.ofText text)

/-- The number of tokens. -/
def size : Stream → Nat
  | .token _ _ _ rest => rest.size + 1
  | _ => 0

/-- The offset where the stream's first token starts, or where its tokens end. -/
def start : Stream → Nat
  | .finish pos => pos
  | .stuck pos _ _ => pos
  | .token pos _ _ _ => pos

/-- The first character that is no blank. -/
def first? : Stream → Option Char
  | .finish _ => none
  | .stuck _ c _ => some c
  | .token _ t _ _ => some t.first

end Stream

end JsonTypedef
