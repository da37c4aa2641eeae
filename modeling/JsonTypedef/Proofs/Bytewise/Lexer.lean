import JsonTypedef.Parsing.Failure

/-!
# Reading a text byte by byte

A reader keeps a byte offset into a text and looks at single bytes.  It cuts the
text only into slices, and a slice has to begin and to end at a boundary of two
characters.  A reader panics where it asks for any other slice, for an entry
behind the end of a list or for a number less than zero; `Reader` keeps this
apart from a failure that it reports.
-/

namespace JsonTypedef
namespace Bytewise

open Parsing

/-- The part of a text from one byte offset to another, where both are boundaries
of characters and in this order. -/
def slice? (text : String) (start stop : Nat) : Option String := do
  let first ← text.pos? ⟨start⟩
  let last ← text.pos? ⟨stop⟩
  if start ≤ stop then some (text.extract first last) else none

/-- A run from a byte offset: it gives a value and the offset where it stops, or
a failure.  It gives `none` where it panics, and where it never stops. -/
abbrev Reader (α : Type) :=
  StateT Nat (ExceptT Failure Option) α

/-- A text that is read byte by byte.  The loops that read it are its own
functions, and need not end. -/
abbrev Text :=
  String

section

variable (text : Text)

/-- The next byte, as the character that has it as its code. -/
def peek : Reader (Option Char) := do
  let pos ← get
  return text.toByteArray.data[pos]?.map Char.ofUInt8

/-- Go on over some bytes. -/
def advance (bytes : Nat) : Reader Unit :=
  modify (· + bytes)

/-- Skip blanks. -/
def Text.skipBlanks (text : Text) : Reader Unit := do
  match ← peek text with
  | some ' ' | some '\t' | some '\n' | some '\r' => do
    advance 1
    text |>.skipBlanks
  | _ => return
partial_fixpoint

export Text (skipBlanks)

/-- Read the character if it is next. -/
def eat (c : Char) : Reader Bool := do
  if (← peek text) = some c then do
    advance 1
    return true
  else return false

/-- The slice up to the end of the text. -/
def remaining : Reader String := do
  let pos ← get
  slice? text pos text.utf8ByteSize

/-- Fail for something else than expected, naming the character found. -/
def unexpected {α : Type} (what : Expected) : Reader α := do
  let rest ← remaining text
  throw ⟨.unexpected what rest.toList.head?, ← get⟩

/-- Read the character, which has to be next. -/
def expect (c : Char) (what : Expected) : Reader Unit := do
  if ← eat text c then return
  else unexpected text what

/-- Read a word. -/
def literal (word : String) : Reader Unit := do
  let rest ← remaining text
  if word.toList.isPrefixOf rest.toList then advance word.utf8ByteSize
  else throw ⟨.token (.literal word), ← get⟩

/-! ## Strings -/

/-- Fail for a string that cannot be read, at the given offset. -/
def stringFault {α : Type} (fault : Quoted.Fault) (pos : Nat) : Reader α :=
  throw ⟨.token (.string fault), pos⟩

/-- The slice of four hexadecimal digits at an offset, if it is there. -/
def hexSlice? (pos : Nat) : Option String :=
  (slice? text pos (pos + 4)).filter fun piece =>
    piece.toList.all fun c => (Quoted.hexValue? c).isSome

/-- Read four hexadecimal digits.  Where their slice is not there, this is a
fault and no panic. -/
def hexUnit : Reader Nat := do
  let pos ← get
  match hexSlice? text pos with
  | some piece => do
    advance 4
    return piece.toList.foldl
      (fun n c => n * 16 + (Quoted.hexValue? c).getD 0) 0
  | none => stringFault .unicode pos

/-- Read the unit that completes a pair with a high surrogate. -/
def lowSurrogate (start high : Nat) : Reader Char := do
  let rest ← remaining text
  if ['\\', 'u'].isPrefixOf rest.toList then do
    advance 2
    let low ← hexUnit text
    if Quoted.isLowSurrogate low then return Quoted.joinSurrogates high low
    else stringFault .surrogatePair start
  else stringFault .loneSurrogate start

/-- Read what follows `\u`, the backslash standing at `start`. -/
def unicode (start : Nat) : Reader Char := do
  let unit ← hexUnit text
  if Quoted.isHighSurrogate unit then lowSurrogate text start unit
  else if Quoted.isLowSurrogate unit then stringFault .loneSurrogate start
  else return Char.ofNat unit

/-- Read an escape at its backslash.  The byte behind the backslash is passed
over before it is looked at, even if it is only a part of a character. -/
def escape : Reader Char := do
  let start ← get
  advance 1
  match ← peek text with
  | none => do stringFault .unterminated (← get)
  | some c => do
    advance 1
    match Quoted.shortEscape? c with
    | some d => return d
    | none =>
      if c = 'u' then unicode text start else stringFault .escape start

/-- Read a string up to its closing quote.  Characters without an escape are
gathered in a slice that starts at the offset `run`. -/
def Text.stringFrom (text : Text) (run : Nat) (out : String) : Reader String := do
  match ← peek text with
  | none => do stringFault .unterminated (← get)
  | some '"' => do
    let piece ← slice? text run (← get)
    advance 1
    return out ++ piece
  | some '\\' => do
    let piece ← slice? text run (← get)
    let c ← escape text
    text |>.stringFrom (← get) ((out ++ piece).push c)
  | some c =>
    if c.toNat < 0x20 then do stringFault .control (← get)
    else do
      advance 1
      text |>.stringFrom run out
partial_fixpoint

export Text (stringFrom)

/-- Read a string. -/
def string : Reader String := do
  expect text '"' .string
  stringFrom text (← get) ""

/-- Read a string that is expected as `what`. -/
def stringAs (what : Expected) : Reader String := do
  if (← peek text) = some '"' then string text
  else unexpected text what

/-! ## Numbers -/

/-- The next byte is a decimal digit. -/
def atDigit : Reader Bool := do
  return (← peek text).any Numeral.isDigit

/-- Read decimal digits. -/
def Text.digits (text : Text) : Reader Unit := do
  if ← atDigit text then do
    advance 1
    text |>.digits
  else return
partial_fixpoint

export Text (digits)

/-- Read decimal digits, of which there has to be one. -/
def someDigits (gap : Numeral.Gap) : Reader Unit := do
  if ← atDigit text then digits text
  else do
    let rest ← remaining text
    throw ⟨.token (.digit gap rest.toList.head?), ← get⟩

/-- Read the whole part of a number. -/
def whole : Reader Unit := do
  if ← eat text '0' then return
  else someDigits text .whole

/-- Read the fraction of a number, if there is one. -/
def fraction : Reader Unit := do
  if ← eat text '.' then someDigits text .fraction
  else return

/-- Read the sign and the digits of an exponent. -/
def exponentDigits : Reader Unit := do
  if ← eat text '+' then someDigits text .exponent
  else do
    let _ ← eat text '-'
    someDigits text .exponent

/-- Read the exponent of a number, if there is one. -/
def exponent : Reader Unit := do
  if ← eat text 'e' then exponentDigits text
  else if ← eat text 'E' then exponentDigits text
  else return

/-- The number that a numeral denotes, given its spelling. -/
def numberOf (spelling : List Char) : Except Numeral.Fault Number :=
  match Numeral.read spelling with
  | .numeral n [] => n.value
  | _ => .error (.malformed spelling.length)

/-- Pass over a numeral. -/
def numeral : Reader Unit := do
  let _ ← eat text '-'
  whole text
  fraction text
  exponent text

/-- Read a number. -/
def number : Reader Number := do
  let start ← get
  numeral text
  let spelling ← slice? text start (← get)
  match numberOf spelling.toList with
  | .ok n => return n
  | .error fault => throw ⟨.token (.numeral fault), start⟩

/-! ## Values -/

/-- Read a value that is no container, null only where it is admitted. -/
def scalar (null : Bool) (what : Expected) : Reader Value := do
  match ← peek text with
  | some '"' => return .str (← string text)
  | some 't' => do
    literal text "true"
    return .bool true
  | some 'f' => do
    literal text "false"
    return .bool false
  | some 'n' =>
    if null then do
      literal text "null"
      return .null
    else unexpected text what
  | some c =>
    if c = '-' ∨ Numeral.isDigit c then return .num (← number text)
    else unexpected text what
  | none => unexpected text what

/-- Skip a value inside the given number of open brackets. -/
def Text.skipValue (text : Text) (opened : Nat) : Reader Unit := do
  skipBlanks text
  let next ← peek text
  if next = some '\x7b' ∨ next = some '[' then do
    advance 1
    text |>.skipValue (opened + 1)
  else if 0 < opened ∧ (next = some '\x7d' ∨ next = some ']') then do
    advance 1
    if opened - 1 = 0 then return
    else text |>.skipValue (opened - 1)
  else if 0 < opened ∧ (next = some ',' ∨ next = some ':') then do
    advance 1
    text |>.skipValue opened
  else do
    let _ ← scalar text true .value
    if opened = 0 then return
    else text |>.skipValue opened
partial_fixpoint

export Text (skipValue)

end

end Bytewise
end JsonTypedef
