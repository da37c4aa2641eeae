/-!
# The front of a YAML text

Indentation gives a YAML text its structure, so the unread characters go with
the line, the column and the index of the first of them.  Line breaks are read
as one character each: a carriage return with a line feed, each of the two
alone, and the next-line character as a line feed, the two Unicode separators as
themselves.
-/

namespace JsonTypedef
namespace Yaml

/-- A space or a tab. -/
def isBlank (c : Char) : Bool :=
  c = ' ' || c = '\t'

/-- A character that breaks a line. -/
def isBreak (c : Char) : Bool :=
  c = '\n' || c = '\r' || c = '\x85' || c = '\u2028' || c = '\u2029'

/-- The text starts with a character in the given class. -/
def startsWith (p : Char → Bool) : List Char → Bool
  | [] => false
  | c :: _ => p c

/-- The text starts with a blank, a line break, or is at its end. -/
def atGap : List Char → Bool
  | [] => true
  | c :: _ => isBlank c || isBreak c

/-- A character of anchors, tag handles and directive names. -/
def isWord (c : Char) : Bool :=
  c.isAlphanum || c = '_' || c = '-'

/-- The unread characters and where the first of them stands. -/
structure Front where
  chars : List Char
  line : Nat
  column : Nat
  index : Nat

namespace Front

/-- The front of a whole text. -/
def ofChars (cs : List Char) : Front :=
  ⟨cs, 0, 0, 0⟩

/-- Go on by a number of characters on the same line. -/
def advance (n : Nat) (f : Front) : Front :=
  ⟨f.chars.drop n, f.line, f.column + n, f.index + n⟩

/-- Take the characters of a class that breaks no line. -/
def span (p : Char → Bool) (f : Front) : List Char × Front :=
  let taken := f.chars.takeWhile p
  (taken, f.advance taken.length)

/-- Skip the characters of a class that breaks no line. -/
def skip (p : Char → Bool) (f : Front) : Front :=
  (f.span p).2

/-- The front behind a line break of `n` characters. -/
def nextLine (n : Nat) (f : Front) : Front :=
  ⟨f.chars.drop n, f.line + 1, 0, f.index + n⟩

/-- Read a line break as the character that it stands for. -/
def readBreak (f : Front) : Option (Char × Front) :=
  match f.chars with
  | '\r' :: '\n' :: _ => some ('\n', f.nextLine 2)
  | c :: _ =>
    if c = '\u2028' ∨ c = '\u2029' then some (c, f.nextLine 1)
    else if isBreak c then some ('\n', f.nextLine 1)
    else none
  | [] => none

theorem readBreak_length {f g : Front} {c : Char} (h : f.readBreak = some (c, g)) :
    g.chars.length < f.chars.length := by
  unfold readBreak at h
  split at h
  · rename_i rest hchars
    cases h
    simp only [nextLine, hchars, List.length_drop, List.length_cons]
    omega
  · rename_i d rest _ hchars
    split at h
    · cases h
      simp [nextLine, hchars]
    · split at h
      · cases h
        simp [nextLine, hchars]
      · cases h
  · cases h

theorem skip_length_le (p : Char → Bool) (f : Front) :
    (f.skip p).chars.length ≤ f.chars.length := by
  simp [skip, span, advance]

/-- The front stands at a line of three hyphens or three periods that starts or
ends a document. -/
def atDocumentMark (f : Front) : Bool :=
  f.column = 0 &&
    match f.chars with
    | '-' :: '-' :: '-' :: rest => atGap rest
    | '.' :: '.' :: '.' :: rest => atGap rest
    | _ => false

/-- Skip a byte order mark at the start of a line. -/
def skipOrderMark (f : Front) : Front :=
  if f.column = 0 && startsWith (· = '\ufeff') f.chars then f.advance 1 else f

theorem skipOrderMark_length_le (f : Front) :
    f.skipOrderMark.chars.length ≤ f.chars.length := by
  unfold skipOrderMark
  split
  · simp [advance]
  · exact Nat.le_refl _

/-- Skip a comment, if one starts here. -/
def skipComment (f : Front) : Front :=
  if startsWith (· = '#') f.chars then f.skip fun c => !isBreak c else f

theorem skipComment_length_le (f : Front) :
    f.skipComment.chars.length ≤ f.chars.length := by
  unfold skipComment
  split
  · exact skip_length_le _ f
  · exact Nat.le_refl _

/-- Read line breaks with the blanks around them.  With an indentation given, a
tab in front of it is refused. -/
def readBreaks (indent : Option Nat) (f : Front) : Option (List Char × Front) :=
  match _h : f.readBreak with
  | none => some ([], f)
  | some (c, next) =>
    let blanks := next.chars.takeWhile isBlank
    if (indent.map fun n => (blanks.take n).contains '\t').getD false then none
    else (readBreaks indent (next.skip isBlank)).map fun (cs, g) => (c :: cs, g)
termination_by f.chars.length
decreasing_by exact Nat.lt_of_le_of_lt (skip_length_le _ _) (readBreak_length _h)

end Front

/-- The text that a run of line breaks inside a scalar stands for: a single line
feed is folded into a space, of several line feeds the first is dropped. -/
def folded : List Char → List Char
  | ['\n'] => [' ']
  | '\n' :: rest => rest
  | cs => cs

end Yaml
end JsonTypedef
