/-!
# The unread part of a text

A source is what remains of a text together with the number of UTF-8 bytes
already read.  Positions in messages are such byte counts.
-/

namespace JsonTypedef

/-- The unread characters of a text and the byte offset of the first of them. -/
structure Source where
  pos : Nat
  chars : List Char
deriving DecidableEq

namespace Source

/-- The whole of a text. -/
def ofText (text : String) : Source :=
  ⟨0, text.toList⟩

/-- Drop blanks: space, tab, line feed and carriage return, one byte each. -/
def skipBlanks (pos : Nat) : List Char → Source
  | [] => ⟨pos, []⟩
  | c :: rest =>
    if c = ' ' ∨ c = '\t' ∨ c = '\n' ∨ c = '\r' then skipBlanks (pos + 1) rest
    else ⟨pos, c :: rest⟩

theorem skipBlanks_length_le (pos : Nat) (cs : List Char) :
    (skipBlanks pos cs).chars.length ≤ cs.length := by
  induction cs generalizing pos with
  | nil => simp [skipBlanks]
  | cons c rest ih =>
    unfold skipBlanks
    split
    · exact Nat.le_succ_of_le (ih (pos + 1))
    · simp

end Source

end JsonTypedef
