import JsonTypedef.Json.Token

/-!
# Scanning tokens

A scanner reads a value from the tokens at a cursor and gives back a cursor
behind them.  Its result carries the proof that fewer tokens are left, so that
a loop over the items of a container ends.
-/

namespace JsonTypedef

/-- A place among the tokens of a text.  The position is the end of the token
read last, or the start of the next one once blanks are skipped. -/
structure Cursor where
  pos : Nat
  stream : Stream

namespace Cursor

/-- The cursor in front of a text. -/
def ofText (text : String) : Cursor :=
  ⟨0, .ofText text⟩

/-- The number of tokens left. -/
def size (c : Cursor) : Nat :=
  c.stream.size

/-- Move the position to the start of the next token. -/
def skipBlanks (c : Cursor) : Cursor :=
  ⟨c.stream.start, c.stream⟩

@[simp] theorem size_skipBlanks (c : Cursor) : c.skipBlanks.size = c.size :=
  rfl

end Cursor

/-- A value read at a cursor and the cursor behind it. -/
structure Taken (α : Type) (c : Cursor) where
  value : α
  rest : Cursor
  shorter : rest.size < c.size

namespace Taken

/-- Change the value that was read. -/
def map {α β : Type} {c : Cursor} (f : α → β) (t : Taken α c) : Taken β c :=
  ⟨f t.value, t.rest, t.shorter⟩

/-- What is read at a later cursor is read behind an earlier one. -/
def after {α : Type} {c d : Cursor} (h : d.size < c.size) (t : Taken α d) : Taken α c :=
  ⟨t.value, t.rest, Nat.lt_trans t.shorter h⟩

/-- What is read behind blanks is read behind the cursor in front of them. -/
def afterBlanks {α : Type} {c : Cursor} (t : Taken α c.skipBlanks) : Taken α c :=
  ⟨t.value, t.rest, t.shorter⟩

end Taken

/-- A function that reads a value at a cursor or fails. -/
abbrev Scanner (ε α : Type) :=
  (c : Cursor) → Except ε (Taken α c)

namespace Cursor

/-- The next token, if the stream has one. -/
def take? (c : Cursor) : Option (Taken Token c) :=
  match c with
  | ⟨_, .token _ t stop rest⟩ => some ⟨t, ⟨stop, rest⟩, Nat.lt_succ_self rest.size⟩
  | _ => none

/-- Take the next token if it is the given one. -/
def accept? (c : Cursor) (t : Token) : Option (Taken Unit c) :=
  match c.take? with
  | some ⟨u, rest, h⟩ => if u = t then some ⟨(), rest, h⟩ else none
  | none => none

end Cursor

namespace Scanner

/-- Items separated by commas up to the closing token.  Each item is scanned
with the list of the items before it, the latest first; `mismatch` is the
failure where neither a comma nor the closing token follows an item. -/
def separated {ε α : Type} (close : Token) (mismatch : Cursor → ε)
    (item : List α → Scanner ε α) (before : List α) (c : Cursor) :
    Except ε (Taken (List α) c) :=
  match item before c with
  | .error e => .error e
  | .ok ⟨a, behind, hitem⟩ =>
    match behind.take? with
    | none => .error (mismatch behind)
    | some ⟨t, next, hnext⟩ =>
      if t = close then .ok ⟨[a], next, Nat.lt_trans hnext hitem⟩
      else if t = .comma then
        match separated close mismatch item (a :: before) next with
        | .error e => .error e
        | .ok ⟨rest, last, hrest⟩ =>
          .ok ⟨a :: rest, last, Nat.lt_trans hrest (Nat.lt_trans hnext hitem)⟩
      else .error (mismatch behind)
termination_by c.size
decreasing_by exact Nat.lt_trans hnext hitem

/-- The items of a container from behind its opening token; there may be none. -/
def enclosed {ε α : Type} (close : Token) (mismatch : Cursor → ε)
    (item : List α → Scanner ε α) (c : Cursor) : Except ε (Taken (List α) c) :=
  match c.accept? close with
  | some t => .ok (t.map fun _ => [])
  | none =>
    (separated close mismatch item [] c.skipBlanks).map Taken.afterBlanks

end Scanner

end JsonTypedef
