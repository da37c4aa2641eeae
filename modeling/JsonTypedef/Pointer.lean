import JsonTypedef.Text.Quotation

/-!
# JSON pointers

A pointer is a list of raw segments: member names and decimal indices.  Its text
puts a slash before every segment and escapes `~` and `/` inside one as `~0` and
`~1`.
-/

namespace JsonTypedef

/-- A path from the root of a document. -/
structure Pointer where
  segments : List String
deriving DecidableEq

namespace Pointer

/-- The path of the document itself. -/
def root : Pointer :=
  ⟨[]⟩

/-- The path with one more segment. -/
def child (p : Pointer) (segment : String) : Pointer :=
  ⟨p.segments ++ [segment]⟩

/-- The path with more segments. -/
def extend (p : Pointer) (segments : List String) : Pointer :=
  ⟨p.segments ++ segments⟩

/-- The last segment and the path without it; the root has neither. -/
def pop? (p : Pointer) : Option (String × Pointer) :=
  p.segments.getLast?.map fun last => (last, ⟨p.segments.dropLast⟩)

/-- One character of a segment as it is written. -/
def escapeChar (c : Char) : List Char :=
  if c = '~' then ['~', '0']
  else if c = '/' then ['~', '1']
  else [c]

/-- A segment as it is written, with the slash in front of it. -/
def segmentText (segment : String) : List Char :=
  '/' :: segment.toList.flatMap escapeChar

/-- The text of a pointer. -/
def text (p : Pointer) : String :=
  String.ofList (p.segments.flatMap segmentText)

/-- Undo the escapes of a segment; a `~` stands only before `0` or `1`. -/
def unescape : List Char → Option (List Char)
  | [] => some []
  | '~' :: '0' :: rest => (unescape rest).map ('~' :: ·)
  | '~' :: '1' :: rest => (unescape rest).map ('/' :: ·)
  | c :: rest => if c = '~' then none else (unescape rest).map (c :: ·)

/-- Cut a text at its slashes. -/
def splitSlashes : List Char → List (List Char)
  | [] => [[]]
  | c :: rest =>
    if c = '/' then [] :: splitSlashes rest
    else
      match splitSlashes rest with
      | [] => [[c]]
      | piece :: pieces => (c :: piece) :: pieces

/-- Read the text of a pointer. -/
def ofText? (text : String) : Option Pointer :=
  match text.toList with
  | [] => some root
  | c :: rest =>
    if c = '/' then
      ((splitSlashes rest).mapM unescape).map fun pieces => ⟨pieces.map String.ofList⟩
    else none

/-- The wording of the refusal of a text that is no pointer. -/
def invalidMessage (text : String) : String :=
  "invalid json pointer " ++ Text.quoted text

/-- Order of segment lists: segment by segment, a proper beginning first. -/
def compareSegments : List String → List String → Ordering
  | [], [] => .eq
  | [], _ :: _ => .lt
  | _ :: _, [] => .gt
  | a :: as, b :: bs => (compare a b).then (compareSegments as bs)

/-- Order of pointers by their segments. -/
def order (p q : Pointer) : Ordering :=
  compareSegments p.segments q.segments

end Pointer

end JsonTypedef
