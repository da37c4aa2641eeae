import JsonTypedef.Json.Quoted
import JsonTypedef.Yaml.Front

/-!
# Reading YAML scalars

A scalar is written plainly, between single or double quotes, or as a block of
indented lines.  Inside the first three a line break with the blanks around it
is folded; a block keeps its lines, or folds them where `>` introduces it.
-/

namespace JsonTypedef
namespace Yaml

/-! ## Plain scalars -/

/-- The character ends a plain scalar inside brackets. -/
def isFlowMark (c : Char) : Bool :=
  c = ',' || c = '[' || c = ']' || c = '\x7b' || c = '\x7d'

/-- Split off the characters of a plain scalar up to the next blank, line break
or indicator; inside brackets a colon right before one of some indicators is
refused. -/
def plainChunk (inFlow : Bool) : List Char → Option (List Char × List Char)
  | [] => some ([], [])
  | c :: rest =>
    if isBlank c || isBreak c then some ([], c :: rest)
    else if inFlow && c = ':' && startsWith (fun d => isFlowMark d || d = '?') rest then none
    else if c = ':' && atGap rest then some ([], c :: rest)
    else if inFlow && isFlowMark c then some ([], c :: rest)
    else (plainChunk inFlow rest).map fun (ds, tail) => (c :: ds, tail)

/-- Blanks within a line, or a run of line breaks: what stands between two
chunks of a scalar. -/
structure Gap where
  blanks : List Char
  breaks : List Char

namespace Gap

/-- The gap of no character. -/
def empty : Gap :=
  ⟨[], []⟩

/-- The text that a gap stands for inside a scalar. -/
def text (g : Gap) : List Char :=
  if g.breaks.isEmpty then g.blanks else folded g.breaks

/-- Read a gap; with an indentation given, a tab in front of it is refused. -/
def read (indent : Option Nat) (f : Front) : Option (Gap × Front) :=
  let (blanks, behind) := f.span isBlank
  (behind.readBreaks indent).map fun (breaks, next) => (⟨blanks, breaks⟩, next)

end Gap

/-- A scalar that was read: its text, what follows, and whether a line break was
the last thing read. -/
structure ScalarText where
  text : List Char
  rest : Front
  endsLine : Bool

/-- Read the chunks of a plain scalar behind a gap.  Outside brackets the scalar
ends where a line is indented by less than `indent`. -/
def plainFrom (inFlow : Bool) (indent : Nat) (gap : Gap) (f : Front) : Option ScalarText :=
  let stop : ScalarText := ⟨[], f, !gap.breaks.isEmpty⟩
  if f.atDocumentMark || startsWith (· = '#') f.chars then some stop
  else
    match plainChunk inFlow f.chars with
    | none => none
    | some ([], _) => some stop
    | some (chunk, _) =>
      let behind := f.advance chunk.length
      let text := gap.text ++ chunk
      if behind.chars.isEmpty || !atGap behind.chars then some ⟨text, behind, false⟩
      else
        match Gap.read (some indent) behind with
        | none => none
        | some (next, front) =>
          if !inFlow && front.column < indent then some ⟨text, front, !next.breaks.isEmpty⟩
          else if front.chars.length < f.chars.length then
            (plainFrom inFlow indent next front).map fun s => ⟨text ++ s.text, s.rest, s.endsLine⟩
          else none
termination_by f.chars.length

/-! ## Quoted scalars -/

/-- The character of a two-character escape. -/
def shortEscape? (c : Char) : Option Char :=
  match c with
  | '0' => some '\x00'
  | 'a' => some '\x07'
  | 'b' => some '\x08'
  | 't' | '\t' => some '\t'
  | 'n' => some '\n'
  | 'v' => some '\x0b'
  | 'f' => some '\x0c'
  | 'r' => some '\r'
  | 'e' => some '\x1b'
  | ' ' => some ' '
  | '"' => some '"'
  | '/' => some '/'
  | '\\' => some '\\'
  | 'N' => some '\x85'
  | '_' => some '\xa0'
  | 'L' => some '\u2028'
  | 'P' => some '\u2029'
  | _ => none

/-- The number of hexadecimal digits that an escape letter announces. -/
def escapeWidth? (c : Char) : Option Nat :=
  match c with
  | 'x' => some 2
  | 'u' => some 4
  | 'U' => some 8
  | _ => none

/-- The code point that hexadecimal digits spell. -/
def hexValue? (n : Nat) : List Char → Option Nat
  | [] => some n
  | c :: rest => (Quoted.hexValue? c).bind fun d => hexValue? (n * 16 + d) rest

/-- The character that an escape spells by its code point. -/
def codePoint? (digits : List Char) : Option Char :=
  (hexValue? 0 digits).bind fun n =>
    if h : n.isValidChar then some (Char.ofNatAux n h) else none

/-- A chunk of a quoted scalar: its characters, what follows, and whether it
ends in an escaped line break. -/
structure Chunk where
  text : List Char
  rest : List Char
  escapedBreak : Bool

/-- Split off the characters of a single-quoted scalar up to the next blank or
line break, or its closing quote. -/
def singleChunk : List Char → Chunk
  | [] => ⟨[], [], false⟩
  | '\'' :: '\'' :: rest =>
    let chunk := singleChunk rest
    ⟨'\'' :: chunk.text, chunk.rest, false⟩
  | c :: rest =>
    if c = '\'' || isBlank c || isBreak c then ⟨[], c :: rest, false⟩
    else
      let chunk := singleChunk rest
      ⟨c :: chunk.text, chunk.rest, false⟩

/-- Split off the characters of a double-quoted scalar up to the next blank or
line break, or its closing quote.  The rest behind an escaped line break starts
with that break. -/
def doubleChunk (cs : List Char) : Option Chunk :=
  match cs with
  | [] => some ⟨[], [], false⟩
  | c :: rest =>
    if c = '"' || isBlank c || isBreak c then some ⟨[], c :: rest, false⟩
    else if c = '\\' then
      match rest with
      | [] => none
      | d :: tail =>
        if isBreak d then some ⟨[], d :: tail, true⟩
        else
          match shortEscape? d with
          | some e =>
            (doubleChunk tail).map fun chunk => ⟨e :: chunk.text, chunk.rest, chunk.escapedBreak⟩
          | none =>
            match escapeWidth? d with
            | none => none
            | some width =>
              if tail.length < width then none
              else
                match codePoint? (tail.take width) with
                | none => none
                | some e =>
                  (doubleChunk (tail.drop width)).map fun chunk =>
                    ⟨e :: chunk.text, chunk.rest, chunk.escapedBreak⟩
    else (doubleChunk rest).map fun chunk => ⟨c :: chunk.text, chunk.rest, chunk.escapedBreak⟩
termination_by cs.length
decreasing_by all_goals (simp only [List.length_cons, List.length_drop]; omega)

/-- Read a quoted scalar from behind its opening quote. -/
def quotedFrom (quote : Char) (f : Front) : Option (List Char × Front) :=
  if f.atDocumentMark || f.chars.isEmpty then none
  else
    match if quote = '"' then doubleChunk f.chars else some (singleChunk f.chars) with
    | none => none
    | some chunk =>
      let behind := f.advance (f.chars.length - chunk.rest.length)
      if !chunk.escapedBreak && startsWith (· = quote) behind.chars then
        some (chunk.text, behind.advance 1)
      else
        match Gap.read none behind with
        | none => none
        | some (gap, front) =>
          let between := if chunk.escapedBreak then gap.breaks.drop 1 else gap.text
          if front.chars.length < f.chars.length then
            (quotedFrom quote front).map fun (text, rest) => (chunk.text ++ between ++ text, rest)
          else none
termination_by f.chars.length

/-! ## Block scalars -/

/-- What becomes of the line breaks at the end of a block. -/
inductive Chomping where
  | strip
  | clip
  | keep
deriving DecidableEq

/-- The chomping that an indicator asks for. -/
def chomping? (c : Char) : Option Chomping :=
  if c = '-' then some .strip else if c = '+' then some .keep else none

/-- The indentation that an indicator asks for. -/
def blockIndent? (c : Char) : Option Nat :=
  if '1' ≤ c ∧ c ≤ '9' then some (c.toNat - '0'.toNat) else none

/-- The indicators behind the mark of a block, in either order. -/
def blockIndicators (f : Front) : Chomping × Option Nat × Front :=
  match f.chars with
  | c :: rest =>
    match chomping? c with
    | some chomping =>
      match rest.head?.bind blockIndent? with
      | some n => (chomping, some n, f.advance 2)
      | none => (chomping, none, f.advance 1)
    | none =>
      match blockIndent? c with
      | some n =>
        match rest.head?.bind chomping? with
        | some chomping => (chomping, some n, f.advance 2)
        | none => (.clip, some n, f.advance 1)
      | none => (.clip, none, f)
  | [] => (.clip, none, f)

/-- Read the empty lines in front of a line of a block: their breaks, the
greatest indentation met, and what follows the indentation of that line. -/
def blockBreaks (indent : Option Nat) (widest : Nat) (f : Front) :
    Option (List Char × Nat × Front) :=
  let spaces := (f.chars.takeWhile (· = ' ')).length
  let front := f.advance (match indent with
    | some n => min spaces (n - f.column)
    | none => spaces)
  let widest := max widest front.column
  let short := match indent with
    | some n => front.column < n
    | none => true
  if short && startsWith (· = '\t') front.chars then none
  else
    match _h : front.readBreak with
    | none => some ([], widest, front)
    | some (c, next) =>
      if next.chars.length < f.chars.length then
        (blockBreaks indent widest next).map fun (cs, n, g) => (c :: cs, n, g)
      else none
termination_by f.chars.length

/-- Read the lines of a block that are indented by `indent`.  `pending` is the
line break before the first of them with the breaks of the empty lines behind
it, and `loose` tells that the line before starts with a blank.  The result is
the text, and the breaks behind the last line, pending in turn. -/
def blockLines (literal : Bool) (indent : Nat) (pending : List Char × List Char) (loose : Bool)
    (f : Front) : Option (List Char × (List Char × List Char) × Front) :=
  if f.column ≠ indent || f.chars.isEmpty then some ([], pending, f)
  else
    let starts := startsWith isBlank f.chars
    let before :=
      if !literal && pending.1 = ['\n'] && !loose && !starts then
        if pending.2.isEmpty then [' '] else pending.2
      else pending.1 ++ pending.2
    let (line, behind) := f.span fun c => !isBreak c
    let (leading, front) := match behind.readBreak with
      | some (c, next) => ([c], next)
      | none => ([], behind)
    match blockBreaks (some indent) 0 front with
    | none => none
    | some (trailing, _, next) =>
      if next.chars.length < f.chars.length then
        (blockLines literal indent (leading, trailing) starts next).map fun (text, last, g) =>
          (before ++ line ++ text, last, g)
      else none
termination_by f.chars.length

/-- Read a block scalar from behind its mark; `outer` is the indentation of the
block around it, -1 outside of all. -/
def blockFrom (literal : Bool) (outer : Int) (f : Front) : Option (List Char × Front) :=
  let (chomping, wanted, f) := blockIndicators f
  let f := (f.skip isBlank).skipComment
  if !atGap f.chars then none
  else
    let f := match f.readBreak with
      | some (_, next) => next
      | none => f
    let given := wanted.map fun n => (max outer 0).toNat + n
    match blockBreaks given 0 f with
    | none => none
    | some (trailing, widest, front) =>
      let indent := given.getD (max widest (max (outer + 1) 1).toNat)
      (blockLines literal indent ([], trailing) false front).map fun (text, last, rest) =>
        match chomping with
        | .strip => (text, rest)
        | .clip => (text ++ last.1, rest)
        | .keep => (text ++ last.1 ++ last.2, rest)

end Yaml
end JsonTypedef
