import JsonTypedef.Yaml.Scalar

/-!
# YAML tokens

The scanner cuts a YAML text into tokens and marks the structure that
indentation gives it by start and end tokens.  A key may be recognized only by
the colon behind it, so the scanner remembers where a key could have started and
puts the key token there once the colon is met.
-/

namespace JsonTypedef
namespace Yaml

/-- The text of a tag, byte by byte: what percent escapes spell need not make up
characters. -/
abbrev Tag :=
  List UInt8

namespace Tag

/-- The bytes of a text. -/
def ofText (s : String) : Tag :=
  s.toUTF8.data.toList

/-- The exclamation mark. -/
def bang : UInt8 :=
  0x21

/-- A zero byte ends a tag. -/
def cut (t : Tag) : Tag :=
  t.takeWhile (· ≠ 0)

end Tag

/-- A YAML token. -/
inductive Token where
  | version (major minor : Nat)
  | tagDirective (handle : String) (lead : Tag)
  | documentStart
  | documentEnd
  | blockSequenceStart
  | blockMappingStart
  | blockEnd
  | flowSequenceStart
  | flowSequenceEnd
  | flowMappingStart
  | flowMappingEnd
  | blockEntry
  | flowEntry
  | key
  | value
  | alias (name : String)
  | anchor (name : String)
  | tag (handle : String) (suffix : Tag)
  | scalar (isPlain : Bool) (text : String)
deriving DecidableEq

/-- A place where a key without a mark of its own may have started. -/
structure SimpleKey where
  /-- Nothing but a key can stand here. -/
  required : Bool
  /-- The number of tokens in front of the place. -/
  place : Nat
  line : Nat
  column : Nat
  index : Nat

/-- The state of the scanner between two tokens. -/
structure Scanner where
  front : Front
  /-- The column of the innermost block, -1 outside of all blocks. -/
  indent : Int
  /-- The columns of the blocks around it. -/
  indents : List Int
  /-- A key without a mark of its own may start at the front. -/
  keyAllowed : Bool
  /-- The possible key on the innermost level of brackets. -/
  possibleKey : Option SimpleKey
  /-- The possible keys on the levels of brackets around it. -/
  outerKeys : List (Option SimpleKey)
  /-- The tokens so far, in order. -/
  tokens : Array Token

namespace Scanner

/-- The scanner in front of a text. -/
def start (cs : List Char) : Scanner :=
  ⟨.ofChars cs, -1, [], true, none, [], #[]⟩

/-- The front stands between brackets. -/
def inFlow (s : Scanner) : Bool :=
  !s.outerKeys.isEmpty

/-- Append a token. -/
def push (s : Scanner) (t : Token) : Scanner :=
  { s with tokens := s.tokens.push t }

/-- Put a token in front of the tokens from a place on. -/
def insertAt (s : Scanner) (place : Nat) (t : Token) : Scanner :=
  { s with
    tokens := ((s.tokens.toList.take place) ++ t :: s.tokens.toList.drop place).toArray }

/-- Go on by a number of characters. -/
def advance (s : Scanner) (n : Nat) : Scanner :=
  { s with front := s.front.advance n }

/-- Append a token of a single character. -/
def mark (s : Scanner) (t : Token) : Scanner :=
  (s.advance 1).push t

/-- Say whether a key without a mark may start at the front. -/
def allowKey (s : Scanner) (allowed : Bool) : Scanner :=
  { s with keyAllowed := allowed }

/-- Give up the possible key on the innermost level, which must not be one that
is required. -/
def dropKey (s : Scanner) : Option Scanner :=
  match s.possibleKey with
  | some key => if key.required then none else some { s with possibleKey := none }
  | none => some s

/-- Remember that a key may start at the front. -/
def saveKey (s : Scanner) : Option Scanner :=
  if s.keyAllowed then
    s.dropKey.map fun s =>
      { s with
        possibleKey := some ⟨!s.inFlow && s.indent = s.front.column, s.tokens.size,
          s.front.line, s.front.column, s.front.index⟩ }
  else some s

/-- The greatest number of characters of a key without a mark. -/
def keyLimit : Nat :=
  1024

/-- The possible key lies on an earlier line or too far back. -/
def isStale (f : Front) (key : SimpleKey) : Bool :=
  key.line < f.line || key.index + keyLimit < f.index

/-- Forget a possible key that has become stale; a required one must not. -/
def freshKey (f : Front) : Option SimpleKey → Option (Option SimpleKey)
  | none => some none
  | some key =>
    if isStale f key then if key.required then none else some none else some (some key)

/-- Forget the possible keys that have become stale. -/
def dropStaleKeys (s : Scanner) : Option Scanner := do
  let outer ← s.outerKeys.mapM (freshKey s.front)
  let own ← freshKey s.front s.possibleKey
  some { s with outerKeys := outer, possibleKey := own }

/-- Open a block at a column that lies deeper than the innermost block. -/
def openBlock (s : Scanner) (column place : Nat) (t : Token) : Scanner :=
  if !s.inFlow && s.indent < column then
    { s with indent := column, indents := s.indent :: s.indents }.insertAt place t
  else s

/-- The innermost blocks that lie deeper than a column: what is left of the
columns, and the number of blocks closed. -/
def closeBlocks (column indent : Int) : List Int → Int × List Int × Nat
  | [] => (indent, [], 0)
  | outer :: rest =>
    if column < indent then
      let (indent, indents, closed) := closeBlocks column outer rest
      (indent, indents, closed + 1)
    else (indent, outer :: rest, 0)

/-- Close the blocks that lie deeper than a column. -/
def unindent (s : Scanner) (column : Int) : Scanner :=
  if s.inFlow then s
  else
    let (indent, indents, closed) := closeBlocks column s.indent s.indents
    { s with
      indent := indent
      indents := indents
      tokens := s.tokens ++ Array.replicate closed .blockEnd }

/-- Skip blanks, comments and line breaks, and a byte order mark at the start of
a line.  Behind a line break outside brackets a key may start, and where one may
start a tab is no blank. -/
def skipGaps (inFlow keyAllowed : Bool) (f : Front) : Front × Bool :=
  let front :=
    (f.skipOrderMark.skip fun c => c = ' ' || (c = '\t' && (inFlow || !keyAllowed))).skipComment
  match _h : front.readBreak with
  | none => (front, keyAllowed)
  | some (_, next) => skipGaps inFlow (keyAllowed || !inFlow) next
termination_by f.chars.length
decreasing_by
  exact Nat.lt_of_lt_of_le (Front.readBreak_length _h)
    (Nat.le_trans (Front.skipComment_length_le _)
      (Nat.le_trans (Front.skip_length_le _ _) (Front.skipOrderMark_length_le _)))

/-! ## Directives, anchors and tags -/

/-- The number that digits at the front spell, with what follows. -/
def number? (f : Front) : Option (Nat × Front) :=
  let (ds, rest) := f.span Char.isDigit
  if ds.isEmpty || 9 < ds.length then none
  else some (ds.foldl (fun n c => n * 10 + (c.toNat - '0'.toNat)) 0, rest)

/-- The version that a version directive names. -/
def readVersion (f : Front) : Option (Token × Front) := do
  let (major, f) ← number? (f.skip isBlank)
  if startsWith (· = '.') f.chars then
    let (minor, f) ← number? (f.advance 1)
    some (.version major minor, f)
  else none

/-- A tag handle: an exclamation mark, a word, and in general a second mark. -/
def readHandle (isDirective : Bool) (f : Front) : Option (List Char × Front) :=
  if startsWith (· = '!') f.chars then
    let (word, behind) := (f.advance 1).span isWord
    if startsWith (· = '!') behind.chars then some ('!' :: word ++ ['!'], behind.advance 1)
    else if isDirective && !word.isEmpty then none
    else some ('!' :: word, behind)
  else none

/-- A character of a tag; some more stand between angle brackets. -/
def isTagChar (bracketed : Bool) (c : Char) : Bool :=
  isWord c || c ∈ [';', '/', '?', ':', '@', '&', '=', '+', '$', '.', '!', '~', '*', '\'', '(', ')'] ||
    (bracketed && c ∈ [',', '[', ']'])

/-- The byte that a percent escape at the front spells. -/
def readByte : List Char → Option (UInt8 × List Char)
  | '%' :: a :: b :: rest =>
    match Quoted.hexValue? a, Quoted.hexValue? b with
    | some high, some low => some (UInt8.ofNat (high * 16 + low), rest)
    | _, _ => none
  | _ => none

/-- The number of bytes of a character whose encoding starts with a byte. -/
def encodedLength (b : UInt8) : Nat :=
  if b < 0x80 then 1 else if b < 0xc0 then 0 else if b < 0xe0 then 2
  else if b < 0xf0 then 3 else if b < 0xf8 then 4 else 0

/-- The bytes inside the encoding of a character that `n` percent escapes at the
front spell. -/
def readInnerBytes : Nat → List Char → Option (Tag × List Char)
  | 0, cs => some ([], cs)
  | n + 1, cs => do
    let (b, rest) ← readByte cs
    let (bs, rest) ← if 0x80 ≤ b ∧ b < 0xc0 then readInnerBytes n rest else none
    some (b :: bs, rest)

/-- The bytes that percent escapes at the front spell: as many as the first of
them announces. -/
def readEscaped (cs : List Char) : Option (Tag × List Char) := do
  let (b, rest) ← readByte cs
  let (bs, rest) ← match encodedLength b with
    | 0 => none
    | n + 1 => readInnerBytes n rest
  some (b :: bs, rest)

/-- The characters of a tag at the front, its escapes undone. -/
def tagChars (bracketed : Bool) (cs : List Char) : Option (Tag × List Char) :=
  match cs with
  | [] => some ([], [])
  | c :: rest =>
    if c = '%' then
      match readEscaped (c :: rest) with
      | none => none
      | some (bs, tail) =>
        if tail.length < rest.length then
          (tagChars bracketed tail).map fun (ds, tail) => (bs ++ ds, tail)
        else none
    else if isTagChar bracketed c then
      (tagChars bracketed rest).map fun (ds, tail) => (UInt8.ofNat c.toNat :: ds, tail)
    else some ([], c :: rest)
termination_by cs.length
decreasing_by all_goals (simp only [List.length_cons]; omega)

/-- The front behind the characters that leave a rest. -/
def behind (f : Front) (rest : List Char) : Front :=
  f.advance (f.chars.length - rest.length)

/-- The handle that a tag directive defines and the text it stands for. -/
def readTagDirective (f : Front) : Option (Token × Front) := do
  let (handle, f) ← readHandle true (f.skip isBlank)
  if startsWith isBlank f.chars then
    let f := f.skip isBlank
    let (lead, rest) ← tagChars true f.chars
    if lead.isEmpty || !atGap rest then none
    else some (.tagDirective (String.ofList handle) lead.cut, behind f rest)
  else none

/-- A directive from behind its percent sign, with the break that ends its line. -/
def readDirective (f : Front) : Option (Token × Front) := do
  let (name, f) := f.span isWord
  if name.isEmpty || !atGap f.chars then none
  else
    let (t, f) ← (if name = "YAML".toList then readVersion f
      else if name = "TAG".toList then readTagDirective f
      else none : Option (Token × Front))
    let f := (f.skip isBlank).skipComment
    match f.readBreak with
    | some (_, next) => some (t, next)
    | none => if f.chars.isEmpty then some (t, f) else none

/-- The name of an anchor or an alias from behind its mark. -/
def readAnchor (f : Front) : Option (String × Front) :=
  let (name, rest) := f.span isWord
  if name.isEmpty then none
  else if atGap rest.chars ||
      startsWith (· ∈ ['?', ':', ',', ']', '\x7d', '%', '@', '`']) rest.chars then
    some (String.ofList name, rest)
  else none

/-- A tag: between angle brackets, behind a handle, or behind a single mark. -/
def readTag (inFlow : Bool) (f : Front) : Option (Token × Front) := do
  let (t, f) ← (match f.chars with
    | '!' :: '<' :: rest => do
      let (uri, rest) ← tagChars true rest
      if uri.isEmpty || !startsWith (· = '>') rest then none
      else some (.tag "" uri.cut, (behind f rest).advance 1)
    | _ => do
      let (handle, next) ← readHandle false f
      if 1 < handle.length && handle.getLast? = some '!' then
        let (suffix, rest) ← tagChars false next.chars
        if suffix.isEmpty then none
        else some (.tag (String.ofList handle) suffix.cut, behind next rest)
      else
        let (suffix, rest) ← tagChars false next.chars
        let word := (Tag.ofText (String.ofList (handle.drop 1)) ++ suffix).cut
        if word.isEmpty then some (.tag "" [Tag.bang], behind next rest)
        else some (.tag "!" word, behind next rest) : Option (Token × Front))
  if atGap f.chars || (inFlow && startsWith (· = ',') f.chars) then some (t, f) else none

/-! ## Tokens -/

/-- Append a token read from the front. -/
def append (s : Scanner) (read : Option (Token × Front)) : Option Scanner :=
  read.map fun (t, f) => { s with front := f }.push t

/-- Open a bracket. -/
def openFlow (s : Scanner) (t : Token) : Option Scanner :=
  s.saveKey.map fun s =>
    ({ s with outerKeys := s.possibleKey :: s.outerKeys, possibleKey := none }.allowKey true).mark t

/-- Close a bracket. -/
def closeFlow (s : Scanner) (t : Token) : Option Scanner :=
  s.dropKey.map fun s =>
    let s := match s.outerKeys with
      | [] => s
      | key :: rest => { s with possibleKey := key, outerKeys := rest }
    (s.allowKey false).mark t

/-- Separate the items between brackets. -/
def separate (s : Scanner) : Option Scanner :=
  s.dropKey.map fun s => (s.allowKey true).mark .flowEntry

/-- Start an item of a block sequence. -/
def startItem (s : Scanner) : Option Scanner :=
  if !s.inFlow && !s.keyAllowed then none
  else
    (s.openBlock s.front.column s.tokens.size .blockSequenceStart).dropKey.map fun s =>
      (s.allowKey true).mark .blockEntry

/-- Start a key that has a mark. -/
def startKey (s : Scanner) : Option Scanner :=
  if !s.inFlow && !s.keyAllowed then none
  else
    (s.openBlock s.front.column s.tokens.size .blockMappingStart).dropKey.map fun s =>
      (s.allowKey !s.inFlow).mark .key

/-- Start a value; a possible key in front of it becomes a key. -/
def startValue (s : Scanner) : Option Scanner :=
  match s.possibleKey with
  | some key =>
    let s := (s.insertAt key.place .key).openBlock key.column key.place .blockMappingStart
    some (({ s with possibleKey := none }.allowKey false).mark .value)
  | none =>
    if !s.inFlow && !s.keyAllowed then none
    else
      some (((s.openBlock s.front.column s.tokens.size .blockMappingStart).allowKey
        !s.inFlow).mark .value)

/-- Read a node's anchor, tag or scalar, which a key may start with. -/
def startNode (s : Scanner) (read : Scanner → Option (Token × Front)) : Option Scanner :=
  s.saveKey.bind fun s => (s.allowKey false).append (read s)

/-- Read a quoted scalar. -/
def startQuoted (s : Scanner) (quote : Char) : Option Scanner :=
  s.startNode fun s =>
    (quotedFrom quote (s.front.advance 1)).map fun (text, rest) =>
      (.scalar false (String.ofList text), rest)

/-- Read a plain scalar; behind a line break a key may start again. -/
def startPlain (s : Scanner) : Option Scanner :=
  s.saveKey.bind fun s =>
    (plainFrom s.inFlow (s.indent + 1).toNat .empty s.front).map fun scalar =>
      ({ s with front := scalar.rest }.allowKey scalar.endsLine).push
        (.scalar true (String.ofList scalar.text))

/-- Read a block scalar. -/
def startBlock (s : Scanner) (literal : Bool) : Option Scanner :=
  s.dropKey.bind fun s =>
    (s.allowKey true).append
      ((blockFrom literal s.indent (s.front.advance 1)).map fun (text, rest) =>
        (.scalar false (String.ofList text), rest))

/-- Read a directive, or a mark between documents. -/
def startDocument (s : Scanner) (read : Front → Option (Token × Front)) : Option Scanner :=
  (s.unindent (-1)).dropKey.bind fun s => (s.allowKey false).append (read s.front)

/-- The character starts no plain scalar. -/
def isIndicator (c : Char) : Bool :=
  c ∈ ['-', '?', ':', ',', '[', ']', '\x7b', '\x7d', '#', '&', '*', '!', '|', '>', '\'', '"', '%',
    '@', '`']

/-- A plain scalar starts here. -/
def atPlain (inFlow : Bool) : List Char → Bool
  | [] => false
  | c :: rest =>
    !(isBlank c || isBreak c || isIndicator c) || (c = '-' && !startsWith isBlank rest) ||
      (!inFlow && (c = '?' || c = ':') && !atGap rest)

/-- Read the token that starts with the character `c`. -/
def tokenFrom (s : Scanner) (c : Char) (rest : List Char) : Option Scanner :=
  if s.front.column = 0 && c = '%' then s.startDocument fun f => readDirective (f.advance 1)
  else if s.front.atDocumentMark then
    s.startDocument fun f =>
      some (if c = '-' then .documentStart else .documentEnd, f.advance 3)
  else if c = '[' then s.openFlow .flowSequenceStart
  else if c = '\x7b' then s.openFlow .flowMappingStart
  else if c = ']' then s.closeFlow .flowSequenceEnd
  else if c = '\x7d' then s.closeFlow .flowMappingEnd
  else if c = ',' then s.separate
  else if c = '-' && atGap rest then s.startItem
  else if c = '?' && (s.inFlow || atGap rest) then s.startKey
  else if c = ':' && (s.inFlow || atGap rest) then s.startValue
  else if c = '*' then
    s.startNode fun s => (readAnchor (s.front.advance 1)).map fun (name, f) => (.alias name, f)
  else if c = '&' then
    s.startNode fun s => (readAnchor (s.front.advance 1)).map fun (name, f) => (.anchor name, f)
  else if c = '!' then s.startNode fun s => readTag s.inFlow s.front
  else if c = '|' && !s.inFlow then s.startBlock true
  else if c = '>' && !s.inFlow then s.startBlock false
  else if c = '\'' || c = '"' then s.startQuoted c
  else if atPlain s.inFlow s.front.chars then s.startPlain
  else none

/-- Close all blocks at the end of the text. -/
def finish (s : Scanner) : Option (List Token) :=
  (s.unindent (-1)).dropKey.map fun s => s.tokens.toList

/-- Read all tokens; a step that reads no character cannot be one. -/
def run (s : Scanner) : Option (List Token) :=
  let (front, keyAllowed) := skipGaps s.inFlow s.keyAllowed s.front
  match { s with front := front, keyAllowed := keyAllowed }.dropStaleKeys with
  | none => none
  | some fresh =>
    match fresh.front.chars with
    | [] => finish fresh
    | c :: rest =>
      match (fresh.unindent fresh.front.column).tokenFrom c rest with
      | none => none
      | some next => if next.front.chars.length < s.front.chars.length then run next else none
termination_by s.front.chars.length

end Scanner

/-- The character may stand in a YAML text. -/
def isText (c : Char) : Bool :=
  let n := c.toNat
  n = 0x09 || n = 0x0a || n = 0x0d || (0x20 ≤ n && n ≤ 0x7e) || n = 0x85 ||
    (0xa0 ≤ n && n ≤ 0xfffd) || 0x10000 ≤ n

/-- The tokens of a YAML text. -/
def tokens? (text : String) : Option (List Token) :=
  if text.toList.all isText then (Scanner.start text.toList).run else none

end Yaml
end JsonTypedef
