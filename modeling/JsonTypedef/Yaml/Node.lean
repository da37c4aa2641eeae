import JsonTypedef.Yaml.Token

/-!
# YAML nodes

The tokens of a text make up at most one document, and a document is a tree of
nodes.  A node may carry a tag and an anchor; an alias stands for the node with
its anchor.  Reading takes the number of levels that collections may still nest.
-/

namespace JsonTypedef
namespace Yaml

/-- A node of a document.  Anchors are told apart by number. -/
inductive Node where
  | alias (anchor : Nat)
  | scalar (anchor : Option Nat) (tag : Option Tag) (isPlain : Bool) (text : String)
  | sequence (anchor : Option Nat) (tag : Option Tag) (items : List Node)
  | mapping (anchor : Option Nat) (tag : Option Tag) (entries : List (Node × Node))
deriving Inhabited

namespace Node

/-- The scalar of no character that stands where a node is left out. -/
def absent : Node :=
  .scalar none none true ""

/-- The number that each anchor's name has at a place in the document. -/
abbrev Anchors :=
  List (String × Nat)

/-- The number for a further anchor: how many names there are.  A name that is
used again takes its new number from there on. -/
def Anchors.add (anchors : Anchors) (name : String) : Nat × Anchors :=
  (anchors.length, (name, anchors.length) :: anchors.filter fun a => a.1 ≠ name)

/-- A value read from tokens with the anchors known behind it.  A node takes up
some of the tokens, `Read` says so. -/
structure Read (α : Type) (ts : List Token) where
  value : α
  anchors : Anchors
  rest : List Token
  shorter : rest.length < ts.length

namespace Read

/-- Change the value that was read. -/
def map {α β : Type} {ts : List Token} (f : α → β) (r : Read α ts) : Read β ts :=
  ⟨f r.value, r.anchors, r.rest, r.shorter⟩

/-- What is read behind later tokens is read behind earlier ones. -/
def widen {α : Type} {ts us : List Token} (h : us.length ≤ ts.length) (r : Read α us) :
    Read α ts :=
  ⟨r.value, r.anchors, r.rest, Nat.lt_of_lt_of_le r.shorter h⟩

end Read

/-- A function that reads a value from tokens. -/
abbrev Reader (α : Type) :=
  Anchors → (ts : List Token) → Option (Read α ts)

/-- A value that may be left out. -/
structure Possible (ts : List Token) where
  node : Node
  anchors : Anchors
  rest : List Token
  notLonger : rest.length ≤ ts.length

/-- Read a node unless the next token is one of those that end its place. -/
def possible (node : Reader Node) (ends : Token → Bool) (anchors : Anchors) (ts : List Token) :
    Option (Possible ts) :=
  match ts with
  | [] => some ⟨absent, anchors, [], Nat.le_refl _⟩
  | t :: rest =>
    if ends t then some ⟨absent, anchors, t :: rest, Nat.le_refl _⟩
    else
      (node anchors (t :: rest)).map fun r => ⟨r.value, r.anchors, r.rest, Nat.le_of_lt r.shorter⟩

/-- Read the value of a key if the next token announces one. -/
def valueAfter (node : Reader Node) (ends : Token → Bool) (anchors : Anchors) (ts : List Token) :
    Option (Possible ts) :=
  match ts with
  | .value :: rest =>
    (possible node ends anchors rest).map fun p =>
      ⟨p.node, p.anchors, p.rest, Nat.le_succ_of_le p.notLonger⟩
  | ts => some ⟨absent, anchors, ts, Nat.le_refl _⟩

/-! ## Collections -/

/-- The token ends an item of a block sequence. -/
def endsBlockItem : Token → Bool
  | .blockEntry | .blockEnd => true
  | _ => false

/-- The token ends an item of a sequence that is not indented. -/
def endsLooseItem : Token → Bool
  | .blockEntry | .key | .value | .blockEnd => true
  | _ => false

/-- The token ends a key or a value of a block mapping. -/
def endsBlockPart : Token → Bool
  | .key | .value | .blockEnd => true
  | _ => false

/-- The token ends a key inside braces. -/
def endsFlowKey : Token → Bool
  | .value | .flowEntry | .flowMappingEnd => true
  | _ => false

/-- The token ends a value inside braces. -/
def endsFlowValue : Token → Bool
  | .flowEntry | .flowMappingEnd => true
  | _ => false

/-- The token ends the key of a pair inside brackets. -/
def endsPairKey : Token → Bool
  | .value | .flowEntry | .flowSequenceEnd => true
  | _ => false

/-- The token ends the value of a pair inside brackets. -/
def endsPairValue : Token → Bool
  | .flowEntry | .flowSequenceEnd => true
  | _ => false

/-- The items of an indented block sequence, with its end. -/
def blockItems (node : Reader Node) (anchors : Anchors) (ts : List Token) :
    Option (Read (List Node) ts) :=
  match ts with
  | .blockEntry :: rest =>
    match possible node endsBlockItem anchors rest with
    | none => none
    | some p =>
      have : p.rest.length < rest.length + 1 := Nat.lt_succ_of_le p.notLonger
      (blockItems node p.anchors p.rest).map fun r =>
        (r.map (p.node :: ·)).widen (Nat.le_of_lt this)
  | .blockEnd :: rest => some ⟨[], anchors, rest, Nat.lt_succ_self _⟩
  | _ => none
termination_by ts.length

/-- The items of a block sequence that is not indented and so has no end of its
own; there is at least one. -/
def looseItems (node : Reader Node) (anchors : Anchors) (ts : List Token) :
    Option (Read (List Node) ts) :=
  match ts with
  | .blockEntry :: rest =>
    match possible node endsLooseItem anchors rest with
    | none => none
    | some p =>
      have hshorter : p.rest.length < rest.length + 1 := Nat.lt_succ_of_le p.notLonger
      match _h : p.rest with
      | .blockEntry :: _ =>
        (looseItems node p.anchors p.rest).map fun r =>
          (r.map (p.node :: ·)).widen (Nat.le_of_lt hshorter)
      | _ => some ⟨[p.node], p.anchors, p.rest, hshorter⟩
  | _ => none
termination_by ts.length

/-- The entries of a block mapping, with its end. -/
def blockEntries (node : Reader Node) (anchors : Anchors) (ts : List Token) :
    Option (Read (List (Node × Node)) ts) :=
  match ts with
  | .key :: rest =>
    match possible node endsBlockPart anchors rest with
    | none => none
    | some key =>
      match valueAfter node endsBlockPart key.anchors key.rest with
      | none => none
      | some value =>
        have : value.rest.length < rest.length + 1 :=
          Nat.lt_succ_of_le (Nat.le_trans value.notLonger key.notLonger)
        (blockEntries node value.anchors value.rest).map fun r =>
          (r.map ((key.node, value.node) :: ·)).widen (Nat.le_of_lt this)
  | .blockEnd :: rest => some ⟨[], anchors, rest, Nat.lt_succ_self _⟩
  | _ => none
termination_by ts.length

/-- Read the key of a pair inside brackets.  A mark that no key follows takes up
the token behind it. -/
def pairKey (node : Reader Node) (anchors : Anchors) (ts : List Token) : Option (Possible ts) :=
  match ts with
  | [] => none
  | t :: rest =>
    if endsPairKey t then some ⟨absent, anchors, rest, Nat.le_succ _⟩
    else
      (node anchors (t :: rest)).map fun r => ⟨r.value, r.anchors, r.rest, Nat.le_of_lt r.shorter⟩

/-- An item between brackets: a node, or a pair that makes up a mapping of its
own. -/
def flowItem (node : Reader Node) : Reader Node := fun anchors ts =>
  match ts with
  | .key :: rest =>
    match pairKey node anchors rest with
    | none => none
    | some key =>
      (valueAfter node endsPairValue key.anchors key.rest).map fun value =>
        ⟨.mapping none none [(key.node, value.node)], value.anchors, value.rest,
          Nat.lt_succ_of_le (Nat.le_trans value.notLonger key.notLonger)⟩
  | ts => node anchors ts

/-- An entry between braces: a key with its value, or a key alone. -/
def flowEntry (node : Reader Node) : Reader (Node × Node) := fun anchors ts =>
  match ts with
  | .key :: rest =>
    match possible node endsFlowKey anchors rest with
    | none => none
    | some key =>
      (valueAfter node endsFlowValue key.anchors key.rest).map fun value =>
        ⟨(key.node, value.node), value.anchors, value.rest,
          Nat.lt_succ_of_le (Nat.le_trans value.notLonger key.notLonger)⟩
  | ts => (node anchors ts).map fun r => r.map (·, absent)

/-- Items with commas between them up to a closing token, which a comma may
stand in front of. -/
def flowItems {α : Type} (item : Reader α) (close : Token) (anchors : Anchors)
    (ts : List Token) : Option (Read (List α) ts) :=
  match ts with
  | [] => none
  | t :: rest =>
    if t = close then some ⟨[], anchors, rest, Nat.lt_succ_self _⟩
    else
      match item anchors (t :: rest) with
      | none => none
      | some first =>
        match _h : first.rest with
        | [] => none
        | u :: behind =>
          have hbehind : behind.length < (t :: rest).length :=
            Nat.lt_trans (_h ▸ Nat.lt_succ_self behind.length) first.shorter
          if u = close then some ⟨[first.value], first.anchors, behind, hbehind⟩
          else if u = .flowEntry then
            (flowItems item close first.anchors behind).map fun r =>
              (r.map (first.value :: ·)).widen (Nat.le_of_lt hbehind)
          else none
termination_by ts.length
decreasing_by exact hbehind

/-! ## Nodes -/

/-- The texts that tag handles stand for. -/
abbrev Handles :=
  List (String × Tag)

/-- The handles that need no directive. -/
def defaultHandles : Handles :=
  [("!", [Tag.bang]), ("!!", Tag.ofText "tag:yaml.org,2002:")]

/-- The full text of a tag; a tag without a handle stands for itself. -/
def resolveTag (handles : Handles) (handle : String) (suffix : Tag) : Option Tag :=
  if handle = "" then some suffix
  else (List.lookup handle handles).map (· ++ suffix)

/-- What stands in front of a node's content. -/
structure Properties (ts : List Token) where
  anchor : Option Nat
  tag : Option Tag
  anchors : Anchors
  rest : List Token
  notLonger : rest.length ≤ ts.length

/-- Read a node's anchor and tag, in either order, each at most once. -/
def properties (handles : Handles) (anchors : Anchors) (ts : List Token) :
    Option (Properties ts) :=
  match ts with
  | .anchor name :: .tag handle suffix :: rest =>
    (resolveTag handles handle suffix).map fun tag =>
      let (n, anchors) := anchors.add name
      ⟨some n, some tag, anchors, rest, by simp only [List.length_cons]; omega⟩
  | .tag handle suffix :: .anchor name :: rest =>
    (resolveTag handles handle suffix).map fun tag =>
      let (n, anchors) := anchors.add name
      ⟨some n, some tag, anchors, rest, by simp only [List.length_cons]; omega⟩
  | .anchor name :: rest =>
    let (n, anchors) := anchors.add name
    some ⟨some n, none, anchors, rest, Nat.le_succ _⟩
  | .tag handle suffix :: rest =>
    (resolveTag handles handle suffix).map fun tag =>
      ⟨none, some tag, anchors, rest, Nat.le_succ _⟩
  | ts => some ⟨none, none, anchors, ts, Nat.le_refl _⟩

/-- Read the content of a node with the given anchor and tag.  Block collections
stand only in block context, sequences that are not indented only where a
mapping's part is read.  Collections are filled by `inner`; without it they nest
too deep. -/
def content (inner : Option (Bool → Bool → Reader Node)) (isBlock loose : Bool)
    (anchor : Option Nat) (tag : Option Tag) : Reader Node := fun anchors ts =>
  match ts, inner with
  | .scalar isPlain text :: rest, _ =>
    some ⟨.scalar anchor tag isPlain text, anchors, rest, Nat.lt_succ_self _⟩
  | .flowSequenceStart :: rest, some node =>
    (flowItems (flowItem (node false false)) .flowSequenceEnd anchors rest).map fun r =>
      (r.map (.sequence anchor tag)).widen (Nat.le_succ _)
  | .flowMappingStart :: rest, some node =>
    (flowItems (flowEntry (node false false)) .flowMappingEnd anchors rest).map fun r =>
      (r.map (.mapping anchor tag)).widen (Nat.le_succ _)
  | .blockSequenceStart :: rest, some node =>
    if isBlock then
      (blockItems (node true false) anchors rest).map fun r =>
        (r.map (.sequence anchor tag)).widen (Nat.le_succ _)
    else none
  | .blockMappingStart :: rest, some node =>
    if isBlock then
      (blockEntries (node true true) anchors rest).map fun r =>
        (r.map (.mapping anchor tag)).widen (Nat.le_succ _)
    else none
  | .blockEntry :: rest, some node =>
    if loose then
      (looseItems (node true false) anchors (.blockEntry :: rest)).map fun r =>
        r.map (.sequence anchor tag)
    else none
  | _, _ => none

/-- Read a node: an alias, or content behind anchor and tag, which may also
stand alone. -/
def nodeWith (handles : Handles) (inner : Option (Bool → Bool → Reader Node))
    (isBlock loose : Bool) : Reader Node := fun anchors ts =>
  match ts with
  | .alias name :: rest =>
    (List.lookup name anchors).map fun n => ⟨.alias n, anchors, rest, Nat.lt_succ_self _⟩
  | ts =>
    match properties handles anchors ts with
    | none => none
    | some p =>
      match content inner isBlock loose p.anchor p.tag p.anchors p.rest with
      | some r => some (r.widen p.notLonger)
      | none =>
        if h : p.rest.length < ts.length then
          if canStartContent isBlock loose p.rest then none
          else some ⟨.scalar p.anchor p.tag true "", p.anchors, p.rest, h⟩
        else none
where
  /-- The next token starts the content of a node, so that its failure counts. -/
  canStartContent (isBlock loose : Bool) : List Token → Bool
    | .scalar _ _ :: _ | .flowSequenceStart :: _ | .flowMappingStart :: _ => true
    | .blockSequenceStart :: _ | .blockMappingStart :: _ => isBlock
    | .blockEntry :: _ => loose
    | _ => false

/-- Read a node whose collections nest at most `levels` deep. -/
def read (handles : Handles) : Nat → Bool → Bool → Reader Node
  | 0 => nodeWith handles none
  | levels + 1 => nodeWith handles (some (read handles levels))

end Node

/-! ## Documents -/

/-- The greatest nesting of collections in a document. -/
def nestingLimit : Nat :=
  128

/-- Read the directives in front of a document: the handles they define, and
whether there is a directive.  A version may be named once and must be 1.1 or
1.2; a handle may be defined once. -/
def directives (versioned : Bool) (handles : Node.Handles) :
    List Token → Option (Node.Handles × List Token)
  | .version major minor :: rest =>
    if versioned || major ≠ 1 || (minor ≠ 1 && minor ≠ 2) then none
    else directives true handles rest
  | .tagDirective handle lead :: rest =>
    if handles.any fun h => h.1 = handle then none
    else directives versioned ((handle, lead) :: handles) rest
  | rest => some (handles, rest)

/-- The next token stands between documents. -/
def atDocumentEnd : List Token → Bool
  | [] => true
  | .documentStart :: _ | .documentEnd :: _ | .version _ _ :: _ | .tagDirective _ _ :: _ => true
  | _ => false

/-- Skip the marks that end a document. -/
def skipDocumentEnds : List Token → List Token
  | .documentEnd :: rest => skipDocumentEnds rest
  | ts => ts

/-- Read a document whose start is marked, from behind its mark. -/
def markedDocument (handles : Node.Handles) (ts : List Token) : Option (Node × List Token) :=
  if atDocumentEnd ts then some (.absent, ts)
  else
    (Node.read (handles ++ Node.defaultHandles) nestingLimit true false [] ts).map fun r =>
      (r.value, r.rest)

/-- Read the first document of a text; where there is no token at all, it is
left out. -/
def firstDocument : List Token → Option (Node × List Token)
  | [] => some (.absent, [])
  | .documentStart :: rest => markedDocument [] rest
  | .version major minor :: rest => directed (.version major minor :: rest)
  | .tagDirective handle lead :: rest => directed (.tagDirective handle lead :: rest)
  | ts =>
    (Node.read Node.defaultHandles nestingLimit true false [] ts).map fun r => (r.value, r.rest)
where
  /-- Read a document behind its directives. -/
  directed (ts : List Token) : Option (Node × List Token) :=
    match directives false [] ts with
    | some (handles, .documentStart :: rest) => markedDocument handles rest
    | _ => none

/-- The document that makes up a whole text. -/
def document? (ts : List Token) : Option Node :=
  match firstDocument ts with
  | some (node, rest) => if (skipDocumentEnds rest).isEmpty then some node else none
  | none => none

end Yaml
end JsonTypedef
