import JsonTypedef.Json.Numeral
import JsonTypedef.Text.Quotation
import JsonTypedef.Yaml.Node

/-!
# YAML values

A value is what a node denotes: a plain scalar is null, a boolean or a number
where it is spelled like one, and a string otherwise; other scalars are strings.
Tags of the core schema choose the type of a scalar, and local tags, which start
with an exclamation mark, stay with their value.  The keys of a mapping are
different values.
-/

namespace JsonTypedef
namespace Yaml

/-- A number: an integer of 64 bits, a finite double, an infinity or not a
number. -/
inductive Number where
  | int (n : Int)
  | float (d : Double)
  | infinity (negative : Bool)
  | nan
deriving DecidableEq

/-- A YAML value. -/
inductive Value where
  | null
  | bool (b : Bool)
  | num (n : Number)
  | str (s : String)
  | seq (items : List Value)
  | map (entries : List (Value × Value))
  | tagged (tag : String) (v : Value)
deriving Inhabited

namespace Number

/-- Doubles in YAML text keep a fraction and write exponents without a plus. -/
def layout : Layout :=
  ⟨-5, 15, true, false, true⟩

/-- The text of a number. -/
def text : Number → String
  | .int n => String.ofList (JsonTypedef.Number.intText n)
  | .float d => String.ofList (layout.double d)
  | .infinity negative => if negative then "-.inf" else ".inf"
  | .nan => ".nan"

/-- The numbers are the same: zeros of both signs are. -/
def same : Number → Number → Bool
  | .float a, .float b => a = b || (a.rank = 0 && b.rank = 0)
  | a, b => a = b

end Number

namespace Value

mutual

/-- The values are the same; the order of a mapping's entries does not count. -/
def same : Value → Value → Bool
  | .null, .null => true
  | .bool a, .bool b => a = b
  | .num a, .num b => a.same b
  | .str a, .str b => a = b
  | .seq xs, .seq ys => sameItems xs ys
  | .map xs, .map ys => xs.length = ys.length && sameEntries xs ys
  | .tagged s a, .tagged t b => s = t && same a b
  | _, _ => false

/-- The lists hold the same values in the same order. -/
def sameItems : List Value → List Value → Bool
  | [], [] => true
  | x :: xs, y :: ys => same x y && sameItems xs ys
  | _, _ => false

/-- Every entry of the first list is among the entries of the second. -/
def sameEntries : List (Value × Value) → List (Value × Value) → Bool
  | [], _ => true
  | (k, v) :: xs, ys => (ys.any fun e => same k e.1 && same v e.2) && sameEntries xs ys

end

/-! ## Scalars -/

/-- The digits after an optional sign start with a zero that further digits
follow, so they spell no number. -/
def isZeroPadded (cs : List Char) : Bool :=
  let digits := match cs with
    | '-' :: rest => rest
    | '+' :: rest => rest
    | rest => rest
  match digits with
  | '0' :: d :: rest => (d :: rest).all Numeral.isDigit
  | _ => false

/-- The value of a digit in a base of at most 16. -/
def digitIn? (base : Nat) (c : Char) : Option Nat :=
  (Quoted.hexValue? c).bind fun d => if d < base then some d else none

/-- The natural number that one or more digits of a base spell. -/
def natIn? (base : Nat) : List Char → Option Nat
  | [] => none
  | cs => cs.foldl (fun n c => n.bind fun n => (digitIn? base c).map (n * base + ·)) (some 0)

/-- The base that the two characters in front of the digits announce. -/
def base? (c : Char) : Option Nat :=
  if c = 'x' then some 16 else if c = 'o' then some 8 else if c = 'b' then some 2 else none

/-- The natural number that a text without sign spells in its base. -/
def unsigned? (cs : List Char) : Option Nat :=
  match cs with
  | '0' :: c :: rest =>
    match base? c with
    | some base => natIn? base rest
    | none => natIn? 10 cs
  | _ => natIn? 10 cs

/-- The integer that a plain scalar spells. -/
def int? (cs : List Char) : Option Int :=
  if isZeroPadded cs then none
  else
    match cs with
    | '-' :: rest => (unsigned? rest).map fun n => -(n : Int)
    | '+' :: rest => (unsigned? rest).map Int.ofNat
    | _ => (unsigned? cs).map Int.ofNat

/-- The exponent of a decimal, if the text is one, as far as it counts: beyond a
million every double is zero or infinite. -/
def decimalExponent? : List Char → Option Int
  | [] => some 0
  | c :: rest =>
    if c = 'e' ∨ c = 'E' then
      let (negative, digits) : Bool × List Char := match rest with
        | '-' :: ds => (true, ds)
        | '+' :: ds => (false, ds)
        | ds => (false, ds)
      if digits.isEmpty || !digits.all Numeral.isDigit then none
      else
        let n : Int := min (Numeral.digitsValue digits) 1000000
        some (if negative then -n else n)
    else none

/-- The finite double that decimal text without a plus sign spells. -/
def decimal? (cs : List Char) : Option Double :=
  let (negative, cs) : Bool × List Char := match cs with
    | '-' :: rest => (true, rest)
    | rest => (false, rest)
  let (whole, behind) := Numeral.spanDigits cs
  let (fraction, behind) := match behind with
    | '.' :: rest => Numeral.spanDigits rest
    | rest => ([], rest)
  if whole.isEmpty && fraction.isEmpty then none
  else
    (decimalExponent? behind).bind fun e =>
      Double.ofDecimal? negative (Numeral.digitsValue (whole ++ fraction))
        (e - (fraction.length : Int))

/-- The floating-point number that a plain scalar spells. -/
def float? (s : String) : Option Number :=
  if s ∈ [".inf", ".Inf", ".INF", "+.inf", "+.Inf", "+.INF"] then some (.infinity false)
  else if s ∈ ["-.inf", "-.Inf", "-.INF"] then some (.infinity true)
  else if s ∈ [".nan", ".NaN", ".NAN"] then some .nan
  else
    (match s.toList with
      | '+' :: '-' :: _ => none
      | '+' :: rest => decimal? rest
      | cs => decimal? cs).map .float

/-- The text spells null. -/
def isNull (s : String) : Bool :=
  s ∈ ["null", "Null", "NULL", "~"]

/-- The boolean that a text spells. -/
def bool? (s : String) : Option Bool :=
  if s ∈ ["true", "True", "TRUE"] then some true
  else if s ∈ ["false", "False", "FALSE"] then some false
  else none

/-- An integer that a plain scalar spells as a value.  Beyond 64 bits there is
none; beyond 128 bits the text is taken for a decimal. -/
inductive Spelled where
  | int (n : Int)
  | tooLarge
  | none

/-- The integer that a text spells, by size. -/
def spelledInt (s : String) : Spelled :=
  match int? s.toList with
  | some n =>
    if JsonTypedef.Number.fits n then .int n
    else if -0x80000000000000000000000000000000 ≤ n ∧ n ≤ 0xffffffffffffffffffffffffffffffff then
      .tooLarge
    else .none
  | none => .none

/-- The value of a plain scalar. -/
def ofPlain (s : String) : Option Value :=
  if s = "" || isNull s then some .null
  else
    match bool? s with
    | some b => some (.bool b)
    | none =>
      match spelledInt s with
      | .int n => some (.num (.int n))
      | .tooLarge => none
      | .none =>
        if isZeroPadded s.toList then some (.str s)
        else some ((float? s).elim (.str s) .num)

/-- The tags of the core schema that choose the type of a scalar. -/
def coreTag (name : String) : Tag :=
  Tag.ofText ("tag:yaml.org,2002:" ++ name)

/-- The value of a scalar without a tag. -/
def ofUntagged (isPlain : Bool) (s : String) : Option Value :=
  if isPlain then ofPlain s else some (.str s)

/-- The value of a scalar whose tag names nothing local. -/
def ofTagged (tag : Tag) (isPlain : Bool) (s : String) : Option Value :=
  if tag = coreTag "bool" then (bool? s).map .bool
  else if tag = coreTag "int" then
    match spelledInt s with
    | .int n => some (.num (.int n))
    | _ => none
  else if tag = coreTag "float" then (float? s).map .num
  else if tag = coreTag "null" then if isNull s then some .null else none
  else if tag.head? = some Tag.bang then ofUntagged isPlain s
  else some (.str s)

/-- A tag without an exclamation mark in front; the mark alone stays. -/
def withoutBang (tag : Tag) : Tag :=
  match tag with
  | b :: c :: rest => if b = Tag.bang then c :: rest else b :: c :: rest
  | tag => tag

/-- The name of a local tag, which starts with an exclamation mark: what stands
behind the mark, or behind two of them, if it is text. -/
def localTag? (tag : Option Tag) : Option String :=
  tag.bind fun tag =>
    if tag.head? = some Tag.bang then
      String.fromUTF8? ⟨(withoutBang (withoutBang tag)).toArray⟩
    else none

/-- Put a local tag on a value. -/
def withTag (tag : Option Tag) (v : Value) : Value :=
  match localTag? tag with
  | some name => .tagged name v
  | none => v

/-! ## Nodes -/

/-- The keys of a mapping's entries are different values. -/
def hasDistinctKeys : List (Value × Value) → Bool
  | [] => true
  | (k, _) :: rest => !(rest.any fun e => same k e.1) && hasDistinctKeys rest

mutual

/-- The nodes with an anchor, in the order in which they start. -/
def anchored : Node → List (Nat × Node)
  | .alias _ => []
  | .scalar anchor tag isPlain text =>
    anchor.toList.map fun n => (n, .scalar anchor tag isPlain text)
  | .sequence anchor tag items =>
    (anchor.toList.map fun n => (n, .sequence anchor tag items)) ++ anchoredItems items
  | .mapping anchor tag entries =>
    (anchor.toList.map fun n => (n, .mapping anchor tag entries)) ++ anchoredEntries entries

/-- The nodes with an anchor below a list of nodes. -/
def anchoredItems : List Node → List (Nat × Node)
  | [] => []
  | n :: rest => anchored n ++ anchoredItems rest

/-- The nodes with an anchor below a list of entries. -/
def anchoredEntries : List (Node × Node) → List (Nat × Node)
  | [] => []
  | (k, v) :: rest => anchored k ++ anchored v ++ anchoredEntries rest

end

mutual

/-- The number of events that a node makes up: two for a collection, one for
another node, and those of the nodes inside. -/
def eventCount : Node → Nat
  | .alias _ => 1
  | .scalar _ _ _ _ => 1
  | .sequence _ _ items => eventCountItems items + 2
  | .mapping _ _ entries => eventCountEntries entries + 2

/-- The number of events that a list of nodes makes up. -/
def eventCountItems : List Node → Nat
  | [] => 0
  | n :: rest => eventCount n + eventCountItems rest

/-- The number of events that a list of entries makes up. -/
def eventCountEntries : List (Node × Node) → Nat
  | [] => 0
  | (k, v) :: rest => eventCount k + eventCount v + eventCountEntries rest

end

/-- A computation that may follow so many aliases still. -/
abbrev Following :=
  StateT Nat Option

/-- The node that an alias stands for, or the node itself.  Following an alias
uses up one of those that may be followed; the last node with an alias's anchor
counts. -/
def follow (anchors : List (Nat × Node)) (n : Node) : Following Node := fun left =>
  match n, left with
  | .alias _, 0 => none
  | .alias a, left + 1 => (List.lookup a anchors.reverse).map (·, left)
  | n, left => some (n, left)

/-- The value of a node that is no alias, collections being filled by `inner`. -/
def ofContent (inner : Option (Node → Following Value)) (n : Node) : Following Value :=
  match n, inner with
  | .scalar _ tag isPlain text, _ =>
    StateT.lift (match localTag? tag, tag with
      | some name, _ => (ofUntagged isPlain text).map (.tagged name)
      | none, some tag => ofTagged tag isPlain text
      | none, none => ofUntagged isPlain text)
  | .sequence _ tag items, some value => do
    let vs ← items.mapM value
    pure (withTag tag (.seq vs))
  | .mapping _ tag entries, some value => do
    let es ← entries.mapM fun e => do
      let k ← value e.1
      let v ← value e.2
      pure (k, v)
    if hasDistinctKeys es then pure (withTag tag (.map es)) else StateT.lift none
  | _, _ => StateT.lift none

/-- The value of a node whose collections nest at most `levels` deep, with the
nodes that aliases stand for in their places. -/
def ofNode (anchors : List (Nat × Node)) : Nat → Node → Following Value
  | 0, n => do
    let n ← follow anchors n
    ofContent none n
  | levels + 1, n => do
    let n ← follow anchors n
    ofContent (some (ofNode anchors levels)) n

/-- The number of aliases that may be followed for every event of a document. -/
def followLimit : Nat :=
  100

/-- Read a text that is one document. -/
def ofText? (text : String) : Option Value := do
  let ts ← tokens? text
  let node ← document? ts
  let (v, _) ← (ofNode (anchored node) nestingLimit node).run (eventCount node * followLimit)
  some v

end Value

/-! ## Text for messages -/

namespace Value

mutual

/-- A value as messages show it. -/
def shown : Value → String
  | .null => "Null"
  | .bool b => "Bool(" ++ toString b ++ ")"
  | .num n => "Number(" ++ n.text ++ ")"
  | .str s => "String(" ++ Text.quoted s ++ ")"
  | .seq items => "Sequence [" ++ ", ".intercalate (shownItems items) ++ "]"
  | .map entries => "Mapping \x7b" ++ ", ".intercalate (shownEntries entries) ++ "\x7d"
  | .tagged tag v => "TaggedValue \x7b tag: !" ++ tag ++ ", value: " ++ shown v ++ " \x7d"

/-- The values of a list as messages show them. -/
def shownItems : List Value → List String
  | [] => []
  | v :: vs => shown v :: shownItems vs

/-- The entries of a mapping as messages show them, plain scalars among the keys
by their text alone. -/
def shownEntries : List (Value × Value) → List String
  | [] => []
  | (k, v) :: rest =>
    ((match k with
      | .bool b => toString b
      | .num n => n.text
      | .str s => Text.quoted s
      | k => shown k) ++ ": " ++ shown v) :: shownEntries rest

end

end Value
end Yaml
end JsonTypedef
