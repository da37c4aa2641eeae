import JsonTypedef.Json.Number

/-!
# JSON values

Objects keep their members in order of appearance.  A member list may name a
key more than once, as JSON text may; `Value.distinct` resolves repetitions, the
first place and the last value winning.
-/

namespace JsonTypedef

/-- A JSON value. -/
inductive Value where
  | null
  | bool (b : Bool)
  | num (n : Number)
  | str (s : String)
  | arr (items : List Value)
  | obj (members : List (String × Value))
deriving Inhabited

/-- The members of an object in order. -/
abbrev Members :=
  List (String × Value)

namespace Members

/-- The value of the member named `key`. -/
def get? (ms : Members) (key : String) : Option Value :=
  List.lookup key ms

/-- The names in order. -/
def keys (ms : Members) : List String :=
  ms.map Prod.fst

/-- Some member is named `key`. -/
def has (ms : Members) (key : String) : Bool :=
  ms.any fun m => m.1 = key

/-- Replace the value of the member named `key` in its place, or append the
member. -/
def put (key : String) (v : Value) : Members → Members
  | [] => [(key, v)]
  | m :: ms => if m.1 = key then (key, v) :: ms else m :: put key v ms

/-- Resolve repeated names: a name keeps its first place and its last value. -/
def distinct (ms : Members) : Members :=
  ms.foldl (fun out m => put m.1 m.2 out) []

end Members

namespace Value

mutual

/-- Resolve repeated names in every object of a value. -/
def distinct : Value → Value
  | .arr items => .arr (distinctItems items)
  | .obj ms => .obj (Members.distinct (distinctMembers ms))
  | v => v

/-- Resolve repeated names in every value of a list. -/
def distinctItems : List Value → List Value
  | [] => []
  | v :: vs => distinct v :: distinctItems vs

/-- Resolve repeated names below every member of a list. -/
def distinctMembers : List (String × Value) → List (String × Value)
  | [] => []
  | (key, v) :: ms => (key, distinct v) :: distinctMembers ms

end

end Value

end JsonTypedef
