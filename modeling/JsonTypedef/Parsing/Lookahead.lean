import JsonTypedef.Parsing.Failure

/-!
# Looking ahead for a tag

The branch for an object is chosen by its tag member, which may stand behind
other members.  The look-ahead skips those: it checks every token but only
balances brackets, and leaves the structure to the strict reading that follows.
-/

namespace JsonTypedef
namespace Parsing

/-- The number of open brackets behind a token, if a skipped value can go on
with it. -/
def openAfter (opened : Nat) : Token → Option Nat
  | .openBrace | .openBracket => some (opened + 1)
  | .closeBrace | .closeBracket => if opened = 0 then none else some (opened - 1)
  | .comma | .colon => if opened = 0 then none else some opened
  | _ => some opened

/-- Skip a value inside the given number of open brackets. -/
def skipValue (opened : Nat) (c : Cursor) : Except Failure (Taken Unit c) :=
  match c.take? with
  | none => .error (.stuck opensValue .value c)
  | some ⟨t, rest, h⟩ =>
    match openAfter opened t with
    | none => .error (.unexpected .value c)
    | some 0 => .ok ⟨(), rest, h⟩
    | some (opened + 1) =>
      (skipValue (opened + 1) rest).map fun skipped => skipped.after h
termination_by c.size

/-- The value of a tag member, and the offset where it stands. -/
def tagValue (c : Cursor) : Except Failure (String × Nat) :=
  match c.take? with
  | some ⟨.str value, _, _⟩ => .ok (value, c.stream.start)
  | _ =>
    match c.stream with
    | .stuck _ '"' (some (fault, pos)) => .error ⟨.token fault, pos⟩
    | _ => .error ⟨.tagNotString, c.stream.start⟩

/-- Look for the tag member among the members from a cursor on. -/
def findTag (tag : String) (c : Cursor) : Except Failure (String × Nat) :=
  match c.take? with
  | some ⟨.str key, afterKey, hkey⟩ =>
    match afterKey.accept? .colon with
    | none => .error (.unexpected .colon afterKey)
    | some colon =>
      if key = tag then tagValue colon.rest
      else
        match skipValue 0 colon.rest with
        | .error e => .error e
        | .ok skipped =>
          match skipped.rest.take? with
          | some ⟨.comma, next, hnext⟩ =>
            have : next.size < c.size :=
              Nat.lt_trans hnext (Nat.lt_trans skipped.shorter (Nat.lt_trans colon.shorter hkey))
            findTag tag next
          | some ⟨.closeBrace, _, _⟩ => .error ⟨.missingTag tag, skipped.rest.stream.start⟩
          | _ => .error (.unexpected .commaOrBrace skipped.rest)
  | _ => .error (.stuck isQuote .key c)
termination_by c.size

/-- Look for the tag of an object from behind its opening brace. -/
def lookAhead (tag : String) (c : Cursor) : Except Failure (String × Nat) :=
  match c.take? with
  | some ⟨.closeBrace, _, _⟩ => .error ⟨.missingTag tag, c.stream.start⟩
  | _ => findTag tag c

end Parsing
end JsonTypedef
