import JsonTypedef.Proofs.Parsing.Traces

/-!
# Reading along a program

`Parsing.Step` goes from a value to the values inside of it, as they are read
along the nodes of a program, and `Parsing.Halts` says why reading a value may
stop before it goes on to another one.  A parse that fails has gone down the
text in such steps to a value at which it halts.
-/

namespace JsonTypedef
namespace Parsing

open Grammar Scanner Program
open Relation (ReflTransGen)

/-! ## What stands at a place -/

/-- The tokens that may stand where something is expected. -/
def Expected.Admits : Expected → Token → Prop
  | .value, t => Grammar.opensValue t
  | .primitive _, t =>
    (∃ b, t = .bool b) ∨ (∃ x, t = .str x) ∨ ∃ lead n, t = .num lead n
  | .enumString, t => ∃ x, t = .str x
  | .key, t => ∃ x, t = .str x
  | .string, t => ∃ x, t = .str x
  | .array, t => t = .openBracket
  | .object, t => t = .openBrace
  | .colon, t => t = .colon
  | .commaOrBracket, t => t = .comma ∨ t = .closeBracket
  | .commaOrBrace, t => t = .comma ∨ t = .closeBrace

/-- The characters with which a faulty token is reported as such where something
is expected. -/
def Expected.opensWith : Expected → Char → Bool
  | .value => Parsing.opensValue
  | .primitive _ => opensPrimitive
  | .enumString => isQuote
  | .key => isQuote
  | .string => isQuote
  | _ => fun _ => false

/-- Nothing that is expected stands at a place, nor a faulty token that might
have been it. -/
structure Missing (what : Expected) (s : Source) : Prop where
  absent : ∀ t s', placeFront t s s' → ¬ what.Admits t
  faultless : ∀ first fault,
    Lexeme.read s.front = .stuck first (some fault) →
      what.opensWith first = false

/-- The failure that something is missing at a place. -/
def Failure.missing (what : Expected) (s : Source) : Failure :=
  ⟨.unexpected what s.front.chars.head?, s.front.pos⟩

/-- The failure that a token cannot be read. -/
def Failure.ofFault (fault : Token.Located) : Failure :=
  ⟨.token fault.1, fault.2⟩

/-- A faulty token stands at a place, which might have been what is expected. -/
def Faulty (what : Expected) (s : Source) (fault : Token.Located) : Prop :=
  ∃ first, Lexeme.read s.front = .stuck first (some fault) ∧
    what.opensWith first = true

section

variable {c : Cursor} {s : Source} {what : Expected}

theorem Missing.of_front {t : Token} {s' : Source} (hfront : placeFront t s s')
    (ht : ¬ what.Admits t) : Missing what s := by
  constructor
  · intro u u' hfront'
    obtain ⟨rfl, -⟩ := hfront.unique hfront'
    exact ht
  · intro first fault hread
    cases hread.symm.trans hfront

theorem unexpected_at (hc : c.At s) (what : Expected) :
    Failure.unexpected what c = .missing what s := by
  unfold Failure.unexpected Failure.missing
  rw [hc.start, hc.stream, Stream.first?_ofSource]

/-- Where no admitted token is taken, the failure is that of a faulty one, or
something is missing. -/
theorem stuck_at (hc : c.At s)
    (habsent : ∀ t, c.take? = some t → ¬ what.Admits t.value) :
    (∃ fault, Failure.stuck what.opensWith what c = .ofFault fault ∧
        Faulty what s fault) ∨
      (Failure.stuck what.opensWith what c = .missing what s ∧
        Missing what s) := by
  have habsent' : ∀ t s', placeFront t s s' → ¬ what.Admits t := by
    intro t s' hfront
    obtain ⟨_, htake⟩ := hc.give hfront
    exact habsent _ htake
  unfold Failure.stuck
  rw [unexpected_at hc, hc.stream]
  cases hread : Lexeme.read s.front with
  | finish =>
      rw [Stream.ofSource_of_finish hread]
      exact Or.inr ⟨rfl, habsent', by simp [hread]⟩
  | token t s' =>
      rw [Stream.ofSource_of_read hread]
      exact Or.inr ⟨rfl, habsent', by simp [hread]⟩
  | stuck first fault =>
      rw [Stream.ofSource_of_stuck hread]
      cases fault with
      | none => exact Or.inr ⟨rfl, habsent', by simp [hread]⟩
      | some fault =>
          dsimp only
          split
          next hopens => exact Or.inl ⟨fault, rfl, first, hread, hopens⟩
          next hopens =>
            refine Or.inr ⟨rfl, habsent', ?_⟩
            intro first' fault' hread'
            cases hread.symm.trans hread'
            exact Bool.eq_false_iff.mpr hopens

end

/-! ## Going down -/

/-- What a value is read along: a node, or nothing that describes it. -/
abbrev Guide :=
  Option Node

/-- How looking for a tag from behind an opening brace ends. -/
abbrev Search :=
  String → Source → Except Failure (String × Nat) → Prop

/-- The look-ahead of the parser. -/
def searched : Search := fun tag brace r =>
  lookAhead tag (.ofSource brace) = r

/-- From behind an opening brace stand these members, the latest first. -/
abbrev OnwardMembers : Members → Source → Source → Prop :=
  Onward placeFront .closeBrace (Member placeFront (Spells placeFront))

/-- The form of a node is read along at a place: there is no null that the node
accepts itself. -/
def Applies (n : Node) (s : Source) : Prop :=
  n.nullable = true → ∀ s', ¬ placeFront .null s s'

section

variable (search : Search) (config : Config) (target : ℕ → Node)

/-- The declarations that an object is read along, and its tag. -/
inductive Declares : Node → Source → Program.Properties → Option String → Prop
  | properties {n : Node} {p : Program.Properties} {brace : Source} :
      n.form = .properties p → Declares n brace p none
  | branch {n : Node} {tag value : String} {branch : Program.Branch}
      {branches : List (String × Program.Branch)} {brace : Source} {pos : ℕ} :
      n.form = .discriminator tag branches →
        search tag brace (.ok (value, pos)) →
          List.lookup value branches = some branch →
            Declares n brace branch.properties (some tag)

/-- What the items of an array are read along. -/
inductive ItemGuide : Guide → Guide → Prop
  | untyped : ItemGuide none none
  | elements {n item : Node} :
      n.form = .elements item → ItemGuide (some n) (some item)

/-- The members of an object are read from behind its brace. -/
inductive ReadsMembers : Guide → Source → Prop
  | untyped {brace : Source} : ReadsMembers none brace
  | values {n item : Node} {brace : Source} :
      n.form = .values item → ReadsMembers (some n) brace
  | declared {n : Node} {brace : Source} {p : Program.Properties}
      {tag : Option String} :
      Declares search n brace p tag → ReadsMembers (some n) brace

/-- What the value of a member is read along. -/
inductive MemberGuide : Guide → Source → String → Guide → Prop
  | untyped {brace : Source} {key : String} : MemberGuide none brace key none
  | values {n item : Node} {brace : Source} {key : String} :
      n.form = .values item → MemberGuide (some n) brace key (some item)
  | declared {n m : Node} {brace : Source} {p : Program.Properties}
      {tag : Option String} {key : String} :
      Declares search n brace p tag → tag ≠ some key →
        p.member? key = some m → MemberGuide (some n) brace key (some m)
  | additional {n : Node} {brace : Source} {p : Program.Properties}
      {tag : Option String} {key : String} :
      Declares search n brace p tag → tag ≠ some key →
        p.member? key = none → p.additional = true →
          MemberGuide (some n) brace key none

/-- Behind some members of the object at a place stands the name of another
one. -/
structure NameAt (g : Guide) (s : Source) (before : Members) (key : String)
    (brace here behind : Source) : Prop where
  reads : ReadsMembers search g brace
  opened : placeFront .openBrace s brace
  members : OnwardMembers before brace here
  name : placeFront (.str key) here behind

/-- Reading a value goes on to a value inside of it, or along another node. -/
inductive Step : Guide × Source → Guide × Source → Prop
  | empty {n : Node} {s : Source} :
      n.form = .empty → Applies n s → Step (some n, s) (none, s)
  | ref {n : Node} {i : ℕ} {s : Source} :
      n.form = .ref i → Applies n s → Step (some n, s) (some (target i), s)
  | item {g g' : Guide} {s bracket here : Source} {before : List Value} :
      ItemGuide g g' → placeFront .openBracket s bracket →
        Onward placeFront .closeBracket (Spells placeFront) before bracket
          here →
          Step (g, s) (g', here)
  | member {g g' : Guide} {s brace here behind value : Source}
      {before : Members} {key : String} :
      NameAt search g s before key brace here behind → key ∉ before.keys →
        placeFront .colon behind value → MemberGuide search g brace key g' →
          Step (g, s) (g', value)

/-- Going down leads from one value to another. -/
abbrev Leads : Guide × Source → Guide × Source → Prop :=
  ReflTransGen (Step search target)

/-! ## Halting -/

/-- While a value is read, something is expected at a place. -/
inductive Awaits : Guide → Source → Expected → Source → Prop
  | value {s : Source} : Awaits none s .value s
  | primitive {n : Node} {kind : TypeKind} {s : Source} :
      n.form = .type kind → Applies n s →
        Awaits (some n) s (.primitive kind) s
  | enumString {n : Node} {values : List String} {s : Source} :
      n.form = .enum values → Applies n s → Awaits (some n) s .enumString s
  | array {n item : Node} {s : Source} :
      n.form = .elements item → Applies n s → Awaits (some n) s .array s
  | values {n item : Node} {s : Source} :
      n.form = .values item → Applies n s → Awaits (some n) s .object s
  | properties {n : Node} {p : Program.Properties} {s : Source} :
      n.form = .properties p → Applies n s → Awaits (some n) s .object s
  | discriminator {n : Node} {tag : String}
      {branches : List (String × Program.Branch)} {s : Source} :
      n.form = .discriminator tag branches → Applies n s →
        Awaits (some n) s .object s
  | key {g : Guide} {s brace here : Source} {before : Members} :
      ReadsMembers search g brace → placeFront .openBrace s brace →
        OnwardMembers before brace here → Awaits g s .key here
  | colon {g : Guide} {s brace here behind : Source} {before : Members}
      {key : String} :
      NameAt search g s before key brace here behind →
        Awaits g s .colon behind
  | tag {n : Node} {s brace here behind value : Source} {before : Members}
      {key : String} {p : Program.Properties} :
      NameAt search (some n) s before key brace here behind →
        Declares search n brace p (some key) → key ∉ before.keys →
          placeFront .colon behind value → Awaits (some n) s .string value
  | commaOrBracket {g g' : Guide} {s bracket here behind : Source}
      {before : List Value} {v : Value} :
      ItemGuide g g' → placeFront .openBracket s bracket →
        Onward placeFront .closeBracket (Spells placeFront) before bracket
          here → Spells placeFront v here behind →
            Awaits g s .commaOrBracket behind
  | commaOrBrace {g : Guide} {s brace here behind : Source}
      {before : Members} {m : String × Value} :
      ReadsMembers search g brace → placeFront .openBrace s brace →
        OnwardMembers before brace here →
          Member placeFront (Spells placeFront) m here behind →
            Awaits g s .commaOrBrace behind

/-- The name of a member is refused: it is used already, or neither declared nor
accepted without a declaration.  The latter is reported at the cursor in front
of the member, which stands at the name itself for the first member only. -/
inductive KeyFault : Guide → Source → Failure → Prop
  | duplicate {g : Guide} {s brace here behind : Source} {before : Members}
      {key : String} :
      NameAt search g s before key brace here behind → key ∈ before.keys →
        KeyFault g s ⟨.duplicateKey key, here.front.pos⟩
  | undeclared {n : Node} {s brace here behind value : Source}
      {before : Members} {key : String} {p : Program.Properties}
      {tag : Option String} :
      NameAt search (some n) s before key brace here behind →
        key ∉ before.keys → placeFront .colon behind value →
          Declares search n brace p tag → tag ≠ some key →
            p.member? key = none → p.additional = false →
              KeyFault (some n) s
                ⟨.unexpectedProperty key, (Cursor.awaiting before here).pos⟩

/-- The value at a place does not fit its node. -/
inductive Misfit : Node → Source → Failure → Prop
  | type {n : Node} {kind : TypeKind} {v : Value} {s s' : Source} :
      n.form = .type kind → Applies n s → Spells placeFront v s s' →
        Validator.typeAccepts config kind v = false →
          Misfit n s ⟨.typeMismatch kind v, s.front.pos⟩
  | enum {n : Node} {values : List String} {x : String} {s s' : Source} :
      n.form = .enum values → Applies n s → placeFront (.str x) s s' →
        x ∉ values → Misfit n s ⟨.unknownEnumValue x, s.front.pos⟩
  | required {n : Node} {s brace behind : Source} {p : Program.Properties}
      {tag : Option String} {ms : Members} {m : String × Node} :
      Declares search n brace p tag → placeFront .openBrace s brace →
        Contents placeFront .closeBrace (Member placeFront (Spells placeFront))
          ms brace behind →
          (p.required.find? fun m => !ms.has m.1) = some m →
            Misfit n s ⟨.missingProperty m.1, behind.pos - 1⟩

/-- No branch is found for the object at a place. -/
inductive Unbranched : Node → Source → Failure → Prop
  | search {n : Node} {tag : String} {branches : List (String × Program.Branch)}
      {s brace : Source} {e : Failure} :
      n.form = .discriminator tag branches → placeFront .openBrace s brace →
        search tag brace (.error e) → Unbranched n s e
  | unmapped {n : Node} {tag value : String}
      {branches : List (String × Program.Branch)} {s brace : Source} {pos : ℕ} :
      n.form = .discriminator tag branches → placeFront .openBrace s brace →
        search tag brace (.ok (value, pos)) →
          List.lookup value branches = none →
            Unbranched n s ⟨.unmappedTag value, pos⟩

/-- Reading a value stops, and not inside of a value that it goes on to. -/
inductive Halts : Guide → Source → Failure → Prop
  | missing {g : Guide} {s here : Source} {what : Expected} :
      Awaits search g s what here → Missing what here →
        Halts g s (.missing what here)
  | token {g : Guide} {s here : Source} {what : Expected}
      {fault : Token.Located} :
      Awaits search g s what here → Faulty what here fault →
        Halts g s (.ofFault fault)
  | null {n : Node} {s : Source} {fault : Token.Located} :
      n.nullable = true → Lexeme.read s.front = .stuck 'n' (some fault) →
        Halts (some n) s (.ofFault fault)
  | depth {g : Guide} {s : Source} {pos : ℕ} :
      pos = s.pos ∨ pos = s.front.pos →
        Halts g s ⟨.depthExceeded config.maxDepth, pos⟩
  | key {g : Guide} {s : Source} {e : Failure} :
      KeyFault search g s e → Halts g s e
  | misfit {n : Node} {s : Source} {e : Failure} :
      Misfit search config n s e → Halts (some n) s e
  | unbranched {n : Node} {s : Source} {e : Failure} :
      Unbranched search n s e → Halts (some n) s e

/-- Reading halts with a failure at a value to which it leads. -/
def Explained (start : Guide × Source) (e : Failure) : Prop :=
  ∃ g s, Leads search target start (g, s) ∧ Halts search config g s e

end

/-! ## Going down goes ahead -/

section

open Source (Ahead)

variable {search : Search} {target : ℕ → Node} {here there : Guide × Source}

theorem NameAt.ahead {g : Guide} {s brace place behind : Source}
    {before : Members} {key : String}
    (h : NameAt search g s before key brace place behind) : Ahead s place :=
  h.opened.ahead.trans (h.members.ahead fun _ _ _ => Member.ahead)

theorem Step.ahead (h : Step search target here there) :
    Ahead here.2 there.2 := by
  cases h with
  | empty => exact .refl _
  | ref => exact .refl _
  | item _ hopen honward =>
      exact hopen.ahead.trans (honward.ahead fun _ _ _ => Spells.ahead)
  | member hname _ hcolon _ =>
      exact hname.ahead.trans (hname.name.ahead.trans hcolon.ahead)

theorem Leads.ahead (h : Leads search target here there) :
    Ahead here.2 there.2 := by
  induction h with
  | refl => exact .refl _
  | tail _ hstep ih => exact ih.trans hstep.ahead

end

/-! ## Scanners halt where they fail -/

section

variable {search : Search} {config : Config} {target : ℕ → Node} {g g' : Guide}
    {s s' : Source} {c : Cursor} {e : Failure}

theorem Explained.of_halts (h : Halts search config g s e) :
    Explained search config target (g, s) e :=
  ⟨g, s, .refl, h⟩

theorem Explained.of_step {here there : Guide × Source}
    (hstep : Step search target here there)
    (h : Explained search config target there e) :
    Explained search config target here e := by
  obtain ⟨g, s, hleads, hhalts⟩ := h
  exact ⟨g, s, .head hstep hleads, hhalts⟩

theorem explained_missing {what : Expected} {here : Source} (hc : c.At here)
    (hawaits : Awaits search g s what here) (hmissing : Missing what here) :
    Explained search config target (g, s) (.unexpected what c) := by
  rw [unexpected_at hc]
  exact .of_halts (.missing hawaits hmissing)

theorem explained_stuck {what : Expected} {here : Source} (hc : c.At here)
    (hawaits : Awaits search g s what here)
    (habsent : ∀ t, c.take? = some t → ¬ what.Admits t.value) :
    Explained search config target (g, s)
      (.stuck what.opensWith what c) := by
  rcases stuck_at hc habsent with ⟨fault, heq, hfaulty⟩ | ⟨heq, hmissing⟩
  · rw [heq]
    exact .of_halts (.token hawaits hfaulty)
  · rw [heq]
    exact .of_halts (.missing hawaits hmissing)

/-- The depth is used up at the start of a value. -/
theorem explained_depth {pos : ℕ} (hpos : pos = s.pos ∨ pos = s.front.pos) :
    Explained search config target (g, s)
      ⟨.depthExceeded config.maxDepth, pos⟩ :=
  .of_halts (.depth hpos)

end

end Parsing
end JsonTypedef
