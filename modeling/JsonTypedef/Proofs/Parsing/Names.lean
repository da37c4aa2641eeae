import JsonTypedef.Proofs.Parsing.Halting
import JsonTypedef.Proofs.Parsing.Skipping

/-!
# Names that are refused

A parse that refuses the name of a member has gone down to an object with that
name.  A repeated name is reported at its opening quote.  A name that is not
declared is reported there too if it is the first one of its object; any other
is reported right behind the comma in front of it, be there blanks or not.
-/

namespace JsonTypedef
namespace Parsing

open Source Grammar Program

/-! ## Where names are refused -/

/-- The name of a member is refused. -/
def Reason.RefusesName : Reason → Prop
  | .duplicateKey _ => True
  | .unexpectedProperty _ => True
  | _ => False

/-- The look-ahead refuses no name. -/
theorem SearchReason.not_refusesName {tag : String} {r : Reason}
    (h : SearchReason tag r) : ¬ r.RefusesName := by
  intro hname
  cases h <;> exact hname

variable {config : Config} {g : Guide} {s : Source} {e : Failure}

/-- A name is refused only where reading halts at a name. -/
theorem keyFault_of_halts (h : Halts searched config g s e)
    (hname : e.reason.RefusesName) : KeyFault searched g s e := by
  cases h with
  | missing => exact hname.elim
  | token | null | depth => exact hname.elim
  | key hfault => exact hfault
  | misfit hmisfit => cases hmisfit <;> exact hname.elim
  | unbranched hunbranched =>
      cases hunbranched with
      | search _ _ hsearch =>
          have hreason := searchReason_lookAhead hsearch
          exact absurd hname hreason.not_refusesName
      | unmapped => exact hname.elim

/-- A name other than the first of its object stands behind a comma. -/
theorem exists_comma_of_onward {before : Members} {brace here : Source}
    (h : OnwardMembers before brace here) (hbefore : before ≠ []) :
    ∃ comma, Spans [','] comma here := by
  cases h with
  | start => exact absurd rfl hbefore
  | @comma _ _ _ _ u _ _ _ hcomma =>
      obtain ⟨l, hspelling, hspans⟩ := Lexeme.passes_of_read hcomma
      cases hspelling
      exact ⟨u.front, hspans⟩

/-- A name is not declared for an object, nor accepted without a declaration. -/
def Undeclared (search : Search) (n : Node) (brace : Source) (key : String) :
    Prop :=
  ∃ p tag, Declares search n brace p tag ∧ tag ≠ some key ∧
    p.member? key = none ∧ p.additional = false

/-- The name of a member is refused at a place of its text. -/
structure NameRefused (search : Search) (g : Guide) (s : Source)
    (before : Members) (key : String) (brace here : Source) (e : Failure) :
    Prop where
  named : ∃ behind, NameAt search g s before key brace here behind
  quoted : here.front.chars.head? = some '"'
  fault :
    (key ∈ before.keys ∧ e = ⟨.duplicateKey key, here.front.pos⟩) ∨
    (key ∉ before.keys ∧ (∃ n, g = some n ∧ Undeclared search n brace key) ∧
      ((before = [] ∧ e = ⟨.unexpectedProperty key, here.front.pos⟩) ∨
        ((∃ comma, Spans [','] comma here) ∧
          e = ⟨.unexpectedProperty key, here.pos⟩)))

theorem exists_nameRefused_of_keyFault (h : KeyFault searched g s e) :
    ∃ before key brace here,
      NameRefused searched g s before key brace here e := by
  cases h with
  | @duplicate _ _ brace here behind before key hname hrepeated =>
      exact ⟨before, key, brace, here, ⟨behind, hname⟩, hname.name.head?,
        Or.inl ⟨hrepeated, rfl⟩⟩
  | @undeclared n _ brace here behind value before key p tag hname hnew hcolon
      hdeclares htag hmember hadditional =>
      refine ⟨before, key, brace, here, ⟨behind, hname⟩, hname.name.head?,
        Or.inr ⟨hnew, ⟨n, rfl, p, tag, hdeclares, htag, hmember, hadditional⟩,
          ?_⟩⟩
      by_cases hbefore : before = []
      · subst hbefore
        refine Or.inl ⟨rfl, ?_⟩
        rw [Cursor.awaiting, Cursor.skipBlanks_ofSource]
        rfl
      · obtain ⟨m, ms, rfl⟩ := List.exists_cons_of_ne_nil hbefore
        exact Or.inr ⟨exists_comma_of_onward hname.members hbefore, rfl⟩

end Parsing

namespace Parser

open Source Grammar Parsing Program

/-- A parse that refuses a name has gone down to an object with that name.  A
name that is used already is reported at its opening quote.  So is one that is
not declared, if it is the first; another one is reported right behind the comma
in front of it. -/
theorem parse_refuses_name (program : Program) (config : Config)
    {text : String} {e : Failure}
    (h : parse ⟨program, config⟩ text = .error e)
    (hname : e.reason.RefusesName) :
    ∃ g s before key brace here,
      Leads searched program.target (some program.root, .ofText text) (g, s) ∧
      Ahead (.ofText text) here ∧
      NameRefused searched g s before key brace here e := by
  rcases explained_of_parse h with ⟨v, s, -, rfl⟩ | ⟨g, s, hleads, hhalts⟩
  · exact hname.elim
  · obtain ⟨before, key, brace, here, hrefused⟩ :=
      exists_nameRefused_of_keyFault (keyFault_of_halts hhalts hname)
    obtain ⟨behind, hat⟩ := hrefused.named
    exact ⟨g, s, before, key, brace, here, hleads,
      hleads.ahead.trans hat.ahead, hrefused⟩

/-! ## A name behind a blank -/

/-- The schema of objects with the one member `a`. -/
def singleSchema : Value :=
  .obj [("properties", .obj [("a", .obj [])])]

/-- The declaration of the one member `a`. -/
def singleProperties : Program.Properties :=
  ⟨[("a", ⟨false, ⟨["properties", "a"]⟩, .empty⟩)], [], false, "properties"⟩

/-- The program of objects with the one member `a`. -/
def singleProgram : Program :=
  ⟨Digest.ofSchema singleSchema,
    ⟨⟨false, none, .properties ⟨[("a", ⟨false, none, .empty⟩)], [], false,
      true⟩⟩, []⟩,
    ⟨false, .root, .properties singleProperties⟩, []⟩

theorem ofValue_singleSchema :
    Program.ofValue singleSchema = .ok singleProgram := by
  have hdocument :
      Document.ofValue singleSchema = .ok singleProgram.document := by
    have hunsorted : Document.ofValue singleSchema =
      .ok ⟨singleProgram.document.root,
        List.mergeSort [] fun a b => a.1 ≤ b.1⟩ := rfl
    rw [hunsorted, List.mergeSort_nil]
    rfl
  unfold ofValue
  rw [hdocument]
  rfl

/-- An object with a second member behind a comma and a blank. -/
def spacedText : String :=
  "\x7b\"a\":0, \"b\":0\x7d"

/-- A place in the text, where each character takes up one byte. -/
def spacedFrom (pos : ℕ) : Source :=
  ⟨pos, spacedText.toList.drop pos⟩

theorem toList_spacedText : spacedText.toList =
    ['\x7b', '"', 'a', '"', ':', '0', ',', ' ', '"', 'b', '"', ':', '0',
      '\x7d'] := rfl

/-- The stream behind the comma. -/
def secondStream : Stream :=
  .token 8 (.str "b") 11 (.token 11 .colon 12 (.ofSource (spacedFrom 12)))

/-- The stream behind the brace. -/
def firstStream : Stream :=
  .token 1 (.str "a") 4 (.token 4 .colon 5
    (.token 5 (.num '0' (.int 0 rfl)) 6 (.token 6 .comma 7 secondStream)))

theorem ofText_spacedText :
    Stream.ofText spacedText = .token 0 .openBrace 1 firstStream := by
  have hstart : Stream.ofText spacedText = .ofSource (spacedFrom 0) := rfl
  have hbrace : placeFront .openBrace (spacedFrom 0) (spacedFrom 1) := rfl
  have hcolon : placeFront .colon (spacedFrom 4) (spacedFrom 5) := rfl
  have hzero : placeFront (.num '0' (.int 0 rfl)) (spacedFrom 5)
    (spacedFrom 6) := rfl
  have hcomma : placeFront .comma (spacedFrom 6) (spacedFrom 7) := rfl
  have hcolon' : placeFront .colon (spacedFrom 11) (spacedFrom 12) := rfl
  have ha : placeFront (.str "a") (spacedFrom 1) (spacedFrom 4) := by
    simp [placeFront, Source.front, Source.skipBlanks, spacedFrom,
      toList_spacedText, Lexeme.read, Lexeme.mark?, Lexeme.readString,
      Quoted.read, Char.utf8Size]
  have hb : placeFront (.str "b") (spacedFrom 7) (spacedFrom 11) := by
    simp [placeFront, Source.front, Source.skipBlanks, spacedFrom,
      toList_spacedText, Lexeme.read, Lexeme.mark?, Lexeme.readString,
      Quoted.read, Char.utf8Size]
  rw [hstart, Stream.ofSource_of_read hbrace, Stream.ofSource_of_read ha,
    Stream.ofSource_of_read hcolon, Stream.ofSource_of_read hzero,
    Stream.ofSource_of_read hcomma, Stream.ofSource_of_read hb,
    Stream.ofSource_of_read hcolon']
  rfl

/-- The values of the members, as the root reads them. -/
def singleValue : MemberValue :=
  memberValue (node { } singleProgram.target 255) (untyped { } 255)
    singleProperties none

theorem members_spacedText : members singleValue ⟨1, firstStream⟩ =
    .error ⟨.unexpectedProperty "b", 7⟩ := by
  have hfirst : ∃ h, member singleValue [] ⟨1, firstStream⟩ =
      .ok ⟨("a", .num (.int 0 rfl)), ⟨6, .token 6 .comma 7 secondStream⟩,
        h⟩ := ⟨_, rfl⟩
  have hsecond : member singleValue [("a", .num (.int 0 rfl))]
      ⟨7, secondStream⟩ = .error ⟨.unexpectedProperty "b", 7⟩ := rfl
  obtain ⟨hshorter, hfirst⟩ := hfirst
  have hitems : Scanner.separated .closeBrace (.unexpected .commaOrBrace)
      (member singleValue) [] ⟨1, firstStream⟩ =
        .error ⟨.unexpectedProperty "b", 7⟩ := by
    rw [Scanner.separated, hfirst]
    dsimp only [Cursor.take?]
    rw [if_neg (by decide), if_pos rfl, Scanner.separated, hsecond]
  have henclosed : members singleValue ⟨1, firstStream⟩ =
      (Scanner.separated .closeBrace (.unexpected .commaOrBrace)
        (member singleValue) [] ⟨1, firstStream⟩).map Taken.afterBlanks := rfl
  rw [henclosed, hitems]
  rfl

theorem parse_spacedText : parse ⟨singleProgram, { }⟩ spacedText =
    .error ⟨.unexpectedProperty "b", 7⟩ := by
  have hproperties : properties (node { } singleProgram.target 255)
      (untyped { } 255) singleProperties none ⟨1, firstStream⟩ =
        .error ⟨.unexpectedProperty "b", 7⟩ := by
    unfold properties
    rw [← singleValue, members_spacedText]
  have hroot : singleProgram.root =
    ⟨false, .root, .properties singleProperties⟩ := rfl
  have hnode : node { } singleProgram.target ({ } : Config).maxDepth
      singleProgram.root (.ofText spacedText) =
        .error ⟨.unexpectedProperty "b", 7⟩ := by
    change node { } singleProgram.target (255 + 1) singleProgram.root
      (.ofText spacedText) = _
    unfold node Cursor.ofText
    rw [ofText_spacedText, hroot]
    simp [nullOr, form, Cursor.accept?, Cursor.take?,
      Cursor.skipBlanks, Stream.start, hproperties, Except.map]
  unfold parse
  dsimp only
  rw [hnode]

theorem parse_refuses_name_spacedText :
    parse ⟨singleProgram, { }⟩ spacedText =
        .error ⟨.unexpectedProperty "b", 7⟩ ∧
      ∃ g s before key brace here,
        Leads searched singleProgram.target
          (some singleProgram.root, .ofText spacedText) (g, s) ∧
        Ahead (.ofText spacedText) here ∧
        NameRefused searched g s before key brace here
          ⟨.unexpectedProperty "b", 7⟩ :=
  ⟨parse_spacedText,
    parse_refuses_name singleProgram { } parse_spacedText trivial⟩

/-- The refused name opens at offset 8, behind a blank, and the offset of the
blank is reported. -/
theorem parse_spacedText_in_front_of_name :
    Program.ofValue singleSchema = .ok singleProgram ∧
      parse ⟨singleProgram, { }⟩ spacedText =
        .error ⟨.unexpectedProperty "b", 7⟩ ∧
      OneByte spacedText.toList ∧
      spacedText.toList.drop 7 =
        [' ', '"', 'b', '"', ':', '0', '\x7d'] :=
  ⟨ofValue_singleSchema, parse_spacedText, by decide, rfl⟩

end Parser
end JsonTypedef
