import JsonTypedef.Proofs.Parsing.Halting
import JsonTypedef.Proofs.Parsing.Skipping

/-!
# A parse stops where the text stops being JSON

Whatever fails, the part of the text in front of the reported offset is the
beginning of a JSON text.  Only the look-ahead for a tag may report an offset
further on, when it has skipped a member whose value is none.
-/

namespace JsonTypedef
namespace Parsing

open Source Grammar Program

/-- Reading along a node fails for the tag of the object at a place, and looking
for that tag from behind the brace misskips the value of a member. -/
structure Misled (n : Node) (s : Source) (e : Failure) : Prop where
  unbranched : Unbranched searched n s e
  strays : ∃ tag branches brace, n.form = .discriminator tag branches ∧
    placeFront .openBrace s brace ∧ Strays tag e.position brace

/-- What is reported for the tag of an object is inside of the object, or the
look-ahead is misled. -/
theorem Unbranched.entersAt_or_misled {n : Node} {s : Source} {e : Failure}
    (h : Unbranched searched n s e) :
    EntersAt Shape.Value s e.position ∨ Misled n s e := by
  obtain ⟨tag, branches, brace, hform, hopen, hpos⟩ :
      ∃ tag branches brace, n.form = .discriminator tag branches ∧
        placeFront .openBrace s brace ∧
        tagOffset (lookAhead tag (.ofSource brace)) = e.position := by
    cases h with
    | search hform hopen hlook =>
        exact ⟨_, _, _, hform, hopen, by rw [hlook, tagOffset]⟩
    | unmapped hform hopen hlook _ =>
        exact ⟨_, _, _, hform, hopen, by rw [hlook, tagOffset]⟩
  have hstops := lookAhead_stops tag (Cursor.at_ofSource brace)
  rw [hpos] at hstops
  refine hstops.imp (fun hinside => ?_) fun hstrays => ?_
  · exact (EntersAt.right hopen.passes hinside).mono
      fun _ => Shape.value_of_obj
  · exact ⟨h, tag, branches, brace, hform, hopen, hstrays⟩

/-- The first `pos` bytes of the text are the beginning of a JSON text. -/
def JsonUpTo (text : String) (pos : Nat) : Prop :=
  ∃ front behind tail : String, text = front ++ behind ∧
    front.utf8ByteSize = pos ∧ Shape.WellFormed (front ++ tail).toList

theorem jsonUpTo_of_enters {text : String} {here : Source}
    (h : Enters Shape.WellFormed (.ofText text) here) :
    JsonUpTo text here.pos := by
  obtain ⟨front, ⟨tail, htail⟩, hchars, hpos⟩ := h
  refine ⟨String.ofList front, String.ofList here.chars, String.ofList tail,
    ?_, ?_, ?_⟩
  · rw [← String.ofList_append, ← hchars]
    exact String.ofList_toList.symm
  · rw [String.utf8ByteSize_ofList, hpos]
    exact (Nat.zero_add _).symm
  · rw [← String.ofList_append, String.toList_ofList]
    exact htail

end Parsing

namespace Parser

open Source Grammar Parsing Program

/-! ## A skip over no value -/

/-- The schema of objects that tell their kind. -/
def kindSchema : Value :=
  .obj [("discriminator", .str "kind"),
    ("mapping", .obj [("a", .obj [("properties", .obj [])])])]

/-- The checked schema of objects that tell their kind. -/
def kindDocument : Document :=
  ⟨⟨false, none, .discriminator "kind" [("a", ⟨none, ⟨[], [], false, true⟩⟩)]⟩,
    []⟩

/-- The program of objects that tell their kind. -/
def kindProgram : Program :=
  ⟨Digest.ofSchema kindSchema, kindDocument,
    ⟨false, .root, .discriminator "kind"
      [("a", ⟨⟨["mapping", "a"]⟩, ⟨[], [], false, "properties"⟩⟩)]⟩, []⟩

theorem ofValue_kindSchema : Program.ofValue kindSchema = .ok kindProgram := by
  have hdocument : Document.ofValue kindSchema = .ok kindDocument := by
    have hunsorted : Document.ofValue kindSchema = .ok ⟨kindDocument.root,
      List.mergeSort [] fun a b => a.1 ≤ b.1⟩ := rfl
    rw [hunsorted, List.mergeSort_nil]
    rfl
  unfold ofValue
  rw [hdocument]
  rfl

/-- An object with a bracket that closes no array in front of its tag. -/
def crossedText : String :=
  "\x7b\"x\":[\x7d,\"kind\":0\x7d"

/-- A place in the text, where each character takes up one byte. -/
def crossedFrom (pos : Nat) : Source :=
  ⟨pos, crossedText.toList.drop pos⟩

theorem toList_crossedText : crossedText.toList =
    ['\x7b', '"', 'x', '"', ':', '[', '\x7d', ',', '"', 'k', 'i', 'n', 'd',
      '"', ':', '0', '\x7d'] := rfl

theorem tokens_crossedFrom (pos stop : Nat) (t : Token)
    (hfront : (crossedFrom pos).front = crossedFrom pos)
    (h : Lexeme.read (crossedFrom pos) = .token t (crossedFrom stop)) :
    Stream.ofSource (crossedFrom pos) =
      .token pos t stop (.ofSource (crossedFrom stop)) := by
  have hread : Lexeme.read (crossedFrom pos).front =
      .token t (crossedFrom stop) := by
    rw [hfront]
    exact h
  rw [Stream.ofSource_of_read hread, hfront]
  rfl

theorem tokens_crossedText : Stream.ofText crossedText =
    .token 0 .openBrace 1 (.token 1 (.str "x") 4 (.token 4 .colon 5
      (.token 5 .openBracket 6 (.token 6 .closeBrace 7 (.token 7 .comma 8
        (.token 8 (.str "kind") 14 (.token 14 .colon 15
          (.token 15 (.num '0' (.int 0 rfl)) 16
            (.ofSource (crossedFrom 16)))))))))) := by
  obtain ⟨hx, hkind⟩ :
      Lexeme.read (crossedFrom 1) = .token (.str "x") (crossedFrom 4) ∧
      Lexeme.read (crossedFrom 8) =
        .token (.str "kind") (crossedFrom 14) := by
    constructor <;>
      simp [crossedFrom, toList_crossedText, Lexeme.read, Lexeme.mark?,
        Lexeme.readString, Quoted.read, Char.utf8Size]
  have htext : Stream.ofText crossedText = .ofSource (crossedFrom 0) := rfl
  rw [htext, tokens_crossedFrom 0 1 .openBrace rfl rfl,
    tokens_crossedFrom 1 4 (.str "x") rfl hx,
    tokens_crossedFrom 4 5 .colon rfl rfl,
    tokens_crossedFrom 5 6 .openBracket rfl rfl,
    tokens_crossedFrom 6 7 .closeBrace rfl rfl,
    tokens_crossedFrom 7 8 .comma rfl rfl,
    tokens_crossedFrom 8 14 (.str "kind") rfl hkind,
    tokens_crossedFrom 14 15 .colon rfl rfl,
    tokens_crossedFrom 15 16 (.num '0' (.int 0 rfl)) rfl rfl]

theorem parse_crossedText :
    parse ⟨kindProgram, { }⟩ crossedText = .error ⟨.tagNotString, 15⟩ := by
  have hnode : node { } kindProgram.target ({ } : Config).maxDepth
      kindProgram.root (.ofText crossedText) = .error ⟨.tagNotString, 15⟩ := by
    change node { } kindProgram.target (255 + 1) kindProgram.root
      (.ofText crossedText) = _
    unfold node Cursor.ofText
    rw [tokens_crossedText]
    simp [kindProgram, nullOr, form, discriminator, Cursor.accept?,
      Cursor.take?, Cursor.skipBlanks, lookAhead, findTag, skipValue, openAfter,
      tagValue, Taken.after, Stream.start, Except.map]
  unfold parse
  dsimp only
  rw [hnode]

/-! No well-formed text goes on from the brace in the array. -/

section

variable {l r cs : List Char}

theorem not_isScalar_of_spelling {c : Char} {t : Token}
    (hc : c = '\x7b' ∨ c = '\x7d' ∨ c = '[')
    (h : Shape.Spelling t (c :: l)) : ¬ Shape.IsScalar t := by
  intro ht
  cases h with
  | num hdigits =>
      have hlead := Shape.lead_of_digits hdigits
      rcases hc with rfl | rfl | rfl <;> exact absurd hlead (by decide)
  | null | true | false | str => simp at hc
  | _ => exact ht

theorem not_array_crossed (h : Shape.Value l)
    (hl : l ++ r = '[' :: '\x7d' :: cs) : False := by
  rcases Shape.value_cons h hl (by decide) with
    ⟨-, items, hitems, heq⟩ | ⟨hc, -⟩ | ⟨t, m, ht, hspelling⟩
  · cases hitems with
    | empty hend =>
        obtain ⟨m, hspelling, -⟩ := Shape.spelling_of_lead hend heq (by decide)
        cases hspelling
    | items hitems =>
        obtain ⟨m, n, hvalue, rfl⟩ := Shape.item_of_items hitems
        rw [List.append_assoc] at heq
        rcases Shape.value_cons hvalue heq (by decide) with
          ⟨hc, -⟩ | ⟨hc, -⟩ | ⟨t, k, ht, hspelling⟩
        · exact absurd hc (by decide)
        · exact absurd hc (by decide)
        · exact not_isScalar_of_spelling (by simp) hspelling ht
  · exact absurd hc (by decide)
  · exact not_isScalar_of_spelling (by simp) hspelling ht

/-- The key is `x`, whatever follows it. -/
theorem body_crossed (h : Shape.Body l) (hl : l ++ r = 'x' :: '"' :: cs) :
    r = cs := by
  cases h with
  | close => simp at hl
  | piece hpiece hbody =>
      cases hpiece with
      | plain =>
          obtain ⟨-, hbehind⟩ := List.cons.inj hl
          cases hbody with
          | close => exact (List.cons.inj hbehind).2
          | piece hpiece _ =>
              cases hpiece with
              | plain hquote =>
                  exact absurd (List.cons.inj hbehind).1 hquote
              | short => simp at hbehind
              | hex => simp at hbehind
      | short => simp at hl
      | hex => simp at hl

theorem not_wellFormed_crossed :
    ¬ Shape.WellFormed
      ('\x7b' :: '"' :: 'x' :: '"' :: ':' :: '[' :: '\x7d' :: cs) := by
  intro h
  generalize htext :
    '\x7b' :: '"' :: 'x' :: '"' :: ':' :: '[' :: '\x7d' :: cs = text at h
  cases h with
  | mk hvalue _ =>
      rcases Shape.value_cons hvalue htext.symm (by decide) with
        ⟨hc, -⟩ | ⟨-, members, hmembers, heq⟩ | ⟨t, m, ht, hspelling⟩
      · exact absurd hc (by decide)
      · cases hmembers with
        | empty hend =>
            obtain ⟨m, hspelling, -⟩ :=
              Shape.spelling_of_lead hend heq (by decide)
            cases hspelling
        | items hitems =>
            obtain ⟨_, n, hmember, rfl⟩ := Shape.item_of_items hitems
            cases hmember with
            | mk hkey hcolon hvalue =>
                simp only [List.append_assoc] at heq
                obtain ⟨b, hspelling, hb⟩ :=
                  Shape.spelling_of_lead hkey heq (by decide)
                cases hspelling with
                | str hbody =>
                    have hbehind := body_crossed hbody hb
                    obtain ⟨m, hspelling, hm⟩ :=
                      Shape.spelling_of_lead hcolon hbehind (by decide)
                    cases hspelling
                    exact not_array_crossed hvalue hm
      · exact not_isScalar_of_spelling (by simp) hspelling ht

end

/-- The first bytes of the text, up to where its parse fails, are no beginning
of a JSON text. -/
theorem not_jsonUpTo_crossedText : ¬ JsonUpTo crossedText 15 := by
  rintro ⟨front, behind, tail, htext, hsize, hwellFormed⟩
  have hchars : crossedText.toList = front.toList ++ behind.toList := by
    rw [htext, String.toList_append]
  have honeByte : OneByte front.toList := by
    have htextByte : OneByte crossedText.toList := by decide
    intro c hc
    exact htextByte c (hchars ▸ List.mem_append_left _ hc)
  have hlength : front.toList.length = 15 := by
    rw [← utf8Len_of_oneByte honeByte, String.utf8Len_toList, hsize]
  have hfront : front.toList = crossedText.toList.take 15 := by
    rw [hchars, ← hlength, List.take_left]
  rw [String.toList_append, hfront] at hwellFormed
  exact not_wellFormed_crossed hwellFormed

/-! ## Where a parse fails -/

theorem jsonUpTo_of_entersAt {text : String} {pos : ℕ}
    (h : EntersAt Shape.Value (.ofText text) pos) : JsonUpTo text pos := by
  obtain ⟨here, henters, rfl⟩ := h
  exact jsonUpTo_of_enters (henters.left ⟨[], by simp [Shape.Blank]⟩)

/-- Where a parse fails, the text in front of the reported offset is the
beginning of a JSON text.  The exception is a parse that has gone down to an
object and fails for its tag, where looking for the tag has gone over members
and then misskipped the value of the next one. -/
theorem parse_stops (program : Program) (config : Config) {text : String}
    {e : Failure} (h : parse ⟨program, config⟩ text = .error e) :
    JsonUpTo text e.position ∨
      ∃ n s, Leads searched program.target
          (some program.root, .ofText text) (some n, s) ∧
        Misled n s e := by
  rcases explained_of_parse h with
    ⟨v, s, hspells, rfl⟩ | ⟨g, s, hleads, hhalts⟩
  · have hfront : Passes Shape.WellFormed (.ofText text) s.front :=
      hspells.passes.seq (passes_front s)
    exact Or.inl (jsonUpTo_of_enters hfront.enters)
  · rcases hhalts.entersAt with hpos | ⟨n, rfl, hunbranched⟩
    · exact Or.inl (jsonUpTo_of_entersAt (hleads.entersAt hpos))
    · refine hunbranched.entersAt_or_misled.imp (fun hpos => ?_) ?_
      · exact jsonUpTo_of_entersAt (hleads.entersAt hpos)
      · exact fun hmisled => ⟨n, s, hleads, hmisled⟩

theorem parse_stops_crossedText :
    parse ⟨kindProgram, { }⟩ crossedText = .error ⟨.tagNotString, 15⟩ ∧
      ∃ n s, Leads searched kindProgram.target
          (some kindProgram.root, .ofText crossedText) (some n, s) ∧
        Misled n s ⟨.tagNotString, 15⟩ :=
  ⟨parse_crossedText,
    (parse_stops kindProgram { } parse_crossedText).resolve_left
      not_jsonUpTo_crossedText⟩

/-- The look-ahead goes over the bracket that closes no array, and the value of
the tag behind it is reported. -/
theorem parse_beyond_crossedText :
    Program.ofValue kindSchema = .ok kindProgram ∧
      parse ⟨kindProgram, { }⟩ crossedText = .error ⟨.tagNotString, 15⟩ ∧
      ¬ JsonUpTo crossedText 15 :=
  ⟨ofValue_kindSchema, parse_crossedText, not_jsonUpTo_crossedText⟩

end Parser
end JsonTypedef
