import JsonTypedef.Json.Writer
import JsonTypedef.Proofs.Bytewise.Tokens
import JsonTypedef.Proofs.Json.Literal

/-!
# String literals in the bytes of a text

From a boundary of characters a string is read just where a literal stands
there, as the string of the characters that the literal stands for, and the run
stops behind the closing quote.  It stops in all other cases too, with a failure
that it reports.

The run over bytes ends as the reader of tokens does at the same place, and that
one is compared with the grammar of literals.  So what is added here is the way
from byte offsets to places of the text and back.
-/

namespace JsonTypedef
namespace Bytewise

open Source (Spans)
open Quoted (Literal)

variable {text : String}

/-- From the byte offset `start` of the text up to the byte offset `stop` stands
a literal. -/
def LiteralAt (text : String) (start : Nat) (codes : List Nat) (stop : Nat) :
    Prop :=
  ∃ before literal rest : String, text = before ++ literal ++ rest ∧
    before.utf8ByteSize = start ∧ (before ++ literal).utf8ByteSize = stop ∧
      Literal literal.toList codes

theorem Boundary.exists_place {pos : Nat} (h : Boundary text pos) :
    ∃ cs, Place text ⟨pos, cs⟩ := by
  obtain ⟨before, rest, htext, rfl⟩ := boundary_iff.mp h
  exact ⟨rest, before, htext, (Nat.zero_add _).symm⟩

theorem Place.unique {s s' : Source} (h : Place text s) (h' : Place text s')
    (hpos : s.pos = s'.pos) : s = s' := by
  obtain ⟨before, hbefore⟩ := h
  obtain ⟨before', hbefore'⟩ := h'
  exact hbefore.eq_of_pos hbefore' hpos

theorem place_append (before rest : String) :
    Place (before ++ rest) ⟨before.utf8ByteSize, rest.toList⟩ := by
  refine ⟨before.toList, String.toList_append, ?_⟩
  rw [String.utf8Len_toList]
  exact (Nat.zero_add _).symm

/-- From a place of the text literals stand up to other places. -/
theorem literalAt_iff {s : Source} (hs : Place text s) {codes : List Nat}
    {stop : Nat} :
    LiteralAt text s.pos codes stop ↔
      ∃ l s', Literal l codes ∧ Spans l s s' ∧ s'.pos = stop := by
  constructor
  · rintro ⟨before, literal, rest, rfl, hstart, rfl, hliteral⟩
    have hplace := place_append before (literal ++ rest)
    rw [← String.append_assoc] at hplace
    obtain rfl := hs.unique hplace hstart.symm
    refine ⟨literal.toList, ⟨(before ++ literal).utf8ByteSize, rest.toList⟩,
      hliteral, ⟨String.toList_append, ?_⟩, rfl⟩
    rw [String.utf8ByteSize_append, String.utf8Len_toList]
  · rintro ⟨l, s', hliteral, hspans, rfl⟩
    obtain ⟨before, hbefore⟩ := hs
    have htext : text.toList = before ++ s.chars := hbefore.chars
    have hpos : s.pos = String.utf8Len before :=
      hbefore.pos.trans (Nat.zero_add _)
    refine ⟨.ofList before, .ofList l, .ofList s'.chars, ?_, ?_, ?_, ?_⟩
    · rw [← String.toList_inj, htext, hspans.chars]
      simp
    · rw [String.utf8ByteSize_ofList, hpos]
    · rw [String.utf8ByteSize_append, String.utf8ByteSize_ofList,
        String.utf8ByteSize_ofList, hspans.pos, hpos]
    · rwa [String.toList_ofList]

/-- Reading a string ends in any case, and well just where the token is a
string. -/
theorem string_ends {s : Source} (hs : Place text s) :
    ∃ r, Gives text (string text) s r ∧
      ∀ x s', r = .ok (x, s') ↔ Lexeme.read s = .token (.str x) s' := by
  by_cases hhead : s.chars.head? = some '"'
  · have hlexes := string_lexes hs hhead
    generalize Lexeme.read s = lexeme at hlexes
    cases hlexes with
    | token hgives => exact ⟨_, hgives, by simp⟩
    | stuck _ hgives => exact ⟨_, hgives, by simp⟩
  · have hmissing : ∀ x s', Lexeme.read s ≠ .token (.str x) s' := by
      intro x s' hread
      exact hhead (Lexeme.head?_of_token hread)
    have hquote : Gives text (expect text '"' .string) s
        (.error ⟨.unexpected .string s.chars.head?, s.pos⟩) :=
      (eat_missing hs hhead (by decide)).bind (unexpected_gives hs .string)
    exact ⟨_, hquote.bind_error, by simp [hmissing]⟩

theorem string_eq_ok_iff {s : Source} (hs : Place text s) {x : String}
    {stop : Nat} :
    string text s.pos = some (.ok (x, stop)) ↔
      ∃ s', Lexeme.read s = .token (.str x) s' ∧ s'.pos = stop := by
  obtain ⟨r, hgives, hread⟩ := string_ends hs
  constructor
  · intro hrun
    cases hgives with
    | @ok _ s' hrun' =>
        cases hrun.symm.trans hrun'
        exact ⟨s', (hread x s').mp rfl, rfl⟩
    | error hrun' => cases hrun.symm.trans hrun'
  · rintro ⟨s', hlexeme, rfl⟩
    obtain rfl := (hread x s').mpr hlexeme
    cases hgives with
    | ok hrun => exact hrun

theorem eq_of_codes {x y : String}
    (h : x.toList.map Char.toNat = y.toList.map Char.toNat) : x = y :=
  String.toList_inj.mp
    (List.map_injective_iff.mpr (fun _ _ => Char.toNat_inj.mp) h)

/-- Where a literal stands, reading gives the characters that it stands for and
stops behind it. -/
theorem string_of_literalAt {s : Source} (hs : Place text s) {codes : List Nat}
    {stop : Nat} (h : LiteralAt text s.pos codes stop) :
    ∃ x, string text s.pos = some (.ok (x, stop)) ∧
      x.toList.map Char.toNat = codes := by
  obtain ⟨l, s', hliteral, hspans, rfl⟩ := (literalAt_iff hs).mp h
  obtain ⟨x, rfl⟩ := hliteral.exists_string
  have hread := Lexeme.read_eq_str_iff.mpr ⟨l, hliteral, hspans⟩
  exact ⟨x, (string_eq_ok_iff hs).mpr ⟨s', hread, rfl⟩, rfl⟩

/-- What is read is what a literal stands for. -/
theorem literalAt_of_string {s : Source} (hs : Place text s) {x : String}
    {stop : Nat} (h : string text s.pos = some (.ok (x, stop))) :
    LiteralAt text s.pos (x.toList.map Char.toNat) stop := by
  obtain ⟨s', hread, rfl⟩ := (string_eq_ok_iff hs).mp h
  obtain ⟨l, hliteral, hspans⟩ := Lexeme.read_eq_str_iff.mp hread
  exact (literalAt_iff hs).mpr ⟨l, s', hliteral, hspans, rfl⟩

theorem literalAt_write (before x rest : String) :
    LiteralAt (before ++ Value.write (.str x) ++ rest) before.utf8ByteSize
      (x.toList.map Char.toNat)
      (before ++ Value.write (.str x)).utf8ByteSize := by
  refine ⟨before, _, rest, rfl, rfl, rfl, ?_⟩
  rw [Value.write, Value.text, String.toList_ofList]
  exact Quoted.literal_encode x

/-- At a boundary of characters a string is read just where a literal stands, as
the characters that the literal stands for, and the run stops behind the
closing quote.  Otherwise the run reports a failure.  The tokens of the text
hold the same strings, and a string that is written as JSON is read back. -/
theorem string_reads_literals {pos : Nat} (hpos : Boundary text pos) :
    (∀ codes stop, LiteralAt text pos codes stop ↔
      ∃ x, string text pos = some (.ok (x, stop)) ∧
        x.toList.map Char.toNat = codes) ∧
    ((∃ codes stop, LiteralAt text pos codes stop) ∨
      ∃ e, string text pos = some (.error e) ∧ Boundary text e.position) ∧
    (∃ cs, Place text ⟨pos, cs⟩ ∧ ∀ x stop,
      string text pos = some (.ok (x, stop)) ↔
        ∃ rest, Lexeme.read ⟨pos, cs⟩ = .token (.str x) ⟨stop, rest⟩) ∧
    ∀ before x rest : String,
      text = before ++ Value.write (.str x) ++ rest →
        before.utf8ByteSize = pos →
          string text pos =
            some (.ok (x, (before ++ Value.write (.str x)).utf8ByteSize)) := by
  obtain ⟨cs, hs⟩ := hpos.exists_place
  refine ⟨fun codes stop => ⟨string_of_literalAt hs, ?_⟩, ?_, ⟨cs, hs, ?_⟩, ?_⟩
  · rintro ⟨x, hrun, rfl⟩
    exact literalAt_of_string hs hrun
  · obtain ⟨r, hgives, -⟩ := string_ends hs
    cases hgives with
    | ok hrun => exact Or.inl ⟨_, _, literalAt_of_string hs hrun⟩
    | error hrun hboundary => exact Or.inr ⟨_, hrun, hboundary⟩
  · intro x stop
    rw [string_eq_ok_iff hs]
    constructor
    · rintro ⟨s', hread, rfl⟩
      exact ⟨s'.chars, hread⟩
    · rintro ⟨rest, hread⟩
      exact ⟨_, hread, rfl⟩
  · rintro before x rest rfl rfl
    obtain ⟨y, hrun, hcodes⟩ :=
      string_of_literalAt hs (literalAt_write before x rest)
    rwa [eq_of_codes hcodes] at hrun

/-- A text with a literal that has items of every kind, behind a letter of two
bytes and in front of a backslash. -/
def mixedText : String :=
  "\u00e9\"\\ud83d\\uDE00a\u00e9\\/\\u000A\"\\"

theorem literalAt_mixedText :
    LiteralAt mixedText 2 [0x1f600, 0x61, 0xe9, 0x2f, 0x0a] 27 := by
  have hfirst : Quoted.IsCodeUnit ['d', '8', '3', 'd'] 0xd83d :=
    ⟨[0xd, 8, 3, 0xd], by decide⟩
  have hsecond : Quoted.IsCodeUnit ['D', 'E', '0', '0'] 0xde00 :=
    ⟨[0xd, 0xe, 0, 0], by decide⟩
  have hunit : Quoted.IsCodeUnit ['0', '0', '0', 'A'] 0x0a :=
    ⟨[0, 0, 0, 0xa], by decide⟩
  have hpair := Quoted.StandsFor.pair hfirst (by decide) (by decide) hsecond
    (by decide) (by decide)
  have hascii : Quoted.StandsFor ['a'] 0x61 :=
    .plain (by decide) (by decide) (by decide)
  have hwide : Quoted.StandsFor ['\u00e9'] 0xe9 :=
    .plain (by decide) (by decide) (by decide)
  have hshort : Quoted.StandsFor ['\\', '/'] 0x2f :=
    .short (c := '/') (by decide)
  have hfeed : Quoted.StandsFor ['\\', 'u', '0', '0', '0', 'A'] 0x0a :=
    .unit hunit (by decide)
  exact ⟨"\u00e9", "\"\\ud83d\\uDE00a\u00e9\\/\\u000A\"", "\\", by decide,
    by decide, by decide, _,
    .cons hpair (.cons hascii (.cons hwide (.cons hshort (.cons hfeed .nil)))),
    by decide⟩

theorem place_mixedText : Place mixedText ⟨27, ['\\']⟩ :=
  ⟨mixedText.toList.dropLast, by decide, by decide⟩

theorem not_literalAt_mixedText (codes : List Nat) (stop : Nat) :
    ¬ LiteralAt mixedText 27 codes stop := by
  intro h
  obtain ⟨l, s', ⟨items, -, rfl⟩, hspans, -⟩ :=
    (literalAt_iff place_mixedText).mp h
  have hquote : '\\' = '"' := (List.cons.inj hspans.chars).1
  exact absurd hquote (by decide)

/-- The surrogates are read as one character, behind the literal no string is
read, and the text itself is read back once it is written. -/
theorem string_reads_literals_mixedText :
    Boundary mixedText 2 ∧
      string mixedText 2 = some (.ok ("😀a\u00e9/\n", 27)) ∧
      Boundary mixedText 27 ∧
      (∃ e, string mixedText 27 = some (.error e)) ∧
      Boundary ("\u00e9" ++ Value.write (.str mixedText) ++ "\\") 2 ∧
      string ("\u00e9" ++ Value.write (.str mixedText) ++ "\\") 2 =
        some (.ok (mixedText, 39)) := by
  have hpos : Boundary mixedText 2 := by
    unfold Boundary
    decide
  obtain ⟨hliteral, -⟩ := string_reads_literals hpos
  obtain ⟨x, hrun, hcodes⟩ := (hliteral _ _).mp literalAt_mixedText
  have hx : x = "😀a\u00e9/\n" := eq_of_codes (hcodes.trans (by decide))
  rw [hx] at hrun
  have hbehind : Boundary mixedText 27 := place_mixedText.boundary
  obtain ⟨-, hfails, -⟩ := string_reads_literals hbehind
  obtain ⟨e, herror, -⟩ := hfails.resolve_left fun ⟨codes, stop, h⟩ =>
    not_literalAt_mixedText codes stop h
  have hletter :
      Boundary ("\u00e9" ++ Value.write (.str mixedText) ++ "\\") 2 := by
    unfold Boundary
    decide
  obtain ⟨-, -, -, hwritten⟩ := string_reads_literals hletter
  exact ⟨hpos, hrun, hbehind, ⟨e, herror⟩, hletter, hwritten _ _ _ rfl rfl⟩

end Bytewise
end JsonTypedef
