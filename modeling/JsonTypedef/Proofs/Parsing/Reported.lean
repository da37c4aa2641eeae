import JsonTypedef.Proofs.Parsing.Declared
import JsonTypedef.Proofs.Parsing.Faults
import JsonTypedef.Proofs.Parsing.Limit
import JsonTypedef.Proofs.Parsing.Names

/-!
# Where failures are reported

A value is read in the same way where other text follows it, unless that text
goes on with a numeral.  Hence what follows a text that is parsed is reported as
trailing, at its first byte behind the blanks.  With the faults of well-formed
text this says where the failures are reported that are not about a token, the
depth or a name.
-/

namespace JsonTypedef
namespace Grammar

open Source
open Shape (Blank Digits Begins)

/-! ## Text behind a value -/

/-- A text is a numeral behind blanks, and the character goes on with it. -/
def Continues (l : List Char) (c : Char) : Prop :=
  ∃ blanks numeral, l = blanks ++ numeral ∧ Blank blanks ∧ Digits numeral ∧
    Begins Digits (numeral ++ [c])

section

variable {t : Token} {v : Value} {s : Source} {l cs rest gap more : List Char}
    {c : Char}

/-- Nothing goes on with a text that opens like no numeral. -/
theorem not_continues_cons {d : Char} (hblank : ¬ IsBlank d)
    (hlead : ¬ (d = '-' ∨ Numeral.isDigit d = true)) :
    ¬ Continues (d :: l) c := by
  rintro ⟨blanks, numeral, heq, hblanks, hdigits, -⟩
  cases blanks with
  | nil =>
      subst heq
      exact hlead (Shape.lead_of_digits hdigits)
  | cons b blanks =>
      obtain rfl := (List.cons.inj heq).1
      exact hblank (hblanks d List.mem_cons_self)

/-- The characters of a token are read as that token in front of a character
that does not go on with them. -/
theorem read_of_not_begins (h : Lexical t (l ++ c :: more) (c :: more))
    (hl : Digits l → ¬ Begins Digits (l ++ [c])) (pos : ℕ) :
    ∃ s, s.chars = c :: more ∧
      Lexeme.read ⟨pos, l ++ c :: more⟩ = .token t s := by
  by_cases hnum : ∃ lead n, t = .num lead n
  · obtain ⟨lead, n, rfl⟩ := hnum
    generalize hchars : l ++ c :: more = chars at h
    cases h with
    | @num numeral _ _ _ _ hwritten hvalue =>
        obtain ⟨hvalid, letter, hletter, heq⟩ := hwritten
        obtain rfl := List.append_cancel_right (hchars.trans heq)
        have hstops : numeral.Stops (c :: more) :=
          Numeral.stops_of_not_begins hvalid hletter (hl (.mk hvalid hletter))
        exact ⟨_, rfl, read_of_written ⟨hvalid, letter, hletter, heq⟩ hstops
          hvalue pos⟩
  · exact read_of_lexical h (fun h => absurd h hnum) pos

theorem number_append {n : Number} (h : Spells textFront (.num n) cs [])
    (hcontinues : ¬ Continues cs c) (hchars : s.chars = cs ++ c :: more) :
    ∃ s', Spells placeFront (.num n) s s' ∧ s'.chars = c :: more := by
  cases h with
  | num hfront =>
      obtain ⟨_, hblanks, hlexical⟩ := hfront
      obtain ⟨l, rfl, hframe⟩ := hlexical.frame
      obtain ⟨m, rfl, hm⟩ := Shape.blank_of_blanks hblanks
      rw [List.append_nil] at hblanks hcontinues hchars
      have hlonger := hblanks.append (c :: more)
      rw [← hchars] at hlonger
      obtain ⟨s', hfront, hs'⟩ := exists_place hlonger (hframe _)
        (read_of_not_begins (hframe _) fun hl hbegins =>
          hcontinues ⟨m, l, rfl, hm, hl, hbegins⟩)
      exact ⟨s', .num hfront, hs'⟩

/-- A value that takes up a text but for blanks is spelled where the text is
followed by blanks and a character that does not go on with a numeral. -/
theorem spells_append (h : Spells textFront v cs rest)
    (hblank : Blank (rest ++ gap)) (hcontinues : ¬ Continues (cs ++ gap) c)
    (hchars : s.chars = cs ++ (gap ++ c :: more)) :
    ∃ s', Spells placeFront v s s' ∧ s'.chars = rest ++ (gap ++ c :: more) := by
  cases hbehind : rest ++ gap with
  | cons d ds =>
      -- A blank stands right behind the value.
      have hd : IsBlank d := hblank d (by simp [hbehind])
      refine h.carry (place_follows_text _) (fun n _ => ?_) hchars
      rw [← List.append_assoc, hbehind]
      rintro _ ⟨⟩
      exact isFinal_of_isBlank hd
  | nil =>
      obtain ⟨rfl, rfl⟩ := List.append_eq_nil_iff.mp hbehind
      rw [List.append_nil] at hcontinues
      by_cases hnum : ∃ n, v = .num n
      · obtain ⟨n, rfl⟩ := hnum
        exact number_append h hcontinues hchars
      · exact h.carry (place_follows_text _)
          (fun n hn => absurd ⟨n, hn⟩ hnum) hchars

end

end Grammar

namespace Parser

open Source Grammar Scanner Parsing Program
open Shape (Blank)

variable {program : Program} {config : Config} {text text' : String} {v : Value}

theorem parse_eq_trailing {s : Source}
    (h : Yields (node config program.target config.maxDepth program.root
      (.ofText text)) v (.ofSource s)) (hs : s.front.chars ≠ []) :
    parse ⟨program, config⟩ text = .error ⟨.trailing, s.front.pos⟩ := by
  obtain ⟨t, ht, -, hbehind⟩ := h
  unfold parse
  simp only [ht, hbehind]
  split
  next hfinish =>
    have hfirst := Stream.first?_ofSource s
    rw [hfinish] at hfirst
    exact absurd (List.head?_eq_none_iff.mp hfirst.symm) hs
  next => rw [Stream.start_ofSource]

/-- What follows a text that is parsed is trailing, unless it goes on with a
numeral. -/
theorem parse_append (hnamed : program.WellNamed)
    (h : parse ⟨program, config⟩ text = .ok v) {gap more : List Char} {c : Char}
    (htext : text'.toList = text.toList ++ (gap ++ c :: more))
    (hgap : Blank gap) (hc : ¬ IsBlank c)
    (hcontinues : ¬ Continues (text.toList ++ gap) c) :
    parse ⟨program, config⟩ text' =
      .error ⟨.trailing, String.utf8Len (text.toList ++ gap)⟩ := by
  obtain ⟨pos, hyields⟩ := parse_eq_ok_iff.mp h
  obtain ⟨hreads, hfits⟩ := node_sound hnamed.target hnamed.root hyields
  have hlimit := node_within hnamed.target hnamed.root hyields
  obtain ⟨rest, hspells, hrest⟩ := denotes_iff.mpr ⟨pos, hreads.spells⟩
  have hblank : Blank (rest ++ gap) := by
    intro d hd
    exact (List.mem_append.mp hd).elim (Shape.blank_of_blanks_nil hrest d)
      (hgap d)
  obtain ⟨s', hplace, hs'⟩ := spells_append (s := .ofText text') hspells hblank
    hcontinues htext
  obtain ⟨_, hstream, rfl⟩ := hplace.transfer stream_follows_place trivial rfl
  have hread : Yields
      (node config program.target config.maxDepth program.root
        (.ofText text')) v (.ofSource s') :=
    yields_of_not_exceeds hnamed hfits hstream hreads.distinct hlimit
  -- The blanks behind the value lead to the character.
  have hbehind : Spans (rest ++ gap) s'
      ⟨s'.pos + String.utf8Len (rest ++ gap), c :: more⟩ :=
    ⟨by rw [hs', List.append_assoc], rfl⟩
  have hcontent : Spans (text.toList ++ gap) (.ofText text')
      ⟨0 + String.utf8Len (text.toList ++ gap), c :: more⟩ :=
    ⟨htext.trans (List.append_assoc _ _ _).symm, rfl⟩
  obtain ⟨l, hl⟩ := hplace.ahead
  have hfront : s'.front =
      ⟨0 + String.utf8Len (text.toList ++ gap), c :: more⟩ := by
    rw [← (hl.trans hbehind).eq_of_chars hcontent rfl]
    apply front_eq_of_spans hblank hbehind
    rintro _ ⟨⟩
    exact hc
  have htrailing := parse_eq_trailing hread (by simp [hfront])
  rwa [hfront, Nat.zero_add] at htrailing

/-- On well-formed text a failure about a value, or about a member that an
object lacks, is that of a fault at a value to which the parse has gone down: it
is reported at the start of the value or of its tag's value, or at the brace
that closes the object.  Of the required members that an object lacks it names
the first one in the order in which the schema document declares them for this
object.  And where a text is parsed, other content behind it and behind blanks is
reported as trailing at its first byte, unless it goes on with a numeral. -/
theorem parse_reports {schema : Value} (hschema : schema.Distinct)
    {program : Program} (hprogram : Program.ofValue schema = .ok program)
    (config : Config) (text : String) :
    (∀ e, Shape.WellFormed text.toList →
      parse ⟨program, config⟩ text = .error e → e.reason.RefusesValue →
        ∃ n s, Leads TagSearch program.target
            (some program.root, .ofText text) (some n, s) ∧
          Ahead (.ofText text) s ∧ FaultAt config n s e ∧
          ∀ brace p tag, Declares TagSearch n brace p tag →
            ∃ path, DeclaredAt TagSearch n brace p path ∧
              KeepsOrder schema path p) ∧
    ∀ v text' gap c more, parse ⟨program, config⟩ text = .ok v →
      text'.toList = text.toList ++ (gap ++ c :: more) → Blank gap →
      ¬ IsBlank c → ¬ Continues (text.toList ++ gap) c →
        parse ⟨program, config⟩ text' =
          .error ⟨.trailing, String.utf8Len (text.toList ++ gap)⟩ := by
  constructor
  · intro e htext h he
    obtain ⟨n, s, hleads, hfault⟩ := exists_faultAt_of_parse htext h he
    exact ⟨n, s, hleads, hleads.ahead, hfault, fun brace p tag hdeclares =>
      keepsOrder_of_leads hschema hprogram hleads hdeclares⟩
  · intro v text' gap c more h htext hgap hc hcontinues
    have hnamed := wellNamed_of_ofValue hschema hprogram
    exact parse_append hnamed h htext hgap hc hcontinues

/-- An object without members, a blank between its braces. -/
def hollowText : String :=
  "\x7b \x7d"

theorem wellFormed_hollowText : Shape.WellFormed hollowText.toList := by
  have hblank : Blank [] := nofun
  have hbrace : Shape.Lead .openBrace ['\x7b'] :=
    .mk (l := []) hblank .openBrace
  have hclose : Shape.Lead .closeBrace [' ', '\x7d'] :=
    .mk (l := [' ']) (by simp [Blank, IsBlank]) .closeBrace
  have hvalue : Shape.Value hollowText.toList := .obj hbrace (.empty hclose)
  exact .mk (m := []) hvalue hblank

theorem ofText_hollowText : Stream.ofText hollowText =
    .token 0 .openBrace 1 (.token 2 .closeBrace 3 (.finish 3)) := by
  have hstart : Stream.ofText hollowText = .ofSource (.ofText hollowText) := rfl
  have hopen : placeFront .openBrace (.ofText hollowText)
    ⟨1, [' ', '\x7d']⟩ := rfl
  have hclose : placeFront .closeBrace ⟨1, [' ', '\x7d']⟩ ⟨3, []⟩ := rfl
  have hend : Lexeme.read (Source.front ⟨3, []⟩) = .finish := rfl
  rw [hstart, Stream.ofSource_of_read hopen, Stream.ofSource_of_read hclose,
    Stream.ofSource_of_finish hend]
  rfl

theorem parse_hollowText : parse ⟨singleProgram, { }⟩ hollowText =
    .error ⟨.missingProperty "a", 2⟩ := by
  have hroot : singleProgram.root =
    ⟨false, .root, .properties singleProperties⟩ := rfl
  have hnode : node { } singleProgram.target ({ } : Config).maxDepth
      singleProgram.root (.ofText hollowText) =
        .error ⟨.missingProperty "a", 2⟩ := by
    change node { } singleProgram.target (255 + 1) singleProgram.root
      (.ofText hollowText) = _
    unfold node Cursor.ofText
    rw [ofText_hollowText, hroot]
    rfl
  unfold parse
  dsimp only
  rw [hnode]

/-- An object with the one member `a`. -/
def singleValid : Value :=
  .obj [("a", .null)]

theorem parse_write_singleValid :
    parse ⟨singleProgram, { }⟩ singleValid.write = .ok singleValid := by
  have hdenotes : Denotes singleValid.write singleValid :=
    denotes_write singleValid fun d hd => by simp [singleValid] at hd
  have hvalid : Validator.validate ⟨singleProgram, { maxDepth := 5 }⟩
    singleValid = .ok [] := rfl
  have hfits : Fits (Validator.typeAccepts { }) singleProgram.target 5
      singleProgram.root singleValid :=
    Validator.validate_eq_nil_iff_fits.mp hvalid
  have hdistinct : singleValid.Distinct := Value.distinct_distinct singleValid
  exact (parse_of_fits { } hfits hdenotes hdistinct).2 (by decide)

/-- The failure is reported at the brace behind the blank, and a letter behind
the object and a blank at offset 11. -/
theorem parse_reports_single :
    (Shape.WellFormed hollowText.toList ∧
      parse ⟨singleProgram, { }⟩ hollowText =
        .error ⟨.missingProperty "a", 2⟩ ∧
      ∃ n s, Leads TagSearch singleProgram.target
          (some singleProgram.root, .ofText hollowText) (some n, s) ∧
        Ahead (.ofText hollowText) s ∧
        FaultAt { } n s ⟨.missingProperty "a", 2⟩ ∧
        ∀ brace p tag, Declares TagSearch n brace p tag →
          ∃ path, DeclaredAt TagSearch n brace p path ∧
            KeepsOrder singleSchema path p) ∧
    parse ⟨singleProgram, { }⟩ singleValid.write = .ok singleValid ∧
      parse ⟨singleProgram, { }⟩ (singleValid.write ++ " x") =
        .error ⟨.trailing, 11⟩ := by
  have hschema : singleSchema.Distinct := Value.distinct_distinct singleSchema
  refine ⟨⟨wellFormed_hollowText, parse_hollowText, ?_⟩,
    parse_write_singleValid, ?_⟩
  · exact (parse_reports hschema ofValue_singleSchema { } hollowText).1 _
      wellFormed_hollowText parse_hollowText trivial
  · have htext : (singleValid.write ++ " x").toList =
        singleValid.write.toList ++ ([' '] ++ 'x' :: []) :=
      String.toList_append
    exact (parse_reports hschema ofValue_singleSchema { } singleValid.write).2
      singleValid _ [' '] 'x' [] parse_write_singleValid htext
      (by simp [Blank, IsBlank]) (by simp [IsBlank])
      (not_continues_cons (d := '\x7b') (by simp [IsBlank]) (by decide))

end Parser
end JsonTypedef
