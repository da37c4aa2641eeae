import JsonTypedef.Proofs.Bytewise.Nodes

/-!
# Whole texts byte by byte

Over the program of a checked document the parser of bytes ends on every text,
and as the parser of tokens does.  So it never panics: a slice is taken between
boundaries of characters, the offset of a closing brace is behind the start of
the text, and what is looked up is there.
-/

namespace JsonTypedef
namespace Bytewise

open Parsing Program
open Source (front_front)
open JsonTypedef.Stream (ofSource_of_finish ofSource_of_stuck first?_ofSource)
open Cursor (skipBlanks_ofSource accept?_of_take?)

variable {text : String}

/-! ## Nodes -/

section

variable {other : Scanner Failure Value} {c : Cursor}

theorem nullOr_of_accept {t : Taken Unit c} (h : c.accept? .null = some t) :
    nullOr true other c = .ok (t.map fun _ => .null) := by
  obtain ⟨pos, stream⟩ := c
  unfold nullOr
  cases stream with
  | finish => cases h
  | stuck => cases h
  | token => simp only [h]

theorem nullOr_of_stuck {pos start : Nat} {fault : Token.Fault}
    (h : c.stream = .stuck start 'n' (some (fault, pos))) :
    nullOr true other c = .error ⟨.token fault, pos⟩ := by
  obtain ⟨_, stream⟩ := c
  cases h
  rfl

theorem nullOr_of_other (hfirst : c.stream.first? ≠ some 'n')
    (haccept : c.accept? .null = none) :
    nullOr true other c = other c := by
  unfold nullOr
  split
  next heq => exact absurd (congrArg Stream.first? heq) hfirst
  next => rw [haccept]
  next => rfl

end

theorem null_agrees {s : Source} (hfront : s.front = s) (hs : Place text s)
    (hhead : s.chars.head? = some 'n') (other : Scanner Failure Value) :
    Agrees text (do
        literal text "null"
        return .null) s (nullOr true other (.ofSource s)) := by
  have hlexes : Lexes text (literal text "null") (fun _ => .null) s _ :=
    literal_lexes hs hhead (fun _ _ => rfl) (by decide)
  cases hread : Lexeme.read s with
  | finish =>
      rw [hread] at hlexes
      cases hlexes
  | stuck first =>
      rw [hread] at hlexes
      cases hlexes with
      | stuck hfirst hgives =>
          cases hhead.symm.trans hfirst
          rw [nullOr_of_stuck (ofSource_of_stuck (hfront.symm ▸ hread))]
          exact .error hgives.bind_error
  | token =>
      rw [hread] at hlexes
      cases hlexes with
      | token hgives =>
          obtain ⟨hshorter, htake⟩ := take?_of_read (hfront.symm ▸ hread)
          rw [nullOr_of_accept (accept?_of_take? htake)]
          exact .ok (hgives.bind (.pure hgives.place _)) rfl

/-- Null is read where a nullable node meets an n. -/
theorem nullOr_implements (nullable : Bool) {m : Reader Value}
    {other : Scanner Failure Value} (h : ImplementsFront text m other) :
    ImplementsFront text (do
        if nullable ∧ (← peek text) = some 'n' then do
          literal text "null"
          return .null
        else m) (nullOr nullable other) := by
  intro s hfront hs
  obtain ⟨next, hshows, hpeek⟩ := exists_peek hs
  have hnext : next = some 'n' ↔ s.chars.head? = some 'n' :=
    hshows.eq_some_iff (by decide)
  refine .behind hpeek ?_
  cases nullable with
  | false =>
      rw [if_neg fun hnull => Bool.false_ne_true hnull.1]
      exact h s hfront hs
  | true =>
      by_cases hhead : s.chars.head? = some 'n'
      · rw [if_pos ⟨rfl, hnext.mpr hhead⟩]
        exact null_agrees hfront hs hhead other
      · have hfirst : (Cursor.ofSource s).stream.first? ≠ some 'n' := by
          rwa [Cursor.ofSource, first?_ofSource, hfront]
        rw [if_neg fun hnull => hhead (hnext.mp hnull.2),
          nullOr_of_other hfirst (accept?_eq_none (by rwa [hfront]))]
        exact h s hfront hs

/-- Every node at any depth is in accord with some form of a schema. -/
def Accords (program : Program) (n : Node) : Prop :=
  ∀ place m, n.at? place = some m → ∃ g, program.Coherent g m.form

theorem Accords.of_parts {program : Program} {n : Node}
    (h : Accords program n) : ∀ m ∈ n.form.parts, Accords program m := by
  intro m hm place m' hm'
  obtain ⟨i, hi⟩ := List.getElem?_of_mem hm
  apply h (i :: place) m'
  rw [Node.at?, hi]
  exact hm'

/-- Along every node of the program both parsers read alike, by induction on the
depth that is left. -/
theorem node_implements (parser : Parser)
    (hdefinitions : ∀ d ∈ parser.program.definitions,
      Accords parser.program d.2) (depth : Nat) :
    ∀ n, Accords parser.program n →
      Implements text (node text parser depth n)
        (Parsing.node parser.config parser.program.target depth n) := by
  induction depth with
  | zero =>
      intro n _ s hs
      exact .get (.error (.throw hs.boundary s))
  | succ depth ih =>
      intro n hn s hs
      obtain ⟨g, hcoherent⟩ := hn [] n rfl
      have hform : ImplementsFront text _ _ :=
        form_implements parser hcoherent
          (fun m hm => ih m (hn.of_parts m hm))
          (fun d hd => ih d.2 (hdefinitions d hd))
          (untyped_implements parser.config depth)
      have hnull := nullOr_implements n.nullable hform s.front (front_front s)
        hs.front
      -- the scanner skips the blanks at its cursor, the reader in the text
      rw [← skipBlanks_ofSource] at hnull
      refine .behind (skipBlanks_gives hs) ?_
      exact hnull.after fun _ => ⟨rfl, rfl⟩

/-! ## Texts -/

/-- A run from the start of the text ends with the result, wherever it stops. -/
def Completes (text : String) (m : Reader Value) (r : Except Failure Value) :
    Prop :=
  ∃ r', Gives text m (.ofText text) r' ∧ r'.map Prod.fst = r

theorem run'_of_run {m : Reader Value} {r : Except Failure (Value × Nat)}
    (h : m 0 = some r) : m.run' 0 = some (r.map Prod.fst) := by
  change Functor.map Prod.fst (m 0) = _
  rw [h]
  cases r with
  | ok => rfl
  | error => rfl

theorem Completes.run'_eq {m : Reader Value} {r : Except Failure Value}
    (h : Completes text m r) : m.run' 0 = some r := by
  obtain ⟨r', hgives, rfl⟩ := h
  cases hgives with
  | ok hm => exact run'_of_run hm
  | error hm => exact run'_of_run hm

theorem Completes.boundary {m : Reader Value} {e : Failure}
    (h : Completes text m (.error e)) : Boundary text e.position := by
  obtain ⟨r', hgives, heq⟩ := h
  cases r' with
  | ok => cases heq
  | error =>
      cases heq
      exact hgives.boundary

theorem stream_eq_finish_iff (s : Source) :
    (∃ pos, Stream.ofSource s = .finish pos) ↔ s.front.chars = [] := by
  constructor
  · rintro ⟨pos, h⟩
    have hfirst := first?_ofSource s
    rw [h] at hfirst
    exact List.head?_eq_none_iff.mp hfirst.symm
  · intro h
    have hread : Lexeme.read s.front = .finish := by
      simp only [Lexeme.read, h]
    exact ⟨_, ofSource_of_finish hread⟩

theorem document_completes (parser : Parser)
    (hroot : Accords parser.program parser.program.root)
    (hdefinitions : ∀ d ∈ parser.program.definitions,
      Accords parser.program d.2) (text : String) :
    Completes text (document text parser) (parser.parse text) := by
  have hnode : Agrees text (node text parser _ _) (.ofText text)
      (Parsing.node _ _ _ _ (.ofText text)) :=
    node_implements parser hdefinitions parser.config.maxDepth _ hroot _
      (place_ofText text)
  unfold Parser.parse
  cases hscan : Parsing.node parser.config parser.program.target
      parser.config.maxDepth parser.program.root (.ofText text) with
  | error e =>
      rw [hscan] at hnode
      cases hnode with
      | error hgives => exact ⟨_, hgives.bind_error, rfl⟩
  | ok t =>
      rw [hscan] at hnode
      cases hnode with
      | @ok _ s hgives hrest =>
          have hfront := hgives.place.front
          have hblanks := skipBlanks_gives hgives.place
          obtain ⟨next, hshows, hpeek⟩ := exists_peek hfront
          dsimp only
          rw [hrest]
          by_cases hend : s.front.chars = []
          · obtain ⟨pos, hfinish⟩ := (stream_eq_finish_iff s).mpr hend
            rw [Cursor.ofSource, hfinish]
            refine ⟨.ok (t.value, s.front),
              hgives.bind (hblanks.bind (hpeek.bind ?_)), rfl⟩
            rw [if_pos (hshows.eq_none_iff.mpr hend)]
            exact .pure hfront t.value
          · split
            next hfinish =>
              exact absurd ((stream_eq_finish_iff s).mp ⟨_, hfinish⟩) hend
            next =>
              rw [Cursor.ofSource, Stream.start_ofSource]
              refine ⟨.error ⟨.trailing, s.front.pos⟩,
                hgives.bind (hblanks.bind (hpeek.bind ?_)), rfl⟩
              rw [if_neg fun heq => hend (hshows.eq_none_iff.mp heq)]
              exact .get (.throw hfront.boundary _)

/-- The nodes of a checked document's program are in accord with its schemas. -/
theorem accords_of_ofDocument {schema : Value} (hschema : schema.Distinct)
    {document : Document} (h : Document.ofValue schema = .ok document)
    {digest : Digest} {program : Program}
    (hprogram : ofDocument document digest = .ok program) :
    Accords program program.root ∧
      ∀ d ∈ program.definitions, Accords program d.2 := by
  have hunits : ∀ m ∈ program.units, Accords program m.2 := by
    intro m hm place n hn
    obtain ⟨s, -, hcoherent⟩ := exists_unitCoherent hschema h hprogram hm
    obtain ⟨t, -, hform⟩ := hcoherent.coherent place n hn
    exact ⟨t.form, hform⟩
  constructor
  · exact hunits _ List.mem_cons_self
  · intro d hd
    exact hunits (.definition d.1, d.2)
      (List.mem_cons_of_mem _ (List.mem_map.mpr ⟨d, hd, rfl⟩))

/-- Over a checked schema the parser of bytes never panics, whatever the text.
Slices have both ends at boundaries of characters inside the text, and since
all of them are there, the parser ends as the parser of tokens does.  A failure
is reported at such a boundary too. -/
theorem parse_never_panics {schema : Value} (hschema : schema.Distinct)
    {program : Program} (hprogram : Program.ofValue schema = .ok program)
    (config : Config) (text : String) :
    (∀ start stop piece, slice? text start stop = some piece →
      Boundary text start ∧ Boundary text stop ∧ start ≤ stop ∧
        stop ≤ text.utf8ByteSize) ∧
    parse ⟨program, config⟩ text = some (Parser.parse ⟨program, config⟩ text) ∧
    ∀ e, Parser.parse ⟨program, config⟩ text = .error e →
      e.position ≤ text.utf8ByteSize ∧ Boundary text e.position := by
  obtain ⟨document, hdocument, hprogram⟩ := exists_ok_of_bind hprogram
  obtain ⟨hroot, hdefinitions⟩ :=
    accords_of_ofDocument hschema hdocument hprogram
  have hcompletes :=
    document_completes ⟨program, config⟩ hroot hdefinitions text
  refine ⟨?_, hcompletes.run'_eq, ?_⟩
  · intro start stop piece hslice
    obtain ⟨hstart, hstop, hle, -⟩ := slice?_eq_some.mp hslice
    exact ⟨hstart, hstop, hle, hstop.le⟩
  · intro e he
    rw [he] at hcompletes
    exact ⟨hcompletes.boundary.le, hcompletes.boundary⟩

/-- A text whose first name has a letter of two bytes behind a backslash. -/
def brokenEscapeText : String :=
  "\x7b\"\u00e9\\\u00e9\""

theorem tokens_brokenEscapeText :
    Stream.ofText brokenEscapeText =
      .token 0 .openBrace 1 (.stuck 1 '"' (some (.string .escape, 4))) := by
  have hopen : Lexeme.read (Source.ofText brokenEscapeText).front =
      .token .openBrace ⟨1, ['"', '\u00e9', '\\', '\u00e9', '"']⟩ := rfl
  have hname : Lexeme.read
      (Source.front ⟨1, ['"', '\u00e9', '\\', '\u00e9', '"']⟩) =
      .stuck '"' (some (.string .escape, 4)) := by
    change Lexeme.readString 1 ['\u00e9', '\\', '\u00e9', '"'] = _
    simp [Lexeme.readString, Quoted.read, Quoted.readEscape,
      Quoted.shortEscape?, Char.utf8Size]
  unfold Stream.ofText
  rw [Stream.ofSource_of_read hopen, ofSource_of_stuck hname]
  rfl

theorem parse_brokenEscapeText :
    Parser.parse ⟨chainProgram, { }⟩ brokenEscapeText =
      .error ⟨.token (.string .escape), 4⟩ := by
  have hmembers : ∀ value, Parsing.members value
      ⟨1, .stuck 1 '"' (some (.string .escape, 4))⟩ =
        .error ⟨.token (.string .escape), 4⟩ := by
    intro value
    unfold Parsing.members Scanner.enclosed Scanner.separated
    rfl
  have hnode : ∀ depth, Parsing.node { } chainProgram.target (depth + 1 + 1)
      chainProgram.root (.ofText brokenEscapeText) =
        .error ⟨.token (.string .escape), 4⟩ := by
    intro depth
    unfold Cursor.ofText
    rw [tokens_brokenEscapeText]
    simp [chainProgram, target, Parsing.node, nullOr, Parsing.form,
      Parsing.properties, Cursor.accept?, Cursor.take?, Cursor.skipBlanks,
      Stream.start, hmembers, Except.map]
  unfold Parser.parse
  dsimp only
  rw [hnode 254]

/-- The letter behind the backslash is not cut, and the failure is reported at
the backslash. -/
theorem parse_brokenEscape :
    chainSchema.Distinct ∧ Program.ofValue chainSchema = .ok chainProgram ∧
      parse ⟨chainProgram, { }⟩ brokenEscapeText =
        some (.error ⟨.token (.string .escape), 4⟩) ∧
      4 ≤ brokenEscapeText.utf8ByteSize ∧ Boundary brokenEscapeText 4 := by
  obtain ⟨-, hparse, hposition⟩ :=
    parse_never_panics distinct_chainSchema ofValue_chainSchema { }
      brokenEscapeText
  rw [parse_brokenEscapeText] at hparse
  exact ⟨distinct_chainSchema, ofValue_chainSchema, hparse,
    hposition _ parse_brokenEscapeText⟩

end Bytewise
end JsonTypedef
