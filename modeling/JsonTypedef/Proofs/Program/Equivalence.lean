import JsonTypedef.Proofs.Parsing.Agreement
import JsonTypedef.Proofs.Parsing.Simulation
import JsonTypedef.Proofs.Program.Unfolding
import JsonTypedef.Proofs.Serialization.Simulation
import JsonTypedef.Proofs.Validation.Simulation

/-!
# A ref is equivalent to its target

Unfolding one ref of a checked document, be it inside the definition that it
names, changes no outcome of any back-end.  The only exception is the depth
limit, which the unfolded program meets later.
-/

namespace JsonTypedef
namespace Program

/-- A checked document and the document with one ref unfolded both compile.
What a back-end decides along the first program it decides along the second:
the instance paths that a validator reports, the text that a serializer writes
and the value or failure of a parse. -/
theorem equivalent_of_unfolds {schema : Value} (hschema : schema.Distinct)
    {document : Document} (hdocument : Document.ofValue schema = .ok document)
    {document' : Document} (hunfolds : document.Unfolds document')
    (digest digest' : Digest) :
    ∃ program program', ofDocument document digest = .ok program ∧
      ofDocument document' digest' = .ok program' ∧
      ∀ config,
        (∀ v vs, Validator.validate ⟨program, config⟩ v = .ok vs →
          ∃ vs', Validator.validate ⟨program', config⟩ v = .ok vs' ∧
            vs'.map Violation.instancePath = vs.map Violation.instancePath) ∧
        (∀ v text, Serializer.serialize ⟨program, config⟩ v = .ok text →
          Serializer.serialize ⟨program', config⟩ v = .ok text) ∧
        ∀ text,
          (∀ e, Parser.parse ⟨program, config⟩ text = .error e →
            ¬ e.IsDepth) →
            Parser.parse ⟨program', config⟩ text =
              Parser.parse ⟨program, config⟩ text := by
  have hclosed := Document.closed_of_ofValue hschema hdocument
  have hclosed' : document'.Closed (document'.definitions.map Prod.fst) := by
    rw [hunfolds.names]
    exact hunfolds.closed hclosed
  obtain ⟨program, hprogram, -⟩ := exists_ofDocument_of_closed hclosed digest
  obtain ⟨program', hprogram', -⟩ := exists_ofDocument_of_closed hclosed' digest'
  have hsimulates := simulates_of_unfolds hunfolds hprogram hprogram'
  have hroot := (unfoldedNode_units hunfolds hprogram hprogram').1
  refine ⟨program, program', hprogram, hprogram', fun config => ⟨?_, ?_, ?_⟩⟩
  · intro v vs hvalidate
    exact Validator.validate_follows hsimulates hroot hvalidate
  · intro v text hserialize
    exact Serializer.serialize_alike hsimulates hroot hserialize
  · intro text hparse
    exact Parsing.parse_follows hsimulates hroot hparse

/-- The schema of a chain with the given schema of its next link. -/
def linkSchema (next : Schema) : Schema :=
  ⟨false, none, .properties ⟨[("id", ⟨false, none, .type .string⟩)],
    [("next", next), ("weight", ⟨false, none, .type .float64⟩)], false, true⟩⟩

/-- The schema of chains with the recursive ref unfolded once. -/
def unfoldedChainDocument : Document :=
  ⟨⟨false, none, .ref "link"⟩,
    [("link", linkSchema (linkSchema ⟨false, none, .ref "link"⟩))]⟩

theorem unfolds_chainDocument : chainDocument.Unfolds unfoldedChainDocument := by
  have hnext : Schema.Unfolds chainDocument.definitions
      ⟨false, none, .ref "link"⟩ (linkSchema ⟨false, none, .ref "link"⟩) :=
    @Schema.Unfolds.here _ false none none "link"
      (linkSchema ⟨false, none, .ref "link"⟩) rfl
  exact @Document.Unfolds.definition _ [] [] "link" _ _
    (@Schema.Unfolds.optional _ _ _ _ [] _ _ _ _ _ _ hnext)

theorem equivalent_of_unfolds_chainDocument :
    ∃ program', ofDocument unfoldedChainDocument chainProgram.digest =
        .ok program' ∧
      Validator.validate ⟨program', { }⟩ shortChain = .ok [] ∧
      Parser.parse ⟨program', { }⟩ Parser.shortChainText = .ok shortChain := by
  obtain ⟨program, program', hprogram, hprogram', hequivalent⟩ :=
    equivalent_of_unfolds distinct_chainSchema document_chainSchema
      unfolds_chainDocument chainProgram.digest chainProgram.digest
  obtain rfl : chainProgram = program := Except.ok.inj hprogram
  obtain ⟨hvalidate, -, hparse⟩ := hequivalent { }
  refine ⟨program', hprogram', ?_, ?_⟩
  · obtain ⟨vs, hvs, hpaths⟩ := hvalidate shortChain [] rfl
    rw [hvs, List.map_eq_nil_iff.mp hpaths]
  · have hchain := (Parser.parse_of_fits { } (Parser.fits_shortChain { })
      Parser.denotes_shortChainText distinct_shortChain).2 (by decide)
    rw [← hchain]
    apply hparse
    intro e herror
    rw [hchain] at herror
    cases herror

end Program
end JsonTypedef
