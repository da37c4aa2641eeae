import JsonTypedef.Proofs.Json.Writing
import JsonTypedef.Proofs.Parsing.Completeness
import JsonTypedef.Proofs.Validation.Verdict

/-!
# The parser and the validator agree

What the parser returns is what the generic reader makes of the text, and the
validator finds no violation in it.  Conversely every text of a valid value is
parsed to that value as soon as the depth suffices.
-/

namespace JsonTypedef
namespace Parser

open Grammar Scanner Parsing Program

variable {program : Program} {config : Config} {text : String} {v : Value}

theorem parse_eq_ok_iff :
    parse ⟨program, config⟩ text = .ok v ↔
      ∃ pos, Yields
        (node config program.target config.maxDepth program.root
          (.ofText text)) v
        (.finish pos) := by
  unfold parse
  dsimp only
  constructor
  · intro h
    split at h
    next => cases h
    next t ht =>
      split at h
      next pos hfinish =>
        cases h
        exact ⟨pos, t, ht, rfl, hfinish⟩
      next => cases h
  · rintro ⟨pos, t, ht, rfl, hfinish⟩
    simp only [ht, hfinish]

/-- A text of a value that fits is parsed to the value, unless the depth runs
out. -/
theorem parse_of_fits (config : Config) {depth : Nat}
    (hfits : Fits (Validator.typeAccepts config) program.target depth
      program.root v)
    (hdenotes : Denotes text v) (hdistinct : v.Distinct) :
    (parse ⟨program, config⟩ text = .ok v ∨
      ∃ e, parse ⟨program, config⟩ text = .error e ∧
        e.reason = .depthExceeded config.maxDepth) ∧
    (depth + text.length ≤ config.maxDepth →
      parse ⟨program, config⟩ text = .ok v) := by
  obtain ⟨pos, hspells⟩ := denotes_iff.mp hdenotes
  constructor
  · have hread : Reaches (fun e => e.reason = .depthExceeded config.maxDepth)
        (node config program.target config.maxDepth program.root
          (.ofText text)) v (.finish pos) :=
      node_complete hfits hspells hdistinct (Or.inl fun _ => rfl)
    rcases hread with hyields | ⟨e, herror, he⟩
    · exact Or.inl (parse_eq_ok_iff.mpr ⟨pos, hyields⟩)
    · refine Or.inr ⟨e, ?_, he⟩
      simp only [parse, herror]
  · intro hlimit
    have hread : Reaches (fun _ => False)
        (node config program.target config.maxDepth program.root
          (.ofText text)) v (.finish pos) :=
      node_complete hfits hspells hdistinct
        (Or.inr (Nat.le_trans (Nat.add_le_add_left (size_ofText_le text) depth)
          hlimit))
    exact parse_eq_ok_iff.mpr ⟨pos, hread.yields⟩

/-- A parsed text is JSON in which no object repeats a name, the generic reader
reads it as the same value, and the validator accepts that value under the same
limit in both modes. -/
theorem parse_sound {schema : Value} (hschema : schema.Distinct)
    {program : Program} (hprogram : Program.ofValue schema = .ok program)
    (config : Config) {text : String} {v : Value}
    (h : parse ⟨program, config⟩ text = .ok v) :
    Denotes text v ∧ v.Distinct ∧ Value.ofText? text = some v ∧
      ∀ allErrors, Validator.validate ⟨program, { config with allErrors }⟩ v =
        .ok [] := by
  have hnamed := Program.wellNamed_of_ofValue hschema hprogram
  obtain ⟨pos, hyields⟩ := parse_eq_ok_iff.mp h
  obtain ⟨hreads, hfits⟩ := node_sound hnamed.target hnamed.root hyields
  have hdenotes : Denotes text v := denotes_iff.mpr ⟨pos, hreads.spells⟩
  refine ⟨hdenotes, hreads.distinct, ?_, fun allErrors => ?_⟩
  · exact Value.ofText?_eq_some_iff.mpr
      ⟨v, hdenotes, hreads.distinct.distinct_eq⟩
  · exact Validator.validate_eq_nil_iff_fits.mpr hfits

/-- The text of a chain of two links. -/
def shortChainText : String :=
  "\x7b\"id\":\"a\",\"next\":\x7b\"id\":\"b\"\x7d\x7d"

theorem denotes_shortChainText : Denotes shortChainText shortChain := by
  have hfloat : ∀ d, ¬ shortChain.HasFloat d := by simp [shortChain]
  exact denotes_write shortChain fun d hd => absurd hd (hfloat d)

theorem fits_shortChain (config : Config) :
    Fits (Validator.typeAccepts config) chainProgram.target 5 chainProgram.root
      shortChain := by
  have hvalid :
      Validator.validate ⟨chainProgram, { config with maxDepth := 5 }⟩
        shortChain = .ok [] := rfl
  exact Validator.validate_eq_nil_iff_fits.mp hvalid

theorem parse_sound_shortChain :
    parse ⟨chainProgram, { }⟩ shortChainText = .ok shortChain ∧
      Denotes shortChainText shortChain ∧ shortChain.Distinct ∧
      Value.ofText? shortChainText = some shortChain ∧
      ∀ allErrors, Validator.validate ⟨chainProgram, { allErrors }⟩ shortChain =
        .ok [] := by
  have hparse : parse ⟨chainProgram, { }⟩ shortChainText = .ok shortChain :=
    (parse_of_fits { } (fits_shortChain { }) denotes_shortChainText
      distinct_shortChain).2
      (by decide)
  exact ⟨hparse,
    parse_sound distinct_chainSchema ofValue_chainSchema { } hparse⟩

/-- Every JSON text without repeated names that the generic reader reads as a
valid value is parsed to that value, or fails for its depth alone; with a
greater limit it does not fail. -/
theorem parse_complete (program : Program) (config : Config) {text : String}
    {raw v : Value} (hraw : Denotes text raw) (hdistinct : raw.Distinct)
    (hread : Value.ofText? text = some v)
    (hvalid : Validator.validate ⟨program, config⟩ v = .ok []) :
    (parse ⟨program, config⟩ text = .ok v ∨
      ∃ e, parse ⟨program, config⟩ text = .error e ∧
        e.message = "maximum depth of " ++ toString config.maxDepth ++
          " exceeded") ∧
    ∃ limit, ∀ maxDepth, limit ≤ maxDepth →
      parse ⟨program, { config with maxDepth }⟩ text = .ok v := by
  obtain ⟨raw', hraw', rfl⟩ := Value.ofText?_eq_some_iff.mp hread
  obtain rfl := Value.denotes_unique hraw hraw'
  rw [hdistinct.distinct_eq] at hvalid ⊢
  have hfits := Validator.validate_eq_nil_iff_fits.mp hvalid
  refine ⟨?_, config.maxDepth + text.length, fun maxDepth hle => ?_⟩
  · rcases (parse_of_fits config hfits hraw hdistinct).1 with
        hok | ⟨e, herror, hreason⟩
    · exact Or.inl hok
    · refine Or.inr ⟨e, herror, ?_⟩
      rw [Failure.message, hreason]
      rfl
  · exact (parse_of_fits { config with maxDepth } hfits hraw hdistinct).2 hle

theorem parse_complete_shortChain :
    Validator.validate ⟨chainProgram, { maxDepth := 5 }⟩ shortChain = .ok [] ∧
    (parse ⟨chainProgram, { maxDepth := 5 }⟩ shortChainText = .ok shortChain ∨
      ∃ e, parse ⟨chainProgram, { maxDepth := 5 }⟩ shortChainText = .error e ∧
        e.message = "maximum depth of " ++ toString 5 ++ " exceeded") ∧
    ∃ limit, ∀ maxDepth, limit ≤ maxDepth →
      parse ⟨chainProgram, { maxDepth }⟩ shortChainText = .ok shortChain := by
  have hread : Value.ofText? shortChainText = some shortChain :=
    Value.ofText?_eq_some_iff.mpr
      ⟨shortChain, denotes_shortChainText, distinct_shortChain.distinct_eq⟩
  exact ⟨rfl, parse_complete chainProgram { maxDepth := 5 }
    denotes_shortChainText distinct_shortChain hread rfl⟩

end Parser
end JsonTypedef
