import JsonTypedef.Proofs.Parsing.Limit
import JsonTypedef.Proofs.Validation.Location

/-!
# More lenient options

Options are relaxed by turning the range check of the 32-bit types off and by
accepting bare dates.  A validator that looks for all violations then goes the
same way through a value and finds some of the violations that it found before,
in the same order.  What a parser reads stays what it reads.
-/

namespace JsonTypedef

/-- The second options are at least as lenient as the first, the depth limit
being the same. -/
structure Config.RelaxedTo (config lenient : Config) : Prop where
  maxDepth : lenient.maxDepth = config.maxDepth
  int32Range : lenient.int32Range = true → config.int32Range = true
  allowDate : config.allowDate = true → lenient.allowDate = true

/-! ## Primitive values -/

theorem TypeKind.acceptsNumber_relaxed {kind : TypeKind} {wide wide' : Bool}
    (hwide : wide' = true → wide = true) {n : Number}
    (h : kind.acceptsNumber wide n = true) :
    kind.acceptsNumber wide' n = true := by
  unfold acceptsNumber at h ⊢
  split
  next hbounds => rwa [hbounds] at h
  next low high hbounds =>
    simp only [hbounds, Bool.and_eq_true, Bool.or_eq_true, Bool.not_eq_true']
      at h ⊢
    obtain ⟨hintegral, hrange⟩ := h
    refine ⟨hintegral, hrange.imp_left fun ⟨hoff, hkind⟩ => ⟨?_, hkind⟩⟩
    by_contra hon
    exact Bool.false_ne_true
      (hoff.symm.trans (hwide (Bool.not_eq_false _ ▸ hon)))

theorem Timestamp.accepts_relaxed {allow allow' : Bool}
    (hallow : allow = true → allow' = true) {s : String}
    (h : accepts allow s = true) : accepts allow' s = true := by
  unfold accepts at h ⊢
  simp only [Bool.or_eq_true, Bool.and_eq_true] at h ⊢
  exact h.imp_right fun ⟨⟨hbare, hlength⟩, hdate⟩ =>
    ⟨⟨hallow hbare, hlength⟩, hdate⟩

namespace Validator

variable {config lenient : Config}

/-- What a type admits it admits under more lenient options. -/
theorem typeAccepts_relaxed (h : config.RelaxedTo lenient) {kind : TypeKind}
    {v : Value} (haccepts : typeAccepts config kind v = true) :
    typeAccepts lenient kind v = true := by
  cases v with
  | bool b => exact haccepts
  | str s =>
      simp only [typeAccepts, Bool.or_eq_true, Bool.and_eq_true] at haccepts ⊢
      exact haccepts.imp_right fun ⟨hkind, hs⟩ =>
        ⟨hkind, Timestamp.accepts_relaxed h.allowDate hs⟩
  | num n => exact TypeKind.acceptsNumber_relaxed h.int32Range haccepts
  | _ => exact haccepts

end Validator

/-! ## Runs that look for all violations -/

namespace Outcome

/-- The second run halts where the first does, having found some of its
violations. -/
structure Loses (a b : Outcome) : Prop where
  halt : b.halt = a.halt
  violations : b.violations.Sublist a.violations

theorem Loses.refl (a : Outcome) : Loses a a :=
  ⟨rfl, .refl _⟩

theorem Loses.andThen {a a' : Outcome} {b b' : Unit → Outcome}
    (ha : Loses a a') (hb : Loses (b ()) (b' ())) :
    Loses (a.andThen b) (a'.andThen b') := by
  unfold Outcome.andThen
  rw [ha.halt]
  split
  next => exact ha
  next => exact ⟨hb.halt, ha.violations.append hb.violations⟩

/-- A check that succeeds in the second run alone loses its violation; neither
run halts at it, as all violations are looked for. -/
theorem check_loses (config lenient : Config) {condition condition' : Bool}
    (h : condition = true → condition' = true) (place keyword : Pointer) :
    Loses
      (Validator.check { config with allErrors := true } condition place
        keyword)
      (Validator.check { lenient with allErrors := true } condition' place
        keyword) := by
  cases condition with
  | true =>
      rw [h rfl]
      exact .refl _
  | false =>
      cases condition' with
      | true => exact ⟨rfl, List.nil_sublist _⟩
      | false => exact .refl _

theorem linked_loses {config lenient : Config}
    (h : config.RelaxedTo lenient) :
    Linked { config with allErrors := true } { lenient with allErrors := true }
      Loses where
  admits _ _ := check_loses config lenient (Validator.typeAccepts_relaxed h)
  accepted := .refl _
  reject _ _ := .refl _
  andThen := Loses.andThen

end Outcome

namespace Validator

open Outcome

variable {program : Program} {config lenient : Config}

theorem run_loses (h : config.RelaxedTo lenient) (v : Value) :
    Loses (run ⟨program, { config with allErrors := true }⟩ v)
      (run ⟨program, { lenient with allErrors := true }⟩ v) := by
  refine node_linked (linked_loses h) (fun n place v => ?_)
    (Nat.le_of_eq h.maxDepth.symm) program.root .root v
  rw [h.maxDepth, Nat.sub_self]
  exact .refl _

/-- A run that looks for all violations meets the depth limit under both options
or under neither. -/
theorem validate_eq_error_iff_relaxed (h : config.RelaxedTo lenient) (v : Value)
    (e : DepthExceeded) :
    validate ⟨program, { lenient with allErrors := true }⟩ v = .error e ↔
      validate ⟨program, { config with allErrors := true }⟩ v = .error e := by
  unfold validate
  dsimp only
  rw [(run_loses h v).halt, h.maxDepth]
  split
  next => exact .rfl
  next => simp

/-- Where the limit is not met, the violations are some of those before. -/
theorem validate_sublist (h : config.RelaxedTo lenient) {v : Value}
    {vs : List Violation}
    (hvs : validate ⟨program, { config with allErrors := true }⟩ v = .ok vs) :
    ∃ vs', validate ⟨program, { lenient with allErrors := true }⟩ v = .ok vs' ∧
      vs'.Sublist vs := by
  have hloses : Loses (run ⟨program, { config with allErrors := true }⟩ v)
      (run ⟨program, { lenient with allErrors := true }⟩ v) := run_loses h v
  obtain ⟨rfl, hhalt⟩ := violations_of_validate hvs
  refine ⟨_, ?_, hloses.violations⟩
  unfold validate
  dsimp only
  split
  next hdepth => exact absurd (hloses.halt.symm.trans hdepth) hhalt
  next => rfl

/-- What is valid stays valid. -/
theorem validate_eq_nil_relaxed (h : config.RelaxedTo lenient) {v : Value}
    (hvalid : validate ⟨program, config⟩ v = .ok []) :
    validate ⟨program, lenient⟩ v = .ok [] := by
  have hfits : Program.Fits (typeAccepts config) program.target config.maxDepth
      program.root v := validate_eq_nil_iff_fits.mp hvalid
  obtain ⟨vs, hvs, hsublist⟩ :=
    validate_sublist h (validate_eq_nil_iff_fits.mpr hfits)
  rw [List.eq_nil_of_sublist_nil hsublist] at hvs
  have hlenient : Program.Fits (typeAccepts lenient) program.target
      lenient.maxDepth program.root v := validate_eq_nil_iff_fits.mp hvs
  exact validate_eq_nil_iff_fits.mpr hlenient

end Validator

/-! ## Parses -/

/-- A text that is parsed is parsed to the same value: whether the value exceeds
the depth limit does not depend on the other options. -/
theorem Parser.parse_relaxed {schema : Value} (hschema : schema.Distinct)
    {program : Program} (hprogram : Program.ofValue schema = .ok program)
    {config lenient : Config} (h : config.RelaxedTo lenient) {text : String}
    {v : Value} (hparse : parse ⟨program, config⟩ text = .ok v) :
    parse ⟨program, lenient⟩ text = .ok v := by
  have hnamed := Program.wellNamed_of_ofValue hschema hprogram
  obtain ⟨hdenotes, hdistinct, -, hvalid⟩ :=
    parse_sound hschema hprogram config hparse
  have hlenient : Validator.validate ⟨program, lenient⟩ v = .ok [] :=
    Validator.validate_eq_nil_relaxed h (hvalid config.allErrors)
  obtain ⟨pos, hyields⟩ := parse_eq_ok_iff.mp hparse
  have hwithin := Parsing.node_within hnamed.target hnamed.root hyields
  rw [← h.maxDepth] at hwithin
  exact parse_eq_ok_of_not_exceeds hnamed hdenotes hdistinct hlenient hwithin

namespace Program

/-- Relaxing the options only takes violations away: looking for all of them
fails for its depth as before, or finds some of those found before in the same
order, and every text that was parsed is parsed to the same value. -/
theorem outcomes_relaxed {schema : Value} (hschema : schema.Distinct)
    {program : Program} (hprogram : ofValue schema = .ok program)
    {config lenient : Config} (h : config.RelaxedTo lenient) :
    (∀ v e,
      Validator.validate ⟨program, { lenient with allErrors := true }⟩ v =
          .error e ↔
        Validator.validate ⟨program, { config with allErrors := true }⟩ v =
          .error e) ∧
    (∀ v vs,
      Validator.validate ⟨program, { config with allErrors := true }⟩ v =
          .ok vs →
        ∃ vs',
          Validator.validate ⟨program, { lenient with allErrors := true }⟩ v =
            .ok vs' ∧ vs'.Sublist vs) ∧
    ∀ text v, Parser.parse ⟨program, config⟩ text = .ok v →
      Parser.parse ⟨program, lenient⟩ text = .ok v :=
  ⟨fun v e => Validator.validate_eq_error_iff_relaxed h v e,
    fun _ _ => Validator.validate_sublist h,
    fun _ _ => Parser.parse_relaxed hschema hprogram h⟩

/-- A schema of events with a time and a count. -/
def eventSchema : Value :=
  .obj [("properties", .obj [("at", .obj [("type", .str "timestamp")]),
    ("count", .obj [("type", .str "int32")])])]

/-- The program of events. -/
def eventProgram : Program :=
  ⟨Digest.ofSchema eventSchema,
    ⟨⟨false, none, .properties ⟨[("at", ⟨false, none, .type .timestamp⟩),
      ("count", ⟨false, none, .type .int32⟩)], [], false, true⟩⟩, []⟩,
    ⟨false, .root, .properties
      ⟨[("at", ⟨false, ⟨["properties", "at"]⟩, .type .timestamp⟩),
        ("count", ⟨false, ⟨["properties", "count"]⟩, .type .int32⟩)], [],
        false, "properties"⟩⟩, []⟩

theorem ofValue_eventSchema : ofValue eventSchema = .ok eventProgram := by
  have hdocument :
      Document.ofValue eventSchema = .ok eventProgram.document := by
    have hunsorted : Document.ofValue eventSchema =
      .ok ⟨eventProgram.document.root,
        List.mergeSort [] fun a b => a.1 ≤ b.1⟩ := rfl
    rw [hunsorted, List.mergeSort_nil]
    rfl
  unfold ofValue
  rw [hdocument]
  rfl

/-- An event whose time is a bare date and whose count is missing. -/
def datedEvent : Value :=
  .obj [("at", .str "2020-02-29"), ("count", .null)]

/-- An event that is valid under the default options. -/
def timedEvent : Value :=
  .obj [("count", .num (.int 1 rfl)), ("at", .str "2020-02-29T23:59:60Z")]

theorem outcomes_relaxed_datedEvent :
    Config.RelaxedTo { } { int32Range := false, allowDate := true } ∧
    (∃ x y,
      Validator.validate ⟨eventProgram, { allErrors := true }⟩ datedEvent =
        .ok [x, y] ∧
      Validator.validate ⟨eventProgram,
          { allErrors := true, int32Range := false, allowDate := true }⟩
        datedEvent = .ok [y] ∧
      [y].Sublist [x, y]) ∧
    Parser.parse ⟨eventProgram, { }⟩ timedEvent.write = .ok timedEvent ∧
    Parser.parse ⟨eventProgram, { int32Range := false, allowDate := true }⟩
      timedEvent.write = .ok timedEvent := by
  have hrelaxed : Config.RelaxedTo { }
      { int32Range := false, allowDate := true } :=
    ⟨rfl, by decide, by decide⟩
  have hstrict : Validator.validate ⟨eventProgram, { allErrors := true }⟩
      datedEvent = .ok [⟨⟨["at"]⟩, ⟨["properties", "at", "type"]⟩⟩,
        ⟨⟨["count"]⟩, ⟨["properties", "count", "type"]⟩⟩] := rfl
  have hvalid : Validator.validate ⟨eventProgram, { maxDepth := 2 }⟩
      timedEvent = .ok [] := by decide +kernel
  have hfits : Fits (Validator.typeAccepts { }) eventProgram.target 2
      eventProgram.root timedEvent :=
    Validator.validate_eq_nil_iff_fits.mp hvalid
  have hparse : Parser.parse ⟨eventProgram, { }⟩ timedEvent.write =
      .ok timedEvent :=
    (Parser.parse_of_fits { } hfits timedEvent.denotes_write
      (Value.distinct_distinct timedEvent)).2 (by decide +kernel)
  obtain ⟨-, hviolations, hparses⟩ :=
    outcomes_relaxed (Value.distinct_distinct eventSchema) ofValue_eventSchema
      hrelaxed
  obtain ⟨vs, hvs, hsublist⟩ := hviolations datedEvent _ hstrict
  have hlenient : Validator.validate ⟨eventProgram,
      { allErrors := true, int32Range := false, allowDate := true }⟩
      datedEvent = .ok [⟨⟨["count"]⟩, ⟨["properties", "count", "type"]⟩⟩] := rfl
  cases hlenient.symm.trans hvs
  exact ⟨hrelaxed, ⟨_, _, hstrict, hlenient, hsublist⟩, hparse,
    hparses _ _ hparse⟩

end Program
end JsonTypedef
