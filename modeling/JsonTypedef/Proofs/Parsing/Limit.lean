import JsonTypedef.Proofs.Decimal.ReadBack
import JsonTypedef.Proofs.Parsing.Depth
import JsonTypedef.Proofs.Serialization.Depth

/-!
# What the depth limit decides

A value that is read along a node does not exceed the depth that was left.
Hence the text of a valid value is refused for its depth exactly when the value
exceeds the limit.  Whatever the three back-ends decide under a limit they
decide in the same way under a greater one.
-/

namespace JsonTypedef
namespace Parsing

open Grammar Scanner Program

variable {config : Config}

section

variable {c : Cursor} {v : Value} {s : Stream}

theorem untypedWith_within {inner : Option (Scanner Failure Value)}
    {levels : Nat}
    (hinner : ∀ value ∈ inner, ∃ n, levels = n + 1 ∧
      ∀ c v s, Yields (value c) v s → Reads v c.stream s ∧ v.NestsWithin n)
    (h : Yields (untypedWith config inner c) v s) : v.NestsWithin levels := by
  have hscalar : ∀ v : Value, (∀ vs, v ≠ .arr vs) → (∀ ms, v ≠ .obj ms) →
      v.NestsWithin levels := by
    intro v harr hobj
    cases v with
    | arr vs => exact absurd rfl (harr vs)
    | obj ms => exact absurd rfl (hobj ms)
    | _ => cases levels <;> trivial
  obtain ⟨t, hok, rfl, -⟩ := h
  unfold untypedWith at hok
  split at hok
  next => cases hok; exact hscalar _ (by simp) (by simp)
  next => cases hok; exact hscalar _ (by simp) (by simp)
  next => cases hok; exact hscalar _ (by simp) (by simp)
  next => cases hok; exact hscalar _ (by simp) (by simp)
  next =>
    split at hok
    next => cases hok
    next value =>
      obtain ⟨n, rfl, hvalue⟩ := hinner value rfl
      obtain ⟨t', ht', rfl⟩ := exists_ok_of_map hok
      exact (items_sound hvalue ⟨t', ht', rfl, rfl⟩).2.2
  next =>
    split at hok
    next => cases hok
    next value =>
      obtain ⟨n, rfl, hvalue⟩ := hinner value rfl
      obtain ⟨t', ht', rfl⟩ := exists_ok_of_map hok
      exact (members_sound (fun _ _ => hvalue) ⟨t', ht', rfl, rfl⟩).2.2
  next => cases hok
  next => cases hok

theorem untyped_within {depth : Nat}
    (h : Yields (untyped config depth c) v s) : v.NestsWithin depth := by
  induction depth generalizing c v s with
  | zero => exact untypedWith_within (by simp) h
  | succ depth ih =>
      refine untypedWith_within ?_ h
      rintro value ⟨⟩
      exact ⟨depth, rfl, fun c v s hv => ⟨untyped_sound hv, ih hv⟩⟩

variable {node : Node → Scanner Failure Value} {other : Scanner Failure Value}
    {exceeds : Node → Value → Prop} {deep : Value → Prop}
    {target : Nat → Node} {p : Program.Properties} {tag : Option String}
    (hnode : ∀ n c v s, n.form.WellNamed → Yields (node n c) v s →
      Reads v c.stream s ∧ ¬ exceeds n v)
    (hother : ∀ c v s, Yields (other c) v s → Reads v c.stream s ∧ ¬ deep v)

include hnode hother

theorem memberValue_within (hp : ∀ m ∈ p.declared, m.2.form.WellNamed)
    {key : String} {pos : Nat}
    (h : Yields (memberValue node other p tag key pos c) v s) :
    Reads v c.stream s ∧
      (tag ≠ some key → ¬ MemberExceeds exceeds deep p (key, v)) := by
  unfold memberValue at h
  split at h
  next htag => exact ⟨(tagString_sound h).1, fun hne => absurd htag hne⟩
  next =>
    cases hmember : p.member? key with
    | some n =>
        simp only [hmember] at h
        have hn := hp _ (Properties.mem_of_member? hmember)
        obtain ⟨hreads, hwithin⟩ := hnode n c v s hn h
        refine ⟨hreads, fun _ hexceeds => hwithin ?_⟩
        exact (memberExceeds_of_some hmember).mp hexceeds
    | none =>
        simp only [hmember] at h
        split at h
        next =>
          obtain ⟨hreads, hwithin⟩ := hother c v s h
          refine ⟨hreads, fun _ hexceeds => hwithin ?_⟩
          exact (memberExceeds_of_none hmember).mp hexceeds
        next => exact absurd h not_yields_error

theorem properties_within (hp : ∀ m ∈ p.declared, m.2.form.WellNamed)
    (h : Yields (properties node other p tag c) v s) :
    ∃ ms, v = .obj ms ∧
      Contents streamFront .closeBrace
        (Member streamFront (Spells streamFront)) ms c.stream s ∧
      ∀ m ∈ ms, tag ≠ some m.1 → ¬ MemberExceeds exceeds deep p m := by
  unfold properties at h
  split at h
  next => exact absurd h not_yields_error
  next t ht =>
    split at h
    next => exact absurd h not_yields_error
    next =>
      obtain ⟨_, hok, rfl, rfl⟩ := h
      cases hok
      have hvalue : ∀ key pos c v s,
          Yields (memberValue node other p tag key pos c) v s →
          Reads v c.stream s ∧
            (tag ≠ some key → ¬ MemberExceeds exceeds deep p (key, v)) :=
        fun _ _ _ _ _ hv => memberValue_within hnode hother hp hv
      obtain ⟨hspells, -, hwithin⟩ :=
        members_sound hvalue ⟨t, ht, rfl, rfl⟩
      exact ⟨t.value, rfl, hspells, hwithin⟩

theorem discriminator_within {tag : String}
    {branches : List (String × Program.Branch)}
    (hform : (Program.Form.discriminator tag branches).WellNamed)
    (h : Yields (discriminator node other tag branches c) v s) :
    ¬ FormExceeds exceeds deep target (.discriminator tag branches) v := by
  cases hform with
  | discriminator _ hbranches =>
      unfold discriminator at h
      split at h
      next => exact absurd h not_yields_error
      next brace _ =>
        split at h
        next => exact absurd h not_yields_error
        next value pos hlook =>
          split at h
          next => exact absurd h not_yields_error
          next branch hbranch =>
            obtain ⟨v, hv, rfl⟩ :=
              h.of_map (f := id) (fun _ => rfl) fun _ => rfl
            have hnamed := hbranches _ (mem_of_lookup hbranch)
            obtain ⟨ms, rfl, hspells, hwithin⟩ :=
              properties_within hnode hother
                (fun m hm => hnamed.of_declared hm) hv
            have hget := (lookAhead_eq_ok_iff hspells).mp ⟨pos, hlook⟩
            rintro (_ | _ | _ | _ | _ | ⟨hget', hbranch', hm, hne, hexceeds⟩)
            rw [hget] at hget'
            cases hget'
            rw [hbranch] at hbranch'
            cases hbranch'
            apply hwithin _ hm _ hexceeds
            intro heq
            exact hne (Option.some.inj heq).symm

theorem form_within (htarget : ∀ i, (target i).form.WellNamed)
    {f : Program.Form} (hform : f.WellNamed)
    (h : Yields (form config target node other f c) v s) :
    ¬ FormExceeds exceeds deep target f v := by
  cases f with
  | empty =>
      rintro ⟨hdeep⟩
      exact (hother c v s h).2 hdeep
  | ref i =>
      rintro (_ | hexceeds)
      exact (hnode (target i) c v s (htarget i) h).2 hexceeds
  | type => nofun
  | enum => nofun
  | elements item =>
      cases hform with
      | elements hitem =>
          unfold form at h
          dsimp only at h
          split at h
          next => exact absurd h not_yields_error
          next bracket _ =>
            obtain ⟨vs, hvs, rfl⟩ :=
              h.of_map (f := .arr) (fun _ => rfl) fun _ => rfl
            obtain ⟨-, -, hwithin⟩ :=
              items_sound (fun c v s => hnode item c v s hitem) hvs
            rintro (_ | _ | ⟨hv, hexceeds⟩)
            exact hwithin _ hv hexceeds
  | values item =>
      cases hform with
      | values hitem =>
          unfold form at h
          dsimp only at h
          split at h
          next => exact absurd h not_yields_error
          next brace _ =>
            obtain ⟨ms, hms, rfl⟩ :=
              h.of_map (f := .obj) (fun _ => rfl) fun _ => rfl
            obtain ⟨-, -, hwithin⟩ :=
              members_sound (fun _ _ c v s => hnode item c v s hitem) hms
            rintro (_ | _ | _ | ⟨hm, hexceeds⟩)
            exact hwithin _ hm hexceeds
  | properties p =>
      unfold form at h
      dsimp only at h
      split at h
      next => exact absurd h not_yields_error
      next brace _ =>
        obtain ⟨v, hv, rfl⟩ := h.of_map (f := id) (fun _ => rfl) fun _ => rfl
        obtain ⟨ms, rfl, -, hwithin⟩ := properties_within hnode hother
          (fun m hm => hform.of_declared hm) hv
        rintro (_ | _ | _ | _ | ⟨hm, hexceeds⟩)
        exact hwithin _ hm (by simp) hexceeds
  | discriminator tag branches =>
      exact discriminator_within hnode hother hform h

end

/-- What is read along a node does not exceed the depth that was left. -/
theorem node_within {target : Nat → Node}
    (htarget : ∀ i, (target i).form.WellNamed) {depth : Nat} {n : Node}
    (hn : n.form.WellNamed) {c : Cursor} {v : Value} {s : Stream}
    (h : Yields (node config target depth n c) v s) :
    ¬ Exceeds target depth n v := by
  induction depth generalizing n c v s with
  | zero => exact absurd h not_yields_error
  | succ depth ih =>
      unfold node at h
      obtain ⟨v, hv, rfl⟩ := h.of_map (f := id) (fun _ => rfl) fun _ => rfl
      rintro ⟨hnull, hexceeds⟩
      rcases nullOr_sound hv with ⟨hnullable, rfl, -⟩ | hform
      · exact hnull hnullable
      · refine form_within (fun n c v s hn h => ?_) (fun c v s h => ?_)
          htarget hn hform hexceeds
        · exact ⟨(node_sound htarget hn h).1, ih hn h⟩
        · exact ⟨untyped_sound h, not_not_intro (untyped_within h)⟩

end Parsing

namespace Parser

open Grammar Scanner Parsing Program

variable {program : Program} {config : Config} {text : String} {v : Value}

/-- Under a greater limit a text is parsed in the same way, unless the parse met
the lower limit; the value is then one that exceeds it. -/
theorem parse_settles (hnamed : program.WellNamed) {limit : Nat}
    (hle : config.maxDepth ≤ limit) (text : String) :
    parse ⟨program, { config with maxDepth := limit }⟩ text =
        parse ⟨program, config⟩ text ∨
      (∃ e, parse ⟨program, config⟩ text = .error e ∧ e.IsDepth) ∧
        ∀ v, parse ⟨program, { config with maxDepth := limit }⟩ text = .ok v →
          Exceeds program.target config.maxDepth program.root v := by
  have hnode :
      Settles (Exceeds program.target config.maxDepth program.root)
        (node config program.target config.maxDepth program.root
          (.ofText text))
        (node { config with maxDepth := limit } program.target limit
          program.root (.ofText text)) :=
    node_settles hnamed.target hle hnamed.root (.ofText text)
  rcases hnode with heq | ⟨⟨e, herror, he⟩, hdeep⟩
  · left
    unfold parse
    dsimp only
    rw [heq]
  · right
    constructor
    · refine ⟨e, ?_, he⟩
      simp only [parse, herror]
    · intro v hv
      obtain ⟨pos, t, ht, rfl, -⟩ := parse_eq_ok_iff.mp hv
      exact hdeep t ht

/-- What spells a value that fits is read along the root to the value, unless
the value exceeds the limit. -/
theorem yields_of_not_exceeds (hnamed : program.WellNamed) {depth : Nat}
    (hfits : Fits (Validator.typeAccepts config) program.target depth
      program.root v) {c : Cursor} {s : Stream}
    (hspells : Spells streamFront v c.stream s) (hdistinct : v.Distinct)
    (h : ¬ Exceeds program.target config.maxDepth program.root v) :
    Yields (node config program.target config.maxDepth program.root c) v s := by
  let limit := config.maxDepth + (depth + c.size)
  have hread : Reaches (fun _ => False)
      (node { config with maxDepth := limit } program.target limit program.root
        c) v s :=
    node_complete hfits hspells hdistinct (Or.inr (Nat.le_add_left _ _))
  have hgreat := hread.yields
  have hsettles :
      Settles (Exceeds program.target config.maxDepth program.root)
        (node config program.target config.maxDepth program.root c)
        (node { config with maxDepth := limit } program.target limit
          program.root c) :=
    node_settles hnamed.target (Nat.le_add_right _ _) hnamed.root c
  rcases hsettles with heq | ⟨-, hdeep⟩
  · rwa [heq] at hgreat
  · obtain ⟨t, ht, rfl, -⟩ := hgreat
    exact absurd (hdeep t ht) h

/-- A text of a valid value is parsed to it, unless the value exceeds the
limit. -/
theorem parse_eq_ok_of_not_exceeds (hnamed : program.WellNamed)
    (hdenotes : Denotes text v) (hdistinct : v.Distinct)
    (hvalid : Validator.validate ⟨program, config⟩ v = .ok [])
    (h : ¬ Exceeds program.target config.maxDepth program.root v) :
    parse ⟨program, config⟩ text = .ok v := by
  have hfits := Validator.validate_eq_nil_iff_fits.mp hvalid
  obtain ⟨pos, hspells⟩ := denotes_iff.mp hdenotes
  exact parse_eq_ok_iff.mpr
    ⟨pos, yields_of_not_exceeds hnamed hfits hspells hdistinct h⟩

/-- A text of a valid value that exceeds the limit is refused for its depth. -/
theorem parse_eq_error_of_exceeds (hnamed : program.WellNamed)
    (hdenotes : Denotes text v) (hdistinct : v.Distinct)
    (hvalid : Validator.validate ⟨program, config⟩ v = .ok [])
    (h : Exceeds program.target config.maxDepth program.root v) :
    ∃ e, parse ⟨program, config⟩ text = .error e ∧
      e.reason = .depthExceeded config.maxDepth := by
  have hfits := Validator.validate_eq_nil_iff_fits.mp hvalid
  rcases (parse_of_fits config hfits hdenotes hdistinct).1 with hok | herror
  · obtain ⟨pos, hyields⟩ := parse_eq_ok_iff.mp hok
    exact absurd h (node_within hnamed.target hnamed.root hyields)
  · exact herror

/-- The compact text of a valid value is refused for its depth exactly when the
value, the containers counted that no node describes, exceeds the limit; else it
is parsed to the value. -/
theorem parse_write_iff_exceeds {schema : Value} (hschema : schema.Distinct)
    {program : Program} (hprogram : Program.ofValue schema = .ok program)
    (config : Config) {v : Value} (hdistinct : v.Distinct)
    (hvalid : Validator.validate ⟨program, config⟩ v = .ok []) :
    ((∃ e, parse ⟨program, config⟩ v.write = .error e ∧
        e.reason = .depthExceeded config.maxDepth) ↔
      Exceeds program.target config.maxDepth program.root v) ∧
    (¬ Exceeds program.target config.maxDepth program.root v →
      parse ⟨program, config⟩ v.write = .ok v) := by
  have hnamed := Program.wellNamed_of_ofValue hschema hprogram
  have hdenotes := v.denotes_write
  have hok := parse_eq_ok_of_not_exceeds hnamed hdenotes hdistinct hvalid
  refine ⟨⟨?_, ?_⟩, hok⟩
  · rintro ⟨e, herror, -⟩
    by_contra hnot
    rw [hok hnot] at herror
    cases herror
  · exact parse_eq_error_of_exceeds hnamed hdenotes hdistinct hvalid

/-- The program of the schema that accepts every value. -/
def anyProgram : Program :=
  ⟨Digest.ofSchema (.obj []), ⟨⟨false, none, .empty⟩, []⟩,
    ⟨false, .root, .empty⟩, []⟩

theorem ofValue_anySchema : Program.ofValue (.obj []) = .ok anyProgram := by
  have hdocument : Document.ofValue (.obj []) = .ok anyProgram.document := by
    have hunsorted : Document.ofValue (.obj []) = .ok ⟨⟨false, none, .empty⟩,
      List.mergeSort [] fun a b => a.1 ≤ b.1⟩ := rfl
    rw [hunsorted, List.mergeSort_nil]
    rfl
  unfold ofValue
  rw [hdocument]
  rfl

theorem distinct_anySchema : (Value.obj []).Distinct :=
  Value.distinct_distinct (.obj [])

theorem exceeds_emptyArray :
    Exceeds anyProgram.target 1 anyProgram.root (.arr []) :=
  ⟨by decide, .empty fun h => h⟩

theorem parse_write_iff_exceeds_emptyArray :
    Exceeds anyProgram.target 1 anyProgram.root (.arr []) ∧
    ∃ e, parse ⟨anyProgram, { maxDepth := 1 }⟩ (Value.arr []).write =
        .error e ∧ e.reason = .depthExceeded 1 := by
  refine ⟨exceeds_emptyArray, ?_⟩
  exact (parse_write_iff_exceeds distinct_anySchema ofValue_anySchema
    { maxDepth := 1 } (Value.distinct_distinct (.arr [])) rfl).1.mpr
      exceeds_emptyArray

/-- An array that no node describes is valid under a limit that its text
meets. -/
theorem parse_write_emptyArray_eq_error :
    Program.ofValue (.obj []) = .ok anyProgram ∧
    Validator.validate ⟨anyProgram, { maxDepth := 1 }⟩ (.arr []) = .ok [] ∧
    ∃ e, parse ⟨anyProgram, { maxDepth := 1 }⟩ (Value.arr []).write =
        .error e ∧ e.message = "maximum depth of 1 exceeded" := by
  refine ⟨ofValue_anySchema, rfl, ?_⟩
  have hnamed := wellNamed_of_ofValue distinct_anySchema ofValue_anySchema
  have hparse : ∃ e, parse ⟨anyProgram, { maxDepth := 1 }⟩
      (Value.arr []).write = .error e ∧ e.reason = .depthExceeded 1 :=
    parse_eq_error_of_exceeds hnamed (Value.arr []).denotes_write
      (Value.distinct_distinct (.arr [])) rfl exceeds_emptyArray
  obtain ⟨e, herror, hreason⟩ := hparse
  refine ⟨e, herror, ?_⟩
  rw [Failure.message, hreason]
  rfl

end Parser

namespace Program

/-- An outcome that a back-end decides under a limit is the outcome under every
greater limit: what the validator finds in either mode, the text that the
serializer writes, and the value or failure of a parse. -/
theorem outcomes_mono {schema : Value} (hschema : schema.Distinct)
    {program : Program} (hprogram : Program.ofValue schema = .ok program)
    (config : Config) {limit : Nat} (hle : config.maxDepth ≤ limit) :
    (∀ allErrors v vs,
      Validator.validate ⟨program, { config with allErrors }⟩ v = .ok vs →
        Validator.validate
          ⟨program, { config with allErrors, maxDepth := limit }⟩ v =
            .ok vs) ∧
    (∀ v text, Serializer.serialize ⟨program, config⟩ v = .ok text →
      Serializer.serialize ⟨program, { config with maxDepth := limit }⟩ v =
        .ok text) ∧
    ∀ text,
      (∀ e, Parser.parse ⟨program, config⟩ text = .error e → ¬ e.IsDepth) →
        Parser.parse ⟨program, { config with maxDepth := limit }⟩ text =
          Parser.parse ⟨program, config⟩ text := by
  refine ⟨?_, ?_, ?_⟩
  · intro allErrors v vs h
    exact Validator.validate_mono h hle
  · intro v text h
    exact Serializer.serialize_mono h hle
  · intro text h
    have hnamed := wellNamed_of_ofValue hschema hprogram
    rcases Parser.parse_settles hnamed hle text with
      heq | ⟨⟨e, herror, he⟩, -⟩
    · exact heq
    · exact absurd he (h e herror)

theorem outcomes_mono_shortChain :
    Validator.validate ⟨chainProgram, { maxDepth := 300 }⟩ shortChain =
      .ok [] ∧
    Parser.parse ⟨chainProgram, { maxDepth := 300 }⟩ Parser.shortChainText =
      .ok shortChain := by
  have hparse : Parser.parse ⟨chainProgram, { }⟩ Parser.shortChainText =
      .ok shortChain :=
    (Parser.parse_of_fits { } (Parser.fits_shortChain { })
      Parser.denotes_shortChainText distinct_shortChain).2 (by decide)
  have hle : ({ } : Config).maxDepth ≤ 300 := by decide
  obtain ⟨hvalidate, -, hparses⟩ :=
    outcomes_mono distinct_chainSchema ofValue_chainSchema { } hle
  refine ⟨hvalidate false shortChain [] rfl, ?_⟩
  rw [← hparse]
  apply hparses
  intro e herror
  rw [hparse] at herror
  cases herror

end Program
end JsonTypedef
