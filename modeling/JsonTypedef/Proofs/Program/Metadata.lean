import JsonTypedef.Parsing.Parser
import JsonTypedef.Proofs.Program.Coherent
import JsonTypedef.Proofs.Schema.Metadata
import JsonTypedef.Serialization

/-!
# Metadata does not reach programs

Schema documents that differ in the metadata of their nodes alone are refused
with one error, or they have programs with the same units, on which all
back-ends agree.
-/

namespace JsonTypedef

/-- A document without the metadata of its schemas. -/
def Document.bare (document : Document) : Document :=
  ⟨document.root.bare, Schema.bareTable document.definitions⟩

namespace Document

theorem definitionsOf_bareKeywords {ms : Members}
    (hms : (Value.obj ms).Distinct) :
    definitionsOf (Value.bareKeywords ms) =
      (definitionsOf ms).map fun d => (d.1, Schema.bareTable d.2) := by
  have hget : Members.get? (Value.bareKeywords ms) "definitions" =
      (Members.get? ms "definitions").map Value.bareTable :=
    Schema.get?_bareKeywords_table (by decide)
  have hbare : ∀ names, ∀ e ∈ ms.table "definitions",
      Schema.ChecksBare names e.2 :=
    fun _ e he => Schema.check_bare (hms.of_mem_table he)
  unfold definitionsOf
  rw [hget]
  cases hdefinitions : Members.get? ms "definitions" with
  | none => rfl
  | some v =>
      cases v with
      | obj entries =>
          rw [Members.table_of_get? hdefinitions] at hbare
          simp only [Option.map_some, Value.bareTable, Value.keys_bareEntries,
            Schema.checkEntries_bareEntries (hbare _)]
          cases Schema.checkEntries (Members.keys entries)
              (Pointer.root.child "definitions") entries with
          | error e => rfl
          | ok table => rfl
      | _ => rfl

theorem bareTable_mergeSort (table : List (String × Schema)) :
    Schema.bareTable (table.mergeSort fun a b => a.1 ≤ b.1) =
      (Schema.bareTable table).mergeSort fun a b => a.1 ≤ b.1 := by
  rw [Schema.bareTable_eq_map, Schema.bareTable_eq_map]
  exact List.map_mergeSort fun _ _ _ _ => rfl

/-- Taking the metadata of a document away and checking the document come to the
same in either order. -/
theorem ofValue_bare {d : Value} (hd : d.Distinct) :
    ofValue d.bare = (ofValue d).map bare := by
  cases d with
  | obj ms =>
      have hroot : ∀ names,
          Schema.check names true .root (.obj (Value.bareKeywords ms)) =
            (Schema.check names true .root (.obj ms)).map Schema.bare :=
        fun _ => Schema.check_bare hd true .root
      simp only [Value.bare, ofValue, definitionsOf_bareKeywords hd, hroot]
      cases definitionsOf ms with
      | error e => rfl
      | ok d =>
          simp only [Except.map, bind, Except.bind]
          cases Schema.check d.1 true .root (.obj ms) with
          | error e => rfl
          | ok root => simp only [bare, bareTable_mergeSort]
  | _ => rfl

end Document

namespace Program

variable {names : List String}

mutual

theorem compile_bare (path : Pointer) :
    ∀ s : Schema, compile names path s.bare = compile names path s
  | ⟨nullable, metadata, form⟩ => by
      rw [Schema.bare, compile, compile, compileForm_bare path form]

theorem compileForm_bare (path : Pointer) :
    ∀ f : JsonTypedef.Form,
      compileForm names path f.bare = compileForm names path f
  | .elements item => by
      rw [Form.bare, compileForm, compileForm, compile_bare _ item]
  | .values item => by
      rw [Form.bare, compileForm, compileForm, compile_bare _ item]
  | .properties p => by
      rw [Form.bare, compileForm, compileForm, compileProperties_bare path p]
  | .discriminator tag mapping => by
      rw [Form.bare, compileForm, compileForm, compileBranches_bare _ mapping]
  | .empty => rfl
  | .ref _ => rfl
  | .type _ => rfl
  | .enum _ => rfl

theorem compileProperties_bare (path : Pointer) :
    ∀ p : JsonTypedef.Properties,
      compileProperties names path p.bare = compileProperties names path p
  | ⟨required, optional, _, _⟩ => by
      rw [Properties.bare, compileProperties, compileProperties,
        compileMembers_bare _ required, compileMembers_bare _ optional]

theorem compileMembers_bare (base : Pointer) :
    ∀ members : List (String × Schema),
      compileMembers names base (Schema.bareTable members) =
        compileMembers names base members
  | [] => rfl
  | (name, s) :: members => by
      rw [Schema.bareTable, compileMembers, compileMembers, compile_bare _ s,
        compileMembers_bare base members]

theorem compileBranches_bare (base : Pointer) :
    ∀ mapping : List (String × JsonTypedef.Branch),
      compileBranches names base (Branch.bareMapping mapping) =
        compileBranches names base mapping
  | [] => rfl
  | (value, ⟨_, p⟩) :: mapping => by
      rw [Branch.bareMapping, compileBranches, compileBranches,
        compileProperties_bare _ p, compileBranches_bare base mapping]

end

/-- A document and the document without its metadata have the same nodes. -/
theorem ofDocument_bare (document : Document) (digest digest' : Digest) :
    ofDocument document.bare digest' = (ofDocument document digest).map
      fun p => ⟨digest', document.bare, p.root, p.definitions⟩ := by
  have hnames : (Schema.bareTable document.definitions).map Prod.fst =
      document.definitions.map Prod.fst := by
    rw [Schema.bareTable_eq_map, List.map_map]
    rfl
  simp only [ofDocument, Document.bare, hnames, compile_bare,
    compileMembers_bare]
  cases compile (document.definitions.map Prod.fst) .root document.root with
  | error e => rfl
  | ok root =>
      cases compileMembers (document.definitions.map Prod.fst)
          (Pointer.root.child "definitions") document.definitions with
      | error e => rfl
      | ok definitions => rfl

/-! ## Runs -/

/-- All back-ends give the same along both programs, under every
configuration. -/
structure RunAlike (p q : Program) : Prop where
  validate : ∀ config v,
    Validator.validate ⟨p, config⟩ v = Validator.validate ⟨q, config⟩ v
  isValid : ∀ config v,
    Validator.isValid ⟨p, config⟩ v = Validator.isValid ⟨q, config⟩ v
  serialize : ∀ config v,
    Serializer.serialize ⟨p, config⟩ v = Serializer.serialize ⟨q, config⟩ v
  serializeInto : ∀ config buffer v,
    Serializer.serializeInto ⟨p, config⟩ buffer v =
      Serializer.serializeInto ⟨q, config⟩ buffer v
  parse : ∀ config text,
    Parser.parse ⟨p, config⟩ text = Parser.parse ⟨q, config⟩ text

/-- Runs read the nodes of a program, neither its document nor its digest. -/
theorem runAlike_of_nodes_eq {p q : Program} (hroot : p.root = q.root)
    (hdefinitions : p.definitions = q.definitions) : p.RunAlike q := by
  obtain ⟨digest, document, root, definitions⟩ := p
  obtain ⟨digest', document', root', definitions'⟩ := q
  obtain rfl : root = root' := hroot
  obtain rfl : definitions = definitions' := hdefinitions
  constructor
  all_goals
    intros
    rfl

/-- Documents that are alike but for the metadata of their nodes are refused
with one error, or both have programs, whose units are the same. -/
theorem runAlike_of_bare_eq {d d' : Value} (hd : d.Distinct) (hd' : d'.Distinct)
    (h : d.bare = d'.bare) :
    (∃ e, Document.ofValue d = .error e ∧ Document.ofValue d' = .error e) ∨
      ∃ program program', ofValue d = .ok program ∧ ofValue d' = .ok program' ∧
        program.units = program'.units ∧ program.RunAlike program' := by
  have hbare : (Document.ofValue d).map Document.bare =
      (Document.ofValue d').map Document.bare := by
    rw [← Document.ofValue_bare hd, ← Document.ofValue_bare hd', h]
  rcases cases_of_map_eq_map hbare with
    hrefused | ⟨document, document', hdocument, hdocument', hbare⟩
  · exact Or.inl hrefused
  · obtain ⟨program, hprogram, -⟩ :=
      exists_ofDocument hd hdocument (Digest.ofSchema d)
    obtain ⟨program', hprogram', -⟩ :=
      exists_ofDocument hd' hdocument' (Digest.ofSchema d')
    have hnodes := ofDocument_bare document (Digest.ofSchema d) ⟨[]⟩
    have hnodes' := ofDocument_bare document' (Digest.ofSchema d') ⟨[]⟩
    rw [hprogram, hbare] at hnodes
    rw [hprogram', hnodes] at hnodes'
    obtain ⟨-, -, hroot, hdefinitions⟩ := Program.mk.inj (Except.ok.inj hnodes')
    refine Or.inr ⟨program, program', ?_, ?_, ?_,
      runAlike_of_nodes_eq hroot hdefinitions⟩
    · exact bind_eq_ok_iff.mpr ⟨document, hdocument, hprogram⟩
    · exact bind_eq_ok_iff.mpr ⟨document', hdocument', hprogram'⟩
    · rw [units, units, hroot, hdefinitions]

/-- The schema of chains with metadata on some nodes. -/
def annotatedChainSchema : Value :=
  .obj [("metadata", .obj [("ref", .null)]),
    ("definitions", .obj [("link", .obj [
      ("properties", .obj [("id", .obj [("type", .str "string"),
        ("metadata", .obj [])])]),
      ("metadata", .obj [("properties", .obj [("id", .obj [])])]),
      ("optionalProperties", .obj [("next", .obj [("ref", .str "link")]),
        ("weight", .obj [("type", .str "float64")])])])]),
    ("ref", .str "link")]

theorem runAlike_of_bare_eq_chainSchema :
    annotatedChainSchema.Distinct ∧ chainSchema.Distinct ∧
      annotatedChainSchema.bare = chainSchema.bare ∧
      ∃ program, ofValue annotatedChainSchema = .ok program ∧
        program.units = chainProgram.units := by
  have hdistinct : annotatedChainSchema.Distinct :=
    Value.distinct_distinct annotatedChainSchema
  refine ⟨hdistinct, distinct_chainSchema, rfl, ?_⟩
  rcases runAlike_of_bare_eq hdistinct distinct_chainSchema rfl with
    ⟨e, -, he⟩ | ⟨program, program', hprogram, hprogram', hunits, -⟩
  · rw [document_chainSchema] at he
    cases he
  · rw [ofValue_chainSchema] at hprogram'
    cases hprogram'
    exact ⟨program, hprogram, hunits⟩

end Program
end JsonTypedef
