import JsonTypedef.Proofs.Program.Located
import JsonTypedef.Proofs.Validation.Traversal

/-!
# Violations name what exists

The instance path of a violation leads to a value of the instance and its schema
path to a value of the schema document.  Both are kept on the way down from a
node to the nodes that it goes on to, refs and branches included.
-/

namespace JsonTypedef

namespace Program

variable {config : Config} {schema v w : Value} {f : Form} {n : Node}
    {path keyword : Pointer} {segments : List String}

/-! ## Places in the instance -/

theorem Form.GoesOn.at? {target : ℕ → Node} (hv : v.Distinct)
    (h : f.GoesOn target v n segments w) : v.at? segments = some w := by
  cases h with
  | ref => exact Value.at?_nil v
  | item hget => exact (Value.at?_item _ _).trans hget
  | value hmem =>
      cases hv with
      | obj hnodup _ =>
          exact (Value.at?_member _ _).trans (Members.get?_of_mem hnodup hmem)
  | member _ hget => exact (Value.at?_member _ _).trans hget
  | branch _ _ _ hget => exact (Value.at?_member _ _).trans hget

theorem Properties.Rejects.exists_at? {p : Properties} {tag : Option String}
    {ms : Members} (h : p.Rejects path tag ms segments keyword) :
    ∃ w, (Value.obj ms).at? segments = some w := by
  cases h with
  | missing => exact ⟨_, Value.at?_nil _⟩
  | undeclared _ hkey =>
      obtain ⟨w, hw⟩ :=
        Option.isSome_iff_exists.mp (Members.get?_isSome_iff.mpr hkey)
      exact ⟨w, (Value.at?_member _ _).trans hw⟩

theorem Form.Rejects.exists_at?
    (h : f.Rejects config path v segments keyword) :
    ∃ w, v.at? segments = some w := by
  cases h with
  | member h => exact h.exists_at?
  | branch _ _ h => exact h.exists_at?
  | unnamed hget => exact ⟨_, (Value.at?_member _ _).trans hget⟩
  | unmapped hget => exact ⟨_, (Value.at?_member _ _).trans hget⟩
  | _ => exact ⟨_, Value.at?_nil _⟩

/-! ## Places in the schema -/

theorem Form.Located.of_member {p : Properties}
    (h : (Form.properties p).Located schema path) {m : String × Node}
    (hm : m ∈ p.declared) : schema.Has m.2.path ∧ m.2.Located schema := by
  cases h with
  | properties _ _ hpaths hnodes => exact ⟨hpaths m hm, hnodes m hm⟩

theorem Form.Located.of_branch {tag value : String}
    {branches : List (String × Branch)} {branch : Branch}
    (h : (Form.discriminator tag branches).Located schema path)
    (hbranch : List.lookup value branches = some branch) :
    (Form.properties branch.properties).Located schema branch.path := by
  cases h with
  | discriminator _ _ hbranches => exact hbranches _ (mem_of_lookup hbranch)

/-- Going on from a located form leads to located nodes. -/
theorem Form.GoesOn.located {program : Program}
    (hprogram : program.Located schema) (hf : f.Located schema path)
    (h : f.GoesOn program.target v n segments w) : n.Located schema := by
  cases h with
  | ref => exact hprogram.target _
  | item =>
      cases hf with
      | elements _ hitem => exact hitem
  | value =>
      cases hf with
      | values _ hitem => exact hitem
  | member hm => exact (hf.of_member hm).2
  | branch _ hbranch hm => exact ((hf.of_branch hbranch).of_member hm).2

theorem Properties.Rejects.has {p : Properties} {tag : Option String}
    {ms : Members} (hp : (Form.properties p).Located schema path)
    (h : p.Rejects path tag ms segments keyword) : schema.Has keyword := by
  cases h with
  | missing hm _ => exact (hp.of_member (List.mem_append_left _ hm)).1
  | undeclared =>
      cases hp with
      | properties hpath => exact hpath

/-- A located form rejects by keywords that exist. -/
theorem Form.Rejects.has (hf : f.Located schema path)
    (h : f.Rejects config path v segments keyword) : schema.Has keyword := by
  cases h with
  | member h => exact h.has hf
  | branch _ hbranch h => exact h.has (hf.of_branch hbranch)
  | _ =>
      cases hf
      assumption

end Program

namespace Validator

/-- What a run reports at a located node exists on both sides. -/
theorem has_of_mem_node {config : Config} {program : Program} {schema : Value}
    (hprogram : program.Located schema) {depth : ℕ} {n : Program.Node}
    (hn : n.Located schema) {v : Value} (hv : v.Distinct) {place : Pointer}
    {x : Violation}
    (h : x ∈ (node config program.target depth n place v).violations) :
    (∃ segments w, x.instancePath = place.extend segments ∧
      v.at? segments = some w) ∧ schema.Has x.schemaPath := by
  induction depth generalizing n place v with
  | zero => cases h
  | succ depth ih =>
      rcases mem_node h with
          ⟨segments, reason, hrejects, rfl⟩ | ⟨m, segments, w, hgoes, h⟩
      · obtain ⟨w, hw⟩ := hrejects.exists_at?
        exact ⟨⟨segments, w, rfl, hw⟩, hrejects.has hn⟩
      · have hw := hgoes.at? hv
        obtain ⟨⟨rest, u, hpath, hu⟩, hreason⟩ :=
          ih (hgoes.located hprogram hn) (hv.of_at? hw) h
        refine ⟨⟨segments ++ rest, u, ?_, ?_⟩, hreason⟩
        · rw [hpath, Pointer.extend_extend]
        · rw [Value.at?_append, hw]
          exact hu

theorem violations_of_validate {validator : Validator} {v : Value}
    {vs : List Violation} (h : validator.validate v = .ok vs) :
    (validator.run v).violations = vs ∧
      (validator.run v).halt ≠ some .depth := by
  unfold validate at h
  dsimp only at h
  split at h
  next => cases h
  next hhalt => exact ⟨Except.ok.inj h, hhalt⟩

/-- Every violation, in either mode, has an instance path that leads to a value
of the instance and a schema path that leads to a value of the schema
document. -/
theorem validate_located {schema : Value} (hschema : schema.Distinct)
    {program : Program} (hprogram : Program.ofValue schema = .ok program)
    (config : Config) {v : Value} (hv : v.Distinct) {vs : List Violation}
    (h : validate ⟨program, config⟩ v = .ok vs) :
    ∀ x ∈ vs, v.Has x.instancePath ∧ schema.Has x.schemaPath := by
  intro x hx
  rw [← (violations_of_validate h).1] at hx
  have hlocated := Program.located_of_ofValue hschema hprogram
  obtain ⟨⟨segments, w, hpath, hw⟩, hkeyword⟩ :=
    has_of_mem_node hlocated hlocated.root hv hx
  refine ⟨⟨w, ?_⟩, hkeyword⟩
  rw [hpath]
  exact hw

/-- A chain of two links, the first with a name that is no string and the second
without a name. -/
def misnamedChain : Value :=
  .obj [("id", .null), ("next", .obj [])]

theorem distinct_misnamedChain : misnamedChain.Distinct :=
  Value.distinct_distinct misnamedChain

theorem validate_misnamedChain :
    validate ⟨Program.chainProgram, { allErrors := true }⟩ misnamedChain =
      .ok [⟨⟨["id"]⟩, ⟨["definitions", "link", "properties", "id", "type"]⟩⟩,
        ⟨⟨["next"]⟩, ⟨["definitions", "link", "properties", "id"]⟩⟩] := rfl

theorem validate_located_misnamedChain :
    (∃ x y, validate ⟨Program.chainProgram, { allErrors := true }⟩
      misnamedChain = .ok [x, y]) ∧
    misnamedChain.Has ⟨["next"]⟩ ∧
      Program.chainSchema.Has ⟨["definitions", "link", "properties", "id"]⟩ :=
  ⟨⟨_, _, validate_misnamedChain⟩,
    validate_located Program.distinct_chainSchema Program.ofValue_chainSchema _
      distinct_misnamedChain validate_misnamedChain
      ⟨⟨["next"]⟩, ⟨["definitions", "link", "properties", "id"]⟩⟩ (by simp)⟩

end Validator
end JsonTypedef
