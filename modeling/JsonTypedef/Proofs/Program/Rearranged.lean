import JsonTypedef.Proofs.Json.Canonical
import JsonTypedef.Proofs.Parsing.Reordering
import JsonTypedef.Proofs.Program.Sources
import JsonTypedef.Proofs.Program.Unfolding
import JsonTypedef.Proofs.Validation.Reordering

/-!
# The order of a schema's members does not matter

Schema documents that differ in the order of members alone have programs with
one digest and reordered nodes.  Validators that collect all violations find the
same ones along both, and parsers accept the same texts.
-/

namespace JsonTypedef
namespace Program

open Value (Rearranged)

/-- The nodes are made from rearranged values at one place. -/
def BothMade (make make' : Pointer → Value → Node → Prop) (n n' : Node) : Prop :=
  ∃ path v w, v.Rearranged w ∧ make path v n ∧ make' path w n'

section

variable {make make' : Pointer → Value → Node → Prop} {path base : Pointer}
    {ms ns entries entries' : Members}

theorem shuffled_of_entries {nodes nodes' : List (String × Node)}
    (h : Shuffled (Named Rearranged) entries entries')
    (hmade : Shuffled (EntryMade make base) entries nodes)
    (hmade' : Shuffled (EntryMade make' base) entries' nodes') :
    Shuffled (Named (BothMade make make')) nodes nodes' := by
  refine (hmade.symm.trans (h.trans hmade')).imp_mem ?_
  rintro m - m' ⟨e, ⟨hname, hm⟩, e', ⟨hnames, hsame⟩, hname', hm'⟩
  rw [← hnames] at hm'
  exact ⟨hname.symm.trans (hnames.trans hname'), _, _, _, hsame, hm, hm'⟩

theorem PropertiesMade.nodup {p : Properties} (hms : (Value.obj ms).Distinct)
    (h : PropertiesMade make path ms p) : p.names.Nodup := by
  have hrequired : (ms.table "properties").keys = p.required.map Prod.fst :=
    map_fst_of_forall₂ (fun _ _ hm => hm.1) h.required
  have hoptional : (ms.table "optionalProperties").keys =
      p.optional.map Prod.fst :=
    map_fst_of_forall₂ (fun _ _ hm => hm.1) h.optional
  rw [Properties.names, Properties.declared, List.map_append, ← hrequired,
    ← hoptional]
  refine List.nodup_append.mpr ⟨hms.nodup_table, hms.nodup_table, ?_⟩
  rintro name hname _ hname' rfl
  exact h.disjoint name hname hname'

theorem PropertiesMade.reordered {p p' : Properties}
    (h : (Value.obj ms).Rearranged (.obj ns)) (hp : PropertiesMade make path ms p)
    (hp' : PropertiesMade make' path ns p') :
    PropertiesReordered (BothMade make make') p p' := by
  have hrequired : Shuffled (Named (BothMade make make')) p.required
      p'.required :=
    shuffled_of_entries h.table (.of_forall₂ hp.required)
      (.of_forall₂ hp'.required)
  have hoptional : Shuffled (Named (BothMade make make')) p.optional
      p'.optional :=
    shuffled_of_entries h.table (.of_forall₂ hp.optional)
      (.of_forall₂ hp'.optional)
  refine ⟨hrequired, hoptional, ?_, ?_, ?_⟩
  · rw [hp.additional, hp'.additional, h.flag_eq]
  · rw [hp.keyword, hp'.keyword, h.has_eq]
  · exact (hrequired.append hoptional).lookup (hp.nodup h.distinct)

theorem lookup_branches_reordered {branches branches' : List (String × Branch)}
    (h : (Value.obj entries).Rearranged (.obj entries'))
    (hbranches : List.Forall₂ (BranchMade make base) entries branches)
    (hbranches' : List.Forall₂ (BranchMade make' base) entries' branches')
    (value : String) :
    Option.Rel (BranchReordered (BothMade make make'))
      (List.lookup value branches) (List.lookup value branches') := by
  have hshuffled : Shuffled (Named (BranchReordered (BothMade make make')))
      branches branches' := by
    refine ((Shuffled.of_forall₂ hbranches).symm.trans
      (h.members.trans (.of_forall₂ hbranches'))).imp_mem ?_
    rintro b - b' ⟨e, ⟨hname, hpath, ms, hms, hp⟩, e', ⟨hnames, hsame⟩,
      hname', hpath', ns, hns, hp'⟩
    rw [hms, hns] at hsame
    rw [← hnames] at hpath' hp'
    exact ⟨hname.symm.trans (hnames.trans hname'), hpath.trans hpath'.symm,
      hp.reordered hsame hp'⟩
  have hnodup : (branches.map Prod.fst).Nodup := by
    rw [← map_fst_of_forall₂ (fun _ _ hb => hb.1) hbranches]
    exact h.distinct.nodup_keys
  exact hshuffled.lookup hnodup value

/-- Forms that are made from rearranged keywords of one group are reordered. -/
theorem FormMade.reordered {units : List String} {group : Option Schema.Group}
    {f f' : Form} (h : (Value.obj ms).Rearranged (.obj ns))
    (hf : FormMade make units path ms group f)
    (hf' : FormMade make' units path ns group f') :
    FormReordered (BothMade make make') f f' := by
  cases hf with
  | empty =>
      cases hf'
      exact .empty
  | ref hget hi =>
      cases hf' with
      | ref hget' hi' =>
          rw [h.get?_str hget] at hget'
          cases hget'
          rw [hi] at hi'
          cases hi'
          exact .ref
  | @type kind hget =>
      cases hf' with
      | @type kind' hget' =>
          rw [h.get?_str hget] at hget'
          have hname : kind.name = kind'.name :=
            Value.str.inj (Option.some.inj hget')
          have hkind := TypeKind.ofName?_eq_some_iff.mpr hname
          rw [TypeKind.ofName?_eq_some_iff.mpr rfl] at hkind
          cases hkind
          exact .type
  | @enum values hget =>
      cases hf' with
      | @enum values' hget' =>
          rw [h.get?_strings hget] at hget'
          have hvalues : values.map Value.str = values'.map Value.str :=
            Value.arr.inj (Option.some.inj hget')
          obtain rfl := List.map_injective_iff.mpr
            (fun _ _ heq => Value.str.inj heq) hvalues
          exact .enum
  | elements hget hitem =>
      cases hf' with
      | elements hget' hitem' =>
          exact .elements ⟨_, _, _, h.of_get? hget hget', hitem, hitem'⟩
  | values hget hitem =>
      cases hf' with
      | values hget' hitem' =>
          exact .values ⟨_, _, _, h.of_get? hget hget', hitem, hitem'⟩
  | properties hp =>
      cases hf' with
      | properties hp' => exact .properties (hp.reordered h hp')
  | @discriminator tag entries branches hget hmapping hbranches =>
      cases hf' with
      | @discriminator tag' entries' branches' hget' hmapping' hbranches' =>
          rw [h.get?_str hget] at hget'
          cases hget'
          have hmappings := h.of_get? hmapping hmapping'
          exact .discriminator
            (lookup_branches_reordered hmappings hbranches hbranches')

end

section

variable {names names' units : List String} {path : Pointer} {ms ns : Members}
    {group group' : Option Schema.Group} {n n' : Node}

/-- A keyword of a group shows the group. -/
theorem NodeMade.group_of_keyword {own : Schema.Group} {key : String}
    (h : NodeMade names units path ms group n) (hkey : key ∈ ms.keys)
    (hmem : key ∈ own.keywords) : group = some own := by
  obtain ⟨isRoot, huses⟩ := h.uses
  have hgroup : key ∈ Schema.keywordsOf group :=
    (huses key hkey).resolve_left fun hshared =>
      Schema.notMem_keywords_of_isShared hshared own hmem
  cases group with
  | none => cases hgroup
  | some own' =>
      have hown := Schema.Group.ofKeyword?_eq_some_iff.mpr hgroup
      rw [Schema.Group.ofKeyword?_eq_some_iff.mpr hmem] at hown
      exact hown.symm

theorem NodeMade.group_eq (h : (Value.obj ms).Rearranged (.obj ns))
    (hn : NodeMade names units path ms group n)
    (hn' : NodeMade names' units path ns group' n') : group = group' := by
  cases group with
  | some own =>
      obtain ⟨key, hkey, hmem⟩ := hn.keyword own rfl
      exact (hn'.group_of_keyword (h.mem_keys_iff.mp hkey) hmem).symm
  | none =>
      cases group' with
      | none => rfl
      | some own =>
          obtain ⟨key, hkey, hmem⟩ := hn'.keyword own rfl
          exact hn.group_of_keyword (h.mem_keys_iff.mpr hkey) hmem

/-- Nodes that are made from rearranged values are reordered. -/
theorem reorders_of_targets {target target' : ℕ → Node}
    (h : ∀ i, BothMade (Made names units) (Made names' units) (target i)
      (target' i)) :
    Reorders (BothMade (Made names units) (Made names' units)) target
      target' := by
  have hmade : ∀ n n', BothMade (Made names units) (Made names' units) n n' →
      ∃ path ms ns group, (Value.obj ms).Rearranged (.obj ns) ∧
        NodeMade names units path ms group n ∧
        NodeMade names' units path ns group n' := by
    rintro n n' ⟨path, v, w, hsame, hmade, hmade'⟩
    obtain ⟨ms, group, rfl, hn⟩ := hmade.exists_nodeMade
    obtain ⟨ns, group', rfl, hn'⟩ := hmade'.exists_nodeMade
    obtain rfl := hn.group_eq hsame hn'
    exact ⟨path, ms, ns, group, hsame, hn, hn'⟩
  refine ⟨h, fun n n' hboth => ?_, fun n n' hboth => ?_, fun n n' hboth => ?_⟩
  · obtain ⟨path, ms, ns, group, hsame, hn, hn'⟩ := hmade n n' hboth
    rw [hn.nullable, hn'.nullable, hsame.flag_eq]
  · obtain ⟨path, ms, ns, group, hsame, hn, hn'⟩ := hmade n n' hboth
    rw [hn.place, hn'.place]
  · obtain ⟨path, ms, ns, group, hsame, hn, hn'⟩ := hmade n n' hboth
    exact hn.form.reordered hsame hn'.form

end

/-! ## Whole programs -/

/-- A program is made from a schema document. -/
structure MadeFrom (program : Program) (ms : Members) : Prop where
  digest : program.digest = Digest.ofSchema (.obj ms)
  sorted : (program.definitions.map Prod.fst).Pairwise (· < ·)
  names : (program.definitions.map Prod.fst).Perm
    (ms.table "definitions").keys
  root : Made (ms.table "definitions").keys (program.definitions.map Prod.fst)
    .root (.obj ms) program.root
  definitions : Shuffled (EntryMade (Made (ms.table "definitions").keys
      (program.definitions.map Prod.fst)) (Pointer.root.child "definitions"))
    (ms.table "definitions") program.definitions

theorem madeFrom_of_ofValue {schema : Value} (hschema : schema.Distinct)
    {program : Program} (h : ofValue schema = .ok program) :
    ∃ ms, schema = .obj ms ∧ program.MadeFrom ms := by
  obtain ⟨document, hdocument, h⟩ := exists_ok_of_bind h
  obtain ⟨ms, entries, definitions, rfl, hentries, htable, hchecked, hsorted⟩ :=
    Document.checked_of_ofValue hdocument
  have hnames := Document.perm_definedNames hdocument
  have hpairwise := Document.sorted_of_ofValue hschema hdocument
  obtain ⟨root, hroot, h⟩ := exists_ok_of_bind h
  obtain ⟨nodes, hnodes, h⟩ := exists_ok_of_bind h
  cases h
  rw [hentries.definedNames] at hnames
  obtain rfl : Members.table ms "definitions" = entries := by
    rcases hentries with hget | ⟨hget, rfl⟩
    · exact Members.table_of_get? hget
    · exact Members.table_of_none hget
  have hcompiled := entries_of_compileMembers hnodes
  have hunits : nodes.map Prod.fst = document.definitions.map Prod.fst :=
    (map_fst_of_forall₂ (fun _ _ hm => hm.1) hcompiled).symm
  have hperm : definitions.Perm document.definitions := by
    rw [hsorted]
    exact (List.mergeSort_perm _ _).symm
  refine ⟨ms, rfl, rfl, ?_, ?_, ?_, ?_⟩
  · dsimp only
    rwa [hunits]
  · dsimp only
    rwa [hunits]
  · dsimp only
    rw [hunits]
    exact ⟨true, document.root, hchecked, hroot⟩
  · dsimp only
    rw [hunits]
    have hshuffled := Shuffled.of_forall₂ (Schema.checkEntries_eq_ok_iff.mp htable)
    refine (hshuffled.trans ((Shuffled.of_perm hperm).trans
      (.of_forall₂ hcompiled))).imp_mem ?_
    rintro e - m ⟨d, ⟨hname, hs⟩, _, rfl, hname', hn⟩
    rw [← hname] at hname' hn
    exact ⟨hname', false, d.2, hs, hn⟩

/-- A document that the checker accepts has a program, which is made from it. -/
theorem exists_madeFrom {schema : Value} (hschema : schema.Distinct)
    {document : Document} (h : Document.ofValue schema = .ok document) :
    ∃ ms program, schema = .obj ms ∧ ofValue schema = .ok program ∧
      program.MadeFrom ms := by
  obtain ⟨program, hprogram, -⟩ :=
    exists_ofDocument hschema h (Digest.ofSchema schema)
  have hprogram : ofValue schema = .ok program :=
    bind_eq_ok_iff.mpr ⟨document, h, hprogram⟩
  obtain ⟨ms, hms, hmade⟩ := madeFrom_of_ofValue hschema hprogram
  exact ⟨ms, program, hms, hprogram, hmade⟩

section

variable {program program' : Program} {ms ns : Members}

theorem MadeFrom.digest_eq (h : (Value.obj ms).Rearranged (.obj ns))
    (hp : program.MadeFrom ms) (hp' : program'.MadeFrom ns) :
    program.digest = program'.digest := by
  rw [hp.digest, hp'.digest, Digest.ofSchema, Digest.ofSchema,
    Value.canonicalText, Value.canonicalText, h.canonical_eq]

/-- Programs that are made from rearranged documents define the same names in
the same order. -/
theorem MadeFrom.names_eq (h : (Value.obj ms).Rearranged (.obj ns))
    (hp : program.MadeFrom ms) (hp' : program'.MadeFrom ns) :
    program.definitions.map Prod.fst = program'.definitions.map Prod.fst := by
  have hperm : (program.definitions.map Prod.fst).Perm
      (program'.definitions.map Prod.fst) :=
    (hp.names.trans h.table_keys).trans hp'.names.symm
  exact hperm.eq_of_pairwise
    (fun _ _ _ _ hab hba => absurd hba (String.lt_asymm hab))
    hp.sorted hp'.sorted

theorem MadeFrom.unitNames_eq (h : (Value.obj ms).Rearranged (.obj ns))
    (hp : program.MadeFrom ms) (hp' : program'.MadeFrom ns) :
    program.unitNames = program'.unitNames := by
  have hnames := congrArg (List.map UnitName.definition) (hp.names_eq h hp')
  rw [List.map_map, List.map_map] at hnames
  exact congrArg (UnitName.root :: ·) hnames

/-- The units of programs that are made from rearranged documents are reordered,
each with the unit of its name. -/
theorem MadeFrom.exists_reorders (h : (Value.obj ms).Rearranged (.obj ns))
    (hp : program.MadeFrom ms) (hp' : program'.MadeFrom ns) :
    ∃ rel, rel program.root program'.root ∧
      Reorders rel program.target program'.target := by
  have hnames := hp.names_eq h hp'
  have hroot := hp.root
  have hroot' := hp'.root
  have hdefinitions := hp.definitions
  have hdefinitions' := hp'.definitions
  rw [← hnames] at hroot' hdefinitions'
  have hboth : BothMade (Made (ms.table "definitions").keys
        (program.definitions.map Prod.fst))
      (Made (ns.table "definitions").keys (program.definitions.map Prod.fst))
      program.root program'.root := ⟨.root, _, _, h, hroot, hroot'⟩
  refine ⟨_, hboth, reorders_of_targets (target_of_forall₂ hboth ?_)⟩
  have hnodup : (program.definitions.map Prod.fst).Nodup :=
    hp.sorted.imp fun hlt => String.ne_of_lt hlt
  have hunits := (shuffled_of_entries h.table hdefinitions
    hdefinitions').forall₂_of_names_eq hnames hnodup
  exact hunits.imp fun _ _ hm => hm.2

end

/-- Two schema documents that differ in the order of members alone are both
refused, or they have programs with one digest and the same units in the same
order.  Runs that collect all violations find the same ones along both programs,
or both meet the depth limit; and every text is parsed to the same value along
both, or along neither. -/
theorem reordered_of_same {d d' : Value} (hd : d.Distinct) (h : d.Same d') :
    ((∃ e, Document.ofValue d = .error e) ∧
      ∃ e, Document.ofValue d' = .error e) ∨
    ∃ program program', ofValue d = .ok program ∧ ofValue d' = .ok program' ∧
      program.digest = program'.digest ∧
      program.unitNames = program'.unitNames ∧
      ∀ config,
        (∀ v, v.Distinct →
          (∃ e, Validator.validate ⟨program, { config with allErrors := true }⟩
              v = .error e ∧
            Validator.validate ⟨program', { config with allErrors := true }⟩
              v = .error e) ∨
          ∃ vs ws,
            Validator.validate ⟨program, { config with allErrors := true }⟩ v =
              .ok vs ∧
            Validator.validate ⟨program', { config with allErrors := true }⟩ v =
              .ok ws ∧ vs.Perm ws) ∧
        ∀ text,
          (∃ v, Parser.parse ⟨program, config⟩ text = .ok v ∧
            Parser.parse ⟨program', config⟩ text = .ok v) ∨
          ((∃ e, Parser.parse ⟨program, config⟩ text = .error e) ∧
            ∃ e, Parser.parse ⟨program', config⟩ text = .error e) := by
  have hsame : d.Rearranged d' := ⟨hd, h⟩
  cases hdocument : Document.ofValue d with
  | error e =>
      cases hdocument' : Document.ofValue d' with
      | error e' => exact Or.inl ⟨⟨e, rfl⟩, e', rfl⟩
      | ok document' =>
          obtain ⟨document, hok⟩ :=
            Document.exists_ofValue_of_rearranged hdocument' hsame.symm
          rw [hdocument] at hok
          cases hok
  | ok document =>
      obtain ⟨document', hdocument'⟩ :=
        Document.exists_ofValue_of_rearranged hdocument hsame
      obtain ⟨ms, program, rfl, hprogram, hp⟩ :=
        exists_madeFrom hsame.distinct hdocument
      obtain ⟨ns, program', rfl, hprogram', hp'⟩ :=
        exists_madeFrom hsame.symm.distinct hdocument'
      obtain ⟨rel, hroot, hreorders⟩ := hp.exists_reorders hsame hp'
      refine Or.inr ⟨program, program', hprogram, hprogram',
        hp.digest_eq hsame hp', hp.unitNames_eq hsame hp',
        fun config => ⟨fun v hv => ?_, fun text => ?_⟩⟩
      · exact Validator.validate_of_tally_eq config
          (Validator.tally_node hreorders config.maxDepth hroot .root (.refl hv))
      · exact (Parsing.parse_agree hreorders hroot text).ok_or_error

/-- The schema of chains with the members of its objects in another order. -/
def turnedChainSchema : Value :=
  .obj [("ref", .str "link"), ("definitions", .obj [("link", .obj [
    ("optionalProperties", .obj [("weight", .obj [("type", .str "float64")]),
      ("next", .obj [("ref", .str "link")])]),
    ("properties", .obj [("id", .obj [("type", .str "string")])])])])]

theorem same_turnedChainSchema : chainSchema.Same turnedChainSchema := by
  have hswap : ∀ {a b c d : String × Value}, a.1 = c.1 → b.1 = d.1 →
      a.2.Same c.2 → b.2.Same d.2 →
        (Value.obj [a, b]).Same (.obj [d, c]) := by
    rintro ⟨_, v⟩ ⟨_, w⟩ ⟨_, v'⟩ ⟨_, w'⟩ rfl rfl hv hw
    exact .obj (List.Perm.swap _ _ _) (.cons (.mk hw) (.cons (.mk hv) .nil))
  refine hswap rfl rfl (.obj (List.Perm.refl _) (.cons (.mk ?_) .nil)) (.str _)
  exact hswap rfl rfl (.refl _) (hswap rfl rfl (.refl _) (.refl _))

theorem reordered_of_same_chainSchema :
    chainSchema.Distinct ∧ chainSchema.Same turnedChainSchema ∧
      ∃ program, ofValue turnedChainSchema = .ok program ∧
        program.digest = chainProgram.digest ∧
        program.unitNames = [.root, .definition "link"] ∧
        ∃ vs, Validator.validate ⟨program, { allErrors := true }⟩
            Validator.strayChain = .ok vs ∧
          vs.Perm [⟨⟨["left"]⟩, ⟨["definitions", "link"]⟩⟩,
            ⟨⟨["right"]⟩, ⟨["definitions", "link"]⟩⟩] := by
  refine ⟨distinct_chainSchema, same_turnedChainSchema, ?_⟩
  rcases reordered_of_same distinct_chainSchema same_turnedChainSchema with
    ⟨⟨e, he⟩, -⟩ | ⟨program, program', hprogram, hprogram', hdigest, hnames, hruns⟩
  · rw [document_chainSchema] at he
    cases he
  · rw [ofValue_chainSchema] at hprogram
    cases hprogram
    refine ⟨program', hprogram', hdigest.symm, hnames.symm, ?_⟩
    have hdistinct : Validator.strayChain.Distinct :=
      Value.distinct_distinct Validator.strayChain
    rcases (hruns { }).1 Validator.strayChain hdistinct with
      ⟨e, he, -⟩ | ⟨vs, ws, hvs, hws, hperm⟩
    · cases he
    · cases hvs
      exact ⟨ws, hws, hperm.symm⟩

end Program
end JsonTypedef
