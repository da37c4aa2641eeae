import JsonTypedef.Proofs.Schema.Keywords

/-!
# Schemas without metadata

`Value.bare` takes from a schema document the metadata of all its nodes, and
`Schema.bare` takes it from a checked schema.  By `Schema.check_bare` the checker
commutes with the two, errors included: metadata is looked at for its type and
decides nothing else.
-/

namespace JsonTypedef

namespace Value

/-- The keywords that hold one schema. -/
def schemaKeywords : List String :=
  ["elements", "values"]

/-- The keywords that hold an object of schemas. -/
def tableKeywords : List String :=
  ["definitions", "properties", "optionalProperties", "mapping"]

mutual

/-- A schema without the metadata of its nodes. -/
def bare : Value → Value
  | .obj ms => .obj (bareKeywords ms)
  | v => v

/-- The keywords of a node without its metadata and without that of the schemas
they hold.  Only an object is metadata. -/
def bareKeywords : List (String × Value) → List (String × Value)
  | [] => []
  | (key, v) :: ms =>
    if key ∈ schemaKeywords then (key, bare v) :: bareKeywords ms
    else
      match v with
      | .obj entries =>
        if key = "metadata" then bareKeywords ms
        else if key ∈ tableKeywords then
          (key, .obj (bareEntries entries)) :: bareKeywords ms
        else (key, .obj entries) :: bareKeywords ms
      | v => (key, v) :: bareKeywords ms

/-- Named schemas without metadata.  The names have no meaning here. -/
def bareEntries : List (String × Value) → List (String × Value)
  | [] => []
  | (name, v) :: entries => (name, bare v) :: bareEntries entries

end

/-- An object of schemas without their metadata. -/
def bareTable : Value → Value
  | .obj entries => .obj (bareEntries entries)
  | v => v

/-- What stands under a keyword when schemas there have no metadata. -/
def bareUnder (keyword : String) (v : Value) : Value :=
  if keyword ∈ schemaKeywords then v.bare
  else if keyword ∈ tableKeywords then v.bareTable
  else v

variable {ms : List (String × Value)} {keyword key : String} {v : Value}

theorem bareKeywords_cons_metadata {entries : List (String × Value)} :
    bareKeywords (("metadata", .obj entries) :: ms) = bareKeywords ms := by
  rw [bareKeywords, if_neg (by decide)]
  exact if_pos rfl

theorem bareKeywords_cons (h : key = "metadata" → ¬ v.IsObject) :
    bareKeywords ((key, v) :: ms) = (key, bareUnder key v) :: bareKeywords ms := by
  unfold bareUnder
  cases v with
  | obj entries =>
      have hkey : key ≠ "metadata" := fun heq => h heq ⟨entries, rfl⟩
      rw [bareKeywords, if_neg hkey]
      by_cases hschema : key ∈ schemaKeywords
      · rw [if_pos hschema, if_pos hschema]
      · rw [if_neg hschema, if_neg hschema]
        by_cases htable : key ∈ tableKeywords
        · rw [if_pos htable, if_pos htable, bareTable]
        · rw [if_neg htable, if_neg htable]
  | _ =>
      rw [bareKeywords, bareTable, ite_self]
      · by_cases hschema : key ∈ schemaKeywords
        · rw [if_pos hschema, if_pos hschema]
        · rw [if_neg hschema, if_neg hschema]
      all_goals nofun

/-- Among the keywords of a node only its metadata may be missing. -/
theorem get?_bareKeywords (h : keyword ≠ "metadata") :
    Members.get? (bareKeywords ms) keyword =
      (Members.get? ms keyword).map (bareUnder keyword) := by
  induction ms with
  | nil => rfl
  | cons m ms ih =>
      obtain ⟨key, v⟩ := m
      by_cases hmetadata : key = "metadata" ∧ v.IsObject
      · obtain ⟨rfl, entries, rfl⟩ := hmetadata
        rw [bareKeywords_cons_metadata, ih, Members.get?_cons, if_neg h.symm]
      · rw [bareKeywords_cons (not_and.mp hmetadata), Members.get?_cons,
          Members.get?_cons, ih]
        by_cases hkey : key = keyword
        · rw [if_pos hkey, if_pos hkey, Option.map_some, hkey]
        · rw [if_neg hkey, if_neg hkey]

theorem get?_bareKeywords_of_notMem (hmetadata : keyword ≠ "metadata")
    (hschema : keyword ∉ schemaKeywords) (htable : keyword ∉ tableKeywords) :
    Members.get? (bareKeywords ms) keyword = Members.get? ms keyword := by
  have hid : bareUnder keyword = id := by
    funext v
    rw [bareUnder, if_neg hschema, if_neg htable, id]
  rw [get?_bareKeywords hmetadata, hid, Option.map_id, id]

theorem has_bareKeywords (h : keyword ≠ "metadata") :
    Members.has (bareKeywords ms) keyword = Members.has ms keyword := by
  rw [Bool.eq_iff_iff, Members.has_iff, Members.has_iff,
    ← Members.get?_isSome_iff, ← Members.get?_isSome_iff, get?_bareKeywords h,
    Option.isSome_map]

theorem keys_bareEntries (entries : List (String × Value)) :
    Members.keys (bareEntries entries) = Members.keys entries := by
  induction entries with
  | nil => rfl
  | cons e entries ih => rw [bareEntries, Members.keys_cons, ih, Members.keys_cons]

/-- A member that is declared under the name `metadata` stays. -/
example :
    (obj [("properties", .obj [("metadata", .obj [("metadata", .obj [])])]),
      ("metadata", .obj [])]).bare =
        obj [("properties", .obj [("metadata", .obj [])])] :=
  rfl

end Value

mutual

/-- A schema without the metadata of its nodes. -/
def Schema.bare : Schema → Schema
  | ⟨nullable, _, form⟩ => ⟨nullable, none, form.bare⟩

/-- A form whose schemas have no metadata. -/
def Form.bare : Form → Form
  | .elements item => .elements item.bare
  | .values item => .values item.bare
  | .properties p => .properties p.bare
  | .discriminator tag mapping => .discriminator tag (Branch.bareMapping mapping)
  | .empty => .empty
  | .ref name => .ref name
  | .type kind => .type kind
  | .enum values => .enum values

/-- Declared members whose schemas have no metadata. -/
def Properties.bare : Properties → Properties
  | ⟨required, optional, additional, declaresRequired⟩ =>
    ⟨Schema.bareTable required, Schema.bareTable optional, additional,
      declaresRequired⟩

/-- Named schemas without metadata. -/
def Schema.bareTable : List (String × Schema) → List (String × Schema)
  | [] => []
  | (name, s) :: table => (name, s.bare) :: Schema.bareTable table

/-- Named branches without metadata. -/
def Branch.bareMapping : List (String × Branch) → List (String × Branch)
  | [] => []
  | (value, ⟨_, p⟩) :: mapping => (value, ⟨none, p.bare⟩) :: Branch.bareMapping mapping

end

/-- A branch without the metadata of its schemas. -/
def Branch.bare : Branch → Branch
  | ⟨_, p⟩ => ⟨none, p.bare⟩

namespace Schema

theorem bareTable_eq_map (table : List (String × Schema)) :
    bareTable table = table.map fun d => (d.1, d.2.bare) := by
  induction table with
  | nil => rfl
  | cons d table ih => rw [bareTable, ih, List.map_cons]

variable {names : List String} {path base : Pointer} {isRoot : Bool}
    {ms entries : List (String × Value)} {keyword : String}

open Value

/-! ## Keywords of a known type -/

theorem groupOf_bareKeywords (found : Option (Group × String)) :
    groupOf isRoot path found (Members.keys (bareKeywords ms)) =
      groupOf isRoot path found (Members.keys ms) := by
  induction ms generalizing found with
  | nil => rfl
  | cons m ms ih =>
      obtain ⟨key, v⟩ := m
      by_cases hmetadata : key = "metadata" ∧ v.IsObject
      · obtain ⟨rfl, entries, rfl⟩ := hmetadata
        rw [bareKeywords_cons_metadata, ih, Members.keys_cons,
          groupOf_cons_of_isShared (Or.inr (Or.inl rfl))]
      · rw [bareKeywords_cons (not_and.mp hmetadata)]
        simp only [Members.keys_cons, groupOf, ih]

theorem flagOf_bareKeywords
    (h : keyword = "nullable" ∨ keyword = "additionalProperties") :
    flagOf path keyword (bareKeywords ms) = flagOf path keyword ms := by
  have hget : Members.get? (bareKeywords ms) keyword =
      Members.get? ms keyword := by
    rcases h with rfl | rfl
    · exact get?_bareKeywords_of_notMem (by decide) (by decide) (by decide)
    · exact get?_bareKeywords_of_notMem (by decide) (by decide) (by decide)
  simp only [flagOf, hget]

/-- Metadata that is no object is refused, whether other metadata is taken away
or not. -/
theorem metadataOf_bareKeywords (hnodup : (Members.keys ms).Nodup) :
    metadataOf path (bareKeywords ms) =
      (metadataOf path ms).map fun _ => none := by
  induction ms with
  | nil => rfl
  | cons m ms ih =>
      obtain ⟨key, v⟩ := m
      rw [Members.keys_cons, List.nodup_cons] at hnodup
      by_cases hkey : key = "metadata"
      · subst hkey
        by_cases hobject : v.IsObject
        · obtain ⟨entries, rfl⟩ := hobject
          have hnone : Members.get? ms "metadata" = none :=
            Members.get?_eq_none_of_notMem hnodup.1
          rw [bareKeywords_cons_metadata, ih hnodup.2]
          simp only [metadataOf, hnone, Members.get?_cons, if_pos, Except.map]
        · rw [bareKeywords_cons fun _ => hobject]
          have hsame : bareUnder "metadata" v = v := rfl
          simp only [metadataOf, Members.get?_cons, if_pos, hsame]
          cases v with
          | obj entries => exact absurd ⟨entries, rfl⟩ hobject
          | _ => rfl
      · have ih := ih hnodup.2
        rw [bareKeywords_cons fun heq => absurd heq hkey]
        simp only [metadataOf, Members.get?_cons, if_neg hkey] at ih ⊢
        exact ih

theorem refOf_bareKeywords :
    refOf names path (bareKeywords ms) =
      (refOf names path ms).map Form.bare := by
  have hget : Members.get? (bareKeywords ms) "ref" = Members.get? ms "ref" :=
    get?_bareKeywords_of_notMem (by decide) (by decide) (by decide)
  simp only [refOf, hget]
  split
  next => split <;> rfl
  next => rfl

theorem typeOf_bareKeywords :
    typeOf path (bareKeywords ms) = (typeOf path ms).map Form.bare := by
  have hget : Members.get? (bareKeywords ms) "type" = Members.get? ms "type" :=
    get?_bareKeywords_of_notMem (by decide) (by decide) (by decide)
  simp only [typeOf, hget]
  split
  next => split <;> rfl
  next => rfl

theorem enumOf_bareKeywords :
    enumOf path (bareKeywords ms) = (enumOf path ms).map Form.bare := by
  have hget : Members.get? (bareKeywords ms) "enum" = Members.get? ms "enum" :=
    get?_bareKeywords_of_notMem (by decide) (by decide) (by decide)
  simp only [enumOf, hget]
  split
  next => rfl
  next =>
    cases enumValues (path.child "enum") 0 [] _ with
    | error e => rfl
    | ok values => rfl
  next => rfl

theorem tagOf_bareKeywords : tagOf path (bareKeywords ms) = tagOf path ms := by
  have hget : Members.get? (bareKeywords ms) "discriminator" =
      Members.get? ms "discriminator" :=
    get?_bareKeywords_of_notMem (by decide) (by decide) (by decide)
  have hdiscriminator : Members.has (bareKeywords ms) "discriminator" =
      Members.has ms "discriminator" := has_bareKeywords (by decide)
  have hmapping : Members.has (bareKeywords ms) "mapping" =
      Members.has ms "mapping" := has_bareKeywords (by decide)
  simp only [tagOf, hget, hdiscriminator, hmapping]

/-! ## Parts of the form -/

theorem any_bareTable (table : List (String × Schema)) (name : String) :
    (bareTable table).any (·.1 = name) = table.any (·.1 = name) := by
  rw [bareTable_eq_map, List.any_map]
  rfl

theorem getD_map_bareTable
    (table : Option (Except SchemaError (List (String × Schema)))) :
    (table.map (Except.map bareTable)).getD (.ok []) =
      (table.getD (.ok [])).map bareTable := by
  cases table with
  | none => rfl
  | some table => rfl

theorem propertiesOf_bare
    (required optional : Option (Except SchemaError (List (String × Schema)))) :
    propertiesOf path (bareKeywords ms) (required.map (Except.map bareTable))
        (optional.map (Except.map bareTable)) =
      (propertiesOf path ms required optional).map Properties.bare := by
  unfold propertiesOf
  rw [Option.isNone_map, Option.isNone_map, Option.isSome_map,
    getD_map_bareTable, getD_map_bareTable, flagOf_bareKeywords (Or.inr rfl)]
  by_cases hnone : (required.isNone && optional.isNone) = true
  · rw [if_pos hnone, if_pos hnone]
    rfl
  · rw [if_neg hnone, if_neg hnone]
    cases required.getD (.ok []) with
    | error e => rfl
    | ok declared =>
        cases optional.getD (.ok []) with
        | error e => rfl
        | ok extra =>
            have hfind : (bareTable extra).find?
                  (fun m => (bareTable declared).any (·.1 = m.1)) =
                (extra.find? fun m => declared.any (·.1 = m.1)).map
                  fun d => (d.1, d.2.bare) := by
              simp only [any_bareTable]
              rw [bareTable_eq_map, List.find?_map]
              rfl
            simp only [Except.map, bind, Except.bind, hfind]
            cases extra.find? fun m => declared.any (·.1 = m.1) with
            | some m => rfl
            | none =>
                cases flagOf path "additionalProperties" ms with
                | error e => rfl
                | ok additional => rfl

theorem branchOf_bare (tag : String) (s : Schema) :
    branchOf path tag s.bare = (branchOf path tag s).map Branch.bare := by
  obtain ⟨nullable, metadata, form⟩ := s
  cases nullable with
  | true => rfl
  | false =>
      cases form with
      | properties p =>
          obtain ⟨required, optional, additional, declaresRequired⟩ := p
          simp only [branchOf, bare, Form.bare, Properties.bare, any_bareTable]
          by_cases hrequired : (required.any (·.1 = tag)) = true
          · simp only [if_pos hrequired]
            rfl
          · simp only [if_neg hrequired]
            by_cases hoptional : (optional.any (·.1 = tag)) = true
            · simp only [if_pos hoptional]
              rfl
            · simp only [if_neg hoptional]
              rfl
      | _ => rfl

/-- The schema is checked to the same wherever it stands once the metadata is
taken away. -/
def ChecksBare (names : List String) (v : Value) : Prop :=
  ∀ isRoot path, check names isRoot path v.bare =
    (check names isRoot path v).map bare

theorem checkEntries_bareEntries (h : ∀ e ∈ entries, ChecksBare names e.2) :
    checkEntries names base (bareEntries entries) =
      (checkEntries names base entries).map bareTable := by
  induction entries with
  | nil => rfl
  | cons e entries ih =>
      obtain ⟨name, v⟩ := e
      have hv := h _ List.mem_cons_self false (base.child name)
      have ih := ih fun e he => h e (List.mem_cons_of_mem _ he)
      rw [bareEntries, checkEntries, checkEntries, hv, ih]
      cases check names false (base.child name) v with
      | error e => rfl
      | ok s =>
          cases checkEntries names base entries with
          | error e => rfl
          | ok table => rfl

theorem checkBranches_bareEntries {tag : String}
    (h : ∀ e ∈ entries, ChecksBare names e.2) :
    checkBranches names base tag (bareEntries entries) =
      (checkBranches names base tag entries).map Branch.bareMapping := by
  induction entries with
  | nil => rfl
  | cons e entries ih =>
      obtain ⟨value, v⟩ := e
      have hv := h _ List.mem_cons_self false (base.child value)
      have ih := ih fun e he => h e (List.mem_cons_of_mem _ he)
      rw [bareEntries, checkBranches, checkBranches, hv, ih]
      cases check names false (base.child value) v with
      | error e => rfl
      | ok s =>
          have hbranch : branchOf (base.child value) tag s.bare =
              (branchOf (base.child value) tag s).map Branch.bare :=
            branchOf_bare tag s
          simp only [Except.map, bind, Except.bind, hbranch]
          cases branchOf (base.child value) tag s with
          | error e => rfl
          | ok branch =>
              obtain ⟨metadata, p⟩ := branch
              cases checkBranches names base tag entries with
              | error e => rfl
              | ok mapping => rfl

theorem checkUnder_bareKeywords (hkeyword : keyword ∈ schemaKeywords)
    (h : ∀ m ∈ ms, ChecksBare names m.2) :
    checkUnder names path keyword (bareKeywords ms) =
      (checkUnder names path keyword ms).map bare := by
  have hmetadata : keyword ≠ "metadata" := by
    rintro rfl
    revert hkeyword
    decide
  rw [checkUnder_eq, checkUnder_eq, get?_bareKeywords hmetadata]
  cases hget : Members.get? ms keyword with
  | none => rfl
  | some v =>
      simp only [Option.map_some, bareUnder, if_pos hkeyword]
      exact h _ (Members.mem_of_get? hget) false _

/-- The object under a keyword keeps its place. -/
theorem get?_bareKeywords_table (hkeyword : keyword ∈ tableKeywords) :
    Members.get? (bareKeywords ms) keyword =
      (Members.get? ms keyword).map Value.bareTable := by
  have hmetadata : keyword ≠ "metadata" := by
    rintro rfl
    revert hkeyword
    decide
  have hschema : keyword ∉ schemaKeywords := by
    intro hmem
    revert hkeyword
    rcases List.mem_cons.mp hmem with rfl | hmem
    · decide
    · obtain rfl := List.mem_singleton.mp hmem
      decide
  have htable : bareUnder keyword = Value.bareTable := by
    funext v
    rw [bareUnder, if_neg hschema, if_pos hkeyword]
  rw [get?_bareKeywords hmetadata, htable]

theorem checkTable?_bareKeywords (hkeyword : keyword ∈ tableKeywords)
    (h : ∀ e ∈ Members.table ms keyword, ChecksBare names e.2) :
    checkTable? names path keyword (bareKeywords ms) =
      (checkTable? names path keyword ms).map (Except.map bareTable) := by
  rw [checkTable?_eq, checkTable?_eq, get?_bareKeywords_table hkeyword]
  cases hget : Members.get? ms keyword with
  | none => rfl
  | some v =>
      cases v with
      | obj entries =>
          rw [Members.table_of_get? hget] at h
          exact congrArg some (checkEntries_bareEntries h)
      | _ => rfl

theorem checkMapping_bareKeywords {tag : String}
    (h : ∀ e ∈ Members.table ms "mapping", ChecksBare names e.2) :
    checkMapping names path tag (bareKeywords ms) =
      (checkMapping names path tag ms).map Branch.bareMapping := by
  rw [checkMapping_eq, checkMapping_eq, get?_bareKeywords_table (by decide)]
  cases hget : Members.get? ms "mapping" with
  | none => rfl
  | some v =>
      cases v with
      | obj entries =>
          rw [Members.table_of_get? hget] at h
          exact checkBranches_bareEntries h
      | _ => rfl

/-! ## Nodes -/

theorem formOf_bareKeywords (hmembers : ∀ m ∈ ms, ChecksBare names m.2)
    (hentries : ∀ keyword, ∀ e ∈ Members.table ms keyword,
      ChecksBare names e.2) (group : Option Group) :
    formOf names path (bareKeywords ms) group =
      (formOf names path ms group).map Form.bare := by
  cases group with
  | none => rfl
  | some group =>
      cases group with
      | ref => exact refOf_bareKeywords
      | type => exact typeOf_bareKeywords
      | enum => exact enumOf_bareKeywords
      | elements =>
          rw [formOf, formOf, checkUnder_bareKeywords (by decide) hmembers]
          cases checkUnder names path "elements" ms with
          | error e => rfl
          | ok item => rfl
      | values =>
          rw [formOf, formOf, checkUnder_bareKeywords (by decide) hmembers]
          cases checkUnder names path "values" ms with
          | error e => rfl
          | ok item => rfl
      | properties =>
          rw [formOf, formOf, checkTable?_bareKeywords (by decide) (hentries _),
            checkTable?_bareKeywords (by decide) (hentries _), propertiesOf_bare]
          cases propertiesOf path ms (checkTable? names path "properties" ms)
              (checkTable? names path "optionalProperties" ms) with
          | error e => rfl
          | ok p => rfl
      | discriminator =>
          rw [formOf, formOf, tagOf_bareKeywords]
          cases tagOf path ms with
          | error e => rfl
          | ok tag =>
              simp only [Except.bind, checkMapping_bareKeywords (hentries _)]
              cases checkMapping names path tag ms with
              | error e => rfl
              | ok mapping => rfl

/-- Taking the metadata of a value away and checking the value come to the same
in either order. -/
theorem check_bare {v : Value} (hv : v.Distinct) : ChecksBare names v := by
  induction v using Value.induct_nodes with
  | other v hobject =>
      intro isRoot path
      cases v with
      | obj ms => exact absurd ⟨ms, rfl⟩ hobject
      | _ => rfl
  | obj ms hmembers hentries =>
      intro isRoot path
      have hform : ∀ group, formOf names path (bareKeywords ms) group =
          (formOf names path ms group).map Form.bare :=
        formOf_bareKeywords (fun m hm => hmembers m hm (hv.of_mem hm))
          fun keyword e he => hentries keyword e he (hv.of_mem_table he)
      rw [Value.bare, check_obj_eq, check_obj_eq, groupOf_bareKeywords,
        flagOf_bareKeywords (Or.inl rfl), metadataOf_bareKeywords hv.nodup_keys]
      cases groupOf isRoot path none (Members.keys ms) with
      | error e => rfl
      | ok group =>
          cases flagOf path "nullable" ms with
          | error e => rfl
          | ok nullable =>
              cases metadataOf path ms with
              | error e => rfl
              | ok metadata =>
                  simp only [Except.map, bind, Except.bind, hform]
                  cases formOf names path ms group with
                  | error e => rfl
                  | ok form => rfl

end Schema
end JsonTypedef
