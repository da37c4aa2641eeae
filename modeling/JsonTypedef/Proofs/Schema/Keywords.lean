import JsonTypedef.Proofs.Except
import JsonTypedef.Proofs.Json.Distinct
import JsonTypedef.Schema.Check

/-!
# What the keywords of a node say

The checker looks every keyword up by its name, wherever it stands among the
members of a node.  For each part of the checker this module says when it
succeeds and with what.  `Schema.NodeSpelled` puts the parts together, and by
`Schema.check_eq_ok_iff` a node is checked to exactly the schema that its
keywords spell.
-/

namespace JsonTypedef

namespace Value

/-- The value is `true` or `false`. -/
def IsBoolean (v : Value) : Prop :=
  ∃ b, v = .bool b

/-- The value is an object. -/
def IsObject (v : Value) : Prop :=
  ∃ ms, v = .obj ms

end Value

namespace Members

/-- The boolean under a keyword, false unless there is one. -/
def flag (ms : Members) (keyword : String) : Bool :=
  match ms.get? keyword with
  | some (.bool b) => b
  | _ => false

/-- The object under a keyword, if there is one. -/
def object? (ms : Members) (keyword : String) : Option Members :=
  match ms.get? keyword with
  | some (.obj entries) => some entries
  | _ => none

/-- The entries of the object under a keyword; none unless there is one. -/
def table (ms : Members) (keyword : String) : Members :=
  (ms.object? keyword).getD []

variable {ms entries : Members} {keyword : String}

theorem table_of_get? (h : ms.get? keyword = some (.obj entries)) :
    ms.table keyword = entries := by
  simp only [table, object?, h, Option.getD_some]

theorem table_of_none (h : ms.get? keyword = none) : ms.table keyword = [] := by
  simp only [table, object?, h, Option.getD_none]

theorem mem_keys_of_get? {v : Value} (h : ms.get? keyword = some v) :
    keyword ∈ ms.keys :=
  mem_keys.mpr ⟨v, mem_of_get? h⟩

theorem exists_get? (h : keyword ∈ ms.keys) : ∃ v, ms.get? keyword = some v :=
  Option.isSome_iff_exists.mp (get?_isSome_iff.mpr h)

theorem get?_eq_none_of_notMem (h : keyword ∉ ms.keys) :
    ms.get? keyword = none := by
  rw [← Option.not_isSome_iff_eq_none, get?_isSome_iff]
  exact h

theorem exists_get?_of_mem_table {e : String × Value} (h : e ∈ ms.table keyword) :
    ∃ entries, ms.get? keyword = some (.obj entries) ∧ e ∈ entries := by
  unfold table object? at h
  split at h
  next entries hget => exact ⟨entries, hget, h⟩
  next => cases h

end Members

theorem Value.Distinct.of_mem_table {ms : Members} (h : (Value.obj ms).Distinct)
    {keyword : String} {e : String × Value} (he : e ∈ ms.table keyword) :
    e.2.Distinct := by
  obtain ⟨entries, hget, he⟩ := Members.exists_get?_of_mem_table he
  have hentries : (Value.obj entries).Distinct := h.of_mem (Members.mem_of_get? hget)
  exact hentries.of_mem he

theorem Value.Distinct.nodup_table {ms : Members}
    (h : (Value.obj ms).Distinct) {keyword : String} :
    (ms.table keyword).keys.Nodup := by
  unfold Members.table Members.object?
  split
  next entries hget =>
    have hentries : (Value.obj entries).Distinct :=
      h.of_mem (Members.mem_of_get? hget)
    exact hentries.nodup_keys
  next => exact List.nodup_nil

/-- Induction along the nodes of a schema, which stand below their node under
its keywords or in the objects there. -/
theorem Value.induct_nodes {motive : Value → Prop}
    (obj : ∀ ms : Members, (∀ m ∈ ms, motive m.2) →
      (∀ keyword, ∀ e ∈ ms.table keyword, motive e.2) → motive (.obj ms))
    (other : ∀ v : Value, ¬ v.IsObject → motive v) (v : Value) : motive v := by
  -- The entries of an object stand two steps below the node whose keyword holds
  -- the object, so the induction carries along what holds of them.
  suffices h : motive v ∧ ∀ entries, v = .obj entries → ∀ e ∈ entries,
      motive e.2 from h.1
  induction v with
  | obj members ih =>
      have hentries : ∀ keyword, ∀ e ∈ Members.table members keyword,
          motive e.2 := by
        intro keyword e he
        obtain ⟨entries, hget, he⟩ := Members.exists_get?_of_mem_table he
        exact (ih _ (Members.mem_of_get? hget)).2 entries rfl e he
      refine ⟨obj members (fun m hm => (ih m hm).1) hentries, ?_⟩
      rintro _ ⟨⟩ e he
      exact (ih e he).1
  | _ =>
      constructor
      · apply other
        rintro ⟨ms, heq⟩
        cases heq
      · rintro entries heq
        cases heq

namespace Properties

/-- All declared members, required ones first. -/
def declared (p : Properties) : List (String × Schema) :=
  p.required ++ p.optional

/-- The names of all declared members. -/
def names (p : Properties) : List String :=
  p.declared.map Prod.fst

end Properties

theorem TypeKind.ofName?_eq_some_iff {name : String} {kind : TypeKind} :
    ofName? name = some kind ↔ name = kind.name := by
  constructor
  · intro h
    have hname := List.find?_some h
    exact (of_decide_eq_true hname).symm
  · rintro rfl
    cases kind <;> decide

namespace Schema

/-! ## Groups -/

/-- The keywords of a group. -/
def Group.keywords : Group → List String
  | .ref => ["ref"]
  | .type => ["type"]
  | .enum => ["enum"]
  | .elements => ["elements"]
  | .values => ["values"]
  | .properties => ["properties", "optionalProperties", "additionalProperties"]
  | .discriminator => ["discriminator", "mapping"]

/-- The keywords of the group that a node uses; none if it uses no group. -/
def keywordsOf : Option Group → List String
  | none => []
  | some group => group.keywords

/-- The keyword belongs to no group, but every node may use it, or the root. -/
def IsShared (isRoot : Bool) (keyword : String) : Prop :=
  keyword = "nullable" ∨ keyword = "metadata" ∨
    (isRoot = true ∧ keyword = "definitions")

/-- Besides the shared keywords a node uses the given ones alone. -/
def UsesOnly (isRoot : Bool) (ms : Members) (keywords : List String) : Prop :=
  ∀ key ∈ ms.keys, IsShared isRoot key ∨ key ∈ keywords

theorem Group.ofKeyword?_eq_some_iff {keyword : String} {group : Group} :
    ofKeyword? keyword = some group ↔ keyword ∈ group.keywords := by
  constructor
  · intro h
    unfold ofKeyword? at h
    split_ifs at h with h₁ h₂ h₃ h₄ h₅ h₆ h₇
    all_goals
      cases h
      simpa [keywords]
  · intro h
    cases group
    all_goals
      simp only [keywords, List.mem_cons, List.not_mem_nil, or_false] at h
      rcases h with rfl | rfl | rfl
      all_goals decide

section

variable {isRoot : Bool} {path : Pointer} {found : Option (Group × String)}
    {key : String} {keys : List String} {group : Option Group}

theorem groupOf_cons_of_isShared (h : IsShared isRoot key) :
    groupOf isRoot path found (key :: keys) =
      groupOf isRoot path found keys := by
  rcases h with rfl | rfl | ⟨rfl, rfl⟩
  · rfl
  · rfl
  · rfl

/-- A keyword that is not shared belongs to the group that was found before, if
there was one. -/
theorem groupOf_cons_eq_ok_iff (h : ¬ IsShared isRoot key) :
    groupOf isRoot path found (key :: keys) = .ok group ↔
      ∃ own : Group, key ∈ own.keywords ∧ (∀ f ∈ found, f.1 = own) ∧
        groupOf isRoot path (some (found.getD (own, key))) keys =
          .ok group := by
  simp only [IsShared, not_or, not_and] at h
  obtain ⟨hnullable, hmetadata, hdefinitions⟩ := h
  simp only [groupOf, hnullable, hmetadata, or_self, if_false,
    ← Group.ofKeyword?_eq_some_iff]
  by_cases hkey : key = "definitions"
  · have hroot : isRoot = false := by
      by_contra hroot
      exact hdefinitions (by simpa using hroot) hkey
    subst hkey
    simp [hroot, Group.ofKeyword?]
  · rw [if_neg hkey]
    cases Group.ofKeyword? key with
    | none => simp
    | some own =>
        cases found with
        | none => simp
        | some f =>
            obtain ⟨existing, first⟩ := f
            by_cases heq : existing = own
            · simp [heq]
            · simp [heq]

theorem groupOf_some_eq_ok_iff {own : Group} {first : String} :
    groupOf isRoot path (some (own, first)) keys = .ok group ↔
      group = some own ∧ ∀ key ∈ keys, IsShared isRoot key ∨
        key ∈ own.keywords := by
  induction keys with
  | nil => simp [groupOf, eq_comm]
  | cons key keys ih =>
      rw [List.forall_mem_cons]
      by_cases hshared : IsShared isRoot key
      · rw [groupOf_cons_of_isShared hshared, ih]
        simp [hshared]
      · rw [groupOf_cons_eq_ok_iff hshared]
        simp [hshared, ih]
        tauto

theorem notMem_keywords_of_isShared (h : IsShared isRoot key) (own : Group) :
    key ∉ own.keywords := by
  rcases h with rfl | rfl | ⟨-, rfl⟩
  all_goals
    cases own <;> decide

/-- The group of a node is the one that all its keywords belong to. -/
theorem groupOf_none_eq_ok_iff :
    groupOf isRoot path none keys = .ok group ↔
      (∀ key ∈ keys, IsShared isRoot key ∨ key ∈ keywordsOf group) ∧
        ∀ own ∈ group, ∃ key ∈ keys, key ∈ own.keywords := by
  induction keys with
  | nil => cases group <;> simp [groupOf]
  | cons key keys ih =>
      rw [List.forall_mem_cons]
      by_cases hshared : IsShared isRoot key
      · rw [groupOf_cons_of_isShared hshared, ih]
        simp [hshared, notMem_keywords_of_isShared hshared]
      · rw [groupOf_cons_eq_ok_iff hshared]
        simp only [Option.getD_none, groupOf_some_eq_ok_iff]
        constructor
        · rintro ⟨own, hkey, -, rfl, hkeys⟩
          refine ⟨⟨Or.inr hkey, hkeys⟩, ?_⟩
          rintro _ ⟨⟩
          exact ⟨key, List.mem_cons_self, hkey⟩
        · rintro ⟨⟨hkey, hkeys⟩, -⟩
          have hmem := hkey.resolve_left hshared
          cases group with
          | none => cases hmem
          | some own => exact ⟨own, hmem, nofun, rfl, hkeys⟩

end

/-! ## Keywords of a known type -/

section

variable {names : List String} {path base : Pointer}
    {ms : List (String × Value)} {keyword : String}

theorem flagOf_eq_ok_iff {b : Bool} :
    flagOf path keyword ms = .ok b ↔
      (∀ v ∈ Members.get? ms keyword, v.IsBoolean) ∧
        b = Members.flag ms keyword := by
  unfold flagOf Members.flag
  split
  next hget => simp [hget, eq_comm]
  next hget => simp [hget, Value.IsBoolean, eq_comm]
  next v hboolean hget =>
    simp only [hget, reduceCtorEq, false_iff, not_and]
    intro h
    obtain ⟨b, rfl⟩ := h v rfl
    exact absurd rfl (hboolean b)

theorem metadataOf_eq_ok_iff {metadata : Option Members} :
    metadataOf path ms = .ok metadata ↔
      (∀ v ∈ Members.get? ms "metadata", v.IsObject) ∧
        metadata = Members.object? ms "metadata" := by
  unfold metadataOf Members.object?
  split
  next hget => simp [hget, eq_comm]
  next hget => simp [hget, Value.IsObject, eq_comm]
  next v hobject hget =>
    simp only [hget, reduceCtorEq, false_iff, not_and]
    intro h
    obtain ⟨entries, rfl⟩ := h v rfl
    exact absurd rfl (hobject entries)

theorem refOf_eq_ok_iff {f : Form} :
    refOf names path ms = .ok f ↔
      ∃ name, Members.get? ms "ref" = some (.str name) ∧ name ∈ names ∧
        f = .ref name := by
  unfold refOf
  split
  next name hget =>
    rw [hget]
    by_cases hmem : name ∈ names
    · simp [hmem, eq_comm]
    · simp [hmem]
  next hstring =>
    simp only [wrongType, reduceCtorEq, false_iff]
    rintro ⟨name, hget, -⟩
    exact hstring name hget

theorem typeOf_eq_ok_iff {f : Form} :
    typeOf path ms = .ok f ↔
      ∃ kind : TypeKind, Members.get? ms "type" = some (.str kind.name) ∧
        f = .type kind := by
  unfold typeOf
  split
  next name hget =>
    simp only [hget, Option.some.injEq, Value.str.injEq,
      ← TypeKind.ofName?_eq_some_iff]
    cases TypeKind.ofName? name with
    | none => simp
    | some kind => simp [eq_comm]
  next hstring =>
    simp only [wrongType, reduceCtorEq, false_iff]
    rintro ⟨kind, hget, -⟩
    exact hstring kind.name hget

/-- The values of an enum are strings that differ from each other and from those
before. -/
theorem enumValues_eq_ok_iff {i : Nat} {seen : List String} {items : List Value}
    {values : List String} :
    enumValues path i seen items = .ok values ↔
      items = values.map .str ∧ values.Nodup ∧ ∀ s ∈ values, s ∉ seen := by
  induction items generalizing i seen values with
  | nil => cases values <;> simp [enumValues]
  | cons item items ih =>
      cases item with
      | str s =>
          by_cases hseen : s ∈ seen
          · simp only [enumValues, if_pos hseen, reduceCtorEq, false_iff]
            rintro ⟨hvalues, -, hfresh⟩
            cases values with
            | nil => cases hvalues
            | cons value values =>
                cases hvalues
                exact hfresh s List.mem_cons_self hseen
          · simp only [enumValues, if_neg hseen, map_eq_ok_iff, ih]
            constructor
            · rintro ⟨rest, ⟨rfl, hnodup, hfresh⟩, rfl⟩
              refine ⟨rfl, List.nodup_cons.mpr ⟨fun hmem => ?_, hnodup⟩, ?_⟩
              · exact hfresh s hmem List.mem_cons_self
              · intro t ht
                rcases List.mem_cons.mp ht with rfl | ht
                · exact hseen
                · exact fun hmem => hfresh t ht (List.mem_cons_of_mem _ hmem)
            · rintro ⟨hvalues, hnodup, hfresh⟩
              cases values with
              | nil => cases hvalues
              | cons value values =>
                  cases hvalues
                  obtain ⟨hnew, hnodup⟩ := List.nodup_cons.mp hnodup
                  refine ⟨values, ⟨rfl, hnodup, fun t ht hmem => ?_⟩, rfl⟩
                  rcases List.mem_cons.mp hmem with rfl | hmem
                  · exact hnew ht
                  · exact hfresh t (List.mem_cons_of_mem _ ht) hmem
      | _ =>
          simp only [enumValues, reduceCtorEq, false_iff]
          rintro ⟨hvalues, -⟩
          cases values with
          | nil => cases hvalues
          | cons => cases hvalues

theorem enumOf_eq_ok_iff {f : Form} :
    enumOf path ms = .ok f ↔
      ∃ values : List String,
        Members.get? ms "enum" = some (.arr (values.map .str)) ∧
        values ≠ [] ∧ values.Nodup ∧ f = .enum values := by
  unfold enumOf
  split
  next hget =>
    simp only [hget, reduceCtorEq, false_iff]
    rintro ⟨values, hvalues, hne, -⟩
    cases values with
    | nil => exact hne rfl
    | cons => cases hvalues
  next items hitems hget =>
    simp only [map_eq_ok_iff, enumValues_eq_ok_iff]
    constructor
    · rintro ⟨values, ⟨rfl, hnodup, -⟩, rfl⟩
      refine ⟨values, hget, ?_, hnodup, rfl⟩
      rintro rfl
      exact hitems rfl
    · rintro ⟨values, hvalues, -, hnodup, rfl⟩
      rw [hget] at hvalues
      cases hvalues
      exact ⟨values, ⟨rfl, hnodup, by simp⟩, rfl⟩
  next _ harray =>
    simp only [wrongType, reduceCtorEq, false_iff]
    rintro ⟨values, hget, -⟩
    exact harray _ hget

theorem tagOf_eq_ok_iff {tag : String} :
    tagOf path ms = .ok tag ↔
      Members.get? ms "discriminator" = some (.str tag) ∧
        "mapping" ∈ Members.keys ms := by
  unfold tagOf
  split
  next hboth =>
    have hmapping := Members.has_iff.mp (Bool.and_eq_true_iff.mp hboth).2
    split
    next name hget => simp [hget, hmapping]
    next hstring =>
      simp only [wrongType, reduceCtorEq, false_iff, not_and]
      exact fun hget => absurd hget (hstring tag)
  next hnot =>
    have hmissing : ¬ (Members.get? ms "discriminator" = some (.str tag) ∧
        "mapping" ∈ Members.keys ms) := by
      rintro ⟨hget, hmapping⟩
      refine hnot (Bool.and_eq_true_iff.mpr ⟨?_, Members.has_iff.mpr hmapping⟩)
      exact Members.has_iff.mpr (Members.mem_keys_of_get? hget)
    rw [iff_false_right hmissing]
    split <;> simp

/-! ## Keywords that hold schemas -/

/-- A named schema is checked from an entry at the entry's place. -/
def EntryAt (names : List String) (base : Pointer) (e : String × Value)
    (d : String × Schema) : Prop :=
  e.1 = d.1 ∧ check names false (base.child e.1) e.2 = .ok d.2

/-- The schema that an entry is checked to makes up a branch. -/
def BranchSpelled (names : List String) (base : Pointer) (tag : String)
    (e : String × Value) (b : String × Branch) : Prop :=
  e.1 = b.1 ∧ ∃ s, check names false (base.child e.1) e.2 = .ok s ∧
    branchOf (base.child e.1) tag s = .ok b.2

theorem checkUnder_eq :
    checkUnder names path keyword ms =
      match Members.get? ms keyword with
      | none => .error ⟨path.child keyword, .notAnObject⟩
      | some v => check names false (path.child keyword) v := by
  induction ms with
  | nil => rfl
  | cons m ms ih =>
      obtain ⟨key, v⟩ := m
      rw [checkUnder, Members.get?_cons]
      by_cases hkey : key = keyword
      · rw [if_pos hkey, if_pos hkey]
      · rw [if_neg hkey, if_neg hkey]
        exact ih

theorem checkTable?_eq :
    checkTable? names path keyword ms =
      (Members.get? ms keyword).map fun
        | .obj entries => checkEntries names (path.child keyword) entries
        | _ => .error (wrongType path keyword "an object") := by
  induction ms with
  | nil => rfl
  | cons m ms ih =>
      obtain ⟨key, v⟩ := m
      rw [Members.get?_cons]
      unfold checkTable?
      by_cases hkey : key = keyword
      · rw [if_pos hkey, if_pos hkey]
        cases v <;> rfl
      · rw [if_neg hkey, if_neg hkey]
        exact ih

theorem checkMapping_eq {tag : String} :
    checkMapping names path tag ms =
      match Members.get? ms "mapping" with
      | none => .ok []
      | some (.obj entries) =>
        checkBranches names (path.child "mapping") tag entries
      | some _ => .error (wrongType path "mapping" "an object") := by
  induction ms with
  | nil => rfl
  | cons m ms ih =>
      obtain ⟨key, v⟩ := m
      rw [Members.get?_cons]
      unfold checkMapping
      by_cases hkey : key = "mapping"
      · rw [if_pos hkey, if_pos hkey]
        cases v <;> rfl
      · rw [if_neg hkey, if_neg hkey]
        exact ih

theorem checkEntries_eq_ok_iff {table : List (String × Schema)} :
    checkEntries names base ms = .ok table ↔
      List.Forall₂ (EntryAt names base) ms table := by
  induction ms generalizing table with
  | nil =>
      rw [checkEntries, List.forall₂_nil_left_iff]
      simp [eq_comm]
  | cons m ms ih =>
      obtain ⟨name, v⟩ := m
      simp only [checkEntries, bind_eq_ok_iff, ih]
      constructor
      · rintro ⟨s, hs, rest, hrest, heq⟩
        cases heq
        exact .cons ⟨rfl, hs⟩ hrest
      · rintro (_ | @⟨_, d, _, rest, ⟨hname, hs⟩, hrest⟩)
        refine ⟨d.2, hs, rest, hrest, ?_⟩
        rw [show name = d.1 from hname]

theorem checkBranches_eq_ok_iff {tag : String}
    {mapping : List (String × Branch)} :
    checkBranches names base tag ms = .ok mapping ↔
      List.Forall₂ (BranchSpelled names base tag) ms mapping := by
  induction ms generalizing mapping with
  | nil =>
      rw [checkBranches, List.forall₂_nil_left_iff]
      simp [eq_comm]
  | cons m ms ih =>
      obtain ⟨value, v⟩ := m
      simp only [checkBranches, bind_eq_ok_iff, ih]
      constructor
      · rintro ⟨s, hs, branch, hbranch, rest, hrest, heq⟩
        cases heq
        exact .cons ⟨rfl, s, hs, hbranch⟩ hrest
      · rintro (_ | @⟨_, b, _, rest, ⟨hname, s, hs, hbranch⟩, hrest⟩)
        refine ⟨s, hs, b.2, hbranch, rest, hrest, ?_⟩
        rw [show value = b.1 from hname]

/-- A branch is a schema of the properties form that is not nullable and does
not declare the tag. -/
theorem branchOf_eq_ok_iff {tag : String} {s : Schema} {b : Branch} :
    branchOf path tag s = .ok b ↔
      s.nullable = false ∧ s.form = .properties b.properties ∧
        s.metadata = b.metadata ∧ tag ∉ b.properties.names := by
  obtain ⟨metadata, p⟩ := b
  unfold branchOf
  by_cases hnullable : s.nullable = true
  · simp [hnullable]
  · rw [if_neg hnullable]
    cases hform : s.form with
    | properties q =>
        simp only [Form.properties.injEq, Properties.names, Properties.declared,
          List.map_append, List.mem_append, List.mem_map]
        by_cases hrequired : q.required.any (·.1 = tag) = true
        · rw [if_pos hrequired]
          obtain ⟨m, hm, htag⟩ := List.any_eq_true.mp hrequired
          simp only [reduceCtorEq, false_iff]
          rintro ⟨-, rfl, -, hundeclared⟩
          exact hundeclared (Or.inl ⟨m, hm, of_decide_eq_true htag⟩)
        · rw [if_neg hrequired]
          by_cases hoptional : q.optional.any (·.1 = tag) = true
          · rw [if_pos hoptional]
            obtain ⟨m, hm, htag⟩ := List.any_eq_true.mp hoptional
            simp only [reduceCtorEq, false_iff]
            rintro ⟨-, rfl, -, hundeclared⟩
            exact hundeclared (Or.inr ⟨m, hm, of_decide_eq_true htag⟩)
          · rw [if_neg hoptional]
            constructor
            · intro h
              cases h
              refine ⟨Bool.not_eq_true _ ▸ hnullable, rfl, rfl, ?_⟩
              rintro (⟨m, hm, htag⟩ | ⟨m, hm, htag⟩)
              · exact hrequired (List.any_eq_true.mpr ⟨m, hm, by simpa⟩)
              · exact hoptional (List.any_eq_true.mpr ⟨m, hm, by simpa⟩)
            · rintro ⟨-, rfl, rfl, -⟩
              rfl
    | _ => simp

/-- The named schemas are checked from the object under a keyword, which may be
absent. -/
structure TableSpelled (names : List String) (path : Pointer) (ms : Members)
    (keyword : String) (table : List (String × Schema)) : Prop where
  isObject : ∀ v ∈ ms.get? keyword, v.IsObject
  entries : List.Forall₂ (EntryAt names (path.child keyword)) (ms.table keyword)
    table

theorem checkTable?_eq_ok_iff {table : List (String × Schema)} :
    (checkTable? names path keyword ms).getD (.ok []) = .ok table ↔
      TableSpelled names path ms keyword table := by
  rw [checkTable?_eq]
  cases hget : Members.get? ms keyword with
  | none =>
      rw [Option.map_none, Option.getD_none, Except.ok.injEq]
      constructor
      · rintro rfl
        refine ⟨by simp [hget], ?_⟩
        rw [Members.table_of_none hget]
        exact .nil
      · intro h
        have hentries := h.entries
        rw [Members.table_of_none hget] at hentries
        cases hentries
        rfl
  | some v =>
      rw [Option.map_some, Option.getD_some]
      cases v with
      | obj entries =>
          rw [checkEntries_eq_ok_iff, ← Members.table_of_get? hget]
          constructor
          · intro h
            exact ⟨by simp [hget, Value.IsObject], h⟩
          · exact TableSpelled.entries
      | _ =>
          simp only [reduceCtorEq, false_iff]
          intro h
          obtain ⟨entries, heq⟩ := h.isObject _ hget
          cases heq

theorem checkTable?_isSome :
    (checkTable? names path keyword ms).isSome = Members.has ms keyword := by
  rw [checkTable?_eq, Option.isSome_map, Bool.eq_iff_iff, Members.has_iff,
    Members.get?_isSome_iff]

/-- The declared members that the keywords of the properties form spell. -/
structure PropertiesSpelled (names : List String) (path : Pointer) (ms : Members)
    (p : Properties) : Prop where
  present : "properties" ∈ ms.keys ∨ "optionalProperties" ∈ ms.keys
  declaresRequired : p.declaresRequired = ms.has "properties"
  required : TableSpelled names path ms "properties" p.required
  optional : TableSpelled names path ms "optionalProperties" p.optional
  disjoint : ∀ m ∈ p.optional, ∀ d ∈ p.required, d.1 ≠ m.1
  isBoolean : ∀ v ∈ ms.get? "additionalProperties", v.IsBoolean
  additional : p.additional = ms.flag "additionalProperties"

theorem propertiesOf_eq_ok_iff {p : Properties} :
    propertiesOf path ms (checkTable? names path "properties" ms)
        (checkTable? names path "optionalProperties" ms) = .ok p ↔
      PropertiesSpelled names path ms p := by
  have hpresent : ((checkTable? names path "properties" ms).isNone &&
      (checkTable? names path "optionalProperties" ms).isNone) = true ↔
        ¬ ("properties" ∈ Members.keys ms ∨
          "optionalProperties" ∈ Members.keys ms) := by
    simp only [← Option.not_isSome, checkTable?_isSome, Bool.and_eq_true,
      Bool.not_eq_true', ← Members.has_iff, not_or, Bool.not_eq_true]
  unfold propertiesOf
  by_cases hnone : "properties" ∈ Members.keys ms ∨
      "optionalProperties" ∈ Members.keys ms
  · rw [if_neg (by rw [hpresent]; exact not_not_intro hnone)]
    simp only [bind_eq_ok_iff, checkTable?_eq_ok_iff]
    constructor
    · rintro ⟨declared, hdeclared, extra, hextra, h⟩
      split at h
      next => cases h
      next hfind =>
        obtain ⟨additional, hflag, h⟩ := exists_ok_of_bind h
        obtain ⟨hboolean, hadditional⟩ := flagOf_eq_ok_iff.mp hflag
        cases h
        refine ⟨hnone, checkTable?_isSome, hdeclared, hextra, ?_, hboolean,
          hadditional⟩
        intro m hm d hd heq
        have hdisjoint := List.find?_eq_none.mp hfind m hm
        exact hdisjoint (List.any_eq_true.mpr ⟨d, hd, by simpa using heq⟩)
    · intro h
      refine ⟨p.required, h.required, p.optional, h.optional, ?_⟩
      have hfind : (p.optional.find? fun m =>
          p.required.any (·.1 = m.1)) = none := by
        rw [List.find?_eq_none]
        intro m hm hany
        obtain ⟨d, hd, heq⟩ := List.any_eq_true.mp hany
        exact h.disjoint m hm d hd (of_decide_eq_true heq)
      rw [hfind, flagOf_eq_ok_iff.mpr ⟨h.isBoolean, h.additional⟩,
        checkTable?_isSome, ← h.declaresRequired]
      cases p
      rfl
  · rw [if_pos (hpresent.mpr hnone)]
    simp only [reduceCtorEq, false_iff]
    exact fun h => hnone h.present

/-! ## Nodes -/

/-- The form that the keywords of a group spell for the node at `path`. -/
inductive FormSpelled (names : List String) (path : Pointer) (ms : Members) :
    Option Group → Form → Prop
  | empty : FormSpelled names path ms none .empty
  | ref {name : String} :
      ms.get? "ref" = some (.str name) → name ∈ names →
        FormSpelled names path ms (some .ref) (.ref name)
  | type {kind : TypeKind} :
      ms.get? "type" = some (.str kind.name) →
        FormSpelled names path ms (some .type) (.type kind)
  | enum {values : List String} :
      ms.get? "enum" = some (.arr (values.map .str)) → values ≠ [] →
      values.Nodup →
        FormSpelled names path ms (some .enum) (.enum values)
  | elements {v : Value} {item : Schema} :
      ms.get? "elements" = some v →
      check names false (path.child "elements") v = .ok item →
        FormSpelled names path ms (some .elements) (.elements item)
  | values {v : Value} {item : Schema} :
      ms.get? "values" = some v →
      check names false (path.child "values") v = .ok item →
        FormSpelled names path ms (some .values) (.values item)
  | properties {p : Properties} :
      PropertiesSpelled names path ms p →
        FormSpelled names path ms (some .properties) (.properties p)
  | discriminator {tag : String} {entries : List (String × Value)}
      {mapping : List (String × Branch)} :
      ms.get? "discriminator" = some (.str tag) →
      ms.get? "mapping" = some (.obj entries) →
      List.Forall₂ (BranchSpelled names (path.child "mapping") tag) entries
        mapping →
        FormSpelled names path ms (some .discriminator)
          (.discriminator tag mapping)

/-- The schema that all keywords of the node at `path` spell together. -/
structure NodeSpelled (names : List String) (isRoot : Bool) (path : Pointer)
    (ms : Members) (group : Option Group) (s : Schema) : Prop where
  uses : UsesOnly isRoot ms (keywordsOf group)
  isBoolean : ∀ v ∈ ms.get? "nullable", v.IsBoolean
  nullable : s.nullable = ms.flag "nullable"
  isObject : ∀ v ∈ ms.get? "metadata", v.IsObject
  metadata : s.metadata = ms.object? "metadata"
  form : FormSpelled names path ms group s.form

/-- A form shows which group its keywords belong to. -/
theorem FormSpelled.exists_keyword {group : Group} {f : Form}
    (h : FormSpelled names path ms (some group) f) :
    ∃ key ∈ Members.keys ms, key ∈ group.keywords := by
  cases h with
  | ref hget => exact ⟨_, Members.mem_keys_of_get? hget, by decide⟩
  | type hget => exact ⟨_, Members.mem_keys_of_get? hget, by decide⟩
  | enum hget => exact ⟨_, Members.mem_keys_of_get? hget, by decide⟩
  | elements hget => exact ⟨_, Members.mem_keys_of_get? hget, by decide⟩
  | values hget => exact ⟨_, Members.mem_keys_of_get? hget, by decide⟩
  | properties h =>
      rcases h.present with hkey | hkey
      · exact ⟨_, hkey, by decide⟩
      · exact ⟨_, hkey, by decide⟩
  | discriminator hget => exact ⟨_, Members.mem_keys_of_get? hget, by decide⟩

theorem checkUnder_eq_ok_iff {s : Schema} :
    checkUnder names path keyword ms = .ok s ↔
      ∃ v, Members.get? ms keyword = some v ∧
        check names false (path.child keyword) v = .ok s := by
  rw [checkUnder_eq]
  cases Members.get? ms keyword with
  | none => simp
  | some v => simp

theorem checkMapping_eq_ok_iff {tag : String} {mapping : List (String × Branch)}
    (hmapping : "mapping" ∈ Members.keys ms) :
    checkMapping names path tag ms = .ok mapping ↔
      ∃ entries, Members.get? ms "mapping" = some (.obj entries) ∧
        List.Forall₂ (BranchSpelled names (path.child "mapping") tag) entries
          mapping := by
  obtain ⟨v, hget⟩ := Members.exists_get? hmapping
  rw [checkMapping_eq, hget]
  cases v with
  | obj entries => simp [checkBranches_eq_ok_iff]
  | _ => simp

/-- The form of the node at `path`, given the group of its keywords. -/
def formOf (names : List String) (path : Pointer) (ms : Members) :
    Option Group → Except SchemaError Form
  | none => .ok .empty
  | some .ref => refOf names path ms
  | some .type => typeOf path ms
  | some .enum => enumOf path ms
  | some .elements => (checkUnder names path "elements" ms).map .elements
  | some .values => (checkUnder names path "values" ms).map .values
  | some .properties =>
    (propertiesOf path ms (checkTable? names path "properties" ms)
      (checkTable? names path "optionalProperties" ms)).map .properties
  | some .discriminator =>
    (tagOf path ms).bind fun tag =>
      (checkMapping names path tag ms).map (.discriminator tag)

theorem check_obj_eq {isRoot : Bool} :
    check names isRoot path (.obj ms) = (do
      let group ← groupOf isRoot path none (Members.keys ms)
      let nullable ← flagOf path "nullable" ms
      let metadata ← metadataOf path ms
      let form ← formOf names path ms group
      .ok ⟨nullable, metadata, form⟩) := by
  unfold check formOf
  rfl

/-- The form of a node is exactly what its keywords spell. -/
theorem formOf_eq_ok_iff {group : Option Group} {f : Form} :
    formOf names path ms group = .ok f ↔
      FormSpelled names path ms group f := by
  constructor
  · intro h
    cases group with
    | none =>
        cases h
        exact .empty
    | some group =>
        cases group with
        | ref =>
            obtain ⟨name, hget, hmem, rfl⟩ := refOf_eq_ok_iff.mp h
            exact .ref hget hmem
        | type =>
            obtain ⟨kind, hget, rfl⟩ := typeOf_eq_ok_iff.mp h
            exact .type hget
        | enum =>
            obtain ⟨values, hget, hne, hnodup, rfl⟩ := enumOf_eq_ok_iff.mp h
            exact .enum hget hne hnodup
        | elements =>
            obtain ⟨item, hitem, rfl⟩ := exists_ok_of_map h
            obtain ⟨v, hget, hchecked⟩ := checkUnder_eq_ok_iff.mp hitem
            exact .elements hget hchecked
        | values =>
            obtain ⟨item, hitem, rfl⟩ := exists_ok_of_map h
            obtain ⟨v, hget, hchecked⟩ := checkUnder_eq_ok_iff.mp hitem
            exact .values hget hchecked
        | properties =>
            obtain ⟨p, hp, rfl⟩ := exists_ok_of_map h
            exact .properties (propertiesOf_eq_ok_iff.mp hp)
        | discriminator =>
            obtain ⟨tag, htag, hform⟩ := exists_ok_of_bind h
            obtain ⟨mapping, hmapping, rfl⟩ := exists_ok_of_map hform
            obtain ⟨hget, hkey⟩ := tagOf_eq_ok_iff.mp htag
            obtain ⟨entries, hentries, hbranches⟩ :=
              (checkMapping_eq_ok_iff hkey).mp hmapping
            exact .discriminator hget hentries hbranches
  · intro h
    cases h with
    | empty => rfl
    | ref hget hmem => exact refOf_eq_ok_iff.mpr ⟨_, hget, hmem, rfl⟩
    | type hget => exact typeOf_eq_ok_iff.mpr ⟨_, hget, rfl⟩
    | enum hget hne hnodup =>
        exact enumOf_eq_ok_iff.mpr ⟨_, hget, hne, hnodup, rfl⟩
    | elements hget hitem =>
        exact map_eq_ok_iff.mpr
          ⟨_, checkUnder_eq_ok_iff.mpr ⟨_, hget, hitem⟩, rfl⟩
    | values hget hitem =>
        exact map_eq_ok_iff.mpr
          ⟨_, checkUnder_eq_ok_iff.mpr ⟨_, hget, hitem⟩, rfl⟩
    | properties hp =>
        exact map_eq_ok_iff.mpr ⟨_, propertiesOf_eq_ok_iff.mpr hp, rfl⟩
    | discriminator hget hentries hbranches =>
        have hkey := Members.mem_keys_of_get? hentries
        refine bind_eq_ok_iff.mpr
          ⟨_, tagOf_eq_ok_iff.mpr ⟨hget, hkey⟩, map_eq_ok_iff.mpr ?_⟩
        exact ⟨_, (checkMapping_eq_ok_iff hkey).mpr
          ⟨_, hentries, hbranches⟩, rfl⟩

/-- A node is checked to exactly the schema that its keywords spell. -/
theorem check_eq_ok_iff {isRoot : Bool} {v : Value} {s : Schema} :
    check names isRoot path v = .ok s ↔
      ∃ ms group, v = .obj ms ∧ NodeSpelled names isRoot path ms group s := by
  cases v with
  | obj ms =>
      simp only [check_obj_eq, bind_eq_ok_iff, groupOf_none_eq_ok_iff,
        flagOf_eq_ok_iff, metadataOf_eq_ok_iff, formOf_eq_ok_iff]
      constructor
      · rintro ⟨group, ⟨huses, -⟩, _, ⟨hboolean, rfl⟩, _, ⟨hobject, rfl⟩, form,
          hform, h⟩
        cases h
        exact ⟨ms, group, rfl, huses, hboolean, rfl, hobject, rfl, hform⟩
      · rintro ⟨_, group, ⟨⟩, h⟩
        have hgroup : ∀ own ∈ group, ∃ key ∈ Members.keys ms,
            key ∈ own.keywords := by
          rintro own rfl
          exact h.form.exists_keyword
        exact ⟨group, ⟨h.uses, hgroup⟩, s.nullable, ⟨h.isBoolean, h.nullable⟩,
          s.metadata, ⟨h.isObject, h.metadata⟩, s.form, h.form, by cases s; rfl⟩
  | _ => simp [check]

end

end Schema
end JsonTypedef
