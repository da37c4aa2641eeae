import JsonTypedef.Proofs.Schema.Keywords

/-!
# The grammar of schema documents

`Value.IsSchema` and `Value.IsDocument` say which JSON values are schemas and
schema documents, without a checker, an order of keywords or an error.  By
`Document.exists_ofValue_iff` the checker accepts these values and no others.
-/

namespace JsonTypedef

/-- The members use the given keywords, and besides them at most a boolean
`nullable`, an object of `metadata` and, at the root, `definitions`. -/
structure Members.Limited (isRoot : Bool) (ms : Members)
    (keywords : List String) : Prop where
  uses : Schema.UsesOnly isRoot ms keywords
  nullable : ∀ v ∈ ms.get? "nullable", v.IsBoolean
  metadata : ∀ v ∈ ms.get? "metadata", v.IsObject

namespace Value

/-- The value is an object that may be null under no circumstances, has a
keyword of the properties form and declares no member named `tag`. -/
def IsBranch (tag : String) (v : Value) : Prop :=
  ∃ ms, v = .obj ms ∧ Members.get? ms "nullable" ≠ some (.bool true) ∧
    ("properties" ∈ Members.keys ms ∨
      "optionalProperties" ∈ Members.keys ms) ∧
    tag ∉ (Members.table ms "properties").keys ∧
    tag ∉ (Members.table ms "optionalProperties").keys

/-- The value is a schema whose refs name definitions from `names`. -/
inductive IsSchema (names : List String) : Bool → Value → Prop
  | empty {isRoot : Bool} {ms : Members} :
      ms.Limited isRoot [] → IsSchema names isRoot (.obj ms)
  | ref {isRoot : Bool} {ms : Members} {name : String} :
      ms.Limited isRoot ["ref"] → ms.get? "ref" = some (.str name) →
      name ∈ names → IsSchema names isRoot (.obj ms)
  | type {isRoot : Bool} {ms : Members} {kind : TypeKind} :
      ms.Limited isRoot ["type"] → ms.get? "type" = some (.str kind.name) →
      IsSchema names isRoot (.obj ms)
  | enum {isRoot : Bool} {ms : Members} {values : List String} :
      ms.Limited isRoot ["enum"] →
      ms.get? "enum" = some (.arr (values.map .str)) → values ≠ [] →
      values.Nodup → IsSchema names isRoot (.obj ms)
  | elements {isRoot : Bool} {ms : Members} {item : Value} :
      ms.Limited isRoot ["elements"] → ms.get? "elements" = some item →
      IsSchema names false item → IsSchema names isRoot (.obj ms)
  | values {isRoot : Bool} {ms : Members} {item : Value} :
      ms.Limited isRoot ["values"] → ms.get? "values" = some item →
      IsSchema names false item → IsSchema names isRoot (.obj ms)
  | properties {isRoot : Bool} {ms : Members} :
      ms.Limited isRoot
        ["properties", "optionalProperties", "additionalProperties"] →
      ("properties" ∈ ms.keys ∨ "optionalProperties" ∈ ms.keys) →
      (∀ v ∈ ms.get? "properties", v.IsObject) →
      (∀ v ∈ ms.get? "optionalProperties", v.IsObject) →
      (∀ v ∈ ms.get? "additionalProperties", v.IsBoolean) →
      (∀ e ∈ ms.table "properties", IsSchema names false e.2) →
      (∀ e ∈ ms.table "optionalProperties", IsSchema names false e.2) →
      (∀ name ∈ (ms.table "properties").keys,
        name ∉ (ms.table "optionalProperties").keys) →
        IsSchema names isRoot (.obj ms)
  | discriminator {isRoot : Bool} {ms mapping : Members} {tag : String} :
      ms.Limited isRoot ["discriminator", "mapping"] →
      ms.get? "discriminator" = some (.str tag) →
      ms.get? "mapping" = some (.obj mapping) →
      (∀ e ∈ mapping, IsSchema names false e.2) →
      (∀ e ∈ mapping, e.2.IsBranch tag) →
        IsSchema names isRoot (.obj ms)

/-- The value is a schema document: an object of definitions, if it has any,
and a root, all of them schemas whose refs name definitions. -/
def IsDocument (v : Value) : Prop :=
  ∃ ms, v = .obj ms ∧ (∀ d ∈ Members.get? ms "definitions", d.IsObject) ∧
    (∀ d ∈ Members.table ms "definitions",
      d.2.IsSchema (Members.table ms "definitions").keys false) ∧
    v.IsSchema (Members.table ms "definitions").keys true

end Value

namespace Schema

variable {names : List String} {path base : Pointer} {isRoot : Bool}
    {ms : List (String × Value)} {keyword tag : String} {group : Option Group}
    {v : Value} {s : Schema}

theorem NodeSpelled.limited (h : NodeSpelled names isRoot path ms group s) :
    Members.Limited isRoot ms (keywordsOf group) where
  uses := h.uses
  nullable := h.isBoolean
  metadata := h.isObject

theorem exists_check_of_form {f : Form}
    (hform : FormSpelled names path ms group f)
    (hlimited : Members.Limited isRoot ms (keywordsOf group)) :
    ∃ s, check names isRoot path (.obj ms) = .ok s :=
  ⟨⟨Members.flag ms "nullable", Members.object? ms "metadata", f⟩,
    check_eq_ok_iff.mpr ⟨ms, group, rfl, hlimited.uses, hlimited.nullable, rfl,
      hlimited.metadata, rfl, hform⟩⟩

/-! ## Tables -/

theorem TableSpelled.keys_eq {table : List (String × Schema)}
    (h : TableSpelled names path ms keyword table) :
    (Members.table ms keyword).keys = table.map Prod.fst :=
  map_fst_of_forall₂ (fun _ _ hentry => hentry.1) h.entries

theorem TableSpelled.forall_entries {table : List (String × Schema)}
    {holds : Value → Prop} (h : TableSpelled names path ms keyword table)
    (hentry : ∀ e ∈ Members.table ms keyword, ∀ path s,
      check names false path e.2 = .ok s → holds e.2) :
    ∀ e ∈ Members.table ms keyword, holds e.2 := by
  intro e he
  obtain ⟨d, -, -, hchecked⟩ := exists_mem_of_forall₂ h.entries.flip he
  exact hentry e he _ _ hchecked

theorem exists_tableSpelled
    (hobject : ∀ v ∈ Members.get? ms keyword, v.IsObject)
    (hentries : ∀ e ∈ Members.table ms keyword, ∀ path,
      ∃ s, check names false path e.2 = .ok s) :
    ∃ table, TableSpelled names path ms keyword table := by
  have hchecked : ∀ e ∈ Members.table ms keyword,
      ∃ d, EntryAt names (path.child keyword) e d := by
    intro e he
    obtain ⟨s, hs⟩ := hentries e he ((path.child keyword).child e.1)
    exact ⟨(e.1, s), rfl, hs⟩
  obtain ⟨table, htable⟩ := exists_forall₂ hchecked
  exact ⟨table, hobject, htable⟩

/-! ## Branches -/

theorem PropertiesSpelled.mem_names_iff {p : Properties}
    (h : PropertiesSpelled names path ms p) :
    tag ∈ p.names ↔ tag ∈ (Members.table ms "properties").keys ∨
      tag ∈ (Members.table ms "optionalProperties").keys := by
  rw [Properties.names, Properties.declared, List.map_append, List.mem_append,
    h.required.keys_eq, h.optional.keys_eq]

theorem PropertiesSpelled.disjoint_keys {p : Properties}
    (h : PropertiesSpelled names path ms p) :
    ∀ name ∈ (Members.table ms "properties").keys,
      name ∉ (Members.table ms "optionalProperties").keys := by
  rw [h.required.keys_eq, h.optional.keys_eq]
  intro name hrequired hoptional
  obtain ⟨d, hd, rfl⟩ := List.mem_map.mp hrequired
  obtain ⟨m, hm, heq⟩ := List.mem_map.mp hoptional
  exact h.disjoint m hm d hd heq.symm

/-- A node with a keyword of the properties form is of that form. -/
theorem NodeSpelled.exists_properties
    (h : NodeSpelled names isRoot path ms group s)
    (hpresent : "properties" ∈ Members.keys ms ∨
      "optionalProperties" ∈ Members.keys ms) :
    ∃ p, s.form = .properties p ∧ PropertiesSpelled names path ms p := by
  have hgroup : ∃ key ∈ Members.keys ms, key ∈ Group.properties.keywords ∧
      key ∈ keywordsOf group := by
    rcases hpresent with hkey | hkey
    · refine ⟨_, hkey, by decide, (h.uses _ hkey).resolve_left ?_⟩
      simp [IsShared]
    · refine ⟨_, hkey, by decide, (h.uses _ hkey).resolve_left ?_⟩
      simp [IsShared]
  obtain ⟨key, -, hproperties, hmem⟩ := hgroup
  have hform := h.form
  cases group with
  | none => cases hmem
  | some own =>
      have hown := Group.ofKeyword?_eq_some_iff.mpr hmem
      rw [Group.ofKeyword?_eq_some_iff.mpr hproperties] at hown
      cases hown
      generalize s.form = f at hform
      cases hform with
      | properties hp => exact ⟨_, rfl, hp⟩

/-- A checked value makes up a branch when its keywords say so. -/
theorem exists_branchOf_iff (h : check names isRoot path v = .ok s) :
    (∃ b, branchOf base tag s = .ok b) ↔ v.IsBranch tag := by
  obtain ⟨ms, group, rfl, hnode⟩ := check_eq_ok_iff.mp h
  have hnullable : s.nullable = false ↔
      Members.get? ms "nullable" ≠ some (.bool true) := by
    rw [hnode.nullable, Members.flag]
    split
    next b hget => simp [hget]
    next hboolean => simpa using hboolean true
  simp only [branchOf_eq_ok_iff, hnullable]
  constructor
  · rintro ⟨b, hnotnull, hform, -, htag⟩
    have hspelled := hnode.form
    rw [hform] at hspelled
    cases hspelled with
    | properties hp =>
        rw [hp.mem_names_iff, not_or] at htag
        exact ⟨ms, rfl, hnotnull, hp.present, htag⟩
  · rintro ⟨_, ⟨⟩, hnotnull, hpresent, htag⟩
    obtain ⟨p, hform, hp⟩ := hnode.exists_properties hpresent
    refine ⟨⟨s.metadata, p⟩, hnotnull, hform, rfl, ?_⟩
    rw [hp.mem_names_iff, not_or]
    exact htag

/-! ## Nodes -/

theorem isSchema_of_check (h : check names isRoot path v = .ok s) :
    v.IsSchema names isRoot := by
  induction v using Value.induct_nodes generalizing isRoot path s with
  | other v hobject =>
      obtain ⟨ms, -, rfl, -⟩ := check_eq_ok_iff.mp h
      exact absurd ⟨ms, rfl⟩ hobject
  | obj ms hmembers hentries =>
      obtain ⟨_, group, ⟨⟩, hnode⟩ := check_eq_ok_iff.mp h
      have hlimited := hnode.limited
      have hform := hnode.form
      generalize s.form = f at hform
      cases hform with
      | empty => exact .empty hlimited
      | ref hget hmem => exact .ref hlimited hget hmem
      | type hget => exact .type hlimited hget
      | enum hget hne hnodup => exact .enum hlimited hget hne hnodup
      | elements hget hitem =>
          exact .elements hlimited hget
            (hmembers _ (Members.mem_of_get? hget) hitem)
      | values hget hitem =>
          exact .values hlimited hget
            (hmembers _ (Members.mem_of_get? hget) hitem)
      | properties hp =>
          exact .properties hlimited hp.present hp.required.isObject
            hp.optional.isObject hp.isBoolean
            (hp.required.forall_entries fun e he _ _ => hentries _ e he)
            (hp.optional.forall_entries fun e he _ _ => hentries _ e he)
            hp.disjoint_keys
      | discriminator hget hmapping hbranches =>
          have hbranch : ∀ e ∈ _, ∃ b, BranchSpelled names _ _ e b :=
            fun e he => by
              obtain ⟨b, -, hb⟩ := exists_mem_of_forall₂ hbranches.flip he
              exact ⟨b, hb⟩
          rw [← Members.table_of_get? hmapping] at hbranch
          refine .discriminator hlimited hget hmapping ?_ ?_
          · rw [← Members.table_of_get? hmapping]
            intro e he
            obtain ⟨b, -, s, hchecked, -⟩ := hbranch e he
            exact hentries _ e he hchecked
          · rw [← Members.table_of_get? hmapping]
            intro e he
            obtain ⟨b, -, s, hchecked, hb⟩ := hbranch e he
            exact (exists_branchOf_iff hchecked).mp ⟨_, hb⟩

theorem exists_check_of_isSchema (h : v.IsSchema names isRoot) (path : Pointer) :
    ∃ s, check names isRoot path v = .ok s := by
  induction h generalizing path with
  | empty hlimited => exact exists_check_of_form .empty hlimited
  | ref hlimited hget hmem =>
      exact exists_check_of_form (.ref hget hmem) hlimited
  | type hlimited hget => exact exists_check_of_form (.type hget) hlimited
  | enum hlimited hget hne hnodup =>
      exact exists_check_of_form (.enum hget hne hnodup) hlimited
  | elements hlimited hget _ ih =>
      obtain ⟨item, hitem⟩ := ih (path.child "elements")
      exact exists_check_of_form (.elements hget hitem) hlimited
  | values hlimited hget _ ih =>
      obtain ⟨item, hitem⟩ := ih (path.child "values")
      exact exists_check_of_form (.values hget hitem) hlimited
  | @properties _ ms hlimited hpresent hrequired hoptional hboolean _ _ hdisjoint
      ihrequired ihoptional =>
      obtain ⟨required, hrequired⟩ :
          ∃ table, TableSpelled names path ms "properties" table :=
        exists_tableSpelled hrequired ihrequired
      obtain ⟨optional, hoptional⟩ :
          ∃ table, TableSpelled names path ms "optionalProperties" table :=
        exists_tableSpelled hoptional ihoptional
      rw [hrequired.keys_eq, hoptional.keys_eq] at hdisjoint
      have hspelled : PropertiesSpelled names path ms ⟨required, optional,
          ms.flag "additionalProperties", ms.has "properties"⟩ := by
        refine ⟨hpresent, rfl, hrequired, hoptional, ?_, hboolean, rfl⟩
        intro m hm d hd heq
        apply hdisjoint d.1
        · exact List.mem_map_of_mem hd
        · rw [heq]
          exact List.mem_map_of_mem hm
      exact exists_check_of_form (.properties hspelled) hlimited
  | @discriminator _ ms mapping tag hlimited hget hmapping _ hbranch ih =>
      have hspelled : ∀ e ∈ mapping,
          ∃ b, BranchSpelled names (path.child "mapping") tag e b := by
        intro e he
        obtain ⟨s, hs⟩ := ih e he ((path.child "mapping").child e.1)
        obtain ⟨b, hb⟩ := (exists_branchOf_iff hs).mpr (hbranch e he)
        exact ⟨(e.1, b), rfl, s, hs, hb⟩
      obtain ⟨branches, hbranches⟩ := exists_forall₂ hspelled
      exact exists_check_of_form (.discriminator hget hmapping hbranches) hlimited

end Schema

namespace Document

variable {ms : Members}

theorem exists_definitionsOf_iff {names : List String} :
    (∃ definitions, definitionsOf ms = .ok (names, definitions)) ↔
      (∀ d ∈ ms.get? "definitions", d.IsObject) ∧
        names = (ms.table "definitions").keys ∧
        ∀ d ∈ ms.table "definitions",
          d.2.IsSchema (ms.table "definitions").keys false := by
  unfold definitionsOf
  split
  next hget => simp [hget, Members.table_of_none hget, eq_comm]
  next entries hget =>
    simp only [map_eq_ok_iff, Schema.checkEntries_eq_ok_iff,
      Members.table_of_get? hget, Prod.mk.injEq]
    constructor
    · rintro ⟨_, definitions, hdefinitions, rfl, -⟩
      refine ⟨?_, rfl, fun d hd => ?_⟩
      · rw [hget]
        rintro _ ⟨⟩
        exact ⟨entries, rfl⟩
      · obtain ⟨e, -, -, hchecked⟩ :=
          exists_mem_of_forall₂ hdefinitions.flip hd
        exact Schema.isSchema_of_check hchecked
    · rintro ⟨-, rfl, hschemas⟩
      have hchecked : ∀ d ∈ entries, ∃ e, Schema.EntryAt (Members.keys entries)
          (Pointer.root.child "definitions") d e := by
        intro d hd
        obtain ⟨s, hs⟩ :=
          Schema.exists_check_of_isSchema (hschemas d hd) _
        exact ⟨(d.1, s), rfl, hs⟩
      obtain ⟨definitions, hdefinitions⟩ := exists_forall₂ hchecked
      exact ⟨definitions, definitions, hdefinitions, rfl, rfl⟩
  next d hobject hget =>
    simp only [reduceCtorEq, exists_const, false_iff]
    rintro ⟨hisObject, -⟩
    obtain ⟨entries, rfl⟩ := hisObject d hget
    exact hobject entries rfl

theorem isDocument_of_ofValue {v : Value} {document : Document}
    (h : ofValue v = .ok document) : v.IsDocument := by
  cases v with
  | obj ms =>
      obtain ⟨⟨names, definitions⟩, hdefinitions, h⟩ := exists_ok_of_bind h
      obtain ⟨root, hroot, -⟩ := exists_ok_of_bind h
      obtain ⟨hobject, rfl, hschemas⟩ :=
        exists_definitionsOf_iff.mp ⟨_, hdefinitions⟩
      exact ⟨ms, rfl, hobject, hschemas, Schema.isSchema_of_check hroot⟩
  | _ => cases h

theorem exists_ofValue_of_isDocument {v : Value} (h : v.IsDocument) :
    ∃ document, ofValue v = .ok document := by
  obtain ⟨ms, rfl, hobject, hschemas, hroot⟩ := h
  obtain ⟨definitions, hdefinitions⟩ :=
    exists_definitionsOf_iff.mpr ⟨hobject, rfl, hschemas⟩
  obtain ⟨root, hroot⟩ := Schema.exists_check_of_isSchema hroot Pointer.root
  simp only [ofValue, bind_eq_ok_iff]
  exact ⟨_, _, hdefinitions, root, hroot, rfl⟩

/-- The checker accepts exactly the values that are schema documents. -/
theorem exists_ofValue_iff (v : Value) :
    (∃ document, ofValue v = .ok document) ↔ v.IsDocument := by
  constructor
  · rintro ⟨document, h⟩
    exact isDocument_of_ofValue h
  · exact exists_ofValue_of_isDocument

end Document
end JsonTypedef
