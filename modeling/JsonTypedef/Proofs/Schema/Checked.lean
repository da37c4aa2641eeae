import JsonTypedef.Proofs.Schema.Keywords

/-!
# What checked schemas are made of

`Schema.CheckedAt` says where the keywords and the parts of a checked form stand
among the members of its node, and `Schema.Checked` leaves the places out.  From
this follows that checked schemas use names once:
`Form.WellNamed` has no form declare a member twice and no branch declare the
tag of its discriminator.
-/

namespace JsonTypedef
namespace Schema

section

variable (child : Value → Schema → Prop)

/-- A named schema stands under the same name in an object. -/
def Entry (e : String × Value) (d : String × Schema) : Prop :=
  e.1 = d.1 ∧ child e.2 d.2

/-- A branch stands under the same name in a mapping. -/
def BranchEntry (tag : String) (e : String × Value) (b : String × Branch) :
    Prop :=
  e.1 = b.1 ∧ ∃ s, child e.2 s ∧ s.form = .properties b.2.properties ∧
    tag ∉ b.2.properties.names

/-- Named schemas make up the object under a keyword, if that is present. -/
def Table (ms : Members) (keyword : String) (table : List (String × Schema)) :
    Prop :=
  table = [] ∨ ∃ entries, (keyword, .obj entries) ∈ ms ∧
    List.Forall₂ (Entry child) entries table

/-- The form of a checked node with the given members, its parts being checked
from their values as `child` says and `names` being those of the definitions. -/
inductive Checked (names : List String) (ms : Members) : Form → Prop
  | empty : Checked names ms .empty
  | ref {name : String} : name ∈ names → Checked names ms (.ref name)
  | type {kind : TypeKind} : Checked names ms (.type kind)
  | enum {values : List String} : Checked names ms (.enum values)
  | elements {v : Value} {item : Schema} :
      ("elements", v) ∈ ms → child v item → Checked names ms (.elements item)
  | values {v : Value} {item : Schema} :
      ("values", v) ∈ ms → child v item → Checked names ms (.values item)
  | properties {p : Properties} :
      Table child ms "properties" p.required →
      Table child ms "optionalProperties" p.optional →
        (∀ m ∈ p.optional, ∀ d ∈ p.required, d.1 ≠ m.1) →
        Checked names ms (.properties p)
  | discriminator {tag : String} {entries : List (String × Value)}
      {mapping : List (String × Branch)} :
      ("mapping", .obj entries) ∈ ms →
      List.Forall₂ (BranchEntry child tag) entries mapping →
        Checked names ms (.discriminator tag mapping)

end

variable {names : List String} {path base : Pointer}
    {ms : List (String × Value)}

/-! ## Checked nodes -/

/-- A branch is checked from an entry at the entry's place. -/
def BranchAt (names : List String) (base : Pointer) (tag : String)
    (e : String × Value) (b : String × Branch) : Prop :=
  e.1 = b.1 ∧ ∃ s, check names false (base.child e.1) e.2 = .ok s ∧
    s.form = .properties b.2.properties ∧ tag ∉ b.2.properties.names

/-- Named schemas are checked from the object under a keyword, if that is
present. -/
def TableAt (names : List String) (path : Pointer) (ms : Members)
    (keyword : String) (table : List (String × Schema)) : Prop :=
  table = [] ∨ ∃ entries, ms.get? keyword = some (.obj entries) ∧
    List.Forall₂ (EntryAt names (path.child keyword)) entries table

/-- The form of a node that is checked at `path`: its keywords are among the
members and its parts are checked at the places of these. -/
inductive CheckedAt (names : List String) (path : Pointer) (ms : Members) :
    Form → Prop
  | empty : CheckedAt names path ms .empty
  | ref {name : String} : name ∈ names → CheckedAt names path ms (.ref name)
  | type {kind : TypeKind} :
      "type" ∈ ms.keys → CheckedAt names path ms (.type kind)
  | enum {values : List String} :
      "enum" ∈ ms.keys → CheckedAt names path ms (.enum values)
  | elements {v : Value} {item : Schema} :
      ms.get? "elements" = some v →
      check names false (path.child "elements") v = .ok item →
        CheckedAt names path ms (.elements item)
  | values {v : Value} {item : Schema} :
      ms.get? "values" = some v →
      check names false (path.child "values") v = .ok item →
        CheckedAt names path ms (.values item)
  | properties {p : Properties} :
      p.containerKeyword ∈ ms.keys →
      TableAt names path ms "properties" p.required →
      TableAt names path ms "optionalProperties" p.optional →
        (∀ m ∈ p.optional, ∀ d ∈ p.required, d.1 ≠ m.1) →
        CheckedAt names path ms (.properties p)
  | discriminator {tag : String} {entries : List (String × Value)}
      {mapping : List (String × Branch)} :
      "discriminator" ∈ ms.keys →
      ms.get? "mapping" = some (.obj entries) →
      List.Forall₂ (BranchAt names (path.child "mapping") tag) entries mapping →
        CheckedAt names path ms (.discriminator tag mapping)

theorem TableSpelled.tableAt {keyword : String} {table : List (String × Schema)}
    (h : TableSpelled names path ms keyword table) :
    TableAt names path ms keyword table := by
  have hentries := h.entries
  cases hget : Members.get? ms keyword with
  | none =>
      rw [Members.table_of_none hget] at hentries
      cases hentries
      exact Or.inl rfl
  | some v =>
      obtain ⟨entries, rfl⟩ := h.isObject v hget
      rw [Members.table_of_get? hget] at hentries
      exact Or.inr ⟨entries, hget, hentries⟩

theorem PropertiesSpelled.containerKeyword_mem {p : Properties}
    (h : PropertiesSpelled names path ms p) :
    p.containerKeyword ∈ Members.keys ms := by
  unfold Properties.containerKeyword
  rw [h.declaresRequired]
  by_cases hkey : Members.has ms "properties" = true
  · rw [if_pos hkey]
    exact Members.has_iff.mp hkey
  · rw [if_neg hkey]
    exact h.present.resolve_left fun hmem => hkey (Members.has_iff.mpr hmem)

theorem BranchSpelled.branchAt {tag : String} {e : String × Value}
    {b : String × Branch} (h : BranchSpelled names base tag e b) :
    BranchAt names base tag e b := by
  obtain ⟨hname, s, hs, hbranch⟩ := h
  obtain ⟨-, hform, -, htag⟩ := branchOf_eq_ok_iff.mp hbranch
  exact ⟨hname, s, hs, hform, htag⟩

theorem FormSpelled.checkedAt {group : Option Group} {f : Form}
    (h : FormSpelled names path ms group f) : CheckedAt names path ms f := by
  cases h with
  | empty => exact .empty
  | ref _ hmem => exact .ref hmem
  | type hget => exact .type (Members.mem_keys_of_get? hget)
  | enum hget => exact .enum (Members.mem_keys_of_get? hget)
  | elements hget hitem => exact .elements hget hitem
  | values hget hitem => exact .values hget hitem
  | properties h =>
      exact .properties h.containerKeyword_mem h.required.tableAt
        h.optional.tableAt h.disjoint
  | discriminator hget hentries hbranches =>
      exact .discriminator (Members.mem_keys_of_get? hget) hentries
        (hbranches.imp fun _ _ hbranch => hbranch.branchAt)

/-- A node is checked to the form that its keywords make up. -/
theorem checkedAt_of_check {isRoot : Bool} {v : Value} {s : Schema}
    (h : check names isRoot path v = .ok s) :
    ∃ ms, v = .obj ms ∧ CheckedAt names path ms s.form := by
  obtain ⟨ms, group, hv, hspelled⟩ := check_eq_ok_iff.mp h
  exact ⟨ms, hv, hspelled.form.checkedAt⟩

/-! ## Parts of checked nodes -/

/-- The schema that a value is checked to at some place below the root. -/
def CheckedTo (names : List String) (v : Value) (s : Schema) : Prop :=
  ∃ path, check names false path v = .ok s

theorem TableAt.table {keyword : String} {table : List (String × Schema)}
    (h : TableAt names path ms keyword table) :
    Table (CheckedTo names) ms keyword table := by
  rcases h with hempty | ⟨entries, hget, hentries⟩
  · exact Or.inl hempty
  · refine Or.inr ⟨entries, Members.mem_of_get? hget, ?_⟩
    exact hentries.imp fun e d ⟨hname, hs⟩ => ⟨hname, _, hs⟩

theorem CheckedAt.checked {f : Form} (h : CheckedAt names path ms f) :
    Checked (CheckedTo names) names ms f := by
  cases h with
  | empty => exact .empty
  | ref hmem => exact .ref hmem
  | type => exact .type
  | enum => exact .enum
  | elements hget h => exact .elements (Members.mem_of_get? hget) ⟨_, h⟩
  | values hget h => exact .values (Members.mem_of_get? hget) ⟨_, h⟩
  | properties _ hrequired hoptional hdisjoint =>
      exact .properties hrequired.table hoptional.table hdisjoint
  | discriminator _ hget hentries =>
      refine .discriminator (Members.mem_of_get? hget) ?_
      exact hentries.imp fun e b ⟨hname, s, hs, hform, htag⟩ =>
        ⟨hname, s, ⟨_, hs⟩, hform, htag⟩

/-- A node is checked to the parts that its keywords hold. -/
theorem checked_of_check {isRoot : Bool} {v : Value} {s : Schema}
    (h : check names isRoot path v = .ok s) :
    ∃ ms, v = .obj ms ∧ Checked (CheckedTo names) names ms s.form := by
  obtain ⟨ms, hv, hchecked⟩ := checkedAt_of_check h
  exact ⟨ms, hv, hchecked.checked⟩

/-! ## Induction over checked schemas -/

section

variable {child child' : Value → Schema → Prop}

theorem Table.imp (hentry : ∀ m ∈ ms, ∀ entries, m.2 = .obj entries →
      ∀ e ∈ entries, ∀ s, child e.2 s → child' e.2 s)
    {keyword : String} {table : List (String × Schema)}
    (h : Table child ms keyword table) : Table child' ms keyword table := by
  rcases h with rfl | ⟨entries, hmem, hentries⟩
  · exact Or.inl rfl
  · refine Or.inr ⟨entries, hmem, ?_⟩
    have hall := (List.forall₂_and_left _ _).mpr
      ⟨hentry _ hmem entries rfl, hentries⟩
    exact hall.imp fun e d ⟨himp, hname, hchild⟩ => ⟨hname, himp d.2 hchild⟩

/-- The parts of a form stand in the members of its node or in the members of
one of these. -/
theorem Checked.imp (hchild : ∀ m ∈ ms, ∀ s, child m.2 s → child' m.2 s)
    (hentry : ∀ m ∈ ms, ∀ entries, m.2 = .obj entries →
      ∀ e ∈ entries, ∀ s, child e.2 s → child' e.2 s)
    {f : Form} (h : Checked child names ms f) : Checked child' names ms f := by
  cases h with
  | empty => exact .empty
  | ref hmem => exact .ref hmem
  | type => exact .type
  | enum => exact .enum
  | elements hmem h => exact .elements hmem (hchild _ hmem _ h)
  | values hmem h => exact .values hmem (hchild _ hmem _ h)
  | properties hrequired hoptional hdisjoint =>
      exact .properties (hrequired.imp hentry) (hoptional.imp hentry) hdisjoint
  | discriminator hmem hentries =>
      refine .discriminator hmem ?_
      have hall := (List.forall₂_and_left _ _).mpr
        ⟨hentry _ hmem _ rfl, hentries⟩
      exact hall.imp fun e b ⟨himp, hname, s, hchild, hform, htag⟩ =>
        ⟨hname, s, himp s hchild, hform, htag⟩

end

/-- What holds of a checked form whenever it holds of the form's parts holds of
the schemas that a value is checked to.  The induction goes through the value
and carries its members along, where the parts stand one object further down. -/
theorem holds_of_check {holds : Form → Prop}
    (hstep : ∀ {ms : Members} {f : Form}, (Value.obj ms).Distinct →
      Checked (fun _ s => holds s.form) names ms f → holds f)
    {v : Value} (hv : v.Distinct) :
    (∀ isRoot path s, check names isRoot path v = .ok s → holds s.form) ∧
      ∀ entries, v = .obj entries → ∀ e ∈ entries, ∀ isRoot path s,
        check names isRoot path e.2 = .ok s → holds s.form := by
  induction v with
  | obj members ih =>
      have hmembers : ∀ m ∈ members, m.2.Distinct := fun m hm => hv.of_mem hm
      refine ⟨fun isRoot path s h => ?_, ?_⟩
      · obtain ⟨ms, heq, hchecked⟩ := checked_of_check h
        cases heq
        refine hstep hv (hchecked.imp (fun m hm s hs => ?_)
          fun m hm entries heq e he s hs => ?_)
        · obtain ⟨path, hs⟩ := hs
          exact (ih m hm (hmembers m hm)).1 _ _ _ hs
        · obtain ⟨path, hs⟩ := hs
          exact (ih m hm (hmembers m hm)).2 entries heq e he _ _ _ hs
      · rintro _ ⟨⟩ e he
        exact (ih e he (hmembers e he)).1
  | _ =>
      refine ⟨fun isRoot path s h => ?_, fun entries heq => ?_⟩
      · obtain ⟨ms, heq, -⟩ := checked_of_check h
        cases heq
      · cases heq

end Schema

namespace Document

/-- The members of the object of definitions; none if the keyword is absent. -/
def DefinitionEntries (ms entries : Members) : Prop :=
  ms.get? "definitions" = some (.obj entries) ∨
    (ms.get? "definitions" = none ∧ entries = [])

/-- A checked document has the checked definitions in the order of their names
and a root that was checked with these names. -/
theorem checked_of_ofValue {schema : Value} {document : Document}
    (h : ofValue schema = .ok document) :
    ∃ ms entries definitions, schema = .obj ms ∧ DefinitionEntries ms entries ∧
      Schema.checkEntries entries.keys (Pointer.root.child "definitions")
        entries = .ok definitions ∧
      Schema.check entries.keys true .root schema = .ok document.root ∧
      document.definitions =
        definitions.mergeSort fun a b => a.1 ≤ b.1 := by
  cases schema with
  | obj ms =>
      obtain ⟨⟨names, definitions⟩, hdefinitions, h⟩ := exists_ok_of_bind h
      obtain ⟨root, hroot, h⟩ := exists_ok_of_bind h
      cases h
      unfold definitionsOf at hdefinitions
      split at hdefinitions
      next hget =>
        cases hdefinitions
        exact ⟨ms, [], [], rfl, Or.inr ⟨hget, rfl⟩, rfl, hroot, rfl⟩
      next entries hget =>
        obtain ⟨table, htable, heq⟩ := exists_ok_of_map hdefinitions
        cases heq
        exact ⟨ms, entries, definitions, rfl, Or.inl hget, htable, hroot, rfl⟩
      next => cases hdefinitions
  | _ => cases h

/-- What holds of a checked form whenever it holds of the form's parts holds of
all schemas of a checked document. -/
theorem holds_of_ofValue {holds : List String → Form → Prop}
    (hstep : ∀ {names : List String} {ms : Members} {f : Form},
      (Value.obj ms).Distinct →
        Schema.Checked (fun _ s => holds names s.form) names ms f →
          holds names f)
    {schema : Value} (hschema : schema.Distinct) {document : Document}
    (h : ofValue schema = .ok document) :
    ∃ ms entries, schema = .obj ms ∧ DefinitionEntries ms entries ∧
      holds entries.keys document.root.form ∧
      ∀ d ∈ document.definitions, holds entries.keys d.2.form := by
  obtain ⟨ms, entries, definitions, rfl, hentries, htable, hroot, hsorted⟩ :=
    checked_of_ofValue h
  refine ⟨ms, entries, rfl, hentries,
    (Schema.holds_of_check hstep hschema).1 _ _ _ hroot, fun d hd => ?_⟩
  rw [hsorted, List.mem_mergeSort] at hd
  obtain ⟨e, he, -, hchecked⟩ :=
    exists_mem_of_forall₂ (Schema.checkEntries_eq_ok_iff.mp htable) hd
  have hmem : ("definitions", .obj entries) ∈ ms := by
    rcases hentries with hget | ⟨-, rfl⟩
    · exact Members.mem_of_get? hget
    · cases he
  have hdistinct : (Value.obj entries).Distinct := hschema.of_mem hmem
  exact (Schema.holds_of_check hstep hdistinct).2 entries rfl e he _ _ _
    hchecked

end Document

/-! ## Names -/

/-- No form declares a member twice and no branch declares the tag of its
discriminator, at any depth. -/
inductive Form.WellNamed : Form → Prop
  | empty : WellNamed .empty
  | ref {name : String} : WellNamed (.ref name)
  | type {kind : TypeKind} : WellNamed (.type kind)
  | enum {values : List String} : WellNamed (.enum values)
  | elements {item : Schema} : WellNamed item.form → WellNamed (.elements item)
  | values {item : Schema} : WellNamed item.form → WellNamed (.values item)
  | properties {p : Properties} :
      p.names.Nodup → (∀ m ∈ p.declared, WellNamed m.2.form) →
      WellNamed (.properties p)
  | discriminator {tag : String} {mapping : List (String × Branch)} :
      (∀ b ∈ mapping, tag ∉ b.2.properties.names) →
        (∀ b ∈ mapping, WellNamed (.properties b.2.properties)) →
          WellNamed (.discriminator tag mapping)

namespace Schema

variable {names : List String} {ms : Members}

theorem nodup_of_table {child : Value → Schema → Prop}
    {ms : List (String × Value)} (hms : ∀ m ∈ ms, m.2.Distinct)
    {keyword : String} {table : List (String × Schema)}
    (h : Table child ms keyword table) : (table.map Prod.fst).Nodup := by
  rcases h with rfl | ⟨entries, hmem, hentries⟩
  · exact List.nodup_nil
  · rw [← map_fst_of_forall₂ (fun _ _ hentry => hentry.1) hentries]
    exact (hms _ hmem).nodup_keys

/-- What holds of all checked schemas holds of a table of them. -/
theorem Table.forall {holds : Schema → Prop} {keyword : String}
    {table : List (String × Schema)}
    (h : Table (fun _ s => holds s) ms keyword table) :
    ∀ d ∈ table, holds d.2 := by
  intro d hd
  rcases h with rfl | ⟨entries, -, hentries⟩
  · cases hd
  · obtain ⟨e, -, -, hholds⟩ := exists_mem_of_forall₂ hentries hd
    exact hholds

/-- A checked form is well named where its parts are. -/
theorem Checked.wellNamed {f : Form} (hms : (Value.obj ms).Distinct)
    (h : Checked (fun _ s => s.form.WellNamed) names ms f) : f.WellNamed := by
  have hmembers : ∀ m ∈ ms, m.2.Distinct := fun m hm => hms.of_mem hm
  cases h with
  | empty => exact .empty
  | ref => exact .ref
  | type => exact .type
  | enum => exact .enum
  | elements _ h => exact .elements h
  | values _ h => exact .values h
  | @properties p hrequired hoptional hdisjoint =>
      refine .properties ?_ fun d hd => ?_
      · rw [Properties.names, Properties.declared, List.map_append,
          List.nodup_append]
        refine ⟨nodup_of_table hmembers hrequired,
          nodup_of_table hmembers hoptional, ?_⟩
        intro name hname name' hname'
        obtain ⟨d, hd, rfl⟩ := List.mem_map.mp hname
        obtain ⟨m, hm, rfl⟩ := List.mem_map.mp hname'
        exact hdisjoint m hm d hd
      · rcases List.mem_append.mp hd with hd | hd
        · exact hrequired.forall d hd
        · exact hoptional.forall d hd
  | discriminator hmem hentries =>
      refine .discriminator (fun b hb => ?_) fun b hb => ?_
      · obtain ⟨e, he, -, s, -, -, htag⟩ := exists_mem_of_forall₂ hentries hb
        exact htag
      · obtain ⟨e, he, -, s, hnamed, hform, -⟩ :=
          exists_mem_of_forall₂ hentries hb
        rw [← hform]
        exact hnamed

end Schema

/-- All schemas of a checked document are well named. -/
theorem Document.wellNamed_of_ofValue {schema : Value}
    (hschema : schema.Distinct) {document : Document}
    (h : Document.ofValue schema = .ok document) :
    document.root.form.WellNamed ∧ ∀ d ∈ document.definitions,
      d.2.form.WellNamed := by
  obtain ⟨-, -, -, -, hnamed⟩ :=
    @holds_of_ofValue (fun _ f => f.WellNamed) Schema.Checked.wellNamed _
      hschema _ h
  exact hnamed

end JsonTypedef
