import JsonTypedef.Proofs.Program.Located
import JsonTypedef.Proofs.Program.Reordering
import JsonTypedef.Proofs.Schema.Reordering

/-!
# What nodes are made from

`Program.Made` relates a value of a schema document to the node that it is
checked and compiled to, and `Program.FormMade` says which part of the node comes
from which keyword.  Nodes that are made from rearranged values at one place are
reordered.
-/

namespace JsonTypedef
namespace Program

section

variable (make : Pointer → Value → Node → Prop)

/-- A node is made from the entry of its name, at the entry's place. -/
def EntryMade (base : Pointer) (e : String × Value) (m : String × Node) :
    Prop :=
  e.1 = m.1 ∧ make (base.child e.1) e.2 m.2

/-- Declarations are made from the keywords of the properties form. -/
structure PropertiesMade (path : Pointer) (ms : Members) (p : Properties) :
    Prop where
  required : List.Forall₂ (EntryMade make (path.child "properties"))
    (ms.table "properties") p.required
  optional : List.Forall₂ (EntryMade make (path.child "optionalProperties"))
    (ms.table "optionalProperties") p.optional
  disjoint : ∀ name ∈ (ms.table "properties").keys,
    name ∉ (ms.table "optionalProperties").keys
  additional : p.additional = ms.flag "additionalProperties"
  keyword : p.keyword =
    if ms.has "properties" then "properties" else "optionalProperties"

/-- A branch is made from the entry of its name, at the entry's place. -/
def BranchMade (base : Pointer) (e : String × Value) (b : String × Branch) :
    Prop :=
  e.1 = b.1 ∧ b.2.path = base.child e.1 ∧
    ∃ ms, e.2 = .obj ms ∧ PropertiesMade make (base.child e.1) ms b.2.properties

/-- The form of the node at `path` is made from the keywords of a group; `units`
are the names of the program's definitions. -/
inductive FormMade (units : List String) (path : Pointer) (ms : Members) :
    Option Schema.Group → Form → Prop
  | empty : FormMade units path ms none .empty
  | ref {name : String} {i : ℕ} :
      ms.get? "ref" = some (.str name) →
      units.findIdx? (· = name) = some i →
        FormMade units path ms (some .ref) (.ref i)
  | type {kind : TypeKind} :
      ms.get? "type" = some (.str kind.name) →
        FormMade units path ms (some .type) (.type kind)
  | enum {values : List String} :
      ms.get? "enum" = some (.arr (values.map .str)) →
        FormMade units path ms (some .enum) (.enum values)
  | elements {v : Value} {item : Node} :
      ms.get? "elements" = some v → make (path.child "elements") v item →
        FormMade units path ms (some .elements) (.elements item)
  | values {v : Value} {item : Node} :
      ms.get? "values" = some v → make (path.child "values") v item →
        FormMade units path ms (some .values) (.values item)
  | properties {p : Properties} :
      PropertiesMade make path ms p →
        FormMade units path ms (some .properties) (.properties p)
  | discriminator {tag : String} {entries : Members}
      {branches : List (String × Branch)} :
      ms.get? "discriminator" = some (.str tag) →
      ms.get? "mapping" = some (.obj entries) →
      List.Forall₂ (BranchMade make (path.child "mapping")) entries branches →
        FormMade units path ms (some .discriminator)
          (.discriminator tag branches)

end

/-- The node that a value at `path` is checked and compiled to; `names` are
those that refs may use, `units` the names of the program's definitions. -/
def Made (names units : List String) (path : Pointer) (v : Value) (n : Node) :
    Prop :=
  ∃ isRoot s, Schema.check names isRoot path v = .ok s ∧
    compile units path s = .ok n

section

variable {names units : List String} {path base : Pointer} {ms : Members}

theorem entries_made {table : List (String × Schema)}
    {nodes : List (String × Node)} {entries : Members}
    (hchecked : List.Forall₂ (Schema.EntryAt names base) entries table)
    (hcompiled : compileMembers units base table = .ok nodes) :
    List.Forall₂ (EntryMade (Made names units) base) entries nodes := by
  refine (forall₂_of_forall₂ hchecked.flip
    (entries_of_compileMembers hcompiled)).imp ?_
  rintro e m ⟨d, ⟨hname, hs⟩, hname', hn⟩
  rw [← hname] at hname' hn
  exact ⟨hname', false, d.2, hs, hn⟩

theorem properties_made {p : JsonTypedef.Properties} {q : Properties}
    (hspelled : Schema.PropertiesSpelled names path ms p)
    (hcompiled : compileProperties units path p = .ok q) :
    PropertiesMade (Made names units) path ms q := by
  obtain ⟨hrequired, hoptional, hkeyword⟩ := compileProperties_eq_ok hcompiled
  refine ⟨entries_made hspelled.required.entries hrequired,
    entries_made hspelled.optional.entries hoptional, ?_, ?_, ?_⟩
  · exact hspelled.disjoint_keys
  · rw [(compiled_of_compileProperties hcompiled).additional,
      hspelled.additional]
  · rw [hkeyword, JsonTypedef.Properties.containerKeyword,
      hspelled.declaresRequired]

theorem branches_made {tag : String} {mapping : List (String × JsonTypedef.Branch)}
    {branches : List (String × Branch)} {entries : Members}
    (hspelled : List.Forall₂ (Schema.BranchSpelled names base tag) entries
      mapping)
    (hcompiled : compileBranches units base mapping = .ok branches) :
    List.Forall₂ (BranchMade (Made names units) base) entries branches := by
  refine (forall₂_of_forall₂ hspelled.flip
    (entries_of_compileBranches hcompiled)).imp ?_
  rintro e c ⟨b, ⟨hname, s, hs, hbranch⟩, hname', hpath, hq⟩
  rw [← hname] at hname' hpath hq
  refine ⟨hname', hpath, ?_⟩
  obtain ⟨-, hform, -, -⟩ := Schema.branchOf_eq_ok_iff.mp hbranch
  obtain ⟨ms, group, hms, hnode⟩ := Schema.check_eq_ok_iff.mp hs
  have hp := hnode.form
  rw [hform] at hp
  cases hp with
  | properties hp => exact ⟨ms, hms, properties_made hp hq⟩

theorem form_made {group : Option Schema.Group} {f : JsonTypedef.Form} {g : Form}
    (hspelled : Schema.FormSpelled names path ms group f)
    (hcompiled : compileForm units path f = .ok g) :
    FormMade (Made names units) units path ms group g := by
  cases hspelled with
  | empty =>
      cases hcompiled
      exact .empty
  | ref hget _ =>
      obtain ⟨i, hi, rfl⟩ := exists_ok_of_map hcompiled
      unfold resolve at hi
      split at hi
      next hfound =>
        cases hi
        exact .ref hget hfound
      next => cases hi
  | type hget =>
      cases hcompiled
      exact .type hget
  | enum hget _ _ =>
      cases hcompiled
      exact .enum hget
  | elements hget hitem =>
      obtain ⟨n, hn, rfl⟩ := exists_ok_of_map hcompiled
      exact .elements hget ⟨false, _, hitem, hn⟩
  | values hget hitem =>
      obtain ⟨n, hn, rfl⟩ := exists_ok_of_map hcompiled
      exact .values hget ⟨false, _, hitem, hn⟩
  | properties hp =>
      obtain ⟨q, hq, rfl⟩ := exists_ok_of_map hcompiled
      exact .properties (properties_made hp hq)
  | discriminator hget hentries hbranches =>
      obtain ⟨branches, hmapping, rfl⟩ := exists_ok_of_map hcompiled
      exact .discriminator hget hentries (branches_made hbranches hmapping)

/-- A node is made from the keywords of an object, which belong to one group. -/
structure NodeMade (names units : List String) (path : Pointer) (ms : Members)
    (group : Option Schema.Group) (n : Node) : Prop where
  uses : ∃ isRoot, Schema.UsesOnly isRoot ms (Schema.keywordsOf group)
  keyword : ∀ own ∈ group, ∃ key ∈ ms.keys, key ∈ own.keywords
  place : n.path = path
  nullable : n.nullable = ms.flag "nullable"
  form : FormMade (Made names units) units path ms group n.form

theorem Made.exists_nodeMade {v : Value} {n : Node}
    (h : Made names units path v n) :
    ∃ ms group, v = .obj ms ∧ NodeMade names units path ms group n := by
  obtain ⟨isRoot, s, hs, hn⟩ := h
  obtain ⟨ms, group, rfl, hnode⟩ := Schema.check_eq_ok_iff.mp hs
  obtain ⟨hplace, hform⟩ := path_of_compile hn
  refine ⟨ms, group, rfl, ⟨isRoot, hnode.uses⟩, ?_, hplace, ?_,
    form_made hnode.form hform⟩
  · rintro own rfl
    exact hnode.form.exists_keyword
  · rw [(compiled_of_compiledTo ⟨path, hn⟩).1, hnode.nullable]

end

end Program
end JsonTypedef
