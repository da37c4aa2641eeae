import JsonTypedef.Program
import JsonTypedef.Proofs.Schema.Checked

/-!
# What compiled programs are made of

`Program.CompiledForm` relates the form of a schema to the form of the node that
it is compiled to, part by part.  Compiled programs use names once, as the
schemas do that they are made from.
-/

namespace JsonTypedef
namespace Program

namespace Properties

/-- The names of all declared members. -/
def names (p : Properties) : List String :=
  p.declared.map Prod.fst

theorem mem_of_member? {p : Properties} {key : String} {n : Node}
    (h : p.member? key = some n) : (key, n) ∈ p.declared :=
  mem_of_lookup h

theorem member?_of_mem {p : Properties} (hnodup : p.names.Nodup) {key : String}
    {n : Node} (h : (key, n) ∈ p.declared) : p.member? key = some n :=
  lookup_of_mem hnodup h

theorem member?_isSome_iff {p : Properties} {key : String} :
    (p.member? key).isSome ↔ key ∈ p.names :=
  lookup_isSome_iff

theorem declares_iff {p : Properties} {key : String} :
    p.declares key = true ↔ key ∈ p.names := by
  simp [declares, names]

end Properties

section

variable (rel : Schema → Node → Prop)

/-- A member or definition is compiled under its name. -/
def EntryCompiled (d : String × Schema) (m : String × Node) : Prop :=
  d.1 = m.1 ∧ rel d.2 m.2

/-- The declarations of an object are compiled member by member. -/
structure PropertiesCompiled (p : JsonTypedef.Properties)
    (q : Properties) : Prop where
  required : List.Forall₂ (EntryCompiled rel) p.required q.required
  optional : List.Forall₂ (EntryCompiled rel) p.optional q.optional
  additional : q.additional = p.additional

/-- A branch is compiled under its name. -/
def BranchCompiled (b : String × JsonTypedef.Branch) (c : String × Branch) :
    Prop :=
  b.1 = c.1 ∧ PropertiesCompiled rel b.2.properties c.2.properties

/-- A form is compiled, its children as `rel` says and refs to places in the
list of the definitions' names. -/
inductive CompiledForm (names : List String) : JsonTypedef.Form → Form → Prop
  | empty : CompiledForm names .empty .empty
  | ref {name : String} {i : Nat} :
      names.findIdx? (· = name) = some i →
      CompiledForm names (.ref name) (.ref i)
  | type {kind : TypeKind} : CompiledForm names (.type kind) (.type kind)
  | enum {values : List String} :
      CompiledForm names (.enum values) (.enum values)
  | elements {item : Schema} {n : Node} :
      rel item n → CompiledForm names (.elements item) (.elements n)
  | values {item : Schema} {n : Node} :
      rel item n → CompiledForm names (.values item) (.values n)
  | properties {p : JsonTypedef.Properties} {q : Properties} :
      PropertiesCompiled rel p q →
        CompiledForm names (.properties p) (.properties q)
  | discriminator {tag : String} {mapping : List (String × JsonTypedef.Branch)}
      {branches : List (String × Branch)} :
      List.Forall₂ (BranchCompiled rel) mapping branches →
        CompiledForm names (.discriminator tag mapping)
          (.discriminator tag branches)

end

variable {names : List String} {path base : Pointer}

/-- The node that a schema is compiled to at some place. -/
def CompiledTo (names : List String) (s : Schema) (n : Node) : Prop :=
  ∃ path, compile names path s = .ok n

/-- Members are compiled in order, each at its own place below the base. -/
theorem entries_of_compileMembers {members : List (String × Schema)}
    {nodes : List (String × Node)}
    (h : compileMembers names base members = .ok nodes) :
    List.Forall₂ (fun d m => d.1 = m.1 ∧
      compile names (base.child d.1) d.2 = .ok m.2) members nodes := by
  induction members generalizing nodes with
  | nil =>
      cases h
      exact .nil
  | cons m members ih =>
      obtain ⟨name, s⟩ := m
      simp only [compileMembers] at h
      obtain ⟨n, hn, h⟩ := exists_ok_of_bind h
      obtain ⟨rest, hrest, h⟩ := exists_ok_of_bind h
      cases h
      exact .cons ⟨rfl, hn⟩ (ih hrest)

theorem compiled_of_compileMembers {members : List (String × Schema)}
    {nodes : List (String × Node)}
    (h : compileMembers names base members = .ok nodes) :
    List.Forall₂ (EntryCompiled (CompiledTo names)) members nodes :=
  (entries_of_compileMembers h).imp fun _ _ ⟨hname, hn⟩ => ⟨hname, _, hn⟩

theorem compiled_of_compileProperties {p : JsonTypedef.Properties}
    {q : Properties} (h : compileProperties names path p = .ok q) :
    PropertiesCompiled (CompiledTo names) p q := by
  obtain ⟨required, optional, additional, declaresRequired⟩ := p
  simp only [compileProperties] at h
  obtain ⟨required', hrequired, h⟩ := exists_ok_of_bind h
  obtain ⟨optional', hoptional, h⟩ := exists_ok_of_bind h
  cases h
  exact ⟨compiled_of_compileMembers hrequired,
    compiled_of_compileMembers hoptional, rfl⟩

theorem compiled_of_compileBranches
    {mapping : List (String × JsonTypedef.Branch)}
    {branches : List (String × Branch)}
    (h : compileBranches names base mapping = .ok branches) :
    List.Forall₂ (BranchCompiled (CompiledTo names)) mapping branches := by
  induction mapping generalizing branches with
  | nil =>
      cases h
      exact .nil
  | cons b mapping ih =>
      obtain ⟨value, metadata, p⟩ := b
      simp only [compileBranches] at h
      obtain ⟨q, hq, h⟩ := exists_ok_of_bind h
      obtain ⟨rest, hrest, h⟩ := exists_ok_of_bind h
      cases h
      exact .cons ⟨rfl, compiled_of_compileProperties hq⟩ (ih hrest)

theorem compiled_of_compileForm {f : JsonTypedef.Form} {g : Form}
    (h : compileForm names path f = .ok g) :
    CompiledForm (CompiledTo names) names f g := by
  cases f with
  | empty =>
      cases h
      exact .empty
  | ref name =>
      obtain ⟨i, hi, rfl⟩ := exists_ok_of_map h
      unfold resolve at hi
      split at hi
      next hfound =>
        cases hi
        exact .ref hfound
      next => cases hi
  | type kind =>
      cases h
      exact .type
  | enum values =>
      cases h
      exact .enum
  | elements item =>
      obtain ⟨n, hn, rfl⟩ := exists_ok_of_map h
      exact .elements ⟨_, hn⟩
  | values item =>
      obtain ⟨n, hn, rfl⟩ := exists_ok_of_map h
      exact .values ⟨_, hn⟩
  | properties p =>
      obtain ⟨q, hq, rfl⟩ := exists_ok_of_map h
      exact .properties (compiled_of_compileProperties hq)
  | discriminator tag mapping =>
      obtain ⟨branches, hbranches, rfl⟩ := exists_ok_of_map h
      exact .discriminator (compiled_of_compileBranches hbranches)

/-- A schema is compiled to a node with its nullability and its compiled
form. -/
theorem compiled_of_compiledTo {s : Schema} {n : Node}
    (h : CompiledTo names s n) :
    n.nullable = s.nullable ∧ CompiledForm
    (CompiledTo names) names s.form n.form := by
  obtain ⟨path, h⟩ := h
  obtain ⟨nullable, metadata, f⟩ := s
  unfold compile at h
  obtain ⟨g, hg, rfl⟩ := exists_ok_of_map h
  exact ⟨rfl, compiled_of_compileForm hg⟩

/-! ## Names -/

/-- No form declares a member twice and no branch declares the tag of its
discriminator, at any depth. -/
inductive Form.WellNamed : Form → Prop
  | empty : WellNamed .empty
  | ref {i : Nat} : WellNamed (.ref i)
  | type {kind : TypeKind} : WellNamed (.type kind)
  | enum {values : List String} : WellNamed (.enum values)
  | elements {item : Node} : WellNamed item.form → WellNamed (.elements item)
  | values {item : Node} : WellNamed item.form → WellNamed (.values item)
  | properties {p : Properties} :
      p.names.Nodup → (∀ m ∈ p.declared, WellNamed m.2.form) →
      WellNamed (.properties p)
  | discriminator {tag : String} {branches : List (String × Branch)} :
      (∀ b ∈ branches, tag ∉ b.2.properties.names) →
        (∀ b ∈ branches, WellNamed (.properties b.2.properties)) →
          WellNamed (.discriminator tag branches)

namespace Form.WellNamed

variable {p : Properties}

theorem nodup (h : (Form.properties p).WellNamed) : p.names.Nodup := by
  cases h with
  | properties hnodup _ => exact hnodup

theorem of_declared (h : (Form.properties p).WellNamed) {m : String × Node}
    (hm : m ∈ p.declared) : m.2.form.WellNamed := by
  cases h with
  | properties _ hnodes => exact hnodes m hm

end Form.WellNamed

namespace PropertiesCompiled

variable {rel : Schema → Node → Prop} {p : JsonTypedef.Properties}
    {q : Properties}

theorem declared (h : PropertiesCompiled rel p q) :
    List.Forall₂ (EntryCompiled rel) p.declared q.declared :=
  List.rel_append h.required h.optional

theorem names_eq (h : PropertiesCompiled rel p q) : q.names = p.names :=
  (map_fst_of_forall₂ (fun _ _ hentry => hentry.1) h.declared).symm

end PropertiesCompiled

/-- Compilation keeps names. -/
theorem CompiledForm.wellNamed {f : JsonTypedef.Form} (hnamed : f.WellNamed)
    {g : Form} (h : CompiledForm (CompiledTo names) names f g) :
    g.WellNamed := by
  induction hnamed generalizing g with
  | empty => cases h; exact .empty
  | ref => cases h; exact .ref
  | type => cases h; exact .type
  | enum => cases h; exact .enum
  | elements _ ih =>
      cases h with
      | elements h => exact .elements (ih (compiled_of_compiledTo h).2)
  | values _ ih =>
      cases h with
      | values h => exact .values (ih (compiled_of_compiledTo h).2)
  | properties hnodup _ ih =>
      cases h with
      | properties h =>
          refine .properties (by rwa [h.names_eq]) fun m hm => ?_
          obtain ⟨d, hd, -, hcompiled⟩ := exists_mem_of_forall₂ h.declared hm
          exact ih d hd (compiled_of_compiledTo hcompiled).2
  | discriminator htag _ ih =>
      cases h with
      | discriminator h =>
          refine .discriminator (fun c hc => ?_) fun c hc => ?_
          · obtain ⟨b, hb, -, hcompiled⟩ := exists_mem_of_forall₂ h hc
            rw [hcompiled.names_eq]
            exact htag b hb
          · obtain ⟨b, hb, -, hcompiled⟩ := exists_mem_of_forall₂ h hc
            exact ih b hb (.properties hcompiled)

/-! ## Whole programs -/

/-- A node that a schema is compiled to among the definitions of the program. -/
abbrev Compiles (program : Program) : Schema → Node → Prop :=
  CompiledTo (program.document.definitions.map Prod.fst)

/-- A program is compiled from the checked document that it keeps. -/
structure FromDocument (program : Program) : Prop where
  root : program.Compiles program.document.root program.root
  definitions : List.Forall₂ (EntryCompiled program.Compiles)
    program.document.definitions program.definitions

theorem fromDocument_of_ofDocument {document : Document} {digest : Digest}
    {program : Program} (h : ofDocument document digest = .ok program) :
    program.document = document ∧ program.FromDocument := by
  obtain ⟨root, hroot, h⟩ := exists_ok_of_bind h
  obtain ⟨definitions, hdefinitions, h⟩ := exists_ok_of_bind h
  cases h
  exact ⟨rfl, ⟨_, hroot⟩, compiled_of_compileMembers hdefinitions⟩

theorem document_of_ofValue {schema : Value} {program : Program}
    (h : ofValue schema = .ok program) :
    Document.ofValue schema = .ok program.document ∧ program.FromDocument := by
  obtain ⟨document, hdocument, h⟩ := exists_ok_of_bind h
  obtain ⟨rfl, hcompiled⟩ := fromDocument_of_ofDocument h
  exact ⟨hdocument, hcompiled⟩

/-- The place of a definition leads to what the definition is compiled to. -/
theorem exists_lookup_of_findIdx? {rel : Schema → Node → Prop}
    {definitions : List (String × Schema)} {units : List (String × Node)}
    (h : List.Forall₂ (EntryCompiled rel) definitions units) {name : String}
    {i : ℕ} (hi : (definitions.map Prod.fst).findIdx? (· = name) = some i) :
    ∃ d m, List.lookup name definitions = some d ∧ units[i]? = some m ∧
      rel d m.2 := by
  induction h generalizing i with
  | nil => cases hi
  | @cons d m definitions units hdm _ ih =>
      obtain ⟨key, d⟩ := d
      rw [List.map_cons, List.findIdx?_cons] at hi
      rw [lookup_cons_eq_if]
      split at hi
      next heq =>
        cases hi
        rw [if_pos (of_decide_eq_true heq)]
        exact ⟨d, m, rfl, rfl, hdm.2⟩
      next hne =>
        obtain ⟨j, hj, rfl⟩ := Option.map_eq_some_iff.mp hi
        obtain ⟨d', m', hlookup, hunit, hrel⟩ := ih hj
        rw [if_neg (by simpa using hne)]
        exact ⟨d', m', hlookup, hunit, hrel⟩

theorem FromDocument.target {program : Program} (h : program.FromDocument)
    {name : String} {i : ℕ}
    (hi : (program.document.definitions.map Prod.fst).findIdx? (· = name) =
      some i) :
    ∃ d, program.document.definition? name = some d ∧ program.Compiles d
    (program.target i) := by
  obtain ⟨d, m, hlookup, hunit, hcompiled⟩ :=
    exists_lookup_of_findIdx? h.definitions hi
  refine ⟨d, hlookup, ?_⟩
  rw [Program.target, hunit]
  exact hcompiled

/-- All nodes of a program are well named. -/
structure WellNamed (program : Program) : Prop where
  root : program.root.form.WellNamed
  target : ∀ i, (program.target i).form.WellNamed

/-- The program of a checked document is well named. -/
theorem FromDocument.wellNamed {schema : Value} (hschema : schema.Distinct)
    {program : Program} (hcompiled : program.FromDocument)
    (hdocument : Document.ofValue schema = .ok program.document) :
    program.WellNamed := by
  obtain ⟨hroot, hdefinitions⟩ :=
    Document.wellNamed_of_ofValue hschema hdocument
  have hnamed : program.root.form.WellNamed :=
    (compiled_of_compiledTo hcompiled.root).2.wellNamed hroot
  refine ⟨hnamed, fun i => ?_⟩
  unfold Program.target
  cases hi : program.definitions[i]? with
  | none => exact hnamed
  | some m =>
      obtain ⟨d, hd, -, hm⟩ :=
        exists_mem_of_forall₂ hcompiled.definitions (List.mem_of_getElem? hi)
      exact (compiled_of_compiledTo hm).2.wellNamed (hdefinitions d hd)

/-- Programs of checked schema documents are well named. -/
theorem wellNamed_of_ofValue {schema : Value} (hschema : schema.Distinct)
    {program : Program} (h : ofValue schema = .ok program) :
    program.WellNamed := by
  obtain ⟨hdocument, hcompiled⟩ := document_of_ofValue h
  exact hcompiled.wellNamed hschema hdocument

/-! ## Chains

Chains are objects that may hold a weight and a further chain, a small program
that refers to itself. -/

/-- The schema of chains. -/
def chainSchema : Value :=
  .obj [("definitions", .obj [("link", .obj [
      ("properties", .obj [("id", .obj [("type", .str "string")])]),
      ("optionalProperties", .obj [("next", .obj [("ref", .str "link")]),
        ("weight", .obj [("type", .str "float64")])])])]),
    ("ref", .str "link")]

/-- The checked schema of chains. -/
def chainDocument : Document :=
  ⟨⟨false, none, .ref "link"⟩,
    [("link", ⟨false, none, .properties ⟨[("id", ⟨false, none, .type .string⟩)],
      [("next", ⟨false, none, .ref "link"⟩),
        ("weight", ⟨false, none, .type .float64⟩)],
      false, true⟩⟩)]⟩

/-- The program of chains. -/
def chainProgram : Program :=
  ⟨Digest.ofSchema chainSchema, chainDocument, ⟨false, .root, .ref 0⟩,
    [("link", ⟨false, ⟨["definitions", "link"]⟩, .properties
      ⟨[("id", ⟨false, ⟨["definitions", "link", "properties", "id"]⟩,
        .type .string⟩)],
        [("next", ⟨false,
          ⟨["definitions", "link", "optionalProperties", "next"]⟩, .ref 0⟩),
          ("weight", ⟨false,
            ⟨["definitions", "link", "optionalProperties", "weight"]⟩,
            .type .float64⟩)],
        false, "properties"⟩⟩)]⟩

theorem distinct_chainSchema : chainSchema.Distinct :=
  Value.distinct_distinct chainSchema

theorem document_chainSchema :
    Document.ofValue chainSchema = .ok chainDocument := by
  have hunsorted : Document.ofValue chainSchema = .ok ⟨chainDocument.root,
      chainDocument.definitions.mergeSort fun a b => a.1 ≤ b.1⟩ := rfl
  have hsorted : (chainDocument.definitions.mergeSort fun a b => a.1 ≤ b.1) =
      chainDocument.definitions := List.mergeSort_singleton _
  rw [hunsorted, hsorted]

theorem ofValue_chainSchema : ofValue chainSchema = .ok chainProgram := by
  unfold ofValue
  rw [document_chainSchema]
  rfl

/-- A chain of two links. -/
def shortChain : Value :=
  .obj [("id", .str "a"), ("next", .obj [("id", .str "b")])]

theorem distinct_shortChain : shortChain.Distinct :=
  Value.distinct_distinct shortChain

end Program
end JsonTypedef
