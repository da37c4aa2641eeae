import JsonTypedef.Proofs.Program.Index
import JsonTypedef.Proofs.Schema.Closed

/-!
# Closed documents make coherent programs

A closed schema compiles, since each of its refs names a definition.  In the
program of a checked document every node at any depth is coherent with the
schema that it comes from: a ref leads to the unit of the definition that it
names, and the indexes of members and branches lead to what is declared.
-/

namespace JsonTypedef
namespace Program

section

variable {names : List String}

/-! ## Compilation of closed schemas -/

theorem exists_resolve (path : Pointer) {name : String} (h : name ∈ names) :
    ∃ i, resolve names path name = .ok i := by
  have hfound : (names.findIdx? (· = name)).isSome := by
    rw [List.findIdx?_isSome, List.any_eq_true]
    exact ⟨name, h, decide_eq_true rfl⟩
  obtain ⟨i, hi⟩ := Option.isSome_iff_exists.mp hfound
  exact ⟨i, by simp only [resolve, hi]⟩

theorem exists_compile_of_compileForm {path : Pointer} {s : Schema}
    (h : ∃ g, compileForm names path s.form = .ok g) :
    ∃ n, compile names path s = .ok n := by
  obtain ⟨nullable, metadata, f⟩ := s
  obtain ⟨g, hg⟩ := h
  refine ⟨⟨nullable, path, g⟩, ?_⟩
  rw [compile, hg]
  rfl

theorem exists_compileMembers (base : Pointer) {members : List (String × Schema)}
    (h : ∀ m ∈ members, ∀ path, ∃ n, compile names path m.2 = .ok n) :
    ∃ nodes, compileMembers names base members = .ok nodes := by
  induction members with
  | nil => exact ⟨[], by rw [compileMembers]⟩
  | cons m members ih =>
      obtain ⟨n, hn⟩ := h m List.mem_cons_self (base.child m.1)
      obtain ⟨nodes, hnodes⟩ :=
        ih fun m' hm' => h m' (List.mem_cons_of_mem _ hm')
      refine ⟨(m.1, n) :: nodes, ?_⟩
      rw [compileMembers, hn, hnodes]
      rfl

theorem exists_compileProperties (path : Pointer) {p : JsonTypedef.Properties}
    (h : ∀ m ∈ p.declared, ∀ path, ∃ n, compile names path m.2 = .ok n) :
    ∃ q, compileProperties names path p = .ok q := by
  obtain ⟨required, optional, additional, declaresRequired⟩ := p
  obtain ⟨required', hrequired⟩ :=
    exists_compileMembers (path.child "properties") fun m hm =>
      h m (List.mem_append_left _ hm)
  obtain ⟨optional', hoptional⟩ :=
    exists_compileMembers (path.child "optionalProperties") fun m hm =>
      h m (List.mem_append_right _ hm)
  refine ⟨⟨required', optional', additional,
    if declaresRequired then "properties" else "optionalProperties"⟩, ?_⟩
  rw [compileProperties, hrequired, hoptional]
  rfl

theorem exists_compileBranches (base : Pointer)
    {mapping : List (String × JsonTypedef.Branch)}
    (h : ∀ b ∈ mapping, ∀ path, ∃ q,
      compileProperties names path b.2.properties = .ok q) :
    ∃ branches, compileBranches names base mapping = .ok branches := by
  induction mapping with
  | nil => exact ⟨[], by rw [compileBranches]⟩
  | cons b mapping ih =>
      obtain ⟨value, metadata, p⟩ := b
      obtain ⟨q, hq⟩ := h _ List.mem_cons_self (base.child value)
      obtain ⟨branches, hbranches⟩ :=
        ih fun b' hb' => h b' (List.mem_cons_of_mem _ hb')
      refine ⟨(value, ⟨base.child value, q⟩) :: branches, ?_⟩
      rw [compileBranches, hq, hbranches]
      rfl

/-- A closed form compiles wherever it stands. -/
theorem exists_compileForm_of_closed {f : JsonTypedef.Form}
    (h : f.Closed names) :
    ∀ path, ∃ g, compileForm names path f = .ok g := by
  induction h with
  | empty => exact fun path => ⟨.empty, by rw [compileForm]⟩
  | type => exact fun path => ⟨.type _, by rw [compileForm]⟩
  | enum => exact fun path => ⟨.enum _, by rw [compileForm]⟩
  | ref hmem =>
      intro path
      obtain ⟨i, hi⟩ := exists_resolve path hmem
      exact ⟨.ref i, by rw [compileForm, hi]; rfl⟩
  | elements _ ih =>
      intro path
      obtain ⟨n, hn⟩ := exists_compile_of_compileForm (ih (path.child "elements"))
      exact ⟨.elements n, by rw [compileForm, hn]; rfl⟩
  | values _ ih =>
      intro path
      obtain ⟨n, hn⟩ := exists_compile_of_compileForm (ih (path.child "values"))
      exact ⟨.values n, by rw [compileForm, hn]; rfl⟩
  | properties _ ih =>
      intro path
      obtain ⟨q, hq⟩ := exists_compileProperties path fun m hm path =>
        exists_compile_of_compileForm (ih m hm path)
      exact ⟨.properties q, by rw [compileForm, hq]; rfl⟩
  | @discriminator tag mapping _ _ ih =>
      intro path
      have hbranches : ∀ b ∈ mapping, ∀ path, ∃ q,
          compileProperties names path b.2.properties = .ok q := by
        intro b hb path
        obtain ⟨g, hg⟩ := ih b hb path
        rw [compileForm] at hg
        obtain ⟨q, hq, -⟩ := exists_ok_of_map hg
        exact ⟨q, hq⟩
      obtain ⟨branches, h⟩ :=
        exists_compileBranches (path.child "mapping") hbranches
      exact ⟨.discriminator tag branches, by rw [compileForm, h]; rfl⟩

theorem exists_compile_of_closed (path : Pointer) {s : Schema}
    (h : s.form.Closed names) : ∃ n, compile names path s = .ok n :=
  exists_compile_of_compileForm (exists_compileForm_of_closed h path)

/-! ## Parts -/

/-- The nodes right below a form, in the order of the schema. -/
def Form.parts : Form → List Node
  | .elements item => [item]
  | .values item => [item]
  | .properties p => p.declared.map Prod.snd
  | .discriminator _ branches =>
    branches.flatMap fun b => b.2.properties.declared.map Prod.snd
  | _ => []

/-- The node at a place, which lists what part to enter at every level. -/
def Node.at? : List ℕ → Node → Option Node
  | [], n => some n
  | i :: place, n => n.form.parts[i]?.bind (at? place)

variable {rel : Schema → Node → Prop}

theorem PropertiesCompiled.parts {p : JsonTypedef.Properties} {q : Properties}
    (h : PropertiesCompiled rel p q) :
    List.Forall₂ rel (p.declared.map Prod.snd) (q.declared.map Prod.snd) := by
  rw [List.forall₂_map_left_iff, List.forall₂_map_right_iff]
  exact h.declared.imp fun _ _ hentry => hentry.2

/-- The parts of a form are compiled one by one. -/
theorem CompiledForm.parts {f : JsonTypedef.Form} {g : Form}
    (h : CompiledForm rel names f g) : List.Forall₂ rel f.parts g.parts := by
  cases h with
  | empty => exact .nil
  | ref => exact .nil
  | type => exact .nil
  | enum => exact .nil
  | elements h => exact .cons h .nil
  | values h => exact .cons h .nil
  | properties h => exact h.parts
  | discriminator h =>
      induction h with
      | nil => exact .nil
      | cons hb _ ih => exact List.rel_append hb.2.parts ih

theorem Form.WellNamed.of_parts {g : Form} (h : g.WellNamed) :
    ∀ n ∈ g.parts, n.form.WellNamed := by
  intro n hn
  cases h with
  | empty => cases hn
  | ref => cases hn
  | type => cases hn
  | enum => cases hn
  | elements h =>
      obtain rfl := List.mem_singleton.mp hn
      exact h
  | values h =>
      obtain rfl := List.mem_singleton.mp hn
      exact h
  | properties _ h =>
      obtain ⟨m, hm, rfl⟩ := List.mem_map.mp hn
      exact h m hm
  | discriminator _ h =>
      obtain ⟨b, hb, hn⟩ := List.mem_flatMap.mp hn
      obtain ⟨m, hm, rfl⟩ := List.mem_map.mp hn
      exact (h b hb).of_declared hm

end

/-! ## Coherence -/

/-- The unit that a ref points to is the one made from the definition of the
given name, and is found by that name. -/
structure LeadsTo (program : Program) (name : String) (i : ℕ) : Prop where
  unit : program.units[i + 1]? = some (.definition name, program.target i)
  found : program.unitFor? name = some (i + 1)

/-- The index of branches leads from the declared values of the tag, and from
no others, to their branches, none of which declares the tag. -/
structure BranchesCoherent (program : Program) (tag : String)
    (mapping : List (String × JsonTypedef.Branch))
    (branches : List (String × Branch)) : Prop where
  declared : ∀ value b, (value, b) ∈ mapping → ∃ c,
    indexedBranch? branches value = some (value, c) ∧
      PropertiesCompiled program.Compiles b.properties c.properties
  undeclared : ∀ value, value ∉ mapping.map Prod.fst →
    indexedBranch? branches value = none
  search : ∀ value, indexedBranch? branches value =
    (List.lookup value branches).map (value, ·)
  indexed : ∀ c ∈ branches, c.2.properties.Indexed
  untagged : ∀ c ∈ branches, tag ∉ c.2.properties.names

/-- The form of a node is in accord with the form that it was compiled from. -/
inductive Coherent (program : Program) : JsonTypedef.Form → Form → Prop
  | empty : Coherent program .empty .empty
  | ref {name : String} {i : ℕ} :
      program.LeadsTo name i → Coherent program (.ref name) (.ref i)
  | type {kind : TypeKind} : Coherent program (.type kind) (.type kind)
  | enum {values : List String} :
      Coherent program (.enum values) (.enum values)
  | elements {item : Schema} {n : Node} :
      Coherent program (.elements item) (.elements n)
  | values {item : Schema} {n : Node} :
      Coherent program (.values item) (.values n)
  | properties {p : JsonTypedef.Properties} {q : Properties} :
      PropertiesCompiled program.Compiles p q → q.Indexed →
        Coherent program (.properties p) (.properties q)
  | discriminator {tag : String} {mapping : List (String × JsonTypedef.Branch)}
      {branches : List (String × Branch)} :
      program.BranchesCoherent tag mapping branches →
        Coherent program (.discriminator tag mapping)
          (.discriminator tag branches)

variable {program : Program}

theorem FromDocument.names (h : program.FromDocument) :
    program.definitions.map Prod.fst =
      program.document.definitions.map Prod.fst :=
  (map_fst_of_forall₂ (fun _ _ hentry => hentry.1) h.definitions).symm

theorem FromDocument.leadsTo (h : program.FromDocument) {name : String} {i : ℕ}
    (hi : (program.document.definitions.map Prod.fst).findIdx? (· = name) =
      some i) : program.LeadsTo name i := by
  rw [← h.names, List.findIdx?_map] at hi
  constructor
  · obtain ⟨hlt, hname, -⟩ := List.findIdx?_eq_some_iff_getElem.mp hi
    have hget : program.definitions[i]? = some program.definitions[i] :=
      List.getElem?_eq_getElem hlt
    have hname : program.definitions[i].1 = name := of_decide_eq_true hname
    rw [units, List.getElem?_cons_succ, List.getElem?_map, Program.target, hget,
      ← hname]
    rfl
  · rw [unitFor?]
    exact congrArg (Option.map (· + 1)) hi

theorem branchesCoherent {tag : String}
    {mapping : List (String × JsonTypedef.Branch)}
    {branches : List (String × Branch)}
    (hnodup : (mapping.map Prod.fst).Nodup)
    (hcompiled : List.Forall₂ (BranchCompiled program.Compiles) mapping branches)
    (hnamed : (Form.discriminator tag branches).WellNamed) :
    program.BranchesCoherent tag mapping branches := by
  have hnames : mapping.map Prod.fst = branches.map Prod.fst :=
    map_fst_of_forall₂ (fun _ _ hbranch => hbranch.1) hcompiled
  rw [hnames] at hnodup
  have hsearch := indexedBranch?_eq hnodup
  cases hnamed with
  | discriminator huntagged hbranches =>
      refine ⟨fun value b hb => ?_, fun value hvalue => ?_, hsearch,
        fun c hc => Properties.indexed (hbranches c hc).nodup, huntagged⟩
      · obtain ⟨⟨value', c⟩, hc, hname, hproperties⟩ :=
          exists_mem_of_forall₂ hcompiled.flip hb
        obtain rfl : value = value' := hname
        refine ⟨c, ?_, hproperties⟩
        rw [hsearch, lookup_of_mem hnodup hc]
        rfl
      · have hnone : List.lookup value branches = none := by
          rw [← Option.not_isSome_iff_eq_none, lookup_isSome_iff, ← hnames]
          exact hvalue
        rw [hsearch, hnone]
        rfl

/-- A compiled form is coherent if the schema is closed and the node uses names
once. -/
theorem CompiledForm.coherent (hprogram : program.FromDocument)
    {f : JsonTypedef.Form} {g : Form}
    (h : CompiledForm program.Compiles
      (program.document.definitions.map Prod.fst) f g)
    (hclosed : f.Closed (program.document.definitions.map Prod.fst))
    (hnamed : g.WellNamed) : program.Coherent f g := by
  cases h with
  | empty => exact .empty
  | ref hi => exact .ref (hprogram.leadsTo hi)
  | type => exact .type
  | enum => exact .enum
  | elements => exact .elements
  | values => exact .values
  | properties h => exact .properties h (Properties.indexed hnamed.nodup)
  | discriminator h =>
      cases hclosed with
      | discriminator hnodup _ =>
          exact .discriminator (branchesCoherent hnodup h hnamed)

/-- Coherence reaches every node at any depth.  Going down to a part keeps that
the node is compiled from the schema, that the schema is closed and that the
node uses names once. -/
theorem coherent_at? (hprogram : program.FromDocument) (place : List ℕ) :
    ∀ {s : Schema} {n m : Node}, program.Compiles s n →
      s.form.Closed (program.document.definitions.map Prod.fst) →
      n.form.WellNamed → n.at? place = some m →
        ∃ t, s.at? place = some t ∧ program.Coherent t.form m.form := by
  induction place with
  | nil =>
      intro s n m hcompiled hclosed hnamed hm
      cases hm
      exact ⟨s, rfl,
        (compiled_of_compiledTo hcompiled).2.coherent hprogram hclosed hnamed⟩
  | cons i place ih =>
      intro s n m hcompiled hclosed hnamed hm
      obtain ⟨n', hn', hm⟩ := Option.bind_eq_some_iff.mp hm
      have hparts := (compiled_of_compiledTo hcompiled).2.parts
      have hlt : i < s.form.parts.length := by
        rw [hparts.length_eq]
        exact (List.getElem?_eq_some_iff.mp hn').1
      obtain ⟨hlt', rfl⟩ := List.getElem?_eq_some_iff.mp hn'
      obtain ⟨t, ht, hcoherent⟩ := ih (hparts.get hlt hlt')
        (hclosed.of_parts _ (List.getElem_mem hlt))
        (hnamed.of_parts _ (List.getElem_mem hlt')) hm
      refine ⟨t, ?_, hcoherent⟩
      rw [Schema.at?, List.getElem?_eq_getElem hlt]
      exact ht

/-! ## Programs of checked documents -/

/-- The place of a unit's schema in the document. -/
def UnitName.path : UnitName → Pointer
  | .root => .root
  | .definition name => (Pointer.root.child "definitions").child name

/-- The schema that the unit of a name is made from. -/
def UnitName.source? (document : Document) : UnitName → Option Schema
  | .root => some document.root
  | .definition name => document.definition? name

/-- Every unit is made from the schema of its name, at the schema's place. -/
theorem exists_source_of_mem_units {document : Document}
    (hsorted : (document.definitions.map Prod.fst).Pairwise (· < ·))
    {digest : Digest} (h : ofDocument document digest = .ok program)
    {name : UnitName} {unit : Node} (hunit : (name, unit) ∈ program.units) :
    ∃ s, name.source? document = some s ∧
      compile (document.definitions.map Prod.fst) name.path s = .ok unit := by
  obtain ⟨root, hroot, h⟩ := exists_ok_of_bind h
  obtain ⟨definitions, hdefinitions, h⟩ := exists_ok_of_bind h
  cases h
  rcases List.mem_cons.mp hunit with heq | hunit
  · cases heq
    exact ⟨document.root, rfl, hroot⟩
  · obtain ⟨m, hm, heq⟩ := List.mem_map.mp hunit
    cases heq
    obtain ⟨d, hd, hname, hcompiled⟩ :=
      exists_mem_of_forall₂ (entries_of_compileMembers hdefinitions) hm
    refine ⟨d.2, ?_, ?_⟩
    · rw [← hname]
      exact lookup_of_mem (hsorted.imp String.ne_of_lt) hd
    · rw [← hname]
      exact hcompiled

theorem closed_of_source? {schema : Value} (hschema : schema.Distinct)
    {document : Document} (h : Document.ofValue schema = .ok document)
    {name : UnitName} {s : Schema} (hs : name.source? document = some s) :
    s.form.Closed (document.definitions.map Prod.fst) := by
  obtain ⟨hroot, hdefinitions⟩ := Document.closed_of_ofValue hschema h
  cases name with
  | root =>
      cases hs
      exact hroot
  | definition name => exact hdefinitions _ (mem_of_lookup hs)

theorem WellNamed.of_mem_units (h : program.WellNamed) {name : UnitName}
    {unit : Node} (hunit : (name, unit) ∈ program.units) :
    unit.form.WellNamed := by
  rcases List.mem_cons.mp hunit with heq | hunit
  · cases heq
    exact h.root
  · obtain ⟨m, hm, heq⟩ := List.mem_map.mp hunit
    cases heq
    obtain ⟨i, hi⟩ := List.getElem?_of_mem hm
    have htarget : program.target i = m.2 := by
      rw [Program.target, hi]
      rfl
    rw [← htarget]
    exact h.target i

/-- A closed document has a program. -/
theorem exists_ofDocument_of_closed {document : Document}
    (h : document.Closed (document.definitions.map Prod.fst))
    (digest : Digest) :
    ∃ program, ofDocument document digest = .ok program ∧
      program.digest = digest := by
  obtain ⟨hroot, hdefinitions⟩ := h
  obtain ⟨root, hroot⟩ := exists_compile_of_closed .root hroot
  obtain ⟨units, hunits⟩ := exists_compileMembers
    (Pointer.root.child "definitions") fun d hd path =>
      exists_compile_of_closed path (hdefinitions d hd)
  refine ⟨⟨digest, document, root, units⟩, ?_, rfl⟩
  rw [ofDocument, hroot, hunits]
  rfl

theorem exists_ofDocument {schema : Value} (hschema : schema.Distinct)
    {document : Document} (h : Document.ofValue schema = .ok document)
    (digest : Digest) :
    ∃ program, ofDocument document digest = .ok program ∧
      program.digest = digest :=
  exists_ofDocument_of_closed (Document.closed_of_ofValue hschema h) digest

theorem units_of_ofDocument {document : Document} {digest : Digest}
    (h : ofDocument document digest = .ok program) :
    program.units.map Prod.fst =
      .root :: (document.definitions.map Prod.fst).map .definition := by
  obtain ⟨rfl, hcompiled⟩ := fromDocument_of_ofDocument h
  rw [units, List.map_cons, List.map_map, ← hcompiled.names, List.map_map]
  rfl

/-- A unit is compiled from a schema, and every node of the unit is coherent
with the schema at the same place. -/
structure UnitCoherent (program : Program) (path : Pointer) (s : Schema)
    (unit : Node) : Prop where
  compiled : compile (program.document.definitions.map Prod.fst) path s =
    .ok unit
  coherent : ∀ place n, unit.at? place = some n →
    ∃ t, s.at? place = some t ∧ program.Coherent t.form n.form

/-- Every unit of the program of a checked document is coherent with the schema
of its name. -/
theorem exists_unitCoherent {schema : Value} (hschema : schema.Distinct)
    {document : Document} (h : Document.ofValue schema = .ok document)
    {digest : Digest} (hprogram : ofDocument document digest = .ok program)
    {name : UnitName} {unit : Node} (hunit : (name, unit) ∈ program.units) :
    ∃ s, name.source? document = some s ∧
      program.UnitCoherent name.path s unit := by
  have hsorted := Document.sorted_of_ofValue hschema h
  obtain ⟨s, hs, hcompiled⟩ := exists_source_of_mem_units hsorted hprogram hunit
  obtain ⟨rfl, hdocument⟩ := fromDocument_of_ofDocument hprogram
  have hnamed := hdocument.wellNamed hschema h
  exact ⟨s, hs, hcompiled, fun place n hn =>
    coherent_at? hdocument place ⟨_, hcompiled⟩ (closed_of_source? hschema h hs)
      (hnamed.of_mem_units hunit) hn⟩

end Program
end JsonTypedef
