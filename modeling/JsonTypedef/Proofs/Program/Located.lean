import JsonTypedef.Proofs.Json.Place
import JsonTypedef.Proofs.Program.Coherent

/-!
# Programs keep the places of their schemas

Every path of a program, and every keyword of a node, stands in the document
that the program is made from.  Checking and compiling go down the document in
step, so that a part is compiled at the place where it was checked.
-/

namespace JsonTypedef
namespace Program

/-- The paths of a form's parts stand in a schema document, and so do the
keywords by which the form at `path` rejects values. -/
inductive Form.Located (schema : Value) : Pointer → Form → Prop
  | empty {path : Pointer} : Located schema path .empty
  | ref {path : Pointer} {i : ℕ} : Located schema path (.ref i)
  | type {path : Pointer} {kind : TypeKind} :
      schema.Has (path.child "type") → Located schema path (.type kind)
  | enum {path : Pointer} {values : List String} :
      schema.Has (path.child "enum") → Located schema path (.enum values)
  | elements {path : Pointer} {item : Node} :
      schema.Has (path.child "elements") →
      Located schema item.path item.form →
        Located schema path (.elements item)
  | values {path : Pointer} {item : Node} :
      schema.Has (path.child "values") →
      Located schema item.path item.form →
        Located schema path (.values item)
  | properties {path : Pointer} {p : Properties} :
      schema.Has path →
      schema.Has (path.child p.keyword) →
      (∀ m ∈ p.declared, schema.Has m.2.path) →
      (∀ m ∈ p.declared, Located schema m.2.path m.2.form) →
        Located schema path (.properties p)
  | discriminator {path : Pointer} {tag : String}
      {branches : List (String × Branch)} :
      schema.Has (path.child "discriminator") →
      schema.Has (path.child "mapping") →
      (∀ b ∈ branches, Located schema b.2.path (.properties b.2.properties)) →
        Located schema path (.discriminator tag branches)

/-- The paths and keywords of a node stand in a schema document. -/
abbrev Node.Located (schema : Value) (n : Node) : Prop :=
  n.form.Located schema n.path

section

variable {schema : Value} {names names' : List String} {path base : Pointer}
    {ms : Members}

/-- What a table that is checked under a keyword is compiled to: each node comes
from the value at its place. -/
theorem exists_of_tableAt (hschema : schema.Distinct)
    (hpath : schema.at? path.segments = some (.obj ms)) {keyword : String}
    {table : List (String × Schema)} {nodes : List (String × Node)}
    (htable : Schema.TableAt names path ms keyword table)
    (hnodes : compileMembers names' (path.child keyword) table = .ok nodes)
    {m : String × Node} (hm : m ∈ nodes) :
    ∃ v s place, (m.1, s) ∈ table ∧ schema.at? place.segments = some v ∧
      Schema.check names false place v = .ok s ∧
      compile names' place s = .ok m.2 := by
  obtain ⟨d, hd, hname, hcompiled⟩ :=
    exists_mem_of_forall₂ (entries_of_compileMembers hnodes) hm
  rcases htable with rfl | ⟨entries, hget, hentries⟩
  · cases hd
  · obtain ⟨e, he, hentry, hchecked⟩ := exists_mem_of_forall₂ hentries hd
    have hbase : schema.at? (path.child keyword).segments =
        some (.obj entries) := by
      rw [Value.at?_child hpath, hget]
    rw [← hentry] at hcompiled
    refine ⟨e.2, d.2, _, ?_, hschema.at?_member hbase he, hchecked, hcompiled⟩
    rw [← hname]
    exact hd

theorem path_of_compile {s : Schema} {n : Node}
    (h : compile names path s = .ok n) :
    n.path = path ∧ compileForm names path s.form = .ok n.form := by
  obtain ⟨nullable, metadata, f⟩ := s
  unfold compile at h
  obtain ⟨g, hg, rfl⟩ := exists_ok_of_map h
  exact ⟨rfl, hg⟩

theorem compileProperties_eq_ok {p : JsonTypedef.Properties} {q : Properties}
    (h : compileProperties names path p = .ok q) :
    compileMembers names (path.child "properties") p.required =
        .ok q.required ∧
      compileMembers names (path.child "optionalProperties") p.optional =
        .ok q.optional ∧
      q.keyword = p.containerKeyword := by
  obtain ⟨required, optional, additional, declaresRequired⟩ := p
  simp only [compileProperties] at h
  obtain ⟨required', hrequired, h⟩ := exists_ok_of_bind h
  obtain ⟨optional', hoptional, h⟩ := exists_ok_of_bind h
  cases h
  exact ⟨hrequired, hoptional, rfl⟩

/-- Branches are compiled in order, each at its own place below the mapping. -/
theorem entries_of_compileBranches
    {mapping : List (String × JsonTypedef.Branch)}
    {branches : List (String × Branch)}
    (h : compileBranches names base mapping = .ok branches) :
    List.Forall₂ (fun b c => b.1 = c.1 ∧ c.2.path = base.child b.1 ∧
      compileProperties names (base.child b.1) b.2.properties =
        .ok c.2.properties) mapping branches := by
  induction mapping generalizing branches with
  | nil =>
      cases h
      exact .nil
  | cons b mapping ih =>
      obtain ⟨value, metadata, p⟩ := b
      simp only [compileBranches] at h
      obtain ⟨q, hq, h⟩ := exists_ok_of_bind h
      obtain ⟨rest, hrest, h⟩ := exists_ok_of_bind h
      cases h
      exact .cons ⟨rfl, rfl, hq⟩ (ih hrest)

/-- Each declared member is compiled at the place where its schema was checked. -/
theorem exists_of_declared (hschema : schema.Distinct)
    (hpath : schema.at? path.segments = some (.obj ms))
    {p : JsonTypedef.Properties} {q : Properties}
    (hrequired : Schema.TableAt names path ms "properties" p.required)
    (hoptional : Schema.TableAt names path ms "optionalProperties" p.optional)
    (hq : compileProperties names' path p = .ok q) {m : String × Node}
    (hm : m ∈ q.declared) :
    ∃ v s place, (m.1, s) ∈ p.declared ∧
      schema.at? place.segments = some v ∧
      Schema.check names false place v = .ok s ∧
      compile names' place s = .ok m.2 := by
  obtain ⟨hcompiled, hcompiled', -⟩ := compileProperties_eq_ok hq
  rcases List.mem_append.mp hm with hm | hm
  · obtain ⟨v, s, place, hs, h⟩ :=
      exists_of_tableAt hschema hpath hrequired hcompiled hm
    exact ⟨v, s, place, List.mem_append_left _ hs, h⟩
  · obtain ⟨v, s, place, hs, h⟩ :=
      exists_of_tableAt hschema hpath hoptional hcompiled' hm
    exact ⟨v, s, place, List.mem_append_right _ hs, h⟩

/-- A form is located if it is compiled at the place where its schema was
checked. -/
def LocatesChecked (schema : Value) (names names' : List String)
    (f : JsonTypedef.Form) : Prop :=
  ∀ (isRoot : Bool) (path : Pointer) (v : Value) (s : Schema) (g : Form),
    s.form = f → schema.at? path.segments = some v →
    Schema.check names isRoot path v = .ok s →
    compileForm names' path f = .ok g → g.Located schema path

theorem LocatesChecked.node {isRoot : Bool} {v : Value} {s : Schema} {n : Node}
    (h : LocatesChecked schema names names' s.form)
    (hpath : schema.at? path.segments = some v)
    (hchecked : Schema.check names isRoot path v = .ok s)
    (hn : compile names' path s = .ok n) :
    schema.Has n.path ∧ n.Located schema := by
  obtain ⟨hplace, hform⟩ := path_of_compile hn
  rw [Node.Located, hplace]
  exact ⟨⟨v, hpath⟩, h _ _ _ _ _ rfl hpath hchecked hform⟩

/-- The induction is on the schema: checking and compiling go down to the same
places. -/
theorem located_of_check (hschema : schema.Distinct) {f : JsonTypedef.Form}
    (hf : f.WellNamed) : LocatesChecked schema names names' f := by
  induction hf with
  | empty =>
      intro _ path _ s g _ _ _ hg
      cases hg
      exact .empty
  | ref =>
      intro _ path _ s g _ _ _ hg
      obtain ⟨i, -, rfl⟩ := exists_ok_of_map hg
      exact .ref
  | type =>
      intro isRoot path v s g hs hpath hchecked hg
      obtain ⟨ms, rfl, hform⟩ := Schema.checkedAt_of_check hchecked
      rw [hs] at hform
      cases hg
      cases hform with
      | type hkey => exact .type (Value.has_child hpath hkey)
  | enum =>
      intro isRoot path v s g hs hpath hchecked hg
      obtain ⟨ms, rfl, hform⟩ := Schema.checkedAt_of_check hchecked
      rw [hs] at hform
      cases hg
      cases hform with
      | enum hkey => exact .enum (Value.has_child hpath hkey)
  | elements _ ih =>
      intro isRoot path v s g hs hpath hchecked hg
      obtain ⟨ms, rfl, hform⟩ := Schema.checkedAt_of_check hchecked
      rw [hs] at hform
      obtain ⟨n, hn, rfl⟩ := exists_ok_of_map hg
      cases hform with
      | elements hget hitem =>
          have hat := Value.at?_child hpath "elements"
          rw [hget] at hat
          exact .elements ⟨_, hat⟩ (ih.node hat hitem hn).2
  | values _ ih =>
      intro isRoot path v s g hs hpath hchecked hg
      obtain ⟨ms, rfl, hform⟩ := Schema.checkedAt_of_check hchecked
      rw [hs] at hform
      obtain ⟨n, hn, rfl⟩ := exists_ok_of_map hg
      cases hform with
      | values hget hitem =>
          have hat := Value.at?_child hpath "values"
          rw [hget] at hat
          exact .values ⟨_, hat⟩ (ih.node hat hitem hn).2
  | @properties p _ _ ih =>
      intro isRoot path v s g hs hpath hchecked hg
      obtain ⟨ms, rfl, hform⟩ := Schema.checkedAt_of_check hchecked
      rw [hs] at hform
      obtain ⟨q, hq, rfl⟩ := exists_ok_of_map hg
      obtain ⟨-, -, hkeyword⟩ := compileProperties_eq_ok hq
      cases hform with
      | properties hcontainer hrequired hoptional _ =>
          have hmembers : ∀ m ∈ q.declared,
              schema.Has m.2.path ∧ m.2.Located schema := by
            intro m hm
            obtain ⟨v, s, place, hs, hplace, hchecked, hcompiled⟩ :=
              exists_of_declared hschema hpath hrequired hoptional hq hm
            exact (ih _ hs).node hplace hchecked hcompiled
          refine .properties ⟨_, hpath⟩ ?_ (fun m hm => (hmembers m hm).1)
            fun m hm => (hmembers m hm).2
          rw [hkeyword]
          exact Value.has_child hpath hcontainer
  | discriminator _ _ ih =>
      intro isRoot path v s g hs hpath hchecked hg
      obtain ⟨ms, rfl, hform⟩ := Schema.checkedAt_of_check hchecked
      rw [hs] at hform
      obtain ⟨branches, hbranches, rfl⟩ := exists_ok_of_map hg
      cases hform with
      | @discriminator _ entries _ htag hget hentries =>
          have hat : schema.at? (path.child "mapping").segments =
              some (.obj entries) := by
            rw [Value.at?_child hpath, hget]
          refine .discriminator (Value.has_child hpath htag) ⟨_, hat⟩ ?_
          intro c hc
          obtain ⟨b, hb, -, hplace, hcompiled⟩ :=
            exists_mem_of_forall₂ (entries_of_compileBranches hbranches) hc
          obtain ⟨e, he, hname, s, hs, hform, -⟩ :=
            exists_mem_of_forall₂ hentries hb
          have hbranch := hschema.at?_member hat he
          rw [hname] at hbranch hs
          rw [hplace]
          refine ih b hb _ _ _ _ _ hform hbranch hs ?_
          rw [compileForm, hcompiled]
          rfl

end

/-! ## Whole programs -/

/-- All nodes of a program are located in the schema document. -/
structure Located (schema : Value) (program : Program) : Prop where
  root : program.root.Located schema
  target : ∀ i, (program.target i).Located schema

/-- The program of a checked document is located in it. -/
theorem located_of_ofValue {schema : Value} (hschema : schema.Distinct)
    {program : Program} (h : ofValue schema = .ok program) :
    program.Located schema := by
  obtain ⟨document, hdocument, h⟩ := exists_ok_of_bind h
  obtain ⟨hrootNamed, hdefinitionsNamed⟩ :=
    Document.wellNamed_of_ofValue hschema hdocument
  obtain ⟨ms, entries, definitions, rfl, hentries, htable, hchecked, hsorted⟩ :=
    Document.checked_of_ofValue hdocument
  obtain ⟨root, hroot, h⟩ := exists_ok_of_bind h
  obtain ⟨units, hunits, h⟩ := exists_ok_of_bind h
  cases h
  have hrootLocated : root.Located (.obj ms) :=
    ((located_of_check hschema hrootNamed).node (Value.at?_root _) hchecked
      hroot).2
  refine ⟨hrootLocated, fun i => ?_⟩
  unfold Program.target
  cases hi : units[i]? with
  | none => exact hrootLocated
  | some m =>
      obtain ⟨d, hd, hname, hcompiled⟩ := exists_mem_of_forall₂
        (entries_of_compileMembers hunits) (List.mem_of_getElem? hi)
      have hnamed := hdefinitionsNamed d hd
      rw [hsorted, List.mem_mergeSort] at hd
      obtain ⟨e, he, hentry, hs⟩ :=
        exists_mem_of_forall₂ (Schema.checkEntries_eq_ok_iff.mp htable) hd
      have hdefinitions : (Value.obj ms).at?
          (Pointer.root.child "definitions").segments =
          some (.obj entries) := by
        rw [Value.at?_child (Value.at?_root _)]
        rcases hentries with hget | ⟨-, rfl⟩
        · exact hget
        · cases he
      have hplace := hschema.at?_member hdefinitions he
      rw [← hentry] at hcompiled
      exact ((located_of_check hschema hnamed).node hplace hs hcompiled).2

end Program
end JsonTypedef
