import JsonTypedef.Proofs.Parsing.Descent
import JsonTypedef.Proofs.Program.Rearranged

/-!
# Where declarations come from

Every node that a parse reads along is made from the value at its place in the
schema document.  The declarations that an object is read along are made from
the keywords of the document's object there, or from those of the mapping's
entry for the tag; the required members keep the order in which these keywords
declare them.
-/

namespace JsonTypedef
namespace Parsing

open Grammar Program

/-- The place in the schema document of what declares the members of an object:
the place of its node, or that of the mapping's entry for its tag. -/
inductive DeclaredAt (search : Search) (n : Node) (brace : Source) :
    Program.Properties → Pointer → Prop
  | properties {p : Program.Properties} :
      n.form = .properties p → DeclaredAt search n brace p n.path
  | branch {tag value : String} {branches : List (String × Program.Branch)}
      {branch : Program.Branch} {pos : ℕ} :
      n.form = .discriminator tag branches →
        search tag brace (.ok (value, pos)) →
          List.lookup value branches = some branch →
            DeclaredAt search n brace branch.properties
              ((n.path.child "mapping").child value)

/-- The required members are those that the object at a place of a schema
document declares, in its order. -/
def KeepsOrder (schema : Value) (path : Pointer) (p : Program.Properties) :
    Prop :=
  ∃ ms : Members, schema.at? path.segments = some (.obj ms) ∧
    p.required.map Prod.fst = (ms.table "properties").keys

section

variable (schema : Value) (names units : List String)

/-- A node is made from the value at some place of a schema document. -/
def MadeIn (n : Node) : Prop :=
  ∃ path v, schema.at? path.segments = some v ∧ Made names units path v n

/-- Declarations are made from the keywords of the object at a place of a schema
document. -/
def DeclaredIn (path : Pointer) (p : Program.Properties) : Prop :=
  ∃ ms, schema.at? path.segments = some (.obj ms) ∧
    PropertiesMade (Made names units) path ms p

/-- The node that a value is read along, if any, is made from the document. -/
def GuideMade (g : Guide) : Prop :=
  ∀ n ∈ g, MadeIn schema names units n

end

section

variable {schema : Value} {names units : List String} {path : Pointer}
    {ms : Members} {n : Node} {p : Program.Properties}

theorem DeclaredIn.keepsOrder (h : DeclaredIn schema names units path p) :
    KeepsOrder schema path p := by
  obtain ⟨ms, hat, hp⟩ := h
  have hnames : (Members.table ms "properties").keys =
      p.required.map Prod.fst :=
    map_fst_of_forall₂ (fun _ _ hm => hm.1) hp.required
  exact ⟨ms, hat, hnames.symm⟩

theorem MadeIn.item (h : MadeIn schema names units n) {item : Node}
    (heq : n.form = .elements item ∨ n.form = .values item) :
    MadeIn schema names units item := by
  obtain ⟨path, v, hat, hmade⟩ := h
  obtain ⟨ms, group, rfl, hnode⟩ := hmade.exists_nodeMade
  have hform := hnode.form
  have hchild : ∀ {keyword : String} {w : Value},
      Members.get? ms keyword = some w →
      Made names units (path.child keyword) w item →
        MadeIn schema names units item :=
    fun hget hmade => ⟨_, _, (Value.at?_child hat _).trans hget, hmade⟩
  rcases heq with heq | heq
  · rw [heq] at hform
    cases hform with
    | elements hget hmade => exact hchild hget hmade
  · rw [heq] at hform
    cases hform with
    | values hget hmade => exact hchild hget hmade

variable (hschema : schema.Distinct)

include hschema

theorem madeIn_of_entries (hat : schema.at? path.segments = some (.obj ms))
    {keyword : String} {nodes : List (String × Node)}
    (h : Shuffled (EntryMade (Made names units) (path.child keyword))
      (ms.table keyword) nodes) {m : String × Node} (hm : m ∈ nodes) :
    MadeIn schema names units m.2 := by
  obtain ⟨entries, hperm, hentries⟩ := h
  obtain ⟨e, he, -, hmade⟩ := exists_mem_of_forall₂ hentries hm
  have he := hperm.mem_iff.mpr he
  have hchild := Value.at?_child hat keyword
  unfold Members.table Members.object? at he
  split at he
  next table hget =>
    rw [hget] at hchild
    exact ⟨_, e.2, hschema.at?_member hchild he, hmade⟩
  next => cases he

theorem DeclaredIn.member (h : DeclaredIn schema names units path p)
    {key : String} (hn : p.member? key = some n) :
    MadeIn schema names units n := by
  obtain ⟨ms, hat, hp⟩ := h
  rcases List.mem_append.mp (Properties.mem_of_member? hn) with hm | hm
  · exact madeIn_of_entries hschema hat (.of_forall₂ hp.required) hm
  · exact madeIn_of_entries hschema hat (.of_forall₂ hp.optional) hm

/-- What an object is read along is made from its keywords at the place of the
node, or in the entry for the tag. -/
theorem MadeIn.declares (h : MadeIn schema names units n) {search : Search}
    {brace : Source} {tag : Option String}
    (hdeclares : Declares search n brace p tag) :
    ∃ path, DeclaredAt search n brace p path ∧
      DeclaredIn schema names units path p := by
  obtain ⟨path, v, hat, hmade⟩ := h
  obtain ⟨ms, group, rfl, hnode⟩ := hmade.exists_nodeMade
  have hform := hnode.form
  rw [← hnode.place] at hat hform
  cases hdeclares with
  | properties heq =>
      rw [heq] at hform
      cases hform with
      | properties hp => exact ⟨n.path, .properties heq, ms, hat, hp⟩
  | branch heq hsearch hbranch =>
      rw [heq] at hform
      cases hform with
      | discriminator _ hget hbranches =>
          obtain ⟨e, he, hname, -, ns, hns, hp⟩ :=
            exists_mem_of_forall₂ hbranches (mem_of_lookup hbranch)
          have hmapping := Value.at?_child hat "mapping"
          rw [hget] at hmapping
          have hentry := hschema.at?_member hmapping he
          rw [hns, hname] at hentry
          rw [hname] at hp
          exact ⟨_, .branch heq hsearch hbranch, ns, hentry, hp⟩

/-- Reading goes on along nodes that are made from the document. -/
theorem Step.made {search : Search} {target : ℕ → Node}
    (htarget : ∀ i, MadeIn schema names units (target i))
    {here there : Guide × Source} (h : Step search target here there)
    (hmade : GuideMade schema names units here.1) :
    GuideMade schema names units there.1 := by
  cases h with
  | empty => rintro _ ⟨⟩
  | ref =>
      rintro _ ⟨⟩
      exact htarget _
  | item hguide =>
      cases hguide with
      | untyped => rintro _ ⟨⟩
      | elements hform =>
          rintro _ ⟨⟩
          exact (hmade _ rfl).item (Or.inl hform)
  | member _ _ _ hguide =>
      cases hguide with
      | untyped => rintro _ ⟨⟩
      | values hform =>
          rintro _ ⟨⟩
          exact (hmade _ rfl).item (Or.inr hform)
      | declared hdeclares _ hmember =>
          rintro _ ⟨⟩
          obtain ⟨path, -, hin⟩ := (hmade _ rfl).declares hschema hdeclares
          exact hin.member hschema hmember
      | additional => rintro _ ⟨⟩

theorem Leads.made {search : Search} {target : ℕ → Node}
    (htarget : ∀ i, MadeIn schema names units (target i))
    {here there : Guide × Source} (h : Leads search target here there)
    (hmade : GuideMade schema names units here.1) :
    GuideMade schema names units there.1 := by
  induction h with
  | refl => exact hmade
  | tail _ hstep ih => exact hstep.made hschema htarget ih

end

/-- All units of a program are made from its schema document. -/
theorem exists_madeIn {schema : Value} (hschema : schema.Distinct)
    {program : Program} (h : ofValue schema = .ok program) :
    ∃ names units, MadeIn schema names units program.root ∧
      ∀ i, MadeIn schema names units (program.target i) := by
  obtain ⟨ms, rfl, hmade⟩ := madeFrom_of_ofValue hschema h
  have hroot : MadeIn (.obj ms) _ _ program.root :=
    ⟨.root, .obj ms, Value.at?_root _, hmade.root⟩
  refine ⟨_, _, hroot, fun i => ?_⟩
  unfold Program.target
  cases hi : program.definitions[i]? with
  | none => exact hroot
  | some m =>
      exact madeIn_of_entries hschema (Value.at?_root _) hmade.definitions
        (List.mem_of_getElem? hi)

/-- What an object is read along has the required members in the order in which
the schema document declares them for it. -/
theorem keepsOrder_of_leads {schema : Value} (hschema : schema.Distinct)
    {program : Program} (h : ofValue schema = .ok program) {search : Search}
    {s s' brace : Source} {n : Node} {p : Program.Properties}
    {tag : Option String}
    (hleads : Leads search program.target (some program.root, s) (some n, s'))
    (hdeclares : Declares search n brace p tag) :
    ∃ path, DeclaredAt search n brace p path ∧ KeepsOrder schema path p := by
  obtain ⟨names, units, hroot, htarget⟩ := exists_madeIn hschema h
  have hstart : GuideMade schema names units (some program.root) := by
    rintro _ ⟨⟩
    exact hroot
  have hmade := hleads.made hschema htarget hstart n rfl
  obtain ⟨path, hplace, hin⟩ := hmade.declares hschema hdeclares
  exact ⟨path, hplace, hin.keepsOrder⟩

end Parsing
end JsonTypedef
