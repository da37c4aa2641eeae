import JsonTypedef.Proofs.Schema.Checked

/-!
# Closed schemas

A checked document is closed: its refs name definitions that it has, and its
mappings name a branch once.  `Form.parts` lists the schemas right below a form,
and `Schema.at?` goes down along places in these lists.
-/

namespace JsonTypedef

/-- Refs name one of the given definitions and no mapping names a branch twice,
at any depth. -/
inductive Form.Closed (names : List String) : Form → Prop
  | empty : Closed names .empty
  | ref {name : String} : name ∈ names → Closed names (.ref name)
  | type {kind : TypeKind} : Closed names (.type kind)
  | enum {values : List String} : Closed names (.enum values)
  | elements {item : Schema} :
      Closed names item.form → Closed names (.elements item)
  | values {item : Schema} :
      Closed names item.form → Closed names (.values item)
  | properties {p : Properties} :
      (∀ m ∈ p.declared, Closed names m.2.form) → Closed names (.properties p)
  | discriminator {tag : String} {mapping : List (String × Branch)} :
      (mapping.map Prod.fst).Nodup →
      (∀ b ∈ mapping, Closed names (.properties b.2.properties)) →
        Closed names (.discriminator tag mapping)

/-- A checked form is closed where its parts are. -/
theorem Schema.Checked.closed {names : List String} {ms : Members} {f : Form}
    (hms : (Value.obj ms).Distinct)
    (h : Checked (fun _ s => s.form.Closed names) names ms f) :
    f.Closed names := by
  cases h with
  | empty => exact .empty
  | ref hmem => exact .ref hmem
  | type => exact .type
  | enum => exact .enum
  | elements _ h => exact .elements h
  | values _ h => exact .values h
  | properties hrequired hoptional _ =>
      refine .properties fun d hd => ?_
      rcases List.mem_append.mp hd with hd | hd
      · exact hrequired.forall d hd
      · exact hoptional.forall d hd
  | discriminator hmem hentries =>
      refine .discriminator ?_ fun b hb => ?_
      · rw [← map_fst_of_forall₂ (fun _ _ hentry => hentry.1) hentries]
        have hmapping := hms.of_mem hmem
        exact hmapping.nodup_keys
      · obtain ⟨e, he, -, s, hclosed, hform, -⟩ :=
          exists_mem_of_forall₂ hentries hb
        rw [← hform]
        exact hclosed

theorem Form.Closed.mono {names names' : List String} (hsub : names ⊆ names')
    {f : Form} (h : f.Closed names) : f.Closed names' := by
  induction h with
  | empty => exact .empty
  | ref hmem => exact .ref (hsub hmem)
  | type => exact .type
  | enum => exact .enum
  | elements _ ih => exact .elements ih
  | values _ ih => exact .values ih
  | properties _ ih => exact .properties ih
  | discriminator hnodup _ ih => exact .discriminator hnodup ih

/-! ## Documents -/

/-- The names under `definitions` in a schema document, in the order of the
text. -/
def Value.definedNames : Value → List String
  | .obj ms =>
    match Members.get? ms "definitions" with
    | some (.obj entries) => Members.keys entries
    | _ => []
  | _ => []

namespace Document

theorem DefinitionEntries.definedNames {ms entries : Members}
    (h : DefinitionEntries ms entries) :
    (Value.obj ms).definedNames = entries.keys := by
  rcases h with hget | ⟨hget, rfl⟩
  · simp only [Value.definedNames, hget]
  · simp only [Value.definedNames, hget]
    rfl

/-- A document has one definition for every name under `definitions`. -/
theorem perm_definedNames {schema : Value} {document : Document}
    (h : ofValue schema = .ok document) :
    (document.definitions.map Prod.fst).Perm schema.definedNames := by
  obtain ⟨ms, entries, definitions, rfl, hentries, htable, -, hsorted⟩ :=
    checked_of_ofValue h
  have hnames : entries.keys = definitions.map Prod.fst :=
    map_fst_of_forall₂ (fun _ _ hentry => hentry.1)
      (Schema.checkEntries_eq_ok_iff.mp htable)
  rw [hentries.definedNames, hnames, hsorted]
  exact (List.mergeSort_perm _ _).map _

theorem nodup_definedNames {schema : Value} (hschema : schema.Distinct) :
    schema.definedNames.Nodup := by
  unfold Value.definedNames
  split
  next ms =>
    split
    next entries hget =>
      have hentries := hschema.of_mem (Members.mem_of_get? hget)
      exact hentries.nodup_keys
    next => exact List.nodup_nil
  next => exact List.nodup_nil

/-- The definitions of a document stand in increasing order of their names. -/
theorem sorted_of_ofValue {schema : Value} (hschema : schema.Distinct)
    {document : Document} (h : ofValue schema = .ok document) :
    (document.definitions.map Prod.fst).Pairwise (· < ·) := by
  obtain ⟨ms, entries, definitions, -, -, -, -, hsorted⟩ := checked_of_ofValue h
  have hnodup : (document.definitions.map Prod.fst).Nodup :=
    (perm_definedNames h).nodup_iff.mpr (nodup_definedNames hschema)
  rw [hsorted] at hnodup ⊢
  exact pairwise_mergeSort_names
    (((List.mergeSort_perm _ _).map _).nodup_iff.mp hnodup)

/-- All schemas of a document are closed. -/
def Closed (document : Document) (names : List String) : Prop :=
  document.root.form.Closed names ∧
    ∀ d ∈ document.definitions, d.2.form.Closed names

/-- All schemas of a checked document are closed. -/
theorem closed_of_ofValue {schema : Value} (hschema : schema.Distinct)
    {document : Document} (h : ofValue schema = .ok document) :
    document.Closed (document.definitions.map Prod.fst) := by
  obtain ⟨ms, entries, rfl, hentries, hroot, hdefinitions⟩ :=
    @holds_of_ofValue (fun names f => f.Closed names) Schema.Checked.closed _
      hschema _ h
  have hsub : entries.keys ⊆ document.definitions.map Prod.fst := by
    rw [← hentries.definedNames]
    exact (perm_definedNames h).symm.subset
  exact ⟨hroot.mono hsub, fun d hd => (hdefinitions d hd).mono hsub⟩

end Document

/-! ## Parts -/

/-- The schemas right below a form, in the order of the text. -/
def Form.parts : Form → List Schema
  | .elements item => [item]
  | .values item => [item]
  | .properties p => p.declared.map Prod.snd
  | .discriminator _ mapping =>
    mapping.flatMap fun b => b.2.properties.declared.map Prod.snd
  | _ => []

/-- The schema at a place, which lists what part to enter at every level. -/
def Schema.at? : List ℕ → Schema → Option Schema
  | [], s => some s
  | i :: place, s => s.form.parts[i]?.bind (at? place)

theorem Form.Closed.of_parts {names : List String} {f : Form}
    (h : f.Closed names) : ∀ s ∈ f.parts, s.form.Closed names := by
  intro s hs
  cases h with
  | empty => cases hs
  | ref => cases hs
  | type => cases hs
  | enum => cases hs
  | elements h =>
      obtain rfl := List.mem_singleton.mp hs
      exact h
  | values h =>
      obtain rfl := List.mem_singleton.mp hs
      exact h
  | properties h =>
      obtain ⟨m, hm, rfl⟩ := List.mem_map.mp hs
      exact h m hm
  | discriminator _ h =>
      obtain ⟨b, hb, hs⟩ := List.mem_flatMap.mp hs
      obtain ⟨m, hm, rfl⟩ := List.mem_map.mp hs
      cases h b hb with
      | properties h => exact h m hm

end JsonTypedef
