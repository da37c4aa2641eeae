import JsonTypedef.Proofs.Program.Coherent
import JsonTypedef.Proofs.Program.Simulation
import JsonTypedef.Proofs.Schema.Unfolding

/-!
# Programs of unfolded documents

The program of a document and that of the document with a ref unfolded are
related node by node, by the schemas that the nodes were compiled from.  A step
in the schema keeps the nodes related, so that the second program stands for the
first.
-/

namespace JsonTypedef

/-- Related lists stay related when an entry is exchanged for one that is related
to whatever the first one is related to. -/
theorem forall₂_exchange {α β : Type} {rel rel' : α → β → Prop}
    (himp : ∀ a b, rel a b → rel' a b) {front behind : List α} {a a' : α}
    {bs : List β} (ha : ∀ b, rel a' b → rel' a b)
    (h : List.Forall₂ rel (front ++ a' :: behind) bs) :
    List.Forall₂ rel' (front ++ a :: behind) bs := by
  induction front generalizing bs with
  | nil =>
      cases h with
      | cons hhead htail => exact .cons (ha _ hhead) (htail.imp himp)
  | cons c front ih =>
      cases h with
      | cons hhead htail => exact .cons (himp _ _ hhead) (ih htail)

namespace Program

/-! ## Forms compiled from one schema form -/

section

variable {names : List String} {first second : Schema → Node → Prop}

/-- Two nodes come from one schema. -/
def Joined (first second : Schema → Node → Prop) (n n' : Node) : Prop :=
  ∃ s, first s n ∧ second s n'

theorem PropertiesCompiled.alike {p : JsonTypedef.Properties}
    {q q' : Properties} (h : PropertiesCompiled first p q)
    (h' : PropertiesCompiled second p q') :
    PropertiesAlike (Joined first second) q q' where
  required := (forall₂_of_forall₂ h.required h'.required).imp
    fun _ _ ⟨d, ⟨hname, hn⟩, hname', hn'⟩ =>
      ⟨hname.symm.trans hname', d.2, hn, hn'⟩
  optional := (forall₂_of_forall₂ h.optional h'.optional).imp
    fun _ _ ⟨d, ⟨hname, hn⟩, hname', hn'⟩ =>
      ⟨hname.symm.trans hname', d.2, hn, hn'⟩
  additional := h.additional.trans h'.additional.symm

/-- What one schema form is compiled to in two ways is alike. -/
theorem CompiledForm.alike {f : JsonTypedef.Form} {g g' : Form}
    (h : CompiledForm first names f g) (h' : CompiledForm second names f g') :
    FormAlike (Joined first second) g g' := by
  cases h with
  | empty => cases h'; exact .empty
  | ref hi =>
      cases h' with
      | ref hi' =>
          obtain rfl := Option.some.inj (hi.symm.trans hi')
          exact .ref
  | type => cases h'; exact .type
  | enum => cases h'; exact .enum
  | elements h =>
      cases h' with
      | elements h' => exact .elements ⟨_, h, h'⟩
  | values h =>
      cases h' with
      | values h' => exact .values ⟨_, h, h'⟩
  | properties h =>
      cases h' with
      | properties h' => exact .properties (h.alike h')
  | discriminator h =>
      cases h' with
      | discriminator h' =>
          exact .discriminator ((forall₂_of_forall₂ h h').imp
            fun _ _ ⟨b, ⟨hname, hb⟩, hname', hb'⟩ =>
              ⟨hname.symm.trans hname', hb.alike hb'⟩)

end

/-! ## Nodes of unfolded schemas -/

section

variable {definitions : List (String × Schema)} {names : List String}

/-- The node is compiled from the schema, or from the schema with a ref
unfolded. -/
def UnfoldsTo (definitions : List (String × Schema)) (names : List String)
    (s : Schema) (n : Node) : Prop :=
  ∃ s', (s' = s ∨ s.Unfolds definitions s') ∧ CompiledTo names s' n

theorem UnfoldsTo.of_compiledTo {s : Schema} {n : Node}
    (h : CompiledTo names s n) : UnfoldsTo definitions names s n :=
  ⟨s, Or.inl rfl, h⟩

theorem unfoldsTo_exchange {front behind : List (String × Schema)}
    {name : String} {s s' : Schema} {nodes : List (String × Node)}
    (hunfolds : s.Unfolds definitions s')
    (h : List.Forall₂ (EntryCompiled (CompiledTo names))
      (front ++ (name, s') :: behind) nodes) :
    List.Forall₂ (EntryCompiled (UnfoldsTo definitions names))
      (front ++ (name, s) :: behind) nodes :=
  forall₂_exchange (fun _ _ ⟨hname, hd⟩ => ⟨hname, .of_compiledTo hd⟩)
    (fun _ ⟨hname, hd⟩ => ⟨hname, s', Or.inr hunfolds, hd⟩) h

theorem unfoldsTo_entries {table : List (String × Schema)}
    {nodes : List (String × Node)}
    (h : List.Forall₂ (EntryCompiled (CompiledTo names)) table nodes) :
    List.Forall₂ (EntryCompiled (UnfoldsTo definitions names)) table nodes :=
  h.imp fun _ _ ⟨hname, hd⟩ => ⟨hname, .of_compiledTo hd⟩

theorem unfoldsTo_properties {s s' : Schema}
    (hunfolds : s.Unfolds definitions s') {p p' : JsonTypedef.Properties}
    (hs : s.form = .properties p) (hs' : s'.form = .properties p')
    {q : Properties} (h : PropertiesCompiled (CompiledTo names) p' q) :
    PropertiesCompiled (UnfoldsTo definitions names) p q := by
  cases hunfolds with
  | required hunfolds =>
      cases hs
      cases hs'
      exact ⟨unfoldsTo_exchange hunfolds h.required,
        unfoldsTo_entries h.optional, h.additional⟩
  | optional hunfolds =>
      cases hs
      cases hs'
      exact ⟨unfoldsTo_entries h.required,
        unfoldsTo_exchange hunfolds h.optional, h.additional⟩
  | _ => cases hs

theorem PropertiesCompiled.unfoldsTo {p : JsonTypedef.Properties}
    {q : Properties} (h : PropertiesCompiled (CompiledTo names) p q) :
    PropertiesCompiled (UnfoldsTo definitions names) p q :=
  ⟨unfoldsTo_entries h.required, unfoldsTo_entries h.optional, h.additional⟩

theorem CompiledForm.unfoldsTo {f : JsonTypedef.Form} {g : Form}
    (h : CompiledForm (CompiledTo names) names f g) :
    CompiledForm (UnfoldsTo definitions names) names f g := by
  cases h with
  | empty => exact .empty
  | ref hi => exact .ref hi
  | type => exact .type
  | enum => exact .enum
  | elements h => exact .elements (.of_compiledTo h)
  | values h => exact .values (.of_compiledTo h)
  | properties h => exact .properties h.unfoldsTo
  | discriminator h =>
      exact .discriminator (h.imp fun _ _ ⟨hname, hb⟩ => ⟨hname, hb.unfoldsTo⟩)

/-- A node that a schema unfolds to has the schema's form part by part, or the
schema is the ref that was unfolded. -/
theorem UnfoldsTo.step {s : Schema} {n : Node}
    (h : UnfoldsTo definitions names s n) :
    (n.nullable = s.nullable ∧
      CompiledForm (UnfoldsTo definitions names) names s.form n.form) ∨
    ∃ name t, s.form = .ref name ∧ List.lookup name definitions = some t ∧
      n.nullable = (s.nullable || t.nullable) ∧
      CompiledForm (UnfoldsTo definitions names) names t.form n.form := by
  obtain ⟨s', hs', hcompiled⟩ := h
  obtain ⟨hnullable, hform⟩ := compiled_of_compiledTo hcompiled
  rcases hs' with rfl | hunfolds
  · exact Or.inl ⟨hnullable, hform.unfoldsTo⟩
  · have hwhole := hunfolds
    generalize hn : n.form = g at hform
    cases hunfolds with
    | here hlookup =>
        exact Or.inr ⟨_, _, rfl, hlookup, hnullable, hform.unfoldsTo⟩
    | elements hunfolds =>
        cases hform with
        | elements hitem =>
            exact Or.inl ⟨hnullable, .elements ⟨_, Or.inr hunfolds, hitem⟩⟩
    | values hunfolds =>
        cases hform with
        | values hitem =>
            exact Or.inl ⟨hnullable, .values ⟨_, Or.inr hunfolds, hitem⟩⟩
    | required =>
        cases hform with
        | properties hp =>
            exact Or.inl ⟨hnullable,
              .properties (unfoldsTo_properties hwhole rfl rfl hp)⟩
    | optional =>
        cases hform with
        | properties hp =>
            exact Or.inl ⟨hnullable,
              .properties (unfoldsTo_properties hwhole rfl rfl hp)⟩
    | branch hunfolds =>
        cases hform with
        | discriminator hbranches =>
            refine Or.inl ⟨hnullable, .discriminator ?_⟩
            exact forall₂_exchange
              (fun _ _ ⟨hname, hb⟩ => ⟨hname, hb.unfoldsTo⟩)
              (fun _ ⟨hname, hb⟩ => ⟨hname, unfoldsTo_properties hunfolds rfl rfl hb⟩)
              hbranches

end

/-! ## Whole programs -/

section

variable {document document' : Document} {digest digest' : Digest}
    {program program' : Program}

/-- A node of the document's program and what stands for it in the program of
the document with a ref unfolded. -/
abbrev UnfoldedNode (document : Document) : Node → Node → Prop :=
  Joined (CompiledTo (document.definitions.map Prod.fst))
    (UnfoldsTo document.definitions (document.definitions.map Prod.fst))

theorem target_of_forall₂ {rel : Node → Node → Prop}
    (hroot : rel program.root program'.root)
    (h : List.Forall₂ (fun m m' => rel m.2 m'.2) program.definitions
      program'.definitions) (i : ℕ) :
    rel (program.target i) (program'.target i) := by
  unfold Program.target
  by_cases hi : i < program.definitions.length
  · have hi' : i < program'.definitions.length := by rwa [← h.length_eq]
    rw [List.getElem?_eq_getElem hi, List.getElem?_eq_getElem hi']
    exact h.get hi hi'
  · have hi' : ¬ i < program'.definitions.length := by rwa [← h.length_eq]
    rw [List.getElem?_eq_none (Nat.le_of_not_lt hi),
      List.getElem?_eq_none (Nat.le_of_not_lt hi')]
    exact hroot

theorem unfoldedNode_units (h : document.Unfolds document')
    (hprogram : ofDocument document digest = .ok program)
    (hprogram' : ofDocument document' digest' = .ok program') :
    UnfoldedNode document program.root program'.root ∧
      ∀ i, UnfoldedNode document (program.target i) (program'.target i) := by
  obtain ⟨rfl, hcompiled⟩ := fromDocument_of_ofDocument hprogram
  obtain ⟨rfl, hcompiled'⟩ := fromDocument_of_ofDocument hprogram'
  have hnames := h.names
  have hroot' := hcompiled'.root
  have hdefinitions' := hcompiled'.definitions
  unfold Compiles at hroot' hdefinitions'
  rw [hnames] at hroot' hdefinitions'
  obtain ⟨hroot, hdefinitions⟩ :
      UnfoldsTo program.document.definitions
          (program.document.definitions.map Prod.fst) program.document.root
          program'.root ∧
        List.Forall₂ (EntryCompiled (UnfoldsTo program.document.definitions
          (program.document.definitions.map Prod.fst)))
          program.document.definitions program'.definitions := by
    generalize program.document = first at h hroot' hdefinitions' ⊢
    generalize program'.document = second at h hroot' hdefinitions'
    cases h with
    | root hunfolds =>
        exact ⟨⟨_, Or.inr hunfolds, hroot'⟩, unfoldsTo_entries hdefinitions'⟩
    | definition hunfolds =>
        exact ⟨.of_compiledTo hroot',
          unfoldsTo_exchange hunfolds hdefinitions'⟩
  have hjoined : UnfoldedNode program.document program.root program'.root :=
    ⟨_, hcompiled.root, hroot⟩
  refine ⟨hjoined, target_of_forall₂ hjoined ?_⟩
  exact (forall₂_of_forall₂ hcompiled.definitions hdefinitions).imp
    fun _ _ ⟨d, ⟨_, hm⟩, _, hm'⟩ => ⟨d.2, hm, hm'⟩

/-- The program of a document with a ref unfolded stands for the program of the
document. -/
theorem simulates_of_unfolds (h : document.Unfolds document')
    (hprogram : ofDocument document digest = .ok program)
    (hprogram' : ofDocument document' digest' = .ok program') :
    Simulates (UnfoldedNode document) program.target program'.target := by
  refine ⟨(unfoldedNode_units h hprogram hprogram').2, ?_⟩
  obtain ⟨rfl, hcompiled⟩ := fromDocument_of_ofDocument hprogram
  rintro n n' ⟨s, hn, hn'⟩
  obtain ⟨hnullable, hform⟩ := compiled_of_compiledTo hn
  rcases hn'.step with
      ⟨hnullable', hform'⟩ | ⟨name, t, hs, hlookup, hnullable', hform'⟩
  · exact Or.inl ⟨hnullable'.trans hnullable.symm, hform.alike hform'⟩
  · rw [hs] at hform
    generalize hg : n.form = g at hform
    cases hform with
    | @ref _ i hi =>
        obtain ⟨d, hd, htarget⟩ := hcompiled.target hi
        obtain rfl : d = t := Option.some.inj (hd.symm.trans hlookup)
        obtain ⟨hnull, hcompiledForm⟩ := compiled_of_compiledTo htarget
        refine Or.inr ⟨i, rfl, ?_, hcompiledForm.alike hform'⟩
        rw [hnullable', hnullable, hnull]

end

end Program
end JsonTypedef
