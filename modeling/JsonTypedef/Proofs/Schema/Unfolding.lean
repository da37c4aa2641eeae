import JsonTypedef.Proofs.Schema.Closed

/-!
# Unfolding a ref

A ref is unfolded by putting the form of the definition that it names in its
place; the node is nullable afterwards if the ref or the definition was.
`Document.Unfolds` unfolds one ref anywhere in a document, possibly inside the
very definition that it names.  The result is a closed document again, so that
it has a program.
-/

namespace JsonTypedef

/-- The second schema is the first with one of its refs unfolded. -/
inductive Schema.Unfolds (definitions : List (String × Schema)) :
    Schema → Schema → Prop
  | here {nullable : Bool} {metadata metadata' : Option Members} {name : String}
      {s : Schema} :
      List.lookup name definitions = some s →
        Unfolds definitions ⟨nullable, metadata, .ref name⟩
          ⟨nullable || s.nullable, metadata', s.form⟩
  | elements {nullable : Bool} {metadata : Option Members}
      {item item' : Schema} :
      Unfolds definitions item item' →
        Unfolds definitions ⟨nullable, metadata, .elements item⟩
          ⟨nullable, metadata, .elements item'⟩
  | values {nullable : Bool} {metadata : Option Members}
      {item item' : Schema} :
      Unfolds definitions item item' →
        Unfolds definitions ⟨nullable, metadata, .values item⟩
          ⟨nullable, metadata, .values item'⟩
  | required {nullable : Bool} {metadata : Option Members}
      {front behind optional : List (String × Schema)} {name : String}
      {s s' : Schema} {additional declares : Bool} :
      Unfolds definitions s s' →
        Unfolds definitions
          ⟨nullable, metadata, .properties
            ⟨front ++ (name, s) :: behind, optional, additional, declares⟩⟩
          ⟨nullable, metadata, .properties
            ⟨front ++ (name, s') :: behind, optional, additional, declares⟩⟩
  | optional {nullable : Bool} {metadata : Option Members}
      {required front behind : List (String × Schema)} {name : String}
      {s s' : Schema} {additional declares : Bool} :
      Unfolds definitions s s' →
        Unfolds definitions
          ⟨nullable, metadata, .properties
            ⟨required, front ++ (name, s) :: behind, additional, declares⟩⟩
          ⟨nullable, metadata, .properties
            ⟨required, front ++ (name, s') :: behind, additional, declares⟩⟩
  | branch {nullable : Bool} {metadata metadata' : Option Members} {tag : String}
      {front behind : List (String × Branch)} {value : String}
      {p p' : Properties} :
      -- a branch stands for the schema that it was made from
      Unfolds definitions ⟨false, metadata', .properties p⟩
        ⟨false, metadata', .properties p'⟩ →
        Unfolds definitions
          ⟨nullable, metadata, .discriminator tag
            (front ++ (value, ⟨metadata', p⟩) :: behind)⟩
          ⟨nullable, metadata, .discriminator tag
            (front ++ (value, ⟨metadata', p'⟩) :: behind)⟩

/-- The second document is the first with one ref unfolded, in the root or in a
definition. -/
inductive Document.Unfolds : Document → Document → Prop
  | root {root root' : Schema} {definitions : List (String × Schema)} :
      root.Unfolds definitions root' →
        Unfolds ⟨root, definitions⟩ ⟨root', definitions⟩
  | definition {root : Schema} {front behind : List (String × Schema)}
      {name : String} {s s' : Schema} :
      s.Unfolds (front ++ (name, s) :: behind) s' →
        Unfolds ⟨root, front ++ (name, s) :: behind⟩
          ⟨root, front ++ (name, s') :: behind⟩

/-! ## Closed documents stay closed -/

theorem Form.Closed.of_declared {names : List String} {p : Properties}
    (h : (Form.properties p).Closed names) :
    ∀ m ∈ p.declared, m.2.form.Closed names := by
  cases h with
  | properties h => exact h

theorem forall_mem_exchange {α : Type} (holds : α → Prop) {front behind : List α}
    {a b : α} (hb : holds a → holds b) (h : ∀ c ∈ front ++ a :: behind, holds c) :
    ∀ c ∈ front ++ b :: behind, holds c := by
  intro c hc
  rcases List.mem_append.mp hc with hc | hc
  · exact h c (List.mem_append_left _ hc)
  · rcases List.mem_cons.mp hc with rfl | hc
    · exact hb (h a (by simp))
    · exact h c (List.mem_append_right _ (List.mem_cons_of_mem _ hc))

/-- Unfolding a ref to a closed definition keeps a schema closed. -/
theorem Schema.Unfolds.closed {definitions : List (String × Schema)}
    {names : List String}
    (hdefinitions : ∀ d ∈ definitions, d.2.form.Closed names) {s s' : Schema}
    (h : s.Unfolds definitions s') (hs : s.form.Closed names) :
    s'.form.Closed names := by
  induction h with
  | here hlookup => exact hdefinitions _ (mem_of_lookup hlookup)
  | elements _ ih =>
      cases hs with
      | elements hs => exact .elements (ih hs)
  | values _ ih =>
      cases hs with
      | values hs => exact .values (ih hs)
  | required _ ih =>
      refine .properties fun m hm => ?_
      rcases List.mem_append.mp hm with hm | hm
      · exact forall_mem_exchange (fun m => m.2.form.Closed names) ih
          (fun m hm => hs.of_declared m (List.mem_append_left _ hm)) m hm
      · exact hs.of_declared m (List.mem_append_right _ hm)
  | optional _ ih =>
      refine .properties fun m hm => ?_
      rcases List.mem_append.mp hm with hm | hm
      · exact hs.of_declared m (List.mem_append_left _ hm)
      · exact forall_mem_exchange (fun m => m.2.form.Closed names) ih
          (fun m hm => hs.of_declared m (List.mem_append_right _ hm)) m hm
  | branch _ ih =>
      cases hs with
      | discriminator hnodup hbranches =>
          refine .discriminator (by simpa using hnodup) ?_
          exact forall_mem_exchange
            (fun b : String × Branch =>
              (Form.properties b.2.properties).Closed names) ih hbranches

namespace Document

variable {document document' : Document}

theorem Unfolds.names (h : document.Unfolds document') :
    document'.definitions.map Prod.fst =
      document.definitions.map Prod.fst := by
  cases h with
  | root => rfl
  | definition => simp

theorem Unfolds.closed (h : document.Unfolds document') {names : List String}
    (hclosed : document.Closed names) : document'.Closed names := by
  obtain ⟨hroot, hdefinitions⟩ := hclosed
  cases h with
  | root h => exact ⟨h.closed hdefinitions hroot, hdefinitions⟩
  | definition h =>
      exact ⟨hroot, forall_mem_exchange
        (fun d : String × Schema => d.2.form.Closed names)
        (h.closed hdefinitions) hdefinitions⟩

end Document
end JsonTypedef
