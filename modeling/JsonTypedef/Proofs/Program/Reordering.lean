import JsonTypedef.Proofs.Json.Reordering
import JsonTypedef.Proofs.Program.Compiled

/-!
# Programs that declare members in another order

The nodes of two programs are reordered where their forms are alike but for the
order in which members and branches are declared.  Paths and the places of
definitions are the same.
-/

namespace JsonTypedef
namespace Program

section

variable (rel : Node → Node → Prop)

/-- The same members are declared in some order, with related nodes. -/
structure PropertiesReordered (p p' : Properties) : Prop where
  required : Shuffled (Named rel) p.required p'.required
  optional : Shuffled (Named rel) p.optional p'.optional
  additional : p.additional = p'.additional
  keyword : p.keyword = p'.keyword
  member : ∀ key, Option.Rel rel (p.member? key) (p'.member? key)

/-- Branches at one place that declare the same members in some order. -/
structure BranchReordered (b b' : Branch) : Prop where
  path : b.path = b'.path
  properties : PropertiesReordered rel b.properties b'.properties

/-- Forms of the same kind, with related nodes under the same names. -/
inductive FormReordered : Form → Form → Prop
  | empty : FormReordered .empty .empty
  | ref {i : ℕ} : FormReordered (.ref i) (.ref i)
  | type {kind : TypeKind} : FormReordered (.type kind) (.type kind)
  | enum {values : List String} : FormReordered (.enum values) (.enum values)
  | elements {item item' : Node} :
      rel item item' → FormReordered (.elements item) (.elements item')
  | values {item item' : Node} :
      rel item item' → FormReordered (.values item) (.values item')
  | properties {p p' : Properties} :
      PropertiesReordered rel p p' →
        FormReordered (.properties p) (.properties p')
  | discriminator {tag : String} {branches branches' : List (String × Branch)} :
      (∀ value, Option.Rel (BranchReordered rel) (List.lookup value branches)
        (List.lookup value branches')) →
        FormReordered (.discriminator tag branches)
          (.discriminator tag branches')

/-- The nodes of two programs that are related are reordered. -/
structure Reorders (target target' : ℕ → Node) : Prop where
  targets : ∀ i, rel (target i) (target' i)
  nullable : ∀ n n', rel n n' → n.nullable = n'.nullable
  path : ∀ n n', rel n n' → n.path = n'.path
  form : ∀ n n', rel n n' → FormReordered rel n.form n'.form

end

theorem PropertiesReordered.declares_eq {rel : Node → Node → Prop}
    {p p' : Properties} (h : PropertiesReordered rel p p') :
    p.declares = p'.declares := by
  have hnames : p.names.Perm p'.names := by
    rw [Properties.names, Properties.names, Properties.declared,
      Properties.declared, List.map_append, List.map_append]
    exact h.required.names_perm.append h.optional.names_perm
  funext key
  rw [Bool.eq_iff_iff, Properties.declares_iff, Properties.declares_iff]
  exact hnames.mem_iff

theorem PropertiesReordered.refl (p : Properties) :
    PropertiesReordered Eq p p where
  required := .of_forall₂ (List.forall₂_same.mpr fun _ _ => ⟨rfl, rfl⟩)
  optional := .of_forall₂ (List.forall₂_same.mpr fun _ _ => ⟨rfl, rfl⟩)
  additional := rfl
  keyword := rfl
  member key := by
    cases p.member? key with
    | none => exact .none
    | some n => exact .some rfl

/-- A program is reordered with itself. -/
theorem reorders_refl (target : ℕ → Node) : Reorders Eq target target where
  targets _ := rfl
  nullable _ _ h := congrArg Node.nullable h
  path _ _ h := congrArg Node.path h
  form := by
    rintro n _ rfl
    cases n.form with
    | empty => exact .empty
    | ref i => exact .ref
    | type kind => exact .type
    | enum values => exact .enum
    | elements item => exact .elements rfl
    | values item => exact .values rfl
    | properties p => exact .properties (.refl p)
    | discriminator tag branches =>
        refine .discriminator fun value => ?_
        cases List.lookup value branches with
        | none => exact .none
        | some branch => exact .some ⟨rfl, .refl _⟩

end Program
end JsonTypedef
