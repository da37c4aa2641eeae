import JsonTypedef.Proofs.Program.Compiled

/-!
# Programs that stand for one another

The nodes of one program stand for those of another where their forms are alike
part by part, or the first node is a ref and the second has the form of the
ref's target.  A run along the second program then needs no more depth than one
along the first.  `Simulates.holds` is the induction that carries a relation
between runs from the parts of two nodes to the nodes; each back-end shows what
its runs do at one node.
-/

namespace JsonTypedef

theorem lookup_forall₂ {α β : Type} {rel : α → β → Prop}
    {as : List (String × α)} {bs : List (String × β)}
    (h : List.Forall₂ (fun a b => a.1 = b.1 ∧ rel a.2 b.2) as bs)
    (name : String) :
    Option.Rel rel (List.lookup name as) (List.lookup name bs) := by
  induction h with
  | nil => exact .none
  | @cons a b _ _ hab _ ih =>
      obtain ⟨key, x⟩ := a
      obtain ⟨key', y⟩ := b
      obtain ⟨rfl, hxy⟩ := hab
      rw [lookup_cons_eq_if, lookup_cons_eq_if]
      by_cases hname : key = name
      · rw [if_pos hname, if_pos hname]
        exact .some hxy
      · rw [if_neg hname, if_neg hname]
        exact ih

namespace Program

section

variable (rel : Node → Node → Prop)

/-- Declarations of the same members, with related nodes. -/
structure PropertiesAlike (p p' : Properties) : Prop where
  required : List.Forall₂ (fun m m' => m.1 = m'.1 ∧ rel m.2 m'.2) p.required
    p'.required
  optional : List.Forall₂ (fun m m' => m.1 = m'.1 ∧ rel m.2 m'.2) p.optional
    p'.optional
  additional : p.additional = p'.additional

/-- Forms of the same kind, with related nodes in the same places. -/
inductive FormAlike : Form → Form → Prop
  | empty : FormAlike .empty .empty
  | ref {i : ℕ} : FormAlike (.ref i) (.ref i)
  | type {kind : TypeKind} : FormAlike (.type kind) (.type kind)
  | enum {values : List String} : FormAlike (.enum values) (.enum values)
  | elements {item item' : Node} :
      rel item item' → FormAlike (.elements item) (.elements item')
  | values {item item' : Node} :
      rel item item' → FormAlike (.values item) (.values item')
  | properties {p p' : Properties} :
      PropertiesAlike rel p p' → FormAlike (.properties p) (.properties p')
  | discriminator {tag : String} {branches branches' : List (String × Branch)} :
      List.Forall₂ (fun b b' => b.1 = b'.1 ∧
        PropertiesAlike rel b.2.properties b'.2.properties) branches branches' →
        FormAlike (.discriminator tag branches) (.discriminator tag branches')

/-- The nodes of one program stand for those of another: their forms are alike,
or the first node is a ref that the second one saves. -/
structure Simulates (target target' : ℕ → Node) : Prop where
  targets : ∀ i, rel (target i) (target' i)
  step : ∀ n n', rel n n' →
    (n'.nullable = n.nullable ∧ FormAlike rel n.form n'.form) ∨
      ∃ i, n.form = .ref i ∧
        n'.nullable = (n.nullable || (target i).nullable) ∧
        FormAlike rel (target i).form n'.form

end

variable {rel : Node → Node → Prop}

namespace PropertiesAlike

variable {p p' : Properties}

theorem declared (h : PropertiesAlike rel p p') :
    List.Forall₂ (fun m m' => m.1 = m'.1 ∧ rel m.2 m'.2) p.declared
      p'.declared :=
  List.rel_append h.required h.optional

theorem member? (h : PropertiesAlike rel p p') (key : String) :
    Option.Rel rel (p.member? key) (p'.member? key) :=
  lookup_forall₂ h.declared key

theorem names_eq (h : PropertiesAlike rel p p') : p.names = p'.names :=
  map_fst_of_forall₂ (fun _ _ hm => hm.1) h.declared

theorem declares_eq (h : PropertiesAlike rel p p') :
    p.declares = p'.declares := by
  funext key
  rw [Bool.eq_iff_iff, Properties.declares_iff, Properties.declares_iff,
    h.names_eq]

end PropertiesAlike

theorem branch_alike {branches branches' : List (String × Branch)}
    (h : List.Forall₂ (fun b b' => b.1 = b'.1 ∧
      PropertiesAlike rel b.2.properties b'.2.properties) branches branches')
    (value : String) :
    Option.Rel (fun b b' => PropertiesAlike rel b.properties b'.properties)
      (List.lookup value branches) (List.lookup value branches') :=
  lookup_forall₂ h value

/-- What two runs have in common at the first one's depth limit, and keep from
the parts of nodes that are alike and past a ref that is saved, they have in
common along all related nodes.  The numbers are the depths that are left. -/
theorem Simulates.holds {target target' : ℕ → Node}
    (h : Simulates rel target target') (holds : ℕ → ℕ → Node → Node → Prop)
    (limit : ∀ depth' n n', holds 0 depth' n n')
    (alike : ∀ depth depth' n n', depth ≤ depth' →
      (∀ m m', rel m m' → holds depth depth' m m') →
        n'.nullable = n.nullable → FormAlike rel n.form n'.form →
          holds (depth + 1) (depth' + 1) n n')
    -- the limit is met behind the ref, so that nothing is known of the target
    (limitBehind : ∀ depth' n n' i, n.form = .ref i →
      n'.nullable = (n.nullable || (target i).nullable) →
        holds 1 (depth' + 1) n n')
    (saved : ∀ depth depth' n n' i, depth ≤ depth' →
      (∀ m m', rel m m' → holds depth depth' m m') → n.form = .ref i →
        n'.nullable = (n.nullable || (target i).nullable) →
          FormAlike rel (target i).form n'.form →
            holds (depth + 2) (depth' + 1) n n')
    {depth depth' : ℕ} (hle : depth ≤ depth') {n n' : Node} (hn : rel n n') :
    holds depth depth' n n' := by
  induction depth using Nat.strongRecOn generalizing depth' n n' with
  | ind depth ih =>
      cases depth with
      | zero => exact limit depth' n n'
      | succ depth =>
          obtain ⟨depth', rfl⟩ : ∃ d, depth' = d + 1 := ⟨depth' - 1, by omega⟩
          rcases h.step n n' hn with
              ⟨hnullable, hform⟩ | ⟨i, href, hnullable, hform⟩
          · refine alike depth depth' n n' (by omega) (fun m m' hm => ?_)
              hnullable hform
            exact ih depth (by omega) (by omega) hm
          · cases depth with
            | zero => exact limitBehind depth' n n' i href hnullable
            | succ depth =>
                refine saved depth depth' n n' i (by omega)
                  (fun m m' hm => ?_) href hnullable hform
                exact ih depth (by omega) (by omega) hm

end Program
end JsonTypedef
