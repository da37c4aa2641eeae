import JsonTypedef.Proofs.Program.Simulation
import JsonTypedef.Proofs.Serialization.Depth

/-!
# Serializers of programs that stand for one another

A serializer writes the same text along a program and along one that stands for
it, unless the first run is cut short.
-/

namespace JsonTypedef
namespace Serializer

open Program Written

/-- Members with the same names and values, to be written along related nodes. -/
def SelectedAlike (rel : Node → Node → Prop)
    (m m' : String × Option Node × Value) : Prop :=
  m.1 = m'.1 ∧ Option.Rel rel m.2.1 m'.2.1 ∧ m.2.2 = m'.2.2

variable {rel : Node → Node → Prop} {p p' : Program.Properties}

theorem selected_alike (hp : PropertiesAlike rel p p') (tag : Option String)
    (ms : Members) :
    List.Forall₂ (SelectedAlike rel) (selected p tag ms)
      (selected p' tag ms) := by
  unfold selected
  refine List.rel_append (List.rel_filterMap ?_ hp.declared) ?_
  · rintro m m' ⟨hname, hm⟩
    dsimp only
    rw [hname]
    cases ms.get? m'.1 with
    | none => exact .none
    | some v => exact .some ⟨rfl, .some hm, rfl⟩
  · rw [hp.additional, hp.declares_eq]
    refine List.forall₂_same.mpr fun m hm => ⟨rfl, ?_, rfl⟩
    split at hm
    next =>
      obtain ⟨m, -, rfl⟩ := List.mem_map.mp hm
      exact .none
    next => cases hm

theorem branch?_alike {branches branches' : List (String × Program.Branch)}
    (h : List.Forall₂ (fun b b' => b.1 = b'.1 ∧
      PropertiesAlike rel b.2.properties b'.2.properties) branches branches')
    (tag : String) (ms : Members) :
    Option.Rel (fun b b' => b.1 = b'.1 ∧
        PropertiesAlike rel b.2.properties b'.2.properties)
      (branch? tag branches ms) (branch? tag branches' ms) := by
  unfold branch?
  split
  next value _ =>
    have hlookup := branch_alike h value
    generalize List.lookup value branches = branch at hlookup ⊢
    generalize List.lookup value branches' = branch' at hlookup ⊢
    cases hlookup with
    | none => exact .none
    | some hbranch => exact .some ⟨rfl, hbranch⟩
  next => exact .none

section

variable {target target' : ℕ → Node} {run run' : Run}
  (hrun : ∀ n n', rel n n' → ∀ v, Settles (run n v) (run' n' v))

include hrun

theorem selectedMember_alike {m m' : String × Option Node × Value}
    (h : SelectedAlike rel m m') :
    Settles (selectedMember run m) (selectedMember run' m') := by
  obtain ⟨key, n, v⟩ := m
  obtain ⟨key', n', v'⟩ := m'
  obtain ⟨rfl, hn, rfl⟩ := h
  refine composes_settles.member _ ?_
  cases hn with
  | none => exact composes_settles.refl _
  | some hn => exact hrun _ _ hn v

theorem form_alike (htargets : ∀ i, rel (target i) (target' i))
    {f f' : Program.Form} (hform : FormAlike rel f f') (v : Value) :
    Settles (form target run v f) (form target' run' v f') := by
  cases hform with
  | @ref i => exact hrun _ _ (htargets i) v
  | elements hitem =>
      cases v with
      | arr items =>
          exact composes_settles.bracketed
            (List.forall₂_same.mpr fun v _ => hrun _ _ hitem v) _ _
      | _ => exact composes_settles.refl _
  | values hitem =>
      cases v with
      | obj ms =>
          exact composes_settles.bracketed
            (List.forall₂_same.mpr fun m _ =>
              composes_settles.member _ (hrun _ _ hitem _)) _ _
      | _ => exact composes_settles.refl _
  | properties hp =>
      cases v with
      | obj ms =>
          exact composes_settles.bracketed ((selected_alike hp none ms).imp
            fun _ _ hm => selectedMember_alike hrun hm) _ _
      | _ => exact composes_settles.refl _
  | @discriminator tag branches branches' hbranches =>
      cases v with
      | obj ms =>
          have hbranch := branch?_alike hbranches tag ms
          unfold form
          dsimp only
          generalize branch? tag branches ms = branch at hbranch ⊢
          generalize branch? tag branches' ms = branch' at hbranch ⊢
          cases hbranch with
          | none => exact composes_settles.refl _
          | @some b b' hbranch =>
              obtain ⟨value, b⟩ := b
              obtain ⟨value', b'⟩ := b'
              obtain ⟨rfl, hp⟩ := hbranch
              have htag : SelectedAlike rel (tag, none, .str value)
                  (tag, none, .str value) := ⟨rfl, .none, rfl⟩
              exact composes_settles.bracketed
                ((List.Forall₂.cons htag
                  (selected_alike hp (some tag) ms)).imp
                    fun _ _ hm => selectedMember_alike hrun hm) _ _
      | _ => exact composes_settles.refl _
  | _ => exact composes_settles.refl _

end

theorem node_alike {target target' : ℕ → Node} (h : Simulates rel target target')
    {depth depth' : ℕ} (hle : depth ≤ depth') {n n' : Node} (hn : rel n n')
    (v : Value) :
    Settles (node target depth n v) (node target' depth' n' v) := by
  revert v
  refine h.holds
    (fun depth depth' n n' => ∀ v,
      Settles (node target depth n v) (node target' depth' n' v))
    ?_ ?_ ?_ ?_ hle hn
  · intro _ _ _ _ hcomplete
    cases hcomplete
  · intro depth depth' n n' _ ih _ hform v
    by_cases hnull : v = .null
    · rw [hnull, node_null, node_null]
      exact composes_settles.refl _
    · rw [node_of_ne_null hnull, node_of_ne_null hnull]
      exact form_alike ih h.targets hform v
  · intro depth' n n' i href _ v
    by_cases hnull : v = .null
    · rw [hnull, node_null, node_null]
      exact composes_settles.refl _
    · rw [node_of_ne_null hnull, href]
      intro hcomplete
      cases hcomplete
  · intro depth depth' n n' i _ ih href _ hform v
    by_cases hnull : v = .null
    · rw [hnull, node_null, node_null]
      exact composes_settles.refl _
    · rw [node_of_ne_null hnull, node_of_ne_null hnull, href, form,
        node_of_ne_null hnull]
      exact form_alike ih h.targets hform v

/-- What is written along a program is written along one that stands for it. -/
theorem serialize_alike {program program' : Program} {config : Config}
    (h : Simulates rel program.target program'.target)
    (hroot : rel program.root program'.root) {v : Value} {text : String}
    (hserialize : serialize ⟨program, config⟩ v = .ok text) :
    serialize ⟨program', config⟩ v = .ok text := by
  obtain ⟨hcomplete, htext⟩ := serialize_eq_ok_iff.mp hserialize
  have hrun : run ⟨program', config⟩ v = run ⟨program, config⟩ v :=
    node_alike h (Nat.le_refl _) hroot v hcomplete
  rw [serialize_eq_ok_iff, hrun]
  exact ⟨hcomplete, htext⟩

end Serializer
end JsonTypedef
