import JsonTypedef.Proofs.Program.Reordering
import JsonTypedef.Proofs.Validation.First
import Mathlib.Algebra.Order.Monoid.Unbundled.WithTop
import Mathlib.Algebra.BigOperators.Group.List.Basic
import Mathlib.Algebra.Order.Group.Multiset

/-!
# The order of members does not change the verdict

A run tells how often it finds each violation, or that it was cut short.  This
tally is a sum over the parts of the run, and so it depends neither on the order
in which an instance lists members nor on that in which a schema declares them.
-/

namespace JsonTypedef

namespace Outcome

/-- The violations of a run whatever their order; `⊤` if the run halted. -/
def tally (o : Outcome) : WithTop (Multiset Violation) :=
  match o.halt with
  | some _ => ⊤
  | none => ((o.violations : Multiset Violation) : WithTop (Multiset Violation))

theorem tally_andThen (a : Outcome) (b : Unit → Outcome) :
    (a.andThen b).tally = a.tally + (b ()).tally := by
  obtain ⟨violations, halt⟩ := a
  cases halt with
  | some halt => exact (WithTop.top_add _).symm
  | none =>
      simp only [tally, andThen]
      cases (b ()).halt with
      | some halt => exact (WithTop.add_top _).symm
      | none => rw [← Multiset.coe_add, WithTop.coe_add]

/-- A run over a list tallies what the runs over its entries do. -/
theorem tally_each {α : Type} (run : α → Outcome) (as : List α) :
    (each run as).tally = (as.map fun a => (run a).tally).sum := by
  induction as with
  | nil => rfl
  | cons a as ih => rw [each, tally_andThen, ih, List.map_cons, List.sum_cons]

/-- Runs over shuffled lists tally the same. -/
theorem tally_each_of_shuffled {α β : Type} {run : α → Outcome}
    {run' : β → Outcome} {as : List α} {bs : List β}
    (h : Shuffled (fun a b => (run a).tally = (run' b).tally) as bs) :
    (each run as).tally = (each run' bs).tally := by
  rw [tally_each, tally_each]
  exact (h.perm_map fun _ _ heq => heq).sum_eq

end Outcome

namespace Validator

open Outcome Program

variable {config : Config}

theorem isNullAt_of_same {n n' : Node} (hnullable : n.nullable = n'.nullable)
    {v w : Value} (h : v.Same w) : isNullAt n v = isNullAt n' w := by
  cases h with
  | null => exact hnullable
  | _ => rfl

section

variable {rel : Node → Node → Prop} {run run' : Run}
  (hpath : ∀ n n', rel n n' → n.path = n'.path)
  (hrun : ∀ n n', rel n n' → ∀ place v w, v.Rearranged w →
    (run n place v).tally = (run' n' place w).tally)

include hrun

theorem tally_items {item item' : Node} (hitem : rel item item')
    (place : Pointer) {vs ws : List Value}
    (h : List.Forall₂ Value.Rearranged vs ws) (i : ℕ) :
    (Outcome.each (fun (v, i) => run item (place.child (toString i)) v)
        (vs.zipIdx i)).tally =
      (Outcome.each (fun (w, i) => run' item' (place.child (toString i)) w)
        (ws.zipIdx i)).tally := by
  induction h generalizing i with
  | nil => rfl
  | cons hvw _ ih =>
      rw [List.zipIdx_cons, List.zipIdx_cons, Outcome.each, Outcome.each,
        tally_andThen, tally_andThen, ih]
      exact congrArg (· + _) (hrun _ _ hitem _ _ _ hvw)

/-- Runs over the members that are declared tally the same if those do that find
no member. -/
theorem tally_declared (absent absent' : Node → Outcome)
    (habsent : ∀ n n', rel n n' → (absent n).tally = (absent' n').tally)
    {declared declared' : List (String × Node)}
    (hdeclared : Shuffled (Named rel) declared declared') (place : Pointer)
    {ms ns : Members} (h : (Value.obj ms).Rearranged (.obj ns)) :
    (each (fun m =>
      match ms.get? m.1 with
      | some v => run m.2 (place.child m.1) v
      | none => absent m.2) declared).tally =
    (each (fun m =>
      match ns.get? m.1 with
      | some w => run' m.2 (place.child m.1) w
      | none => absent' m.2) declared').tally := by
  refine tally_each_of_shuffled (hdeclared.imp_mem fun m _ m' hm => ?_)
  obtain ⟨name, n⟩ := m
  obtain ⟨name', n'⟩ := m'
  obtain ⟨rfl, hn⟩ := hm
  have hget := h.get?_rel name
  dsimp only
  generalize Members.get? ms name = v at hget ⊢
  generalize Members.get? ns name = w at hget ⊢
  cases hget with
  | none => exact habsent _ _ hn
  | some hvw => exact hrun _ _ hn _ _ _ hvw

include hpath

theorem tally_properties {p p' : Program.Properties}
    (hp : PropertiesReordered rel p p') (place keyword : Pointer)
    {ms ns : Members} (h : (Value.obj ms).Rearranged (.obj ns))
    (tag : Option String) :
    (properties config run place keyword ms p tag).tally =
      (properties config run' place keyword ns p' tag).tally := by
  have hrequired : (required config run place ms p.required).tally =
      (required config run' place ns p'.required).tally := by
    refine tally_declared hrun (fun n => reject config place n.path)
      (fun n => reject config place n.path) (fun n n' hn => ?_) hp.required
      place h
    rw [hpath n n' hn]
  have hoptional : (optional run place ms p.optional).tally =
      (optional run' place ns p'.optional).tally :=
    tally_declared hrun (fun _ => .accepted) (fun _ => .accepted)
      (fun _ _ _ => rfl) hp.optional place h
  have hundeclared : (undeclared config place keyword ms p tag).tally =
      (undeclared config place keyword ns p' tag).tally := by
    unfold undeclared
    rw [hp.additional, hp.declares_eq]
    split
    next => rfl
    next =>
      rw [tally_each, tally_each]
      exact (h.keys_perm.map _).sum_eq
  simp only [properties, tally_andThen]
  rw [hrequired, hoptional, hundeclared]

theorem tally_discriminator {tag : String}
    {branches branches' : List (String × Program.Branch)}
    (hbranches : ∀ value, Option.Rel (BranchReordered rel)
      (List.lookup value branches) (List.lookup value branches'))
    (path place : Pointer) {ms ns : Members}
    (h : (Value.obj ms).Rearranged (.obj ns)) :
    (discriminator config run path place ms tag branches).tally =
      (discriminator config run' path place ns tag branches').tally := by
  unfold discriminator
  have hget := h.get?_rel tag
  generalize Members.get? ms tag = v at hget ⊢
  generalize Members.get? ns tag = w at hget ⊢
  cases hget with
  | none => rfl
  | some hvw =>
      cases hvw.same with
      | str value =>
          have hlookup := hbranches value
          dsimp only
          generalize List.lookup value branches = branch at hlookup ⊢
          generalize List.lookup value branches' = branch' at hlookup ⊢
          cases hlookup with
          | none => rfl
          | some hbranch =>
              simp only [hbranch.path]
              exact tally_properties hpath hrun hbranch.properties _ _ h _
      | _ => rfl

theorem tally_form {target target' : ℕ → Node}
    (htargets : ∀ i, rel (target i) (target' i)) {f f' : Program.Form}
    (hform : FormReordered rel f f') (path place : Pointer) {v w : Value}
    (h : v.Rearranged w) :
    (form config target run path place v f).tally =
      (form config target' run' path place w f').tally := by
  cases hform with
  | empty => rfl
  | @ref i => exact hrun _ _ (htargets i) place v w h
  | @type kind => simp only [form, typeAccepts_congr config kind h.same]
  | enum => cases h.same <;> rfl
  | elements hitem =>
      cases hsame : h.same with
      | arr _ => exact tally_items hrun hitem place h.items 0
      | _ => rfl
  | values hitem =>
      cases hsame : h.same with
      | obj _ _ =>
          refine tally_each_of_shuffled (h.members.imp_mem fun m _ m' hm => ?_)
          obtain ⟨key, v⟩ := m
          obtain ⟨key', w⟩ := m'
          obtain ⟨rfl, hvw⟩ := hm
          exact hrun _ _ hitem _ _ _ hvw
      | _ => rfl
  | properties hp =>
      cases hsame : h.same with
      | obj _ _ => exact tally_properties hpath hrun hp _ _ h _
      | _ => simp only [form, hp.keyword]
  | discriminator hbranches =>
      cases hsame : h.same with
      | obj _ _ => exact tally_discriminator hpath hrun hbranches _ _ h
      | _ => rfl

end

/-- Runs along reordered nodes over rearranged values tally the same. -/
theorem tally_node {rel : Node → Node → Prop} {target target' : ℕ → Node}
    (hreorders : Reorders rel target target') (depth : ℕ) {n n' : Node}
    (hn : rel n n') (place : Pointer) {v w : Value} (h : v.Rearranged w) :
    (node config target depth n place v).tally =
      (node config target' depth n' place w).tally := by
  induction depth generalizing n n' place v w with
  | zero => rfl
  | succ depth ih =>
      have hparts : ∀ n n', rel n n' → ∀ place v w, v.Rearranged w →
          (node config target depth n place v).tally =
            (node config target' depth n' place w).tally :=
        fun _ _ hn place _ _ h => ih hn place h
      rw [node, node, isNullAt_of_same (hreorders.nullable n n' hn) h.same,
        ← hreorders.path n n' hn]
      split
      next => rfl
      next =>
        exact tally_form hreorders.path hparts hreorders.targets
          (hreorders.form n n' hn) n.path place h

/-- Runs that collect all violations and tally the same both meet the depth
limit, or they report the same violations in some order. -/
theorem validate_of_tally_eq {program program' : Program} (config : Config)
    {v w : Value}
    (h : (run ⟨program, { config with allErrors := true }⟩ v).tally =
      (run ⟨program', { config with allErrors := true }⟩ w).tally) :
    (∃ e, validate ⟨program, { config with allErrors := true }⟩ v = .error e ∧
      validate ⟨program', { config with allErrors := true }⟩ w = .error e) ∨
    ∃ vs ws, validate ⟨program, { config with allErrors := true }⟩ v = .ok vs ∧
      validate ⟨program', { config with allErrors := true }⟩ w = .ok ws ∧
      vs.Perm ws := by
  have hv := (run_stops program config v).halt_ne
  have hw := (run_stops program' config w).halt_ne
  unfold validate
  dsimp only
  generalize run ⟨program, { config with allErrors := true }⟩ v = a at h hv ⊢
  generalize run ⟨program', { config with allErrors := true }⟩ w = b at h hw ⊢
  obtain ⟨vs, halt⟩ := a
  obtain ⟨ws, halt'⟩ := b
  cases halt with
  | none =>
      cases halt' with
      | none =>
          have hcoe : (vs : Multiset Violation) = ws := WithTop.coe_injective h
          exact Or.inr ⟨vs, ws, rfl, rfl, Multiset.coe_eq_coe.mp hcoe⟩
      | some halt' => exact absurd h WithTop.coe_ne_top
  | some halt =>
      cases halt' with
      | none => exact absurd h WithTop.top_ne_coe
      | some halt' =>
          cases halt with
          | violation => exact absurd rfl hv
          | depth =>
              cases halt' with
              | violation => exact absurd rfl hw
              | depth => exact Or.inl ⟨_, rfl, rfl⟩

/-- Instances that differ in the order of members alone both meet the depth
limit, or they have the same violations in some order. -/
theorem validate_of_same (program : Program) (config : Config) {v w : Value}
    (hv : v.Distinct) (h : v.Same w) :
    ((∃ e, validate ⟨program, { config with allErrors := true }⟩ v = .error e ∧
        validate ⟨program, { config with allErrors := true }⟩ w = .error e) ∨
      ∃ vs ws,
        validate ⟨program, { config with allErrors := true }⟩ v = .ok vs ∧
        validate ⟨program, { config with allErrors := true }⟩ w = .ok ws ∧
        vs.Perm ws) ∧
    (validate ⟨program, { config with allErrors := true }⟩ v = .ok [] ↔
      validate ⟨program, { config with allErrors := true }⟩ w = .ok []) := by
  have hruns := validate_of_tally_eq config
    (tally_node (reorders_refl program.target) config.maxDepth
      (Eq.refl program.root) .root ⟨hv, h⟩)
  refine ⟨hruns, ?_⟩
  rcases hruns with ⟨e, hve, hwe⟩ | ⟨vs, ws, hvs, hws, hperm⟩
  · simp [hve, hwe]
  · rw [hvs, hws, Except.ok.injEq, Except.ok.injEq]
    constructor
    · rintro rfl
      exact hperm.nil_eq.symm
    · rintro rfl
      exact hperm.eq_nil

/-- A chain with two members that are not declared. -/
def strayChain : Value :=
  .obj [("id", .str "a"), ("left", .null), ("right", .null)]

/-- The same chain with its members in another order. -/
def turnedStrayChain : Value :=
  .obj [("right", .null), ("left", .null), ("id", .str "a")]

theorem same_strayChain : strayChain.Same turnedStrayChain :=
  .obj (List.reverse_perm _).symm
    (List.forall₂_same.mpr fun _ _ => .mk (Value.Same.refl _))

theorem validate_of_same_strayChain :
    strayChain.Distinct ∧ strayChain.Same turnedStrayChain ∧
      ∃ ws, validate ⟨Program.chainProgram, { allErrors := true }⟩
          turnedStrayChain = .ok ws ∧
        [⟨⟨["left"]⟩, ⟨["definitions", "link"]⟩⟩,
          ⟨⟨["right"]⟩, ⟨["definitions", "link"]⟩⟩].Perm ws := by
  have hdistinct : strayChain.Distinct := Value.distinct_distinct strayChain
  refine ⟨hdistinct, same_strayChain, ?_⟩
  rcases (validate_of_same Program.chainProgram { } hdistinct
      same_strayChain).1 with ⟨e, he, -⟩ | ⟨vs, ws, hvs, hws, hperm⟩
  · cases he
  · cases hvs
    exact ⟨ws, hws, hperm⟩

end Validator
end JsonTypedef
