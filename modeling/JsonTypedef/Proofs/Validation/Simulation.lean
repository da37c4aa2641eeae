import JsonTypedef.Proofs.Program.Simulation
import JsonTypedef.Proofs.Validation.Verdict

/-!
# Validators of programs that stand for one another

A validator finds violations at the same instance paths along a program and
along one that stands for it, unless the first one meets the depth limit.  The
schema paths of the violations may differ.
-/

namespace JsonTypedef
namespace Outcome

/-- The first run halted at the depth limit, or the second goes the same way and
finds violations at the same instance paths. -/
def Follows (a b : Outcome) : Prop :=
  a.halt = some .depth ∨
    b.halt = a.halt ∧
      b.violations.map Violation.instancePath =
        a.violations.map Violation.instancePath

theorem Follows.refl (a : Outcome) : Follows a a :=
  Or.inr ⟨rfl, rfl⟩

theorem Follows.andThen {a a' : Outcome} {b b' : Unit → Outcome}
    (ha : Follows a a') (hb : Follows (b ()) (b' ())) :
    Follows (a.andThen b) (a'.andThen b') := by
  rcases ha with hdepth | ⟨hhalt, hpaths⟩
  · refine Or.inl ?_
    simp only [Outcome.andThen, hdepth]
  · unfold Outcome.andThen
    rw [hhalt]
    split
    next halt _ => exact Or.inr ⟨hhalt, hpaths⟩
    next =>
      rcases hb with hdepth | ⟨hhalt', hpaths'⟩
      · exact Or.inl hdepth
      · refine Or.inr ⟨hhalt', ?_⟩
        rw [List.map_append, List.map_append, hpaths, hpaths']

theorem Follows.each {α β : Type} {run : α → Outcome} {run' : β → Outcome}
    {as : List α} {bs : List β}
    (h : List.Forall₂ (fun a b => Follows (run a) (run' b)) as bs) :
    Follows (Outcome.each run as) (Outcome.each run' bs) := by
  induction h with
  | nil => exact .refl _
  | cons hab _ ih => exact hab.andThen ih

end Outcome

namespace Validator

open Outcome Program

variable {config : Config}

theorem reject_follows (place keyword keyword' : Pointer) :
    Follows (reject config place keyword) (reject config place keyword') :=
  Or.inr ⟨rfl, rfl⟩

theorem check_follows (condition : Bool) (place keyword keyword' : Pointer) :
    Follows (check config condition place keyword)
      (check config condition place keyword') := by
  unfold check
  split
  next => exact .refl _
  next => exact reject_follows _ _ _

section

variable {rel : Node → Node → Prop} {run run' : Run}
  (hrun : ∀ n n', rel n n' → ∀ place v,
    Follows (run n place v) (run' n' place v))

include hrun

theorem properties_follows {p p' : Program.Properties}
    (hp : PropertiesAlike rel p p') (place keyword keyword' : Pointer)
    (ms : Members) (tag : Option String) :
    Follows (properties config run place keyword ms p tag)
      (properties config run' place keyword' ms p' tag) := by
  refine .andThen (.andThen (.each ?_) (.each ?_)) ?_
  · refine hp.required.imp fun m m' ⟨hname, hm⟩ => ?_
    rw [hname]
    split
    next v _ => exact hrun _ _ hm _ v
    next => exact reject_follows _ _ _
  · refine hp.optional.imp fun m m' ⟨hname, hm⟩ => ?_
    rw [hname]
    split
    next v _ => exact hrun _ _ hm _ v
    next => exact .refl _
  · unfold undeclared
    rw [hp.additional, hp.declares_eq]
    split
    next => exact .refl _
    next =>
      exact .each (List.forall₂_same.mpr fun key _ => check_follows _ _ _ _)

theorem discriminator_follows {tag : String}
    {branches branches' : List (String × Program.Branch)}
    (hbranches : List.Forall₂ (fun b b' => b.1 = b'.1 ∧
      PropertiesAlike rel b.2.properties b'.2.properties) branches branches')
    (path path' place : Pointer) (ms : Members) :
    Follows (discriminator config run path place ms tag branches)
      (discriminator config run' path' place ms tag branches') := by
  unfold discriminator
  split
  next => exact reject_follows _ _ _
  next value _ =>
    have hlookup := branch_alike hbranches value
    generalize List.lookup value branches = branch at hlookup ⊢
    generalize List.lookup value branches' = branch' at hlookup ⊢
    cases hlookup with
    | none => exact reject_follows _ _ _
    | some hbranch => exact properties_follows hrun hbranch _ _ _ _ _
  next => exact reject_follows _ _ _

theorem form_follows {target target' : ℕ → Node}
    (htargets : ∀ i, rel (target i) (target' i)) {f f' : Program.Form}
    (hform : FormAlike rel f f') (path path' place : Pointer) (v : Value) :
    Follows (form config target run path place v f)
      (form config target' run' path' place v f') := by
  cases hform with
  | empty => exact .refl _
  | @ref i => exact hrun _ _ (htargets i) place v
  | type => exact check_follows _ _ _ _
  | enum => exact check_follows _ _ _ _
  | elements hitem =>
      cases v with
      | arr items =>
          exact .each (List.forall₂_same.mpr fun m _ => hrun _ _ hitem _ _)
      | _ => exact reject_follows _ _ _
  | values hitem =>
      cases v with
      | obj ms =>
          exact .each (List.forall₂_same.mpr fun m _ => hrun _ _ hitem _ _)
      | _ => exact reject_follows _ _ _
  | properties hp =>
      cases v with
      | obj ms => exact properties_follows hrun hp _ _ _ _ _
      | _ => exact reject_follows _ _ _
  | discriminator hbranches =>
      cases v with
      | obj ms => exact discriminator_follows hrun hbranches _ _ _ _
      | _ => exact reject_follows _ _ _

end

theorem isNullAt_congr {n n' : Node} (h : n'.nullable = n.nullable) (v : Value) :
    isNullAt n' v = isNullAt n v := by
  cases v with
  | null => exact h
  | _ => rfl

theorem isNullAt_or {n m n' : Node}
    (h : n'.nullable = (n.nullable || m.nullable)) (v : Value) :
    isNullAt n' v = (isNullAt n v || isNullAt m v) := by
  cases v with
  | null => exact h
  | _ => rfl

theorem node_follows {rel : Node → Node → Prop} {target target' : ℕ → Node}
    (h : Simulates rel target target') {depth depth' : ℕ} (hle : depth ≤ depth')
    {n n' : Node} (hn : rel n n') (place : Pointer) (v : Value) :
    Follows (node config target depth n place v)
      (node config target' depth' n' place v) := by
  revert place v
  refine h.holds
    (fun depth depth' n n' => ∀ place v,
      Follows (node config target depth n place v)
        (node config target' depth' n' place v))
    ?_ ?_ ?_ ?_ hle hn
  · intro _ _ _ _ _
    exact Or.inl rfl
  · intro depth depth' n n' _ ih hnullable hform place v
    rw [node, node, isNullAt_congr hnullable]
    split
    next => exact .refl _
    next => exact form_follows ih h.targets hform _ _ _ _
  · intro depth' n n' i href hnullable place v
    rw [node, node, isNullAt_or hnullable]
    by_cases hnull : isNullAt n v = true
    · rw [hnull]
      exact .refl _
    · rw [if_neg hnull, href]
      exact Or.inl rfl
  · intro depth depth' n n' i _ ih href hnullable hform place v
    rw [node, node, isNullAt_or hnullable]
    by_cases hnull : isNullAt n v = true
    · rw [hnull]
      exact .refl _
    · rw [if_neg hnull, href, Bool.eq_false_iff.mpr hnull, Bool.false_or]
      rw [form, node]
      split
      next => exact .refl _
      next => exact form_follows ih h.targets hform _ _ _ _

/-- What is found along a program is found at the same places along one that
stands for it. -/
theorem validate_follows {rel : Node → Node → Prop} {program program' : Program}
    (h : Simulates rel program.target program'.target)
    (hroot : rel program.root program'.root) {v : Value} {vs : List Violation}
    (hvalidate : validate ⟨program, config⟩ v = .ok vs) :
    ∃ vs', validate ⟨program', config⟩ v = .ok vs' ∧
      vs'.map Violation.instancePath = vs.map Violation.instancePath := by
  have hrun : Follows (run ⟨program, config⟩ v) (run ⟨program', config⟩ v) :=
    node_follows h (Nat.le_refl _) hroot .root v
  unfold validate at hvalidate ⊢
  rcases hrun with hdepth | ⟨hhalt, hpaths⟩
  · simp only [hdepth] at hvalidate
    cases hvalidate
  · dsimp only at hvalidate ⊢
    rw [hhalt]
    split at hvalidate
    next => cases hvalidate
    next =>
      cases hvalidate
      exact ⟨_, rfl, hpaths⟩

end Validator
end JsonTypedef
