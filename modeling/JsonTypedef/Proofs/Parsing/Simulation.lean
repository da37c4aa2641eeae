import JsonTypedef.Proofs.Parsing.Depth
import JsonTypedef.Proofs.Program.Simulation

/-!
# Parsers of programs that stand for one another

A parser reads a text along a program and along one that stands for it with the
same value or the same failure, unless the first parse meets the depth limit.
Null, which both the ref and its target may admit, is looked for once where the
ref is saved.
-/

namespace JsonTypedef
namespace Parsing

open Scanner Program

variable {config : Config}

/-- The second result is that of the first, or the first met the depth limit. -/
abbrev Follows {α : Type} {c : Cursor} (r r' : Except Failure (Taken α c)) :
    Prop :=
  Settles (fun _ => True) r r'

theorem Follows.of_depth {α : Type} {c : Cursor} {e : Failure} (he : e.IsDepth)
    (r : Except Failure (Taken α c)) : Follows (.error e) r :=
  .of_error he fun _ _ => trivial

theorem Follows.map {α β : Type} {c d : Cursor} {r r' : Except Failure (Taken α c)}
    (h : Follows r r') (g : Taken α c → Taken β d) :
    Follows (r.map g) (r'.map g) :=
  Settles.map h g fun _ _ => trivial

theorem members_follows {value value' : MemberValue}
    (h : ∀ key pos c, Follows (value key pos c) (value' key pos c))
    (c : Cursor) : Follows (members value c) (members value' c) := by
  have hmembers : Settles (fun ms : Members => ∃ m ∈ ms, True)
      (members value c) (members value' c) := members_settles h c
  exact hmembers.mono fun _ _ => trivial

theorem items_follows {item item' : Scanner Failure Value}
    (h : ∀ c, Follows (item c) (item' c)) (c : Cursor) :
    Follows (items item c) (items item' c) :=
  (items_settles h c).mono fun _ _ => trivial

theorem untyped_follows {depth depth' : ℕ} (hle : depth ≤ depth') (c : Cursor) :
    Follows (untyped config depth c) (untyped config depth' c) :=
  (untyped_settles hle c).mono fun _ _ => trivial

/-- The first required member that an object lacks has the same name in both
declarations. -/
theorem missing_alike {rel : Node → Node → Prop}
    {ms ms' : List (String × Node)}
    (h : List.Forall₂ (fun m m' => m.1 = m'.1 ∧ rel m.2 m'.2) ms ms')
    (lacks : String → Bool) :
    Option.Rel (fun m m' => m.1 = m'.1) (ms.find? fun m => lacks m.1)
      (ms'.find? fun m => lacks m.1) := by
  induction h with
  | nil => exact .none
  | cons hm _ ih =>
      rw [List.find?_cons, List.find?_cons, hm.1]
      split
      next => exact .some hm.1
      next => exact ih

section

variable {rel : Node → Node → Prop} {run run' : Node → Scanner Failure Value}
    {other other' : Scanner Failure Value}
  (hrun : ∀ n n', rel n n' → ∀ c, Follows (run n c) (run' n' c))
  (hother : ∀ c, Follows (other c) (other' c))

include hrun hother

theorem memberValue_follows {p p' : Program.Properties}
    (hp : PropertiesAlike rel p p') (tag : Option String) (key : String)
    (pos : ℕ) (c : Cursor) :
    Follows (memberValue run other p tag key pos c)
      (memberValue run' other' p' tag key pos c) := by
  unfold memberValue
  by_cases htag : tag = some key
  · rw [if_pos htag, if_pos htag]
    exact .refl _
  · rw [if_neg htag, if_neg htag]
    have hmember := hp.member? key
    generalize p.member? key = m at hmember ⊢
    generalize p'.member? key = m' at hmember ⊢
    cases hmember with
    | some hm => exact hrun _ _ hm c
    | none =>
        rw [hp.additional]
        dsimp only
        split
        next => exact hother c
        next => exact .refl _

theorem properties_follows {p p' : Program.Properties}
    (hp : PropertiesAlike rel p p') (tag : Option String) (c : Cursor) :
    Follows (properties run other p tag c) (properties run' other' p' tag c) := by
  unfold properties
  rcases members_follows (memberValue_follows hrun hother hp tag) c with
    heq | ⟨⟨e, herror, he⟩, -⟩
  · rw [heq]
    split
    next => exact .refl _
    next t _ =>
      have hmissing := missing_alike hp.required fun name => !t.value.has name
      generalize p.required.find? _ = m at hmissing ⊢
      generalize p'.required.find? _ = m' at hmissing ⊢
      cases hmissing with
      | none => exact .refl _
      | some hm =>
          dsimp only
          rw [hm]
          exact .refl _
  · rw [herror]
    exact .of_depth he _

theorem discriminator_follows {tag : String}
    {branches branches' : List (String × Program.Branch)}
    (hbranches : List.Forall₂ (fun b b' => b.1 = b'.1 ∧
      PropertiesAlike rel b.2.properties b'.2.properties) branches branches')
    (c : Cursor) :
    Follows (discriminator run other tag branches c)
      (discriminator run' other' tag branches' c) := by
  unfold discriminator
  split
  next => exact .refl _
  next brace _ =>
    split
    next => exact .refl _
    next value pos _ =>
      have hlookup := branch_alike hbranches value
      generalize List.lookup value branches = branch at hlookup ⊢
      generalize List.lookup value branches' = branch' at hlookup ⊢
      cases hlookup with
      | none => exact .refl _
      | some hbranch =>
          exact (properties_follows hrun hother hbranch (some tag) _).map _

theorem form_follows {target target' : ℕ → Node}
    (htargets : ∀ i, rel (target i) (target' i)) {f f' : Program.Form}
    (hform : FormAlike rel f f') (c : Cursor) :
    Follows (form config target run other f c)
      (form config target' run' other' f' c) := by
  cases hform with
  | empty => exact hother c
  | @ref i => exact hrun _ _ (htargets i) c
  | type => exact .refl _
  | enum => exact .refl _
  | elements hitem =>
      unfold form
      dsimp only
      split
      next => exact .refl _
      next => exact (items_follows (hrun _ _ hitem) _).map _
  | values hitem =>
      unfold form
      dsimp only
      split
      next => exact .refl _
      next => exact (members_follows (fun _ _ => hrun _ _ hitem) _).map _
  | properties hp =>
      unfold form
      dsimp only
      split
      next => exact .refl _
      next => exact (properties_follows hrun hother hp none _).map _
  | discriminator hbranches => exact discriminator_follows hrun hother hbranches c

end

/-! ## Null at a ref and at its target -/

theorem nullOr_follows {nullable : Bool} {scan scan' : Scanner Failure Value}
    {c : Cursor} (h : Follows (scan c) (scan' c)) :
    Follows (nullOr nullable scan c) (nullOr nullable scan' c) := by
  unfold nullOr
  split
  next => exact .refl _
  next =>
    split
    next => exact .refl _
    next => exact h
  next => exact h

/-- Where null was not found it is not found again. -/
theorem nullOr_or (a b : Bool) (scan : Scanner Failure Value) (c : Cursor) :
    nullOr (a || b) scan c = nullOr a (nullOr b scan) c := by
  cases a with
  | false => rfl
  | true =>
      rw [Bool.true_or]
      unfold nullOr
      split
      next => rfl
      next hstuck =>
        cases haccept : c.accept? .null with
        | some t => rfl
        | none =>
            dsimp only
            split
            next h => exact absurd h (hstuck _ _ _)
            next => rfl
            next => rfl
      next h => cases h

theorem node_succ (target : ℕ → Node) (depth : ℕ) (n : Node) (c : Cursor) :
    node config target (depth + 1) n c =
      (nullOr n.nullable (form config target (node config target depth)
        (untyped config depth) n.form) c.skipBlanks).map Taken.afterBlanks :=
  rfl

/-- Behind the blanks in front of it a node is read without further ado. -/
theorem node_skipBlanks (target : ℕ → Node) (depth : ℕ) (n : Node) (c : Cursor) :
    node config target (depth + 1) n c.skipBlanks =
      nullOr n.nullable (form config target (node config target depth)
        (untyped config depth) n.form) c.skipBlanks := by
  have hid : ∀ r : Except Failure (Taken Value c.skipBlanks),
      Except.map (Taken.afterBlanks (c := c.skipBlanks)) r = r := by
    intro r
    cases r with
    | error => rfl
    | ok => rfl
  exact hid _

theorem node_follows {rel : Node → Node → Prop} {target target' : ℕ → Node}
    (h : Simulates rel target target') {depth depth' : ℕ} (hle : depth ≤ depth')
    {n n' : Node} (hn : rel n n') (c : Cursor) :
    Follows (node config target depth n c) (node config target' depth' n' c) := by
  revert c
  refine h.holds
    (fun depth depth' n n' => ∀ c,
      Follows (node config target depth n c) (node config target' depth' n' c))
    ?_ ?_ ?_ ?_ hle hn
  · intro _ _ _ c
    exact .of_depth ⟨_, rfl⟩ _
  · intro depth depth' n n' hle ih hnullable hform c
    rw [node_succ, node_succ, hnullable]
    exact (nullOr_follows (form_follows ih (untyped_follows hle) h.targets hform
      c.skipBlanks)).map _
  · intro depth' n n' i href hnullable c
    rw [node_succ, node_succ, hnullable, nullOr_or, href]
    exact (nullOr_follows (Follows.of_depth ⟨_, rfl⟩ _)).map _
  · intro depth depth' n n' i hle ih href hnullable hform c
    rw [node_succ, node_succ, hnullable, nullOr_or, href]
    refine (nullOr_follows ?_).map _
    rw [form, node_skipBlanks]
    exact nullOr_follows (form_follows ih (untyped_follows hle) h.targets hform
      c.skipBlanks)

/-- A parse that does not meet the depth limit ends in the same way along a
program that stands for the first one. -/
theorem parse_follows {rel : Node → Node → Prop} {program program' : Program}
    (h : Simulates rel program.target program'.target)
    (hroot : rel program.root program'.root) {text : String}
    (hparse : ∀ e, Parser.parse ⟨program, config⟩ text = .error e →
      ¬ e.IsDepth) :
    Parser.parse ⟨program', config⟩ text =
      Parser.parse ⟨program, config⟩ text := by
  have hnode : Follows
      (node config program.target config.maxDepth program.root (.ofText text))
      (node config program'.target config.maxDepth program'.root
        (.ofText text)) :=
    node_follows h (Nat.le_refl _) hroot _
  rcases hnode with heq | ⟨⟨e, herror, he⟩, -⟩
  · unfold Parser.parse
    dsimp only
    rw [heq]
  · refine absurd he (hparse e ?_)
    simp only [Parser.parse, herror]

end Parsing
end JsonTypedef
