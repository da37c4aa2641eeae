import JsonTypedef.Proofs.Parsing.Simulation
import JsonTypedef.Proofs.Program.Reordering

/-!
# Parsers of reordered programs

Along reordered nodes a text is parsed to one value, or along neither.  The
failures may differ: a parser names the first required member that it misses,
and which one is first depends on the order of declarations.
-/

namespace JsonTypedef
namespace Parsing

open Scanner Program

/-- Both results are failures, or both are the same success. -/
inductive Agree {ε α : Type} : Except ε α → Except ε α → Prop
  | error (e e' : ε) : Agree (.error e) (.error e')
  | ok (a : α) : Agree (.ok a) (.ok a)

section

variable {α β : Type} {r r' : Except Failure α}

theorem Agree.refl (r : Except Failure α) : Agree r r := by
  cases r with
  | error e => exact .error e e
  | ok a => exact .ok a

theorem Agree.map (h : Agree r r') (f : α → β) : Agree (r.map f) (r'.map f) := by
  cases h with
  | error e e' => exact .error e e'
  | ok a => exact .ok (f a)

theorem Agree.ok_or_error (h : Agree r r') :
    (∃ a, r = .ok a ∧ r' = .ok a) ∨
      ((∃ e, r = .error e) ∧ ∃ e, r' = .error e) := by
  cases h with
  | error e e' => exact Or.inr ⟨⟨e, rfl⟩, e', rfl⟩
  | ok a => exact Or.inl ⟨a, rfl, rfl⟩

end

section

variable {α : Type} {close : Token} {mismatch : Cursor → Failure}
    {item item' : List α → Scanner Failure α}
  (hitem : ∀ before c, Agree (item before c) (item' before c))

include hitem

theorem separated_agree (before : List α) (c : Cursor) :
    Agree (separated close mismatch item before c)
      (separated close mismatch item' before c) := by
  induction hsize : c.size using Nat.strongRecOn generalizing before c with
  | ind size ih =>
      rw [separated, separated]
      have hfirst := hitem before c
      generalize item before c = r at hfirst ⊢
      generalize item' before c = r' at hfirst ⊢
      cases hfirst with
      | error e e' => exact .error e e'
      | ok t =>
          obtain ⟨a, behind, hshorter⟩ := t
          dsimp only
          split
          next => exact .refl _
          next t next hnext _ =>
            by_cases hclose : t = close
            · simp only [if_pos hclose]
              exact .refl _
            · by_cases hcomma : t = .comma
              · have hless : next.size < size := by
                  rw [← hsize]
                  exact Nat.lt_trans hnext hshorter
                have hrest := ih next.size hless (a :: before) next rfl
                simp only [if_neg hclose, if_pos hcomma]
                generalize separated close mismatch item (a :: before) next = r
                  at hrest ⊢
                generalize separated close mismatch item' (a :: before) next = r'
                  at hrest ⊢
                cases hrest with
                | error e e' => exact .error e e'
                | ok t => exact .refl _
              · simp only [if_neg hclose, if_neg hcomma]
                exact .refl _

theorem enclosed_agree (c : Cursor) :
    Agree (enclosed close mismatch item c) (enclosed close mismatch item' c) := by
  unfold enclosed
  split
  next => exact .refl _
  next => exact (separated_agree hitem [] c.skipBlanks).map _

end

theorem items_agree {item item' : Scanner Failure Value}
    (hitem : ∀ c, Agree (item c) (item' c)) (c : Cursor) :
    Agree (items item c) (items item' c) :=
  enclosed_agree (fun _ => hitem) c

theorem members_agree {value value' : MemberValue}
    (hvalue : ∀ key pos c, Agree (value key pos c) (value' key pos c))
    (c : Cursor) : Agree (members value c) (members value' c) := by
  refine enclosed_agree (fun before c => ?_) c
  unfold member
  split
  next =>
    split
    next => exact .refl _
    next =>
      split
      next => exact .refl _
      next => exact (hvalue _ _ _).map _
  next => exact .refl _

/-- Both declarations require a member that an object lacks, or neither does. -/
theorem missing_isSome_eq {rel : Node → Node → Prop} {p p' : Program.Properties}
    (hp : PropertiesReordered rel p p') (lacks : String → Bool) :
    (p.required.find? fun m => lacks m.1).isSome =
      (p'.required.find? fun m => lacks m.1).isSome := by
  have hany : (p.required.map Prod.fst).any lacks =
      (p'.required.map Prod.fst).any lacks :=
    hp.required.names_perm.any_eq
  rw [List.any_map, List.any_map] at hany
  rw [Bool.eq_iff_iff, List.find?_isSome, List.find?_isSome,
    ← List.any_eq_true, ← List.any_eq_true]
  exact Bool.eq_iff_iff.mp hany

variable {config : Config}

section

variable {rel : Node → Node → Prop} {run run' : Node → Scanner Failure Value}
    {other : Scanner Failure Value}
  (hrun : ∀ n n', rel n n' → ∀ c, Agree (run n c) (run' n' c))

include hrun

theorem memberValue_agree {p p' : Program.Properties}
    (hp : PropertiesReordered rel p p') (tag : Option String) (key : String)
    (pos : ℕ) (c : Cursor) :
    Agree (memberValue run other p tag key pos c)
      (memberValue run' other p' tag key pos c) := by
  unfold memberValue
  by_cases htag : tag = some key
  · rw [if_pos htag, if_pos htag]
    exact .refl _
  · rw [if_neg htag, if_neg htag]
    have hmember := hp.member key
    generalize p.member? key = m at hmember ⊢
    generalize p'.member? key = m' at hmember ⊢
    cases hmember with
    | some hm => exact hrun _ _ hm c
    | none =>
        rw [hp.additional]
        exact .refl _

theorem properties_agree {p p' : Program.Properties}
    (hp : PropertiesReordered rel p p') (tag : Option String) (c : Cursor) :
    Agree (properties run other p tag c) (properties run' other p' tag c) := by
  unfold properties
  have hmembers : Agree (members (memberValue run other p tag) c)
      (members (memberValue run' other p' tag) c) :=
    members_agree (memberValue_agree hrun hp tag) c
  generalize members (memberValue run other p tag) c = r at hmembers ⊢
  generalize members (memberValue run' other p' tag) c = r' at hmembers ⊢
  cases hmembers with
  | error e e' => exact .error e e'
  | ok t =>
      have hmissing := missing_isSome_eq hp fun name => !t.value.has name
      dsimp only
      cases hm : p.required.find? fun m => !t.value.has m.1 with
      | none =>
          cases hm' : p'.required.find? fun m => !t.value.has m.1 with
          | none => exact .refl _
          | some m' => simp [hm, hm'] at hmissing
      | some m =>
          cases hm' : p'.required.find? fun m => !t.value.has m.1 with
          | none => simp [hm, hm'] at hmissing
          | some m' => exact .error _ _

theorem discriminator_agree {tag : String}
    {branches branches' : List (String × Program.Branch)}
    (hbranches : ∀ value, Option.Rel (BranchReordered rel)
      (List.lookup value branches) (List.lookup value branches'))
    (c : Cursor) :
    Agree (discriminator run other tag branches c)
      (discriminator run' other tag branches' c) := by
  unfold discriminator
  split
  next => exact .refl _
  next brace _ =>
    split
    next => exact .refl _
    next value pos _ =>
      have hlookup := hbranches value
      generalize List.lookup value branches = branch at hlookup ⊢
      generalize List.lookup value branches' = branch' at hlookup ⊢
      cases hlookup with
      | none => exact .refl _
      | some hbranch =>
          exact (properties_agree hrun hbranch.properties (some tag) _).map _

theorem form_agree {target target' : ℕ → Node}
    (htargets : ∀ i, rel (target i) (target' i)) {f f' : Program.Form}
    (hform : FormReordered rel f f') (c : Cursor) :
    Agree (form config target run other f c)
      (form config target' run' other f' c) := by
  cases hform with
  | empty => exact .refl _
  | @ref i => exact hrun _ _ (htargets i) c
  | type => exact .refl _
  | enum => exact .refl _
  | elements hitem =>
      unfold form
      dsimp only
      split
      next => exact .refl _
      next => exact (items_agree (hrun _ _ hitem) _).map _
  | values hitem =>
      unfold form
      dsimp only
      split
      next => exact .refl _
      next => exact (members_agree (fun _ _ => hrun _ _ hitem) _).map _
  | properties hp =>
      unfold form
      dsimp only
      split
      next => exact .refl _
      next => exact (properties_agree hrun hp none _).map _
  | discriminator hbranches => exact discriminator_agree hrun hbranches c

end

theorem nullOr_agree {nullable : Bool} {scan scan' : Scanner Failure Value}
    {c : Cursor} (h : Agree (scan c) (scan' c)) :
    Agree (nullOr nullable scan c) (nullOr nullable scan' c) := by
  unfold nullOr
  split
  next => exact .refl _
  next =>
    split
    next => exact .refl _
    next => exact h
  next => exact h

theorem node_agree {rel : Node → Node → Prop} {target target' : ℕ → Node}
    (h : Reorders rel target target') (depth : ℕ) {n n' : Node} (hn : rel n n')
    (c : Cursor) :
    Agree (node config target depth n c) (node config target' depth n' c) := by
  induction depth generalizing n n' c with
  | zero => exact .error _ _
  | succ depth ih =>
      rw [node_succ, node_succ, h.nullable n n' hn]
      have hparts : ∀ n n', rel n n' → ∀ c,
          Agree (node config target depth n c) (node config target' depth n' c) :=
        fun _ _ hn c => ih hn c
      exact (nullOr_agree (form_agree hparts h.targets (h.form n n' hn) _)).map _

/-- Along reordered programs a text is parsed to one value, or along neither. -/
theorem parse_agree {rel : Node → Node → Prop} {program program' : Program}
    (h : Reorders rel program.target program'.target)
    (hroot : rel program.root program'.root) (text : String) :
    Agree (Parser.parse ⟨program, config⟩ text)
      (Parser.parse ⟨program', config⟩ text) := by
  have hnode : Agree
      (node config program.target config.maxDepth program.root (.ofText text))
      (node config program'.target config.maxDepth program'.root
        (.ofText text)) := node_agree h _ hroot _
  unfold Parser.parse
  dsimp only
  generalize node config program.target config.maxDepth program.root
    (.ofText text) = r at hnode ⊢
  generalize node config program'.target config.maxDepth program'.root
    (.ofText text) = r' at hnode ⊢
  cases hnode with
  | error e e' => exact .error e e'
  | ok t => exact .refl _

end Parsing
end JsonTypedef
