import JsonTypedef.Proofs.Serialization.Selected
import JsonTypedef.Proofs.Validation.First

/-!
# Serializers and the depth limit

A serializer is cut short by nothing but the depth limit.  Where it is not, a
greater limit changes nothing; and it is not where a validator gets to its end
under the same limit, whatever the validator finds on its way.
-/

namespace JsonTypedef
namespace Written

/-! ## Runs that are cut short -/

theorem complete_andThen (a : Written) (b : Unit → Written) :
    (a.andThen b).complete = true ↔
      a.complete = true ∧ (b ()).complete = true := by
  unfold andThen
  by_cases ha : a.complete = true
  · simp [ha]
  · simp [ha]

theorem complete_commaSeparated {α : Type} {write : α → Written} {as : List α} :
    (commaSeparated write as).complete = true ↔
      ∀ a ∈ as, (write a).complete = true := by
  induction as with
  | nil => simp [commaSeparated, ofText]
  | cons a as ih =>
      rw [List.forall_mem_cons, ← ih]
      cases as with
      | nil => simp [commaSeparated, ofText]
      | cons b as =>
          rw [commaSeparated, complete_andThen, complete_andThen]
          simp [ofText]

theorem complete_bracketed (opening closing : Char) {α : Type}
    {write : α → Written} {as : List α} :
    (bracketed opening closing write as).complete = true ↔
      ∀ a ∈ as, (write a).complete = true := by
  rw [bracketed, complete_andThen, complete_andThen, complete_commaSeparated]
  simp [ofText]

theorem complete_member (key : String) {value : Unit → Written} :
    (member key value).complete = true ↔ (value ()).complete = true := by
  rw [member, complete_andThen]
  simp [ofText]

/-! ## How runs go on

`Composes` collects what a relation between what is written needs in order to
hold between whole runs whenever it holds between the runs on children. -/

/-- A relation that holds between runs if it holds between their parts. -/
structure Composes (rel : Written → Written → Prop) : Prop where
  refl : ∀ a, rel a a
  andThen : ∀ {a a' : Written} {b b' : Unit → Written},
    rel a a' → rel (b ()) (b' ()) → rel (a.andThen b) (a'.andThen b')

section

variable {rel : Written → Written → Prop} (hrel : Composes rel)

include hrel

theorem Composes.member (key : String) {value value' : Unit → Written}
    (h : rel (value ()) (value' ())) :
    rel (member key value) (member key value') :=
  hrel.andThen (hrel.refl _) h

variable {α β : Type} {write : α → Written} {write' : β → Written} {as : List α}
  {bs : List β} (h : List.Forall₂ (fun a b => rel (write a) (write' b)) as bs)

include h

theorem Composes.commaSeparated :
    rel (commaSeparated write as) (commaSeparated write' bs) := by
  induction h with
  | nil => exact hrel.refl _
  | cons hab hrest ih =>
      cases hrest with
      | nil => exact hab
      | cons => exact hrel.andThen (hrel.andThen hab (hrel.refl _)) ih

theorem Composes.bracketed (opening closing : Char) :
    rel (bracketed opening closing write as)
      (bracketed opening closing write' bs) :=
  hrel.andThen (hrel.andThen (hrel.refl _) (hrel.commaSeparated h))
    (hrel.refl _)

end

/-- The first run was cut short, or the second writes the same. -/
def Settles (a b : Written) : Prop :=
  a.complete = true → b = a

theorem composes_settles : Composes Settles where
  refl _ := fun _ => rfl
  andThen := by
    intro a a' b b' ha hb hcomplete
    obtain ⟨hcompleteA, hcompleteB⟩ := (complete_andThen a b).mp hcomplete
    simp only [andThen, ha hcompleteA, hb hcompleteB]

end Written

namespace Serializer

open Program Written

/-! ## Null -/

/-- Null is written the same along every node. -/
theorem node_null (target : Nat → Node) (depth : Nat) (n : Node) :
    node target (depth + 1) n .null = plain .null :=
  rfl

theorem node_of_ne_null {target : Nat → Node} {depth : Nat} {n : Node} {v : Value}
    (h : v ≠ .null) :
    node target (depth + 1) n v = form target (node target depth) v n.form := by
  cases v with
  | null => exact absurd rfl h
  | _ => rfl

/-! ## Greater limits -/

section

variable {rel : Written → Written → Prop} (hrel : Composes rel)
  {target : Nat → Node} {run run' : Run} (hrun : ∀ n v, rel (run n v) (run' n v))

include hrel hrun

theorem selectedMember_composes (m : String × Option Node × Value) :
    rel (selectedMember run m) (selectedMember run' m) := by
  apply hrel.member
  split
  next => exact hrun _ _
  next => exact hrel.refl _

theorem form_composes (v : Value) (f : Program.Form) :
    rel (form target run v f) (form target run' v f) := by
  cases f with
  | ref i => exact hrun _ _
  | elements item =>
      cases v with
      | arr items =>
          exact hrel.bracketed (List.forall₂_same.mpr fun v _ => hrun item v)
            _ _
      | _ => exact hrel.refl _
  | values item =>
      cases v with
      | obj ms =>
          exact hrel.bracketed
            (List.forall₂_same.mpr fun m _ => hrel.member _ (hrun _ _)) _ _
      | _ => exact hrel.refl _
  | properties p =>
      cases v with
      | obj ms =>
          exact hrel.bracketed (List.forall₂_same.mpr
            fun m _ => selectedMember_composes hrel hrun m) _ _
      | _ => exact hrel.refl _
  | discriminator tag branches =>
      cases v with
      | obj ms =>
          simp only [form]
          split
          next =>
            exact hrel.bracketed (List.forall₂_same.mpr
              fun m _ => selectedMember_composes hrel hrun m) _ _
          next => exact hrel.refl _
      | _ => exact hrel.refl _
  | _ => exact hrel.refl _

end

/-- A relation holds between runs under different limits if it holds where the
lower limit is met. -/
theorem node_composes {rel : Written → Written → Prop} (hrel : Composes rel)
    {target : Nat → Node}
    (hlimit : ∀ depth n v, rel ⟨[], false⟩ (node target depth n v))
    {depth depth' : Nat} (hle : depth ≤ depth') (n : Node) (v : Value) :
    rel (node target depth n v) (node target depth' n v) := by
  induction depth generalizing depth' n v with
  | zero => exact hlimit depth' n v
  | succ depth ih =>
      obtain ⟨depth', rfl⟩ : ∃ d, depth' = d + 1 := ⟨depth' - 1, by omega⟩
      have hrun : ∀ n v,
          rel (node target depth n v) (node target depth' n v) :=
        ih (Nat.le_of_succ_le_succ hle)
      unfold node
      split
      next => exact hrel.refl _
      next => exact form_composes hrel hrun v n.form

theorem node_settles {target : Nat → Node} {depth depth' : Nat}
    (hle : depth ≤ depth') (n : Node) (v : Value) :
    Settles (node target depth n v) (node target depth' n v) :=
  node_composes composes_settles (fun _ _ _ hcomplete => nomatch hcomplete) hle
    n v

/-- A value is serialized exactly where the run over it gets to its end. -/
theorem serialize_eq_ok_iff {serializer : Serializer} {v : Value}
    {text : String} :
    serializer.serialize v = .ok text ↔
      (serializer.run v).complete = true ∧
        String.ofList (serializer.run v).text = text := by
  unfold serialize serializeInto
  by_cases hcomplete : (serializer.run v).complete = true
  · simp [hcomplete, Except.map]
  · simp [hcomplete, Except.map]

/-- What is serialized does not change when the limit is raised. -/
theorem serialize_mono {program : Program} {config : Config} {v : Value}
    {text : String} (h : serialize ⟨program, config⟩ v = .ok text) {limit : Nat}
    (hle : config.maxDepth ≤ limit) :
    serialize ⟨program, { config with maxDepth := limit }⟩ v = .ok text := by
  obtain ⟨hcomplete, htext⟩ := serialize_eq_ok_iff.mp h
  have hrun : run ⟨program, { config with maxDepth := limit }⟩ v =
      run ⟨program, config⟩ v :=
    node_settles hle program.root v hcomplete
  rw [serialize_eq_ok_iff, hrun]
  exact ⟨hcomplete, htext⟩

end Serializer

/-! ## The validator goes at least as deep -/

namespace Outcome

theorem halt_andThen (a : Outcome) (b : Unit → Outcome) :
    (a.andThen b).halt = none ↔ a.halt = none ∧ (b ()).halt = none := by
  unfold andThen
  cases ha : a.halt with
  | none => simp
  | some halt => simp [ha]

theorem halt_each {α : Type} {run : α → Outcome} {as : List α} :
    (each run as).halt = none ↔ ∀ a ∈ as, (run a).halt = none := by
  induction as with
  | nil => simp [each, accepted]
  | cons a as ih => rw [each, halt_andThen, ih, List.forall_mem_cons]

end Outcome

namespace Serializer

open Program Written

section

variable {config : Config} {target : Nat → Node} {check : Validator.Run}
  {run : Run} (hrun : ∀ n place v, (check n place v).halt = none →
    (run n v).complete = true)

include hrun

/-- The members that are written along nodes are among those that are
checked. -/
theorem selectedMember_complete {place keyword : Pointer} {ms : Members}
    {p : Program.Properties} {tag tag' : Option String}
    (h : (Validator.properties config check place keyword ms p tag).halt = none)
    {m : String × Option Node × Value} (hm : m ∈ selected p tag' ms) :
    (selectedMember run m).complete = true := by
  unfold Validator.properties Validator.required Validator.optional at h
  rw [Outcome.halt_andThen, Outcome.halt_andThen, Outcome.halt_each,
    Outcome.halt_each] at h
  obtain ⟨⟨hrequired, hoptional⟩, -⟩ := h
  rw [selected_eq_append, List.mem_append] at hm
  rw [selectedMember, complete_member]
  rcases hm with hm | hm
  · obtain ⟨n, hn, hnode, hget⟩ := mem_selectedDeclared.mp hm
    rw [hnode]
    apply hrun n (place.child m.1)
    rcases List.mem_append.mp hn with hn | hn
    · simpa only [hget] using hrequired _ hn
    · simpa only [hget] using hoptional _ hn
  · obtain ⟨-, -, hnone, -⟩ := mem_selectedOthers.mp hm
    rw [hnone]
    rfl

theorem form_complete {path place : Pointer} {v : Value} {f : Program.Form}
    (h : (Validator.form config target check path place v f).halt = none) :
    (form target run v f).complete = true := by
  cases f with
  | ref i => exact hrun _ _ _ h
  | elements item =>
      cases v with
      | arr items =>
          apply (complete_bracketed _ _).mpr
          intro v hv
          obtain ⟨i, hi⟩ := List.getElem?_of_mem hv
          exact hrun _ _ _ (Outcome.halt_each.mp h (v, i)
            (List.mk_mem_zipIdx_iff_getElem?.mpr hi))
      | _ => rfl
  | values item =>
      cases v with
      | obj ms =>
          apply (complete_bracketed _ _).mpr
          intro m hm
          exact (complete_member _).mpr
            (hrun _ _ _ (Outcome.halt_each.mp h m hm))
      | _ => rfl
  | properties p =>
      cases v with
      | obj ms =>
          apply (complete_bracketed _ _).mpr
          intro m hm
          exact selectedMember_complete hrun h hm
      | _ => rfl
  | discriminator tag branches =>
      cases v with
      | obj ms =>
          simp only [form]
          split
          next value branch hbranch =>
            obtain ⟨hget, hlookup⟩ := branch?_eq_some_iff.mp hbranch
            simp only [Validator.form, Validator.discriminator, hget,
              hlookup] at h
            apply (complete_bracketed _ _).mpr
            intro m hm
            rcases List.mem_cons.mp hm with rfl | hm
            · rfl
            · exact selectedMember_complete hrun h hm
          next => rfl
      | _ => rfl
  | _ => rfl

end

/-- Where a validator gets to its end, so does a serializer. -/
theorem node_complete {config : Config} {target : Nat → Node} {depth : Nat}
    {n : Node} {place : Pointer} {v : Value}
    (h : (Validator.node config target depth n place v).halt = none) :
    (node target depth n v).complete = true := by
  induction depth generalizing n place v with
  | zero => cases h
  | succ depth ih =>
      unfold node
      split
      next => rfl
      next hnull =>
        have hnot : ¬ Validator.isNullAt n v = true := by
          intro hat
          exact hnull (Validator.eq_null_of_isNullAt hat).1
        rw [Validator.node, if_neg hnot] at h
        exact form_complete (fun _ _ _ hrun => ih hrun) h

theorem exists_serialize {program : Program} {config config' : Config}
    {v : Value} (h : (Validator.run ⟨program, config'⟩ v).halt = none)
    (hlimit : config'.maxDepth = config.maxDepth) :
    ∃ text, serialize ⟨program, config⟩ v = .ok text := by
  refine ⟨_, serialize_eq_ok_iff.mpr ⟨?_, rfl⟩⟩
  unfold Validator.run at h
  dsimp only at h
  rw [hlimit] at h
  exact node_complete h

/-- A run that looks for all violations halts at the depth limit alone. -/
theorem halt_of_validate {program : Program} {config : Config} {v : Value}
    (h : ∀ e, Validator.validate
      ⟨program, { config with allErrors := true }⟩ v ≠ .error e) :
    (Validator.run
      ⟨program, { config with allErrors := true }⟩ v).halt = none := by
  have hviolation := (Validator.run_stops program config v).halt_ne
  cases hhalt : (Validator.run
      ⟨program, { config with allErrors := true }⟩ v).halt with
  | none => rfl
  | some halt =>
      cases halt with
      | violation => exact absurd hhalt hviolation
      | depth =>
          refine absurd ?_ (h ⟨config.maxDepth⟩)
          simp only [Validator.validate, hhalt]

/-- A value is serialized wherever looking for all of its violations does not
meet the depth limit, be it valid or not, and wherever it is found valid. -/
theorem serialize_of_validate (program : Program) (config : Config)
    (v : Value) :
    ((∀ e, Validator.validate
        ⟨program, { config with allErrors := true }⟩ v ≠ .error e) →
      ∃ text, serialize ⟨program, config⟩ v = .ok text) ∧
    (Validator.validate
        ⟨program, { config with allErrors := false }⟩ v = .ok [] →
      ∃ text, serialize ⟨program, config⟩ v = .ok text) := by
  constructor
  · intro h
    exact exists_serialize (halt_of_validate h) rfl
  · intro h
    have haccepted := Validator.validate_eq_nil_iff.mp h
    have hhalt : (Validator.run
        ⟨program, { config with allErrors := false }⟩ v).halt = none := by
      rw [haccepted]
      rfl
    exact exists_serialize hhalt rfl

/-- A chain whose second link has no name. -/
def namelessChain : Value :=
  .obj [("id", .str "a"), ("next", .obj [("weight", .bool true)])]

theorem serialize_of_validate_namelessChain :
    (∃ x y, Validator.validate ⟨chainProgram, { allErrors := true }⟩
      namelessChain = .ok [x, y]) ∧
    ∃ text, serialize ⟨chainProgram, { }⟩ namelessChain = .ok text := by
  refine ⟨⟨_, _, rfl⟩, ?_⟩
  refine (serialize_of_validate chainProgram { } namelessChain).1 ?_
  intro e h
  cases h

end Serializer
end JsonTypedef
