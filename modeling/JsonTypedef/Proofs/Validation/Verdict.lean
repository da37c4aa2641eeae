import JsonTypedef.Proofs.Validation.Fits

/-!
# Verdicts of validation

A run accepts a value exactly when the value fits its node, in both modes.  The
depth limit is met or it does not matter: a run that does not meet it goes the
same way under every greater limit.
-/

namespace JsonTypedef

open Outcome Program

namespace Outcome

theorem andThen_eq_accepted_iff {a : Outcome} {b : Unit → Outcome} :
    a.andThen b = accepted ↔ a = accepted ∧ b () = accepted := by
  obtain ⟨violations, halt⟩ := a
  rcases hb : b () with ⟨violations', halt'⟩
  cases halt with
  | some halt => simp [andThen, accepted]
  | none =>
      simp only [andThen, accepted, hb, Outcome.mk.injEq,
        List.append_eq_nil_iff, and_true]
      exact and_assoc

theorem each_eq_accepted_iff {α : Type} {run : α → Outcome} {as : List α} :
    each run as = accepted ↔ ∀ a ∈ as, run a = accepted := by
  induction as with
  | nil => simp [each]
  | cons a as ih =>
      simp only [each, andThen_eq_accepted_iff, ih, List.forall_mem_cons]

end Outcome

namespace Validator

variable {config : Config} {target : Nat → Node} {fits : Node → Value → Prop}

/-! ## Acceptance -/

theorem reject_ne_accepted (place keyword : Pointer) :
    reject config place keyword ≠ .accepted := by
  simp [reject, accepted]

theorem check_eq_accepted_iff {condition : Bool} {place keyword : Pointer} :
    check config condition place keyword = .accepted ↔ condition = true := by
  cases condition with
  | true => simp [check]
  | false => simp [check, reject_ne_accepted]

section

variable {run : Run} (hrun : ∀ n place v, run n place v = .accepted ↔ fits n v)

include hrun

theorem required_eq_accepted_iff {place : Pointer} {ms : Members}
    {declared : List (String × Node)} :
    required config run place ms declared = .accepted ↔
      ∀ m ∈ declared, ∃ v, ms.get? m.1 = some v ∧ fits m.2 v := by
  unfold required
  rw [each_eq_accepted_iff]
  refine forall₂_congr fun m _ => ?_
  cases ms.get? m.1 with
  | none => simp [reject_ne_accepted]
  | some v => simp [hrun]

theorem optional_eq_accepted_iff {place : Pointer} {ms : Members}
    {declared : List (String × Node)} :
    optional run place ms declared = .accepted ↔
      ∀ m ∈ declared, ∀ v, ms.get? m.1 = some v → fits m.2 v := by
  unfold optional
  rw [each_eq_accepted_iff]
  refine forall₂_congr fun m _ => ?_
  cases ms.get? m.1 with
  | none => simp
  | some v => simp [hrun]

omit hrun in
theorem undeclared_eq_accepted_iff {place keyword : Pointer} {ms : Members}
    {p : Program.Properties} {tag : Option String} :
    undeclared config place keyword ms p tag = .accepted ↔
      (p.additional = false →
        ∀ key ∈ ms.keys, tag = some key ∨ p.declares key = true) := by
  unfold undeclared
  cases p.additional with
  | true => simp
  | false => simp [each_eq_accepted_iff, check_eq_accepted_iff]

theorem properties_eq_accepted_iff {place keyword : Pointer} {ms : Members}
    {p : Program.Properties} {tag : Option String} :
    properties config run place keyword ms p tag = .accepted ↔
      PropertiesFit fits p tag ms := by
  unfold properties
  rw [andThen_eq_accepted_iff, andThen_eq_accepted_iff,
    required_eq_accepted_iff hrun, optional_eq_accepted_iff hrun,
    undeclared_eq_accepted_iff]
  constructor
  · rintro ⟨⟨hrequired, hoptional⟩, hdeclared⟩
    exact ⟨hrequired, hoptional, hdeclared⟩
  · intro h
    exact ⟨⟨h.required, h.optional⟩, h.declared⟩

theorem discriminator_eq_accepted_iff {path place : Pointer} {ms : Members}
    {tag : String} {branches : List (String × Program.Branch)} :
    discriminator config run path place ms tag branches = .accepted ↔
      FormFits fits (typeAccepts config) target (.discriminator tag branches)
        (.obj ms) := by
  unfold discriminator
  constructor
  · intro h
    split at h
    next => exact absurd h (reject_ne_accepted _ _)
    next value htag =>
      split at h
      next branch hbranch =>
        exact .discriminator htag hbranch
          ((properties_eq_accepted_iff hrun).mp h)
      next => exact absurd h (reject_ne_accepted _ _)
    next => exact absurd h (reject_ne_accepted _ _)
  · intro h
    cases h with
    | discriminator htag hbranch h =>
        simp only [htag, hbranch]
        exact (properties_eq_accepted_iff hrun).mpr h

theorem form_eq_accepted_iff {path place : Pointer} {v : Value}
    {f : Program.Form} :
    form config target run path place v f = .accepted ↔
      FormFits fits (typeAccepts config) target f v := by
  cases f with
  | empty => exact ⟨fun _ => .empty, fun _ => rfl⟩
  | ref i =>
      refine (hrun _ _ _).trans ⟨.ref, fun h => ?_⟩
      cases h with
      | ref h => exact h
  | type kind =>
      refine check_eq_accepted_iff.trans ⟨.type, fun h => ?_⟩
      cases h with
      | type h => exact h
  | enum values =>
      refine check_eq_accepted_iff.trans ⟨fun h => ?_, fun h => ?_⟩
      · cases v with
        | str s => exact .enum (by simpa using h)
        | _ => cases h
      · cases h with
        | enum h => simpa using h
  | elements item =>
      cases v with
      | arr items =>
          simp only [form, each_eq_accepted_iff, hrun]
          constructor
          · intro h
            refine .elements fun v hv => ?_
            obtain ⟨i, hi⟩ := List.getElem?_of_mem hv
            exact h (v, i) (List.mk_mem_zipIdx_iff_getElem?.mpr hi)
          · intro h m hm
            cases h with
            | elements h => exact h m.1 (List.fst_mem_of_mem_zipIdx hm)
      | _ =>
          exact ⟨fun h => absurd h (reject_ne_accepted _ _), fun h => nomatch h⟩
  | values item =>
      cases v with
      | obj ms =>
          simp only [form, each_eq_accepted_iff, hrun]
          constructor
          · intro h
            exact .values h
          · intro h m hm
            cases h with
            | values h => exact h m hm
      | _ =>
          exact ⟨fun h => absurd h (reject_ne_accepted _ _), fun h => nomatch h⟩
  | properties p =>
      cases v with
      | obj ms =>
          refine (properties_eq_accepted_iff hrun).trans
            ⟨.properties, fun h => ?_⟩
          cases h with
          | properties h => exact h
      | _ =>
          exact ⟨fun h => absurd h (reject_ne_accepted _ _), fun h => nomatch h⟩
  | discriminator tag branches =>
      cases v with
      | obj ms => exact discriminator_eq_accepted_iff hrun
      | _ =>
          exact ⟨fun h => absurd h (reject_ne_accepted _ _), fun h => nomatch h⟩

end

/-- A run accepts exactly what fits its node. -/
theorem node_eq_accepted_iff {depth : Nat} {n : Node} {place : Pointer}
    {v : Value} :
    node config target depth n place v = .accepted ↔
      Fits (typeAccepts config) target depth n v := by
  induction depth generalizing n place v with
  | zero => simp [node, accepted, Fits]
  | succ depth ih =>
      unfold node Fits
      cases isNullAt n v with
      | true => simp
      | false =>
          have hrun : ∀ n place v,
              node config target depth n place v = .accepted ↔
              Fits (typeAccepts config) target depth n v := fun _ _ _ => ih
          simp only [Bool.false_eq_true, if_false, false_or]
          exact form_eq_accepted_iff hrun

end Validator

/-! ## How runs go on

`Outcome.Linked` collects what a relation between outcomes needs in order to
hold between whole runs whenever it holds between the runs on children.  The two
runs may obey different options, as long as the relation holds between their
checks of primitive values. -/

namespace Outcome

/-- A relation between outcomes that every step of two runs keeps. -/
structure Linked (config config' : Config)
    (rel : Outcome → Outcome → Prop) : Prop where
  admits : ∀ kind v place keyword,
    rel (Validator.check config (Validator.typeAccepts config kind v) place
        keyword)
      (Validator.check config' (Validator.typeAccepts config' kind v) place
        keyword)
  accepted : rel .accepted .accepted
  reject : ∀ place keyword,
    rel (Validator.reject config place keyword)
      (Validator.reject config' place keyword)
  andThen : ∀ {a a' : Outcome} {b b' : Unit → Outcome},
    rel a a' → rel (b ()) (b' ()) → rel (a.andThen b) (a'.andThen b')

/-- Checks of the same condition are related if they are where it holds and where
it fails. -/
theorem check_related {config config' : Config}
    {rel : Outcome → Outcome → Prop} (haccepted : rel .accepted .accepted)
    (hreject : ∀ place keyword, rel (Validator.reject config place keyword)
      (Validator.reject config' place keyword)) (condition : Bool)
    (place keyword : Pointer) :
    rel (Validator.check config condition place keyword)
      (Validator.check config' condition place keyword) := by
  cases condition with
  | true => exact haccepted
  | false => exact hreject place keyword

theorem Linked.each {config config' : Config}
    {rel : Outcome → Outcome → Prop} (hlink : Linked config config' rel)
    {α : Type} {run run' : α → Outcome} {as : List α}
    (h : ∀ a ∈ as, rel (run a) (run' a)) :
    rel (Outcome.each run as) (Outcome.each run' as) := by
  induction as with
  | nil => exact hlink.accepted
  | cons a as ih =>
      exact hlink.andThen (h a List.mem_cons_self)
        (ih fun b hb => h b (List.mem_cons_of_mem _ hb))

end Outcome

namespace Validator

section

variable {config config' : Config} {target : Nat → Node}
    {rel : Outcome → Outcome → Prop}
  (hlink : Linked config config' rel)

include hlink

theorem check_linked {condition : Bool} {place keyword : Pointer} :
    rel (check config condition place keyword)
      (check config' condition place keyword) :=
  check_related hlink.accepted hlink.reject condition place keyword

variable {run run' : Run}
    (hrun : ∀ n place v, rel (run n place v) (run' n place v))

include hrun

theorem properties_linked {place keyword : Pointer} {ms : Members}
    {p : Program.Properties} {tag : Option String} :
    rel (properties config run place keyword ms p tag)
      (properties config' run' place keyword ms p tag) := by
  refine hlink.andThen (hlink.andThen ?_ ?_) ?_
  · refine hlink.each fun m _ => ?_
    cases ms.get? m.1 with
    | none => exact hlink.reject _ _
    | some v => exact hrun _ _ _
  · refine hlink.each fun m _ => ?_
    cases ms.get? m.1 with
    | none => exact hlink.accepted
    | some v => exact hrun _ _ _
  · unfold undeclared
    split
    next => exact hlink.accepted
    next => exact hlink.each fun key _ => check_linked hlink

theorem discriminator_linked {path place : Pointer} {ms : Members}
    {tag : String} {branches : List (String × Program.Branch)} :
    rel (discriminator config run path place ms tag branches)
      (discriminator config' run' path place ms tag branches) := by
  unfold discriminator
  split
  next => exact hlink.reject _ _
  next value _ =>
    cases List.lookup value branches with
    | none => exact hlink.reject _ _
    | some branch => exact properties_linked hlink hrun
  next => exact hlink.reject _ _

theorem form_linked {path place : Pointer} {v : Value} {f : Program.Form} :
    rel (form config target run path place v f)
      (form config' target run' path place v f) := by
  cases f with
  | empty => exact hlink.accepted
  | ref i => exact hrun _ _ _
  | type kind => exact hlink.admits kind v place (path.child "type")
  | enum values => exact check_linked hlink
  | elements item =>
      cases v with
      | arr items => exact hlink.each fun m _ => hrun _ _ _
      | _ => exact hlink.reject _ _
  | values item =>
      cases v with
      | obj ms => exact hlink.each fun m _ => hrun _ _ _
      | _ => exact hlink.reject _ _
  | properties p =>
      cases v with
      | obj ms => exact properties_linked hlink hrun
      | _ => exact hlink.reject _ _
  | discriminator tag branches =>
      cases v with
      | obj ms => exact discriminator_linked hlink hrun
      | _ => exact hlink.reject _ _

end

/-- A relation holds between runs of different limits if it holds where the
lower limit is met and the second run has the rest of its own left. -/
theorem node_linked {config config' : Config} {target : Nat → Node}
    {rel : Outcome → Outcome → Prop} (hlink : Linked config config' rel)
    {depth depth' : Nat}
    (hlimit : ∀ n place v, rel ⟨[], some .depth⟩
      (node config' target (depth' - depth) n place v))
    (hle : depth ≤ depth') (n : Node) (place : Pointer) (v : Value) :
    rel (node config target depth n place v)
      (node config' target depth' n place v) := by
  induction depth generalizing depth' n place v with
  | zero => exact hlimit n place v
  | succ depth ih =>
      obtain ⟨depth', rfl⟩ : ∃ d, depth' = d + 1 := ⟨depth' - 1, by omega⟩
      rw [Nat.succ_sub_succ] at hlimit
      unfold node
      split
      next => exact hlink.accepted
      next =>
        exact form_linked hlink fun n place v =>
          ih hlimit (Nat.le_of_succ_le_succ hle) n place v

end Validator

namespace Outcome

/-- The first run halted at the depth limit, or the second goes the same way. -/
def Settles (a b : Outcome) : Prop :=
  a.halt = some .depth ∨ a = b

theorem linked_settles (config : Config) : Linked config config Settles where
  admits _ _ _ _ := Or.inr rfl
  accepted := Or.inr rfl
  reject _ _ := Or.inr rfl
  andThen := by
    rintro a _ b b' (hdepth | rfl) hb
    · refine Or.inl ?_
      simp only [andThen, hdepth]
    · cases hhalt : a.halt with
      | some halt =>
          refine Or.inr ?_
          simp only [andThen, hhalt]
      | none =>
          rcases hb with hdepth | heq
          · refine Or.inl ?_
            simp only [andThen, hhalt, hdepth]
          · refine Or.inr ?_
            simp only [andThen, hhalt, heq]

/-- A run that halts at a violation reports one. -/
def Reports (a : Outcome) : Prop :=
  a.halt = some .violation → a.violations ≠ []

theorem linked_reports (config : Config) :
    Linked config config fun a _ => Reports a where
  admits _ _ _ _ := by
    unfold Validator.check
    split
    next => exact nofun
    next => exact fun _ => List.cons_ne_nil _ _
  accepted := by
    intro h
    cases h
  reject _ _ := fun _ => List.cons_ne_nil _ _
  andThen := by
    intro a _ b _ ha hb
    unfold andThen
    split
    next => exact ha
    next => exact fun hhalt hnil => hb hhalt (List.append_eq_nil_iff.mp hnil).2

end Outcome

namespace Validator

/-! ## Whole values -/

theorem run_reports (validator : Validator) (v : Value) :
    Reports (validator.run v) :=
  node_linked (linked_reports _) (fun _ _ _ h => nomatch h) (Nat.le_refl _) _ _ _

/-- A value has no violation exactly when the run accepts it. -/
theorem validate_eq_nil_iff {validator : Validator} {v : Value} :
    validator.validate v = .ok [] ↔ validator.run v = .accepted := by
  unfold validate
  constructor
  · intro h
    have hreports := run_reports validator v
    rcases hrun : validator.run v with ⟨violations, halt⟩
    rw [hrun] at h hreports
    dsimp only at h
    split at h
    next => cases h
    next hhalt =>
      obtain rfl := Except.ok.inj h
      cases halt with
      | none => rfl
      | some halt =>
          cases halt with
          | violation => exact absurd rfl (hreports rfl)
          | depth => exact absurd rfl hhalt
  · intro h
    rw [h]
    rfl

/-- Validation accepts a value exactly when it fits the root within the
limit. -/
theorem validate_eq_nil_iff_fits {validator : Validator} {v : Value} :
    validator.validate v = .ok [] ↔
      Fits (typeAccepts validator.config) validator.program.target
        validator.config.maxDepth validator.program.root v :=
  validate_eq_nil_iff.trans node_eq_accepted_iff

/-- The configured limit itself is not looked at by the run on a node. -/
theorem node_maxDepth (config : Config) (limit : Nat) (target : Nat → Node)
    (depth : Nat) :
    node { config with maxDepth := limit } target depth =
      node config target depth := by
  induction depth with
  | zero => rfl
  | succ depth ih =>
      funext n place v
      unfold node
      rw [ih]
      rfl

/-- What validation reports does not change when the limit is raised. -/
theorem validate_mono {program : Program} {config : Config} {v : Value}
    {vs : List Violation} (h : validate ⟨program, config⟩ v = .ok vs)
    {limit : Nat} (hle : config.maxDepth ≤ limit) :
    validate ⟨program, { config with maxDepth := limit }⟩ v = .ok vs := by
  have hrun : run ⟨program, { config with maxDepth := limit }⟩ v =
      node config program.target limit program.root .root v := by
    rw [← node_maxDepth config limit]
    rfl
  have hnode : Settles (run ⟨program, config⟩ v)
      (node config program.target limit program.root .root v) :=
    node_linked (linked_settles config) (fun _ _ _ => Or.inl rfl) hle
      program.root .root v
  unfold validate at h ⊢
  dsimp only at h ⊢
  rcases hnode with hdepth | heq
  · rw [hdepth] at h
    cases h
  · rw [heq] at h
    rw [hrun]
    split at h
    next => cases h
    next => exact h

end Validator
end JsonTypedef
