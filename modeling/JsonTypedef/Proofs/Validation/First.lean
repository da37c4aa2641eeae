import JsonTypedef.Proofs.Validation.Verdict

/-!
# The first violation

A run that stops at the first violation finds what a run that goes on finds
first.  `Outcome.Stops` relates the two runs: both accept, both meet the depth
limit before any violation, or the one stops at a violation that heads the list
of the other, wherever that one ends.
-/

namespace JsonTypedef

namespace Outcome

/-- A run that stops at the first violation, and the run that goes on. -/
inductive Stops : Outcome → Outcome → Prop
  | accepted : Stops .accepted .accepted
  | depth : Stops ⟨[], some .depth⟩ ⟨[], some .depth⟩
  | violation {x : Violation} {rest : List Violation} {halt : Option Halt} :
      halt ≠ some .violation → Stops ⟨[x], some .violation⟩ ⟨x :: rest, halt⟩

theorem accepted_andThen (b : Unit → Outcome) : accepted.andThen b = b () :=
  rfl

/-- The run that goes on never halts for a violation. -/
theorem Stops.halt_ne {a b : Outcome} (h : Stops a b) :
    b.halt ≠ some .violation := by
  cases h with
  | accepted => decide
  | depth => decide
  | violation hhalt => exact hhalt

/-- Once the first run has stopped, the second may go on as it likes. -/
theorem Stops.andThen {a a' : Outcome} {b b' : Unit → Outcome}
    (ha : Stops a a') (hb : Stops (b ()) (b' ())) :
    Stops (a.andThen b) (a'.andThen b') := by
  cases ha with
  | accepted =>
      rw [accepted_andThen, accepted_andThen]
      exact hb
  | depth => exact .depth
  | @violation x rest halt hhalt =>
      cases halt with
      | some halt => exact .violation hhalt
      | none => exact .violation hb.halt_ne

theorem linked_stops (config : Config) :
    Linked { config with allErrors := false }
      { config with allErrors := true } Stops where
  admits kind v :=
    check_related .accepted (fun _ _ => .violation (by simp))
      (Validator.typeAccepts config kind v)
  accepted := .accepted
  reject place keyword := .violation (by simp)
  andThen := Stops.andThen

end Outcome

namespace Validator

open Outcome

/-- The runs over a whole value in the two modes. -/
theorem run_stops (program : Program) (config : Config) (v : Value) :
    Stops (run ⟨program, { config with allErrors := false }⟩ v)
      (run ⟨program, { config with allErrors := true }⟩ v) := by
  apply node_linked (linked_stops config)
  · intro n place v
    rw [Nat.sub_self]
    exact .depth
  · exact Nat.le_refl _

/-- Stopping at the first violation gives the head of all violations, or the
same failure; whether there is a violation can be told from it alone. -/
theorem validate_first (program : Program) (config : Config) (v : Value) :
    (∀ vs, validate ⟨program, { config with allErrors := true }⟩ v = .ok vs →
      validate ⟨program, { config with allErrors := false }⟩ v =
        .ok (vs.take 1)) ∧
    (validate ⟨program, { config with allErrors := false }⟩ v = .ok [] →
      validate ⟨program, { config with allErrors := true }⟩ v = .ok []) ∧
    (∀ e, validate ⟨program, { config with allErrors := false }⟩ v = .error e →
      validate ⟨program, { config with allErrors := true }⟩ v = .error e) ∧
    (∀ vs, validate ⟨program, { config with allErrors := false }⟩ v = .ok vs →
      vs.length ≤ 1) ∧
    ∀ allErrors, isValid ⟨program, { config with allErrors }⟩ v =
      (validate ⟨program, { config with allErrors := false }⟩ v).map
        List.isEmpty := by
  have hstops := run_stops program config v
  unfold isValid firstOnly validate
  dsimp only
  generalize run ⟨program, { config with allErrors := false }⟩ v = first
    at hstops ⊢
  generalize run ⟨program, { config with allErrors := true }⟩ v = all
    at hstops ⊢
  cases hstops with
  | accepted => simp [accepted]
  | depth => simp
  | @violation x rest halt hhalt =>
      cases halt with
      | none => simp
      | some halt =>
          cases halt with
          | violation => exact absurd rfl hhalt
          | depth => simp

end Validator
end JsonTypedef
