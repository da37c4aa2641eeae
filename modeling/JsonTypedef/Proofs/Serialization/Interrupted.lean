import JsonTypedef.Proofs.Serialization.Trimmed

/-!
# Serializers that are interrupted

What a serializer has written when it meets the depth limit is how every run
under a greater limit begins.  A run that gets to its end goes on from there:
no value has an empty text, so that something is missing wherever a run was cut
short.
-/

namespace JsonTypedef

/-- No value is written as an empty text. -/
theorem Value.text_ne_nil (v : Value) : v.text ≠ [] := by
  intro hnil
  have hempty : v.write = "" := congrArg String.ofList hnil
  have hdenotes : Grammar.Denotes "" v := hempty ▸ v.denotes_write
  have hnone : readRaw? (Cursor.ofText "").size "" = none := by
    decide +kernel
  rw [← readRaw?_eq_some_iff (Nat.le_refl _), hnone] at hdenotes
  cases hdenotes

namespace Written

/-- The second run writes what the first does, or the first was cut short and
the second goes on: if it gets to its end, then with more text. -/
def Begins (a b : Written) : Prop :=
  b = a ∨ a.complete = false ∧
    ∃ rest, b.text = a.text ++ rest ∧ (b.complete = true → rest ≠ [])

theorem andThen_of_complete {a : Written} (h : a.complete = true)
    (b : Unit → Written) :
    a.andThen b = ⟨a.text ++ (b ()).text, (b ()).complete⟩ := by
  rw [andThen, if_pos h]

theorem andThen_of_not_complete {a : Written} (h : a.complete = false)
    (b : Unit → Written) : a.andThen b = a := by
  rw [andThen, if_neg (by simp [h])]

theorem composes_begins : Composes Begins where
  refl _ := Or.inl rfl
  andThen := by
    rintro a a' b b' (rfl | ⟨hcut, rest, htext, hrest⟩) hb
    · cases hcomplete : a'.complete with
      | false =>
          rw [andThen_of_not_complete hcomplete,
            andThen_of_not_complete hcomplete]
          exact Or.inl rfl
      | true =>
          rw [andThen_of_complete hcomplete, andThen_of_complete hcomplete]
          rcases hb with hb | ⟨hcut, rest, htext, hrest⟩
          · rw [hb]
            exact Or.inl rfl
          · refine Or.inr ⟨hcut, rest, ?_, hrest⟩
            rw [htext, List.append_assoc]
    · rw [andThen_of_not_complete hcut]
      right
      cases hcomplete : a'.complete with
      | false =>
          rw [andThen_of_not_complete hcomplete]
          exact ⟨hcut, rest, htext, fun h => absurd h (by simp [hcomplete])⟩
      | true =>
          rw [andThen_of_complete hcomplete]
          refine ⟨hcut, rest ++ (b' ()).text, ?_, fun _ => ?_⟩
          · rw [htext, List.append_assoc]
          · exact List.append_ne_nil_of_left_ne_nil (hrest hcomplete) _

theorem andThen_text_ne_nil {a : Written} (h : a.text ≠ [])
    (b : Unit → Written) : (a.andThen b).text ≠ [] := by
  unfold andThen
  split
  next => exact List.append_ne_nil_of_left_ne_nil h _
  next => exact h

theorem bracketed_text_ne_nil (opening closing : Char) {α : Type}
    (write : α → Written) (as : List α) :
    (bracketed opening closing write as).text ≠ [] :=
  andThen_text_ne_nil (andThen_text_ne_nil (List.cons_ne_nil _ _) _) _

end Written

namespace Serializer

open Program Written

theorem form_text_ne_nil {target : ℕ → Node} {run : Run}
    (hrun : ∀ n v, (run n v).complete = true → (run n v).text ≠ [])
    {f : Program.Form} {v : Value}
    (hcomplete : (form target run v f).complete = true) :
    (form target run v f).text ≠ [] := by
  by_cases hshape : HasShape f v
  · cases hshape with
    | ref => exact hrun _ _ hcomplete
    | elements => exact bracketed_text_ne_nil _ _ _ _
    | values => exact bracketed_text_ne_nil _ _ _ _
    | members halong =>
        rw [form_eq_bracketed halong]
        exact bracketed_text_ne_nil _ _ _ _
  · rw [form_eq_plain hshape]
    exact v.text_ne_nil

/-- A run that gets to its end has written something. -/
theorem node_text_ne_nil {target : ℕ → Node} {depth : ℕ} {n : Node} {v : Value}
    (hcomplete : (node target depth n v).complete = true) :
    (node target depth n v).text ≠ [] := by
  induction depth generalizing n v with
  | zero => cases hcomplete
  | succ depth ih =>
      by_cases hv : v = .null
      · subst hv
        exact Value.null.text_ne_nil
      · rw [node_of_ne_null hv] at hcomplete ⊢
        exact form_text_ne_nil (fun _ _ => ih) hcomplete

/-- A run under a greater limit begins as the run under the lower one. -/
theorem node_begins {target : ℕ → Node} {depth depth' : ℕ}
    (hle : depth ≤ depth') (n : Node) (v : Value) :
    Begins (node target depth n v) (node target depth' n v) :=
  node_composes composes_begins
    (fun _ _ _ => Or.inr ⟨rfl, _, rfl, node_text_ne_nil⟩) hle n v

/-- What an interrupted run has written is a proper prefix of every text that
the value has under a greater limit. -/
theorem exists_rest_of_interrupted {program : Program} {config : Config}
    {v : Value} (h : (run ⟨program, config⟩ v).complete = false) {limit : ℕ}
    (hlt : config.maxDepth < limit) {text : String}
    (htext : serialize ⟨program, { config with maxDepth := limit }⟩ v =
      .ok text) :
    ∃ rest ≠ "",
      String.ofList (run ⟨program, config⟩ v).text ++ rest = text := by
  obtain ⟨hcomplete, rfl⟩ := serialize_eq_ok_iff.mp htext
  have hbegins : Begins (run ⟨program, config⟩ v)
      (run ⟨program, { config with maxDepth := limit }⟩ v) :=
    node_begins (Nat.le_of_lt hlt) program.root v
  rcases hbegins with heq | ⟨-, rest, hrun, hrest⟩
  · rw [heq, h] at hcomplete
    cases hcomplete
  · refine ⟨String.ofList rest, fun hnil => ?_, ?_⟩
    · exact hrest hcomplete (String.ofList_eq_empty_iff.mp hnil)
    · rw [hrun, String.ofList_append]

end Serializer
end JsonTypedef
