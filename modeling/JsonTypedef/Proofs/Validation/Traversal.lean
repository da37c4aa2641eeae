import JsonTypedef.Proofs.Json.Place
import JsonTypedef.Proofs.Validation.Verdict

/-!
# What a run reports

A violation that is found at a node is one that the node's form reports by
itself, or it is found at a node that the form goes on to.  `Form.Rejects` lists
the former with the keywords that they name, `Form.GoesOn` the latter with the
parts of the value that they are about.
-/

namespace JsonTypedef

open Outcome

namespace Program

section

variable (config : Config) (target : ℕ → Node)

/-- The nodes that a form goes on to, with the segments down to the part of the
value that is checked there. -/
inductive Form.GoesOn : Form → Value → Node → List String → Value → Prop
  | ref {i : ℕ} {v : Value} : GoesOn (.ref i) v (target i) [] v
  | item {item : Node} {items : List Value} {i : ℕ} {w : Value} :
      items[i]? = some w →
        GoesOn (.elements item) (.arr items) item [toString i] w
  | value {item : Node} {ms : Members} {key : String} {w : Value} :
      (key, w) ∈ ms → GoesOn (.values item) (.obj ms) item [key] w
  | member {p : Properties} {ms : Members} {m : String × Node} {w : Value} :
      m ∈ p.declared → ms.get? m.1 = some w →
        GoesOn (.properties p) (.obj ms) m.2 [m.1] w
  | branch {tag value : String} {branches : List (String × Branch)}
      {branch : Branch} {ms : Members} {m : String × Node} {w : Value} :
      ms.get? tag = some (.str value) →
      List.lookup value branches = some branch →
      m ∈ branch.properties.declared → ms.get? m.1 = some w →
        GoesOn (.discriminator tag branches) (.obj ms) m.2 [m.1] w

/-- The violations of an object against declarations at `path`: a required
member is missing or a member is not declared. -/
inductive Properties.Rejects (p : Properties) (path : Pointer)
    (tag : Option String) (ms : Members) : List String → Pointer → Prop
  | missing {m : String × Node} : m ∈ p.required → ms.get? m.1 = none →
      Rejects p path tag ms [] m.2.path
  | undeclared {key : String} : p.additional = false → key ∈ ms.keys →
      tag ≠ some key → p.declares key = false →
        Rejects p path tag ms [key] path

/-- The violations that the form of the node at `path` reports by itself: the
segments down to the rejected part of the value, and the rejecting keyword. -/
inductive Form.Rejects (path : Pointer) :
    Form → Value → List String → Pointer → Prop
  | type {kind : TypeKind} {v : Value} :
      Validator.typeAccepts config kind v = false →
        Rejects path (.type kind) v [] (path.child "type")
  | enum {values : List String} {v : Value} :
      (∀ s ∈ values, v ≠ .str s) →
        Rejects path (.enum values) v [] (path.child "enum")
  | elements {item : Node} {v : Value} : (∀ items, v ≠ .arr items) →
      Rejects path (.elements item) v [] (path.child "elements")
  | values {item : Node} {v : Value} : (∀ ms, v ≠ .obj ms) →
      Rejects path (.values item) v [] (path.child "values")
  | properties {p : Properties} {v : Value} : (∀ ms, v ≠ .obj ms) →
      Rejects path (.properties p) v [] (path.child p.keyword)
  | member {p : Properties} {ms : Members} {segments : List String}
      {keyword : Pointer} : p.Rejects path none ms segments keyword →
        Rejects path (.properties p) (.obj ms) segments keyword
  | discriminator {tag : String} {branches : List (String × Branch)}
      {v : Value} : (∀ ms, v ≠ .obj ms) →
        Rejects path (.discriminator tag branches) v []
          (path.child "discriminator")
  | untagged {tag : String} {branches : List (String × Branch)}
      {ms : Members} : ms.get? tag = none →
        Rejects path (.discriminator tag branches) (.obj ms) []
          (path.child "discriminator")
  | unnamed {tag : String} {branches : List (String × Branch)}
      {ms : Members} {w : Value} : ms.get? tag = some w → (∀ s, w ≠ .str s) →
        Rejects path (.discriminator tag branches) (.obj ms) [tag]
          (path.child "discriminator")
  | unmapped {tag value : String} {branches : List (String × Branch)}
      {ms : Members} : ms.get? tag = some (.str value) →
        List.lookup value branches = none →
        Rejects path (.discriminator tag branches) (.obj ms) [tag]
          (path.child "mapping")
  | branch {tag value : String} {branches : List (String × Branch)}
      {branch : Branch} {ms : Members} {segments : List String}
      {keyword : Pointer} : ms.get? tag = some (.str value) →
        List.lookup value branches = some branch →
        branch.properties.Rejects branch.path (some tag) ms segments keyword →
          Rejects path (.discriminator tag branches) (.obj ms) segments keyword

end

end Program

/-! ## Violations of parts of a run -/

namespace Outcome

theorem mem_andThen {a : Outcome} {b : Unit → Outcome} {x : Violation}
    (h : x ∈ (a.andThen b).violations) :
    x ∈ a.violations ∨ x ∈ (b ()).violations := by
  unfold andThen at h
  split at h
  next => exact Or.inl h
  next => exact List.mem_append.mp h

theorem mem_each {α : Type} {run : α → Outcome} {as : List α} {x : Violation}
    (h : x ∈ (each run as).violations) : ∃ a ∈ as, x ∈ (run a).violations := by
  induction as with
  | nil => cases h
  | cons a as ih =>
      rcases mem_andThen h with h | h
      · exact ⟨a, List.mem_cons_self, h⟩
      · obtain ⟨b, hb, h⟩ := ih h
        exact ⟨b, List.mem_cons_of_mem _ hb, h⟩

end Outcome

namespace Validator

variable {config : Config} {target : ℕ → Program.Node}
    {path place keyword : Pointer} {x : Violation}

theorem mem_reject :
    x ∈ (reject config place keyword).violations ↔ x = ⟨place, keyword⟩ :=
  List.mem_singleton

theorem mem_check {condition : Bool}
    (h : x ∈ (check config condition place keyword).violations) :
    condition = false ∧ x = ⟨place, keyword⟩ := by
  cases condition with
  | true => cases h
  | false => exact ⟨rfl, mem_reject.mp h⟩

section

variable {run : Run} {ms : Members} {v : Value}

/-- A violation of an object is one of its declarations, or is found in the
value of a declared member. -/
theorem mem_properties {p : Program.Properties} {tag : Option String}
    (h : x ∈ (properties config run place keyword ms p tag).violations) :
    (∃ segments reason, p.Rejects keyword tag ms segments reason ∧
      x = ⟨place.extend segments, reason⟩) ∨
    ∃ m ∈ p.declared, ∃ w, ms.get? m.1 = some w ∧
      x ∈ (run m.2 (place.child m.1) w).violations := by
  rcases mem_andThen h with h | h
  · rcases mem_andThen h with h | h
    · obtain ⟨m, hm, h⟩ := mem_each h
      split at h
      next w hget => exact Or.inr ⟨m, List.mem_append_left _ hm, w, hget, h⟩
      next hget =>
        refine Or.inl ⟨[], m.2.path, .missing hm hget, ?_⟩
        rw [Pointer.extend_nil]
        exact mem_reject.mp h
    · obtain ⟨m, hm, h⟩ := mem_each h
      split at h
      next w hget => exact Or.inr ⟨m, List.mem_append_right _ hm, w, hget, h⟩
      next => cases h
  · unfold undeclared at h
    split at h
    next => cases h
    next hadditional =>
      obtain ⟨key, hkey, h⟩ := mem_each h
      obtain ⟨hcondition, rfl⟩ := mem_check h
      obtain ⟨htag, hdeclares⟩ := Bool.or_eq_false_iff.mp hcondition
      exact Or.inl ⟨[key], keyword, .undeclared (by simpa using hadditional)
        hkey (of_decide_eq_false htag) hdeclares, rfl⟩

/-- A violation of an object with a tag is the discriminator's own, or is found in
the value of a member that the selected branch declares. -/
theorem mem_discriminator {tag : String}
    {branches : List (String × Program.Branch)}
    (h : x ∈
      (discriminator config run path place ms tag branches).violations) :
    (∃ segments reason,
      (Program.Form.discriminator tag branches).Rejects config path (.obj ms)
        segments reason ∧ x = ⟨place.extend segments, reason⟩) ∨
    ∃ n segments w,
      (Program.Form.discriminator tag branches).GoesOn target (.obj ms) n
        segments w ∧ x ∈ (run n (place.extend segments) w).violations := by
  unfold discriminator at h
  split at h
  next hget =>
    refine Or.inl ⟨[], _, .untagged hget, ?_⟩
    rw [Pointer.extend_nil]
    exact mem_reject.mp h
  next value hget =>
    split at h
    next branch hbranch =>
      rcases mem_properties h with
          ⟨segments, reason, hrejects, rfl⟩ | ⟨m, hm, w, hw, h⟩
      · exact Or.inl ⟨segments, reason, .branch hget hbranch hrejects, rfl⟩
      · exact Or.inr ⟨m.2, [m.1], w, .branch hget hbranch hm hw, h⟩
    next hnone =>
      exact Or.inl ⟨[tag], _, .unmapped hget hnone, mem_reject.mp h⟩
  next w hnot hget =>
    refine Or.inl ⟨[tag], _, .unnamed hget ?_, mem_reject.mp h⟩
    rintro s rfl
    exact hnot s rfl

/-- A violation of a form is its own, or is found at a node that the form goes on
to. -/
theorem mem_form {f : Program.Form}
    (h : x ∈ (form config target run path place v f).violations) :
    (∃ segments reason, f.Rejects config path v segments reason ∧
      x = ⟨place.extend segments, reason⟩) ∨
    ∃ n segments w, f.GoesOn target v n segments w ∧
      x ∈ (run n (place.extend segments) w).violations := by
  have hown : ∀ {reason}, f.Rejects config path v [] reason →
      x ∈ (reject config place reason).violations →
      ∃ segments reason, f.Rejects config path v segments reason ∧
        x = ⟨place.extend segments, reason⟩ := by
    intro reason hrejects hx
    refine ⟨[], reason, hrejects, ?_⟩
    rw [Pointer.extend_nil]
    exact mem_reject.mp hx
  cases f with
  | empty => cases h
  | ref i =>
      refine Or.inr ⟨_, [], v, .ref, ?_⟩
      rw [Pointer.extend_nil]
      exact h
  | type kind =>
      obtain ⟨hfalse, hx⟩ := mem_check h
      exact Or.inl (hown (.type hfalse) (mem_reject.mpr hx))
  | enum values =>
      obtain ⟨hfalse, hx⟩ := mem_check h
      refine Or.inl (hown (.enum ?_) (mem_reject.mpr hx))
      rintro s hs rfl
      exact of_decide_eq_false hfalse hs
  | elements item =>
      by_cases harr : ∃ items, v = .arr items
      · obtain ⟨items, rfl⟩ := harr
        obtain ⟨⟨w, i⟩, hm, h⟩ := mem_each h
        have hget := List.mk_mem_zipIdx_iff_getElem?.mp hm
        exact Or.inr ⟨item, [toString i], w, .item hget, h⟩
      · have hne : ∀ items, v ≠ .arr items := fun items hv => harr ⟨items, hv⟩
        refine Or.inl (hown (.elements hne) ?_)
        cases v with
        | arr items => exact absurd rfl (hne items)
        | _ => exact h
  | values item =>
      by_cases hobj : ∃ ms, v = .obj ms
      · obtain ⟨ms, rfl⟩ := hobj
        obtain ⟨⟨key, w⟩, hm, h⟩ := mem_each h
        exact Or.inr ⟨item, [key], w, .value hm, h⟩
      · have hne : ∀ ms, v ≠ .obj ms := fun ms hv => hobj ⟨ms, hv⟩
        refine Or.inl (hown (.values hne) ?_)
        cases v with
        | obj ms => exact absurd rfl (hne ms)
        | _ => exact h
  | properties p =>
      by_cases hobj : ∃ ms, v = .obj ms
      · obtain ⟨ms, rfl⟩ := hobj
        rcases mem_properties h with
            ⟨segments, reason, hrejects, rfl⟩ | ⟨m, hm, w, hget, h⟩
        · exact Or.inl ⟨segments, reason, .member hrejects, rfl⟩
        · exact Or.inr ⟨m.2, [m.1], w, .member hm hget, h⟩
      · have hne : ∀ ms, v ≠ .obj ms := fun ms hv => hobj ⟨ms, hv⟩
        refine Or.inl (hown (.properties hne) ?_)
        cases v with
        | obj ms => exact absurd rfl (hne ms)
        | _ => exact h
  | discriminator tag branches =>
      by_cases hobj : ∃ ms, v = .obj ms
      · obtain ⟨ms, rfl⟩ := hobj
        exact mem_discriminator h
      · have hne : ∀ ms, v ≠ .obj ms := fun ms hv => hobj ⟨ms, hv⟩
        refine Or.inl (hown (.discriminator hne) ?_)
        cases v with
        | obj ms => exact absurd rfl (hne ms)
        | _ => exact h

end

/-- A violation found at a node is its form's own, or is found one level down. -/
theorem mem_node {depth : ℕ} {n : Program.Node} {v : Value}
    (h : x ∈ (node config target (depth + 1) n place v).violations) :
    (∃ segments reason, n.form.Rejects config n.path v segments reason ∧
      x = ⟨place.extend segments, reason⟩) ∨
    ∃ m segments w, n.form.GoesOn target v m segments w ∧
      x ∈ (node config target depth m (place.extend segments) w).violations := by
  unfold node at h
  split at h
  next => cases h
  next => exact mem_form h

end Validator
end JsonTypedef
