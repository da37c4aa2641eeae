import JsonTypedef.Config
import JsonTypedef.Proofs.Json.Distinct
import JsonTypedef.Proofs.Json.Exact
import JsonTypedef.Proofs.Schema.Checked
import JsonTypedef.Timestamp.Basic

/-!
# Conformance

`Conforms` is the least relation between the schemas of a document and the
values that conform to them.  It knows neither programs nor depths.
-/

namespace JsonTypedef

/-- A number conforms to a numeric type: every number to a float type, and to
an integer type what is a whole number in its range, however the number is
stored. -/
inductive NumberConforms (config : Config) (n : Number) : TypeKind → Prop
  | float32 : NumberConforms config n .float32
  | float64 : NumberConforms config n .float64
  | integer {kind : TypeKind} {low high z : ℤ} :
      kind.bounds? = some (low, high) → n.exact = z →
        (config.int32Range = true ∨ (kind ≠ .int32 ∧ kind ≠ .uint32) →
          low ≤ z ∧ z ≤ high) →
          NumberConforms config n kind

/-- A value conforms to a primitive type. -/
inductive TypeConforms (config : Config) : TypeKind → Value → Prop
  | boolean {b : Bool} : TypeConforms config .boolean (.bool b)
  | string {s : String} : TypeConforms config .string (.str s)
  | timestamp {s : String} :
      Timestamp.accepts config.allowDate s = true →
      TypeConforms config .timestamp (.str s)
  | number {kind : TypeKind} {n : Number} :
      NumberConforms config n kind → TypeConforms config kind (.num n)

/-- The members besides those of one name. -/
def Members.without (ms : Members) (tag : String) : Members :=
  ms.filter fun m => m.1 ≠ tag

/-- A branch as a schema of its own. -/
def Branch.schema (branch : Branch) : Schema :=
  ⟨false, branch.metadata, .properties branch.properties⟩

/-- A value conforms to a schema of a document. -/
inductive Conforms (config : Config) (document : Document) :
    Schema → Value → Prop
  | null {s : Schema} : s.nullable = true → Conforms config document s .null
  | empty {s : Schema} {v : Value} :
      s.form = .empty → Conforms config document s v
  | ref {s d : Schema} {name : String} {v : Value} :
      s.form = .ref name → document.definition? name = some d →
        Conforms config document d v → Conforms config document s v
  | type {s : Schema} {kind : TypeKind} {v : Value} :
      s.form = .type kind → TypeConforms config kind v →
      Conforms config document s v
  | enum {s : Schema} {values : List String} {value : String} :
      s.form = .enum values → value ∈ values →
      Conforms config document s (.str value)
  | elements {s item : Schema} {items : List Value} :
      s.form = .elements item → (∀ v ∈ items, Conforms config document item v) →
        Conforms config document s (.arr items)
  | values {s item : Schema} {ms : Members} :
      s.form = .values item → (∀ m ∈ ms, Conforms config document item m.2) →
        Conforms config document s (.obj ms)
  | properties {s : Schema} {p : Properties} {ms : Members} :
      s.form = .properties p → (∀ m ∈ p.required, m.1 ∈ ms.keys) →
        (∀ m ∈ p.declared, ∀ v, ms.get? m.1 = some v →
          Conforms config document m.2 v) →
          (p.additional = false → ∀ key ∈ ms.keys, key ∈ p.names) →
            Conforms config document s (.obj ms)
  | discriminator {s : Schema} {tag value : String}
      {mapping : List (String × Branch)}
      {branch : Branch} {ms : Members} :
      s.form = .discriminator tag mapping → ms.get? tag = some (.str value) →
        List.lookup value mapping = some branch →
          Conforms config document branch.schema (.obj (ms.without tag)) →
            Conforms config document s (.obj ms)

/-! ## Primitive types -/

theorem TypeKind.isWide_iff {kind : TypeKind} :
    kind.isWide = true ↔ kind = .int32 ∨ kind = .uint32 := by
  cases kind <;> decide

theorem TypeKind.eq_float_of_bounds_none {kind : TypeKind}
    (hbounds : kind.bounds? = none) (hnumeric : kind.isNumeric = true) :
    kind = .float32 ∨ kind = .float64 := by
  revert hbounds hnumeric
  cases kind <;> decide

/-- What a type admits among the numbers is what conforms to it. -/
theorem acceptsNumber_iff {config : Config} {kind : TypeKind} {n : Number} :
    kind.acceptsNumber config.int32Range n = true ↔
      NumberConforms config n kind := by
  unfold TypeKind.acceptsNumber
  constructor
  · intro h
    split at h
    next hbounds =>
      rcases TypeKind.eq_float_of_bounds_none hbounds h with rfl | rfl
      · exact .float32
      · exact .float64
    next low high hbounds =>
      obtain ⟨hintegral, hrange⟩ := Bool.and_eq_true_iff.mp h
      obtain ⟨z, hz⟩ := Number.isIntegral_iff.mp hintegral
      refine .integer hbounds hz fun hchecked => ?_
      rcases Bool.or_eq_true_iff.mp hrange with hwide | hwithin
      · obtain ⟨hoff, hkind⟩ := Bool.and_eq_true_iff.mp hwide
        rcases hchecked with hon | hnarrow
        · rw [hon] at hoff
          cases hoff
        · rcases TypeKind.isWide_iff.mp hkind with rfl | rfl
          · exact absurd rfl hnarrow.1
          · exact absurd rfl hnarrow.2
      · rw [Number.isWithin_iff, hz] at hwithin
        exact_mod_cast hwithin
  · intro h
    cases h with
    | float32 => rfl
    | float64 => rfl
    | @integer _ low high z hbounds hz hrange =>
        rw [hbounds]
        refine Bool.and_eq_true_iff.mpr ⟨Number.isIntegral_iff.mpr ⟨z, hz⟩, ?_⟩
        by_cases hchecked : config.int32Range = true ∨
          (kind ≠ .int32 ∧ kind ≠ .uint32)
        · refine Bool.or_eq_true_iff.mpr (Or.inr ?_)
          rw [Number.isWithin_iff, hz]
          exact_mod_cast hrange hchecked
        · obtain ⟨hoff, hwide⟩ := not_or.mp hchecked
          refine Bool.or_eq_true_iff.mpr (Or.inl ?_)
          rw [Bool.not_eq_true] at hoff
          rw [hoff, TypeKind.isWide_iff.mpr (by tauto)]
          rfl

/-! ## Members besides the tag -/

namespace Members

variable {ms : Members} {tag key : String}

theorem mem_keys_without :
    key ∈ (ms.without tag).keys ↔ key ∈ ms.keys ∧ key ≠ tag := by
  simp only [mem_keys, without, List.mem_filter, decide_eq_true_eq]
  exact ⟨fun ⟨v, hv, hne⟩ => ⟨⟨v, hv⟩, hne⟩, fun ⟨⟨v, hv⟩, hne⟩ => ⟨v, hv, hne⟩⟩

theorem get?_without (h : key ≠ tag) :
    (ms.without tag).get? key = ms.get? key := by
  induction ms with
  | nil => rfl
  | cons m ms ih =>
      obtain ⟨name, v⟩ := m
      by_cases hname : name = tag
      · have hwithout : without ((name, v) :: ms) tag = without ms tag := by
          simp [without, hname]
        rw [hwithout, ih, get?_cons, if_neg]
        rw [hname]
        exact h.symm
      · have hwithout :
            without ((name, v) :: ms) tag = (name, v) :: without ms tag := by
          simp [without, hname]
        rw [hwithout, get?_cons, get?_cons, ih]

end Members
end JsonTypedef
