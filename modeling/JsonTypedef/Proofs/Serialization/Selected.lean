import JsonTypedef.Proofs.Program.Compiled
import JsonTypedef.Proofs.Validation.Fits
import JsonTypedef.Serialization
import Mathlib.Data.List.Nodup

/-!
# The members that a serializer selects

An object that is written along its declarations keeps the tag, the declared
members and, where they are accepted, the others, each of them once.  One that
fits its declarations keeps all of its members.
-/

namespace JsonTypedef
namespace Serializer

open Program

/-- A selected member without its node. -/
def unselect (m : String × Option Node × Value) : String × Value :=
  (m.1, m.2.2)

variable {fits : Node → Value → Prop} {p : Program.Properties}
  {tag : Option String} {ms : Members}

/-- The branch that an object is written along is the one its tag names. -/
theorem branch?_eq_some_iff {tag value : String}
    {branches : List (String × Program.Branch)} {branch : Program.Branch}
    {ms : Members} :
    branch? tag branches ms = some (value, branch) ↔
      ms.get? tag = some (.str value) ∧
        List.lookup value branches = some branch := by
  constructor
  · intro h
    unfold branch? at h
    split at h
    next hget =>
      obtain ⟨b, hlookup, heq⟩ := Option.map_eq_some_iff.mp h
      cases heq
      exact ⟨hget, hlookup⟩
    next => cases h
  · rintro ⟨hget, hlookup⟩
    simp only [branch?, hget, hlookup, Option.map_some]

/-- The selected members that are declared. -/
def selectedDeclared (p : Program.Properties) (ms : Members) :
    List (String × Option Node × Value) :=
  p.declared.filterMap fun m => (ms.get? m.1).map fun v => (m.1, some m.2, v)

/-- The selected members that are not declared. -/
def selectedOthers (p : Program.Properties) (tag : Option String)
    (ms : Members) : List (String × Option Node × Value) :=
  if p.additional then
    (ms.filter fun m => !(tag = some m.1 || p.declares m.1)).map
      fun m => (m.1, none, m.2)
  else []

theorem selected_eq_append :
    selected p tag ms = selectedDeclared p ms ++ selectedOthers p tag ms :=
  rfl

theorem mem_selectedDeclared {m : String × Option Node × Value} :
    m ∈ selectedDeclared p ms ↔
      ∃ n, (m.1, n) ∈ p.declared ∧ m.2.1 = some n ∧
        ms.get? m.1 = some m.2.2 := by
  unfold selectedDeclared
  rw [List.mem_filterMap]
  constructor
  · rintro ⟨d, hd, hm⟩
    obtain ⟨v, hv, rfl⟩ := Option.map_eq_some_iff.mp hm
    exact ⟨d.2, hd, rfl, hv⟩
  · rintro ⟨n, hn, hnode, hv⟩
    refine ⟨(m.1, n), hn, Option.map_eq_some_iff.mpr ⟨m.2.2, hv, ?_⟩⟩
    rw [← hnode]

theorem isOther_iff {key : String} :
    (!(decide (tag = some key) || p.declares key)) = true ↔
      tag ≠ some key ∧ key ∉ p.names := by
  rw [← Properties.declares_iff]
  cases p.declares key <;> simp

theorem mem_selectedOthers {m : String × Option Node × Value} :
    m ∈ selectedOthers p tag ms ↔
      p.additional = true ∧ unselect m ∈ ms ∧ m.2.1 = none ∧
        tag ≠ some m.1 ∧ m.1 ∉ p.names := by
  unfold selectedOthers
  cases hadditional : p.additional with
  | false => simp
  | true =>
      simp only [if_true, List.mem_map, List.mem_filter, true_and]
      constructor
      · rintro ⟨d, ⟨hd, hother⟩, rfl⟩
        exact ⟨hd, rfl, isOther_iff.mp hother⟩
      · rintro ⟨hm, hnone, hother⟩
        refine ⟨unselect m, ⟨hm, isOther_iff.mpr hother⟩, ?_⟩
        rw [← hnone]
        rfl

/-! ## No member is selected twice -/

/-- Declared members come in order of declaration. -/
theorem names_selectedDeclared :
    (selectedDeclared p ms).map Prod.fst =
      p.names.filter fun key => (ms.get? key).isSome := by
  unfold selectedDeclared Program.Properties.names
  induction p.declared with
  | nil => rfl
  | cons d declared ih =>
      rw [List.filterMap_cons, List.map_cons, List.filter_cons]
      cases hget : ms.get? d.1 with
      | none => simpa using ih
      | some v => simpa using ih

theorem names_selectedOthers :
    ((selectedOthers p tag ms).map Prod.fst).Sublist ms.keys := by
  unfold selectedOthers
  split
  next =>
    rw [List.map_map]
    exact List.filter_sublist.map Prod.fst
  next => exact List.nil_sublist _

theorem nodup_selected (hnodup : p.names.Nodup) (hms : ms.keys.Nodup) :
    ((selected p tag ms).map Prod.fst).Nodup := by
  rw [selected_eq_append, List.map_append, List.nodup_append]
  refine ⟨?_, names_selectedOthers.nodup hms, ?_⟩
  · rw [names_selectedDeclared]
    exact hnodup.filter _
  · rintro key hdeclared _ hother rfl
    rw [names_selectedDeclared] at hdeclared
    obtain ⟨m, hm, rfl⟩ := List.mem_map.mp hother
    exact (mem_selectedOthers.mp hm).2.2.2.2 (List.mem_of_mem_filter hdeclared)

/-! ## The members that are written

The tag is no selected member; where an object has one, it is written in front
of these. -/

/-- The member that is the tag. -/
def tagMember (tag : Option String) (ms : Members) :
    List (String × Option Node × Value) :=
  tag.toList.filterMap fun key => (ms.get? key).map fun v => (key, none, v)

/-- The members that an object is written with. -/
def writtenMembers (p : Program.Properties) (tag : Option String)
    (ms : Members) : List (String × Option Node × Value) :=
  tagMember tag ms ++ selected p tag ms

/-- The member named `key` stays in an object that is written along its
declarations. -/
def keeps (p : Program.Properties) (tag : Option String) (key : String) :
    Bool :=
  p.additional || tag = some key || p.declares key

theorem mem_tagMember {m : String × Option Node × Value} :
    m ∈ tagMember tag ms ↔
      tag = some m.1 ∧ m.2.1 = none ∧ ms.get? m.1 = some m.2.2 := by
  obtain ⟨key, n, v⟩ := m
  cases tag with
  | none => simp [tagMember]
  | some t =>
      simp only [tagMember, Option.toList_some, List.mem_filterMap,
        List.mem_singleton, Option.map_eq_some_iff, Prod.mk.injEq,
        Option.some.injEq]
      constructor
      · rintro ⟨_, rfl, v', hv, rfl, rfl, rfl⟩
        exact ⟨rfl, rfl, hv⟩
      · rintro ⟨rfl, rfl, hv⟩
        exact ⟨t, rfl, v, hv, rfl, rfl, rfl⟩

theorem keeps_iff {key : String} :
    keeps p tag key = true ↔
      p.additional = true ∨ tag = some key ∨ key ∈ p.names := by
  rw [← Properties.declares_iff]
  simp [keeps, or_assoc]

/-- Exactly the members that stay are written. -/
theorem mem_writtenMembers (hms : ms.keys.Nodup) {m : String × Value} :
    (∃ n, (m.1, n, m.2) ∈ writtenMembers p tag ms) ↔
      m ∈ ms ∧ keeps p tag m.1 = true := by
  simp only [writtenMembers, selected_eq_append, List.mem_append, keeps_iff]
  constructor
  · rintro ⟨n, hm | hm | hm⟩
    · obtain ⟨htag, -, hget⟩ := mem_tagMember.mp hm
      exact ⟨Members.mem_of_get? hget, Or.inr (Or.inl htag)⟩
    · obtain ⟨n, hn, -, hget⟩ := mem_selectedDeclared.mp hm
      exact ⟨Members.mem_of_get? hget,
        Or.inr (Or.inr (List.mem_map.mpr ⟨(m.1, n), hn, rfl⟩))⟩
    · obtain ⟨hadditional, hmem, -⟩ := mem_selectedOthers.mp hm
      exact ⟨hmem, Or.inl hadditional⟩
  · rintro ⟨hm, hkeeps⟩
    have hget := Members.get?_of_mem hms hm
    by_cases hname : m.1 ∈ p.names
    · obtain ⟨⟨key, n⟩, hn, hkey⟩ := List.mem_map.mp hname
      obtain rfl : key = m.1 := hkey
      exact ⟨some n,
        Or.inr (Or.inl (mem_selectedDeclared.mpr ⟨n, hn, rfl, hget⟩))⟩
    by_cases htag : tag = some m.1
    · exact ⟨none, Or.inl (mem_tagMember.mpr ⟨htag, rfl, hget⟩)⟩
    · have hadditional := hkeeps.resolve_right (not_or.mpr ⟨htag, hname⟩)
      exact ⟨none, Or.inr (Or.inr
        (mem_selectedOthers.mpr ⟨hadditional, hm, rfl, htag, hname⟩))⟩

section

variable (hnames : p.names.Nodup) (htag : ∀ key ∈ tag, key ∉ p.names)

include hnames htag

/-- A member is written along the node it is declared with. -/
theorem member?_of_writtenMembers {m : String × Option Node × Value}
    (hm : m ∈ writtenMembers p tag ms) : p.member? m.1 = m.2.1 := by
  have hundeclared : m.1 ∉ p.names → p.member? m.1 = none := fun hname =>
    Option.not_isSome_iff_eq_none.mp
      (fun hsome => hname (Properties.member?_isSome_iff.mp hsome))
  rw [writtenMembers, selected_eq_append, List.mem_append,
    List.mem_append] at hm
  rcases hm with hm | hm | hm
  · obtain ⟨heq, hnone, -⟩ := mem_tagMember.mp hm
    rw [hnone]
    exact hundeclared (htag m.1 heq)
  · obtain ⟨n, hn, hsome, -⟩ := mem_selectedDeclared.mp hm
    rw [hsome]
    exact Properties.member?_of_mem hnames hn
  · obtain ⟨-, -, hnone, -, hname⟩ := mem_selectedOthers.mp hm
    rw [hnone]
    exact hundeclared hname

theorem nodup_writtenMembers (hms : ms.keys.Nodup) :
    ((writtenMembers p tag ms).map Prod.fst).Nodup := by
  have hselected : ((selected p tag ms).map Prod.fst).Nodup :=
    nodup_selected hnames hms
  cases tag with
  | none => exact hselected
  | some key =>
      unfold writtenMembers tagMember
      cases hget : ms.get? key with
      | none => simpa [hget] using hselected
      | some v =>
          simp only [Option.toList_some, List.filterMap_cons, hget,
            Option.map_some, List.filterMap_nil, List.cons_append,
            List.nil_append, List.map_cons, List.nodup_cons]
          refine ⟨fun hkey => ?_, hselected⟩
          obtain ⟨m, hm, hname⟩ := List.mem_map.mp hkey
          rw [selected_eq_append] at hm
          rcases List.mem_append.mp hm with hm | hm
          · obtain ⟨n, hn, -⟩ := mem_selectedDeclared.mp hm
            exact htag key rfl
              (hname ▸ List.mem_map.mpr ⟨(m.1, n), hn, rfl⟩)
          · exact (mem_selectedOthers.mp hm).2.2.2.1 (congrArg some hname.symm)

/-- An object is written with the members that stay, in another order. -/
theorem perm_writtenMembers (hms : ms.keys.Nodup) :
    (ms.filter fun m => keeps p tag m.1).Perm
      ((writtenMembers p tag ms).map unselect) := by
  have hkeys : Members.keys ((writtenMembers p tag ms).map unselect) =
      (writtenMembers p tag ms).map Prod.fst := by
    rw [Members.keys, List.map_map]
    rfl
  have hwritten := nodup_writtenMembers hnames htag hms
  rw [← hkeys] at hwritten
  have hfilter : (ms.filter fun m => keeps p tag m.1).Nodup :=
    List.Nodup.filter _ (List.Nodup.of_map Prod.fst hms)
  refine (List.perm_ext_iff_of_nodup hfilter
    (List.Nodup.of_map Prod.fst hwritten)).mpr fun m => ?_
  rw [List.mem_filter, ← mem_writtenMembers hms, List.mem_map]
  constructor
  · rintro ⟨n, hm⟩
    exact ⟨_, hm, rfl⟩
  · rintro ⟨⟨key, n, v⟩, hm, rfl⟩
    exact ⟨n, hm⟩

end

/-- All members of an object that fits its declarations stay. -/
theorem filter_keeps_eq_self (h : PropertiesFit fits p tag ms) :
    (ms.filter fun m => keeps p tag m.1) = ms := by
  refine List.filter_eq_self.mpr fun m hm => keeps_iff.mpr ?_
  cases hadditional : p.additional with
  | true => exact Or.inl rfl
  | false =>
      have hkey : m.1 ∈ ms.keys := Members.mem_keys.mpr ⟨m.2, hm⟩
      exact Or.inr ((h.declared hadditional m.1 hkey).imp_right
        Properties.declares_iff.mp)

end Serializer
end JsonTypedef
