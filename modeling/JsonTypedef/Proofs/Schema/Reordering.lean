import JsonTypedef.Proofs.Json.Reordering
import JsonTypedef.Proofs.Schema.Grammar

/-!
# Schema documents in another order

The grammar of schema documents looks keywords up by name and asks the same of
all entries of a table, so that it does not see the order of members.
-/

namespace JsonTypedef
namespace Value

namespace Rearranged

variable {v w : Value} {ms ns : List (String × Value)} {keyword : String}

theorem exists_obj (h : (Value.obj ms).Rearranged w) : ∃ ns, w = .obj ns := by
  cases h.same with
  | obj _ _ => exact ⟨_, rfl⟩

theorem isObject (h : v.Rearranged w) (hv : v.IsObject) : w.IsObject := by
  obtain ⟨ms, rfl⟩ := hv
  exact h.exists_obj

theorem isBoolean (h : v.Rearranged w) (hv : v.IsBoolean) : w.IsBoolean := by
  obtain ⟨b, rfl⟩ := hv
  cases h.same
  exact ⟨b, rfl⟩

variable (h : (Value.obj ms).Rearranged (.obj ns))

include h

theorem mem_keys_iff : keyword ∈ Members.keys ms ↔ keyword ∈ Members.keys ns :=
  h.keys_perm.mem_iff

theorem exists_get? (hget : Members.get? ms keyword = some v) :
    ∃ w, Members.get? ns keyword = some w ∧ v.Rearranged w := by
  have hrel := h.get?_rel keyword
  rw [hget] at hrel
  generalize Members.get? ns keyword = w at hrel ⊢
  cases hrel with
  | some hvw => exact ⟨_, rfl, hvw⟩

theorem of_get? (hget : Members.get? ms keyword = some v)
    (hget' : Members.get? ns keyword = some w) : v.Rearranged w := by
  have hrel := h.get?_rel keyword
  rw [hget, hget'] at hrel
  cases hrel with
  | some hvw => exact hvw

theorem get?_str {s : String} (hget : Members.get? ms keyword = some (.str s)) :
    Members.get? ns keyword = some (.str s) := by
  obtain ⟨w, hw, hsame⟩ := h.exists_get? hget
  rw [hw]
  cases hsame.same
  rfl

theorem get?_strings {values : List String}
    (hget : Members.get? ms keyword = some (.arr (values.map .str))) :
    Members.get? ns keyword = some (.arr (values.map .str)) := by
  obtain ⟨w, hw, hsame⟩ := h.exists_get? hget
  rw [hw]
  cases hsame.same with
  | @arr _ ws hforall =>
      have hws : values.map Value.str = ws := by
        rw [← List.forall₂_eq_eq_eq, List.forall₂_map_left_iff]
        refine (List.forall₂_map_left_iff.mp hforall).imp ?_
        rintro s _ ⟨⟩
        rfl
      rw [hws]

/-- What is asked of the value under a keyword, if there is one. -/
theorem forall_get? {holds : Value → Prop}
    (hholds : ∀ v w, v.Rearranged w → holds v → holds w)
    (hms : ∀ v ∈ Members.get? ms keyword, holds v) :
    ∀ w ∈ Members.get? ns keyword, holds w := by
  intro w hw
  obtain ⟨v, hv, hsame⟩ := h.symm.exists_get? hw
  exact hholds v w hsame.symm (hms v hv)

theorem flag_eq : Members.flag ms keyword = Members.flag ns keyword := by
  have hrel := h.get?_rel keyword
  unfold Members.flag
  generalize Members.get? ms keyword = v at hrel ⊢
  generalize Members.get? ns keyword = w at hrel ⊢
  cases hrel with
  | none => rfl
  | some hvw =>
      cases hvw.same
      all_goals rfl

theorem has_eq : Members.has ms keyword = Members.has ns keyword := by
  rw [Bool.eq_iff_iff, Members.has_iff, Members.has_iff]
  exact h.mem_keys_iff

theorem table : Shuffled (Named Rearranged) (Members.table ms keyword)
    (Members.table ns keyword) := by
  have hrel := h.get?_rel keyword
  unfold Members.table Members.object?
  generalize Members.get? ms keyword = v at hrel ⊢
  generalize Members.get? ns keyword = w at hrel ⊢
  cases hrel with
  | none => exact .of_forall₂ .nil
  | some hvw =>
      cases hsame : hvw.same with
      | obj _ _ => exact hvw.members
      | _ => exact .of_forall₂ .nil

theorem table_keys : (Members.table ms keyword).keys.Perm
    (Members.table ns keyword).keys :=
  h.table.names_perm

end Rearranged

/-! ## The grammar -/

variable {v w : Value} {ms ns : List (String × Value)} {isRoot : Bool}
    {names names' keywords : List String} {tag : String}

theorem Rearranged.limited (h : (Value.obj ms).Rearranged (.obj ns))
    (hms : Members.Limited isRoot ms keywords) :
    Members.Limited isRoot ns keywords where
  uses key hkey := hms.uses key (h.mem_keys_iff.mpr hkey)
  nullable := h.forall_get? (fun _ _ => isBoolean) hms.nullable
  metadata := h.forall_get? (fun _ _ => isObject) hms.metadata

theorem IsBranch.rearranged (hv : v.IsBranch tag) (h : v.Rearranged w) :
    w.IsBranch tag := by
  obtain ⟨ms, rfl, hnullable, hpresent, hrequired, hoptional⟩ := hv
  obtain ⟨ns, rfl⟩ := h.exists_obj
  refine ⟨ns, rfl, fun hget => hnullable ?_, ?_, ?_, ?_⟩
  · obtain ⟨v, hv, hsame⟩ := h.symm.exists_get? hget
    rw [hv]
    cases hsame.same
    rfl
  · rwa [← h.mem_keys_iff, ← h.mem_keys_iff]
  · rwa [← h.table_keys.mem_iff]
  · rwa [← h.table_keys.mem_iff]

theorem IsSchema.rearranged (hsub : names ⊆ names')
    (hv : v.IsSchema names isRoot) (h : v.Rearranged w) :
    w.IsSchema names' isRoot := by
  induction hv generalizing w with
  | empty hlimited =>
      obtain ⟨ns, rfl⟩ := h.exists_obj
      exact .empty (h.limited hlimited)
  | ref hlimited hget hmem =>
      obtain ⟨ns, rfl⟩ := h.exists_obj
      exact .ref (h.limited hlimited) (h.get?_str hget) (hsub hmem)
  | type hlimited hget =>
      obtain ⟨ns, rfl⟩ := h.exists_obj
      exact .type (h.limited hlimited) (h.get?_str hget)
  | enum hlimited hget hne hnodup =>
      obtain ⟨ns, rfl⟩ := h.exists_obj
      exact .enum (h.limited hlimited) (h.get?_strings hget) hne hnodup
  | elements hlimited hget _ ih =>
      obtain ⟨ns, rfl⟩ := h.exists_obj
      obtain ⟨item, hitem, hsame⟩ := h.exists_get? hget
      exact .elements (h.limited hlimited) hitem (ih hsame)
  | values hlimited hget _ ih =>
      obtain ⟨ns, rfl⟩ := h.exists_obj
      obtain ⟨item, hitem, hsame⟩ := h.exists_get? hget
      exact .values (h.limited hlimited) hitem (ih hsame)
  | properties hlimited hpresent hrequired hoptional hboolean _ _ hdisjoint
      ihrequired ihoptional =>
      obtain ⟨ns, rfl⟩ := h.exists_obj
      refine .properties (h.limited hlimited) ?_
        (h.forall_get? (fun _ _ => Rearranged.isObject) hrequired)
        (h.forall_get? (fun _ _ => Rearranged.isObject) hoptional)
        (h.forall_get? (fun _ _ => Rearranged.isBoolean) hboolean)
        (h.table.forall_contents fun e he _ => ihrequired e he)
        (h.table.forall_contents fun e he _ => ihoptional e he) ?_
      · rwa [← h.mem_keys_iff, ← h.mem_keys_iff]
      · intro name hname hname'
        exact hdisjoint name (h.table_keys.mem_iff.mpr hname)
          (h.table_keys.mem_iff.mpr hname')
  | @discriminator _ ms mapping tag hlimited hget hmapping _ hbranches ih =>
      obtain ⟨ns, rfl⟩ := h.exists_obj
      obtain ⟨w, hmapping', hsame⟩ := h.exists_get? hmapping
      obtain ⟨mapping', rfl⟩ := hsame.exists_obj
      refine .discriminator (h.limited hlimited) (h.get?_str hget) hmapping'
        (hsame.members.forall_contents fun e he _ => ih e he)
        (hsame.members.forall_contents fun e he _ => ?_)
      exact (hbranches e he).rearranged

/-- Schema documents remain so when members change places. -/
theorem IsDocument.rearranged (hv : v.IsDocument) (h : v.Rearranged w) :
    w.IsDocument := by
  obtain ⟨ms, rfl, hobject, hdefinitions, hroot⟩ := hv
  obtain ⟨ns, rfl⟩ := h.exists_obj
  have hsub : (Members.table ms "definitions").keys ⊆
      (Members.table ns "definitions").keys := h.table_keys.subset
  refine ⟨ns, rfl, h.forall_get? (fun _ _ => Rearranged.isObject) hobject,
    h.table.forall_contents fun d hd _ hsame => ?_, hroot.rearranged hsub h⟩
  exact (hdefinitions d hd).rearranged hsub hsame

end Value

/-- The checker accepts a document again when its members change places. -/
theorem Document.exists_ofValue_of_rearranged {v w : Value} {document : Document}
    (hdocument : ofValue v = .ok document) (h : v.Rearranged w) :
    ∃ document', ofValue w = .ok document' := by
  have hv : v.IsDocument := isDocument_of_ofValue hdocument
  exact exists_ofValue_of_isDocument (hv.rearranged h)

end JsonTypedef
