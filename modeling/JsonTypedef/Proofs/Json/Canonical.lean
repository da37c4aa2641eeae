import JsonTypedef.Json.Canonical
import JsonTypedef.Proofs.Json.Quoted
import JsonTypedef.Proofs.Json.Reordering
import Mathlib.Data.List.Nodup

/-!
# Canonical texts of rearranged values

Members are sorted by their written names, and different names are written
differently.  So values that differ in the order of members alone have one
canonical text.
-/

namespace JsonTypedef

/-- Different strings are written differently. -/
theorem Quoted.encode_injective {a b : String} (h : encode a = encode b) :
    a = b := by
  have htexts : a.toList.flatMap encodeChar ++ ['"'] =
      b.toList.flatMap encodeChar ++ ['"'] := List.tail_eq_of_cons_eq h
  obtain ⟨s, -, hread⟩ := read_of_written (written_encode a.toList []) 0
  obtain ⟨s', -, hread'⟩ := read_of_written (written_encode b.toList []) 0
  rw [htexts, hread'] at hread
  have hchars : b.toList = a.toList := congrArg Prod.fst (Except.ok.inj hread)
  exact String.toList_injective hchars.symm

namespace Value

/-! ## The order of written names -/

theorem nameLe_trans {a b c : String × List Char} (hab : nameLe a b = true)
    (hbc : nameLe b c = true) : nameLe a c = true :=
  Std.TransCmp.isLE_trans hab hbc

theorem nameLe_total (a b : String × List Char) :
    (nameLe a b || nameLe b a) = true := by
  unfold nameLe
  rw [← Std.OrientedCmp.isGE_eq_isLE (a := String.ofList (Quoted.encode a.1))]
  cases compare (String.ofList (Quoted.encode a.1))
    (String.ofList (Quoted.encode b.1)) <;> rfl

theorem name_eq_of_nameLe {a b : String × List Char} (hab : nameLe a b = true)
    (hba : nameLe b a = true) : a.1 = b.1 := by
  have heq := Std.LawfulEqCmp.eq_of_compare
    (Std.OrientedCmp.isLE_antisymm hab hba)
  exact Quoted.encode_injective (String.ofList_injective heq)

/-- Sorting forgets the order of members whose names differ. -/
theorem sortedMembers_eq_of_perm {ms ns : List (String × List Char)}
    (hnodup : (ms.map Prod.fst).Nodup) (h : ms.Perm ns) :
    sortedMembers ms = sortedMembers ns := by
  have hsorted : ∀ ms : List (String × List Char),
      (sortedMembers ms).Pairwise fun a b => nameLe a b = true :=
    List.pairwise_mergeSort (fun _ _ _ => nameLe_trans) nameLe_total
  have hperm : (sortedMembers ms).Perm (sortedMembers ns) :=
    ((List.mergeSort_perm ms nameLe).trans h).trans
      (List.mergeSort_perm ns nameLe).symm
  refine hperm.eq_of_pairwise (fun a b ha hb hab hba => ?_) (hsorted ms)
    (hsorted ns)
  have ha := (List.mergeSort_perm ms nameLe).mem_iff.mp ha
  have hb := h.mem_iff.mpr ((List.mergeSort_perm ns nameLe).mem_iff.mp hb)
  exact List.inj_on_of_nodup_map hnodup ha hb (name_eq_of_nameLe hab hba)

/-! ## Values -/

theorem canonicalItems_eq_map (vs : List Value) :
    canonicalItems vs = vs.map canonical := by
  induction vs with
  | nil => rfl
  | cons v vs ih => rw [canonicalItems, ih, List.map_cons]

theorem canonicalMembers_eq_map (ms : List (String × Value)) :
    canonicalMembers ms = ms.map fun m => (m.1, m.2.canonical) := by
  induction ms with
  | nil => rfl
  | cons m ms ih => rw [canonicalMembers, ih, List.map_cons]

theorem Rearranged.canonical_eq {v w : Value} (h : v.Rearranged w) :
    v.canonical = w.canonical := by
  induction v generalizing w with
  | arr items ih =>
      cases hsame : h.same with
      | @arr _ ws _ =>
          have hitems : items.map Value.canonical = ws.map Value.canonical := by
            rw [← List.forall₂_eq_eq_eq, List.forall₂_map_left_iff,
              List.forall₂_map_right_iff]
            exact ((List.forall₂_and_left _ _).mpr ⟨ih, h.items⟩).imp
              fun v w ⟨ih, hvw⟩ => ih hvw
          rw [Value.canonical, Value.canonical, canonicalItems_eq_map,
            canonicalItems_eq_map, hitems]
  | obj members ih =>
      cases hsame : h.same with
      | @obj _ _ ns _ _ =>
          have hmembers : Shuffled (Named fun v w => v.canonical = w.canonical)
              members ns := h.members.imp_mem fun m hm n hnamed =>
            ⟨hnamed.1, ih m hm hnamed.2⟩
          have hperm : (canonicalMembers members).Perm (canonicalMembers ns) := by
            rw [canonicalMembers_eq_map, canonicalMembers_eq_map]
            exact hmembers.perm_map fun m n hnamed =>
              Prod.ext hnamed.1 hnamed.2
          have hnodup : ((canonicalMembers members).map Prod.fst).Nodup := by
            rw [canonicalMembers_eq_map, List.map_map]
            exact h.distinct.nodup_keys
          rw [Value.canonical, Value.canonical,
            sortedMembers_eq_of_perm hnodup hperm]
  | _ =>
      cases h.same
      rfl

end Value
end JsonTypedef
