import JsonTypedef.Proofs.Program.Compiled
import Std.Data.HashMap.Lemmas

/-!
# Indexes of names

Members and branches can be looked up through hash indexes that lead from a
name to a place.  An index takes the names in order, and a later entry
overwrites an earlier one of the same name.  Where names are used once nothing
is overwritten, and the index leads to what the search by name finds.
-/

namespace JsonTypedef
namespace Program

section

variable {α : Type} {l : List (String × α)}

/-- A map made from a list without repeated names holds the list's entries. -/
theorem getElem?_ofList (hnodup : (l.map Prod.fst).Nodup) (key : String) :
    (Std.HashMap.ofList l)[key]? = List.lookup key l := by
  cases hlookup : List.lookup key l with
  | none =>
      apply Std.HashMap.getElem?_ofList_of_contains_eq_false
      have hmem : key ∉ l.map Prod.fst := by
        rw [← lookup_isSome_iff, hlookup]
        simp
      simpa using hmem
  | some a =>
      have hdistinct : l.Pairwise fun a b => (a.1 == b.1) = false := by
        simpa [List.Nodup, List.pairwise_map] using hnodup
      exact Std.HashMap.getElem?_ofList_of_mem (beq_self_eq_true key)
        hdistinct (mem_of_lookup hlookup)

/-- The names of a list's entries with their places. -/
def places (l : List (String × α)) : List (String × ℕ) :=
  (l.map Prod.fst).zipIdx

theorem map_fst_places : (places l).map Prod.fst = l.map Prod.fst :=
  List.zipIdx_map_fst 0 _

theorem getElem?_of_mem_places {key : String} {i : ℕ}
    (h : (key, i) ∈ places l) : ∃ a, l[i]? = some (key, a) := by
  have hname : (l.map Prod.fst)[i]? = some key :=
    List.mk_mem_zipIdx_iff_getElem?.mp h
  rw [List.getElem?_map] at hname
  obtain ⟨⟨name, a⟩, hget, rfl⟩ := Option.map_eq_some_iff.mp hname
  exact ⟨a, hget⟩

end

/-! ## Members -/

/-- The place of a member among the required or the optional ones. -/
inductive Slot
  | required (i : ℕ)
  | optional (i : ℕ)
deriving DecidableEq

namespace Properties

variable {p : Properties} {key : String}

/-- The slots of all declared members under the members' names. -/
def slots (p : Properties) : List (String × Slot) :=
  (places p.required).map (fun e => (e.1, .required e.2)) ++
    (places p.optional).map fun e => (e.1, .optional e.2)

/-- The index that leads from a member's name to its slot. -/
def index (p : Properties) : Std.HashMap String Slot :=
  .ofList p.slots

/-- The member in a slot. -/
def inSlot? (p : Properties) : Slot → Option (String × Node)
  | .required i => p.required[i]?
  | .optional i => p.optional[i]?

/-- Members are declared once, and the index leads from the declared names, and
from no others, to their members. -/
structure Indexed (p : Properties) : Prop where
  nodup : p.names.Nodup
  mem_iff : ∀ key, key ∈ p.index ↔ p.declares key = true
  member : ∀ key slot, p.index[key]? = some slot →
    ∃ n, p.inSlot? slot = some (key, n) ∧ p.member? key = some n

theorem map_fst_slots : p.slots.map Prod.fst = p.names := by
  rw [slots, names, declared, List.map_append, List.map_append, List.map_map,
    List.map_map]
  exact congrArg₂ (· ++ ·) map_fst_places map_fst_places

theorem inSlot?_of_mem_slots {slot : Slot} (h : (key, slot) ∈ p.slots) :
    ∃ n, p.inSlot? slot = some (key, n) := by
  rcases List.mem_append.mp h with h | h
  · obtain ⟨⟨name, i⟩, hmem, heq⟩ := List.mem_map.mp h
    cases heq
    exact getElem?_of_mem_places hmem
  · obtain ⟨⟨name, i⟩, hmem, heq⟩ := List.mem_map.mp h
    cases heq
    exact getElem?_of_mem_places hmem

theorem mem_of_inSlot? {slot : Slot} {m : String × Node}
    (h : p.inSlot? slot = some m) : m ∈ p.declared := by
  cases slot with
  | required i => exact List.mem_append_left _ (List.mem_of_getElem? h)
  | optional i => exact List.mem_append_right _ (List.mem_of_getElem? h)

theorem getElem?_index (hnodup : p.names.Nodup) (key : String) :
    p.index[key]? = List.lookup key p.slots := by
  apply getElem?_ofList
  rwa [map_fst_slots]

theorem indexed (hnodup : p.names.Nodup) : p.Indexed := by
  refine ⟨hnodup, fun key => ?_, fun key slot hslot => ?_⟩
  · rw [← Std.HashMap.isSome_getElem?_iff_mem, getElem?_index hnodup,
      lookup_isSome_iff, map_fst_slots, declares_iff]
  · rw [getElem?_index hnodup] at hslot
    obtain ⟨n, hn⟩ := inSlot?_of_mem_slots (mem_of_lookup hslot)
    exact ⟨n, hn, member?_of_mem hnodup (mem_of_inSlot? hn)⟩

end Properties

/-! ## Branches -/

/-- The index that leads from a tag's value to the place of its branch. -/
def branchIndex (branches : List (String × Branch)) : Std.HashMap String ℕ :=
  .ofList (places branches)

/-- The branch that an index leads to from the value of a tag. -/
def indexedBranch? (branches : List (String × Branch)) (value : String) :
    Option (String × Branch) :=
  (branchIndex branches)[value]?.bind fun i => branches[i]?

variable {branches : List (String × Branch)}

/-- The index of branches leads to what the search by the tag's value finds. -/
theorem indexedBranch?_eq (hnodup : (branches.map Prod.fst).Nodup)
    (value : String) :
    indexedBranch? branches value =
      (List.lookup value branches).map (value, ·) := by
  have hindex : (branchIndex branches)[value]? =
      List.lookup value (places branches) := by
    apply getElem?_ofList
    rwa [map_fst_places]
  rw [indexedBranch?, hindex]
  cases hplace : List.lookup value (places branches) with
  | none =>
      have hnone : List.lookup value branches = none := by
        rw [← Option.not_isSome_iff_eq_none, lookup_isSome_iff,
          ← map_fst_places, ← lookup_isSome_iff, hplace]
        simp
      rw [hnone]
      rfl
  | some i =>
      obtain ⟨branch, hbranch⟩ :=
        getElem?_of_mem_places (mem_of_lookup hplace)
      have hlookup : List.lookup value branches = some branch :=
        lookup_of_mem hnodup (List.mem_of_getElem? hbranch)
      rw [hlookup]
      exact hbranch

end Program
end JsonTypedef
