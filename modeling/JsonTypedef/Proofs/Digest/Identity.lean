import JsonTypedef.Digest.Schema
import JsonTypedef.Proofs.Decimal.ReadBack
import JsonTypedef.Proofs.Json.Canonical

/-!
# What a canonical text identifies

Sorting the members of every object by their written names leaves a value the
same.  Where all numbers are integers, the canonical text is the compact text of
the sorted value.  Compact texts are read back, so that one canonical text
belongs to one sorted value, and to the values that are the same.  As far as
their texts have different digests, so does the schema digest.
-/

namespace JsonTypedef
namespace Value

/-! ## Sorted values -/

/-- Order of members by their written names, whatever their values are. -/
def memberLe (m n : String × Value) : Bool :=
  nameLe (m.1, []) (n.1, [])

mutual

/-- Sort the members of every object by their written names. -/
def sorted : Value → Value
  | .arr items => .arr (sortedItems items)
  | .obj ms => .obj ((sortedBelow ms).mergeSort memberLe)
  | v => v

/-- Sort every value of a list. -/
def sortedItems : List Value → List Value
  | [] => []
  | v :: vs => sorted v :: sortedItems vs

/-- Sort the values of members, which stay in their order. -/
def sortedBelow : List (String × Value) → List (String × Value)
  | [] => []
  | (key, v) :: ms => (key, sorted v) :: sortedBelow ms

end

theorem sortedItems_eq_map (vs : List Value) :
    sortedItems vs = vs.map sorted := by
  induction vs with
  | nil => rfl
  | cons v vs ih => rw [sortedItems, ih, List.map_cons]

theorem sortedBelow_eq_map (ms : List (String × Value)) :
    sortedBelow ms = ms.map fun m => (m.1, m.2.sorted) := by
  induction ms with
  | nil => rfl
  | cons m ms ih => rw [sortedBelow, ih, List.map_cons]

/-- The members may be sorted before the values below them. -/
theorem sorted_obj (ms : List (String × Value)) :
    (Value.obj ms).sorted =
      .obj ((ms.mergeSort memberLe).map fun m => (m.1, m.2.sorted)) := by
  have hmap : (ms.mergeSort memberLe).map (fun m => (m.1, m.2.sorted)) =
      (sortedBelow ms).mergeSort memberLe := by
    rw [sortedBelow_eq_map]
    exact List.map_mergeSort fun _ _ _ _ => rfl
  rw [sorted, hmap]

/-- Sorting changes the order of members alone. -/
theorem same_sorted (v : Value) : v.Same v.sorted := by
  induction v with
  | null => exact .null
  | bool b => exact .bool b
  | num n => exact .num n
  | str s => exact .str s
  | arr items ih =>
      rw [sorted, sortedItems_eq_map]
      apply Same.arr
      rw [List.forall₂_map_right_iff, List.forall₂_same]
      exact ih
  | obj members ih =>
      have hperm := List.mergeSort_perm members memberLe
      rw [sorted_obj]
      apply Same.obj hperm.symm
      rw [List.forall₂_map_right_iff, List.forall₂_same]
      exact fun m hm => .mk (ih m (hperm.mem_iff.mp hm))

/-! ## Canonical texts -/

theorem canonical_obj (ms : List (String × Value)) :
    (Value.obj ms).canonical =
      bracketed '\x7b' '\x7d' ((ms.mergeSort memberLe).map fun m =>
        memberText m.1 m.2.canonical) := by
  have hsorted : sortedMembers (canonicalMembers ms) =
      (ms.mergeSort memberLe).map fun m => (m.1, m.2.canonical) := by
    symm
    rw [canonicalMembers_eq_map]
    exact List.map_mergeSort fun _ _ _ _ => rfl
  rw [canonical, hsorted, List.map_map]
  rfl

/-- Where all numbers are integers, the canonical text is the compact text of
the sorted value. -/
theorem text_sorted {v : Value} (h : ∀ d, ¬ v.HasFloat d) :
    v.sorted.text = v.canonical := by
  induction v with
  | bool b =>
      cases b with
      | true => rfl
      | false => rfl
  | num n =>
      cases n with
      | int n fits => rfl
      | float d => exact absurd .here (h d)
  | arr items ih =>
      have hitems : items.map (fun v => v.sorted.text) =
          items.map Value.canonical :=
        List.map_congr_left fun v hv => ih v hv fun d hd => h d (.item hv hd)
      rw [sorted, sortedItems_eq_map, text, Grammar.itemTexts_eq_map,
        List.map_map, canonical, canonicalItems_eq_map, ← hitems]
      rfl
  | obj members ih =>
      have hperm := List.mergeSort_perm members memberLe
      have hmembers : (members.mergeSort memberLe).map
            (fun m => memberText m.1 m.2.sorted.text) =
          (members.mergeSort memberLe).map fun m =>
            memberText m.1 m.2.canonical := by
        apply List.map_congr_left
        intro m hm
        have hm := hperm.mem_iff.mp hm
        rw [ih m hm fun d hd => h d (.member hm hd)]
      rw [sorted_obj, text, Grammar.memberTexts_eq_map, List.map_map,
        canonical_obj, ← hmembers]
      rfl
  | _ => rfl

/-- Values of integers with one canonical text are the same. -/
theorem same_of_canonicalText_eq {v w : Value} (hv : ∀ d, ¬ v.HasFloat d)
    (hw : ∀ d, ¬ w.HasFloat d) (h : v.canonicalText = w.canonicalText) :
    v.Same w := by
  have hwrite : v.sorted.write = w.sorted.write := by
    rw [write, write, text_sorted hv, text_sorted hw]
    exact h
  have hsorted := write_injective hwrite
  exact v.same_sorted.trans (hsorted ▸ w.same_sorted.symm)

end Value

namespace Digest

/-- Different texts of the list have different digests. -/
def Separates (texts : List String) : Prop :=
  ∀ s ∈ texts, ∀ t ∈ texts, ofText s = ofText t → s = t

instance (texts : List String) : Decidable (Separates texts) :=
  inferInstanceAs (Decidable (∀ s ∈ texts, ∀ t ∈ texts,
    ofText s = ofText t → s = t))

/-- Documents whose numbers are integers have the same canonical bytes exactly
when they are the same but for the order of members, and then alone the same
schema digest, unless the digests of their two texts coincide. -/
theorem ofSchema_identifies {v w : Value} (hdistinct : v.Distinct)
    (hv : ∀ d, ¬ v.HasFloat d) (hw : ∀ d, ¬ w.HasFloat d) :
    (v.canonicalText.toUTF8 = w.canonicalText.toUTF8 ↔ v.Same w) ∧
    (Separates [v.canonicalText, w.canonicalText] →
      (ofSchema v = ofSchema w ↔ v.Same w)) := by
  have htext : v.canonicalText = w.canonicalText ↔ v.Same w := by
    refine ⟨Value.same_of_canonicalText_eq hv hw, fun hsame => ?_⟩
    have hcanonical := Value.Rearranged.canonical_eq ⟨hdistinct, hsame⟩
    rw [Value.canonicalText, Value.canonicalText, hcanonical]
  refine ⟨String.toByteArray_inj.trans htext, fun hseparates => ?_⟩
  rw [← htext]
  refine ⟨hseparates _ (by simp) _ (by simp), fun heq => ?_⟩
  rw [ofSchema, ofSchema, heq]

/-- A document with a text inside that looks like a further member.  The longer
name stands in front of the one that it continues, as in the canonical text. -/
def imitation : Value :=
  .obj [("a!", .num (.int 2 rfl)), ("a", .str "1,\"a!\":2")]

/-- The document with the text cut where it looks like the next member. -/
def separation : Value :=
  .obj [("a!", .num (.int 2 rfl)), ("a", .str "1")]

theorem ofSchema_identifies_imitation :
    ofSchema imitation = ofSchema
      (.obj [("a", .str "1,\"a!\":2"), ("a!", .num (.int 2 rfl))]) ∧
    Separates [imitation.canonicalText, separation.canonicalText] ∧
    ofSchema imitation ≠ ofSchema separation := by
  have hdistinct : imitation.Distinct := Value.distinct_distinct imitation
  have hints : ∀ d, ¬ imitation.HasFloat d := by simp [imitation]
  have hints' : ∀ d, ¬ separation.HasFloat d := by simp [separation]
  have hsorted : imitation.sorted = imitation := by
    rw [imitation, Value.sorted_obj,
      List.mergeSort_of_pairwise (by decide +kernel)]
    rfl
  have hsorted' : separation.sorted = separation := by
    rw [separation, Value.sorted_obj,
      List.mergeSort_of_pairwise (by decide +kernel)]
    rfl
  have hseparates :
      Separates [imitation.canonicalText, separation.canonicalText] := by
    rw [Value.canonicalText, Value.canonicalText, ← Value.text_sorted hints,
      ← Value.text_sorted hints', hsorted, hsorted']
    decide +kernel
  refine ⟨?_, hseparates, fun heq => ?_⟩
  · have hswap : imitation.Same
        (.obj [("a", .str "1,\"a!\":2"), ("a!", .num (.int 2 rfl))]) := by
      apply Value.Same.obj (List.Perm.swap _ _ _)
      exact .cons (.mk (.str _)) (.cons (.mk (.num _)) .nil)
    have hbytes := (ofSchema_identifies hdistinct hints (by simp)).1.mpr hswap
    rw [ofSchema, ofSchema, String.toByteArray_inj.mp hbytes]
  · have hsame :=
      ((ofSchema_identifies hdistinct hints hints').2 hseparates).mp heq
    obtain ⟨v, hv, hvalue⟩ :=
      hsame.mem_of_obj (List.mem_cons_of_mem _ List.mem_cons_self)
    cases hvalue
    simp at hv

end Digest
end JsonTypedef
