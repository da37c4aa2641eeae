import JsonTypedef.Proofs.Json.Grammar
import Mathlib.Data.List.Forall2
import Mathlib.Data.List.Induction

/-!
# Values whose objects name no member twice

Text may name a member more than once; the values that the reader gives never
do.  `Value.Distinct` says so of a value, and on such values a look-up by name
finds every member.
-/

namespace JsonTypedef

theorem exists_mem_of_forall₂ {α β : Type} {rel : α → β → Prop} {as : List α}
    {bs : List β} (h : List.Forall₂ rel as bs) {b : β} (hb : b ∈ bs) :
    ∃ a ∈ as, rel a b := by
  induction h with
  | nil => simp at hb
  | cons hab _ ih =>
      rcases List.mem_cons.mp hb with rfl | hb
      · exact ⟨_, List.mem_cons_self, hab⟩
      · obtain ⟨a, ha, hrel⟩ := ih hb
        exact ⟨a, List.mem_cons_of_mem _ ha, hrel⟩

theorem exists_forall₂ {α β : Type} {rel : α → β → Prop} {as : List α}
    (h : ∀ a ∈ as, ∃ b, rel a b) : ∃ bs, List.Forall₂ rel as bs := by
  induction as with
  | nil => exact ⟨[], .nil⟩
  | cons a as ih =>
      obtain ⟨b, hb⟩ := h a List.mem_cons_self
      obtain ⟨bs, hbs⟩ := ih fun a ha => h a (List.mem_cons_of_mem _ ha)
      exact ⟨b :: bs, .cons hb hbs⟩

theorem forall₂_of_forall₂ {α β γ : Type} {rel : α → β → Prop}
    {rel' : α → γ → Prop} {as : List α} {bs : List β} {cs : List γ}
    (h : List.Forall₂ rel as bs) (h' : List.Forall₂ rel' as cs) :
    List.Forall₂ (fun b c => ∃ a, rel a b ∧ rel' a c) bs cs := by
  induction h generalizing cs with
  | nil =>
      cases h'
      exact .nil
  | cons hab _ ih =>
      cases h' with
      | cons hac h' => exact .cons ⟨_, hab, hac⟩ (ih h')

/-! ## Look-up by name -/

theorem lookup_cons_eq_if {α : Type} (key name : String) (a : α)
    (l : List (String × α)) :
    List.lookup name ((key, a) :: l) = if key =
      name then some a else List.lookup name l := by
  rw [List.lookup_cons]
  by_cases heq : key = name
  · simp [heq]
  · have hne : (name == key) = false := by simpa using Ne.symm heq
    simp [heq, hne]

theorem mem_of_lookup {α : Type} {l : List (String × α)} {name : String} {a : α}
    (h : List.lookup name l = some a) : (name, a) ∈ l := by
  obtain ⟨before, after, rfl, -⟩ := List.lookup_eq_some_iff.mp h
  simp

/-- In a list that repeats no name a look-up finds every entry. -/
theorem lookup_of_mem {α : Type} {l : List (String × α)}
    (hnodup : (l.map Prod.fst).Nodup) {name : String} {a : α}
    (h : (name, a) ∈ l) : List.lookup name l = some a := by
  induction l with
  | nil => simp at h
  | cons m l ih =>
      rw [List.map_cons, List.nodup_cons] at hnodup
      rcases List.mem_cons.mp h with rfl | h
      · simp
      · have hne : m.1 ≠ name := fun heq =>
          hnodup.1 (List.mem_map.mpr ⟨(name, a), h, heq.symm⟩)
        rw [lookup_cons_eq_if, if_neg hne]
        exact ih hnodup.2 h

theorem lookup_isSome_iff {α : Type} {l : List (String × α)} {name : String} :
    (List.lookup name l).isSome ↔ name ∈ l.map Prod.fst := by
  rw [List.lookup_isSome_iff, List.mem_map]
  constructor
  · rintro ⟨m, hm, hname⟩
    exact ⟨m, hm, (eq_of_beq hname).symm⟩
  · rintro ⟨m, hm, rfl⟩
    exact ⟨m, hm, beq_self_eq_true _⟩

/-- Entries that are related name by name have the same names. -/
theorem map_fst_of_forall₂ {α β : Type} {rel : String × α → String × β → Prop}
    (hname : ∀ a b, rel a b → a.1 = b.1) {as : List (String × α)}
    {bs : List (String × β)} (h : List.Forall₂ rel as bs) :
    as.map Prod.fst = bs.map Prod.fst := by
  induction h with
  | nil => rfl
  | cons hab _ ih => rw [List.map_cons, List.map_cons, ih, hname _ _ hab]

/-- Entries that are related name by name are found together. -/
theorem exists_lookup_of_forall₂ {α β : Type}
    {rel : String × α → String × β → Prop} (hname : ∀ a b, rel a b → a.1 = b.1)
    {as : List (String × α)} {bs : List (String × β)}
    (h : List.Forall₂ rel as bs) {name : String} {b : β}
    (hb : List.lookup name bs = some b) :
    ∃ a, List.lookup name as = some a ∧ rel (name, a) (name, b) := by
  induction h with
  | nil => cases hb
  | @cons a' b' _ _ hab _ ih =>
      obtain ⟨key, a'⟩ := a'
      obtain ⟨key', b'⟩ := b'
      obtain rfl : key = key' := hname _ _ hab
      rw [lookup_cons_eq_if] at hb ⊢
      split at hb
      next heq =>
        subst heq
        cases hb
        exact ⟨a', if_pos rfl, hab⟩
      next hne =>
        rw [if_neg hne]
        exact ih hb

/-- Entries with distinct names stand in strict order of the names when they
are sorted by name. -/
theorem pairwise_mergeSort_names {α : Type} {l : List (String × α)}
    (hnodup : (l.map Prod.fst).Nodup) :
    ((l.mergeSort fun a b => a.1 ≤ b.1).map Prod.fst).Pairwise (· < ·) := by
  have hle : (l.mergeSort fun a b => a.1 ≤ b.1).Pairwise
      fun a b => decide (a.1 ≤ b.1) = true := by
    apply List.pairwise_mergeSort
    · intro a b c hab hbc
      simp only [decide_eq_true_eq] at hab hbc ⊢
      exact String.le_trans hab hbc
    · intro a b
      simpa using String.le_total a.1 b.1
  have hne : ((l.mergeSort fun a b => a.1 ≤ b.1).map Prod.fst).Nodup :=
    ((List.mergeSort_perm l _).map _).nodup_iff.mpr hnodup
  rw [List.Nodup, List.pairwise_map] at hne
  rw [List.pairwise_map]
  exact (hle.and hne).imp fun ⟨hle, hne⟩ =>
    Std.lt_of_le_of_ne (of_decide_eq_true hle) hne

namespace Members

@[simp] theorem keys_nil : keys [] = [] := rfl

@[simp] theorem keys_cons (m : String × Value) (ms : Members) :
    keys (m :: ms) = m.1 :: keys ms := rfl

theorem mem_keys {ms : Members} {key : String} :
    key ∈ keys ms ↔ ∃ v, (key, v) ∈ ms := by
  simp [keys]

theorem has_iff {ms : Members} {key : String} :
    ms.has key = true ↔ key ∈ ms.keys := by
  simp [has, keys]

theorem mem_of_get? {ms : Members} {key : String} {v : Value}
    (h : ms.get? key = some v) : (key, v) ∈ ms :=
  mem_of_lookup h

theorem get?_of_mem {ms : Members} (hnodup : ms.keys.Nodup) {key : String}
    {v : Value} (h : (key, v) ∈ ms) : ms.get? key = some v :=
  lookup_of_mem hnodup h

theorem get?_cons (key tag : String) (v : Value) (ms : Members) :
    get? ((key, v) :: ms) tag = if key = tag then some v else ms.get? tag :=
  lookup_cons_eq_if key tag v ms

theorem get?_isSome_iff {ms : Members} {key : String} :
    (ms.get? key).isSome ↔ key ∈ ms.keys :=
  lookup_isSome_iff

/-! ## Resolving repeated names -/

theorem mem_keys_put {key : String} {v : Value} {ms : Members} {name : String} :
    name ∈ (put key v ms).keys ↔ name = key ∨ name ∈ ms.keys := by
  induction ms with
  | nil => simp [put]
  | cons m ms ih =>
      unfold put
      split
      next heq => simp [heq]
      next => simp only [keys_cons, List.mem_cons, ih]; tauto

theorem nodup_keys_put {key : String} {v : Value} {ms : Members}
    (h : ms.keys.Nodup) : (put key v ms).keys.Nodup := by
  induction ms with
  | nil => simp [put]
  | cons m ms ih =>
      rw [keys_cons, List.nodup_cons] at h
      unfold put
      split
      next heq =>
        rw [keys_cons, List.nodup_cons]
        exact ⟨by rw [← heq]; exact h.1, h.2⟩
      next hne =>
        rw [keys_cons, List.nodup_cons, mem_keys_put]
        exact ⟨fun hmem => hmem.elim hne h.1, ih h.2⟩

theorem put_of_notMem {key : String} {v : Value} {ms : Members}
    (h : key ∉ ms.keys) : put key v ms = ms ++ [(key, v)] := by
  induction ms with
  | nil => rfl
  | cons m ms ih =>
      rw [keys_cons, List.mem_cons, not_or] at h
      rw [put, if_neg (Ne.symm h.1), ih h.2, List.cons_append]

theorem mem_of_mem_put {key : String} {v : Value} {ms : Members}
    {m : String × Value} (h : m ∈ put key v ms) : m = (key, v) ∨ m ∈ ms := by
  induction ms with
  | nil => simpa [put] using h
  | cons n ms ih =>
      unfold put at h
      split at h
      next =>
        rcases List.mem_cons.mp h with rfl | h
        · exact Or.inl rfl
        · exact Or.inr (List.mem_cons_of_mem _ h)
      next =>
        rcases List.mem_cons.mp h with rfl | h
        · exact Or.inr List.mem_cons_self
        · exact (ih h).imp_right (List.mem_cons_of_mem _)

private theorem foldl_put_of_nodup (out ms : Members)
    (h : (keys (out ++ ms)).Nodup) :
    ms.foldl (fun out m => put m.1 m.2 out) out = out ++ ms := by
  induction ms generalizing out with
  | nil => simp
  | cons m ms ih =>
      have hfresh : m.1 ∉ out.keys := by
        intro hmem
        have hdisjoint := List.nodup_append.mp (by simpa [keys] using h)
        exact hdisjoint.2.2 m.1 (by simpa [keys] using hmem) m.1 (by simp) rfl
      rw [List.foldl_cons, put_of_notMem hfresh, ih _ (by simpa using h)]
      simp

/-- Members with distinct names stay as they are. -/
theorem distinct_of_nodup {ms : Members} (h : ms.keys.Nodup) :
    distinct ms = ms := by
  exact foldl_put_of_nodup [] ms h

theorem nodup_keys_distinct (ms : Members) : (distinct ms).keys.Nodup := by
  have hfold : ∀ (out : Members), out.keys.Nodup →
      (ms.foldl (fun out m => put m.1 m.2 out) out).keys.Nodup := by
    induction ms with
    | nil => exact fun out hout => hout
    | cons m ms ih => exact fun out hout => ih _ (nodup_keys_put hout)
  exact hfold [] (by simp)

theorem mem_of_mem_distinct {ms : Members} {m : String × Value}
    (h : m ∈ distinct ms) : m ∈ ms := by
  have hfold : ∀ (out : Members),
      m ∈ ms.foldl (fun out m => put m.1 m.2 out) out → m ∈ out ∨ m ∈ ms := by
    clear h
    induction ms with
    | nil => exact fun out hmem => Or.inl hmem
    | cons n ms ih =>
        intro out hmem
        rcases ih _ hmem with hput | htail
        · rcases mem_of_mem_put hput with rfl | hout
          · exact Or.inr List.mem_cons_self
          · exact Or.inl hout
        · exact Or.inr (List.mem_cons_of_mem _ htail)
  simpa using hfold [] h

/-! ## The last member of each name -/

/-- The members whose name no later member has. -/
def lasting : Members → Members
  | [] => []
  | m :: ms => if has ms m.1 then lasting ms else m :: lasting ms

/-- To append a member takes earlier members of its name away. -/
theorem lasting_append_singleton (ms : Members) (m : String × Value) :
    lasting (ms ++ [m]) = (lasting ms).filter (·.1 ≠ m.1) ++ [m] := by
  induction ms with
  | nil => rfl
  | cons n ms ih =>
      have hhas : has (ms ++ [m]) n.1 = (has ms n.1 || decide (m.1 = n.1)) := by
        simp [has]
      rw [List.cons_append, lasting, lasting, ih, hhas]
      by_cases hname : m.1 = n.1
      · cases has ms n.1 <;> simp [hname]
      · cases has ms n.1 <;> simp [hname, Ne.symm hname]

theorem put_perm {ms : Members} (h : ms.keys.Nodup) (key : String) (v : Value) :
    (put key v ms).Perm (ms.filter (·.1 ≠ key) ++ [(key, v)]) := by
  induction ms with
  | nil => exact .refl _
  | cons m ms ih =>
      rw [keys_cons, List.nodup_cons] at h
      rw [put]
      split
      next heq =>
        have hothers : ms.filter (·.1 ≠ key) = ms := by
          rw [List.filter_eq_self]
          intro n hn
          refine decide_eq_true fun hname => h.1 ?_
          rw [heq, ← hname]
          exact List.mem_map_of_mem hn
        rw [List.filter_cons_of_neg (by simp [heq]), hothers]
        exact (List.perm_append_singleton _ _).symm
      next hne =>
        rw [List.filter_cons_of_pos (by simpa using hne), List.cons_append]
        exact (ih h.2).cons m

/-- Of members that share a name the last one counts. -/
theorem distinct_perm_lasting (ms : Members) :
    (distinct ms).Perm (lasting ms) := by
  induction ms using List.reverseRec with
  | nil => exact .refl _
  | append_singleton ms m ih =>
      rw [lasting_append_singleton, distinct, List.foldl_append]
      refine (put_perm (nodup_keys_distinct ms) m.1 m.2).trans ?_
      exact (ih.filter _).append_right _

end Members

namespace Value

/-- No object of the value names a member twice. -/
inductive Distinct : Value → Prop
  | null : Distinct .null
  | bool (b : Bool) : Distinct (.bool b)
  | num (n : Number) : Distinct (.num n)
  | str (s : String) : Distinct (.str s)
  | arr {items : List Value} : (∀ v ∈ items, Distinct v) → Distinct (.arr items)
  | obj {members : List (String × Value)} :
      (Members.keys members).Nodup → (∀ m ∈ members, Distinct m.2) →
        Distinct (.obj members)

theorem Distinct.nodup_keys {ms : Members} (h : (Value.obj ms).Distinct) :
    ms.keys.Nodup := by
  cases h with
  | obj hnodup _ => exact hnodup

theorem Distinct.of_mem {ms : Members} (h : (Value.obj ms).Distinct)
    {m : String × Value} (hm : m ∈ ms) : m.2.Distinct := by
  cases h with
  | obj _ hmembers => exact hmembers m hm

theorem distinctItems_eq_map (items : List Value) :
    distinctItems items = items.map distinct := by
  induction items with
  | nil => rfl
  | cons v items ih => rw [distinctItems, ih, List.map_cons]

theorem distinctMembers_eq_map (members : List (String × Value)) :
    distinctMembers members = members.map fun m => (m.1, distinct m.2) := by
  induction members with
  | nil => rfl
  | cons m members ih => rw [distinctMembers, ih, List.map_cons]

/-- Resolving repeated names changes nothing where no name is repeated. -/
theorem Distinct.distinct_eq {v : Value} (h : v.Distinct) : v.distinct = v := by
  induction v with
  | arr items ih =>
      cases h with
      | arr hitems =>
          rw [distinct, distinctItems_eq_map]
          exact congrArg Value.arr
            ((List.map_congr_left fun v hv => ih v hv (hitems v hv)).trans
              (List.map_id' _))
  | obj members ih =>
      cases h with
      | obj hnodup hmembers =>
          have hmap :
              members.map (fun m => (m.1, distinct m.2)) = members.map id :=
            List.map_congr_left fun m hm =>
              Prod.ext rfl (ih m hm (hmembers m hm))
          rw [List.map_id] at hmap
          rw [distinct, distinctMembers_eq_map, hmap,
            Members.distinct_of_nodup hnodup]
  | _ => rfl

/-- Resolved values name no member twice. -/
theorem distinct_distinct (v : Value) : v.distinct.Distinct := by
  induction v with
  | null => exact .null
  | bool b => exact .bool b
  | num n => exact .num n
  | str s => exact .str s
  | arr items ih =>
      rw [distinct, distinctItems_eq_map]
      refine .arr fun v hv => ?_
      obtain ⟨w, hw, rfl⟩ := List.mem_map.mp hv
      exact ih w hw
  | obj members ih =>
      rw [distinct, distinctMembers_eq_map]
      refine .obj (Members.nodup_keys_distinct _) fun m hm => ?_
      obtain ⟨n, hn, rfl⟩ := List.mem_map.mp (Members.mem_of_mem_distinct hm)
      exact ih n hn

end Value

end JsonTypedef
