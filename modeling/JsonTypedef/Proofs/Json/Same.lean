import JsonTypedef.Proofs.Json.Distinct

/-!
# Equality up to the order of members

Two values are the same when they differ only in the order in which objects
list their members, at any depth.
-/

namespace JsonTypedef
namespace Value

/-- Two members of the same name whose values are related. -/
inductive SameMember (rel : Value → Value → Prop) :
    String × Value → String × Value → Prop
  | mk {key : String} {v w : Value} : rel v w → SameMember rel (key, v) (key, w)

/-- Equality up to the order of members. -/
inductive Same : Value → Value → Prop
  | null : Same .null .null
  | bool (b : Bool) : Same (.bool b) (.bool b)
  | num (n : Number) : Same (.num n) (.num n)
  | str (s : String) : Same (.str s) (.str s)
  | arr {vs ws : List Value} : List.Forall₂ Same vs ws →
      Same (.arr vs) (.arr ws)
  | obj {ms ks ns : List (String × Value)} :
      List.Perm ms ks → List.Forall₂ (SameMember Same) ks ns →
      Same (.obj ms) (.obj ns)

/-- The double is one of the numbers in a value. -/
inductive HasFloat (d : Double) : Value → Prop
  | here : HasFloat d (.num (.float d))
  | item {items : List Value} {v : Value} :
      v ∈ items → HasFloat d v → HasFloat d (.arr items)
  | member {members : List (String × Value)} {m : String × Value} :
      m ∈ members → HasFloat d m.2 → HasFloat d (.obj members)

@[simp] theorem hasFloat_null {d : Double} : ¬ HasFloat d .null := nofun

@[simp] theorem hasFloat_bool {d : Double} {b : Bool} :
    ¬ HasFloat d (.bool b) := nofun

@[simp] theorem hasFloat_str {d : Double} {s : String} :
    ¬ HasFloat d (.str s) := nofun

@[simp] theorem hasFloat_num {d : Double} {n : Number} :
    HasFloat d (.num n) ↔ n = .float d := by
  constructor
  · rintro ⟨⟩
    rfl
  · rintro rfl
    exact .here

@[simp] theorem hasFloat_arr {d : Double} {items : List Value} :
    HasFloat d (.arr items) ↔ ∃ v ∈ items, HasFloat d v := by
  constructor
  · intro h
    cases h with
    | item hv hfloat => exact ⟨_, hv, hfloat⟩
  · rintro ⟨v, hv, hfloat⟩
    exact .item hv hfloat

@[simp] theorem hasFloat_obj {d : Double} {members : List (String × Value)} :
    HasFloat d (.obj members) ↔ ∃ m ∈ members, HasFloat d m.2 := by
  constructor
  · intro h
    cases h with
    | member hm hfloat => exact ⟨_, hm, hfloat⟩
  · rintro ⟨m, hm, hfloat⟩
    exact .member hm hfloat

theorem keys_of_sameMember {rel : Value → Value → Prop} {ms ns : Members}
    (h : List.Forall₂ (SameMember rel) ms ns) : ms.keys = ns.keys := by
  induction h with
  | nil => rfl
  | cons hm _ ih =>
      cases hm with
      | mk _ => rw [Members.keys_cons, Members.keys_cons, ih]

theorem Same.refl (v : Value) : Same v v := by
  have hforall : ∀ {α : Type} {rel : α → α → Prop} (as : List α),
      (∀ a ∈ as, rel a a) → List.Forall₂ rel as as := by
    intro α rel as h
    induction as with
    | nil => exact .nil
    | cons a as ih =>
        exact .cons (h a List.mem_cons_self)
          (ih fun b hb => h b (List.mem_cons_of_mem _ hb))
  induction v with
  | null => exact .null
  | bool b => exact .bool b
  | num n => exact .num n
  | str s => exact .str s
  | arr items ih => exact .arr (hforall items ih)
  | obj members ih =>
      exact .obj (List.Perm.refl _) (hforall members fun m hm => .mk (ih m hm))

namespace Same

variable {ms ns : List (String × Value)}

/-- The members of an object reappear in an object that is the same. -/
theorem mem_of_obj (h : Same (.obj ms) (.obj ns)) {key : String} {w : Value}
    (hw : (key, w) ∈ ns) : ∃ v, (key, v) ∈ ms ∧ Same v w := by
  cases h with
  | obj hperm hforall =>
      obtain ⟨m, hm, hsame⟩ := exists_mem_of_forall₂ hforall hw
      cases hsame with
      | mk hsame => exact ⟨_, hperm.mem_iff.mpr hm, hsame⟩

theorem keys_perm (h : Same (.obj ms) (.obj ns)) :
    (Members.keys ms).Perm (Members.keys ns) := by
  cases h with
  | obj hperm hforall =>
      rw [← keys_of_sameMember hforall]
      exact hperm.map Prod.fst

theorem get?_of_obj (h : Same (.obj ms) (.obj ns))
    (hnodup : (Members.keys ms).Nodup) {key : String} {w : Value}
    (hw : Members.get? ns key = some w) :
    ∃ v, Members.get? ms key = some v ∧ Same v w := by
  obtain ⟨v, hv, hsame⟩ := h.mem_of_obj (Members.mem_of_get? hw)
  exact ⟨v, Members.get?_of_mem hnodup hv, hsame⟩

theorem distinct {v w : Value} (h : Same v w) (hv : v.Distinct) :
    w.Distinct := by
  induction v generalizing w with
  | null => cases h; exact .null
  | bool b => cases h; exact .bool b
  | num n => cases h; exact .num n
  | str s => cases h; exact .str s
  | arr items ih =>
      cases hv with
      | arr hitems =>
          cases h with
          | arr hforall =>
              refine .arr fun w hw => ?_
              obtain ⟨v, hv, hsame⟩ := exists_mem_of_forall₂ hforall hw
              exact ih v hv hsame (hitems v hv)
  | obj members ih =>
      cases hv with
      | obj hnodup hmembers =>
          cases h with
          | obj hperm hforall =>
              have hsame : Same (.obj members) (.obj _) := .obj hperm hforall
              refine .obj (hsame.keys_perm.nodup_iff.mp hnodup) fun m hm => ?_
              obtain ⟨v, hv, hvm⟩ := hsame.mem_of_obj hm
              exact ih (m.1, v) hv hvm (hmembers (m.1, v) hv)

theorem hasFloat {v w : Value} (h : Same v w) {d : Double} (hw : HasFloat d w) :
    HasFloat d v := by
  induction v generalizing w with
  | arr items ih =>
      cases h with
      | arr hforall =>
          cases hw with
          | item hmem hfloat =>
              obtain ⟨v, hv, hsame⟩ := exists_mem_of_forall₂ hforall hmem
              exact .item hv (ih v hv hsame hfloat)
  | obj members ih =>
      cases h with
      | obj hperm hforall =>
          have hsame : Same (.obj members) (.obj _) := .obj hperm hforall
          cases hw with
          | @member _ m hmem hfloat =>
              obtain ⟨v, hv, hvm⟩ := hsame.mem_of_obj hmem
              exact .member hv (ih (m.1, v) hv hvm hfloat)
  | _ => cases h; exact hw

end Same
end Value
end JsonTypedef
