import JsonTypedef.Proofs.Json.Same
import JsonTypedef.Validation

/-!
# Values that fit a node

`Program.Fits` says in plain terms which values a node accepts within a given
nesting of nodes.  Validation, parsing and serialization are all related to it.
Fitting is kept when more nesting is allowed and when members change places.
-/

namespace JsonTypedef
namespace Program

section

variable (fits : Node → Value → Prop)

/-- The members of an object fit their declarations, the tag being declared
too. -/
structure PropertiesFit (p : Properties) (tag : Option String)
    (ms : Members) : Prop where
  required : ∀ m ∈ p.required, ∃ v, ms.get? m.1 = some v ∧ fits m.2 v
  optional : ∀ m ∈ p.optional, ∀ v, ms.get? m.1 = some v → fits m.2 v
  declared : p.additional = false →
    ∀ key ∈ ms.keys, tag = some key ∨ p.declares key = true

/-- A value fits a form whose children are checked by `fits`. -/
inductive FormFits (admits : TypeKind → Value → Bool) (target : Nat → Node) :
    Form → Value → Prop
  | empty {v : Value} : FormFits admits target .empty v
  | ref {i : Nat} {v : Value} : fits (target i) v →
      FormFits admits target (.ref i) v
  | type {kind : TypeKind} {v : Value} :
      admits kind v = true → FormFits admits target (.type kind) v
  | enum {values : List String} {s : String} :
      s ∈ values → FormFits admits target (.enum values) (.str s)
  | elements {item : Node} {items : List Value} :
      (∀ v ∈ items, fits item v) →
        FormFits admits target (.elements item) (.arr items)
  | values {item : Node} {ms : Members} :
      (∀ m ∈ ms, fits item m.2) →
        FormFits admits target (.values item) (.obj ms)
  | properties {p : Properties} {ms : Members} :
      PropertiesFit fits p none ms →
        FormFits admits target (.properties p) (.obj ms)
  | discriminator {tag value : String} {branches : List (String × Branch)}
      {branch : Branch}
      {ms : Members} :
      ms.get? tag = some (.str value) →
        List.lookup value branches = some branch →
        PropertiesFit fits branch.properties (some tag) ms →
          FormFits admits target (.discriminator tag branches) (.obj ms)

end

/-- A value fits a node, `depth` nodes being nested at most. -/
def Fits (admits : TypeKind → Value → Bool) (target : Nat → Node) : Nat → Node →
    Value → Prop
  | 0, _, _ => False
  | depth + 1, n, v =>
    Validator.isNullAt n v = true ∨
      FormFits (Fits admits target depth) admits target n.form v

/-! ## Declared members -/

section

variable {fits : Node → Value → Prop} {p : Properties} {tag : Option String}
    {ms : Members}

theorem PropertiesFit.fits_of_get? (h : PropertiesFit fits p tag ms)
    {m : String × Node} (hm : m ∈ p.declared) {v : Value}
    (hv : ms.get? m.1 = some v) : fits m.2 v := by
  rcases List.mem_append.mp hm with hrequired | hoptional
  · obtain ⟨w, hw, hfits⟩ := h.required m hrequired
    obtain rfl := Option.some.inj (hv.symm.trans hw)
    exact hfits
  · exact h.optional m hoptional v hv

theorem PropertiesFit.mem_keys (h : PropertiesFit fits p tag ms)
    {m : String × Node} (hm : m ∈ p.required) : m.1 ∈ ms.keys := by
  obtain ⟨v, hv, -⟩ := h.required m hm
  exact Members.mem_keys.mpr ⟨v, Members.mem_of_get? hv⟩

/-- An object fits if its required members are present and the declared ones
fit. -/
theorem PropertiesFit.of_get? (hrequired : ∀ m ∈ p.required, m.1 ∈ ms.keys)
    (hfits : ∀ m ∈ p.declared, ∀ v, ms.get? m.1 = some v → fits m.2 v)
    (hdeclared : p.additional = false →
      ∀ key ∈ ms.keys, tag = some key ∨ p.declares key = true) :
    PropertiesFit fits p tag ms where
  required m hm := by
    obtain ⟨v, hv⟩ :=
      Option.isSome_iff_exists.mp (Members.get?_isSome_iff.mpr (hrequired m hm))
    exact ⟨v, hv, hfits m (List.mem_append_left _ hm) v hv⟩
  optional m hm := hfits m (List.mem_append_right _ hm)
  declared := hdeclared

end

/-! ## More nesting -/

section

variable {fits fits' : Node → Value → Prop} {admits : TypeKind → Value → Bool}
  {target : Nat → Node}

theorem PropertiesFit.mono (hmono : ∀ n v, fits n v → fits' n v)
    {p : Properties} {tag : Option String} {ms : Members}
    (h : PropertiesFit fits p tag ms) :
    PropertiesFit fits' p tag ms where
  required m hm := by
    obtain ⟨v, hv, hfits⟩ := h.required m hm
    exact ⟨v, hv, hmono m.2 v hfits⟩
  optional m hm v hv := hmono m.2 v (h.optional m hm v hv)
  declared := h.declared

theorem FormFits.mono (hmono : ∀ n v, fits n v → fits' n v) {f : Form}
    {v : Value} (h : FormFits fits admits target f v) :
    FormFits fits' admits target f v := by
  cases h with
  | empty => exact .empty
  | ref h => exact .ref (hmono _ _ h)
  | type h => exact .type h
  | enum h => exact .enum h
  | elements h => exact .elements fun v hv => hmono _ _ (h v hv)
  | values h => exact .values fun m hm => hmono _ _ (h m hm)
  | properties h => exact .properties (h.mono hmono)
  | discriminator htag hbranch h =>
      exact .discriminator htag hbranch (h.mono hmono)

theorem Fits.succ {depth : Nat} {n : Node} {v : Value}
    (h : Fits admits target depth n v) :
    Fits admits target (depth + 1) n v := by
  induction depth generalizing n v with
  | zero => exact h.elim
  | succ depth ih => exact h.imp_right (FormFits.mono fun _ _ => ih)

theorem Fits.mono {depth depth' : Nat} (hle : depth ≤ depth') {n : Node}
    {v : Value} (h : Fits admits target depth n v) :
    Fits admits target depth' n v := by
  induction hle with
  | refl => exact h
  | step _ ih => exact ih.succ

/-! ## Members in other places -/

theorem PropertiesFit.of_same
    (hfits : ∀ n v w, v.Distinct → v.Same w → fits n v → fits n w)
    {p : Properties} {tag : Option String} {ms ns : Members}
    (hdistinct : (Value.obj ms).Distinct)
    (hsame : Value.Same (.obj ms) (.obj ns)) (h : PropertiesFit fits p tag ms) :
    PropertiesFit fits p tag ns := by
  cases hdistinct with
  | obj hnodup hmembers =>
      refine ⟨fun m hm => ?_, fun m hm w hw => ?_,
        fun hadditional key hkey => ?_⟩
      · obtain ⟨v, hv, hfit⟩ := h.required m hm
        have hmem := Members.mem_of_get? hv
        have hkey : m.1 ∈ ns.keys :=
          hsame.keys_perm.mem_iff.mp (Members.mem_keys.mpr ⟨v, hmem⟩)
        obtain ⟨w, hw⟩ :=
          Option.isSome_iff_exists.mp (Members.get?_isSome_iff.mpr hkey)
        obtain ⟨v', hv', hvw⟩ := hsame.get?_of_obj hnodup hw
        obtain rfl : v = v' := Option.some.inj (hv.symm.trans hv')
        exact ⟨w, hw, hfits m.2 v w (hmembers _ hmem) hvw hfit⟩
      · obtain ⟨v, hv, hvw⟩ := hsame.get?_of_obj hnodup hw
        exact hfits m.2 v w (hmembers _ (Members.mem_of_get? hv)) hvw
          (h.optional m hm v hv)
      · exact h.declared hadditional key (hsame.keys_perm.mem_iff.mpr hkey)

theorem FormFits.of_same
    (hadmits : ∀ kind v w, v.Same w → admits kind v = true →
      admits kind w = true)
    (hfits : ∀ n v w, v.Distinct → v.Same w → fits n v → fits n w) {f : Form}
    {v w : Value} (hdistinct : v.Distinct) (hsame : v.Same w)
    (h : FormFits fits admits target f v) :
    FormFits fits admits target f w := by
  cases h with
  | empty => exact .empty
  | ref h => exact .ref (hfits _ v w hdistinct hsame h)
  | type h => exact .type (hadmits _ v w hsame h)
  | enum h =>
      cases hsame
      exact .enum h
  | elements h =>
      cases hdistinct with
      | arr hitems =>
          cases hsame with
          | arr hforall =>
              refine .elements fun w hw => ?_
              obtain ⟨v, hv, hvw⟩ := exists_mem_of_forall₂ hforall hw
              exact hfits _ v w (hitems v hv) hvw (h v hv)
  | values h =>
      cases hdistinct with
      | obj hnodup hmembers =>
          cases hsame with
          | obj hperm hforall =>
              refine .values fun m hm => ?_
              obtain ⟨v, hv, hvm⟩ :=
                (Value.Same.obj hperm hforall).mem_of_obj hm
              exact hfits _ v m.2 (hmembers _ hv) hvm (h _ hv)
  | properties h =>
      cases hsame with
      | obj hperm hforall =>
          exact .properties (h.of_same hfits hdistinct (.obj hperm hforall))
  | discriminator htag hbranch h =>
      cases hdistinct with
      | obj hnodup hmembers =>
          cases hsame with
          | @obj _ _ ns hperm hforall =>
              have hsame := Value.Same.obj hperm hforall
              have hkey := hsame.keys_perm.mem_iff.mp
                (Members.mem_keys.mpr ⟨_, Members.mem_of_get? htag⟩)
              obtain ⟨w, hw⟩ :=
                Option.isSome_iff_exists.mp (Members.get?_isSome_iff.mpr hkey)
              obtain ⟨v', hv', hvw⟩ := hsame.get?_of_obj hnodup hw
              obtain rfl := Option.some.inj (htag.symm.trans hv')
              cases hvw
              exact .discriminator hw hbranch
                (h.of_same hfits (.obj hnodup hmembers) hsame)

/-- Whether a value fits does not depend on the order of its members. -/
theorem Fits.of_same
    (hadmits : ∀ kind v w, v.Same w → admits kind v = true →
      admits kind w = true)
    {depth : Nat} {n : Node} {v w : Value} (hdistinct : v.Distinct)
    (hsame : v.Same w) (h : Fits admits target depth n v) :
    Fits admits target depth n w := by
  induction depth generalizing n v w with
  | zero => exact h.elim
  | succ depth ih =>
      rcases h with hnull | h
      · refine Or.inl ?_
        cases hsame <;> exact hnull
      · have hfits : ∀ n v w, v.Distinct → v.Same w →
            Fits admits target depth n v →
            Fits admits target depth n w := fun _ _ _ hv hvw hn => ih hv hvw hn
        exact Or.inr (h.of_same hadmits hfits hdistinct hsame)

end

end Program

namespace Validator

theorem eq_null_of_isNullAt {n : Program.Node} {v : Value}
    (h : isNullAt n v = true) : v = .null ∧ n.nullable = true := by
  cases v with
  | null => exact ⟨rfl, h⟩
  | _ => cases h

theorem typeAccepts_congr (config : Config) (kind : TypeKind) {v w : Value}
    (h : v.Same w) : typeAccepts config kind v = typeAccepts config kind w := by
  cases h <;> rfl

theorem typeAccepts_of_same (config : Config) (kind : TypeKind) (v w : Value)
    (h : v.Same w) (haccepts : typeAccepts config kind v = true) :
    typeAccepts config kind w = true := by
  rwa [← typeAccepts_congr config kind h]

end Validator
end JsonTypedef
