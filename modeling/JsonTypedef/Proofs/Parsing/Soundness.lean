import JsonTypedef.Parsing.Parser
import JsonTypedef.Proofs.Json.Reader
import JsonTypedef.Proofs.Parsing.Lookahead
import JsonTypedef.Proofs.Program.Compiled
import JsonTypedef.Proofs.Validation.Fits

/-!
# Parsing is sound

What a parser yields is spelled by the text, repeats no name, and fits the node
it was read along within the same depth.  The proof follows the parser: one
lemma for each of its functions, and an induction on the depth over them.
-/

namespace JsonTypedef
namespace Parsing

open Grammar Scanner Program

/-- The value is spelled from the first stream to the second and names no member
of an object twice. -/
structure Reads (v : Value) (s u : Stream) : Prop where
  spells : Spells streamFront v s u
  distinct : v.Distinct

theorem not_yields_error {ε α : Type} {c : Cursor} {e : ε} {a : α}
    {s : Stream} : ¬ Yields (.error e : Except ε (Taken α c)) a s := by
  rintro ⟨t, h, -⟩
  cases h

variable {config : Config} {c : Cursor} {v : Value} {s : Stream}

/-! ## Containers -/

section

variable {value : MemberValue} {holds : String → Value → Prop}

theorem member_sound {before : Members} {m : String × Value}
    (hvalue : ∀ key pos c v s, Yields (value key pos c) v s →
      Reads v c.stream s ∧ holds key v)
    (h : Yields (member value before c) m s) :
    Member streamFront (Spells streamFront) m c.stream s ∧ m.2.Distinct ∧
      holds m.1 m.2 := by
  unfold member at h
  split at h
  next key afterKey hkey htake =>
    split at h
    next => exact absurd h not_yields_error
    next =>
      split at h
      next => exact absurd h not_yields_error
      next colon hcolon =>
        obtain ⟨v, hv, rfl⟩ :=
          h.of_map (f := fun v => (key, v)) (fun _ => rfl) fun _ => rfl
        obtain ⟨hreads, hholds⟩ := hvalue _ _ _ _ _ hv
        exact ⟨.mk (Cursor.front_of_take? htake)
          (Cursor.front_of_accept? hcolon) hreads.spells,
          hreads.distinct, hholds⟩
  next => exact absurd h not_yields_error

theorem notMem_of_member {before : Members} {t : Taken (String × Value) c}
    (h : member value before c = .ok t) : t.value.1 ∉ before.map Prod.fst := by
  unfold member at h
  split at h
  next key afterKey hkey htake =>
    split at h
    next => cases h
    next hnew =>
      split at h
      next => cases h
      next colon hcolon =>
        obtain ⟨t', -, rfl⟩ := exists_ok_of_map h
        exact fun hmem => hnew (Members.has_iff.mpr hmem)
  next => cases h

/-- The members that are read make up an object and are what their values
hold. -/
theorem members_sound {ms : Members}
    (hvalue : ∀ key pos c v s, Yields (value key pos c) v s →
      Reads v c.stream s ∧ holds key v) (h : Yields (members value c) ms s) :
    Contents streamFront .closeBrace
      (Member streamFront (Spells streamFront)) ms c.stream s ∧
      (Value.obj ms).Distinct ∧ ∀ m ∈ ms, holds m.1 m.2 := by
  have hnodup : ms.keys.Nodup :=
    nodup_of_enclosed Prod.fst (fun _ _ _ hm => notMem_of_member hm) h
  have hmember : ∀ before c m s, Yields (member value before c) m s →
      Member streamFront (Spells streamFront) m c.stream s ∧ m.2.Distinct ∧
      holds m.1 m.2 :=
    fun _ _ _ _ hm => member_sound hvalue hm
  obtain ⟨hspells, hmembers⟩ := (contents_of_enclosed hmember h).and_forall
  exact ⟨hspells, .obj hnodup fun m hm => (hmembers m hm).1,
    fun m hm => (hmembers m hm).2⟩

end

theorem items_sound {item : Scanner Failure Value} {holds : Value → Prop}
    {vs : List Value}
    (hitem : ∀ c v s, Yields (item c) v s → Reads v c.stream s ∧ holds v)
    (h : Yields (items item c) vs s) :
    Contents streamFront .closeBracket (Spells streamFront) vs c.stream s ∧
      (Value.arr vs).Distinct ∧ ∀ v ∈ vs, holds v := by
  have hrel : ∀ (_ : List Value) c v s, Yields (item c) v s →
      Spells streamFront v c.stream s ∧ v.Distinct ∧ holds v := by
    intro _ c v s hv
    obtain ⟨hreads, hholds⟩ := hitem c v s hv
    exact ⟨hreads.spells, hreads.distinct, hholds⟩
  obtain ⟨hspells, hvalues⟩ := (contents_of_enclosed hrel h).and_forall
  exact ⟨hspells, .arr fun v hv => (hvalues v hv).1,
    fun v hv => (hvalues v hv).2⟩

/-! ## Values without a node -/

theorem untypedWith_sound {inner : Option (Scanner Failure Value)}
    (hinner : ∀ value ∈ inner, ∀ c v s, Yields (value c) v s →
      Reads v c.stream s)
    (h : Yields (untypedWith config inner c) v s) : Reads v c.stream s := by
  unfold untypedWith at h
  split at h
  next htake =>
    obtain ⟨_, hok, rfl, rfl⟩ := h
    cases hok
    exact ⟨.null (Cursor.front_of_take? htake), .null⟩
  next htake =>
    obtain ⟨_, hok, rfl, rfl⟩ := h
    cases hok
    exact ⟨.bool (Cursor.front_of_take? htake), .bool _⟩
  next htake =>
    obtain ⟨_, hok, rfl, rfl⟩ := h
    cases hok
    exact ⟨.str (Cursor.front_of_take? htake), .str _⟩
  next htake =>
    obtain ⟨_, hok, rfl, rfl⟩ := h
    cases hok
    exact ⟨.num (Cursor.front_of_take? htake), .num _⟩
  next htake =>
    split at h
    next => exact absurd h not_yields_error
    next value =>
      obtain ⟨vs, hvs, rfl⟩ := h.of_map (f := .arr) (fun _ => rfl) fun _ => rfl
      have hitem : ∀ c v s, Yields (value c) v s → Reads v c.stream s ∧ True :=
        fun c v s hv => ⟨hinner value rfl c v s hv, trivial⟩
      obtain ⟨hspells, hdistinct, -⟩ := items_sound hitem hvs
      exact ⟨.arr (Cursor.front_of_take? htake) hspells, hdistinct⟩
  next htake =>
    split at h
    next => exact absurd h not_yields_error
    next value =>
      obtain ⟨ms, hms, rfl⟩ := h.of_map (f := .obj) (fun _ => rfl) fun _ => rfl
      have hvalue : ∀ (_ : String) (_ : Nat) c v s, Yields (value c) v s →
          Reads v c.stream s ∧ True :=
          fun _ _ c v s hv => ⟨hinner value rfl c v s hv, trivial⟩
      obtain ⟨hspells, hdistinct, -⟩ := members_sound hvalue hms
      exact ⟨.obj (Cursor.front_of_take? htake) hspells, hdistinct⟩
  next => exact absurd h not_yields_error
  next => exact absurd h not_yields_error

theorem untyped_sound {depth : Nat} (h : Yields (untyped config depth c) v s) :
    Reads v c.stream s := by
  induction depth generalizing c v s with
  | zero => exact untypedWith_sound (by simp) h
  | succ depth ih =>
      refine untypedWith_sound ?_ h
      rintro value ⟨⟩ c v s hv
      exact ih hv

/-! ## Values along a form -/

theorem primitive_sound {kind : TypeKind}
    (h : Yields (primitive config kind c) v s) :
    Reads v c.stream s ∧ Validator.typeAccepts config kind v = true := by
  have htyped : ∀ {t : Taken Value c}, Yields (typed config kind t) v s →
      t.value = v ∧ t.rest.stream = s ∧
        Validator.typeAccepts config kind v = true := by
    intro t ht
    unfold typed at ht
    split at ht
    next haccepts =>
      obtain ⟨_, hok, rfl, rfl⟩ := ht
      cases hok
      exact ⟨rfl, rfl, haccepts⟩
    next => exact absurd ht not_yields_error
  unfold primitive at h
  split at h
  next htake =>
    obtain ⟨rfl, rfl, haccepts⟩ := htyped h
    exact ⟨⟨.bool (Cursor.front_of_take? htake), .bool _⟩, haccepts⟩
  next htake =>
    obtain ⟨rfl, rfl, haccepts⟩ := htyped h
    exact ⟨⟨.str (Cursor.front_of_take? htake), .str _⟩, haccepts⟩
  next htake =>
    obtain ⟨rfl, rfl, haccepts⟩ := htyped h
    exact ⟨⟨.num (Cursor.front_of_take? htake), .num _⟩, haccepts⟩
  next => exact absurd h not_yields_error

theorem enumValue_sound {values : List String}
    (h : Yields (enumValue values c) v s) :
    Reads v c.stream s ∧ ∃ x ∈ values, v = .str x := by
  unfold enumValue at h
  split at h
  next x rest hrest htake =>
    split at h
    next hmem =>
      obtain ⟨_, hok, rfl, rfl⟩ := h
      cases hok
      exact ⟨⟨.str (Cursor.front_of_take? htake), .str _⟩, x, hmem, rfl⟩
    next => exact absurd h not_yields_error
  next => exact absurd h not_yields_error

theorem tagString_sound (h : Yields (tagString c) v s) :
    Reads v c.stream s ∧ ∃ x, v = .str x := by
  unfold tagString at h
  split at h
  next x rest hrest htake =>
    obtain ⟨_, hok, rfl, rfl⟩ := h
    cases hok
    exact ⟨⟨.str (Cursor.front_of_take? htake), .str _⟩, x, rfl⟩
  next => exact absurd h not_yields_error

section

variable {node : Node → Scanner Failure Value} {other : Scanner Failure Value}
  {fits : Node → Value → Prop} {target : Nat → Node} {p : Program.Properties}
  {tag : Option String}
  (hnode : ∀ n c v s, n.form.WellNamed → Yields (node n c) v s →
    Reads v c.stream s ∧ fits n v)
  (hother : ∀ c v s, Yields (other c) v s → Reads v c.stream s)

/-- A member fits its declaration, or it is accepted without one. -/
def Declared (fits : Node → Value → Prop) (p : Program.Properties)
    (tag : Option String) (key : String) (v : Value) : Prop :=
  tag = some key ∨ (∃ n, p.member? key = some n ∧ fits n v) ∨
    (p.member? key = none ∧ p.additional = true)

include hnode hother

theorem memberValue_sound (hp : ∀ m ∈ p.declared, m.2.form.WellNamed)
    {key : String} {pos : Nat}
    (h : Yields (memberValue node other p tag key pos c) v s) :
    Reads v c.stream s ∧ Declared fits p tag key v := by
  unfold memberValue at h
  split at h
  next htag => exact ⟨(tagString_sound h).1, Or.inl htag⟩
  next =>
    cases hmember : p.member? key with
    | some n =>
        simp only [hmember] at h
        obtain ⟨hreads, hfits⟩ :=
          hnode n c v s (hp _ (Properties.mem_of_member? hmember)) h
        exact ⟨hreads, Or.inr (Or.inl ⟨n, hmember, hfits⟩)⟩
    | none =>
        simp only [hmember] at h
        cases hadditional : p.additional with
        | true =>
            rw [hadditional, if_pos rfl] at h
            exact ⟨hother c v s h, Or.inr (Or.inr ⟨hmember, hadditional⟩)⟩
        | false =>
            rw [hadditional, if_neg Bool.false_ne_true] at h
            exact absurd h not_yields_error

omit hnode hother in
theorem propertiesFit_of_declared (hnodup : p.names.Nodup)
    (htag : ∀ t ∈ tag, t ∉ p.names) {ms : Members}
    (hrequired : ∀ m ∈ p.required, m.1 ∈ ms.keys)
    (hdeclared : ∀ m ∈ ms, Declared fits p tag m.1 m.2) :
    PropertiesFit fits p tag ms := by
  refine .of_get? hrequired (fun m hm v hv => ?_) fun hadditional key hkey => ?_
  · have hmember : p.member? m.1 = some m.2 :=
      Properties.member?_of_mem hnodup hm
    rcases hdeclared _ (Members.mem_of_get? hv) with
        htagged | ⟨n, hn, hfits⟩ | ⟨hnone, -⟩
    · exact absurd (List.mem_map.mpr ⟨m, hm, rfl⟩) (htag m.1 htagged)
    · rw [hmember] at hn
      cases hn
      exact hfits
    · rw [hmember] at hnone
      cases hnone
  · obtain ⟨v, hv⟩ := Members.mem_keys.mp hkey
    rcases hdeclared _ hv with htagged | ⟨n, hn, -⟩ | ⟨-, htrue⟩
    · exact Or.inl htagged
    · refine Or.inr
        (Properties.declares_iff.mpr (Properties.member?_isSome_iff.mp ?_))
      rw [hn]
      rfl
    · rw [hadditional] at htrue
      cases htrue

theorem properties_sound (hp : (Program.Form.properties p).WellNamed)
    (htag : ∀ t ∈ tag, t ∉ p.names)
    (h : Yields (properties node other p tag c) v s) :
    ∃ ms, v = .obj ms ∧
      Contents streamFront .closeBrace
        (Member streamFront (Spells streamFront)) ms c.stream s ∧
        v.Distinct ∧ PropertiesFit fits p tag ms := by
  cases hp with
  | properties hnodup hnodes =>
      unfold properties at h
      split at h
      next => exact absurd h not_yields_error
      next t ht =>
        split at h
        next => exact absurd h not_yields_error
        next hnone =>
          obtain ⟨_, hok, rfl, rfl⟩ := h
          cases hok
          have hvalue : ∀ key pos c v s,
              Yields (memberValue node other p tag key pos c) v s →
              Reads v c.stream s ∧ Declared fits p tag key v :=
            fun _ _ _ _ _ hv => memberValue_sound hnode hother hnodes hv
          obtain ⟨hspells, hdistinct, hdeclared⟩ :=
            members_sound hvalue ⟨t, ht, rfl, rfl⟩
          refine ⟨t.value, rfl, hspells, hdistinct, ?_⟩
          refine propertiesFit_of_declared hnodup htag
            (fun m hm => ?_) hdeclared
          have hhas := List.find?_eq_none.mp hnone m hm
          exact Members.has_iff.mp (by simpa using hhas)

theorem discriminator_sound {tag : String}
    {branches : List (String × Program.Branch)}
    {admits : TypeKind → Value → Bool}
    (hform : (Program.Form.discriminator tag branches).WellNamed)
    (h : Yields (discriminator node other tag branches c) v s) :
    Reads v c.stream s ∧
      FormFits fits admits target (.discriminator tag branches) v := by
  cases hform with
  | discriminator htags hbranches =>
      unfold discriminator at h
      split at h
      next => exact absurd h not_yields_error
      next brace hbrace =>
        split at h
        next => exact absurd h not_yields_error
        next value pos hlook =>
          split at h
          next => exact absurd h not_yields_error
          next branch hbranch =>
            obtain ⟨v, hv, rfl⟩ :=
              h.of_map (f := id) (fun _ => rfl) fun _ => rfl
            have hmem := mem_of_lookup hbranch
            obtain ⟨ms, rfl, hspells, hdistinct, hfits⟩ :=
              properties_sound hnode hother (hbranches _ hmem) (by
                rintro t ⟨⟩
                exact htags _ hmem) hv
            refine ⟨⟨.obj (Cursor.front_of_accept? hbrace) hspells, hdistinct⟩,
              ?_⟩
            exact .discriminator ((lookAhead_eq_ok_iff hspells).mp ⟨pos, hlook⟩)
              hbranch hfits

theorem form_sound (htarget : ∀ i, (target i).form.WellNamed) {f : Program.Form}
    (hform : f.WellNamed) (h : Yields (form config target node other f c) v s) :
    Reads v c.stream s ∧
      FormFits fits (Validator.typeAccepts config) target f v := by
  cases f with
  | empty => exact ⟨hother c v s h, .empty⟩
  | ref i =>
      obtain ⟨hreads, hfits⟩ := hnode (target i) c v s (htarget i) h
      exact ⟨hreads, .ref hfits⟩
  | type kind =>
      obtain ⟨hreads, haccepts⟩ := primitive_sound h
      exact ⟨hreads, .type haccepts⟩
  | enum values =>
      obtain ⟨hreads, x, hx, rfl⟩ := enumValue_sound h
      exact ⟨hreads, .enum hx⟩
  | elements item =>
      cases hform with
      | elements hitem =>
          unfold form at h
          dsimp only at h
          split at h
          next => exact absurd h not_yields_error
          next bracket hbracket =>
            obtain ⟨vs, hvs, rfl⟩ :=
              h.of_map (f := .arr) (fun _ => rfl) fun _ => rfl
            obtain ⟨hspells, hdistinct, hfits⟩ :=
              items_sound (fun c v s => hnode item c v s hitem) hvs
            exact ⟨⟨.arr (Cursor.front_of_accept? hbracket) hspells, hdistinct⟩,
              .elements hfits⟩
  | values item =>
      cases hform with
      | values hitem =>
          unfold form at h
          dsimp only at h
          split at h
          next => exact absurd h not_yields_error
          next brace hbrace =>
            obtain ⟨ms, hms, rfl⟩ :=
              h.of_map (f := .obj) (fun _ => rfl) fun _ => rfl
            have hvalue : ∀ (_ : String) (_ : Nat) c v s,
                Yields (node item c) v s →
                Reads v c.stream s ∧ fits item v :=
              fun _ _ c v s => hnode item c v s hitem
            obtain ⟨hspells, hdistinct, hfits⟩ := members_sound hvalue hms
            exact ⟨⟨.obj (Cursor.front_of_accept? hbrace) hspells, hdistinct⟩,
              .values hfits⟩
  | properties p =>
      unfold form at h
      dsimp only at h
      split at h
      next => exact absurd h not_yields_error
      next brace hbrace =>
        obtain ⟨v, hv, rfl⟩ := h.of_map (f := id) (fun _ => rfl) fun _ => rfl
        obtain ⟨ms, rfl, hspells, hdistinct, hfits⟩ :=
          properties_sound hnode hother hform (by simp) hv
        exact ⟨⟨.obj (Cursor.front_of_accept? hbrace) hspells, hdistinct⟩,
          .properties hfits⟩
  | discriminator tag branches => exact discriminator_sound hnode hother hform h

end

theorem nullOr_sound {nullable : Bool} {other : Scanner Failure Value}
    (h : Yields (nullOr nullable other c) v s) :
    (nullable = true ∧ v = .null ∧ Reads v c.stream s) ∨
      Yields (other c) v s := by
  unfold nullOr at h
  split at h
  next => exact absurd h not_yields_error
  next =>
    split at h
    next t haccept =>
      obtain ⟨_, hok, rfl, rfl⟩ := h
      cases hok
      exact Or.inl ⟨rfl, rfl, .null (Cursor.front_of_accept? haccept), .null⟩
    next => exact Or.inr h
  next => exact Or.inr h

/-- What is read along a node is spelled by the text, repeats no name, and fits
the node within the depth. -/
theorem node_sound {target : Nat → Node}
    (htarget : ∀ i, (target i).form.WellNamed) {depth : Nat} {n : Node}
    (hn : n.form.WellNamed) (h : Yields (node config target depth n c) v s) :
    Reads v c.stream s ∧ Fits
    (Validator.typeAccepts config) target depth n v := by
  induction depth generalizing n c v s with
  | zero => exact absurd h not_yields_error
  | succ depth ih =>
      unfold node at h
      obtain ⟨v, hv, rfl⟩ := h.of_map (f := id) (fun _ => rfl) fun _ => rfl
      rcases nullOr_sound hv with ⟨hnullable, rfl, hreads⟩ | hform
      · exact ⟨hreads, Or.inl hnullable⟩
      · obtain ⟨hreads, hfits⟩ := form_sound (fun n c v s hn h => ih hn h)
          (fun c v s h => untyped_sound h) htarget hn hform
        exact ⟨hreads, Or.inr hfits⟩

end Parsing
end JsonTypedef
