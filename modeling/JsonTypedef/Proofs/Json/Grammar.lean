import JsonTypedef.Json.Reader

/-!
# The grammar of JSON over tokens

`Grammar.Spells` says which value a text starts with and what remains of the
text behind it.  It is stated once for texts of every kind: all that it asks of
a text is which token stands at its front.  The reader and the parser are
related to this grammar over streams, and the text of a document over lists of
characters; `Grammar.Spells.transfer` carries a spelling from one kind of text
to another.
-/

namespace JsonTypedef

/-- Induction on the nesting of values. -/
@[induction_eliminator]
theorem Value.induct {motive : Value → Prop} (null : motive .null)
    (bool : ∀ b, motive (.bool b)) (num : ∀ n, motive (.num n))
    (str : ∀ s, motive (.str s))
    (arr : ∀ items, (∀ v ∈ items, motive v) → motive (.arr items))
    (obj : ∀ members, (∀ m ∈ members, motive m.2) → motive (.obj members))
    (v : Value) : motive v := by
  refine Value.rec (motive_1 := motive)
    (motive_2 := fun items => ∀ v ∈ items, motive v)
    (motive_3 := fun members => ∀ m ∈ members, motive m.2)
    (motive_4 := fun m => motive m.2)
    null bool num str arr obj ?_ ?_ ?_ ?_ (fun _ _ h => h) v
  · simp
  · intro head tail hhead htail v hv
    rcases List.mem_cons.mp hv with rfl | hv
    · exact hhead
    · exact htail v hv
  · simp
  · intro head tail hhead htail m hm
    rcases List.mem_cons.mp hm with rfl | hm
    · exact hhead
    · exact htail m hm

namespace Grammar

/-- Which token stands at the front of a text, and the text behind it. -/
abbrev Front (τ : Type) :=
  Token → τ → τ → Prop

section

variable {τ α : Type} (front : Front τ)

/-- One or more items with commas between them and a closing token behind. -/
inductive Items (close : Token) (item : α → τ → τ → Prop) :
    List α → τ → τ → Prop
  | last {a : α} {s t u : τ} :
      item a s t → front close t u → Items close item [a] s u
  | more {a : α} {as : List α} {s t u w : τ} :
      item a s t → front .comma t u → Items close item as u w →
        Items close item (a :: as) s w

/-- The contents of a container from behind its opening token. -/
inductive Contents (close : Token) (item : α → τ → τ → Prop) :
    List α → τ → τ → Prop
  | empty {s t : τ} : front close s t → Contents close item [] s t
  | items {as : List α} {s t : τ} :
      Items front close item as s t → Contents close item as s t

/-- A member of an object: its name, a colon and its value. -/
inductive Member (value : α → τ → τ → Prop) : String × α → τ → τ → Prop
  | mk {key : String} {a : α} {s t u w : τ} :
      front (.str key) s t → front .colon t u → value a u w →
        Member value (key, a) s w

/-- A text starts with the tokens of a value.  Members are taken as written,
repeated names included. -/
inductive Spells : Value → τ → τ → Prop
  | null {s t : τ} : front .null s t → Spells .null s t
  | bool {b : Bool} {s t : τ} : front (.bool b) s t → Spells (.bool b) s t
  | num {lead : Char} {n : Number} {s t : τ} :
      front (.num lead n) s t → Spells (.num n) s t
  | str {x : String} {s t : τ} : front (.str x) s t → Spells (.str x) s t
  | arr {items : List Value} {s t u : τ} :
      front .openBracket s t → Contents front .closeBracket Spells items t u →
        Spells (.arr items) s u
  | obj {members : List (String × Value)} {s t u : τ} :
      front .openBrace s t →
        Contents front .closeBrace (Member front Spells) members t u →
          Spells (.obj members) s u

end

theorem Items.and_forall {τ α : Type} {front : Front τ} {close : Token}
    {item : α → τ → τ → Prop} {holds : α → Prop} {as : List α} {s t : τ}
    (h : Items front close (fun a s t => item a s t ∧ holds a) as s t) :
    Items front close item as s t ∧ ∀ a ∈ as, holds a := by
  induction h with
  | last ha hend =>
      refine ⟨.last ha.1 hend, fun a hmem => ?_⟩
      rw [List.mem_singleton.mp hmem]
      exact ha.2
  | more ha hcomma _ ih =>
      refine ⟨.more ha.1 hcomma ih.1, fun a hmem => ?_⟩
      rcases List.mem_cons.mp hmem with rfl | hmem
      · exact ha.2
      · exact ih.2 a hmem

/-- What holds of each item as it is spelled holds of all items. -/
theorem Contents.and_forall {τ α : Type} {front : Front τ} {close : Token}
    {item : α → τ → τ → Prop} {holds : α → Prop} {as : List α} {s t : τ}
    (h : Contents front close (fun a s t => item a s t ∧ holds a) as s t) :
    Contents front close item as s t ∧ ∀ a ∈ as, holds a := by
  cases h with
  | empty hend => exact ⟨.empty hend, by simp⟩
  | items hitems => exact hitems.and_forall.imp_left .items

/-! ## Carrying spellings over -/

/-- The token may stand behind a value inside a container. -/
def endsItem (t : Token) : Prop :=
  t = .comma ∨ t = .closeBracket ∨ t = .closeBrace

/-- Texts of one kind follow texts of another kind token by token.  A number is
followed only where it `ends`, since characters behind it might continue it. -/
structure Follows {σ τ : Type} (front : Front σ) (front' : Front τ)
    (rel : σ → τ → Prop) (ends : σ → Prop) : Prop where
  step : ∀ {t : Token} {s s' : σ} {r : τ}, front t s s' → rel s r →
    ((∃ lead n, t = .num lead n) → ends s') → ∃ r', front' t r r' ∧ rel s' r'
  ends_of_endsItem : ∀ {t : Token} {s s' : σ},
    front t s s' → endsItem t → ends s

namespace Follows

variable {σ τ α β : Type} {front : Front σ} {front' : Front τ}
    {rel : σ → τ → Prop}
  {ends : σ → Prop}

/-- A token other than a number is followed without further conditions. -/
theorem mark (hfollow : Follows front front' rel ends) {t : Token} {s s' : σ}
    {r : τ} (h : front t s s') (hrel : rel s r)
    (hnum : ∀ lead n, t ≠ .num lead n) : ∃ r', front' t r r' ∧ rel s' r' :=
  hfollow.step h hrel fun ⟨lead, n, ht⟩ => absurd ht (hnum lead n)

theorem items (hfollow : Follows front front' rel ends) {close : Token}
    (hclose : endsItem close) {item : α → σ → σ → Prop}
    {item' : α → τ → τ → Prop} {as : List α} {s u : σ} {r : τ}
    (hitem : ∀ a ∈ as, ∀ {s t : σ} {r : τ}, item a s t → ends t → rel s r →
      ∃ r', item' a r r' ∧ rel t r') (h : Items front close item as s u)
    (hrel : rel s r) : ∃ r', Items front' close item' as r r' ∧ rel u r' := by
  have hnum : ∀ {t : Token}, endsItem t → ∀ lead n, t ≠ .num lead n := by
    rintro t (rfl | rfl | rfl) lead n <;> simp
  induction h generalizing r with
  | last ha hend =>
      obtain ⟨r₁, ha', hrel₁⟩ :=
        hitem _ (List.mem_singleton_self _) ha
          (hfollow.ends_of_endsItem hend hclose) hrel
      obtain ⟨r₂, hend', hrel₂⟩ := hfollow.mark hend hrel₁ (hnum hclose)
      exact ⟨r₂, .last ha' hend', hrel₂⟩
  | more ha hcomma _ ih =>
      have hcommaEnds : endsItem .comma := Or.inl rfl
      obtain ⟨r₁, ha', hrel₁⟩ :=
        hitem _ List.mem_cons_self ha
          (hfollow.ends_of_endsItem hcomma hcommaEnds) hrel
      obtain ⟨r₂, hcomma', hrel₂⟩ := hfollow.mark hcomma hrel₁ (hnum hcommaEnds)
      obtain ⟨r₃, hrest', hrel₃⟩ :=
        ih (fun a ha => hitem a (List.mem_cons_of_mem _ ha)) hrel₂
      exact ⟨r₃, .more ha' hcomma' hrest', hrel₃⟩

theorem contents (hfollow : Follows front front' rel ends) {close : Token}
    (hclose : endsItem close) {item : α → σ → σ → Prop}
    {item' : α → τ → τ → Prop} {as : List α} {s u : σ} {r : τ}
    (hitem : ∀ a ∈ as, ∀ {s t : σ} {r : τ}, item a s t → ends t → rel s r →
      ∃ r', item' a r r' ∧ rel t r') (h : Contents front close item as s u)
    (hrel : rel s r) :
    ∃ r', Contents front' close item' as r r' ∧ rel u r' := by
  cases h with
  | empty hend =>
      obtain ⟨r', hend', hrel'⟩ := hfollow.mark hend hrel
        (by rcases hclose with rfl | rfl | rfl <;> simp)
      exact ⟨r', .empty hend', hrel'⟩
  | items hitems =>
      obtain ⟨r', hitems', hrel'⟩ := hfollow.items hclose hitem hitems hrel
      exact ⟨r', .items hitems', hrel'⟩

theorem member (hfollow : Follows front front' rel ends)
    {value : α → σ → σ → Prop} {value' : α → τ → τ → Prop} {m : String × α}
    {s u : σ} {r : τ}
    (hvalue : ∀ {s t : σ} {r : τ}, value m.2 s t → ends t → rel s r →
      ∃ r', value' m.2 r r' ∧ rel t r') (h : Member front value m s u)
    (hends : ends u) (hrel : rel s r) :
    ∃ r', Member front' value' m r r' ∧ rel u r' := by
  cases h with
  | mk hkey hcolon hval =>
      obtain ⟨r₁, hkey', hrel₁⟩ := hfollow.mark hkey hrel (by simp)
      obtain ⟨r₂, hcolon', hrel₂⟩ := hfollow.mark hcolon hrel₁ (by simp)
      obtain ⟨r₃, hval', hrel₃⟩ := hvalue hval hends hrel₂
      exact ⟨r₃, .mk hkey' hcolon' hval', hrel₃⟩

end Follows

/-- A spelling is carried over to every text that follows.  What stands behind
the value matters only if the value is a number. -/
theorem Spells.carry {σ τ : Type} {front : Front σ} {front' : Front τ}
    {rel : σ → τ → Prop} {ends : σ → Prop}
    (hfollow : Follows front front' rel ends) {v : Value} {s u : σ} {r : τ}
    (h : Spells front v s u) (hends : ∀ n, v = .num n → ends u)
    (hrel : rel s r) : ∃ r', Spells front' v r r' ∧ rel u r' := by
  induction v generalizing s u r with
  | null =>
      cases h with
      | null h =>
          obtain ⟨r', h', hrel'⟩ := hfollow.mark h hrel (by simp)
          exact ⟨r', .null h', hrel'⟩
  | bool b =>
      cases h with
      | bool h =>
          obtain ⟨r', h', hrel'⟩ := hfollow.mark h hrel (by simp)
          exact ⟨r', .bool h', hrel'⟩
  | num n =>
      cases h with
      | num h =>
          obtain ⟨r', h', hrel'⟩ := hfollow.step h hrel fun _ => hends n rfl
          exact ⟨r', .num h', hrel'⟩
  | str x =>
      cases h with
      | str h =>
          obtain ⟨r', h', hrel'⟩ := hfollow.mark h hrel (by simp)
          exact ⟨r', .str h', hrel'⟩
  | arr items ih =>
      cases h with
      | arr hopen hitems =>
          obtain ⟨r₁, hopen', hrel₁⟩ := hfollow.mark hopen hrel (by simp)
          obtain ⟨r₂, hitems', hrel₂⟩ :=
            hfollow.contents (Or.inr (Or.inl rfl))
              (fun a ha _ _ _ h hends => ih a ha h fun _ _ => hends)
              hitems hrel₁
          exact ⟨r₂, .arr hopen' hitems', hrel₂⟩
  | obj members ih =>
      cases h with
      | obj hopen hmembers =>
          obtain ⟨r₁, hopen', hrel₁⟩ := hfollow.mark hopen hrel (by simp)
          have hmember : ∀ m ∈ members, ∀ {s t : σ} {r : τ},
              Member front (Spells front) m s t → ends t → rel s r →
                ∃ r', Member front' (Spells front') m r r' ∧ rel t r' :=
            fun m hm => hfollow.member fun h hends =>
              ih m hm h fun _ _ => hends
          obtain ⟨r₂, hmembers', hrel₂⟩ :=
            hfollow.contents (Or.inr (Or.inr rfl)) hmember hmembers hrel₁
          exact ⟨r₂, .obj hopen' hmembers', hrel₂⟩

theorem Spells.transfer {σ τ : Type} {front : Front σ} {front' : Front τ}
    {rel : σ → τ → Prop} {ends : σ → Prop}
    (hfollow : Follows front front' rel ends) {v : Value} {s u : σ} {r : τ}
    (h : Spells front v s u) (hends : ends u) (hrel : rel s r) :
    ∃ r', Spells front' v r r' ∧ rel u r' :=
  h.carry hfollow (fun _ _ => hends) hrel

/-! ## Carrying facts back -/

section

variable {τ α : Type} {front : Front τ} {holds ends : τ → Prop}
  (hends : ∀ t s s', front t s s' → endsItem t → ends s)
  (hstep : ∀ t s s', front t s s' → ((∃ lead n, t = .num lead n) → ends s') →
    holds s' → holds s)

include hends hstep

theorem Contents.back {close : Token} (hclose : endsItem close)
    {item : α → τ → τ → Prop} {as : List α} {s u : τ}
    (hitem : ∀ a ∈ as, ∀ s s', item a s s' → ends s' → holds s' → holds s)
    (h : Contents front close item as s u) (hu : holds u) : holds s := by
  have hnum : ∀ {t : Token}, endsItem t → ¬ ∃ lead n, t = .num lead n := by
    rintro t (rfl | rfl | rfl) ⟨lead, n, ht⟩ <;> cases ht
  have hmark : ∀ {t : Token} {s s' : τ}, front t s s' → endsItem t → holds s' →
      holds s :=
    fun hfront ht => hstep _ _ _ hfront fun hlead => absurd hlead (hnum ht)
  cases h with
  | empty hend => exact hmark hend hclose hu
  | items hitems =>
      induction hitems with
      | last ha hend =>
          exact hitem _ (List.mem_singleton_self _) _ _ ha
            (hends _ _ _ hend hclose)
            (hmark hend hclose hu)
      | more ha hcomma _ ih =>
          have hmore := ih (fun a ha => hitem a (List.mem_cons_of_mem _ ha)) hu
          exact hitem _ List.mem_cons_self _ _ ha
            (hends _ _ _ hcomma (Or.inl rfl))
            (hmark hcomma (Or.inl rfl) hmore)

/-- A fact that each token carries back to the text in front of it is carried
back over a spelled value. -/
theorem Spells.back {v : Value} {s u : τ} (h : Spells front v s u)
    (hendsu : ends u) (hu : holds u) : holds s := by
  induction v generalizing s u with
  | null =>
      cases h with
      | null hfront => exact hstep _ _ _ hfront (by simp) hu
  | bool b =>
      cases h with
      | bool hfront => exact hstep _ _ _ hfront (by simp) hu
  | num n =>
      cases h with
      | num hfront => exact hstep _ _ _ hfront (fun _ => hendsu) hu
  | str x =>
      cases h with
      | str hfront => exact hstep _ _ _ hfront (by simp) hu
  | arr items ih =>
      cases h with
      | arr hopen hitems =>
          refine hstep _ _ _ hopen (by simp) ?_
          exact hitems.back hends hstep (Or.inr (Or.inl rfl))
            (fun v hv _ _ => ih v hv) hu
  | obj members ih =>
      cases h with
      | obj hopen hmembers =>
          refine hstep _ _ _ hopen (by simp) ?_
          refine hmembers.back hends hstep (Or.inr (Or.inr rfl))
            (fun m hm s s' hmember => ?_) hu
          cases hmember with
          | mk hkey hcolon hvalue =>
              intro hs hholds
              refine hstep _ _ _ hkey (by simp)
                (hstep _ _ _ hcolon (by simp) ?_)
              exact ih _ hm hvalue hs hholds

end

end Grammar
end JsonTypedef
