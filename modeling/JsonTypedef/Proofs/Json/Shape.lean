import JsonTypedef.Proofs.Json.Text

/-!
# The shape of JSON text

`Shape.WellFormed` is the grammar of JSON text with nothing said about what a
text denotes: a numeral may be out of range and a surrogate may stand alone.
`Shape.Begins` holds of the beginnings of such texts; these are composed like
the texts themselves.
-/

namespace JsonTypedef
namespace Shape

open Grammar

/-- A set of texts. -/
abbrev Texts :=
  List Char → Prop

/-- A text of the first set and behind it one of the second set. -/
inductive Seq (L M : Texts) : Texts
  | mk {l m : List Char} : L l → M m → Seq L M (l ++ m)

/-! ## Tokens -/

/-- A character of a string as it may stand between the quotes. -/
inductive Piece : Texts
  | plain {c : Char} : c ≠ '"' → c ≠ '\\' → ¬ c.toNat < 0x20 → Piece [c]
  | short {e c : Char} : Quoted.shortEscape? e = some c → Piece ['\\', e]
  | hex {n : Nat} {l : List Char} :
      Quoted.Hex n l [] → Piece ('\\' :: 'u' :: l)

/-- A string from behind its opening quote. -/
inductive Body : Texts
  | close : Body ['"']
  | piece {l m : List Char} : Piece l → Body m → Body (l ++ m)

/-- A numeral, be there a number that it denotes or not. -/
inductive Digits : Texts
  | mk {numeral : Numeral} {letter : Char} :
      numeral.Valid → Numeral.IsLetter letter →
        Digits (numeral.spelled letter)

/-- The spellings of a token, strings not being told apart, nor numbers. -/
inductive Spelling : Token → Texts
  | openBrace : Spelling .openBrace ['\x7b']
  | closeBrace : Spelling .closeBrace ['\x7d']
  | openBracket : Spelling .openBracket ['[']
  | closeBracket : Spelling .closeBracket [']']
  | comma : Spelling .comma [',']
  | colon : Spelling .colon [':']
  | null : Spelling .null ['n', 'u', 'l', 'l']
  | true : Spelling (.bool true) ['t', 'r', 'u', 'e']
  | false : Spelling (.bool false) ['f', 'a', 'l', 's', 'e']
  | str {x : String} {l : List Char} : Body l → Spelling (.str x) ('"' :: l)
  | num {lead : Char} {n : Number} {l : List Char} :
      Digits l → Spelling (.num lead n) l

/-- Nothing but blanks. -/
def Blank : Texts := fun l =>
  ∀ c ∈ l, IsBlank c

/-- A token with blanks in front of it. -/
abbrev Lead (t : Token) : Texts :=
  Seq Blank (Spelling t)

/-! ## Values -/

/-- One or more items with commas between them and a closing token behind. -/
inductive Items (close : Token) (item : Texts) : Texts
  | last {l m : List Char} :
      item l → Lead close m → Items close item (l ++ m)
  | more {l m n : List Char} :
      item l → Lead .comma m → Items close item n →
        Items close item (l ++ (m ++ n))

/-- The contents of a container from behind its opening token. -/
inductive Contents (close : Token) (item : Texts) : Texts
  | empty {l : List Char} : Lead close l → Contents close item l
  | items {l : List Char} : Items close item l → Contents close item l

/-- A member of an object. -/
inductive Member (value : Texts) : Texts
  | mk {key : String} {l m n : List Char} :
      Lead (.str key) l → Lead .colon m → value n → Member value (l ++ (m ++ n))

/-- The token is a value of its own. -/
def IsScalar : Token → Prop
  | .null | .bool _ | .str _ | .num _ _ => True
  | _ => False

/-- The texts of values. -/
inductive Value : Texts
  | scalar {t : Token} {l : List Char} : Lead t l → IsScalar t → Value l
  | arr {l m : List Char} :
      Lead .openBracket l → Contents .closeBracket Value m → Value (l ++ m)
  | obj {l m : List Char} :
      Lead .openBrace l → Contents .closeBrace (Member Value) m →
        Value (l ++ m)

/-- The texts of JSON. -/
def WellFormed : Texts :=
  Seq Value Blank

/-! ## Composing texts -/

section

variable {close : Token} {item value : Texts} {key : String} {l : List Char}

theorem items_of_last (h : Seq item (Lead close) l) : Items close item l := by
  cases h with
  | mk hitem hclose => exact .last hitem hclose

theorem items_of_more
    (h : Seq item (Seq (Lead .comma) (Items close item)) l) :
    Items close item l := by
  cases h with
  | mk hitem hrest =>
      cases hrest with
      | mk hcomma hitems => exact .more hitem hcomma hitems

theorem member_of_seq
    (h : Seq (Lead (.str key)) (Seq (Lead .colon) value) l) :
    Member value l := by
  cases h with
  | mk hkey hrest =>
      cases hrest with
      | mk hcolon hvalue => exact .mk hkey hcolon hvalue

theorem value_of_arr
    (h : Seq (Lead .openBracket) (Contents .closeBracket Value) l) :
    Value l := by
  cases h with
  | mk hopen hitems => exact .arr hopen hitems

theorem value_of_obj
    (h : Seq (Lead .openBrace) (Contents .closeBrace (Member Value)) l) :
    Value l := by
  cases h with
  | mk hopen hmembers => exact .obj hopen hmembers

end

/-- The contents of an object end with its brace. -/
theorem exists_append_of_contents {item : Texts} {l : List Char}
    (h : Contents .closeBrace item l) : ∃ m, l = m ++ ['\x7d'] := by
  have hlead : ∀ {l}, Lead .closeBrace l → ∃ m, l = m ++ ['\x7d'] := by
    rintro _ ⟨_, hbrace⟩
    cases hbrace
    exact ⟨_, rfl⟩
  cases h with
  | empty hend => exact hlead hend
  | items hitems =>
      induction hitems with
      | last _ hend =>
          obtain ⟨m, rfl⟩ := hlead hend
          exact ⟨_, (List.append_assoc _ _ _).symm⟩
      | more _ _ _ ih =>
          obtain ⟨m, rfl⟩ := ih
          exact ⟨_, by rw [← List.append_assoc, ← List.append_assoc]⟩

/-- The numeral zero. -/
def zero : Numeral :=
  ⟨false, ['0'], [], none⟩

theorem valid_zero : zero.Valid :=
  ⟨Or.inl rfl, by simp [zero, Numeral.AllDigits], by simp [zero]⟩

theorem exists_spelling (t : Token) : ∃ l, Spelling t l := by
  cases t with
  | openBrace => exact ⟨_, .openBrace⟩
  | closeBrace => exact ⟨_, .closeBrace⟩
  | openBracket => exact ⟨_, .openBracket⟩
  | closeBracket => exact ⟨_, .closeBracket⟩
  | comma => exact ⟨_, .comma⟩
  | colon => exact ⟨_, .colon⟩
  | null => exact ⟨_, .null⟩
  | bool b =>
      cases b with
      | true => exact ⟨_, .true⟩
      | false => exact ⟨_, .false⟩
  | str x => exact ⟨_, .str .close⟩
  | num lead n => exact ⟨_, .num (.mk valid_zero (Or.inl rfl))⟩

theorem lead_of_spelling {t : Token} {l : List Char} (h : Spelling t l) :
    Lead t l :=
  .mk (l := []) (by simp [Blank]) h

theorem exists_lead (t : Token) : ∃ l, Lead t l := by
  obtain ⟨l, hl⟩ := exists_spelling t
  exact ⟨l, lead_of_spelling hl⟩

theorem exists_value : ∃ l, Value l := by
  obtain ⟨l, hl⟩ := exists_lead .null
  exact ⟨l, .scalar hl trivial⟩

theorem exists_seq {L M : Texts} (hl : ∃ l, L l) (hm : ∃ m, M m) :
    ∃ l, Seq L M l := by
  obtain ⟨l, hl⟩ := hl
  obtain ⟨m, hm⟩ := hm
  exact ⟨l ++ m, .mk hl hm⟩

/-! ## First characters -/

instance : DecidablePred IsBlank := fun c =>
  inferInstanceAs (Decidable (c = ' ' ∨ c = '\t' ∨ c = '\n' ∨ c = '\r'))

section

variable {c : Char} {l r cs : List Char} {t : Token}

/-- A numeral starts with its sign or a digit. -/
theorem lead_of_digits (h : Digits (c :: l)) :
    c = '-' ∨ Numeral.isDigit c = true := by
  generalize hl : c :: l = m at h
  cases h with
  | @mk n letter hvalid hletter =>
      have hwritten : n.Written (c :: l) [] :=
        ⟨hvalid, letter, hletter, by rw [hl, List.append_nil]⟩
      exact lead_of_written hwritten

theorem spelling_ne_nil (h : Spelling t l) : l ≠ [] := by
  cases h with
  | num hdigits =>
      cases hdigits with
      | @mk n letter hvalid hletter =>
          obtain ⟨first, tail, hspelled, -⟩ := spelled_eq_cons hvalid letter
          rw [hspelled]
          exact List.cons_ne_nil _ _
  | _ => exact List.cons_ne_nil _ _

/-- A token whose text starts with no blank starts with its spelling. -/
theorem spelling_of_lead (h : Lead t l) (hl : l ++ r = c :: cs)
    (hc : ¬ IsBlank c) : ∃ m, Spelling t (c :: m) ∧ m ++ r = cs := by
  cases h with
  | @mk b m hblank hspelling =>
      cases b with
      | nil =>
          obtain ⟨d, m, rfl⟩ :=
            List.exists_cons_of_ne_nil (spelling_ne_nil hspelling)
          obtain ⟨rfl, hm⟩ := List.cons.inj hl
          exact ⟨m, hspelling, hm⟩
      | cons d b =>
          obtain rfl : d = c := (List.cons.inj hl).1
          exact absurd (hblank d List.mem_cons_self) hc

/-- A value starts with a bracket and its contents, or with the spelling of a
token that is a value. -/
theorem value_cons (h : Value l) (hl : l ++ r = c :: cs) (hc : ¬ IsBlank c) :
    (c = '[' ∧ ∃ m, Contents .closeBracket Value m ∧ m ++ r = cs) ∨
    (c = '\x7b' ∧ ∃ m, Contents .closeBrace (Member Value) m ∧ m ++ r = cs) ∨
    ∃ t m, IsScalar t ∧ Spelling t (c :: m) := by
  cases h with
  | scalar hlead ht =>
      obtain ⟨m, hspelling, -⟩ := spelling_of_lead hlead hl hc
      exact Or.inr (Or.inr ⟨_, m, ht, hspelling⟩)
  | arr hopen hitems =>
      rw [List.append_assoc] at hl
      obtain ⟨m, hspelling, hm⟩ := spelling_of_lead hopen hl hc
      cases hspelling
      exact Or.inl ⟨rfl, _, hitems, hm⟩
  | obj hopen hmembers =>
      rw [List.append_assoc] at hl
      obtain ⟨m, hspelling, hm⟩ := spelling_of_lead hopen hl hc
      cases hspelling
      exact Or.inr (Or.inl ⟨rfl, _, hmembers, hm⟩)

/-- What starts like an item starts with one. -/
theorem item_of_items {close : Token} {item : Texts}
    (h : Items close item l) : ∃ m n, item m ∧ l = m ++ n := by
  cases h with
  | last hitem _ => exact ⟨_, _, hitem, rfl⟩
  | more hitem _ _ => exact ⟨_, _, hitem, rfl⟩

end

/-! ## Beginnings of texts -/

/-- A text that can be completed to one of the set. -/
def Begins (L : Texts) : Texts := fun l =>
  ∃ tail, L (l ++ tail)

theorem Begins.of {L : Texts} {l : List Char} (h : L l) : Begins L l :=
  ⟨[], by rwa [List.append_nil]⟩

theorem Begins.mono {L M : Texts} {l : List Char} (h : Begins L l)
    (hle : ∀ l, L l → M l) : Begins M l := by
  obtain ⟨tail, htail⟩ := h
  exact ⟨tail, hle _ htail⟩

theorem Begins.left {L M : Texts} {l : List Char} (h : Begins L l)
    (hm : ∃ m, M m) : Begins (Seq L M) l := by
  obtain ⟨tail, htail⟩ := h
  obtain ⟨m, hm⟩ := hm
  refine ⟨tail ++ m, ?_⟩
  rw [← List.append_assoc]
  exact .mk htail hm

theorem Begins.right {L M : Texts} {l m : List Char} (hl : L l)
    (h : Begins M m) : Begins (Seq L M) (l ++ m) := by
  obtain ⟨tail, htail⟩ := h
  refine ⟨tail, ?_⟩
  rw [List.append_assoc]
  exact .mk hl htail

/-! ## What is written -/

theorem body_of_written {ds cs rest : List Char}
    (h : Quoted.Written ds cs rest) : ∃ l, cs = l ++ rest ∧ Body l := by
  induction h with
  | close => exact ⟨['"'], rfl, .close⟩
  | item hitem _ ih =>
      obtain ⟨m, rfl, hm⟩ := ih
      cases hitem with
      | plain hquote hescape hcontrol =>
          exact ⟨_ :: m, rfl, .piece (.plain hquote hescape hcontrol) hm⟩
      | @short e _ _ hshort =>
          exact ⟨'\\' :: e :: m, rfl, .piece (.short hshort) hm⟩
      | unit hhex =>
          obtain ⟨l, rfl, hframe⟩ := hhex.frame
          have hl := hframe []
          rw [List.append_nil] at hl
          exact ⟨'\\' :: 'u' :: (l ++ m), by simp, .piece (.hex hl) hm⟩
      | pair hhex _ hhex' =>
          obtain ⟨l', rfl, hframe'⟩ := hhex'.frame
          obtain ⟨l, rfl, hframe⟩ := hhex.frame
          have hl := hframe []
          have hl' := hframe' []
          rw [List.append_nil] at hl hl'
          exact ⟨'\\' :: 'u' :: l ++ ('\\' :: 'u' :: l' ++ m), by simp,
            .piece (.hex hl) (.piece (.hex hl') hm)⟩

theorem blank_of_blanks {cs rest : List Char} (h : Blanks cs rest) :
    ∃ l, cs = l ++ rest ∧ Blank l := by
  induction h with
  | none => exact ⟨[], rfl, by simp [Blank]⟩
  | more hblank _ ih =>
      obtain ⟨l, rfl, hl⟩ := ih
      refine ⟨_ :: l, rfl, fun d hd => ?_⟩
      rcases List.mem_cons.mp hd with rfl | hd
      · exact hblank
      · exact hl d hd

theorem blank_of_blanks_nil {cs : List Char} (h : Blanks cs []) :
    Blank cs := by
  obtain ⟨l, rfl, hl⟩ := blank_of_blanks h
  rwa [List.append_nil]

end Shape
end JsonTypedef
