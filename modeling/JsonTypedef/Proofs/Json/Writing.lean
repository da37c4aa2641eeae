import JsonTypedef.Json.Writer
import JsonTypedef.Proofs.Json.Same
import JsonTypedef.Proofs.Json.Text

/-!
# Written values are JSON text

The compact text of a value denotes that value, provided that every double in it
is read back from its text.  Integers and strings need no such assumption.
-/

namespace JsonTypedef

/-- The double is read back from its compact text. -/
def Double.ReadsBack (d : Double) : Prop :=
  Numeral.ofText? (String.ofList (Layout.compact.double d)) = some (.float d)

namespace Grammar

/-! ## Numbers -/

theorem head_toDigits {n : Nat} (h : 0 < n) :
    (Nat.toDigits 10 n).head? ≠ some '0' := by
  induction n using Nat.strongRecOn with
  | ind n ih =>
      rw [Nat.toDigits_eq_if (by decide)]
      split
      next => simpa using Nat.ne_of_gt h
      next hge =>
        rw [List.head?_append_of_ne_nil _ Nat.toDigits_ne_nil]
        exact ih (n / 10) (by omega) (by omega)

theorem isDigit_of_mem_digits {n : Nat} {c : Char} (h : c ∈ Layout.digits n) :
    Numeral.isDigit c = true := by
  have hdigit := Nat.isDigit_of_mem_toDigits (by decide) (by decide) h
  simpa [Numeral.isDigit, Char.isDigit, Char.le_def] using hdigit

theorem isWhole_digits (n : Nat) : Numeral.IsWhole (Layout.digits n) := by
  cases n with
  | zero => exact Or.inl (Nat.toDigits_zero 10)
  | succ n =>
      exact Or.inr ⟨Nat.toDigits_ne_nil, head_toDigits (Nat.succ_pos n),
        fun c hc => isDigit_of_mem_digits hc⟩

theorem digitsValue_digits (n : Nat) :
    Numeral.digitsValue (Layout.digits n) = n := by
  have hvalue := Nat.ofDigitChars_ten_toDigits (n := n)
  rw [Nat.ofDigitChars_eq_foldl] at hvalue
  simpa only [Numeral.digitsValue, Numeral.digitValue, Layout.digits,
    Nat.mul_comm] using hvalue

/-- The numeral that an integer is written as. -/
def intNumeral (n : Int) : Numeral :=
  ⟨n < 0, Layout.digits n.natAbs, [], none⟩

theorem integer?_digits (n : Int) (fits : Number.fits n) :
    Numeral.integer? (n < 0) (Layout.digits n.natAbs) = some (.int n fits) := by
  have hofInt : Number.ofInt? n = some (.int n fits) := dif_pos fits
  simp only [Numeral.integer?, digitsValue_digits]
  by_cases hneg : n < 0
  · have hne : n.natAbs ≠ 0 := by omega
    have habs : -(n.natAbs : Int) = n := by omega
    simp only [hneg, decide_true, if_true, if_neg hne, habs, hofInt]
  · have habs : (n.natAbs : Int) = n := by omega
    simp only [hneg, decide_false, Bool.false_eq_true, if_false, habs, hofInt]

theorem written_intNumeral (n : Int) (rest : List Char) :
    (intNumeral n).Written (Number.intText n ++ rest) rest := by
  refine ⟨⟨isWhole_digits _, ?_, ?_⟩, 'e', Or.inl rfl, ?_⟩
  · simp [intNumeral, Numeral.AllDigits]
  · simp [intNumeral]
  · by_cases hneg : n < 0 <;>
      simp [Numeral.spelled, intNumeral, Number.intText, Numeral.fractionText,
        Numeral.exponentText, hneg]

/-- The characters of a numeral are those of a number token. -/
theorem lexical_of_written {numeral : Numeral} {n : Number}
    {cs rest : List Char} (h : numeral.Written cs rest)
    (hvalue : numeral.value = .ok n) :
    ∃ lead, Lexical (.num lead n) cs rest := by
  obtain ⟨hvalid, letter, hletter, rfl⟩ := h
  obtain ⟨lead, tail, hspelled, -⟩ := spelled_eq_cons hvalid letter
  have hwritten : numeral.Written (numeral.spelled letter ++ rest) rest :=
    ⟨hvalid, letter, hletter, rfl⟩
  rw [hspelled] at hwritten ⊢
  exact ⟨lead, .num hwritten hvalue⟩

theorem lexical_number {n : Number} (hfloat : ∀ d, n = .float d → d.ReadsBack)
    (rest : List Char) :
    ∃ lead, Lexical (.num lead n) (n.text .compact ++ rest) rest := by
  cases n with
  | int n fits =>
      refine lexical_of_written (written_intNumeral n rest) ?_
      simp only [Numeral.value, intNumeral, List.isEmpty_nil, if_true,
        integer?_digits n fits]
  | float d =>
      have hback := hfloat d rfl
      unfold Double.ReadsBack Numeral.ofText? at hback
      rw [String.toList_ofList] at hback
      split at hback
      next numeral hread =>
        obtain ⟨⟨hvalid, letter, hletter, htext⟩, -⟩ :=
          Numeral.written_of_read hread
        rw [List.append_nil] at htext
        have hwritten :
            numeral.Written (Layout.compact.double d ++ rest) rest :=
          ⟨hvalid, letter, hletter, by rw [htext]⟩
        refine lexical_of_written hwritten ?_
        cases hvalue : numeral.value with
        | error e => rw [hvalue] at hback; cases hback
        | ok n =>
            rw [hvalue] at hback
            cases hback
            rfl
      next => cases hback

/-! ## Items between commas -/

section

variable {α : Type} {item : α → List Char → List Char → Prop}
    {write : α → List Char}
  {close : Token} {bracket : Char} {rest : List Char}

theorem endsNumber_cons {c : Char} (h : Numeral.IsFinal c) :
    endsNumber (c :: rest) := by
  rintro d ⟨⟩
  exact h

theorem textFront_of_lexical {t : Token} {cs : List Char}
    (h : Lexical t cs rest) : textFront t cs rest :=
  ⟨cs, .none, h⟩

theorem items_commaSeparated (hfinal : Numeral.IsFinal bracket)
    (hclose : Lexical close (bracket :: rest) rest) {a : α} {as : List α}
    (hitem : ∀ b ∈ a :: as, ∀ tail, endsNumber tail →
      item b (write b ++ tail) tail) :
    Items textFront close item (a :: as)
      (Value.commaSeparated ((a :: as).map write) ++ bracket :: rest) rest := by
  induction as generalizing a with
  | nil =>
      have ha := hitem a List.mem_cons_self (bracket :: rest)
        (endsNumber_cons hfinal)
      exact .last ha (textFront_of_lexical hclose)
  | cons b bs ih =>
      have hrest := ih fun x hx => hitem x (List.mem_cons_of_mem _ hx)
      have ha := hitem a List.mem_cons_self
        (',' :: (Value.commaSeparated ((b :: bs).map write) ++ bracket :: rest))
        (endsNumber_cons (by decide))
      have hitems := Items.more ha (textFront_of_lexical .comma) hrest
      simpa [Value.commaSeparated] using hitems

theorem contents_commaSeparated (hfinal : Numeral.IsFinal bracket)
    (hclose : Lexical close (bracket :: rest) rest) {as : List α}
    (hitem : ∀ a ∈ as, ∀ tail, endsNumber tail →
      item a (write a ++ tail) tail) :
    Contents textFront close item as
      (Value.commaSeparated (as.map write) ++ bracket :: rest) rest := by
  cases as with
  | nil => exact .empty (textFront_of_lexical hclose)
  | cons a as => exact .items (items_commaSeparated hfinal hclose hitem)

end

/-! ## Values -/

theorem itemTexts_eq_map (vs : List Value) :
    Value.itemTexts vs = vs.map Value.text := by
  induction vs with
  | nil => rfl
  | cons v vs ih => simp only [Value.itemTexts, List.map_cons, ih]

theorem memberTexts_eq_map (ms : List (String × Value)) :
    Value.memberTexts ms = ms.map fun m => Value.memberText m.1 m.2.text := by
  induction ms with
  | nil => rfl
  | cons m ms ih => simp only [Value.memberTexts, List.map_cons, ih]

theorem lexical_encode (s : String) (rest : List Char) :
    Lexical (.str s) (Quoted.encode s ++ rest) rest := by
  have hwritten := Quoted.written_encode s.toList rest
  have hlexical := Lexical.str hwritten
  rw [String.ofList_toList] at hlexical
  simpa [Quoted.encode] using hlexical

/-- The text of a value starts with that value. -/
theorem spells_text (v : Value) (hfloat : ∀ d, v.HasFloat d → d.ReadsBack)
    {rest : List Char} (hrest : endsNumber rest) :
    Spells textFront v (v.text ++ rest) rest := by
  induction v generalizing rest with
  | null => exact .null (textFront_of_lexical .null)
  | bool b =>
      cases b with
      | true => exact .bool (textFront_of_lexical .true)
      | false => exact .bool (textFront_of_lexical .false)
  | num n =>
      obtain ⟨lead, hlexical⟩ := lexical_number (n := n)
        (by rintro d rfl; exact hfloat d .here) rest
      exact .num (textFront_of_lexical hlexical)
  | str s => exact .str (textFront_of_lexical (lexical_encode s rest))
  | arr items ih =>
      have hcontents : Contents textFront .closeBracket (Spells textFront) items
          (Value.commaSeparated (items.map Value.text) ++ ']' :: rest) rest :=
        contents_commaSeparated (by decide) .closeBracket fun v hv tail htail =>
          ih v hv (fun d hd => hfloat d (.item hv hd)) htail
      refine .arr (textFront_of_lexical .openBracket) ?_
      simpa [itemTexts_eq_map] using hcontents
  | obj members ih =>
      have hmember : ∀ m ∈ members, ∀ tail, endsNumber tail →
          Member textFront (Spells textFront) m
            (Value.memberText m.1 m.2.text ++ tail) tail := by
        intro m hm tail htail
        have hvalue := ih m hm (fun d hd => hfloat d (.member hm hd)) htail
        have hkey := lexical_encode m.1 (':' :: (m.2.text ++ tail))
        have hmember :=
          Member.mk (textFront_of_lexical hkey) (textFront_of_lexical .colon)
            hvalue
        simpa [Value.memberText] using hmember
      have hcontents : Contents textFront .closeBrace
          (Member textFront (Spells textFront)) members
          (Value.commaSeparated
            (members.map fun m => Value.memberText m.1 m.2.text) ++
            '\x7d' :: rest) rest :=
        contents_commaSeparated (by decide) .closeBrace hmember
      refine .obj (textFront_of_lexical .openBrace) ?_
      simpa [memberTexts_eq_map] using hcontents

/-- The written text of a value denotes it. -/
theorem denotes_write (v : Value) (hfloat : ∀ d, v.HasFloat d → d.ReadsBack) :
    Denotes v.write v := by
  refine ⟨[], ?_, .none⟩
  have hspells : Spells textFront v (v.text ++ []) [] :=
    spells_text v hfloat (by simp [endsNumber])
  rw [List.append_nil] at hspells
  rwa [Value.write, String.toList_ofList]

end Grammar
end JsonTypedef
