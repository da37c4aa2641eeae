import JsonTypedef.Proofs.Json.Formed
import Mathlib.Data.Nat.Digits.Defs

/-!
# String literals

`Quoted.Literal` is the grammar of a string with both of its quotes.  It takes
nothing from the reader: between the quotes stands one item behind the other,
and each item stands for one code point.  The short escapes are a table, a
hexadecimal digit is known by its place among the digits, and two surrogates
stand for the code point that they make up together.

The reader follows another grammar, `Quoted.Written`, in which its own functions
tell digits, escapes and surrogates.  The two agree on every item, and so a
token is a string just where a literal stands.
-/

namespace JsonTypedef
namespace Quoted

open Source (Spans)

/-- The characters that may stand behind a backslash and what they stand for. -/
def shortEscapes : List (Char × Char) :=
  [('"', '"'), ('\\', '\\'), ('/', '/'), ('b', '\x08'), ('f', '\x0c'),
    ('n', '\n'), ('r', '\r'), ('t', '\t')]

/-- The hexadecimal digits of either case and their values. -/
def hexDigits : List (Char × Nat) :=
  "0123456789abcdef".toList.zipIdx ++ "ABCDEF".toList.zipIdx 10

/-- Four hexadecimal digits that spell the number, the first digit being the
most significant. -/
def IsCodeUnit (digits : List Char) (n : Nat) : Prop :=
  ∃ values, values.length = 4 ∧
    List.Forall₂ (fun c value => (c, value) ∈ hexDigits) digits values ∧
      Nat.ofDigits 16 values.reverse = n

/-- An item between the quotes and the code point that it stands for. -/
inductive StandsFor : List Char → Nat → Prop
  | plain {c : Char} :
      c ≠ '"' → c ≠ '\\' → 0x20 ≤ c.toNat → StandsFor [c] c.toNat
  | short {e c : Char} : (e, c) ∈ shortEscapes → StandsFor ['\\', e] c.toNat
  | unit {digits : List Char} {n : Nat} :
      IsCodeUnit digits n → n < 0xd800 ∨ 0xdfff < n →
        StandsFor ('\\' :: 'u' :: digits) n
  | pair {first second : List Char} {high low : Nat} :
      IsCodeUnit first high → 0xd800 ≤ high → high ≤ 0xdbff →
        IsCodeUnit second low → 0xdc00 ≤ low → low ≤ 0xdfff →
          StandsFor ('\\' :: 'u' :: (first ++ '\\' :: 'u' :: second))
            (0x10000 + (high - 0xd800) * 0x400 + (low - 0xdc00))

/-- A quote, items that stand for the code points one by one, and a quote. -/
def Literal (cs : List Char) (codes : List Nat) : Prop :=
  ∃ items, List.Forall₂ StandsFor items codes ∧
    cs = '"' :: (items.flatten ++ ['"'])

/-! ## Digits and escapes -/

/-- A table tells all values of a function that has none beyond the characters
of one byte, if it does so for each of these. -/
theorem eq_some_iff_of_table {α : Type} {f : Char → Option α}
    {table : List (Char × α)} (hbyte : ∀ {c a}, f c = some a → c.utf8Size = 1)
    (hlookup : ∀ n < 128, f (Char.ofNat n) = table.lookup (Char.ofNat n))
    (htable : ∀ p ∈ table, f p.1 = some p.2) {c : Char} {a : α} :
    f c = some a ↔ (c, a) ∈ table := by
  constructor
  · intro h
    have hc : c.toNat < 128 :=
      Nat.lt_succ_of_le (Char.utf8Size_eq_one_iff.mp (hbyte h))
    have hfound := hlookup c.toNat hc
    rw [Char.ofNat_toNat, h] at hfound
    obtain ⟨before, behind, rfl, -⟩ := List.lookup_eq_some_iff.mp hfound.symm
    simp
  · exact htable (c, a)

theorem shortEscape?_eq_some_iff {e c : Char} :
    shortEscape? e = some c ↔ (e, c) ∈ shortEscapes :=
  eq_some_iff_of_table utf8Size_of_shortEscape? (by decide) (by decide)

theorem hexValue?_eq_some_iff {c : Char} {n : Nat} :
    hexValue? c = some n ↔ (c, n) ∈ hexDigits :=
  eq_some_iff_of_table utf8Size_of_hexValue? (by decide) (by decide)

theorem ofDigits_four (w x y z : Nat) :
    Nat.ofDigits 16 [w, x, y, z].reverse =
      ((w * 16 + x) * 16 + y) * 16 + z := by
  change Nat.ofDigits 16 [z, y, x, w] = _
  simp only [Nat.ofDigits_cons, Nat.ofDigits_nil]
  omega

theorem isCodeUnit_iff {digits : List Char} {n : Nat} :
    IsCodeUnit digits n ↔ Hex n digits [] := by
  constructor
  · rintro ⟨values, hlength, hdigits, rfl⟩
    obtain ⟨w, x, y, z, rfl⟩ := List.length_eq_four.mp hlength
    rw [ofDigits_four]
    simp only [← hexValue?_eq_some_iff] at hdigits
    obtain _ | ⟨ha, _ | ⟨hb, _ | ⟨hc, _ | ⟨hd, _ | _⟩⟩⟩⟩ := hdigits
    exact .mk ha hb hc hd
  · rintro @⟨a, b, c, d, w, x, y, z, _, ha, hb, hc, hd⟩
    refine ⟨[w, x, y, z], rfl, ?_, ofDigits_four w x y z⟩
    simp only [← hexValue?_eq_some_iff]
    exact .cons ha (.cons hb (.cons hc (.cons hd .nil)))

theorem hex_iff {n : Nat} {cs rest : List Char} :
    Hex n cs rest ↔ ∃ digits, IsCodeUnit digits n ∧ cs = digits ++ rest := by
  constructor
  · intro h
    obtain ⟨digits, rfl, hframe⟩ := h.frame
    refine ⟨digits, isCodeUnit_iff.mpr ?_, rfl⟩
    simpa using hframe []
  · rintro ⟨digits, hunit, rfl⟩
    obtain ⟨l, hl, hframe⟩ := (isCodeUnit_iff.mp hunit).frame
    rw [hl, List.append_nil]
    exact hframe rest

theorem IsCodeUnit.lt {digits : List Char} {n : Nat} (h : IsCodeUnit digits n) :
    n < 0x10000 := by
  have hdigit : ∀ {c : Char} {value : Nat}, hexValue? c = some value →
      value < 16 := by
    intro c value hvalue
    have hall : ∀ p ∈ hexDigits, p.2 < 16 := by decide
    exact hall _ (hexValue?_eq_some_iff.mp hvalue)
  obtain ⟨ha, hb, hc, hd⟩ := isCodeUnit_iff.mp h
  have hw := hdigit ha
  have hx := hdigit hb
  have hy := hdigit hc
  have hz := hdigit hd
  omega

/-! ## Items -/

/-- Every code point other than a surrogate is that of a character. -/
theorem exists_char {n : Nat} (h : n < 0xd800 ∨ 0xdfff < n ∧ n < 0x110000) :
    ∃ c : Char, c.toNat = n :=
  ⟨.ofNatAux n h, rfl⟩

theorem isHighSurrogate_iff {n : Nat} :
    isHighSurrogate n = true ↔ 0xd800 ≤ n ∧ n ≤ 0xdbff := by
  simp [isHighSurrogate]

theorem isLowSurrogate_iff {n : Nat} :
    isLowSurrogate n = true ↔ 0xdc00 ≤ n ∧ n ≤ 0xdfff := by
  simp [isLowSurrogate]

theorem toNat_joinSurrogates {high low : Nat} (hhigh : high ≤ 0xdbff)
    (hlow : low ≤ 0xdfff) :
    (joinSurrogates high low).toNat =
      0x10000 + (high - 0xd800) * 0x400 + (low - 0xdc00) := by
  obtain ⟨c, hc⟩ := exists_char
    (n := 0x10000 + (high - 0xd800) * 0x400 + (low - 0xdc00)) (by omega)
  rw [joinSurrogates, ← hc, Char.ofNat_toNat]

theorem StandsFor.exists_char {item : List Char} {n : Nat}
    (h : StandsFor item n) : ∃ c : Char, c.toNat = n := by
  cases h with
  | @plain c => exact ⟨c, rfl⟩
  | @short _ c => exact ⟨c, rfl⟩
  | unit hunit hn =>
      have hlt := hunit.lt
      exact Quoted.exists_char (by omega)
  | pair _ _ hhigh _ _ hlow => exact ⟨_, toNat_joinSurrogates hhigh hlow⟩

theorem item_of_standsFor {item : List Char} {c : Char}
    (h : StandsFor item c.toNat) (rest : List Char) :
    Item c (item ++ rest) rest := by
  -- the cases are on how a code point is spelled, so it takes the place of `c`
  generalize hn : c.toNat = n at h
  cases h with
  | @plain d hquote hescape hcontrol =>
      obtain rfl := Char.toNat_inj.mp hn
      exact .plain hquote hescape (Nat.not_lt.mpr hcontrol)
  | @short e d hmem =>
      obtain rfl := Char.toNat_inj.mp hn
      exact .short (shortEscape?_eq_some_iff.mpr hmem)
  | @unit digits _ hunit hsurrogate =>
      subst hn
      have hhex : Hex c.toNat (digits ++ rest) rest :=
        hex_iff.mpr ⟨digits, hunit, rfl⟩
      have hitem := Item.unit hhex
        (by rw [← Bool.not_eq_true, isHighSurrogate_iff]; omega)
        (by rw [← Bool.not_eq_true, isLowSurrogate_iff]; omega)
      rwa [Char.ofNat_toNat] at hitem
  | @pair first second high low hfirst hhigh hhigh' hsecond hlow hlow' =>
      have hhex : Hex low (second ++ rest) rest :=
        hex_iff.mpr ⟨second, hsecond, rfl⟩
      have hhex' : Hex high (first ++ '\\' :: 'u' :: (second ++ rest))
          ('\\' :: 'u' :: (second ++ rest)) :=
        hex_iff.mpr ⟨first, hfirst, rfl⟩
      have hitem := Item.pair hhex' (isHighSurrogate_iff.mpr ⟨hhigh, hhigh'⟩)
        hhex (isLowSurrogate_iff.mpr ⟨hlow, hlow'⟩)
      have hc : joinSurrogates high low = c :=
        Char.toNat_inj.mp ((toNat_joinSurrogates hhigh' hlow').trans hn.symm)
      rw [hc] at hitem
      simpa using hitem

theorem exists_standsFor {c : Char} {cs rest : List Char}
    (h : Item c cs rest) :
    ∃ item, StandsFor item c.toNat ∧ cs = item ++ rest := by
  cases h with
  | plain hquote hescape hcontrol =>
      exact ⟨[c], .plain hquote hescape (Nat.le_of_not_lt hcontrol), rfl⟩
  | @short e _ _ hshort =>
      exact ⟨['\\', e], .short (shortEscape?_eq_some_iff.mp hshort), rfl⟩
  | @unit n _ _ hhex hhigh hlow =>
      obtain ⟨digits, hunit, rfl⟩ := hex_iff.mp hhex
      rw [← Bool.not_eq_true, isHighSurrogate_iff] at hhigh
      rw [← Bool.not_eq_true, isLowSurrogate_iff] at hlow
      have hlt := hunit.lt
      obtain ⟨c, rfl⟩ := exists_char (n := n) (by omega)
      rw [Char.ofNat_toNat]
      exact ⟨'\\' :: 'u' :: digits, .unit hunit (by omega), rfl⟩
  | @pair high low _ _ _ hhex hhigh hhex' hlow =>
      obtain ⟨second, hsecond, rfl⟩ := hex_iff.mp hhex'
      obtain ⟨first, hfirst, rfl⟩ := hex_iff.mp hhex
      obtain ⟨hhigh, hhigh'⟩ := isHighSurrogate_iff.mp hhigh
      obtain ⟨hlow, hlow'⟩ := isLowSurrogate_iff.mp hlow
      refine ⟨'\\' :: 'u' :: (first ++ '\\' :: 'u' :: second), ?_, by simp⟩
      rw [toNat_joinSurrogates hhigh' hlow']
      exact .pair hfirst hhigh hhigh' hsecond hlow hlow'

/-! ## Strings -/

theorem written_iff {ds cs rest : List Char} :
    Written ds cs rest ↔ ∃ items,
      List.Forall₂ StandsFor items (ds.map Char.toNat) ∧
        cs = items.flatten ++ '"' :: rest := by
  constructor
  · intro h
    induction h with
    | close => exact ⟨[], .nil, rfl⟩
    | item hitem _ ih =>
        obtain ⟨items, hitems, rfl⟩ := ih
        obtain ⟨item, hstands, rfl⟩ := exists_standsFor hitem
        exact ⟨item :: items, .cons hstands hitems, by simp⟩
  · rintro ⟨items, hitems, rfl⟩
    induction ds generalizing items with
    | nil =>
        cases hitems
        exact .close
    | cons d ds ih =>
        cases hitems with
        | @cons item _ items _ hitem hitems =>
            rw [List.flatten_cons, List.append_assoc]
            exact .item (item_of_standsFor hitem _) (ih items hitems)

/-- A literal stands for the characters of some string. -/
theorem Literal.exists_string {cs : List Char} {codes : List Nat}
    (h : Literal cs codes) : ∃ x : String, x.toList.map Char.toNat = codes := by
  obtain ⟨items, hitems, -⟩ := h
  induction hitems with
  | nil => exact ⟨"", rfl⟩
  | cons hitem _ ih =>
      obtain ⟨c, rfl⟩ := hitem.exists_char
      obtain ⟨x, rfl⟩ := ih
      exact ⟨.ofList (c :: x.toList), by simp⟩

/-- Reading from behind a quote takes items and the quote behind them, and gives
the characters that the items stand for. -/
theorem read_eq_ok_iff {pos : Nat} {cs ds : List Char} {s : Source} :
    read pos cs = .ok (ds, s) ↔ ∃ items,
      List.Forall₂ StandsFor items (ds.map Char.toNat) ∧
        Spans (items.flatten ++ ['"']) ⟨pos, cs⟩ s := by
  constructor
  · intro h
    obtain ⟨items, hitems, hcs⟩ := written_iff.mp (written_of_read h)
    obtain ⟨l, -, hspans⟩ := read_passes h
    -- what is passed over is known from what is left behind it
    have hl : l ++ s.chars = (items.flatten ++ ['"']) ++ s.chars := by
      rw [← hspans.chars, List.append_assoc]
      exact hcs
    rw [List.append_cancel_right hl] at hspans
    exact ⟨items, hitems, hspans⟩
  · rintro ⟨items, hitems, hspans⟩
    have hcs : cs = items.flatten ++ '"' :: s.chars := by
      simpa using hspans.chars
    obtain ⟨s', hchars, hread⟩ :=
      read_of_written (written_iff.mpr ⟨items, hitems, hcs⟩) pos
    obtain ⟨l, -, hspans'⟩ := read_passes hread
    rw [hread, hspans.eq_of_chars hspans' hchars.symm]

/-- An encoded string is a literal of its characters. -/
theorem literal_encode (x : String) :
    Literal (encode x) (x.toList.map Char.toNat) := by
  obtain ⟨items, hitems, hcs⟩ := written_iff.mp (written_encode x.toList [])
  exact ⟨items, hitems, congrArg ('"' :: ·) hcs⟩

end Quoted

open Source (Spans)

/-- A token is a string just where a literal stands, and it is the string of the
characters that the literal stands for. -/
theorem Lexeme.read_eq_str_iff {s s' : Source} {x : String} :
    read s = .token (.str x) s' ↔
      ∃ l, Quoted.Literal l (x.toList.map Char.toNat) ∧ Spans l s s' := by
  have hquoted : ∀ pos cs, read ⟨pos, '"' :: cs⟩ = .token (.str x) s' ↔
      Quoted.read (pos + 1) cs = .ok (x.toList, s') := by
    intro pos cs
    change readString pos cs = _ ↔ _
    unfold readString
    cases Quoted.read (pos + 1) cs with
    | error e => simp
    | ok r => simp [← String.toList_inj, Prod.ext_iff]
  obtain ⟨pos, cs⟩ := s
  constructor
  · intro h
    obtain ⟨cs, rfl⟩ := List.head?_eq_some_iff.mp (head?_of_token h)
    obtain ⟨items, hitems, hspans⟩ :=
      Quoted.read_eq_ok_iff.mp ((hquoted pos cs).mp h)
    exact ⟨_, ⟨items, hitems, rfl⟩, (spans_quote pos cs).trans hspans⟩
  · rintro ⟨l, ⟨items, hitems, rfl⟩, hspans⟩
    obtain rfl : cs = '"' :: (items.flatten ++ ['"'] ++ s'.chars) :=
      hspans.chars
    have hpos : s'.pos = pos + 1 + String.utf8Len (items.flatten ++ ['"']) := by
      rw [hspans.pos, String.utf8Len_cons, Nat.add_assoc]
      exact congrArg (pos + ·) (Nat.add_comm _ 1)
    exact (hquoted pos _).mpr
      (Quoted.read_eq_ok_iff.mpr ⟨items, hitems, rfl, hpos⟩)

end JsonTypedef
