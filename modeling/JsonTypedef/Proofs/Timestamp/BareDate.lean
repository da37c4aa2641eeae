import JsonTypedef.Proofs.Timestamp.Rendering

/-!
# Bare dates

Where bare dates are allowed, a text of ten bytes is accepted if a lenient scan
finds a date in it.  `LooseDate` is the grammar of that scan: blanks may precede
each number, the year may have a sign and then any number of digits, and each
number may have fewer digits than its place.  Ten bytes make up for the missing
digits only where a sign or a blank is present, so any other text accepted in
this way is a full date.
-/

namespace JsonTypedef
namespace Timestamp

open Numeral (AllDigits NoDigit digitsValue isDigit)
open Source (OneByte)

/-! ## Numbers behind blanks -/

/-- At least one digit, behind blanks that may precede them. -/
structure Spaced where
  blanks : List Char
  digits : List Char
  isBlank : ∀ c ∈ blanks, Text.isBlank c = true
  allDigits : AllDigits digits
  nonempty : digits ≠ []

namespace Spaced

/-- The number that the digits spell. -/
def value (s : Spaced) : ℕ :=
  digitsValue s.digits

/-- Blanks and digits. -/
def chars (s : Spaced) : List Char :=
  s.blanks ++ s.digits

end Spaced

theorem isBlank_eq_false_of_isDigit {c : Char} (h : isDigit c = true) :
    Text.isBlank c = false := by
  obtain ⟨hcode, hvalue⟩ := toNat_eq_digitValue h
  simp only [Text.isBlank, Bool.or_eq_false_iff, Bool.and_eq_false_iff,
    decide_eq_false_iff_not]
  omega

theorem exists_blanks (cs : List Char) :
    ∃ blanks, (∀ c ∈ blanks, Text.isBlank c = true) ∧
      cs = blanks ++ cs.dropWhile Text.isBlank :=
  ⟨cs.takeWhile Text.isBlank, List.all_eq_true.mp List.all_takeWhile,
    List.takeWhile_append_dropWhile.symm⟩

theorem dropWhile_blanks {blanks rest : List Char}
    (h : ∀ c ∈ blanks, Text.isBlank c = true)
    (hrest : ∀ c ∈ rest.head?, Text.isBlank c = false) :
    (blanks ++ rest).dropWhile Text.isBlank = rest := by
  rw [List.dropWhile_append_of_pos h]
  cases rest with
  | nil => rfl
  | cons c rest =>
      rw [List.dropWhile_cons_of_neg]
      rw [hrest c rfl]
      exact Bool.false_ne_true

theorem Spaced.exists_cons (s : Spaced) :
    ∃ c ds, isDigit c = true ∧ s.digits = c :: ds := by
  obtain ⟨c, ds, hds⟩ := List.exists_cons_of_ne_nil s.nonempty
  exact ⟨c, ds, s.allDigits c (hds ▸ List.mem_cons_self), hds⟩

theorem Spaced.dropWhile_chars (s : Spaced) (rest : List Char) :
    (s.chars ++ rest).dropWhile Text.isBlank = s.digits ++ rest := by
  obtain ⟨c, ds, hc, hds⟩ := s.exists_cons
  rw [chars, List.append_assoc]
  refine dropWhile_blanks s.isBlank ?_
  rw [hds]
  rintro d ⟨⟩
  exact isBlank_eq_false_of_isDigit hc

theorem readShortNumber_chars {most : ℕ} (s : Spaced) {rest : List Char}
    (hlength : s.digits.length ≤ most) (hrest : NoDigit rest) :
    readShortNumber most (s.chars ++ rest) = some (s.value, rest) := by
  unfold readShortNumber
  simp only [s.dropWhile_chars, Numeral.spanDigits_append s.allDigits hrest,
    List.take_of_length_le hlength, List.isEmpty_iff, s.nonempty, if_false,
    List.drop_left]
  rfl

theorem exists_of_readShortNumber {most n : ℕ} {cs rest : List Char}
    (h : readShortNumber most cs = some (n, rest)) :
    ∃ s : Spaced, s.digits.length ≤ most ∧ s.value = n ∧
      cs = s.chars ++ rest := by
  obtain ⟨blanks, hblanks, hcs⟩ := exists_blanks cs
  unfold readShortNumber at h
  dsimp only at h
  generalize cs.dropWhile Text.isBlank = start at h hcs
  cases hspan : Numeral.spanDigits start with
  | mk ds tail =>
    obtain ⟨rfl, hds, -⟩ := Numeral.spanDigits_spec hspan
    rw [hspan] at h
    split_ifs at h with hempty
    cases h
    refine ⟨⟨blanks, ds.take most, hblanks,
      fun c hc => hds c (List.mem_of_mem_take hc),
      fun hnil => hempty (List.isEmpty_iff.mpr hnil)⟩,
      List.length_take_le most ds, rfl, ?_⟩
    have hprefix : ds.take most <+: ds ++ tail :=
      (List.take_prefix most ds).trans (List.prefix_append ds tail)
    rw [Spaced.chars, List.append_assoc, List.prefix_iff_eq_append.mp hprefix]
    exact hcs

/-! ## Years -/

/-- A sign in front of a year, which is negative or not. -/
def signText : Option Bool → List Char
  | none => []
  | some true => ['-']
  | some false => ['+']

/-- A year by its sign and its digits. -/
def signed (sign : Option Bool) (n : ℕ) : ℤ :=
  if sign = some true then -(n : ℤ) else n

/-- Digits of any number behind the sign of a year. -/
def readSigned (negative : Bool) (cs : List Char) : Option (ℤ × List Char) :=
  match Numeral.spanDigits cs with
  | ([], _) => none
  | (ds, tail) => some (signed (some negative) (digitsValue ds), tail)

/-- Years behind either sign are read alike. -/
theorem readYear_eq (cs : List Char) :
    readYear cs =
      match cs.dropWhile Text.isBlank with
      | '-' :: rest => readSigned true rest
      | '+' :: rest => readSigned false rest
      | start => (readShortNumber 4 start).map fun (n, tail) => ((n : ℤ), tail) :=
  rfl

theorem readYear_of_isDigit {c : Char} {cs tail : List Char}
    (h : cs.dropWhile Text.isBlank = c :: tail) (hc : isDigit c = true) :
    readYear cs = (readShortNumber 4 (c :: tail)).map
      fun (n, tail) => ((n : ℤ), tail) := by
  rw [readYear_eq, h]
  split
  next heq =>
    cases heq
    cases hc
  next heq =>
    cases heq
    cases hc
  next => rfl

theorem readSigned_eq_some {negative : Bool} {year : ℤ} {cs rest : List Char} :
    readSigned negative cs = some (year, rest) ↔
      ∃ ds, AllDigits ds ∧ ds ≠ [] ∧ cs = ds ++ rest ∧ NoDigit rest ∧
        signed (some negative) (digitsValue ds) = year := by
  unfold readSigned
  constructor
  · intro h
    split at h
    · cases h
    next ds rest hne hspan =>
      cases h
      obtain ⟨hcs, hds, hrest⟩ := Numeral.spanDigits_spec hspan
      exact ⟨ds, hds, hne, hcs, hrest, rfl⟩
  · rintro ⟨ds, hds, hne, rfl, hrest, rfl⟩
    rw [Numeral.spanDigits_append hds hrest]
    obtain ⟨c, ds, rfl⟩ := List.exists_cons_of_ne_nil hne
    rfl

theorem readYear_chars {sign : Option Bool} {s : Spaced} {rest : List Char}
    (hlength : sign = none → s.digits.length ≤ 4) (hrest : NoDigit rest) :
    readYear (s.blanks ++ (signText sign ++ (s.digits ++ rest))) =
      some (signed sign s.value, rest) := by
  have hsigned (negative : Bool) : readSigned negative (s.digits ++ rest) =
      some (signed (some negative) s.value, rest) :=
    readSigned_eq_some.mpr
      ⟨s.digits, s.allDigits, s.nonempty, rfl, hrest, rfl⟩
  match sign with
  | some true =>
      rw [readYear_eq, dropWhile_blanks s.isBlank (by rintro c ⟨⟩; rfl)]
      exact hsigned true
  | some false =>
      rw [readYear_eq, dropWhile_blanks s.isBlank (by rintro c ⟨⟩; rfl)]
      exact hsigned false
  | none =>
      obtain ⟨c, ds, hc, hds⟩ := s.exists_cons
      have hstart := s.dropWhile_chars rest
      rw [hds] at hstart
      have hnumber : readShortNumber 4 (c :: ds ++ rest) =
          some (s.value, rest) := by
        rw [← hds]
        exact readShortNumber_chars
          ⟨[], s.digits, List.forall_mem_nil _, s.allDigits, s.nonempty⟩
          (hlength rfl) hrest
      rw [signText, List.nil_append, ← List.append_assoc]
      exact (readYear_of_isDigit hstart hc).trans
        (congrArg (Option.map _) hnumber)

theorem exists_of_readYear {year : ℤ} {cs rest : List Char}
    (h : readYear cs = some (year, rest)) :
    ∃ (sign : Option Bool) (s : Spaced),
      (sign = none → s.digits.length ≤ 4) ∧ signed sign s.value = year ∧
        cs = s.blanks ++ (signText sign ++ (s.digits ++ rest)) := by
  obtain ⟨blanks, hblanks, hcs⟩ := exists_blanks cs
  rw [readYear_eq] at h
  generalize cs.dropWhile Text.isBlank = start at h hcs
  split at h
  next =>
    obtain ⟨ds, hds, hne, rfl, -, rfl⟩ := readSigned_eq_some.mp h
    exact ⟨some true, ⟨blanks, ds, hblanks, hds, hne⟩, nofun, rfl, hcs⟩
  next =>
    obtain ⟨ds, hds, hne, rfl, -, rfl⟩ := readSigned_eq_some.mp h
    exact ⟨some false, ⟨blanks, ds, hblanks, hds, hne⟩, nofun, rfl, hcs⟩
  next =>
    obtain ⟨⟨n, tail⟩, hnumber, hyear⟩ := Option.map_eq_some_iff.mp h
    cases hyear
    obtain ⟨s, hlength, rfl, rfl⟩ := exists_of_readShortNumber hnumber
    -- Without a sign, blanks are skipped by the year and again by its number.
    refine ⟨none, ⟨blanks ++ s.blanks, s.digits,
      List.forall_mem_append.mpr ⟨hblanks, s.isBlank⟩, s.allDigits,
      s.nonempty⟩, fun _ => hlength, rfl, ?_⟩
    rw [hcs, Spaced.chars]
    simp only [List.append_assoc, signText, List.nil_append]

/-! ## Whole dates -/

/-- A date as the lenient scan takes it. -/
structure LooseDate where
  /-- The sign of the year, which is negative or not. -/
  sign : Option Bool
  year : Spaced
  month : Spaced
  day : Spaced
  year_le : sign = none → year.digits.length ≤ 4
  month_le : month.digits.length ≤ 2
  day_le : day.digits.length ≤ 2

namespace LooseDate

/-- The characters of a date, the sign behind the blanks of the year. -/
def chars (l : LooseDate) : List Char :=
  l.year.blanks ++ (signText l.sign ++ (l.year.digits ++
    '-' :: (l.month.chars ++ '-' :: l.day.chars)))

/-- The day that the numbers give. -/
def date (l : LooseDate) : Date :=
  ⟨signed l.sign l.year.value, l.month.value, l.day.value⟩

/-- There is no sign and no blank. -/
def IsPlain (l : LooseDate) : Prop :=
  l.sign = none ∧ l.year.blanks = [] ∧ l.month.blanks = [] ∧ l.day.blanks = []

end LooseDate

theorem toOption_eq_some {α : Type} {x : Except Fault α} {a : α} :
    x.toOption = some a ↔ x = .ok a := by
  cases x <;> simp [Except.toOption]

/-- The scan finds the dates that the grammar spells. -/
theorem readBareDate_eq_some {cs : List Char} {d : Date} :
    readBareDate cs = some d ↔
      ∃ l : LooseDate, l.chars = cs ∧ l.date = d ∧ d.isValid := by
  unfold readBareDate
  simp only [Option.bind_eq_bind, Option.bind_eq_some_iff, Prod.exists,
    toOption_eq_some, readMark_eq_ok]
  constructor
  · rintro ⟨year, _, hyear, _, rfl, month, _, hmonth, _, rfl, day, rest, hday,
      h⟩
    split_ifs at h with hend
    cases h
    obtain ⟨hrest, hvalid⟩ := Bool.and_eq_true_iff.mp hend
    obtain ⟨sign, y, hy, rfl, rfl⟩ := exists_of_readYear hyear
    obtain ⟨m, hm, rfl, rfl⟩ := exists_of_readShortNumber hmonth
    obtain ⟨d, hd, rfl, rfl⟩ := exists_of_readShortNumber hday
    refine ⟨⟨sign, y, m, d, hy, hm, hd⟩, ?_, rfl, hvalid⟩
    rw [List.isEmpty_iff.mp hrest, List.append_nil]
    rfl
  · rintro ⟨l, rfl, rfl, hvalid⟩
    have hhyphen {cs : List Char} : NoDigit ('-' :: cs) := by
      rintro c ⟨⟩
      rfl
    have hend : NoDigit [] := nofun
    have hday := readShortNumber_chars l.day l.day_le hend
    rw [List.append_nil] at hday
    exact ⟨_, _, readYear_chars l.year_le hhyphen, _, rfl, _, _,
      readShortNumber_chars l.month l.month_le hhyphen, _, rfl, _, _, hday,
      if_pos hvalid⟩

/-! ## Full dates -/

/-- The text is a year of four digits, a month and a day of two digits each, with
hyphens between, and the calendar has the day. -/
def IsFullDate (text : String) : Prop :=
  ∃ (year month day : ℕ) (ys ms ds : List Char),
    Field 4 year ys ∧ Field 2 month ms ∧ Field 2 day ds ∧
      text.toList = ys ++ '-' :: (ms ++ '-' :: ds) ∧
      (⟨year, month, day⟩ : Date).isValid

theorem byteCount_toList (text : String) :
    byteCount text.toList = text.utf8ByteSize := by
  have hcount (cs : List Char) : byteCount cs = String.utf8Len cs := by
    induction cs with
    | nil => rfl
    | cons c cs ih =>
        rw [String.utf8Len_cons, ← ih]
        exact Nat.add_comm _ _
  rw [hcount, ← String.utf8ByteSize_ofList, String.ofList_toList]

theorem le_of_read {text : String} {t : Timestamp} (h : read text = .ok t) :
    fixedLength ≤ text.utf8ByteSize := by
  unfold read readChars at h
  simp only [bind_eq_ok_iff, require_eq_ok, decide_eq_true_eq] at h
  obtain ⟨-, hlength, -⟩ := h
  rw [← byteCount_toList]
  exact hlength

/-- Apart from the texts that are accepted anyway, those of ten bytes are
accepted in which the scan finds a date. -/
theorem accepts_true_iff {text : String} :
    accepts true text = true ∧ accepts false text = false ↔
      text.utf8ByteSize = dateLength ∧
        ∃ l : LooseDate, l.chars = text.toList ∧ l.date.isValid := by
  have hscan : (readBareDate text.toList).isSome ↔
      ∃ l : LooseDate, l.chars = text.toList ∧ l.date.isValid := by
    simp only [Option.isSome_iff_exists, readBareDate_eq_some]
    constructor
    · rintro ⟨_, l, hchars, rfl, hvalid⟩
      exact ⟨l, hchars, hvalid⟩
    · rintro ⟨l, hchars, hvalid⟩
      exact ⟨_, l, hchars, rfl, hvalid⟩
  have htrue : accepts true text = true ↔ accepts false text = true ∨
      text.utf8ByteSize = dateLength ∧
        ∃ l : LooseDate, l.chars = text.toList ∧ l.date.isValid := by
    rw [← hscan, ← byteCount_toList]
    simp [accepts]
  rw [htrue]
  constructor
  · rintro ⟨haccepted | hdate, hfalse⟩
    · rw [haccepted] at hfalse
      cases hfalse
    · exact hdate
  · intro hdate
    refine ⟨.inr hdate, Bool.eq_false_iff.mpr fun haccepted => ?_⟩
    obtain ⟨t, hread⟩ := accepts_false_iff.mp haccepted
    have hle := le_of_read hread
    rw [hdate.1] at hle
    exact absurd hle (by decide)

theorem utf8ByteSize_of_digits {text : String} {ys ms ds : List Char}
    (hys : AllDigits ys) (hms : AllDigits ms) (hds : AllDigits ds)
    (htext : text.toList = ys ++ '-' :: (ms ++ '-' :: ds)) :
    text.utf8ByteSize = ys.length + ms.length + ds.length + 2 := by
  have honeByte : OneByte text.toList := by
    rw [htext]
    exact .append (Numeral.oneByte_of_allDigits hys) (.cons (by decide)
      (.append (Numeral.oneByte_of_allDigits hms) (.cons (by decide)
        (Numeral.oneByte_of_allDigits hds))))
  rw [utf8ByteSize_of_oneByte honeByte, htext]
  simp only [List.length_append, List.length_cons]
  omega

/-- Without a sign and blanks, ten bytes are as many digits as a full date has. -/
theorem isFullDate_of_isPlain {text : String} {l : LooseDate}
    (hlength : text.utf8ByteSize = dateLength) (hchars : l.chars = text.toList)
    (hplain : l.IsPlain) (hvalid : l.date.isValid) : IsFullDate text := by
  obtain ⟨hsign, hyblanks, hmblanks, hdblanks⟩ := hplain
  have htext : text.toList =
      l.year.digits ++ '-' :: (l.month.digits ++ '-' :: l.day.digits) := by
    rw [← hchars]
    simp only [LooseDate.chars, Spaced.chars, signText, hsign, hyblanks,
      hmblanks, hdblanks, List.nil_append]
  rw [utf8ByteSize_of_digits l.year.allDigits l.month.allDigits
    l.day.allDigits htext, dateLength] at hlength
  have hyear := l.year_le hsign
  have hmonth := l.month_le
  have hday := l.day_le
  have hdate : l.date = ⟨l.year.value, l.month.value, l.day.value⟩ := by
    rw [LooseDate.date, hsign]
    rfl
  exact ⟨l.year.value, l.month.value, l.day.value, l.year.digits,
    l.month.digits, l.day.digits, ⟨l.year.allDigits, by omega, rfl⟩,
    ⟨l.month.allDigits, by omega, rfl⟩, ⟨l.day.allDigits, by omega, rfl⟩,
    htext, hdate ▸ hvalid⟩

/-- The digits of a number, with no blanks in front. -/
def Field.spaced {width n : ℕ} {ds : List Char} (h : Field (width + 1) n ds) :
    Spaced where
  blanks := []
  digits := ds
  isBlank := List.forall_mem_nil _
  allDigits := h.digits
  nonempty := List.ne_nil_of_length_eq_add_one h.length

theorem exists_of_isFullDate {text : String} (h : IsFullDate text) :
    text.utf8ByteSize = dateLength ∧
      ∃ l : LooseDate, l.chars = text.toList ∧ l.date.isValid := by
  obtain ⟨year, month, day, ys, ms, ds, hys, hms, hds, htext, hvalid⟩ := h
  constructor
  · rw [utf8ByteSize_of_digits hys.digits hms.digits hds.digits htext,
      hys.length, hms.length, hds.length]
    rfl
  · refine ⟨⟨none, hys.spaced, hms.spaced, hds.spaced,
      fun _ => hys.length.le, hms.length.le, hds.length.le⟩, htext.symm, ?_⟩
    rw [← hys.value, ← hms.value, ← hds.value] at hvalid
    exact hvalid

/-- Where bare dates are allowed, the full dates are accepted in addition, and
besides them only texts of ten bytes in which a sign or blanks stand for digits
of a date. -/
theorem accepts_bareDate_iff (text : String) :
    accepts true text = true ∧ accepts false text = false ↔
      IsFullDate text ∨ text.utf8ByteSize = 10 ∧
        ∃ l : LooseDate, l.chars = text.toList ∧ l.date.isValid ∧
          ¬ l.IsPlain := by
  rw [accepts_true_iff]
  constructor
  · rintro ⟨hlength, l, hchars, hvalid⟩
    by_cases hplain : l.IsPlain
    · exact .inl (isFullDate_of_isPlain hlength hchars hplain hvalid)
    · exact .inr ⟨hlength, l, hchars, hvalid, hplain⟩
  · rintro (h | ⟨hlength, l, hchars, hvalid, -⟩)
    · exact exists_of_isFullDate h
    · exact ⟨hlength, l, hchars, hvalid⟩

/-- A sign stands for the digits that month and day lack. -/
theorem accepts_signedYear :
    ¬ (accepts true "+2020-1-01" = true ∧ accepts false "+2020-1-01" = false ↔
      IsFullDate "+2020-1-01") := by
  rintro ⟨haccepted, -⟩
  obtain ⟨_, _, _, _, _, _, hyear, -, -, htext, -⟩ :=
    haccepted (by decide)
  obtain ⟨c, _, _, rfl, hc, -⟩ := hyear.uncons
  have hhead : some '+' = some c := congrArg List.head? htext
  cases hhead
  cases hc

end Timestamp
end JsonTypedef
