import JsonTypedef.Proofs.Json.Position
import JsonTypedef.Proofs.Timestamp.Calendar
import JsonTypedef.Proofs.Timestamp.Reading

/-!
# Rendered timestamps

The text of a timestamp gives day, time and milliseconds in digits of fixed
number with fixed marks between, as long as the day falls into the years 0000 to
9999.  Then day, time and milliseconds are read back, and they make up the same
instant.  Any other year has a sign in front, and such a text is not accepted.  A
date-time that is read has a year of four digits itself, and its offset leads it
to a day beside at most, so only those written for the first or the last day of
these years can leave them.
-/

namespace JsonTypedef
namespace Timestamp

open Source (OneByte)

/-- The day of UTC on which an instant falls. -/
def date (t : Timestamp) : Date :=
  Date.ofDayNumber (t.seconds / 86400)

/-- The time of that day, where second 60 is a leap second. -/
def clock (t : Timestamp) : Clock :=
  let second := (t.seconds % 86400).toNat
  ⟨second / 3600, second / 60 % 60, second % 60 + t.millis / 1000⟩

/-- The instant falls into one of the years 0000 to 9999 of UTC. -/
def InYears (t : Timestamp) : Prop :=
  0 ≤ t.date.year ∧ t.date.year ≤ 9999

instance (t : Timestamp) : Decidable t.InYears :=
  inferInstanceAs (Decidable (_ ∧ _))

/-- The time of a rendered timestamp. -/
def timeChars (t : Timestamp) : List Char :=
  padded 2 t.clock.hour ++ ':' :: (padded 2 t.clock.minute ++
    ':' :: (padded 2 t.clock.second ++
      '.' :: (padded 3 (t.millis % 1000) ++ ['Z'])))

/-- What stands behind the year of a rendered timestamp. -/
def behindYear (t : Timestamp) : List Char :=
  '-' :: (padded 2 t.date.month ++ '-' :: (padded 2 t.date.day ++
    'T' :: t.timeChars))

theorem toList_text (t : Timestamp) :
    t.text.toList = yearText t.date.year ++ t.behindYear := by
  rw [text, String.toList_ofList]
  simp only [List.append_assoc, List.cons_append]
  rfl

theorem isValid_date (t : Timestamp) : t.date.isValid :=
  Date.isValid_ofDayNumber _

theorem isValid_clock {t : Timestamp} (h : t.WellFormed) :
    t.clock.isValid = true := by
  have := h.millis_lt
  have := h.leap
  simp only [Clock.isValid, Bool.and_eq_true, decide_eq_true_eq]
  unfold clock
  dsimp only
  omega

/-- Day, time and milliseconds make up the instant again. -/
theorem instant_date_clock {t : Timestamp} (h : t.WellFormed) :
    instant t.date t.clock (t.millis % 1000) 0 = t := by
  have hday : t.date.dayNumber = t.seconds / 86400 :=
    Date.dayNumber_ofDayNumber _
  have := h.millis_lt
  have := h.leap
  obtain ⟨seconds, millis⟩ := t
  unfold instant
  dsimp only at *
  split_ifs with hleap
  all_goals
    unfold clock at hleap ⊢
    rw [mk.injEq]
    dsimp only at *
    omega

/-- The numbers of a rendered timestamp fit into their places. -/
structure Fits (t : Timestamp) : Prop where
  year : Field 4 t.date.year.toNat (yearText t.date.year)
  month : Field 2 t.date.month (padded 2 t.date.month)
  day : Field 2 t.date.day (padded 2 t.date.day)
  hour : Field 2 t.clock.hour (padded 2 t.clock.hour)
  minute : Field 2 t.clock.minute (padded 2 t.clock.minute)
  second : Field 2 t.clock.second (padded 2 t.clock.second)
  millis : Field 3 (t.millis % 1000) (padded 3 (t.millis % 1000))

theorem fits_of_inYears {t : Timestamp} (h : t.WellFormed)
    (hyears : t.InYears) : t.Fits := by
  obtain ⟨hmonth, -, -⟩ := t.date.isValid_iff.mp t.isValid_date
  have hday := Date.day_le t.isValid_date
  have hclock := isValid_clock h
  simp only [Clock.isValid, Bool.and_eq_true, decide_eq_true_eq] at hclock
  obtain ⟨hlow, hhigh⟩ := hyears
  have hyear : yearText t.date.year = padded 4 t.date.year.toNat := by
    rw [yearText, if_pos ⟨hlow, hhigh⟩, ← Int.toNat_of_nonneg hlow]
    rfl
  refine ⟨?_, ?_, ?_, ?_, ?_, ?_, ?_⟩
  · rw [hyear]
    exact field_padded (by decide) (by omega)
  all_goals exact field_padded (by decide) (by omega)

theorem oneByte_padded (width n : ℕ) : OneByte (padded width n) := by
  refine Numeral.oneByte_of_allDigits fun c hc => ?_
  rcases List.mem_append.mp hc with hc | hc
  · rw [List.eq_of_mem_replicate hc]
    decide
  · exact Grammar.isDigit_of_mem_digits hc

theorem oneByte_text (t : Timestamp) : OneByte t.text.toList := by
  have hmark {c : Char} {cs : List Char} (width n : ℕ) (hc : c.utf8Size = 1)
      (hcs : OneByte cs) : OneByte (c :: (padded width n ++ cs)) :=
    .cons hc (.append (oneByte_padded width n) hcs)
  rw [toList_text]
  refine .append ?_ (hmark _ _ (by decide) (hmark _ _ (by decide)
    (hmark _ _ (by decide) (hmark _ _ (by decide) (hmark _ _ (by decide)
      (hmark _ _ (by decide) (by decide)))))))
  unfold yearText
  split_ifs
  · exact oneByte_padded _ _
  · exact .cons (by decide) (oneByte_padded _ _)
  · exact .cons (by decide) (oneByte_padded _ _)

theorem utf8ByteSize_of_oneByte {s : String} (h : OneByte s.toList) :
    s.utf8ByteSize = s.toList.length := by
  rw [← Source.utf8Len_of_oneByte h, ← String.utf8ByteSize_ofList,
    String.ofList_toList]

theorem length_padded (width n : ℕ) : width ≤ (padded width n).length := by
  rw [padded, List.length_append, List.length_replicate]
  omega

theorem length_behindYear (t : Timestamp) : 20 ≤ t.behindYear.length := by
  have := length_padded 2 t.date.month
  have := length_padded 2 t.date.day
  have := length_padded 2 t.clock.hour
  have := length_padded 2 t.clock.minute
  have := length_padded 2 t.clock.second
  have := length_padded 3 (t.millis % 1000)
  simp only [behindYear, timeChars, List.length_cons, List.length_append, List.length_nil]
  omega

theorem Fits.length_text {t : Timestamp} (h : t.Fits) :
    t.text.toList.length = 24 := by
  simp only [toList_text, behindYear, timeChars, List.length_append, List.length_cons,
    List.length_nil, h.year.length, h.month.length, h.day.length,
    h.hour.length, h.minute.length, h.second.length, h.millis.length]

/-- A timestamp of these years is read back from its text. -/
theorem read_text {t : Timestamp} (h : t.WellFormed) (hyears : t.InYears) :
    read t.text = .ok t := by
  have hfits := fits_of_inYears h hyears
  have hlength : fixedLength ≤ byteCount t.text.toList := by
    refine Nat.le_trans ?_ (length_le_byteCount _)
    rw [hfits.length_text]
    decide
  have hdate : readDate t.text.toList = .ok (t.date, 'T' :: t.timeChars) :=
    readDate_eq_ok.mpr ⟨t.date.year.toNat, _, _, _,
      ⟨(Int.toNat_of_nonneg hyears.1).symm, hfits.year, hfits.month, hfits.day,
        t.isValid_date⟩, t.toList_text⟩
  have hclock : readClock t.timeChars =
      .ok (t.clock, '.' :: (padded 3 (t.millis % 1000) ++ ['Z'])) :=
    readClock_eq_ok.mpr ⟨_, _, _, ⟨hfits.hour, hfits.minute, hfits.second⟩, rfl⟩
  have hmillis : readFraction ('.' :: (padded 3 (t.millis % 1000) ++ ['Z'])) =
      .ok (t.millis % 1000, ['Z']) :=
    readFraction_millis hfits.millis (by rintro c ⟨⟩; rfl)
  unfold read readChars
  simp only [bind_eq_ok_iff, Prod.exists, require_eq_ok, decide_eq_true_eq]
  exact ⟨(), hlength, t.date, _, hdate, _, rfl, t.clock, _, hclock, _, _,
    hmillis, (), isValid_clock h, 0, [], rfl, (), rfl, (), by decide,
    congrArg Except.ok (instant_date_clock h)⟩

theorem accepts_false_iff {text : String} :
    accepts false text = true ↔ ∃ t, read text = .ok t := by
  unfold accepts
  cases read text <;> simp [Except.toBool]

/-! ## The form of a rendered timestamp -/

/-- A character of the form, where a letter other than `T` and `Z` stands for a
digit. -/
def Stands (mark c : Char) : Prop :=
  if mark ∈ ['Y', 'M', 'D', 'H', 'S', 'm'] then Numeral.isDigit c = true
  else c = mark

/-- The text has the form of a date-time of UTC with three decimals. -/
def IsShaped (text : String) : Prop :=
  List.Forall₂ Stands "YYYY-MM-DDTHH:MM:SS.mmmZ".toList text.toList

theorem Field.stands {mark : Char} {width n : ℕ} {ds : List Char}
    (hmark : mark ∈ ['Y', 'M', 'D', 'H', 'S', 'm']) (h : Field width n ds) :
    List.Forall₂ Stands (List.replicate width mark) ds := by
  rw [← h.length]
  have hds := h.digits
  clear h
  induction ds with
  | nil => exact .nil
  | cons c ds ih =>
      refine .cons ?_ (ih fun d hd => hds d (List.mem_cons_of_mem _ hd))
      rw [Stands, if_pos hmark]
      exact hds c List.mem_cons_self

theorem Fits.isShaped {t : Timestamp} (h : t.Fits) : IsShaped t.text := by
  have hform : "YYYY-MM-DDTHH:MM:SS.mmmZ".toList = List.replicate 4 'Y' ++
      '-' :: (List.replicate 2 'M' ++ '-' :: (List.replicate 2 'D' ++
        'T' :: (List.replicate 2 'H' ++ ':' :: (List.replicate 2 'M' ++
          ':' :: (List.replicate 2 'S' ++
            '.' :: (List.replicate 3 'm' ++ ['Z'])))))) := by
    decide
  rw [IsShaped, hform, toList_text]
  exact List.rel_append (h.year.stands (by decide))
    (.cons rfl (List.rel_append (h.month.stands (by decide))
    (.cons rfl (List.rel_append (h.day.stands (by decide))
    (.cons rfl (List.rel_append (h.hour.stands (by decide))
    (.cons rfl (List.rel_append (h.minute.stands (by decide))
    (.cons rfl (List.rel_append (h.second.stands (by decide))
    (.cons rfl (List.rel_append (h.millis.stands (by decide))
    (.cons rfl .nil)))))))))))))

/-! ## Years of more or less than four digits -/

section

variable {t : Timestamp} (h : ¬ t.InYears)

include h

theorem exists_sign : ∃ sign cs, Numeral.isDigit sign = false ∧
    4 ≤ cs.length ∧ t.text.toList = sign :: (cs ++ t.behindYear) := by
  have hyear : ¬ (0 ≤ t.date.year ∧ t.date.year ≤ 9999) := h
  rw [toList_text, yearText, if_neg hyear]
  split_ifs
  · exact ⟨'-', _, rfl, length_padded _ _, rfl⟩
  · exact ⟨'+', _, rfl, length_padded _ _, rfl⟩

theorem not_isShaped : ¬ IsShaped t.text := by
  obtain ⟨sign, cs, hsign, -, htext⟩ := exists_sign h
  obtain ⟨rest, hform⟩ :
      ∃ rest, "YYYY-MM-DDTHH:MM:SS.mmmZ".toList = 'Y' :: rest := ⟨_, rfl⟩
  rw [IsShaped, htext, hform, List.forall₂_cons, Stands, if_pos (by decide),
    hsign]
  rintro ⟨⟨⟩, -⟩

theorem accepts_text_eq_false : accepts false t.text = false := by
  obtain ⟨sign, cs, hsign, -, htext⟩ := exists_sign h
  rw [Bool.eq_false_iff, ne_eq, accepts_false_iff]
  rintro ⟨u, hread⟩
  obtain ⟨_, _, _, _, _, hdate, -⟩ := exists_of_read hread
  obtain ⟨year, ys, _, _, ⟨-, hyear, -⟩, heq⟩ := readDate_eq_ok.mp hdate
  obtain ⟨c, _, _, rfl, hc, -⟩ := hyear.uncons
  rw [htext] at heq
  rw [← (List.cons.inj heq).1, hsign] at hc
  cases hc

theorem lt_utf8ByteSize_text : 24 < t.text.utf8ByteSize := by
  obtain ⟨sign, cs, -, hlength, htext⟩ := exists_sign h
  have := t.length_behindYear
  rw [utf8ByteSize_of_oneByte t.oneByte_text, htext, List.length_cons,
    List.length_append]
  omega

end

/-- The first day of year 0000. -/
def firstDay : Date :=
  ⟨0, 1, 1⟩

/-- The last day of year 9999. -/
def lastDay : Date :=
  ⟨9999, 12, 31⟩

section

variable {d : Date} (h : d.isValid)

include h

theorem firstDay_le_iff : firstDay.dayNumber ≤ d.dayNumber ↔ 0 ≤ d.year := by
  obtain ⟨hmonth, hday, -⟩ := d.isValid_iff.mp h
  rw [← Int.not_lt, Date.dayNumber_lt_iff h (by decide), Date.order_eq_lt,
    firstDay]
  dsimp only
  omega

theorem le_lastDay_iff : d.dayNumber ≤ lastDay.dayNumber ↔ d.year ≤ 9999 := by
  obtain ⟨hmonth, -, -⟩ := d.isValid_iff.mp h
  have hday := Date.day_le h
  rw [← Int.not_lt, Date.dayNumber_lt_iff (by decide) h, Date.order_eq_lt,
    lastDay]
  dsimp only
  omega

end

theorem inYears_iff (t : Timestamp) :
    t.InYears ↔ firstDay.dayNumber ≤ t.seconds / 86400 ∧
      t.seconds / 86400 ≤ lastDay.dayNumber := by
  have hnumber : t.date.dayNumber = t.seconds / 86400 :=
    Date.dayNumber_ofDayNumber _
  rw [← hnumber, firstDay_le_iff t.isValid_date, le_lastDay_iff t.isValid_date]
  rfl

/-- Days of the calendar, a clock and an offset of less than a day do not lead
further than to a day beside. -/
theorem day_of_instant (date : Date) {clock : Clock} (millis : ℕ) {offset : ℤ}
    (hclock : clock.isValid = true) (hoffset : offset.natAbs < 1440) :
    date.dayNumber - 1 ≤ (instant date clock millis offset).seconds / 86400 ∧
      (instant date clock millis offset).seconds / 86400 ≤
        date.dayNumber + 1 := by
  simp only [Clock.isValid, Bool.and_eq_true, decide_eq_true_eq] at hclock
  unfold instant
  dsimp only
  split_ifs <;> omega

/-- A date in digits of fixed number is its padded text. -/
theorem written_day_eq {year month day : ℕ} {ys ms ds rest : List Char}
    (hys : Field 4 year ys) (hms : Field 2 month ms) (hds : Field 2 day ds) :
    ys ++ '-' :: (ms ++ '-' :: (ds ++ rest)) =
      (padded 4 year ++ '-' :: (padded 2 month ++ '-' :: padded 2 day)) ++
        rest := by
  rw [hys.unique (field_padded (by decide) hys.lt),
    hms.unique (field_padded (by decide) hms.lt),
    hds.unique (field_padded (by decide) hds.lt)]
  simp only [List.append_assoc, List.cons_append]

theorem written_day_of_not_inYears {text : String} {t : Timestamp}
    (h : read text = .ok t) (hyears : ¬ t.InYears) :
    "0000-01-01".toList <+: text.toList ∨
      "9999-12-31".toList <+: text.toList := by
  obtain ⟨date, clock, millis, offset, rest, hread, hclock, -, hoffset, rfl⟩ :=
    exists_of_read h
  obtain ⟨year, ys, ms, ds, ⟨hyear, hys, hms, hds, hdate⟩, htext⟩ :=
    readDate_eq_ok.mp hread
  have hday := day_of_instant date millis hclock hoffset
  have hfirst := (firstDay_le_iff hdate).mpr (by omega)
  have hlast := (le_lastDay_iff hdate).mpr (by
    have := hys.lt
    omega)
  rw [inYears_iff] at hyears
  -- The written day lies in these years, and the day of the instant beside it
  -- does not.
  obtain hedge | hedge : date.dayNumber = firstDay.dayNumber ∨
      date.dayNumber = lastDay.dayNumber := by
    omega
  · left
    obtain rfl := Date.eq_of_dayNumber_eq hdate (by decide) hedge
    obtain rfl : year = 0 := Int.ofNat_inj.mp hyear.symm
    exact ⟨rest, (htext.trans (written_day_eq hys hms hds)).symm⟩
  · right
    obtain rfl := Date.eq_of_dayNumber_eq hdate (by decide) hedge
    obtain rfl : year = 9999 := Int.ofNat_inj.mp hyear.symm
    exact ⟨rest, (htext.trans (written_day_eq hys hms hds)).symm⟩

/-- What is read from a text is written in the form of a date-time of UTC and
accepted again, unless it falls out of the years of four digits.  It does so only
from the first of their days or the last one, and is then longer than the form
and refused. -/
theorem text_of_read {text : String} {t : Timestamp} (h : read text = .ok t) :
    (t.InYears →
      IsShaped t.text ∧ t.text.utf8ByteSize = 24 ∧
        accepts false t.text = true) ∧
    (¬ t.InYears →
      (¬ IsShaped t.text ∧ 24 < t.text.utf8ByteSize ∧
        accepts false t.text = false) ∧
      ("0000-01-01".toList <+: text.toList ∨
        "9999-12-31".toList <+: text.toList)) := by
  have hformed := wellFormed_of_read h
  refine ⟨fun hyears => ?_, fun hyears => ⟨⟨?_, ?_, ?_⟩, ?_⟩⟩
  · have hfits := fits_of_inYears hformed hyears
    refine ⟨hfits.isShaped, ?_, accepts_false_iff.mpr ⟨t, ?_⟩⟩
    · rw [utf8ByteSize_of_oneByte t.oneByte_text, hfits.length_text]
    · exact read_text hformed hyears
  · exact not_isShaped hyears
  · exact lt_utf8ByteSize_text hyears
  · exact accepts_text_eq_false hyears
  · exact written_day_of_not_inYears h hyears

/-- A leap second at the end of a year of UTC that is written eight hours
behind. -/
theorem text_of_read_leapSecond :
    read "1990-12-31T15:59:60.5-08:00" = .ok ⟨662687999, 1500⟩ ∧
      IsShaped (text ⟨662687999, 1500⟩) ∧
      (text ⟨662687999, 1500⟩).utf8ByteSize = 24 ∧
      accepts false (text ⟨662687999, 1500⟩) = true := by
  have h : read "1990-12-31T15:59:60.5-08:00" = .ok ⟨662687999, 1500⟩ := by
    rfl
  exact ⟨h, (text_of_read h).1 (by decide)⟩

/-- The first minute of year 0000 lies in the year before, in UTC, if it is
written one minute ahead. -/
theorem text_behind_firstDay :
    ∃ t, read "0000-01-01T00:00:00+00:01" = .ok t ∧
      t.text = "-0001-12-31T23:59:00.000Z" ∧ ¬ IsShaped t.text ∧
      t.text.utf8ByteSize ≠ 24 ∧ accepts false t.text = false := by
  have htext : text ⟨-62167219260, 0⟩ = "-0001-12-31T23:59:00.000Z" := by
    decide
  refine ⟨⟨-62167219260, 0⟩, rfl, htext, ?_⟩
  rw [htext]
  exact ⟨fun h => absurd (List.Forall₂.length_eq h) (by decide), by decide,
    by decide⟩

end Timestamp
end JsonTypedef
