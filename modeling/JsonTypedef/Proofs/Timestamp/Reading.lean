import JsonTypedef.Proofs.Except
import JsonTypedef.Proofs.Json.Numeral
import JsonTypedef.Proofs.Timestamp.Digits

/-!
# Reading timestamps

Each part of a date-time is read from exactly those texts that its grammar
spells: a number from its digits, a date and a clock from theirs with the marks
between them.  From a whole date-time an instant comes that `instant` makes of a
day of the calendar, a clock and an offset of less than a day, so that a
thousand milliseconds or more stand in the last second of a minute only.
-/

namespace JsonTypedef
namespace Timestamp

open Numeral (AllDigits digitsValue digitValue isDigit)

/-! ## Numbers and marks -/

theorem require_eq_ok {condition : Bool} {fault : Fault} {u : Unit} :
    require condition fault = .ok u ↔ condition = true := by
  cases condition <;> simp [require]

theorem readMark_eq_ok {c : Char} {cs rest : List Char} :
    readMark c cs = .ok rest ↔ cs = c :: rest := by
  cases cs with
  | nil => simp [readMark]
  | cons d cs =>
      simp only [readMark]
      split_ifs with h <;> simp [h]

theorem readDigits_eq_ok_iff_foldl {count k n : ℕ} {cs rest : List Char} :
    readDigits k count cs = .ok (n, rest) ↔
      ∃ ds, (AllDigits ds ∧ ds.length = count ∧
        ds.foldl (fun n c => n * 10 + digitValue c) k = n) ∧
        cs = ds ++ rest := by
  induction count generalizing k cs with
  | zero =>
      simp only [readDigits, Except.ok.injEq, Prod.mk.injEq]
      constructor
      · rintro ⟨rfl, rfl⟩
        exact ⟨[], ⟨fun c hc => absurd hc List.not_mem_nil, rfl, rfl⟩, rfl⟩
      · rintro ⟨ds, ⟨-, hlength, hvalue⟩, rfl⟩
        rw [List.length_eq_zero_iff.mp hlength] at hvalue ⊢
        exact ⟨hvalue, rfl⟩
  | succ count ih =>
      -- The digits in question are not empty, so they start with what is read.
      have hcons : (∃ ds, (AllDigits ds ∧ ds.length = count + 1 ∧
          ds.foldl (fun n c => n * 10 + digitValue c) k = n) ∧
            cs = ds ++ rest) ↔
          ∃ c tail, isDigit c = true ∧ cs = c :: tail ∧
            readDigits (k * 10 + digitValue c) count tail = .ok (n, rest) := by
        constructor
        · rintro ⟨ds, ⟨hds, hlength, hvalue⟩, rfl⟩
          obtain ⟨c, ds, rfl⟩ := List.exists_cons_of_length_eq_add_one hlength
          exact ⟨c, ds ++ rest, hds c List.mem_cons_self, rfl, ih.mpr
            ⟨ds, ⟨fun d hd => hds d (List.mem_cons_of_mem _ hd),
              Nat.succ.inj hlength, hvalue⟩, rfl⟩⟩
        · rintro ⟨c, tail, hc, rfl, htail⟩
          obtain ⟨ds, ⟨hds, hlength, hvalue⟩, rfl⟩ := ih.mp htail
          exact ⟨c :: ds, ⟨List.forall_mem_cons.mpr ⟨hc, hds⟩,
            congrArg (· + 1) hlength, hvalue⟩, rfl⟩
      rw [hcons]
      cases cs with
      | nil => simp [readDigits]
      | cons c cs =>
          simp only [readDigits]
          split_ifs with hc <;> simp [hc]

theorem readDigits_eq_ok {width n : ℕ} {cs rest : List Char} :
    readDigits 0 width cs = .ok (n, rest) ↔
      ∃ ds, Field width n ds ∧ cs = ds ++ rest := by
  rw [readDigits_eq_ok_iff_foldl]
  exact exists_congr fun ds => and_congr_left fun _ =>
    ⟨fun h => ⟨h.1, h.2.1, h.2.2⟩, fun h => ⟨h.digits, h.length, h.value⟩⟩

theorem length_le_byteCount (cs : List Char) : cs.length ≤ byteCount cs := by
  induction cs with
  | nil => exact Nat.le_refl 0
  | cons c cs ih =>
      have hc := c.utf8Size_pos
      change cs.length + 1 ≤ c.utf8Size + byteCount cs
      omega

/-! ## Dates and clocks -/

theorem readDate_eq_ok {cs rest : List Char} {date : Date} :
    readDate cs = .ok (date, rest) ↔
      ∃ (year : ℕ) (ys ms ds : List Char),
        (date.year = year ∧ Field 4 year ys ∧ Field 2 date.month ms ∧
          Field 2 date.day ds ∧ date.isValid) ∧
        cs = ys ++ '-' :: (ms ++ '-' :: (ds ++ rest)) := by
  unfold readDate
  simp only [bind_eq_ok_iff, Prod.exists, readMark_eq_ok, readDigits_eq_ok]
  constructor
  · rintro ⟨year, _, ⟨ys, hyear, rfl⟩, _, rfl, month, _, ⟨ms, hmonth, rfl⟩,
      _, rfl, day, _, ⟨ds, hday, rfl⟩, h⟩
    split_ifs at h with hvalid
    cases h
    exact ⟨year, ys, ms, ds, ⟨rfl, hyear, hmonth, hday, hvalid⟩, rfl⟩
  · rintro ⟨year, ys, ms, ds, ⟨hdate, hyear, hmonth, hday, hvalid⟩, rfl⟩
    refine ⟨year, _, ⟨ys, hyear, rfl⟩, _, rfl, date.month, _,
      ⟨ms, hmonth, rfl⟩, _, rfl, date.day, _, ⟨ds, hday, rfl⟩, ?_⟩
    rw [← hdate]
    exact if_pos hvalid

theorem readClock_eq_ok {cs rest : List Char} {clock : Clock} :
    readClock cs = .ok (clock, rest) ↔
      ∃ hs ms ss, (Field 2 clock.hour hs ∧ Field 2 clock.minute ms ∧
        Field 2 clock.second ss) ∧
        cs = hs ++ ':' :: (ms ++ ':' :: (ss ++ rest)) := by
  unfold readClock
  simp only [bind_eq_ok_iff, Prod.exists, readMark_eq_ok, readDigits_eq_ok]
  constructor
  · rintro ⟨hour, _, ⟨hs, hhour, rfl⟩, _, rfl, minute, _, ⟨ms, hminute, rfl⟩,
      _, rfl, second, _, ⟨ss, hsecond, rfl⟩, h⟩
    cases h
    exact ⟨hs, ms, ss, ⟨hhour, hminute, hsecond⟩, rfl⟩
  · rintro ⟨hs, ms, ss, ⟨hhour, hminute, hsecond⟩, rfl⟩
    exact ⟨clock.hour, _, ⟨hs, hhour, rfl⟩, _, rfl, clock.minute, _,
      ⟨ms, hminute, rfl⟩, _, rfl, clock.second, _, ⟨ss, hsecond, rfl⟩, rfl⟩

/-! ## Whole date-times -/

theorem readFraction_millis {n : ℕ} {ms rest : List Char} (h : Field 3 n ms)
    (hrest : Numeral.NoDigit rest) :
    readFraction ('.' :: (ms ++ rest)) = .ok (n, rest) := by
  obtain ⟨c, ms, rfl⟩ := List.exists_cons_of_length_eq_add_one h.length
  have hspan := Numeral.spanDigits_append h.digits hrest
  have htake : ((c :: ms) ++ ['0', '0']).take 3 = c :: ms := by
    rw [← h.length, List.take_left]
  unfold readFraction
  simp only [hspan, htake, h.value]

/-- The first three digits are padded with zeros, or there are none. -/
theorem lt_of_readFraction {cs rest : List Char} {millis : ℕ}
    (h : readFraction cs = .ok (millis, rest)) : millis < 1000 := by
  unfold readFraction at h
  split at h
  next tail =>
    split at h
    · cases h
    · cases h
    next ds tail hend hrest hspan =>
      cases h
      have hzeros : AllDigits ['0', '0'] :=
        List.forall_mem_cons.mpr ⟨rfl, List.forall_mem_singleton.mpr rfl⟩
      have hds : AllDigits (ds ++ ['0', '0']) :=
        List.forall_mem_append.mpr
          ⟨(Numeral.spanDigits_spec hspan).2.1, hzeros⟩
      have hne : ds ≠ [] := by
        rintro rfl
        cases rest with
        | nil => exact hend rfl rfl
        | cons c rest => exact hrest c rest rfl rfl
      have hlength := List.length_pos_of_ne_nil hne
      have htaken : ((ds ++ ['0', '0']).take 3).length = 3 := by
        rw [List.length_take, List.length_append]
        exact Nat.min_eq_left (Nat.add_le_add_right hlength 2)
      exact Field.lt ⟨fun c hc => hds c (List.mem_of_mem_take hc), htaken, rfl⟩
  · cases h
    decide

/-- What an instant is made of that is read from a text: a day of the calendar,
with which the text begins, a time of that day and an offset of less than a
day. -/
theorem exists_of_read {text : String} {t : Timestamp}
    (h : read text = .ok t) :
    ∃ date clock millis offset rest, readDate text.toList = .ok (date, rest) ∧
      clock.isValid = true ∧ millis < 1000 ∧ offset.natAbs < 1440 ∧
      instant date clock millis offset = t := by
  unfold read readChars at h
  simp only [bind_eq_ok_iff, Prod.exists, require_eq_ok, decide_eq_true_eq] at h
  obtain ⟨-, -, date, rest, hdate, _, -, clock, _, -, millis, _, hmillis, -,
    hclock, offset, _, -, -, -, -, hoffset, ht⟩ := h
  exact ⟨date, clock, millis, offset, rest, hdate, hclock,
    lt_of_readFraction hmillis, hoffset, Except.ok.inj ht⟩

/-- A timestamp whose milliseconds reach into a leap second only behind the last
second of a minute. -/
structure WellFormed (t : Timestamp) : Prop where
  millis_lt : t.millis < 2000
  leap : 1000 ≤ t.millis → t.seconds % 60 = 59

theorem wellFormed_instant {date : Date} {clock : Clock} {millis : ℕ}
    {offset : ℤ} (hmillis : millis < 1000) :
    (instant date clock millis offset).WellFormed := by
  unfold instant
  dsimp only
  split_ifs with hleap
  · refine ⟨by dsimp only; omega, fun _ => ?_⟩
    dsimp only
    omega
  · refine ⟨by dsimp only; omega, fun h => ?_⟩
    exact absurd hmillis (Nat.not_lt.mpr h)

theorem wellFormed_of_read {text : String} {t : Timestamp}
    (h : read text = .ok t) : t.WellFormed := by
  obtain ⟨_, _, _, _, _, -, -, hmillis, -, rfl⟩ := exists_of_read h
  exact wellFormed_instant hmillis

end Timestamp
end JsonTypedef
