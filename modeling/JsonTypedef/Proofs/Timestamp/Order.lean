import JsonTypedef.Proofs.Text.ByteOrder
import JsonTypedef.Proofs.Timestamp.Rendering

/-!
# Order of timestamps

Timestamps of four-digit years are ordered like the bytes of their texts.  The
texts have the same marks at the same places, so they compare part by part, the
year first and the milliseconds last.  The instants are taken apart alike: days
before times, where the calendar orders days by year, month and day, and a leap
second, which is counted with the second before it, comes behind that second as
its text does.
-/

namespace JsonTypedef
namespace Timestamp

open Source (OneByte)

/-! ## Bytes of a text -/

/-- Order of bytes by their values. -/
def byteOrder (a b : UInt8) : Ordering :=
  compare a.toNat b.toNat

/-- Order of texts by their bytes, the first difference deciding. -/
def compareBytes (s t : String) : Ordering :=
  List.compareLex byteOrder s.toUTF8.data.toList t.toUTF8.data.toList

theorem utf8EncodeChar_oneByte {c : Char} (hc : c.utf8Size = 1) :
    ∃ b, String.utf8EncodeChar c = [b] ∧ b.toNat = c.toNat := by
  refine ⟨_, String.utf8EncodeChar_eq_singleton hc, ?_⟩
  have hlt : c.val.toNat ≤ 127 := Char.utf8Size_eq_one_iff.mp hc
  exact Nat.mod_eq_of_lt (Nat.lt_of_le_of_lt hlt (by decide))

theorem compareLex_flatMap_utf8EncodeChar {cs ds : List Char}
    (hcs : OneByte cs) (hds : OneByte ds) :
    List.compareLex byteOrder (cs.flatMap String.utf8EncodeChar)
        (ds.flatMap String.utf8EncodeChar) =
      List.compareLex codeOrder cs ds := by
  induction cs generalizing ds with
  | nil =>
      cases ds with
      | nil => rfl
      | cons d ds =>
          obtain ⟨b, hb, -⟩ := utf8EncodeChar_oneByte (hds d List.mem_cons_self)
          rw [List.flatMap_cons, hb]
          rfl
  | cons c cs ih =>
      obtain ⟨a, ha, hac⟩ := utf8EncodeChar_oneByte (hcs c List.mem_cons_self)
      cases ds with
      | nil =>
          rw [List.flatMap_cons, ha]
          rfl
      | cons d ds =>
          obtain ⟨b, hb, hbd⟩ :=
            utf8EncodeChar_oneByte (hds d List.mem_cons_self)
          have htail := ih (fun e he => hcs e (List.mem_cons_of_mem _ he))
            (fun e he => hds e (List.mem_cons_of_mem _ he))
          have hhead : byteOrder a b = codeOrder c d := by
            rw [byteOrder, codeOrder, hac, hbd]
          rw [List.flatMap_cons, List.flatMap_cons, ha, hb,
            List.singleton_append, List.singleton_append,
            List.compareLex_cons_cons, List.compareLex_cons_cons, hhead, htail]

/-- Texts of one-byte characters are ordered by their bytes as by their
characters. -/
theorem compareBytes_eq {s t : String} (hs : OneByte s.toList)
    (ht : OneByte t.toList) :
    compareBytes s t = List.compareLex codeOrder s.toList t.toList := by
  have hbytes (u : String) : u.toUTF8.data.toList =
      u.toList.flatMap String.utf8EncodeChar := Text.bytes_eq_flatMap u
  rw [compareBytes, hbytes, hbytes, compareLex_flatMap_utf8EncodeChar hs ht]

/-! ## Parts of a text -/

/-- Texts that begin with numbers in the same place, and the same mark behind,
compare by the numbers at first. -/
theorem Field.compareLex_append_mark {width n m : ℕ} {mark : Char}
    {ds es cs bs : List Char} (hds : Field width n ds) (hes : Field width m es) :
    List.compareLex codeOrder (ds ++ mark :: cs) (es ++ mark :: bs) =
      (compare n m).then (List.compareLex codeOrder cs bs) := by
  have hmark : codeOrder mark mark = .eq := Std.ReflCmp.compare_self
  rw [compareLex_append (hds.length.trans hes.length.symm),
    hds.compareLex_eq hes, List.compareLex_cons_cons, hmark, Ordering.eq_then]

/-- The order of the parts of two timestamps, as they stand in their texts. -/
def orderWritten (t u : Timestamp) : Ordering :=
  (Date.order t.date u.date).then
    ((compare t.clock.hour u.clock.hour).then
      ((compare t.clock.minute u.clock.minute).then
        ((compare t.clock.second u.clock.second).then
          (compare (t.millis % 1000) (u.millis % 1000)))))

theorem compare_toNat {a b : ℤ} (ha : 0 ≤ a) (hb : 0 ≤ b) :
    compare a.toNat b.toNat = compare a b := by
  rw [← Int.toNat_of_nonneg ha, ← Int.toNat_of_nonneg hb]
  simp only [Int.compare_eq_ite_lt, Nat.compare_eq_ite_lt, Int.toNat_natCast,
    Int.ofNat_lt]

theorem compareLex_text {t u : Timestamp} (ht : t.Fits) (hu : u.Fits)
    (htyear : 0 ≤ t.date.year) (huyear : 0 ≤ u.date.year) :
    List.compareLex codeOrder t.text.toList u.text.toList =
      orderWritten t u := by
  rw [toList_text, toList_text]
  unfold behindYear timeChars
  rw [ht.year.compareLex_append_mark hu.year,
    ht.month.compareLex_append_mark hu.month,
    ht.day.compareLex_append_mark hu.day,
    ht.hour.compareLex_append_mark hu.hour,
    ht.minute.compareLex_append_mark hu.minute,
    ht.second.compareLex_append_mark hu.second,
    ht.millis.compareLex_append_mark hu.millis,
    compare_toNat htyear huyear]
  simp only [orderWritten, Date.order, Ordering.then_assoc,
    List.compareLex_nil_nil, Ordering.then_eq]

/-! ## Parts of an instant -/

theorem compare_eq_then_mod {n : ℕ} (hn : 0 < n) (a b : ℕ) :
    compare a b = (compare (a / n) (b / n)).then (compare (a % n) (b % n)) := by
  rw [← compare_mul_add (Nat.mod_lt a hn) (Nat.mod_lt b hn), Nat.div_add_mod',
    Nat.div_add_mod']

/-- Seconds are ordered by their days and the seconds of the day. -/
theorem compare_seconds (a b : ℤ) :
    compare a b = (compare (a / 86400) (b / 86400)).then
      (compare (a % 86400).toNat (b % 86400).toNat) := by
  rcases Int.lt_trichotomy (a / 86400) (b / 86400) with h | h | h
  · rw [Int.compare_eq_lt.mpr h, Ordering.lt_then, Int.compare_eq_lt]
    omega
  · have hlt : a < b ↔ a % 86400 < b % 86400 := by omega
    have hgt : b < a ↔ b % 86400 < a % 86400 := by omega
    rw [Int.compare_eq_eq.mpr h, Ordering.eq_then,
      compare_toNat (by omega) (by omega)]
    simp only [Int.compare_eq_ite_lt, hlt, hgt]
  · rw [Int.compare_eq_gt.mpr h, Ordering.gt_then, Int.compare_eq_gt]
    omega

/-- The seconds of a day are ordered by hour, minute and second. -/
theorem compare_secondsOfDay (a b : ℕ) :
    compare a b = (compare (a / 3600) (b / 3600)).then
      ((compare (a / 60 % 60) (b / 60 % 60)).then
        (compare (a % 60) (b % 60))) := by
  have hsixty : 0 < 60 := by decide
  rw [compare_eq_then_mod hsixty a b,
    compare_eq_then_mod hsixty (a / 60) (b / 60), Nat.div_div_eq_div_mul,
    Nat.div_div_eq_div_mul, Ordering.then_assoc]

/-- A leap second comes behind the second that it is counted with. -/
theorem compare_leap {a b m n : ℕ} (ha : a < 60) (hb : b < 60)
    (hm : 1000 ≤ m → a = 59) (hn : 1000 ≤ n → b = 59) :
    (compare a b).then (compare m n) =
      (compare (a + m / 1000) (b + n / 1000)).then
        (compare (m % 1000) (n % 1000)) := by
  rcases Nat.lt_trichotomy a b with h | rfl | h
  · have hsecond : a + m / 1000 < b + n / 1000 := by omega
    rw [Nat.compare_eq_lt.mpr h, Nat.compare_eq_lt.mpr hsecond,
      Ordering.lt_then, Ordering.lt_then]
  · rw [Nat.compare_eq_eq.mpr rfl, Ordering.eq_then, compare_add_left,
      compare_eq_then_mod (by decide : 0 < 1000)]
  · have hsecond : b + n / 1000 < a + m / 1000 := by omega
    rw [Nat.compare_eq_gt.mpr h, Nat.compare_eq_gt.mpr hsecond,
      Ordering.gt_then, Ordering.gt_then]

theorem order_eq_orderWritten {t u : Timestamp} (ht : t.WellFormed)
    (hu : u.WellFormed) : order t u = orderWritten t u := by
  have hdate : compare (t.seconds / 86400) (u.seconds / 86400) =
      Date.order t.date u.date := by
    rw [← Date.compare_dayNumber t.isValid_date u.isValid_date, date, date,
      Date.dayNumber_ofDayNumber, Date.dayNumber_ofDayNumber]
  have hleap {v : Timestamp} (hv : v.WellFormed) (h : 1000 ≤ v.millis) :
      (v.seconds % 86400).toNat % 60 = 59 := by
    have := hv.leap h
    omega
  rw [order, compare_seconds, hdate, compare_secondsOfDay, Ordering.then_assoc,
    Ordering.then_assoc, Ordering.then_assoc,
    compare_leap (Nat.mod_lt _ (by decide)) (Nat.mod_lt _ (by decide))
      (hleap ht) (hleap hu)]
  rfl

/-- Timestamps of the years 0000 to 9999 are what is read from their texts, and
they are ordered as the bytes of these. -/
theorem order_of_read {s s' : String} {t u : Timestamp} (hs : read s = .ok t)
    (hs' : read s' = .ok u) (ht : t.InYears) (hu : u.InYears) :
    read t.text = .ok t ∧ order t u = compareBytes t.text u.text := by
  have htformed := wellFormed_of_read hs
  have huformed := wellFormed_of_read hs'
  refine ⟨read_text htformed ht, ?_⟩
  calc order t u
      = orderWritten t u := order_eq_orderWritten htformed huformed
    _ = List.compareLex codeOrder t.text.toList u.text.toList :=
        (compareLex_text (fits_of_inYears htformed ht)
          (fits_of_inYears huformed hu) ht.1 hu.1).symm
    _ = compareBytes t.text u.text :=
        (compareBytes_eq t.oneByte_text u.oneByte_text).symm

/-- A leap second comes behind the second before it, at whatever offsets they
are written. -/
theorem order_of_read_leapSecond :
    read "1990-12-31T15:59:60.5-08:00" = .ok ⟨662687999, 1500⟩ ∧
      read "1991-01-01T00:59:59.9999+01:00" = .ok ⟨662687999, 999⟩ ∧
      read (text ⟨662687999, 1500⟩) = .ok ⟨662687999, 1500⟩ ∧
      compareBytes (text ⟨662687999, 1500⟩) (text ⟨662687999, 999⟩) = .gt := by
  have hleap : read "1990-12-31T15:59:60.5-08:00" = .ok ⟨662687999, 1500⟩ := by
    rfl
  have hbefore : read "1991-01-01T00:59:59.9999+01:00" =
      .ok ⟨662687999, 999⟩ := by
    decide
  obtain ⟨hagain, horder⟩ :=
    order_of_read hleap hbefore (by decide) (by decide)
  exact ⟨hleap, hbefore, hagain, horder.symm.trans (by decide)⟩

end Timestamp
end JsonTypedef
