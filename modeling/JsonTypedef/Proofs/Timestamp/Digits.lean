import JsonTypedef.Proofs.Decimal.ReadBack
import JsonTypedef.Timestamp.Basic

/-!
# Digits of a fixed number

A number that fits into a place of some width is written with that many digits,
zeros standing in front.  The digits are known from the number, and they compare
character by character as the numbers do.
-/

namespace JsonTypedef
namespace Timestamp

open Numeral (AllDigits digitsValue digitValue isDigit)

/-- Digits of a fixed number that spell a number. -/
structure Field (width n : ℕ) (ds : List Char) : Prop where
  digits : AllDigits ds
  length : ds.length = width
  value : digitsValue ds = n

/-- Order of characters by their codes. -/
def codeOrder (c d : Char) : Ordering :=
  compare c.toNat d.toNat

instance : Std.LawfulEqCmp codeOrder where
  compare_self := Nat.compare_eq_eq.mpr rfl
  eq_of_compare h := Char.toNat_inj.mp (Nat.compare_eq_eq.mp h)

theorem toNat_eq_digitValue {c : Char} (h : isDigit c = true) :
    c.toNat = 48 + digitValue c ∧ digitValue c < 10 := by
  simp only [isDigit, Bool.and_eq_true, decide_eq_true_eq, Char.le_def,
    UInt32.le_iff_toNat_le] at h
  have hzero : 48 ≤ c.toNat := h.1
  have hnine : c.toNat ≤ 57 := h.2
  have hcode : '0'.toNat = 48 := rfl
  unfold digitValue
  omega

theorem digitsValue_cons (c : Char) (ds : List Char) :
    digitsValue (c :: ds) = digitValue c * 10 ^ ds.length + digitsValue ds := by
  have hsingle : digitsValue [c] = digitValue c := Nat.zero_add _
  rw [← List.singleton_append, Numeral.digitsValue_append, hsingle]

/-- A number of digits is the first one in its place and the number of the
others. -/
theorem Field.uncons {width n : ℕ} {ds : List Char}
    (h : Field (width + 1) n ds) :
    ∃ c tail m, ds = c :: tail ∧ isDigit c = true ∧ Field width m tail ∧
      n = digitValue c * 10 ^ width + m := by
  obtain ⟨c, tail, rfl⟩ := List.exists_cons_of_length_eq_add_one h.length
  have hlength : tail.length = width := Nat.succ.inj h.length
  refine ⟨c, tail, digitsValue tail, rfl, h.digits c List.mem_cons_self,
    ⟨fun d hd => h.digits d (List.mem_cons_of_mem _ hd), hlength, rfl⟩, ?_⟩
  rw [← h.value, digitsValue_cons, hlength]

theorem Field.lt {width n : ℕ} {ds : List Char} (h : Field width n ds) :
    n < 10 ^ width := by
  induction width generalizing n ds with
  | zero =>
      rw [← h.value, List.length_eq_zero_iff.mp h.length]
      exact Nat.one_pos
  | succ width ih =>
      obtain ⟨c, tail, m, -, hc, htail, rfl⟩ := h.uncons
      calc digitValue c * 10 ^ width + m
          < digitValue c * 10 ^ width + 10 ^ width :=
            Nat.add_lt_add_left (ih htail) _
        _ = (digitValue c + 1) * 10 ^ width := (Nat.succ_mul _ _).symm
        _ ≤ 10 * 10 ^ width :=
            Nat.mul_le_mul_right _ (toNat_eq_digitValue hc).2
        _ = 10 ^ (width + 1) := (Nat.pow_succ').symm

/-- A number that fits is padded to the width. -/
theorem field_padded {width n : ℕ} (hwidth : 0 < width) (hn : n < 10 ^ width) :
    Field width n (padded width n) := by
  have hlength : (Nat.toDigits 10 n).length ≤ width :=
    (Nat.length_toDigits_le_iff (by decide) hwidth).mpr hn
  refine ⟨fun c hc => ?_, ?_, ?_⟩
  · rcases List.mem_append.mp hc with hc | hc
    · rw [List.eq_of_mem_replicate hc]
      decide
    · exact Grammar.isDigit_of_mem_digits hc
  · rw [padded, List.length_append, List.length_replicate]
    omega
  · rw [padded, Numeral.digitsValue_append, Numeral.digitsValue_zeros,
      Nat.zero_mul, Nat.zero_add]
    exact Grammar.digitsValue_digits n

/-! ## Order -/

theorem compare_add_left (a b c : ℕ) :
    compare (a + b) (a + c) = compare b c := by
  simp only [Nat.compare_eq_ite_lt, Nat.add_lt_add_iff_left]

theorem compare_mul_add {n a b c d : ℕ} (hb : b < n) (hd : d < n) :
    compare (a * n + b) (c * n + d) = (compare a c).then (compare b d) := by
  rcases Nat.lt_trichotomy a c with h | rfl | h
  · have hmul := Nat.mul_le_mul_right n h
    rw [Nat.succ_mul] at hmul
    rw [Nat.compare_eq_lt.mpr h, Ordering.lt_then, Nat.compare_eq_lt]
    omega
  · rw [Nat.compare_eq_eq.mpr rfl, Ordering.eq_then, compare_add_left]
  · have hmul := Nat.mul_le_mul_right n h
    rw [Nat.succ_mul] at hmul
    rw [Nat.compare_eq_gt.mpr h, Ordering.gt_then, Nat.compare_eq_gt]
    omega

theorem Field.compareLex_eq {width n m : ℕ} {ds es : List Char}
    (hds : Field width n ds) (hes : Field width m es) :
    List.compareLex codeOrder ds es = compare n m := by
  induction width generalizing n m ds es with
  | zero =>
      obtain ⟨-, hds, rfl⟩ := hds
      obtain ⟨-, hes, rfl⟩ := hes
      rw [List.length_eq_zero_iff.mp hds, List.length_eq_zero_iff.mp hes]
      rfl
  | succ width ih =>
      obtain ⟨c, ds, n, rfl, hc, hleft, rfl⟩ := hds.uncons
      obtain ⟨d, es, m, rfl, hd, hright, rfl⟩ := hes.uncons
      have hcode : codeOrder c d = compare (digitValue c) (digitValue d) := by
        rw [codeOrder, (toNat_eq_digitValue hc).1, (toNat_eq_digitValue hd).1,
          compare_add_left]
      rw [List.compareLex_cons_cons, ih hleft hright, hcode,
        compare_mul_add hleft.lt hright.lt]

theorem Field.unique {width n : ℕ} {ds es : List Char}
    (hds : Field width n ds) (hes : Field width n es) : ds = es := by
  have heq : List.compareLex codeOrder ds es = .eq := by
    rw [hds.compareLex_eq hes, Nat.compare_eq_eq]
  exact Std.LawfulEqCmp.eq_of_compare heq

/-- Lists that begin with as many characters compare by these at first. -/
theorem compareLex_append {ds es cs bs : List Char}
    (h : ds.length = es.length) :
    List.compareLex codeOrder (ds ++ cs) (es ++ bs) =
      (List.compareLex codeOrder ds es).then
        (List.compareLex codeOrder cs bs) := by
  induction ds generalizing es with
  | nil =>
      rw [List.length_eq_zero_iff.mp h.symm]
      rfl
  | cons d ds ih =>
      obtain ⟨e, es, rfl⟩ := List.exists_cons_of_length_eq_add_one h.symm
      rw [List.cons_append, List.cons_append, List.compareLex_cons_cons,
        List.compareLex_cons_cons, ih (Nat.succ.inj h), Ordering.then_assoc]

end Timestamp
end JsonTypedef
