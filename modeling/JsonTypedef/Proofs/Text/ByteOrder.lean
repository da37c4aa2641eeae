import Mathlib.Data.List.Lex
import Mathlib.Tactic.SplitIfs

/-!
# Order of texts and order of their bytes

Texts are ordered by their characters, the first difference deciding.  UTF-8
writes a greater character with a greater first byte, or with the same bytes up
to a greater one, so that the bytes of texts are ordered alike.
-/

namespace JsonTypedef
namespace Text

/-- The bytes of a text. -/
def bytes (s : String) : List UInt8 :=
  s.toUTF8.data.toList

theorem bytes_eq_flatMap (s : String) :
    bytes s = s.toList.flatMap String.utf8EncodeChar := by
  change s.toByteArray.data.toList = _
  rw [← @String.ofList_toList s, String.toByteArray_ofList, List.utf8Encode,
    List.data_toByteArray, String.toList_ofList]

/-- The marks of UTF-8 leave the bits below them as they are. -/
theorem marked_mod (n : ℕ) :
    (n % 8 + 240) % 256 = n % 8 + 240 ∧
      (n % 16 + 224) % 256 = n % 16 + 224 ∧
      (n % 32 + 192) % 256 = n % 32 + 192 ∧
      (n % 64 + 128) % 256 = n % 64 + 128 := by
  omega

/-- The bits of a number are cut off six at a time. -/
theorem div_sixes (n : ℕ) :
    n / 4096 = n / 64 / 64 ∧ n / 262144 = n / 64 / 64 / 64 := by
  omega

/-- A greater character is written with greater bytes, whatever follows. -/
theorem utf8EncodeChar_append_lt {c d : Char} (h : c < d) (cs ds : List UInt8) :
    String.utf8EncodeChar c ++ cs < String.utf8EncodeChar d ++ ds := by
  have hlt : c.val.toNat < d.val.toNat := h
  have hvalid : d.val.toNat < 0x110000 := by
    have hd := d.valid
    simp only [UInt32.isValidChar, Nat.isValidChar] at hd
    omega
  unfold String.utf8EncodeChar
  dsimp only
  -- One case for each pair of lengths; the first byte tells lengths apart.
  split_ifs <;>
    simp only [List.cons_append, List.nil_append, List.cons_lt_cons_iff,
      UInt8.lt_iff_toNat_lt, ← UInt8.toNat_inj, UInt8.toNat_ofNat',
      Nat.reducePow, marked_mod, div_sixes] <;>
    omega

theorem flatMap_utf8EncodeChar_lt {cs ds : List Char} (h : cs < ds) :
    cs.flatMap String.utf8EncodeChar < ds.flatMap String.utf8EncodeChar := by
  induction cs generalizing ds with
  | nil =>
      cases ds with
      | nil => exact absurd h (by simp)
      | cons d ds =>
          have hpos : 0 < (String.utf8EncodeChar d).length := by
            rw [String.length_utf8EncodeChar]
            exact d.utf8Size_pos
          obtain ⟨b, bs, hbytes⟩ := List.exists_cons_of_length_pos hpos
          rw [List.flatMap_cons, hbytes]
          exact List.nil_lt_cons _ _
  | cons c cs ih =>
      cases ds with
      | nil => exact absurd h (by simp)
      | cons d ds =>
          rw [List.flatMap_cons, List.flatMap_cons]
          rcases List.cons_lt_cons_iff.mp h with hlt | ⟨rfl, htail⟩
          · exact utf8EncodeChar_append_lt hlt _ _
          · exact List.append_left_lt (ih htail)

/-- Texts are ordered as their bytes are. -/
theorem bytes_lt_of_lt {s t : String} (h : s < t) : bytes s < bytes t := by
  rw [bytes_eq_flatMap, bytes_eq_flatMap]
  exact flatMap_utf8EncodeChar_lt (String.lt_iff.mp h)

end Text
end JsonTypedef
