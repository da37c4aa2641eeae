import JsonTypedef.Proofs.Bytewise.Lexer
import JsonTypedef.Proofs.Json.Position

/-!
# Boundaries of characters

The places of a text are the boundaries between its characters, and a source
stands at one of them.  From a place to a later one there is a slice, which
holds the characters between the two.  The next byte at a place is the next
character, or the first byte of one that is no ASCII character.
-/

namespace JsonTypedef
namespace Bytewise

open Parsing
open Source (Spans)

variable {text : String}

/-- The byte offset lies at a boundary of characters of the text. -/
def Boundary (text : String) (pos : Nat) : Prop :=
  (String.Pos.Raw.mk pos).IsValid text

theorem boundary_iff {pos : Nat} :
    Boundary text pos ↔ ∃ before rest : List Char,
      text.toList = before ++ rest ∧ pos = String.utf8Len before := by
  unfold Boundary
  rw [String.Pos.Raw.isValid_iff_exists_append]
  constructor
  · rintro ⟨a, b, rfl, hpos⟩
    refine ⟨a.toList, b.toList, String.toList_append, ?_⟩
    rw [← String.utf8ByteSize_ofList, String.ofList_toList]
    exact congrArg String.Pos.Raw.byteIdx hpos
  · rintro ⟨before, rest, htext, rfl⟩
    refine ⟨String.ofList before, String.ofList rest, ?_, ?_⟩
    · rw [← String.ofList_append, ← htext, String.ofList_toList]
    · rw [← String.utf8ByteSize_ofList]
      rfl

theorem Boundary.le {pos : Nat} (h : Boundary text pos) :
    pos ≤ text.utf8ByteSize :=
  String.Pos.Raw.IsValid.le_utf8ByteSize h

/-- The source is what remains of the text at one of its places. -/
def Place (text : String) (s : Source) : Prop :=
  ∃ before, Spans before (Source.ofText text) s

theorem place_ofText (text : String) : Place text (Source.ofText text) :=
  ⟨[], .refl _⟩

theorem Place.spans {s s' : Source} {l : List Char} (h : Place text s)
    (hspans : Spans l s s') : Place text s' := by
  obtain ⟨before, hbefore⟩ := h
  exact ⟨before ++ l, hbefore.trans hspans⟩

theorem Place.passes {s s' : Source} {L : Shape.Texts} (h : Place text s)
    (hpasses : Source.Passes L s s') : Place text s' := by
  obtain ⟨l, -, hspans⟩ := hpasses
  exact h.spans hspans

theorem Place.boundary {s : Source} (h : Place text s) :
    Boundary text s.pos := by
  obtain ⟨before, hchars, hpos⟩ := h
  rw [boundary_iff]
  refine ⟨before, s.chars, hchars, ?_⟩
  rw [hpos]
  exact Nat.zero_add _

/-! ## Slices -/

theorem size_utf8Encode (l : List Char) :
    l.utf8Encode.size = String.utf8Len l := by
  rw [← String.utf8ByteSize_ofList, ← String.size_toByteArray,
    String.toByteArray_ofList]

theorem slice?_eq_some {piece : String} {start stop : Nat} :
    slice? text start stop = some piece ↔
      ∃ (h : Boundary text start) (h' : Boundary text stop), start ≤ stop ∧
        text.extract (text.pos ⟨start⟩ h) (text.pos ⟨stop⟩ h') = piece := by
  unfold slice? String.pos? String.Slice.pos? Boundary
  by_cases h : (String.Pos.Raw.mk start).IsValid text
  · by_cases h' : (String.Pos.Raw.mk stop).IsValid text
    · simp [h, h', String.pos]
    · simp [h, h']
  · simp [h]

example : slice? "\u00e9" 1 2 = none := by decide

theorem extract_of_append {before l rest : List Char}
    (htext : text.toList = before ++ l ++ rest) {first last : text.Pos}
    (hfirst : first.offset.byteIdx = String.utf8Len before)
    (hlast : last.offset.byteIdx = String.utf8Len (before ++ l)) :
    text.extract first last = String.ofList l := by
  have hbytes : text.toByteArray =
      before.utf8Encode ++ l.utf8Encode ++ rest.utf8Encode := by
    rw [← List.utf8Encode_append, ← List.utf8Encode_append, ← htext,
      ← String.toByteArray_ofList, String.ofList_toList]
  rw [← String.toByteArray_inj, String.toByteArray_extract, hfirst, hlast,
    hbytes, String.toByteArray_ofList, ← size_utf8Encode, ← size_utf8Encode,
    List.utf8Encode_append, ByteArray.extract_append_size_left]
  exact ByteArray.extract_append_eq_right rfl ByteArray.size_append

/-- From a place there are just the slices up to later places. -/
theorem Place.slice?_eq_some_iff {s : Source} (h : Place text s) {stop : Nat}
    {piece : String} :
    slice? text s.pos stop = some piece ↔
      ∃ s', Spans piece.toList s s' ∧ s'.pos = stop := by
  obtain ⟨before, hchars, hpos⟩ := h
  have hlen : s.pos = String.utf8Len before := by
    rw [hpos]
    exact Nat.zero_add _
  have htext : text.toList = before ++ s.chars := hchars
  rw [slice?_eq_some]
  constructor
  · rintro ⟨hstart, hstop, hle, hextract⟩
    obtain ⟨before', rest, htext', rfl⟩ := boundary_iff.mp hstop
    obtain ⟨l, rfl, hrest⟩ : ∃ l, before' = before ++ l ∧ s.chars = l ++ rest := by
      rw [htext] at htext'
      rcases List.append_eq_append_iff.mp htext' with
        ⟨l, hbefore, hrest⟩ | ⟨l, hbefore, hrest⟩
      · exact ⟨l, hbefore, hrest⟩
      · rw [hlen, hbefore, String.utf8Len_append] at hle
        have hnil : l = [] := String.utf8Len_eq_zero.mp (by omega)
        subst hnil
        exact ⟨[], by simpa using hbefore.symm, by simpa using hrest.symm⟩
    have hsplit : text.toList = before ++ l ++ rest := by
      rw [htext, hrest, List.append_assoc]
    have hpiece : piece = String.ofList l := by
      rw [← hextract]
      exact extract_of_append hsplit hlen rfl
    refine ⟨⟨String.utf8Len (before ++ l), rest⟩, ⟨?_, ?_⟩, rfl⟩
    · rw [hpiece, String.toList_ofList, hrest]
    · rw [hpiece, String.toList_ofList, String.utf8Len_append, hlen]
  · rintro ⟨s', hspans, rfl⟩
    have htext' : text.toList = before ++ piece.toList ++ s'.chars := by
      rw [htext, hspans.chars, List.append_assoc]
    have hlen' : s'.pos = String.utf8Len (before ++ piece.toList) := by
      rw [hspans.pos, hlen, String.utf8Len_append]
    refine ⟨boundary_iff.mpr ⟨_, _, htext, hlen⟩,
      boundary_iff.mpr ⟨_, _, htext', hlen'⟩, ?_, ?_⟩
    · rw [hspans.pos]
      exact Nat.le_add_right _ _
    · rw [extract_of_append htext' hlen hlen', String.ofList_toList]

/-- The slice between two places. -/
theorem Place.slice?_of_spans {s s' : Source} {l : List Char}
    (h : Place text s) (hspans : Spans l s s') :
    slice? text s.pos s'.pos = some (String.ofList l) :=
  h.slice?_eq_some_iff.mpr ⟨s', by rwa [String.toList_ofList], rfl⟩

/-- The slice up to the end of the text. -/
theorem Place.slice?_end {s : Source} (h : Place text s) :
    slice? text s.pos text.utf8ByteSize = some (String.ofList s.chars) := by
  rw [h.slice?_eq_some_iff]
  refine ⟨⟨text.utf8ByteSize, []⟩, ⟨by simp, ?_⟩, rfl⟩
  obtain ⟨before, hchars, hpos⟩ := h
  have htext : text.toList = before ++ s.chars := hchars
  rw [String.toList_ofList, hpos]
  change text.utf8ByteSize = 0 + _ + _
  rw [← String.ofList_toList (s := text), htext, String.utf8ByteSize_ofList,
    String.utf8Len_append, Nat.zero_add]

/-! ## Bytes -/

/-- The bytes behind a place are those of the characters there. -/
theorem Place.byte {s : Source} (h : Place text s) (i : Nat) :
    text.toByteArray.data[s.pos + i]? =
      (s.chars.flatMap String.utf8EncodeChar)[i]? := by
  obtain ⟨before, hchars, hpos⟩ := h
  have htext : text.toList = before ++ s.chars := hchars
  have hlen : s.pos = (before.flatMap String.utf8EncodeChar).length := by
    rw [hpos, ← size_utf8Encode, List.utf8Encode, List.size_toByteArray]
    exact Nat.zero_add _
  have hbytes : text.toByteArray.data.toList =
      before.flatMap String.utf8EncodeChar ++
        s.chars.flatMap String.utf8EncodeChar := by
    rw [← String.ofList_toList (s := text), htext, String.toByteArray_ofList,
      List.utf8Encode, List.data_toByteArray, List.flatMap_append]
  rw [← Array.getElem?_toList, hbytes, hlen, List.getElem?_append_right
    (Nat.le_add_right _ _), Nat.add_sub_cancel_left]

/-- An ASCII character is its only byte. -/
theorem utf8EncodeChar_of_lt {c : Char} (hc : c.toNat < 128) :
    ∃ b, String.utf8EncodeChar c = [b] ∧ Char.ofUInt8 b = c := by
  refine ⟨_, String.utf8EncodeChar_eq_singleton
    (Source.utf8Size_of_le (Char.le_refl c) hc), ?_⟩
  apply Char.toNat_inj.mp
  change c.toNat % 256 = c.toNat
  omega

theorem le_toNat_ofNat {n : Nat} (hle : 128 ≤ n) (hlt : n < 256) :
    128 ≤ (UInt8.ofNat n).toNat := by
  rw [UInt8.toNat_ofNat', Nat.mod_eq_of_lt hlt]
  exact hle

/-- The bytes of other characters are no ASCII characters. -/
theorem le_of_mem_utf8EncodeChar {c : Char} (hc : 128 ≤ c.toNat) {b : UInt8}
    (hb : b ∈ String.utf8EncodeChar c) : 128 ≤ (Char.ofUInt8 b).toNat := by
  change 128 ≤ b.toNat
  change 128 ≤ c.val.toNat at hc
  unfold String.utf8EncodeChar at hb
  dsimp only at hb
  split at hb
  next => omega
  split at hb
  next =>
    simp only [List.mem_cons, List.not_mem_nil, or_false] at hb
    rcases hb with rfl | rfl
    · exact le_toNat_ofNat (by omega) (by omega)
    · exact le_toNat_ofNat (by omega) (by omega)
  split at hb
  next =>
    simp only [List.mem_cons, List.not_mem_nil, or_false] at hb
    rcases hb with rfl | rfl | rfl
    · exact le_toNat_ofNat (by omega) (by omega)
    · exact le_toNat_ofNat (by omega) (by omega)
    · exact le_toNat_ofNat (by omega) (by omega)
  next =>
    simp only [List.mem_cons, List.not_mem_nil, or_false] at hb
    rcases hb with rfl | rfl | rfl | rfl
    · exact le_toNat_ofNat (by omega) (by omega)
    · exact le_toNat_ofNat (by omega) (by omega)
    · exact le_toNat_ofNat (by omega) (by omega)
    · exact le_toNat_ofNat (by omega) (by omega)

end Bytewise
end JsonTypedef
