import JsonTypedef.Proofs.Bytewise.Reader
import JsonTypedef.Proofs.Json.Quoted

/-!
# Strings byte by byte

A string is passed over byte by byte, and so through the middle of characters.
It is cut only in front of a quote or a backslash.  Behind a backslash one byte is
passed over before it is looked at: either it is an ASCII character, or the run
fails at the backslash and is never continued.
-/

namespace JsonTypedef
namespace Bytewise

open Parsing
open Source (Spans)

variable {text : String} {α : Type}

/-- What a run reports for a result of reading a string. -/
def located {β : Type} : Except Quoted.Located (β × Source) →
    Except Failure (β × Source)
  | .ok r => .ok r
  | .error (fault, pos) => .error ⟨.token (.string fault), pos⟩

theorem stringFault_gives {s : Source} {pos : Nat} (hpos : Boundary text pos)
    (fault : Quoted.Fault) :
    Gives text (stringFault fault pos : Reader α) s
      (.error ⟨.token (.string fault), pos⟩) :=
  .throw hpos s

theorem oneByte_of_isHex {l : List Char}
    (h : l.all (fun c => (Quoted.hexValue? c).isSome) = true) :
    Source.OneByte l := by
  intro c hc
  have hsome := List.all_eq_true.mp h c hc
  obtain ⟨n, hn⟩ := Option.isSome_iff_exists.mp hsome
  exact Quoted.utf8Size_of_hexValue? hn

theorem hexSlice?_of_readHex {s : Source} (hs : Place text s) {n : Nat}
    {rest : List Char} (h : Quoted.readHex s.chars = some (n, rest)) :
    ∃ piece, hexSlice? text s.pos = some piece ∧
      Spans piece.toList s ⟨s.pos + 4, rest⟩ ∧
      Source.OneByte piece.toList ∧ piece.toList.length = 4 ∧
      piece.toList.foldl (fun n c => n * 16 + (Quoted.hexValue? c).getD 0) 0 =
        n := by
  obtain ⟨pos, cs⟩ := s
  cases Quoted.readHex_eq_some_iff.mp h with
  | @mk a b c d a' b' c' d' _ ha hb hc hd =>
      have hisHex : [a, b, c, d].all
          (fun c => (Quoted.hexValue? c).isSome) = true := by
        simp [ha, hb, hc, hd]
      have hspans : Spans [a, b, c, d] ⟨pos, [a, b, c, d] ++ rest⟩
          ⟨pos + 4, rest⟩ :=
        Source.spans_of_oneByte (oneByte_of_isHex hisHex) pos
      have hslice : slice? text pos (pos + 4) =
          some (String.ofList [a, b, c, d]) :=
        hs.slice?_of_spans hspans
      refine ⟨String.ofList [a, b, c, d], ?_, ?_⟩
      · unfold hexSlice?
        rw [hslice, Option.filter_some, String.toList_ofList, if_pos hisHex]
      · rw [String.toList_ofList]
        exact ⟨hspans, oneByte_of_isHex hisHex, rfl, by simp [ha, hb, hc, hd]⟩

/-- Four bytes that are hexadecimal digits are four characters. -/
theorem hexSlice?_eq_none {s : Source} (hs : Place text s)
    (h : Quoted.readHex s.chars = none) : hexSlice? text s.pos = none := by
  unfold hexSlice?
  rw [Option.filter_eq_none_iff]
  intro piece hpiece hisHex
  obtain ⟨s', hspans, hpos⟩ := hs.slice?_eq_some_iff.mp hpiece
  have hlength : piece.toList.length = 4 := by
    have hlen := hspans.pos
    rw [Source.utf8Len_of_oneByte (oneByte_of_isHex hisHex), hpos] at hlen
    omega
  obtain ⟨a, b, c, d, hl⟩ := List.length_eq_four.mp hlength
  rw [hl] at hisHex hspans
  simp only [List.all_cons, Bool.and_eq_true, Option.isSome_iff_exists]
    at hisHex
  obtain ⟨⟨a', ha⟩, ⟨b', hb⟩, ⟨c', hc⟩, ⟨d', hd⟩, -⟩ := hisHex
  have hread : Quoted.readHex (a :: b :: c :: d :: s'.chars) =
      some (((a' * 16 + b') * 16 + c') * 16 + d', s'.chars) :=
    Quoted.readHex_eq_some_iff.mpr (.mk ha hb hc hd)
  have hchars : s.chars = a :: b :: c :: d :: s'.chars := hspans.chars
  rw [hchars, hread] at h
  cases h

theorem hexUnit_gives {s : Source} (hs : Place text s) :
    Gives text (hexUnit text) s
      (match Quoted.readHex s.chars with
      | some (n, rest) => .ok (n, ⟨s.pos + 4, rest⟩)
      | none => .error ⟨.token (.string .unicode), s.pos⟩) := by
  refine .get ?_
  cases hhex : Quoted.readHex s.chars with
  | some r =>
      obtain ⟨n, rest⟩ := r
      obtain ⟨piece, hslice, hspans, honeByte, hlength, rfl⟩ :=
        hexSlice?_of_readHex hs hhex
      rw [hslice]
      refine (Gives.advance hs hspans ?_).bind (.pure (hs.spans hspans) _)
      rw [Source.utf8Len_of_oneByte honeByte, hlength]
  | none =>
      rw [hexSlice?_eq_none hs hhex]
      exact stringFault_gives hs.boundary .unicode

/-- The place behind a backslash and the character that follows it. -/
theorem Place.behindEscape {s : Source} {c : Char} {rest : List Char}
    (hs : Place text s) (h : s.chars = '\\' :: c :: rest) (hc : c.toNat < 128) :
    Place text ⟨s.pos + 2, rest⟩ :=
  (hs.ascii h (by decide)).ascii rfl hc

theorem lowSurrogate_gives {s : Source} {cs : List Char} (hs : Place text s)
    {unit : Nat} {rest : List Char}
    (hhex : Quoted.readHex cs = some (unit, rest))
    (hhigh : Quoted.isHighSurrogate unit = true)
    (hrest : Place text ⟨s.pos + 6, rest⟩) :
    Gives text (lowSurrogate text s.pos unit) ⟨s.pos + 6, rest⟩
      (located (Quoted.readUnicode s.pos cs)) := by
  unfold lowSurrogate Quoted.readUnicode
  rw [hhex]
  dsimp only
  rw [if_pos hhigh]
  refine (remaining_gives hrest).bind ?_
  rw [String.toList_ofList]
  by_cases hprefix : ['\\', 'u'].isPrefixOf rest = true
  · rw [if_pos hprefix]
    obtain ⟨tail, rfl⟩ := List.isPrefixOf_iff_prefix.mp hprefix
    have htail : Place text ⟨s.pos + 8, tail⟩ :=
      hrest.behindEscape rfl (by decide)
    have hspans : Spans ['\\', 'u'] ⟨s.pos + 6, '\\' :: 'u' :: tail⟩
        ⟨s.pos + 8, tail⟩ := ⟨rfl, rfl⟩
    have hlow := hexUnit_gives htail
    refine (Gives.advance hrest hspans rfl).bind ?_
    cases hhex : Quoted.readHex tail with
    | none =>
        simp only [hhex, List.cons_append, List.nil_append] at hlow ⊢
        exact hlow.bind_error
    | some r =>
        obtain ⟨low, rest'⟩ := r
        simp only [hhex, List.cons_append, List.nil_append] at hlow ⊢
        refine hlow.bind ?_
        by_cases hislow : Quoted.isLowSurrogate low = true
        · rw [if_pos hislow, if_pos hislow]
          exact .pure hlow.place _
        · rw [if_neg hislow, if_neg hislow]
          exact stringFault_gives hs.boundary .surrogatePair
  · rw [if_neg hprefix]
    split
    next tail => exact absurd (by simp) hprefix
    next => exact stringFault_gives hs.boundary .loneSurrogate

theorem unicode_gives {s : Source} {cs : List Char} (hs : Place text s)
    (hchars : s.chars = '\\' :: 'u' :: cs) :
    Gives text (unicode text s.pos) ⟨s.pos + 2, cs⟩
      (located (Quoted.readUnicode s.pos cs)) := by
  have hunit := hexUnit_gives (hs.behindEscape hchars (by decide))
  unfold unicode
  dsimp only at hunit
  cases hhex : Quoted.readHex cs with
  | none =>
      rw [hhex] at hunit
      unfold Quoted.readUnicode
      rw [hhex]
      exact hunit.bind_error
  | some r =>
      obtain ⟨unit, rest⟩ := r
      rw [hhex] at hunit
      have hrest := hunit.place
      refine hunit.bind ?_
      by_cases hhigh : Quoted.isHighSurrogate unit = true
      · rw [if_pos hhigh]
        exact lowSurrogate_gives hs hhex hhigh hrest
      · unfold Quoted.readUnicode
        rw [hhex]
        dsimp only
        rw [if_neg hhigh, if_neg hhigh]
        by_cases hislow : Quoted.isLowSurrogate unit = true
        · rw [if_pos hislow, if_pos hislow]
          exact stringFault_gives hs.boundary .loneSurrogate
        · rw [if_neg hislow, if_neg hislow]
          exact .pure hrest _

theorem toNat_of_shortEscape? {c d : Char} (h : Quoted.shortEscape? c = some d) :
    c.toNat < 128 :=
  Nat.lt_succ_of_le
    (Char.utf8Size_eq_one_iff.mp (Quoted.utf8Size_of_shortEscape? h))

/-- No escape has a character behind its backslash that is not ASCII. -/
theorem no_escape_of_le {c : Char} (hc : 128 ≤ c.toNat) :
    Quoted.shortEscape? c = none ∧ c ≠ 'u' := by
  constructor
  · cases hshort : Quoted.shortEscape? c with
    | none => rfl
    | some d => exact absurd (toNat_of_shortEscape? hshort) (by omega)
  · rintro rfl
    exact absurd hc (by decide)

/-- Behind a backslash the byte that is passed over may be a part of a character.
Then the run fails at the backslash and is never continued. -/
theorem escape_gives {s : Source} {rest : List Char} (hs : Place text s)
    (hchars : s.chars = '\\' :: rest) :
    Gives text (escape text) s (located (Quoted.readEscape s.pos rest)) := by
  have hbehind : Place text ⟨s.pos + 1, rest⟩ := hs.ascii hchars (by decide)
  unfold escape
  refine .get ((advance_ascii hs hchars (by decide)).bind ?_)
  cases rest with
  | nil =>
      refine (peek_end hbehind rfl).bind (.get ?_)
      exact stringFault_gives hbehind.boundary .unterminated
  | cons c tail =>
      by_cases hc : c.toNat < 128
      · have htail : Place text ⟨s.pos + 2, tail⟩ := hbehind.ascii rfl hc
        refine (peek_ascii hbehind rfl hc).bind ?_
        refine (advance_ascii hbehind rfl hc).bind ?_
        unfold Quoted.readEscape
        dsimp only
        cases hshort : Quoted.shortEscape? c with
        | some d => exact .pure htail d
        | none =>
            by_cases hu : c = 'u'
            · subst hu
              exact unicode_gives hs hchars
            · dsimp only
              rw [if_neg hu, if_neg hu]
              exact stringFault_gives hs.boundary .escape
      · -- The byte that is looked at is not the character, and the cursor comes
        -- to rest inside of it; neither of them is an escape.
        have hwide := Nat.le_of_not_lt hc
        obtain ⟨d, hd, hpeek⟩ := peek_wide hbehind rfl hwide
        obtain ⟨hshort, hu⟩ := no_escape_of_le hwide
        obtain ⟨hshort', hu'⟩ := no_escape_of_le hd
        have hread : Quoted.readEscape s.pos (c :: tail) =
            .error (.escape, s.pos) := by
          simp only [Quoted.readEscape, hshort, if_neg hu]
        rw [hread]
        refine hpeek.bind (.error ?_ hs.boundary)
        simp only [hshort', if_neg hu']
        rfl

/-- The byte is neither a quote nor a backslash nor a control character. -/
def Plain (b : UInt8) : Prop :=
  Char.ofUInt8 b ≠ '"' ∧ Char.ofUInt8 b ≠ '\\' ∧ ¬ (Char.ofUInt8 b).toNat < 0x20

theorem plain_of_mem_utf8EncodeChar {c : Char} (hquote : c ≠ '"')
    (hescape : c ≠ '\\') (hcontrol : ¬ c.toNat < 0x20) {b : UInt8}
    (hb : b ∈ String.utf8EncodeChar c) : Plain b := by
  by_cases hc : c.toNat < 128
  · obtain ⟨b', hencode, hb'⟩ := utf8EncodeChar_of_lt hc
    obtain rfl : b = b' := by simpa [hencode] using hb
    unfold Plain
    rw [hb']
    exact ⟨hquote, hescape, hcontrol⟩
  · have hwide := le_of_mem_utf8EncodeChar (Nat.le_of_not_lt hc) hb
    refine ⟨?_, ?_, by omega⟩
    · rintro heq
      exact absurd (heq ▸ hwide) (by decide)
    · rintro heq
      exact absurd (heq ▸ hwide) (by decide)

/-- Plain bytes are passed over one by one, wherever they stand. -/
theorem stringFrom_plain {run : Nat} {out : String} {bytes : List UInt8}
    (hplain : ∀ b ∈ bytes, Plain b) (pos : Nat)
    (hbytes : ∀ i < bytes.length, text.toByteArray.data[pos + i]? = bytes[i]?) :
    stringFrom text run out pos =
      stringFrom text run out (pos + bytes.length) := by
  induction bytes generalizing pos with
  | nil => rfl
  | cons b bytes ih =>
      obtain ⟨hquote, hescape, hcontrol⟩ := hplain b List.mem_cons_self
      have hfirst : text.toByteArray.data[pos]? = some b :=
        hbytes 0 (Nat.zero_lt_succ _)
      have hstep : stringFrom text run out pos =
          stringFrom text run out (pos + 1) := by
        conv_lhs => rw [stringFrom]
        rw [bind_of_ok (peek_eq text pos), hfirst, Option.map_some]
        generalize Char.ofUInt8 b = c at hquote hescape hcontrol
        simp only
        rw [if_neg hcontrol]
        rfl
      have hbehind : ∀ i < bytes.length,
          text.toByteArray.data[pos + 1 + i]? = bytes[i]? := by
        intro i hi
        have hbyte := hbytes (i + 1) (Nat.succ_lt_succ hi)
        rwa [List.getElem?_cons_succ, Nat.add_comm i, ← Nat.add_assoc] at hbyte
      have hrest :=
        ih (fun b' hb' => hplain b' (List.mem_cons_of_mem b hb')) (pos + 1)
          hbehind
      rw [hstep, hrest, List.length_cons, Nat.add_comm bytes.length,
        Nat.add_assoc]

/-- A character of a string is passed over as a whole. -/
theorem stringFrom_char {run : Nat} {out : String} {s : Source} {c : Char}
    {rest : List Char} (hs : Place text s) (hchars : s.chars = c :: rest)
    (hquote : c ≠ '"') (hescape : c ≠ '\\') (hcontrol : ¬ c.toNat < 0x20) :
    stringFrom text run out s.pos =
      stringFrom text run out (s.pos + c.utf8Size) := by
  rw [← String.length_utf8EncodeChar]
  apply stringFrom_plain
  · intro b hb
    exact plain_of_mem_utf8EncodeChar hquote hescape hcontrol hb
  · intro i hi
    rw [hs.byte, hchars, List.flatMap_cons, List.getElem?_append_left hi]

/-- An escape is read behind the slice in front of it. -/
theorem stringFrom_escape {start s : Source} {piece rest : List Char}
    (hstart : Place text start) (hspans : Spans piece start s)
    (hchars : s.chars = '\\' :: rest) (out : String) {r : _}
    (h : Gives text (do
        let c ← escape text
        let run ← get
        stringFrom text run ((out ++ String.ofList piece).push c)) s r) :
    Gives text (stringFrom text start.pos out) s r := by
  have hs : Place text s := hstart.spans hspans
  rw [stringFrom]
  refine (peek_ascii hs hchars (by decide)).bind ?_
  exact .get (.lift (hstart.slice?_of_spans hspans) h)

/-- A string is read from anywhere inside it, where `piece` stands between the
last escape and there. -/
theorem stringFrom_gives {pos : Nat} {cs : List Char} {start : Source}
    {piece : List Char} (hstart : Place text start)
    (hspans : Spans piece start ⟨pos, cs⟩) (out : String) :
    Gives text (stringFrom text start.pos out) ⟨pos, cs⟩
      (located ((Quoted.read pos cs).map fun r =>
        (out ++ String.ofList (piece ++ r.1), r.2))) := by
  -- A character without an escape makes the piece longer, an escape ends it.
  fun_induction Quoted.read pos cs generalizing start piece out with
  | case1 pos =>
      have hs : Place text ⟨pos, []⟩ := hstart.spans hspans
      rw [stringFrom]
      refine (peek_end hs rfl).bind (.get ?_)
      exact stringFault_gives hs.boundary .unterminated
  | case2 pos rest =>
      have hs : Place text ⟨pos, '"' :: rest⟩ := hstart.spans hspans
      rw [stringFrom]
      refine (peek_ascii hs rfl (by decide)).bind ?_
      refine .get (.lift (hstart.slice?_of_spans hspans) ?_)
      refine (advance_ascii hs rfl (by decide)).bind ?_
      have hplace : Place text ⟨pos + 1, rest⟩ := hs.ascii rfl (by decide)
      have hvalue := Gives.pure hplace (out ++ String.ofList piece)
      simpa [located, Except.map] using hvalue
  | case3 pos rest e hescape =>
      have hfault := escape_gives (hstart.spans hspans) rfl
      rw [hescape] at hfault
      exact stringFrom_escape hstart hspans rfl out hfault.bind_error
  | case4 pos rest d s' hescape _ e hread _ ih =>
      have hchar := escape_gives (hstart.spans hspans) rfl
      rw [hescape] at hchar
      refine stringFrom_escape hstart hspans rfl out (hchar.bind (.get ?_))
      have hrest := ih hchar.place (.refl s') ((out ++ String.ofList piece).push d)
      rw [hread] at hrest
      exact hrest
  | case5 pos rest d s' hescape _ ds s'' hread _ ih =>
      have hchar := escape_gives (hstart.spans hspans) rfl
      rw [hescape] at hchar
      refine stringFrom_escape hstart hspans rfl out (hchar.bind (.get ?_))
      have hrest := ih hchar.place (.refl s') ((out ++ String.ofList piece).push d)
      have hvalue : (out ++ String.ofList piece).push d ++ String.ofList ds =
          out ++ String.ofList (piece ++ d :: ds) := by
        rw [← String.toList_inj]
        simp
      rw [hread] at hrest
      simpa [located, Except.map, hvalue] using hrest
  | case6 pos c rest hquote hescape hcontrol =>
      have hs : Place text ⟨pos, c :: rest⟩ := hstart.spans hspans
      rw [stringFrom]
      refine (peek_ascii hs rfl (Nat.lt_trans hcontrol (by decide))).bind ?_
      simp only
      rw [if_pos hcontrol]
      exact .get (stringFault_gives hs.boundary .control)
  | case7 pos c rest hquote hescape hcontrol e hread ih =>
      have hs : Place text ⟨pos, c :: rest⟩ := hstart.spans hspans
      have hnext : Spans [c] ⟨pos, c :: rest⟩ ⟨pos + c.utf8Size, rest⟩ :=
        ⟨rfl, by simp⟩
      have hrest := ih hstart (hspans.trans hnext) out
      rw [hread] at hrest
      exact hrest.of_run_eq (stringFrom_char hs rfl hquote hescape hcontrol)
  | case8 pos c rest hquote hescape hcontrol ds s' hread ih =>
      have hs : Place text ⟨pos, c :: rest⟩ := hstart.spans hspans
      have hnext : Spans [c] ⟨pos, c :: rest⟩ ⟨pos + c.utf8Size, rest⟩ :=
        ⟨rfl, by simp⟩
      have hrest := ih hstart (hspans.trans hnext) out
      rw [hread] at hrest
      have hgives :=
        hrest.of_run_eq (stringFrom_char hs rfl hquote hescape hcontrol)
      simpa [located, Except.map] using hgives

end Bytewise
end JsonTypedef
