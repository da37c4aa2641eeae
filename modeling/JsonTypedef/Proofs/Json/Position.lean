import JsonTypedef.Json.Scan
import JsonTypedef.Proofs.Json.Shape
import Mathlib.Data.String.Basic

/-!
# Places in a text

Sources of one text are places in it, and their positions count the UTF-8 bytes
in front of them.  `Source.Passes` says which texts stand between two places,
`Source.Enters` which texts begin between them.  Reading a token passes over its
spelling.  Where no token can be read the fault is reported at a place up to
which the characters still begin one.
-/

namespace JsonTypedef
namespace Source

open Shape (Texts Begins Seq)

/-- From the first place to the second one stand these characters. -/
structure Spans (l : List Char) (s s' : Source) : Prop where
  chars : s.chars = l ++ s'.chars
  pos : s'.pos = s.pos + String.utf8Len l

/-- From the first place to the second one stands a text of the set. -/
def Passes (L : Texts) (s s' : Source) : Prop :=
  ∃ l, L l ∧ Spans l s s'

/-- From the first place to the second one stands the beginning of a text of the
set. -/
abbrev Enters (L : Texts) : Source → Source → Prop :=
  Passes (Begins L)

/-- Up to the offset stands the beginning of a text of the set. -/
def EntersAt (L : Texts) (s : Source) (pos : Nat) : Prop :=
  ∃ here, Enters L s here ∧ here.pos = pos

theorem Spans.refl (s : Source) : Spans [] s s :=
  ⟨rfl, rfl⟩

theorem Spans.trans {l m : List Char} {s t u : Source} (h : Spans l s t)
    (h' : Spans m t u) : Spans (l ++ m) s u := by
  constructor
  · rw [h.chars, h'.chars, List.append_assoc]
  · rw [h'.pos, h.pos, String.utf8Len_append, Nat.add_assoc]

section

variable {L M : Texts} {s t u : Source}

theorem Passes.mono (h : Passes L s t) (hle : ∀ l, L l → M l) :
    Passes M s t := by
  obtain ⟨l, hl, hspans⟩ := h
  exact ⟨l, hle l hl, hspans⟩

theorem Passes.seq (h : Passes L s t) (h' : Passes M t u) :
    Passes (Seq L M) s u := by
  obtain ⟨l, hl, hspans⟩ := h
  obtain ⟨m, hm, hspans'⟩ := h'
  exact ⟨l ++ m, .mk hl hm, hspans.trans hspans'⟩

theorem Passes.enters (h : Passes L s t) : Enters L s t :=
  h.mono fun _ => Begins.of

theorem Passes.le (h : Passes L s t) : s.pos ≤ t.pos := by
  obtain ⟨l, -, hspans⟩ := h
  rw [hspans.pos]
  exact Nat.le_add_right _ _

theorem EntersAt.le {pos : Nat} (h : EntersAt L s pos) : s.pos ≤ pos := by
  obtain ⟨here, henters, rfl⟩ := h
  exact henters.le

/-- A text that ends with a character of one byte is entered up to there. -/
theorem Passes.entersAt_last (h : Passes L s t) {c : Char}
    (hc : c.utf8Size = 1) (hlast : ∀ l, L l → ∃ m, l = m ++ [c]) :
    EntersAt L s (t.pos - 1) := by
  obtain ⟨l, hl, hspans⟩ := h
  obtain ⟨m, rfl⟩ := hlast l hl
  refine ⟨⟨s.pos + String.utf8Len m, c :: t.chars⟩,
    ⟨m, ⟨[c], hl⟩, ?_, rfl⟩, ?_⟩
  · rw [hspans.chars, List.append_assoc]
    rfl
  · rw [hspans.pos, String.utf8Len_append, String.utf8Len_cons, hc]
    rfl

theorem Enters.refl (h : ∃ l, L l) (s : Source) : Enters L s s :=
  ⟨[], h, .refl s⟩

theorem Enters.mono (h : Enters L s t) (hle : ∀ l, L l → M l) :
    Enters M s t :=
  Passes.mono h fun _ hl => hl.mono hle

theorem Enters.left (h : Enters L s t) (hm : ∃ m, M m) :
    Enters (Seq L M) s t :=
  Passes.mono h fun _ hl => hl.left hm

theorem Enters.right (h : Passes L s t) (h' : Enters M t u) :
    Enters (Seq L M) s u := by
  obtain ⟨l, hl, hspans⟩ := h
  obtain ⟨m, hm, hspans'⟩ := h'
  exact ⟨l ++ m, .right hl hm, hspans.trans hspans'⟩

/-- What holds of the places up to which a text is entered holds of the offset.
-/
theorem EntersAt.imp {pos : Nat} (h : EntersAt L s pos)
    (henters : ∀ here, Enters L s here → Enters M t here) :
    EntersAt M t pos := by
  obtain ⟨here, hplace, hpos⟩ := h
  exact ⟨here, henters here hplace, hpos⟩

theorem EntersAt.mono {pos : Nat} (h : EntersAt L s pos)
    (hle : ∀ l, L l → M l) : EntersAt M s pos :=
  h.imp fun _ hplace => hplace.mono hle

theorem EntersAt.right {pos : Nat} (h : Passes L s t)
    (h' : EntersAt M t pos) : EntersAt (Seq L M) s pos :=
  h'.imp fun _ hplace => .right h hplace

end

/-! ## Characters of one byte -/

/-- All characters take up one byte. -/
def OneByte (l : List Char) : Prop :=
  ∀ c ∈ l, c.utf8Size = 1

instance : DecidablePred OneByte := fun l =>
  decidable_of_iff (l.all fun c => c.utf8Size == 1) (by simp [OneByte])

theorem OneByte.cons {c : Char} {l : List Char} (hc : c.utf8Size = 1)
    (hl : OneByte l) : OneByte (c :: l) :=
  List.forall_mem_cons.mpr ⟨hc, hl⟩

theorem OneByte.append {l m : List Char} (hl : OneByte l) (hm : OneByte m) :
    OneByte (l ++ m) :=
  List.forall_mem_append.mpr ⟨hl, hm⟩

theorem utf8Len_of_oneByte {l : List Char} (h : OneByte l) :
    String.utf8Len l = l.length := by
  induction l with
  | nil => rfl
  | cons c l ih =>
      have hc := h c List.mem_cons_self
      have hl := ih fun d hd => h d (List.mem_cons_of_mem c hd)
      rw [String.utf8Len_cons, hc, hl, List.length_cons]

theorem utf8Size_of_le {c d : Char} (h : c ≤ d) (hd : d.toNat < 128) :
    c.utf8Size = 1 := by
  rw [Char.utf8Size_eq_one_iff, UInt32.le_iff_toNat_le]
  have hle : c.toNat ≤ d.toNat := h
  exact Nat.le_of_lt_succ (Nat.lt_of_le_of_lt hle hd)

theorem spans_of_oneByte {l rest : List Char} (h : OneByte l) (pos : Nat) :
    Spans l ⟨pos, l ++ rest⟩ ⟨pos + l.length, rest⟩ := by
  refine ⟨rfl, ?_⟩
  rw [utf8Len_of_oneByte h]

/-- The place behind the blanks. -/
def front (s : Source) : Source :=
  skipBlanks s.pos s.chars

theorem oneByte_of_isBlank {c : Char} (h : Grammar.IsBlank c) :
    c.utf8Size = 1 := by
  rcases h with rfl | rfl | rfl | rfl <;> decide

theorem passes_front (s : Source) : Passes Shape.Blank s s.front := by
  obtain ⟨pos, cs⟩ := s
  unfold front
  dsimp only
  induction cs generalizing pos with
  | nil => exact ⟨[], by simp [Shape.Blank], .refl _⟩
  | cons c cs ih =>
      unfold skipBlanks
      split
      next hblank =>
        obtain ⟨l, hl, hspans⟩ := ih (pos + 1)
        have hc : Spans [c] ⟨pos, c :: cs⟩ ⟨pos + 1, cs⟩ := by
          refine ⟨rfl, ?_⟩
          rw [String.utf8Len_cons, oneByte_of_isBlank hblank]
          rfl
        refine ⟨[c] ++ l, fun d hd => ?_, hc.trans hspans⟩
        rcases List.mem_cons.mp hd with rfl | hd
        · exact hblank
        · exact hl d hd
      next => exact ⟨[], by simp [Shape.Blank], .refl _⟩

end Source

open Source

/-! ## Strings -/

namespace Quoted

open Shape (Body Piece)

/-- From the first place to the second one stand characters of a string. -/
def Inside (s s' : Source) : Prop :=
  ∃ l, (∀ m, Body m → Body (l ++ m)) ∧ Spans l s s'

section

variable {s t u : Source}

theorem Inside.of_piece {l : List Char} (hl : Piece l) (h : Spans l s t) :
    Inside s t :=
  ⟨l, fun _ hm => .piece hl hm, h⟩

theorem Inside.trans (h : Inside s t) (h' : Inside t u) : Inside s u := by
  obtain ⟨l, hl, hspans⟩ := h
  obtain ⟨m, hm, hspans'⟩ := h'
  refine ⟨l ++ m, fun n hn => ?_, hspans.trans hspans'⟩
  rw [List.append_assoc]
  exact hl _ (hm n hn)

theorem Inside.passes (h : Inside s t) (h' : Passes Body t u) :
    Passes Body s u := by
  obtain ⟨l, hl, hspans⟩ := h
  obtain ⟨m, hm, hspans'⟩ := h'
  exact ⟨l ++ m, hl m hm, hspans.trans hspans'⟩

theorem Inside.enters (h : Inside s t) (h' : Enters Body t u) :
    Enters Body s u := by
  obtain ⟨l, hl, hspans⟩ := h
  obtain ⟨m, ⟨tail, htail⟩, hspans'⟩ := h'
  refine ⟨l ++ m, ⟨tail, ?_⟩, hspans.trans hspans'⟩
  rw [List.append_assoc]
  exact hl _ htail

end

theorem utf8Size_of_hexValue? {c : Char} {n : Nat} (h : hexValue? c = some n) :
    c.utf8Size = 1 := by
  unfold hexValue? at h
  split at h
  next hc => exact utf8Size_of_le hc.2 (by decide)
  split at h
  next hc => exact utf8Size_of_le hc.2 (by decide)
  split at h
  next hc => exact utf8Size_of_le hc.2 (by decide)
  next => cases h

theorem utf8Size_of_shortEscape? {c d : Char} (h : shortEscape? c = some d) :
    c.utf8Size = 1 := by
  unfold shortEscape? at h
  split at h
  next hc => subst hc; decide
  split at h
  next hc => subst hc; decide
  split at h
  next hc => subst hc; decide
  split at h
  next hc => subst hc; decide
  split at h
  next hc => subst hc; decide
  split at h
  next hc => subst hc; decide
  split at h
  next hc => subst hc; decide
  split at h
  next hc => subst hc; decide
  next => cases h

/-- An escape with four hexadecimal digits takes up six bytes. -/
theorem inside_of_readHex {start n : Nat} {cs rest : List Char}
    (h : readHex cs = some (n, rest)) :
    Inside ⟨start, '\\' :: 'u' :: cs⟩ ⟨start + 6, rest⟩ := by
  cases readHex_eq_some_iff.mp h with
  | @mk a b c d _ _ _ _ _ ha hb hc hd =>
      apply Inside.of_piece (.hex (.mk ha hb hc hd))
      refine ⟨rfl, ?_⟩
      simp only [String.utf8Len_cons, String.utf8Len_nil,
        utf8Size_of_hexValue? ha, utf8Size_of_hexValue? hb,
        utf8Size_of_hexValue? hc, utf8Size_of_hexValue? hd]
      rfl

theorem readUnicode_inside {start : Nat} {cs : List Char} {c : Char}
    {s : Source} (h : readUnicode start cs = .ok (c, s)) :
    Inside ⟨start, '\\' :: 'u' :: cs⟩ s := by
  unfold readUnicode at h
  split at h
  next => cases h
  next unit rest hhex =>
    have hunit : Inside ⟨start, '\\' :: 'u' :: cs⟩ ⟨start + 6, rest⟩ :=
      inside_of_readHex hhex
    split at h
    next =>
      split at h
      next tail =>
        split at h
        next => cases h
        next low rest' hlow =>
          split at h
          next =>
            simp only [Except.ok.injEq, Prod.mk.injEq] at h
            obtain ⟨-, rfl⟩ := h
            exact hunit.trans (inside_of_readHex hlow)
          next => cases h
      next => cases h
    next =>
      split at h
      next => cases h
      next =>
        simp only [Except.ok.injEq, Prod.mk.injEq] at h
        obtain ⟨-, rfl⟩ := h
        exact hunit

theorem readEscape_inside {start : Nat} {cs : List Char} {c : Char}
    {s : Source} (h : readEscape start cs = .ok (c, s)) :
    Inside ⟨start, '\\' :: cs⟩ s := by
  unfold readEscape at h
  split at h
  next => cases h
  next e rest =>
    split at h
    next d hshort =>
      cases h
      apply Inside.of_piece (.short hshort)
      refine ⟨rfl, ?_⟩
      simp only [String.utf8Len_cons, String.utf8Len_nil,
        utf8Size_of_shortEscape? hshort]
      rfl
    next =>
      split at h
      next hu =>
        subst hu
        exact readUnicode_inside h
      next => cases h

/-- What is read as a string passes over its characters and closing quote. -/
theorem read_passes {pos : Nat} {cs ds : List Char} {s : Source}
    (h : read pos cs = .ok (ds, s)) : Passes Body ⟨pos, cs⟩ s := by
  fun_induction read pos cs generalizing ds s with
  | case1 => cases h
  | case2 pos rest =>
      cases h
      exact ⟨['"'], .close, rfl, rfl⟩
  | case3 => cases h
  | case4 => cases h
  | case5 pos rest d s' hescape _ ds' s'' hread _ ih =>
      cases h
      exact (readEscape_inside hescape).passes (ih hread)
  | case6 => cases h
  | case7 => cases h
  | case8 pos c rest hquote hescape hcontrol ds' s' hread ih =>
      cases h
      have hplain : Inside ⟨pos, c :: rest⟩ ⟨pos + c.utf8Size, rest⟩ :=
        .of_piece (.plain hquote hescape hcontrol) ⟨rfl, by simp⟩
      exact hplain.passes (ih hread)

/-- Characters that can be completed to a string. -/
theorem enters_body (s : Source) : Enters Body s s :=
  .refl ⟨_, .close⟩ s

/-- The place behind the letter of an escape with hexadecimal digits. -/
theorem enters_unicode (start : Nat) (cs : List Char) :
    Enters Body ⟨start, '\\' :: 'u' :: cs⟩ ⟨start + 2, cs⟩ := by
  have hzero : hexValue? '0' = some 0 := by decide
  have hpiece : Piece ['\\', 'u', '0', '0', '0', '0'] :=
    .hex (.mk hzero hzero hzero hzero)
  have hbody : Body ['\\', 'u', '0', '0', '0', '0', '"'] :=
    .piece hpiece .close
  exact ⟨['\\', 'u'], ⟨['0', '0', '0', '0', '"'], hbody⟩, rfl, rfl⟩

theorem readUnicode_enters {start pos : Nat} {cs : List Char} {fault : Fault}
    (h : readUnicode start cs = .error (fault, pos)) :
    EntersAt Body ⟨start, '\\' :: 'u' :: cs⟩ pos := by
  unfold readUnicode at h
  split at h
  next =>
    cases h
    exact ⟨_, enters_unicode start cs, rfl⟩
  next unit rest hhex =>
    split at h
    next =>
      split at h
      next tail =>
        split at h
        next =>
          cases h
          exact ⟨_, (inside_of_readHex hhex).enters (enters_unicode _ tail),
            rfl⟩
        next =>
          split at h
          next => cases h
          next =>
            cases h
            exact ⟨_, enters_body _, rfl⟩
      next =>
        cases h
        exact ⟨_, enters_body _, rfl⟩
    next =>
      split at h
      next =>
        cases h
        exact ⟨_, enters_body _, rfl⟩
      next => cases h

theorem readEscape_enters {start pos : Nat} {cs : List Char} {fault : Fault}
    (h : readEscape start cs = .error (fault, pos)) :
    EntersAt Body ⟨start, '\\' :: cs⟩ pos := by
  unfold readEscape at h
  split at h
  next =>
    cases h
    have hshort : shortEscape? 'n' = some '\n' := by decide
    have hbody : Body ['\\', 'n', '"'] := .piece (.short hshort) .close
    exact ⟨⟨start + 1, []⟩, ⟨['\\'], ⟨['n', '"'], hbody⟩, rfl, rfl⟩, rfl⟩
  next e rest =>
    split at h
    next => cases h
    next =>
      split at h
      next hu =>
        subst hu
        exact readUnicode_enters h
      next =>
        cases h
        exact ⟨_, enters_body _, rfl⟩

/-- A string that cannot be read is entered up to where that is reported. -/
theorem read_enters {pos stop : Nat} {cs : List Char} {fault : Fault}
    (h : read pos cs = .error (fault, stop)) :
    EntersAt Body ⟨pos, cs⟩ stop := by
  fun_induction read pos cs with
  | case1 =>
      cases h
      exact ⟨_, enters_body _, rfl⟩
  | case2 => cases h
  | case3 pos rest e hescape =>
      cases h
      exact readEscape_enters hescape
  | case4 pos rest d s' hescape _ e hread _ ih =>
      cases h
      obtain ⟨here, henters, hpos⟩ := ih hread
      exact ⟨here, (readEscape_inside hescape).enters henters, hpos⟩
  | case5 => cases h
  | case6 =>
      cases h
      exact ⟨_, enters_body _, rfl⟩
  | case7 pos c rest hquote hescape hcontrol e hread ih =>
      cases h
      obtain ⟨here, henters, hpos⟩ := ih hread
      have hplain : Inside ⟨pos, c :: rest⟩ ⟨pos + c.utf8Size, rest⟩ :=
        .of_piece (.plain hquote hescape hcontrol) ⟨rfl, by simp⟩
      exact ⟨here, hplain.enters henters, hpos⟩
  | case8 => cases h

end Quoted

/-! ## Numerals -/

namespace Numeral

open Shape (Begins Digits)

theorem utf8Size_of_isDigit {c : Char} (h : isDigit c = true) :
    c.utf8Size = 1 := by
  simp only [isDigit, Bool.and_eq_true, decide_eq_true_eq] at h
  exact utf8Size_of_le h.2 (by decide)

theorem oneByte_of_allDigits {ds : List Char} (h : AllDigits ds) :
    OneByte ds :=
  fun c hc => utf8Size_of_isDigit (h c hc)

theorem oneByte_fractionText {ds : List Char} (h : AllDigits ds) :
    OneByte (fractionText ds) := by
  cases ds with
  | nil => decide
  | cons d ds => exact .cons (by decide) (oneByte_of_allDigits h)

theorem oneByte_exponentText {letter : Char} (hletter : IsLetter letter)
    {e : Option Exponent} (h : ∀ x ∈ e, AllDigits x.digits) :
    OneByte (exponentText letter e) := by
  cases e with
  | none => exact (by decide : OneByte [])
  | some e =>
      have hsign : OneByte (signText e.sign) := by
        match e.sign with
        | none => decide
        | some false => decide
        | some true => decide
      apply OneByte.cons
      · rcases hletter with rfl | rfl <;> decide
      · exact hsign.append (oneByte_of_allDigits (h e rfl))

theorem oneByte_digits {l : List Char} (h : Digits l) : OneByte l := by
  cases h with
  | @mk n letter hvalid hletter =>
      have hsign : OneByte (if n.negative then ['-'] else []) := by
        split <;> decide
      have hwhole : OneByte n.whole := by
        rcases hvalid.whole with hzero | ⟨-, -, hdigits⟩
        · rw [hzero]
          decide
        · exact oneByte_of_allDigits hdigits
      have hexponent := oneByte_exponentText hletter fun x hx =>
        (hvalid.exponent x hx).2
      exact hsign.append (hwhole.append
        ((oneByte_fractionText hvalid.fraction).append hexponent))

/-- A numeral passes over its characters. -/
theorem read_passes {cs rest : List Char} {n : Numeral}
    (h : read cs = .numeral n rest) (pos : Nat) :
    Passes Digits ⟨pos, cs⟩ ⟨pos + n.size, rest⟩ := by
  have hsize := read_size h
  obtain ⟨hvalid, letter, hletter, rfl⟩ := (written_of_read h).1
  have hdigits : Digits (n.spelled letter) := .mk hvalid hletter
  have hlength : n.size = (n.spelled letter).length := by
    rw [List.length_append] at hsize
    exact Nat.add_right_cancel hsize
  rw [hlength]
  exact ⟨_, hdigits, spans_of_oneByte (oneByte_digits hdigits) pos⟩

/-! A numeral that lacks a digit is completed by a zero. -/

section

variable {negative : Bool} {whole fraction cs rest : List Char} {gap : Gap}

theorem begins_exponent (hwhole : IsWhole whole)
    (hfraction : AllDigits fraction) {letter : Char}
    (hletter : IsLetter letter) (sign : Option Bool) :
    Begins Digits ((if negative then ['-'] else []) ++
      (whole ++ (fractionText fraction ++ letter :: signText sign))) := by
  have hvalid : Valid ⟨negative, whole, fraction, some ⟨sign, ['0']⟩⟩ := by
    refine ⟨hwhole, hfraction, ?_⟩
    rintro x ⟨⟩
    exact ⟨by simp, by simp [AllDigits, isDigit]⟩
  refine ⟨['0'], ?_⟩
  simpa [spelled, exponentText] using Digits.mk hvalid hletter

theorem readExponent_missing
    (h : readExponent negative whole fraction cs = .missing gap rest) :
    ∃ letter sign, IsLetter letter ∧ cs = letter :: signText sign ++ rest := by
  unfold readExponent at h
  split at h
  next => cases h
  next c tail =>
    split at h
    next hletter =>
      split at h
      next sign digits hsign =>
        split at h
        next rest' hspan =>
          cases h
          obtain ⟨rfl, -, -⟩ := spanDigits_spec hspan
          refine ⟨c, sign, hletter, ?_⟩
          split at hsign <;> cases hsign <;> simp [signText]
        next => cases h
    next => cases h

theorem readFraction_missing (hwhole : IsWhole whole)
    (h : readFraction negative whole cs = .missing gap rest) :
    ∃ l, cs = l ++ rest ∧
      Begins Digits ((if negative then ['-'] else []) ++ (whole ++ l)) := by
  unfold readFraction at h
  split at h
  next tail =>
    split at h
    next rest' hspan =>
      cases h
      obtain ⟨rfl, -, -⟩ := spanDigits_spec hspan
      have hvalid : Valid ⟨negative, whole, ['0'], none⟩ :=
        ⟨hwhole, by simp [AllDigits, isDigit], by simp⟩
      refine ⟨['.'], rfl, ['0'], ?_⟩
      simpa [spelled, fractionText, exponentText] using
        Digits.mk hvalid (Or.inl rfl)
    next ds behind hds hspan =>
      obtain ⟨rfl, halldigits, -⟩ := spanDigits_spec hspan
      obtain ⟨letter, sign, hletter, rfl⟩ := readExponent_missing h
      obtain ⟨d, ds, rfl⟩ := List.exists_cons_of_ne_nil hds
      exact ⟨fractionText (d :: ds) ++ letter :: signText sign,
        by simp [fractionText],
        begins_exponent hwhole halldigits hletter sign⟩
  next =>
    obtain ⟨letter, sign, hletter, rfl⟩ := readExponent_missing h
    have hnone : AllDigits [] := by simp [AllDigits]
    exact ⟨letter :: signText sign, rfl,
      begins_exponent hwhole hnone hletter sign⟩

theorem readWhole_missing
    (h : readWhole negative cs = .missing gap rest) :
    ∃ l, cs = l ++ rest ∧
      Begins Digits ((if negative then ['-'] else []) ++ l) := by
  unfold readWhole at h
  split at h
  next tail =>
    obtain ⟨l, rfl, hl⟩ := readFraction_missing (Or.inl rfl) h
    exact ⟨'0' :: l, rfl, hl⟩
  next hzero =>
    split at h
    next rest' hspan =>
      cases h
      obtain ⟨rfl, -, -⟩ := spanDigits_spec hspan
      have hvalid : Valid ⟨negative, ['0'], [], none⟩ :=
        ⟨Or.inl rfl, by simp [AllDigits], by simp⟩
      refine ⟨[], rfl, ['0'], ?_⟩
      simpa [spelled, fractionText, exponentText] using
        Digits.mk hvalid (Or.inl rfl)
    next ds behind hds hspan =>
      obtain ⟨rfl, halldigits, -⟩ := spanDigits_spec hspan
      have hwhole : IsWhole ds := by
        refine Or.inr ⟨hds, fun hhead => ?_, halldigits⟩
        obtain ⟨tail, rfl⟩ : ∃ tail, ds = '0' :: tail :=
          List.head?_eq_some_iff.mp hhead
        exact hzero _ rfl
      obtain ⟨l, rfl, hl⟩ := readFraction_missing hwhole h
      exact ⟨ds ++ l, by simp, hl⟩

end

/-- A numeral is entered up to the digit that it lacks. -/
theorem read_enters {cs rest : List Char} {gap : Gap}
    (h : read cs = .missing gap rest) (pos : Nat) :
    Enters Digits ⟨pos, cs⟩ ⟨pos + (cs.length - rest.length), rest⟩ := by
  have hread : ∃ l, cs = l ++ rest ∧ Begins Digits l := by
    unfold read at h
    split at h
    next tail =>
      obtain ⟨l, rfl, hl⟩ := readWhole_missing h
      exact ⟨'-' :: l, rfl, hl⟩
    next => exact readWhole_missing h
  obtain ⟨l, rfl, hl⟩ := hread
  have hlength : (l ++ rest).length - rest.length = l.length := by
    rw [List.length_append, Nat.add_sub_cancel]
  obtain ⟨tail, htail⟩ := hl
  have honeByte : OneByte l := fun c hc =>
    oneByte_digits htail c (List.mem_append_left tail hc)
  rw [hlength]
  exact ⟨l, ⟨tail, htail⟩, spans_of_oneByte honeByte pos⟩

theorem allDigits_concat {ds : List Char} {c : Char} (hds : AllDigits ds)
    (hc : isDigit c = true) : AllDigits (ds ++ [c]) := by
  intro d hd
  rcases List.mem_append.mp hd with hd | hd
  · exact hds d hd
  · rwa [List.mem_singleton.mp hd]

theorem isWhole_concat {ds : List Char} {c : Char} (hds : IsWhole ds)
    (hzero : ds ≠ ['0']) (hc : isDigit c = true) : IsWhole (ds ++ [c]) := by
  obtain ⟨hne, hhead, hdigits⟩ := hds.resolve_left hzero
  refine Or.inr ⟨List.append_ne_nil_of_left_ne_nil hne _, ?_,
    allDigits_concat hdigits hc⟩
  rwa [List.head?_append_of_ne_nil _ hne]

/-- A text stops a numeral if its first character does not go on with it. -/
theorem stops_of_not_begins {n : Numeral} {letter c : Char} {rest : List Char}
    (hvalid : n.Valid) (hletter : IsLetter letter)
    (h : ¬ Begins Digits (n.spelled letter ++ [c])) : n.Stops (c :: rest) := by
  have hlonger : ∀ (m : Numeral) (tail : List Char) {letter' : Char},
      m.Valid → IsLetter letter' →
        m.spelled letter' ≠ n.spelled letter ++ c :: tail := by
    intro m tail letter' hm hletter' heq
    refine h ⟨tail, ?_⟩
    rw [List.append_assoc, List.singleton_append, ← heq]
    exact .mk hm hletter'
  have hnoDigit : (isDigit c ≠ true) → NoDigit (c :: rest) := by
    rintro hc d ⟨⟩
    exact Bool.eq_false_iff.mpr hc
  obtain ⟨negative, whole, fraction, e⟩ := n
  obtain ⟨hwhole, hfraction, hexponent⟩ := hvalid
  cases e with
  | some e =>
      have hdigit : isDigit c ≠ true := by
        intro hc
        obtain ⟨hne, hdigits⟩ := hexponent e rfl
        apply hlonger ⟨negative, whole, fraction,
          some ⟨e.sign, e.digits ++ [c]⟩⟩ [] _ hletter
        · simp [spelled, exponentText]
        · refine ⟨hwhole, hfraction, ?_⟩
          rintro _ ⟨⟩
          exact ⟨by simp, allDigits_concat hdigits hc⟩
      refine ⟨⟨⟨fun _ => hnoDigit hdigit, ?_⟩, ?_⟩, ?_⟩ <;> rintro ⟨⟩
  | none =>
      have hzero : AllDigits ['0'] := by simp [AllDigits, isDigit]
      have hexponent : ¬ IsLetter c := by
        intro hc
        apply hlonger ⟨negative, whole, fraction, some ⟨none, ['0']⟩⟩ ['0'] _ hc
        · simp [spelled, exponentText, signText]
        · refine ⟨hwhole, hfraction, ?_⟩
          rintro _ ⟨⟩
          exact ⟨by simp, hzero⟩
      have hpoint : fraction = [] → c ≠ '.' := by
        rintro rfl rfl
        apply hlonger ⟨negative, whole, ['0'], none⟩ ['0'] _ hletter
        · simp [spelled, exponentText, fractionText]
        · exact ⟨hwhole, hzero, by simp⟩
      have hmore : fraction ≠ [] → isDigit c ≠ true := by
        intro hne hc
        obtain ⟨d, ds, rfl⟩ := List.exists_cons_of_ne_nil hne
        apply hlonger ⟨negative, whole, d :: ds ++ [c], none⟩ [] _ hletter
        · simp [spelled, exponentText, fractionText]
        · exact ⟨hwhole, allDigits_concat hfraction hc, by simp⟩
      have hlong : fraction = [] → whole ≠ ['0'] → isDigit c ≠ true := by
        rintro rfl hne hc
        apply hlonger ⟨negative, whole ++ [c], [], none⟩ [] _ hletter
        · simp [spelled, exponentText, fractionText]
        · exact ⟨isWhole_concat hwhole hne hc, hfraction, by simp⟩
      refine ⟨⟨⟨?_, ?_⟩, fun _ => ⟨fun hne => hnoDigit (hmore hne), ?_⟩⟩,
        fun _ hnone hne => hnoDigit (hlong hnone hne)⟩
      · rintro ⟨⟩
      · rintro - _ ⟨⟩
        exact hexponent
      · rintro hnone _ ⟨⟩
        exact hpoint hnone

end Numeral

end JsonTypedef
