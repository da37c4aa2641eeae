import JsonTypedef.Proofs.Json.Grammar
import JsonTypedef.Proofs.Json.Numeral
import JsonTypedef.Proofs.Json.Quoted

/-!
# JSON text, character by character

`Grammar.Denotes` is the grammar of JSON text: which value a text denotes,
blanks being allowed in front of every token and at the end.  It is equivalent
to the grammar over the stream of a text, which the reader and the parser
follow.
-/

namespace JsonTypedef
namespace Grammar

/-- A blank of JSON text. -/
def IsBlank (c : Char) : Prop :=
  c = ' ' ∨ c = '\t' ∨ c = '\n' ∨ c = '\r'

/-- Nothing but blanks stands in front of what remains of a text. -/
inductive Blanks : List Char → List Char → Prop
  | none {cs : List Char} : Blanks cs cs
  | more {c : Char} {cs rest : List Char} :
      IsBlank c → Blanks cs rest → Blanks (c :: cs) rest

/-- A text starts with the characters of a token. -/
inductive Lexical : Token → List Char → List Char → Prop
  | openBrace {rest : List Char} : Lexical .openBrace ('\x7b' :: rest) rest
  | closeBrace {rest : List Char} : Lexical .closeBrace ('\x7d' :: rest) rest
  | openBracket {rest : List Char} : Lexical .openBracket ('[' :: rest) rest
  | closeBracket {rest : List Char} : Lexical .closeBracket (']' :: rest) rest
  | comma {rest : List Char} : Lexical .comma (',' :: rest) rest
  | colon {rest : List Char} : Lexical .colon (':' :: rest) rest
  | null {rest : List Char} :
      Lexical .null ('n' :: 'u' :: 'l' :: 'l' :: rest) rest
  | true {rest : List Char} :
      Lexical (.bool true) ('t' :: 'r' :: 'u' :: 'e' :: rest) rest
  | false {rest : List Char} :
      Lexical (.bool false) ('f' :: 'a' :: 'l' :: 's' :: 'e' :: rest) rest
  | str {ds cs rest : List Char} :
      Quoted.Written ds cs rest →
      Lexical (.str (String.ofList ds)) ('"' :: cs) rest
  | num {numeral : Numeral} {n : Number} {lead : Char} {cs rest : List Char} :
      numeral.Written (lead :: cs) rest → numeral.value = .ok n →
        Lexical (.num lead n) (lead :: cs) rest

/-- The token at the front of a text behind its blanks. -/
def textFront : Front (List Char) := fun t cs rest =>
  ∃ lexeme, Blanks cs lexeme ∧ Lexical t lexeme rest

/-- The token at the front of a stream. -/
inductive streamFront : Front Stream
  | mk {start stop : Nat} {t : Token} {rest : Stream} :
      streamFront t (.token start t stop rest) rest

/-- The text is JSON text of the value, members being taken as written. -/
def Denotes (text : String) (v : Value) : Prop :=
  ∃ rest, Spells textFront v text.toList rest ∧ Blanks rest []

/-- The text does not continue a number in front of it. -/
def endsNumber (rest : List Char) : Prop :=
  ∀ c ∈ rest.head?, Numeral.IsFinal c

/-! ## Blanks -/

theorem isFinal_of_isBlank {c : Char} (h : IsBlank c) : Numeral.IsFinal c := by
  rcases h with rfl | rfl | rfl | rfl <;> decide

theorem blanks_skipBlanks (pos : Nat) (cs : List Char) :
    Blanks cs (Source.skipBlanks pos cs).chars := by
  induction cs generalizing pos with
  | nil => exact .none
  | cons c cs ih =>
      unfold Source.skipBlanks
      split
      next hblank => exact .more hblank (ih (pos + 1))
      next => exact .none

theorem skipBlanks_of_blanks {cs rest : List Char} (h : Blanks cs rest)
    (hrest : ∀ c ∈ rest.head?, ¬ IsBlank c) (pos : Nat) :
    (Source.skipBlanks pos cs).chars = rest := by
  induction h generalizing pos with
  | @none cs =>
      cases cs with
      | nil => rfl
      | cons c cs =>
          have hc : ¬ (c = ' ' ∨ c = '\t' ∨ c = '\n' ∨ c = '\r') :=
            hrest c (by simp)
          rw [Source.skipBlanks, if_neg hc]
  | @more c _ _ hblank _ ih =>
      have hc : c = ' ' ∨ c = '\t' ∨ c = '\n' ∨ c = '\r' := hblank
      rw [Source.skipBlanks, if_pos hc]
      exact ih hrest (pos + 1)

theorem Blanks.append {cs rest : List Char} (h : Blanks cs rest)
    (tail : List Char) : Blanks (cs ++ tail) (rest ++ tail) := by
  induction h with
  | none => exact .none
  | more hblank _ ih => exact .more hblank ih

theorem endsNumber_of_blanks {cs rest : List Char} (h : Blanks cs rest)
    (hrest : endsNumber rest) : endsNumber cs := by
  cases h with
  | none => exact hrest
  | more hblank _ =>
      intro d hd
      obtain rfl := Option.some.inj hd
      exact isFinal_of_isBlank hblank

/-! ## Tokens -/

/-- The token, if it is a number, is not continued by the text behind it. -/
def Delimited (t : Token) (rest : List Char) : Prop :=
  (∃ lead n, t = .num lead n) → endsNumber rest

/-- A numeral starts with its sign or a digit. -/
theorem spelled_eq_cons {numeral : Numeral} (hvalid : numeral.Valid)
    (letter : Char) :
    ∃ lead tail, numeral.spelled letter = lead :: tail ∧
      (lead = '-' ∨ Numeral.isDigit lead = true) := by
  have hwhole : ∃ d ds, numeral.whole = d :: ds ∧ Numeral.isDigit d = true := by
    rcases hvalid.whole with hzero | ⟨hne, -, hdigits⟩
    · exact ⟨'0', [], hzero, by decide⟩
    · obtain ⟨d, ds, hds⟩ := List.exists_cons_of_ne_nil hne
      exact ⟨d, ds, hds, hdigits d (by simp [hds])⟩
  obtain ⟨d, ds, hds, hd⟩ := hwhole
  unfold Numeral.spelled
  split
  next => exact ⟨'-', _, rfl, Or.inl rfl⟩
  next =>
    rw [hds]
    exact ⟨d, _, rfl, Or.inr hd⟩

theorem lead_of_written {numeral : Numeral} {lead : Char} {cs rest : List Char}
    (h : numeral.Written (lead :: cs) rest) :
    lead = '-' ∨ Numeral.isDigit lead = true := by
  obtain ⟨hvalid, letter, -, heq⟩ := h
  obtain ⟨first, tail, hspelled, hfirst⟩ := spelled_eq_cons hvalid letter
  rw [hspelled] at heq
  obtain rfl := (List.cons.inj heq).1
  exact hfirst

theorem lexical_of_mark? {c : Char} {t : Token} (h : Lexeme.mark? c = some t)
    (rest : List Char) : Lexical t (c :: rest) rest := by
  unfold Lexeme.mark? at h
  split at h
  next hc => subst hc; cases h; exact .openBrace
  split at h
  next hc => subst hc; cases h; exact .closeBrace
  split at h
  next hc => subst hc; cases h; exact .openBracket
  split at h
  next hc => subst hc; cases h; exact .closeBracket
  split at h
  next hc => subst hc; cases h; exact .comma
  split at h
  next hc => subst hc; cases h; exact .colon
  next => cases h

theorem append_of_readWord {first : Char} {word : String} {t u : Token}
    {s rest : Source} (h : Lexeme.readWord first word t s = .token u rest) :
    u = t ∧ s.chars = word.toList ++ rest.chars := by
  unfold Lexeme.readWord at h
  split at h
  next hprefix =>
    obtain ⟨tail, htail⟩ := List.isPrefixOf_iff_prefix.mp hprefix
    cases h
    refine ⟨rfl, ?_⟩
    rw [← String.length_toList, ← htail, List.drop_left]
  next => cases h

/-- What is read as a token is spelled by the characters it takes up. -/
theorem lexical_of_read {s rest : Source} {t : Token}
    (h : Lexeme.read s = .token t rest) : Lexical t s.chars rest.chars := by
  obtain ⟨pos, cs⟩ := s
  unfold Lexeme.read at h
  dsimp only at h ⊢
  split at h
  next => cases h
  next c tail =>
    split at h
    next hmark =>
      cases h
      exact lexical_of_mark? hmark tail
    split at h
    next hc =>
      subst hc
      unfold Lexeme.readString at h
      split at h
      next => cases h
      next hread =>
        cases h
        exact .str (Quoted.written_of_read hread)
    split at h
    next =>
      obtain ⟨rfl, happend⟩ : _ ∧ c :: tail = _ := append_of_readWord h
      rw [happend]
      exact .true
    split at h
    next =>
      obtain ⟨rfl, happend⟩ : _ ∧ c :: tail = _ := append_of_readWord h
      rw [happend]
      exact .false
    split at h
    next =>
      obtain ⟨rfl, happend⟩ : _ ∧ c :: tail = _ := append_of_readWord h
      rw [happend]
      exact .null
    split at h
    next =>
      unfold Lexeme.readNumber at h
      split at h
      next => cases h
      next n tail' hread =>
        split at h
        next => cases h
        next number hvalue =>
          cases h
          exact .num (Numeral.written_of_read hread).1 hvalue
    next => cases h

theorem readWord_append (first : Char) (word : String) (t : Token) (pos : Nat)
    (rest : List Char) :
    Lexeme.readWord first word t ⟨pos, word.toList ++ rest⟩ =
      .token t ⟨pos + word.length, rest⟩ := by
  have hprefix : word.toList.isPrefixOf (word.toList ++ rest) = true :=
    List.isPrefixOf_iff_prefix.mpr (List.prefix_append _ _)
  have hdrop : (word.toList ++ rest).drop word.length = rest := by
    rw [← String.length_toList, List.drop_left]
  simp only [Lexeme.readWord, hprefix, if_true, hdrop]

/-- The first character of a number starts no other token. -/
theorem read_lead {lead : Char} (h : lead = '-' ∨ Numeral.isDigit lead = true)
    (pos : Nat) (cs : List Char) :
    Lexeme.read ⟨pos, lead :: cs⟩ = Lexeme.readNumber lead
      ⟨pos, lead :: cs⟩ := by
  have hother : ∀ c : Char, Numeral.isDigit c = false → c ≠ '-' → lead ≠ c := by
    rintro c hdigit hminus rfl
    rcases h with h | h
    · exact hminus h
    · rw [h] at hdigit
      cases hdigit
  have hmark : Lexeme.mark? lead = none := by
    unfold Lexeme.mark?
    rw [if_neg (hother _ (by decide) (by decide)),
      if_neg (hother _ (by decide) (by decide)),
      if_neg (hother _ (by decide) (by decide)),
      if_neg (hother _ (by decide) (by decide)),
      if_neg (hother _ (by decide) (by decide)),
      if_neg (hother _ (by decide) (by decide))]
  simp only [Lexeme.read, hmark]
  rw [if_neg (hother _ (by decide) (by decide)),
    if_neg (hother _ (by decide) (by decide)),
    if_neg (hother _ (by decide) (by decide)),
    if_neg (hother _ (by decide) (by decide)),
    if_pos h]

/-- The characters of a numeral are read as its number where they do not go on.
-/
theorem read_of_written {numeral : Numeral} {n : Number} {lead : Char}
    {cs rest : List Char} (h : numeral.Written (lead :: cs) rest)
    (hstops : numeral.Stops rest) (hvalue : numeral.value = .ok n) (pos : Nat) :
    Lexeme.read ⟨pos, lead :: cs⟩ =
      .token (.num lead n) ⟨pos + numeral.size, rest⟩ := by
  rw [read_lead (lead_of_written h)]
  simp only [Lexeme.readNumber, Numeral.read_of_written h hstops, hvalue]

/-- The characters of a token are read as that token where they are not
continued. -/
theorem read_of_lexical {t : Token} {cs rest : List Char}
    (h : Lexical t cs rest) (hrest : Delimited t rest) (pos : Nat) :
    ∃ s, s.chars = rest ∧ Lexeme.read ⟨pos, cs⟩ = .token t s := by
  cases h with
  | openBrace => exact ⟨⟨pos + 1, rest⟩, rfl, rfl⟩
  | closeBrace => exact ⟨⟨pos + 1, rest⟩, rfl, rfl⟩
  | openBracket => exact ⟨⟨pos + 1, rest⟩, rfl, rfl⟩
  | closeBracket => exact ⟨⟨pos + 1, rest⟩, rfl, rfl⟩
  | comma => exact ⟨⟨pos + 1, rest⟩, rfl, rfl⟩
  | colon => exact ⟨⟨pos + 1, rest⟩, rfl, rfl⟩
  | null => exact ⟨_, rfl, readWord_append 'n' "null" .null pos rest⟩
  | true => exact ⟨_, rfl, readWord_append 't' "true" (.bool true) pos rest⟩
  | false => exact ⟨_, rfl, readWord_append 'f' "false" (.bool false) pos rest⟩
  | @str ds cs _ hwritten =>
      obtain ⟨s, hs, hread⟩ := Quoted.read_of_written hwritten (pos + 1)
      have hstring : Lexeme.readString pos cs =
          .token (.str (String.ofList ds)) s := by
        simp only [Lexeme.readString, hread]
      exact ⟨s, hs, hstring⟩
  | @num numeral n lead _ _ hwritten hvalue =>
      have hstops := Numeral.stops_of_isFinal numeral (hrest ⟨lead, n, rfl⟩)
      exact ⟨_, rfl, read_of_written hwritten hstops hvalue pos⟩

theorem not_isBlank_of_lexical {t : Token} {cs rest : List Char}
    (h : Lexical t cs rest) : ∀ c ∈ cs.head?, ¬ IsBlank c := by
  intro c hc hblank
  cases h with
  | num hwritten =>
      obtain rfl := Option.some.inj hc
      rcases lead_of_written hwritten with rfl | hdigit
      · rcases hblank with h | h | h | h <;> exact absurd h (by decide)
      · rcases hblank with rfl | rfl | rfl | rfl <;>
          exact absurd hdigit (by decide)
  | _ =>
      obtain rfl := Option.some.inj hc
      rcases hblank with h | h | h | h <;> exact absurd h (by decide)

/-- Whether characters make up a token does not depend on what stands behind
them. -/
theorem Lexical.frame {t : Token} {cs rest : List Char}
    (h : Lexical t cs rest) :
    ∃ l, cs = l ++ rest ∧ ∀ rest', Lexical t (l ++ rest') rest' := by
  cases h with
  | openBrace => exact ⟨['\x7b'], rfl, fun _ => .openBrace⟩
  | closeBrace => exact ⟨['\x7d'], rfl, fun _ => .closeBrace⟩
  | openBracket => exact ⟨['['], rfl, fun _ => .openBracket⟩
  | closeBracket => exact ⟨[']'], rfl, fun _ => .closeBracket⟩
  | comma => exact ⟨[','], rfl, fun _ => .comma⟩
  | colon => exact ⟨[':'], rfl, fun _ => .colon⟩
  | null => exact ⟨['n', 'u', 'l', 'l'], rfl, fun _ => .null⟩
  | true => exact ⟨['t', 'r', 'u', 'e'], rfl, fun _ => .true⟩
  | false => exact ⟨['f', 'a', 'l', 's', 'e'], rfl, fun _ => .false⟩
  | str hwritten =>
      obtain ⟨l, rfl, hframe⟩ := hwritten.frame
      exact ⟨'"' :: l, rfl, fun rest' => .str (hframe rest')⟩
  | @num numeral _ lead cs _ hwritten hvalue =>
      obtain ⟨hvalid, letter, hletter, heq⟩ := hwritten
      obtain ⟨first, tail, hspelled, -⟩ := spelled_eq_cons hvalid letter
      rw [hspelled] at heq
      obtain ⟨rfl, rfl⟩ := List.cons.inj heq
      refine ⟨lead :: tail, rfl,
        fun rest' => .num ⟨hvalid, letter, hletter, ?_⟩ hvalue⟩
      rw [hspelled]
      rfl

/-- The token at the front of a text is unique where it is not continued. -/
theorem Lexical.unique {t t' : Token} {cs rest rest' : List Char}
    (h : Lexical t cs rest) (hrest : Delimited t rest)
    (h' : Lexical t' cs rest') (hrest' : Delimited t' rest') :
    t = t' ∧ rest = rest' := by
  obtain ⟨s, rfl, hread⟩ := read_of_lexical h hrest 0
  obtain ⟨s', rfl, hread'⟩ := read_of_lexical h' hrest' 0
  rw [hread] at hread'
  cases hread'
  exact ⟨rfl, rfl⟩

/-! ## The stream of a text -/

theorem front_ofSource {t : Token} {cs lexeme rest : List Char}
    (hblanks : Blanks cs lexeme) (hlexical : Lexical t lexeme rest)
    (hrest : Delimited t rest) (pos : Nat) :
    ∃ s, s.chars = rest ∧ streamFront t (.ofSource ⟨pos, cs⟩)
    (.ofSource s) := by
  have hchars :=
    skipBlanks_of_blanks hblanks (not_isBlank_of_lexical hlexical) pos
  obtain ⟨s, hs, hread⟩ :=
    read_of_lexical hlexical hrest (Source.skipBlanks pos cs).pos
  rw [← hchars] at hread
  refine ⟨s, hs, ?_⟩
  rw [Stream.ofSource]
  dsimp only
  split
  next h => rw [hread] at h; cases h
  next h => rw [hread] at h; cases h
  next h =>
    rw [hread] at h
    cases h
    exact .mk

theorem textFront_of_ofSource {t : Token} {s : Source} {rest : Stream}
    (h : streamFront t (.ofSource s) rest) :
    ∃ s', rest = .ofSource s' ∧ textFront t s.chars s'.chars := by
  rw [Stream.ofSource] at h
  split at h
  next => cases h
  next => cases h
  next t' s' hread =>
    cases h
    exact ⟨s', rfl, _, blanks_skipBlanks s.pos s.chars, lexical_of_read hread⟩

/-- A source is used up only where no character is left. -/
theorem chars_of_read_finish {s : Source} (h : Lexeme.read s = .finish) :
    s.chars = [] := by
  have hword : ∀ c word t, Lexeme.readWord c word t s ≠ .finish := by
    intro c word t hword
    unfold Lexeme.readWord at hword
    split at hword <;> cases hword
  unfold Lexeme.read at h
  split at h
  next hnil => exact hnil
  next c tail hcons =>
    split at h
    next => cases h
    split at h
    next =>
      unfold Lexeme.readString at h
      split at h <;> cases h
    split at h
    next => exact absurd h (hword _ _ _)
    split at h
    next => exact absurd h (hword _ _ _)
    split at h
    next => exact absurd h (hword _ _ _)
    split at h
    next =>
      unfold Lexeme.readNumber at h
      split at h
      next => cases h
      next =>
        split at h <;> cases h
    next => cases h

theorem ofSource_eq_finish_iff {s : Source} :
    (∃ pos, Stream.ofSource s = .finish pos) ↔ Blanks s.chars [] := by
  constructor
  · rintro ⟨pos, h⟩
    have hblanks := blanks_skipBlanks s.pos s.chars
    rw [Stream.ofSource] at h
    split at h
    next hread => rwa [chars_of_read_finish hread] at hblanks
    next => cases h
    next => cases h
  · intro h
    have hchars := skipBlanks_of_blanks h (by simp) s.pos
    refine ⟨(Source.skipBlanks s.pos s.chars).pos, ?_⟩
    have hread : Lexeme.read (Source.skipBlanks s.pos s.chars) = .finish := by
      simp only [Lexeme.read, hchars]
    rw [Stream.ofSource]
    split
    next => rfl
    next h => rw [hread] at h; cases h
    next h => rw [hread] at h; cases h

/-- A text has at most as many tokens as characters. -/
theorem size_ofSource_le (s : Source) :
    (Stream.ofSource s).size ≤ s.chars.length := by
  induction hlength : s.chars.length using Nat.strongRecOn generalizing s with
  | ind n ih =>
      have hblanks := Source.skipBlanks_length_le s.pos s.chars
      rw [Stream.ofSource]
      split
      next => exact Nat.zero_le n
      next => exact Nat.zero_le n
      next t rest hread =>
        have hless := Lexeme.read_length hread
        have hrest := ih rest.chars.length (by omega) rest rfl
        simp only [Stream.size]
        omega

theorem size_ofText_le (text : String) :
    (Stream.ofText text).size ≤ text.length := by
  rw [← String.length_toList]
  exact size_ofSource_le (Source.ofText text)

/-- No number goes on with a token that may stand behind it. -/
theorem endsNumber_append {t : Token} {cs rest : List Char}
    (h : textFront t cs rest) (ht : endsItem t) (tail : List Char) :
    endsNumber (cs ++ tail) := by
  obtain ⟨lexeme, hblanks, hlexical⟩ := h
  refine endsNumber_of_blanks (hblanks.append tail) fun c hc => ?_
  rcases ht with rfl | rfl | rfl <;> cases hlexical <;>
    obtain rfl := Option.some.inj hc <;>
    decide

/-- The stream of a text follows the text. -/
theorem stream_follows : Follows textFront streamFront
    (fun cs s => ∃ pos, s = Stream.ofSource ⟨pos, cs⟩) endsNumber where
  step := by
    rintro t cs cs' _ ⟨lexeme, hblanks, hlexical⟩ ⟨pos, rfl⟩ hends
    obtain ⟨s, rfl, hfront⟩ := front_ofSource hblanks hlexical hends pos
    exact ⟨_, hfront, s.pos, rfl⟩
  ends_of_endsItem := by
    intro t cs cs' hfront ht
    simpa using endsNumber_append hfront ht []

/-- The text follows its stream. -/
theorem text_follows : Follows streamFront textFront
    (fun s cs => ∃ pos, s = Stream.ofSource ⟨pos, cs⟩) (fun _ => True) where
  step := by
    rintro t _ s' cs hfront ⟨pos, rfl⟩ -
    obtain ⟨behind, rfl, htext⟩ := textFront_of_ofSource hfront
    exact ⟨_, htext, behind.pos, rfl⟩
  ends_of_endsItem := fun _ _ => trivial

/-- A text denotes a value when its stream spells the value and then ends. -/
theorem denotes_iff {text : String} {v : Value} :
    Denotes text v ↔
      ∃ pos, Spells streamFront v (.ofText text) (.finish pos) := by
  constructor
  · rintro ⟨rest, hspells, hblanks⟩
    have hends : endsNumber rest :=
      endsNumber_of_blanks hblanks (by simp [endsNumber])
    obtain ⟨_, hstream, pos, rfl⟩ :=
      hspells.transfer stream_follows hends ⟨0, rfl⟩
    obtain ⟨pos', hfinish⟩ :=
      ofSource_eq_finish_iff (s := ⟨pos, rest⟩) |>.mpr hblanks
    rw [hfinish] at hstream
    exact ⟨pos', hstream⟩
  · rintro ⟨pos, hspells⟩
    obtain ⟨rest, htext, pos', hfinish⟩ :=
      hspells.transfer text_follows trivial (r := text.toList) ⟨0, rfl⟩
    exact ⟨rest, htext, ofSource_eq_finish_iff.mp ⟨pos, hfinish.symm⟩⟩

end Grammar
end JsonTypedef
