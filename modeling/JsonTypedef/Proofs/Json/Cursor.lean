import JsonTypedef.Proofs.Json.Position

/-!
# Cursors in a text

A cursor stands at a place of a text when its tokens are those from there on.
Reading a token leads to a place behind the token's spelling, and a fault that
ends a stream is reported where the place may still be that of a token.
-/

namespace JsonTypedef

open Source
open Shape (Spelling Lead)

namespace Lexeme

theorem readWord_passes {first : Char} {word : String} {t u : Token}
    {s s' : Source} (hword : OneByte word.toList)
    (hspelling : Spelling t word.toList)
    (h : readWord first word t s = .token u s') :
    Passes (Spelling u) s s' := by
  obtain ⟨rfl, hchars⟩ := Grammar.append_of_readWord h
  refine ⟨word.toList, hspelling, hchars, ?_⟩
  unfold readWord at h
  split at h
  next =>
    cases h
    rw [utf8Len_of_oneByte hword, String.length_toList]
  next => cases h

theorem passes_of_mark? {c : Char} {t : Token} (h : mark? c = some t)
    (pos : Nat) (rest : List Char) :
    Passes (Spelling t) ⟨pos, c :: rest⟩ ⟨pos + 1, rest⟩ := by
  unfold mark? at h
  split at h
  next hc => subst hc; cases h; exact ⟨_, .openBrace, rfl, rfl⟩
  split at h
  next hc => subst hc; cases h; exact ⟨_, .closeBrace, rfl, rfl⟩
  split at h
  next hc => subst hc; cases h; exact ⟨_, .openBracket, rfl, rfl⟩
  split at h
  next hc => subst hc; cases h; exact ⟨_, .closeBracket, rfl, rfl⟩
  split at h
  next hc => subst hc; cases h; exact ⟨_, .comma, rfl, rfl⟩
  split at h
  next hc => subst hc; cases h; exact ⟨_, .colon, rfl, rfl⟩
  next => cases h

/-- The quote in front of the characters of a string. -/
theorem spans_quote (pos : Nat) (cs : List Char) :
    Spans ['"'] ⟨pos, '"' :: cs⟩ ⟨pos + 1, cs⟩ :=
  ⟨rfl, rfl⟩

/-- A token that is read passes over its spelling. -/
theorem passes_of_read {s s' : Source} {t : Token} (h : read s = .token t s') :
    Passes (Spelling t) s s' := by
  obtain ⟨pos, cs⟩ := s
  unfold read at h
  dsimp only at h
  split at h
  next => cases h
  next c tail =>
    split at h
    next hmark =>
      cases h
      exact passes_of_mark? hmark pos tail
    split at h
    next hc =>
      subst hc
      unfold readString at h
      split at h
      next => cases h
      next hread =>
        cases h
        obtain ⟨l, hl, hspans⟩ := Quoted.read_passes hread
        exact ⟨'"' :: l, .str hl, (spans_quote pos tail).trans hspans⟩
    split at h
    next => exact readWord_passes (by decide) .true h
    split at h
    next => exact readWord_passes (by decide) .false h
    split at h
    next => exact readWord_passes (by decide) .null h
    split at h
    next =>
      unfold readNumber at h
      split at h
      next => cases h
      next hread =>
        split at h
        next => cases h
        next =>
          cases h
          exact (Numeral.read_passes hread pos).mono fun _ => .num
    next => cases h

/-- A fault of characters that start like a token is reported where they start,
or where they still begin a string or a number. -/
inductive Reported (s : Source) : Char → Nat → Prop
  | start {first : Char} : Reported s first s.pos
  | str {here : Source} :
      Enters (Spelling (.str "")) s here → Reported s '"' here.pos
  | num {first : Char} {here : Source} :
      first = '-' ∨ Numeral.isDigit first = true →
        Enters Shape.Digits s here → Reported s first here.pos

theorem reported_of_readWord {c first : Char} {word : String} {t : Token}
    {s : Source} {fault : Token.Fault} {pos : Nat}
    (h : readWord c word t s = .stuck first (some (fault, pos))) :
    Reported s first pos := by
  unfold readWord at h
  split at h
  next => cases h
  next =>
    cases h
    exact .start

theorem reported_of_read {s : Source} {first : Char} {fault : Token.Fault}
    {pos : Nat} (h : read s = .stuck first (some (fault, pos))) :
    Reported s first pos := by
  obtain ⟨start, cs⟩ := s
  unfold read at h
  dsimp only at h
  split at h
  next => cases h
  next c tail =>
    split at h
    next => cases h
    split at h
    next hc =>
      subst hc
      unfold readString at h
      split at h
      next hread =>
        cases h
        obtain ⟨here, ⟨l, ⟨rest, hrest⟩, hspans⟩, rfl⟩ :=
          Quoted.read_enters hread
        exact .str ⟨'"' :: l, ⟨rest, .str hrest⟩,
          (spans_quote start tail).trans hspans⟩
      next => cases h
    split at h
    next => exact reported_of_readWord h
    split at h
    next => exact reported_of_readWord h
    split at h
    next => exact reported_of_readWord h
    split at h
    next hlead =>
      unfold readNumber at h
      split at h
      next hread =>
        cases h
        exact .num hlead (Numeral.read_enters hread start)
      next =>
        split at h
        next =>
          cases h
          exact .start
        next => cases h
    next => cases h

end Lexeme

namespace Stream

variable {s : Source}

theorem start_ofSource (s : Source) : (ofSource s).start = s.front.pos := by
  rw [ofSource]
  split <;> rfl

theorem ofSource_of_read {s' : Source} {t : Token}
    (h : Lexeme.read s.front = .token t s') :
    ofSource s = .token s.front.pos t s'.pos (ofSource s') := by
  rw [ofSource]
  split
  next heq => cases h.symm.trans heq
  next heq => cases h.symm.trans heq
  next heq =>
    cases h.symm.trans heq
    rfl

theorem read_of_ofSource {start : Nat} {first : Char}
    {fault : Option Token.Located} (h : ofSource s = .stuck start first fault) :
    Lexeme.read s.front = .stuck first fault := by
  rw [ofSource] at h
  split at h
  next => cases h
  next hread =>
    cases h
    exact hread
  next => cases h

end Stream

namespace Cursor

/-- The cursor at a place. -/
def ofSource (s : Source) : Cursor :=
  ⟨s.pos, .ofSource s⟩

/-- The cursor stands at a place, or behind the blanks there. -/
structure At (c : Cursor) (s : Source) : Prop where
  stream : c.stream = .ofSource s
  pos : c.pos = s.pos ∨ c.pos = s.front.pos

variable {c : Cursor} {s : Source}

theorem at_ofSource (s : Source) : (ofSource s).At s :=
  ⟨rfl, Or.inl rfl⟩

theorem at_of_eq (h : c = ofSource s) : c.At s := by
  rw [h]
  exact at_ofSource s

theorem At.start (h : c.At s) : c.stream.start = s.front.pos := by
  rw [h.stream, Stream.start_ofSource]

theorem At.skipBlanks (h : c.At s) : c.skipBlanks.At s :=
  ⟨h.stream, Or.inr h.start⟩

end Cursor

namespace Source

/-- Blanks may stand in front of every token. -/
theorem entersAt_front (t : Token) (s : Source) :
    EntersAt (Lead t) s s.front.pos :=
  ⟨s.front, .right (passes_front s) (.refl (Shape.exists_spelling t) _), rfl⟩

/-- A cursor stands where every token may start. -/
theorem entersAt_pos {c : Cursor} {s : Source} (h : c.At s) (t : Token) :
    EntersAt (Lead t) s c.pos := by
  rcases h.pos with hpos | hpos
  · exact ⟨s, .refl (Shape.exists_lead t) s, hpos.symm⟩
  · rw [hpos]
    exact entersAt_front t s

end Source

end JsonTypedef
