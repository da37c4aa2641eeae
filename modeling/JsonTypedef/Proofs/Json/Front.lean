import JsonTypedef.Proofs.Json.Cursor
import JsonTypedef.Proofs.Json.Reader

/-!
# Tokens at places and at cursors

A token stands at a place of a text where it is read behind the blanks there,
and at a cursor where the cursor gives it.  Both are fronts of the grammar, so
that spellings are carried between places, cursors and streams.
-/

namespace JsonTypedef

theorem Source.front_front (s : Source) : s.front.front = s.front := by
  obtain ⟨pos, cs⟩ := s
  induction cs generalizing pos with
  | nil => rfl
  | cons c cs ih =>
      by_cases hblank : Grammar.IsBlank c
      · have hfront : Source.front ⟨pos, c :: cs⟩ =
            Source.front ⟨pos + 1, cs⟩ := if_pos hblank
        rw [hfront]
        exact ih (pos + 1)
      · have hfront : Source.front ⟨pos, c :: cs⟩ = ⟨pos, c :: cs⟩ :=
          if_neg hblank
        rw [hfront, hfront]

namespace Source

variable {s s' s'' : Source}

/-- The second place stands in the same text, not in front of the first. -/
def Ahead (s s' : Source) : Prop :=
  ∃ l, Spans l s s'

theorem Ahead.refl (s : Source) : Ahead s s :=
  ⟨[], .refl s⟩

theorem Ahead.trans (h : Ahead s s') (h' : Ahead s' s'') : Ahead s s'' := by
  obtain ⟨l, hl⟩ := h
  obtain ⟨m, hm⟩ := h'
  exact ⟨l ++ m, hl.trans hm⟩

theorem Ahead.le (h : Ahead s s') : s.pos ≤ s'.pos := by
  obtain ⟨l, hspans⟩ := h
  rw [hspans.pos]
  exact Nat.le_add_right _ _

theorem Passes.ahead {L : Shape.Texts} (h : Passes L s s') : Ahead s s' := by
  obtain ⟨l, -, hspans⟩ := h
  exact ⟨l, hspans⟩

end Source

/-! ## First characters -/

namespace Lexeme

variable {s s' : Source} {c : Char} {t : Token}

theorem head?_of_token (h : read s = .token t s') :
    s.chars.head? = some t.first := by
  cases hchars : s.chars with
  | nil => simp [read, hchars] at h
  | cons c rest =>
      have hlexical := Grammar.lexical_of_read h
      rw [hchars] at hlexical
      cases hlexical <;> rfl

theorem first_of_readWord {first : Char} {word : String}
    {fault : Option Token.Located}
    (h : readWord first word t s = .stuck c fault) : first = c := by
  unfold readWord at h
  split at h
  next => cases h
  next =>
    cases h
    rfl

theorem head?_of_stuck {fault : Option Token.Located}
    (h : read s = .stuck c fault) : s.chars.head? = some c := by
  unfold read at h
  split at h
  next => cases h
  next first tail hchars =>
    rw [hchars, List.head?_cons]
    congr 1
    split at h
    next => cases h
    split at h
    next hquote =>
      unfold readString at h
      split at h
      next =>
        cases h
        exact hquote
      next => cases h
    split at h
    next => exact first_of_readWord h
    split at h
    next => exact first_of_readWord h
    split at h
    next => exact first_of_readWord h
    split at h
    next =>
      unfold readNumber at h
      split at h
      next =>
        cases h
        rfl
      next =>
        split at h
        next =>
          cases h
          rfl
        next => cases h
    next =>
      cases h
      rfl

end Lexeme

namespace Stream

variable {s : Source}

theorem ofSource_of_finish (h : Lexeme.read s.front = .finish) :
    ofSource s = .finish s.front.pos := by
  rw [ofSource]
  split
  next => rfl
  next heq => cases h.symm.trans heq
  next heq => cases h.symm.trans heq

theorem ofSource_of_stuck {first : Char} {fault : Option Token.Located}
    (h : Lexeme.read s.front = .stuck first fault) :
    ofSource s = .stuck s.front.pos first fault := by
  rw [ofSource]
  split
  next heq => cases h.symm.trans heq
  next heq =>
    cases h.symm.trans heq
    rfl
  next heq => cases h.symm.trans heq

theorem ofSource_front (s : Source) : ofSource s.front = ofSource s := by
  have hfront := Source.front_front s
  cases hread : Lexeme.read s.front with
  | finish =>
      rw [ofSource_of_finish hread, ofSource_of_finish (by rwa [hfront]),
        hfront]
  | stuck =>
      rw [ofSource_of_stuck hread, ofSource_of_stuck (by rwa [hfront]), hfront]
  | token =>
      rw [ofSource_of_read hread, ofSource_of_read (by rwa [hfront]), hfront]

theorem first?_ofSource (s : Source) :
    (ofSource s).first? = s.front.chars.head? := by
  cases hread : Lexeme.read s.front with
  | finish =>
      rw [ofSource_of_finish hread, Grammar.chars_of_read_finish hread]
      rfl
  | stuck =>
      rw [ofSource_of_stuck hread, Lexeme.head?_of_stuck hread]
      rfl
  | token =>
      rw [ofSource_of_read hread, Lexeme.head?_of_token hread]
      rfl

end Stream

namespace Grammar

/-- The token is read at a place, behind the blanks there. -/
def placeFront : Front Source := fun t s s' =>
  Lexeme.read s.front = .token t s'

/-- A cursor gives the token. -/
def cursorFront : Front Cursor := fun t c d =>
  ∃ hshorter, c.take? = some ⟨t, d, hshorter⟩

theorem placeFront.unique {t t' : Token} {s u u' : Source}
    (h : placeFront t s u) (h' : placeFront t' s u') : t = t' ∧ u = u' := by
  cases h.symm.trans h'
  exact ⟨rfl, rfl⟩

theorem placeFront.passes {t : Token} {s s' : Source}
    (h : placeFront t s s') : Source.Passes (Shape.Lead t) s s' :=
  (Source.passes_front s).seq (Lexeme.passes_of_read h)

theorem placeFront.head? {t : Token} {s s' : Source}
    (h : placeFront t s s') : s.front.chars.head? = some t.first :=
  Lexeme.head?_of_token h

end Grammar

namespace Cursor

open Grammar

variable {c d : Cursor} {s s' : Source} {t : Token}

theorem skipBlanks_ofSource (s : Source) :
    (ofSource s).skipBlanks = ofSource s.front := by
  unfold skipBlanks ofSource
  rw [Stream.ofSource_front, Stream.start_ofSource]

/-- A cursor gives the token at its place. -/
theorem At.give (h : c.At s) (hfront : placeFront t s s') :
    cursorFront t c (ofSource s') := by
  obtain ⟨pos, stream⟩ := c
  have hstream : stream = .ofSource s := h.stream
  rw [Stream.ofSource_of_read hfront] at hstream
  subst hstream
  exact ⟨_, rfl⟩

/-- A cursor gives no token where none is read. -/
theorem At.take?_eq_none (h : c.At s)
    (hread : ∀ t s', ¬ placeFront t s s') : c.take? = none := by
  obtain ⟨pos, stream⟩ := c
  have hstream : stream = .ofSource s := h.stream
  cases hlexeme : Lexeme.read s.front with
  | finish =>
      rw [hstream, Stream.ofSource_of_finish hlexeme]
      rfl
  | stuck =>
      rw [hstream, Stream.ofSource_of_stuck hlexeme]
      rfl
  | token t s' => exact absurd hlexeme (hread t s')

/-- What a cursor gives is the token at its place. -/
theorem At.front (h : c.At s) (htake : cursorFront t c d) :
    ∃ s', d = ofSource s' ∧ placeFront t s s' := by
  obtain ⟨hshorter, htake⟩ := htake
  by_cases hread : ∃ u s', placeFront u s s'
  · obtain ⟨u, s', hfront⟩ := hread
    obtain ⟨_, htake'⟩ := h.give hfront
    cases htake.symm.trans htake'
    exact ⟨s', rfl, hfront⟩
  · rw [h.take?_eq_none fun u s' hfront => hread ⟨u, s', hfront⟩] at htake
    cases htake

theorem accept?_of_take? {hshorter : d.size < c.size}
    (htake : c.take? = some ⟨t, d, hshorter⟩) :
    c.accept? t = some ⟨(), d, hshorter⟩ := by
  unfold accept?
  rw [htake]
  exact if_pos rfl

theorem front_of_accept {taken : Taken Unit c}
    (h : c.accept? t = some taken) : cursorFront t c taken.rest := by
  unfold accept? at h
  split at h
  next u rest hshorter htake =>
    split at h
    next heq =>
      cases h
      subst heq
      exact ⟨hshorter, htake⟩
    next => cases h
  next => cases h

theorem not_front_of_accept?_eq_none (h : c.accept? t = none) :
    ¬ cursorFront t c d := by
  rintro ⟨hshorter, htake⟩
  rw [accept?_of_take? htake] at h
  cases h

end Cursor

namespace Grammar

/-! ## Going ahead -/

section

open Source (Ahead)

variable {s s' : Source}

theorem placeFront.ahead {t : Token} (h : placeFront t s s') : Ahead s s' :=
  h.passes.ahead

theorem Spells.ahead {v : Value} (h : Spells placeFront v s s') :
    Ahead s s' := by
  have hstep : ∀ t here there, placeFront t here there →
      ((∃ lead n, t = .num lead n) → True) → Ahead there s' →
        Ahead here s' :=
    fun _ _ _ hfront _ hahead => hfront.ahead.trans hahead
  exact Spells.back (fun _ _ _ _ _ => trivial) hstep h trivial (.refl s')

theorem Member.ahead {m : String × Value}
    (h : Member placeFront (Spells placeFront) m s s') : Ahead s s' := by
  cases h with
  | mk hkey hcolon hvalue =>
      exact hkey.ahead.trans (hcolon.ahead.trans hvalue.ahead)

end

/-! ## Carrying spellings -/

theorem exists_place {t : Token} {s : Source} {lexeme rest : List Char}
    (hblanks : Blanks s.chars lexeme) (hlexical : Lexical t lexeme rest)
    (hread : ∀ pos, ∃ s', s'.chars = rest ∧
      Lexeme.read ⟨pos, lexeme⟩ = .token t s') :
    ∃ s', placeFront t s s' ∧ s'.chars = rest := by
  have hchars : s.front.chars = lexeme :=
    skipBlanks_of_blanks hblanks (not_isBlank_of_lexical hlexical) s.pos
  obtain ⟨s', hs', hread⟩ := hread s.front.pos
  rw [← hchars] at hread
  exact ⟨s', hread, hs'⟩

/-- The places of a longer text follow a text. -/
theorem place_follows_text (tail : List Char) :
    Follows textFront placeFront (fun cs s => s.chars = cs ++ tail)
      (fun cs => endsNumber (cs ++ tail)) where
  step := by
    rintro t cs cs' s ⟨lexeme, hblanks, hlexical⟩ hchars hends
    obtain ⟨l, rfl, hframe⟩ := hlexical.frame
    have hblanks := hblanks.append tail
    rw [← hchars, List.append_assoc] at hblanks
    exact exists_place hblanks (hframe _) (read_of_lexical (hframe _) hends)
  ends_of_endsItem := fun hfront ht => endsNumber_append hfront ht tail

/-- The stream of a text follows its places. -/
theorem stream_follows_place : Follows placeFront streamFront
    (fun s r => r = .ofSource s) (fun _ => True) where
  step := by
    rintro t s s' _ hfront rfl -
    refine ⟨.ofSource s', ?_, rfl⟩
    rw [Stream.ofSource_of_read hfront]
    exact .mk
  ends_of_endsItem := fun _ _ => trivial

/-- The cursors of a text follow its places. -/
theorem cursor_follows_place : Follows placeFront cursorFront
    (fun s c => c = .ofSource s) (fun _ => True) where
  step := by
    rintro t s s' _ hfront rfl -
    exact ⟨_, (Cursor.at_ofSource s).give hfront, rfl⟩
  ends_of_endsItem := fun _ _ => trivial

/-- Cursors follow their streams. -/
theorem cursor_follows_stream : Follows streamFront cursorFront
    (fun s c => c.stream = s) (fun _ => True) where
  step := by
    rintro t _ s' c hfront rfl -
    obtain ⟨⟨_, rest, hshorter⟩, htake, rfl, rfl⟩ :=
      Cursor.take?_of_front hfront
    exact ⟨rest, ⟨hshorter, htake⟩, rfl⟩
  ends_of_endsItem := fun _ _ => trivial

end Grammar
end JsonTypedef
