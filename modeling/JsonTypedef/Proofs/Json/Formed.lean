import JsonTypedef.Proofs.Json.Front

/-!
# Tokens by their shape

Well-formed text may hold characters from which no token is read although they
have the shape of one: a string with a surrogate that stands alone, a numeral
out of range.  `Grammar.shapeFront` says of a place that characters of the shape
of a token stand there.  A token that is read there is of the same kind and ends
at the same place.
-/

namespace JsonTypedef
namespace Source

open Shape (Blank)

variable {l m : List Char} {s t u : Source}

theorem Spans.split (h : Spans (l ++ m) s u) :
    ∃ t, Spans l s t ∧ Spans m t u := by
  refine ⟨⟨s.pos + String.utf8Len l, m ++ u.chars⟩, ⟨?_, rfl⟩, ⟨rfl, ?_⟩⟩
  · rw [h.chars, List.append_assoc]
  · rw [h.pos, String.utf8Len_append, Nat.add_assoc]

/-- A place of a text is told by the characters behind it. -/
theorem Spans.eq_of_chars (h : Spans l s t) (h' : Spans m s u)
    (hchars : t.chars = u.chars) : t = u := by
  have happend := h.chars.symm.trans h'.chars
  rw [hchars] at happend
  obtain rfl := List.append_cancel_right happend
  obtain ⟨pos, cs⟩ := t
  obtain ⟨pos', cs'⟩ := u
  obtain rfl : cs = cs' := hchars
  obtain rfl : pos = pos' := h.pos.trans h'.pos.symm
  rfl

theorem eq_nil_of_utf8Len (h : String.utf8Len l = 0) : l = [] := by
  cases l with
  | nil => rfl
  | cons c l =>
      have hsize := Char.utf8Size_pos c
      rw [String.utf8Len_cons] at h
      omega

/-- A place of a text is told by its position. -/
theorem Spans.eq_of_pos (h : Spans l s t) (h' : Spans m s u)
    (hpos : t.pos = u.pos) : t = u := by
  have hlen : String.utf8Len l = String.utf8Len m := by
    have hl := h.pos
    have hm := h'.pos
    omega
  have happend := h.chars.symm.trans h'.chars
  apply h.eq_of_chars h'
  rcases List.append_eq_append_iff.mp happend with
    ⟨k, rfl, hk⟩ | ⟨k, rfl, hk⟩
  · rw [String.utf8Len_append] at hlen
    obtain rfl : k = [] := eq_nil_of_utf8Len (by omega)
    exact hk
  · rw [String.utf8Len_append] at hlen
    obtain rfl : k = [] := eq_nil_of_utf8Len (by omega)
    exact hk.symm

theorem front_eq_of_spans (hblank : Blank l) (h : Spans l s t)
    (ht : ∀ c ∈ t.chars.head?, ¬ Grammar.IsBlank c) : s.front = t := by
  have hblanks : Grammar.Blanks s.chars t.chars := by
    rw [h.chars]
    clear h
    induction l with
    | nil => exact .none
    | cons c l ih =>
        exact .more (hblank c List.mem_cons_self)
          (ih fun d hd => hblank d (List.mem_cons_of_mem c hd))
  obtain ⟨k, -, hfront⟩ := passes_front s
  exact hfront.eq_of_chars h (Grammar.skipBlanks_of_blanks hblanks ht s.pos)

end Source

/-! ## Strings are told apart by their characters -/

namespace Shape

variable {l l' r r' : List Char}

theorem piece_unique (h : Piece l) (h' : Piece l') (heq : l ++ r = l' ++ r') :
    l = l' := by
  have hshort : Quoted.shortEscape? 'u' = none := by decide
  cases h with
  | plain _ hescape _ =>
      cases h' with
      | plain => rw [(List.cons.inj heq).1]
      | short => exact absurd (List.cons.inj heq).1 hescape
      | hex => exact absurd (List.cons.inj heq).1 hescape
  | short hchar =>
      cases h' with
      | plain _ hescape _ => exact absurd (List.cons.inj heq).1.symm hescape
      | short =>
          obtain ⟨rfl, -⟩ := List.cons.inj (List.cons.inj heq).2
          rfl
      | hex =>
          obtain ⟨rfl, -⟩ := List.cons.inj (List.cons.inj heq).2
          rw [hshort] at hchar
          cases hchar
  | hex hhex =>
      cases h' with
      | plain _ hescape _ => exact absurd (List.cons.inj heq).1.symm hescape
      | short hchar =>
          obtain ⟨rfl, -⟩ := List.cons.inj (List.cons.inj heq).2
          rw [hshort] at hchar
          cases hchar
      | hex hhex' =>
          cases hhex
          cases hhex'
          simp only [List.cons_append, List.cons.injEq] at heq
          obtain ⟨-, -, rfl, rfl, rfl, rfl, -⟩ := heq
          rfl

theorem piece_ne_quote {c : Char} (h : Piece (c :: l)) : c ≠ '"' := by
  cases h with
  | plain hquote => exact hquote
  | short => decide
  | hex => decide

/-- A string ends at its first quote that is not escaped. -/
theorem body_unique (h : Body l) (h' : Body l') (heq : l ++ r = l' ++ r') :
    l = l' := by
  have hne : ∀ {p q x : List Char}, Piece p → p ++ q ≠ '"' :: x := by
    intro p q x hp heq
    cases p with
    | nil => cases hp
    | cons c p => exact piece_ne_quote hp (List.cons.inj heq).1
  induction h generalizing l' with
  | close =>
      cases h' with
      | close => rfl
      | piece hp _ =>
          rw [List.append_assoc] at heq
          exact absurd heq.symm (hne hp)
  | piece hp _ ih =>
      cases h' with
      | close =>
          rw [List.append_assoc] at heq
          exact absurd heq (hne hp)
      | piece hp' hm' =>
          rw [List.append_assoc, List.append_assoc] at heq
          obtain rfl := piece_unique hp hp' heq
          rw [ih hm' (List.append_cancel_left heq)]

end Shape

namespace Grammar

open Source
open Shape (Blank Lead Spelling Seq Texts)

/-! ## Reading what has the shape of a token -/

/-- Tokens that are not told apart by their shape. -/
inductive Alike : Token → Token → Prop
  | refl {t : Token} : Alike t t
  | str {x y : String} : Alike (.str x) (.str y)
  | num {lead lead' : Char} {m n : Number} :
      Alike (.num lead m) (.num lead' n)

/-- Characters of the shape of a token may form no token; the first of them. -/
inductive MayFault : Token → Char → Prop
  | str {x : String} : MayFault (.str x) '"'
  | num {lead first : Char} {n : Number} :
      first = '-' ∨ Numeral.isDigit first = true →
        MayFault (.num lead n) first

/-- The token is spelled by one character. -/
def IsMark : Token → Prop
  | .openBrace | .closeBrace | .openBracket | .closeBracket => True
  | .comma | .colon => True
  | _ => False

/-- Characters of the shape of a token stand at a place. -/
def shapeFront : Front Source := fun t s s' =>
  Passes (Lead t) s s' ∧ Delimited t s'.chars

section

variable {t : Token} {s s' : Source} {l : List Char}

theorem spelling_eq_cons (h : Spelling t l) :
    ∃ c m, l = c :: m ∧ ¬ IsBlank c := by
  obtain ⟨c, m, rfl⟩ := List.exists_cons_of_ne_nil (Shape.spelling_ne_nil h)
  refine ⟨c, m, rfl, ?_⟩
  cases h with
  | num hdigits =>
      rcases Shape.lead_of_digits hdigits with rfl | hdigit
      · decide
      · rintro (rfl | rfl | rfl | rfl) <;> exact absurd hdigit (by decide)
  | _ => decide

theorem read_of_spans (hspans : Spans l s s')
    (hlexical : Lexical t s.chars s'.chars) (hends : Delimited t s'.chars) :
    Lexeme.read s = .token t s' := by
  obtain ⟨u, hu, hread⟩ := read_of_lexical hlexical hends s.pos
  obtain ⟨m, -, hm⟩ := Lexeme.passes_of_read hread
  rw [← hm.eq_of_chars hspans hu]
  exact hread

/-- What has the shape of a token is read as a token of its kind, or it is
stuck. -/
theorem read_of_spelling (h : Spelling t l) (hspans : Spans l s s')
    (hends : Delimited t s'.chars) :
    (∃ u, Alike t u ∧ Lexeme.read s = .token u s') ∨
      ∃ first fault, Lexeme.read s = .stuck first (some fault) ∧
        MayFault t first := by
  have hlexical : ∀ {u : Token}, Alike t u → Delimited u s'.chars →
      Lexical u s.chars s'.chars →
        ∃ u, Alike t u ∧ Lexeme.read s = .token u s' :=
    fun halike hends hlexical =>
      ⟨_, halike, read_of_spans hspans hlexical hends⟩
  obtain ⟨pos, cs⟩ := s
  obtain rfl : cs = l ++ s'.chars := hspans.chars
  cases h with
  | openBrace => exact Or.inl (hlexical .refl hends .openBrace)
  | closeBrace => exact Or.inl (hlexical .refl hends .closeBrace)
  | openBracket => exact Or.inl (hlexical .refl hends .openBracket)
  | closeBracket => exact Or.inl (hlexical .refl hends .closeBracket)
  | comma => exact Or.inl (hlexical .refl hends .comma)
  | colon => exact Or.inl (hlexical .refl hends .colon)
  | null => exact Or.inl (hlexical .refl hends .null)
  | true => exact Or.inl (hlexical .refl hends .true)
  | false => exact Or.inl (hlexical .refl hends .false)
  | @str x l hbody =>
      cases hread : Quoted.read (pos + 1) (l ++ s'.chars) with
      | error e =>
          refine Or.inr ⟨'"', (.string e.1, e.2), ?_, .str⟩
          change Lexeme.readString pos (l ++ s'.chars) = _
          rw [Lexeme.readString, hread]
      | ok result =>
          obtain ⟨ds, u⟩ := result
          have hwritten := Quoted.written_of_read hread
          obtain ⟨m, hm, hbody'⟩ := Shape.body_of_written hwritten
          obtain rfl := Shape.body_unique hbody hbody' hm
          rw [← List.append_cancel_left hm] at hwritten
          exact Or.inl (hlexical .str (by simp [Delimited]) (.str hwritten))
  | @num lead n l hdigits =>
      cases hdigits with
      | @mk numeral letter hvalid hletter =>
          obtain ⟨first, m, hspelled, hfirst⟩ := spelled_eq_cons hvalid letter
          have hwritten : numeral.Written (first :: (m ++ s'.chars)) s'.chars :=
            ⟨hvalid, letter, hletter, by rw [hspelled, List.cons_append]⟩
          cases hvalue : numeral.value with
          | error fault =>
              refine Or.inr ⟨first, (.numeral fault, pos), ?_, .num hfirst⟩
              have hread := Numeral.read_of_written hwritten
                (Numeral.stops_of_isFinal numeral (hends ⟨lead, n, rfl⟩))
              rw [hspelled, List.cons_append, read_lead hfirst]
              simp only [Lexeme.readNumber, hread, hvalue]
          | ok number =>
              refine Or.inl (hlexical (u := .num first number) .num
                (fun _ => hends ⟨lead, n, rfl⟩) ?_)
              rw [hspelled]
              exact .num hwritten hvalue

/-- A token stands where characters of its shape do, or these are stuck. -/
theorem shapeFront.read (h : shapeFront t s s') :
    (∃ u, Alike t u ∧ placeFront u s s') ∨
      ∃ first fault, Lexeme.read s.front = .stuck first (some fault) ∧
        MayFault t first := by
  obtain ⟨⟨_, ⟨hblank, hspelling⟩, hspans⟩, hends⟩ := h
  obtain ⟨here, hleft, hright⟩ := hspans.split
  obtain ⟨c, m, hcons, hc⟩ := spelling_eq_cons hspelling
  have hfront : s.front = here := by
    apply front_eq_of_spans hblank hleft
    intro d hd
    rw [hright.chars, hcons] at hd
    obtain rfl := Option.some.inj hd
    exact hc
  unfold placeFront
  rw [hfront]
  exact read_of_spelling hspelling hright hends

/-- A token that is read where another one has its shape is of the same kind and
ends at the same place. -/
theorem shapeFront.alike (h : shapeFront t s s') {u : Token} {s'' : Source}
    (hread : placeFront u s s'') : Alike t u ∧ s'' = s' := by
  rcases h.read with ⟨v, halike, hfront⟩ | ⟨first, fault, hstuck, -⟩
  · obtain ⟨rfl, rfl⟩ := hfront.unique hread
    exact ⟨halike, rfl⟩
  · cases hstuck.symm.trans hread

/-- A mark stands wherever its character does. -/
theorem shapeFront.mark (h : shapeFront t s s') (ht : IsMark t) :
    placeFront t s s' := by
  rcases h.read with ⟨u, halike, hfront⟩ | ⟨first, -, -, hmay⟩
  · cases halike with
    | refl => exact hfront
    | str => exact ht.elim
    | num => exact ht.elim
  · cases hmay <;> exact ht.elim

end

/-- A value of well-formed text stands at a place. -/
def Stands (s : Source) : Prop :=
  ∃ v s', Spells shapeFront v s s'

section

variable {s : Source}

theorem Stands.array (h : Stands s) {bracket : Source}
    (hopen : placeFront .openBracket s bracket) :
    ∃ vs s', Contents shapeFront .closeBracket (Spells shapeFront) vs bracket
      s' := by
  obtain ⟨v, s', hv⟩ := h
  cases hv with
  | arr hfront hitems =>
      obtain ⟨-, rfl⟩ := hfront.alike hopen
      exact ⟨_, _, hitems⟩
  | null hfront => cases (hfront.alike hopen).1
  | bool hfront => cases (hfront.alike hopen).1
  | num hfront => cases (hfront.alike hopen).1
  | str hfront => cases (hfront.alike hopen).1
  | obj hfront => cases (hfront.alike hopen).1

theorem Stands.object (h : Stands s) {brace : Source}
    (hopen : placeFront .openBrace s brace) :
    ∃ ms s', Contents shapeFront .closeBrace
      (Member shapeFront (Spells shapeFront)) ms brace s' := by
  obtain ⟨v, s', hv⟩ := h
  cases hv with
  | obj hfront hmembers =>
      obtain ⟨-, rfl⟩ := hfront.alike hopen
      exact ⟨_, _, hmembers⟩
  | null hfront => cases (hfront.alike hopen).1
  | bool hfront => cases (hfront.alike hopen).1
  | num hfront => cases (hfront.alike hopen).1
  | str hfront => cases (hfront.alike hopen).1
  | arr hfront => cases (hfront.alike hopen).1

end

/-! ## Well-formed text is spelled -/

theorem endsNumber_of_lead {t : Token} (ht : endsItem t) {l : List Char}
    (h : Lead t l) (rest : List Char) : endsNumber (l ++ rest) := by
  intro d hd
  cases h with
  | @mk b m hblank hspelling =>
      cases b with
      | nil =>
          rcases ht with rfl | rfl | rfl <;> cases hspelling <;>
            obtain rfl := Option.some.inj hd <;> decide
      | cons c b =>
          obtain rfl := Option.some.inj hd
          exact isFinal_of_isBlank (hblank _ List.mem_cons_self)

section

variable {α : Type} {close : Token} {item : Texts}
    {spells : α → Source → Source → Prop} {l : List Char} {s s' : Source}

/-- A token other than a number stands where its text does. -/
theorem shapeFront_of_lead {t : Token} (h : Lead t l) (hspans : Spans l s s')
    (ht : ∀ lead n, t ≠ .num lead n) : shapeFront t s s' :=
  ⟨⟨l, h, hspans⟩, fun ⟨lead, n, heq⟩ => absurd heq (ht lead n)⟩

theorem contents_of_shape {bound : ℕ} (hclose : endsItem close)
    (hitem : ∀ l s s', l.length ≤ bound → item l → Spans l s s' →
      endsNumber s'.chars → ∃ a, spells a s s')
    (h : Shape.Contents close item l) (hbound : l.length ≤ bound)
    (hspans : Spans l s s') :
    ∃ as, Contents shapeFront close spells as s s' := by
  have hmark : ∀ {t : Token}, endsItem t → ∀ lead n, t ≠ .num lead n := by
    rintro t (rfl | rfl | rfl) lead n <;> simp
  cases h with
  | empty hend =>
      exact ⟨[], .empty (shapeFront_of_lead hend hspans (hmark hclose))⟩
  | items hitems =>
      obtain ⟨as, has⟩ : ∃ as, Items shapeFront close spells as s s' := by
        induction hitems generalizing s with
        | last ha hend =>
            rw [List.length_append] at hbound
            obtain ⟨t, hleft, hright⟩ := hspans.split
            obtain ⟨a, ha⟩ := hitem _ s t (by omega) ha hleft (by
              rw [hright.chars]
              exact endsNumber_of_lead hclose hend _)
            exact ⟨[a], .last ha
              (shapeFront_of_lead hend hright (hmark hclose))⟩
        | more ha hcomma _ ih =>
            rw [List.length_append, List.length_append] at hbound
            obtain ⟨t, hleft, hright⟩ := hspans.split
            obtain ⟨u, hmiddle, hrest⟩ := hright.split
            obtain ⟨a, ha⟩ := hitem _ s t (by omega) ha hleft (by
              rw [hmiddle.chars]
              exact endsNumber_of_lead (Or.inl rfl) hcomma _)
            obtain ⟨as, has⟩ := ih (by omega) hrest
            exact ⟨a :: as, .more ha
              (shapeFront_of_lead hcomma hmiddle (by simp)) has⟩
      exact ⟨as, .items has⟩

end

theorem lead_ne_nil {t : Token} {l : List Char} (h : Lead t l) : l ≠ [] := by
  cases h with
  | mk _ hspelling =>
      exact List.append_ne_nil_of_right_ne_nil _
        (Shape.spelling_ne_nil hspelling)

/-- A text of the shape of a value spells one, token by token. -/
theorem spells_of_value {l : List Char} (h : Shape.Value l) {s s' : Source}
    (hspans : Spans l s s') (hends : endsNumber s'.chars) :
    ∃ v, Spells shapeFront v s s' := by
  induction hlength : l.length using Nat.strongRecOn generalizing l s s' with
  | ind n ih =>
      subst hlength
      -- Behind an opening token there is less text than in front of it.
      have hinner : ∀ {t : Token} {k m : List Char}, Lead t k → l = k ++ m →
          ∀ n s s', n.length ≤ m.length → Shape.Value n → Spans n s s' →
            endsNumber s'.chars → ∃ v, Spells shapeFront v s s' := by
        rintro t k m hlead rfl n s s' hn hvalue hspans hends
        have hless := List.length_pos_iff.mpr (lead_ne_nil hlead)
        exact ih n.length (by rw [List.length_append]; omega) hvalue hspans
          hends rfl
      cases h with
      | @scalar t l hlead ht =>
          have hfront : shapeFront t s s' :=
            ⟨⟨l, hlead, hspans⟩, fun _ => hends⟩
          cases t with
          | null => exact ⟨_, .null hfront⟩
          | bool b => exact ⟨_, .bool hfront⟩
          | str x => exact ⟨_, .str hfront⟩
          | num lead n => exact ⟨_, .num hfront⟩
          | _ => exact ht.elim
      | arr hopen hitems =>
          obtain ⟨t, hleft, hright⟩ := hspans.split
          obtain ⟨vs, hvs⟩ := contents_of_shape (Or.inr (Or.inl rfl))
            (hinner hopen rfl) hitems le_rfl hright
          exact ⟨.arr vs, .arr (shapeFront_of_lead hopen hleft (by simp)) hvs⟩
      | @obj _ m hopen hmembers =>
          obtain ⟨t, hleft, hright⟩ := hspans.split
          have hvalue := hinner hopen rfl
          have hmember : ∀ n s s', n.length ≤ m.length →
              Shape.Member Shape.Value n → Spans n s s' → endsNumber s'.chars →
                ∃ m, Member shapeFront (Spells shapeFront) m s s' := by
            intro n s s' hn hmember hspans hends
            cases hmember with
            | @mk key j k n hkey hcolon hv =>
                rw [List.length_append, List.length_append] at hn
                obtain ⟨t, hleft, hright⟩ := hspans.split
                obtain ⟨u, hmiddle, hrest⟩ := hright.split
                obtain ⟨v, hv⟩ := hvalue n u s' (by omega) hv hrest hends
                exact ⟨(key, v),
                  .mk (shapeFront_of_lead hkey hleft (by simp))
                    (shapeFront_of_lead hcolon hmiddle (by simp)) hv⟩
          obtain ⟨ms, hms⟩ := contents_of_shape (Or.inr (Or.inr rfl)) hmember
            hmembers le_rfl hright
          exact ⟨.obj ms, .obj (shapeFront_of_lead hopen hleft (by simp)) hms⟩

/-- A value stands at the start of a well-formed text. -/
theorem stands_of_wellFormed {text : String}
    (h : Shape.WellFormed text.toList) : Stands (.ofText text) := by
  generalize htext : text.toList = l at h
  cases h with
  | @mk l m hvalue hblank =>
      have hspans : Spans l (.ofText text) ⟨0 + String.utf8Len l, m⟩ :=
        ⟨htext, rfl⟩
      have hends : endsNumber m := by
        intro c hc
        exact isFinal_of_isBlank (hblank c (List.mem_of_mem_head? hc))
      obtain ⟨v, hv⟩ := spells_of_value hvalue hspans hends
      exact ⟨v, _, hv⟩

end Grammar
end JsonTypedef
