import JsonTypedef.Proofs.Json.Text

/-!
# Blanks between tokens

`Grammar.Spaced` inserts blanks between the tokens of a text and at its ends.
That does not change what the text denotes.
-/

namespace JsonTypedef
namespace Grammar

/-- The second text is the first one with blanks inserted between its tokens and
at both ends. -/
inductive Spaced : List Char → List Char → Prop
  | done : Spaced [] []
  | insert {c : Char} {cs ds : List Char} :
      IsBlank c → Spaced cs ds → Spaced cs (c :: ds)
  | keep {c : Char} {cs ds : List Char} :
      IsBlank c → Spaced cs ds → Spaced (c :: cs) (c :: ds)
  | token {t : Token} {lexeme rest ds : List Char} :
      Lexical t (lexeme ++ rest) rest → Delimited t rest → Spaced rest ds →
        Spaced (lexeme ++ rest) (lexeme ++ ds)

/-- Blanks in front of a token are those in front of the spaced token. -/
theorem eq_of_blanks {t : Token} {cs lexeme rest : List Char}
    (hblanks : Blanks cs lexeme) (h : Lexical t cs rest) : lexeme = cs := by
  cases hblanks with
  | none => rfl
  | more hblank _ => exact absurd hblank (not_isBlank_of_lexical h _ rfl)

/-- The token at the front of a text is the token at the front of the spaced
one. -/
theorem front_of_spaced {cs ds rest : List Char} {t : Token} (h : Spaced cs ds)
    (hfront : textFront t cs rest) (hrest : Delimited t rest) :
    ∃ ds', textFront t ds ds' ∧ Spaced rest ds' := by
  induction h with
  | done =>
      obtain ⟨lexeme, hblanks, hlexical⟩ := hfront
      cases hblanks
      cases hlexical
  | insert hblank _ ih =>
      obtain ⟨ds', ⟨lexeme, hblanks, hlexical⟩, hspaced⟩ := ih hfront
      exact ⟨ds', ⟨lexeme, .more hblank hblanks, hlexical⟩, hspaced⟩
  | keep hblank _ ih =>
      obtain ⟨lexeme, hblanks, hlexical⟩ := hfront
      cases hblanks with
      | none => exact absurd hblank (not_isBlank_of_lexical hlexical _ rfl)
      | more _ hblanks =>
          obtain ⟨ds', ⟨lexeme', hblanks', hlexical'⟩, hspaced⟩ :=
            ih ⟨lexeme, hblanks, hlexical⟩
          exact ⟨ds', ⟨lexeme', .more hblank hblanks', hlexical'⟩, hspaced⟩
  | @token t' lexeme' rest' ds hlexical' hrest' hspaced _ =>
      obtain ⟨lexeme, hblanks, hlexical⟩ := hfront
      obtain rfl := eq_of_blanks hblanks hlexical'
      obtain ⟨rfl, rfl⟩ := hlexical.unique hrest hlexical' hrest'
      obtain ⟨l, happend, hframe⟩ := hlexical.frame
      obtain rfl := List.append_cancel_right happend
      exact ⟨ds, ⟨lexeme' ++ ds, .none, hframe ds⟩, hspaced⟩

theorem blanks_of_spaced {cs ds : List Char} (h : Spaced cs ds)
    (hblanks : Blanks cs []) : Blanks ds [] := by
  induction h with
  | done => exact hblanks
  | insert hblank _ ih => exact .more hblank (ih hblanks)
  | keep hblank _ ih =>
      cases hblanks with
      | more _ hblanks => exact .more hblank (ih hblanks)
  | token hlexical _ _ _ =>
      rw [← eq_of_blanks hblanks hlexical] at hlexical
      cases hlexical

theorem spaced_follows : Follows textFront textFront Spaced endsNumber where
  step := fun hfront hspaced hends => front_of_spaced hspaced hfront hends
  ends_of_endsItem := stream_follows.ends_of_endsItem

/-- Inserting blanks does not change what a text denotes. -/
theorem Denotes.of_spaced {text spaced : String} {v : Value}
    (h : Denotes text v) (hspaced : Spaced text.toList spaced.toList) :
    Denotes spaced v := by
  obtain ⟨rest, hspells, hblanks⟩ := h
  have hends : endsNumber rest :=
    endsNumber_of_blanks hblanks (by simp [endsNumber])
  obtain ⟨rest', hspells', hrest⟩ :=
    hspells.transfer spaced_follows hends hspaced
  exact ⟨rest', hspells', blanks_of_spaced hrest hblanks⟩

/-! ## Blanks at the ends -/

theorem Spaced.blanks {cs rest tail : List Char} (h : Blanks cs rest)
    (hrest : Spaced rest (rest ++ tail)) : Spaced cs (cs ++ tail) := by
  induction h with
  | none => exact hrest
  | more hblank _ ih => exact .keep hblank (ih hrest)

theorem Spaced.front {cs rest tail : List Char} {t : Token}
    (h : textFront t cs rest) (hrest : Delimited t rest)
    (hspaced : Spaced rest (rest ++ tail)) : Spaced cs (cs ++ tail) := by
  obtain ⟨lexeme, hblanks, hlexical⟩ := h
  refine Spaced.blanks hblanks ?_
  obtain ⟨l, rfl, -⟩ := hlexical.frame
  rw [List.append_assoc]
  exact .token hlexical hrest hspaced

theorem Spaced.nil {tail : List Char} (h : ∀ c ∈ tail, IsBlank c) :
    Spaced [] tail := by
  induction tail with
  | nil => exact .done
  | cons c tail ih =>
      exact .insert (h c List.mem_cons_self)
        (ih fun d hd => h d (List.mem_cons_of_mem _ hd))

/-- Blanks can be put at both ends of every JSON text. -/
theorem Denotes.spaced {text : String} {v : Value} (h : Denotes text v)
    {before behind : List Char} (hbefore : ∀ c ∈ before, IsBlank c)
    (hbehind : ∀ c ∈ behind, IsBlank c) :
    Spaced text.toList (before ++ (text.toList ++ behind)) := by
  obtain ⟨rest, hspells, hblanks⟩ := h
  have hends : endsNumber rest :=
    endsNumber_of_blanks hblanks (by simp [endsNumber])
  have hrest : Spaced rest (rest ++ behind) :=
    Spaced.blanks hblanks (Spaced.nil hbehind)
  have hspaced : Spaced text.toList (text.toList ++ behind) :=
    hspells.back
      (fun _ _ _ hfront ht => stream_follows.ends_of_endsItem hfront ht)
      (fun _ _ _ hfront hnum hspaced => Spaced.front hfront hnum hspaced)
      hends hrest
  induction before with
  | nil => exact hspaced
  | cons c before ih =>
      exact .insert (hbefore c List.mem_cons_self)
        (ih fun d hd => hbefore d (List.mem_cons_of_mem _ hd))

end Grammar
end JsonTypedef
