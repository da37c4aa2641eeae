import JsonTypedef.Proofs.Bytewise.Text
import JsonTypedef.Proofs.Json.Cursor

/-!
# What readers give

`Gives` says how a run ends that starts at a place of the text: it does not
panic, it stops at a place, and it reports a failure at a boundary.  There is a
rule for each way in which readers are put together, and below the rules what
the readers of single characters give, compared with the cursors that take
tokens.
-/

namespace JsonTypedef
namespace Bytewise

open Parsing
open Source (Spans)

variable {text : String} {α β : Type}

/-- How a run from a place of the text ends. -/
inductive Gives (text : String) (m : Reader α) (s : Source) :
    Except Failure (α × Source) → Prop
  | ok {a : α} {s' : Source} :
      m s.pos = some (.ok (a, s'.pos)) → Place text s' →
        Gives text m s (.ok (a, s'))
  | error {e : Failure} :
      m s.pos = some (.error e) → Boundary text e.position →
        Gives text m s (.error e)

theorem Gives.place {m : Reader α} {s s' : Source} {a : α}
    (h : Gives text m s (.ok (a, s'))) : Place text s' := by
  cases h with
  | ok _ hplace => exact hplace

theorem Gives.boundary {m : Reader α} {s : Source} {e : Failure}
    (h : Gives text m s (.error e)) : Boundary text e.position := by
  cases h with
  | error _ hboundary => exact hboundary

/-! ## Rules -/

section

variable {m : Reader α} {f : α → Reader β} {a : α} {s s' : Source}
    {r : Except Failure (β × Source)}

theorem bind_of_ok {pos pos' : Nat} (h : m pos = some (.ok (a, pos'))) :
    (m >>= f) pos = f a pos' := by
  simp only [bind, StateT.bind, ExceptT.bind, ExceptT.mk, h, Option.bind]
  rfl

theorem bind_of_error {pos : Nat} {e : Failure} (h : m pos = some (.error e)) :
    (m >>= f) pos = some (.error e) := by
  simp only [bind, StateT.bind, ExceptT.bind, ExceptT.mk, h, Option.bind]
  rfl

theorem Gives.of_run_eq {r : Except Failure (α × Source)}
    (h : Gives text m s' r) (hrun : m s.pos = m s'.pos) : Gives text m s r := by
  cases h with
  | ok hm hplace => exact .ok (hrun.trans hm) hplace
  | error hm hboundary => exact .error (hrun.trans hm) hboundary

theorem Gives.bind (h : Gives text m s (.ok (a, s')))
    (hf : Gives text (f a) s' r) : Gives text (m >>= f) s r := by
  cases h with
  | ok hm =>
      cases hf with
      | ok hf hplace => exact .ok ((bind_of_ok hm).trans hf) hplace
      | error hf hboundary => exact .error ((bind_of_ok hm).trans hf) hboundary

theorem Gives.bind_error {e : Failure} (h : Gives text m s (.error e)) :
    Gives text (m >>= f) s (.error e) := by
  cases h with
  | error hm hboundary => exact .error (bind_of_error hm) hboundary

theorem Gives.get {g : Nat → Reader β} (h : Gives text (g s.pos) s r) :
    Gives text (MonadState.get >>= g) s r := by
  cases h with
  | ok hg hplace => exact .ok hg hplace
  | error hg hboundary => exact .error hg hboundary

theorem Gives.lift {o : Option α} (ho : o = some a)
    (h : Gives text (f a) s r) : Gives text ((liftM o : Reader α) >>= f) s r := by
  subst ho
  cases h with
  | ok hf hplace => exact .ok hf hplace
  | error hf hboundary => exact .error hf hboundary

theorem Gives.pure (hs : Place text s) (a : α) :
    Gives text (pure a) s (.ok (a, s)) :=
  .ok rfl hs

theorem Gives.throw {e : Failure} (he : Boundary text e.position) (s : Source) :
    Gives text (throw e : Reader α) s (.error e) :=
  .error rfl he

/-- A run goes back to a place where it has been. -/
theorem Gives.rewind (hs : Place text s) (here : Source) :
    Gives text (set s.pos : Reader PUnit) here (.ok (⟨⟩, s)) :=
  .ok rfl hs

theorem Gives.advance {l : List Char} (hs : Place text s) (hspans : Spans l s s')
    {bytes : Nat} (hbytes : bytes = String.utf8Len l) :
    Gives text (advance bytes) s (.ok ((), s')) := by
  refine .ok ?_ (hs.spans hspans)
  rw [hspans.pos, ← hbytes]
  rfl

end

/-! ## Single characters -/

section

variable {s : Source} {c : Char} {rest : List Char}

theorem peek_eq (text : String) (pos : Nat) :
    peek text pos =
      some (.ok (text.toByteArray.data[pos]?.map Char.ofUInt8, pos)) :=
  rfl

theorem peek_end (hs : Place text s) (h : s.chars = []) :
    Gives text (peek text) s (.ok (none, s)) := by
  refine .ok ?_ hs
  have hbyte := hs.byte 0
  rw [Nat.add_zero, h] at hbyte
  rw [peek_eq, hbyte]
  rfl

theorem peek_ascii (hs : Place text s) (h : s.chars = c :: rest)
    (hc : c.toNat < 128) : Gives text (peek text) s (.ok (some c, s)) := by
  obtain ⟨b, hencode, hb⟩ := utf8EncodeChar_of_lt hc
  refine .ok ?_ hs
  have hbyte := hs.byte 0
  rw [Nat.add_zero, h, List.flatMap_cons, hencode] at hbyte
  rw [peek_eq, hbyte, ← hb]
  rfl

theorem peek_wide (hs : Place text s) (h : s.chars = c :: rest)
    (hc : 128 ≤ c.toNat) :
    ∃ d : Char, 128 ≤ d.toNat ∧
      Gives text (peek text) s (.ok (some d, s)) := by
  have hbyte := hs.byte 0
  rw [Nat.add_zero, h, List.flatMap_cons] at hbyte
  cases hencode : String.utf8EncodeChar c with
  | nil => exact absurd hencode String.utf8EncodeChar_ne_nil
  | cons b bs =>
      rw [hencode] at hbyte
      refine ⟨Char.ofUInt8 b, ?_, .ok ?_ hs⟩
      · exact le_of_mem_utf8EncodeChar hc (by simp [hencode])
      · rw [peek_eq, hbyte]
        rfl

/-- What the next byte shows of the next character. -/
inductive Shows : Option Char → List Char → Prop
  | finish : Shows none []
  | ascii {c : Char} {rest : List Char} : Shows (some c) (c :: rest)
  | wide {c d : Char} {rest : List Char} :
      128 ≤ c.toNat → 128 ≤ d.toNat → Shows (some d) (c :: rest)

theorem exists_peek (hs : Place text s) :
    ∃ next, Shows next s.chars ∧ Gives text (peek text) s (.ok (next, s)) := by
  cases hchars : s.chars with
  | nil => exact ⟨none, .finish, peek_end hs hchars⟩
  | cons c rest =>
      by_cases hc : c.toNat < 128
      · exact ⟨some c, .ascii, peek_ascii hs hchars hc⟩
      · have hwide := Nat.le_of_not_lt hc
        obtain ⟨d, hd, hpeek⟩ := peek_wide hs hchars hwide
        exact ⟨some d, .wide hwide hd, hpeek⟩

/-- An ASCII character is next where its byte is. -/
theorem Shows.eq_some_iff {next : Option Char} {cs : List Char}
    (h : Shows next cs) (hc : c.toNat < 128) :
    next = some c ↔ cs.head? = some c := by
  cases h with
  | finish => simp
  | ascii => simp
  | @wide c' d _ hwide hd =>
      have hne : d ≠ c := by
        rintro rfl
        omega
      have hne' : c' ≠ c := by
        rintro rfl
        omega
      simp [hne, hne']

theorem Shows.eq_none_iff {next : Option Char} {cs : List Char}
    (h : Shows next cs) : next = none ↔ cs = [] := by
  cases h with
  | finish => simp
  | ascii => simp
  | wide => simp

/-- What holds of ASCII characters only is seen in the next byte. -/
theorem Shows.any_eq {next : Option Char} {cs : List Char} (h : Shows next cs)
    {p : Char → Bool} (hp : ∀ c, p c = true → c.toNat < 128) :
    next.any p = cs.head?.any p := by
  cases h with
  | finish => rfl
  | ascii => rfl
  | @wide c d _ hwide hd =>
      have hno : ∀ e : Char, 128 ≤ e.toNat → p e = false := by
        intro e he
        by_contra htrue
        have hlt := hp e (Bool.of_not_eq_false htrue)
        omega
      simp [hno c hwide, hno d hd]

theorem spans_ascii (h : s.chars = c :: rest) (hc : c.toNat < 128) :
    Spans [c] s ⟨s.pos + 1, rest⟩ := by
  refine ⟨h, ?_⟩
  rw [String.utf8Len_cons, Source.utf8Size_of_le (Char.le_refl c) hc]
  rfl

theorem Place.ascii (hs : Place text s) (h : s.chars = c :: rest)
    (hc : c.toNat < 128) : Place text ⟨s.pos + 1, rest⟩ :=
  hs.spans (spans_ascii h hc)

theorem advance_ascii (hs : Place text s) (h : s.chars = c :: rest)
    (hc : c.toNat < 128) :
    Gives text (advance 1) s (.ok ((), ⟨s.pos + 1, rest⟩)) := by
  refine .advance hs (spans_ascii h hc) ?_
  rw [String.utf8Len_cons, Source.utf8Size_of_le (Char.le_refl c) hc]
  rfl

theorem toNat_of_isBlank (h : Grammar.IsBlank c) : c.toNat < 128 := by
  rcases h with rfl | rfl | rfl | rfl <;> decide

theorem skipBlanks_gives (hs : Place text s) :
    Gives text (skipBlanks text) s (.ok ((), s.front)) := by
  obtain ⟨pos, cs⟩ := s
  induction cs generalizing pos with
  | nil =>
      rw [skipBlanks]
      exact (peek_end hs rfl).bind (.pure hs ())
  | cons c cs ih =>
      by_cases hblank : Grammar.IsBlank c
      · have hc := toNat_of_isBlank hblank
        have hfront : Source.front ⟨pos, c :: cs⟩ =
            Source.front ⟨pos + 1, cs⟩ := if_pos hblank
        have hrest : Gives text (do advance 1; skipBlanks text) ⟨pos, c :: cs⟩
            (.ok ((), Source.front ⟨pos + 1, cs⟩)) :=
          (advance_ascii hs rfl hc).bind (ih (pos + 1) (hs.ascii rfl hc))
        rw [hfront, skipBlanks]
        refine (peek_ascii hs rfl hc).bind ?_
        rcases hblank with rfl | rfl | rfl | rfl
        · exact hrest
        · exact hrest
        · exact hrest
        · exact hrest
      · have hfront : Source.front ⟨pos, c :: cs⟩ = ⟨pos, c :: cs⟩ :=
          if_neg hblank
        obtain ⟨next, hshows, hpeek⟩ := exists_peek hs
        have hnext : ∀ d, Grammar.IsBlank d → next ≠ some d := by
          intro d hd heq
          have hhead := (hshows.eq_some_iff (toNat_of_isBlank hd)).mp heq
          cases hhead
          exact hblank hd
        rw [hfront, skipBlanks]
        refine hpeek.bind ?_
        split
        next => exact absurd rfl (hnext ' ' (by simp [Grammar.IsBlank]))
        next => exact absurd rfl (hnext '\t' (by simp [Grammar.IsBlank]))
        next => exact absurd rfl (hnext '\n' (by simp [Grammar.IsBlank]))
        next => exact absurd rfl (hnext '\r' (by simp [Grammar.IsBlank]))
        next => exact .pure hs ()

theorem eat_found (hs : Place text s) (h : s.chars = c :: rest)
    (hc : c.toNat < 128) :
    Gives text (eat text c) s (.ok (true, ⟨s.pos + 1, rest⟩)) := by
  refine (peek_ascii hs h hc).bind ?_
  rw [if_pos rfl]
  exact (advance_ascii hs h hc).bind (.pure (hs.ascii h hc) true)

theorem eat_missing (hs : Place text s) (h : s.chars.head? ≠ some c)
    (hc : c.toNat < 128) : Gives text (eat text c) s (.ok (false, s)) := by
  obtain ⟨next, hshows, hpeek⟩ := exists_peek hs
  refine hpeek.bind ?_
  rw [if_neg fun heq => h ((hshows.eq_some_iff hc).mp heq)]
  exact .pure hs false

theorem remaining_gives (hs : Place text s) :
    Gives text (remaining text) s (.ok (String.ofList s.chars, s)) :=
  .get (.ok (by rw [hs.slice?_end]; rfl) hs)

/-- Something unexpected is reported as the first character there. -/
theorem unexpected_gives (hs : Place text s) (what : Expected) :
    Gives text (unexpected text what : Reader α) s
      (.error ⟨.unexpected what s.chars.head?, s.pos⟩) := by
  refine (remaining_gives hs).bind (.get ?_)
  rw [String.toList_ofList]
  exact .throw hs.boundary s

end

end Bytewise
end JsonTypedef
