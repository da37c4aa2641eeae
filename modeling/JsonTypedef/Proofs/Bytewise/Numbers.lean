import JsonTypedef.Proofs.Bytewise.Reader
import JsonTypedef.Proofs.Json.Numeral

/-!
# Numbers byte by byte

A numeral is passed over part by part, and each part stops where `Numeral.read`
goes on to the next one.  Then the numeral is cut out and read again, without
what follows it.
-/

namespace JsonTypedef
namespace Bytewise

open Parsing
open Source (Spans OneByte)

variable {text : String} {s s' : Source}

/-! ## Digits -/

theorem toNat_of_isDigit {c : Char} (h : Numeral.isDigit c = true) :
    c.toNat < 128 :=
  Nat.lt_succ_of_le
    (Char.utf8Size_eq_one_iff.mp (Numeral.utf8Size_of_isDigit h))

theorem atDigit_gives (hs : Place text s) :
    Gives text (atDigit text) s
      (.ok (s.chars.head?.any Numeral.isDigit, s)) := by
  obtain ⟨next, hshows, hpeek⟩ := exists_peek hs
  rw [← hshows.any_eq fun _ => toNat_of_isDigit]
  exact hpeek.bind (.pure hs _)

theorem any_isDigit_of_noDigit {rest : List Char} (h : Numeral.NoDigit rest) :
    rest.head?.any Numeral.isDigit = false := by
  cases rest with
  | nil => rfl
  | cons c rest => exact h c rfl

theorem digits_gives {pos : Nat} {ds rest : List Char}
    (hs : Place text ⟨pos, ds ++ rest⟩) (hds : Numeral.AllDigits ds)
    (hrest : Numeral.NoDigit rest) :
    Gives text (digits text) ⟨pos, ds ++ rest⟩
      (.ok ((), ⟨pos + ds.length, rest⟩)) := by
  induction ds generalizing pos with
  | nil =>
      rw [digits]
      refine (atDigit_gives hs).bind ?_
      rw [List.nil_append, any_isDigit_of_noDigit hrest]
      exact .pure hs ()
  | cons d ds ih =>
      have hd := hds d List.mem_cons_self
      have hlt := toNat_of_isDigit hd
      have hbehind := ih (hs.ascii rfl hlt)
        fun c hc => hds c (List.mem_cons_of_mem d hc)
      rw [Nat.add_assoc, Nat.add_comm 1] at hbehind
      rw [digits]
      refine (atDigit_gives hs).bind ?_
      rw [List.cons_append, List.head?_cons, Option.any_some, hd]
      exact (advance_ascii hs rfl hlt).bind hbehind

theorem someDigits_gives {pos : Nat} {ds rest : List Char}
    (hs : Place text ⟨pos, ds ++ rest⟩) (hds : Numeral.AllDigits ds)
    (hrest : Numeral.NoDigit rest) (hne : ds ≠ []) (gap : Numeral.Gap) :
    Gives text (someDigits text gap) ⟨pos, ds ++ rest⟩
      (.ok ((), ⟨pos + ds.length, rest⟩)) := by
  obtain ⟨d, ds, rfl⟩ := List.exists_cons_of_ne_nil hne
  refine (atDigit_gives hs).bind ?_
  rw [List.cons_append, List.head?_cons, Option.any_some,
    hds d List.mem_cons_self]
  exact digits_gives hs hds hrest

theorem someDigits_missing {pos : Nat} {rest : List Char}
    (hs : Place text ⟨pos, rest⟩) (hrest : Numeral.NoDigit rest)
    (gap : Numeral.Gap) :
    Gives text (someDigits text gap) ⟨pos, rest⟩
      (.error ⟨.token (.digit gap rest.head?), pos⟩) := by
  refine (atDigit_gives hs).bind ?_
  rw [any_isDigit_of_noDigit hrest]
  refine (remaining_gives hs).bind (.get ?_)
  rw [String.toList_ofList]
  exact .throw hs.boundary _

/-! ## Parts of a numeral -/

/-- A run ends where reading a numeral does, having passed over characters of
one byte each. -/
inductive Ends (text : String) (m : Reader Unit) (pos : Nat) (cs : List Char) :
    Numeral.Reading → Prop
  | numeral {l rest : List Char} {n : Numeral} :
      cs = l ++ rest → OneByte l →
        Gives text m ⟨pos, cs⟩ (.ok ((), ⟨pos + l.length, rest⟩)) →
          Ends text m pos cs (.numeral n rest)
  | missing {l rest : List Char} {gap : Numeral.Gap} :
      cs = l ++ rest → OneByte l →
        Gives text m ⟨pos, cs⟩
          (.error ⟨.token (.digit gap rest.head?), pos + l.length⟩) →
          Ends text m pos cs (.missing gap rest)

/-- What follows a part of the numeral decides how the run ends. -/
theorem Ends.behind {α : Type} {m : Reader α} {f : α → Reader Unit} {a : α}
    {pos : Nat} {l cs : List Char} {r : Numeral.Reading} (hl : OneByte l)
    (hm : Gives text m ⟨pos, l ++ cs⟩ (.ok (a, ⟨pos + l.length, cs⟩)))
    (h : Ends text (f a) (pos + l.length) cs r) :
    Ends text (m >>= f) pos (l ++ cs) r := by
  cases h with
  | @numeral l' rest _ hcs hl' hf =>
      rw [Nat.add_assoc, ← List.length_append] at hf
      refine .numeral (l := l ++ l') ?_ (hl.append hl') (hm.bind hf)
      rw [hcs, List.append_assoc]
  | @missing l' rest _ hcs hl' hf =>
      rw [Nat.add_assoc, ← List.length_append] at hf
      refine .missing (l := l ++ l') ?_ (hl.append hl') (hm.bind hf)
      rw [hcs, List.append_assoc]

section

variable {pos : Nat} {cs : List Char}

/-- Where digits have to follow, the run goes on behind them. -/
theorem someDigits_ends (hs : Place text ⟨pos, cs⟩) {f : Reader Unit}
    {k : List Char → List Char → Numeral.Reading} (gap : Numeral.Gap)
    (hk : ∀ ds rest, Place text ⟨pos + ds.length, rest⟩ →
      Ends text f (pos + ds.length) rest (k ds rest)) :
    Ends text (do someDigits text gap; f) pos cs
      (match Numeral.spanDigits cs with
      | ([], rest) => .missing gap rest
      | (ds, rest) => k ds rest) := by
  split
  next rest hspan =>
    obtain ⟨rfl, -, hrest⟩ := Numeral.spanDigits_spec hspan
    exact .missing (l := []) rfl (by decide)
      (someDigits_missing hs hrest gap).bind_error
  next ds rest hne hspan =>
    obtain ⟨rfl, hds, hrest⟩ := Numeral.spanDigits_spec hspan
    have hdigits := someDigits_gives hs hds hrest hne gap
    exact .behind (Numeral.oneByte_of_allDigits hds) hdigits
      (hk ds rest hdigits.place)

variable {c : Char} {f : Bool → Reader Unit} {r : Numeral.Reading}

theorem head?_ne_of_ne_cons (h : ∀ tail, cs = c :: tail → False) :
    cs.head? ≠ some c := by
  intro hhead
  obtain ⟨tail, htail⟩ := List.head?_eq_some_iff.mp hhead
  exact h tail htail

/-- A character that may stand there is eaten. -/
theorem eat_ends (hs : Place text ⟨pos, c :: cs⟩) (hc : c.toNat < 128)
    (h : Place text ⟨pos + 1, cs⟩ → Ends text (f true) (pos + 1) cs r) :
    Ends text (eat text c >>= f) pos (c :: cs) r := by
  have hone : OneByte [c] :=
    .cons (Source.utf8Size_of_le (Char.le_refl c) hc) (by decide)
  exact .behind hone (eat_found hs rfl hc) (h (hs.ascii rfl hc))

theorem eat_ends_of_ne (hs : Place text ⟨pos, cs⟩) (hc : c.toNat < 128)
    (hne : cs.head? ≠ some c) (h : Ends text (f false) pos cs r) :
    Ends text (eat text c >>= f) pos cs r :=
  .behind (l := []) (by decide) (eat_missing hs hne hc) h

/-- Nothing is left to be read. -/
theorem pure_ends (hs : Place text ⟨pos, cs⟩) (n : Numeral) :
    Ends text (pure ()) pos cs (.numeral n cs) :=
  .numeral (l := []) rfl (by decide) (.pure hs ())

variable (negative : Bool) (whole fraction : List Char)

theorem exponentDigits_ends (hs : Place text ⟨pos, cs⟩) {letter : Char}
    (hletter : Numeral.IsLetter letter) :
    Ends text (exponentDigits text) pos cs
      (Numeral.readExponent negative whole fraction (letter :: cs)) := by
  have hdigits : ∀ {pos : Nat} {cs : List Char} (sign : Option Bool),
      Place text ⟨pos, cs⟩ → Ends text (someDigits text .exponent) pos cs
        (match Numeral.spanDigits cs with
        | ([], rest) => .missing .exponent rest
        | (ds, rest) =>
          .numeral ⟨negative, whole, fraction, some ⟨sign, ds⟩⟩ rest) := by
    intro pos cs sign hs
    rw [← bind_pure_unit (x := someDigits text .exponent)]
    exact someDigits_ends hs .exponent fun ds rest hrest => pure_ends hrest _
  have hif : letter = 'e' ∨ letter = 'E' := hletter
  unfold Numeral.readExponent exponentDigits
  split
  next hnil => cases hnil
  next c tail hcons =>
    cases hcons
    rw [if_pos hif]
    split
    next sign tail heq =>
      split at heq
      next t =>
        cases heq
        exact eat_ends hs (by decide) fun htail => hdigits _ htail
      next t =>
        cases heq
        refine eat_ends_of_ne hs (by decide) (by simp) ?_
        exact eat_ends hs (by decide) fun htail => hdigits _ htail
      next hplus hminus =>
        cases heq
        refine eat_ends_of_ne hs (by decide) (head?_ne_of_ne_cons hplus) ?_
        exact eat_ends_of_ne hs (by decide) (head?_ne_of_ne_cons hminus)
          (hdigits _ hs)

theorem exponent_ends (hs : Place text ⟨pos, cs⟩) :
    Ends text (exponent text) pos cs
      (Numeral.readExponent negative whole fraction cs) := by
  unfold Numeral.readExponent exponent
  split
  next =>
    refine eat_ends_of_ne hs (by decide) (by simp) ?_
    exact eat_ends_of_ne hs (by decide) (by simp) (pure_ends hs _)
  next c tail =>
    by_cases he : c = 'e'
    · subst he
      rw [if_pos (Or.inl rfl)]
      exact eat_ends hs (by decide) fun htail =>
        exponentDigits_ends negative whole fraction htail (Or.inl rfl)
    · refine eat_ends_of_ne hs (by decide) (by simpa using he) ?_
      by_cases hE : c = 'E'
      · subst hE
        rw [if_pos (Or.inr rfl)]
        exact eat_ends hs (by decide) fun htail =>
          exponentDigits_ends negative whole fraction htail (Or.inr rfl)
      · rw [if_neg (not_or.mpr ⟨he, hE⟩)]
        exact eat_ends_of_ne hs (by decide) (by simpa using hE)
          (pure_ends hs _)

theorem fraction_ends (hs : Place text ⟨pos, cs⟩) :
    Ends text (do Bytewise.fraction text; exponent text) pos cs
      (Numeral.readFraction negative whole cs) := by
  unfold Numeral.readFraction Bytewise.fraction
  rw [bind_assoc]
  split
  next tail =>
    refine eat_ends hs (by decide) fun htail => ?_
    exact someDigits_ends htail .fraction fun ds rest hrest =>
      exponent_ends negative whole ds hrest
  next hpoint =>
    refine eat_ends_of_ne hs (by decide) (head?_ne_of_ne_cons hpoint) ?_
    exact .behind (l := []) (by decide) (.pure hs ())
      (exponent_ends negative whole [] hs)

theorem whole_ends (hs : Place text ⟨pos, cs⟩) :
    Ends text (do Bytewise.whole text; Bytewise.fraction text; exponent text)
      pos cs (Numeral.readWhole negative cs) := by
  unfold Numeral.readWhole Bytewise.whole
  rw [bind_assoc]
  split
  next tail =>
    refine eat_ends hs (by decide) fun htail => ?_
    exact .behind (l := []) (by decide) (.pure htail ())
      (fraction_ends negative ['0'] htail)
  next hzero =>
    refine eat_ends_of_ne hs (by decide) (head?_ne_of_ne_cons hzero) ?_
    exact someDigits_ends hs .whole fun ds rest hrest =>
      fraction_ends negative ds hrest

theorem numeral_ends (hs : Place text ⟨pos, cs⟩) :
    Ends text (numeral text) pos cs (Numeral.read cs) := by
  unfold Numeral.read numeral
  split
  next tail =>
    exact eat_ends hs (by decide) fun htail => whole_ends true htail
  next hminus =>
    exact eat_ends_of_ne hs (by decide) (head?_ne_of_ne_cons hminus)
      (whole_ends false hs)

end

/-! ## Numbers -/

/-- A numeral that is cut out is read as it was with what follows it. -/
theorem numberOf_of_read {l rest : List Char} {n : Numeral}
    (h : Numeral.read (l ++ rest) = .numeral n rest) : numberOf l = n.value := by
  obtain ⟨⟨hvalid, letter, hletter, heq⟩, -⟩ := Numeral.written_of_read h
  have hl : l = n.spelled letter := List.append_cancel_right heq
  have hwritten : n.Written l [] :=
    ⟨hvalid, letter, hletter, by rw [hl, List.append_nil]⟩
  have hread : Numeral.read l = .numeral n [] :=
    Numeral.read_of_written hwritten (Numeral.stops_of_isFinal n (by simp))
  simp only [numberOf, hread]

/-- What a run reports for a number read at a source. -/
def numberResult (s : Source) : Except Failure (Number × Source) :=
  match Numeral.read s.chars with
  | .missing gap rest =>
    .error ⟨.token (.digit gap rest.head?),
      s.pos + (s.chars.length - rest.length)⟩
  | .numeral n rest =>
    match n.value with
    | .error fault => .error ⟨.token (.numeral fault), s.pos⟩
    | .ok number => .ok (number, ⟨s.pos + n.size, rest⟩)

theorem number_gives (hs : Place text s) :
    Gives text (number text) s (numberResult s) := by
  obtain ⟨pos, cs⟩ := s
  have hends := numeral_ends hs
  unfold number numberResult
  dsimp only
  refine .get ?_
  cases hread : Numeral.read cs with
  | missing gap rest =>
      rw [hread] at hends
      cases hends with
      | @missing l _ _ hcs _ hgives =>
          have hlength : cs.length - rest.length = l.length := by
            rw [hcs, List.length_append, Nat.add_sub_cancel]
          dsimp only
          rw [hlength]
          exact hgives.bind_error
  | numeral n rest =>
      rw [hread] at hends
      cases hends with
      | @numeral l _ _ hcs hl hgives =>
          subst hcs
          have hsize : n.size = l.length := by
            have hlength := Numeral.read_size hread
            rw [List.length_append] at hlength
            exact Nat.add_right_cancel hlength
          refine hgives.bind (.get (.lift (hs.slice?_of_spans
            (Source.spans_of_oneByte hl pos)) ?_))
          dsimp only
          rw [String.toList_ofList, numberOf_of_read hread, hsize]
          cases hvalue : n.value with
          | ok number => exact .pure hgives.place number
          | error fault => exact .throw hs.boundary _

end Bytewise
end JsonTypedef
