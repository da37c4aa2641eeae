import JsonTypedef.Proofs.Bytewise.Agreement

/-!
# Looking ahead byte by byte

The scan for a tag skips the values of other members.  It looks at the brackets
and separators itself and leaves every other value to the reader of scalars; each
step leaves fewer tokens, and the scan ends.
-/

namespace JsonTypedef
namespace Bytewise

open Parsing
open JsonTypedef.Stream (ofSource_of_finish ofSource_of_stuck)
open Lexeme (head?_of_stuck)

variable {text : String} {s : Source}

/-! ## Skipping a value -/

theorem openAfter_of_scalar {opened : Nat} {t : Token} {v : Value}
    (h : scalarOf? true t = some v) : openAfter opened t = some opened := by
  cases t with
  | null | bool | str | num => rfl
  | _ => cases h

/-- A token that no value goes on with opens no bracket, and is read outside of
all brackets. -/
theorem openAfter_eq_none {opened : Nat} {t : Token}
    (hscalar : scalarOf? true t = none)
    (hopen : t.first ≠ '\x7b' ∧ t.first ≠ '[')
    (hinner : ¬ (0 < opened ∧ (t.first = '\x7d' ∨ t.first = ']')))
    (hbetween : ¬ (0 < opened ∧ (t.first = ',' ∨ t.first = ':'))) :
    openAfter opened t = none := by
  cases t with
  | openBrace => exact absurd rfl hopen.1
  | openBracket => exact absurd rfl hopen.2
  | closeBrace =>
      have hzero : ¬ 0 < opened := fun h => hinner ⟨h, .inl rfl⟩
      exact if_pos (Nat.eq_zero_of_not_pos hzero)
  | closeBracket =>
      have hzero : ¬ 0 < opened := fun h => hinner ⟨h, .inr rfl⟩
      exact if_pos (Nat.eq_zero_of_not_pos hzero)
  | comma =>
      have hzero : ¬ 0 < opened := fun h => hbetween ⟨h, .inl rfl⟩
      exact if_pos (Nat.eq_zero_of_not_pos hzero)
  | colon =>
      have hzero : ¬ 0 < opened := fun h => hbetween ⟨h, .inr rfl⟩
      exact if_pos (Nat.eq_zero_of_not_pos hzero)
  | null | bool | str | num => cases hscalar

/-- Skip on behind a token, with the given number of open brackets. -/
def skipOn (opened : Nat) (c : Cursor) {d : Cursor} (h : c.size < d.size) :
    Except Failure (Taken Unit d) :=
  match opened with
  | 0 => .ok ⟨(), c, h⟩
  | opened + 1 => (Parsing.skipValue (opened + 1) c).map (Taken.after h)

theorem skipValue_of_token {opened opened' : Nat} {c rest : Cursor} {t : Token}
    {h : rest.size < c.size} (htake : c.take? = some ⟨t, rest, h⟩)
    (hafter : openAfter opened t = some opened') :
    Parsing.skipValue opened c = skipOn opened' rest h := by
  rw [Parsing.skipValue, htake]
  dsimp only
  rw [hafter]
  cases opened' with
  | zero => rfl
  | succ opened' => rfl

theorem skipOn_agrees {opened : Nat} {c : Cursor} (hs : Place text s)
    (h : (Cursor.ofSource s).size < c.size)
    (hskip : Agrees text (skipValue text opened) s
      (Parsing.skipValue opened (.ofSource s))) :
    Agrees text (if opened = 0 then pure () else skipValue text opened) s
      (skipOn opened (.ofSource s) h) := by
  cases opened with
  | zero => exact .ok (.pure hs ()) rfl
  | succ opened =>
      rw [if_neg (Nat.succ_ne_zero opened)]
      exact hskip.after fun _ => ⟨rfl, rfl⟩

/-- The reader and the scanner agree at every place behind the given one, inside
of that many brackets. -/
def SkipsBehind (text : String) (opened : Nat) (s : Source) : Prop :=
  ∀ s', Place text s' → (Cursor.ofSource s').size < (Cursor.ofSource s).size →
    Agrees text (skipValue text opened) s'
      (Parsing.skipValue opened (.ofSource s'))

theorem skipMark_agrees {opened opened' : Nat} {c : Char} {t : Token}
    (hs : Place text s.front) (hbehind : SkipsBehind text opened' s)
    (hhead : s.front.chars.head? = some c) (hc : c.toNat < 128)
    (hmark : Lexeme.mark? c = some t) (hafter : openAfter opened t = some opened') :
    Agrees text (do
        advance 1
        if opened' = 0 then pure () else skipValue text opened')
      s.front (Parsing.skipValue opened (.ofSource s)) := by
  obtain ⟨rest, hchars⟩ := List.head?_eq_some_iff.mp hhead
  obtain ⟨hless, htake⟩ := take?_of_mark? hmark hchars
  have hadvance := advance_ascii hs hchars hc
  have hplace := hadvance.place
  rw [skipValue_of_token htake hafter]
  exact .behind hadvance (skipOn_agrees hplace hless (hbehind _ hplace hless))

theorem skipScalar_agrees {opened : Nat} (hs : Place text s.front)
    (hbehind : SkipsBehind text opened s)
    (hother : ∀ t : Token, s.front.chars.head? = some t.first →
      scalarOf? true t = none → openAfter opened t = none) :
    Agrees text (do
        let _ ← scalar text true .value
        if opened = 0 then pure () else skipValue text opened)
      s.front (Parsing.skipValue opened (.ofSource s)) := by
  have hscalar := scalar_agrees hs true .value
  cases htake : (Cursor.ofSource s).take? with
  | none =>
      rw [Parsing.skipValue, htake]
      simp only [scanScalar, htake] at hscalar
      cases hscalar with
      | error hgives => exact .error hgives.bind_error
  | some taken =>
      obtain ⟨t, rest, hless⟩ := taken
      simp only [scanScalar, htake] at hscalar
      cases hvalue : scalarOf? true t with
      | none =>
          rw [hvalue] at hscalar
          rw [Parsing.skipValue, htake]
          dsimp only
          rw [hother t (head?_of_take? htake) hvalue]
          cases hscalar with
          | error hgives => exact .error hgives.bind_error
      | some v =>
          rw [hvalue] at hscalar
          cases hscalar with
          | @ok _ s' hgives hrest =>
              obtain rfl : rest = .ofSource s' := hrest
              have hplace := hgives.place
              rw [skipValue_of_token htake (openAfter_of_scalar hvalue)]
              exact .behind hgives
                (skipOn_agrees hplace hless (hbehind s' hplace hless))

theorem skipValue_implements (opened : Nat) :
    Implements text (skipValue text opened) (Parsing.skipValue opened) := by
  intro s hs
  induction hsize : (Cursor.ofSource s).size using Nat.strongRecOn
      generalizing s opened with
  | ind n ih =>
      have hfront := hs.front
      have hbehind : ∀ opened, SkipsBehind text opened s :=
        fun opened s' hs' hless => ih _ (hsize ▸ hless) opened s' hs' rfl
      obtain ⟨next, hshows, hpeek⟩ := exists_peek hfront
      have hhead : ∀ {c : Char}, c.toNat < 128 →
          (next = some c ↔ s.front.chars.head? = some c) :=
        hshows.eq_some_iff
      rw [skipValue]
      refine .behind (skipBlanks_gives hs) (.behind hpeek ?_)
      by_cases hopen : next = some '\x7b' ∨ next = some '['
      · rw [if_pos hopen]
        rcases hopen with hnext | hnext
        · exact skipMark_agrees (t := .openBrace) hfront (hbehind _)
            ((hhead (by decide)).mp hnext) (by decide) rfl rfl
        · exact skipMark_agrees (t := .openBracket) hfront (hbehind _)
            ((hhead (by decide)).mp hnext) (by decide) rfl rfl
      rw [if_neg hopen]
      by_cases hclose : 0 < opened ∧ (next = some '\x7d' ∨ next = some ']')
      · rw [if_pos hclose]
        obtain ⟨hpos, hnext | hnext⟩ := hclose
        · exact skipMark_agrees (t := .closeBrace) hfront (hbehind _)
            ((hhead (by decide)).mp hnext) (by decide) rfl
            (if_neg (Nat.ne_of_gt hpos))
        · exact skipMark_agrees (t := .closeBracket) hfront (hbehind _)
            ((hhead (by decide)).mp hnext) (by decide) rfl
            (if_neg (Nat.ne_of_gt hpos))
      rw [if_neg hclose]
      by_cases hbetween : 0 < opened ∧ (next = some ',' ∨ next = some ':')
      · rw [if_pos hbetween]
        obtain ⟨hpos, hnext⟩ := hbetween
        have hif : opened ≠ 0 := Nat.ne_of_gt hpos
        rcases hnext with hnext | hnext
        · simpa only [if_neg hif] using
            skipMark_agrees (t := .comma) hfront (hbehind _)
              ((hhead (by decide)).mp hnext) (by decide) rfl (if_neg hif)
        · simpa only [if_neg hif] using
            skipMark_agrees (t := .colon) hfront (hbehind _)
              ((hhead (by decide)).mp hnext) (by decide) rfl (if_neg hif)
      rw [if_neg hbetween]
      refine skipScalar_agrees hfront (hbehind opened) fun t ht hscalar => ?_
      have hfirst : ∀ {c : Char}, c.toNat < 128 → t.first = c → next = some c :=
        fun hc heq => (hhead hc).mpr (heq ▸ ht)
      apply openAfter_eq_none hscalar
      · constructor
        · exact fun heq => hopen (.inl (hfirst (by decide) heq))
        · exact fun heq => hopen (.inr (hfirst (by decide) heq))
      · rintro ⟨hpos, heq⟩
        exact hclose ⟨hpos, heq.imp (hfirst (by decide)) (hfirst (by decide))⟩
      · rintro ⟨hpos, heq⟩
        exact hbetween ⟨hpos, heq.imp (hfirst (by decide)) (hfirst (by decide))⟩

/-! ## Finding the tag -/

/-- A run from a place ends as the look-ahead does.  It gives the value of the tag
and the place where that stands, and may stop anywhere. -/
inductive Finds (text : String) (m : Reader (String × Nat)) (s : Source) :
    Except Failure (String × Nat) → Prop
  | ok {value : String} {start : Nat} {s' : Source} :
      Gives text m s (.ok ((value, start), s')) → Boundary text start →
        Finds text m s (.ok (value, start))
  | error {e : Failure} :
      Gives text m s (.error e) → Finds text m s (.error e)

section

variable {α : Type} {m : Reader (String × Nat)} {s' : Source}
    {r : Except Failure (String × Nat)}

theorem Finds.behind {m : Reader α} {f : α → Reader (String × Nat)} {a : α}
    (hm : Gives text m s (.ok (a, s'))) (h : Finds text (f a) s' r) :
    Finds text (m >>= f) s r := by
  cases h with
  | ok hf hstart => exact .ok (hm.bind hf) hstart
  | error hf => exact .error (hm.bind hf)

theorem Agrees.finds {m : Reader α} {f : α → Reader (String × Nat)} {c : Cursor}
    {r : Except Failure (Taken α c)}
    {k : Taken α c → Except Failure (String × Nat)} (h : Agrees text m s r)
    (hk : ∀ t s', t.rest = .ofSource s' → Place text s' →
      Finds text (f t.value) s' (k t)) : Finds text (m >>= f) s (r >>= k) := by
  cases h with
  | ok hm hrest => exact (hk _ _ hrest hm.place).behind hm
  | error hm => exact .error hm.bind_error

theorem Finds.get {g : Nat → Reader (String × Nat)}
    (h : Finds text (g s.pos) s r) : Finds text (MonadState.get >>= g) s r := by
  cases h with
  | ok hg hstart => exact .ok hg.get hstart
  | error hg => exact .error hg.get

theorem Finds.of_run_eq (h : Finds text m s' r) (hrun : m s.pos = m s'.pos) :
    Finds text m s r := by
  cases h with
  | ok hm hstart => exact .ok (hm.of_run_eq hrun) hstart
  | error hm => exact .error (hm.of_run_eq hrun)

end

theorem tagValue_of_other (h : s.front.chars.head? ≠ some '"') :
    Parsing.tagValue (.ofSource s) = .error ⟨.tagNotString, s.front.pos⟩ := by
  unfold Parsing.tagValue
  split
  next htake => exact absurd (head?_of_take? htake) h
  next =>
    unfold Cursor.ofSource
    rw [Stream.start_ofSource]
    cases hread : Lexeme.read s.front with
    | finish => rw [ofSource_of_finish hread]
    | token => rw [Stream.ofSource_of_read hread]
    | stuck =>
        rw [ofSource_of_stuck hread]
        split
        next heq =>
          cases heq
          exact absurd (head?_of_stuck hread) h
        next => rfl

theorem tagValue_finds (hs : Place text s.front) :
    Finds text (tagValue text) s.front (Parsing.tagValue (.ofSource s)) := by
  obtain ⟨next, hshows, hpeek⟩ := exists_peek hs
  have hquote : next = some '"' ↔ s.front.chars.head? = some '"' :=
    hshows.eq_some_iff (by decide)
  cases nextString hs with
  | @read v s' h hhead htake hgives =>
      have htag : Parsing.tagValue (.ofSource s) = .ok (v, s.front.pos) := by
        unfold Parsing.tagValue
        rw [htake, ← Stream.start_ofSource]
        rfl
      rw [htag]
      refine .get (.behind hpeek ?_)
      rw [if_pos (hquote.mpr hhead)]
      exact .ok (hgives.bind (.pure hgives.place _)) hs.boundary
  | @stuck fault pos hhead hread hgives =>
      have htag : Parsing.tagValue (.ofSource s) = .error ⟨.token fault, pos⟩ := by
        have hnone : (Cursor.ofSource s).take? = none :=
          take?_eq_none fun t s' => by simp [hread]
        unfold Parsing.tagValue
        rw [hnone]
        unfold Cursor.ofSource
        rw [ofSource_of_stuck hread]
        rfl
      rw [htag]
      refine .get (.behind hpeek ?_)
      rw [if_pos (hquote.mpr hhead)]
      exact .error hgives.bind_error
  | other hhead =>
      rw [tagValue_of_other hhead]
      refine .get (.behind hpeek ?_)
      rw [if_neg fun heq => hhead (hquote.mp heq)]
      exact .error (.throw hs.boundary _)

/-- What the look-ahead does behind the value of a member that it skipped. -/
def findBehind (tag : String) (c : Cursor) : Except Failure (String × Nat) :=
  match c.take? with
  | some ⟨.comma, next, _⟩ => Parsing.findTag tag next
  | some ⟨.closeBrace, _, _⟩ => .error ⟨.missingTag tag, c.stream.start⟩
  | _ => .error (.unexpected .commaOrBrace c)

theorem findTag_eq (tag : String) (c : Cursor) :
    Parsing.findTag tag c =
      scanString .key c >>= fun key =>
        scanToken .colon .colon key.rest >>= fun colon =>
          if key.value = tag then Parsing.tagValue colon.rest
          else Parsing.skipValue 0 colon.rest >>= fun skipped =>
            findBehind tag skipped.rest := by
  rw [Parsing.findTag]
  split
  next key afterKey hkey htake =>
    rw [scanString_of_str htake]
    dsimp only [bind, Except.bind, scanToken]
    cases afterKey.accept? .colon with
    | none => rfl
    | some colon =>
        dsimp only
        by_cases htag : key = tag
        · rw [if_pos htag, if_pos htag]
        · rw [if_neg htag, if_neg htag]
          cases Parsing.skipValue 0 colon.rest with
          | error e => rfl
          | ok skipped =>
              dsimp only [findBehind]
              cases skipped.rest.take? with
              | none => rfl
              | some taken =>
                  obtain ⟨t, next, hnext⟩ := taken
                  cases t <;> rfl
  next hother =>
    rw [scanString_of_other hother]
    rfl

theorem findBehind_finds (tag : String) (hs : Place text s)
    (hmore : ∀ s', Place text s' →
      (Cursor.ofSource s').size < (Cursor.ofSource s).size →
        Finds text (findTag text tag) s' (Parsing.findTag tag (.ofSource s'))) :
    Finds text (do
        skipBlanks text
        if ← eat text ',' then findTag text tag
        else if (← peek text) = some '\x7d' then
          throw ⟨.missingTag tag, ← get⟩
        else unexpected text .commaOrBrace) s
      (findBehind tag (.ofSource s)) := by
  have hfront := hs.front
  unfold findBehind
  refine .behind (skipBlanks_gives hs) ?_
  by_cases hcomma : s.front.chars.head? = some ','
  · obtain ⟨rest, hchars⟩ := List.head?_eq_some_iff.mp hcomma
    obtain ⟨hless, htake⟩ := take?_of_mark? (t := .comma) rfl hchars
    have hfound := eat_found hfront hchars (by decide)
    rw [htake]
    exact .behind hfound (hmore _ hfound.place hless)
  · refine .behind (eat_missing hfront hcomma (by decide)) ?_
    obtain ⟨next, hshows, hpeek⟩ := exists_peek hfront
    have hbrace : next = some '\x7d' ↔ s.front.chars.head? = some '\x7d' :=
      hshows.eq_some_iff (by decide)
    refine .behind hpeek ?_
    by_cases hclose : s.front.chars.head? = some '\x7d'
    · obtain ⟨rest, hchars⟩ := List.head?_eq_some_iff.mp hclose
      obtain ⟨hless, htake⟩ := take?_of_mark? (t := .closeBrace) rfl hchars
      rw [htake, if_pos (hbrace.mpr hclose)]
      dsimp only
      rw [Cursor.ofSource, Stream.start_ofSource]
      exact .get (.error (.throw hfront.boundary _))
    · rw [if_neg fun heq => hclose (hbrace.mp heq)]
      split
      next htake => exact absurd (head?_of_take? htake) hcomma
      next htake => exact absurd (head?_of_take? htake) hclose
      next =>
        rw [unexpected_ofSource]
        exact .error (unexpected_gives hfront .commaOrBrace)

theorem findTag_finds (tag : String) (hs : Place text s) :
    Finds text (findTag text tag) s (Parsing.findTag tag (.ofSource s)) := by
  induction hsize : (Cursor.ofSource s).size using Nat.strongRecOn
      generalizing s with
  | ind n ih =>
      rw [findTag, findTag_eq]
      refine .behind (skipBlanks_gives hs) ?_
      refine (stringAs_agrees hs.front .key).finds ?_
      rintro ⟨key, _, hkey⟩ s₁ rfl hs₁
      refine (colon_implements s₁ hs₁).finds ?_
      rintro ⟨_, _, hcolon⟩ s₂ rfl hs₂
      refine .behind (skipBlanks_gives hs₂) ?_
      dsimp only
      by_cases htag : key = tag
      · rw [if_pos htag, if_pos htag]
        exact tagValue_finds hs₂.front
      · rw [if_neg htag, if_neg htag]
        have hskip : Agrees text (skipValue text 0) s₂.front _ :=
          (skipValue_implements 0 s₂ hs₂).of_run_eq
            (by rw [skipValue]; exact skipBlanks_again hs₂)
        refine hskip.finds ?_
        rintro ⟨_, _, hskipped⟩ s₃ rfl hs₃
        -- the name, the colon and the value have taken tokens away already
        refine findBehind_finds tag hs₃ fun s' hs' hless => ?_
        have hsmaller := hless.trans (hskipped.trans (hcolon.trans hkey))
        exact ih _ (hsize ▸ hsmaller) hs' rfl

theorem lookAhead_finds (tag : String) (hs : Place text s) :
    Finds text (do
        skipBlanks text
        if (← peek text) = some '\x7d' then throw ⟨.missingTag tag, ← get⟩
        else findTag text tag) s (Parsing.lookAhead tag (.ofSource s)) := by
  have hfront := hs.front
  unfold Parsing.lookAhead
  obtain ⟨next, hshows, hpeek⟩ := exists_peek hfront
  have hbrace : next = some '\x7d' ↔ s.front.chars.head? = some '\x7d' :=
    hshows.eq_some_iff (by decide)
  refine .behind (skipBlanks_gives hs) (.behind hpeek ?_)
  by_cases hclose : s.front.chars.head? = some '\x7d'
  · obtain ⟨rest, hchars⟩ := List.head?_eq_some_iff.mp hclose
    obtain ⟨hless, htake⟩ := take?_of_mark? (t := .closeBrace) rfl hchars
    rw [htake, if_pos (hbrace.mpr hclose)]
    dsimp only
    rw [Cursor.ofSource, Stream.start_ofSource]
    exact .get (.error (.throw hfront.boundary _))
  · rw [if_neg fun heq => hclose (hbrace.mp heq)]
    split
    next htake => exact absurd (head?_of_take? htake) hclose
    next =>
      exact (findTag_finds tag hs).of_run_eq
        (by rw [findTag]; exact skipBlanks_again hs)

end Bytewise
end JsonTypedef
