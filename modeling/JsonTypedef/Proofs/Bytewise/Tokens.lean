import JsonTypedef.Proofs.Bytewise.Numbers
import JsonTypedef.Proofs.Bytewise.Strings
import JsonTypedef.Proofs.Json.Front

/-!
# Tokens byte by byte

Strings, numbers and words are read byte by byte to the tokens that stand at the
front of a source, and with the same faults.  The next byte decides which of them
is read, and whether the next token is the one that is expected.
-/

namespace JsonTypedef
namespace Bytewise

open Parsing
open Source (Spans OneByte)
open JsonTypedef.Stream (ofSource_of_finish ofSource_of_stuck first?_ofSource)
open Lexeme (head?_of_token head?_of_stuck)
open Cursor (accept?_of_take?)

variable {text : String} {α : Type}

/-! ## Lexemes at a cursor -/

section

variable {s s' : Source} {t : Token}

theorem take?_of_read (h : Lexeme.read s.front = .token t s') :
    ∃ hshorter, (Cursor.ofSource s).take? =
      some ⟨t, Cursor.ofSource s', hshorter⟩ :=
  (Cursor.at_ofSource s).give h

theorem take?_eq_none (h : ∀ t s', Lexeme.read s.front ≠ .token t s') :
    (Cursor.ofSource s).take? = none :=
  (Cursor.at_ofSource s).take?_eq_none h

end

/-! ## Readers of tokens -/

/-- A run reads what the lexeme holds: a token, or the fault of one that is
stuck. -/
inductive Lexes (text : String) (m : Reader α) (token : α → Token) (s : Source) :
    Lexeme → Prop
  | token {a : α} {s' : Source} :
      Gives text m s (.ok (a, s')) → Lexes text m token s (.token (token a) s')
  | stuck {first : Char} {fault : Token.Fault} {pos : Nat} :
      s.chars.head? = some first →
        Gives text m s (.error ⟨.token fault, pos⟩) →
          Lexes text m token s (.stuck first (some (fault, pos)))

theorem string_lexes {s : Source} (hs : Place text s)
    (hhead : s.chars.head? = some '"') :
    Lexes text (string text) .str s (Lexeme.read s) := by
  obtain ⟨pos, cs⟩ := s
  obtain ⟨rest, rfl⟩ := List.head?_eq_some_iff.mp hhead
  have hplace : Place text ⟨pos + 1, rest⟩ := hs.ascii rfl (by decide)
  have hread : Lexeme.read ⟨pos, '"' :: rest⟩ = Lexeme.readString pos rest := rfl
  have hquote : Gives text (expect text '"' .string) ⟨pos, '"' :: rest⟩
      (.ok ((), ⟨pos + 1, rest⟩)) :=
    (eat_found hs rfl (by decide)).bind (.pure hplace ())
  have hrun : Gives text (string text) ⟨pos, '"' :: rest⟩ _ :=
    hquote.bind (.get (stringFrom_gives hplace (.refl _) ""))
  rw [hread]
  unfold Lexeme.readString
  cases hquoted : Quoted.read (pos + 1) rest with
  | error e =>
      rw [hquoted] at hrun
      exact .stuck rfl hrun
  | ok r =>
      rw [hquoted] at hrun
      refine .token ?_
      simpa [located, Except.map] using hrun

theorem literal_lexes {s : Source} (hs : Place text s) {first : Char}
    {word : String} {t : Token} (hhead : s.chars.head? = some first)
    (hread : ∀ pos rest, Lexeme.read ⟨pos, first :: rest⟩ =
      Lexeme.readWord first word t ⟨pos, first :: rest⟩)
    (hword : OneByte word.toList) :
    Lexes text (literal text word) (fun _ => t) s (Lexeme.read s) := by
  obtain ⟨pos, cs⟩ := s
  obtain ⟨rest, rfl⟩ := List.head?_eq_some_iff.mp hhead
  rw [hread]
  unfold Lexeme.readWord literal
  dsimp only
  by_cases hprefix : word.toList.isPrefixOf (first :: rest) = true
  · obtain ⟨tail, htail⟩ := List.isPrefixOf_iff_prefix.mp hprefix
    have hsize : word.utf8ByteSize = String.utf8Len word.toList := by
      rw [← String.utf8ByteSize_ofList, String.ofList_toList]
    have hspans : Spans word.toList ⟨pos, first :: rest⟩
        ⟨pos + word.length, tail⟩ := by
      refine ⟨htail.symm, ?_⟩
      rw [Source.utf8Len_of_oneByte hword, String.length_toList]
    have hdrop : (first :: rest).drop word.length = tail := by
      rw [← htail, ← String.length_toList, List.drop_left]
    rw [if_pos hprefix, hdrop]
    refine .token (a := ()) ((remaining_gives hs).bind ?_)
    rw [String.toList_ofList, if_pos hprefix]
    exact .advance hs hspans hsize
  · rw [if_neg hprefix]
    refine .stuck rfl ((remaining_gives hs).bind ?_)
    rw [String.toList_ofList, if_neg hprefix]
    exact .get (.throw hs.boundary _)

theorem number_lexes {s : Source} (hs : Place text s) {first : Char}
    (hhead : s.chars.head? = some first)
    (hlead : first = '-' ∨ Numeral.isDigit first = true) :
    Lexes text (number text) (.num first) s (Lexeme.read s) := by
  have hrun := number_gives hs
  obtain ⟨pos, cs⟩ := s
  obtain ⟨rest, rfl⟩ := List.head?_eq_some_iff.mp hhead
  unfold numberResult at hrun
  rw [Grammar.read_lead hlead]
  unfold Lexeme.readNumber
  cases hread : Numeral.read (first :: rest) with
  | missing gap rest =>
      rw [hread] at hrun
      exact .stuck hhead hrun
  | numeral n rest =>
      simp only [hread] at hrun ⊢
      cases hvalue : n.value with
      | error fault =>
          rw [hvalue] at hrun
          exact .stuck hhead hrun
      | ok number =>
          rw [hvalue] at hrun
          exact .token hrun

/-! ## The next token by its first character -/

section

variable {s s' : Source} {c : Char} {t : Token}

theorem first_of_mark? (h : Lexeme.mark? c = some t) : t.first = c := by
  cases Grammar.lexical_of_mark? h [] <;> rfl

theorem read_of_mark? (hmark : Lexeme.mark? c = some t) (pos : Nat)
    (rest : List Char) :
    Lexeme.read ⟨pos, c :: rest⟩ = .token t ⟨pos + 1, rest⟩ := by
  simp only [Lexeme.read, hmark]

theorem head?_of_take? {taken : Taken Token (.ofSource s)}
    (h : (Cursor.ofSource s).take? = some taken) :
    s.front.chars.head? = some taken.value.first := by
  cases hread : Lexeme.read s.front with
  | token t s' =>
      obtain ⟨hshorter, htake⟩ := take?_of_read hread
      cases h.symm.trans htake
      exact head?_of_token hread
  | finish =>
      rw [take?_eq_none fun t s' => by simp [hread]] at h
      cases h
  | stuck =>
      rw [take?_eq_none fun t s' => by simp [hread]] at h
      cases h

theorem take?_of_mark? (hmark : Lexeme.mark? c = some t) {rest : List Char}
    (h : s.front.chars = c :: rest) :
    ∃ hshorter, (Cursor.ofSource s).take? =
      some ⟨t, .ofSource ⟨s.front.pos + 1, rest⟩, hshorter⟩ := by
  apply take?_of_read
  rw [← read_of_mark? hmark, ← h]

theorem accept?_of_mark? (hmark : Lexeme.mark? c = some t) {rest : List Char}
    (h : s.front.chars = c :: rest) :
    ∃ hshorter, (Cursor.ofSource s).accept? t =
      some ⟨(), .ofSource ⟨s.front.pos + 1, rest⟩, hshorter⟩ := by
  obtain ⟨hshorter, htake⟩ := take?_of_mark? hmark h
  exact ⟨hshorter, accept?_of_take? htake⟩

theorem accept?_eq_none (h : s.front.chars.head? ≠ some t.first) :
    (Cursor.ofSource s).accept? t = none := by
  unfold Cursor.accept?
  split
  next u rest hshorter htake =>
    rw [if_neg]
    rintro rfl
    exact h (head?_of_take? htake)
  next => rfl

end

/-! ## Failures at a cursor -/

section

variable {s : Source}

theorem unexpected_ofSource (what : Expected) (s : Source) :
    Failure.unexpected what (.ofSource s) =
      ⟨.unexpected what s.front.chars.head?, s.front.pos⟩ := by
  unfold Failure.unexpected
  rw [Cursor.ofSource, first?_ofSource, Stream.start_ofSource]

/-- A token that is stuck reports its fault where it could have been read. -/
theorem stuck_of_read {first : Char} {fault : Token.Fault} {pos : Nat}
    (h : Lexeme.read s.front = .stuck first (some (fault, pos)))
    {admits : Char → Bool} (hadmits : admits first = true) (what : Expected) :
    Failure.stuck admits what (.ofSource s) = ⟨.token fault, pos⟩ := by
  unfold Failure.stuck Cursor.ofSource
  rw [ofSource_of_stuck h]
  exact if_pos hadmits

/-- Anything else is unexpected. -/
theorem stuck_of_no_fault {admits : Char → Bool}
    (h : ∀ first fault, Lexeme.read s.front = .stuck first (some fault) →
      admits first = false) (what : Expected) :
    Failure.stuck admits what (.ofSource s) = .unexpected what (.ofSource s) := by
  unfold Failure.stuck Cursor.ofSource
  cases hread : Lexeme.read s.front with
  | finish => rw [ofSource_of_finish hread]
  | token => rw [Stream.ofSource_of_read hread]
  | stuck first fault =>
      rw [ofSource_of_stuck hread]
      cases fault with
      | none => rfl
      | some fault =>
          dsimp only
          rw [h first fault hread]
          rfl

/-- Only a character that is admitted is reported as that of a token. -/
theorem stuck_of_head? {admits : Char → Bool}
    (h : ∀ c ∈ s.front.chars.head?, admits c = false) (what : Expected) :
    Failure.stuck admits what (.ofSource s) = .unexpected what (.ofSource s) :=
  stuck_of_no_fault (fun _ _ hread => h _ (head?_of_stuck hread)) what

end

/-! ## Strings and scalars that are expected -/

/-- The next token as a reader of strings meets it. -/
inductive NextString (text : String) (s : Source) : Prop
  | read {v : String} {s' : Source} (h : _) :
      s.front.chars.head? = some '"' →
        (Cursor.ofSource s).take? = some ⟨.str v, .ofSource s', h⟩ →
          Gives text (string text) s.front (.ok (v, s')) → NextString text s
  | stuck {fault : Token.Fault} {pos : Nat} :
      s.front.chars.head? = some '"' →
        Lexeme.read s.front = .stuck '"' (some (fault, pos)) →
          Gives text (string text) s.front (.error ⟨.token fault, pos⟩) →
            NextString text s
  | other : s.front.chars.head? ≠ some '"' → NextString text s

theorem nextString {s : Source} (hs : Place text s.front) :
    NextString text s := by
  by_cases hhead : s.front.chars.head? = some '"'
  · have hlexes := string_lexes hs hhead
    cases hread : Lexeme.read s.front with
    | finish =>
        rw [hread] at hlexes
        cases hlexes
    | stuck =>
        rw [hread] at hlexes
        cases hlexes with
        | stuck hfirst hgives =>
            cases hhead.symm.trans hfirst
            exact .stuck hhead hread hgives
    | token =>
        rw [hread] at hlexes
        cases hlexes with
        | token hgives =>
            obtain ⟨h, htake⟩ := take?_of_read hread
            exact .read h hhead htake hgives
  · exact .other hhead

theorem stringAs_of_head? {s : Source} (hs : Place text s)
    (h : s.chars.head? = some '"') (what : Expected) {r : _}
    (hgives : Gives text (string text) s r) :
    Gives text (stringAs text what) s r := by
  obtain ⟨rest, hrest⟩ := List.head?_eq_some_iff.mp h
  refine (peek_ascii hs hrest (by decide)).bind ?_
  rw [if_pos rfl]
  exact hgives

theorem stuck_quote_of_head? {s : Source} (h : s.front.chars.head? ≠ some '"')
    (what : Expected) :
    Failure.stuck isQuote what (.ofSource s) = .unexpected what (.ofSource s) := by
  refine stuck_of_head? (fun c hc => ?_) what
  exact decide_eq_false fun heq => h (heq ▸ hc)

theorem stringAs_missing {s : Source} (hs : Place text s.front)
    (h : s.front.chars.head? ≠ some '"') (what : Expected) :
    Gives text (stringAs text what) s.front
      (.error (.stuck isQuote what (.ofSource s))) := by
  obtain ⟨next, hshows, hpeek⟩ := exists_peek hs
  rw [stuck_quote_of_head? h, unexpected_ofSource]
  refine hpeek.bind ?_
  rw [if_neg fun heq => h ((hshows.eq_some_iff (by decide)).mp heq)]
  exact unexpected_gives hs what

/-- The value that a token makes up on its own, null only where it is admitted. -/
def scalarOf? (null : Bool) : Token → Option Value
  | .null => if null then some .null else none
  | .bool b => some (.bool b)
  | .str v => some (.str v)
  | .num _ n => some (.num n)
  | _ => none

/-- The character opens a value, null only where it is admitted. -/
def admitsScalar (null : Bool) (first : Char) : Bool :=
  null || first ≠ 'n'

/-- What a run reports for a value read at a source that is no container. -/
def scalarResult (null : Bool) (what : Expected) (s : Source) :
    Except Failure (Value × Source) :=
  match Lexeme.read s with
  | .token t s' =>
    match scalarOf? null t with
    | some v => .ok (v, s')
    | none => .error ⟨.unexpected what s.chars.head?, s.pos⟩
  | .stuck first (some (fault, pos)) =>
    if admitsScalar null first then .error ⟨.token fault, pos⟩
    else .error ⟨.unexpected what s.chars.head?, s.pos⟩
  | _ => .error ⟨.unexpected what s.chars.head?, s.pos⟩

section

variable {s : Source} {null : Bool}

theorem Lexes.scalar {m : Reader α} {token : α → Token} {value : α → Value}
    (h : Lexes text m token s (Lexeme.read s))
    (hvalue : ∀ a, scalarOf? null (token a) = some (value a))
    (hadmits : null = true ∨ s.chars.head? ≠ some 'n') (what : Expected) :
    Gives text (do return value (← m)) s (scalarResult null what s) := by
  unfold scalarResult
  cases hread : Lexeme.read s with
  | finish =>
      rw [hread] at h
      cases h
  | stuck first =>
      rw [hread] at h
      cases h with
      | stuck hhead hgives =>
          have hif : admitsScalar null first = true := by
            rcases hadmits with rfl | hne
            · rfl
            · have hfirst : first ≠ 'n' := fun heq => hne (heq ▸ hhead)
              simp [admitsScalar, hfirst]
          dsimp only
          rw [if_pos hif]
          exact hgives.bind_error
  | token =>
      rw [hread] at h
      cases h with
      | token hgives =>
          simp only [hvalue]
          exact hgives.bind (.pure hgives.place _)

/-- The first character is that of a value that is no container. -/
def OpensScalar (c : Char) : Prop :=
  c = '"' ∨ c = 't' ∨ c = 'f' ∨ c = 'n' ∨ c = '-' ∨ Numeral.isDigit c = true

theorem toNat_of_opensScalar {c : Char} (h : OpensScalar c) :
    c.toNat < 128 := by
  rcases h with rfl | rfl | rfl | rfl | rfl | hdigit
  · decide
  · decide
  · decide
  · decide
  · decide
  · exact toNat_of_isDigit hdigit

theorem scalarOf?_of_mark? {c : Char} {t : Token}
    (h : Lexeme.mark? c = some t) : scalarOf? null t = none := by
  unfold Lexeme.mark? at h
  split at h
  next => cases h; rfl
  split at h
  next => cases h; rfl
  split at h
  next => cases h; rfl
  split at h
  next => cases h; rfl
  split at h
  next => cases h; rfl
  split at h
  next => cases h; rfl
  next => cases h

theorem scalarResult_of_other (what : Expected)
    (h : ∀ c ∈ s.chars.head?, ¬ OpensScalar c) :
    scalarResult null what s =
      .error ⟨.unexpected what s.chars.head?, s.pos⟩ := by
  obtain ⟨pos, cs⟩ := s
  cases cs with
  | nil => rfl
  | cons c rest =>
      have hc := h c rfl
      simp only [OpensScalar, not_or] at hc
      obtain ⟨hquote, ht, hf, hn, hminus, hdigit⟩ := hc
      unfold scalarResult
      cases hmark : Lexeme.mark? c with
      | some t =>
          rw [read_of_mark? hmark]
          simp only [scalarOf?_of_mark? hmark]
      | none =>
          have hread : Lexeme.read ⟨pos, c :: rest⟩ = .stuck c none := by
            simp only [Lexeme.read, hmark, if_neg hquote, if_neg ht, if_neg hf,
              if_neg hn, if_neg (not_or.mpr ⟨hminus, hdigit⟩)]
          rw [hread]

/-- Null is unexpected where it is not admitted, and so is what starts like it. -/
theorem scalarResult_of_null (what : Expected)
    (h : s.chars.head? = some 'n') :
    scalarResult false what s =
      .error ⟨.unexpected what s.chars.head?, s.pos⟩ := by
  obtain ⟨pos, cs⟩ := s
  obtain ⟨rest, rfl⟩ := List.head?_eq_some_iff.mp h
  have hread : Lexeme.read ⟨pos, 'n' :: rest⟩ =
      Lexeme.readWord 'n' "null" .null ⟨pos, 'n' :: rest⟩ := rfl
  unfold scalarResult
  rw [hread]
  unfold Lexeme.readWord
  by_cases hprefix : "null".toList.isPrefixOf ('n' :: rest) = true
  · rw [if_pos hprefix]
    rfl
  · rw [if_neg hprefix]
    rfl

theorem word_gives (hs : Place text s) {first : Char} {word : String} {t : Token}
    {v : Value} (hhead : s.chars.head? = some first)
    (hread : ∀ pos rest, Lexeme.read ⟨pos, first :: rest⟩ =
      Lexeme.readWord first word t ⟨pos, first :: rest⟩)
    (hword : OneByte word.toList) (hvalue : scalarOf? null t = some v)
    (hadmits : null = true ∨ first ≠ 'n') (what : Expected) :
    Gives text (do literal text word; return v) s (scalarResult null what s) := by
  have hlexes := literal_lexes hs hhead hread hword
  refine hlexes.scalar (fun _ => hvalue) (hadmits.imp_right ?_) what
  rw [hhead]
  exact fun hne heq => hne (Option.some.inj heq)

theorem scalar_gives (hs : Place text s) (what : Expected) :
    Gives text (scalar text null what) s (scalarResult null what s) := by
  obtain ⟨next, hshows, hpeek⟩ := exists_peek hs
  have hhead : ∀ c, next = some c → c.toNat < 128 → s.chars.head? = some c :=
    fun c heq hc => (hshows.eq_some_iff hc).mp heq
  have hnext : ∀ c ∈ s.chars.head?, OpensScalar c → next = some c :=
    fun c heq hc => (hshows.eq_some_iff (toNat_of_opensScalar hc)).mpr heq
  unfold scalar
  refine hpeek.bind ?_
  split
  next =>
    have hquote := hhead '"' rfl (by decide)
    exact (string_lexes hs hquote).scalar (fun _ => rfl) (by simp [hquote]) what
  next =>
    exact word_gives hs (hhead 't' rfl (by decide)) (fun _ _ => rfl) (by decide)
      rfl (.inr (by decide)) what
  next =>
    exact word_gives hs (hhead 'f' rfl (by decide)) (fun _ _ => rfl) (by decide)
      rfl (.inr (by decide)) what
  next =>
    have hn := hhead 'n' rfl (by decide)
    by_cases hnull : null = true
    · subst hnull
      exact word_gives hs hn (fun _ _ => rfl) (by decide) rfl (.inl rfl) what
    · rw [if_neg hnull, Bool.eq_false_of_not_eq_true hnull,
        scalarResult_of_null what hn]
      exact unexpected_gives hs what
  next c hquote ht hf hn =>
    by_cases hlead : c = '-' ∨ Numeral.isDigit c = true
    · have hopens : OpensScalar c := .inr (.inr (.inr (.inr hlead)))
      have hc := hhead c rfl (toNat_of_opensScalar hopens)
      rw [if_pos hlead]
      refine (number_lexes hs hc hlead).scalar (fun _ => rfl) (Or.inr ?_) what
      rw [hc]
      exact fun heq => hn (Option.some.inj heq)
    · rw [if_neg hlead, scalarResult_of_other what]
      · exact unexpected_gives hs what
      · intro d hd hopens
        cases hnext d hd hopens
        rcases hopens with h | h | h | h | h
        · exact hquote h
        · exact ht h
        · exact hf h
        · exact hn h
        · exact hlead h
  next =>
    rw [scalarResult_of_other what]
    · exact unexpected_gives hs what
    · intro d hd hopens
      cases hnext d hd hopens

end

end Bytewise
end JsonTypedef
