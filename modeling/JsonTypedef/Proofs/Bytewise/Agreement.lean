import JsonTypedef.Proofs.Bytewise.Parser
import JsonTypedef.Proofs.Bytewise.Tokens

/-!
# Readers and scanners

A reader of bytes agrees with a scanner of tokens where both give the same value
and stop at the same place, or report the same failure.  Readers agree part by
part, down to the readers of tokens.
-/

namespace JsonTypedef
namespace Bytewise

open Parsing
open Source (front_front)
open Cursor (skipBlanks_ofSource)

variable {text : String} {α β : Type}

/-- A run from a place ends as the scanner does. -/
inductive Agrees (text : String) (m : Reader α) (s : Source) {c : Cursor} :
    Except Failure (Taken α c) → Prop
  | ok {t : Taken α c} {s' : Source} :
      Gives text m s (.ok (t.value, s')) → t.rest = .ofSource s' →
        Agrees text m s (.ok t)
  | error {e : Failure} :
      Gives text m s (.error e) → Agrees text m s (.error e)

/-- The reader and the scanner agree at every place of the text. -/
def Implements (text : String) (m : Reader α) (scan : Scanner Failure α) : Prop :=
  ∀ s : Source, Place text s → Agrees text m s (scan (.ofSource s))

/-- The reader and the scanner agree at every place that no blank follows. -/
def ImplementsFront (text : String) (m : Reader α) (scan : Scanner Failure α) :
    Prop :=
  ∀ s : Source, s.front = s → Place text s → Agrees text m s (scan (.ofSource s))

/-! ## Rules -/

section

variable {m : Reader α} {s s' : Source} {c d : Cursor}

theorem Agrees.behind {f : α → Reader β} {a : α}
    {r : Except Failure (Taken β c)} (hm : Gives text m s (.ok (a, s')))
    (h : Agrees text (f a) s' r) : Agrees text (m >>= f) s r := by
  cases h with
  | ok hf hrest => exact .ok (hm.bind hf) hrest
  | error hf => exact .error (hm.bind hf)

/-- Runs one after the other agree with scans one after the other. -/
theorem Agrees.bind {f : α → Reader β} {r : Except Failure (Taken α c)}
    {k : Taken α c → Except Failure (Taken β d)} (h : Agrees text m s r)
    (hk : ∀ t s', t.rest = .ofSource s' → Place text s' →
      Agrees text (f t.value) s' (k t)) : Agrees text (m >>= f) s (r >>= k) := by
  cases h with
  | ok hm hrest => exact (hk _ _ hrest hm.place).behind hm
  | error hm => exact .error hm.bind_error

theorem Agrees.get {g : Nat → Reader α} {r : Except Failure (Taken α c)}
    (h : Agrees text (g s.pos) s r) :
    Agrees text (MonadState.get >>= g) s r := by
  cases h with
  | ok hg hrest => exact .ok hg.get hrest
  | error hg => exact .error hg.get

/-- An entry that is there is looked up without a panic. -/
theorem Agrees.lift {γ : Type} {f : γ → Reader α} {a : γ} {o : Option γ}
    {r : Except Failure (Taken α c)} (ho : o = some a)
    (h : Agrees text (f a) s r) :
    Agrees text ((liftM o : Reader γ) >>= f) s r := by
  cases h with
  | ok hf hrest => exact .ok (.lift ho hf) hrest
  | error hf => exact .error (.lift ho hf)

theorem Agrees.of_run_eq {r : Except Failure (Taken α c)}
    (h : Agrees text m s' r) (hrun : m s.pos = m s'.pos) :
    Agrees text m s r := by
  cases h with
  | ok hm hrest => exact .ok (hm.of_run_eq hrun) hrest
  | error hm => exact .error (hm.of_run_eq hrun)

/-- The value is changed by the reader as by the scanner. -/
theorem Agrees.map {r : Except Failure (Taken α c)} (h : Agrees text m s r)
    {value : α → β} {f : Taken α c → Taken β d}
    (hf : ∀ t, (f t).value = value t.value ∧ (f t).rest = t.rest) :
    Agrees text (do return value (← m)) s (r.map f) := by
  cases h with
  | @ok t s' hm hrest =>
      obtain ⟨hvalue, hrest'⟩ := hf t
      refine .ok (t := f t) ?_ (hrest'.trans hrest)
      rw [hvalue]
      exact hm.bind (.pure hm.place _)
  | error hm => exact .error hm.bind_error

/-- Only the cursor changes that the value is read behind. -/
theorem Agrees.after {r : Except Failure (Taken α c)} (h : Agrees text m s r)
    {f : Taken α c → Taken α d}
    (hf : ∀ t, (f t).value = t.value ∧ (f t).rest = t.rest) :
    Agrees text m s (r.map f) := by
  cases h with
  | @ok t s' hm hrest =>
      obtain ⟨hvalue, hrest'⟩ := hf t
      refine .ok (t := f t) ?_ (hrest'.trans hrest)
      rwa [hvalue]
  | error hm => exact .error hm

end

/-! ## Single tokens -/

section

variable {s : Source} {c : Char} {rest : List Char} {what : Expected}

theorem Place.front (hs : Place text s) : Place text s.front :=
  hs.passes (Source.passes_front s)

/-- Blanks that are skipped need not be skipped before. -/
theorem skipBlanks_again (hs : Place text s) {f : Unit → Reader α} :
    (skipBlanks text >>= f) s.front.pos = (skipBlanks text >>= f) s.pos := by
  have hagain := skipBlanks_gives hs.front
  rw [front_front] at hagain
  cases skipBlanks_gives hs with
  | ok hfirst =>
      cases hagain with
      | ok hagain => rw [bind_of_ok hfirst, bind_of_ok hagain]

theorem expect_found (hs : Place text s) (h : s.chars = c :: rest)
    (hc : c.toNat < 128) :
    Gives text (expect text c what) s (.ok ((), ⟨s.pos + 1, rest⟩)) :=
  (eat_found hs h hc).bind (.pure (hs.ascii h hc) ())

theorem expect_missing (hs : Place text s) (h : s.chars.head? ≠ some c)
    (hc : c.toNat < 128) :
    Gives text (expect text c what) s
      (.error ⟨.unexpected what s.chars.head?, s.pos⟩) :=
  (eat_missing hs h hc).bind (unexpected_gives hs what)

/-- Read the token, which is expected as `what`. -/
def scanToken (t : Token) (what : Expected) : Scanner Failure Unit := fun c =>
  match c.accept? t with
  | none => .error (.unexpected what c)
  | some taken => .ok taken

theorem expect_agrees {t : Token} (hmark : Lexeme.mark? c = some t)
    (hc : c.toNat < 128) (hs : Place text s.front) :
    Agrees text (expect text c what) s.front
      (scanToken t what (.ofSource s)) := by
  unfold scanToken
  by_cases hhead : s.front.chars.head? = some c
  · obtain ⟨rest, hchars⟩ := List.head?_eq_some_iff.mp hhead
    obtain ⟨hless, haccept⟩ := accept?_of_mark? hmark hchars
    rw [haccept]
    exact .ok (expect_found hs hchars hc) rfl
  · have hfirst : s.front.chars.head? ≠ some t.first := by
      rwa [first_of_mark? hmark]
    rw [accept?_eq_none hfirst]
    dsimp only
    rw [unexpected_ofSource]
    exact .error (expect_missing hs hhead hc)

end

/-! ## Containers -/

section

variable {s : Source} {close : Char} {rest : List Char} (what : Expected)

theorem closeOrContinue_comma (hs : Place text s)
    (h : s.front.chars = ',' :: rest) :
    Gives text (closeOrContinue text close what) s
      (.ok (none, ⟨s.front.pos + 1, rest⟩)) := by
  refine (skipBlanks_gives hs).bind ?_
  refine (eat_found hs.front h (by decide)).bind ?_
  exact .pure (hs.front.ascii h (by decide)) none

theorem closeOrContinue_close (hs : Place text s) (hclose : close.toNat < 128)
    (hcomma : close ≠ ',') (h : s.front.chars = close :: rest) :
    Gives text (closeOrContinue text close what) s
      (.ok (some s.front.pos, ⟨s.front.pos + 1, rest⟩)) := by
  have hne : s.front.chars.head? ≠ some ',' := by
    rw [h]
    exact fun heq => hcomma (Option.some.inj heq)
  refine (skipBlanks_gives hs).bind ?_
  refine (eat_missing hs.front hne (by decide)).bind (.get ?_)
  refine (expect_found hs.front h hclose).bind ?_
  exact .pure (hs.front.ascii h hclose) _

theorem closeOrContinue_missing (hs : Place text s) (hclose : close.toNat < 128)
    (hcomma : s.front.chars.head? ≠ some ',')
    (h : s.front.chars.head? ≠ some close) :
    Gives text (closeOrContinue text close what) s
      (.error (.unexpected what (.ofSource s))) := by
  rw [unexpected_ofSource]
  refine (skipBlanks_gives hs).bind ?_
  refine (eat_missing hs.front hcomma (by decide)).bind (.get ?_)
  exact (expect_missing hs.front h hclose).bind_error

/-- A run ends as the scanner does, and gives the offset of the last character
too, which is the closing bracket. -/
inductive Closes (text : String) (m : Reader (α × Nat)) (s : Source)
    {c : Cursor} : Except Failure (Taken α c) → Prop
  | ok {t : Taken α c} {s' : Source} :
      Gives text m s (.ok ((t.value, t.rest.pos - 1), s')) →
        t.rest = .ofSource s' → Boundary text (t.rest.pos - 1) →
          Closes text m s (.ok t)
  | error {e : Failure} :
      Gives text m s (.error e) → Closes text m s (.error e)

section

variable {c d : Cursor}

theorem Closes.behind {s s' : Source} {m : Reader α} {f : α → Reader (β × Nat)}
    {a : α} {r : Except Failure (Taken β c)} (hm : Gives text m s (.ok (a, s')))
    (h : Closes text (f a) s' r) : Closes text (m >>= f) s r := by
  cases h with
  | ok hf hrest hclose => exact .ok (hm.bind hf) hrest hclose
  | error hf => exact .error (hm.bind hf)

theorem Closes.bind {s : Source} {m : Reader α} {f : α → Reader (β × Nat)}
    {r : Except Failure (Taken α c)} {k : Taken α c → Except Failure (Taken β d)}
    (h : Agrees text m s r)
    (hk : ∀ t s', t.rest = .ofSource s' → Place text s' →
      Closes text (f t.value) s' (k t)) : Closes text (m >>= f) s (r >>= k) := by
  cases h with
  | ok hm hrest => exact (hk _ _ hrest hm.place).behind hm
  | error hm => exact .error hm.bind_error

/-- The value is changed by the reader as by the scanner. -/
theorem Closes.map {s : Source} {m : Reader (α × Nat)}
    {r : Except Failure (Taken α c)} (h : Closes text m s r) {value : α → β}
    {f : Taken α c → Taken β d}
    (hf : ∀ t, (f t).value = value t.value ∧ (f t).rest = t.rest) :
    Closes text (do
        let (a, offset) ← m
        return (value a, offset)) s (r.map f) := by
  cases h with
  | @ok t s' hm hrest hclose =>
      obtain ⟨hvalue, hrest'⟩ := hf t
      refine .ok (t := f t) ?_ (hrest'.trans hrest) (hrest' ▸ hclose)
      rw [hvalue, hrest']
      exact hm.bind (.pure hm.place _)
  | error hm => exact .error hm.bind_error

/-- Only the cursor changes that the value is read behind. -/
theorem Closes.after {s : Source} {m : Reader (α × Nat)}
    {r : Except Failure (Taken α c)} (h : Closes text m s r)
    {f : Taken α c → Taken α d}
    (hf : ∀ t, (f t).value = t.value ∧ (f t).rest = t.rest) :
    Closes text m s (r.map f) := by
  cases h with
  | @ok t s' hm hrest hclose =>
      obtain ⟨hvalue, hrest'⟩ := hf t
      refine .ok (t := f t) ?_ (hrest'.trans hrest) (hrest' ▸ hclose)
      rwa [hvalue, hrest']
  | error hm => exact .error hm

/-- The offset is given away. -/
theorem Closes.agrees {s : Source} {m : Reader (α × Nat)}
    {r : Except Failure (Taken α c)} (h : Closes text m s r) (value : α → β)
    {f : Taken α c → Taken β d}
    (hf : ∀ t, (f t).value = value t.value ∧ (f t).rest = t.rest) :
    Agrees text (do
        let (a, _) ← m
        return value a) s (r.map f) := by
  cases h with
  | @ok t s' hm hrest hclose =>
      obtain ⟨hvalue, hrest'⟩ := hf t
      refine .ok (t := f t) ?_ (hrest'.trans hrest)
      rw [hvalue]
      exact hm.bind (.pure hm.place _)
  | error hm => exact .error hm.bind_error

end

variable {item : List α → Reader α} {scan : List α → Scanner Failure α}
    {token : Token}

/-- What a scanner of items does behind an item. -/
def scanBehind (token : Token) (what : Expected)
    (scan : List α → Scanner Failure α) (before : List α) (a : α) (c : Cursor) :
    Except Failure (Taken (List α) c) :=
  match c.take? with
  | none => .error (.unexpected what c)
  | some ⟨t, next, h⟩ =>
    if t = token then .ok ⟨[a], next, h⟩
    else if t = .comma then
      (Scanner.separated token (.unexpected what) scan (a :: before) next).map
        fun more => (more.map (a :: ·)).after h
    else .error (.unexpected what c)

theorem separated_eq (before : List α) (c : Cursor) :
    Scanner.separated token (.unexpected what) scan before c =
      scan before c >>= fun t =>
        (scanBehind token what scan before t.value t.rest).map
          (Taken.after t.shorter) := by
  rw [Scanner.separated]
  cases scan before c with
  | error e => rfl
  | ok t =>
      obtain ⟨a, behind, hitem⟩ := t
      dsimp only [bind, Except.bind, scanBehind]
      cases behind.take? with
      | none => rfl
      | some taken =>
          obtain ⟨t, next, hnext⟩ := taken
          dsimp only
          by_cases hclose : t = token
          · rw [if_pos hclose, if_pos hclose]
            rfl
          · rw [if_neg hclose, if_neg hclose]
            by_cases hcomma : t = .comma
            · rw [if_pos hcomma, if_pos hcomma]
              cases Scanner.separated token (.unexpected what) scan
                  (a :: before) next with
              | error e => rfl
              | ok more => rfl
            · rw [if_neg hcomma, if_neg hcomma]
              rfl

/-- Behind an item the separator or the closing bracket decides. -/
theorem scanBehind_closes (hmark : Lexeme.mark? close = some token)
    (hclose : close.toNat < 128) (hcomma : close ≠ ',') (before : List α) (a : α)
    (hs : Place text s)
    (hmore : ∀ s', Place text s' →
      (Cursor.ofSource s').size < (Cursor.ofSource s).size →
        Closes text (separatedFrom text close what item (a :: before)) s'
          (Scanner.separated token (.unexpected what) scan (a :: before)
            (.ofSource s'))) :
    Closes text (do
        match ← closeOrContinue text close what with
        | some offset => return ([a], offset)
        | none => do
          let (rest, offset) ← separatedFrom text close what item (a :: before)
          return (a :: rest, offset)) s
      (scanBehind token what scan before a (.ofSource s)) := by
  have htoken : Token.comma ≠ token := by
    rintro rfl
    exact hcomma (first_of_mark? hmark).symm
  unfold scanBehind
  by_cases hnext : s.front.chars.head? = some ','
  · obtain ⟨rest, hchars⟩ := List.head?_eq_some_iff.mp hnext
    obtain ⟨hless, htake⟩ := take?_of_mark? (t := .comma) rfl hchars
    have hcontinue : Gives text (closeOrContinue text close what) s _ :=
      closeOrContinue_comma what hs hchars
    rw [htake]
    dsimp only
    rw [if_neg htoken, if_pos rfl]
    refine .behind hcontinue ?_
    exact (hmore _ hcontinue.place hless).map fun _ => ⟨rfl, rfl⟩
  by_cases hend : s.front.chars.head? = some close
  · obtain ⟨rest, hchars⟩ := List.head?_eq_some_iff.mp hend
    obtain ⟨hless, htake⟩ := take?_of_mark? hmark hchars
    have hgives := closeOrContinue_close what hs hclose hcomma hchars
    rw [htake]
    dsimp only
    rw [if_pos rfl]
    exact .ok (hgives.bind (.pure hgives.place _)) rfl hs.front.boundary
  · have hgives := closeOrContinue_missing what hs hclose hnext hend
    split
    next => exact .error hgives.bind_error
    next t next hless htake =>
      have hfirst := head?_of_take? htake
      have hlast : t ≠ token := by
        rintro rfl
        exact hend (hfirst.trans (congrArg some (first_of_mark? hmark)))
      have hcontinues : t ≠ .comma := by
        rintro rfl
        exact hnext hfirst
      rw [if_neg hlast, if_neg hcontinues]
      exact .error hgives.bind_error

theorem separatedFrom_closes
    (hitem : ∀ before, Implements text (item before) (scan before))
    (hmark : Lexeme.mark? close = some token) (hclose : close.toNat < 128)
    (hcomma : close ≠ ',') (before : List α) (hs : Place text s) :
    Closes text (separatedFrom text close what item before) s
      (Scanner.separated token (.unexpected what) scan before (.ofSource s)) := by
  induction hsize : (Cursor.ofSource s).size using Nat.strongRecOn
      generalizing s before with
  | ind n ih =>
      rw [separatedFrom, separated_eq]
      refine .bind (hitem before s hs) ?_
      rintro ⟨a, _, hitem⟩ s' rfl hs'
      have hbehind := scanBehind_closes what hmark hclose hcomma before a hs'
        fun s'' hs'' hless =>
          ih _ (hsize ▸ hless.trans hitem) (a :: before) hs'' rfl
      exact hbehind.after fun _ => ⟨rfl, rfl⟩

theorem enclosed_closes
    (hitem : ∀ before, Implements text (item before) (scan before))
    (hmark : Lexeme.mark? close = some token) (hclose : close.toNat < 128)
    (hcomma : close ≠ ',') (hs : Place text s) :
    Closes text (enclosed text close what item) s
      (Scanner.enclosed token (.unexpected what) scan (.ofSource s)) := by
  unfold enclosed Scanner.enclosed
  refine .behind (skipBlanks_gives hs) ?_
  by_cases hend : s.front.chars.head? = some close
  · obtain ⟨rest, hchars⟩ := List.head?_eq_some_iff.mp hend
    obtain ⟨hless, haccept⟩ := accept?_of_mark? hmark hchars
    have hplace := hs.front.ascii hchars hclose
    rw [haccept]
    refine .behind (eat_found hs.front hchars hclose) ?_
    rw [if_pos rfl]
    -- The bracket that was eaten takes up a byte, so that there is an offset.
    exact .ok (.get (.lift (a := s.front.pos) rfl (.pure hplace _))) rfl
      hs.front.boundary
  · have hfirst : s.front.chars.head? ≠ some token.first := by
      rwa [first_of_mark? hmark]
    have hitems := separatedFrom_closes what hitem hmark hclose hcomma []
      hs.front
    rw [accept?_eq_none hfirst]
    refine .behind (eat_missing hs.front hend hclose) ?_
    rw [← skipBlanks_ofSource] at hitems
    exact hitems.after fun _ => ⟨rfl, rfl⟩

end

theorem items_implements {item : Reader Value} {scan : Scanner Failure Value}
    (hitem : Implements text item scan) :
    Implements text (items text item) (Parsing.items scan) := by
  intro s hs
  have hmark : Lexeme.mark? ']' = some .closeBracket := rfl
  have hitems := enclosed_closes .commaOrBracket (fun _ => hitem) hmark
    (by decide) (by decide) hs
  have hvalues := hitems.agrees id (f := id) fun _ => ⟨rfl, rfl⟩
  rw [Except.map_id] at hvalues
  exact hvalues

/-! ## Strings and scalars -/

/-- Read a string that is expected as `what`. -/
def scanString (what : Expected) : Scanner Failure String := fun c =>
  match c.take? with
  | some ⟨.str v, rest, h⟩ => .ok ⟨v, rest, h⟩
  | _ => .error (.stuck isQuote what c)

theorem scanString_of_str {what : Expected} {c rest : Cursor} {v : String}
    {h : rest.size < c.size} (htake : c.take? = some ⟨.str v, rest, h⟩) :
    scanString what c = .ok ⟨v, rest, h⟩ := by
  unfold scanString
  rw [htake]

theorem scanString_of_other {what : Expected} {c : Cursor}
    (hother : ∀ v rest h, c.take? = some ⟨.str v, rest, h⟩ → False) :
    scanString what c = .error (.stuck isQuote what c) := by
  unfold scanString
  split
  next htake => exact (hother _ _ _ htake).elim
  next => rfl

/-- A run that reads a string where a quote is next, and fails elsewhere. -/
theorem agrees_of_nextString {s : Source} (hs : Place text s.front)
    {m : Reader String} {what : Expected}
    (hquote : s.front.chars.head? = some '"' →
      ∀ r, Gives text (string text) s.front r → Gives text m s.front r)
    (hother : s.front.chars.head? ≠ some '"' → Gives text m s.front
      (.error (.stuck isQuote what (.ofSource s)))) :
    Agrees text m s.front (scanString what (.ofSource s)) := by
  cases nextString hs with
  | read h hhead htake hgives =>
      rw [scanString_of_str htake]
      exact .ok (hquote hhead _ hgives) rfl
  | stuck hhead hread hgives =>
      have hnone : (Cursor.ofSource s).take? = none :=
        take?_eq_none fun t s' => by simp [hread]
      have hother : ∀ v rest h,
          (Cursor.ofSource s).take? = some ⟨.str v, rest, h⟩ → False := by
        intro v rest h htake
        cases hnone.symm.trans htake
      rw [scanString_of_other hother, stuck_of_read hread rfl]
      exact .error (hquote hhead _ hgives)
  | other hhead =>
      rw [scanString_of_other fun v rest h htake => hhead (head?_of_take? htake)]
      exact .error (hother hhead)

theorem stringAs_agrees {s : Source} (hs : Place text s.front)
    (what : Expected) :
    Agrees text (stringAs text what) s.front (scanString what (.ofSource s)) :=
  agrees_of_nextString hs
    (fun hhead _ hgives => stringAs_of_head? hs hhead what hgives)
    fun hhead => stringAs_missing hs hhead what

theorem string_agrees {s : Source} (hs : Place text s.front) :
    Agrees text (string text) s.front (scanString .string (.ofSource s)) := by
  apply agrees_of_nextString hs
  · exact fun _ _ hgives => hgives
  · intro hhead
    rw [stuck_quote_of_head? hhead, unexpected_ofSource]
    exact (expect_missing hs hhead (by decide)).bind_error

/-- Read a value that is no container, null only where it is admitted. -/
def scanScalar (null : Bool) (what : Expected) : Scanner Failure Value := fun c =>
  match c.take? with
  | none => .error (.stuck (admitsScalar null) what c)
  | some ⟨t, rest, h⟩ =>
    match scalarOf? null t with
    | some v => .ok ⟨v, rest, h⟩
    | none => .error (.unexpected what c)

/-- Without a token the value is unexpected, except for a fault of one that is
admitted. -/
theorem scanScalar_eq_error {s : Source} {null : Bool} (what : Expected)
    (htoken : ∀ t s', Lexeme.read s.front ≠ .token t s')
    (hfault : ∀ first fault, Lexeme.read s.front = .stuck first (some fault) →
      admitsScalar null first = false) :
    scanScalar null what (.ofSource s) =
      .error ⟨.unexpected what s.front.chars.head?, s.front.pos⟩ := by
  unfold scanScalar
  rw [take?_eq_none htoken]
  dsimp only
  rw [stuck_of_no_fault hfault, unexpected_ofSource]

theorem scalar_agrees {s : Source} (hs : Place text s.front) (null : Bool)
    (what : Expected) :
    Agrees text (scalar text null what) s.front
      (scanScalar null what (.ofSource s)) := by
  have hgives : Gives text (scalar text null what) s.front _ :=
    scalar_gives hs what
  unfold scalarResult at hgives
  cases hread : Lexeme.read s.front with
  | finish =>
      rw [hread] at hgives
      rw [scanScalar_eq_error what (by simp [hread]) (by simp [hread])]
      exact .error hgives
  | stuck first fault =>
      rw [hread] at hgives
      have htoken : ∀ t s', Lexeme.read s.front ≠ .token t s' := by
        simp [hread]
      cases fault with
      | none =>
          rw [scanScalar_eq_error what htoken (by simp [hread])]
          exact .error hgives
      | some fault =>
          obtain ⟨fault, pos⟩ := fault
          dsimp only at hgives
          by_cases hadmits : admitsScalar null first = true
          · rw [if_pos hadmits] at hgives
            unfold scanScalar
            rw [take?_eq_none htoken]
            dsimp only
            rw [stuck_of_read hread hadmits]
            exact .error hgives
          · rw [if_neg hadmits] at hgives
            rw [scanScalar_eq_error what htoken]
            · exact .error hgives
            · intro first' fault' hstuck
              cases hread.symm.trans hstuck
              exact Bool.eq_false_of_not_eq_true hadmits
  | token t s' =>
      rw [hread] at hgives
      obtain ⟨h, htake⟩ := take?_of_read hread
      unfold scanScalar
      rw [htake]
      dsimp only at hgives ⊢
      cases hvalue : scalarOf? null t with
      | some v =>
          rw [hvalue] at hgives
          exact .ok hgives rfl
      | none =>
          rw [hvalue] at hgives
          rw [unexpected_ofSource]
          exact .error hgives

/-! ## Members -/

theorem colon_implements :
    Implements text (colon text) (scanToken .colon .colon) :=
  fun _ hs => .behind (skipBlanks_gives hs)
    (expect_agrees rfl (by decide) hs.front)

/-- Read the name of a member and the colon behind it. -/
def scanKey (before : Members) : Scanner Failure String := fun c => do
  let name ← scanString .key c
  if before.has name.value then throw ⟨.duplicateKey name.value, c.stream.start⟩
  else (scanToken .colon .colon name.rest).map fun t =>
    (t.map fun _ => name.value).after name.shorter

theorem member_eq (value : MemberValue) (before : Members) (c : Cursor) :
    Parsing.member value before c =
      scanKey before c >>= fun name =>
        (value name.value c.pos name.rest).map fun t =>
          (t.map (name.value, ·)).after name.shorter := by
  unfold Parsing.member scanKey scanToken
  split
  next key afterKey hkey htake =>
    rw [scanString_of_str htake]
    dsimp only [bind, Except.bind]
    by_cases hdup : before.has key = true
    · rw [if_pos hdup, if_pos hdup]
      rfl
    · rw [if_neg hdup, if_neg hdup]
      cases afterKey.accept? .colon with
      | none => rfl
      | some colon => rfl
  next hother =>
    rw [scanString_of_other hother]
    rfl

theorem key_implements (before : Members) :
    Implements text (key text before) (scanKey before) := by
  intro s hs
  unfold key scanKey
  refine .behind (skipBlanks_gives hs) (.get ?_)
  refine (stringAs_agrees hs.front .key).bind ?_
  rintro ⟨name, _, hshorter⟩ s' rfl hs'
  dsimp only
  by_cases hdup : before.has name = true
  · rw [if_pos hdup, if_pos hdup, Cursor.ofSource, Stream.start_ofSource]
    exact .error (.throw hs.front.boundary _)
  · rw [if_neg hdup, if_neg hdup]
    exact (colon_implements s' hs').map fun _ => ⟨rfl, rfl⟩

theorem member_implements {value : String → Nat → Reader Value}
    {scan : MemberValue}
    (hvalue : ∀ name start, Boundary text start →
      Implements text (value name start) (scan name start))
    (before : Members) :
    Implements text (member text value before) (Parsing.member scan before) := by
  intro s hs
  rw [member_eq]
  refine .get ?_
  refine (key_implements before s hs).bind ?_
  rintro ⟨name, _, hshorter⟩ s' rfl hs'
  exact (hvalue name s.pos hs.boundary s' hs').map fun _ => ⟨rfl, rfl⟩

theorem members_closes {value : String → Nat → Reader Value}
    {scan : MemberValue}
    (hvalue : ∀ name start, Boundary text start →
      Implements text (value name start) (scan name start))
    {s : Source} (hs : Place text s) :
    Closes text (members text value) s (Parsing.members scan (.ofSource s)) :=
  enclosed_closes .commaOrBrace (member_implements hvalue) rfl (by decide)
    (by decide) hs

/-! ## Values without a node -/

theorem untypedWith_of_other (config : Config)
    (inner : Option (Scanner Failure Value)) {c : Cursor}
    (hbrace : ∀ rest h, c.take? ≠ some ⟨.openBrace, rest, h⟩)
    (hbracket : ∀ rest h, c.take? ≠ some ⟨.openBracket, rest, h⟩) :
    Parsing.untypedWith config inner c = scanScalar true .value c := by
  unfold Parsing.untypedWith scanScalar
  cases htake : c.take? with
  | none => rfl
  | some taken =>
      obtain ⟨t, rest, h⟩ := taken
      cases t with
      | openBrace => exact absurd htake (hbrace rest h)
      | openBracket => exact absurd htake (hbracket rest h)
      | _ => rfl

/-- Where no bracket is next, a value is read that is no container. -/
theorem untypedWith_agrees (config : Config) (m : Option (Reader Value))
    (scan : Option (Scanner Failure Value)) {s : Source} (hs : Place text s)
    (hbrace : s.front.chars.head? ≠ some '\x7b')
    (hbracket : s.front.chars.head? ≠ some '[') :
    Agrees text (untypedWith text config m) s
      (Parsing.untypedWith config scan (.ofSource s)) := by
  obtain ⟨next, hshows, hpeek⟩ := exists_peek hs.front
  have hnobrace : next ≠ some '\x7b' :=
    fun heq => hbrace ((hshows.eq_some_iff (by decide)).mp heq)
  have hnobracket : next ≠ some '[' :=
    fun heq => hbracket ((hshows.eq_some_iff (by decide)).mp heq)
  rw [untypedWith_of_other config scan
    (fun _ _ htake => hbrace (head?_of_take? htake))
    (fun _ _ htake => hbracket (head?_of_take? htake))]
  refine .behind (skipBlanks_gives hs) (.behind hpeek ?_)
  split
  next => exact absurd rfl hnobrace
  next => exact absurd rfl hnobracket
  next => exact absurd rfl hnobrace
  next => exact absurd rfl hnobracket
  next => exact scalar_agrees hs.front true .value

/-- The reader and the scanner that fill containers, if there are any. -/
inductive Fillers (text : String) :
    Option (Reader Value) → Option (Scanner Failure Value) → Prop
  | none : Fillers text none none
  | some {m : Reader Value} {scan : Scanner Failure Value} :
      Implements text m scan → Fillers text (some m) (some scan)

theorem untypedWith_implements (config : Config) {m : Option (Reader Value)}
    {scan : Option (Scanner Failure Value)} (hinner : Fillers text m scan) :
    Implements text (untypedWith text config m)
      (Parsing.untypedWith config scan) := by
  intro s hs
  have hfront := hs.front
  by_cases hbrace : s.front.chars.head? = some '\x7b'
  · obtain ⟨rest, hchars⟩ := List.head?_eq_some_iff.mp hbrace
    obtain ⟨h, htake⟩ := take?_of_mark? (t := .openBrace) rfl hchars
    have hopen := eat_found hfront hchars (by decide)
    unfold Parsing.untypedWith
    rw [htake]
    refine .behind (skipBlanks_gives hs) ?_
    refine .behind (peek_ascii hfront hchars (by decide)) ?_
    cases hinner with
    | none =>
        refine .get ?_
        dsimp only
        rw [Cursor.ofSource, Stream.start_ofSource]
        exact .error (.throw hfront.boundary _)
    | some hvalue =>
        refine .behind hopen ?_
        exact (members_closes (fun _ _ _ => hvalue) hopen.place).agrees
          Value.obj fun _ => ⟨rfl, rfl⟩
  by_cases hbracket : s.front.chars.head? = some '['
  · obtain ⟨rest, hchars⟩ := List.head?_eq_some_iff.mp hbracket
    obtain ⟨h, htake⟩ := take?_of_mark? (t := .openBracket) rfl hchars
    have hopen := eat_found hfront hchars (by decide)
    unfold Parsing.untypedWith
    rw [htake]
    refine .behind (skipBlanks_gives hs) ?_
    refine .behind (peek_ascii hfront hchars (by decide)) ?_
    cases hinner with
    | none =>
        refine .get ?_
        dsimp only
        rw [Cursor.ofSource, Stream.start_ofSource]
        exact .error (.throw hfront.boundary _)
    | some hvalue =>
        refine .behind hopen ?_
        exact (items_implements hvalue _ hopen.place).map fun _ => ⟨rfl, rfl⟩
  · exact untypedWith_agrees config m scan hs hbrace hbracket

theorem untyped_implements (config : Config) (depth : Nat) :
    Implements text (untyped text config depth)
      (Parsing.untyped config depth) := by
  induction depth with
  | zero => exact untypedWith_implements config .none
  | succ depth ih => exact untypedWith_implements config (.some ih)

end Bytewise
end JsonTypedef
