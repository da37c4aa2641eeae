import JsonTypedef.Parsing.Lookahead
import JsonTypedef.Proofs.Json.Front

/-!
# Looking ahead finds the tag

Skipping goes over the tokens of a value to where its spelling ends, although it
only counts brackets.  Hence the look-ahead finds the string under the tag of an
object wherever among the members it stands, and nothing else.
-/

namespace JsonTypedef
namespace Parsing

open Grammar

/-- The cursor behind what was scanned. -/
def behind {α : Type} {c : Cursor} (r : Except Failure (Taken α c)) :
    Except Failure Cursor :=
  r.map fun t => t.rest

/-- Skip on inside `opened` brackets; where none is open, the skip has ended. -/
def skipOn (opened : Nat) (c : Cursor) : Except Failure Cursor :=
  if opened = 0 then .ok c else behind (skipValue opened c)

theorem skipOn_succ (opened : Nat) (c : Cursor) :
    skipOn (opened + 1) c = behind (skipValue (opened + 1) c) :=
  if_neg (Nat.succ_ne_zero opened)

/-! ## Skipping -/

theorem skip_token {opened opened' : Nat} {t : Token} {c d : Cursor}
    (hfront : cursorFront t c d) (hopen : openAfter opened t = some opened') :
    behind (skipValue opened c) = skipOn opened' d := by
  obtain ⟨hshorter, htake⟩ := hfront
  rw [skipValue]
  cases opened' with
  | zero =>
      simp only [htake, hopen]
      rfl
  | succ opened' =>
      simp only [htake, hopen]
      rw [skipOn_succ]
      cases skipValue (opened' + 1) d <;> rfl

section

variable {α : Type} {item : α → Cursor → Cursor → Prop} {close : Token}
    {opened : Nat}

theorem skip_items (hclose : openAfter (opened + 1) close = some opened)
    {as : List α} {c d : Cursor}
    (hitem : ∀ a ∈ as, ∀ c d, item a c d →
      behind (skipValue (opened + 1) c) = behind (skipValue (opened + 1) d))
    (h : Items cursorFront close item as c d) :
    behind (skipValue (opened + 1) c) = skipOn opened d := by
  induction h with
  | last ha hend =>
      rw [hitem _ (List.mem_singleton_self _) _ _ ha, skip_token hend hclose]
  | more ha hcomma _ ih =>
      rw [hitem _ List.mem_cons_self _ _ ha, skip_token hcomma rfl]
      exact ih fun a ha => hitem a (List.mem_cons_of_mem _ ha)

theorem skip_contents (hclose : openAfter (opened + 1) close = some opened)
    {as : List α} {c d : Cursor}
    (hitem : ∀ a ∈ as, ∀ c d, item a c d →
      behind (skipValue (opened + 1) c) = behind (skipValue (opened + 1) d))
    (h : Contents cursorFront close item as c d) :
    behind (skipValue (opened + 1) c) = skipOn opened d := by
  cases h with
  | empty hend => exact skip_token hend hclose
  | items hitems => exact skip_items hclose hitem hitems

end

/-- A skip goes over a spelled value, whatever brackets are open around it. -/
theorem skip_value {v : Value} {c d : Cursor} {opened : Nat}
    (h : Spells cursorFront v c d) :
    behind (skipValue opened c) = skipOn opened d := by
  induction v generalizing c d opened with
  | null =>
      cases h with
      | null hfront => exact skip_token hfront rfl
  | bool b =>
      cases h with
      | bool hfront => exact skip_token hfront rfl
  | num n =>
      cases h with
      | num hfront => exact skip_token hfront rfl
  | str x =>
      cases h with
      | str hfront => exact skip_token hfront rfl
  | arr items ih =>
      cases h with
      | arr hopen hitems =>
          rw [skip_token hopen rfl]
          exact skip_contents rfl (fun v hv _ _ hspells => ih v hv hspells)
            hitems
  | obj members ih =>
      cases h with
      | obj hopen hmembers =>
          rw [skip_token hopen rfl]
          refine skip_contents rfl (fun m hm _ _ hmember => ?_) hmembers
          cases hmember with
          | mk hkey hcolon hvalue =>
              rw [skip_token hkey rfl, skipOn_succ, skip_token hcolon rfl,
                skipOn_succ, ih _ hm hvalue, skipOn_succ]

theorem ok_of_behind {α : Type} {c d : Cursor}
    {r : Except Failure (Taken α c)} (h : behind r = .ok d) :
    ∃ t, r = .ok t ∧ t.rest = d := by
  cases r with
  | error e => cases h
  | ok t =>
      cases h
      exact ⟨t, rfl, rfl⟩

/-- At a place of a text a skip ends where the spelling of a value does. -/
theorem skip_of_place {v : Value} {s s' : Source}
    (h : Spells placeFront v s s') :
    ∃ t, skipValue 0 (.ofSource s) = .ok t ∧ t.rest = .ofSource s' := by
  obtain ⟨d, hspells, rfl⟩ := h.transfer cursor_follows_place trivial rfl
  have hskip : behind (skipValue 0 (.ofSource s)) = .ok (.ofSource s') :=
    skip_value hspells
  exact ok_of_behind hskip

theorem skip_of_stream {v : Value} {c : Cursor} {s : Stream}
    (h : Spells streamFront v c.stream s) :
    ∃ t, skipValue 0 c = .ok t ∧ t.rest.stream = s := by
  obtain ⟨d, hspells, rfl⟩ := h.transfer cursor_follows_stream trivial rfl
  have hskip : behind (skipValue 0 c) = .ok d := skip_value hspells
  obtain ⟨t, hok, rfl⟩ := ok_of_behind hskip
  exact ⟨t, hok, rfl⟩

/-! ## Finding the tag -/

/-- How the value of a tag is read at a cursor. -/
inductive TagRead (c : Cursor) : Except Failure (String × ℕ) → Prop
  | string {x : String} {rest : Cursor} {hless : rest.size < c.size} :
      c.take? = some ⟨.str x, rest, hless⟩ →
        TagRead c (.ok (x, c.stream.start))
  | fault {start : ℕ} {fault : Token.Located} :
      c.stream = .stuck start '"' (some fault) →
        TagRead c (.error ⟨.token fault.1, fault.2⟩)
  | other :
      (∀ x rest hless, c.take? ≠ some ⟨.str x, rest, hless⟩) →
      (∀ start fault, c.stream ≠ .stuck start '"' (some fault)) →
        TagRead c (.error ⟨.tagNotString, c.stream.start⟩)

theorem tagRead (c : Cursor) : TagRead c (tagValue c) := by
  unfold tagValue
  split
  next htake => exact .string htake
  next hstring =>
    split
    next hstream => exact .fault hstream
    next hfault =>
      refine .other (fun x rest hless htake => ?_) fun start fault hstream => ?_
      · exact hstring x rest hless htake
      · exact hfault start fault.1 fault.2 hstream

theorem tagValue_of_front {t : Token} {c : Cursor} {s : Stream}
    (h : streamFront t c.stream s) (hstr : ∀ x, t ≠ .str x) :
    ∃ e, tagValue c = .error e := by
  obtain ⟨⟨_, rest, hshorter⟩, htake, rfl, rfl⟩ := Cursor.take?_of_front h
  cases htag : tagValue c with
  | error e => exact ⟨e, rfl⟩
  | ok found =>
      have hread := tagRead c
      rw [htag] at hread
      cases hread with
      | string htake' =>
          cases htake.symm.trans htake'
          exact absurd rfl (hstr _)

/-- The value of a tag member is taken exactly where it is a string. -/
theorem tagValue_eq_ok_iff {v : Value} {c : Cursor} {s : Stream}
    (h : Spells streamFront v c.stream s) {x : String} :
    (∃ pos, tagValue c = .ok (x, pos)) ↔ v = .str x := by
  have hother : ∀ {t : Token} {s : Stream}, streamFront t c.stream s →
      (∀ x, t ≠ .str x) →
      ¬ ∃ pos, tagValue c = .ok (x, pos) := by
    rintro t s hfront hstr ⟨pos, hok⟩
    obtain ⟨e, he⟩ := tagValue_of_front hfront hstr
    rw [he] at hok
    cases hok
  cases h with
  | str hfront =>
      obtain ⟨⟨_, rest, hshorter⟩, htake, rfl, rfl⟩ :=
        Cursor.take?_of_front hfront
      simp only [tagValue, htake, Except.ok.injEq, Prod.mk.injEq,
        Value.str.injEq]
      exact ⟨fun ⟨_, hx, _⟩ => hx, fun hx => ⟨_, hx, rfl⟩⟩
  | null hfront => exact iff_of_false (hother hfront (by simp)) (by simp)
  | bool hfront => exact iff_of_false (hother hfront (by simp)) (by simp)
  | num hfront => exact iff_of_false (hother hfront (by simp)) (by simp)
  | arr hfront _ => exact iff_of_false (hother hfront (by simp)) (by simp)
  | obj hfront _ => exact iff_of_false (hother hfront (by simp)) (by simp)

/-- Among spelled members the tag is found exactly where it is a string. -/
theorem findTag_eq_ok_iff {tag : String} {ms : Members} {c : Cursor}
    {s : Stream}
    (h : Items streamFront .closeBrace (Member streamFront (Spells streamFront))
      ms c.stream s)
    {x : String} :
    (∃ pos, findTag tag c = .ok (x, pos)) ↔ ms.get? tag = some (.str x) := by
  generalize hstream : c.stream = stream at h
  induction h generalizing c with
  | last hm hend =>
      subst hstream
      cases hm with
      | @mk key v _ t u _ hkey hcolon hvalue =>
          obtain ⟨⟨_, afterKey, hshorter⟩, htake, rfl, rfl⟩ :=
            Cursor.take?_of_front hkey
          obtain ⟨colon, haccept, rfl⟩ := Cursor.accept?_of_front hcolon
          obtain ⟨skipped, hskip, rfl⟩ := skip_of_stream hvalue
          obtain ⟨⟨_, next, hnext⟩, hbrace, rfl, rfl⟩ :=
            Cursor.take?_of_front hend
          rw [findTag, Members.get?_cons]
          simp only [htake, haccept]
          by_cases heq : key = tag
          · simp only [if_pos heq, Option.some.injEq]
            exact tagValue_eq_ok_iff hvalue
          · simp only [if_neg heq, hskip, hbrace]
            simp [Members.get?]
  | more hm hcomma _ ih =>
      subst hstream
      cases hm with
      | @mk key v _ t u _ hkey hcolon hvalue =>
          obtain ⟨⟨_, afterKey, hshorter⟩, htake, rfl, rfl⟩ :=
            Cursor.take?_of_front hkey
          obtain ⟨colon, haccept, rfl⟩ := Cursor.accept?_of_front hcolon
          obtain ⟨skipped, hskip, rfl⟩ := skip_of_stream hvalue
          obtain ⟨⟨_, next, hnext⟩, htakeComma, rfl, rfl⟩ :=
            Cursor.take?_of_front hcomma
          rw [findTag, Members.get?_cons]
          simp only [htake, haccept]
          by_cases heq : key = tag
          · simp only [if_pos heq, Option.some.injEq]
            exact tagValue_eq_ok_iff hvalue
          · simp only [if_neg heq, hskip, htakeComma]
            exact ih rfl

/-- The look-ahead over a spelled object finds the string under the tag. -/
theorem lookAhead_eq_ok_iff {tag : String} {ms : Members} {c : Cursor}
    {s : Stream}
    (h : Contents streamFront .closeBrace
      (Member streamFront (Spells streamFront)) ms
      c.stream s) {x : String} :
    (∃ pos, lookAhead tag c = .ok (x, pos)) ↔ ms.get? tag = some (.str x) := by
  cases h with
  | empty hend =>
      obtain ⟨⟨_, next, hnext⟩, htake, rfl, rfl⟩ := Cursor.take?_of_front hend
      simp only [lookAhead, htake]
      simp [Members.get?]
  | items hitems =>
      have hlook : lookAhead tag c = findTag tag c := by
        unfold lookAhead
        split
        next htake =>
          have hfront := Cursor.front_of_take? htake
          cases hitems with
          | last hm _ => exact absurd hfront hm.not_closeBrace
          | more hm _ _ => exact absurd hfront hm.not_closeBrace
        next => rfl
      rw [hlook]
      exact findTag_eq_ok_iff hitems

end Parsing
end JsonTypedef
