import JsonTypedef.Proofs.Parsing.Lookahead
import JsonTypedef.Proofs.Parsing.Position

/-!
# Where looking ahead stops

The look-ahead for a tag goes over members by their brackets alone.  Where it
goes over values it stops like any scanner.  Where it goes over other
characters, it may report an offset behind the first place that no JSON text
goes on from.  `Parsing.Strays` leads from the brace of an object over members
to the value that is misskipped so.
-/

namespace JsonTypedef
namespace Parsing

open Source Grammar

/-- A skip goes from one place of a text ahead to another. -/
structure SkipsTo (here stop : Source) : Prop where
  ahead : Ahead here stop
  skips : behind (skipValue 0 (.ofSource here)) = .ok (.ofSource stop)

/-- From a place on, a skip goes over characters that are no value, at most up
to the offset, or it fails at the offset over characters that begin none. -/
inductive Misskips (here : Source) (pos : ℕ) : Prop
  | crossed {stop : Source} :
      SkipsTo here stop → ¬ Passes Shape.Value here stop → stop.pos ≤ pos →
        Misskips here pos
  | stuck {e : Failure} :
      skipValue 0 (.ofSource here) = .error e → e.position = pos →
        ¬ EntersAt Shape.Value here pos → Misskips here pos

/-- Looking for a tag among members misskips the value of the first one, or it
goes over this member and its comma and misskips the value of a later one. -/
inductive Strays (tag : String) (pos : ℕ) : Source → Prop
  | here {key : String} {s value : Source} :
      ValueAt key s value → key ≠ tag → Misskips value pos → Strays tag pos s
  | behind {key : String} {s value stop next : Source} :
      ValueAt key s value → key ≠ tag → SkipsTo value stop →
        Passes Shape.Value value stop → placeFront .comma stop next →
          Strays tag pos next → Strays tag pos s

/-- The offset of a tag's value, or of the failure to find it. -/
def tagOffset : Except Failure (String × ℕ) → ℕ
  | .ok (_, pos) => pos
  | .error e => e.position

section

variable {c : Cursor} {s value stop : Source} {key tag : String} {pos : ℕ}

/-- A name and a colon that are taken stand in front of a value. -/
theorem valueAt_of_take? (hc : c.At s) {afterKey : Cursor}
    {hless : afterKey.size < c.size}
    (htake : c.take? = some ⟨.str key, afterKey, hless⟩)
    {colon : Taken Unit afterKey}
    (haccept : afterKey.accept? .colon = some colon) :
    ∃ value, colon.rest = .ofSource value ∧ ValueAt key s value := by
  obtain ⟨behind, rfl, hname⟩ := hc.front ⟨hless, htake⟩
  obtain ⟨value, hrest, hcolon⟩ :=
    (Cursor.at_ofSource behind).front (Cursor.front_of_accept haccept)
  exact ⟨value, hrest, behind, hname, hcolon⟩

/-! ## Skipping -/

/-- A skip goes ahead in the text, and it fails there. -/
theorem skipValue_ahead (opened : ℕ) (hc : c.At s) :
    Traces (fun _ => Ahead) (fun e => s.pos ≤ e.position) s
      (skipValue opened c) := by
  fun_induction skipValue opened c generalizing s with
  | case1 => exact (entersAt_stuck hc .value).le
  | case2 => exact (entersAt_start hc .value).le
  | case3 opened c t rest hless htake =>
      obtain ⟨s', hrest, hfront⟩ := hc.front ⟨hless, htake⟩
      exact ⟨s', hrest, hfront.ahead⟩
  | case4 opened c t rest hless htake n hopen ih =>
      obtain ⟨s', rfl, hfront⟩ := hc.front ⟨hless, htake⟩
      have hrest := ih (Cursor.at_ofSource s')
      exact hrest.map _ (fun _ => rfl) (fun _ _ => hfront.ahead.trans)
        fun _ => Nat.le_trans hfront.passes.le

theorem exists_skipsTo {t : Taken Unit (.ofSource s)}
    (hskip : skipValue 0 (.ofSource s) = .ok t) :
    ∃ stop, t.rest = .ofSource stop ∧ SkipsTo s stop := by
  obtain ⟨stop, hrest, hahead⟩ :=
    (skipValue_ahead 0 (Cursor.at_ofSource s)).of_ok hskip
  refine ⟨stop, hrest, hahead, ?_⟩
  rw [hskip]
  exact congrArg Except.ok hrest

theorem Misskips.le (h : Misskips s pos) : s.pos ≤ pos := by
  cases h with
  | crossed hskips _ hle => exact hskips.ahead.le.trans hle
  | stuck herror hpos _ =>
      rw [← hpos]
      exact (skipValue_ahead 0 (Cursor.at_ofSource s)).of_error herror

theorem Strays.le (h : Strays tag pos s) : s.pos ≤ pos := by
  induction h with
  | here hat _ hmisskips => exact hat.le.trans hmisskips.le
  | behind hat _ hskips _ hcomma _ ih =>
      exact ((hat.le.trans hskips.ahead.le).trans hcomma.passes.le).trans ih

/-- What is skipped behind a name is a value, or it is misskipped. -/
theorem passes_or_strays (hat : ValueAt key s value) (hne : key ≠ tag)
    (hskips : SkipsTo value stop) (hle : stop.pos ≤ pos) :
    Passes Shape.Value value stop ∨ Strays tag pos s := by
  by_cases hvalue : Passes Shape.Value value stop
  · exact Or.inl hvalue
  · exact Or.inr (.here hat hne (.crossed hskips hvalue hle))

/-! ## Looking among members -/

theorem tagValue_offset (hc : c.At s) :
    EntersAt Shape.Value s (tagOffset (tagValue c)) := by
  have hread := tagRead c
  revert hread
  cases tagValue c with
  | ok found =>
      rintro (_ | _ | _)
      exact entersAt_start hc .value
  | error e =>
      rintro (_ | hstream | _)
      · rw [hc.stream] at hstream
        exact entersAt_value_of_reported
          (Lexeme.reported_of_read (Stream.read_of_ofSource hstream))
      · exact entersAt_start hc .value

/-- Behind what is skipped a comma or a brace may stand, unless it is misskipped.
-/
theorem separator_stops (hat : ValueAt key s value) (hne : key ≠ tag)
    {t : Taken Unit (.ofSource value)}
    (hskip : skipValue 0 (.ofSource value) = .ok t) :
    EntersAt (Shape.Items .closeBrace (Shape.Member Shape.Value)) s
        t.rest.stream.start ∨
      Strays tag t.rest.stream.start s := by
  obtain ⟨stop, hrest, hskips⟩ := exists_skipsTo hskip
  have hstart := entersAt_start (Cursor.at_of_eq hrest) .commaOrBrace
  refine (passes_or_strays hat hne hskips hstart.le).imp_left ?_
  intro hvalue
  exact (EntersAt.right (hat.passes hvalue) hstart).mono
    fun _ => Shape.items_of_last

/-- Looking among members stops inside of them, unless it misskips the value of
a member. -/
theorem findTag_stops (hc : c.At s) :
    EntersAt (Shape.Items .closeBrace (Shape.Member Shape.Value)) s
        (tagOffset (findTag tag c)) ∨
      Strays tag (tagOffset (findTag tag c)) s := by
  fun_induction findTag tag c generalizing s with
  | case1 c key afterKey hless htake hnone =>
      obtain ⟨behind, rfl, hname⟩ := hc.front ⟨hless, htake⟩
      have hcolon := entersAt_start (Cursor.at_ofSource behind) .colon
      exact Or.inl (hcolon.imp fun _ hplace =>
        enters_last (enters_member_of_colon hname hplace))
  | case2 c afterKey hless colon haccept htake =>
      obtain ⟨_, afterColon, hless'⟩ := colon
      obtain ⟨value, rfl, hat⟩ := valueAt_of_take? hc htake haccept
      exact Or.inl (hat.entersAt (tagValue_offset (Cursor.at_ofSource value)))
  | case3 c key afterKey hless htake colon haccept hne e hskip =>
      obtain ⟨_, afterColon, hless'⟩ := colon
      obtain ⟨value, rfl, hat⟩ := valueAt_of_take? hc htake haccept
      by_cases hvalue : EntersAt Shape.Value value e.position
      · exact Or.inl (hat.entersAt hvalue)
      · exact Or.inr (.here hat hne (.stuck hskip rfl hvalue))
  | case4 c key afterKey hless htake colon haccept hne skipped hskip next hnext
      hcomma _ ih =>
      obtain ⟨_, afterColon, hless'⟩ := colon
      obtain ⟨value, rfl, hat⟩ := valueAt_of_take? hc htake haccept
      obtain ⟨stop, hrest, hskips⟩ := exists_skipsTo hskip
      obtain ⟨next, rfl, hfront⟩ := (Cursor.at_of_eq hrest).front ⟨hnext, hcomma⟩
      have hmore := ih (Cursor.at_ofSource next)
      have hle := hfront.passes.le.trans (hmore.elim EntersAt.le Strays.le)
      rcases passes_or_strays hat hne hskips hle with hvalue | hstrays
      · refine hmore.imp (fun hmore => ?_)
          (.behind hat hne hskips hvalue hfront)
        exact (EntersAt.right (hat.passes hvalue)
          (.right hfront.passes hmore)).mono fun _ => Shape.items_of_more
      · exact Or.inr hstrays
  | case5 c key afterKey hless htake colon haccept hne skipped hskip =>
      obtain ⟨_, afterColon, hless'⟩ := colon
      obtain ⟨value, rfl, hat⟩ := valueAt_of_take? hc htake haccept
      exact separator_stops hat hne hskip
  | case6 c key afterKey hless htake colon haccept hne skipped hskip =>
      obtain ⟨_, afterColon, hless'⟩ := colon
      obtain ⟨value, rfl, hat⟩ := valueAt_of_take? hc htake haccept
      exact separator_stops hat hne hskip
  | case7 c =>
      have hkey := entersAt_stuck hc .key
      exact Or.inl (hkey.imp fun _ hplace =>
        enters_last (enters_member_of_key hplace))

/-- Looking ahead from behind the brace of an object stops inside of it, unless
it misskips the value of a member. -/
theorem lookAhead_stops (tag : String) (hc : c.At s) :
    EntersAt (Shape.Contents .closeBrace (Shape.Member Shape.Value)) s
        (tagOffset (lookAhead tag c)) ∨
      Strays tag (tagOffset (lookAhead tag c)) s := by
  unfold lookAhead
  split
  next =>
    have hstart := entersAt_start hc .commaOrBrace
    exact Or.inl (hstart.mono fun _ => .empty)
  next => exact (findTag_stops hc).imp_left fun h => h.mono fun _ => .items

end

/-! ## Why looking ahead fails -/

/-- The reasons for which looking for a tag may fail. -/
inductive SearchReason (tag : String) : Reason → Prop
  | token {fault : Token.Fault} : SearchReason tag (.token fault)
  | unexpected {what : Expected} {found : Option Char} :
      SearchReason tag (.unexpected what found)
  | missing : SearchReason tag (.missingTag tag)
  | notString : SearchReason tag .tagNotString

section

variable {c : Cursor} {e : Failure} {tag : String}

theorem searchReason_stuck (admits : Char → Bool) (what : Expected)
    (c : Cursor) : SearchReason tag (Failure.stuck admits what c).reason := by
  unfold Failure.stuck
  split
  next =>
    split
    next => exact .token
    next => exact .unexpected
  next => exact .unexpected

theorem searchReason_skipValue {opened : ℕ}
    (h : skipValue opened c = .error e) : SearchReason tag e.reason := by
  fun_induction skipValue opened c with
  | case1 =>
      cases h
      exact searchReason_stuck _ _ _
  | case2 =>
      cases h
      exact .unexpected
  | case3 => cases h
  | case4 opened c t rest hless htake n hopen ih =>
      cases hskip : skipValue (n + 1) rest with
      | error e' =>
          rw [hskip] at h
          cases h
          exact ih hskip
      | ok t' =>
          rw [hskip] at h
          cases h

theorem searchReason_tagValue (h : tagValue c = .error e) :
    SearchReason tag e.reason := by
  have hread := tagRead c
  rw [h] at hread
  cases hread with
  | fault => exact .token
  | other => exact .notString

theorem searchReason_findTag (h : findTag tag c = .error e) :
    SearchReason tag e.reason := by
  fun_induction findTag tag c with
  | case1 =>
      cases h
      exact .unexpected
  | case2 => exact searchReason_tagValue h
  | case3 c key afterKey hless htake colon haccept hne e' hskip =>
      cases h
      exact searchReason_skipValue hskip
  | case4 c key afterKey hless htake colon haccept hne skipped hskip next hnext
      hcomma _ ih => exact ih h
  | case5 =>
      cases h
      exact .missing
  | case6 =>
      cases h
      exact .unexpected
  | case7 =>
      cases h
      exact searchReason_stuck _ _ _

theorem searchReason_lookAhead (h : lookAhead tag c = .error e) :
    SearchReason tag e.reason := by
  unfold lookAhead at h
  split at h
  next =>
    cases h
    exact .missing
  next => exact searchReason_findTag h

end

end Parsing
end JsonTypedef
