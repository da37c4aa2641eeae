import JsonTypedef.Proofs.Json.Formed
import JsonTypedef.Proofs.Parsing.Descent
import JsonTypedef.Proofs.Parsing.Lookahead

/-!
# Tags of well-formed objects

Skipping a value of well-formed text either goes over a value that is read token
by token, or it meets a token that cannot be read.  Hence looking for the tag of
a well-formed object, unless it meets such a token, comes to the value of the
first member of that name, or to the brace that closes the object.
-/

namespace JsonTypedef
namespace Parsing

open Source Grammar

variable {s s' u : Source} {t : Token} {opened opened' : ℕ}

/-- A token cannot be read. -/
def Failure.IsToken (e : Failure) : Prop :=
  ∃ fault, e.reason = .token fault

/-! ## Skipping well-formed text -/

/-- Skipping from a place inside of open brackets meets a token that cannot be
read. -/
def Faults (opened : ℕ) (s : Source) : Prop :=
  ∃ e, behind (skipValue opened (.ofSource s)) = .error e ∧ e.IsToken

theorem error_of_behind {α : Type} {c : Cursor} {e : Failure}
    {r : Except Failure (Taken α c)} (h : behind r = .error e) :
    r = .error e := by
  cases r with
  | error e =>
      cases h
      rfl
  | ok t => cases h

theorem faults_of_stuck {first : Char} {fault : Token.Located}
    (h : Lexeme.read s.front = .stuck first (some fault)) :
    Faults opened s := by
  have htake : (Cursor.ofSource s).take? = none :=
    (Cursor.at_ofSource s).take?_eq_none fun _ _ hfront => by
      cases h.symm.trans hfront
  refine ⟨⟨.token fault.1, fault.2⟩, ?_, fault.1, rfl⟩
  have hstream : (Cursor.ofSource s).stream = .stuck s.front.pos first fault :=
    Stream.ofSource_of_stuck h
  rw [skipValue]
  simp [htake, Failure.stuck, hstream, opensValue, behind, Except.map]

theorem Faults.token (hfront : placeFront t s s')
    (hopen : openAfter opened t = some (opened' + 1))
    (h : Faults (opened' + 1) s') : Faults opened s := by
  have hskip := skip_token ((Cursor.at_ofSource s).give hfront) hopen
  unfold Faults
  rw [hskip, skipOn_succ]
  exact h

theorem Faults.value {v : Value} (hv : Spells placeFront v s s')
    (h : Faults (opened + 1) s') : Faults (opened + 1) s := by
  obtain ⟨_, hspells, rfl⟩ := hv.transfer cursor_follows_place trivial rfl
  unfold Faults
  rw [skip_value hspells, skipOn_succ]
  exact h

theorem Faults.member {m : String × Value}
    (hm : Member placeFront (Spells placeFront) m s s')
    (h : Faults (opened + 1) s') : Faults (opened + 1) s := by
  cases hm with
  | mk hkey hcolon hvalue =>
      exact .token hkey rfl (.token hcolon rfl (.value hvalue h))

section

variable {α : Type} {close : Token} {item item' : α → Source → Source → Prop}
    (hclose : IsMark close)
    (hskip : ∀ a s s', item a s s' →
      Faults (opened + 1) s' → Faults (opened + 1) s)

include hclose hskip

theorem contents_readable {as : List α}
    (hitem : ∀ a ∈ as, ∀ s s', item' a s s' →
      (∃ b, item b s s') ∨ Faults (opened + 1) s)
    (h : Contents shapeFront close item' as s s') :
    (∃ bs, Contents placeFront close item bs s s') ∨
      Faults (opened + 1) s := by
  cases h with
  | empty hend => exact Or.inl ⟨[], .empty (hend.mark hclose)⟩
  | items hitems =>
      have hread : (∃ bs, Items placeFront close item bs s s') ∨
          Faults (opened + 1) s := by
        induction hitems with
        | last ha hend =>
            rcases hitem _ (List.mem_singleton_self _) _ _ ha with
              ⟨b, hb⟩ | hfaults
            · exact Or.inl ⟨[b], .last hb (hend.mark hclose)⟩
            · exact Or.inr hfaults
        | more ha hcomma _ ih =>
            have hcomma := hcomma.mark trivial
            rcases hitem _ List.mem_cons_self _ _ ha with ⟨b, hb⟩ | hfaults
            · rcases ih fun a ha => hitem a (List.mem_cons_of_mem _ ha) with
                ⟨bs, hbs⟩ | hfaults
              · exact Or.inl ⟨b :: bs, .more hb hcomma hbs⟩
              · exact Or.inr (hskip _ _ _ hb (.token hcomma rfl hfaults))
            · exact Or.inr hfaults
      exact hread.imp_left fun ⟨bs, hbs⟩ => ⟨bs, .items hbs⟩

end

theorem scalar_readable (h : shapeFront t s s')
    (hscalar : ∀ u, Alike t u → placeFront u s s' →
      ∃ w, Spells placeFront w s s') :
    (∃ w, Spells placeFront w s s') ∨ ∀ opened, Faults opened s := by
  rcases h.read with ⟨u, halike, hfront⟩ | ⟨first, fault, hstuck, -⟩
  · exact Or.inl (hscalar u halike hfront)
  · exact Or.inr fun _ => faults_of_stuck hstuck

/-- A value of well-formed text is read token by token, or skipping it meets a
token that cannot be read. -/
theorem readable {v : Value} (h : Spells shapeFront v s s') :
    (∃ w, Spells placeFront w s s') ∨ ∀ opened, Faults opened s := by
  induction v generalizing s s' with
  | null =>
      cases h with
      | null hfront =>
          refine scalar_readable hfront ?_
          rintro u ⟨⟩ hread
          exact ⟨_, .null hread⟩
  | bool b =>
      cases h with
      | bool hfront =>
          refine scalar_readable hfront ?_
          rintro u ⟨⟩ hread
          exact ⟨_, .bool hread⟩
  | num n =>
      cases h with
      | num hfront =>
          refine scalar_readable hfront ?_
          rintro u (_ | _ | _) hread
          · exact ⟨_, .num hread⟩
          · exact ⟨_, .num hread⟩
  | str x =>
      cases h with
      | str hfront =>
          refine scalar_readable hfront ?_
          rintro u (_ | _ | _) hread
          · exact ⟨_, .str hread⟩
          · exact ⟨_, .str hread⟩
  | arr items ih =>
      cases h with
      | @arr _ _ bracket _ hopen hitems =>
          have hopen := hopen.mark trivial
          have hclose : IsMark .closeBracket := trivial
          have hread := fun opened => contents_readable hclose
            (fun v s s' => Faults.value)
            (fun v hv s s' h => (ih v hv h).imp_right fun h => h (opened + 1))
            hitems
          by_cases hbs : ∃ bs, Contents placeFront .closeBracket
            (Spells placeFront) bs bracket s'
          · obtain ⟨bs, hbs⟩ := hbs
            exact Or.inl ⟨_, .arr hopen hbs⟩
          · exact Or.inr fun opened =>
              .token hopen rfl ((hread opened).resolve_left hbs)
  | obj members ih =>
      cases h with
      | @obj _ _ brace _ hopen hmembers =>
          have hopen := hopen.mark trivial
          have hmember : ∀ opened, ∀ m ∈ members, ∀ s s',
              Member shapeFront (Spells shapeFront) m s s' →
                (∃ m', Member placeFront (Spells placeFront) m' s s') ∨
                  Faults (opened + 1) s := by
            rintro opened m hm s s' ⟨hkey, hcolon, hvalue⟩
            have hcolon := hcolon.mark trivial
            rcases hkey.read with ⟨k, halike, hkey⟩ | ⟨_, _, hstuck, -⟩
            · obtain ⟨key, rfl⟩ : ∃ key, k = .str key := by
                cases halike <;> exact ⟨_, rfl⟩
              rcases ih _ hm hvalue with ⟨w, hw⟩ | hfaults
              · exact Or.inl ⟨(key, w), .mk hkey hcolon hw⟩
              · exact Or.inr
                  (.token hkey rfl (.token hcolon rfl (hfaults _)))
            · exact Or.inr (faults_of_stuck hstuck)
          have hclose : IsMark .closeBrace := trivial
          have hread := fun opened => contents_readable hclose
            (fun m s s' => Faults.member) (hmember opened) hmembers
          by_cases hms : ∃ ms, Contents placeFront .closeBrace
            (Member placeFront (Spells placeFront)) ms brace s'
          · obtain ⟨ms, hms⟩ := hms
            exact Or.inl ⟨_, .obj hopen hms⟩
          · exact Or.inr fun opened =>
              .token hopen rfl ((hread opened).resolve_left hms)

/-- A value that is read ends where the skip over it does. -/
theorem end_unique {v w : Value} (h : Spells placeFront v s s')
    (h' : Spells placeFront w s u) : u = s' := by
  obtain ⟨t, ht, hrest⟩ := skip_of_place h
  obtain ⟨t', ht', hrest'⟩ := skip_of_place h'
  cases ht.symm.trans ht'
  obtain ⟨l, hl⟩ := h.ahead
  obtain ⟨m, hm⟩ := h'.ahead
  exact hm.eq_of_pos hl (congrArg Cursor.pos (hrest'.symm.trans hrest))

/-- A value that is read where text is well formed ends where the text does. -/
theorem end_unique_of_shape {v w : Value} (h : Spells shapeFront v s s')
    (h' : Spells placeFront w s u) : u = s' := by
  rcases readable h with ⟨v, hv⟩ | hfaults
  · exact end_unique hv h'
  · obtain ⟨t, ht, -⟩ := skip_of_place h'
    obtain ⟨e, he, -⟩ := hfaults 0
    rw [ht] at he
    cases he

/-! ## Going from member to member -/

section

variable {tag : String} {here there behind value : Source}
    {m : String × Value}

theorem findTag_tag (hkey : placeFront (.str tag) here behind)
    (hcolon : placeFront .colon behind value) :
    findTag tag (.ofSource here) = tagValue (.ofSource value) := by
  obtain ⟨hless, htake⟩ := (Cursor.at_ofSource here).give hkey
  obtain ⟨hless', htake'⟩ := (Cursor.at_ofSource behind).give hcolon
  rw [findTag]
  simp only [htake, Cursor.accept?_of_take? htake', if_true]

/-- Behind a member of another name the look-ahead goes on with the next token.
-/
theorem findTag_member (hm : Member placeFront (Spells placeFront) m here there)
    (hne : m.1 ≠ tag) (hnext : placeFront t there behind) :
    findTag tag (.ofSource here) =
      match t with
      | .comma => findTag tag (.ofSource behind)
      | .closeBrace => .error ⟨.missingTag tag, there.front.pos⟩
      | _ => .error (.unexpected .commaOrBrace (.ofSource there)) := by
  cases hm with
  | @mk key w _ colon value _ hkey hcolon hvalue =>
      obtain ⟨hless, htake⟩ := (Cursor.at_ofSource here).give hkey
      obtain ⟨hless', htake'⟩ := (Cursor.at_ofSource colon).give hcolon
      obtain ⟨⟨_, _, hshorter⟩, hskip, rfl⟩ := skip_of_place hvalue
      obtain ⟨hless'', htake''⟩ := (Cursor.at_ofSource there).give hnext
      have hstart : (Cursor.ofSource there).stream.start = there.front.pos :=
        Stream.start_ofSource there
      rw [findTag]
      simp only [htake, Cursor.accept?_of_take? htake', if_neg hne, hskip,
        htake'', hstart]
      cases t <;> rfl

/-- The look-ahead passes over members of other names. -/
theorem lookAhead_onward {before : Members} {brace : Source}
    (h : OnwardMembers before brace here) (hnew : tag ∉ before.keys) :
    lookAhead tag (.ofSource brace) = findTag tag (.ofSource here) := by
  induction h with
  | start hnone =>
      unfold lookAhead
      split
      next hless htake =>
        obtain ⟨u, -, hfront⟩ := (Cursor.at_ofSource _).front ⟨hless, htake⟩
        exact absurd hfront (hnone u)
      next => rfl
  | comma _ hm hcomma ih =>
      rw [Members.keys_cons, List.mem_cons, not_or] at hnew
      rw [ih hnew.2, findTag_member hm (Ne.symm hnew.1) hcomma]

end

/-! ## What the look-ahead comes to -/

/-- From behind its opening brace an object has these members, and the brace at
a place closes it. -/
def ClosedBy (ms : Members) (brace close : Source) : Prop :=
  ∃ behind, Contents placeFront .closeBrace
    (Member placeFront (Spells placeFront)) ms brace behind ∧
      Spans ['\x7d'] close behind

/-- The first member of the name among those of an object has its value at a
place. -/
inductive TagAt (tag : String) (brace value : Source) : Prop
  | mk {before : Members} {here behind : Source} :
      OnwardMembers before brace here → tag ∉ before.keys →
        placeFront (.str tag) here behind → placeFront .colon behind value →
          TagAt tag brace value

/-- How looking for the tag of a well-formed object ends, unless it meets a
token that cannot be read. -/
inductive TagSearch (tag : String) (brace : Source) :
    Except Failure (String × ℕ) → Prop
  | found {value behind : Source} {x : String} :
      TagAt tag brace value → placeFront (.str x) value behind →
        TagSearch tag brace (.ok (x, value.front.pos))
  | notString {value : Source} :
      TagAt tag brace value → Stands value →
        value.front.chars.head? ≠ some '"' →
          TagSearch tag brace (.error ⟨.tagNotString, value.front.pos⟩)
  | missing {ms : Members} {close : Source} :
      ClosedBy ms brace close → tag ∉ ms.keys →
        TagSearch tag brace (.error ⟨.missingTag tag, close.pos⟩)

/-- The search meets a token that cannot be read. -/
def SearchFaults (r : Except Failure (String × ℕ)) : Prop :=
  ∃ e, r = .error e ∧ e.IsToken

section

variable {tag : String} {brace here close behind value : Source}

theorem spans_closeBrace (h : placeFront .closeBrace s s') :
    Spans ['\x7d'] s.front s' := by
  obtain ⟨l, hspelling, hspans⟩ := Lexeme.passes_of_read h
  cases hspelling
  exact hspans

theorem items_of_onward {α : Type} {mark : Token}
    {item : α → Source → Source → Prop} {before as : List α}
    {opened here behind : Source}
    (h : Onward placeFront mark item before opened here)
    (has : Items placeFront mark item as here behind) :
    Items placeFront mark item (before.reverse ++ as) opened behind := by
  induction h generalizing as with
  | start => exact has
  | @comma before a _ _ _ _ _ ha hcomma ih =>
      rw [List.reverse_cons, List.append_assoc]
      exact ih (.more ha hcomma has)

/-- Only strings start with a quote. -/
theorem eq_str_of_head? (h : placeFront t s s')
    (hquote : s.front.chars.head? = some '"') : ∃ x, t = .str x := by
  have hlexical : Lexical t s.front.chars s'.chars := lexical_of_read h
  generalize s.front.chars = cs at hquote hlexical
  cases hlexical with
  | str => exact ⟨_, rfl⟩
  | num hwritten =>
      obtain rfl := Option.some.inj hquote
      exact absurd (lead_of_written hwritten) (by decide)
  | _ => cases hquote

/-- The value of a tag in well-formed text is a string that is read, or it is no
string. -/
theorem tagValue_search (htag : TagAt tag brace value) (h : Stands value) :
    SearchFaults (tagValue (.ofSource value)) ∨
      TagSearch tag brace (tagValue (.ofSource value)) := by
  have hat := Cursor.at_ofSource value
  have hread := tagRead (.ofSource value)
  revert hread
  generalize tagValue (.ofSource value) = r
  intro hread
  cases hread with
  | string htake =>
      obtain ⟨u, -, hfront⟩ := hat.front ⟨_, htake⟩
      rw [hat.start]
      exact Or.inr (.found htag hfront)
  | fault => exact Or.inl ⟨_, rfl, _, rfl⟩
  | other hstring hfault =>
      rw [hat.start]
      refine Or.inr (.notString htag h fun hquote => ?_)
      obtain ⟨v, s', hv⟩ := h
      obtain ⟨t, u, hfront, -⟩ := hv.front
      rcases hfront.read with ⟨t', -, hread⟩ | ⟨first, fault, hstuck, -⟩
      · obtain ⟨x, rfl⟩ := eq_str_of_head? hread hquote
        obtain ⟨hless, htake⟩ := hat.give hread
        exact hstring x _ hless htake
      · rw [Lexeme.head?_of_stuck hstuck] at hquote
        obtain rfl := Option.some.inj hquote
        exact hfault _ fault (Stream.ofSource_of_stuck hstuck)

/-- At a member of well-formed text the search ends, or it goes over a member of
another name. -/
theorem member_search {before : Members} {m : String × Value} {there : Source}
    (honward : OnwardMembers before brace here) (hnew : tag ∉ before.keys)
    (h : Member shapeFront (Spells shapeFront) m here there) :
    (SearchFaults (findTag tag (.ofSource here)) ∨
        TagSearch tag brace (findTag tag (.ofSource here))) ∨
      ∃ m', Member placeFront (Spells placeFront) m' here there ∧
        m'.1 ≠ tag := by
  cases h with
  | @mk _ _ _ colon value _ hkey hcolon hvalue =>
      have hcolon := hcolon.mark trivial
      rcases hkey.read with ⟨k, halike, hread⟩ | ⟨first, fault, hstuck, hmay⟩
      · obtain ⟨key, rfl⟩ : ∃ key, k = .str key := by
          cases halike <;> exact ⟨_, rfl⟩
        by_cases heq : key = tag
        · subst heq
          rw [findTag_tag hread hcolon]
          exact Or.inl
            (tagValue_search (.mk honward hnew hread hcolon) ⟨_, _, hvalue⟩)
        · rcases readable hvalue with ⟨w, hw⟩ | hfaults
          · exact Or.inr ⟨(key, w), .mk hread hcolon hw, heq⟩
          · obtain ⟨hless, htake⟩ := (Cursor.at_ofSource here).give hread
            obtain ⟨hless', htake'⟩ := (Cursor.at_ofSource colon).give hcolon
            obtain ⟨e, herror, he⟩ := hfaults 0
            refine Or.inl (Or.inl ⟨e, ?_, he⟩)
            rw [findTag]
            simp only [htake, Cursor.accept?_of_take? htake', if_neg heq,
              error_of_behind herror]
      · cases hmay
        have htake : (Cursor.ofSource here).take? = none :=
          (Cursor.at_ofSource here).take?_eq_none fun _ _ hread => by
            cases hstuck.symm.trans hread
        have hstream : (Cursor.ofSource here).stream =
            .stuck here.front.pos '"' fault :=
          Stream.ofSource_of_stuck hstuck
        refine Or.inl (Or.inl ⟨⟨.token fault.1, fault.2⟩, ?_, fault.1, rfl⟩)
        rw [findTag]
        simp [htake, Failure.stuck, hstream, isQuote]

/-- Among the members of well-formed text from a place on, the tag is looked for
as described. -/
theorem findTag_search {before ms : Members}
    (honward : OnwardMembers before brace here) (hnew : tag ∉ before.keys)
    (h : Items shapeFront .closeBrace (Member shapeFront (Spells shapeFront)) ms
      here s') :
    SearchFaults (findTag tag (.ofSource here)) ∨
      TagSearch tag brace (findTag tag (.ofSource here)) := by
  induction h generalizing before with
  | last hm hend =>
      have hend := hend.mark trivial
      rcases member_search honward hnew hm with hdone | ⟨m', hm', hne⟩
      · exact hdone
      · rw [findTag_member hm' hne hend]
        have hms := items_of_onward honward (.last hm' hend)
        refine Or.inr (.missing ⟨_, .items hms, spans_closeBrace hend⟩ ?_)
        rw [Members.keys, List.map_append, List.map_reverse, List.mem_append,
          List.mem_reverse, List.map_singleton, List.mem_singleton, not_or]
        exact ⟨hnew, Ne.symm hne⟩
  | more hm hcomma _ ih =>
      have hcomma := hcomma.mark trivial
      rcases member_search honward hnew hm with hdone | ⟨m', hm', hne⟩
      · exact hdone
      · rw [findTag_member hm' hne hcomma]
        exact ih (.comma honward hm' hcomma)
          (List.not_mem_cons_of_ne_of_not_mem (Ne.symm hne) hnew)

/-- No member of well-formed text starts with a brace. -/
theorem not_closeBrace_of_items {ms : Members}
    (h : Items shapeFront .closeBrace (Member shapeFront (Spells shapeFront)) ms
      s s') : ¬ placeFront .closeBrace s u := by
  have hmember : ∀ {m : String × Value} {there : Source},
      Member shapeFront (Spells shapeFront) m s there →
        ¬ placeFront .closeBrace s u := by
    rintro _ there ⟨hkey, -, -⟩ hclose
    cases (hkey.alike hclose).1
  cases h with
  | last hm => exact hmember hm
  | more hm => exact hmember hm

/-- The look-ahead over a well-formed object meets a token that cannot be read,
or it ends as described. -/
theorem lookAhead_search {ms : Members}
    (h : Contents shapeFront .closeBrace
      (Member shapeFront (Spells shapeFront)) ms brace s') :
    SearchFaults (lookAhead tag (.ofSource brace)) ∨
      TagSearch tag brace (lookAhead tag (.ofSource brace)) := by
  cases h with
  | empty hend =>
      have hend := hend.mark trivial
      obtain ⟨hless, htake⟩ := (Cursor.at_ofSource brace).give hend
      have hstart : (Cursor.ofSource brace).stream.start = brace.front.pos :=
        Stream.start_ofSource brace
      simp only [lookAhead, htake, hstart]
      exact Or.inr (.missing ⟨_, .empty hend, spans_closeBrace hend⟩
        List.not_mem_nil)
  | items hitems =>
      have hstart : OnwardMembers [] brace brace :=
        .start fun _ => not_closeBrace_of_items hitems
      rw [lookAhead_onward hstart List.not_mem_nil]
      exact findTag_search hstart List.not_mem_nil hitems

end

end Parsing
end JsonTypedef
