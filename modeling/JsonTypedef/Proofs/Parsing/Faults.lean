import JsonTypedef.Proofs.Parsing.Halting
import JsonTypedef.Proofs.Parsing.Tags

/-!
# Values at fault in well-formed text

A parse of well-formed text that fails other than for a token, the depth or a
name has gone down to a value at fault.  `Parsing.FaultAt` lists these faults
and where each is reported: a missing member at the brace that closes its
object, a tag at the start of its value, and anything else at the start of the
value itself.
-/

namespace JsonTypedef
namespace Parsing

open Source Grammar Program

variable {s s' : Source}

/-! ## Well-formed containers -/

section

variable {α : Type} {close : Token} {item item' : α → Source → Source → Prop}
    {before as : List α} {opened here : Source}
    (hcomma : close ≠ .comma) (hclose : IsMark close)
    (hend : ∀ a b s s' u, item' a s s' → item b s u → u = s')

include hcomma hclose hend

/-- Behind the items that were read stand the others. -/
theorem items_behind_onward
    (h : Onward placeFront close item before opened here)
    (hcontents : Contents shapeFront close item' as opened s') :
    ∃ bs, Items shapeFront close item' bs here s' := by
  induction h with
  | start hnone =>
      cases hcontents with
      | empty hfront => exact absurd (hfront.mark hclose) (hnone _)
      | items hitems => exact ⟨_, hitems⟩
  | comma _ ha hfront ih =>
      obtain ⟨bs, hbs⟩ := ih hcontents
      cases hbs with
      | last hb hbracket =>
          obtain rfl := hend _ _ _ _ _ hb ha
          exact absurd ((hbracket.mark hclose).unique hfront).1 hcomma
      | more hb hfront' hmore =>
          obtain rfl := hend _ _ _ _ _ hb ha
          obtain ⟨-, rfl⟩ := hfront'.alike hfront
          exact ⟨_, hmore⟩

/-- Behind the items that were read stands another one, and a comma or the
closing token behind it. -/
theorem item_behind_onward
    (h : Onward placeFront close item before opened here)
    (hcontents : Contents shapeFront close item' as opened s') :
    ∃ a u w, item' a here u ∧
      (placeFront .comma u w ∨ placeFront close u w) := by
  obtain ⟨bs, hbs⟩ := items_behind_onward hcomma hclose hend h hcontents
  cases hbs with
  | last hb hfront => exact ⟨_, _, _, hb, Or.inr (hfront.mark hclose)⟩
  | more hb hfront _ => exact ⟨_, _, _, hb, Or.inl (hfront.mark trivial)⟩

end

theorem member_end_unique (m m' : String × Value) (s s' u : Source)
    (h : Member shapeFront (Spells shapeFront) m s s')
    (h' : Member placeFront (Spells placeFront) m' s u) : u = s' := by
  cases h with
  | mk hkey hcolon hvalue =>
      cases h' with
      | mk hkey' hcolon' hvalue' =>
          obtain ⟨-, rfl⟩ := hkey.alike hkey'
          obtain ⟨-, rfl⟩ := hcolon.alike hcolon'
          exact end_unique_of_shape hvalue hvalue'

theorem item_behind (h : Stands s) {bracket here : Source}
    (hopen : placeFront .openBracket s bracket) {before : List Value}
    (honward : Onward placeFront .closeBracket (Spells placeFront) before
      bracket here) :
    ∃ v u w, Spells shapeFront v here u ∧
      (placeFront .comma u w ∨ placeFront .closeBracket u w) := by
  obtain ⟨vs, s', hvs⟩ := h.array hopen
  exact item_behind_onward nofun trivial
    (fun _ _ _ _ _ hv hw => end_unique_of_shape hv hw) honward hvs

theorem member_behind (h : Stands s) {brace here : Source}
    (hopen : placeFront .openBrace s brace) {before : Members}
    (honward : OnwardMembers before brace here) :
    ∃ m u w, Member shapeFront (Spells shapeFront) m here u ∧
      (placeFront .comma u w ∨ placeFront .closeBrace u w) := by
  obtain ⟨ms, s', hms⟩ := h.object hopen
  exact item_behind_onward nofun trivial member_end_unique honward hms

/-! ## Going down well-formed text -/

section

variable {search search' : Search} {n : Node} {g g' : Guide}
    {brace here : Source} {p : Program.Properties} {tag : Option String}

theorem Declares.imp (h : Declares search n brace p tag)
    (hsearch : ∀ tag found, search tag brace (.ok found) →
      search' tag brace (.ok found)) : Declares search' n brace p tag := by
  cases h with
  | properties hform => exact .properties hform
  | branch hform hfound hbranch =>
      exact .branch hform (hsearch _ _ hfound) hbranch

theorem ReadsMembers.imp (h : ReadsMembers search g brace)
    (hsearch : ∀ tag found, search tag brace (.ok found) →
      search' tag brace (.ok found)) : ReadsMembers search' g brace := by
  cases h with
  | untyped => exact .untyped
  | values hform => exact .values hform
  | declared hdeclares => exact .declared (hdeclares.imp hsearch)

theorem MemberGuide.imp {key : String} (h : MemberGuide search g brace key g')
    (hsearch : ∀ tag found, search tag brace (.ok found) →
      search' tag brace (.ok found)) : MemberGuide search' g brace key g' := by
  cases h with
  | untyped => exact .untyped
  | values hform => exact .values hform
  | declared hdeclares htag hmember =>
      exact .declared (hdeclares.imp hsearch) htag hmember
  | additional hdeclares htag hmember hadditional =>
      exact .additional (hdeclares.imp hsearch) htag hmember hadditional

end

/-- Looking for the tag of an object that stands at a place meets a token that
cannot be read, or it ends as described. -/
theorem search_of_searched (h : Stands s) {tag : String} {brace : Source}
    (hopen : placeFront .openBrace s brace)
    {r : Except Failure (String × ℕ)} (hsearch : searched tag brace r) :
    SearchFaults r ∨ TagSearch tag brace r := by
  obtain ⟨ms, s', hms⟩ := h.object hopen
  rw [← hsearch]
  exact lookAhead_search hms

theorem tagSearch_of_searched (h : Stands s) {tag : String} {brace : Source}
    (hopen : placeFront .openBrace s brace) {found : String × ℕ}
    (hsearch : searched tag brace (.ok found)) :
    TagSearch tag brace (.ok found) := by
  rcases search_of_searched h hopen hsearch with ⟨e, heq, -⟩ | htag
  · cases heq
  · exact htag

section

variable {target : ℕ → Node} {here there : Guide × Source}

/-- Reading a value that stands goes on to another one that stands. -/
theorem Step.stands (h : Step searched target here there)
    (hstands : Stands here.2) :
    Step TagSearch target here there ∧ Stands there.2 := by
  cases h with
  | empty hform happlies => exact ⟨.empty hform happlies, hstands⟩
  | ref hform happlies => exact ⟨.ref hform happlies, hstands⟩
  | item hguide hopen honward =>
      obtain ⟨v, u, -, hv, -⟩ := item_behind hstands hopen honward
      exact ⟨.item hguide hopen honward, v, u, hv⟩
  | @member _ _ _ brace _ _ _ _ _ hname hnew hcolon hguide =>
      have hsearch : ∀ tag found, searched tag brace (.ok found) →
          TagSearch tag brace (.ok found) :=
        fun _ _ => tagSearch_of_searched hstands hname.opened
      refine ⟨.member ⟨hname.reads.imp hsearch, hname.opened, hname.members,
        hname.name⟩ hnew hcolon (hguide.imp hsearch), ?_⟩
      obtain ⟨m, u, -, hm, -⟩ :=
        member_behind hstands hname.opened hname.members
      cases hm with
      | mk hkey hcolon' hvalue =>
          obtain ⟨-, rfl⟩ := hkey.alike hname.name
          obtain ⟨-, rfl⟩ := hcolon'.alike hcolon
          exact ⟨_, _, hvalue⟩

/-- In well-formed text the values that reading goes down to stand. -/
theorem Leads.stands (h : Leads searched target here there)
    (hstands : Stands here.2) :
    Leads TagSearch target here there ∧ Stands there.2 := by
  induction h with
  | refl => exact ⟨.refl, hstands⟩
  | tail _ hstep ih =>
      obtain ⟨hleads, hstands⟩ := ih
      obtain ⟨hstep, hstands⟩ := hstep.stands hstands
      exact ⟨hleads.tail hstep, hstands⟩

end

/-! ## Faults -/

/-- What is expected of the values of a form. -/
inductive Wants : Program.Form → Expected → Prop
  | type {kind : TypeKind} : Wants (.type kind) (.primitive kind)
  | enum {values : List String} : Wants (.enum values) .enumString
  | elements {item : Node} : Wants (.elements item) .array
  | values {item : Node} : Wants (.values item) .object
  | properties {p : Program.Properties} : Wants (.properties p) .object
  | discriminator {tag : String} {branches : List (String × Program.Branch)} :
      Wants (.discriminator tag branches) .object

/-- The value at a place is at fault, and where this is reported: the start of
the value, the brace that closes the object, or the start of the tag's value. -/
inductive FaultAt (config : Config) : Node → Source → Failure → Prop
  | kind {n : Node} {what : Expected} {s : Source} :
      Applies n s → Wants n.form what → Stands s → Missing what s →
        FaultAt config n s
          ⟨.unexpected what s.front.chars.head?, s.front.pos⟩
  | type {n : Node} {kind : TypeKind} {v : Value} {s s' : Source} :
      Applies n s → n.form = .type kind → Spells placeFront v s s' →
        Validator.typeAccepts config kind v = false →
          FaultAt config n s ⟨.typeMismatch kind v, s.front.pos⟩
  | enum {n : Node} {values : List String} {x : String} {s s' : Source} :
      Applies n s → n.form = .enum values → placeFront (.str x) s s' →
        x ∉ values → FaultAt config n s ⟨.unknownEnumValue x, s.front.pos⟩
  | property {n : Node} {p : Program.Properties} {tag : Option String}
      {ms : Members} {m : String × Node} {s brace close : Source} :
      placeFront .openBrace s brace → Declares TagSearch n brace p tag →
        ClosedBy ms brace close →
          (p.required.find? fun m => !ms.has m.1) = some m →
            FaultAt config n s ⟨.missingProperty m.1, close.pos⟩
  | missingTag {n : Node} {tag : String}
      {branches : List (String × Program.Branch)} {ms : Members}
      {s brace close : Source} :
      placeFront .openBrace s brace → n.form = .discriminator tag branches →
        ClosedBy ms brace close → tag ∉ ms.keys →
          FaultAt config n s ⟨.missingTag tag, close.pos⟩
  | tagNotString {n : Node} {tag : String}
      {branches : List (String × Program.Branch)} {s brace value : Source} :
      placeFront .openBrace s brace → n.form = .discriminator tag branches →
        TagAt tag brace value → Stands value →
          value.front.chars.head? ≠ some '"' →
            FaultAt config n s ⟨.tagNotString, value.front.pos⟩
  | unmappedTag {n : Node} {tag x : String}
      {branches : List (String × Program.Branch)}
      {s brace value behind : Source} :
      placeFront .openBrace s brace → n.form = .discriminator tag branches →
        TagAt tag brace value → placeFront (.str x) value behind →
          List.lookup x branches = none →
            FaultAt config n s ⟨.unmappedTag x, value.front.pos⟩

/-- The reason is that a value is of another kind, or does not fit. -/
def Reason.RefusesValue : Reason → Prop
  | .unexpected _ _ => True
  | .typeMismatch _ _ => True
  | .unknownEnumValue _ => True
  | .missingProperty _ => True
  | .missingTag _ => True
  | .tagNotString => True
  | .unmappedTag _ => True
  | _ => False

section

variable {config : Config} {n : Node} {g : Guide} {e : Failure}

theorem missing_of_read {what : Expected} {t : Token}
    (hfront : shapeFront t s s') (h : Missing what s)
    (hadmits : ∀ u, Alike t u → what.Admits u)
    (hopens : ∀ first, MayFault t first → what.opensWith first = true) :
    False := by
  rcases hfront.read with ⟨u, halike, hread⟩ | ⟨first, fault, hstuck, hmay⟩
  · exact h.absent u s' hread (hadmits u halike)
  · have hfault := h.faultless first fault hstuck
    rw [hopens first hmay] at hfault
    cases hfault

/-- Some value stands where any is expected. -/
theorem not_missing_value (h : Stands s) : ¬ Missing .value s := by
  obtain ⟨v, s', hv⟩ := h
  obtain ⟨t, u, hfront, hopens⟩ := hv.front
  intro hmissing
  apply missing_of_read hfront hmissing
  · rintro u (_ | _ | _)
    · exact hopens
    · trivial
    · trivial
  · exact fun _ _ => rfl

/-- What is missing in a value that stands is the value of the form itself. -/
theorem faultAt_of_missing {what : Expected} {here : Source} (hs : Stands s)
    (hawaits : Awaits searched g s what here) (h : Missing what here) :
    ∃ n, g = some n ∧ FaultAt config n s (.missing what here) := by
  cases hawaits with
  | value => exact absurd h (not_missing_value hs)
  | @primitive n _ _ hform happlies =>
      exact ⟨n, rfl, .kind happlies (by rw [hform]; exact .type) hs h⟩
  | @enumString n _ _ hform happlies =>
      exact ⟨n, rfl, .kind happlies (by rw [hform]; exact .enum) hs h⟩
  | @array n _ _ hform happlies =>
      exact ⟨n, rfl, .kind happlies (by rw [hform]; exact .elements) hs h⟩
  | @values n _ _ hform happlies =>
      exact ⟨n, rfl, .kind happlies (by rw [hform]; exact .values) hs h⟩
  | @properties n _ _ hform happlies =>
      exact ⟨n, rfl, .kind happlies (by rw [hform]; exact .properties) hs h⟩
  | @discriminator n _ _ _ hform happlies =>
      exact ⟨n, rfl, .kind happlies (by rw [hform]; exact .discriminator) hs h⟩
  | key _ hopen honward =>
      obtain ⟨m, u, -, ⟨hkey, -, -⟩, -⟩ := member_behind hs hopen honward
      refine (missing_of_read hkey h ?_ ?_).elim
      · rintro u (_ | _ | _)
        · exact ⟨_, rfl⟩
        · exact ⟨_, rfl⟩
      · rintro first ⟨⟩
        rfl
  | colon hname =>
      obtain ⟨m, u, -, ⟨hkey, hcolon, -⟩, -⟩ :=
        member_behind hs hname.opened hname.members
      obtain ⟨-, rfl⟩ := hkey.alike hname.name
      exact absurd rfl (h.absent _ _ (hcolon.mark trivial))
  | @tag _ _ brace _ _ _ _ key _ hname hdeclares hnew hcolon =>
      -- The look-ahead has read a string there.
      cases hdeclares with
      | branch _ hsearch _ =>
          obtain ⟨found, hlook⟩ : ∃ found,
            lookAhead key (.ofSource brace) = .ok found := ⟨_, hsearch⟩
          rw [lookAhead_onward hname.members hnew,
            findTag_tag hname.name hcolon] at hlook
          have hread := tagRead (.ofSource here)
          rw [hlook] at hread
          cases hread with
          | @string y _ hless htake =>
              obtain ⟨u, -, hfront⟩ :=
                (Cursor.at_ofSource _).front ⟨hless, htake⟩
              exact absurd ⟨y, rfl⟩ (h.absent _ _ hfront)
  | commaOrBracket _ hopen honward hv =>
      obtain ⟨w, u, x, hw, hfront⟩ := item_behind hs hopen honward
      obtain rfl := end_unique_of_shape hw hv
      rcases hfront with hfront | hfront
      · exact absurd (Or.inl rfl) (h.absent _ _ hfront)
      · exact absurd (Or.inr rfl) (h.absent _ _ hfront)
  | commaOrBrace _ hopen honward hm =>
      obtain ⟨m, u, x, hm', hfront⟩ := member_behind hs hopen honward
      obtain rfl := member_end_unique _ _ _ _ _ hm' hm
      rcases hfront with hfront | hfront
      · exact absurd (Or.inl rfl) (h.absent _ _ hfront)
      · exact absurd (Or.inr rfl) (h.absent _ _ hfront)

/-- The contents of an object end behind the brace that closes it. -/
theorem exists_closedBy {ms : Members} {brace behind : Source}
    (h : Contents placeFront .closeBrace
      (Member placeFront (Spells placeFront)) ms brace behind) :
    ∃ close, ClosedBy ms brace close ∧ behind.pos - 1 = close.pos := by
  have hlast : ∀ {u : Source}, placeFront .closeBrace u behind →
      ∃ close, ClosedBy ms brace close ∧ behind.pos - 1 = close.pos := by
    intro u hend
    have hspans := spans_closeBrace hend
    refine ⟨u.front, ⟨behind, h, hspans⟩, ?_⟩
    rw [hspans.pos]
    exact Nat.add_sub_cancel _ _
  cases h with
  | empty hend => exact hlast hend
  | items hitems =>
      have hend : ∃ u, placeFront .closeBrace u behind := by
        clear hlast
        induction hitems with
        | last _ hend => exact ⟨_, hend⟩
        | more _ _ _ ih => exact ih
      obtain ⟨u, hend⟩ := hend
      exact hlast hend

theorem faultAt_of_misfit (hs : Stands s)
    (h : Misfit searched config n s e) : FaultAt config n s e := by
  cases h with
  | type hform happlies hv hrefused =>
      exact .type happlies hform hv hrefused
  | enum hform happlies hfront hunknown =>
      exact .enum happlies hform hfront hunknown
  | required hdeclares hopen hcontents hfind =>
      obtain ⟨close, hclosed, hpos⟩ := exists_closedBy hcontents
      rw [hpos]
      refine .property hopen (hdeclares.imp fun tag found => ?_) hclosed hfind
      exact tagSearch_of_searched hs hopen

theorem faultAt_of_unbranched (hs : Stands s) (he : e.reason.RefusesValue)
    (h : Unbranched searched n s e) : FaultAt config n s e := by
  cases h with
  | search hform hopen hsearch =>
      rcases search_of_searched hs hopen hsearch with
        ⟨e', heq, fault, htoken⟩ | htag
      · cases heq
        rw [htoken] at he
        exact he.elim
      · cases htag with
        | notString htag hvalue hquote =>
            exact .tagNotString hopen hform htag hvalue hquote
        | missing hclosed hnew => exact .missingTag hopen hform hclosed hnew
  | unmapped hform hopen hsearch hnone =>
      cases tagSearch_of_searched hs hopen hsearch with
      | found htag hfront => exact .unmappedTag hopen hform htag hfront hnone

/-- Where reading a value that stands halts for the value itself, the value is
at fault. -/
theorem faultAt_of_halts (hs : Stands s) (he : e.reason.RefusesValue)
    (h : Halts searched config g s e) :
    ∃ n, g = some n ∧ FaultAt config n s e := by
  cases h with
  | missing hawaits hmissing => exact faultAt_of_missing hs hawaits hmissing
  | token | null | depth => exact he.elim
  | key hfault => cases hfault <;> exact he.elim
  | @misfit n _ _ hmisfit => exact ⟨n, rfl, faultAt_of_misfit hs hmisfit⟩
  | @unbranched n _ _ hunbranched =>
      exact ⟨n, rfl, faultAt_of_unbranched hs he hunbranched⟩

end

end Parsing

namespace Parser

open Source Grammar Parsing Program

/-- A parse of well-formed text that refuses a value has gone down to a value at
fault. -/
theorem exists_faultAt_of_parse {program : Program} {config : Config}
    {text : String} {e : Failure} (htext : Shape.WellFormed text.toList)
    (h : parse ⟨program, config⟩ text = .error e)
    (he : e.reason.RefusesValue) :
    ∃ n s, Leads TagSearch program.target (some program.root, .ofText text)
        (some n, s) ∧ FaultAt config n s e := by
  rcases explained_of_parse h with ⟨v, s, -, rfl⟩ | ⟨g, s, hleads, hhalts⟩
  · exact he.elim
  · obtain ⟨hleads, hs⟩ := hleads.stands (stands_of_wellFormed htext)
    obtain ⟨n, rfl, hfault⟩ := faultAt_of_halts hs he hhalts
    exact ⟨n, s, hleads, hfault⟩

end Parser
end JsonTypedef
