import JsonTypedef.Proofs.Parsing.Descent

/-!
# What stands in front of a failure

Going down a text passes over values.  So the characters between the start of a
value and a place to which reading it leads begin a value, and so do those up to
where reading it halts.  Only looking for a tag is left out here, which goes over
members by their brackets alone.
-/

namespace JsonTypedef
namespace Grammar

open Source
open Shape (Texts Seq Lead)

/-! ## Members -/

/-- A member of a name stands at a place, with its value behind the colon. -/
def ValueAt (key : String) (s value : Source) : Prop :=
  ∃ behind, placeFront (.str key) s behind ∧ placeFront .colon behind value

section

variable {key : String} {s behind value stop place : Source}

theorem ValueAt.le (h : ValueAt key s value) : s.pos ≤ value.pos := by
  obtain ⟨behind, hname, hcolon⟩ := h
  exact hname.passes.le.trans hcolon.passes.le

theorem ValueAt.passes (h : ValueAt key s value)
    (hvalue : Passes Shape.Value value stop) :
    Passes (Shape.Member Shape.Value) s stop := by
  obtain ⟨behind, hname, hcolon⟩ := h
  exact (hname.passes.seq (hcolon.passes.seq hvalue)).mono
    fun _ => Shape.member_of_seq

theorem ValueAt.enters (h : ValueAt key s value)
    (hplace : Enters Shape.Value value place) :
    Enters (Shape.Member Shape.Value) s place := by
  obtain ⟨behind, hname, hcolon⟩ := h
  exact (Enters.right hname.passes (.right hcolon.passes hplace)).mono
    fun _ => Shape.member_of_seq

theorem enters_member_of_colon (hname : placeFront (.str key) s behind)
    (hplace : Enters (Lead .colon) behind place) :
    Enters (Shape.Member Shape.Value) s place := by
  have hrest := hplace.left Shape.exists_value
  exact (Enters.right hname.passes hrest).mono fun _ => Shape.member_of_seq

theorem enters_member_of_key (hplace : Enters (Lead (.str "")) s place) :
    Enters (Shape.Member Shape.Value) s place := by
  have hrest : ∃ l, Seq (Lead .colon) Shape.Value l :=
    Shape.exists_seq (Shape.exists_lead _) Shape.exists_value
  exact (hplace.left hrest).mono fun _ => Shape.member_of_seq

/-- The last item of a container begins items. -/
theorem enters_last {close : Token} {item : Texts}
    (hplace : Enters item s place) :
    Enters (Shape.Items close item) s place :=
  (hplace.left (Shape.exists_lead close)).mono fun _ => Shape.items_of_last

theorem ValueAt.entersAt {pos : ℕ} (h : ValueAt key s value)
    (hvalue : EntersAt Shape.Value value pos) :
    EntersAt (Shape.Items .closeBrace (Shape.Member Shape.Value)) s pos :=
  hvalue.imp fun _ hplace => enters_last (h.enters hplace)

end

/-! ## Passing over what is spelled -/

section

variable {α : Type} {close : Token} {item : α → Source → Source → Prop}
    {L : Texts} {as : List α} {s s' : Source}

theorem Items.passes
    (hitem : ∀ a ∈ as, ∀ s s', item a s s' → Passes L s s')
    (h : Items placeFront close item as s s') :
    Passes (Shape.Items close L) s s' := by
  induction h with
  | last ha hend =>
      have hlast := hitem _ (List.mem_singleton_self _) _ _ ha
      exact (hlast.seq hend.passes).mono fun _ => Shape.items_of_last
  | more ha hcomma _ ih =>
      have hfirst := hitem _ List.mem_cons_self _ _ ha
      have hrest := ih fun a ha => hitem a (List.mem_cons_of_mem _ ha)
      exact (hfirst.seq (hcomma.passes.seq hrest)).mono
        fun _ => Shape.items_of_more

theorem Contents.passes
    (hitem : ∀ a ∈ as, ∀ s s', item a s s' → Passes L s s')
    (h : Contents placeFront close item as s s') :
    Passes (Shape.Contents close L) s s' := by
  cases h with
  | empty hend => exact hend.passes.mono fun _ => .empty
  | items hitems => exact (hitems.passes hitem).mono fun _ => .items

theorem Member.passes {m : String × Value}
    {value : Value → Source → Source → Prop}
    (hvalue : ∀ s s', value m.2 s s' → Passes Shape.Value s s')
    (h : Member placeFront value m s s') :
    Passes (Shape.Member Shape.Value) s s' := by
  cases h with
  | mk hkey hcolon hbehind =>
      have hat : ValueAt _ s _ := ⟨_, hkey, hcolon⟩
      exact hat.passes (hvalue _ _ hbehind)

end

/-- What spells a value is the text of a value. -/
theorem Spells.passes {v : Value} {s s' : Source}
    (h : Spells placeFront v s s') : Passes Shape.Value s s' := by
  have hscalar : ∀ {t : Token} {s s' : Source}, placeFront t s s' →
      Shape.IsScalar t → Passes Shape.Value s s' :=
    fun hfront ht => hfront.passes.mono fun _ hl => .scalar hl ht
  induction v generalizing s s' with
  | null =>
      cases h with
      | null hfront => exact hscalar hfront trivial
  | bool b =>
      cases h with
      | bool hfront => exact hscalar hfront trivial
  | num n =>
      cases h with
      | num hfront => exact hscalar hfront trivial
  | str x =>
      cases h with
      | str hfront => exact hscalar hfront trivial
  | arr items ih =>
      cases h with
      | arr hopen hitems =>
          have hcontents := hitems.passes fun v hv _ _ => ih v hv
          exact (hopen.passes.seq hcontents).mono fun _ => Shape.value_of_arr
  | obj members ih =>
      cases h with
      | obj hopen hmembers =>
          have hcontents := hmembers.passes fun m hm _ _ =>
            Member.passes fun _ _ => ih m hm
          exact (hopen.passes.seq hcontents).mono fun _ => Shape.value_of_obj

/-- What may stand where an item is awaited may stand there in the container. -/
theorem Onward.enters {α : Type} {close : Token}
    {item : α → Source → Source → Prop} {L : Texts} {before : List α}
    {opened here place : Source}
    (hitem : ∀ a s s', item a s s' → Passes L s s')
    (h : Onward placeFront close item before opened here)
    (hplace : Enters (Shape.Items close L) here place) :
    Enters (Shape.Contents close L) opened place := by
  have hitems : Enters (Shape.Items close L) opened place := by
    induction h with
    | start => exact hplace
    | comma _ ha hcomma ih =>
        have hbehind := Enters.right hcomma.passes hplace
        exact ih ((Enters.right (hitem _ _ _ ha) hbehind).mono
          fun _ => Shape.items_of_more)
  exact hitems.mono fun _ => .items

end Grammar

namespace Parsing

open Source Grammar Program
open Shape (Texts Lead)

/-! ## Where something is expected -/

/-- The texts that are expected. -/
def Expected.shape : Expected → Texts
  | .key => Lead (.str "")
  | .colon => Lead .colon
  | .commaOrBracket => Lead .closeBracket
  | .commaOrBrace => Lead .closeBrace
  | _ => Shape.Value

section

variable {s : Source} {what : Expected} {first : Char} {fault : Token.Located}
    {pos : ℕ}

theorem entersAt_value {t : Token} (h : EntersAt (Lead t) s pos)
    (ht : Shape.IsScalar t) : EntersAt Shape.Value s pos :=
  h.mono fun _ hl => .scalar hl ht

theorem entersAt_value_front (s : Source) :
    EntersAt Shape.Value s s.front.pos :=
  entersAt_value (entersAt_front .null s) trivial

/-- What is expected may stand behind blanks. -/
theorem entersAt_shape (what : Expected) (s : Source) :
    EntersAt what.shape s s.front.pos := by
  cases what with
  | key | colon | commaOrBracket | commaOrBrace => exact entersAt_front _ s
  | _ => exact entersAt_value_front s

/-- A fault in a string is reported inside of it. -/
theorem entersAt_key_of_reported (h : Lexeme.Reported s.front '"' pos) :
    EntersAt (Lead (.str "")) s pos := by
  cases h with
  | start => exact entersAt_front _ s
  | str henters => exact .right (passes_front s) ⟨_, henters, rfl⟩
  | num hlead => exact absurd hlead (by decide)

/-- A fault in a token is reported where that may still be a value. -/
theorem entersAt_value_of_reported (h : Lexeme.Reported s.front first pos) :
    EntersAt Shape.Value s pos := by
  cases h with
  | start => exact entersAt_value_front s
  | str henters =>
      have hlead : EntersAt (Lead (.str "")) s _ :=
        .right (passes_front s) ⟨_, henters, rfl⟩
      exact entersAt_value hlead trivial
  | num hlead henters =>
      have hnumber :
          Enters (Shape.Spelling (.num '0' (.int 0 rfl))) s.front _ :=
        henters.mono fun _ => .num
      have hlead : EntersAt (Lead (.num '0' (.int 0 rfl))) s _ :=
        .right (passes_front s) ⟨_, hnumber, rfl⟩
      exact entersAt_value hlead trivial

/-- A fault is reported where its token may still be what is expected. -/
theorem Faulty.entersAt (h : Faulty what s fault) :
    EntersAt what.shape s fault.2 := by
  obtain ⟨first, hread, hopens⟩ := h
  have hreported := Lexeme.reported_of_read hread
  cases what with
  | key =>
      obtain rfl : first = '"' := by
        simpa [Expected.opensWith, isQuote] using hopens
      exact entersAt_key_of_reported hreported
  | colon | commaOrBracket | commaOrBrace => cases hopens
  | _ => exact entersAt_value_of_reported hreported

variable {c : Cursor}

theorem entersAt_start (hc : c.At s) (what : Expected) :
    EntersAt what.shape s c.stream.start := by
  rw [hc.start]
  exact entersAt_shape what s

theorem entersAt_stuck (hc : c.At s) (what : Expected) :
    EntersAt what.shape s (Failure.stuck what.opensWith what c).position := by
  unfold Failure.stuck
  split
  next first fault pos hstream =>
    split
    next hopens =>
      rw [hc.stream] at hstream
      have hfaulty : Faulty what s (fault, pos) :=
        ⟨first, Stream.read_of_ofSource hstream, hopens⟩
      exact hfaulty.entersAt
    next => exact entersAt_start hc what
  next => exact entersAt_start hc what

end

/-! ## Inside of containers -/

section

variable {s bracket brace here place : Source}

theorem enters_item {before : List Value}
    (hopen : placeFront .openBracket s bracket)
    (honward : Onward placeFront .closeBracket (Spells placeFront) before
      bracket here)
    (hplace : Enters (Shape.Items .closeBracket Shape.Value) here place) :
    Enters Shape.Value s place := by
  have hcontents := honward.enters (fun _ _ _ => Spells.passes) hplace
  exact (Enters.right hopen.passes hcontents).mono fun _ => Shape.value_of_arr

theorem enters_members {before : Members}
    (hopen : placeFront .openBrace s brace)
    (honward : OnwardMembers before brace here)
    (hplace : Enters (Shape.Items .closeBrace (Shape.Member Shape.Value)) here
      place) :
    Enters Shape.Value s place := by
  have hcontents := honward.enters
    (fun _ _ _ => Member.passes fun _ _ => Spells.passes) hplace
  exact (Enters.right hopen.passes hcontents).mono fun _ => Shape.value_of_obj

theorem enters_member {before : Members}
    (hopen : placeFront .openBrace s brace)
    (honward : OnwardMembers before brace here)
    (hplace : Enters (Shape.Member Shape.Value) here place) :
    Enters Shape.Value s place :=
  enters_members hopen honward (enters_last hplace)

theorem NameAt.enters_value {search : Search} {g : Guide} {before : Members}
    {key : String} {behind value : Source}
    (h : NameAt search g s before key brace here behind)
    (hcolon : placeFront .colon behind value)
    (hplace : Enters Shape.Value value place) : Enters Shape.Value s place := by
  have hat : ValueAt key here value := ⟨behind, h.name, hcolon⟩
  exact enters_member h.opened h.members (hat.enters hplace)

end

/-! ## Going down -/

section

variable {search : Search} {config : Config} {target : ℕ → Node}
    {start there : Guide × Source} {g : Guide} {n : Node}
    {s here place : Source} {what : Expected} {pos : ℕ} {e : Failure}

/-- What begins a value to which reading goes on begins the value itself. -/
theorem Step.enters (h : Step search target start there)
    (hplace : Enters Shape.Value there.2 place) :
    Enters Shape.Value start.2 place := by
  cases h with
  | empty => exact hplace
  | ref => exact hplace
  | item _ hopen honward => exact enters_item hopen honward (enters_last hplace)
  | member hname _ hcolon _ => exact hname.enters_value hcolon hplace

theorem Leads.enters (h : Leads search target start there)
    (hplace : Enters Shape.Value there.2 place) :
    Enters Shape.Value start.2 place := by
  induction h with
  | refl => exact hplace
  | tail _ hstep ih => exact ih (hstep.enters hplace)

theorem Leads.entersAt (h : Leads search target start there)
    (hpos : EntersAt Shape.Value there.2 pos) :
    EntersAt Shape.Value start.2 pos :=
  hpos.imp fun _ => h.enters

/-- What is awaited while a value is read may stand there in the value. -/
theorem Awaits.enters (h : Awaits search g s what here)
    (hplace : Enters what.shape here place) : Enters Shape.Value s place := by
  cases h with
  | value | primitive | enumString | array | values | properties
  | discriminator => exact hplace
  | key _ hopen honward =>
      exact enters_member hopen honward (enters_member_of_key hplace)
  | colon hname =>
      exact enters_member hname.opened hname.members
        (enters_member_of_colon hname.name hplace)
  | tag hname _ _ hcolon => exact hname.enters_value hcolon hplace
  | commaOrBracket _ hopen honward hv =>
      have hitems := Enters.right hv.passes hplace
      exact enters_item hopen honward
        (hitems.mono fun _ => Shape.items_of_last)
  | commaOrBrace _ hopen honward hm =>
      have hmember := hm.passes fun _ _ => Spells.passes
      exact enters_members hopen honward
        ((Enters.right hmember hplace).mono fun _ => Shape.items_of_last)

theorem Awaits.entersAt (h : Awaits search g s what here)
    (hpos : EntersAt what.shape here pos) : EntersAt Shape.Value s pos :=
  hpos.imp fun _ => h.enters

theorem KeyFault.entersAt (h : KeyFault search g s e) :
    EntersAt Shape.Value s e.position := by
  cases h with
  | duplicate hname =>
      exact (Awaits.key hname.reads hname.opened hname.members).entersAt
        (entersAt_shape .key _)
  | @undeclared _ _ _ here _ _ before _ _ _ hname =>
      exact (Awaits.key hname.reads hname.opened hname.members).entersAt
        (entersAt_pos (Cursor.at_awaiting before here) _)

theorem Misfit.entersAt (h : Misfit search config n s e) :
    EntersAt Shape.Value s e.position := by
  cases h with
  | type => exact entersAt_value_front s
  | enum => exact entersAt_value_front s
  | required _ hopen hcontents _ =>
      have hmembers := hcontents.passes fun _ _ _ _ =>
        Member.passes fun _ _ => Spells.passes
      have hbrace := hmembers.entersAt_last (by decide)
        fun _ => Shape.exists_append_of_contents
      exact (EntersAt.right hopen.passes hbrace).mono
        fun _ => Shape.value_of_obj

/-- Reading halts where the characters still begin a value, unless it has looked
for a tag. -/
theorem Halts.entersAt (h : Halts search config g s e) :
    EntersAt Shape.Value s e.position ∨
      ∃ n, g = some n ∧ Unbranched search n s e := by
  cases h with
  | missing hawaits _ =>
      exact Or.inl (hawaits.entersAt (entersAt_shape _ _))
  | token hawaits hfaulty => exact Or.inl (hawaits.entersAt hfaulty.entersAt)
  | null _ hread =>
      exact Or.inl (entersAt_value_of_reported (Lexeme.reported_of_read hread))
  | depth hpos =>
      rcases hpos with rfl | rfl
      · exact Or.inl ⟨s, .refl Shape.exists_value s, rfl⟩
      · exact Or.inl (entersAt_value_front s)
  | key hfault => exact Or.inl hfault.entersAt
  | misfit hmisfit => exact Or.inl hmisfit.entersAt
  | @unbranched n _ _ hunbranched => exact Or.inr ⟨n, rfl, hunbranched⟩

end

end Parsing
end JsonTypedef
