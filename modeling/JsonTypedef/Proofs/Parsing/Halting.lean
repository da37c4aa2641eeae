import JsonTypedef.Proofs.Parsing.Descent

/-!
# Where parsers halt

Every scanner of the parser yields what is spelled at its place, or its failure
is explained: reading goes down from that place to a value at which it halts.
There is one lemma for each function of the parser, and an induction on the
depth over them.
-/

namespace JsonTypedef
namespace Parsing

open Grammar Scanner Program

variable {config : Config} {target : ℕ → Node} {c : Cursor} {s : Source}

/-- A value is spelled from a place on, or reading it along the guide fails for
an explained reason. -/
abbrev Explains (config : Config) (target : ℕ → Node) (g : Guide) (s : Source)
    {c : Cursor} (r : Except Failure (Taken Value c)) : Prop :=
  Traces (Spells placeFront) (Explained searched config target (g, s)) s r

/-! ## Tokens -/

theorem traces_token {fails : Failure → Prop} {t : Token} {v : Value}
    {rest : Cursor} {hless : rest.size < c.size} (hc : c.At s)
    (htake : c.take? = some ⟨t, rest, hless⟩)
    (hv : ∀ s', placeFront t s s' → Spells placeFront v s s') :
    Traces (Spells placeFront) fails s (.ok ⟨v, rest, hless⟩) := by
  obtain ⟨s', hrest, hfront⟩ := hc.front ⟨hless, htake⟩
  exact ⟨s', hrest, hv s' hfront⟩

/-! ## Containers -/

section

variable {g g' : Guide} {bracket brace here : Source}

theorem items_traces {item : Scanner Failure Value} (hguide : ItemGuide g g')
    (hopen : placeFront .openBracket s bracket)
    (hitem : ∀ c s, c.At s → Explains config target g' s (item c)) :
    Traces (Contents placeFront .closeBracket (Spells placeFront))
      (Explained searched config target (g, s)) bracket
      (items item (.ofSource bracket)) := by
  apply enclosed_traces
  · intro before here honward
    have hread := hitem _ here (Cursor.at_awaiting before here)
    apply hread.mono
    intro e he
    exact he.of_step (.item hguide hopen honward)
  · intro before v here behind honward hv hclose hcomma
    apply explained_missing (Cursor.at_ofSource behind)
      (.commaOrBracket hguide hopen honward hv)
    refine ⟨?_, fun _ _ _ => rfl⟩
    rintro t s' hfront (rfl | rfl)
    · exact hcomma s' hfront
    · exact hclose s' hfront

theorem member_traces {value : MemberValue} {before : Members}
    (hreads : ReadsMembers searched g brace)
    (hopen : placeFront .openBrace s brace)
    (honward : OnwardMembers before brace here)
    (hvalue : ∀ key behind s',
      NameAt searched g s before key brace here behind → key ∉ before.keys →
        placeFront .colon behind s' →
          Traces (Spells placeFront) (Explained searched config target (g, s))
            s' (value key (Cursor.awaiting before here).pos (.ofSource s'))) :
    Traces (Member placeFront (Spells placeFront))
      (Explained searched config target (g, s)) here
      (member value before (.awaiting before here)) := by
  have hat := Cursor.at_awaiting before here
  unfold member
  split
  next key afterKey hless htake =>
    obtain ⟨behind, rfl, hkey⟩ := hat.front ⟨hless, htake⟩
    have hname : NameAt searched g s before key brace here behind :=
      ⟨hreads, hopen, honward, hkey⟩
    split
    next hrepeated =>
      rw [hat.start]
      exact .of_halts (.key (.duplicate hname (Members.has_iff.mp hrepeated)))
    next hnew =>
      have hnew : key ∉ before.keys := fun hmem =>
        hnew (Members.has_iff.mpr hmem)
      split
      next hnone =>
        apply explained_missing (Cursor.at_ofSource behind) (.colon hname)
        refine ⟨?_, fun _ _ _ => rfl⟩
        rintro t s' hfront rfl
        exact Cursor.not_front_of_accept?_eq_none hnone
          ((Cursor.at_ofSource behind).give hfront)
      next colon haccept =>
        obtain ⟨_, afterColon, hshorter⟩ := colon
        obtain ⟨s', rfl, hcolon⟩ := (Cursor.at_ofSource behind).front
          (Cursor.front_of_accept haccept)
        have hread := hvalue key behind s' hname hnew hcolon
        exact hread.map _ (fun _ => rfl)
          (fun t u hv => .mk hkey hcolon hv) fun _ he => he
  next hother =>
    apply explained_stuck hat (.key hreads hopen honward)
    rintro ⟨_, rest, hless⟩ htake ⟨x, rfl⟩
    exact hother x rest hless htake

theorem members_traces {value : MemberValue}
    (hreads : ReadsMembers searched g brace)
    (hopen : placeFront .openBrace s brace)
    (hvalue : ∀ before here key behind s',
      NameAt searched g s before key brace here behind → key ∉ before.keys →
        placeFront .colon behind s' →
          Traces (Spells placeFront) (Explained searched config target (g, s))
            s' (value key (Cursor.awaiting before here).pos (.ofSource s'))) :
    Traces
      (Contents placeFront .closeBrace (Member placeFront (Spells placeFront)))
      (Explained searched config target (g, s)) brace
      (members value (.ofSource brace)) := by
  apply enclosed_traces
  · intro before here honward
    exact member_traces hreads hopen honward (hvalue before here)
  · intro before m here behind honward hm hclose hcomma
    apply explained_missing (Cursor.at_ofSource behind)
      (.commaOrBrace hreads hopen honward hm)
    refine ⟨?_, fun _ _ _ => rfl⟩
    rintro t s' hfront (rfl | rfl)
    · exact hcomma s' hfront
    · exact hclose s' hfront

/-- The members of an object whose values are all read along one guide. -/
theorem members_traces_of_guide {item : Scanner Failure Value}
    (hreads : ReadsMembers searched g brace)
    (hopen : placeFront .openBrace s brace)
    (hguide : ∀ key, MemberGuide searched g brace key g')
    (hitem : ∀ c s, c.At s → Explains config target g' s (item c)) :
    Traces
      (Contents placeFront .closeBrace (Member placeFront (Spells placeFront)))
      (Explained searched config target (g, s)) brace
      (members (fun _ _ => item) (.ofSource brace)) := by
  apply members_traces hreads hopen
  intro before here key behind s' hname hnew hcolon
  have hread := hitem _ s' (Cursor.at_ofSource s')
  apply hread.mono
  intro e he
  exact he.of_step (.member hname hnew hcolon (hguide key))

end

/-! ## Values without a node -/

theorem untypedWith_explained {inner : Option (Scanner Failure Value)}
    (hinner : ∀ value ∈ inner, ∀ c s, c.At s →
      Explains config target none s (value c)) (hc : c.At s) :
    Explains config target none s (untypedWith config inner c) := by
  unfold untypedWith
  split
  next htake => exact traces_token hc htake fun _ => .null
  next htake => exact traces_token hc htake fun _ => .bool
  next htake => exact traces_token hc htake fun _ => .str
  next htake => exact traces_token hc htake fun _ => .num
  next rest hless htake =>
    split
    next => exact explained_depth (Or.inr hc.start)
    next value =>
      obtain ⟨bracket, rfl, hopen⟩ := hc.front ⟨hless, htake⟩
      have hitems := items_traces .untyped hopen (hinner value rfl)
      exact hitems.map _ (fun _ => rfl) (fun _ _ => .arr hopen) fun _ he => he
  next rest hless htake =>
    split
    next => exact explained_depth (Or.inr hc.start)
    next value =>
      obtain ⟨brace, rfl, hopen⟩ := hc.front ⟨hless, htake⟩
      have hmembers := members_traces_of_guide .untyped hopen
        (fun _ => .untyped) (hinner value rfl)
      exact hmembers.map _ (fun _ => rfl) (fun _ _ => .obj hopen)
        fun _ he => he
  next taken hnull hbool hstr hnum hbracket hbrace htake =>
    obtain ⟨t, rest, hless⟩ := taken
    obtain ⟨s', rfl, hfront⟩ := hc.front ⟨hless, htake⟩
    apply explained_missing hc .value
    apply Missing.of_front hfront
    intro hopens
    cases t with
    | null => exact hnull _ _ rfl
    | bool => exact hbool _ _ _ rfl
    | str => exact hstr _ _ _ rfl
    | num => exact hnum _ _ _ _ rfl
    | openBracket => exact hbracket _ _ rfl
    | openBrace => exact hbrace _ _ rfl
    | _ => exact hopens
  next hnone =>
    exact explained_stuck hc .value (by simp [hnone])

theorem untyped_explained {depth : ℕ} (hc : c.At s) :
    Explains config target none s (untyped config depth c) := by
  induction depth generalizing c s with
  | zero => exact untypedWith_explained (by simp) hc
  | succ depth ih =>
      refine untypedWith_explained ?_ hc
      rintro value ⟨⟩ c s hc
      exact ih hc

/-! ## Values along a form -/

section

variable {n : Node}

theorem typed_explained {kind : TypeKind} {t : Token} {v : Value}
    {rest : Cursor} {hless : rest.size < c.size} (hc : c.At s)
    (hform : n.form = .type kind) (happlies : Applies n s)
    (htake : c.take? = some ⟨t, rest, hless⟩)
    (hv : ∀ s', placeFront t s s' → Spells placeFront v s s') :
    Explains config target (some n) s
      (typed config kind (⟨v, rest, hless⟩ : Taken Value c)) := by
  obtain ⟨s', rfl, hfront⟩ := hc.front ⟨hless, htake⟩
  unfold typed
  split
  next => exact ⟨s', rfl, hv s' hfront⟩
  next hrefused =>
    rw [hc.start]
    exact .of_halts (.misfit (.type hform happlies (hv s' hfront)
      (Bool.eq_false_iff.mpr hrefused)))

theorem primitive_explained {kind : TypeKind} (hc : c.At s)
    (hform : n.form = .type kind) (happlies : Applies n s) :
    Explains config target (some n) s (primitive config kind c) := by
  unfold primitive
  split
  next htake => exact typed_explained hc hform happlies htake fun _ => .bool
  next htake => exact typed_explained hc hform happlies htake fun _ => .str
  next htake => exact typed_explained hc hform happlies htake fun _ => .num
  next hbool hstr hnum =>
    apply explained_stuck hc (.primitive hform happlies)
    rintro ⟨_, rest, hless⟩ htake (⟨b, rfl⟩ | ⟨x, rfl⟩ | ⟨lead, m, rfl⟩)
    · exact hbool b rest hless htake
    · exact hstr x rest hless htake
    · exact hnum lead m rest hless htake

theorem enumValue_explained {values : List String} (hc : c.At s)
    (hform : n.form = .enum values) (happlies : Applies n s) :
    Explains config target (some n) s (enumValue values c) := by
  unfold enumValue
  split
  next x rest hless htake =>
    obtain ⟨s', rfl, hfront⟩ := hc.front ⟨hless, htake⟩
    split
    next => exact ⟨s', rfl, .str hfront⟩
    next hunknown =>
      rw [hc.start]
      exact .of_halts (.misfit (.enum hform happlies hfront hunknown))
  next hother =>
    apply explained_stuck hc (.enumString hform happlies)
    rintro ⟨_, rest, hless⟩ htake ⟨x, rfl⟩
    exact hother x rest hless htake

theorem accept_explained {α : Type} {opener : Token} {what : Expected}
    {spells : α → Source → Source → Prop} {f : α → Value}
    {scan : Scanner Failure α} (hc : c.At s)
    (hawaits : Awaits searched (some n) s what s)
    (hadmits : ∀ t, what.Admits t → t = opener)
    (hopens : ∀ first, what.opensWith first = false)
    (hscan : ∀ s', placeFront opener s s' →
      Traces spells (Explained searched config target (some n, s)) s'
        (scan (.ofSource s')))
    (hvalue : ∀ a s' u, placeFront opener s s' → spells a s' u →
      Spells placeFront (f a) s u) :
    Explains config target (some n) s
      (match c.accept? opener with
      | none => .error (.unexpected what c)
      | some taken =>
        (scan taken.rest).map fun t => (t.map f).after taken.shorter) := by
  split
  next hnone =>
    apply explained_missing hc hawaits
    refine ⟨?_, fun first _ _ => hopens first⟩
    intro t s' hfront hadmitted
    obtain rfl := hadmits t hadmitted
    exact Cursor.not_front_of_accept?_eq_none hnone (hc.give hfront)
  next taken haccept =>
    obtain ⟨_, rest, hless⟩ := taken
    obtain ⟨s', rfl, hopen⟩ := hc.front (Cursor.front_of_accept haccept)
    have hread := hscan s' hopen
    exact hread.map _ (fun _ => rfl) (fun t u => hvalue t.value s' u hopen)
      fun _ he => he

end

section

variable {n : Node} {node : Node → Scanner Failure Value}
    {other : Scanner Failure Value}
    (hnode : ∀ n c s, c.At s → Explains config target (some n) s (node n c))
    (hother : ∀ c s, c.At s → Explains config target none s (other c))

include hnode hother

theorem memberValue_traces {p : Program.Properties} {tag : Option String}
    {brace here behind s' : Source} {before : Members} {key : String}
    (hdeclares : Declares searched n brace p tag)
    (hname : NameAt searched (some n) s before key brace here behind)
    (hnew : key ∉ before.keys) (hcolon : placeFront .colon behind s') :
    Traces (Spells placeFront) (Explained searched config target (some n, s))
      s' (memberValue node other p tag key
        (Cursor.awaiting before here).pos (.ofSource s')) := by
  have hat := Cursor.at_ofSource s'
  unfold memberValue
  split
  next htag =>
    subst htag
    unfold tagString
    split
    next htake => exact traces_token hat htake fun _ => .str
    next hother =>
      apply explained_stuck hat (.tag hname hdeclares hnew hcolon)
      rintro ⟨_, rest, hless⟩ htake ⟨x, rfl⟩
      exact hother x rest hless htake
  next htag =>
    cases hmember : p.member? key with
    | some m =>
        have hread := hnode m _ s' hat
        exact hread.mono fun e he => he.of_step
          (.member hname hnew hcolon (.declared hdeclares htag hmember))
    | none =>
        dsimp only
        split
        next hadditional =>
          have hread := hother _ s' hat
          exact hread.mono fun e he => he.of_step (.member hname hnew hcolon
            (.additional hdeclares htag hmember hadditional))
        next hadditional =>
          exact .of_halts (.key (.undeclared hname hnew hcolon hdeclares htag
            hmember (Bool.eq_false_iff.mpr hadditional)))

/-- The objects that are spelled from behind their opening brace. -/
def SpellsBehind (v : Value) (brace s' : Source) : Prop :=
  ∃ ms, v = .obj ms ∧
    Contents placeFront .closeBrace (Member placeFront (Spells placeFront)) ms
      brace s'

theorem properties_traces {p : Program.Properties} {tag : Option String}
    {brace : Source} (hdeclares : Declares searched n brace p tag)
    (hopen : placeFront .openBrace s brace) :
    Traces SpellsBehind (Explained searched config target (some n, s)) brace
      (properties node other p tag (.ofSource brace)) := by
  have hmembers := members_traces (.declared hdeclares) hopen
    fun before here key behind s' hname hnew hcolon =>
      memberValue_traces hnode hother hdeclares hname hnew hcolon
  unfold properties
  split
  next e herror => exact hmembers.of_error herror
  next t hok =>
    obtain ⟨s', hrest, hcontents⟩ := hmembers.of_ok hok
    split
    next m hfind =>
      rw [hrest]
      exact .of_halts (.misfit (.required hdeclares hopen hcontents hfind))
    next => exact ⟨s', hrest, t.value, rfl, hcontents⟩

theorem discriminator_explained {tag : String}
    {branches : List (String × Program.Branch)} (hc : c.At s)
    (hform : n.form = .discriminator tag branches) (happlies : Applies n s) :
    Explains config target (some n) s
      (discriminator node other tag branches c) := by
  unfold discriminator
  split
  next hnone =>
    apply explained_missing hc (.discriminator hform happlies)
    refine ⟨?_, fun _ _ _ => rfl⟩
    rintro t s' hfront rfl
    exact Cursor.not_front_of_accept?_eq_none hnone (hc.give hfront)
  next taken haccept =>
    obtain ⟨_, rest, hless⟩ := taken
    obtain ⟨brace, rfl, hopen⟩ := hc.front (Cursor.front_of_accept haccept)
    split
    next e hlook => exact .of_halts (.unbranched (.search hform hopen hlook))
    next value pos hlook =>
      split
      next hnone =>
        exact .of_halts (.unbranched (.unmapped hform hopen hlook hnone))
      next branch hbranch =>
        have hread := properties_traces hnode hother
          (.branch hform hlook hbranch) hopen
        refine hread.map _ (fun _ => rfl) ?_ fun _ he => he
        rintro t s' ⟨ms, hv, hcontents⟩
        rw [Taken.after, hv]
        exact .obj hopen hcontents

theorem form_explained (hc : c.At s) (happlies : Applies n s) :
    Explains config target (some n) s
      (form config target node other n.form c) := by
  cases hform : n.form with
  | empty =>
      have hread := hother c s hc
      exact hread.mono fun e he => he.of_step (.empty hform happlies)
  | ref i =>
      have hread := hnode (target i) c s hc
      exact hread.mono fun e he => he.of_step (.ref hform happlies)
  | type kind => exact primitive_explained hc hform happlies
  | enum values => exact enumValue_explained hc hform happlies
  | elements item =>
      exact accept_explained (f := .arr) hc (.array hform happlies)
        (fun _ => id) (fun _ => rfl)
        (fun s' hopen => items_traces (.elements hform) hopen (hnode item))
        fun vs s' u => .arr
  | values item =>
      exact accept_explained (f := .obj) hc (.values hform happlies)
        (fun _ => id) (fun _ => rfl)
        (fun s' hopen => members_traces_of_guide (.values hform) hopen
          (fun _ => .values hform) (hnode item))
        fun ms s' u => .obj
  | properties p =>
      apply accept_explained (f := id) hc (.properties hform happlies)
        (fun _ => id) (fun _ => rfl)
      · intro brace hopen
        exact properties_traces hnode hother (.properties hform) hopen
      · rintro _ brace s' hopen ⟨ms, rfl, hcontents⟩
        exact .obj hopen hcontents
  | discriminator tag branches =>
      exact discriminator_explained hnode hother hc hform happlies

end

theorem nullOr_explained {n : Node} {other : Scanner Failure Value}
    (hc : c.At s)
    (hother : Applies n s → Explains config target (some n) s (other c)) :
    Explains config target (some n) s (nullOr n.nullable other c) := by
  unfold nullOr
  split
  next hnullable hstream =>
    rw [hc.stream] at hstream
    exact .of_halts (.null hnullable (Stream.read_of_ofSource hstream))
  next hnullable _ =>
    split
    next taken haccept =>
      obtain ⟨_, rest, hless⟩ := taken
      obtain ⟨s', rfl, hnull⟩ := hc.front (Cursor.front_of_accept haccept)
      exact ⟨s', rfl, .null hnull⟩
    next hnone =>
      apply hother
      intro _ s' hnull
      exact Cursor.not_front_of_accept?_eq_none hnone (hc.give hnull)
  next hnullable =>
    apply hother
    intro htrue
    rw [hnullable] at htrue
    cases htrue

/-- Reading along a node yields what is spelled, or it goes down to a value at
which it halts. -/
theorem node_explained {depth : ℕ} {n : Node} (hc : c.At s) :
    Explains config target (some n) s (node config target depth n c) := by
  induction depth generalizing n c s with
  | zero => exact explained_depth hc.pos
  | succ depth ih =>
      unfold node
      have hform : Applies n s → Explains config target (some n) s
          (form config target (node config target depth) (untyped config depth)
            n.form c.skipBlanks) :=
        form_explained (fun _ _ _ hc => ih hc)
          (fun _ _ hc => untyped_explained hc) hc.skipBlanks
      have hread := nullOr_explained hc.skipBlanks hform
      exact hread.map _ (fun _ => rfl) (fun _ _ hv => hv) fun _ he => he

end Parsing

namespace Parser

open Grammar Parsing

/-- A parse that fails stops behind a whole value, or somewhere along the root
of the program. -/
theorem explained_of_parse {program : Program} {config : Config}
    {text : String} {e : Failure}
    (h : parse ⟨program, config⟩ text = .error e) :
    (∃ v s, Spells placeFront v (.ofText text) s ∧
        e = ⟨.trailing, s.front.pos⟩) ∨
      Explained searched config program.target
        (some program.root, .ofText text) e := by
  have hnode : Explains config program.target (some program.root) (.ofText text)
      (node config program.target config.maxDepth program.root
        (.ofText text)) :=
    node_explained (Cursor.at_ofSource (.ofText text))
  unfold parse at h
  dsimp only at h
  split at h
  next herror =>
    cases h
    exact Or.inr (hnode.of_error herror)
  next t hok =>
    split at h
    next => cases h
    next =>
      cases h
      obtain ⟨s, hrest, hspells⟩ := hnode.of_ok hok
      have hstart : t.rest.stream.start = s.front.pos :=
        (Cursor.at_of_eq hrest).start
      exact Or.inl ⟨t.value, s, hspells, by rw [hstart]⟩

end Parser
end JsonTypedef
