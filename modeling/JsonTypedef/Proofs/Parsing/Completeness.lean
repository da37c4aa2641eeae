import JsonTypedef.Proofs.Parsing.Soundness

/-!
# Parsing is complete

A text that spells a value is read along every node that the value fits, unless
the depth runs out.  Running out of depth is an admitted failure here, or it is
excluded by giving as much depth as nodes and tokens can use up; both cases have
the same proof.
-/

namespace JsonTypedef
namespace Parsing

open Grammar Scanner Program

/-- Running out of depth is admitted, or the depth is at least the given one. -/
def Affords (fail : Failure → Prop) (config : Config) (needed depth : Nat) :
    Prop :=
  (∀ pos, fail ⟨.depthExceeded config.maxDepth, pos⟩) ∨ needed ≤ depth

variable {fail : Failure → Prop} {config : Config} {c : Cursor} {v : Value}
    {s : Stream}

theorem Affords.mono {needed needed' depth : Nat}
    (h : Affords fail config needed depth) (hle : needed' ≤ needed) :
    Affords fail config needed' depth :=
  h.imp_right fun hdepth => Nat.le_trans hle hdepth

/-! ## Containers -/

theorem member_complete {value : MemberValue} {before : Members}
    {m : String × Value} (hnew : m.1 ∉ before.keys)
    (hvalue : ∀ pos (d : Cursor), d.size < c.size →
      Spells streamFront m.2 d.stream s →
      Reaches fail (value m.1 pos d) m.2 s)
    (h : Member streamFront (Spells streamFront) m c.stream s) :
    Reaches fail (member value before c) m s := by
  cases h with
  | @mk key v _ t u _ hkey hcolon hspells =>
      obtain ⟨⟨_, afterKey, hshorter⟩, htake, rfl, rfl⟩ :=
        Cursor.take?_of_front hkey
      obtain ⟨colon, haccept, rfl⟩ := Cursor.accept?_of_front hcolon
      have hhas : ¬ before.has key = true :=
        fun h => hnew (Members.has_iff.mp h)
      have hv := hvalue c.pos colon.rest (Nat.lt_trans colon.shorter hshorter)
        hspells
      simp only [member, htake, haccept, if_neg hhas]
      exact hv.map (key, ·) _ (fun _ => rfl) fun _ => rfl

theorem members_complete {value : MemberValue} {ms : Members} {bound : Nat}
    (hnodup : ms.keys.Nodup)
    (hvalue : ∀ m ∈ ms, ∀ pos (d : Cursor) (u : Stream), d.size ≤ bound →
      Spells streamFront m.2 d.stream u → Reaches fail (value m.1 pos d) m.2 u)
    (hsize : c.size ≤ bound)
    (h : Contents streamFront .closeBrace
      (Member streamFront (Spells streamFront)) ms c.stream s) :
    Reaches fail (members value c) ms s := by
  refine reaches_enclosed (by simp) (fun _ _ _ _ hm => hm.not_closeBrace) ?_
    hsize h
  rintro xs m ys rfl d u hd hm
  refine member_complete ?_ (fun pos e he hv => ?_) hm
  · rw [Members.keys, List.map_append, List.nodup_append] at hnodup
    obtain ⟨-, -, hdisjoint⟩ := hnodup
    intro hmem
    have hbefore : m.1 ∈ xs.map Prod.fst := by simpa [Members.keys] using hmem
    exact hdisjoint m.1 hbefore m.1 (by simp) rfl
  · exact hvalue m (by simp) pos e u (by omega) hv

theorem items_complete {item : Scanner Failure Value} {vs : List Value}
    {bound : Nat}
    (hitem : ∀ v ∈ vs, ∀ (d : Cursor) (u : Stream), d.size ≤ bound →
      Spells streamFront v d.stream u → Reaches fail (item d) v u)
    (hsize : c.size ≤ bound)
    (h : Contents streamFront .closeBracket (Spells streamFront) vs
      c.stream s) :
    Reaches fail (items item c) vs s := by
  refine reaches_enclosed (by simp) (fun _ _ _ _ hv => hv.not_closeBracket) ?_
    hsize h
  rintro xs v ys rfl d u hd hv
  exact hitem v (by simp) d u hd hv

/-! ## Values without a node -/

theorem untyped_eq_untypedWith (config : Config) (depth : Nat) :
    ∃ inner, untyped config depth = untypedWith config inner := by
  cases depth with
  | zero => exact ⟨none, rfl⟩
  | succ depth => exact ⟨some (untyped config depth), rfl⟩

theorem untyped_array {depth : Nat} {rest : Cursor}
    {hshorter : rest.size < c.size}
    (htake : c.take? = some ⟨.openBracket, rest, hshorter⟩) {vs : List Value}
    (hdepth : Affords fail config c.size depth)
    (hitems : ∀ d, Affords fail config rest.size d →
      Reaches fail (items (untyped config d) rest) vs s) :
    Reaches fail (untyped config depth c) (.arr vs) s := by
  cases depth with
  | zero =>
      rcases hdepth with hfail | hsize
      · refine Or.inr ⟨_, ?_, hfail c.stream.start⟩
        simp only [untyped, untypedWith, htake]
      · omega
  | succ depth =>
      have hvs := hitems depth (hdepth.imp_right fun hsize => by omega)
      simp only [untyped, untypedWith, htake]
      exact hvs.map Value.arr _ (fun _ => rfl) fun _ => rfl

theorem untyped_object {depth : Nat} {rest : Cursor}
    {hshorter : rest.size < c.size}
    (htake : c.take? = some ⟨.openBrace, rest, hshorter⟩) {ms : Members}
    (hdepth : Affords fail config c.size depth)
    (hmembers : ∀ d, Affords fail config rest.size d →
      Reaches fail (members (fun _ _ => untyped config d) rest) ms s) :
    Reaches fail (untyped config depth c) (.obj ms) s := by
  cases depth with
  | zero =>
      rcases hdepth with hfail | hsize
      · refine Or.inr ⟨_, ?_, hfail c.stream.start⟩
        simp only [untyped, untypedWith, htake]
      · omega
  | succ depth =>
      have hms := hmembers depth (hdepth.imp_right fun hsize => by omega)
      simp only [untyped, untypedWith, htake]
      exact hms.map Value.obj _ (fun _ => rfl) fun _ => rfl

theorem untyped_complete {depth : Nat} (h : Spells streamFront v c.stream s)
    (hdistinct : v.Distinct) (hdepth : Affords fail config c.size depth) :
    Reaches fail (untyped config depth c) v s := by
  obtain ⟨inner, hinner⟩ := untyped_eq_untypedWith config depth
  induction v generalizing depth inner c s with
  | null =>
      cases h with
      | null hfront =>
          obtain ⟨⟨_, rest, hshorter⟩, htake, rfl, rfl⟩ :=
            Cursor.take?_of_front hfront
          simp only [hinner, untypedWith, htake]
          exact Or.inl ⟨_, rfl, rfl, rfl⟩
  | bool b =>
      cases h with
      | bool hfront =>
          obtain ⟨⟨_, rest, hshorter⟩, htake, rfl, rfl⟩ :=
            Cursor.take?_of_front hfront
          simp only [hinner, untypedWith, htake]
          exact Or.inl ⟨_, rfl, rfl, rfl⟩
  | num n =>
      cases h with
      | num hfront =>
          obtain ⟨⟨_, rest, hshorter⟩, htake, rfl, rfl⟩ :=
            Cursor.take?_of_front hfront
          simp only [hinner, untypedWith, htake]
          exact Or.inl ⟨_, rfl, rfl, rfl⟩
  | str x =>
      cases h with
      | str hfront =>
          obtain ⟨⟨_, rest, hshorter⟩, htake, rfl, rfl⟩ :=
            Cursor.take?_of_front hfront
          simp only [hinner, untypedWith, htake]
          exact Or.inl ⟨_, rfl, rfl, rfl⟩
  | arr vs ih =>
      cases hdistinct with
      | arr hvs =>
          cases h with
          | arr hopen hitems =>
              obtain ⟨⟨_, rest, hshorter⟩, htake, rfl, rfl⟩ :=
                Cursor.take?_of_front hopen
              refine untyped_array htake hdepth fun d hd => ?_
              refine items_complete (fun v hv e u he hspells => ?_)
                (Nat.le_refl _) hitems
              obtain ⟨inner, hinner⟩ := untyped_eq_untypedWith config d
              exact ih v hv hspells (hvs v hv) (hd.mono he) inner hinner
  | obj ms ih =>
      cases hdistinct with
      | obj hnodup hms =>
          cases h with
          | obj hopen hmembers =>
              obtain ⟨⟨_, rest, hshorter⟩, htake, rfl, rfl⟩ :=
                Cursor.take?_of_front hopen
              refine untyped_object htake hdepth fun d hd => ?_
              refine members_complete hnodup (fun m hm _ e u he hspells => ?_)
                (Nat.le_refl _)
                hmembers
              obtain ⟨inner, hinner⟩ := untyped_eq_untypedWith config d
              exact ih m hm hspells (hms m hm) (hd.mono he) inner hinner

/-! ## Values along a form -/

theorem primitive_complete {kind : TypeKind}
    (h : Spells streamFront v c.stream s)
    (haccepts : Validator.typeAccepts config kind v = true) :
    Yields (primitive config kind c) v s := by
  cases h with
  | bool hfront =>
      obtain ⟨⟨_, rest, hshorter⟩, htake, rfl, rfl⟩ :=
        Cursor.take?_of_front hfront
      simp only [primitive, htake, typed, haccepts, if_true]
      exact ⟨_, rfl, rfl, rfl⟩
  | str hfront =>
      obtain ⟨⟨_, rest, hshorter⟩, htake, rfl, rfl⟩ :=
        Cursor.take?_of_front hfront
      simp only [primitive, htake, typed, haccepts, if_true]
      exact ⟨_, rfl, rfl, rfl⟩
  | num hfront =>
      obtain ⟨⟨_, rest, hshorter⟩, htake, rfl, rfl⟩ :=
        Cursor.take?_of_front hfront
      simp only [primitive, htake, typed, haccepts, if_true]
      exact ⟨_, rfl, rfl, rfl⟩
  | null => cases haccepts
  | arr => cases haccepts
  | obj => cases haccepts

theorem enumValue_complete {values : List String} {x : String}
    (h : Spells streamFront (.str x) c.stream s) (hx : x ∈ values) :
    Yields (enumValue values c) (.str x) s := by
  cases h with
  | str hfront =>
      obtain ⟨⟨_, rest, hshorter⟩, htake, rfl, rfl⟩ :=
        Cursor.take?_of_front hfront
      simp only [enumValue, htake, if_pos hx]
      exact ⟨_, rfl, rfl, rfl⟩

theorem tagString_complete {x : String}
    (h : Spells streamFront (.str x) c.stream s) :
    Yields (tagString c) (.str x) s := by
  cases h with
  | str hfront =>
      obtain ⟨⟨_, rest, hshorter⟩, htake, rfl, rfl⟩ :=
        Cursor.take?_of_front hfront
      simp only [tagString, htake]
      exact ⟨_, rfl, rfl, rfl⟩

/-- In an object that fits, every member fits its declaration or is accepted. -/
theorem declared_of_propertiesFit {fits : Node → Value → Prop}
    {p : Program.Properties} {tag : Option String} {ms : Members}
    (hnodup : ms.keys.Nodup) (h : PropertiesFit fits p tag ms)
    {m : String × Value} (hm : m ∈ ms) : Declared fits p tag m.1 m.2 := by
  have hget : ms.get? m.1 = some m.2 := Members.get?_of_mem hnodup hm
  cases hmember : p.member? m.1 with
  | some n =>
      have hdeclared : (m.1, n) ∈ p.declared :=
        Properties.mem_of_member? hmember
      exact Or.inr (Or.inl ⟨n, hmember, h.fits_of_get? hdeclared hget⟩)
  | none =>
      cases hadditional : p.additional with
      | true => exact Or.inr (Or.inr ⟨hmember, hadditional⟩)
      | false =>
          rcases h.declared hadditional m.1
            (Members.mem_keys.mpr ⟨m.2, hm⟩) with htag | hdecl
          · exact Or.inl htag
          · have hsome := Properties.member?_isSome_iff.mpr
              (Properties.declares_iff.mp hdecl)
            rw [hmember] at hsome
            cases hsome

section

variable {node : Node → Scanner Failure Value} {other : Scanner Failure Value}
  {fits : Node → Value → Prop} {target : Nat → Node} {p : Program.Properties}
  {tag : Option String} {bound : Nat}
  (hnode : ∀ n (d : Cursor) v s, d.size ≤ bound →
    Spells streamFront v d.stream s → v.Distinct → fits n v →
      Reaches fail (node n d) v s)
  (hother : ∀ (d : Cursor) v s, d.size ≤ bound →
    Spells streamFront v d.stream s → v.Distinct → Reaches fail (other d) v s)

include hnode hother

theorem memberValue_complete {key : String} {pos : Nat} (hsize : c.size ≤ bound)
    (h : Spells streamFront v c.stream s) (hdistinct : v.Distinct)
    (htag : tag = some key → ∃ x, v = .str x)
    (hdeclared : Declared fits p tag key v) :
    Reaches fail (memberValue node other p tag key pos c) v s := by
  unfold memberValue
  by_cases hkey : tag = some key
  · obtain ⟨x, rfl⟩ := htag hkey
    rw [if_pos hkey]
    exact (tagString_complete h).reaches
  · rw [if_neg hkey]
    rcases hdeclared with htagged | ⟨n, hn, hfits⟩ | ⟨hnone, hadditional⟩
    · exact absurd htagged hkey
    · simp only [hn]
      exact hnode n c v s hsize h hdistinct hfits
    · simp only [hnone, hadditional, if_true]
      exact hother c v s hsize h hdistinct

theorem properties_complete {ms : Members} (hsize : c.size ≤ bound)
    (h : Contents streamFront .closeBrace
      (Member streamFront (Spells streamFront)) ms c.stream s)
    (hdistinct : (Value.obj ms).Distinct)
    (htag : ∀ t ∈ tag, ∃ x, ms.get? t = some (.str x))
    (hfits : PropertiesFit fits p tag ms) :
    Reaches fail (properties node other p tag c) (.obj ms) s := by
  cases hdistinct with
  | obj hnodup hmembers =>
      have hread :
          Reaches fail (members (memberValue node other p tag) c) ms s := by
        refine members_complete hnodup (fun m hm pos d u hd hspells => ?_)
          hsize h
        refine memberValue_complete hnode hother hd hspells (hmembers m hm)
          (fun heq => ?_)
          (declared_of_propertiesFit hnodup hfits hm)
        obtain ⟨x, hx⟩ := htag m.1 heq
        rw [Members.get?_of_mem hnodup hm] at hx
        exact ⟨x, Option.some.inj hx⟩
      have hrequired : p.required.find? (fun m => !ms.has m.1) = none := by
        refine List.find?_eq_none.mpr fun m hm => ?_
        obtain ⟨v, hv, -⟩ := hfits.required m hm
        have hhas :=
          Members.has_iff.mpr (Members.mem_keys.mpr ⟨v, Members.mem_of_get? hv⟩)
        simpa using hhas
      rcases hread with ⟨t, hok, rfl, rfl⟩ | ⟨e, herror, he⟩
      · simp only [properties, hok, hrequired]
        exact Or.inl ⟨_, rfl, rfl, rfl⟩
      · refine Or.inr ⟨e, ?_, he⟩
        simp only [properties, herror]

theorem discriminator_complete {tag value : String}
    {branches : List (String × Program.Branch)} {branch : Program.Branch}
    {ms : Members} (hsize : c.size ≤ bound)
    (h : Spells streamFront (.obj ms) c.stream s)
    (hdistinct : (Value.obj ms).Distinct)
    (htag : ms.get? tag = some (.str value))
    (hbranch : List.lookup value branches = some branch)
    (hfits : PropertiesFit fits branch.properties (some tag) ms) :
    Reaches fail (discriminator node other tag branches c) (.obj ms) s := by
  cases h with
  | obj hopen hmembers =>
      obtain ⟨brace, haccept, rfl⟩ := Cursor.accept?_of_front hopen
      obtain ⟨pos, hlook⟩ := (lookAhead_eq_ok_iff hmembers).mpr htag
      have hbrace : brace.rest.size ≤ bound :=
        Nat.le_trans (Nat.le_of_lt brace.shorter) hsize
      have hread := properties_complete hnode hother hbrace hmembers hdistinct
        (by
        rintro t ⟨⟩
        exact ⟨value, htag⟩) hfits
      simp only [discriminator, haccept, hlook, hbranch]
      exact hread.map id _ (fun _ => rfl) fun _ => rfl

theorem form_complete {f : Program.Form} (hsize : c.size ≤ bound)
    (h : Spells streamFront v c.stream s) (hdistinct : v.Distinct)
    (hfits : FormFits fits (Validator.typeAccepts config) target f v) :
    Reaches fail (form config target node other f c) v s := by
  cases hfits with
  | empty => exact hother c v s hsize h hdistinct
  | ref hfits => exact hnode _ c v s hsize h hdistinct hfits
  | type haccepts => exact (primitive_complete h haccepts).reaches
  | enum hmem => exact (enumValue_complete h hmem).reaches
  | elements hfits =>
      cases hdistinct with
      | arr hvs =>
          cases h with
          | arr hopen hitems =>
              obtain ⟨bracket, haccept, rfl⟩ := Cursor.accept?_of_front hopen
              have hread := items_complete (fun v hv d u hd hspells =>
                hnode _ d v u hd hspells (hvs v hv) (hfits v hv))
                (Nat.le_trans (Nat.le_of_lt bracket.shorter) hsize) hitems
              simp only [form, haccept]
              exact hread.map Value.arr _ (fun _ => rfl) fun _ => rfl
  | values hfits =>
      cases hdistinct with
      | obj hnodup hms =>
          cases h with
          | obj hopen hmembers =>
              obtain ⟨brace, haccept, rfl⟩ := Cursor.accept?_of_front hopen
              have hread :
                  Reaches fail (members (fun _ _ => node _) brace.rest) _ _ :=
                members_complete hnodup (fun m hm _ d u hd hspells =>
                  hnode _ d m.2 u hd hspells (hms m hm) (hfits m hm))
                  (Nat.le_trans (Nat.le_of_lt brace.shorter) hsize) hmembers
              simp only [form, haccept]
              exact hread.map Value.obj _ (fun _ => rfl) fun _ => rfl
  | properties hfits =>
      cases h with
      | obj hopen hmembers =>
          obtain ⟨brace, haccept, rfl⟩ := Cursor.accept?_of_front hopen
          have hread := properties_complete hnode hother
            (Nat.le_trans (Nat.le_of_lt brace.shorter) hsize) hmembers hdistinct
              (by simp) hfits
          simp only [form, haccept]
          exact hread.map id _ (fun _ => rfl) fun _ => rfl
  | discriminator htag hbranch hfits =>
      exact discriminator_complete hnode hother hsize h hdistinct htag hbranch
        hfits

end

theorem nullOr_null {other : Scanner Failure Value}
    (h : Spells streamFront .null c.stream s) :
    Yields (nullOr true other c) .null s := by
  cases h with
  | null hfront =>
      obtain ⟨t, haccept, rfl⟩ := Cursor.accept?_of_front hfront
      unfold nullOr
      split
      next hstream =>
        rw [hstream] at hfront
        cases hfront
      next =>
        simp only [haccept]
        exact ⟨_, rfl, rfl, rfl⟩
      next => contradiction

theorem nullOr_other {nullable : Bool} {other : Scanner Failure Value}
    (h : Spells streamFront v c.stream s)
    (hother : Reaches fail (other c) v s) :
    Reaches fail (nullOr nullable other c) v s := by
  unfold nullOr
  split
  next hstream =>
    obtain ⟨t, u, hfront, -⟩ := h.front
    rw [hstream] at hfront
    cases hfront
  next =>
    cases haccept : c.accept? .null with
    | none => exact hother
    | some t =>
        -- The token is null, so the value is null whichever way it is read.
        have hnull := Cursor.front_of_accept? haccept
        cases h with
        | null hfront => exact Or.inl ⟨_, rfl, rfl, (hnull.unique hfront).2⟩
        | bool hfront => cases (hnull.unique hfront).1
        | num hfront => cases (hnull.unique hfront).1
        | str hfront => cases (hnull.unique hfront).1
        | arr hfront _ => cases (hnull.unique hfront).1
        | obj hfront _ => cases (hnull.unique hfront).1
  next => exact hother

/-- A text that spells a value is read along a node that the value fits, where
the depth suffices for the nodes and for the tokens left. -/
theorem node_complete {target : Nat → Node} {depth limit : Nat} {n : Node}
    (hfits : Fits (Validator.typeAccepts config) target depth n v)
    (h : Spells streamFront v c.stream s) (hdistinct : v.Distinct)
    (hlimit : Affords fail config (depth + c.size) limit) :
    Reaches fail (node config target limit n c) v s := by
  induction depth generalizing limit n v c s with
  | zero => exact hfits.elim
  | succ depth ih =>
      cases limit with
      | zero =>
          rcases hlimit with hfail | hsize
          · exact Or.inr ⟨_, rfl, hfail _⟩
          · omega
      | succ limit =>
          have hrest : Affords fail config (depth + c.size) limit :=
            hlimit.imp_right fun hsize => by omega
          have hnode : ∀ n (d : Cursor) v s, d.size ≤ c.size →
              Spells streamFront v d.stream s → v.Distinct →
              Fits (Validator.typeAccepts config) target depth n v →
                Reaches fail (node config target limit n d) v s :=
            fun n d v s hd hspells hdistinct hfits =>
              ih hfits hspells hdistinct (hrest.mono (by omega))
          have hother : ∀ (d : Cursor) v s, d.size ≤ c.size →
              Spells streamFront v d.stream s →
              v.Distinct → Reaches fail (untyped config limit d) v s :=
            fun d v s hd hspells hdistinct =>
              untyped_complete hspells hdistinct (hrest.mono (by omega))
          have hskip : Spells streamFront v c.skipBlanks.stream s := h
          have hread : Reaches fail (nullOr n.nullable (form config target
              (node config target limit) (untyped config limit) n.form)
              c.skipBlanks) v s := by
            rcases hfits with hnull | hfits
            · obtain ⟨rfl, hnullable⟩ := Validator.eq_null_of_isNullAt hnull
              rw [hnullable]
              exact (nullOr_null hskip).reaches
            · exact nullOr_other hskip
                (form_complete hnode hother (Nat.le_refl c.size) hskip hdistinct
                  hfits)
          unfold node
          exact hread.map id _ (fun _ => rfl) fun _ => rfl

end Parsing
end JsonTypedef
