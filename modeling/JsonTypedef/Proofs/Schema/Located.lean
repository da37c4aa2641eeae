import JsonTypedef.Proofs.Json.Place
import JsonTypedef.Proofs.Schema.Grammar

/-!
# Schema errors point into the document

`SchemaError.Blames` says for each kind of schema error what is wrong at the
path of the error.  The checker goes down a document along with the path of the
node it is at, and blames that node, a keyword of it, or an item or a member
below a keyword.  So the path of an error leads to a value of the document, and
what the error says is the case there.
-/

namespace JsonTypedef

theorem Members.mem_keys_of_flag {ms : Members} {keyword : String}
    (h : ms.flag keyword = true) : keyword ∈ ms.keys := by
  unfold flag at h
  split at h
  next hget => exact mem_keys_of_get? hget
  next => cases h

theorem Pointer.child_ne_root (p : Pointer) (segment : String) :
    p.child segment ≠ root := by
  intro h
  exact List.append_ne_nil_of_right_ne_nil _ (List.cons_ne_nil _ _)
    (congrArg Pointer.segments h)

namespace Value

/-- The value is a string. -/
def IsString (v : Value) : Prop :=
  ∃ s, v = .str s

/-- The names that the refs of a document may name. -/
def definitionNames : Value → List String
  | .obj ms => (Members.table ms "definitions").keys
  | _ => []

end Value

namespace SchemaError

open Schema

/-- What the error says is the case at its path in the document, whose refs may
name `names`. -/
inductive Blames (names : List String) (d : Value) : SchemaError → Prop
  | notAnObject {path : Pointer} {v : Value} :
      d.at? path.segments = some v → ¬ v.IsObject →
        Blames names d ⟨path, .notAnObject⟩
  | unknownKeyword {path : Pointer} {ms : Members} {keyword : String} :
      d.at? path.segments = some (.obj ms) → keyword ∈ ms.keys →
      ¬ IsShared true keyword → (∀ group : Group, keyword ∉ group.keywords) →
        Blames names d ⟨path.child keyword, .unknownKeyword keyword⟩
  | notBoolean {path : Pointer} {ms : Members} {keyword : String} {v : Value} :
      d.at? path.segments = some (.obj ms) → ms.get? keyword = some v →
      ¬ v.IsBoolean →
        Blames names d ⟨path.child keyword, .wrongType keyword "a boolean"⟩
  | notObject {path : Pointer} {ms : Members} {keyword : String} {v : Value} :
      d.at? path.segments = some (.obj ms) → ms.get? keyword = some v →
      ¬ v.IsObject →
        Blames names d ⟨path.child keyword, .wrongType keyword "an object"⟩
  | notString {path : Pointer} {ms : Members} {keyword : String} {v : Value} :
      d.at? path.segments = some (.obj ms) → ms.get? keyword = some v →
      ¬ v.IsString →
        Blames names d ⟨path.child keyword, .wrongType keyword "a string"⟩
  | notArray {path : Pointer} {ms : Members} {v : Value} :
      d.at? path.segments = some (.obj ms) → ms.get? "enum" = some v →
      (∀ items, v ≠ .arr items) →
        Blames names d
          ⟨path.child "enum", .wrongType "enum" "an array of strings"⟩
  | notStringItem {path : Pointer} {ms : Members} {front items : List Value}
      {item : Value} :
      d.at? path.segments = some (.obj ms) →
      ms.get? "enum" = some (.arr (front ++ item :: items)) → ¬ item.IsString →
        Blames names d ⟨(path.child "enum").child (toString front.length),
          .wrongType "enum" "an array of strings"⟩
  | nestedDefinitions {path : Pointer} {ms : Members} :
      d.at? path.segments = some (.obj ms) → "definitions" ∈ ms.keys →
      path ≠ .root →
        Blames names d ⟨path.child "definitions", .nestedDefinitions⟩
  | unknownType {path : Pointer} {ms : Members} {name : String} :
      d.at? path.segments = some (.obj ms) →
      ms.get? "type" = some (.str name) →
      (∀ kind : TypeKind, name ≠ kind.name) →
        Blames names d ⟨path.child "type", .unknownType name⟩
  | emptyEnum {path : Pointer} {ms : Members} :
      d.at? path.segments = some (.obj ms) → ms.get? "enum" = some (.arr []) →
        Blames names d ⟨path.child "enum", .emptyEnum⟩
  | duplicateEnumValue {path : Pointer} {ms : Members}
      {front items : List Value} {s : String} :
      d.at? path.segments = some (.obj ms) →
      ms.get? "enum" = some (.arr (front ++ .str s :: items)) →
      .str s ∈ front →
        Blames names d ⟨(path.child "enum").child (toString front.length),
          .duplicateEnumValue s⟩
  | unresolvedRef {path : Pointer} {ms : Members} {name : String} :
      d.at? path.segments = some (.obj ms) →
      ms.get? "ref" = some (.str name) → name ∉ names →
        Blames names d ⟨path.child "ref", .unresolvedRef name⟩
  | conflictingForms {path : Pointer} {ms : Members} {first second : String}
      {group group' : Group} :
      d.at? path.segments = some (.obj ms) → first ∈ ms.keys →
      second ∈ ms.keys → first ∈ group.keywords → second ∈ group'.keywords →
      group ≠ group' →
        Blames names d ⟨path, .conflictingForms first second⟩
  | incompleteForm {path : Pointer} {ms : Members} {present missing : String}
      {group : Group} :
      d.at? path.segments = some (.obj ms) → present ∈ ms.keys →
      missing ∉ ms.keys → present ∈ group.keywords → missing ∈ group.keywords →
        Blames names d ⟨path, .incompleteForm present missing⟩
  | overlappingProperty {path : Pointer} {ms : Members} {name : String} :
      d.at? path.segments = some (.obj ms) →
      name ∈ (ms.table "properties").keys →
      name ∈ (ms.table "optionalProperties").keys →
        Blames names d ⟨(path.child "optionalProperties").child name,
          .overlappingProperty name⟩
  | mappingNotProperties {path : Pointer} {ms : Members} :
      d.at? path.segments = some (.obj ms) → "properties" ∉ ms.keys →
      "optionalProperties" ∉ ms.keys →
        Blames names d ⟨path, .mappingNotProperties⟩
  | nullableMapping {path : Pointer} {ms : Members} :
      d.at? path.segments = some (.obj ms) → ms.flag "nullable" = true →
        Blames names d ⟨path.child "nullable", .nullableMapping⟩
  | tagRedeclared {path : Pointer} {ms : Members} {keyword tag : String} :
      d.at? path.segments = some (.obj ms) →
      keyword = "properties" ∨ keyword = "optionalProperties" →
      tag ∈ (ms.table keyword).keys →
        Blames names d ⟨(path.child keyword).child tag, .tagRedeclared tag⟩

section

variable {d : Value} {path : Pointer} {ms : Members}
  (hpath : d.at? path.segments = some (.obj ms))

include hpath

theorem has_keyword {keyword : String} {v : Value}
    (hget : ms.get? keyword = some v) : d.Has (path.child keyword) :=
  Value.has_child hpath (Members.mem_keys_of_get? hget)

/-- The name of an entry leads further down from the keyword. -/
theorem has_entry {keyword name : String}
    (hname : name ∈ (ms.table keyword).keys) :
    d.Has ((path.child keyword).child name) := by
  obtain ⟨v, hmem⟩ := Members.mem_keys.mp hname
  obtain ⟨entries, hget, he⟩ := Members.exists_get?_of_mem_table hmem
  have hbase : d.at? (path.child keyword).segments = some (.obj entries) := by
    rw [Value.at?_child hpath, hget]
  exact Value.has_child hbase (Members.mem_keys.mpr ⟨v, he⟩)

theorem has_item {keyword : String} {front items : List Value} {item : Value}
    (hget : ms.get? keyword = some (.arr (front ++ item :: items))) :
    d.Has ((path.child keyword).child (toString front.length)) := by
  refine ⟨item, ?_⟩
  rw [Pointer.segments_child, Value.at?_append, Value.at?_child hpath, hget,
    Option.bind_some, Value.at?_item,
    List.getElem?_append_right (Nat.le_refl _), Nat.sub_self,
    List.getElem?_cons_zero]

end

/-- What is blamed stands in the document. -/
theorem Blames.has {names : List String} {d : Value} {e : SchemaError}
    (h : e.Blames names d) : d.Has e.path := by
  cases h with
  | notAnObject hpath => exact ⟨_, hpath⟩
  | unknownKeyword hpath hkey => exact Value.has_child hpath hkey
  | notBoolean hpath hget => exact has_keyword hpath hget
  | notObject hpath hget => exact has_keyword hpath hget
  | notString hpath hget => exact has_keyword hpath hget
  | notArray hpath hget => exact has_keyword hpath hget
  | notStringItem hpath hget => exact has_item hpath hget
  | nestedDefinitions hpath hkey => exact Value.has_child hpath hkey
  | unknownType hpath hget => exact has_keyword hpath hget
  | emptyEnum hpath hget => exact has_keyword hpath hget
  | duplicateEnumValue hpath hget => exact has_item hpath hget
  | unresolvedRef hpath hget => exact has_keyword hpath hget
  | conflictingForms hpath => exact ⟨_, hpath⟩
  | incompleteForm hpath => exact ⟨_, hpath⟩
  | overlappingProperty hpath _ hname => exact has_entry hpath hname
  | mappingNotProperties hpath => exact ⟨_, hpath⟩
  | nullableMapping hpath hflag =>
      exact Value.has_child hpath (Members.mem_keys_of_flag hflag)
  | tagRedeclared hpath _ htag => exact has_entry hpath htag

end SchemaError

namespace Schema

open SchemaError (Blames)

/-- An error, if there is one, blames what stands at its path. -/
def Blamed (names : List String) (d : Value) {α : Type}
    (r : Except SchemaError α) : Prop :=
  ∀ e, r = .error e → e.Blames names d

section

variable {names : List String} {d : Value} {α β : Type}

theorem blamed_ok (a : α) : Blamed names d (.ok a) :=
  nofun

theorem blamed_error {e : SchemaError} (h : e.Blames names d) :
    Blamed names d (.error e : Except SchemaError α) := by
  rintro _ ⟨⟩
  exact h

theorem Blamed.bind {x : Except SchemaError α} {f : α → Except SchemaError β}
    (hx : Blamed names d x) (hf : ∀ a, x = .ok a → Blamed names d (f a)) :
    Blamed names d (x >>= f) := by
  cases x with
  | error e => exact blamed_error (hx e rfl)
  | ok a => exact hf a rfl

theorem Blamed.map {x : Except SchemaError α} (hx : Blamed names d x)
    (f : α → β) : Blamed names d (x.map f) := by
  cases x with
  | error e => exact blamed_error (hx e rfl)
  | ok a => exact blamed_ok _

end

/-- Wherever the value stands in the document, an error of checking it there
blames what stands at its path. -/
def CheckedIn (names : List String) (d v : Value) : Prop :=
  ∀ isRoot path, (isRoot = false → path ≠ .root) →
    d.at? path.segments = some v → Blamed names d (check names isRoot path v)

theorem CheckedIn.child {names : List String} {d v : Value}
    (h : CheckedIn names d v) {path : Pointer} {segment : String}
    (hplace : d.at? (path.child segment).segments = some v) :
    Blamed names d (check names false (path.child segment) v) :=
  h _ _ (fun _ => Pointer.child_ne_root _ _) hplace

/-! ## Keywords of a known type -/

section

variable {names : List String} {d : Value} {path : Pointer} {ms : Members}
  (hpath : d.at? path.segments = some (.obj ms))

include hpath

theorem blamed_notString {keyword : String} (hkey : keyword ∈ ms.keys)
    (hstring : ∀ s, ms.get? keyword ≠ some (.str s)) {α : Type} :
    Blamed names d
      (.error (wrongType path keyword "a string") : Except SchemaError α) := by
  obtain ⟨v, hget⟩ := Members.exists_get? hkey
  refine blamed_error (.notString hpath hget ?_)
  rintro ⟨s, rfl⟩
  exact hstring s hget

theorem blamed_notObject {keyword : String} {v : Value}
    (hget : ms.get? keyword = some v) (hobject : ∀ entries, v ≠ .obj entries)
    {α : Type} :
    Blamed names d
      (.error (wrongType path keyword "an object") : Except SchemaError α) := by
  refine blamed_error (.notObject hpath hget ?_)
  rintro ⟨entries, rfl⟩
  exact hobject entries rfl

theorem groupOf_blamed {isRoot : Bool} (hroot : isRoot = false → path ≠ .root)
    {found : Option (Group × String)}
    (hfound : ∀ f ∈ found, f.2 ∈ ms.keys ∧ f.2 ∈ f.1.keywords)
    {keys : List String} (hkeys : ∀ key ∈ keys, key ∈ ms.keys) :
    Blamed names d (groupOf isRoot path found keys) := by
  -- Two forms are blamed by the keyword that was found first, so the induction
  -- carries along that it is one of the node and of its group.
  induction keys generalizing found with
  | nil => exact blamed_ok _
  | cons key keys ih =>
      obtain ⟨hkey, hrest⟩ := List.forall_mem_cons.mp hkeys
      unfold groupOf
      split
      next hdefinitions =>
        subst hdefinitions
        split
        next => exact ih hfound hrest
        next hnot =>
          exact blamed_error (.nestedDefinitions hpath hkey
            (hroot ((Bool.not_eq_true _).mp hnot)))
      next hdefinitions =>
        split
        next => exact ih hfound hrest
        next hshared =>
          split
          next hnone =>
            refine blamed_error (.unknownKeyword hpath hkey ?_ ?_)
            · rintro (hnullable | hmetadata | ⟨-, heq⟩)
              · exact hshared (Or.inl hnullable)
              · exact hshared (Or.inr hmetadata)
              · exact hdefinitions heq
            · intro group hmem
              have hsome := Group.ofKeyword?_eq_some_iff.mpr hmem
              cases hnone.symm.trans hsome
          next group hgroup =>
            have hmem : key ∈ group.keywords :=
              Group.ofKeyword?_eq_some_iff.mp hgroup
            split
            next =>
              refine ih ?_ hrest
              rintro f ⟨⟩
              exact ⟨hkey, hmem⟩
            next existing first =>
              split
              next => exact ih hfound hrest
              next hne =>
                obtain ⟨hfirst, hown⟩ := hfound (existing, first) rfl
                exact blamed_error
                  (.conflictingForms hpath hfirst hkey hown hmem hne)

theorem flagOf_blamed (keyword : String) :
    Blamed names d (flagOf path keyword ms) := by
  unfold flagOf
  split
  next => exact blamed_ok _
  next => exact blamed_ok _
  next v hboolean hget =>
    refine blamed_error (.notBoolean hpath hget ?_)
    rintro ⟨b, rfl⟩
    exact hboolean b rfl

theorem metadataOf_blamed : Blamed names d (metadataOf path ms) := by
  unfold metadataOf
  split
  next => exact blamed_ok _
  next => exact blamed_ok _
  next hobject hget => exact blamed_notObject hpath hget hobject

theorem refOf_blamed (hkey : "ref" ∈ ms.keys) :
    Blamed names d (refOf names path ms) := by
  unfold refOf
  split
  next name hget =>
    split
    next => exact blamed_ok _
    next hname => exact blamed_error (.unresolvedRef hpath hget hname)
  next hstring => exact blamed_notString hpath hkey hstring

theorem typeOf_blamed (hkey : "type" ∈ ms.keys) :
    Blamed names d (typeOf path ms) := by
  unfold typeOf
  split
  next name hget =>
    split
    next => exact blamed_ok _
    next hnone =>
      refine blamed_error (.unknownType hpath hget fun kind heq => ?_)
      cases hnone.symm.trans (TypeKind.ofName?_eq_some_iff.mpr heq)
  next hstring => exact blamed_notString hpath hkey hstring

/-- The items of an enum are blamed by their indices. -/
theorem enumValues_blamed {front items : List Value} {seen : List String}
    (hget : ms.get? "enum" = some (.arr (front ++ items)))
    (hseen : ∀ s ∈ seen, .str s ∈ front) :
    Blamed names d
      (enumValues (path.child "enum") front.length seen items) := by
  induction items generalizing front seen with
  | nil => exact blamed_ok _
  | cons item items ih =>
      by_cases hstring : item.IsString
      · obtain ⟨s, rfl⟩ := hstring
        unfold enumValues
        split
        next hmem =>
          exact blamed_error
            (.duplicateEnumValue hpath hget (hseen s hmem))
        next =>
          have hnext : ms.get? "enum" =
              some (.arr ((front ++ [.str s]) ++ items)) := by
            rw [hget, List.append_assoc, List.singleton_append]
          have hlength : (front ++ [Value.str s]).length = front.length + 1 :=
            List.length_append
          rw [← hlength]
          refine (ih hnext fun t ht => ?_).map _
          rcases List.mem_cons.mp ht with rfl | ht
          · exact List.mem_append_right _ List.mem_cons_self
          · exact List.mem_append_left _ (hseen t ht)
      · have herror : enumValues (path.child "enum") front.length seen
            (item :: items) =
              .error ⟨(path.child "enum").child (toString front.length),
                .wrongType "enum" "an array of strings"⟩ := by
          cases item with
          | str s => exact absurd ⟨s, rfl⟩ hstring
          | _ => rfl
        rw [herror]
        exact blamed_error (.notStringItem hpath hget hstring)

theorem enumOf_blamed (hkey : "enum" ∈ ms.keys) :
    Blamed names d (enumOf path ms) := by
  unfold enumOf
  split
  next hget => exact blamed_error (.emptyEnum hpath hget)
  next items _ hget =>
    have hitems : ms.get? "enum" = some (.arr ([] ++ items)) := hget
    exact (enumValues_blamed hpath hitems (List.forall_mem_nil _)).map _
  next harray =>
    obtain ⟨v, hget⟩ := Members.exists_get? hkey
    refine blamed_error (.notArray hpath hget ?_)
    rintro items rfl
    exact harray items hget

theorem tagOf_blamed
    (hkey : "discriminator" ∈ ms.keys ∨ "mapping" ∈ ms.keys) :
    Blamed names d (tagOf path ms) := by
  have hgroup : "discriminator" ∈ Group.discriminator.keywords ∧
      "mapping" ∈ Group.discriminator.keywords := by decide
  unfold tagOf
  split
  next hboth =>
    split
    next => exact blamed_ok _
    next hstring =>
      have hpresent := Members.has_iff.mp (Bool.and_eq_true_iff.mp hboth).1
      exact blamed_notString hpath hpresent hstring
  next hnot =>
    rw [Bool.and_eq_true, Members.has_iff, Members.has_iff] at hnot
    split
    next hmapping =>
      rw [Members.has_iff] at hmapping
      refine blamed_error
        (.incompleteForm hpath hmapping ?_ hgroup.2 hgroup.1)
      exact fun hdiscriminator => hnot ⟨hdiscriminator, hmapping⟩
    next hmapping =>
      rw [Members.has_iff] at hmapping
      exact blamed_error (.incompleteForm hpath (hkey.resolve_right hmapping)
        hmapping hgroup.1 hgroup.2)

/-! ## Keywords that hold schemas -/

theorem checkUnder_blamed {keyword : String} (hkey : keyword ∈ ms.keys)
    (hmembers : ∀ m ∈ ms, CheckedIn names d m.2) :
    Blamed names d (checkUnder names path keyword ms) := by
  obtain ⟨v, hget⟩ := Members.exists_get? hkey
  rw [checkUnder_eq, hget]
  refine (hmembers _ (Members.mem_of_get? hget)).child ?_
  rw [Value.at?_child hpath, hget]

end

section

variable {names : List String} {d : Value} {base : Pointer}

theorem checkEntries_blamed {entries : List (String × Value)}
    (hplace : ∀ e ∈ entries, d.at? (base.child e.1).segments = some e.2)
    (hentries : ∀ e ∈ entries, CheckedIn names d e.2) :
    Blamed names d (checkEntries names base entries) := by
  induction entries with
  | nil => exact blamed_ok _
  | cons e entries ih =>
      obtain ⟨hplace, hrest⟩ := List.forall_mem_cons.mp hplace
      obtain ⟨hchecked, hentries⟩ := List.forall_mem_cons.mp hentries
      unfold checkEntries
      refine (hchecked.child hplace).bind fun s _ => ?_
      exact (ih hrest hentries).bind fun rest _ => blamed_ok _

/-- A schema that makes up no branch is blamed for what it declares. -/
theorem branchOf_blamed {path : Pointer} {v : Value}
    (hpath : d.at? path.segments = some v) {s : Schema}
    (hs : check names false path v = .ok s) (tag : String) :
    Blamed names d (branchOf path tag s) := by
  obtain ⟨ms, group, rfl, hnode⟩ := check_eq_ok_iff.mp hs
  unfold branchOf
  split
  next hnullable =>
    rw [hnode.nullable] at hnullable
    exact blamed_error (.nullableMapping hpath hnullable)
  next =>
    split
    next p hform =>
      have hspelled := hnode.form
      rw [hform] at hspelled
      cases hspelled with
      | properties hp =>
          have hdeclared : ∀ {keyword : String}
              {table : List (String × Schema)},
              TableSpelled names path ms keyword table →
              table.any (·.1 = tag) = true →
                tag ∈ (Members.table ms keyword).keys := by
            intro keyword table htable hany
            obtain ⟨m, hm, htag⟩ := List.any_eq_true.mp hany
            rw [htable.keys_eq, ← of_decide_eq_true htag]
            exact List.mem_map_of_mem hm
          split
          next hany =>
            exact blamed_error (.tagRedeclared hpath (Or.inl rfl)
              (hdeclared hp.required hany))
          next =>
            split
            next hany =>
              exact blamed_error (.tagRedeclared hpath (Or.inr rfl)
                (hdeclared hp.optional hany))
            next => exact blamed_ok _
    next hform =>
      have habsent : ¬ ("properties" ∈ Members.keys ms ∨
          "optionalProperties" ∈ Members.keys ms) := by
        intro hpresent
        obtain ⟨p, hp, -⟩ := hnode.exists_properties hpresent
        exact hform p hp
      exact blamed_error (.mappingNotProperties hpath
        (not_or.mp habsent).1 (not_or.mp habsent).2)

theorem checkBranches_blamed {tag : String} {entries : List (String × Value)}
    (hplace : ∀ e ∈ entries, d.at? (base.child e.1).segments = some e.2)
    (hentries : ∀ e ∈ entries, CheckedIn names d e.2) :
    Blamed names d (checkBranches names base tag entries) := by
  induction entries with
  | nil => exact blamed_ok _
  | cons e entries ih =>
      obtain ⟨hplace, hrest⟩ := List.forall_mem_cons.mp hplace
      obtain ⟨hchecked, hentries⟩ := List.forall_mem_cons.mp hentries
      unfold checkBranches
      refine (hchecked.child hplace).bind fun s hs => ?_
      refine (branchOf_blamed hplace hs tag).bind fun b _ => ?_
      exact (ih hrest hentries).bind fun rest _ => blamed_ok _

end

section

variable {names : List String} {d : Value} (hd : d.Distinct) {path : Pointer}
  {ms : Members} (hpath : d.at? path.segments = some (.obj ms))

include hd hpath

/-- Each entry of a table stands below the keyword that holds the table. -/
theorem at?_entry {keyword : String} {entries : Members}
    (hget : ms.get? keyword = some (.obj entries)) {e : String × Value}
    (he : e ∈ entries) :
    d.at? ((path.child keyword).child e.1).segments = some e.2 := by
  refine hd.at?_member ?_ he
  rw [Value.at?_child hpath, hget]

variable (hentries : ∀ keyword, ∀ e ∈ ms.table keyword, CheckedIn names d e.2)

include hentries

theorem checkTable?_blamed (keyword : String) :
    Blamed names d
      ((checkTable? names path keyword ms).getD (.ok [])) := by
  rw [checkTable?_eq]
  cases hget : ms.get? keyword with
  | none => exact blamed_ok _
  | some v =>
      cases v with
      | obj entries =>
          have htable := hentries keyword
          rw [Members.table_of_get? hget] at htable
          exact checkEntries_blamed
            (fun e he => at?_entry hd hpath hget he) htable
      | _ =>
          refine blamed_notObject hpath hget fun entries heq => ?_
          cases heq

theorem propertiesOf_blamed
    (hkey : ∃ key ∈ ms.keys, key ∈ Group.properties.keywords) :
    Blamed names d (propertiesOf path ms
      (checkTable? names path "properties" ms)
      (checkTable? names path "optionalProperties" ms)) := by
  have htable := checkTable?_blamed hd hpath hentries
  unfold propertiesOf
  split
  next hnone =>
    simp only [← Option.not_isSome, checkTable?_isSome, Bool.and_eq_true,
      Bool.not_eq_true', ← Bool.not_eq_true, Members.has_iff] at hnone
    obtain ⟨key, hkey, hmem⟩ := hkey
    have hadditional : key = "additionalProperties" := by
      simp only [Group.keywords, List.mem_cons, List.not_mem_nil,
        or_false] at hmem
      rcases hmem with rfl | rfl | rfl
      · exact absurd hkey hnone.1
      · exact absurd hkey hnone.2
      · rfl
    subst hadditional
    exact blamed_error (.incompleteForm hpath hkey hnone.1 hmem
      (List.mem_cons_self : "properties" ∈ Group.properties.keywords))
  next =>
    refine (htable "properties").bind fun declared hdeclared => ?_
    refine (htable "optionalProperties").bind fun extra hextra => ?_
    split
    next name s hfind =>
      have hname : name ∈ declared.map Prod.fst := by
        have hany := List.find?_some hfind
        obtain ⟨m, hm, heq⟩ := List.any_eq_true.mp hany
        exact List.mem_map.mpr ⟨m, hm, of_decide_eq_true heq⟩
      have hname' : name ∈ extra.map Prod.fst :=
        List.mem_map_of_mem (List.mem_of_find?_eq_some hfind)
      rw [← (checkTable?_eq_ok_iff.mp hdeclared).keys_eq] at hname
      rw [← (checkTable?_eq_ok_iff.mp hextra).keys_eq] at hname'
      exact blamed_error (.overlappingProperty hpath hname hname')
    next => exact (flagOf_blamed hpath _).bind fun _ _ => blamed_ok _

theorem checkMapping_blamed (tag : String) :
    Blamed names d (checkMapping names path tag ms) := by
  rw [checkMapping_eq]
  split
  next => exact blamed_ok _
  next entries hget =>
    have htable := hentries "mapping"
    rw [Members.table_of_get? hget] at htable
    exact checkBranches_blamed
      (fun e he => at?_entry hd hpath hget he) htable
  next hobject hget => exact blamed_notObject hpath hget hobject

/-- The keyword that a form is read from is there, as the group of the node is
that of one of its keywords. -/
theorem formOf_blamed (hmembers : ∀ m ∈ ms, CheckedIn names d m.2)
    {group : Option Group}
    (hgroup : ∀ own ∈ group, ∃ key ∈ ms.keys, key ∈ own.keywords) :
    Blamed names d (formOf names path ms group) := by
  cases group with
  | none => exact blamed_ok _
  | some own =>
      obtain ⟨key, hkey, hmem⟩ := hgroup own rfl
      cases own with
      | properties =>
          exact (propertiesOf_blamed hd hpath hentries
            ⟨key, hkey, hmem⟩).map _
      | discriminator =>
          have hkeys : "discriminator" ∈ ms.keys ∨ "mapping" ∈ ms.keys := by
            simp only [Group.keywords, List.mem_cons, List.not_mem_nil,
              or_false] at hmem
            rcases hmem with rfl | rfl
            · exact Or.inl hkey
            · exact Or.inr hkey
          exact (tagOf_blamed hpath hkeys).bind fun tag _ =>
            (checkMapping_blamed hd hpath hentries tag).map _
      | ref =>
          obtain rfl := List.mem_singleton.mp hmem
          exact refOf_blamed hpath hkey
      | type =>
          obtain rfl := List.mem_singleton.mp hmem
          exact typeOf_blamed hpath hkey
      | enum =>
          obtain rfl := List.mem_singleton.mp hmem
          exact enumOf_blamed hpath hkey
      | elements =>
          obtain rfl := List.mem_singleton.mp hmem
          exact (checkUnder_blamed hpath hkey hmembers).map _
      | values =>
          obtain rfl := List.mem_singleton.mp hmem
          exact (checkUnder_blamed hpath hkey hmembers).map _

end

/-! ## Nodes -/

/-- Every error of checking a part of a document blames what stands at its
path. -/
theorem checkedIn (names : List String) {d : Value} (hd : d.Distinct)
    (v : Value) : CheckedIn names d v := by
  induction v using Value.induct_nodes with
  | obj ms hmembers hentries =>
      intro isRoot path hroot hpath
      rw [check_obj_eq]
      refine (groupOf_blamed hpath hroot (by simp) fun key hkey => hkey).bind
        fun group hgroup => ?_
      refine (flagOf_blamed hpath _).bind fun nullable _ => ?_
      refine (metadataOf_blamed hpath).bind fun metadata _ => ?_
      exact (formOf_blamed hd hpath hentries hmembers
        (groupOf_none_eq_ok_iff.mp hgroup).2).bind fun f _ => blamed_ok _
  | other v hobject =>
      intro isRoot path hroot hpath
      have herror : check names isRoot path v =
          .error ⟨path, .notAnObject⟩ := by
        cases v with
        | obj ms => exact absurd ⟨ms, rfl⟩ hobject
        | _ => rfl
      rw [herror]
      exact blamed_error (.notAnObject hpath hobject)

end Schema

namespace Document

open Schema

theorem definitionsOf_blamed {ms : Members} (hd : (Value.obj ms).Distinct) :
    Blamed (Value.definitionNames (.obj ms)) (.obj ms) (definitionsOf ms) := by
  have hroot := Value.at?_root (.obj ms)
  unfold definitionsOf
  split
  next => exact blamed_ok _
  next entries hget =>
    have hnames : Value.definitionNames (.obj ms) = Members.keys entries :=
      congrArg Members.keys (Members.table_of_get? hget)
    rw [hnames]
    refine (checkEntries_blamed (fun e he => ?_) fun e _ => ?_).map _
    · exact at?_entry hd hroot hget he
    · exact checkedIn _ hd e.2
  next hobject hget => exact blamed_notObject hroot hget hobject

/-- Every schema error blames what stands at its path. -/
theorem ofValue_blamed {d : Value} (hd : d.Distinct) :
    Blamed d.definitionNames d (ofValue d) := by
  cases d with
  | obj ms =>
      refine (definitionsOf_blamed hd).bind fun definitions hdefinitions => ?_
      obtain ⟨names, table⟩ := definitions
      obtain ⟨-, rfl, -⟩ := exists_definitionsOf_iff.mp ⟨table, hdefinitions⟩
      exact (checkedIn _ hd _ true .root nofun (Value.at?_root _)).bind
        fun root _ => blamed_ok _
  | _ =>
      refine blamed_error (.notAnObject (Value.at?_root _) ?_)
      rintro ⟨ms, heq⟩
      cases heq

/-- The path of every schema error leads to a value of the document that was
rejected, and what the error says is the case there. -/
theorem ofValue_error_located {d : Value} (hd : d.Distinct) {e : SchemaError}
    (h : ofValue d = .error e) :
    d.Has e.path ∧ e.Blames d.definitionNames d := by
  have hblames := ofValue_blamed hd e h
  exact ⟨hblames.has, hblames⟩

/-- A document with a definition of shapes, one of which declares the tag
again. -/
def taggedShapes : Value :=
  .obj [("definitions", .obj [("shape", .obj [("discriminator", .str "kind"),
    ("mapping", .obj [("point", .obj [("properties", .obj [])]),
      ("square", .obj [("optionalProperties", .obj [("side", .obj []),
        ("kind", .obj [])])])])])])]

/-- The error of a tag that is declared again. -/
def taggedShapesError : SchemaError :=
  ⟨⟨["definitions", "shape", "mapping", "square", "optionalProperties",
    "kind"]⟩, .tagRedeclared "kind"⟩

theorem ofValue_error_located_taggedShapes :
    ofValue taggedShapes = .error taggedShapesError ∧
    taggedShapes.Has taggedShapesError.path ∧
    taggedShapesError.Blames ["shape"] taggedShapes := by
  have herror : ofValue taggedShapes = .error taggedShapesError := rfl
  exact ⟨herror,
    ofValue_error_located (Value.distinct_distinct taggedShapes) herror⟩

end Document
end JsonTypedef
