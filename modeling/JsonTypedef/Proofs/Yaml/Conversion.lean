import JsonTypedef.Proofs.Except
import JsonTypedef.Proofs.Json.Distinct
import JsonTypedef.Yaml.ToJson

/-!
# Entries of a mapping as members of an object

The keys of a YAML mapping are different values of three kinds; the names of the
members they become are texts.  `KeyNamed` says which text names a key, and
`Mirrors` which JSON value a YAML value becomes: sequences item by item, and
mappings entry by entry as long as their keys have different texts.  Of entries
whose keys have one text the last alone becomes a member.
-/

namespace JsonTypedef
namespace Yaml
namespace Value

/-- Induction on the nesting of values, the keys of entries apart. -/
@[induction_eliminator]
theorem induct {motive : Value → Prop} (null : motive .null)
    (bool : ∀ b, motive (.bool b)) (num : ∀ n, motive (.num n))
    (str : ∀ s, motive (.str s))
    (seq : ∀ items, (∀ v ∈ items, motive v) → motive (.seq items))
    (map : ∀ entries, (∀ e ∈ entries, motive e.2) → motive (.map entries))
    (tagged : ∀ tag v, motive v → motive (.tagged tag v))
    (v : Value) : motive v := by
  refine Value.rec (motive_1 := motive)
    (motive_2 := fun items => ∀ v ∈ items, motive v)
    (motive_3 := fun entries => ∀ e ∈ entries, motive e.2)
    (motive_4 := fun e => motive e.2)
    null bool num str seq map tagged ?_ ?_ ?_ ?_ (fun _ _ _ h => h) v
  · simp
  · intro head tail hhead htail v hv
    rcases List.mem_cons.mp hv with rfl | hv
    · exact hhead
    · exact htail v hv
  · simp
  · intro head tail hhead htail e he
    rcases List.mem_cons.mp he with rfl | he
    · exact hhead
    · exact htail e he

/-! ## Keys, items and entries -/

/-- The text that names a key: that of the string itself, of the number or of
the boolean.  No other value is a key. -/
inductive KeyNamed : Value → String → Prop
  | str (s : String) : KeyNamed (.str s) s
  | num (n : Number) : KeyNamed (.num n) n.text
  | bool (b : Bool) : KeyNamed (.bool b) (if b then "true" else "false")

theorem keyText_eq_ok_iff {k : Value} {name : String} :
    keyText k = .ok name ↔ KeyNamed k name := by
  constructor
  · intro h
    cases k with
    | str s =>
        cases h
        exact .str _
    | num n =>
        cases h
        exact .num n
    | bool b =>
        cases h
        cases b <;> exact .bool _
    | _ => cases h
  · intro h
    cases h with
    | str s => rfl
    | num n => rfl
    | bool b => cases b <;> rfl

/-- An entry of a mapping and the member for it: the key is named by its text,
and the value becomes its JSON value, to which it stands in a relation. -/
inductive MemberFor (rel : Value → JsonTypedef.Value → Prop) :
    Value × Value → String × JsonTypedef.Value → Prop
  | mk {k v : Value} {name : String} {w : JsonTypedef.Value} :
      KeyNamed k name → v.toJson = .ok w → rel v w →
        MemberFor rel (k, v) (name, w)

theorem itemsToJson_eq_ok {items : List Value} {ws : List JsonTypedef.Value}
    (h : itemsToJson items = .ok ws) :
    List.Forall₂ (fun v w => v.toJson = .ok w) items ws := by
  induction items generalizing ws with
  | nil =>
      cases h
      exact .nil
  | cons v items ih =>
      obtain ⟨w, hw, h⟩ := exists_ok_of_bind h
      obtain ⟨rest, hrest, h⟩ := exists_ok_of_bind h
      cases h
      exact .cons hw (ih hrest)

theorem entriesToJson_eq_ok {entries : List (Value × Value)}
    {ms : List (String × JsonTypedef.Value)}
    (h : entriesToJson entries = .ok ms) :
    List.Forall₂ (MemberFor fun _ _ => True) entries ms := by
  induction entries generalizing ms with
  | nil =>
      cases h
      exact .nil
  | cons e entries ih =>
      obtain ⟨k, v⟩ := e
      obtain ⟨name, hname, h⟩ := exists_ok_of_bind h
      obtain ⟨w, hw, h⟩ := exists_ok_of_bind h
      obtain ⟨rest, hrest, h⟩ := exists_ok_of_bind h
      cases h
      exact .cons (.mk (keyText_eq_ok_iff.mp hname) hw trivial) (ih hrest)

/-! ## Whole values -/

/-- The JSON value that a YAML value becomes, at every level of nesting.  The
entries of a mapping are written as members one by one.  Those of them remain
whose name no later one has, in their order where all names are different. -/
inductive Mirrors : Value → JsonTypedef.Value → Prop
  | null : Mirrors .null .null
  | bool (b : Bool) : Mirrors (.bool b) (.bool b)
  | int {n : Int} {m : JsonTypedef.Number} :
      JsonTypedef.Number.ofInt? n = some m → Mirrors (.num (.int n)) (.num m)
  | float (d : Double) : Mirrors (.num (.float d)) (.num (.float d))
  | str (s : String) : Mirrors (.str s) (.str s)
  | seq {items : List Value} {ws : List JsonTypedef.Value} :
      List.Forall₂ Mirrors items ws → Mirrors (.seq items) (.arr ws)
  | map {entries : List (Value × Value)}
      {written ms : List (String × JsonTypedef.Value)} :
      List.Forall₂ (MemberFor Mirrors) entries written →
        ms.Perm (Members.lasting written) →
          ((Members.keys written).Nodup → ms = written) →
            Mirrors (.map entries) (.obj ms)
  | tagged {tag : String} {v : Value} {w : JsonTypedef.Value} :
      Mirrors v w → Mirrors (.tagged tag v) w

theorem numberToJson_mirrors {n : Number} {w : JsonTypedef.Value}
    (h : numberToJson n = .ok w) : Mirrors (.num n) w := by
  cases n with
  | int n =>
      simp only [numberToJson] at h
      split at h
      next m hm =>
        cases h
        exact .int hm
      next => cases h
  | float d =>
      cases h
      exact .float d
  | infinity negative => cases h
  | nan => cases h

/-- A conversion that succeeds leaves the items of every sequence as they are in
number and order, and turns the entries of every mapping whose keys have
different texts into as many members, in their order.  An entry is lost only
where the key of a later entry of its mapping has the same text. -/
theorem toJson_mirrors {y : Value} {j : JsonTypedef.Value}
    (h : y.toJson = .ok j) : Mirrors y j := by
  induction y generalizing j with
  | null =>
      cases h
      exact .null
  | bool b =>
      cases h
      exact .bool b
  | num n => exact numberToJson_mirrors h
  | str s =>
      cases h
      exact .str s
  | seq items ih =>
      obtain ⟨ws, hws, rfl⟩ := exists_ok_of_map h
      have hitems := (List.forall₂_and_left _ _).mpr ⟨ih, itemsToJson_eq_ok hws⟩
      exact .seq (hitems.imp fun v w ⟨hv, hw⟩ => hv hw)
  | map entries ih =>
      obtain ⟨written, hwritten, rfl⟩ := exists_ok_of_map h
      have hentries :=
        (List.forall₂_and_left _ _).mpr ⟨ih, entriesToJson_eq_ok hwritten⟩
      refine .map (hentries.imp ?_) (Members.distinct_perm_lasting written)
        Members.distinct_of_nodup
      rintro _ _ ⟨hv, ⟨hname, hw, -⟩⟩
      exact .mk hname hw (hv hw)
  | tagged tag v ih => exact .tagged (ih h)

/-- A mapping with keys of all three kinds, in which the number and the string
of one text are both keys. -/
def mixedKeys : Value :=
  .map [(.num (.int 1), .str "a"),
    (.bool true, .map [(.str "true", .null), (.num (.int 2), .bool false)]),
    (.str "items", .tagged "set" (.seq [.num (.int 1), .str "1"])),
    (.str "1", .str "b")]

theorem toJson_mirrors_mixedKeys :
    mixedKeys.toJson = .ok (.obj [("1", .str "b"),
        ("true", .obj [("true", .null), ("2", .bool false)]),
        ("items", .arr [.num (.int 1 rfl), .str "1"])]) ∧
      Mirrors mixedKeys (.obj [("1", .str "b"),
        ("true", .obj [("true", .null), ("2", .bool false)]),
        ("items", .arr [.num (.int 1 rfl), .str "1"])]) :=
  ⟨rfl, toJson_mirrors rfl⟩

/-- Two entries of a document whose keys are different and have one text: the
first becomes no member. -/
theorem toJson_drops_entry :
    ofText? "1: a\n\"1\": b\n" =
        some (.map [(.num (.int 1), .str "a"), (.str "1", .str "b")]) ∧
      (Value.map [(.num (.int 1), .str "a"), (.str "1", .str "b")]).toJson =
        .ok (.obj [("1", .str "b")]) ∧
      KeyNamed (.num (.int 1)) "1" ∧ (Value.str "a").toJson = .ok (.str "a") ∧
      ("1", JsonTypedef.Value.str "a") ∉ [("1", JsonTypedef.Value.str "b")] := by
  have htokens : tokens? "1: a\n\"1\": b\n" = some [.blockMappingStart,
      .key, .scalar true "1", .value, .scalar true "a",
      .key, .scalar false "1", .value, .scalar true "b", .blockEnd] := by
    decide +kernel
  refine ⟨?_, rfl, .num _, rfl, by simp⟩
  rw [ofText?, htokens]
  with_unfolding_all rfl

end Value
end Yaml
end JsonTypedef
