import JsonTypedef.Proofs.Json.Spacing
import JsonTypedef.Proofs.Json.Writing
import JsonTypedef.Proofs.Parsing.Agreement
import JsonTypedef.Proofs.Serialization.Selected

/-!
# Serialized values are parsed back

A valid value is serialized to the compact text of a value that differs from it
in the order of members alone.  That text, with blanks put between its tokens,
is parsed to this value.
-/

namespace JsonTypedef

namespace Written

section

variable {α : Type} {write : α → Written} {as : List α}

theorem commaSeparated_eq {text : α → List Char}
    (h : ∀ a ∈ as, write a = ofText (text a)) :
    commaSeparated write as = ofText (Value.commaSeparated (as.map text)) := by
  induction as with
  | nil => rfl
  | cons a as ih =>
      obtain ⟨ha, has⟩ := List.forall_mem_cons.mp h
      cases as with
      | nil => exact ha
      | cons b as =>
          rw [commaSeparated, ih has, ha]
          simp [andThen, ofText, Value.commaSeparated]

theorem bracketed_eq (opening closing : Char) {text : α → List Char}
    (h : ∀ a ∈ as, write a = ofText (text a)) :
    bracketed opening closing write as =
      ofText (Value.bracketed opening closing (as.map text)) := by
  rw [bracketed, commaSeparated_eq h]
  simp [andThen, ofText, Value.bracketed]

theorem bracketed_items {value : α → Value}
    (h : ∀ a ∈ as, write a = ofText (value a).text) :
    bracketed '[' ']' write as = ofText (Value.arr (as.map value)).text := by
  rw [bracketed_eq _ _ h, Value.text, Grammar.itemTexts_eq_map, List.map_map]
  rfl

theorem bracketed_members {member : α → String × Value} (h : ∀ a ∈ as,
      write a = ofText (Value.memberText (member a).1 (member a).2.text)) :
    bracketed '\x7b' '\x7d' write as =
      ofText (Value.obj (as.map member)).text := by
  rw [bracketed_eq _ _ h, Value.text, Grammar.memberTexts_eq_map, List.map_map]
  rfl

end

theorem member_eq (key : String) {value : Unit → Written} {text : List Char}
    (h : value () = ofText text) :
    member key value = ofText (Value.memberText key text) := by
  rw [member, andThen, h]
  simp [ofText, Value.memberText]

/-- What is written is the text of the value, members aside from their order. -/
def Prints (r : Written) (v : Value) : Prop :=
  ∃ w, v.Same w ∧ r = ofText w.text

theorem prints_array {α : Type} {write : α → Written} {value : α → Value}
    {as : List α} (h : ∀ a ∈ as, Prints (write a) (value a)) :
    Prints (bracketed '[' ']' write as) (.arr (as.map value)) := by
  choose! written hsame hwrite using h
  refine ⟨.arr (as.map written), .arr ?_, bracketed_items hwrite⟩
  rw [List.forall₂_map_left_iff, List.forall₂_map_right_iff]
  exact List.forall₂_same.mpr hsame

/-- The members of an object may be written in any order. -/
theorem prints_object {α : Type} {write : α → Written}
    {member : α → String × Value} {as : List α} {ms : Members}
    (hperm : ms.Perm (as.map member)) (h : ∀ a ∈ as, ∃ w, (member a).2.Same w ∧
      write a = ofText (Value.memberText (member a).1 w.text)) :
    Prints (bracketed '\x7b' '\x7d' write as) (.obj ms) := by
  choose! written hsame hwrite using h
  refine ⟨.obj (as.map fun a => ((member a).1, written a)), .obj hperm ?_,
    bracketed_members hwrite⟩
  rw [List.forall₂_map_left_iff, List.forall₂_map_right_iff]
  exact List.forall₂_same.mpr fun a ha => .mk (hsame a ha)

end Written

namespace Serializer

open Program Written

variable {fits : Node → Value → Prop} {target : Nat → Node} {run : Run}

theorem prints_plain (v : Value) : Prints (plain v) v :=
  ⟨v, .refl v, rfl⟩

/-! ## Objects -/

section

variable {p : Program.Properties} {tag : Option String} {ms : Members}

theorem object_eq_bracketed : object run p ms =
    bracketed '\x7b' '\x7d' (selectedMember run) (writtenMembers p none ms) :=
  rfl

theorem tagged_eq_bracketed {tag value : String}
    (hget : ms.get? tag = some (.str value)) :
    tagged run p tag value ms =
      bracketed '\x7b' '\x7d' (selectedMember run)
        (writtenMembers p (some tag) ms) := by
  simp [tagged, writtenMembers, tagMember, hget]

/-- An object is written with the members that stay, each written along the node
it is declared with or else as it stands. -/
theorem prints_writtenMembers (hnames : p.names.Nodup)
    (htag : ∀ key ∈ tag, key ∉ p.names) (hms : ms.keys.Nodup)
    {value : String × Value → Value}
    (hdeclared : ∀ m ∈ ms, ∀ n, p.member? m.1 = some n →
      Prints (run n m.2) (value m))
    (hothers : ∀ m ∈ ms, p.member? m.1 = none → value m = m.2) :
    Prints
      (bracketed '\x7b' '\x7d' (selectedMember run) (writtenMembers p tag ms))
      (.obj ((ms.filter fun m => keeps p tag m.1).map
        fun m => (m.1, value m))) := by
  have hperm := (perm_writtenMembers hnames htag hms).map
    fun m : String × Value => (m.1, value m)
  rw [List.map_map] at hperm
  refine prints_object hperm ?_
  rintro ⟨key, n, v⟩ hm
  have hmember : p.member? key = n := member?_of_writtenMembers hnames htag hm
  have hmem : (key, v) ∈ ms := ((mem_writtenMembers hms).mp ⟨n, hm⟩).1
  cases n with
  | none =>
      have heq : value (key, v) = v := hothers _ hmem hmember
      refine ⟨v, ?_, member_eq key rfl⟩
      change (value (key, v)).Same v
      rw [heq]
      exact .refl v
  | some n =>
      obtain ⟨w, hsame, hwrite⟩ := hdeclared _ hmem n hmember
      exact ⟨w, hsame, member_eq key hwrite⟩

theorem prints_properties
    (hrun : ∀ n v, n.form.WellNamed → v.Distinct → fits n v →
      Prints (run n v) v)
    (hp : (Program.Form.properties p).WellNamed)
    (htag : ∀ key ∈ tag, key ∉ p.names) (hdistinct : (Value.obj ms).Distinct)
    (h : PropertiesFit fits p tag ms) :
    Prints
      (bracketed '\x7b' '\x7d' (selectedMember run) (writtenMembers p tag ms))
      (.obj ms) := by
  cases hdistinct with
  | obj hms hmembers =>
      have hdeclared : ∀ m ∈ ms, ∀ n, p.member? m.1 = some n →
          Prints (run n m.2) (Prod.snd m) := by
        intro m hm n hmember
        have hn := Properties.mem_of_member? hmember
        exact hrun n m.2 (hp.of_declared hn) (hmembers m hm)
          (h.fits_of_get? hn (Members.get?_of_mem hms hm))
      have hprints := prints_writtenMembers hp.nodup htag hms hdeclared
        fun _ _ _ => rfl
      rw [filter_keeps_eq_self h] at hprints
      simpa using hprints

end

/-! ## Values -/

theorem prints_form {admits : TypeKind → Value → Bool}
    (htarget : ∀ i, (target i).form.WellNamed)
    (hrun : ∀ n v, n.form.WellNamed → v.Distinct → fits n v →
      Prints (run n v) v)
    {f : Program.Form} (hf : f.WellNamed) {v : Value} (hdistinct : v.Distinct)
    (h : FormFits fits admits target f v) : Prints (form target run v f) v := by
  cases h with
  | empty => exact prints_plain v
  | ref h => exact hrun _ v (htarget _) hdistinct h
  | type _ => exact prints_plain v
  | enum _ => exact prints_plain _
  | @elements item items h =>
      cases hf with
      | elements hitem =>
          cases hdistinct with
          | arr hitems =>
              have hprints : Prints (bracketed '[' ']' (run item) items)
                  (.arr (items.map id)) :=
                prints_array fun v hv =>
                  hrun item v hitem (hitems v hv) (h v hv)
              rwa [List.map_id] at hprints
  | values h =>
      cases hf with
      | values hitem =>
          cases hdistinct with
          | obj hms hmembers =>
              refine prints_object (List.Perm.of_eq (List.map_id _).symm)
                fun m hm => ?_
              obtain ⟨w, hsame, hwrite⟩ :=
                hrun _ m.2 hitem (hmembers m hm) (h m hm)
              exact ⟨w, hsame, member_eq m.1 hwrite⟩
  | properties h =>
      exact prints_properties hrun hf (by simp) hdistinct h
  | @discriminator tag value branches branch ms hget hbranch h =>
      cases hf with
      | discriminator htags hbranches =>
          have hmem := mem_of_lookup hbranch
          have hselect : branch? tag branches ms = some (value, branch) :=
            branch?_eq_some_iff.mpr ⟨hget, hbranch⟩
          simp only [form, hselect]
          rw [tagged_eq_bracketed hget]
          refine prints_properties hrun (hbranches _ hmem) ?_ hdistinct h
          rintro key ⟨⟩
          exact htags _ hmem

/-- A value that fits its node is written, members aside from their order. -/
theorem prints_node {admits : TypeKind → Value → Bool}
    (htarget : ∀ i, (target i).form.WellNamed) {depth : Nat} {n : Node}
    (hn : n.form.WellNamed) {v : Value} (hdistinct : v.Distinct)
    (h : Fits admits target depth n v) : Prints (node target depth n v) v := by
  induction depth generalizing n v with
  | zero => exact h.elim
  | succ depth ih =>
      unfold node
      split
      next => exact prints_plain .null
      next hnull =>
        rcases h with hnull' | hfits
        · exact absurd (Validator.eq_null_of_isNullAt hnull').1 hnull
        · exact prints_form htarget (fun n v hn hv hfits => ih hn hv hfits) hn
            hdistinct hfits

/-! ## Round trips -/

/-- A valid value is serialized, and what is written denotes a value that is the
same up to the order of members. -/
theorem serialize_denotes {program : Program} (hnamed : program.WellNamed)
    {config : Config} {v : Value} (hdistinct : v.Distinct)
    (hfloat : ∀ d, v.HasFloat d → d.ReadsBack)
    (hfits : Fits (Validator.typeAccepts config) program.target config.maxDepth
      program.root v) :
    ∃ text w, serialize ⟨program, config⟩ v = .ok text ∧ v.Same w ∧
      Grammar.Denotes text w := by
  obtain ⟨w, hsame, hwrite⟩ :=
    prints_node hnamed.target hnamed.root hdistinct hfits
  refine ⟨w.write, w, ?_, hsame, ?_⟩
  · have hrun : Serializer.run ⟨program, config⟩ v = ofText w.text := hwrite
    simp only [serialize, serializeInto, hrun, ofText, if_true]
    simp [Except.map, Value.write]
  · exact Grammar.denotes_write w fun d hd => hfloat d (hsame.hasFloat hd)

/-- A valid value is serialized, and its text with blanks put between its
tokens is parsed at every depth to the same value up to the order of members,
unless the depth runs out, which it does not at great depths. -/
theorem serialize_parse {schema : Value} (hschema : schema.Distinct)
    {program : Program} (hprogram : Program.ofValue schema = .ok program)
    (config : Config) {v : Value} (hdistinct : v.Distinct)
    (hfloat : ∀ d, v.HasFloat d → d.ReadsBack)
    (hvalid : Validator.validate ⟨program, config⟩ v = .ok []) :
    ∃ text w, serialize ⟨program, config⟩ v = .ok text ∧ v.Same w ∧
      ∀ spaced : String, Grammar.Spaced text.toList spaced.toList →
        (∀ maxDepth,
          Parser.parse ⟨program, { config with maxDepth }⟩ spaced = .ok w ∨
          ∃ e,
            Parser.parse ⟨program, { config with maxDepth }⟩ spaced = .error e ∧
            e.reason = .depthExceeded maxDepth) ∧
        ∃ limit, ∀ maxDepth, limit ≤ maxDepth →
          Parser.parse ⟨program, { config with maxDepth }⟩ spaced = .ok w := by
  have hnamed := Program.wellNamed_of_ofValue hschema hprogram
  have hfits := Validator.validate_eq_nil_iff_fits.mp hvalid
  obtain ⟨text, w, htext, hsame, hdenotes⟩ :=
    serialize_denotes hnamed hdistinct hfloat hfits
  have hfits' :=
    hfits.of_same (Validator.typeAccepts_of_same config) hdistinct hsame
  refine ⟨text, w, htext, hsame, fun spaced hspaced => ?_⟩
  have hspacedDenotes := hdenotes.of_spaced hspaced
  have hparse := fun maxDepth =>
    Parser.parse_of_fits { config with maxDepth } hfits' hspacedDenotes
      (hsame.distinct hdistinct)
  exact ⟨fun maxDepth => (hparse maxDepth).1,
    config.maxDepth + spaced.length,
    fun maxDepth hle => (hparse maxDepth).2 hle⟩

/-- The double one half. -/
def half : Double :=
  ⟨false, 0x3fe0000000000000, by decide⟩

theorem readsBack_half : half.ReadsBack := by
  unfold Double.ReadsBack
  decide +kernel

/-- A chain whose members do not stand in order of declaration. -/
def weightedChain : Value :=
  .obj [("weight", .num (.float half)), ("next", .obj [("id", .str "b")]),
    ("id", .str "a")]

/-- The text may stand behind a blank and in front of a line feed. -/
theorem serialize_parse_weightedChain :
    Validator.validate ⟨chainProgram, { }⟩ weightedChain = .ok [] ∧
    ∃ text w, serialize ⟨chainProgram, { }⟩ weightedChain = .ok text ∧
      weightedChain.Same w ∧
      (∀ spaced : String, Grammar.Spaced text.toList spaced.toList →
        (∀ maxDepth, Parser.parse ⟨chainProgram, { maxDepth }⟩ spaced = .ok w ∨
          ∃ e, Parser.parse ⟨chainProgram, { maxDepth }⟩ spaced = .error e ∧
            e.reason = .depthExceeded maxDepth) ∧
        ∃ limit, ∀ maxDepth, limit ≤ maxDepth →
          Parser.parse ⟨chainProgram, { maxDepth }⟩ spaced = .ok w) ∧
      ∃ limit, ∀ maxDepth, limit ≤ maxDepth →
        Parser.parse ⟨chainProgram, { maxDepth }⟩ (" " ++ text ++ "\n") =
          .ok w := by
  have hfloat : ∀ d, weightedChain.HasFloat d → d.ReadsBack := by
    intro d hd
    obtain rfl : half = d := by simpa [weightedChain] using hd
    exact readsBack_half
  have hdistinct := Value.distinct_distinct weightedChain
  have hvalid : Validator.validate ⟨chainProgram, { }⟩ weightedChain = .ok [] :=
    rfl
  obtain ⟨text, w, htext, hsame, hparse⟩ := serialize_parse
    distinct_chainSchema ofValue_chainSchema { } hdistinct hfloat hvalid
  have hspaced :
      Grammar.Spaced text.toList (" " ++ text ++ "\n").toList := by
    have hnamed :=
      Program.wellNamed_of_ofValue distinct_chainSchema ofValue_chainSchema
    obtain ⟨_, _, htext', -, hdenotes⟩ := serialize_denotes hnamed hdistinct
      hfloat (Validator.validate_eq_nil_iff_fits.mp hvalid)
    obtain rfl := Except.ok.inj (htext.symm.trans htext')
    have hends :
        Grammar.Spaced text.toList ([' '] ++ (text.toList ++ ['\n'])) :=
      hdenotes.spaced (by simp [Grammar.IsBlank]) (by simp [Grammar.IsBlank])
    rw [String.toList_append, String.toList_append]
    exact hends
  exact ⟨hvalid, text, w, htext, hsame, hparse, (hparse _ hspaced).2⟩

end Serializer
end JsonTypedef
