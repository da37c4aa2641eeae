import JsonTypedef.Proofs.Serialization.Trimmed

/-!
# Serialized text is a normal form

What is written is the text of a value whose members stand in the order in which
they are written.  Written along the same node this value gives the same text:
the tag is found in front, the declared members in order of declaration, and the
others behind them in the order that they were left in.
-/

namespace JsonTypedef

namespace Written

/-- The first value is written as the text of the second, and so is the second
itself. -/
structure Normalizes (write : Value → Written) (v w : Value) : Prop where
  written : write v = ofText w.text
  stable : write w = ofText w.text

end Written

namespace Serializer

open Program Written

variable {target : ℕ → Node} {run : Run}

/-! ## Selecting from the members that are written -/

/-- A selected member with another value. -/
def setValue (value : String × Option Node × Value → Value)
    (m : String × Option Node × Value) : String × Option Node × Value :=
  (m.1, m.2.1, value m)

section

variable {p : Program.Properties} {tag : Option String} {ms : Members}
  (value : String × Option Node × Value → Value)

/-- The object that is written: its members in the order of writing, with new
values. -/
def writtenObject (p : Program.Properties) (tag : Option String)
    (ms : Members) : Members :=
  (writtenMembers p tag ms).map fun m => unselect (setValue value m)

theorem keys_writtenObject : (writtenObject value p tag ms).keys =
    (writtenMembers p tag ms).map Prod.fst := by
  rw [writtenObject, Members.keys, List.map_map]
  rfl

/-- The members that are not declared are the last ones of those that are
written. -/
theorem filter_writtenMembers {other : String × Option Node × Value → Bool}
    (hother : ∀ m, other m = true ↔ tag ≠ some m.1 ∧ m.1 ∉ p.names) :
    (writtenMembers p tag ms).filter other = selectedOthers p tag ms := by
  have htag : (tagMember tag ms).filter other = [] := by
    refine List.filter_eq_nil_iff.mpr fun m hm hm' => ?_
    exact ((hother m).mp hm').1 (mem_tagMember.mp hm).1
  have hdeclared : (selectedDeclared p ms).filter other = [] := by
    refine List.filter_eq_nil_iff.mpr fun m hm hm' => ?_
    obtain ⟨n, hn, -⟩ := mem_selectedDeclared.mp hm
    exact ((hother m).mp hm').2 (List.mem_map.mpr ⟨(m.1, n), hn, rfl⟩)
  have hothers : (selectedOthers p tag ms).filter other =
      selectedOthers p tag ms := by
    refine List.filter_eq_self.mpr fun m hm => ?_
    exact (hother m).mpr (mem_selectedOthers.mp hm).2.2.2
  rw [writtenMembers, selected_eq_append, List.filter_append,
    List.filter_append, htag, hdeclared, hothers, List.nil_append,
    List.nil_append]

/-- The members that are not declared keep their order. -/
theorem selectedOthers_writtenObject :
    selectedOthers p tag (writtenObject value p tag ms) =
      (selectedOthers p tag ms).map (setValue value) := by
  by_cases hadditional : p.additional = true
  · rw [selectedOthers, if_pos hadditional, writtenObject, List.filter_map,
      List.map_map]
    refine (congrArg _ (filter_writtenMembers fun _ => isOther_iff)).trans ?_
    refine List.map_congr_left fun m hm => ?_
    have hnone : m.2.1 = none := (mem_selectedOthers.mp hm).2.2.1
    simp only [Function.comp_apply, unselect, setValue, hnone]
  · simp [selectedOthers, hadditional]

variable (hnames : p.names.Nodup) (htag : ∀ key ∈ tag, key ∉ p.names)
  (hms : ms.keys.Nodup)

include hnames htag hms

theorem get?_writtenObject {key : String} {n : Option Node}
    (hmem : ∀ v, ms.get? key = some v → (key, n, v) ∈ writtenMembers p tag ms) :
    (writtenObject value p tag ms).get? key =
      (ms.get? key).map fun v => value (key, n, v) := by
  cases hget : ms.get? key with
  | none =>
      rw [Option.map_none]
      apply Members.get?_eq_none_of_notMem
      rw [keys_writtenObject]
      intro hkey
      obtain ⟨m, hm, rfl⟩ := List.mem_map.mp hkey
      have hmember : unselect m ∈ ms :=
        ((mem_writtenMembers hms).mp ⟨m.2.1, hm⟩).1
      rw [Members.get?_of_mem hms hmember] at hget
      cases hget
  | some v =>
      have hnodup : (writtenObject value p tag ms).keys.Nodup := by
        rw [keys_writtenObject]
        exact nodup_writtenMembers hnames htag hms
      exact Members.get?_of_mem hnodup
        (List.mem_map.mpr ⟨(key, n, v), hmem v hget, rfl⟩)

theorem tagMember_writtenObject :
    tagMember tag (writtenObject value p tag ms) =
      (tagMember tag ms).map (setValue value) := by
  unfold tagMember
  rw [List.map_filterMap]
  refine List.filterMap_congr fun key hkey => ?_
  have hmem : ∀ v, ms.get? key = some v →
      (key, none, v) ∈ writtenMembers p tag ms := fun v hget =>
    List.mem_append_left _
      (mem_tagMember.mpr ⟨by simpa using hkey, rfl, hget⟩)
  rw [get?_writtenObject value hnames htag hms hmem, Option.map_map,
    Option.map_map]
  rfl

/-- Declared members are found in the order in which they were written. -/
theorem selectedDeclared_writtenObject :
    selectedDeclared p (writtenObject value p tag ms) =
      (selectedDeclared p ms).map (setValue value) := by
  unfold selectedDeclared
  rw [List.map_filterMap]
  refine List.filterMap_congr fun d hd => ?_
  have hmem : ∀ v, ms.get? d.1 = some v →
      (d.1, some d.2, v) ∈ writtenMembers p tag ms := fun v hget =>
    List.mem_append_right _ (List.mem_append_left _
      (mem_selectedDeclared.mpr ⟨d.2, hd, rfl, hget⟩))
  rw [get?_writtenObject value hnames htag hms hmem, Option.map_map,
    Option.map_map]
  rfl

/-- The written members are selected again, in the same order. -/
theorem writtenMembers_writtenObject :
    writtenMembers p tag (writtenObject value p tag ms) =
      (writtenMembers p tag ms).map (setValue value) := by
  rw [writtenMembers, selected_eq_append,
    tagMember_writtenObject value hnames htag hms,
    selectedDeclared_writtenObject value hnames htag hms,
    selectedOthers_writtenObject, writtenMembers, selected_eq_append,
    List.map_append, List.map_append]

end

/-- The tag of the written object selects the same declarations. -/
theorem WritesAlong.writtenObject {f : Program.Form} {p : Program.Properties}
    {tag : Option String} {ms : Members}
    {value : String × Option Node × Value → Value} (h : WritesAlong f ms p tag)
    (hf : f.WellNamed) (hms : ms.keys.Nodup)
    (hplain : ∀ m ∈ writtenMembers p tag ms, m.2.1 = none → value m = m.2.2) :
    WritesAlong f (writtenObject value p tag ms) p tag := by
  obtain ⟨hp, htag⟩ := h.wellNamed hf
  cases h with
  | properties => exact .properties
  | @branch tag tagValue branches branch ms hget hbranch =>
      have hmem : ∀ v, ms.get? tag = some v →
          (tag, none, v) ∈ writtenMembers branch.properties (some tag) ms :=
        fun v hv => List.mem_append_left _
          (mem_tagMember.mpr ⟨rfl, rfl, hv⟩)
      refine .branch ?_ hbranch
      rw [get?_writtenObject value hp.nodup htag hms hmem, hget,
        Option.map_some, hplain _ (hmem _ hget) rfl]

/-! ## Values -/

section

variable (hrun : ∀ n v, n.form.WellNamed → v.Distinct →
  (run n v).complete = true → ∃ w, Normalizes (run n) v w)

include hrun

theorem elements_normalizes {item : Node} (hitem : item.form.WellNamed)
    {vs : List Value} (hdistinct : ∀ v ∈ vs, v.Distinct)
    (hcomplete : (form target run (.arr vs) (.elements item)).complete = true) :
    ∃ w, Normalizes (fun v => form target run v (.elements item)) (.arr vs)
      w := by
  have hvs : ∀ v ∈ vs, ∃ w, Normalizes (run item) v w := fun v hv =>
    hrun item v hitem (hdistinct v hv)
      ((complete_bracketed _ _).mp hcomplete v hv)
  choose! normal hnormal using hvs
  refine ⟨.arr (vs.map normal), ⟨?_, ?_⟩⟩
  · exact bracketed_items fun v hv => (hnormal v hv).written
  · have hstable : bracketed '[' ']' (run item) (vs.map normal) =
        ofText (Value.arr ((vs.map normal).map id)).text :=
      bracketed_items (List.forall_mem_map.mpr
        fun v hv => (hnormal v hv).stable)
    rwa [List.map_id] at hstable

theorem values_normalizes {item : Node} (hitem : item.form.WellNamed)
    {ms : Members} (hdistinct : ∀ m ∈ ms, m.2.Distinct)
    (hcomplete : (form target run (.obj ms) (.values item)).complete = true) :
    ∃ w, Normalizes (fun v => form target run v (.values item)) (.obj ms)
      w := by
  have hvalues : ∀ m ∈ ms, ∃ w, Normalizes (run item) m.2 w := fun m hm =>
    hrun item m.2 hitem (hdistinct m hm)
      ((complete_member _).mp ((complete_bracketed _ _).mp hcomplete m hm))
  choose! normal hnormal using hvalues
  refine ⟨.obj (ms.map fun m => (m.1, normal m)), ⟨?_, ?_⟩⟩
  · exact bracketed_members fun m hm => member_eq m.1 (hnormal m hm).written
  · have hmembers : ∀ m ∈ ms.map fun m => (m.1, normal m),
        Written.member m.1 (fun _ => run item m.2) =
          ofText (Value.memberText (id m).1 (id m).2.text) :=
      List.forall_mem_map.mpr fun m hm => member_eq m.1 (hnormal m hm).stable
    have hstable := bracketed_members hmembers
    rwa [List.map_id] at hstable

/-- A selected member is written with its own normal value. -/
theorem selectedMember_normalizes {m : String × Option Node × Value}
    (hn : ∀ n, m.2.1 = some n → n.form.WellNamed) (hdistinct : m.2.2.Distinct)
    (hcomplete : (selectedMember run m).complete = true) :
    ∃ w, selectedMember run m = ofText (Value.memberText m.1 w.text) ∧
      selectedMember run (m.1, m.2.1, w) =
        ofText (Value.memberText m.1 w.text) ∧
      (m.2.1 = none → w = m.2.2) := by
  obtain ⟨key, n, v⟩ := m
  cases n with
  | none => exact ⟨v, member_eq key rfl, member_eq key rfl, fun _ => rfl⟩
  | some n =>
      obtain ⟨w, hw⟩ := hrun n v (hn n rfl) hdistinct
        ((complete_member _).mp hcomplete)
      exact ⟨w, member_eq key hw.written, member_eq key hw.stable, nofun⟩

theorem members_normalizes {f : Program.Form} (hf : f.WellNamed)
    {p : Program.Properties} {tag : Option String} {ms : Members}
    (halong : WritesAlong f ms p tag) (hms : ms.keys.Nodup)
    (hdistinct : ∀ m ∈ ms, m.2.Distinct)
    (hcomplete : (form target run (.obj ms) f).complete = true) :
    ∃ w, Normalizes (fun v => form target run v f) (.obj ms) w := by
  obtain ⟨hp, htag⟩ := halong.wellNamed hf
  rw [form_eq_bracketed halong] at hcomplete
  have hvalues : ∀ m ∈ writtenMembers p tag ms, ∃ w : Value,
      selectedMember run m = ofText (Value.memberText m.1 w.text) ∧
      selectedMember run (m.1, m.2.1, w) =
        ofText (Value.memberText m.1 w.text) ∧
      (m.2.1 = none → w = m.2.2) := by
    intro m hm
    have hmember : unselect m ∈ ms :=
      ((mem_writtenMembers hms).mp ⟨m.2.1, hm⟩).1
    refine selectedMember_normalizes hrun (fun n hn => ?_)
      (hdistinct _ hmember) ((complete_bracketed _ _).mp hcomplete m hm)
    have hdeclared : p.member? m.1 = some n :=
      (member?_of_writtenMembers hp.nodup htag hm).trans hn
    exact hp.of_declared (Properties.mem_of_member? hdeclared)
  choose! value hwritten hstable hplain using hvalues
  refine ⟨.obj (writtenObject value p tag ms), ⟨?_, ?_⟩⟩
  · rw [form_eq_bracketed halong]
    exact bracketed_members hwritten
  · have hagain : ∀ m ∈ (writtenMembers p tag ms).map (setValue value),
        selectedMember run m = ofText
          (Value.memberText (unselect m).1 (unselect m).2.text) :=
      List.forall_mem_map.mpr hstable
    rw [form_eq_bracketed (halong.writtenObject hf hms hplain),
      writtenMembers_writtenObject value hp.nodup htag hms,
      bracketed_members hagain, List.map_map]
    rfl

theorem form_normalizes (htarget : ∀ i, (target i).form.WellNamed)
    {f : Program.Form} (hf : f.WellNamed) {v : Value} (hdistinct : v.Distinct)
    (hcomplete : (form target run v f).complete = true) :
    ∃ w, Normalizes (fun v => form target run v f) v w := by
  by_cases hshape : HasShape f v
  · cases hshape with
    | @ref i => exact hrun _ v (htarget i) hdistinct hcomplete
    | elements =>
        cases hf with
        | elements hitem =>
            cases hdistinct with
            | arr hvs => exact elements_normalizes hrun hitem hvs hcomplete
    | values =>
        cases hf with
        | values hitem =>
            cases hdistinct with
            | obj _ hmembers =>
                exact values_normalizes hrun hitem hmembers hcomplete
    | members halong =>
        cases hdistinct with
        | obj hms hmembers =>
            exact members_normalizes hrun hf halong hms hmembers hcomplete
  · exact ⟨v, form_eq_plain hshape, form_eq_plain hshape⟩

end

/-- A run that gets to its end writes a value that is written as it stands. -/
theorem node_normalizes (htarget : ∀ i, (target i).form.WellNamed) {depth : ℕ}
    {n : Node} (hn : n.form.WellNamed) {v : Value} (hdistinct : v.Distinct)
    (hcomplete : (node target depth n v).complete = true) :
    ∃ w, Normalizes (node target depth n) v w := by
  induction depth generalizing n v with
  | zero => cases hcomplete
  | succ depth ih =>
      by_cases hv : v = .null
      · subst hv
        exact ⟨.null, node_null target depth n, node_null target depth n⟩
      · rw [node_of_ne_null hv] at hcomplete
        obtain ⟨w, hwritten, hstable⟩ :=
          form_normalizes (fun n v hn hdistinct hcomplete =>
            ih hn hdistinct hcomplete) htarget hn hdistinct hcomplete
        refine ⟨w, (node_of_ne_null hv).trans hwritten, ?_⟩
        by_cases hw : w = .null
        · rw [hw]
          exact node_null target depth n
        · exact (node_of_ne_null hw).trans hstable

/-- What is serialized is the text of a value that is serialized to the same
text. -/
theorem exists_normal {program : Program} (hnamed : program.WellNamed)
    {config : Config} {v : Value} (hdistinct : v.Distinct) {text : String}
    (htext : serialize ⟨program, config⟩ v = .ok text) :
    ∃ w, text = w.write ∧ serialize ⟨program, config⟩ w = .ok text := by
  obtain ⟨hcomplete, rfl⟩ := serialize_eq_ok_iff.mp htext
  obtain ⟨w, hwritten, hstable⟩ :=
    node_normalizes hnamed.target hnamed.root hdistinct hcomplete
  have hrun : run ⟨program, config⟩ v = ofText w.text := hwritten
  have hrun' : run ⟨program, config⟩ w = ofText w.text := hstable
  refine ⟨w, ?_, ?_⟩
  · rw [hrun]
    rfl
  · rw [serialize_eq_ok_iff, hrun, hrun']
    exact ⟨rfl, rfl⟩

/-- The value that a serialized text is parsed to, whatever was serialized and
whatever the options of the parser, is serialized to the same text again. -/
theorem serialize_normal {schema : Value} (hschema : schema.Distinct)
    {program : Program} (hprogram : Program.ofValue schema = .ok program)
    (config config' : Config) {v w : Value} (hdistinct : v.Distinct)
    {text : String} (htext : serialize ⟨program, config⟩ v = .ok text)
    (hparse : Parser.parse ⟨program, config'⟩ text = .ok w) :
    serialize ⟨program, config⟩ w = .ok text := by
  have hnamed := Program.wellNamed_of_ofValue hschema hprogram
  obtain ⟨u, hwrite, hu⟩ := exists_normal hnamed hdistinct htext
  have hdenotes : Grammar.Denotes text u := hwrite ▸ u.denotes_write
  have hparsed := (Parser.parse_sound hschema hprogram config' hparse).1
  rwa [Value.denotes_unique hparsed hdenotes]

/-- The members of a chain in the order in which they are written. -/
def orderedChain : Value :=
  .obj [("id", .str "a"), ("next", .obj [("id", .str "b")]),
    ("weight", .num (.float half))]

theorem serialize_normal_weightedChain :
    serialize ⟨chainProgram, { }⟩ weightedChain = .ok orderedChain.write ∧
    Parser.parse ⟨chainProgram, { }⟩ orderedChain.write = .ok orderedChain ∧
    serialize ⟨chainProgram, { }⟩ orderedChain = .ok orderedChain.write := by
  have htext : serialize ⟨chainProgram, { }⟩ weightedChain =
      .ok orderedChain.write := by decide +kernel
  have hvalid : Validator.validate ⟨chainProgram, { maxDepth := 5 }⟩
      orderedChain = .ok [] := rfl
  have hfits : Fits (Validator.typeAccepts { }) chainProgram.target 5
      chainProgram.root orderedChain :=
    Validator.validate_eq_nil_iff_fits.mp hvalid
  have hparse : Parser.parse ⟨chainProgram, { }⟩ orderedChain.write =
      .ok orderedChain :=
    (Parser.parse_of_fits { } hfits orderedChain.denotes_write
      (Value.distinct_distinct orderedChain)).2 (by decide +kernel)
  exact ⟨htext, hparse, serialize_normal distinct_chainSchema
    ofValue_chainSchema { } { } (Value.distinct_distinct weightedChain) htext
    hparse⟩

end Serializer
end JsonTypedef
