import JsonTypedef.Proofs.Decimal.ReadBack
import JsonTypedef.Proofs.Serialization.Depth
import JsonTypedef.Proofs.Serialization.RoundTrip

/-!
# What a serializer leaves out

A serializer checks nothing, and yet all that it writes is the text of a value
whose objects name no member twice.  This value is the given one without the
undeclared members of those objects that are written along declarations which
accept no others.  What does not have the shape of its form is written whole.
-/

namespace JsonTypedef
namespace Serializer

open Program Written

/-- The declarations that an object is written along, and its tag. -/
inductive WritesAlong :
    Program.Form → Members → Program.Properties → Option String → Prop
  | properties {p : Program.Properties} {ms : Members} :
      WritesAlong (.properties p) ms p none
  | branch {tag value : String} {branches : List (String × Program.Branch)}
      {branch : Program.Branch} {ms : Members} :
      ms.get? tag = some (.str value) →
        List.lookup value branches = some branch →
          WritesAlong (.discriminator tag branches) ms branch.properties
            (some tag)

/-- The form says how parts of the value are written. -/
inductive HasShape : Program.Form → Value → Prop
  | ref {i : ℕ} {v : Value} : HasShape (.ref i) v
  | elements {item : Node} {vs : List Value} :
      HasShape (.elements item) (.arr vs)
  | values {item : Node} {ms : Members} : HasShape (.values item) (.obj ms)
  | members {f : Program.Form} {ms : Members} {p : Program.Properties}
      {tag : Option String} :
      WritesAlong f ms p tag → HasShape f (.obj ms)

/-- The second value is the first without the members that a form does not
keep. -/
inductive Trims (target : ℕ → Node) : Program.Form → Value → Value → Prop
  | null {f : Program.Form} : Trims target f .null .null
  | ref {i : ℕ} {v u : Value} :
      Trims target (target i).form v u → Trims target (.ref i) v u
  | elements {item : Node} {vs : List Value} {trimmed : Value → Value} :
      (∀ v ∈ vs, Trims target item.form v (trimmed v)) →
        Trims target (.elements item) (.arr vs) (.arr (vs.map trimmed))
  | values {item : Node} {ms : Members} {trimmed : String × Value → Value} :
      (∀ m ∈ ms, Trims target item.form m.2 (trimmed m)) →
        Trims target (.values item) (.obj ms)
          (.obj (ms.map fun m => (m.1, trimmed m)))
  | members {f : Program.Form} {p : Program.Properties} {tag : Option String}
      {ms : Members} {trimmed : String × Value → Value} :
      WritesAlong f ms p tag →
        (∀ m ∈ ms, ∀ n, p.member? m.1 = some n →
          Trims target n.form m.2 (trimmed m)) →
          (∀ m ∈ ms, p.member? m.1 = none → trimmed m = m.2) →
            Trims target f (.obj ms)
              (.obj ((ms.filter fun m => keeps p tag m.1).map
                fun m => (m.1, trimmed m)))
  | whole {f : Program.Form} {v : Value} : ¬ HasShape f v → Trims target f v v

variable {target : ℕ → Node}

/-! ## There is one trimmed value -/

theorem Trims.eq_null {f : Program.Form} {u : Value}
    (h : Trims target f .null u) : u = .null := by
  generalize hv : Value.null = v at h
  induction h with
  | null => rfl
  | ref _ ih => exact ih hv
  | elements => cases hv
  | values => cases hv
  | members => cases hv
  | whole => rfl

theorem WritesAlong.unique {f : Program.Form} {ms : Members}
    {p p' : Program.Properties} {tag tag' : Option String}
    (h : WritesAlong f ms p tag) (h' : WritesAlong f ms p' tag') :
    p = p' ∧ tag = tag' := by
  cases h with
  | properties =>
      cases h'
      exact ⟨rfl, rfl⟩
  | branch hget hbranch =>
      cases h' with
      | branch hget' hbranch' =>
          cases hget.symm.trans hget'
          cases hbranch.symm.trans hbranch'
          exact ⟨rfl, rfl⟩

theorem Trims.unique {f : Program.Form} {v u u' : Value}
    (h : Trims target f v u) (h' : Trims target f v u') : u' = u := by
  induction h generalizing u' with
  | null => exact h'.eq_null
  | ref h ih =>
      cases h' with
      | null => exact h.eq_null.symm
      | ref h' => exact ih h'
      | members halong => cases halong
      | whole hshape => exact absurd .ref hshape
  | elements _ ih =>
      cases h' with
      | elements h' =>
          exact congrArg Value.arr
            (List.map_congr_left fun v hv => ih v hv (h' v hv))
      | whole hshape => exact absurd .elements hshape
  | values _ ih =>
      cases h' with
      | values h' =>
          exact congrArg Value.obj
            (List.map_congr_left fun m hm => by rw [ih m hm (h' m hm)])
      | members halong => cases halong
      | whole hshape => exact absurd .values hshape
  | @members f p tag ms trimmed halong hdeclared hothers ih =>
      cases h' with
      | ref => cases halong
      | values => cases halong
      | members halong' hdeclared' hothers' =>
          obtain ⟨rfl, rfl⟩ := halong.unique halong'
          refine congrArg Value.obj (List.map_congr_left fun m hm => ?_)
          have hmem := List.mem_of_mem_filter hm
          cases hmember : p.member? m.1 with
          | none => rw [hothers m hmem hmember, hothers' m hmem hmember]
          | some n => rw [ih m hmem n hmember (hdeclared' m hmem n hmember)]
      | whole hshape => exact absurd (.members halong) hshape
  | whole hshape =>
      cases h' with
      | null => rfl
      | ref => exact absurd .ref hshape
      | elements => exact absurd .elements hshape
      | values => exact absurd .values hshape
      | members halong => exact absurd (.members halong) hshape
      | whole => rfl

/-! ## How values are written by their shape -/

theorem WritesAlong.wellNamed {f : Program.Form} {ms : Members}
    {p : Program.Properties} {tag : Option String}
    (h : WritesAlong f ms p tag) (hf : f.WellNamed) :
    (Program.Form.properties p).WellNamed ∧ ∀ key ∈ tag, key ∉ p.names := by
  cases h with
  | properties =>
      refine ⟨hf, ?_⟩
      rintro key ⟨⟩
  | branch _ hbranch =>
      cases hf with
      | discriminator htags hbranches =>
          have hmem := mem_of_lookup hbranch
          refine ⟨hbranches _ hmem, ?_⟩
          rintro key ⟨⟩
          exact htags _ hmem

section

variable {run : Run}

theorem form_eq_bracketed {f : Program.Form} {ms : Members}
    {p : Program.Properties} {tag : Option String}
    (h : WritesAlong f ms p tag) :
    form target run (.obj ms) f =
      bracketed '\x7b' '\x7d' (selectedMember run)
        (writtenMembers p tag ms) := by
  cases h with
  | properties => exact object_eq_bracketed
  | branch hget hbranch =>
      simp only [form, branch?_eq_some_iff.mpr ⟨hget, hbranch⟩]
      exact tagged_eq_bracketed hget

/-- What does not have the shape of its form is written whole. -/
theorem form_eq_plain {f : Program.Form} {v : Value} (h : ¬ HasShape f v) :
    form target run v f = plain v := by
  cases f with
  | empty => rfl
  | ref i => exact absurd .ref h
  | type => rfl
  | enum => rfl
  | elements item =>
      cases v with
      | arr vs => exact absurd .elements h
      | _ => rfl
  | values item =>
      cases v with
      | obj ms => exact absurd .values h
      | _ => rfl
  | properties p =>
      cases v with
      | obj ms => exact absurd (.members .properties) h
      | _ => rfl
  | discriminator tag branches =>
      cases v with
      | obj ms =>
          cases hselect : branch? tag branches ms with
          | none => simp only [form, hselect]
          | some selection =>
              obtain ⟨hget, hbranch⟩ := branch?_eq_some_iff.mp hselect
              exact absurd (.members (.branch hget hbranch)) h
      | _ => rfl

end

/-! ## The trimmed value is written -/

/-- What is written is the text of the trimmed value, members aside from their
order. -/
def PrintsTrimmed (target : ℕ → Node) (r : Written) (f : Program.Form)
    (v : Value) : Prop :=
  ∃ u, Trims target f v u ∧ Prints r u ∧ u.Distinct

section

variable {run : Run} (hrun : ∀ n v, n.form.WellNamed → v.Distinct →
    (run n v).complete = true → PrintsTrimmed target (run n v) n.form v)

include hrun

theorem elements_trimmed {item : Node} (hitem : item.form.WellNamed)
    {vs : List Value} (hdistinct : ∀ v ∈ vs, v.Distinct)
    (hcomplete : (bracketed '[' ']' (run item) vs).complete = true) :
    PrintsTrimmed target (bracketed '[' ']' (run item) vs) (.elements item)
      (.arr vs) := by
  have hvs : ∀ v ∈ vs, PrintsTrimmed target (run item v) item.form v :=
    fun v hv => hrun item v hitem (hdistinct v hv)
      ((complete_bracketed _ _).mp hcomplete v hv)
  choose! trimmed htrims hprints htrimmed using hvs
  exact ⟨_, .elements htrims, prints_array hprints,
    .arr (List.forall_mem_map.mpr htrimmed)⟩

theorem values_trimmed {item : Node} (hitem : item.form.WellNamed)
    {ms : Members} (hms : ms.keys.Nodup) (hdistinct : ∀ m ∈ ms, m.2.Distinct)
    (hcomplete : (form target run (.obj ms) (.values item)).complete = true) :
    PrintsTrimmed target (form target run (.obj ms) (.values item))
      (.values item) (.obj ms) := by
  have hvalues : ∀ m ∈ ms,
      PrintsTrimmed target (run item m.2) item.form m.2 :=
    fun m hm => hrun item m.2 hitem (hdistinct m hm)
      ((complete_member _).mp ((complete_bracketed _ _).mp hcomplete m hm))
  choose! trimmed htrims hprints htrimmed using hvalues
  refine ⟨_, .values htrims, prints_object (List.Perm.refl _) ?_, ?_⟩
  · intro m hm
    obtain ⟨w, hsame, hwrite⟩ := hprints m hm
    exact ⟨w, hsame, member_eq m.1 hwrite⟩
  · refine .obj ?_ (List.forall_mem_map.mpr htrimmed)
    rwa [Members.keys, List.map_map]

theorem members_trimmed {f : Program.Form} {p : Program.Properties}
    {tag : Option String} {ms : Members} (halong : WritesAlong f ms p tag)
    (hp : (Program.Form.properties p).WellNamed)
    (htag : ∀ key ∈ tag, key ∉ p.names) (hms : ms.keys.Nodup)
    (hdistinct : ∀ m ∈ ms, m.2.Distinct)
    (hcomplete : (bracketed '\x7b' '\x7d' (selectedMember run)
      (writtenMembers p tag ms)).complete = true) :
    PrintsTrimmed target
      (bracketed '\x7b' '\x7d' (selectedMember run) (writtenMembers p tag ms))
      f (.obj ms) := by
  have hvalues : ∀ m ∈ ms, ∃ u : Value,
      (∀ n, p.member? m.1 = some n →
        Trims target n.form m.2 u ∧ Prints (run n m.2) u) ∧
      (p.member? m.1 = none → u = m.2) ∧ u.Distinct := by
    intro m hm
    cases hmember : p.member? m.1 with
    | none => exact ⟨m.2, nofun, fun _ => rfl, hdistinct m hm⟩
    | some n =>
        have hname : m.1 ∈ p.names :=
          Properties.member?_isSome_iff.mp (by rw [hmember]; rfl)
        obtain ⟨n', hwritten⟩ : ∃ n, (m.1, n, m.2) ∈ writtenMembers p tag ms :=
          (mem_writtenMembers hms).mpr
            ⟨hm, keeps_iff.mpr (Or.inr (Or.inr hname))⟩
        obtain rfl : some n = n' := hmember.symm.trans
          (member?_of_writtenMembers hp.nodup htag hwritten)
        obtain ⟨u, htrims, hprints, hu⟩ :=
          hrun n m.2 (hp.of_declared (Properties.mem_of_member? hmember))
            (hdistinct m hm)
            ((complete_member _).mp
              ((complete_bracketed _ _).mp hcomplete _ hwritten))
        refine ⟨u, ?_, nofun, hu⟩
        rintro _ ⟨⟩
        exact ⟨htrims, hprints⟩
  choose! trimmed hdeclared hothers htrimmed using hvalues
  have htrims : Trims target f (.obj ms) _ :=
    .members halong (fun m hm n h => (hdeclared m hm n h).1) hothers
  have hprints := prints_writtenMembers hp.nodup htag hms
    (fun m hm n h => (hdeclared m hm n h).2) hothers
  refine ⟨_, htrims, hprints, .obj ?_ ?_⟩
  · rw [Members.keys, List.map_map]
    exact (List.filter_sublist.map Prod.fst).nodup hms
  · exact List.forall_mem_map.mpr
      fun m hm => htrimmed m (List.mem_of_mem_filter hm)

theorem form_trimmed (htarget : ∀ i, (target i).form.WellNamed)
    {f : Program.Form} (hf : f.WellNamed) {v : Value} (hdistinct : v.Distinct)
    (hcomplete : (form target run v f).complete = true) :
    PrintsTrimmed target (form target run v f) f v := by
  by_cases hshape : HasShape f v
  · cases hshape with
    | @ref i =>
        obtain ⟨u, htrims, hprints, hu⟩ :=
          hrun _ v (htarget i) hdistinct hcomplete
        exact ⟨u, .ref htrims, hprints, hu⟩
    | elements =>
        cases hf with
        | elements hitem =>
            cases hdistinct with
            | arr hvs => exact elements_trimmed hrun hitem hvs hcomplete
    | values =>
        cases hf with
        | values hitem =>
            cases hdistinct with
            | obj hms hmembers =>
                exact values_trimmed hrun hitem hms hmembers hcomplete
    | members halong =>
        cases hdistinct with
        | obj hms hmembers =>
            obtain ⟨hp, htag⟩ := halong.wellNamed hf
            rw [form_eq_bracketed halong] at hcomplete ⊢
            exact members_trimmed hrun halong hp htag hms hmembers hcomplete
  · rw [form_eq_plain hshape]
    exact ⟨v, .whole hshape, prints_plain v, hdistinct⟩

end

/-- A run that gets to its end writes the trimmed value. -/
theorem node_trimmed (htarget : ∀ i, (target i).form.WellNamed) {depth : ℕ}
    {n : Node} (hn : n.form.WellNamed) {v : Value} (hdistinct : v.Distinct)
    (hcomplete : (node target depth n v).complete = true) :
    PrintsTrimmed target (node target depth n v) n.form v := by
  induction depth generalizing n v with
  | zero => cases hcomplete
  | succ depth ih =>
      have hrun := fun (n : Node) (v : Value) hn hdistinct hcomplete =>
        ih (n := n) (v := v) hn hdistinct hcomplete
      cases v with
      | null => exact ⟨.null, .null, prints_plain .null, .null⟩
      | _ => exact form_trimmed hrun htarget hn hdistinct hcomplete

/-- Whatever is serialized, valid or not, is the text of a value whose objects
name no member twice: the given value without the members that its nodes do not
keep, up to the order of members. -/
theorem serialize_trims {schema : Value} (hschema : schema.Distinct)
    {program : Program} (hprogram : Program.ofValue schema = .ok program)
    (config : Config) {v : Value} (hdistinct : v.Distinct) {text : String}
    (htext : serialize ⟨program, config⟩ v = .ok text) :
    ∃ u w, Trims program.target program.root.form v u ∧
      (∀ u', Trims program.target program.root.form v u' → u' = u) ∧
      u.Same w ∧ w.Distinct ∧ Grammar.Denotes text w := by
  have hnamed := Program.wellNamed_of_ofValue hschema hprogram
  obtain ⟨hcomplete, rfl⟩ := serialize_eq_ok_iff.mp htext
  obtain ⟨u, htrims, ⟨w, hsame, hwrite⟩, hu⟩ :=
    node_trimmed hnamed.target hnamed.root hdistinct hcomplete
  refine ⟨u, w, htrims, fun u' h => htrims.unique h, hsame,
    hsame.distinct hu, ?_⟩
  have hrun : run ⟨program, config⟩ v = ofText w.text := hwrite
  rw [hrun]
  exact w.denotes_write

/-- A chain with a member that no link declares, whose next link is an array. -/
def looseChain : Value :=
  .obj [("note", .null), ("next", .arr [.bool true]), ("id", .str "a")]

theorem serialize_trims_looseChain :
    ∃ text, serialize ⟨chainProgram, { }⟩ looseChain = .ok text ∧
      text = "\x7b\"id\":\"a\",\"next\":[true]\x7d" ∧
      ∃ u w, Trims chainProgram.target chainProgram.root.form looseChain u ∧
        (∀ u', Trims chainProgram.target chainProgram.root.form looseChain u' →
          u' = u) ∧
        u.Same w ∧ w.Distinct ∧ Grammar.Denotes text w := by
  have htext : serialize ⟨chainProgram, { }⟩ looseChain =
      .ok "\x7b\"id\":\"a\",\"next\":[true]\x7d" := rfl
  exact ⟨_, htext, rfl,
    serialize_trims distinct_chainSchema ofValue_chainSchema { }
      (Value.distinct_distinct looseChain) htext⟩

end Serializer
end JsonTypedef
