import JsonTypedef.Parsing.Parser
import JsonTypedef.Proofs.Program.Coherent
import JsonTypedef.Proofs.Serialization.Selected

/-!
# Runs stay inside their program

A run over a node goes on to the parts of its form and, for a ref, to the node
that the ref points to.  `Program.target` leads a ref behind the last definition
to some node of its own choice.  Where all refs point to definitions no run of
the validator, the parser or the serializer depends on that choice.
-/

namespace JsonTypedef
namespace Program

/-- The node that a ref points to, with a given one behind the last
definition. -/
def targetOr (p : Program) (other : Node) (i : ℕ) : Node :=
  (p.definitions[i]?.map Prod.snd).getD other

/-- All refs of a node, at any depth, point to one of the first `bound`
definitions. -/
def Node.RefsBelow (bound : ℕ) (n : Node) : Prop :=
  ∀ place m i, n.at? place = some m → m.form = .ref i → i < bound

theorem Node.RefsBelow.of_parts {bound : ℕ} {n : Node} (h : n.RefsBelow bound) :
    ∀ m ∈ n.form.parts, m.RefsBelow bound := by
  intro m hm place m' i hm' hi
  obtain ⟨j, hj⟩ := List.getElem?_of_mem hm
  apply h (j :: place) m' i _ hi
  rw [Node.at?, hj]
  exact hm'

section

variable {α : Type} {target target' : ℕ → Node}

/-- Two runs agree on all nodes that a run over the form goes on to. -/
def Form.Agree (target target' : ℕ → Node) (run run' : Node → α) (f : Form) :
    Prop :=
  (∀ n ∈ f.parts, run n = run' n) ∧
    ∀ i, f = .ref i → run (target i) = run' (target' i)

/-- Runs that go on to the nodes of a form alone agree where the refs stay in
front of the bound up to which their targets agree. -/
theorem agree_of_refsBelow {bound : ℕ} (run run' : ℕ → Node → α)
    (hzero : ∀ n, run 0 n = run' 0 n)
    (hstep : ∀ depth n,
      n.form.Agree target target' (run depth) (run' depth) →
        run (depth + 1) n = run' (depth + 1) n)
    (htarget : ∀ i < bound, target i = target' i)
    (hbelow : ∀ i < bound, (target i).RefsBelow bound) (depth : ℕ) :
    ∀ n, n.RefsBelow bound → run depth n = run' depth n := by
  induction depth with
  | zero => exact fun n _ => hzero n
  | succ depth ih =>
      intro n hn
      apply hstep
      constructor
      · intro m hm
        exact ih m (hn.of_parts m hm)
      · intro i hi
        have hlt : i < bound := hn [] n i rfl hi
        rw [← htarget i hlt]
        exact ih _ (hbelow i hlt)

end

theorem mem_parts_of_declared {p : Properties} {m : String × Node}
    (hm : m ∈ p.declared) : m.2 ∈ (Form.properties p).parts :=
  List.mem_map.mpr ⟨m, hm, rfl⟩

theorem mem_parts_of_branch {tag : String} {branches : List (String × Branch)}
    {b : String × Branch} (hb : b ∈ branches) {m : String × Node}
    (hm : m ∈ b.2.properties.declared) :
    m.2 ∈ (Form.discriminator tag branches).parts :=
  List.mem_flatMap.mpr ⟨b, hb, List.mem_map.mpr ⟨m, hm, rfl⟩⟩

end Program

open Program (Form.Agree mem_parts_of_declared mem_parts_of_branch)

/-! ## The validator -/

namespace Outcome

theorem each_congr {α : Type} {run run' : α → Outcome} {as : List α}
    (h : ∀ a ∈ as, run a = run' a) : each run as = each run' as := by
  induction as with
  | nil => rfl
  | cons a as ih =>
      rw [each, each, h a List.mem_cons_self,
        ih fun b hb => h b (List.mem_cons_of_mem _ hb)]

end Outcome

namespace Validator

variable {config : Config} {run run' : Run} {target target' : ℕ → Program.Node}

theorem properties_congr {p : Program.Properties}
    (h : ∀ m ∈ p.declared, run m.2 = run' m.2) (place keyword : Pointer)
    (ms : Members) (tag : Option String) :
    properties config run place keyword ms p tag =
      properties config run' place keyword ms p tag := by
  have hrequired : required config run place ms p.required =
      required config run' place ms p.required :=
    Outcome.each_congr fun m hm => by
      simp only [h m (List.mem_append_left _ hm)]
  have hoptional : optional run place ms p.optional =
      optional run' place ms p.optional :=
    Outcome.each_congr fun m hm => by
      simp only [h m (List.mem_append_right _ hm)]
  simp only [properties, hrequired, hoptional]

theorem form_congr {f : Program.Form} (h : f.Agree target target' run run')
    (path place : Pointer) (v : Value) :
    form config target run path place v f =
      form config target' run' path place v f := by
  obtain ⟨hparts, href⟩ := h
  cases f with
  | empty => rfl
  | ref i => exact congrFun (congrFun (href i rfl) place) v
  | type => rfl
  | enum => rfl
  | elements item =>
      have hitem : run item = run' item := hparts item List.mem_cons_self
      simp only [form, hitem]
  | values item =>
      have hitem : run item = run' item := hparts item List.mem_cons_self
      simp only [form, hitem]
  | properties p =>
      have hp := @properties_congr config _ _ p fun m hm =>
        hparts m.2 (mem_parts_of_declared hm)
      simp only [form, hp]
  | discriminator tag branches =>
      cases v with
      | obj ms =>
          simp only [form, discriminator]
          split
          next => rfl
          next value _ =>
            cases hbranch : List.lookup value branches with
            | none => rfl
            | some branch =>
                exact properties_congr (fun m hm =>
                  hparts m.2 (mem_parts_of_branch (mem_of_lookup hbranch) hm))
                  _ _ _ _
          next => rfl
      | _ => rfl

theorem node_congr {bound : ℕ} (htarget : ∀ i < bound, target i = target' i)
    (hbelow : ∀ i < bound, (target i).RefsBelow bound) (depth : ℕ)
    {n : Program.Node} (hn : n.RefsBelow bound) :
    node config target depth n = node config target' depth n := by
  refine Program.agree_of_refsBelow (node config target) (node config target')
    (fun n => rfl) (fun depth n h => ?_) htarget hbelow depth n hn
  funext place v
  rw [node, node, form_congr h]

end Validator

/-! ## The serializer -/

namespace Serializer

variable {run run' : Run} {target target' : ℕ → Program.Node}

theorem commaSeparated_congr {α : Type} {write write' : α → Written}
    {as : List α} (h : ∀ a ∈ as, write a = write' a) :
    Written.commaSeparated write as = Written.commaSeparated write' as := by
  induction as with
  | nil => rfl
  | cons a as ih =>
      have hrest := ih fun b hb => h b (List.mem_cons_of_mem _ hb)
      have ha := h a List.mem_cons_self
      cases as with
      | nil => exact ha
      | cons b as =>
          rw [Written.commaSeparated, Written.commaSeparated, ha, hrest]

theorem selectedMember_congr {m : String × Option Program.Node × Value}
    (h : ∀ n, m.2.1 = some n → run n = run' n) :
    selectedMember run m = selectedMember run' m := by
  unfold selectedMember
  cases hn : m.2.1 with
  | none => rfl
  | some n => simp only [h n hn]

theorem mem_declared_of_selected {p : Program.Properties} {tag : Option String}
    {ms : Members} {m : String × Option Program.Node × Value}
    (hm : m ∈ selected p tag ms) {n : Program.Node} (hn : m.2.1 = some n) :
    (m.1, n) ∈ p.declared := by
  rw [selected_eq_append] at hm
  rcases List.mem_append.mp hm with hm | hm
  · obtain ⟨n', hdeclared, hn', -⟩ := mem_selectedDeclared.mp hm
    obtain rfl : n' = n := Option.some.inj (hn'.symm.trans hn)
    exact hdeclared
  · obtain ⟨-, -, hnone, -⟩ := mem_selectedOthers.mp hm
    rw [hnone] at hn
    cases hn

theorem mem_of_branch? {tag value : String}
    {branches : List (String × Program.Branch)} {ms : Members}
    {branch : Program.Branch}
    (h : branch? tag branches ms = some (value, branch)) :
    (value, branch) ∈ branches :=
  mem_of_lookup (branch?_eq_some_iff.mp h).2

theorem object_congr {p : Program.Properties}
    (h : ∀ m ∈ p.declared, run m.2 = run' m.2) (ms : Members) :
    object run p ms = object run' p ms := by
  have hmembers : ∀ m ∈ selected p none ms,
      selectedMember run m = selectedMember run' m :=
    fun m hm => selectedMember_congr fun n hn =>
      h _ (mem_declared_of_selected hm hn)
  simp only [object, Written.bracketed, commaSeparated_congr hmembers]

theorem tagged_congr {p : Program.Properties}
    (h : ∀ m ∈ p.declared, run m.2 = run' m.2) (tag value : String)
    (ms : Members) : tagged run p tag value ms = tagged run' p tag value ms := by
  have hmembers : ∀ m ∈ (tag, none, .str value) :: selected p (some tag) ms,
      selectedMember run m = selectedMember run' m := by
    intro m hm
    apply selectedMember_congr
    intro n hn
    rcases List.mem_cons.mp hm with rfl | hm
    · cases hn
    · exact h _ (mem_declared_of_selected hm hn)
  simp only [tagged, Written.bracketed, commaSeparated_congr hmembers]

theorem form_congr {f : Program.Form} (h : f.Agree target target' run run')
    (v : Value) : form target run v f = form target' run' v f := by
  obtain ⟨hparts, href⟩ := h
  cases f with
  | empty => rfl
  | ref i => exact congrFun (href i rfl) v
  | type => rfl
  | enum => rfl
  | elements item =>
      have hitem : run item = run' item := hparts item List.mem_cons_self
      simp only [form, hitem]
  | values item =>
      have hitem : run item = run' item := hparts item List.mem_cons_self
      simp only [form, hitem]
  | properties p =>
      have hobject := @object_congr run run' p fun m hm =>
        hparts m.2 (mem_parts_of_declared hm)
      simp only [form, hobject]
  | discriminator tag branches =>
      cases v with
      | obj ms =>
          simp only [form]
          split
          next value branch hbranch =>
            exact tagged_congr (fun m hm => hparts m.2
              (mem_parts_of_branch (mem_of_branch? hbranch) hm)) _ _ _
          next => rfl
      | _ => rfl

theorem node_congr {bound : ℕ} (htarget : ∀ i < bound, target i = target' i)
    (hbelow : ∀ i < bound, (target i).RefsBelow bound) (depth : ℕ)
    {n : Program.Node} (hn : n.RefsBelow bound) :
    node target depth n = node target' depth n := by
  refine Program.agree_of_refsBelow (node target) (node target')
    (fun n => rfl) (fun depth n h => ?_) htarget hbelow depth n hn
  funext v
  cases v with
  | null => rfl
  | _ => exact form_congr h _

end Serializer

/-! ## The parser -/

namespace Parsing

variable {config : Config} {target target' : ℕ → Program.Node}
    {run run' : Program.Node → Scanner Failure Value}
    {untyped : Scanner Failure Value}

theorem properties_congr {p : Program.Properties}
    (h : ∀ m ∈ p.declared, run m.2 = run' m.2) (tag : Option String) :
    properties run untyped p tag = properties run' untyped p tag := by
  have hvalue : memberValue run untyped p tag =
      memberValue run' untyped p tag := by
    funext key pos
    unfold memberValue
    split
    next => rfl
    next =>
      cases hmember : p.member? key with
      | none => rfl
      | some n => exact h _ (Program.Properties.mem_of_member? hmember)
  unfold properties
  rw [hvalue]

theorem form_congr {f : Program.Form} (h : f.Agree target target' run run') :
    form config target run untyped f = form config target' run' untyped f := by
  obtain ⟨hparts, href⟩ := h
  cases f with
  | empty => rfl
  | ref i => exact href i rfl
  | type => rfl
  | enum => rfl
  | elements item =>
      have hitem : run item = run' item := hparts item List.mem_cons_self
      simp only [form, hitem]
  | values item =>
      have hitem : run item = run' item := hparts item List.mem_cons_self
      simp only [form, hitem]
  | properties p =>
      have hp := @properties_congr _ _ untyped p (fun m hm =>
        hparts m.2 (mem_parts_of_declared hm)) none
      simp only [form, hp]
  | discriminator tag branches =>
      funext c
      have hbranch : ∀ value branch, List.lookup value branches = some branch →
          properties run untyped branch.properties (some tag) =
            properties run' untyped branch.properties (some tag) :=
        fun value branch hbranch => properties_congr (fun m hm =>
          hparts m.2 (mem_parts_of_branch (mem_of_lookup hbranch) hm)) _
      simp only [form, discriminator]
      split
      next => rfl
      next =>
        split
        next => rfl
        next =>
          split
          next => rfl
          next branch hlookup => rw [hbranch _ _ hlookup]

theorem node_congr {bound : ℕ} (htarget : ∀ i < bound, target i = target' i)
    (hbelow : ∀ i < bound, (target i).RefsBelow bound) (depth : ℕ)
    {n : Program.Node} (hn : n.RefsBelow bound) :
    node config target depth n = node config target' depth n := by
  refine Program.agree_of_refsBelow (node config target) (node config target')
    (fun n => rfl) (fun depth n h => ?_) htarget hbelow depth n hn
  funext c
  rw [node, node, form_congr h]

end Parsing

/-! ## Programs of checked documents -/

namespace Program

variable {program : Program}

/-- Runs over a node are the same whatever node stands behind the last
definition: none of them goes there. -/
structure InBounds (program : Program) (n : Node) : Prop where
  validator : ∀ other config depth,
    Validator.node config (program.targetOr other) depth n =
      Validator.node config program.target depth n
  serializer : ∀ other depth,
    Serializer.node (program.targetOr other) depth n =
      Serializer.node program.target depth n
  parser : ∀ other config depth,
    Parsing.node config (program.targetOr other) depth n =
      Parsing.node config program.target depth n

theorem UnitCoherent.refsBelow {path : Pointer} {s : Schema} {unit : Node}
    (h : program.UnitCoherent path s unit) :
    unit.RefsBelow program.definitions.length := by
  intro place n i hn hi
  obtain ⟨t, -, hcoherent⟩ := h.coherent place n hn
  rw [hi] at hcoherent
  generalize t.form = f at hcoherent
  cases hcoherent with
  | ref hleads =>
      have hlt := (List.getElem?_eq_some_iff.mp hleads.unit).1
      simpa [units] using hlt

theorem mem_units_target {i : ℕ} (hi : i < program.definitions.length) :
    (.definition program.definitions[i].1, program.target i) ∈
      program.units := by
  refine List.mem_cons_of_mem _ (List.mem_map.mpr ⟨_, List.getElem_mem hi, ?_⟩)
  rw [target, List.getElem?_eq_getElem hi]
  rfl

theorem inBounds_of_refsBelow
    (hunits : ∀ m ∈ program.units,
      m.2.RefsBelow program.definitions.length) {unit : UnitName × Node}
    (hunit : unit ∈ program.units) : program.InBounds unit.2 := by
  have htarget : ∀ other, ∀ i < program.definitions.length,
      program.targetOr other i = program.target i := by
    intro other i hi
    rw [targetOr, target, List.getElem?_eq_getElem hi]
    rfl
  have hbelow : ∀ other, ∀ i < program.definitions.length,
      (program.targetOr other i).RefsBelow program.definitions.length := by
    intro other i hi
    rw [htarget other i hi]
    exact hunits _ (mem_units_target hi)
  exact ⟨fun other config depth => Validator.node_congr (htarget other)
      (hbelow other) depth (hunits _ hunit),
    fun other depth => Serializer.node_congr (htarget other)
      (hbelow other) depth (hunits _ hunit),
    fun other config depth => Parsing.node_congr (htarget other)
      (hbelow other) depth (hunits _ hunit)⟩

/-- Every checked document has a program, which is closed and coherent.  Its
units are the root and the definitions in increasing order of their names.  Each
is made from the schema of its name and coherent with it at every depth, and no
run over it leaves the program. -/
theorem ofDocument_coherent {schema : Value} (hschema : schema.Distinct)
    {document : Document} (h : Document.ofValue schema = .ok document)
    (digest : Digest) :
    ∃ program, ofDocument document digest = .ok program ∧
      program.digest = digest ∧ program.document = document ∧
      (∃ names : List String, names.Perm schema.definedNames ∧
        names.Pairwise (· < ·) ∧
        program.units.map Prod.fst = .root :: names.map .definition) ∧
      ∀ name unit, (name, unit) ∈ program.units →
        (∃ s, name.source? document = some s ∧
          program.UnitCoherent name.path s unit) ∧
        program.InBounds unit := by
  obtain ⟨program, hprogram, hdigest⟩ := exists_ofDocument hschema h digest
  obtain ⟨hdocument, -⟩ := fromDocument_of_ofDocument hprogram
  have hunits : ∀ m ∈ program.units,
      m.2.RefsBelow program.definitions.length := by
    intro m hm
    obtain ⟨s, -, hcoherent⟩ := exists_unitCoherent hschema h hprogram hm
    exact hcoherent.refsBelow
  refine ⟨program, hprogram, hdigest, hdocument,
    ⟨_, Document.perm_definedNames h, Document.sorted_of_ofValue hschema h,
      units_of_ofDocument hprogram⟩, fun name unit hunit => ⟨?_, ?_⟩⟩
  · exact exists_unitCoherent hschema h hprogram hunit
  · exact inBounds_of_refsBelow hunits hunit

/-- The schema of figures: a circle has a center, and may have a label. -/
def figureSchema : Value :=
  .obj [("definitions", .obj [
      ("point", .obj [("properties", .obj [
        ("x", .obj [("type", .str "float64")]),
        ("y", .obj [("type", .str "float64")])])]),
      ("label", .obj [("enum", .arr [.str "left", .str "right"])])]),
    ("discriminator", .str "kind"),
    ("mapping", .obj [("circle", .obj [
      ("properties", .obj [("center", .obj [("ref", .str "point")])]),
      ("optionalProperties", .obj [("label", .obj [("ref", .str "label")])])]),
      ("nothing", .obj [("properties", .obj [])])])]

theorem ofDocument_coherent_figure :
    figureSchema.Distinct ∧ ∃ document program,
      Document.ofValue figureSchema = .ok document ∧
      ofDocument document (Digest.ofSchema figureSchema) = .ok program ∧
      program.units.map Prod.fst =
        [.root, .definition "label", .definition "point"] := by
  have hdistinct : figureSchema.Distinct := Value.distinct_distinct figureSchema
  obtain ⟨program, hprogram, -, -, ⟨names, hperm, hsorted, hunits⟩, -⟩ :=
    ofDocument_coherent hdistinct rfl (Digest.ofSchema figureSchema)
  refine ⟨hdistinct, _, program, rfl, hprogram, ?_⟩
  have hnames : names = ["label", "point"] := by
    refine List.Perm.eq_of_pairwise ?_ hsorted ?_
      (hperm.trans (List.Perm.swap "label" "point" []))
    · intro a b _ _ hab hba
      exact absurd hba (String.lt_asymm hab)
    · decide
  rw [hunits, hnames]
  rfl

end Program

end JsonTypedef
