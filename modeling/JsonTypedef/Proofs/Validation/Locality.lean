import JsonTypedef.Proofs.Validation.First
import JsonTypedef.Proofs.Validation.Location
import JsonTypedef.Proofs.Validation.Unrepeated

/-!
# Violations do not mask each other

Two values that differ at one place only are given the same violations outside
of that place, if both runs collect all violations and come to their ends.  The
runs go the same way down to the place, provided that no discriminator takes a
segment of the path for its tag, and they go on in the same way behind it.
-/

namespace JsonTypedef

open Outcome

/-- On the way down the path from the value, some discriminator takes the next
segment for its tag. -/
inductive Program.Node.ReadsTag (target : ℕ → Program.Node) :
    Program.Node → Value → List String → Prop
  | here {n : Program.Node} {tag : String}
      {branches : List (String × Program.Branch)} {ms : Members}
      {path : List String} : n.form = .discriminator tag branches →
        ReadsTag target n (.obj ms) (tag :: path)
  | further {n m : Program.Node} {v w : Value} {segments path : List String} :
      n.form.GoesOn target v m segments w → ReadsTag target m w path →
        ReadsTag target n v (segments ++ path)

theorem Program.Node.ReadsTag.of_ref {target : ℕ → Program.Node}
    {n : Program.Node} {v : Value} {path : List String} {i : ℕ}
    (hform : n.form = .ref i) (h : (target i).ReadsTag target v path) :
    n.ReadsTag target v path := by
  have hgoes : n.form.GoesOn target v (target i) [] v := by
    rw [hform]
    exact .ref
  exact .further hgoes h

/-- The violations that are neither at the place nor below it. -/
def Violation.outside (p : Pointer) (vs : List Violation) : List Violation :=
  vs.filter fun x => ¬ p.Covers x.instancePath

namespace Outcome

/-- Runs that both come to their ends report the same outside of the place. -/
def AgreeOutside (p : Pointer) (a b : Outcome) : Prop :=
  a.halt = none → b.halt = none →
    Violation.outside p a.violations = Violation.outside p b.violations

theorem AgreeOutside.refl (p : Pointer) (a : Outcome) : AgreeOutside p a a :=
  fun _ _ => rfl

theorem completes_andThen {a : Outcome} {b : Unit → Outcome}
    (h : (a.andThen b).halt = none) :
    a.halt = none ∧ (b ()).halt = none ∧
      (a.andThen b).violations = a.violations ++ (b ()).violations := by
  unfold andThen at h ⊢
  split at h
  next halt hhalt =>
    rw [hhalt] at h
    cases h
  next hhalt => exact ⟨hhalt, h, rfl⟩

theorem AgreeOutside.andThen {p : Pointer} {a a' : Outcome}
    {b b' : Unit → Outcome} (ha : AgreeOutside p a a')
    (hb : AgreeOutside p (b ()) (b' ())) :
    AgreeOutside p (a.andThen b) (a'.andThen b') := by
  intro h h'
  obtain ⟨hhalt, hrest, hviolations⟩ := completes_andThen h
  obtain ⟨hhalt', hrest', hviolations'⟩ := completes_andThen h'
  rw [hviolations, hviolations', Violation.outside, Violation.outside,
    List.filter_append, List.filter_append]
  exact congrArg₂ (· ++ ·) (ha hhalt hhalt') (hb hrest hrest')

theorem AgreeOutside.each {p : Pointer} {α : Type} {run run' : α → Outcome}
    {as : List α} (h : ∀ a ∈ as, AgreeOutside p (run a) (run' a)) :
    AgreeOutside p (Outcome.each run as) (Outcome.each run' as) := by
  induction as with
  | nil => exact .refl p _
  | cons a as ih =>
      exact (h a List.mem_cons_self).andThen
        (ih fun b hb => h b (List.mem_cons_of_mem _ hb))

/-- Runs over lists that differ in one entry. -/
theorem AgreeOutside.each_exchange {p : Pointer} {α : Type} {run : α → Outcome}
    (front behind : List α) {a b : α} (h : AgreeOutside p (run a) (run b)) :
    AgreeOutside p (Outcome.each run (front ++ a :: behind))
      (Outcome.each run (front ++ b :: behind)) := by
  induction front with
  | nil => exact h.andThen (.refl p _)
  | cons c front ih => exact (AgreeOutside.refl p _).andThen ih

end Outcome

namespace Validator

variable {config : Config} {target : ℕ → Program.Node}
    {place keyword : Pointer}

section

variable {run : Run} {p : Pointer} {ms ms' : Members} {key : String} {v w : Value}
    (hget : ∀ name, ms.get? name = ms'.get? name ∨
      (name = key ∧ ms.get? name = some v ∧ ms'.get? name = some w))

include hget

/-- Checks of declared members, whatever is said of those that are missing. -/
theorem agree_declared {missing : String × Program.Node → Outcome}
    {declared : List (String × Program.Node)}
    (hrun : ∀ m ∈ declared, m.1 = key → ms.get? key = some v →
      AgreeOutside p (run m.2 (place.child key) v)
        (run m.2 (place.child key) w)) :
    AgreeOutside p
      (each (fun m =>
        match ms.get? m.1 with
        | some u => run m.2 (place.child m.1) u
        | none => missing m) declared)
      (each (fun m =>
        match ms'.get? m.1 with
        | some u => run m.2 (place.child m.1) u
        | none => missing m) declared) := by
  refine .each fun m hm => ?_
  rcases hget m.1 with heq | ⟨hname, hv, hw⟩
  · rw [heq]
    exact .refl p _
  · rw [hv, hw, hname]
    rw [hname] at hv
    exact hrun m hm hname hv

theorem agree_properties (hkeys : ms.keys = ms'.keys)
    {declared : Program.Properties} {tag : Option String}
    (hrun : ∀ m ∈ declared.declared, m.1 = key → ms.get? key = some v →
      AgreeOutside p (run m.2 (place.child key) v)
        (run m.2 (place.child key) w)) :
    AgreeOutside p (properties config run place keyword ms declared tag)
      (properties config run place keyword ms' declared tag) := by
  refine ((agree_declared hget ?_).andThen (agree_declared hget ?_)).andThen ?_
  · exact fun m hm => hrun m (List.mem_append_left _ hm)
  · exact fun m hm => hrun m (List.mem_append_right _ hm)
  · unfold undeclared
    rw [hkeys]
    exact .refl p _

end

section

variable {run : Run} (hrun : ∀ (m : Program.Node) (place : Pointer) {v w : Value}
    {path : List String}, Value.DiffersAt path v w →
      ¬ m.ReadsTag target v path →
        AgreeOutside (place.extend path) (run m place v) (run m place w))

include hrun

theorem agree_item {n : Program.Node} {front behind : List Value}
    {v w : Value} {path : List String} (hdiffers : Value.DiffersAt path v w)
    (htag : ¬ n.ReadsTag target (.arr (front ++ v :: behind))
      (toString front.length :: path)) :
    AgreeOutside (place.extend (toString front.length :: path))
      (form config target run n.path place (.arr (front ++ v :: behind)) n.form)
      (form config target run n.path place (.arr (front ++ w :: behind))
        n.form) := by
  cases hform : n.form with
  | ref i =>
      exact hrun (target i) place (.item hdiffers)
        fun hreads => htag (.of_ref hform hreads)
  | elements item =>
      have hget : (front ++ v :: behind)[front.length]? = some v := by simp
      have hitem := hrun item (place.child (toString front.length)) hdiffers
        fun hreads => htag (.further (by rw [hform]; exact .item hget) hreads)
      rw [Pointer.child_eq_extend, Pointer.extend_extend] at hitem
      unfold form
      simp only [List.zipIdx_append, List.zipIdx_cons, Nat.zero_add]
      exact .each_exchange _ _ hitem
  | _ => exact .refl _ _

theorem agree_member {n : Program.Node} {front behind : Members} {key : String}
    {v w : Value} {path : List String} (hdiffers : Value.DiffersAt path v w)
    (htag : ¬ n.ReadsTag target (.obj (front ++ (key, v) :: behind))
      (key :: path)) :
    AgreeOutside (place.extend (key :: path))
      (form config target run n.path place
        (.obj (front ++ (key, v) :: behind)) n.form)
      (form config target run n.path place
        (.obj (front ++ (key, w) :: behind)) n.form) := by
  have hkeys : Members.keys (front ++ (key, v) :: behind) =
      Members.keys (front ++ (key, w) :: behind) := by
    simp [Members.keys]
  have hget := fun name => Members.get?_exchange front behind key name v w
  have hchild : ∀ m : Program.Node,
      n.form.GoesOn target (.obj (front ++ (key, v) :: behind)) m [key] v →
        AgreeOutside (place.extend (key :: path)) (run m (place.child key) v)
          (run m (place.child key) w) := by
    intro m hgoes
    have hagree := hrun m (place.child key) hdiffers
      fun hreads => htag (.further hgoes hreads)
    rwa [Pointer.child_eq_extend, Pointer.extend_extend] at hagree
  cases hform : n.form with
  | ref i =>
      exact hrun (target i) place (.member hdiffers)
        fun hreads => htag (.of_ref hform hreads)
  | values item =>
      rw [hform] at hchild
      exact .each_exchange _ _ (hchild item (.value (by simp)))
  | properties p =>
      rw [hform] at hchild
      refine agree_properties hget hkeys fun m hm hname hv => ?_
      subst hname
      exact hchild m.2 (.member hm hv)
  | discriminator tag branches =>
      rw [hform] at hchild
      have hsame : Members.get? (front ++ (key, v) :: behind) tag =
          Members.get? (front ++ (key, w) :: behind) tag := by
        rcases hget tag with heq | ⟨hname, -, -⟩
        · exact heq
        · subst hname
          exact absurd (.here hform) htag
      unfold form discriminator
      dsimp only
      rw [← hsame]
      split
      next => exact .refl _ _
      next value htagged =>
        split
        next branch hbranch =>
          refine agree_properties hget hkeys fun m hm hname hv => ?_
          subst hname
          exact hchild m.2 (.branch htagged hbranch hm hv)
        next => exact .refl _ _
      next => exact .refl _ _
  | _ => exact .refl _ _

end

/-- Runs on values that differ at a path agree outside of the place that the
path leads to.  The induction follows the runs down the path; beside it they
are the same. -/
theorem agree_node {depth : ℕ} (n : Program.Node) (place : Pointer) {v w : Value}
    {path : List String} (hdiffers : Value.DiffersAt path v w)
    (htag : ¬ n.ReadsTag target v path) :
    AgreeOutside (place.extend path) (node config target depth n place v)
      (node config target depth n place w) := by
  induction depth generalizing n place v w path with
  | zero => exact .refl _ _
  | succ depth ih =>
      have hrun : ∀ (m : Program.Node) (place : Pointer) {v w : Value}
          {path : List String}, Value.DiffersAt path v w →
          ¬ m.ReadsTag target v path →
            AgreeOutside (place.extend path)
              (node config target depth m place v)
              (node config target depth m place w) :=
        fun m place _ _ _ hdiffers htag => ih m place hdiffers htag
      cases hdiffers with
      | here =>
          rw [Pointer.extend_nil]
          have hempty : ∀ v, Violation.outside place
              (node config target (depth + 1) n place v).violations = [] := by
            intro v
            refine List.filter_eq_nil_iff.mpr fun x hx => ?_
            simpa using covers_of_mem_node hx
          intro _ _
          rw [hempty, hempty]
      | item hdiffers => exact agree_item hrun hdiffers htag
      | member hdiffers => exact agree_member hrun hdiffers htag

theorem halt_of_validate_allErrors {program : Program} {config : Config}
    {v : Value} {vs : List Violation}
    (h : validate ⟨program, { config with allErrors := true }⟩ v = .ok vs) :
    (run ⟨program, { config with allErrors := true }⟩ v).halt = none := by
  have hstops := (run_stops program config v).halt_ne
  have hdepth := (violations_of_validate h).2
  cases hhalt : (run ⟨program, { config with allErrors := true }⟩ v).halt with
  | none => rfl
  | some halt =>
      cases halt with
      | violation => exact absurd hhalt hstops
      | depth => exact absurd hhalt hdepth

/-- A run that collects all violations reports none of them twice.  Another value
at a place of the instance leaves the violations elsewhere as they are and in
their order, if no discriminator reads its tag on the way to the place. -/
theorem validate_independent {schema : Value} (hschema : schema.Distinct)
    {program : Program} (hprogram : Program.ofValue schema = .ok program)
    (config : Config) {v : Value} (hv : v.Distinct) {vs : List Violation}
    (h : validate ⟨program, { config with allErrors := true }⟩ v = .ok vs) :
    vs.Nodup ∧ ∀ path w ws, Value.DiffersAt path v w →
      ¬ program.root.ReadsTag program.target v path →
      validate ⟨program, { config with allErrors := true }⟩ w = .ok ws →
        Violation.outside ⟨path⟩ vs = Violation.outside ⟨path⟩ ws := by
  obtain ⟨hroot, htarget⟩ := Program.compiled_of_ofValue hschema hprogram
  have hvs := (violations_of_validate h).1
  refine ⟨?_, fun path w ws hdiffers htag h' => ?_⟩
  · rw [← hvs]
    exact nodup_node htarget hroot .root hv
  · have hagree : AgreeOutside (Pointer.root.extend path)
        (run ⟨program, { config with allErrors := true }⟩ v)
        (run ⟨program, { config with allErrors := true }⟩ w) :=
      agree_node program.root .root hdiffers htag
    rw [← hvs, ← (violations_of_validate h').1]
    exact hagree (halt_of_validate_allErrors h) (halt_of_validate_allErrors h')

/-- A chain of two links, the second without a name. -/
def halfNamedChain : Value :=
  .obj [("id", .str "a"), ("next", .obj [])]

theorem validate_halfNamedChain :
    validate ⟨Program.chainProgram, { allErrors := true }⟩ halfNamedChain =
      .ok [⟨⟨["next"]⟩, ⟨["definitions", "link", "properties", "id"]⟩⟩] := rfl

/-- Programs without discriminators read no tags. -/
theorem not_readsTag {target : ℕ → Program.Node} {holds : Program.Node → Prop}
    (hform : ∀ n, holds n → ∀ tag branches, n.form ≠ .discriminator tag branches)
    (hgoes : ∀ n v m segments w, holds n →
      n.form.GoesOn target v m segments w → holds m)
    {n : Program.Node} (hn : holds n) (v : Value) (path : List String) :
    ¬ n.ReadsTag target v path := by
  intro h
  induction h with
  | here hdiscriminator => exact hform _ hn _ _ hdiscriminator
  | further hstep _ ih => exact ih (hgoes _ _ _ _ _ hn hstep)

theorem not_readsTag_chain (v : Value) (path : List String) :
    ¬ Program.chainProgram.root.ReadsTag Program.chainProgram.target v path := by
  refine @not_readsTag _ (fun n => (∃ kind, n.form = .type kind) ∨
    n.form = .ref 0 ∨ n = Program.chainProgram.target 0) ?_ ?_ _ ?_ v path
  · rintro n (⟨kind, hn⟩ | hn | rfl) tag branches h
    · exact nomatch hn.symm.trans h
    · exact nomatch hn.symm.trans h
    · exact nomatch h
  · rintro n v m segments w (⟨kind, hn⟩ | hn | rfl) h
    · rw [hn] at h
      cases h
    · rw [hn] at h
      cases h
      exact Or.inr (Or.inr rfl)
    · cases h with
      | member hm _ =>
          rcases List.mem_cons.mp hm with rfl | hm
          · exact Or.inl ⟨_, rfl⟩
          · rcases List.mem_cons.mp hm with rfl | hm
            · exact Or.inr (Or.inl rfl)
            · obtain rfl := List.mem_singleton.mp hm
              exact Or.inl ⟨_, rfl⟩
  · exact Or.inr (Or.inl rfl)

/-- Mending the first name of a chain leaves the violation of the second link. -/
theorem validate_independent_misnamedChain :
    misnamedChain.Distinct ∧
    Value.DiffersAt ["id"] misnamedChain halfNamedChain ∧
    Violation.outside ⟨["id"]⟩
        [⟨⟨["id"]⟩, ⟨["definitions", "link", "properties", "id", "type"]⟩⟩,
          ⟨⟨["next"]⟩, ⟨["definitions", "link", "properties", "id"]⟩⟩] =
      [⟨⟨["next"]⟩, ⟨["definitions", "link", "properties", "id"]⟩⟩] := by
  have hdiffers : Value.DiffersAt ["id"] misnamedChain halfNamedChain :=
    @Value.DiffersAt.member [] [] _ "id" _ _ .here
  refine ⟨distinct_misnamedChain, hdiffers, ?_⟩
  exact (validate_independent Program.distinct_chainSchema
    Program.ofValue_chainSchema { } distinct_misnamedChain
    validate_misnamedChain).2 ["id"] halfNamedChain _ hdiffers
      (not_readsTag_chain _ _) validate_halfNamedChain

end Validator
end JsonTypedef
