import JsonTypedef.Proofs.Program.Compiled
import JsonTypedef.Proofs.Schema.Conformance
import JsonTypedef.Proofs.Validation.Verdict

/-!
# Validation decides conformance

A value conforms to a schema exactly when it fits the node that the schema is
compiled to at some depth.  So the depth limit decides whether there is a
verdict, and never which.
-/

namespace JsonTypedef

open Program

theorem exists_bound {α : Type} {rel : ℕ → α → Prop}
    (hmono : ∀ {m n : ℕ} {a : α}, m ≤ n → rel m a → rel n a) {as : List α}
    (h : ∀ a ∈ as, ∃ n, rel n a) : ∃ n, ∀ a ∈ as, rel n a := by
  induction as with
  | nil => exact ⟨0, by simp⟩
  | cons a as ih =>
      obtain ⟨m, hm⟩ := h a List.mem_cons_self
      obtain ⟨n, hn⟩ := ih fun b hb => h b (List.mem_cons_of_mem _ hb)
      refine ⟨max m n, fun b hb => ?_⟩
      rcases List.mem_cons.mp hb with rfl | hb
      · exact hmono (Nat.le_max_left _ _) hm
      · exact hmono (Nat.le_max_right _ _) (hn b hb)

namespace Validator

theorem typeAccepts_iff {config : Config} {kind : TypeKind} {v : Value} :
    typeAccepts config kind v = true ↔ TypeConforms config kind v := by
  constructor
  · intro h
    cases v with
    | bool b =>
        obtain rfl : kind = .boolean := of_decide_eq_true h
        exact .boolean
    | str s =>
        rcases Bool.or_eq_true_iff.mp h with hstring | htimestamp
        · obtain rfl := of_decide_eq_true hstring
          exact .string
        · obtain ⟨hkind, haccepts⟩ := Bool.and_eq_true_iff.mp htimestamp
          obtain rfl := of_decide_eq_true hkind
          exact .timestamp haccepts
    | num n => exact .number (acceptsNumber_iff.mp h)
    | _ => cases h
  · intro h
    cases h with
    | boolean => rfl
    | string => rfl
    | timestamp haccepts => simpa [typeAccepts] using haccepts
    | number h => exact acceptsNumber_iff.mpr h

end Validator

namespace Program

section

variable {fits : Node → Value → Prop} {p : Program.Properties} {tag : String}
    {ms : Members}

/-- A tag that is not declared may be left out of the object instead of being
excepted from its members. -/
theorem propertiesFit_without (htag : tag ∉ p.names) :
    PropertiesFit fits p none (ms.without tag) ↔
      PropertiesFit fits p (some tag) ms := by
  have hne : ∀ m ∈ p.declared, m.1 ≠ tag := by
    rintro m hm rfl
    exact htag (List.mem_map.mpr ⟨m, hm, rfl⟩)
  have hget : ∀ m ∈ p.declared, (ms.without tag).get? m.1 = ms.get? m.1 :=
    fun m hm => Members.get?_without (hne m hm)
  constructor
  · intro h
    refine .of_get? (fun m hm => ?_) (fun m hm v hv => ?_)
      fun hadditional key hkey => ?_
    · exact (Members.mem_keys_without.mp (h.mem_keys hm)).1
    · exact h.fits_of_get? hm ((hget m hm).trans hv)
    · by_cases hkeyTag : key = tag
      · exact Or.inl (by rw [hkeyTag])
      · rcases h.declared hadditional key
          (Members.mem_keys_without.mpr ⟨hkey, hkeyTag⟩) with
          hnone | hdeclared
        · cases hnone
        · exact Or.inr hdeclared
  · intro h
    refine .of_get? (fun m hm => ?_) (fun m hm v hv => ?_)
      fun hadditional key hkey => ?_
    · exact Members.mem_keys_without.mpr
        ⟨h.mem_keys hm, hne m (List.mem_append_left _ hm)⟩
    · exact h.fits_of_get? hm ((hget m hm).symm.trans hv)
    · obtain ⟨hkey, hkeyTag⟩ := Members.mem_keys_without.mp hkey
      rcases h.declared hadditional key hkey with heq | hdeclared
      · exact absurd (Option.some.inj heq).symm hkeyTag
      · exact Or.inr hdeclared

end

end Program

namespace Validator

section

variable {program : Program} {config : Config} {fits : Node → Value → Prop}
    {s : Schema}
  (hprogram : program.FromDocument) (hnamed : program.WellNamed)

/-! ## What fits conforms -/

section

variable (hchild : ∀ d n v, n.form.WellNamed → program.Compiles d n → fits n v →
    Conforms config program.document d v)

include hchild

theorem conforms_of_propertiesFit {p : JsonTypedef.Properties}
    {q : Program.Properties} {ms : Members} (hform : s.form = .properties p)
    (hcompiled : PropertiesCompiled program.Compiles p q)
    (hq : (Program.Form.properties q).WellNamed)
    (h : PropertiesFit fits q none ms) :
    Conforms config program.document s (.obj ms) := by
  refine .properties hform (fun d hd => ?_) (fun d hd v hv => ?_)
    fun hadditional key hkey => ?_
  · obtain ⟨m, hm, hname, -⟩ := exists_mem_of_forall₂ hcompiled.required.flip hd
    rw [hname]
    exact h.mem_keys hm
  · obtain ⟨m, hm, hname, hdm⟩ :=
      exists_mem_of_forall₂ hcompiled.declared.flip hd
    rw [hname] at hv
    exact hchild _ _ _ (hq.of_declared hm) hdm (h.fits_of_get? hm hv)
  · rcases h.declared (hcompiled.additional.trans hadditional) key hkey with
        hnone | hdeclared
    · cases hnone
    · rw [← hcompiled.names_eq]
      exact Properties.declares_iff.mp hdeclared

include hprogram hnamed

theorem conforms_of_formFits {g : Program.Form} {v : Value} (hg : g.WellNamed)
    (hcompiled : CompiledForm program.Compiles
      (program.document.definitions.map Prod.fst) s.form g)
    (h : FormFits fits (typeAccepts config) program.target g v) :
    Conforms config program.document s v := by
  generalize hform : s.form = f at hcompiled
  cases hcompiled with
  | empty => exact .empty hform
  | ref hi =>
      cases h with
      | ref h =>
          obtain ⟨d, hlookup, hd⟩ := hprogram.target hi
          exact .ref hform hlookup (hchild _ _ _ (hnamed.target _) hd h)
  | type =>
      cases h with
      | type h => exact .type hform (typeAccepts_iff.mp h)
  | enum =>
      cases h with
      | enum h => exact .enum hform h
  | elements hitem =>
      cases hg with
      | elements hnode =>
          cases h with
          | elements h =>
              exact .elements hform
                fun v hv => hchild _ _ _ hnode hitem (h v hv)
  | values hitem =>
      cases hg with
      | values hnode =>
          cases h with
          | values h =>
              exact .values hform fun m hm => hchild _ _ _ hnode hitem (h m hm)
  | properties hpq =>
      cases h with
      | properties h => exact conforms_of_propertiesFit hchild hform hpq hg h
  | @discriminator _ mapping _ hbranches =>
      cases hg with
      | discriminator htag hbranch =>
          cases h with
          | @discriminator _ value _ _ _ hget hlookup h =>
              have hmem := mem_of_lookup hlookup
              obtain ⟨b, hmapping, -, hb⟩ :=
                exists_lookup_of_forall₂ (fun _ _ hb => hb.1) hbranches hlookup
              refine .discriminator hform hget hmapping ?_
              exact conforms_of_propertiesFit hchild rfl hb (hbranch _ hmem)
                ((propertiesFit_without (htag _ hmem)).mpr h)

end

include hprogram hnamed

/-- A value that fits the node that a schema is compiled to conforms to the
schema. -/
theorem conforms_of_fits {depth : ℕ} {n : Node} {v : Value}
    (hn : n.form.WellNamed) (hcompiled : program.Compiles s n)
    (h : Fits (typeAccepts config) program.target depth n v) :
    Conforms config program.document s v := by
  induction depth generalizing s n v with
  | zero => exact h.elim
  | succ depth ih =>
      obtain ⟨hnullable, hform⟩ := compiled_of_compiledTo hcompiled
      rcases h with hnull | h
      · obtain ⟨rfl, hnull⟩ := eq_null_of_isNullAt hnull
        exact .null (hnullable.symm.trans hnull)
      · exact conforms_of_formFits hprogram hnamed
          (fun _ _ _ hn hd h => ih hn hd h) hn hform h

/-! ## What conforms fits -/

/-- A value fits what the form of a schema is compiled to at some depth, unless
it is the null that the schema accepts. -/
def FormFitsLater (program : Program) (config : Config) (s : Schema)
    (v : Value) : Prop :=
  ∀ g : Program.Form, g.WellNamed →
    CompiledForm program.Compiles (program.document.definitions.map Prod.fst)
      s.form g →
      (s.nullable = true ∧ v = .null) ∨
        ∃ depth, FormFits (Fits (typeAccepts config) program.target depth)
          (typeAccepts config) program.target g v

omit hprogram hnamed in
theorem FormFitsLater.exists_fits {v : Value}
    (h : FormFitsLater program config s v) {n : Node} (hn : n.form.WellNamed)
    (hcompiled : program.Compiles s n) :
    ∃ depth, Fits (typeAccepts config) program.target depth n v := by
  obtain ⟨hnullable, hform⟩ := compiled_of_compiledTo hcompiled
  rcases h n.form hn hform with ⟨hnull, rfl⟩ | ⟨depth, hfits⟩
  · exact ⟨1, Or.inl (hnullable.trans hnull)⟩
  · exact ⟨depth + 1, Or.inr hfits⟩

omit hprogram hnamed in
/-- Declared members that each fit at some depth fit at a common one. -/
theorem exists_propertiesFit {p : JsonTypedef.Properties}
    {q : Program.Properties} {ms : Members}
    (hcompiled : PropertiesCompiled program.Compiles p q)
    (hq : (Program.Form.properties q).WellNamed)
    (hrequired : ∀ d ∈ p.required, d.1 ∈ ms.keys)
    (hdeclared : ∀ d ∈ p.declared, ∀ v, ms.get? d.1 = some v →
      FormFitsLater program config d.2 v)
    (hadditional : p.additional = false → ∀ key ∈ ms.keys, key ∈ p.names) :
    ∃ depth, PropertiesFit (Fits (typeAccepts config) program.target depth) q
      none ms := by
  have hmembers : ∀ m ∈ q.declared, ∃ depth, ∀ v, ms.get? m.1 = some v →
      Fits (typeAccepts config) program.target depth m.2 v := by
    intro m hm
    obtain ⟨d, hd, hname, hdm⟩ := exists_mem_of_forall₂ hcompiled.declared hm
    cases hget : ms.get? m.1 with
    | none => exact ⟨0, fun _ hv => nomatch hv⟩
    | some v =>
        rw [← hname] at hget
        obtain ⟨depth, hfits⟩ :=
          (hdeclared d hd v hget).exists_fits (hq.of_declared hm) hdm
        refine ⟨depth, ?_⟩
        rintro _ ⟨⟩
        exact hfits
  obtain ⟨depth, hdepth⟩ :=
    exists_bound (fun hle h v hv => (h v hv).mono hle) hmembers
  refine ⟨depth, .of_get? (fun m hm => ?_) hdepth
    fun hfalse key hkey => Or.inr ?_⟩
  · obtain ⟨d, hd, hname, -⟩ := exists_mem_of_forall₂ hcompiled.required hm
    rw [← hname]
    exact hrequired d hd
  · rw [Properties.declares_iff, hcompiled.names_eq]
    exact hadditional (hcompiled.additional.symm.trans hfalse) key hkey

/-- A value that conforms to a schema fits what the schema is compiled to.  The
induction is on the derivation, which is where the depth comes from. -/
theorem formFitsLater_of_conforms {v : Value}
    (h : Conforms config program.document s v) :
    FormFitsLater program config s v := by
  induction h with
  | null hnullable => exact fun _ _ _ => Or.inl ⟨hnullable, rfl⟩
  | empty hform =>
      intro g _ hg
      rw [hform] at hg
      cases hg
      exact Or.inr ⟨0, .empty⟩
  | ref hform hlookup _ ih =>
      intro g _ hg
      rw [hform] at hg
      cases hg with
      | ref hi =>
          obtain ⟨d, hd, hcompiled⟩ := hprogram.target hi
          obtain rfl := Option.some.inj (hlookup.symm.trans hd)
          obtain ⟨depth, hfits⟩ := ih.exists_fits (hnamed.target _) hcompiled
          exact Or.inr ⟨depth, .ref hfits⟩
  | type hform h =>
      intro g _ hg
      rw [hform] at hg
      cases hg
      exact Or.inr ⟨0, .type (typeAccepts_iff.mpr h)⟩
  | enum hform h =>
      intro g _ hg
      rw [hform] at hg
      cases hg
      exact Or.inr ⟨0, .enum h⟩
  | @elements _ item items hform _ ih =>
      intro g hg hcompiled
      rw [hform] at hcompiled
      cases hcompiled with
      | @elements _ n hitem =>
          cases hg with
          | elements hn =>
              have hitems : ∀ v ∈ items, ∃ depth,
                  Fits (typeAccepts config) program.target depth n v :=
                fun v hv => (ih v hv).exists_fits hn hitem
              obtain ⟨depth, hdepth⟩ :=
                exists_bound (fun hle h => h.mono hle) hitems
              exact Or.inr ⟨depth, .elements hdepth⟩
  | @values _ item ms hform _ ih =>
      intro g hg hcompiled
      rw [hform] at hcompiled
      cases hcompiled with
      | @values _ n hitem =>
          cases hg with
          | values hn =>
              have hmembers : ∀ m ∈ ms, ∃ depth,
                  Fits (typeAccepts config) program.target depth n m.2 :=
                fun m hm => (ih m hm).exists_fits hn hitem
              obtain ⟨depth, hdepth⟩ :=
                exists_bound (fun hle h => h.mono hle) hmembers
              exact Or.inr ⟨depth, .values hdepth⟩
  | properties hform hrequired _ hadditional ih =>
      intro g hg hcompiled
      rw [hform] at hcompiled
      cases hcompiled with
      | properties hpq =>
          obtain ⟨depth, hfits⟩ :=
            exists_propertiesFit hpq hg hrequired ih hadditional
          exact Or.inr ⟨depth, .properties hfits⟩
  | discriminator hform hget hlookup _ ih =>
      intro g hg hcompiled
      rw [hform] at hcompiled
      cases hcompiled with
      | discriminator hbranches =>
          cases hg with
          | discriminator htag hbranch =>
              obtain ⟨c, hc, -, hpq⟩ :=
                exists_lookup_of_forall₂ (fun _ _ hb => hb.1.symm)
                  hbranches.flip hlookup
              have hmem := mem_of_lookup hc
              rcases ih _ (hbranch _ hmem) (.properties hpq) with
                  ⟨hnull, -⟩ | ⟨depth, h⟩
              · cases hnull
              · cases h with
                | properties h =>
                    exact Or.inr ⟨depth, .discriminator hget hc
                      ((propertiesFit_without (htag _ hmem)).mp h)⟩

/-- The values that conform to the root are those that fit it at some depth. -/
theorem conforms_iff_exists_fits {v : Value} :
    Conforms config program.document program.document.root v ↔
      ∃ depth, Fits (typeAccepts config) program.target depth program.root
        v := by
  constructor
  · intro h
    exact (formFitsLater_of_conforms hprogram hnamed h).exists_fits hnamed.root
      hprogram.root
  · rintro ⟨depth, h⟩
    exact conforms_of_fits hprogram hnamed hnamed.root hprogram.root h

/-! ## Verdicts -/

/-- A verdict on a value is that it conforms or that it does not. -/
theorem validate_eq_nil_iff_conforms {allErrors : Bool} {maxDepth : ℕ}
    {v : Value} {vs : List Violation}
    (h : validate ⟨program, { config with allErrors, maxDepth }⟩ v = .ok vs) :
    vs = [] ↔ Conforms config program.document program.document.root v := by
  rw [conforms_iff_exists_fits hprogram hnamed]
  constructor
  · rintro rfl
    exact ⟨maxDepth, validate_eq_nil_iff_fits.mp h⟩
  · rintro ⟨depth, hfits⟩
    -- both limits lie below the greater of the two, where verdicts are the same
    have hraised := validate_mono h (Nat.le_max_left maxDepth depth)
    have hvalid :
        validate ⟨program,
          { config with allErrors, maxDepth := max maxDepth depth }⟩ v =
        .ok [] :=
      validate_eq_nil_iff_fits.mpr
        (hfits.mono (Nat.le_max_right maxDepth depth))
    exact Except.ok.inj (hraised.symm.trans hvalid)

theorem exists_validate_of_conforms {v : Value}
    (h : Conforms config program.document program.document.root v) :
    ∃ limit, ∀ allErrors maxDepth, limit ≤ maxDepth →
      validate ⟨program, { config with allErrors, maxDepth }⟩ v = .ok [] := by
  obtain ⟨depth, hfits⟩ := (conforms_iff_exists_fits hprogram hnamed).mp h
  exact ⟨depth, fun _ _ hle => validate_eq_nil_iff_fits.mpr (hfits.mono hle)⟩

end

theorem validate_cases (validator : Validator) (v : Value) :
    validator.validate v = .error ⟨validator.config.maxDepth⟩ ∨
      ∃ vs, validator.validate v = .ok vs := by
  unfold validate
  dsimp only
  split
  next => exact Or.inl rfl
  next => exact Or.inr ⟨_, rfl⟩

/-- Validation by a checked document tells in both modes whether a value
conforms, unless the depth limit is exceeded.  It is not exceeded at great
limits if the value conforms, and raising it changes no verdict. -/
theorem validate_correct {schema : Value} (hschema : schema.Distinct)
    {program : Program} (hprogram : Program.ofValue schema = .ok program)
    (config : Config) (v : Value) :
    (∀ allErrors maxDepth,
      validate ⟨program, { config with allErrors, maxDepth }⟩ v =
        .error ⟨maxDepth⟩ ∨
      ∃ vs, validate ⟨program, { config with allErrors, maxDepth }⟩ v = .ok vs ∧
        (vs = [] ↔ Conforms config program.document program.document.root v)) ∧
    (∀ allErrors maxDepth,
      isValid ⟨program, { config with allErrors, maxDepth }⟩ v =
        .error ⟨maxDepth⟩ ∨
      ∃ b, isValid ⟨program, { config with allErrors, maxDepth }⟩ v = .ok b ∧
        (b = true ↔ Conforms config program.document program.document.root v)) ∧
    (Conforms config program.document program.document.root v →
      ∃ limit, ∀ allErrors maxDepth, limit ≤ maxDepth →
        validate ⟨program, { config with allErrors, maxDepth }⟩ v = .ok []) ∧
    ∀ allErrors maxDepth limit vs, maxDepth ≤ limit →
      validate ⟨program, { config with allErrors, maxDepth }⟩ v = .ok vs →
        validate ⟨program, { config with allErrors, maxDepth := limit }⟩ v =
          .ok vs := by
  have hnamed := Program.wellNamed_of_ofValue hschema hprogram
  have hcompiled := (Program.document_of_ofValue hprogram).2
  refine ⟨fun allErrors maxDepth => ?_, fun allErrors maxDepth => ?_,
    exists_validate_of_conforms hcompiled hnamed,
    fun _ _ _ _ hle h => validate_mono h hle⟩
  · rcases validate_cases ⟨program, { config with allErrors, maxDepth }⟩ v with
        herror | ⟨vs, hok⟩
    · exact Or.inl herror
    · exact Or.inr ⟨vs, hok, validate_eq_nil_iff_conforms hcompiled hnamed hok⟩
  · unfold isValid firstOnly
    rcases validate_cases
      ⟨program, { config with allErrors := false, maxDepth }⟩ v with
      herror | ⟨vs, hok⟩
    · refine Or.inl ?_
      dsimp only
      rw [herror]
      rfl
    · refine Or.inr ⟨vs.isEmpty, ?_, ?_⟩
      · dsimp only
        rw [hok]
        rfl
      · rw [List.isEmpty_iff]
        exact validate_eq_nil_iff_conforms hcompiled hnamed hok

theorem validate_correct_chain :
    chainSchema.Distinct ∧ Program.ofValue chainSchema = .ok chainProgram ∧
    Conforms { } chainDocument chainDocument.root shortChain ∧
    ¬ Conforms { } chainDocument chainDocument.root (.obj []) := by
  obtain ⟨hverdict, -⟩ :=
    validate_correct distinct_chainSchema ofValue_chainSchema { } shortChain
  obtain ⟨hverdict', -⟩ :=
    validate_correct distinct_chainSchema ofValue_chainSchema { } (.obj [])
  refine ⟨distinct_chainSchema, ofValue_chainSchema, ?_, ?_⟩
  · rcases hverdict false 5 with herror | ⟨vs, hok, hconforms⟩
    · cases herror
    · cases hok
      exact hconforms.mp rfl
  · rcases hverdict' false 5 with herror | ⟨vs, hok, hconforms⟩
    · cases herror
    · cases hok
      exact fun h => nomatch hconforms.mpr h

end Validator
end JsonTypedef
