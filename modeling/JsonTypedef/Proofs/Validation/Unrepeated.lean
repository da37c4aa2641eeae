import JsonTypedef.Proofs.Program.Located
import JsonTypedef.Proofs.Validation.Traversal
import Mathlib.Data.List.Nodup

/-!
# No violation is reported twice

The checks of an object concern its members one by one.  A violation is found in
the value of the member that it concerns, or it is reported at the object and
its schema path ends with the name of the member, which is missing.  So checks
that concern different members report different violations.
-/

namespace JsonTypedef

open Outcome

namespace Program

/-! ## Compiled nodes -/

/-- A node that is compiled from some schema and uses names once. -/
structure Node.Compiled (n : Node) : Prop where
  named : n.form.WellNamed
  source : ∃ names s, CompiledTo names s n

/-- The path of every declared member ends with the member's name. -/
def Properties.Titled (p : Properties) : Prop :=
  ∀ m ∈ p.declared, m.2.path.segments.getLast? = some m.1

theorem titled_of_compileProperties {names : List String} {path : Pointer}
    {p : JsonTypedef.Properties} {q : Properties}
    (h : compileProperties names path p = .ok q) : q.Titled := by
  have hmembers : ∀ {base : Pointer} {table : List (String × Schema)}
      {nodes : List (String × Node)},
      compileMembers names base table = .ok nodes →
        ∀ m ∈ nodes, m.2.path.segments.getLast? = some m.1 := by
    intro base table nodes hnodes m hm
    obtain ⟨d, -, hname, hcompiled⟩ :=
      exists_mem_of_forall₂ (entries_of_compileMembers hnodes) hm
    rw [(path_of_compile hcompiled).1, Pointer.segments_child, hname]
    simp
  obtain ⟨hrequired, hoptional, -⟩ := compileProperties_eq_ok h
  intro m hm
  rcases List.mem_append.mp hm with hm | hm
  · exact hmembers hrequired m hm
  · exact hmembers hoptional m hm

namespace Node.Compiled

variable {n : Node}

theorem exists_compileForm (h : n.Compiled) :
    ∃ names f, compileForm names n.path f = .ok n.form := by
  obtain ⟨names, s, path, hs⟩ := h.source
  obtain ⟨hpath, hform⟩ := path_of_compile hs
  rw [← hpath] at hform
  exact ⟨names, s.form, hform⟩

theorem of_parts (h : n.Compiled) {m : Node} (hm : m ∈ n.form.parts) :
    m.Compiled := by
  obtain ⟨names, f, hform⟩ := h.exists_compileForm
  obtain ⟨s, -, hs⟩ :=
    exists_mem_of_forall₂ (compiled_of_compileForm hform).parts hm
  exact ⟨h.named.of_parts m hm, names, s, hs⟩

theorem titled (h : n.Compiled) {p : Properties}
    (hform : n.form = .properties p) : p.Titled := by
  obtain ⟨names, f, hf⟩ := h.exists_compileForm
  rw [hform] at hf
  cases compiled_of_compileForm hf with
  | properties =>
      obtain ⟨q, hq, heq⟩ := exists_ok_of_map hf
      cases heq
      exact titled_of_compileProperties hq

theorem titled_branch (h : n.Compiled) {tag : String}
    {branches : List (String × Branch)}
    (hform : n.form = .discriminator tag branches) {b : String × Branch}
    (hb : b ∈ branches) : b.2.properties.Titled := by
  obtain ⟨names, f, hf⟩ := h.exists_compileForm
  rw [hform] at hf
  cases compiled_of_compileForm hf with
  | discriminator =>
      obtain ⟨branches', hbranches, heq⟩ := exists_ok_of_map hf
      cases heq
      obtain ⟨_, -, -, -, hcompiled⟩ :=
        exists_mem_of_forall₂ (entries_of_compileBranches hbranches) hb
      exact titled_of_compileProperties hcompiled

end Node.Compiled

/-- The nodes of the program of a checked document are compiled. -/
theorem compiled_of_ofValue {schema : Value} (hschema : schema.Distinct)
    {program : Program} (h : ofValue schema = .ok program) :
    program.root.Compiled ∧ ∀ i, (program.target i).Compiled := by
  have hnamed := wellNamed_of_ofValue hschema h
  have hdocument := (document_of_ofValue h).2
  have hroot : program.root.Compiled := ⟨hnamed.root, _, _, hdocument.root⟩
  refine ⟨hroot, fun i => ⟨hnamed.target i, ?_⟩⟩
  unfold Program.target
  cases hi : program.definitions[i]? with
  | none => exact hroot.source
  | some m =>
      obtain ⟨d, -, -, hm⟩ :=
        exists_mem_of_forall₂ hdocument.definitions (List.mem_of_getElem? hi)
      exact ⟨_, _, hm⟩

end Program

/-! ## What a violation concerns -/

/-- The violation concerns the member `key` of the object at `place`. -/
def Violation.Concerns (place : Pointer) (x : Violation) (key : String) :
    Prop :=
  (place.child key).Covers x.instancePath ∨
    (x.instancePath = place ∧ x.schemaPath.segments.getLast? = some key)

theorem Violation.Concerns.eq {place : Pointer} {x : Violation}
    {first second : String} (h : x.Concerns place first)
    (h' : x.Concerns place second) : first = second := by
  rcases h with hcovers | ⟨hplace, hlast⟩
  · rcases h' with hcovers' | ⟨hplace', -⟩
    · exact hcovers.segment_eq hcovers'
    · rw [hplace'] at hcovers
      exact absurd hcovers (Pointer.not_child_covers _ _)
  · rcases h' with hcovers' | ⟨-, hlast'⟩
    · rw [hplace] at hcovers'
      exact absurd hcovers' (Pointer.not_child_covers _ _)
    · exact Option.some.inj (hlast.symm.trans hlast')

namespace Outcome

/-- The violations are reported once each and concern members with the given
names. -/
structure Apart (place : Pointer) (names : List String) (a : Outcome) :
    Prop where
  nodup : a.violations.Nodup
  concerns : ∀ x ∈ a.violations, ∃ key ∈ names, x.Concerns place key

/-- Runs that concern different members report different violations. -/
theorem Apart.andThen {place : Pointer} {names names' : List String}
    {a : Outcome} {b : Unit → Outcome} (ha : a.Apart place names)
    (hb : (b ()).Apart place names') (hdisjoint : names.Disjoint names') :
    (a.andThen b).Apart place (names ++ names') := by
  refine ⟨?_, fun x hx => ?_⟩
  · unfold Outcome.andThen
    split
    next => exact ha.nodup
    next =>
      refine List.nodup_append.mpr ⟨ha.nodup, hb.nodup, ?_⟩
      rintro x hx _ hx' rfl
      obtain ⟨key, hkey, hconcerns⟩ := ha.concerns x hx
      obtain ⟨key', hkey', hconcerns'⟩ := hb.concerns x hx'
      rw [hconcerns.eq hconcerns'] at hkey
      exact hdisjoint hkey hkey'
  · rcases mem_andThen hx with hx | hx
    · obtain ⟨key, hkey, hconcerns⟩ := ha.concerns x hx
      exact ⟨key, List.mem_append_left _ hkey, hconcerns⟩
    · obtain ⟨key, hkey, hconcerns⟩ := hb.concerns x hx
      exact ⟨key, List.mem_append_right _ hkey, hconcerns⟩

/-- One run for each of several members. -/
theorem Apart.each (place : Pointer) {α : Type} {run : α → Outcome}
    {name : α → String} {as : List α} (hnames : (as.map name).Nodup)
    (hnodup : ∀ a ∈ as, (run a).violations.Nodup)
    (hconcerns : ∀ a ∈ as, ∀ x ∈ (run a).violations,
      x.Concerns place (name a)) :
    (Outcome.each run as).Apart place (as.map name) := by
  induction as with
  | nil => exact ⟨List.nodup_nil, fun x hx => nomatch hx⟩
  | cons a as ih =>
      rw [List.map_cons, List.nodup_cons] at hnames
      have hhead : (run a).Apart place [name a] :=
        ⟨hnodup a List.mem_cons_self, fun x hx =>
          ⟨name a, List.mem_singleton_self _,
            hconcerns a List.mem_cons_self x hx⟩⟩
      have htail := ih hnames.2
        (fun b hb => hnodup b (List.mem_cons_of_mem _ hb))
        fun b hb => hconcerns b (List.mem_cons_of_mem _ hb)
      exact hhead.andThen htail (List.singleton_disjoint.mpr hnames.1)

end Outcome

namespace Validator

variable {config : Config} {target : ℕ → Program.Node}
    {path place keyword : Pointer}

/-- A run reports violations at the place where it starts or below. -/
theorem covers_of_mem_node {depth : ℕ} {n : Program.Node} {v : Value}
    {x : Violation} (h : x ∈ (node config target depth n place v).violations) :
    place.Covers x.instancePath := by
  induction depth generalizing n place v with
  | zero => cases h
  | succ depth ih =>
      rcases mem_node h with ⟨segments, _, _, rfl⟩ | ⟨_, segments, _, _, h⟩
      · exact Pointer.covers_extend _ _
      · exact (Pointer.covers_extend _ _).trans (ih h)

theorem nodup_reject : (reject config place keyword).violations.Nodup :=
  List.nodup_singleton _

theorem nodup_check {condition : Bool} :
    (check config condition place keyword).violations.Nodup := by
  cases condition with
  | true => exact List.nodup_nil
  | false => exact nodup_reject

section

variable {run : Run} {ms : Members}
    (hcovers : ∀ n place v, ∀ x ∈ (run n place v).violations,
      place.Covers x.instancePath)
    (hrun : ∀ n : Program.Node, n.Compiled → ∀ place v, v.Distinct →
      (run n place v).violations.Nodup)

theorem undeclared_apart (hkeys : ms.keys.Nodup) {p : Program.Properties}
    {tag : Option String} :
    (undeclared config place keyword ms p tag).Apart place
      (ms.keys.filter fun key => !p.declares key) := by
  unfold undeclared
  split
  next => exact ⟨List.nodup_nil, fun x hx => nomatch hx⟩
  next =>
    refine ⟨?_, fun x hx => ?_⟩
    · have hapart : (each (fun key =>
          check config (tag = some key || p.declares key) (place.child key)
            keyword) ms.keys).Apart place (ms.keys.map id) := by
        refine .each place (by rwa [List.map_id]) (fun _ _ => nodup_check) ?_
        intro key _ x hx
        rw [(mem_check hx).2]
        exact Or.inl (Pointer.covers_refl _)
      exact hapart.nodup
    · obtain ⟨key, hkey, hx⟩ := mem_each hx
      obtain ⟨hcondition, rfl⟩ := mem_check hx
      have hdeclares := (Bool.or_eq_false_iff.mp hcondition).2
      exact ⟨key, List.mem_filter.mpr ⟨hkey, by rw [hdeclares]; rfl⟩,
        Or.inl (Pointer.covers_refl _)⟩

include hcovers hrun

theorem required_apart (hms : ∀ m ∈ ms, m.2.Distinct)
    {declared : List (String × Program.Node)}
    (hnames : (declared.map Prod.fst).Nodup)
    (hnodes : ∀ m ∈ declared, m.2.Compiled)
    (htitled : ∀ m ∈ declared, m.2.path.segments.getLast? = some m.1) :
    (required config run place ms declared).Apart place
      (declared.map Prod.fst) := by
  refine .each place hnames (fun m hm => ?_) fun m hm x hx => ?_
  · split
    next v hv =>
      exact hrun _ (hnodes m hm) _ v (hms _ (Members.mem_of_get? hv))
    next => exact nodup_reject
  · split at hx
    next => exact Or.inl (hcovers _ _ _ x hx)
    next =>
      rw [mem_reject.mp hx]
      exact Or.inr ⟨rfl, htitled m hm⟩

theorem optional_apart (hms : ∀ m ∈ ms, m.2.Distinct)
    {declared : List (String × Program.Node)}
    (hnames : (declared.map Prod.fst).Nodup)
    (hnodes : ∀ m ∈ declared, m.2.Compiled) :
    (optional run place ms declared).Apart place (declared.map Prod.fst) := by
  refine .each place hnames (fun m hm => ?_) fun m hm x hx => ?_
  · split
    next v hv =>
      exact hrun _ (hnodes m hm) _ v (hms _ (Members.mem_of_get? hv))
    next => exact List.nodup_nil
  · split at hx
    next => exact Or.inl (hcovers _ _ _ x hx)
    next => cases hx

/-- The three passes over an object concern the required members, the optional
ones and those that are not declared. -/
theorem nodup_properties {p : Program.Properties} {tag : Option String}
    (hms : (Value.obj ms).Distinct) (hnames : p.names.Nodup)
    (hnodes : ∀ m ∈ p.declared, m.2.Compiled) (htitled : p.Titled) :
    (properties config run place keyword ms p tag).violations.Nodup := by
  cases hms with
  | obj hkeys hmembers =>
      have hsplit := hnames
      rw [Program.Properties.names, Program.Properties.declared,
        List.map_append, List.nodup_append] at hsplit
      obtain ⟨hrequired, hoptional, hdisjoint⟩ := hsplit
      have hfirst : (required config run place ms p.required).Apart place
          (p.required.map Prod.fst) :=
        required_apart hcovers hrun hmembers hrequired
          (fun m hm => hnodes m (List.mem_append_left _ hm))
          fun m hm => htitled m (List.mem_append_left _ hm)
      have hsecond : (optional run place ms p.optional).Apart place
          (p.optional.map Prod.fst) :=
        optional_apart hcovers hrun hmembers hoptional
          fun m hm => hnodes m (List.mem_append_right _ hm)
      unfold properties
      refine ((hfirst.andThen hsecond ?_).andThen (undeclared_apart hkeys)
        ?_).nodup
      · intro key hkey hkey'
        exact hdisjoint key hkey key hkey' rfl
      · intro key hkey hundeclared
        rw [← List.map_append] at hkey
        have hdeclares : p.declares key = true :=
          Program.Properties.declares_iff.mpr hkey
        rw [List.mem_filter, hdeclares] at hundeclared
        exact absurd hundeclared.2 (by decide)

theorem nodup_items {item : Program.Node} (hitem : item.Compiled)
    {items : List Value} (hitems : ∀ v ∈ items, v.Distinct) :
    (each (fun m => run item (place.child (toString m.2)) m.1)
      items.zipIdx).violations.Nodup := by
  have hindices : (items.zipIdx.map fun m => toString m.2).Nodup := by
    have hmap : (items.zipIdx.map fun m => toString m.2) =
        (items.zipIdx.map Prod.snd).map toString := by
      rw [List.map_map]
      rfl
    rw [hmap, List.zipIdx_map_snd]
    exact (List.nodup_range' _).map fun i j => toString_inj.mp
  refine (Apart.each place hindices (fun m hm => ?_) fun m _ x hx => ?_).nodup
  · exact hrun _ hitem _ _ (hitems _ (List.fst_mem_of_mem_zipIdx hm))
  · exact Or.inl (hcovers _ _ _ x hx)

theorem nodup_members {item : Program.Node} (hitem : item.Compiled)
    (hms : (Value.obj ms).Distinct) :
    (each (fun m => run item (place.child m.1) m.2) ms).violations.Nodup := by
  cases hms with
  | obj hkeys hmembers =>
      refine (Apart.each place hkeys (fun m hm => ?_) fun m _ x hx => ?_).nodup
      · exact hrun _ hitem _ _ (hmembers m hm)
      · exact Or.inl (hcovers _ _ _ x hx)

theorem nodup_discriminator {tag : String}
    {branches : List (String × Program.Branch)}
    (hms : (Value.obj ms).Distinct)
    (hbranches : ∀ b ∈ branches, b.2.properties.names.Nodup ∧
      (∀ m ∈ b.2.properties.declared, m.2.Compiled) ∧ b.2.properties.Titled) :
    (discriminator config run path place ms tag branches).violations.Nodup := by
  unfold discriminator
  split
  next => exact nodup_reject
  next value hget =>
    split
    next branch hbranch =>
      obtain ⟨hnames, hnodes, htitled⟩ := hbranches _ (mem_of_lookup hbranch)
      exact nodup_properties hcovers hrun hms hnames hnodes htitled
    next => exact nodup_reject
  next => exact nodup_reject

theorem nodup_form (htarget : ∀ i, (target i).Compiled) {n : Program.Node}
    (hn : n.Compiled) {v : Value} (hv : v.Distinct) :
    (form config target run path place v n.form).violations.Nodup := by
  have hparts : ∀ m ∈ n.form.parts, m.Compiled := fun m hm => hn.of_parts hm
  have hnamed := hn.named
  cases hform : n.form with
  | empty => exact List.nodup_nil
  | ref i => exact hrun _ (htarget i) _ _ hv
  | type kind => exact nodup_check
  | enum values => exact nodup_check
  | elements item =>
      rw [hform] at hparts
      have hitem := hparts item (List.mem_singleton_self _)
      cases hv with
      | arr hitems => exact nodup_items hcovers hrun hitem hitems
      | _ => exact nodup_reject
  | values item =>
      rw [hform] at hparts
      have hitem := hparts item (List.mem_singleton_self _)
      cases v with
      | obj ms => exact nodup_members hcovers hrun hitem hv
      | _ => exact nodup_reject
  | properties p =>
      rw [hform] at hnamed hparts
      cases v with
      | obj ms =>
          exact nodup_properties hcovers hrun hv hnamed.nodup
            (fun m hm => hparts _ (List.mem_map_of_mem hm)) (hn.titled hform)
      | _ => exact nodup_reject
  | discriminator tag branches =>
      rw [hform] at hnamed hparts
      cases v with
      | obj ms =>
          refine nodup_discriminator hcovers hrun hv fun b hb => ?_
          cases hnamed with
          | discriminator _ hbranches =>
              refine ⟨(hbranches b hb).nodup, fun m hm => hparts _ ?_,
                hn.titled_branch hform hb⟩
              exact List.mem_flatMap.mpr ⟨b, hb, List.mem_map_of_mem hm⟩
      | _ => exact nodup_reject

end

/-- No node reports a violation twice. -/
theorem nodup_node (htarget : ∀ i, (target i).Compiled) {depth : ℕ}
    {n : Program.Node} (hn : n.Compiled) (place : Pointer) {v : Value}
    (hv : v.Distinct) : (node config target depth n place v).violations.Nodup := by
  induction depth generalizing n place v with
  | zero => exact List.nodup_nil
  | succ depth ih =>
      unfold node
      split
      next => exact List.nodup_nil
      next =>
        exact nodup_form (fun _ _ _ _ hx => covers_of_mem_node hx)
          (fun _ hm place _ hw => ih hm place hw) htarget hn hv

end Validator
end JsonTypedef
