import JsonTypedef.Proofs.Parsing.Agreement
import JsonTypedef.Proofs.Parsing.Halting
import JsonTypedef.Proofs.Program.Coherent

/-!
# The branch that an object is read along

A skip for the look-ahead only balances brackets, while the reading behind it is
strict.  Where any value can be read, both end at the same place.  Hence an
object that is read along a discriminator has the tag that the look-ahead found,
wherever among its members that stands, and fits the branch of that tag.
-/

namespace JsonTypedef
namespace Program

/-- All nodes inside of a well-named one are well named. -/
theorem Form.WellNamed.of_at? {n m : Node} (h : n.form.WellNamed)
    {place : List ℕ} (hm : n.at? place = some m) : m.form.WellNamed := by
  induction place generalizing n with
  | nil =>
      cases hm
      exact h
  | cons i place ih =>
      obtain ⟨part, hpart, hm⟩ := Option.bind_eq_some_iff.mp hm
      exact ih (h.of_parts part (List.mem_of_getElem? hpart)) hm

end Program

namespace Parsing

open Grammar Scanner Program

section

variable {config : Config} {node : Node → Scanner Failure Value}
    {other : Scanner Failure Value} {tag : String}
    {branches : List (String × Program.Branch)}

/-- Where any value is read, a skip ends behind it. -/
theorem skipValue_of_untyped {depth : ℕ} {s : Source}
    {t : Taken Value (.ofSource s)}
    (h : untyped config depth (.ofSource s) = .ok t) :
    ∃ t', skipValue 0 (.ofSource s) = .ok t' ∧ t'.rest = t.rest := by
  have hread : Explains config (fun _ => ⟨false, .root, .empty⟩) none s
      (untyped config depth (.ofSource s)) :=
    untyped_explained (Cursor.at_ofSource s)
  obtain ⟨s', hrest, hspells⟩ := hread.of_ok h
  obtain ⟨t', hskip, hrest'⟩ := skip_of_place hspells
  exact ⟨t', hskip, hrest'.trans hrest.symm⟩

/-- Reading along a discriminator is reading the object along the branch of the
tag that the look-ahead found. -/
theorem discriminator_eq_ok {c : Cursor} {t : Taken Value c}
    (h : discriminator node other tag branches c = .ok t) :
    ∃ brace value pos branch t',
      c.accept? .openBrace = some brace ∧
      lookAhead tag brace.rest = .ok (value, pos) ∧
      List.lookup value branches = some branch ∧
      properties node other branch.properties (some tag) brace.rest = .ok t' ∧
      t'.value = t.value ∧ t'.rest = t.rest := by
  unfold discriminator at h
  split at h
  next => cases h
  next brace hbrace =>
    split at h
    next => cases h
    next value pos hlook =>
      split at h
      next => cases h
      next branch hbranch =>
        obtain ⟨t', hread, rfl⟩ := exists_ok_of_map h
        exact ⟨brace, value, pos, branch, t', hbrace, hlook, hbranch, hread,
          rfl, rfl⟩

end

/-- Wherever any value is read from a text, a skip from there ends at the same
cursor.  And what is read along a discriminator is an object whose tag member is
the string that the look-ahead found; it was read from behind its brace along
the branch of that string, which it fits. -/
theorem skipValue_agrees {schema : Value} (hschema : schema.Distinct)
    {program : Program} (hprogram : Program.ofValue schema = .ok program)
    (config : Config) (depth : ℕ) (s : Source) :
    (∀ t, untyped config depth (.ofSource s) = .ok t →
      ∃ t', skipValue 0 (.ofSource s) = .ok t' ∧ t'.rest = t.rest) ∧
    ∀ name unit place n tag branches, (name, unit) ∈ program.units →
      unit.at? place = some n → n.form = .discriminator tag branches →
        ∀ t, discriminator (node config program.target depth)
            (untyped config depth) tag branches (.ofSource s) = .ok t →
          ∃ brace value pos branch t', ∃ ms : Members,
            (Cursor.ofSource s).accept? .openBrace = some brace ∧
            lookAhead tag brace.rest = .ok (value, pos) ∧
            List.lookup value branches = some branch ∧
            properties (node config program.target depth)
              (untyped config depth) branch.properties (some tag)
              brace.rest = .ok t' ∧
            t'.value = t.value ∧ t'.rest = t.rest ∧ t.value = .obj ms ∧
            ms.get? tag = some (.str value) ∧
            PropertiesFit
              (Fits (Validator.typeAccepts config) program.target depth)
              branch.properties (some tag) ms := by
  refine ⟨fun t ht => skipValue_of_untyped ht, ?_⟩
  intro name unit place n tag branches hunit hplace hform t ht
  have hnamed := wellNamed_of_ofValue hschema hprogram
  obtain ⟨brace, value, pos, branch, t', hbrace, hlook, hbranch, hread, hvalue,
    hrest⟩ := discriminator_eq_ok ht
  have hdiscriminator : n.form.WellNamed :=
    (hnamed.of_mem_units hunit).of_at? hplace
  rw [hform] at hdiscriminator
  cases hdiscriminator with
  | discriminator htags hbranches =>
      have hmem := mem_of_lookup hbranch
      have htag : ∀ x ∈ some tag, x ∉ branch.properties.names := by
        rintro x ⟨⟩
        exact htags _ hmem
      obtain ⟨ms, hobj, hspells, -, hfits⟩ := properties_sound
        (fun n c v s hn h => node_sound hnamed.target hn h)
        (fun c v s h => untyped_sound h) (hbranches _ hmem) htag
        ⟨t', hread, rfl, rfl⟩
      exact ⟨brace, value, pos, branch, t', ms, hbrace, hlook, hbranch, hread,
        hvalue, hrest, hvalue.symm.trans hobj,
        (lookAhead_eq_ok_iff hspells).mp ⟨pos, hlook⟩, hfits⟩

/-! ## Notes

A note is an object with a text, told by its tag. -/

/-- The schema of notes. -/
def noteSchema : Value :=
  .obj [("discriminator", .str "kind"),
    ("mapping", .obj [("note", .obj [
      ("properties", .obj [("text", .obj [("type", .str "string")])])])])]

/-- The branch of notes. -/
def noteBranch : Program.Branch :=
  ⟨⟨["mapping", "note"]⟩,
    ⟨[("text", ⟨false, ⟨["mapping", "note", "properties", "text"]⟩,
      .type .string⟩)], [], false, "properties"⟩⟩

/-- The program of notes. -/
def noteProgram : Program :=
  ⟨Digest.ofSchema noteSchema,
    ⟨⟨false, none, .discriminator "kind" [("note", ⟨none,
      ⟨[("text", ⟨false, none, .type .string⟩)], [], false, true⟩⟩)]⟩, []⟩,
    ⟨false, .root, .discriminator "kind" [("note", noteBranch)]⟩, []⟩

theorem distinct_noteSchema : noteSchema.Distinct :=
  Value.distinct_distinct noteSchema

theorem ofValue_noteSchema : Program.ofValue noteSchema = .ok noteProgram := by
  have hdocument : Document.ofValue noteSchema = .ok noteProgram.document := by
    have hunsorted : Document.ofValue noteSchema =
      .ok ⟨noteProgram.document.root, List.mergeSort [] fun a b => a.1 ≤ b.1⟩ :=
        rfl
    rw [hunsorted, List.mergeSort_nil]
    rfl
  unfold ofValue
  rw [hdocument]
  rfl

/-- A note whose tag stands behind a bracket in a string. -/
def bracketNote : Value :=
  .obj [("text", .str "["), ("kind", .str "note")]

theorem distinct_bracketNote : bracketNote.Distinct :=
  Value.distinct_distinct bracketNote

/-- The text of the note. -/
def noteText : String :=
  "\x7b\"text\":\"[\",\"kind\":\"note\"\x7d"

theorem denotes_noteText : Denotes noteText bracketNote := by
  have hfloat : ∀ d, ¬ bracketNote.HasFloat d := by simp [bracketNote]
  exact denotes_write bracketNote fun d hd => absurd hd (hfloat d)

theorem fits_bracketNote : FormFits
    (Fits (Validator.typeAccepts { }) noteProgram.target 2)
    (Validator.typeAccepts { }) noteProgram.target noteProgram.root.form
    bracketNote := by
  have hvalid : Validator.validate ⟨noteProgram, { maxDepth := 3 }⟩
      bracketNote = .ok [] := rfl
  rcases Validator.validate_eq_nil_iff_fits.mp hvalid with hnull | hform
  · cases hnull
  · exact hform

theorem skipValue_agrees_note :
    (∃ t, untyped { } 100 (.ofSource (.ofText noteText)) = .ok t ∧
      ∃ t', skipValue 0 (.ofSource (.ofText noteText)) = .ok t' ∧
        t'.rest = t.rest) ∧
    ∃ t, discriminator (node { } noteProgram.target 100) (untyped { } 100)
        "kind" [("note", noteBranch)] (.ofSource (.ofText noteText)) = .ok t ∧
      ∃ brace pos, ∃ ms : Members,
        (Cursor.ofSource (.ofText noteText)).accept? .openBrace = some brace ∧
        lookAhead "kind" brace.rest = .ok ("note", pos) ∧
        t.value = .obj ms ∧ ms.get? "kind" = some (.str "note") := by
  obtain ⟨pos, hspells⟩ := denotes_iff.mp denotes_noteText
  have hsize : (Cursor.ofSource (.ofText noteText)).size ≤ 90 :=
    Nat.le_trans (size_ofText_le noteText) (by decide)
  obtain ⟨hskip, hread⟩ := skipValue_agrees distinct_noteSchema
    ofValue_noteSchema { } 100 (.ofText noteText)
  have hnode : ∀ n (d : Cursor) v s, d.size ≤ 90 →
      Spells streamFront v d.stream s → v.Distinct →
        Fits (Validator.typeAccepts { }) noteProgram.target 2 n v →
          Reaches (fun _ => False) (node { } noteProgram.target 100 n d) v s :=
    fun n d v s hd hspells hdistinct hfits =>
      node_complete hfits hspells hdistinct (Or.inr (by omega))
  have hother : ∀ (d : Cursor) v s, d.size ≤ 90 →
      Spells streamFront v d.stream s → v.Distinct →
        Reaches (fun _ => False) (untyped { } 100 d) v s :=
    fun d v s hd hspells hdistinct =>
      untyped_complete hspells hdistinct (Or.inr (by omega))
  have hnote : Reaches (fun _ => False)
      (form { } noteProgram.target (node { } noteProgram.target 100)
        (untyped { } 100) noteProgram.root.form
        (.ofSource (.ofText noteText))) bracketNote _ :=
    form_complete hnode hother hsize hspells distinct_bracketNote
      fits_bracketNote
  obtain ⟨t, ht, -, -⟩ :=
    (hother _ _ _ hsize hspells distinct_bracketNote).yields
  refine ⟨⟨t, ht, hskip t ht⟩, ?_⟩
  obtain ⟨t, ht, hvalue, -⟩ := hnote.yields
  obtain ⟨brace, value, pos, -, -, ms, hbrace, hlook, -, -, -, -, hobj, htag,
    -⟩ := hread .root noteProgram.root [] noteProgram.root "kind"
      [("note", noteBranch)] List.mem_cons_self rfl rfl t ht
  have hms : ms.get? "kind" = some (.str "note") := by
    cases hvalue.symm.trans hobj
    rfl
  cases htag.symm.trans hms
  exact ⟨t, ht, brace, pos, ms, hbrace, hlook, hobj, hms⟩

end Parsing
end JsonTypedef
