import JsonTypedef.Proofs.Compiler.Step
import JsonTypedef.Proofs.Schema.Checked

/-!
# The cache of programs

The cache holds one program for every document that was compiled since it was
cleared last, and each is the program of its document.  So a compiler answers as
a new one does, whatever it has compiled before.
-/

namespace JsonTypedef
namespace Compiler

/-! ## One document -/

/-- The programs of the documents of which `holds` says so, each of them once,
make up the cache.  All documents that matter are in `scope`. -/
structure Caches (scope : List Value) (holds : Value → Prop)
    (cache : List (Digest × Compiled)) : Prop where
  tellsApart : Digest.TellsApart scope
  inScope : ∀ s, holds s → s ∈ scope
  entries : ∃ documents : List Value, documents.Nodup ∧
    (∀ s, s ∈ documents ↔ holds s) ∧
    List.Forall₂ (fun s e => e.1 = Digest.ofLayout s ∧
      Program.ofValue s = .ok e.2.program) documents cache

section

variable {scope : List Value} {holds : Value → Prop}
    {cache : List (Digest × Compiled)} {schema : Value}

theorem Caches.congr {holds' : Value → Prop} (h : Caches scope holds cache)
    (hiff : ∀ s, holds s ↔ holds' s) : Caches scope holds' cache := by
  obtain ⟨documents, hnodup, hmem, hentries⟩ := h.entries
  constructor
  · exact h.tellsApart
  · exact fun s hs => h.inScope s ((hiff s).mpr hs)
  · exact ⟨documents, hnodup, fun s => (hmem s).trans (hiff s), hentries⟩

/-- More documents may matter. -/
theorem Caches.mono {scope' : List Value} (h : Caches scope holds cache)
    (hscope : Digest.TellsApart scope') (hsub : scope ⊆ scope') :
    Caches scope' holds cache :=
  ⟨hscope, fun s hs => hsub (h.inScope s hs), h.entries⟩

theorem caches_nil (hscope : Digest.TellsApart scope) :
    Caches scope (fun _ => False) [] :=
  ⟨hscope, fun _ hs => hs.elim, [], List.nodup_nil, by simp, .nil⟩

/-- A cached program is found only by the document that it was made from. -/
theorem Caches.of_lookup (h : Caches scope holds cache) (hs : schema ∈ scope)
    {compiled : Compiled}
    (hlookup : List.lookup (Digest.ofLayout schema) cache = some compiled) :
    holds schema ∧ Program.ofValue schema = .ok compiled.program := by
  obtain ⟨documents, -, hmem, hentries⟩ := h.entries
  obtain ⟨before, behind, rfl, -⟩ := List.lookup_eq_some_iff.mp hlookup
  obtain ⟨s, hdocument, hdigest, hprogram⟩ :=
    exists_mem_of_forall₂ hentries
      (List.mem_append_right before List.mem_cons_self)
  have hheld : holds s := (hmem s).mp hdocument
  obtain rfl : schema = s := h.tellsApart.eq hs (h.inScope s hheld) hdigest
  exact ⟨hheld, hprogram⟩

theorem Caches.not_of_lookup (h : Caches scope holds cache)
    (hlookup : List.lookup (Digest.ofLayout schema) cache = none) :
    ¬ holds schema := by
  intro hheld
  obtain ⟨documents, -, hmem, hentries⟩ := h.entries
  obtain ⟨e, he, hdigest, -⟩ :=
    exists_mem_of_forall₂ hentries.flip ((hmem schema).mpr hheld)
  have hne := List.lookup_eq_none_iff.mp hlookup e he
  rw [hdigest] at hne
  simp at hne

theorem Caches.isSome_lookup_iff (h : Caches scope holds cache)
    (hs : schema ∈ scope) :
    (List.lookup (Digest.ofLayout schema) cache).isSome ↔ holds schema := by
  cases hlookup : List.lookup (Digest.ofLayout schema) cache with
  | none => simpa using h.not_of_lookup hlookup
  | some compiled => simpa using (h.of_lookup hs hlookup).1

theorem Caches.insert (h : Caches scope holds cache) (hs : schema ∈ scope)
    (hnot : ¬ holds schema) {compiled : Compiled}
    (hprogram : Program.ofValue schema = .ok compiled.program) :
    Caches scope (fun s => holds s ∨ s = schema)
      ((Digest.ofLayout schema, compiled) :: cache) := by
  obtain ⟨documents, hnodup, hmem, hentries⟩ := h.entries
  refine ⟨h.tellsApart, ?_, schema :: documents, ?_, ?_,
    .cons ⟨rfl, hprogram⟩ hentries⟩
  · rintro s (hheld | rfl)
    · exact h.inScope s hheld
    · exact hs
  · rw [List.nodup_cons, hmem]
    exact ⟨hnot, hnodup⟩
  · intro s
    rw [List.mem_cons, hmem, or_comm]

end

section

variable {schema : Value}

theorem compiles_iff :
    schema.compiles = true ↔ ∃ program, Program.ofValue schema = .ok program := by
  unfold Value.compiles
  cases Program.ofValue schema with
  | ok program => simp
  | error e => simp

theorem compiles_of_ok {program : Program}
    (h : Program.ofValue schema = .ok program) : schema.compiles = true :=
  compiles_iff.mpr ⟨program, h⟩

theorem compiles_of_error {e : SchemaError}
    (h : Program.ofValue schema = .error e) : schema.compiles = false := by
  rw [Value.compiles, h]
  rfl

end

section

variable {scope : List Value} {holds : Value → Prop} {c : Compiler}

/-- Compiling gives the program of the document, cached or new, and caches it. -/
theorem compile_spec (h : Caches scope holds c.cache) {schema : Value}
    (hs : schema ∈ scope) :
    (c.compile schema).1.map Compiled.program = Program.ofValue schema ∧
      Caches scope (fun s => holds s ∨ s ∈ [schema].takeWhile Value.compiles)
        (c.compile schema).2.cache := by
  unfold compile
  dsimp only
  split
  next compiled hlookup =>
    obtain ⟨hschema, hprogram⟩ := h.of_lookup hs hlookup
    constructor
    · exact hprogram.symm
    · apply h.congr
      intro s
      simp only [List.takeWhile, compiles_of_ok hprogram, List.mem_singleton,
        iff_self_or]
      rintro rfl
      exact hschema
  next hlookup =>
    split
    next e hprogram =>
      constructor
      · exact hprogram.symm
      · apply h.congr
        intro s
        simp [compiles_of_error hprogram]
    next program hprogram =>
      have hinsert := @Caches.insert _ _ _ _ h hs (h.not_of_lookup hlookup)
        ⟨c.generated, program⟩ hprogram
      constructor
      · exact hprogram.symm
      · apply hinsert.congr
        intro s
        simp [compiles_of_ok hprogram]

/-! ## Several documents -/

/-- The entry is the program of the document, under the same key. -/
def CompiledAs (document : String × Value) (entry : String × Compiled) : Prop :=
  document.1 = entry.1 ∧ Program.ofValue document.2 = .ok entry.2.program

/-- What compiling documents in order answers: the programs of all of them, or
the error of the first that fails. -/
inductive CompiledAll (documents : List (String × Value)) :
    Except CompileError (List (String × Compiled)) → Prop
  | ok {compiled : List (String × Compiled)} :
      List.Forall₂ CompiledAs documents compiled →
        CompiledAll documents (.ok compiled)
  | error {before behind : List (String × Value)} {key : String}
      {schema : Value} {e : SchemaError} :
      documents = before ++ (key, schema) :: behind →
        (∀ m ∈ before, m.2.compiles = true) →
          Program.ofValue schema = .error e →
            CompiledAll documents (.error (.named key (.schema e)))

theorem CompiledAll.cons {key : String} {schema : Value}
    {documents : List (String × Value)} {compiled : Compiled}
    (hprogram : Program.ofValue schema = .ok compiled.program)
    {answer : Except CompileError (List (String × Compiled))}
    (h : CompiledAll documents answer) :
    CompiledAll ((key, schema) :: documents)
      (answer.map ((key, compiled) :: ·)) := by
  cases h with
  | ok h => exact .ok (.cons ⟨rfl, hprogram⟩ h)
  | @error before behind _ _ _ heq hbefore he =>
      refine @CompiledAll.error _ ((key, schema) :: before) behind _ _ _ ?_ ?_ he
      · rw [heq, List.cons_append]
      · intro m hm
        rcases List.mem_cons.mp hm with rfl | hm
        · exact compiles_of_ok hprogram
        · exact hbefore m hm

theorem CompiledAll.compiles {documents : List (String × Value)}
    {compiled : List (String × Compiled)}
    (h : CompiledAll documents (.ok compiled)) :
    ∀ m ∈ documents, m.2.compiles = true := by
  intro m hm
  cases h with
  | ok hcompiled =>
      obtain ⟨e, -, -, hprogram⟩ := exists_mem_of_forall₂ hcompiled.flip hm
      exact compiles_of_ok hprogram

/-- Compiling in order caches the documents in front of the first that fails. -/
theorem compileAll_spec (documents : List (String × Value)) :
    ∀ {holds : Value → Prop} {c : Compiler}, Caches scope holds c.cache →
      (∀ m ∈ documents, m.2 ∈ scope) →
        CompiledAll documents (c.compileAll documents).1 ∧
          Caches scope (fun s => holds s ∨
              s ∈ (documents.map Prod.snd).takeWhile Value.compiles)
            (c.compileAll documents).2.cache := by
  induction documents with
  | nil =>
      intro holds c h _
      exact ⟨.ok .nil, h.congr fun s => by simp⟩
  | cons m documents ih =>
      intro holds c h hdocuments
      obtain ⟨key, schema⟩ := m
      obtain ⟨hanswer, hcaches⟩ :=
        compile_spec h (hdocuments _ List.mem_cons_self)
      rw [compileAll]
      split
      next e c' hcompile =>
        rw [hcompile] at hanswer hcaches
        have hprogram : Program.ofValue schema = .error e := hanswer.symm
        constructor
        · exact @CompiledAll.error _ [] documents _ _ _ rfl (by simp) hprogram
        · apply hcaches.congr
          intro s
          simp [compiles_of_error hprogram]
      next compiled c' hcompile =>
        rw [hcompile] at hanswer hcaches
        have hprogram : Program.ofValue schema = .ok compiled.program :=
          hanswer.symm
        obtain ⟨hanswers, hall⟩ := ih hcaches fun m hm =>
          hdocuments m (List.mem_cons_of_mem _ hm)
        have hmem : ∀ s, (holds s ∨ s ∈ [schema].takeWhile Value.compiles) ∨
            s ∈ (documents.map Prod.snd).takeWhile Value.compiles ↔
              holds s ∨ s ∈ (((key, schema) :: documents).map
                Prod.snd).takeWhile Value.compiles := by
          intro s
          simp [compiles_of_ok hprogram, or_assoc]
        split
        next e c'' hrest =>
          rw [hrest] at hanswers hall
          exact ⟨hanswers.cons hprogram, hall.congr hmem⟩
        next others c'' hrest =>
          rw [hrest] at hanswers hall
          exact ⟨hanswers.cons hprogram, hall.congr hmem⟩

end

/-! ## Histories -/

/-- One operation takes the documents that it compiles to those that are cached,
or forgets all of them. -/
theorem Operation.run_caches {scope : List Value} {holds : Value → Prop}
    {c : Compiler} (h : Caches scope holds c.cache) {op : Operation}
    (hop : op.documents ⊆ scope) :
    Caches scope (fun s => s ∈ op.compiled c ∨ (holds s ∧ ¬ op = .clearCache))
      (op.run c).2.cache := by
  have hone : ∀ schema, schema ∈ scope →
      Caches scope (fun s => holds s ∨ s ∈ [schema].takeWhile Value.compiles)
        (c.compile schema).2.cache :=
    fun schema hs => (compile_spec h hs).2
  cases op with
  | program schema | validator schema | serializer schema | parser schema =>
      apply (hone schema (hop List.mem_cons_self)).congr
      intro s
      simp [compiled, documents, schema?, entries, or_comm]
  | addSchema key schema =>
      have hcache : (run c (.addSchema key schema)).2.cache =
          if key ∈ c.keys then c.cache else (c.compile schema).2.cache :=
        (addSchema_spec c key schema).cache
      rw [hcache]
      by_cases hkey : key ∈ c.keys
      · rw [if_pos hkey]
        apply h.congr
        intro s
        simp [compiled, hkey]
      · rw [if_neg hkey]
        apply (hone schema (hop List.mem_cons_self)).congr
        intro s
        simp [compiled, hkey, or_comm]
  | addDirectory entries =>
      have hcache : (run c (.addDirectory entries)).2.cache =
          (c.compileAll (loadedDocuments entries)).2.cache :=
        (addDirectory_spec c entries).cache
      have hall := (compileAll_spec (loadedDocuments entries) h
        fun m hm => hop (List.mem_map.mpr ⟨m, hm, rfl⟩)).2
      rw [hcache]
      apply hall.congr
      intro s
      simp [compiled, documents, schema?, Operation.entries, or_comm]
  | remove key =>
      apply h.congr
      intro s
      simp [compiled, documents, schema?, entries]
  | clearCache =>
      apply (caches_nil h.tellsApart).congr
      intro s
      simp [compiled, documents, schema?, entries]

variable {config : Config} {history : List Operation}

/-- The cache holds the programs of the documents that were compiled since it
was cleared last. -/
theorem caches_after (hdigest : Digest.TellsApart (given history)) :
    Caches (given history) (Retained config history)
      (after config history).cache := by
  induction history using List.reverseRecOn with
  | nil =>
      exact (caches_nil hdigest).congr fun s => iff_of_false id not_since_nil
  | append_singleton history op ih =>
      rw [given_append] at hdigest ⊢
      have hbefore := ih (hdigest.subset (List.subset_append_left _ _))
      have hcaches := hbefore.mono hdigest (List.subset_append_left _ _)
      rw [after_append]
      apply (Operation.run_caches hcaches (List.subset_append_right _ _)).congr
      exact fun s => retained_append_iff.symm

/-- What is known of the compiler before one of the operations of a history. -/
theorem caches_before {before later : List Operation} {op : Operation}
    (heq : history = before ++ op :: later)
    (hdigest : Digest.TellsApart (given history)) :
    Caches (given before ++ op.documents) (Retained config before)
      (after config before).cache := by
  have hscope : Digest.TellsApart (given before ++ op.documents) := by
    rw [heq] at hdigest
    exact hdigest.subset (given_subset before op later)
  have hbefore := @caches_after config before
    (hscope.subset (List.subset_append_left _ _))
  exact hbefore.mono hscope (List.subset_append_left _ _)

/-- The cache does not show.  In every history each operation that only compiles
answers as on a new compiler.  The number of cached programs is that of the
different documents that were compiled since the cache was cleared last, and a
document has a cached program only then, so that no document has one whose
compilation fails. -/
theorem cache_transparent (config : Config) (history : List Operation)
    (hdigest : Digest.TellsApart (given history)) :
    (∀ before op later schema, history = before ++ op :: later →
        op.schema? = some schema →
          (op.run (after config before)).1 = (op.run (new config)).1) ∧
      (∃ documents : List Value, documents.Nodup ∧
        (∀ schema, schema ∈ documents ↔ Retained config history schema) ∧
        (after config history).cachedPrograms = documents.length) ∧
      ∀ schema ∈ given history,
        ((List.lookup (Digest.ofLayout schema)
            (after config history).cache).isSome ↔
          Retained config history schema) ∧
        ∀ e, Program.ofValue schema = .error e →
          List.lookup (Digest.ofLayout schema)
            (after config history).cache = none := by
  have hcaches := @caches_after config history hdigest
  refine ⟨?_, ?_, fun schema hschema => ?_⟩
  · intro before op later schema heq hop
    have hbefore := @caches_before config history before later op heq hdigest
    have hnew := caches_nil hbefore.tellsApart
    have hschema : schema ∈ given before ++ op.documents :=
      List.mem_append_right _ (Operation.mem_documents_of_schema? hop)
    apply Operation.run_congr _ hop
    · rw [(compile_spec hbefore hschema).1,
        (@compile_spec _ _ (new config) hnew _ hschema).1]
    · exact after_config
  · obtain ⟨documents, hnodup, hmem, hentries⟩ := hcaches.entries
    exact ⟨documents, hnodup, hmem, hentries.length_eq.symm⟩
  · constructor
    · exact hcaches.isSome_lookup_iff hschema
    · intro e he
      cases hlookup : List.lookup (Digest.ofLayout schema)
          (after config history).cache with
      | none => rfl
      | some compiled =>
          have hprogram := (hcaches.of_lookup hschema hlookup).2
          rw [he] at hprogram
          cases hprogram

/-- A schema of objects with two members, which it names in an order. -/
def pairSchema (first second : String) : Value :=
  .obj [("properties", .obj [(first, .obj []), (second, .obj [])])]

theorem cache_transparent_pair :
    Digest.TellsApart (given [.program (pairSchema "x" "y"),
        .program (pairSchema "y" "x")]) ∧
      (Operation.run (after {} [.program (pairSchema "x" "y")])
          (.program (pairSchema "y" "x"))).1 =
        (Operation.run (new {}) (.program (pairSchema "y" "x"))).1 ∧
      (after {} [.program (pairSchema "x" "y"),
        .program (pairSchema "y" "x")]).cachedPrograms = 2 := by
  have hdigest : Digest.TellsApart (given [.program (pairSchema "x" "y"),
      .program (pairSchema "y" "x")]) := by decide +kernel
  obtain ⟨hanswers, ⟨documents, hnodup, hmem, hcount⟩, -⟩ :=
    cache_transparent {} _ hdigest
  refine ⟨hdigest, hanswers [_] _ [] _ rfl rfl, ?_⟩
  have hfirst : (pairSchema "x" "y").compiles = true := by decide +kernel
  have hsecond : (pairSchema "y" "x").compiles = true := by decide +kernel
  have hretained : ∀ s, s ∈ documents ↔
      s ∈ [pairSchema "x" "y", pairSchema "y" "x"] := by
    intro s
    rw [hmem]
    change Retained {} (([] ++ [_]) ++ [_]) s ↔ _
    rw [retained_append_iff, retained_append_iff]
    simp [Operation.compiled, Operation.documents, Operation.schema?,
      Operation.entries, hfirst, hsecond, Retained, not_since_nil, or_comm]
  have hpair : [pairSchema "x" "y", pairSchema "y" "x"].Nodup := by
    simp [pairSchema]
  rw [hcount, ((List.perm_ext_iff_of_nodup hnodup hpair).mpr hretained).length_eq]
  rfl

end Compiler
end JsonTypedef
