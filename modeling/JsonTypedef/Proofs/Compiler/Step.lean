import JsonTypedef.Proofs.Compiler.History
import JsonTypedef.Proofs.Json.Distinct
import Mathlib.Data.List.Induction

/-!
# What one operation does

`SchemaAdded` and `DirectoryAdded` list the outcomes of adding a document and a
directory: the answer, and the compiler that is left.  What an operation keeps is
read off them, and the operations themselves are not opened again.
-/

namespace JsonTypedef
namespace Compiler

/-! ## Compiling -/

/-- What a compiler is left with by compiling: more cached programs. -/
structure Extends (c c' : Compiler) : Prop where
  config : c'.config = c.config
  registry : c'.registry = c.registry

theorem Extends.refl (c : Compiler) : c.Extends c :=
  ⟨rfl, rfl⟩

theorem Extends.trans {c c' c'' : Compiler} (h : c.Extends c')
    (h' : c'.Extends c'') : c.Extends c'' :=
  ⟨h'.config.trans h.config, h'.registry.trans h.registry⟩

theorem compile_extends (c : Compiler) (schema : Value) :
    c.Extends (c.compile schema).2 := by
  unfold compile
  dsimp only
  split
  next => exact .refl c
  next =>
    split
    next => exact .refl c
    next => exact ⟨rfl, rfl⟩

theorem compileWith_fst {α : Type} (c : Compiler)
    (build : Program → Config → α) (schema : Value) :
    (c.compileWith build schema).1 =
      ((c.compile schema).1.map Compiled.program).map
        fun p => build p c.config := by
  change (c.compile schema).1.map _ = _
  cases (c.compile schema).1 with
  | error e => rfl
  | ok compiled => rfl

theorem compileAll_extends (documents : List (String × Value)) :
    ∀ c : Compiler, c.Extends (c.compileAll documents).2 := by
  induction documents with
  | nil => exact Extends.refl
  | cons m documents ih =>
      intro c
      have hfirst := compile_extends c m.2
      rw [compileAll]
      split
      next hcompile =>
        rw [hcompile] at hfirst
        exact hfirst
      next c' hcompile =>
        rw [hcompile] at hfirst
        have hrest := ih c'
        split
        next hall =>
          rw [hall] at hrest
          exact hfirst.trans hrest
        next hall =>
          rw [hall] at hrest
          exact hfirst.trans hrest

/-- The programs of documents stand under the names of the documents. -/
theorem forall₂_of_compileAll {documents : List (String × Value)} :
    ∀ {c : Compiler} {compiled : List (String × Compiled)},
      (c.compileAll documents).1 = .ok compiled →
        List.Forall₂ (fun m e => m.1 = e.1) documents compiled := by
  induction documents with
  | nil =>
      intro c compiled h
      cases h
      exact .nil
  | cons m documents ih =>
      intro c compiled h
      rw [compileAll] at h
      split at h
      next => cases h
      next c' _ =>
        split at h
        next => cases h
        next others c'' hrest =>
          cases h
          exact .cons rfl (@ih c' others (by rw [hrest]))

/-! ## Adding -/

/-- What adding a document under a key answers, and what compiler it leaves. -/
inductive SchemaAdded (c : Compiler) (key : String) (schema : Value) :
    Except CompileError Unit → Compiler → Prop
  | taken : key ∈ c.keys → SchemaAdded c key schema (.error (.duplicateKey key)) c
  | refused {e : SchemaError} : key ∉ c.keys →
      (c.compile schema).1 = .error e →
        SchemaAdded c key schema (.error (.schema e)) (c.compile schema).2
  | added {compiled : Compiled} : key ∉ c.keys →
      (c.compile schema).1 = .ok compiled →
        SchemaAdded c key schema (.ok ())
          { (c.compile schema).2 with
            registry := insert key compiled c.registry }

/-- What adding a directory answers, and what compiler it leaves.  Whether its
documents compile is looked at before its names are. -/
inductive DirectoryAdded (c : Compiler)
    (entries : Option (List (String × Content))) :
    Except CompileError ℕ → Compiler → Prop
  | unloaded {e : LoadError} : Directory.load entries = .error e →
      DirectoryAdded c entries (.error (.load e)) c
  | refused {directory : Directory} {e : CompileError} :
      Directory.load entries = .ok directory →
        (c.compileAll directory.documents).1 = .error e →
          DirectoryAdded c entries (.error e)
            (c.compileAll directory.documents).2
  | taken {directory : Directory} {compiled : List (String × Compiled)}
      {before behind : List String} {key : String} :
      Directory.load entries = .ok directory →
        (c.compileAll directory.documents).1 = .ok compiled →
          directory.names = before ++ key :: behind →
            (∀ k ∈ before, k ∉ c.keys) → key ∈ c.keys →
              DirectoryAdded c entries (.error (.duplicateKey key))
                (c.compileAll directory.documents).2
  | added {directory : Directory} {compiled : List (String × Compiled)} :
      Directory.load entries = .ok directory →
        (c.compileAll directory.documents).1 = .ok compiled →
          (∀ key ∈ directory.names, key ∉ c.keys) →
            DirectoryAdded c entries (.ok directory.names.length)
              { (c.compileAll directory.documents).2 with
                registry := insertAll compiled c.registry }

theorem addSchema_spec (c : Compiler) (key : String) (schema : Value) :
    SchemaAdded c key schema (c.addSchema key schema).1
      (c.addSchema key schema).2 := by
  by_cases hkey : key ∈ c.keys
  · rw [addSchema, if_pos hkey]
    exact .taken hkey
  · rw [addSchema, if_neg hkey]
    have hregistry := (compile_extends c schema).registry
    have hrefused := @SchemaAdded.refused c key schema
    have hadded := @SchemaAdded.added c key schema
    -- The outcomes speak of the two parts of what compiling answers.
    cases hcompile : c.compile schema with
    | mk answer c' =>
        rw [hcompile] at hregistry hrefused hadded
        dsimp only at hregistry hrefused hadded
        cases answer with
        | error e => exact hrefused hkey rfl
        | ok compiled =>
            have hkey' : key ∉ c'.keys := by
              rw [keys, hregistry]
              exact hkey
            dsimp only
            rw [register, if_neg hkey', hregistry]
            exact hadded hkey rfl

theorem addDirectory_spec (c : Compiler)
    (entries : Option (List (String × Content))) :
    DirectoryAdded c entries (c.addDirectory entries).1
      (c.addDirectory entries).2 := by
  rw [addDirectory]
  cases hload : Directory.load entries with
  | error e => exact .unloaded hload
  | ok directory =>
      dsimp only
      have hregistry := (compileAll_extends directory.documents c).registry
      have hnamed := @forall₂_of_compileAll directory.documents c
      have hrefused := @DirectoryAdded.refused c entries directory
      have htaken := @DirectoryAdded.taken c entries directory
      have hadded := @DirectoryAdded.added c entries directory
      cases hall : c.compileAll directory.documents with
      | mk answer c' =>
          rw [hall] at hregistry hnamed hrefused htaken hadded
          dsimp only at hregistry hnamed hrefused htaken hadded
          cases answer with
          | error e => exact hrefused hload rfl
          | ok compiled =>
              have hnames : directory.names = compiled.map Prod.fst :=
                map_fst_of_forall₂ (fun _ _ h => h) (hnamed rfl)
              have hkeys : c'.keys = c.keys := by rw [keys, keys, hregistry]
              dsimp only
              rw [hkeys, hregistry]
              split
              next key entry hfind =>
                obtain ⟨hkey, before, behind, heq, hbefore⟩ :=
                  List.find?_eq_some_iff_append.mp hfind
                have hsplit : directory.names =
                    before.map Prod.fst ++ key :: behind.map Prod.fst := by
                  rw [hnames, heq, List.map_append, List.map_cons]
                apply htaken hload rfl hsplit _ (of_decide_eq_true hkey)
                intro k hk
                obtain ⟨m, hm, rfl⟩ := List.mem_map.mp hk
                simpa using hbefore m hm
              next hfind =>
                have hfree := List.find?_eq_none.mp hfind
                have hlength : compiled.length = directory.names.length := by
                  rw [hnames, List.length_map]
                rw [hlength]
                apply hadded hload rfl
                intro key hkey
                rw [hnames] at hkey
                obtain ⟨m, hm, rfl⟩ := List.mem_map.mp hkey
                simpa using hfree m hm

section

variable {c c' : Compiler} {key : String} {schema : Value}
    {entries : Option (List (String × Content))}

theorem SchemaAdded.config {answer : Except CompileError Unit}
    (h : SchemaAdded c key schema answer c') : c'.config = c.config := by
  cases h with
  | taken _ => rfl
  | refused _ _ => exact (compile_extends c schema).config
  | added _ _ => exact (compile_extends c schema).config

theorem SchemaAdded.cache {answer : Except CompileError Unit}
    (h : SchemaAdded c key schema answer c') :
    c'.cache = if key ∈ c.keys then c.cache else (c.compile schema).2.cache := by
  cases h with
  | taken hkey => rw [if_pos hkey]
  | refused hkey _ => rw [if_neg hkey]
  | added hkey _ => rw [if_neg hkey]

theorem SchemaAdded.registry_of_error {e : CompileError}
    (h : SchemaAdded c key schema (.error e) c') : c'.registry = c.registry := by
  cases h with
  | taken _ => rfl
  | refused _ _ => exact (compile_extends c schema).registry

theorem DirectoryAdded.config {answer : Except CompileError ℕ}
    (h : DirectoryAdded c entries answer c') : c'.config = c.config := by
  cases h with
  | unloaded _ => rfl
  | refused _ _ => exact (compileAll_extends _ c).config
  | taken _ _ _ _ _ => exact (compileAll_extends _ c).config
  | added _ _ _ => exact (compileAll_extends _ c).config

theorem loadedDocuments_of_load {directory : Directory}
    (h : Directory.load entries = .ok directory) :
    loadedDocuments entries = directory.documents := by
  rw [loadedDocuments, h]

theorem DirectoryAdded.cache {answer : Except CompileError ℕ}
    (h : DirectoryAdded c entries answer c') :
    c'.cache = (c.compileAll (loadedDocuments entries)).2.cache := by
  cases h with
  | unloaded hload =>
      rw [loadedDocuments, hload]
      rfl
  | refused hload _ => rw [loadedDocuments_of_load hload]
  | taken hload _ _ _ _ => rw [loadedDocuments_of_load hload]
  | added hload _ _ => rw [loadedDocuments_of_load hload]

theorem DirectoryAdded.registry_of_error {e : CompileError}
    (h : DirectoryAdded c entries (.error e) c') : c'.registry = c.registry := by
  cases h with
  | unloaded _ => rfl
  | refused _ _ => exact (compileAll_extends _ c).registry
  | taken _ _ _ _ _ => exact (compileAll_extends _ c).registry

theorem DirectoryAdded.count_of_ok {count : ℕ}
    (h : DirectoryAdded c entries (.ok count) c') :
    count = (loadedDocuments entries).length := by
  cases h with
  | added hload _ _ =>
      rw [loadedDocuments_of_load hload]
      exact List.length_map Prod.fst

end

/-! ## Operations -/

namespace Operation

/-- An operation that only compiles answers with what it builds from the program
of its document. -/
theorem exists_compileWith {op : Operation} {schema : Value}
    (h : op.schema? = some schema) :
    ∃ (α : Type) (build : Program → Config → α) (answer : α → Answer),
      ∀ c : Compiler,
        op.run c = answering answer (c.compileWith build schema) := by
  cases op with
  | program _ =>
      cases h
      exact ⟨Program, fun program _ => program, .program, fun _ => rfl⟩
  | validator _ =>
      cases h
      exact ⟨Validator, .mk, .validator, fun _ => rfl⟩
  | serializer _ =>
      cases h
      exact ⟨Serializer, .mk, .serializer, fun _ => rfl⟩
  | parser _ =>
      cases h
      exact ⟨Parser, .mk, .parser, fun _ => rfl⟩
  | _ => cases h

/-- An operation that only compiles answers the same on two compilers that
compile its document to the same program. -/
theorem run_congr {c c' : Compiler} (hconfig : c.config = c'.config)
    {op : Operation} {schema : Value} (hop : op.schema? = some schema)
    (hprogram : (c.compile schema).1.map Compiled.program =
      (c'.compile schema).1.map Compiled.program) :
    (op.run c).1 = (op.run c').1 := by
  obtain ⟨α, build, answer, hrun⟩ := exists_compileWith hop
  have hwith : (c.compileWith build schema).1 =
      (c'.compileWith build schema).1 := by
    rw [compileWith_fst, compileWith_fst, hprogram, hconfig]
  rw [hrun, hrun, answering, answering, hwith]

theorem run_extends {op : Operation} {schema : Value}
    (h : op.schema? = some schema) (c : Compiler) : c.Extends (op.run c).2 := by
  obtain ⟨α, build, answer, hrun⟩ := exists_compileWith h
  rw [hrun]
  exact compile_extends c schema

theorem run_config (c : Compiler) (op : Operation) :
    (op.run c).2.config = c.config := by
  cases op with
  | addSchema key schema => exact (addSchema_spec c key schema).config
  | addDirectory entries => exact (addDirectory_spec c entries).config
  | remove key => rfl
  | clearCache => rfl
  | _ => exact (run_extends rfl c).config

/-- An operation that fails leaves the registry as it is. -/
theorem registry_of_error {c : Compiler} {op : Operation} {e : CompileError}
    (h : (op.run c).1 = .error e) : (op.run c).2.registry = c.registry := by
  cases op with
  | addSchema key schema =>
      have hadded := addSchema_spec c key schema
      change Except.map _ (c.addSchema key schema).1 = _ at h
      rw [eq_error_of_map h] at hadded
      exact hadded.registry_of_error
  | addDirectory entries =>
      have hadded := addDirectory_spec c entries
      change Except.map _ (c.addDirectory entries).1 = _ at h
      rw [eq_error_of_map h] at hadded
      exact hadded.registry_of_error
  | remove key => cases h
  | clearCache => cases h
  | _ => exact (run_extends rfl c).registry

end Operation

theorem after_config {config : Config} {history : List Operation} :
    (after config history).config = config := by
  induction history using List.reverseRecOn with
  | nil => rfl
  | append_singleton history op ih =>
      rw [after_append, Operation.run_config, ih]

end Compiler
end JsonTypedef
