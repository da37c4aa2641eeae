import JsonTypedef.Proofs.Compiler.Cache
import JsonTypedef.Proofs.Directory.Loading

/-!
# The registry of programs

The registry is a finite map from keys to documents, kept as the programs of the
documents in strict order of the keys.  An operation that fails leaves it as it
is, and a directory is registered as a whole or not at all.
-/

namespace JsonTypedef
namespace Compiler

/-! ## Entries in order of keys -/

section

variable {α β : Type}

theorem mem_keys_insert {key : String} {a : α} {l : List (String × α)}
    {k : String} :
    k ∈ (insert key a l).map Prod.fst ↔ k = key ∨ k ∈ l.map Prod.fst := by
  induction l with
  | nil => simp [insert]
  | cons e l ih =>
      rw [insert]
      split
      next => simp
      next =>
        split
        next heq => simp [heq]
        next =>
          rw [List.map_cons, List.mem_cons, ih, List.map_cons, List.mem_cons]
          tauto

theorem sorted_insert {key : String} {a : α} {l : List (String × α)}
    (h : (l.map Prod.fst).Pairwise (· < ·)) :
    ((insert key a l).map Prod.fst).Pairwise (· < ·) := by
  induction l with
  | nil => simp [insert]
  | cons e l ih =>
      rw [List.map_cons, List.pairwise_cons] at h
      rw [insert]
      split
      next hlt =>
        rw [List.map_cons, List.map_cons, List.pairwise_cons, List.pairwise_cons]
        refine ⟨fun k hk => ?_, h⟩
        rcases List.mem_cons.mp hk with rfl | hk
        · exact hlt
        · exact String.lt_trans hlt (h.1 k hk)
      next hnlt =>
        split
        next heq =>
          rw [List.map_cons, List.pairwise_cons, heq]
          exact h
        next hne =>
          rw [List.map_cons, List.pairwise_cons]
          refine ⟨fun k hk => ?_, ih h.2⟩
          rcases mem_keys_insert.mp hk with rfl | hk
          · exact Std.lt_of_le_of_ne (String.not_lt.mp hnlt) (Ne.symm hne)
          · exact h.1 k hk

/-- A key that is not taken only adds an entry. -/
theorem insert_perm {key : String} {a : α} {l : List (String × α)}
    (hfree : key ∉ l.map Prod.fst) : (insert key a l).Perm ((key, a) :: l) := by
  induction l with
  | nil => exact .refl _
  | cons e l ih =>
      rw [List.map_cons, List.mem_cons, not_or] at hfree
      rw [insert]
      split
      next => exact .refl _
      next =>
        rw [if_neg hfree.1]
        exact ((ih hfree.2).cons e).trans (.swap _ _ _)

/-- Entries that are related name by name stay so. -/
theorem forall₂_insert {rel : String × α → String × β → Prop}
    (hname : ∀ a b, rel a b → a.1 = b.1) {key : String} {a : α} {b : β}
    (hab : rel (key, a) (key, b)) {as : List (String × α)}
    {bs : List (String × β)} (h : List.Forall₂ rel as bs) :
    List.Forall₂ rel (insert key a as) (insert key b bs) := by
  induction h with
  | nil => exact .cons hab .nil
  | @cons m e ms es hme htail ih =>
      rw [insert, insert, hname m e hme]
      split
      next => exact .cons hab (.cons hme htail)
      next =>
        split
        next => exact .cons hab htail
        next => exact .cons hme ih

theorem sorted_insertAll (entries : List (String × α)) :
    ∀ {l : List (String × α)}, (l.map Prod.fst).Pairwise (· < ·) →
      ((insertAll entries l).map Prod.fst).Pairwise (· < ·) := by
  induction entries with
  | nil => exact fun h => h
  | cons e entries ih => exact fun h => ih (sorted_insert h)

theorem insertAll_perm {entries : List (String × α)}
    (hnodup : (entries.map Prod.fst).Nodup) :
    ∀ {l : List (String × α)}, (∀ k ∈ entries.map Prod.fst, k ∉ l.map Prod.fst) →
      (insertAll entries l).Perm (entries ++ l) := by
  induction entries with
  | nil => exact fun _ => .refl _
  | cons e entries ih =>
      intro l hfree
      rw [List.map_cons, List.nodup_cons] at hnodup
      have hfirst : (insert e.1 e.2 l).Perm (e :: l) :=
        insert_perm (hfree e.1 List.mem_cons_self)
      have hrest : (insertAll entries (insert e.1 e.2 l)).Perm
          (entries ++ insert e.1 e.2 l) := by
        apply ih hnodup.2
        intro k hk hmem
        rcases mem_keys_insert.mp hmem with rfl | hmem
        · exact hnodup.1 hk
        · exact hfree k (List.mem_cons_of_mem _ hk) hmem
      exact hrest.trans ((hfirst.append_left entries).trans List.perm_middle)

theorem forall₂_insertAll {rel : String × α → String × β → Prop}
    (hname : ∀ a b, rel a b → a.1 = b.1) {entries : List (String × α)}
    {entries' : List (String × β)}
    (hentries : List.Forall₂ rel entries entries') :
    ∀ {as : List (String × α)} {bs : List (String × β)},
      List.Forall₂ rel as bs →
        List.Forall₂ rel (insertAll entries as) (insertAll entries' bs) := by
  induction hentries with
  | nil => exact fun h => h
  | @cons m e _ _ hme _ ih =>
      intro as bs h
      obtain ⟨key, a⟩ := m
      obtain ⟨key', b⟩ := e
      obtain rfl : key = key' := hname _ _ hme
      exact ih (forall₂_insert hname hme h)

end

/-! ## What is registered -/

/-- The registry has entries for the documents of which `holds` says so, related
to them one by one, in strict order of the keys. -/
def Registers (rel : String × Value → String × Compiled → Prop)
    (holds : String → Value → Prop) (registry : List (String × Compiled)) :
    Prop :=
  ∃ documents : List (String × Value),
    (documents.map Prod.fst).Pairwise (· < ·) ∧
    (∀ key schema, (key, schema) ∈ documents ↔ holds key schema) ∧
    List.Forall₂ rel documents registry

section

variable {rel : String × Value → String × Compiled → Prop}
    {holds : String → Value → Prop} {registry : List (String × Compiled)}

theorem registers_nil : Registers rel (fun _ _ => False) [] :=
  ⟨[], .nil, by simp, .nil⟩

theorem Registers.congr {holds' : String → Value → Prop}
    (h : Registers rel holds registry)
    (hiff : ∀ key schema, holds key schema ↔ holds' key schema) :
    Registers rel holds' registry := by
  obtain ⟨documents, hsorted, hmem, hentries⟩ := h
  exact ⟨documents, hsorted,
    fun key schema => (hmem key schema).trans (hiff key schema), hentries⟩

variable (hname : ∀ m e, rel m e → m.1 = e.1)

include hname

/-- Documents under keys that are not taken are added to those there are. -/
theorem Registers.insertAll (h : Registers rel holds registry)
    {added : List (String × Value)} {compiled : List (String × Compiled)}
    (hcompiled : List.Forall₂ rel added compiled)
    (hnodup : (added.map Prod.fst).Nodup)
    (hfree : ∀ key ∈ added.map Prod.fst, key ∉ registry.map Prod.fst) :
    Registers rel (fun key schema => (key, schema) ∈ added ∨ holds key schema)
      (insertAll compiled registry) := by
  obtain ⟨documents, hsorted, hmem, hentries⟩ := h
  have hperm : (Compiler.insertAll added documents).Perm
      (added ++ documents) := by
    apply insertAll_perm hnodup
    rw [map_fst_of_forall₂ hname hentries]
    exact hfree
  refine ⟨Compiler.insertAll added documents, sorted_insertAll added hsorted,
    fun key schema => ?_, forall₂_insertAll hname hcompiled hentries⟩
  rw [hperm.mem_iff, List.mem_append, hmem]

theorem Registers.remove (h : Registers rel holds registry) (key : String) :
    Registers rel (fun k schema => holds k schema ∧ k ≠ key)
      (registry.filter fun e => e.1 ≠ key) := by
  obtain ⟨documents, hsorted, hmem, hentries⟩ := h
  refine ⟨documents.filter fun m => m.1 ≠ key, ?_, fun k schema => ?_, ?_⟩
  · exact hsorted.sublist (List.filter_sublist.map Prod.fst)
  · rw [List.mem_filter, hmem, decide_eq_true_eq]
  · apply List.rel_filter (R := rel) _ hentries
    intro m e hme
    dsimp only
    rw [hname m e hme]

end

section

variable {rel : String × Value → String × Compiled → Prop}
    {holds : String → Value → Prop} {c c' : Compiler}

variable (hname : ∀ m e, rel m e → m.1 = e.1)

include hname

theorem Registers.schemaAdded (h : Registers rel holds c.registry) {key : String}
    {schema : Value} {answer : Except CompileError Unit}
    (hadded : SchemaAdded c key schema answer c')
    (hrel : ∀ compiled, (c.compile schema).1 = .ok compiled →
      rel (key, schema) (key, compiled)) :
    Registers rel (fun k s =>
        (k, s) ∈ (if answer.isOk then [(key, schema)] else []) ∨ holds k s)
      c'.registry := by
  cases answer with
  | error e =>
      rw [hadded.registry_of_error]
      apply h.congr
      simp
  | ok _ =>
      cases hadded with
      | @added compiled hfree hcompile =>
          have hcompiled : List.Forall₂ rel [(key, schema)] [(key, compiled)] :=
            .cons (hrel compiled hcompile) .nil
          apply h.insertAll hname hcompiled (by simp)
          intro k hk
          rw [List.mem_singleton.mp hk]
          exact hfree

theorem Registers.directoryAdded (h : Registers rel holds c.registry)
    {entries : Option (List (String × Content))} {answer : Except CompileError ℕ}
    (hadded : DirectoryAdded c entries answer c')
    (hrel : ∀ compiled,
      (c.compileAll (loadedDocuments entries)).1 = .ok compiled →
        List.Forall₂ rel (loadedDocuments entries) compiled) :
    Registers rel (fun k s =>
        (k, s) ∈ (if answer.isOk then loadedDocuments entries else []) ∨
          holds k s) c'.registry := by
  cases answer with
  | error e =>
      rw [hadded.registry_of_error]
      apply h.congr
      simp
  | ok _ =>
      cases hadded with
      | @added directory compiled hload hall hfree =>
          rw [loadedDocuments_of_load hload] at hrel ⊢
          have hnodup : (directory.documents.map Prod.fst).Nodup :=
            (Directory.sorted_of_load hload).imp String.ne_of_lt
          exact h.insertAll hname (hrel compiled hall) hnodup hfree

end

/-! ## Directories -/

/-- What adding a directory answers when some keys are taken.  A document that
does not compile is found before a name that is taken. -/
inductive DirectoryAnswer (taken : List String)
    (entries : Option (List (String × Content))) : Except CompileError ℕ → Prop
  | unloaded {e : LoadError} : Directory.load entries = .error e →
      DirectoryAnswer taken entries (.error (.load e))
  | named {directory : Directory} {before behind : List (String × Value)}
      {key : String} {schema : Value} {e : SchemaError} :
      Directory.load entries = .ok directory →
        directory.documents = before ++ (key, schema) :: behind →
          (∀ m ∈ before, m.2.compiles = true) →
            Program.ofValue schema = .error e →
              DirectoryAnswer taken entries (.error (.named key (.schema e)))
  | duplicateKey {directory : Directory} {before behind : List String}
      {key : String} :
      Directory.load entries = .ok directory →
        (∀ m ∈ directory.documents, m.2.compiles = true) →
          directory.names = before ++ key :: behind →
            (∀ k ∈ before, k ∉ taken) → key ∈ taken →
              DirectoryAnswer taken entries (.error (.duplicateKey key))
  | loaded {directory : Directory} :
      Directory.load entries = .ok directory →
        (∀ m ∈ directory.documents, m.2.compiles = true) →
          (∀ key ∈ directory.names, key ∉ taken) →
            DirectoryAnswer taken entries (.ok directory.names.length)

theorem DirectoryAdded.directoryAnswer {c c' : Compiler}
    {entries : Option (List (String × Content))} {answer : Except CompileError ℕ}
    (h : DirectoryAdded c entries answer c')
    (hall : CompiledAll (loadedDocuments entries)
      (c.compileAll (loadedDocuments entries)).1) :
    DirectoryAnswer c.keys entries answer := by
  cases h with
  | unloaded hload => exact .unloaded hload
  | refused hload hrefused =>
      rw [loadedDocuments_of_load hload, hrefused] at hall
      cases hall with
      | error heq hbefore he => exact .named hload heq hbefore he
  | taken hload hok hnames hbefore hkey =>
      rw [loadedDocuments_of_load hload, hok] at hall
      exact .duplicateKey hload hall.compiles hnames hbefore hkey
  | added hload hok hfree =>
      rw [loadedDocuments_of_load hload, hok] at hall
      exact .loaded hload hall.compiles hfree

/-! ## Operations -/

/-- Two compilers with the same keys and the same under every key. -/
structure SameRegistry (c c' : Compiler) : Prop where
  keys : c'.keys = c.keys
  validator : ∀ key, c'.validator? key = c.validator? key
  serializer : ∀ key, c'.serializer? key = c.serializer? key
  parser : ∀ key, c'.parser? key = c.parser? key

theorem sameRegistry_of_eq {c c' : Compiler} (hconfig : c'.config = c.config)
    (hregistry : c'.registry = c.registry) : c.SameRegistry c' := by
  have hget : ∀ key, c'.get? key = c.get? key := fun key => by
    rw [get?, get?, hregistry]
  constructor
  · rw [Compiler.keys, Compiler.keys, hregistry]
  · exact fun key => by rw [validator?, validator?, hget, hconfig]
  · exact fun key => by rw [serializer?, serializer?, hget, hconfig]
  · exact fun key => by rw [parser?, parser?, hget, hconfig]

namespace Operation

variable {rel : String × Value → String × Compiled → Prop}
    {holds : String → Value → Prop} {c : Compiler}

/-- What an operation registers is related to the documents that it is given. -/
structure Yields (rel : String × Value → String × Compiled → Prop) (c : Compiler)
    (op : Operation) : Prop where
  schema : ∀ key schema compiled, op = .addSchema key schema →
    (c.compile schema).1 = .ok compiled → rel (key, schema) (key, compiled)
  directory : ∀ entries compiled, op = .addDirectory entries →
    (c.compileAll (loadedDocuments entries)).1 = .ok compiled →
      List.Forall₂ rel (loadedDocuments entries) compiled

theorem yields_names (c : Compiler) (op : Operation) :
    op.Yields (fun m e => m.1 = e.1) c := by
  constructor
  · exact fun _ _ _ _ _ => rfl
  · exact fun _ _ _ h => forall₂_of_compileAll h

theorem yields_programs {scope : List Value} {cached : Value → Prop}
    (hcaches : Caches scope cached c.cache) {op : Operation}
    (hop : op.documents ⊆ scope) : op.Yields CompiledAs c := by
  constructor
  · rintro key schema compiled rfl h
    have hanswer := (compile_spec hcaches (hop List.mem_cons_self)).1
    rw [h] at hanswer
    exact ⟨rfl, hanswer.symm⟩
  · rintro entries compiled rfl h
    have hanswer := (compileAll_spec (loadedDocuments entries) hcaches
      fun m hm => hop (List.mem_map.mpr ⟨m, hm, rfl⟩)).1
    rw [h] at hanswer
    cases hanswer with
    | ok hcompiled => exact hcompiled

/-- One operation adds its documents to those that are registered, or removes
what stands under one key, or leaves the registry as it is. -/
theorem run_registers (hname : ∀ m e, rel m e → m.1 = e.1)
    (h : Registers rel holds c.registry) {op : Operation}
    (hyields : op.Yields rel c) :
    Registers rel (fun key schema =>
        (key, schema) ∈ op.added c ∨ (holds key schema ∧ ¬ op = .remove key))
      (op.run c).2.registry := by
  cases op with
  | program schema | validator schema | serializer schema | parser schema =>
      rw [(run_extends rfl c).registry]
      apply h.congr
      simp [added, entries]
  | addSchema key schema =>
      have hadded := h.schemaAdded hname (addSchema_spec c key schema)
        fun compiled => hyields.schema key schema compiled rfl
      apply hadded.congr
      simp [added, run, entries]
  | addDirectory entries =>
      have hadded := h.directoryAdded hname (addDirectory_spec c entries)
        fun compiled => hyields.directory entries compiled rfl
      apply hadded.congr
      simp [added, run, Operation.entries]
  | remove key =>
      apply (h.remove hname key).congr
      intro k s
      simp [added, entries, @eq_comm _ k key]
  | clearCache =>
      apply h.congr
      simp [added, entries]

end Operation

/-! ## Histories -/

variable {config : Config} {history : List Operation}

/-- The registry has entries for the documents that were added and whose keys
were not removed since. -/
theorem registers_after {rel : String × Value → String × Compiled → Prop}
    (hname : ∀ m e, rel m e → m.1 = e.1)
    (hyields : ∀ before op later, history = before ++ op :: later →
      op.Yields rel (after config before)) :
    Registers rel (Registered config history)
      (after config history).registry := by
  induction history using List.reverseRecOn with
  | nil => exact registers_nil.congr fun _ _ => iff_of_false id not_since_nil
  | append_singleton history op ih =>
      have hbefore := ih fun before op' later heq =>
        hyields before op' (later ++ [op]) (by rw [heq]; simp)
      rw [after_append]
      exact (Operation.run_registers hname hbefore
        (hyields history op [] rfl)).congr
          fun key schema => registered_append_iff.symm

/-- Under a key a compiler has what a new compiler makes of a document. -/
structure Serves (c : Compiler) (key : String) (schema : Value) : Prop where
  validator : c.validator? key =
    ((new c.config).compileValidator schema).1.toOption
  serializer : c.serializer? key =
    ((new c.config).compileSerializer schema).1.toOption
  parser : c.parser? key = ((new c.config).compileParser schema).1.toOption

theorem new_compileWith {α : Type} {config : Config} {schema : Value}
    {program : Program} (h : Program.ofValue schema = .ok program)
    (build : Program → Config → α) :
    ((new config).compileWith build schema).1 = .ok (build program config) := by
  simp only [compileWith, compile, new, List.lookup_nil, h]
  rfl

theorem Registers.serves {holds : String → Value → Prop} {c : Compiler}
    (h : Registers CompiledAs holds c.registry) {key : String} {schema : Value}
    (hholds : holds key schema) : c.Serves key schema := by
  obtain ⟨documents, hsorted, hmem, hentries⟩ := h
  have hnodup : (c.registry.map Prod.fst).Nodup := by
    rw [← map_fst_of_forall₂ (fun _ _ => And.left) hentries]
    exact hsorted.imp String.ne_of_lt
  obtain ⟨⟨key', compiled⟩, hentry, hname, hprogram⟩ :=
    exists_mem_of_forall₂ hentries.flip ((hmem key schema).mpr hholds)
  obtain rfl : key = key' := hname
  have hget : c.get? key = some compiled := lookup_of_mem hnodup hentry
  constructor
  · rw [validator?, hget, compileValidator, new_compileWith hprogram]
    rfl
  · rw [serializer?, hget, compileSerializer, new_compileWith hprogram]
    rfl
  · rw [parser?, hget, compileParser, new_compileWith hprogram]
    rfl

theorem isSome_get?_iff {c : Compiler} {key : String} :
    (c.get? key).isSome ↔ key ∈ c.keys :=
  lookup_isSome_iff

theorem registers_programs (hdigest : Digest.TellsApart (given history)) :
    Registers CompiledAs (Registered config history)
      (after config history).registry := by
  apply registers_after fun _ _ => And.left
  intro before op later heq
  exact Operation.yields_programs (caches_before heq hdigest)
    (List.subset_append_right _ _)

theorem registered_addDirectory_iff {entries : Option (List (String × Content))}
    {key : String} {schema : Value} :
    Registered config (history ++ [.addDirectory entries]) key schema ↔
      (((after config history).addDirectory entries).1.isOk ∧
        (key, schema) ∈ loadedDocuments entries) ∨
      Registered config history key schema := by
  rw [registered_append_iff]
  simp [Operation.added, Operation.run, Operation.entries]

/-- The registry is a finite map.  After every history its keys stand in strict
order, and are those under which a document was added and which were not removed
since; a compiler has something under these keys alone, namely what a new compiler
makes of the document.  Operations that fail leave the map as it is, and so does
compiling.  A directory is added as a whole, or the first of its documents that
does not compile is refused, or else the first of its names that is taken. -/
theorem registry_refines_map (config : Config) (history : List Operation) :
    (∃ documents : List (String × Value),
      (documents.map Prod.fst).Pairwise (· < ·) ∧
      (∀ key schema, (key, schema) ∈ documents ↔
        Registered config history key schema) ∧
      (after config history).keys = documents.map Prod.fst) ∧
    (∀ key,
      (((after config history).validator? key).isSome ↔
        key ∈ (after config history).keys) ∧
      (((after config history).serializer? key).isSome ↔
        key ∈ (after config history).keys) ∧
      (((after config history).parser? key).isSome ↔
        key ∈ (after config history).keys)) ∧
    (Digest.TellsApart (given history) → ∀ key schema,
      Registered config history key schema →
        (after config history).Serves key schema) ∧
    ∀ before op later, history = before ++ op :: later →
      (op = .clearCache ∨ op.schema?.isSome ∨
          (∃ e, (op.run (after config before)).1 = .error e) →
        (after config before).SameRegistry (op.run (after config before)).2) ∧
      ∀ entries, op = .addDirectory entries →
        (∀ key schema, Registered config (before ++ [op]) key schema ↔
          (((after config before).addDirectory entries).1.isOk ∧
            (key, schema) ∈ loadedDocuments entries) ∨
          Registered config before key schema) ∧
        (∀ count, ((after config before).addDirectory entries).1 = .ok count →
          count = (loadedDocuments entries).length) ∧
        (∀ directory, Directory.load entries = .ok directory →
          directory.names.Pairwise (· < ·)) ∧
        (Digest.TellsApart (given history) →
          DirectoryAnswer (after config before).keys entries
            ((after config before).addDirectory entries).1) := by
  refine ⟨?_, fun key => ?_, fun hdigest key schema => ?_,
    fun before op later heq => ⟨fun hcase => ?_, ?_⟩⟩
  · have hname : ∀ (m : String × Value) (e : String × Compiled),
        m.1 = e.1 → m.1 = e.1 := fun _ _ h => h
    obtain ⟨documents, hsorted, hmem, hentries⟩ :=
      @registers_after config history _ hname fun before op _ _ =>
        Operation.yields_names (after config before) op
    exact ⟨documents, hsorted, hmem, (map_fst_of_forall₂ hname hentries).symm⟩
  · simp [validator?, serializer?, parser?, isSome_get?_iff]
  · exact (registers_programs hdigest).serves
  · apply sameRegistry_of_eq (Operation.run_config _ _)
    rcases hcase with rfl | hschema | ⟨e, he⟩
    · rfl
    · obtain ⟨schema, hschema⟩ := Option.isSome_iff_exists.mp hschema
      exact (Operation.run_extends hschema _).registry
    · exact Operation.registry_of_error he
  · rintro entries rfl
    have hadded := addDirectory_spec (after config before) entries
    refine ⟨fun key schema => registered_addDirectory_iff, fun count hcount => ?_,
      fun directory => Directory.sorted_of_load, fun hdigest => ?_⟩
    · rw [hcount] at hadded
      exact hadded.count_of_ok
    · have hbefore := @caches_before config history before later _ heq hdigest
      apply hadded.directoryAnswer
      apply (compileAll_spec (loadedDocuments entries) hbefore _).1
      intro m hm
      exact List.mem_append_right _ (List.mem_map.mpr ⟨m, hm, rfl⟩)

/-- A directory with a schema of all values, by the name of a pair. -/
def pairDirectory : Option (List (String × Content)) :=
  some [("pair.jtd.json", .text "{}")]

/-- A schema is added, and then a directory that names one in the same way. -/
def pairHistory : List Operation :=
  [.addSchema "pair" (pairSchema "x" "y"), .addDirectory pairDirectory]

theorem load_pairDirectory :
    Directory.load pairDirectory = .ok ⟨[("pair", .obj [])]⟩ := by
  have hlisted : Directory.loadEntries [] [("pair.jtd.json", .text "{}")] =
      .ok [("pair", .obj [])] := by
    with_unfolding_all rfl
  rw [pairDirectory, Directory.load, hlisted, Except.map,
    List.mergeSort_singleton]

theorem registry_refines_map_pair :
    Digest.TellsApart (given pairHistory) ∧
    (after {} pairHistory).Serves "pair" (pairSchema "x" "y") ∧
    ((after {} [.addSchema "pair" (pairSchema "x" "y")]).addDirectory
      pairDirectory).1 = .error (.duplicateKey "pair") := by
  have hdigest : Digest.TellsApart (given pairHistory) := by
    have hgiven : given pairHistory = [pairSchema "x" "y", .obj []] := by
      simp [given, pairHistory, Operation.documents, Operation.schema?,
        Operation.entries, loadedDocuments_of_load load_pairDirectory]
    rw [hgiven]
    decide +kernel
  have hkeys : (after {} [.addSchema "pair" (pairSchema "x" "y")]).keys =
      ["pair"] := by decide +kernel
  have hadded : ((new {}).addSchema "pair" (pairSchema "x" "y")).1.isOk := by
    decide +kernel
  obtain ⟨-, -, hserves, hsteps⟩ := registry_refines_map {} pairHistory
  refine ⟨hdigest, hserves hdigest _ _ ?_, ?_⟩
  · refine ⟨[], _, _, rfl, ?_, by simp⟩
    simp [Operation.added, Operation.run, Operation.entries, after, hadded]
  · have hanswer := ((hsteps [_] _ [] rfl).2 pairDirectory rfl).2.2.2 hdigest
    rw [hkeys] at hanswer
    generalize (Compiler.addDirectory _ pairDirectory).1 = answer at hanswer ⊢
    cases hanswer with
    | unloaded h =>
        rw [load_pairDirectory] at h
        cases h
    | @named directory before behind key schema e h hsplit _ he =>
        rw [load_pairDirectory] at h
        cases h
        have hmem : (key, schema) ∈ [("pair", Value.obj [])] := by
          change [("pair", Value.obj [])] = _ at hsplit
          rw [hsplit]
          exact List.mem_append_right _ List.mem_cons_self
        cases List.mem_singleton.mp hmem
        have hcompiles : (Value.obj []).compiles = true := by decide +kernel
        rw [Value.compiles, he] at hcompiles
        cases hcompiles
    | duplicateKey _ _ _ _ hkey => rw [List.mem_singleton.mp hkey]
    | loaded h _ hfree =>
        rw [load_pairDirectory] at h
        cases h
        exact absurd List.mem_cons_self (hfree "pair" List.mem_cons_self)

end Compiler
end JsonTypedef
