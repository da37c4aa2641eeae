import JsonTypedef.Compiler
import JsonTypedef.Proofs.Decimal.ReadBack

/-!
# Histories of a compiler

A history is the list of the operations that a new compiler has run.  What a
compiler holds is told by its history: `Compiler.Retained` says which documents
are in the cache, and `Compiler.Registered` which document stands under a key.

A digest stands for a text only as far as no other text has the same digest, so
that what depends on the cache is stated for documents with different digests.
-/

namespace JsonTypedef

/-- Documents with the same layout digest have the same text. -/
def Digest.TellsApart (documents : List Value) : Prop :=
  ∀ a ∈ documents, ∀ b ∈ documents,
    Digest.ofLayout a = Digest.ofLayout b → a.write = b.write

instance (documents : List Value) : Decidable (Digest.TellsApart documents) :=
  inferInstanceAs (Decidable (∀ a ∈ documents, ∀ b ∈ documents,
    Digest.ofLayout a = Digest.ofLayout b → a.write = b.write))

namespace Digest.TellsApart

variable {documents : List Value}

theorem eq (h : TellsApart documents) {a b : Value} (ha : a ∈ documents)
    (hb : b ∈ documents) (heq : Digest.ofLayout a = Digest.ofLayout b) : a = b :=
  Value.write_injective (h a ha b hb heq)

theorem subset (h : TellsApart documents) {others : List Value}
    (hsub : others ⊆ documents) : TellsApart others :=
  fun a ha b hb => h a (hsub ha) b (hsub hb)

end Digest.TellsApart

section

variable {ε α β : Type}

@[simp] theorem isOk_error (e : ε) : (.error e : Except ε α).isOk = false := rfl

@[simp] theorem isOk_ok (a : α) : (.ok a : Except ε α).isOk = true := rfl

@[simp] theorem isOk_map (f : α → β) (r : Except ε α) :
    (r.map f).isOk = r.isOk := by
  cases r with
  | error e => rfl
  | ok a => rfl

theorem eq_error_of_map {f : α → β} {r : Except ε α} {e : ε}
    (h : r.map f = .error e) : r = .error e := by
  cases r with
  | error _ => exact congrArg Except.error (Except.error.inj h)
  | ok a => cases h

end

/-- The document is a schema that has a program. -/
def Value.compiles (schema : Value) : Bool :=
  (Program.ofValue schema).isOk

namespace Compiler

/-- What the user of a compiler asks for. -/
inductive Operation
  | program (schema : Value)
  | validator (schema : Value)
  | serializer (schema : Value)
  | parser (schema : Value)
  | addSchema (key : String) (schema : Value)
  | addDirectory (entries : Option (List (String × Content)))
  | remove (key : String)
  | clearCache

/-- What a compiler answers. -/
inductive Answer
  | program (program : Program)
  | validator (validator : Validator)
  | serializer (serializer : Serializer)
  | parser (parser : Parser)
  | added
  | loaded (count : ℕ)
  | removed (found : Bool)
  | cleared

/-- The documents of a directory with their names; none if it cannot be
loaded. -/
def loadedDocuments (entries : Option (List (String × Content))) :
    List (String × Value) :=
  match Directory.load entries with
  | .ok directory => directory.documents
  | .error _ => []

/-- Answer with what was built from a document. -/
def answering {α : Type} (answer : α → Answer)
    (result : Except SchemaError α × Compiler) :
    Except CompileError Answer × Compiler :=
  ((result.1.mapError .schema).map answer, result.2)

namespace Operation

/-- Run an operation. -/
def run (c : Compiler) : Operation → Except CompileError Answer × Compiler
  | .program schema =>
    answering .program (c.compileWith (fun program _ => program) schema)
  | .validator schema => answering .validator (c.compileValidator schema)
  | .serializer schema => answering .serializer (c.compileSerializer schema)
  | .parser schema => answering .parser (c.compileParser schema)
  | .addSchema key schema =>
    (c.addSchema key schema).map (fun r => r.map fun _ => .added) id
  | .addDirectory entries =>
    (c.addDirectory entries).map (fun r => r.map .loaded) id
  | .remove key => (c.remove key).map (fun found => .ok (.removed found)) id
  | .clearCache => (.ok .cleared, c.clearCache)

/-- The document that an operation only compiles. -/
def schema? : Operation → Option Value
  | .program schema => some schema
  | .validator schema => some schema
  | .serializer schema => some schema
  | .parser schema => some schema
  | _ => none

/-- What an operation is to register: documents under keys. -/
def entries : Operation → List (String × Value)
  | .addSchema key schema => [(key, schema)]
  | .addDirectory entries => loadedDocuments entries
  | _ => []

/-- The documents that are given to an operation. -/
def documents (op : Operation) : List Value :=
  op.schema?.toList ++ op.entries.map Prod.snd

theorem mem_documents_of_schema? {op : Operation} {schema : Value}
    (h : op.schema? = some schema) : schema ∈ op.documents := by
  rw [documents, h]
  exact List.mem_append_left _ (by simp)

/-- The documents that an operation compiles, up to the first one that fails.  A
key that is taken keeps its document from being compiled. -/
def compiled (c : Compiler) : Operation → List Value
  | .addSchema key schema =>
    if key ∈ c.keys then [] else [schema].takeWhile Value.compiles
  | op => op.documents.takeWhile Value.compiles

/-- What an operation registers: everything or, if it fails, nothing. -/
def added (c : Compiler) (op : Operation) : List (String × Value) :=
  if (op.run c).1.isOk then op.entries else []

end Operation

/-- The compiler after a history. -/
def after (config : Config) (history : List Operation) : Compiler :=
  history.foldl (fun c op => (op.run c).2) (new config)

@[simp] theorem after_append (config : Config) (history : List Operation)
    (op : Operation) :
    after config (history ++ [op]) = (op.run (after config history)).2 := by
  rw [after, List.foldl_append]
  rfl

/-- The documents that were given to the operations of a history. -/
def given (history : List Operation) : List Value :=
  history.flatMap Operation.documents

theorem given_append (history : List Operation) (op : Operation) :
    given (history ++ [op]) = given history ++ op.documents := by
  rw [given, given, List.flatMap_append, List.flatMap_singleton]

/-- What the operations up to one of a history are given. -/
theorem given_subset (before : List Operation) (op : Operation)
    (later : List Operation) :
    given before ++ op.documents ⊆ given (before ++ op :: later) := by
  have hsplit : before ++ op :: later = (before ++ [op]) ++ later := by simp
  have happend : given ((before ++ [op]) ++ later) =
      given (before ++ [op]) ++ given later := List.flatMap_append
  rw [hsplit, happend, given_append]
  exact List.subset_append_left _ _

/-- An operation of a history did something that no later one undid. -/
def Since (does : List Operation → Operation → Prop) (undoes : Operation → Prop)
    (history : List Operation) : Prop :=
  ∃ before op later, history = before ++ op :: later ∧ does before op ∧
    ∀ next ∈ later, ¬ undoes next

/-- The document was compiled, and the cache was not cleared since. -/
def Retained (config : Config) (history : List Operation) (schema : Value) :
    Prop :=
  Since (fun before op => schema ∈ op.compiled (after config before))
    (· = .clearCache) history

/-- The document was added under the key, and the key was not removed since. -/
def Registered (config : Config) (history : List Operation) (key : String)
    (schema : Value) : Prop :=
  Since (fun before op => (key, schema) ∈ op.added (after config before))
    (· = .remove key) history

section

variable {does : List Operation → Operation → Prop} {undoes : Operation → Prop}

theorem not_since_nil : ¬ Since does undoes [] := by
  rintro ⟨before, op, later, heq, -⟩
  exact List.append_ne_nil_of_right_ne_nil _ (by simp) heq.symm

/-- The last operation does something, or it leaves what was done before. -/
theorem since_append_iff {history : List Operation} {op : Operation} :
    Since does undoes (history ++ [op]) ↔
      does history op ∨ (Since does undoes history ∧ ¬ undoes op) := by
  constructor
  · rintro ⟨before, first, later, heq, hdoes, hlater⟩
    rcases List.eq_nil_or_concat later with rfl | ⟨later, last, rfl⟩
    · obtain ⟨rfl, hop⟩ := List.append_inj' heq rfl
      cases hop
      exact Or.inl hdoes
    · rw [List.concat_eq_append, ← List.cons_append, ← List.append_assoc] at heq
      obtain ⟨rfl, hop⟩ := List.append_inj' heq rfl
      cases hop
      rw [List.concat_eq_append] at hlater
      refine Or.inr ⟨⟨before, first, later, rfl, hdoes, fun next hnext => ?_⟩, ?_⟩
      · exact hlater next (List.mem_append_left _ hnext)
      · exact hlater op (List.mem_append_right _ List.mem_cons_self)
  · rintro (hdoes | ⟨⟨before, first, later, rfl, hdoes, hlater⟩, hop⟩)
    · exact ⟨history, op, [], rfl, hdoes, by simp⟩
    · refine ⟨before, first, later ++ [op], by simp, hdoes, fun next hnext => ?_⟩
      rcases List.mem_append.mp hnext with hnext | hnext
      · exact hlater next hnext
      · rw [List.mem_singleton.mp hnext]
        exact hop

end

theorem retained_append_iff {config : Config} {history : List Operation}
    {op : Operation} {schema : Value} :
    Retained config (history ++ [op]) schema ↔
      schema ∈ op.compiled (after config history) ∨
        (Retained config history schema ∧ ¬ op = .clearCache) :=
  since_append_iff

theorem registered_append_iff {config : Config} {history : List Operation}
    {op : Operation} {key : String} {schema : Value} :
    Registered config (history ++ [op]) key schema ↔
      (key, schema) ∈ op.added (after config history) ∨
        (Registered config history key schema ∧ ¬ op = .remove key) :=
  since_append_iff

end Compiler
end JsonTypedef
