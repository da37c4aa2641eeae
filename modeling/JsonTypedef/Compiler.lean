import JsonTypedef.Directory
import JsonTypedef.Parsing.Parser
import JsonTypedef.Serialization

/-!
# The compiler

A compiler keeps the programs that it has generated under the layout digests of
their documents, so that compiling a document again gives the same program, and
registers programs under keys.  A failing operation registers nothing.
-/

namespace JsonTypedef

/-- A generated program.  The serial number tells it from other programs that
were generated from the same document. -/
structure Compiled where
  serial : Nat
  program : Program

/-- Why a compiler refuses a schema. -/
inductive CompileError where
  | schema (e : SchemaError)
  | duplicateKey (key : String)
  /-- A schema of a directory is refused. -/
  | named (key : String) (source : CompileError)
  | load (e : LoadError)

/-- The wording of a refusal; `dir` is the path of the directory concerned. -/
def CompileError.message (dir : String) : CompileError → String
  | .schema e => e.message
  | .duplicateKey key => "schema key '" ++ key ++ "' is already registered"
  | .named key source => "schema '" ++ key ++ "': " ++ source.message dir
  | .load e => e.message dir

/-- A configuration with cached and registered programs. -/
structure Compiler where
  config : Config
  /-- The cached programs under the layout digests of their documents. -/
  cache : List (Digest × Compiled)
  /-- The registered programs in increasing order of their keys. -/
  registry : List (String × Compiled)
  /-- The number of programs generated so far. -/
  generated : Nat

namespace Compiler

/-- A compiler without programs. -/
def new (config : Config) : Compiler :=
  ⟨config, [], [], 0⟩

/-- The program for a schema document: the cached one for its layout, or a new
one that is cached from then on. -/
def compile (c : Compiler) (schema : Value) : Except SchemaError Compiled × Compiler :=
  let layout := Digest.ofLayout schema
  match List.lookup layout c.cache with
  | some compiled => (.ok compiled, c)
  | none =>
    match Program.ofValue schema with
    | .error e => (.error e, c)
    | .ok program =>
      let compiled : Compiled := ⟨c.generated, program⟩
      (.ok compiled, { c with cache := (layout, compiled) :: c.cache, generated := c.generated + 1 })

/-- What is built from the program for a schema document and the configuration. -/
def compileWith {α : Type} (c : Compiler) (build : Program → Config → α) (schema : Value) :
    Except SchemaError α × Compiler :=
  let (compiled, after) := c.compile schema
  (compiled.map fun compiled => build compiled.program c.config, after)

/-- The validator for a schema document. -/
def compileValidator (c : Compiler) (schema : Value) : Except SchemaError Validator × Compiler :=
  c.compileWith Validator.mk schema

/-- The serializer for a schema document. -/
def compileSerializer (c : Compiler) (schema : Value) : Except SchemaError Serializer × Compiler :=
  c.compileWith Serializer.mk schema

/-- The parser for a schema document. -/
def compileParser (c : Compiler) (schema : Value) : Except SchemaError Parser × Compiler :=
  c.compileWith Parser.mk schema

/-- The program registered under a key. -/
def get? (c : Compiler) (key : String) : Option Compiled :=
  List.lookup key c.registry

/-- The registered keys, in increasing order. -/
def keys (c : Compiler) : List String :=
  c.registry.map Prod.fst

/-- Put an entry at its place among entries in increasing order of keys, instead
of the one with its key if there is one. -/
def insert {α : Type} (key : String) (a : α) : List (String × α) → List (String × α)
  | [] => [(key, a)]
  | e :: rest =>
    if key < e.1 then (key, a) :: e :: rest
    else if key = e.1 then (key, a) :: rest
    else e :: insert key a rest

/-- Put entries at their places, one after the other. -/
def insertAll {α : Type} (entries registry : List (String × α)) : List (String × α) :=
  entries.foldl (fun registry e => insert e.1 e.2 registry) registry

/-- Register a program under a key, unless the key is taken. -/
def register (c : Compiler) (key : String) (compiled : Compiled) :
    Except CompileError Unit × Compiler :=
  if key ∈ c.keys then (.error (.duplicateKey key), c)
  else (.ok (), { c with registry := insert key compiled c.registry })

/-- Compile a schema and register it under a key.  A key that is taken is
refused before the schema is looked at. -/
def addSchema (c : Compiler) (key : String) (schema : Value) :
    Except CompileError Unit × Compiler :=
  if key ∈ c.keys then (.error (.duplicateKey key), c)
  else
    match c.compile schema with
    | (.error e, c) => (.error (.schema e), c)
    | (.ok compiled, c) => c.register key compiled

/-- Compile documents in order up to the first that is refused. -/
def compileAll (c : Compiler) :
    List (String × Value) → Except CompileError (List (String × Compiled)) × Compiler
  | [] => (.ok [], c)
  | (key, schema) :: rest =>
    match c.compile schema with
    | (.error e, c) => (.error (.named key (.schema e)), c)
    | (.ok compiled, c) =>
      match compileAll c rest with
      | (.error e, c) => (.error e, c)
      | (.ok others, c) => (.ok ((key, compiled) :: others), c)

/-- Compile all documents of a directory and register them under their names, or
register none of them.  The answer is their number. -/
def addDirectory (c : Compiler) (entries : Option (List (String × Content))) :
    Except CompileError Nat × Compiler :=
  match Directory.load entries with
  | .error e => (.error (.load e), c)
  | .ok directory =>
    match c.compileAll directory.documents with
    | (.error e, c) => (.error e, c)
    | (.ok compiled, c) =>
      match compiled.find? fun e => decide (e.1 ∈ c.keys) with
      | some (key, _) => (.error (.duplicateKey key), c)
      | none => (.ok compiled.length, { c with registry := insertAll compiled c.registry })

/-- Remove a key from the registry, and say whether it was there. -/
def remove (c : Compiler) (key : String) : Bool × Compiler :=
  (decide (key ∈ c.keys), { c with registry := c.registry.filter fun e => e.1 ≠ key })

/-- Forget the cached programs; registered ones stay. -/
def clearCache (c : Compiler) : Compiler :=
  { c with cache := [] }

/-- The number of cached programs. -/
def cachedPrograms (c : Compiler) : Nat :=
  c.cache.length

/-- The validator for the schema registered under a key. -/
def validator? (c : Compiler) (key : String) : Option Validator :=
  (c.get? key).map fun compiled => ⟨compiled.program, c.config⟩

/-- The serializer for the schema registered under a key. -/
def serializer? (c : Compiler) (key : String) : Option Serializer :=
  (c.get? key).map fun compiled => ⟨compiled.program, c.config⟩

/-- The parser for the schema registered under a key. -/
def parser? (c : Compiler) (key : String) : Option Parser :=
  (c.get? key).map fun compiled => ⟨compiled.program, c.config⟩

end Compiler

end JsonTypedef
