import JsonTypedef.Json.Reader
import JsonTypedef.Yaml.ToJson

/-!
# Schema directories

A directory holds schema documents in files named for their format: `.jtd.json`
for JSON, `.jtd.yaml` and `.jtd.yml` for YAML.  What stands in front of that
ending names the schema, and other files are passed over.  Loading reads the
documents without checking that they are schemas.
-/

namespace JsonTypedef

/-- What a directory entry holds. -/
inductive Content where
  /-- A file of text. -/
  | text (s : String)
  /-- A file that is no text, or no file at all. -/
  | unreadable

/-- The format of a schema document. -/
inductive Format where
  | json
  | yaml
deriving DecidableEq

/-- Why a directory cannot be loaded. -/
inductive LoadError where
  /-- There is no such directory. -/
  | missing
  /-- A file is no document of its format. -/
  | syntaxFault (file : String) (format : Format)
  /-- A YAML document has no JSON counterpart. -/
  | conversion (file : String) (fault : Yaml.Fault)
  /-- Two files hold schemas of one name. -/
  | duplicateName (name : String)
  /-- An entry with the ending of a schema cannot be read as text. -/
  | unreadable

namespace LoadError

/-- The name of a format. -/
def formatText : Format → String
  | .json => "JSON"
  | .yaml => "YAML"

/-- Why a document is refused. -/
def reason : LoadError → String
  | .missing => "No such file or directory (os error 2)"
  | .syntaxFault _ format => "invalid " ++ formatText format
  | .conversion _ fault => fault.message
  | .duplicateName _ => "duplicate schema name"
  | .unreadable => "unreadable entry"

/-- The wording of the failure to load the directory at a path. -/
def message (dir : String) : LoadError → String
  | .missing => "cannot read schema directory '" ++ dir ++ "': " ++ reason .missing
  | .syntaxFault file format =>
    "invalid schema document '" ++ dir ++ "/" ++ file ++ "': " ++
      reason (.syntaxFault file format)
  | .conversion file fault =>
    "invalid schema document '" ++ dir ++ "/" ++ file ++ "': " ++ reason (.conversion file fault)
  | .duplicateName name => "duplicate schema name '" ++ name ++ "' in '" ++ dir ++ "'"
  | .unreadable => "io error: " ++ reason .unreadable

end LoadError

/-- The documents of a directory in increasing order of their names. -/
structure Directory where
  documents : List (String × Value)

namespace Directory

/-- What stands in front of an ending, if it is not empty.  To reduce it would
take the literal endings apart byte by byte, so that it is irreducible. -/
@[irreducible]
def stem? (ending : String) (file : String) : Option String :=
  let cs := file.toList
  let n := cs.length - ending.length
  if 0 < n ∧ cs.drop n = ending.toList then some (String.ofList (cs.take n)) else none

/-- The name and the format of the schema in a file, read off the file's name. -/
def classify? (file : String) : Option (String × Format) :=
  match stem? ".jtd.json" file with
  | some name => some (name, .json)
  | none =>
    ((stem? ".jtd.yaml" file).or (stem? ".jtd.yml" file)).map (·, .yaml)

/-- The greatest nesting of a JSON document. -/
def nestingLimit : Nat :=
  127

/-- Read a document of a format. -/
def readDocument (file : String) (format : Format) (text : String) : Except LoadError Value :=
  match format with
  | .json =>
    match Value.read? nestingLimit text with
    | some v => .ok v
    | none => .error (.syntaxFault file .json)
  | .yaml =>
    match Yaml.Value.ofText? text with
    | none => .error (.syntaxFault file .yaml)
    | some v =>
      match v.toJson with
      | .ok v => .ok v
      | .error fault => .error (.conversion file fault)

/-- Read the entries of a directory in the order in which they are listed,
`found` being the documents before them. -/
def loadEntries (found : List (String × Value)) :
    List (String × Content) → Except LoadError (List (String × Value))
  | [] => .ok found
  | (file, content) :: rest =>
    match classify? file with
    | none => loadEntries found rest
    | some (name, format) =>
      match content with
      | .unreadable => .error .unreadable
      | .text text => do
        let document ← readDocument file format text
        if found.any (·.1 = name) then .error (.duplicateName name)
        else loadEntries (found ++ [(name, document)]) rest

/-- Load a directory from the list of its entries; none stands for a directory
that does not exist. -/
def load (entries : Option (List (String × Content))) : Except LoadError Directory :=
  match entries with
  | none => .error .missing
  | some entries =>
    (loadEntries [] entries).map fun documents => ⟨documents.mergeSort fun a b => a.1 ≤ b.1⟩

/-- The names of the documents, in increasing order. -/
def names (d : Directory) : List String :=
  d.documents.map Prod.fst

end Directory

end JsonTypedef
