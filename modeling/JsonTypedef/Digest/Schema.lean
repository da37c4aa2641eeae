import JsonTypedef.Digest.Sha256
import JsonTypedef.Json.Canonical

/-!
# Digests of schema documents

The schema digest hashes the canonical text and so identifies a document up to
the order of its members.  The layout digest hashes the compact text in document
order and so tells documents apart that differ in that order.
-/

namespace JsonTypedef

/-- A SHA-256 digest. -/
structure Digest where
  bytes : List UInt8
deriving DecidableEq

namespace Digest

/-- The digest of a text's UTF-8 bytes. -/
def ofText (text : String) : Digest :=
  ⟨Sha256.digest text.toUTF8.toList⟩

/-- The digest of a document's canonical text. -/
def ofSchema (document : Value) : Digest :=
  ofText document.canonicalText

/-- The digest of a document's compact text. -/
def ofLayout (document : Value) : Digest :=
  ofText document.write

/-- The digest in hexadecimal. -/
def hex (d : Digest) : String :=
  Sha256.hex d.bytes

/-- The digest with the name of the hash in front. -/
def text (d : Digest) : String :=
  "sha256:" ++ d.hex

end Digest

end JsonTypedef
