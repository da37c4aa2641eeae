import JsonTypedef.Compiler
import JsonTypedef.Parsing.Session
import JsonTypedef.Proofs.Except
import JsonTypedef.Proofs.Json.Distinct
import JsonTypedef.Proofs.Json.Same
import JsonTypedef.Proofs.Json.Reordering
import JsonTypedef.Proofs.Json.Canonical
import JsonTypedef.Proofs.Json.Numeral
import JsonTypedef.Proofs.Json.Quoted
import JsonTypedef.Proofs.Json.Text
import JsonTypedef.Proofs.Json.Scan
import JsonTypedef.Proofs.Json.Reader
import JsonTypedef.Proofs.Json.Spacing
import JsonTypedef.Proofs.Json.Writing
import JsonTypedef.Proofs.Json.Shape
import JsonTypedef.Proofs.Json.Position
import JsonTypedef.Proofs.Json.Cursor
import JsonTypedef.Proofs.Json.Front
import JsonTypedef.Proofs.Json.Formed
import JsonTypedef.Proofs.Json.Literal
import JsonTypedef.Proofs.Validation.Fits
import JsonTypedef.Proofs.Validation.Verdict
import JsonTypedef.Proofs.Validation.First
import JsonTypedef.Proofs.Schema.Grammar
import JsonTypedef.Proofs.Schema.Keywords
import JsonTypedef.Proofs.Schema.Metadata
import JsonTypedef.Proofs.Schema.Reordering
import JsonTypedef.Proofs.Schema.Checked
import JsonTypedef.Proofs.Schema.Closed
import JsonTypedef.Proofs.Program.Compiled
import JsonTypedef.Proofs.Program.Reordering
import JsonTypedef.Proofs.Program.Index
import JsonTypedef.Proofs.Parsing.Lookahead
import JsonTypedef.Proofs.Parsing.Soundness
import JsonTypedef.Proofs.Parsing.Completeness
import JsonTypedef.Proofs.Parsing.Agreement
import JsonTypedef.Proofs.Parsing.Depth
import JsonTypedef.Proofs.Parsing.Limit
import JsonTypedef.Proofs.Parsing.Position
import JsonTypedef.Proofs.Parsing.Skipping
import JsonTypedef.Proofs.Parsing.Mismatch
import JsonTypedef.Proofs.Parsing.Traces
import JsonTypedef.Proofs.Parsing.Descent
import JsonTypedef.Proofs.Parsing.Halting
import JsonTypedef.Proofs.Parsing.Names
import JsonTypedef.Proofs.Parsing.Branch
import JsonTypedef.Proofs.Parsing.Tags
import JsonTypedef.Proofs.Parsing.Faults
import JsonTypedef.Proofs.Parsing.Declared
import JsonTypedef.Proofs.Parsing.Reported
import JsonTypedef.Proofs.Serialization.Selected
import JsonTypedef.Proofs.Serialization.RoundTrip
import JsonTypedef.Proofs.Serialization.Depth
import JsonTypedef.Proofs.Serialization.Trimmed
import JsonTypedef.Proofs.Serialization.Normal
import JsonTypedef.Proofs.Serialization.Interrupted
import JsonTypedef.Proofs.Json.Exact
import JsonTypedef.Proofs.Schema.Conformance
import JsonTypedef.Proofs.Schema.Located
import JsonTypedef.Proofs.Validation.Conformance
import JsonTypedef.Proofs.Program.Coherent
import JsonTypedef.Proofs.Program.Bounds
import JsonTypedef.Proofs.Json.Place
import JsonTypedef.Proofs.Schema.Unfolding
import JsonTypedef.Proofs.Program.Simulation
import JsonTypedef.Proofs.Program.Metadata
import JsonTypedef.Proofs.Program.Unfolding
import JsonTypedef.Proofs.Validation.Simulation
import JsonTypedef.Proofs.Serialization.Simulation
import JsonTypedef.Proofs.Parsing.Simulation
import JsonTypedef.Proofs.Parsing.Reordering
import JsonTypedef.Proofs.Program.Equivalence
import JsonTypedef.Proofs.Program.Located
import JsonTypedef.Proofs.Program.Sources
import JsonTypedef.Proofs.Program.Rearranged
import JsonTypedef.Proofs.Program.Lenient
import JsonTypedef.Proofs.Validation.Traversal
import JsonTypedef.Proofs.Validation.Location
import JsonTypedef.Proofs.Validation.Reordering
import JsonTypedef.Proofs.Validation.Unrepeated
import JsonTypedef.Proofs.Validation.Locality
import JsonTypedef.Proofs.Decimal.Magnitude
import JsonTypedef.Proofs.Decimal.Shortest
import JsonTypedef.Proofs.Decimal.ReadBack
import JsonTypedef.Proofs.Compiler.History
import JsonTypedef.Proofs.Compiler.Cache
import JsonTypedef.Proofs.Compiler.Registry
import JsonTypedef.Proofs.Directory.Loading
import JsonTypedef.Proofs.Digest.Identity
import JsonTypedef.Proofs.Text.ByteOrder
import JsonTypedef.Proofs.Parsing.Counted
import JsonTypedef.Proofs.Parsing.Counter
import JsonTypedef.Proofs.Yaml.Conversion
import JsonTypedef.Proofs.Directory.Listing
import JsonTypedef.Proofs.Bytewise.Safety
import JsonTypedef.Proofs.Bytewise.Literals
import JsonTypedef.Proofs.Bytewise.Writer
import JsonTypedef.Proofs.Pointer.Text
import JsonTypedef.Proofs.Timestamp.Calendar
import JsonTypedef.Proofs.Timestamp.Digits
import JsonTypedef.Proofs.Timestamp.Reading
import JsonTypedef.Proofs.Timestamp.Rendering
import JsonTypedef.Proofs.Timestamp.Order
import JsonTypedef.Proofs.Timestamp.BareDate
