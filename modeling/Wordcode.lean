import Wordcode.Artifact
import Wordcode.Artifact.Binary
import Wordcode.Assembly
import Wordcode.Assoc
import Wordcode.Builtin
import Wordcode.Cbor
import Wordcode.Code
import Wordcode.Command
import Wordcode.Command.Flags
import Wordcode.Command.Settings
import Wordcode.Command.Subcommand
import Wordcode.Command.Trace
import Wordcode.Datum
import Wordcode.Decimal.Binary
import Wordcode.Decimal.Digits
import Wordcode.Decimal.Reader
import Wordcode.Dict
import Wordcode.Disassembly
import Wordcode.Document
import Wordcode.Elementary
import Wordcode.Fault
import Wordcode.Files
import Wordcode.Listing
import Wordcode.Machine
import Wordcode.Machine.Binding
import Wordcode.Machine.BuiltinCall
import Wordcode.Machine.Frame
import Wordcode.Machine.Iteration
import Wordcode.Machine.MethodCall
import Wordcode.Machine.Observer
import Wordcode.Machine.Stack
import Wordcode.Machine.World
import Wordcode.Main
import Wordcode.Method
import Wordcode.Opcode
import Wordcode.Paint
import Wordcode.Proofs.Activations
import Wordcode.Proofs.Admission
import Wordcode.Proofs.Artifacts
import Wordcode.Proofs.Assembled
import Wordcode.Proofs.Assembling
import Wordcode.Proofs.Association
import Wordcode.Proofs.Binding
import Wordcode.Proofs.CallForms
import Wordcode.Proofs.Callbacks
import Wordcode.Proofs.Calls
import Wordcode.Proofs.Codecs
import Wordcode.Proofs.ColorSequences
import Wordcode.Proofs.Conversions
import Wordcode.Proofs.Coupling
import Wordcode.Proofs.Custody
import Wordcode.Proofs.Decoding
import Wordcode.Proofs.DictHistories
import Wordcode.Proofs.Dicts
import Wordcode.Proofs.Dispatch
import Wordcode.Proofs.Distribution
import Wordcode.Proofs.Doubles
import Wordcode.Proofs.Encoding
import Wordcode.Proofs.Equality
import Wordcode.Proofs.Events
import Wordcode.Proofs.Exhaustion
import Wordcode.Proofs.Extremes
import Wordcode.Proofs.FailedUpdates
import Wordcode.Proofs.Finality
import Wordcode.Proofs.FloatConstants
import Wordcode.Proofs.Formatting
import Wordcode.Proofs.Forwarding
import Wordcode.Proofs.Growth
import Wordcode.Proofs.Hashing
import Wordcode.Proofs.Instructions
import Wordcode.Proofs.Integers
import Wordcode.Proofs.Interception
import Wordcode.Proofs.Interning
import Wordcode.Proofs.Isolation
import Wordcode.Proofs.Items
import Wordcode.Proofs.Iterators
import Wordcode.Proofs.KeyFunctions
import Wordcode.Proofs.KeyIteration
import Wordcode.Proofs.Keywords
import Wordcode.Proofs.KnownData
import Wordcode.Proofs.Layout
import Wordcode.Proofs.LazyIterators
import Wordcode.Proofs.LeastLayout
import Wordcode.Proofs.Ledger
import Wordcode.Proofs.Lines
import Wordcode.Proofs.Literals
import Wordcode.Proofs.Locality
import Wordcode.Proofs.Mappings
import Wordcode.Proofs.Meaning
import Wordcode.Proofs.Merging
import Wordcode.Proofs.Mistakes
import Wordcode.Proofs.Nesting
import Wordcode.Proofs.Numerals
import Wordcode.Proofs.Observation
import Wordcode.Proofs.Occurrences
import Wordcode.Proofs.Operands
import Wordcode.Proofs.Order
import Wordcode.Proofs.Parameters
import Wordcode.Proofs.Partition
import Wordcode.Proofs.Positions
import Wordcode.Proofs.Prefixes
import Wordcode.Proofs.Preservation
import Wordcode.Proofs.Progressions
import Wordcode.Proofs.Ranges
import Wordcode.Proofs.Records
import Wordcode.Proofs.Reentry
import Wordcode.Proofs.Refusal
import Wordcode.Proofs.Requests
import Wordcode.Proofs.Routines
import Wordcode.Proofs.Sampling
import Wordcode.Proofs.Scripts
import Wordcode.Proofs.Separators
import Wordcode.Proofs.Sequence
import Wordcode.Proofs.Sessions
import Wordcode.Proofs.SliceUpdates
import Wordcode.Proofs.Slices
import Wordcode.Proofs.Sorting
import Wordcode.Proofs.Sources
import Wordcode.Proofs.StableSort
import Wordcode.Proofs.StackDiscipline
import Wordcode.Proofs.Tables
import Wordcode.Proofs.Tallies
import Wordcode.Proofs.TrackedOperations
import Wordcode.Proofs.TrackedRuns
import Wordcode.Proofs.Tracking
import Wordcode.Proofs.Unambiguity
import Wordcode.Proofs.Untraced
import Wordcode.Proofs.Validation
import Wordcode.Proofs.WellFormed
import Wordcode.Range
import Wordcode.Sort
import Wordcode.Source
import Wordcode.Store
import Wordcode.Store.Arithmetic
import Wordcode.Store.Convert
import Wordcode.Store.Dict
import Wordcode.Store.Equality
import Wordcode.Store.Format
import Wordcode.Store.Repr
import Wordcode.Store.Slice
import Wordcode.Store.Subscript
import Wordcode.Table
import Wordcode.Text.Blank
import Wordcode.Text.LetterCase
import Wordcode.Text.Octets
import Wordcode.Text.Printable
import Wordcode.Text.Quoted
import Wordcode.Text.Search
import Wordcode.Value
import Wordcode.Word
import Wordcode.Yaml.Cursor
import Wordcode.Yaml.Decode
import Wordcode.Yaml.Input
import Wordcode.Yaml.Node
import Wordcode.Yaml.Scalar
import Wordcode.Yaml.ScalarText
import Wordcode.Yaml.Timestamp
import Wordcode.Yaml.Token
