import QueryCompiler.Text.Basic
import QueryCompiler.Text.Block
import QueryCompiler.Text.Quoted
import QueryCompiler.Parser
import QueryCompiler.Json.Printer
import QueryCompiler.Json.Reader
import QueryCompiler.Options
import QueryCompiler.Source.Reader
import QueryCompiler.Document.Parser
import QueryCompiler.Document.Printer
import QueryCompiler.Document.Typename
import QueryCompiler.Document.Value
import QueryCompiler.Schema.Definitions
import QueryCompiler.Schema.Edit
import QueryCompiler.Schema.Introspection
import QueryCompiler.Typed.Resolve
import QueryCompiler.Typed.Fragments
import QueryCompiler.Typed.TypeCase
import QueryCompiler.Lowered.Report
import QueryCompiler.Lowered.Serial
import QueryCompiler.Digest.Sha256
import QueryCompiler.OrderedMap
import QueryCompiler.Number.SixDigits
import QueryCompiler.Proofs.TypeCase.Merge
import QueryCompiler.Proofs.TypeCase.Records
import QueryCompiler.Proofs.TypeCase.Fields
import QueryCompiler.Proofs.TypeCase.Insides
import QueryCompiler.Proofs.TypeCase.Conditions
import QueryCompiler.Proofs.TypeCase.Coarsest
import QueryCompiler.Proofs.Lowered.Reading
import QueryCompiler.Proofs.Typed.Meaning
import QueryCompiler.Proofs.Typed.Resolved
import QueryCompiler.Proofs.Typed.Steps
import QueryCompiler.Proofs.Typed.Programs
import QueryCompiler.Proofs.Number.Literals
import QueryCompiler.Proofs.Number.Grammar
import QueryCompiler.Proofs.Text.Grammar
import QueryCompiler.Proofs.Source.Lexing
import QueryCompiler.Proofs.Document.Spelling
import QueryCompiler.Proofs.Source.Reading
import QueryCompiler.Proofs.Source.Splitting
import QueryCompiler.Proofs.Document.Accepted
import QueryCompiler.Proofs.Document.Readable
import QueryCompiler.Proofs.Document.Printed
import QueryCompiler.Proofs.Document.Reprint
import QueryCompiler.Proofs.Typed.Places
import QueryCompiler.Proofs.Lowered.Formatting
import QueryCompiler.Proofs.Typed.Closure
import QueryCompiler.Proofs.Typed.Guards
import QueryCompiler.Proofs.Typed.Rules
import QueryCompiler.Proofs.Typed.Spreads
import QueryCompiler.Proofs.Lowered.Assembled
import QueryCompiler.Proofs.Lowered.SelfContained
import QueryCompiler.Proofs.Typed.Offers
import QueryCompiler.Proofs.Lowered.Presence
import QueryCompiler.Proofs.Document.SpreadGraph
import QueryCompiler.Proofs.Typed.Requests
import QueryCompiler.Proofs.Typed.Cycles
import QueryCompiler.Proofs.Lowered.Referenced
import QueryCompiler.Proofs.Lowered.Mentions
import QueryCompiler.Proofs.Typed.Chains
import QueryCompiler.Proofs.Typed.Follow
import QueryCompiler.Proofs.Typed.Reorder
import QueryCompiler.Proofs.Lowered.Reordered
import QueryCompiler.Proofs.Lowered.Depth
import QueryCompiler.Proofs.Document.Typenames
import QueryCompiler.Proofs.Document.Grammar
import QueryCompiler.Proofs.Document.Numbers
import QueryCompiler.Proofs.Lowered.Failures
import QueryCompiler.Proofs.Lowered.Within
import QueryCompiler.Proofs.Typed.Made
import QueryCompiler.Proofs.Lowered.Distinct
import QueryCompiler.Proofs.Json.Members
import QueryCompiler.Proofs.Typed.Used
import QueryCompiler.Proofs.Lowered.Decoding
import QueryCompiler.Proofs.Lowered.Lossless
import QueryCompiler.Proofs.Lowered.Manifest
import QueryCompiler.Proofs.Schema.Written
import QueryCompiler.Proofs.Schema.Printed
import QueryCompiler.Proofs.Schema.Readable
import QueryCompiler.Proofs.Schema.Introspected
import QueryCompiler.Proofs.Schema.Loaders
import QueryCompiler.Proofs.Document.Nesting
import QueryCompiler.Proofs.Lowered.Unlimited
import QueryCompiler.Proofs.Document.Significant
import QueryCompiler.Proofs.Schema.Closed
import QueryCompiler.Proofs.Schema.Roots
import QueryCompiler.Proofs.Document.Canonical
import QueryCompiler.Proofs.Typed.Marking
import QueryCompiler.Proofs.Typed.Asked
import QueryCompiler.Proofs.Schema.Validations
import QueryCompiler.Proofs.Schema.Contained
import QueryCompiler.Proofs.TypeCase.Layers
import QueryCompiler.Proofs.Lowered.Shape
import QueryCompiler.Proofs.Text.Blocks
import QueryCompiler.Proofs.Source.Layout
import QueryCompiler.Proofs.Document.Concat
import QueryCompiler.Proofs.Options
import QueryCompiler.Proofs.Document.Strings
import QueryCompiler.Proofs.IndexedMap
import QueryCompiler.Proofs.Source.Cursor
import QueryCompiler.Proofs.Source.Octets
import QueryCompiler.Proofs.Source.Places
import QueryCompiler.Proofs.Source.Ahead
import QueryCompiler.Proofs.Document.Octets
import QueryCompiler.Proofs.Document.Offsets
