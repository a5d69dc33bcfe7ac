import ConfigEdit.Command.Arguments
import ConfigEdit.Command.Run
import ConfigEdit.Digest.Sha256
import ConfigEdit.Discover.Find
import ConfigEdit.Document.Parse
import ConfigEdit.Document.Print
import ConfigEdit.Document.Tree
import ConfigEdit.Edit.Call
import ConfigEdit.Edit.Document
import ConfigEdit.Edit.Error
import ConfigEdit.Edit.Literal
import ConfigEdit.Edit.Merge
import ConfigEdit.Edit.Read
import ConfigEdit.Edit.Remove
import ConfigEdit.Edit.Root
import ConfigEdit.Files.Path
import ConfigEdit.Files.Tree
import ConfigEdit.Glob.Match
import ConfigEdit.Glob.Pattern
import ConfigEdit.Json.Merge
import ConfigEdit.Json.Print
import ConfigEdit.Json.Read
import ConfigEdit.Json.Value
import ConfigEdit.Main
import ConfigEdit.Number.Basic
import ConfigEdit.Number.Binary64
import ConfigEdit.Number.Decimal
import ConfigEdit.Number.Literal
import ConfigEdit.Number.Shortest
import ConfigEdit.Patch.Assignment
import ConfigEdit.Patch.Path
import ConfigEdit.Patch.Source
import ConfigEdit.Patch.Value
import ConfigEdit.Proofs.Scan.Places
import ConfigEdit.Proofs.Scan.Tokens
import ConfigEdit.Proofs.Scan.Trivia
import ConfigEdit.Scan.Arguments
import ConfigEdit.Scan.Cursor
import ConfigEdit.Scan.Expression
import ConfigEdit.Scan.Fault
import ConfigEdit.Scan.Identifier
import ConfigEdit.Scan.String
import ConfigEdit.Scan.Trivia
import ConfigEdit.Settings.Accessors
import ConfigEdit.Settings.Check
import ConfigEdit.Settings.Effective
import ConfigEdit.Settings.Layer
import ConfigEdit.Text.Basic
import ConfigEdit.Text.Blank
import ConfigEdit.Text.Digits
import ConfigEdit.Text.Entries
import ConfigEdit.Text.Identifier
import ConfigEdit.Text.Line
import ConfigEdit.Text.Numeral
import ConfigEdit.Text.Quoted
import ConfigEdit.Text.Utf8
import ConfigEdit.Toml.Blank
import ConfigEdit.Toml.Datetime
import ConfigEdit.Toml.Quoted
import ConfigEdit.Toml.Read
import ConfigEdit.Toml.Scalar
import ConfigEdit.Toml.Table
import ConfigEdit.Proofs.Document.Grammar
import ConfigEdit.Proofs.Document.Layout
import ConfigEdit.Proofs.Document.Lossless
import ConfigEdit.Proofs.Edit.Frame
import ConfigEdit.Proofs.Document.Recognition
import ConfigEdit.Proofs.Document.Relocation
import ConfigEdit.Proofs.Document.Leaves
import ConfigEdit.Proofs.Document.Printable
import ConfigEdit.Proofs.Document.Reprint
import ConfigEdit.Proofs.Document.Segments
import ConfigEdit.Proofs.Document.Sourced
import ConfigEdit.Proofs.Edit.Calls
import ConfigEdit.Proofs.Edit.Canonical
import ConfigEdit.Proofs.Edit.Overlay
import ConfigEdit.Proofs.Edit.Removal
import ConfigEdit.Proofs.Edit.Overwrite
import ConfigEdit.Proofs.Edit.Deletion
import ConfigEdit.Proofs.Edit.Endings
import ConfigEdit.Proofs.Edit.Insertion
import ConfigEdit.Proofs.Edit.Restoring
import ConfigEdit.Proofs.Edit.Walk
import ConfigEdit.Proofs.Edit.MergedMembers
import ConfigEdit.Proofs.Patch.Combining
import ConfigEdit.Proofs.Edit.MergeEquations
import ConfigEdit.Proofs.Edit.Composition
import ConfigEdit.Proofs.Files.Storing
import ConfigEdit.Proofs.Command.Reading
import ConfigEdit.Proofs.Command.WriteSwitch
import ConfigEdit.Proofs.Command.Effects
import ConfigEdit.Proofs.Scan.Paths
import ConfigEdit.Proofs.Text.Decimals
import ConfigEdit.Proofs.Number.Rounding
import ConfigEdit.Proofs.Number.Reading
import ConfigEdit.Proofs.Document.Arguments
import ConfigEdit.Proofs.Document.Settling
import ConfigEdit.Proofs.Edit.CallParts
import ConfigEdit.Proofs.Edit.CallText
import ConfigEdit.Proofs.Edit.Rejection
import ConfigEdit.Proofs.Edit.Rebuilding
import ConfigEdit.Proofs.Edit.BuiltReading
import ConfigEdit.Proofs.Document.Partition
import ConfigEdit.Proofs.Document.Preamble
import ConfigEdit.Proofs.Document.Fallback
import ConfigEdit.Proofs.Text.Rebreaking
import ConfigEdit.Proofs.Scan.Rebreaking
import ConfigEdit.Proofs.Document.Rebreaking
import ConfigEdit.Proofs.Edit.LineBreaks
import ConfigEdit.Proofs.Document.Sites
import ConfigEdit.Proofs.Bytewise.Safety
import ConfigEdit.Proofs.Edit.OneLine
import ConfigEdit.Proofs.Bytewise.Literals
import ConfigEdit.Proofs.Text.Escapes
import ConfigEdit.Proofs.Outcome
import ConfigEdit.Proofs.Number.Integers
import ConfigEdit.Proofs.Patch.Assembly
import ConfigEdit.Proofs.Patch.Conversion
import ConfigEdit.Proofs.Patch.PathUpdate
import ConfigEdit.Proofs.Json.Layers
import ConfigEdit.Proofs.Settings.Loading
import ConfigEdit.Proofs.Settings.Layering
import ConfigEdit.Proofs.Discover.Search
import ConfigEdit.Proofs.Scan.Brackets
