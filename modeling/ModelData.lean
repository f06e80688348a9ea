import ModelData.Calendar.Date
import ModelData.Calendar.Moment
import ModelData.Config
import ModelData.Dat.File
import ModelData.Dat.Indent
import ModelData.Dat.Layout
import ModelData.Dat.Literal
import ModelData.Document.Basic
import ModelData.Element.Build
import ModelData.Example
import ModelData.Folder.Basic
import ModelData.Folder.Saving
import ModelData.Identifier.Assignment
import ModelData.Identifier.Basic
import ModelData.Identifier.Counter
import ModelData.Identifier.CounterForm
import ModelData.Json.Quoted
import ModelData.Json.Reader
import ModelData.Json.Writer
import ModelData.Main
import ModelData.Misfit
import ModelData.Number.Binary64
import ModelData.Number.Digits
import ModelData.Number.Literal
import ModelData.Number.Shortest
import ModelData.Record
import ModelData.Report
import ModelData.Sorting.Basic
import ModelData.Sorting.Merge
import ModelData.Sorting.Run
import ModelData.Sorting.Search
import ModelData.Storage
import ModelData.Text.Base64
import ModelData.Text.DecimalDigit
import ModelData.Text.Encoding
import ModelData.Text.Printable
import ModelData.Text.Source
import ModelData.Value.Basic
import ModelData.Value.Depth
import ModelData.Value.Form
import ModelData.Value.Kind
import ModelData.Value.Order
import ModelData.Value.Sort
import ModelData.Value.Table
import ModelData.Value.Text
import ModelData.Yaml.Alias
import ModelData.Yaml.Block
import ModelData.Yaml.Cursor
import ModelData.Yaml.Document
import ModelData.Yaml.Fault
import ModelData.Yaml.Flow
import ModelData.Yaml.Lines
import ModelData.Yaml.Merge
import ModelData.Yaml.Node
import ModelData.Yaml.Plain
import ModelData.Yaml.Plan
import ModelData.Yaml.Reader
import ModelData.Yaml.Scalar
import ModelData.Yaml.Stamp
import ModelData.Yaml.Style
import ModelData.Yaml.Tag
import ModelData.Yaml.Tagged
import ModelData.Yaml.Writer
import ModelData.Proofs.Dat.Bodies
import ModelData.Proofs.Dat.Pieces
import ModelData.Proofs.Dat.Reader
import ModelData.Proofs.Dat.Reading
import ModelData.Proofs.Dat.Spacing
import ModelData.Proofs.Element.Tree
import ModelData.Proofs.Json.Numbers
import ModelData.Proofs.Json.Storage
import ModelData.Proofs.Json.Texts
import ModelData.Proofs.Json.Values
import ModelData.Proofs.Number.Digits
import ModelData.Proofs.Number.Rounding
import ModelData.Proofs.Number.Shortest
import ModelData.Proofs.Number.Spelling
import ModelData.Proofs.Record.Documents
import ModelData.Proofs.Record.Elements
import ModelData.Proofs.Record.Rebuilding
import ModelData.Proofs.Record.Texts
import ModelData.Proofs.Text.Lists
import ModelData.Proofs.Value.Stored
import ModelData.Proofs.Value.Traverse
import ModelData.Proofs.Yaml.Blocks
import ModelData.Proofs.Yaml.Characters
import ModelData.Proofs.Yaml.EscapedTexts
import ModelData.Proofs.Yaml.Nodes
import ModelData.Proofs.Yaml.Numbers
import ModelData.Proofs.Yaml.Places
import ModelData.Proofs.Yaml.PlainTexts
import ModelData.Proofs.Yaml.QuotedTexts
import ModelData.Proofs.Yaml.Scalars
import ModelData.Proofs.Yaml.Storage
import ModelData.Proofs.Yaml.Values
import ModelData.Proofs.Record.Lossless
import ModelData.Proofs.Text.Occurrences
import ModelData.Proofs.Report.Walk
import ModelData.Proofs.Report.Parts
import ModelData.Proofs.Report.Clean
import ModelData.Proofs.Dat.Header
import ModelData.Proofs.Dat.Collapsing
import ModelData.Proofs.Identifier.Names
import ModelData.Proofs.Identifier.Arrays
import ModelData.Proofs.Element.Building
import ModelData.Proofs.Record.Levels
import ModelData.Proofs.Record.Faults
import ModelData.Proofs.Record.Reading
import ModelData.Proofs.Record.Loading
import ModelData.Proofs.Dat.Quoting
import ModelData.Proofs.Dat.FixedPoint
import ModelData.Proofs.Report.Products
import ModelData.Proofs.Value.Settled
import ModelData.Proofs.Record.Decoding
import ModelData.Proofs.Record.Settling
import ModelData.Proofs.Json.Canonical
import ModelData.Proofs.Json.Data
import ModelData.Proofs.Number.Nearest
import ModelData.Proofs.Record.Rearranging
import ModelData.Proofs.Identifier.Grammar
import ModelData.Proofs.Dat.Lines
import ModelData.Proofs.Dat.Members
import ModelData.Proofs.Element.Accepting
import ModelData.Proofs.Report.Counting
import ModelData.Proofs.Report.Extents
import ModelData.Proofs.Report.Visits
import ModelData.Proofs.Report.Listing
import ModelData.Proofs.Sorting.Permutation
import ModelData.Proofs.Report.Repeats
import ModelData.Proofs.Report.Naming
import ModelData.Proofs.Report.Sizes
import ModelData.Proofs.Identifier.Calls
import ModelData.Proofs.Identifier.Counters
import ModelData.Proofs.Record.Characters
import ModelData.Proofs.Dat.Foreign
import ModelData.Proofs.Report.Paths
import ModelData.Proofs.Config.Settings
import ModelData.Proofs.Folder.Saving
import ModelData.Proofs.Yaml.Codes
import ModelData.Proofs.Yaml.Valueless
import ModelData.Proofs.Config.Texts
