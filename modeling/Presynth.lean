import Presynth.Archive.Binary
import Presynth.Archive.Container
import Presynth.Archive.Payload
import Presynth.Archive.Store
import Presynth.Decimal.Binary
import Presynth.Decimal.Fixed
import Presynth.Decimal.Layout
import Presynth.Decimal.Numeral
import Presynth.Decimal.Shortest
import Presynth.DesignKey
import Presynth.Diagnostic
import Presynth.Digest.Basic
import Presynth.Digest.Words
import Presynth.Estimate.Cost
import Presynth.Estimate.Features
import Presynth.Estimate.Mnemonic
import Presynth.Exchange.Forms
import Presynth.Exchange.Record
import Presynth.Frequency
import Presynth.Json.Basic
import Presynth.Json.Printer
import Presynth.Json.Reader
import Presynth.NameMap
import Presynth.Netlist.Basic
import Presynth.Netlist.Census
import Presynth.Netlist.Drawing
import Presynth.Netlist.Interning
import Presynth.Netlist.Node
import Presynth.Netlist.Width
import Presynth.Operator
import Presynth.Quantity
import Presynth.Run.Basic
import Presynth.Run.Fault
import Presynth.Run.Features
import Presynth.Run.Slack
import Presynth.Run.Vector
import Presynth.Slack.Calibration
import Presynth.Slack.Report
import Presynth.Slack.Summary
import Presynth.Slack.Validation
import Presynth.Storage.Cursor
import Presynth.Storage.Entry
import Presynth.Storage.Fault
import Presynth.Storage.FileTree
import Presynth.Storage.Path
import Presynth.Technology.Basic
import Presynth.Technology.Builtin
import Presynth.Technology.Document
import Presynth.Technology.Error
import Presynth.Technology.Overlay
import Presynth.Text.Blank
import Presynth.Text.Hex
import Presynth.Text.Lines
import Presynth.Text.WordChar
import Presynth.Timing.Boundary
import Presynth.Timing.Delay
import Presynth.Timing.Error
import Presynth.Timing.Scratch
import Presynth.Timing.Sweep
import Presynth.Timing.View
import Presynth.Toml.Basic
import Presynth.Toml.Reader
import Presynth.Toml.Scalar
import Presynth.Proofs.Numbers.CanonicalForm
import Presynth.Proofs.Numbers.RoundedSum
import Presynth.Proofs.Netlist.Numbering
import Presynth.Proofs.Timing.Naming
import Presynth.Proofs.Timing.InternedView
import Presynth.Proofs.Timing.Marks
import Presynth.Proofs.Timing.Region
import Presynth.Proofs.Timing.Front
import Presynth.Proofs.Timing.Sweeping
import Presynth.Proofs.Timing.Trail
import Presynth.Proofs.Timing.Isolation
import Presynth.Proofs.Timing.CheckedQuery
import Presynth.Proofs.Timing.FanIn
import Presynth.Proofs.Timing.Completeness
import Presynth.Proofs.Timing.WorstPath
import Presynth.Proofs.Timing.Relaxation
import Presynth.Proofs.Timing.PathShape
import Presynth.Proofs.Netlist.Resolvable
import Presynth.Proofs.Netlist.WidthInference
import Presynth.Proofs.Netlist.PassCount
import Presynth.Proofs.Timing.Reads
import Presynth.Proofs.Timing.Estimates
import Presynth.Proofs.Timing.Annotation
import Presynth.Proofs.Archive.Codec
import Presynth.Proofs.Archive.Seal
import Presynth.Proofs.Archive.Format
import Presynth.Proofs.Storage.SideBySide
import Presynth.Proofs.Archive.Stored
import Presynth.Proofs.Archive.Damage
import Presynth.Proofs.Timing.Failure
import Presynth.Proofs.Timing.Renumbering
import Presynth.Proofs.Timing.Locality
import Presynth.Proofs.Numbers.NearestEven
import Presynth.Proofs.Text.Encoding
import Presynth.Proofs.Text.Search
import Presynth.Proofs.Text.Words
import Presynth.Proofs.Text.Lines
import Presynth.Proofs.Text.Case
import Presynth.Proofs.Estimate.Token
import Presynth.Proofs.Estimate.Grammar
import Presynth.Proofs.Estimate.Node
import Presynth.Proofs.Estimate.Reference
import Presynth.Proofs.Numbers.Undefined
import Presynth.Proofs.Technology.Overlaid
import Presynth.Proofs.Technology.Accepted
import Presynth.Proofs.Netlist.CompleteWidths
import Presynth.Proofs.Timing.Slices
import Presynth.Proofs.Slack.Aggregation
import Presynth.Proofs.Slack.Agreement
import Presynth.Proofs.Slack.Classes
import Presynth.Proofs.Slack.LineGrammar
import Presynth.Proofs.Slack.ReportLines
import Presynth.Proofs.Timing.Longest
import Presynth.Proofs.Timing.ReportOrder
import Presynth.Proofs.Timing.LongerDelays
import Presynth.Proofs.Timing.EdgeSet
import Presynth.Proofs.Storage.Directories
import Presynth.Proofs.Storage.Confinement
import Presynth.Proofs.Archive.SharedDirectory
import Presynth.Proofs.Run.Analysis
import Presynth.Proofs.Run.Task
import Presynth.Proofs.Run.Calibration
import Presynth.Proofs.Json.NumberText
import Presynth.Proofs.Json.NumberValue
import Presynth.Proofs.Numbers.Finite
import Presynth.Proofs.Run.ReadBack
import Presynth.Proofs.Numbers.Rounding
import Presynth.Proofs.Numbers.BitPattern
import Presynth.Proofs.Numbers.MonotoneArithmetic
import Presynth.Proofs.Numbers.Words
import Presynth.Proofs.Slack.Sample
import Presynth.Proofs.Slack.Percentile
import Presynth.Proofs.Slack.OrderStatistics
import Presynth.Proofs.Slack.SampleSize
import Presynth.Proofs.Run.PowerVector
