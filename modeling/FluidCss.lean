import FluidCss.Clamp
import FluidCss.CommandLine.Arguments
import FluidCss.CommandLine.Outcome
import FluidCss.Component.Basic
import FluidCss.Component.Fault
import FluidCss.Component.Name
import FluidCss.Component.Scan
import FluidCss.Component.Token
import FluidCss.Config.File
import FluidCss.Config.Options
import FluidCss.Config.Value
import FluidCss.Config.Yaml.Cursor
import FluidCss.Config.Yaml.Mark
import FluidCss.Config.Yaml.Node
import FluidCss.Config.Yaml.Scalar
import FluidCss.Config.Yaml.Spelling
import FluidCss.Error
import FluidCss.Files
import FluidCss.Inline
import FluidCss.Length
import FluidCss.Main
import FluidCss.Number.Basic
import FluidCss.Number.Double
import FluidCss.Number.Fixed
import FluidCss.Number.Numeral
import FluidCss.Number.Shortest
import FluidCss.Ordered
import FluidCss.Param.Extract
import FluidCss.Param.Symbol
import FluidCss.Param.Value
import FluidCss.Proofs.Clamp.Division
import FluidCss.Proofs.Clamp.Failure
import FluidCss.Proofs.Clamp.Integer
import FluidCss.Proofs.Clamp.Order
import FluidCss.Proofs.Clamp.Part
import FluidCss.Proofs.Clamp.Rem
import FluidCss.Proofs.Clamp.Shape
import FluidCss.Proofs.Clamp.Sign
import FluidCss.Proofs.Clamp.Text
import FluidCss.Proofs.CommandLine.Delivery
import FluidCss.Proofs.Component.Clean
import FluidCss.Proofs.Component.Cutoff
import FluidCss.Proofs.Component.Length
import FluidCss.Proofs.Component.Local
import FluidCss.Proofs.Component.Part
import FluidCss.Proofs.Component.Piece
import FluidCss.Proofs.Component.Renaming
import FluidCss.Proofs.Component.Shape
import FluidCss.Proofs.Component.Source
import FluidCss.Proofs.Component.Spelling
import FluidCss.Proofs.Component.Stop
import FluidCss.Proofs.Component.Tiling
import FluidCss.Proofs.Config.Settings
import FluidCss.Proofs.Files
import FluidCss.Proofs.Inline.Call
import FluidCss.Proofs.Inline.Entry
import FluidCss.Proofs.Inline.Rewriting
import FluidCss.Proofs.Number.Bound
import FluidCss.Proofs.Number.Decimal
import FluidCss.Proofs.Number.Nearest
import FluidCss.Proofs.Number.Numeral
import FluidCss.Proofs.Number.Places
import FluidCss.Proofs.Number.Prolonged
import FluidCss.Proofs.Number.Rounding
import FluidCss.Proofs.Ordered
import FluidCss.Proofs.Param.Balance
import FluidCss.Proofs.Param.CallName
import FluidCss.Proofs.Param.Grammar
import FluidCss.Proofs.Param.Key
import FluidCss.Proofs.Param.Nesting
import FluidCss.Proofs.Param.Parsing
import FluidCss.Proofs.Param.Reading
import FluidCss.Proofs.Param.Spacing
import FluidCss.Proofs.Param.Symbol
import FluidCss.Proofs.Param.Unit
import FluidCss.Proofs.Param.Unknown
import FluidCss.Proofs.Param.Written
import FluidCss.Proofs.Result
import FluidCss.Proofs.Run.Agreement
import FluidCss.Proofs.Run.Computed
import FluidCss.Proofs.Run.Dispatch
import FluidCss.Proofs.Run.Escape
import FluidCss.Proofs.Run.Exchange
import FluidCss.Proofs.Run.Failure
import FluidCss.Proofs.Run.Invariant
import FluidCss.Proofs.Run.Item
import FluidCss.Proofs.Run.Published
import FluidCss.Proofs.Run.Refinement
import FluidCss.Proofs.Run.Repeated
import FluidCss.Proofs.Run.Seeded
import FluidCss.Proofs.Run.Session
import FluidCss.Proofs.Run.Settled
import FluidCss.Proofs.Run.Specificity
import FluidCss.Proofs.Run.Standing
import FluidCss.Proofs.Run.Visit
import FluidCss.Proofs.Scale.Couple
import FluidCss.Proofs.Scale.Cross
import FluidCss.Proofs.Scale.Definition
import FluidCss.Proofs.Scale.Label
import FluidCss.Proofs.Sheet.Branch
import FluidCss.Proofs.Sheet.Call
import FluidCss.Proofs.Sheet.Division
import FluidCss.Proofs.Sheet.Edit
import FluidCss.Proofs.Sheet.Extent
import FluidCss.Proofs.Sheet.Fault
import FluidCss.Proofs.Sheet.Generated
import FluidCss.Proofs.Sheet.Move
import FluidCss.Proofs.Sheet.Reading
import FluidCss.Proofs.Sheet.RoundTrip
import FluidCss.Proofs.Sheet.Segment
import FluidCss.Proofs.Sheet.Stored
import FluidCss.Proofs.Sheet.WellFormed
import FluidCss.Proofs.Sheet.Window
import FluidCss.Proofs.Sheet.Writing
import FluidCss.Proofs.Text.Trim
import FluidCss.Proofs.Utility.Marker
import FluidCss.Registry
import FluidCss.Run.Batch
import FluidCss.Run.Directive
import FluidCss.Run.Fold
import FluidCss.Run.Record
import FluidCss.Run.Step
import FluidCss.Scale.Basic
import FluidCss.Scale.Compile
import FluidCss.Settings
import FluidCss.Sheet.Forest
import FluidCss.Sheet.Node
import FluidCss.Sheet.Split
import FluidCss.Text.Basic
import FluidCss.Text.Blank
import FluidCss.Text.Digit
import FluidCss.Text.Location
import FluidCss.Text.Printable
import FluidCss.Text.Quoted
import FluidCss.Utility.Basic
import FluidCss.Utility.Expand
