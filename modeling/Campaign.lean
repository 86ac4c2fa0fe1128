import Campaign.Brace.Close
import Campaign.Brace.Split
import Campaign.Command.Arguments
import Campaign.Command.Run
import Campaign.Json.Basic
import Campaign.Json.Printer
import Campaign.Json.Reader
import Campaign.Main
import Campaign.Number.Decimal
import Campaign.Number.Shortest
import Campaign.Random.ChaCha
import Campaign.Random.Source
import Campaign.Risk.Fleet
import Campaign.Risk.Record
import Campaign.Risk.Score
import Campaign.Settings.Basic
import Campaign.Settings.Environment
import Campaign.Settings.File
import Campaign.Settings.Log
import Campaign.Settings.Reader
import Campaign.Template.Basic
import Campaign.Template.Block
import Campaign.Template.Count
import Campaign.Template.Expansion
import Campaign.Template.Fold
import Campaign.Template.Layout
import Campaign.Template.Sample
import Campaign.Text.Blank
import Campaign.Text.Bytes
import Campaign.Text.Pieces
import Campaign.Toml.Basic
import Campaign.Toml.Reader
import Campaign.Toml.Scalar
import Campaign.Toml.Text
import Campaign.Proofs.Brace.Matching
import Campaign.Proofs.Count.Scanning
import Campaign.Proofs.Expansion.Enumeration
import Campaign.Proofs.Layout.Arena
import Campaign.Proofs.Layout.Tiling
import Campaign.Proofs.Number.Rounding
import Campaign.Proofs.Number.Mantissa
import Campaign.Proofs.Number.Packing
import Campaign.Proofs.Random.Words
import Campaign.Proofs.Sample.Draws
import Campaign.Proofs.Sample.Reachability
import Campaign.Proofs.Sample.Residue
import Campaign.Proofs.Sample.Resuming
import Campaign.Proofs.Sample.Rewriting
import Campaign.Proofs.Template.Depth
import Campaign.Proofs.Template.Residue
import Campaign.Proofs.Template.Sections
import Campaign.Proofs.Template.Splitting
import Campaign.Proofs.Template.Replacing
import Campaign.Proofs.Template.Nesting
import Campaign.Proofs.Block.Segmentation
import Campaign.Proofs.Layout.Subtrees
import Campaign.Proofs.Layout.Inert
import Campaign.Proofs.Template.Literals
import Campaign.Proofs.Expansion.NormalForm
import Campaign.Proofs.Template.Concatenation
import Campaign.Proofs.Template.Enclosed
import Campaign.Proofs.Fold.RoundTrip
import Campaign.Proofs.Fold.Alternation
import Campaign.Proofs.Fold.Unfolding
import Campaign.Proofs.Fleet.Gate
import Campaign.Proofs.Fleet.Locality
import Campaign.Proofs.Number.Arithmetic
import Campaign.Proofs.Number.Value
import Campaign.Proofs.Number.Order
import Campaign.Proofs.Fleet.Pacing
import Campaign.Proofs.Brace.Stack
import Campaign.Proofs.Settings.Overriding
import Campaign.Proofs.Command.Operands
import Campaign.Proofs.Sample.Settling
import Campaign.Proofs.Command.Outcome
import Campaign.Proofs.Brace.Grammar
import Campaign.Proofs.Text.Slices
import Campaign.Proofs.Brace.Cuts
import Campaign.Proofs.Brace.Ranges
import Campaign.Proofs.Layout.Parsing
import Campaign.Proofs.Layout.Visiting
import Campaign.Proofs.Layout.Traversals
import Campaign.Proofs.Layout.Access
import Campaign.Proofs.Fleet.Dependence
import Campaign.Proofs.Fleet.Fading
import Campaign.Proofs.Fleet.Overload
import Campaign.Proofs.Settings.Delays
