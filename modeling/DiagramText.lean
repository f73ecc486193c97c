import DiagramText.Main
import DiagramText.Report
import DiagramText.Tree.Place
import DiagramText.Tree.Arena
import DiagramText.Tree.Visitor
import DiagramText.Proofs.Braces
import DiagramText.Proofs.Derivation
import DiagramText.Proofs.Reading
import DiagramText.Proofs.Nesting
import DiagramText.Proofs.Layout
import DiagramText.Proofs.Building
import DiagramText.Proofs.Lossless
import DiagramText.Proofs.Schema
import DiagramText.Proofs.Accounting
import DiagramText.Proofs.Balance
import DiagramText.Proofs.Endpoints
import DiagramText.Proofs.Entries
import DiagramText.Proofs.Mentions
import DiagramText.Proofs.Reach
import DiagramText.Proofs.Widths
import DiagramText.Proofs.WalkOrder
import DiagramText.Proofs.Shapes
import DiagramText.Proofs.Edges
import DiagramText.Proofs.Continuation
import DiagramText.Proofs.Relabelling
import DiagramText.Proofs.Lines
import DiagramText.Proofs.Locality
import DiagramText.Proofs.Rendering
import DiagramText.Proofs.Rereading
import DiagramText.Proofs.RoundTrip
import DiagramText.Proofs.EdgeOrder
import DiagramText.Proofs.Switches
import DiagramText.Proofs.CacheHistory
import DiagramText.Proofs.Ascent
import DiagramText.Proofs.DiagnosticOrder
import DiagramText.Proofs.EditedGrammar
import DiagramText.Proofs.LetterCase
import DiagramText.Proofs.Terminators
import DiagramText.Proofs.Comments
import DiagramText.Proofs.CarriageReturns
import DiagramText.Proofs.EditedReading
import DiagramText.Proofs.EditedAnalysis
import DiagramText.Proofs.Guards
import DiagramText.Proofs.Isolation
import DiagramText.Proofs.IntegerRules
import DiagramText.Proofs.ColorKeys
import DiagramText.Proofs.Interning
import DiagramText.Proofs.LineEndings
import DiagramText.Proofs.Counter
import DiagramText.Proofs.Listings
import DiagramText.Proofs.Severities
import DiagramText.Proofs.Delivery
import DiagramText.Proofs.BareWords
import DiagramText.Proofs.EntryLines
import DiagramText.Proofs.Maps
import DiagramText.Proofs.Faults
import DiagramText.Proofs.Pipes
import DiagramText.Proofs.BlockLiterals
import DiagramText.Proofs.DiagnosticLines
import DiagramText.Proofs.QuotedLiterals
import DiagramText.Proofs.Escapes
import DiagramText.Proofs.Splitting
import DiagramText.Proofs.Construction
import DiagramText.Proofs.ChainLengths
import DiagramText.Proofs.Classification
import DiagramText.Proofs.ChainEdges
import DiagramText.Proofs.Assignments
import DiagramText.Proofs.SharedIds
import DiagramText.Proofs.PathJoining
import DiagramText.Proofs.Columns
import DiagramText.Proofs.Numbering
import DiagramText.Proofs.Walks
import DiagramText.Proofs.Navigation
import DiagramText.Proofs.Tightness
