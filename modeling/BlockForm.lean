import BlockForm.Action
import BlockForm.Code.Builder
import BlockForm.Code.Function
import BlockForm.Code.Handle
import BlockForm.Code.Interning
import BlockForm.Code.LoweredType
import BlockForm.Code.Operation
import BlockForm.Code.Printer
import BlockForm.Code.TypedefLine
import BlockForm.Code.Typing
import BlockForm.Code.Unit
import BlockForm.Code.Value
import BlockForm.Code.Verifier
import BlockForm.Constant
import BlockForm.Diagnostic.Error
import BlockForm.Diagnostic.Event
import BlockForm.Diagnostic.Fault
import BlockForm.Lowering.Construction
import BlockForm.Lowering.Coverage
import BlockForm.Lowering.Expr
import BlockForm.Lowering.Program
import BlockForm.Lowering.State
import BlockForm.Lowering.Statement
import BlockForm.Lowering.Types
import BlockForm.Manifest.Basic
import BlockForm.Manifest.Document
import BlockForm.Manifest.Folder
import BlockForm.Manifest.Number
import BlockForm.Manifest.Quoting
import BlockForm.Manifest.Reader
import BlockForm.Manifest.Scan
import BlockForm.Manifest.Text
import BlockForm.Number.Binary64
import BlockForm.Number.Shortest
import BlockForm.Proofs.Action
import BlockForm.Proofs.Bodies
import BlockForm.Proofs.Branching
import BlockForm.Proofs.Builder
import BlockForm.Proofs.Coherence
import BlockForm.Proofs.Dominance
import BlockForm.Proofs.Evaluation
import BlockForm.Proofs.ExpressionMeaning
import BlockForm.Proofs.Expressions
import BlockForm.Proofs.FunctionMeaning
import BlockForm.Proofs.Growth
import BlockForm.Proofs.Interning
import BlockForm.Proofs.Layout
import BlockForm.Proofs.Machine
import BlockForm.Proofs.Memory
import BlockForm.Proofs.Plain
import BlockForm.Proofs.PlainLowering
import BlockForm.Proofs.Program
import BlockForm.Proofs.ProgramMeaning
import BlockForm.Proofs.Region
import BlockForm.Proofs.Simulation
import BlockForm.Proofs.Soundness
import BlockForm.Proofs.StatementMeaning
import BlockForm.Proofs.Statements
import BlockForm.Proofs.Trace
import BlockForm.Proofs.Typing
import BlockForm.Proofs.Verified
import BlockForm.Proofs.WellTyped
import BlockForm.Span
import BlockForm.Surface.Expr
import BlockForm.Surface.Module
import BlockForm.Surface.NodeKind
import BlockForm.Surface.Symbols
import BlockForm.Table
import BlockForm.Text.Blank
import BlockForm.Text.Cut
import BlockForm.Text.Extender
import BlockForm.Text.Fingerprint
import BlockForm.Text.Quoted
import BlockForm.Text.Unprintable
import BlockForm.Type.Basic
import BlockForm.Type.Elementary
import BlockForm.Type.Key
import BlockForm.Type.Shape
import BlockForm.Proofs.Keys
import BlockForm.Proofs.Sizes
import BlockForm.Proofs.Shapes
import BlockForm.Proofs.Correspondence
import BlockForm.Proofs.Embedding
import BlockForm.Proofs.Echo
import BlockForm.Proofs.Mirror
import BlockForm.Proofs.MirrorLowering
import BlockForm.Proofs.ItemOrder
import BlockForm.Proofs.Registry
import BlockForm.Proofs.Representation
import BlockForm.Proofs.ControlFlow
import BlockForm.Proofs.Completion
import BlockForm.Proofs.ElementaryPrograms
import BlockForm.Proofs.ElementaryBodies
import BlockForm.Proofs.Progress
import BlockForm.Proofs.Rejection
import BlockForm.Proofs.Isolation
import BlockForm.Proofs.Atomicity
import BlockForm.Proofs.Catalogue
import BlockForm.Proofs.Primitives
import BlockForm.Proofs.Acyclicity
import BlockForm.Proofs.ByValue
import BlockForm.Proofs.Effects
import BlockForm.Proofs.ConstantTypes
import BlockForm.Proofs.Literals
import BlockForm.Proofs.Dispatch
import BlockForm.Proofs.Renaming
import BlockForm.Proofs.LocalNames
import BlockForm.Proofs.Deduplication
import BlockForm.Proofs.Comparisons
import BlockForm.Proofs.Listing
import BlockForm.Proofs.Construction
import BlockForm.Proofs.Discriminants
import BlockForm.Proofs.TypedefLines
import BlockForm.Proofs.Rules
import BlockForm.Proofs.Straight
import BlockForm.Proofs.Spans
import BlockForm.Proofs.ExpressionRegions
import BlockForm.Proofs.Conventions
import BlockForm.Proofs.ExpressionValues
import BlockForm.Proofs.Calls
import BlockForm.Proofs.ValueRepresentation
import BlockForm.Proofs.AfterReturn
import BlockForm.Proofs.CanonicalLines
import BlockForm.Proofs.Handles
import BlockForm.Proofs.Parameters
import BlockForm.Proofs.Merging
import BlockForm.Proofs.Erasure
import BlockForm.Proofs.Overflow
import BlockForm.Proofs.Numbering
