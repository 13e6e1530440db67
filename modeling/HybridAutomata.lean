import HybridAutomata.Automaton.Basic
import HybridAutomata.Automaton.Edit
import HybridAutomata.Binding
import HybridAutomata.Component.Basic
import HybridAutomata.Component.Check
import HybridAutomata.Decimal
import HybridAutomata.Expr.Basic
import HybridAutomata.Expr.Operator
import HybridAutomata.Expr.Simplify
import HybridAutomata.Expr.Text
import HybridAutomata.Expr.Traversal
import HybridAutomata.Interval
import HybridAutomata.Model.Basic
import HybridAutomata.Model.Check
import HybridAutomata.ModelError
import HybridAutomata.NameMap
import HybridAutomata.Pass.CopyInstance
import HybridAutomata.Pass.Error
import HybridAutomata.Pass.Execution
import HybridAutomata.Pass.IdentityReset
import HybridAutomata.Pass.Options
import HybridAutomata.Pass.Registry
import HybridAutomata.Pass.Rename
import HybridAutomata.Pass.Requirement
import HybridAutomata.Pass.ShortenModes
import HybridAutomata.Pass.SubstituteConstants
import HybridAutomata.Pass.Workspace
import HybridAutomata.Proofs.Arguments.Grammar
import HybridAutomata.Proofs.Arguments.Spans
import HybridAutomata.Proofs.Automaton.Coherence
import HybridAutomata.Proofs.Change
import HybridAutomata.Proofs.Component.Alike
import HybridAutomata.Proofs.Component.Body
import HybridAutomata.Proofs.Component.Check
import HybridAutomata.Proofs.Component.Equality
import HybridAutomata.Proofs.Component.Rules
import HybridAutomata.Proofs.Component.Violations
import HybridAutomata.Proofs.CopyInstance.Checks
import HybridAutomata.Proofs.CopyInstance.Conditions
import HybridAutomata.Proofs.CopyInstance.Extension
import HybridAutomata.Proofs.CopyInstance.Layout
import HybridAutomata.Proofs.CopyInstance.Placement
import HybridAutomata.Proofs.CopyInstance.Preparation
import HybridAutomata.Proofs.CopyInstance.Renaming
import HybridAutomata.Proofs.CopyInstance.Result
import HybridAutomata.Proofs.CopyInstance.Soundness
import HybridAutomata.Proofs.CopyInstance.Validity
import HybridAutomata.Proofs.Expr.Evaluation
import HybridAutomata.Proofs.Expr.Folding
import HybridAutomata.Proofs.Expr.Meaning
import HybridAutomata.Proofs.Expr.NormalForm
import HybridAutomata.Proofs.Expr.Places
import HybridAutomata.Proofs.Expr.Reading
import HybridAutomata.Proofs.Expr.Substitution
import HybridAutomata.Proofs.Expr.Variables
import HybridAutomata.Proofs.Expr.Written
import HybridAutomata.Proofs.FlatModel.AnyOrder
import HybridAutomata.Proofs.FlatModel.IdentityResets
import HybridAutomata.Proofs.FlatModel.ModeIsomorphism
import HybridAutomata.Proofs.FlatModel.NoConstants
import HybridAutomata.Proofs.FlatModel.Parts
import HybridAutomata.Proofs.FlatModel.ShortModes
import HybridAutomata.Proofs.FlatModel.Successors
import HybridAutomata.Proofs.ForStd.Except
import HybridAutomata.Proofs.ForStd.List
import HybridAutomata.Proofs.ForStd.Option
import HybridAutomata.Proofs.Model.Agreement
import HybridAutomata.Proofs.Model.Assignment
import HybridAutomata.Proofs.Model.Check
import HybridAutomata.Proofs.Model.ConstantValues
import HybridAutomata.Proofs.Model.Copy
import HybridAutomata.Proofs.Model.Literals
import HybridAutomata.Proofs.Model.Names
import HybridAutomata.Proofs.Model.Queries
import HybridAutomata.Proofs.Model.Termination
import HybridAutomata.Proofs.Model.WellFormed
import HybridAutomata.Proofs.NameMap.Lookup
import HybridAutomata.Proofs.NameMap.Rekey
import HybridAutomata.Proofs.NameMap.Related
import HybridAutomata.Proofs.Pass.Atomicity
import HybridAutomata.Proofs.Pass.Course
import HybridAutomata.Proofs.Pass.Outcome
import HybridAutomata.Proofs.Pass.Requirement
import HybridAutomata.Proofs.Pass.Spelling
import HybridAutomata.Proofs.Rename.Choices
import HybridAutomata.Proofs.Rename.Image
import HybridAutomata.Proofs.Rename.Result
import HybridAutomata.Proofs.Rename.Reversal
import HybridAutomata.Proofs.Rename.Validity
import HybridAutomata.Proofs.Scalar.Integer
import HybridAutomata.Proofs.SubstituteConstants.Components
import HybridAutomata.Proofs.SubstituteConstants.Correctness
import HybridAutomata.Proofs.SubstituteConstants.Result
import HybridAutomata.Proofs.SubstituteConstants.Values
import HybridAutomata.Proofs.Text.Dotted
import HybridAutomata.Proofs.Text.Fresh
import HybridAutomata.Proofs.Tree.Agreement
import HybridAutomata.Proofs.Tree.Arena
import HybridAutomata.Proofs.Tree.Blocks
import HybridAutomata.Proofs.Tree.Built
import HybridAutomata.Proofs.Tree.Chain
import HybridAutomata.Proofs.Tree.Check
import HybridAutomata.Proofs.Tree.Climb
import HybridAutomata.Proofs.Tree.Constants
import HybridAutomata.Proofs.Tree.Copy
import HybridAutomata.Proofs.Tree.CopyBelow
import HybridAutomata.Proofs.Tree.CopyInPlace
import HybridAutomata.Proofs.Tree.DottedNames
import HybridAutomata.Proofs.Tree.Equality
import HybridAutomata.Proofs.Tree.Flat
import HybridAutomata.Proofs.Tree.Linked
import HybridAutomata.Proofs.Tree.LiteralBindings
import HybridAutomata.Proofs.Tree.LiteralValues
import HybridAutomata.Proofs.Tree.Literals
import HybridAutomata.Proofs.Tree.Location
import HybridAutomata.Proofs.Tree.Mirror
import HybridAutomata.Proofs.Tree.ModeNames
import HybridAutomata.Proofs.Tree.NameOffences
import HybridAutomata.Proofs.Tree.Operations
import HybridAutomata.Proofs.Tree.Outline
import HybridAutomata.Proofs.Tree.Preorder
import HybridAutomata.Proofs.Tree.QualifiedNames
import HybridAutomata.Proofs.Tree.Relabel
import HybridAutomata.Proofs.Tree.Settling
import HybridAutomata.Proofs.Tree.Shallow
import HybridAutomata.Proofs.Tree.StandIns
import HybridAutomata.Proofs.Tree.Subtree
import HybridAutomata.Proofs.Tree.Variables
import HybridAutomata.Proofs.Tree.Visits
import HybridAutomata.Proofs.Tree.Wired
import HybridAutomata.Proofs.Tree.Wiring
import HybridAutomata.Scalar
import HybridAutomata.Scalar.Double
import HybridAutomata.Settings
import HybridAutomata.Suggest
import HybridAutomata.Text.Names
import HybridAutomata.Text.Quoted
import HybridAutomata.Tree.Basic
import HybridAutomata.Tree.Check
import HybridAutomata.Tree.Copy
import HybridAutomata.Tree.Modes
import HybridAutomata.Tree.Render
import HybridAutomata.Tree.Resolve
import HybridAutomata.Tree.Walk
import HybridAutomata.Violation
