import Rtl.Build
import Rtl.Circuit
import Rtl.Expr
import Rtl.Expr.Build
import Rtl.Expr.Children
import Rtl.Inline.Assignment
import Rtl.Inline.Candidates
import Rtl.Inline.Loop
import Rtl.Inline.Size
import Rtl.Inline.Substitution
import Rtl.Log
import Rtl.Main
import Rtl.Pass
import Rtl.Pass.Info
import Rtl.Pass.Manager
import Rtl.Pipeline
import Rtl.Proofs.Acyclic
import Rtl.Proofs.Declarations
import Rtl.Proofs.Expansion
import Rtl.Proofs.Leaves
import Rtl.Proofs.Lookup
import Rtl.Proofs.Views
import Rtl.Proofs.Walk
import Rtl.Render
import Rtl.Sample
import Rtl.Stmt
import Rtl.Text.Blank
import Rtl.Text.Lines
import Rtl.Text.Printable
import Rtl.Text.Quoted
import Rtl.Text.Wrapped
import Rtl.Tool
import Rtl.Tool.Diff
import Rtl.Tool.Files
import Rtl.Tool.Options
import Rtl.Ty
import Rtl.Vacuous
import Rtl.Vacuous.Removal
import Rtl.Validity
import Rtl.Proofs.InlineMeaning
import Rtl.Proofs.Replacement
import Rtl.Proofs.NormalForm
import Rtl.Proofs.VacuousValidity
import Rtl.Proofs.Size
import Rtl.Proofs.InlineComplete
import Rtl.Proofs.Remnants
import Rtl.Proofs.PipelineNormal
import Rtl.Proofs.Validity
import Rtl.Proofs.InlineValidity
import Rtl.Proofs.VacuousReads
import Rtl.Proofs.Removal
import Rtl.Proofs.Placeholders
import Rtl.Proofs.Grounded
import Rtl.Proofs.VacuousMeaning
import Rtl.Proofs.ManagerHistory
import Rtl.Proofs.PipelineRuns
import Rtl.Proofs.VacuousUses
import Rtl.Proofs.InlineRefs
import Rtl.Proofs.Workers
import Rtl.Proofs.Flattening
import Rtl.Proofs.CandidateConditions
import Rtl.Proofs.Growth
import Rtl.Proofs.Reports
import Rtl.Proofs.FixedPoints
import Rtl.Proofs.VacuousNodes
import Rtl.Proofs.TableOrder
import Rtl.Proofs.Termination
import Rtl.Proofs.PlainSubstitution
import Rtl.Proofs.Brackets
import Rtl.Proofs.Building
import Rtl.Proofs.LoopSearch
import Rtl.Proofs.Traversal
import Rtl.Proofs.TypeText
import Rtl.Proofs.Readability
import Rtl.Proofs.Mapping
