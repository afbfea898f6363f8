import FieldSchema.Declaration.Builder
import FieldSchema.Documentation.Assembly
import FieldSchema.Session
import FieldSchema.Main
import FieldSchema.Proofs.WellFormed
import FieldSchema.Proofs.Agreement
import FieldSchema.Proofs.Binding
import FieldSchema.Proofs.Checks
import FieldSchema.Proofs.Validators
import FieldSchema.Proofs.Verdicts
import FieldSchema.Proofs.Places
import FieldSchema.Proofs.Acceptance
import FieldSchema.Proofs.Publishing
import FieldSchema.Proofs.Deletion
import FieldSchema.Proofs.Enforcement
import FieldSchema.Proofs.RequestBodies
import FieldSchema.Proofs.FailedCalls
import FieldSchema.Proofs.Inlining
import FieldSchema.Proofs.Freezing
import FieldSchema.Proofs.Independence
import FieldSchema.Proofs.Snapshots
import FieldSchema.Proofs.BindingHistory
import FieldSchema.Proofs.UnknownMembers
import FieldSchema.Proofs.RuleOptions
import FieldSchema.Proofs.ReaderOptions
import FieldSchema.Proofs.Positions
import FieldSchema.Proofs.DeclaredOrder
import FieldSchema.Proofs.DefectPaths
import FieldSchema.Proofs.DottedPaths
import FieldSchema.Proofs.Grammar
import FieldSchema.Proofs.CutShort
import FieldSchema.Proofs.Recovery
import FieldSchema.Proofs.Publishable
import FieldSchema.Proofs.Routes
import FieldSchema.Proofs.Loading
import FieldSchema.Proofs.LineEnds
import FieldSchema.Proofs.Idempotence
import FieldSchema.Proofs.DocumentationForm
import FieldSchema.Proofs.UnknownOptions
import FieldSchema.Proofs.Overriding
import FieldSchema.Proofs.Composition
import FieldSchema.Proofs.RelaxedPublication
import FieldSchema.Proofs.DateDefaults
import FieldSchema.Proofs.Rebuilding
import FieldSchema.Proofs.PathParameters
import FieldSchema.Proofs.PublishedNames
import FieldSchema.Proofs.JsonData
import FieldSchema.Proofs.KeptLiterals
import FieldSchema.Proofs.Headings
import FieldSchema.Proofs.TrailingBlanks
import FieldSchema.Proofs.WrittenSettings
import FieldSchema.Proofs.TakenData
import FieldSchema.Proofs.CommandResults
