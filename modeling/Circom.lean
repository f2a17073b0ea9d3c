import Circom.Algebra.Proofs.DivisionByZero
import Circom.Algebra.Proofs.PivotDivision
import Circom.Algebra.Proofs.Relations
import Circom.Algebra.Proofs.Representation
import Circom.Algebra.Proofs.SimultaneousSubstitution
import Circom.Algebra.Proofs.StorageRefinement
import Circom.ConstraintGeneration.Proofs.BalancedConditions
import Circom.ConstraintGeneration.Proofs.R1csFile
import Circom.ConstraintGeneration.Proofs.Statistics
import Circom.ConstraintGeneration.Proofs.TagPropagation
import Circom.ConstraintGeneration.Proofs.UnassignedInputs
import Circom.ConstraintGeneration.Proofs.UnconstrainedSignals
import Circom.ConstraintList.Proofs.ConstantEqualities
import Circom.Hir.Proofs.ReturnTypes
import Circom.Hir.Proofs.SugarCleaner
import Circom.IntermediateRepresentation.Proofs.Layout
import Circom.IrProcessing.Proofs.BuildStack
import Circom.IrProcessing.Proofs.IndexAddresses
import Circom.IrProcessing.Proofs.Triggering
import Circom.LlzkBackend.Proofs.ArrayArguments
import Circom.LlzkBackend.Proofs.Budget
import Circom.LlzkBackend.Proofs.Specializations
import Circom.LlzkBackend.Proofs.TemplateCallers
import Circom.LlzkBackend.Proofs.TypeSize
import Circom.Parser.Proofs.Instances
import Circom.Parser.Proofs.PragmaPaths
import Circom.Parser.Proofs.StringLiterals
import Circom.TypeAnalysis.Proofs.NameResolution
import Circom.TypeAnalysis.Proofs.TypeGivenFunction
import Circom.TypeAnalysis.Proofs.UnknownKnownAnalysis
