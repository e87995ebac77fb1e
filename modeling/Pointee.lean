import Pointee.Draft
import Pointee.Retyping
import Pointee.Proofs.GraphConsistency
import Pointee.Proofs.LayoutOrder
import Pointee.Proofs.LayoutRefinement
import Pointee.Proofs.FunctionEdits
import Pointee.Proofs.Building
import Pointee.Proofs.MarkingSteps
import Pointee.Proofs.Erasure
import Pointee.Proofs.Dominance
import Pointee.Proofs.SingleAssignment
import Pointee.Proofs.DemotionSteps
import Pointee.Proofs.PatchingSteps
import Pointee.Proofs.Rewriting
import Pointee.Proofs.UseTracking
import Pointee.Proofs.DemotionRounds
import Pointee.Proofs.DemotionMeaning
import Pointee.Proofs.MarkingFrame
import Pointee.Proofs.MarkingRuns
import Pointee.Proofs.MarkingSites
import Pointee.Proofs.MarkerCoverage
import Pointee.Proofs.SiteReading
import Pointee.Proofs.BackwardWalks
import Pointee.Proofs.ForwardSpread
import Pointee.Proofs.TypeGrowth
import Pointee.Proofs.ExtractionRecords
import Pointee.Proofs.Classification
import Pointee.Proofs.SymbolDescriptors
import Pointee.Proofs.Declarations
import Pointee.Proofs.ArgumentDescriptors
import Pointee.Proofs.InferredBodies
import Pointee.Proofs.InferredSymbols
import Pointee.Proofs.Misfits
import Pointee.Proofs.MarkerOwnership
import Pointee.Proofs.PointerTypes
import Pointee.Proofs.MarkedExtraction
import Pointee.Proofs.ExactExtraction
import Pointee.Proofs.CoverageGuard
import Pointee.Proofs.ClassificationOrder
import Pointee.Proofs.Histories
import Pointee.Proofs.Mismatches
import Pointee.Proofs.ExactPatching
import Pointee.Proofs.DescriptorSpaces
import Pointee.Proofs.TypeHandles
import Pointee.Proofs.BodyIndependence
import Pointee.Proofs.ChangedFlag
import Pointee.Proofs.ResultMarkers
import Pointee.Proofs.StaticTypes
import Pointee.Proofs.DemotionFixpoint
import Pointee.Proofs.TextStability
import Pointee.Proofs.ReadingPurity
import Pointee.Proofs.HeldTypes
import Pointee.Proofs.RetypedShapes
import Pointee.Proofs.TableUniformity
import Pointee.Proofs.RefusedInference
import Pointee.Proofs.ValueIdentity
import Pointee.Proofs.SlotPriority
import Pointee.Proofs.UniqueReading
import Pointee.Proofs.InsertionRuns
import Pointee.Proofs.TargetTexts
import Pointee.Proofs.ImmediateResidues
