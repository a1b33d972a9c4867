import LiftedPlanning.Grounding.Cache
import LiftedPlanning.Pipeline
import LiftedPlanning.Proofs.AncestorSets
import LiftedPlanning.Proofs.ArgumentCounts
import LiftedPlanning.Proofs.ArgumentOrder
import LiftedPlanning.Proofs.BindingAgreement
import LiftedPlanning.Proofs.CacheBookkeeping
import LiftedPlanning.Proofs.CanonicalStates
import LiftedPlanning.Proofs.CheckedEvaluation
import LiftedPlanning.Proofs.Effects
import LiftedPlanning.Proofs.GroundKinds
import LiftedPlanning.Proofs.GroundLimits
import LiftedPlanning.Proofs.GroundSearch
import LiftedPlanning.Proofs.GroundValidation
import LiftedPlanning.Proofs.MetricValues
import LiftedPlanning.Proofs.PlanReading
import LiftedPlanning.Proofs.PlanTransfer
import LiftedPlanning.Proofs.QuantifierExpansion
import LiftedPlanning.Proofs.Regrounding
import LiftedPlanning.Proofs.SearchLimits
import LiftedPlanning.Proofs.SimplificationSize
