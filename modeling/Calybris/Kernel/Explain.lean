import Calybris.Kernel.Trusted

/-!
# Explaining a decision

Beside `prescribe` the kernel has three slower views of one evaluation: the
trace with its rejection counts, the explanation with a verdict for every
candidate, and the utility of one model on its own. `utilityForModel` carries
its own copy of the arithmetic. As in the loop, `none` means that a step of the
arithmetic did not fit; `utilityForModel` answers `some none` for a model that
is not eligible.
-/

namespace Calybris.Kernel

open Machine Selection

structure DecisionTrace where
  rejections : RejectionHistogram
  evaluatedModels : UInt16
  eligibleModels : UInt16
  deriving DecidableEq

inductive CandidateVerdict where
  | rejected (gate : GateKind) (measured limit : UInt64)
  | overBudget (costMicrounits limitMicrounits : UInt64)
  | nonPositiveUtility (terms : UtilityTerms)
  | eligible (terms : UtilityTerms)
  deriving DecidableEq

structure CandidateExplanation where
  modelId : UInt32
  modelIndex : UInt16
  verdict : CandidateVerdict
  deriving DecidableEq

structure Explanation where
  decision : KernelDecision
  candidates : List CandidateExplanation
  deriving DecidableEq

namespace CandidateVerdict

def eligibleTerms : CandidateVerdict → Option UtilityTerms
  | .eligible terms => some terms
  | _ => none

end CandidateVerdict

def Explanation.eligible (explanation : Explanation) : List CandidateExplanation :=
  explanation.candidates.filter fun candidate => candidate.verdict.eligibleTerms.isSome

/-- The pair of numbers a gate compared, for a candidate that failed it. The risk
ceiling is reversed: the request carries the risk, the candidate the ceiling. -/
def gateDetail (model : KernelModel) (input : KernelInput) : GateKind → UInt64 × UInt64
  | .disabled => (0, 1)
  | .quality => (model.qualityBps.toUInt64, input.minimumQualityBps.toUInt64)
  | .latency => (model.p95LatencyMs.toUInt64, input.maxP95LatencyMs.toUInt64)
  | .capability => (model.capabilities, input.requiredCapabilities)
  | .providerUnrepresentable => (model.providerId.toUInt64, maxProviderId.toUInt64)
  | .providerNotAllowed => (model.providerId.toUInt64, input.allowedProviderMask)
  | .region => (model.regionMask, input.requiredRegionMask)
  | .riskCeiling => (input.riskBps.toUInt64, model.riskCeilingBps.toUInt64)

def candidateVerdict (pricing : Pricing) (input : KernelInput) (model : KernelModel) :
    Option CandidateVerdict :=
  match firstFailedGate model input with
  | some gate =>
    let detail := gateDetail model input gate
    some (.rejected gate detail.1 detail.2)
  | none =>
    let cost := pricing.cost model input
    if cost > input.budgetLimitMicrounits then
      some (.overBudget cost input.budgetLimitMicrounits)
    else
      (pricing.terms model cost).map fun terms =>
        if terms.utility ≤ 0 then .nonPositiveUtility terms else .eligible terms

def explainCandidate (pricing : Pricing) (input : KernelInput) (entry : KernelModel × Nat) :
    Option CandidateExplanation :=
  (candidateVerdict pricing input entry.1).map fun verdict =>
    { modelId := entry.1.modelId, modelIndex := toU16OrMax entry.2, verdict := verdict }

namespace PolicySnapshot

def prescribeWithTrace (policy : PolicySnapshot) (input : KernelInput) :
    Option (KernelDecision × DecisionTrace) :=
  (policy.prescribeInner input).map fun result =>
    (result.1, {
      rejections := result.2
      evaluatedModels := result.1.evaluatedModels
      eligibleModels := result.1.eligibleModels })

/-- The decision, plus a verdict for every candidate that was considered. A request
refused at the hard limits never reaches the catalog. -/
def explain (policy : PolicySnapshot) (input : KernelInput) : Option Explanation := do
  let (decision, _) ← policy.prescribeInner input
  if decision.reason = .riskHardLimit ∨ decision.reason = .confidenceHardLimit then
    some { decision := decision, candidates := [] }
  else
    let pricing ← Pricing.new policy input
    let candidates ← policy.models.zipIdx.mapM (explainCandidate pricing input)
    some { decision := decision, candidates := candidates }

def utilityForModel (policy : PolicySnapshot) (input : KernelInput) (modelId : UInt32) :
    Option (Option Int64) :=
  if input.riskBps ≥ policy.hardRiskLimitBps then some none
  else if input.confidenceBps < policy.minimumConfidenceBps then some none
  else match policy.models.find? fun model => model.modelId == modelId with
    | none => some none
    | some model =>
      if (firstFailedGate model input).isSome then some none
      else
        let allCostsFit := policy.allCostsFitU64 input.inputTokens input.outputTokens
        let cost := if allCostsFit then
          modelCostFast model input.inputTokens input.outputTokens
          else modelCostReference model input.inputTokens input.outputTokens
        if cost > input.budgetLimitMicrounits then some none
        else do
          let value := (max input.businessValueMicrounits 0).toUInt64
          let confidenceBps := input.confidenceBps.toUInt64
          let qualityPrefix := (checkedMul value confidenceBps).filter fun pre =>
            (checkedMul pre policy.maxQualityBps.toUInt64).isSome
          let riskPenalty ← scaledTermExact value input.riskBps.toUInt64
            policy.riskPenaltyMultiplierBps.toUInt64
          let allLatenciesFit := (checkedMul policy.maxP95LatencyMs.toUInt64
            policy.latencyPenaltyMicrounitsPerMs).isSome
          let qualityAdjusted ← match qualityPrefix with
            | none => scaledTermReference value confidenceBps model.qualityBps.toUInt64
            | some pre =>
              some (((pre * model.qualityBps.toUInt64) / scaledBasisPoints).toNat : Int)
          let latencyPenalty ← if allLatenciesFit then
              some ((model.p95LatencyMs.toUInt64 *
                policy.latencyPenaltyMicrounitsPerMs).toNat : Int)
            else i128? ((model.p95LatencyMs.toNat : Int) *
              policy.latencyPenaltyMicrounitsPerMs.toNat)
          let afterRisk ← i128? (qualityAdjusted - riskPenalty)
          let afterCost ← i128? (afterRisk - cost.toNat)
          let afterLatency ← i128? (afterCost - latencyPenalty)
          let utility := clampI128ToI64 afterLatency
          if utility ≤ 0 then some none else some (some utility)

end PolicySnapshot

end Calybris.Kernel
