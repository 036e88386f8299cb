import Calybris.Machine.Checked

/-!
# The data of the decision kernel

The records of `kernel.rs`, with the widths of the source. A `PolicySnapshot`
carries four catalog-wide maxima beside its models. They are private to the
source and set in one place, `newUnchecked`, from the models themselves; here
that is part of the type, so every snapshot has the maxima of its own catalog.
-/

namespace Calybris.Kernel

open Machine

def scaledBasisPoints : UInt64 := 100000000

def costScale : UInt64 := 1000000

def costRounding : UInt64 := costScale - 1

def allProviders : UInt64 := UInt64.ofNat (2 ^ 64 - 1)

def maxProviderId : UInt16 := 63

/-- The largest catalog the `u16` fields of a decision can count. -/
def maxCatalogModels : Nat := 65535

def maxBps : UInt16 := 10000

def maxRiskPenaltyMultiplierBps : UInt16 := 50000

structure KernelModel where
  modelId : UInt32
  providerId : UInt16
  qualityBps : UInt16
  riskCeilingBps : UInt16
  enabled : UInt8
  p95LatencyMs : UInt32
  capabilities : UInt64
  regionMask : UInt64
  inputCostMicrounitsPerMillionTokens : UInt64
  outputCostMicrounitsPerMillionTokens : UInt64
  deriving DecidableEq, Repr

structure KernelInput where
  requestSequence : UInt64
  requestedModelId : UInt32
  inputTokens : UInt32
  outputTokens : UInt32
  businessValueMicrounits : Int64
  budgetLimitMicrounits : UInt64
  riskBps : UInt16
  confidenceBps : UInt16
  minimumQualityBps : UInt16
  maxP95LatencyMs : UInt32
  requiredCapabilities : UInt64
  allowedProviderMask : UInt64
  requiredRegionMask : UInt64
  deriving DecidableEq

inductive KernelAction where
  | executeRequested
  | substitute
  | reject
  deriving DecidableEq, Repr

inductive KernelReason where
  | requestedModelMaximizesUtility
  | alternativeMaximizesUtility
  | riskHardLimit
  | confidenceHardLimit
  | noEnabledModel
  | qualityConstraint
  | latencyConstraint
  | capabilityConstraint
  | providerConstraint
  | regionConstraint
  | budgetConstraint
  | nonPositiveUtility
  | riskCeilingConstraint
  deriving DecidableEq, Repr

structure KernelDecision where
  requestSequence : UInt64
  action : KernelAction
  reason : KernelReason
  selectedModelId : UInt32
  selectedModelIndex : UInt16
  estimatedCostMicrounits : UInt64
  expectedUtilityMicrounits : Int64
  counterfactualModelId : UInt32
  counterfactualUtilityMicrounits : Int64
  evaluatedModels : UInt16
  eligibleModels : UInt16
  policyEpoch : UInt64
  catalogEpoch : UInt64
  deriving DecidableEq

/-- An immutable snapshot of the decision policy and model catalog. The last
four fields say that the cached maxima are those of the catalog, which no code
outside `newUnchecked` can change. -/
structure PolicySnapshot where
  policyEpoch : UInt64
  catalogEpoch : UInt64
  hardRiskLimitBps : UInt16
  minimumConfidenceBps : UInt16
  riskPenaltyMultiplierBps : UInt16
  latencyPenaltyMicrounitsPerMs : UInt64
  maxQualityBps : UInt16
  maxP95LatencyMs : UInt32
  maxInputCost : UInt64
  maxOutputCost : UInt64
  models : List KernelModel
  maxQualityBps_eq : maxQualityBps = maxOrDefault (models.map KernelModel.qualityBps)
  maxP95LatencyMs_eq : maxP95LatencyMs = maxOrDefault (models.map KernelModel.p95LatencyMs)
  maxInputCost_eq : maxInputCost =
    maxOrDefault (models.map KernelModel.inputCostMicrounitsPerMillionTokens)
  maxOutputCost_eq : maxOutputCost =
    maxOrDefault (models.map KernelModel.outputCostMicrounitsPerMillionTokens)

structure Candidate where
  modelId : UInt32
  modelIndex : UInt16
  qualityBps : UInt16
  cost : UInt64
  utility : Int64
  deriving DecidableEq

structure RejectionHistogram where
  disabled : UInt16 := 0
  quality : UInt16 := 0
  riskCeiling : UInt16 := 0
  latency : UInt16 := 0
  capability : UInt16 := 0
  provider : UInt16 := 0
  region : UInt16 := 0
  budget : UInt16 := 0
  utility : UInt16 := 0
  deriving DecidableEq

inductive GateKind where
  | disabled
  | quality
  | latency
  | capability
  | providerUnrepresentable
  | providerNotAllowed
  | region
  | riskCeiling
  deriving DecidableEq, Repr

structure UtilityTerms where
  qualityAdjusted : Int
  riskPenalty : Int
  costMicrounits : UInt64
  latencyPenalty : Int
  utility : Int64
  deriving DecidableEq

/-- The first gate `model` fails for `input`, or `none` when it reaches costing.
The order of the checks is part of the contract. -/
def firstFailedGate (model : KernelModel) (input : KernelInput) : Option GateKind :=
  if model.enabled = 0 then some .disabled
  else if model.qualityBps < input.minimumQualityBps then some .quality
  else if input.maxP95LatencyMs > 0 ∧ model.p95LatencyMs > input.maxP95LatencyMs then
    some .latency
  else if model.capabilities &&& input.requiredCapabilities ≠ input.requiredCapabilities then
    some .capability
  else if model.providerId > maxProviderId then some .providerUnrepresentable
  else if input.allowedProviderMask ≠ allProviders ∧
      input.allowedProviderMask &&& ((1 : UInt64) <<< model.providerId.toUInt64) = 0 then
    some .providerNotAllowed
  else if input.requiredRegionMask ≠ 0 ∧ model.regionMask &&& input.requiredRegionMask = 0 then
    some .region
  else if input.riskBps > model.riskCeilingBps then some .riskCeiling
  else none

theorem firstFailedGate_eq_none_iff {model : KernelModel} {input : KernelInput} :
    firstFailedGate model input = none ↔
      model.enabled ≠ 0 ∧ input.minimumQualityBps ≤ model.qualityBps ∧
      (input.maxP95LatencyMs = 0 ∨ model.p95LatencyMs ≤ input.maxP95LatencyMs) ∧
      model.capabilities &&& input.requiredCapabilities = input.requiredCapabilities ∧
      model.providerId ≤ maxProviderId ∧
      (input.allowedProviderMask = allProviders ∨
        input.allowedProviderMask &&& ((1 : UInt64) <<< model.providerId.toUInt64) ≠ 0) ∧
      (input.requiredRegionMask = 0 ∨ model.regionMask &&& input.requiredRegionMask ≠ 0) ∧
      input.riskBps ≤ model.riskCeilingBps := by
  have hlatency : ¬ (input.maxP95LatencyMs > 0 ∧ model.p95LatencyMs > input.maxP95LatencyMs) ↔
      input.maxP95LatencyMs = 0 ∨ model.p95LatencyMs ≤ input.maxP95LatencyMs := by
    rw [not_and_or, gt_iff_lt, gt_iff_lt, UInt32.not_lt, UInt32.not_lt, UInt32.le_zero_iff]
  unfold firstFailedGate
  constructor
  · intro h
    split_ifs at h with h1 h2 h3 h4 h5 h6 h7 h8
    exact ⟨h1, UInt16.not_lt.1 h2, hlatency.1 h3, not_not.1 h4, UInt16.not_lt.1 h5,
      or_iff_not_imp_left.2 fun hne heq => h6 ⟨hne, heq⟩,
      or_iff_not_imp_left.2 fun hne heq => h7 ⟨hne, heq⟩, UInt16.not_lt.1 h8⟩
  · rintro ⟨h1, h2, h3, h4, h5, h6, h7, h8⟩
    rw [if_neg h1, if_neg (UInt16.not_lt.2 h2), if_neg (hlatency.2 h3), if_neg (not_not.2 h4),
      if_neg (UInt16.not_lt.2 h5), if_neg fun h => h6.elim h.1 fun hne => hne h.2,
      if_neg fun h => h7.elim h.1 fun hne => hne h.2, if_neg (UInt16.not_lt.2 h8)]

namespace RejectionHistogram

/-- Counts one rejection. Saturating, because a catalog may hold more
candidates than the counter. -/
def bump (h : RejectionHistogram) : GateKind → RejectionHistogram
  | .disabled => { h with disabled := saturatingAdd16 h.disabled 1 }
  | .quality => { h with quality := saturatingAdd16 h.quality 1 }
  | .latency => { h with latency := saturatingAdd16 h.latency 1 }
  | .capability => { h with capability := saturatingAdd16 h.capability 1 }
  | .providerUnrepresentable => { h with provider := saturatingAdd16 h.provider 1 }
  | .providerNotAllowed => { h with provider := saturatingAdd16 h.provider 1 }
  | .region => { h with region := saturatingAdd16 h.region 1 }
  | .riskCeiling => { h with riskCeiling := saturatingAdd16 h.riskCeiling 1 }

end RejectionHistogram

namespace PolicySnapshot

def newUnchecked (policyEpoch catalogEpoch : UInt64)
    (hardRiskLimitBps minimumConfidenceBps riskPenaltyMultiplierBps : UInt16)
    (latencyPenaltyMicrounitsPerMs : UInt64) (models : List KernelModel) :
    PolicySnapshot where
  policyEpoch := policyEpoch
  catalogEpoch := catalogEpoch
  hardRiskLimitBps := hardRiskLimitBps
  minimumConfidenceBps := minimumConfidenceBps
  riskPenaltyMultiplierBps := riskPenaltyMultiplierBps
  latencyPenaltyMicrounitsPerMs := latencyPenaltyMicrounitsPerMs
  maxQualityBps := maxOrDefault (models.map KernelModel.qualityBps)
  maxP95LatencyMs := maxOrDefault (models.map KernelModel.p95LatencyMs)
  maxInputCost := maxOrDefault (models.map KernelModel.inputCostMicrounitsPerMillionTokens)
  maxOutputCost := maxOrDefault (models.map KernelModel.outputCostMicrounitsPerMillionTokens)
  models := models
  maxQualityBps_eq := rfl
  maxP95LatencyMs_eq := rfl
  maxInputCost_eq := rfl
  maxOutputCost_eq := rfl

section Maxima

variable (policy : PolicySnapshot) {model : KernelModel}

theorem qualityBps_le_max (h : model ∈ policy.models) :
    model.qualityBps.toNat ≤ policy.maxQualityBps.toNat := by
  rw [policy.maxQualityBps_eq]
  exact le_maxOrDefault UInt16.toNat UInt16.toNat_max (List.mem_map_of_mem h)

theorem p95LatencyMs_le_max (h : model ∈ policy.models) :
    model.p95LatencyMs.toNat ≤ policy.maxP95LatencyMs.toNat := by
  rw [policy.maxP95LatencyMs_eq]
  exact le_maxOrDefault UInt32.toNat UInt32.toNat_max (List.mem_map_of_mem h)

theorem inputCost_le_max (h : model ∈ policy.models) :
    model.inputCostMicrounitsPerMillionTokens.toNat ≤ policy.maxInputCost.toNat := by
  rw [policy.maxInputCost_eq]
  exact le_maxOrDefault UInt64.toNat UInt64.toNat_max (List.mem_map_of_mem h)

theorem outputCost_le_max (h : model ∈ policy.models) :
    model.outputCostMicrounitsPerMillionTokens.toNat ≤ policy.maxOutputCost.toNat := by
  rw [policy.maxOutputCost_eq]
  exact le_maxOrDefault UInt64.toNat UInt64.toNat_max (List.mem_map_of_mem h)

end Maxima

end PolicySnapshot

end Calybris.Kernel
