import Calybris.Kernel.Prescribe

/-!
# The decision over unbounded integers

`exactPrescribe` says what a decision is, without a machine word: which models
are eligible, which of them leads, which leads the others, and how many models
each constraint turned away. `KernelDecision.toExact` reads the words of a
decision as numbers.
-/

namespace Calybris.Kernel

open Machine Selection

inductive ExactVerdict where
  | rejected (gate : GateKind)
  | overBudget
  | nonPositiveUtility
  | eligible
  deriving DecidableEq

def exactVerdict (policy : PolicySnapshot) (input : KernelInput) (model : KernelModel) :
    ExactVerdict :=
  match firstFailedGate model input with
  | some gate => .rejected gate
  | none =>
    if exactCost model input > input.budgetLimitMicrounits.toNat then .overBudget
    else if exactUtility policy model input ≤ 0 then .nonPositiveUtility
    else .eligible

def Eligible (policy : PolicySnapshot) (input : KernelInput) (model : KernelModel) : Prop :=
  firstFailedGate model input = none ∧
    exactCost model input ≤ input.budgetLimitMicrounits.toNat ∧
    0 < exactUtility policy model input

instance (policy : PolicySnapshot) (input : KernelInput) :
    DecidablePred (Eligible policy input) :=
  fun _ => inferInstanceAs (Decidable (_ ∧ _ ∧ _))

theorem exactVerdict_eq_eligible_iff (policy : PolicySnapshot) (input : KernelInput)
    (model : KernelModel) :
    exactVerdict policy input model = .eligible ↔ Eligible policy input model := by
  unfold exactVerdict Eligible
  cases firstFailedGate model input with
  | some gate => simp
  | none =>
    simp only [true_and]
    split
    · simp
      omega
    · split
      · simp
        omega
      · simp
        omega

structure ExactCandidate where
  modelId : Nat
  modelIndex : Nat
  qualityBps : Nat
  cost : Nat
  utility : Int
  deriving DecidableEq

def Outranks (a b : ExactCandidate) : Prop :=
  b.utility < a.utility ∨ (a.utility = b.utility ∧
    (a.cost < b.cost ∨ (a.cost = b.cost ∧
      (b.qualityBps < a.qualityBps ∨ (a.qualityBps = b.qualityBps ∧ a.modelId < b.modelId)))))

instance : DecidableRel Outranks :=
  fun _ _ => inferInstanceAs (Decidable (_ ∨ _ ∧ (_ ∨ _ ∧ (_ ∨ _ ∧ _))))

def outranks (a b : ExactCandidate) : Bool := decide (Outranks a b)

@[simp] theorem outranks_eq_true_iff (a b : ExactCandidate) :
    outranks a b = true ↔ Outranks a b := decide_eq_true_iff

def exactCandidate (policy : PolicySnapshot) (input : KernelInput)
    (entry : KernelModel × Nat) : ExactCandidate where
  modelId := entry.1.modelId.toNat
  modelIndex := entry.2
  qualityBps := entry.1.qualityBps.toNat
  cost := exactCost entry.1 input
  utility := exactUtility policy entry.1 input

def exactCandidates (policy : PolicySnapshot) (input : KernelInput)
    (models : List KernelModel) : List ExactCandidate :=
  ((models.zipIdx).filter fun entry => decide (Eligible policy input entry.1)).map
    (exactCandidate policy input)

structure ExactHistogram where
  disabled : Nat
  quality : Nat
  riskCeiling : Nat
  latency : Nat
  capability : Nat
  provider : Nat
  region : Nat
  budget : Nat
  utility : Nat
  deriving DecidableEq

def countVerdicts {α : Type} (verdict : α → ExactVerdict) (xs : List α) : ExactHistogram :=
  let count (verdicts : List ExactVerdict) := xs.countP fun x => decide (verdict x ∈ verdicts)
  { disabled := count [.rejected .disabled]
    quality := count [.rejected .quality]
    riskCeiling := count [.rejected .riskCeiling]
    latency := count [.rejected .latency]
    capability := count [.rejected .capability]
    provider := count [.rejected .providerUnrepresentable, .rejected .providerNotAllowed]
    region := count [.rejected .region]
    budget := count [.overBudget]
    utility := count [.nonPositiveUtility] }

def exactHistogram (policy : PolicySnapshot) (input : KernelInput)
    (models : List KernelModel) : ExactHistogram :=
  countVerdicts (exactVerdict policy input) models

def ExactHistogram.dominantReason (counts : ExactHistogram) : KernelReason :=
  Kernel.dominantReason [
    (counts.capability, .capabilityConstraint),
    (counts.region, .regionConstraint),
    (counts.provider, .providerConstraint),
    (counts.quality, .qualityConstraint),
    (counts.riskCeiling, .riskCeilingConstraint),
    (counts.latency, .latencyConstraint),
    (counts.budget, .budgetConstraint),
    (counts.utility, .nonPositiveUtility),
    (counts.disabled, .noEnabledModel)]

structure ExactDecision where
  requestSequence : Nat
  action : KernelAction
  reason : KernelReason
  selectedModelId : Nat
  selectedModelIndex : Nat
  estimatedCostMicrounits : Nat
  expectedUtilityMicrounits : Int
  counterfactualModelId : Nat
  counterfactualUtilityMicrounits : Int
  evaluatedModels : Nat
  eligibleModels : Nat
  policyEpoch : Nat
  catalogEpoch : Nat
  deriving DecidableEq

def exactReject (policy : PolicySnapshot) (input : KernelInput) (reason : KernelReason)
    (evaluatedModels eligibleModels : Nat) : ExactDecision where
  requestSequence := input.requestSequence.toNat
  action := .reject
  reason := reason
  selectedModelId := 0
  selectedModelIndex := 65535
  estimatedCostMicrounits := 0
  expectedUtilityMicrounits := 0
  counterfactualModelId := 0
  counterfactualUtilityMicrounits := 0
  evaluatedModels := evaluatedModels
  eligibleModels := eligibleModels
  policyEpoch := policy.policyEpoch.toNat
  catalogEpoch := policy.catalogEpoch.toNat

def exactSelect (policy : PolicySnapshot) (input : KernelInput) (best : ExactCandidate)
    (second : Option ExactCandidate) : ExactDecision where
  requestSequence := input.requestSequence.toNat
  action := if best.modelId = input.requestedModelId.toNat then .executeRequested else .substitute
  reason := if best.modelId = input.requestedModelId.toNat then
    .requestedModelMaximizesUtility else .alternativeMaximizesUtility
  selectedModelId := best.modelId
  selectedModelIndex := best.modelIndex
  estimatedCostMicrounits := best.cost
  expectedUtilityMicrounits := best.utility
  counterfactualModelId := (second.map ExactCandidate.modelId).getD 0
  counterfactualUtilityMicrounits := (second.map ExactCandidate.utility).getD 0
  evaluatedModels := policy.models.length
  eligibleModels := (exactCandidates policy input policy.models).length
  policyEpoch := policy.policyEpoch.toNat
  catalogEpoch := policy.catalogEpoch.toNat

def exactPrescribe (policy : PolicySnapshot) (input : KernelInput) : ExactDecision :=
  if input.riskBps.toNat ≥ policy.hardRiskLimitBps.toNat then
    exactReject policy input .riskHardLimit 0 0
  else if input.confidenceBps.toNat < policy.minimumConfidenceBps.toNat then
    exactReject policy input .confidenceHardLimit 0 0
  else
    match topTwo outranks (exactCandidates policy input policy.models) with
    | (none, _) => exactReject policy input
        (exactHistogram policy input policy.models).dominantReason policy.models.length
        (exactCandidates policy input policy.models).length
    | (some best, second) => exactSelect policy input best second

def Candidate.toExact (c : Candidate) : ExactCandidate where
  modelId := c.modelId.toNat
  modelIndex := c.modelIndex.toNat
  qualityBps := c.qualityBps.toNat
  cost := c.cost.toNat
  utility := c.utility.toInt

def RejectionHistogram.toExact (h : RejectionHistogram) : ExactHistogram where
  disabled := h.disabled.toNat
  quality := h.quality.toNat
  riskCeiling := h.riskCeiling.toNat
  latency := h.latency.toNat
  capability := h.capability.toNat
  provider := h.provider.toNat
  region := h.region.toNat
  budget := h.budget.toNat
  utility := h.utility.toNat

def KernelDecision.toExact (d : KernelDecision) : ExactDecision where
  requestSequence := d.requestSequence.toNat
  action := d.action
  reason := d.reason
  selectedModelId := d.selectedModelId.toNat
  selectedModelIndex := d.selectedModelIndex.toNat
  estimatedCostMicrounits := d.estimatedCostMicrounits.toNat
  expectedUtilityMicrounits := d.expectedUtilityMicrounits.toInt
  counterfactualModelId := d.counterfactualModelId.toNat
  counterfactualUtilityMicrounits := d.counterfactualUtilityMicrounits.toInt
  evaluatedModels := d.evaluatedModels.toNat
  eligibleModels := d.eligibleModels.toNat
  policyEpoch := d.policyEpoch.toNat
  catalogEpoch := d.catalogEpoch.toNat

end Calybris.Kernel
