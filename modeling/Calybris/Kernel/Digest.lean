import Calybris.Kernel.Trusted
import Calybris.Text.LittleEndian

/-!
# The digests of a policy, an input and a decision

`digest.rs` hashes a versioned byte layout. The layouts are the preimages here,
field by field in the order of the source; the hash itself is a parameter. A
policy is hashed with its models sorted by identifier, an input and a decision with
every field, the position of the selected model among them.

A policy preimage determines the parameters of the policy and its catalog up to
order: `policyPreimage_inj`. The three kinds begin with different tags.
-/

namespace Calybris.Kernel

open Machine Text List

def policyDigestTag : Bytes := [99, 97, 108, 121, 112, 111, 108, 49, 0]

def inputDigestTag : Bytes := [99, 97, 108, 121, 105, 110, 112, 49, 0]

def decisionDigestTag : Bytes := [99, 97, 108, 121, 100, 99, 110, 49, 0]

def updateModel (model : KernelModel) : Bytes :=
  le32 model.modelId ++ le16 model.providerId ++ le16 model.qualityBps ++
    le16 model.riskCeilingBps ++ [model.enabled] ++ le32 model.p95LatencyMs ++
    le64 model.capabilities ++ le64 model.regionMask ++
    le64 model.inputCostMicrounitsPerMillionTokens ++
    le64 model.outputCostMicrounitsPerMillionTokens

def sortById (models : List KernelModel) : List KernelModel :=
  models.mergeSort fun a b => decide (a.modelId ≤ b.modelId)

def policyPreimage (snapshot : PolicySnapshot) : Bytes :=
  policyDigestTag ++ le64 snapshot.policyEpoch ++ le64 snapshot.catalogEpoch ++
    le16 snapshot.hardRiskLimitBps ++ le16 snapshot.minimumConfidenceBps ++
    le16 snapshot.riskPenaltyMultiplierBps ++ le64 snapshot.latencyPenaltyMicrounitsPerMs ++
    (sortById snapshot.models).flatMap updateModel

def inputPreimage (input : KernelInput) : Bytes :=
  inputDigestTag ++ le64 input.requestSequence ++ le32 input.requestedModelId ++
    le32 input.inputTokens ++ le32 input.outputTokens ++ leI64 input.businessValueMicrounits ++
    le64 input.budgetLimitMicrounits ++ le16 input.riskBps ++ le16 input.confidenceBps ++
    le16 input.minimumQualityBps ++ le32 input.maxP95LatencyMs ++
    le64 input.requiredCapabilities ++ le64 input.allowedProviderMask ++
    le64 input.requiredRegionMask

def KernelAction.code : KernelAction → UInt8
  | .executeRequested => 1
  | .substitute => 2
  | .reject => 3

def KernelReason.code : KernelReason → UInt16
  | .requestedModelMaximizesUtility => 1
  | .alternativeMaximizesUtility => 2
  | .riskHardLimit => 100
  | .confidenceHardLimit => 101
  | .noEnabledModel => 102
  | .qualityConstraint => 103
  | .latencyConstraint => 104
  | .capabilityConstraint => 105
  | .providerConstraint => 106
  | .regionConstraint => 107
  | .budgetConstraint => 108
  | .nonPositiveUtility => 109
  | .riskCeilingConstraint => 110

def decisionPreimage (decision : KernelDecision) : Bytes :=
  decisionDigestTag ++ le64 decision.requestSequence ++ [decision.action.code] ++
    le16 decision.reason.code ++ le32 decision.selectedModelId ++
    le16 decision.selectedModelIndex ++ le64 decision.estimatedCostMicrounits ++
    leI64 decision.expectedUtilityMicrounits ++ le32 decision.counterfactualModelId ++
    leI64 decision.counterfactualUtilityMicrounits ++ le16 decision.evaluatedModels ++
    le16 decision.eligibleModels ++ le64 decision.policyEpoch ++ le64 decision.catalogEpoch

section Layout

theorem length_updateModel (model : KernelModel) : (updateModel model).length = 47 := by
  simp [updateModel]

theorem updateModel_injective : Function.Injective updateModel := by
  intro a b h
  simp only [updateModel, append_assoc, le32_append_inj, le16_append_inj, le64_append_inj,
    le64_inj, cons_append, nil_append, List.cons.injEq] at h
  obtain ⟨h1, h2, h3, h4, h5, h6, h7, h8, h9, h10⟩ := h
  cases a
  cases b
  simp_all

theorem policyPreimage_inj {p q : PolicySnapshot} (h : policyPreimage p = policyPreimage q) :
    p.policyEpoch = q.policyEpoch ∧ p.catalogEpoch = q.catalogEpoch ∧
      p.hardRiskLimitBps = q.hardRiskLimitBps ∧
      p.minimumConfidenceBps = q.minimumConfidenceBps ∧
      p.riskPenaltyMultiplierBps = q.riskPenaltyMultiplierBps ∧
      p.latencyPenaltyMicrounitsPerMs = q.latencyPenaltyMicrounitsPerMs ∧
      p.models.Perm q.models := by
  simp only [policyPreimage, append_assoc, append_cancel_left_eq, le64_append_inj,
    le16_append_inj] at h
  obtain ⟨h1, h2, h3, h4, h5, h6, hmodels⟩ := h
  have hsorted := flatMap_inj (by norm_num) length_updateModel updateModel_injective hmodels
  refine ⟨h1, h2, h3, h4, h5, h6, ?_⟩
  have hp := mergeSort_perm p.models fun a b => decide (a.modelId ≤ b.modelId)
  have hq := mergeSort_perm q.models fun a b => decide (a.modelId ≤ b.modelId)
  exact hp.symm.trans ((List.Perm.of_eq hsorted).trans hq)

theorem inputPreimage_injective : Function.Injective inputPreimage := by
  intro a b h
  simp only [inputPreimage, leI64, append_assoc, append_cancel_left_eq,
    le64_append_inj, le32_append_inj, le16_append_inj, le64_inj] at h
  obtain ⟨h1, h2, h3, h4, hvalue, h6, h7, h8, h9, h10, h11, h12, h13⟩ := h
  have h5 : a.businessValueMicrounits = b.businessValueMicrounits := congrArg Int64.ofUInt64 hvalue
  cases a
  cases b
  simp_all

theorem decisionPreimage_injective : Function.Injective decisionPreimage := by
  intro a b h
  simp only [decisionPreimage, leI64, append_assoc, append_cancel_left_eq,
    le64_append_inj, le32_append_inj, le16_append_inj, le64_inj, cons_append,
    nil_append, List.cons.injEq] at h
  obtain ⟨h1, haction, hreason, h4, h5, h6, h7, h8, h9, h10, h11, h12, h13⟩ := h
  have haction' : a.action = b.action := by
    revert haction
    cases a.action <;> cases b.action <;> decide
  have hreason' : a.reason = b.reason := by
    revert hreason
    cases a.reason <;> cases b.reason <;> decide
  have h7' : a.expectedUtilityMicrounits = b.expectedUtilityMicrounits := congrArg Int64.ofUInt64 h7
  have h9' : a.counterfactualUtilityMicrounits = b.counterfactualUtilityMicrounits :=
    congrArg Int64.ofUInt64 h9
  cases a
  cases b
  simp_all

/-- The three digests are of byte strings from which everything hashed can be read off:
a policy with its models up to order, whether or not their identifiers are unique, an
input and a decision exactly, and which of the three it is. -/
theorem preimages_inj :
    (∀ p q : PolicySnapshot, policyPreimage p = policyPreimage q →
      p.policyEpoch = q.policyEpoch ∧ p.catalogEpoch = q.catalogEpoch ∧
        p.hardRiskLimitBps = q.hardRiskLimitBps ∧
        p.minimumConfidenceBps = q.minimumConfidenceBps ∧
        p.riskPenaltyMultiplierBps = q.riskPenaltyMultiplierBps ∧
        p.latencyPenaltyMicrounitsPerMs = q.latencyPenaltyMicrounitsPerMs ∧
        p.models.Perm q.models) ∧
    Function.Injective inputPreimage ∧ Function.Injective decisionPreimage ∧
    (∀ p i, policyPreimage p ≠ inputPreimage i) ∧
    (∀ p d, policyPreimage p ≠ decisionPreimage d) ∧
    ∀ i d, inputPreimage i ≠ decisionPreimage d := by
  refine ⟨fun p q h => policyPreimage_inj h, inputPreimage_injective,
    decisionPreimage_injective, ?_, ?_, ?_⟩
  -- The fifth byte of the tag says which kind it is.
  · intro p i h
    simp [policyPreimage, inputPreimage, policyDigestTag, inputDigestTag] at h
  · intro p d h
    simp [policyPreimage, decisionPreimage, policyDigestTag, decisionDigestTag] at h
  · intro i d h
    simp [inputPreimage, decisionPreimage, inputDigestTag, decisionDigestTag] at h

end Layout

end Calybris.Kernel
