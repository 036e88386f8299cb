import Calybris.Kernel.Trusted

/-!
# Asking for less

A request that asks for less, and is otherwise the same, is served at least as well: every
model that was eligible still is, at no lower utility. The masks have values with a
meaning of their own, and so have the two caps. No region mask and no latency cap are the
loosest ones although they are written as zero, and the mask of all providers is a set of
providers like any other.
-/

namespace Calybris.Kernel

open Machine PolicySnapshot

/-- The second request is looser: the same task, with wider limits. A latency cap or a
region mask of zero is none at all. -/
structure KernelInput.Looser (input looser : KernelInput) : Prop where
  requestSequence : looser.requestSequence = input.requestSequence
  requestedModelId : looser.requestedModelId = input.requestedModelId
  inputTokens : looser.inputTokens = input.inputTokens
  outputTokens : looser.outputTokens = input.outputTokens
  businessValueMicrounits : looser.businessValueMicrounits = input.businessValueMicrounits
  budget : input.budgetLimitMicrounits ≤ looser.budgetLimitMicrounits
  quality : looser.minimumQualityBps ≤ input.minimumQualityBps
  latency : looser.maxP95LatencyMs = 0 ∨
    input.maxP95LatencyMs ≠ 0 ∧ input.maxP95LatencyMs ≤ looser.maxP95LatencyMs
  capabilities : looser.requiredCapabilities &&& input.requiredCapabilities =
    looser.requiredCapabilities
  providers : input.allowedProviderMask &&& looser.allowedProviderMask = input.allowedProviderMask
  region : looser.requiredRegionMask = 0 ∨ input.requiredRegionMask ≠ 0 ∧
    input.requiredRegionMask &&& looser.requiredRegionMask = input.requiredRegionMask
  risk : looser.riskBps ≤ input.riskBps
  confidence : input.confidenceBps ≤ looser.confidenceBps

/-! ### Masks -/

section Masks

variable {a b c : UInt64}

theorem and_ne_zero_of_subset (hsub : a &&& b = a) (h : a &&& c ≠ 0) : b &&& c ≠ 0 := by
  intro hzero
  refine h ?_
  rw [← hsub, UInt64.and_assoc, hzero, UInt64.and_zero]

theorem and_eq_of_subset (hsub : a &&& b = a) (h : c &&& b = b) : c &&& a = a := by
  calc c &&& a = c &&& (a &&& b) := by rw [hsub]
    _ = a &&& (c &&& b) := by rw [← UInt64.and_assoc, UInt64.and_comm c a, UInt64.and_assoc]
    _ = a := by rw [h, hsub]

theorem eq_allProviders_of_subset (hsub : allProviders &&& a = allProviders) :
    a = allProviders := by
  have hall : allProviders = -1 := rfl
  rwa [hall, UInt64.neg_one_and, ← hall] at hsub

end Masks

namespace KernelInput.Looser

variable {input looser : KernelInput} {policy : PolicySnapshot} {model : KernelModel}

section

variable (h : input.Looser looser)

include h

theorem firstFailedGate (hgate : Kernel.firstFailedGate model input = none) :
    Kernel.firstFailedGate model looser = none := by
  rw [firstFailedGate_eq_none_iff] at hgate ⊢
  obtain ⟨henabled, hquality, hlatency, hcapabilities, hid, hproviders, hregion, hrisk⟩ := hgate
  refine ⟨henabled, UInt16.le_trans h.quality hquality, ?_,
    and_eq_of_subset h.capabilities hcapabilities, hid, ?_, ?_, UInt16.le_trans h.risk hrisk⟩
  · rcases h.latency with hnone | ⟨hcap, hle⟩
    · exact .inl hnone
    · exact .inr (UInt32.le_trans (hlatency.resolve_left hcap) hle)
  · rcases hproviders with hall | hmeets
    · exact .inl (eq_allProviders_of_subset (hall ▸ h.providers))
    · exact .inr (and_ne_zero_of_subset h.providers hmeets)
  · rcases h.region with hnone | ⟨hmask, hsub⟩
    · exact .inl hnone
    · have hmeets := hregion.resolve_left hmask
      rw [UInt64.and_comm] at hmeets
      rw [UInt64.and_comm]
      exact .inr (and_ne_zero_of_subset hsub hmeets)

theorem exactCost : exactCost model looser = exactCost model input := by
  rw [Kernel.exactCost, h.inputTokens, h.outputTokens, Kernel.exactCost]

theorem exactUtility_le : exactUtility policy model input ≤ exactUtility policy model looser := by
  have hvalue : exactValue looser = exactValue input := by
    rw [exactValue, h.businessValueMicrounits, exactValue]
  have hquality : exactValue input * input.confidenceBps.toNat * model.qualityBps.toNat / 10 ^ 8 ≤
      exactValue input * looser.confidenceBps.toNat * model.qualityBps.toNat / 10 ^ 8 :=
    Nat.div_le_div_right (Nat.mul_le_mul_right _
      (Nat.mul_le_mul_left _ (UInt16.le_iff_toNat_le.1 h.confidence)))
  have hrisk : exactValue input * looser.riskBps.toNat *
      policy.riskPenaltyMultiplierBps.toNat / 10 ^ 8 ≤
      exactValue input * input.riskBps.toNat * policy.riskPenaltyMultiplierBps.toNat / 10 ^ 8 :=
    Nat.div_le_div_right (Nat.mul_le_mul_right _
      (Nat.mul_le_mul_left _ (UInt16.le_iff_toNat_le.1 h.risk)))
  rw [exactUtility, exactUtility, hvalue, h.exactCost]
  refine max_le_max le_rfl (min_le_min le_rfl ?_)
  omega

theorem eligible (helig : Eligible policy input model) : Eligible policy looser model := by
  obtain ⟨hgate, hcost, hutility⟩ := helig
  refine ⟨h.firstFailedGate hgate, ?_, hutility.trans_le h.exactUtility_le⟩
  rw [h.exactCost]
  exact hcost.trans (UInt64.le_iff_toNat_le.1 h.budget)

theorem eligibleModels_sublist :
    (eligibleModels policy input).Sublist (eligibleModels policy looser) := by
  refine List.monotone_filter_right policy.models fun model hmodel => ?_
  rw [decide_eq_true_iff] at hmodel ⊢
  exact h.eligible hmodel

end

end KernelInput.Looser

/-! ### Decisions -/

section Decisions

variable {policy : PolicySnapshot} {input looser : KernelInput}

theorem Greatest.exactUtility_le {ms : List KernelModel} {best model : KernelModel}
    (h : Greatest policy input ms best) (hmem : model ∈ ms) :
    exactUtility policy model input ≤ exactUtility policy best input := by
  by_cases heq : model = best
  · rw [heq]
  · rcases h.2 model hmem heq with hlt | ⟨heq, -⟩
    · exact hlt.le
    · exact heq.ge

theorem expectedUtility_nonneg (hlen : policy.models.length ≤ 65535)
    (hnodup : (policy.models.map KernelModel.modelId).Nodup) {d : KernelDecision}
    (hd : policy.prescribe input = some d) : 0 ≤ d.expectedUtilityMicrounits.toInt := by
  by_cases hlimits : input.riskBps < policy.hardRiskLimitBps ∧
      policy.minimumConfidenceBps ≤ input.confidenceBps
  · obtain ⟨d₁, hd₁, -, hcases⟩ := prescribe_of_limits hnodup hlen hlimits.1 hlimits.2
    obtain rfl : d₁ = d := Option.some.inj (hd₁.symm.trans hd)
    rcases hcases with ⟨-, hzero, -⟩ | ⟨-, best, hbest, hrecords⟩
    · rw [hzero, Int64.toInt_zero]
    · rw [hrecords.expectedUtility]
      exact (mem_eligibleModels_iff.1 hbest.1).2.2.2.le
  · obtain ⟨d₁, hd₁, -, -, hzero, -⟩ := prescribe_of_blocked policy input hlimits
    obtain rfl : d₁ = d := Option.some.inj (hd₁.symm.trans hd)
    rw [hzero, Int64.toInt_zero]

/-- Under a trusted policy a looser request is served where the first one is, at no lower
utility and from no fewer models. -/
theorem prescribe_of_looser {policyEpoch catalogEpoch : UInt64}
    {hardRiskLimitBps minimumConfidenceBps riskPenaltyMultiplierBps : UInt16}
    {latencyPenaltyMicrounitsPerMs : UInt64} {models : List KernelModel}
    (htrusted : tryNewTrusted policyEpoch catalogEpoch hardRiskLimitBps
      minimumConfidenceBps riskPenaltyMultiplierBps latencyPenaltyMicrounitsPerMs models =
        .ok policy)
    (h : input.Looser looser) :
    ∃ d d', policy.prescribe input = some d ∧ policy.prescribe looser = some d' ∧
      (d.action ≠ .reject → d'.action ≠ .reject) ∧
      d.expectedUtilityMicrounits ≤ d'.expectedUtilityMicrounits ∧
      d.eligibleModels ≤ d'.eligibleModels := by
  obtain ⟨hlen, hnodup⟩ := tryNewTrusted_ok htrusted
  by_cases hlimits : input.riskBps < policy.hardRiskLimitBps ∧
      policy.minimumConfidenceBps ≤ input.confidenceBps
  · obtain ⟨d, hd, hcount, hcases⟩ := prescribe_of_limits hnodup hlen hlimits.1 hlimits.2
    obtain ⟨d', hd', hcount', hcases'⟩ := prescribe_of_limits hnodup hlen
      (UInt16.lt_of_le_of_lt h.risk hlimits.1) (UInt16.le_trans hlimits.2 h.confidence)
    have hsub : (eligibleModels policy input).Sublist (eligibleModels policy looser) :=
      h.eligibleModels_sublist
    have heligible : d.eligibleModels ≤ d'.eligibleModels := by
      rw [UInt16.le_iff_toNat_le, hcount, hcount']
      exact hsub.length_le
    rcases hcases with ⟨haction, hzero, -⟩ | ⟨-, best, hbest, hrecords⟩
    · refine ⟨d, d', hd, hd', fun hne => absurd haction hne, ?_, heligible⟩
      rw [hzero, Int64.le_iff_toInt_le]
      exact expectedUtility_nonneg hlen hnodup hd'
    · -- what was selected is eligible still, so something at least as good is selected
      have hmem := hsub.subset hbest.1
      rcases hcases' with ⟨-, -, hempty⟩ | ⟨haction', best', hbest', hrecords'⟩
      · rw [hempty] at hmem
        cases hmem
      · refine ⟨d, d', hd, hd', fun _ => haction', ?_, heligible⟩
        rw [Int64.le_iff_toInt_le, hrecords.expectedUtility, hrecords'.expectedUtility]
        exact h.exactUtility_le.trans (hbest'.exactUtility_le hmem)
  · obtain ⟨d, hd, hcount, haction, hzero, -⟩ := prescribe_of_blocked policy input hlimits
    obtain ⟨d', rejected, hinner, -⟩ := prescribeInner_eq_exact policy looser hlen
    have hd' : policy.prescribe looser = some d' := by
      rw [prescribe, hinner, Option.map_some]
    refine ⟨d, d', hd, hd', fun hne => absurd haction hne, ?_, ?_⟩
    · rw [hzero, Int64.le_iff_toInt_le]
      exact expectedUtility_nonneg hlen hnodup hd'
    · rw [hcount]
      exact UInt16.zero_le

def looseInput : KernelInput :=
  { unitPriceInput with
    budgetLimitMicrounits := 2000
    riskBps := 0
    maxP95LatencyMs := 0
    requiredRegionMask := 0 }

theorem prescribe_of_looser_unitPrice :
    ∃ policy, tryNewTrusted 1 1 5000 1000 10000 1
        [unitPriceModel 1 5000, unitPriceModel 2 6000] = .ok policy ∧
      unitPriceInput.Looser looseInput ∧
      ∃ d d', policy.prescribe unitPriceInput = some d ∧ policy.prescribe looseInput = some d' ∧
        (d.action ≠ .reject → d'.action ≠ .reject) ∧
        d.expectedUtilityMicrounits ≤ d'.expectedUtilityMicrounits ∧
        d.eligibleModels ≤ d'.eligibleModels := by
  have hlooser : unitPriceInput.Looser looseInput := by constructor <;> decide
  exact ⟨_, tryNewTrusted_unitPrice, hlooser, prescribe_of_looser tryNewTrusted_unitPrice hlooser⟩

end Decisions

end Calybris.Kernel
