import Calybris.Kernel.Account

/-!
# Counting a catalog of any length

`tryNew` accepts catalogs that the `u16` counters of a trace cannot count. The counters
of the gates stop at 65,535. The two behind the gates, for models over budget and models
without positive utility, are plain additions: with more than 65,535 of either the loop
overflows, and below that the trace has every count up to the limit of its word.
-/

namespace Calybris.Kernel

open Machine Selection List PolicySnapshot

/-! ### Catalogs of one kind of model -/

/-- `n` models that differ in their identifiers only. -/
def uniformCatalog (base : KernelModel) (n : Nat) : List KernelModel :=
  (List.range n).map fun i => { base with modelId := UInt32.ofNat i }

section Uniform

variable {base : KernelModel} {n : Nat}

theorem validateModels_of_nodup {models : List KernelModel} :
    ∀ {seen : List UInt32} {anyEnabled : Bool}, (models.map KernelModel.modelId).Nodup →
      (∀ model ∈ models, model.modelId ∉ seen ∧ model.providerId ≤ maxProviderId ∧
        model.qualityBps ≤ maxBps ∧ model.riskCeilingBps ≤ maxBps) →
      validateModels models seen anyEnabled =
        .ok (anyEnabled || models.any fun model => model.enabled != 0) := by
  induction models with
  | nil => simp [validateModels]
  | cons model models ih =>
    intro seen anyEnabled hnodup hmodels
    obtain ⟨hnew, hprovider, hquality, hrisk⟩ := hmodels model mem_cons_self
    rw [map_cons, nodup_cons] at hnodup
    rw [validateModels, if_neg hnew, if_neg (UInt16.not_lt.2 hprovider),
      if_neg (UInt16.not_lt.2 hquality), if_neg (UInt16.not_lt.2 hrisk), ih hnodup.2,
      any_cons, Bool.or_assoc]
    intro other hother
    obtain ⟨hother', hrest⟩ := hmodels other (mem_cons_of_mem _ hother)
    refine ⟨?_, hrest⟩
    rw [mem_cons, not_or]
    exact ⟨fun heq => hnodup.1 (heq ▸ mem_map_of_mem hother), hother'⟩

theorem nodup_uniformCatalog (hn : n ≤ 2 ^ 32) :
    ((uniformCatalog base n).map KernelModel.modelId).Nodup := by
  rw [uniformCatalog, map_map]
  refine List.Nodup.map_on ?_ nodup_range
  intro i hi j hj heq
  have hi' := mem_range.1 hi
  have hj' := mem_range.1 hj
  have htoNat := congrArg UInt32.toNat heq
  simp only [Function.comp_apply] at htoNat
  rwa [UInt32.toNat_ofNat_of_lt' (by simp [UInt32.size]; omega),
    UInt32.toNat_ofNat_of_lt' (by simp [UInt32.size]; omega)] at htoNat

theorem validateModels_uniformCatalog (hn : 0 < n ∧ n ≤ 2 ^ 32) (henabled : base.enabled ≠ 0)
    (hprovider : base.providerId ≤ maxProviderId) (hquality : base.qualityBps ≤ maxBps)
    (hrisk : base.riskCeilingBps ≤ maxBps) :
    validateModels (uniformCatalog base n) [] false = .ok true := by
  rw [validateModels_of_nodup (nodup_uniformCatalog hn.2), Bool.false_or]
  · have hfirst : { base with modelId := UInt32.ofNat 0 } ∈ uniformCatalog base n :=
      mem_map_of_mem (f := fun i => { base with modelId := UInt32.ofNat i })
        (mem_range.2 hn.1)
    exact congrArg Except.ok (any_eq_true.2 ⟨_, hfirst, bne_iff_ne.2 henabled⟩)
  · intro model hmodel
    obtain ⟨i, -, rfl⟩ := mem_map.1 hmodel
    exact ⟨not_mem_nil, hprovider, hquality, hrisk⟩

theorem tryNew_of_validateModels {policyEpoch catalogEpoch : UInt64}
    {hardRiskLimitBps minimumConfidenceBps riskPenaltyMultiplierBps : UInt16}
    {latencyPenaltyMicrounitsPerMs : UInt64} {models : List KernelModel}
    (hrisk : hardRiskLimitBps ≤ maxBps) (hconfidence : minimumConfidenceBps ≤ maxBps)
    (hpenalty : riskPenaltyMultiplierBps ≤ maxRiskPenaltyMultiplierBps)
    (hmodels : validateModels models [] false = .ok true) :
    tryNew policyEpoch catalogEpoch hardRiskLimitBps minimumConfidenceBps
        riskPenaltyMultiplierBps latencyPenaltyMicrounitsPerMs models =
      .ok (.newUnchecked policyEpoch catalogEpoch hardRiskLimitBps minimumConfidenceBps
        riskPenaltyMultiplierBps latencyPenaltyMicrounitsPerMs models) := by
  have hne : models ≠ [] := by
    rintro rfl
    cases hmodels
  have hvalid : (newUnchecked policyEpoch catalogEpoch hardRiskLimitBps
      minimumConfidenceBps riskPenaltyMultiplierBps latencyPenaltyMicrounitsPerMs
      models).validate = .ok () := by
    simp only [validate, newUnchecked, gt_iff_lt,
      if_neg (UInt16.not_lt.2 hrisk), if_neg (UInt16.not_lt.2 hconfidence),
      if_neg (UInt16.not_lt.2 hpenalty), if_neg hne, hmodels, if_true]
  simp only [tryNew, hvalid]

theorem exactVerdict_modelId (policy : PolicySnapshot) (input : KernelInput) (model : KernelModel)
    (modelId : UInt32) : exactVerdict policy input { model with modelId := modelId } =
      exactVerdict policy input model := rfl

theorem countP_uniformCatalog {policy : PolicySnapshot} {input : KernelInput}
    {verdict : ExactVerdict} (h : exactVerdict policy input base = verdict)
    (verdicts : List ExactVerdict) : ((uniformCatalog base n).countP fun model =>
      decide (exactVerdict policy input model ∈ verdicts)) =
        if verdict ∈ verdicts then n else 0 := by
  rw [uniformCatalog, countP_map]
  split
  · next hmem => simp [Function.comp_def, exactVerdict_modelId, h, hmem]
  · next hmem => simp [Function.comp_def, exactVerdict_modelId, h, hmem]

end Uniform

/-! ### The decision and its trace -/

section Trace

variable {policy : PolicySnapshot} {input : KernelInput}

theorem prescribeInner_counted (hrisk : input.riskBps < policy.hardRiskLimitBps)
    (hconfidence : policy.minimumConfidenceBps ≤ input.confidenceBps) :
    ((exactHistogram policy input policy.models).Fits →
      ∃ st, policy.prescribeInner input = some (policy.conclude input st) ∧
        Counted policy input policy.models st) ∧
    (¬ (exactHistogram policy input policy.models).Fits → policy.prescribeInner input = none) := by
  obtain ⟨pricing, hnew, -⟩ := pricing_new_eq policy input
  obtain ⟨hcounted, hoverflow⟩ := counted_run hnew policy.models [] {} counted_nil
    ⟨Nat.zero_le _, Nat.zero_le _⟩ fun _ hm => hm
  rw [length_nil, nil_append] at hcounted hoverflow
  rw [prescribeInner_eq_map hnew hrisk hconfidence]
  refine ⟨fun hfits => ?_, fun hnot => by rw [hoverflow hnot, Option.map_none]⟩
  obtain ⟨st, hst, hinv⟩ := hcounted hfits
  exact ⟨st, by rw [hst, Option.map_some], hinv⟩

/-- A catalog of any length is counted up to the limit of the counters, and a rejection
names a greatest count, exactly when at most 65,535 models are over budget and as many
without positive utility. -/
theorem prescribeWithTrace_counts (policy : PolicySnapshot) (input : KernelInput)
    (hrisk : input.riskBps < policy.hardRiskLimitBps)
    (hconfidence : policy.minimumConfidenceBps ≤ input.confidenceBps) :
    (∃ d trace, policy.prescribeWithTrace input = some (d, trace) ∧
      trace.rejections.toExact = (exactHistogram policy input policy.models).capped ∧
      (eligibleModels policy input = [] →
        d.action = .reject ∧ NamesLargestGate trace.rejections.toExact d.reason)) ↔
      (exactHistogram policy input policy.models).Fits := by
  obtain ⟨hcounted, hoverflow⟩ := prescribeInner_counted hrisk hconfidence
  refine ⟨fun ⟨d, trace, htrace, _⟩ => ?_, fun hfits => ?_⟩
  · by_contra hnot
    rw [prescribeWithTrace, hoverflow hnot, Option.map_none] at htrace
    cases htrace
  obtain ⟨st, hinner, hinv⟩ := hcounted hfits
  refine ⟨_, _, by rw [prescribeWithTrace, hinner, Option.map_some], ?_, ?_⟩
  · rw [conclude_snd, hinv.rejected]
  · intro hnone
    have hempty : exactCandidates policy input policy.models = [] := by
      rw [← length_eq_zero_iff, length_exactCandidates, hnone, length_nil]
    have hbest : st.best = none := hinv.best.2 hempty
    rw [conclude_snd]
    exact (conclude_reason policy input st).1 hbest

end Trace

def faintModel : KernelModel := unitPriceModel 0 500

theorem exactVerdict_faintModel (policy : PolicySnapshot) :
    exactVerdict policy unitPriceInput faintModel = .rejected .quality := by
  have hgate : firstFailedGate faintModel unitPriceInput = some .quality := by decide
  rw [exactVerdict, hgate]

theorem models_newUnchecked (policyEpoch catalogEpoch : UInt64)
    (hardRiskLimitBps minimumConfidenceBps riskPenaltyMultiplierBps : UInt16)
    (latencyPenaltyMicrounitsPerMs : UInt64) (models : List KernelModel) :
    (newUnchecked policyEpoch catalogEpoch hardRiskLimitBps minimumConfidenceBps
      riskPenaltyMultiplierBps latencyPenaltyMicrounitsPerMs models).models = models := rfl

section Faint

variable {policy : PolicySnapshot} {n : Nat}

theorem exactHistogram_faintModel (h : policy.models = uniformCatalog faintModel n) :
    (exactHistogram policy unitPriceInput policy.models).quality = n ∧
      (exactHistogram policy unitPriceInput policy.models).Fits := by
  have hcount := countP_uniformCatalog (n := n) (exactVerdict_faintModel policy)
  rw [h]
  exact ⟨hcount [.rejected .quality], (hcount [.overBudget]).le.trans (Nat.zero_le _),
    (hcount [.nonPositiveUtility]).le.trans (Nat.zero_le _)⟩

theorem eligibleModels_faintModel (h : policy.models = uniformCatalog faintModel n) :
    eligibleModels policy unitPriceInput = [] := by
  refine filter_eq_nil_iff.2 fun model hmodel => ?_
  rw [h] at hmodel
  obtain ⟨i, -, rfl⟩ := mem_map.1 hmodel
  rw [decide_eq_true_iff, ← exactVerdict_eq_eligible_iff, exactVerdict_modelId,
    exactVerdict_faintModel]
  nofun

end Faint

theorem prescribeWithTrace_counts_faint : ∃ policy,
    tryNew 1 1 5000 1000 10000 1 (uniformCatalog faintModel 70000) = .ok policy ∧
      ∃ d trace, policy.prescribeWithTrace unitPriceInput = some (d, trace) ∧
        trace.rejections.quality.toNat = 65535 ∧ d.action = .reject ∧
        NamesLargestGate trace.rejections.toExact d.reason := by
  have hmodels : validateModels (uniformCatalog faintModel 70000) [] false = .ok true :=
    validateModels_uniformCatalog ⟨by omega, by omega⟩ (by decide) (by decide) (by decide)
      (by decide)
  have hrisk : unitPriceInput.riskBps < 5000 := by decide
  have hconfidence : 1000 ≤ unitPriceInput.confidenceBps := by decide
  refine ⟨_, tryNew_of_validateModels (by decide) (by decide) (by decide) hmodels, ?_⟩
  have hcatalog := models_newUnchecked 1 1 5000 1000 10000 1 (uniformCatalog faintModel 70000)
  obtain ⟨hcount, hfits⟩ := exactHistogram_faintModel hcatalog
  obtain ⟨d, trace, htrace, hcounts, hreject⟩ :=
    (prescribeWithTrace_counts _ unitPriceInput hrisk hconfidence).2 hfits
  refine ⟨d, trace, htrace, ?_, hreject (eligibleModels_faintModel hcatalog)⟩
  have hquality : trace.rejections.quality.toNat = min 65535 70000 := by
    rw [← hcount]
    exact congrArg ExactHistogram.quality hcounts
  exact hquality

/-- A model at 100 units a token, above the budget of the request. -/
def dearModel : KernelModel :=
  { unitPriceModel 0 5000 with
    inputCostMicrounitsPerMillionTokens := 100000000
    outputCostMicrounitsPerMillionTokens := 100000000 }

theorem exactVerdict_dearModel (policy : PolicySnapshot) :
    exactVerdict policy unitPriceInput dearModel = .overBudget := by
  have hgate : firstFailedGate dearModel unitPriceInput = none := by decide
  have hcost : exactCost dearModel unitPriceInput > unitPriceInput.budgetLimitMicrounits.toNat := by
    decide
  rw [exactVerdict, hgate]
  exact if_pos hcost

/-- With more than 65,535 models over budget a counter overflows. -/
theorem overflows_of_lt {n : Nat} (hn : 65535 < n) (hids : n ≤ 2 ^ 32) : ∃ policy,
    tryNew 1 1 5000 1000 10000 1 (uniformCatalog dearModel n) = .ok policy ∧
      unitPriceInput.riskBps < policy.hardRiskLimitBps ∧
      policy.minimumConfidenceBps ≤ unitPriceInput.confidenceBps ∧
      (exactHistogram policy unitPriceInput policy.models).budget = n ∧
      policy.prescribeWithTrace unitPriceInput = none := by
  have hmodels : validateModels (uniformCatalog dearModel n) [] false = .ok true :=
    validateModels_uniformCatalog ⟨by omega, hids⟩ (by decide) (by decide) (by decide) (by decide)
  have hbudget (policy : PolicySnapshot) :
      (exactHistogram policy unitPriceInput (uniformCatalog dearModel n)).budget = n :=
    countP_uniformCatalog (exactVerdict_dearModel policy) [.overBudget]
  have hrisk : unitPriceInput.riskBps < 5000 := by decide
  have hconfidence : 1000 ≤ unitPriceInput.confidenceBps := by decide
  refine ⟨_, tryNew_of_validateModels (by decide) (by decide) (by decide) hmodels, hrisk,
    hconfidence, hbudget _, ?_⟩
  rw [prescribeWithTrace, (prescribeInner_counted hrisk hconfidence).2, Option.map_none]
  intro hfits
  exact absurd (hfits.1.trans_lt hn) (Nat.not_lt.2 (hbudget _).ge)

/-- The smallest such catalog: the 65,536th model has no room in the counter. -/
theorem prescribeWithTrace_overflows : ∃ policy,
    tryNew 1 1 5000 1000 10000 1 (uniformCatalog dearModel 65536) = .ok policy ∧
      unitPriceInput.riskBps < policy.hardRiskLimitBps ∧
      policy.minimumConfidenceBps ≤ unitPriceInput.confidenceBps ∧
      (exactHistogram policy unitPriceInput policy.models).budget = 65536 ∧
      policy.prescribeWithTrace unitPriceInput = none :=
  overflows_of_lt (by omega) (by omega)

end Calybris.Kernel
