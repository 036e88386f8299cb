import Calybris.Kernel.Refines

/-!
# Trusted policies and what they select

`tryNewTrusted` refuses catalogs that are too large for the counters, reserved
or repeated identifiers and out-of-range basis points, and sorts what it
accepts. A trusted policy therefore has at most 65,535 models with distinct,
non-zero identifiers, which is all the selection results need: the ranking is a
strict total order on the eligible models, so there is one leader and, beside
it, at most one runner-up.
-/

namespace Calybris.Kernel

open Machine Selection List PolicySnapshot ExactDecision

inductive PolicyError where
  | emptyCatalog
  | duplicateModelId (modelId : UInt32)
  | invalidProviderId (modelId : UInt32) (providerId : UInt16)
  | noEnabledModels
  | outOfRangeBps (field : String) (value max : UInt16)
  deriving DecidableEq

inductive TrustPolicyError where
  | policy (error : PolicyError)
  | catalogTooLarge (len max : Nat)
  | reservedModelId
  | invalidEnabledFlag (modelId : UInt32) (value : UInt8)
  deriving DecidableEq

/-- The catalog loop of `validate`: the identifiers seen so far and whether some
model was enabled. -/
def validateModels : List KernelModel → List UInt32 → Bool → Except PolicyError Bool
  | [], _, anyEnabled => .ok anyEnabled
  | model :: models, seen, anyEnabled =>
    if model.modelId ∈ seen then .error (.duplicateModelId model.modelId)
    else if model.providerId > maxProviderId then
      .error (.invalidProviderId model.modelId model.providerId)
    else if model.qualityBps > maxBps then
      .error (.outOfRangeBps "model.quality_bps" model.qualityBps maxBps)
    else if model.riskCeilingBps > maxBps then
      .error (.outOfRangeBps "model.risk_ceiling_bps" model.riskCeilingBps maxBps)
    else validateModels models (model.modelId :: seen) (anyEnabled || model.enabled != 0)

namespace PolicySnapshot

def validate (policy : PolicySnapshot) : Except PolicyError Unit :=
  if policy.hardRiskLimitBps > maxBps then
    .error (.outOfRangeBps "hard_risk_limit_bps" policy.hardRiskLimitBps maxBps)
  else if policy.minimumConfidenceBps > maxBps then
    .error (.outOfRangeBps "minimum_confidence_bps" policy.minimumConfidenceBps maxBps)
  else if policy.riskPenaltyMultiplierBps > maxRiskPenaltyMultiplierBps then
    .error (.outOfRangeBps "risk_penalty_multiplier_bps" policy.riskPenaltyMultiplierBps
      maxRiskPenaltyMultiplierBps)
  else if policy.models = [] then .error .emptyCatalog
  else match validateModels policy.models [] false with
    | .error error => .error error
    | .ok anyEnabled => if anyEnabled then .ok () else .error .noEnabledModels

def tryNew (policyEpoch catalogEpoch : UInt64)
    (hardRiskLimitBps minimumConfidenceBps riskPenaltyMultiplierBps : UInt16)
    (latencyPenaltyMicrounitsPerMs : UInt64) (models : List KernelModel) :
    Except PolicyError PolicySnapshot :=
  let snapshot := newUnchecked policyEpoch catalogEpoch hardRiskLimitBps minimumConfidenceBps
    riskPenaltyMultiplierBps latencyPenaltyMicrounitsPerMs models
  match snapshot.validate with
  | .error error => .error error
  | .ok () => .ok snapshot

/-- Build a validated, canonically ordered policy. The sort is stable. -/
def tryNewTrusted (policyEpoch catalogEpoch : UInt64)
    (hardRiskLimitBps minimumConfidenceBps riskPenaltyMultiplierBps : UInt16)
    (latencyPenaltyMicrounitsPerMs : UInt64) (models : List KernelModel) :
    Except TrustPolicyError PolicySnapshot :=
  if models.length > maxCatalogModels then
    .error (.catalogTooLarge models.length maxCatalogModels)
  else if models.any fun model => model.modelId == 0 then .error .reservedModelId
  else match models.find? fun model => decide (model.enabled > 1) with
    | some model => .error (.invalidEnabledFlag model.modelId model.enabled)
    | none =>
      let snapshot := newUnchecked policyEpoch catalogEpoch hardRiskLimitBps
        minimumConfidenceBps riskPenaltyMultiplierBps latencyPenaltyMicrounitsPerMs
        (models.mergeSort fun a b => decide (a.modelId ≤ b.modelId))
      match snapshot.validate with
      | .error error => .error (.policy error)
      | .ok () => .ok snapshot

end PolicySnapshot

section Validated

variable {models : List KernelModel}

/-- What the catalog loop has established when it accepts: the identifiers are
distinct and none was seen before, and basis points are in range. -/
theorem validateModels_ok :
    ∀ {seen : List UInt32} {anyEnabled b : Bool},
      validateModels models seen anyEnabled = .ok b →
      (models.map KernelModel.modelId).Nodup ∧ ∀ model ∈ models, model.modelId ∉ seen ∧
        model.qualityBps ≤ maxBps ∧ model.riskCeilingBps ≤ maxBps := by
  induction models with
  | nil => simp
  | cons model models ih =>
    intro seen anyEnabled b h
    rw [validateModels] at h
    split_ifs at h with hseen _ hquality hrisk
    obtain ⟨hnodup, hall⟩ := ih h
    rw [map_cons, nodup_cons, forall_mem_cons, mem_map]
    refine ⟨⟨?_, hnodup⟩, ⟨hseen, UInt16.not_lt.1 hquality, UInt16.not_lt.1 hrisk⟩,
      fun other hother => (hall other hother).imp_left (mt (mem_cons_of_mem _))⟩
    rintro ⟨other, hother, heq⟩
    exact (hall other hother).1 (heq ▸ mem_cons_self)

theorem validate_ok {policy : PolicySnapshot} (h : policy.validate = .ok ()) :
    (policy.models.map KernelModel.modelId).Nodup ∧
      ∀ model ∈ policy.models, model.qualityBps ≤ maxBps ∧ model.riskCeilingBps ≤ maxBps := by
  unfold validate at h
  split_ifs at h
  cases hmodels : validateModels policy.models [] false with
  | error error =>
    rw [hmodels] at h
    cases h
  | ok anyEnabled =>
    exact (validateModels_ok hmodels).imp_right fun hall model hmem => (hall model hmem).2

theorem tryNewTrusted_ok {policyEpoch catalogEpoch : UInt64}
    {hardRiskLimitBps minimumConfidenceBps riskPenaltyMultiplierBps : UInt16}
    {latencyPenaltyMicrounitsPerMs : UInt64} {policy : PolicySnapshot}
    (h : tryNewTrusted policyEpoch catalogEpoch hardRiskLimitBps
      minimumConfidenceBps riskPenaltyMultiplierBps latencyPenaltyMicrounitsPerMs models =
        .ok policy) :
    policy.models.length ≤ 65535 ∧ (policy.models.map KernelModel.modelId).Nodup := by
  unfold tryNewTrusted at h
  split_ifs at h with hlen hzero
  split at h
  · cases h
  · dsimp only at h
    split at h
    · cases h
    · next hvalid =>
      cases h
      refine ⟨?_, (validate_ok hvalid).1⟩
      show (models.mergeSort _).length ≤ 65535
      rw [length_mergeSort]
      exact Nat.le_of_not_lt hlen

end Validated

def Preferred (policy : PolicySnapshot) (input : KernelInput) (a b : KernelModel) : Prop :=
  exactUtility policy b input < exactUtility policy a input ∨
    (exactUtility policy a input = exactUtility policy b input ∧
      (exactCost a input < exactCost b input ∨
        (exactCost a input = exactCost b input ∧
          (b.qualityBps < a.qualityBps ∨
            (a.qualityBps = b.qualityBps ∧ a.modelId < b.modelId)))))

def Greatest (policy : PolicySnapshot) (input : KernelInput) (ms : List KernelModel)
    (m : KernelModel) : Prop :=
  m ∈ ms ∧ ∀ x ∈ ms, x ≠ m → Preferred policy input m x

def eligibleModels (policy : PolicySnapshot) (input : KernelInput) : List KernelModel :=
  policy.models.filter fun model => decide (Eligible policy input model)

variable {model : KernelModel}

section Ranking

variable {policy : PolicySnapshot} {input : KernelInput}

theorem map_fst_filter_zipIdx {α : Type*} (p : α → Bool) (xs : List α) :
    (xs.zipIdx.filter fun entry => p entry.1).map Prod.fst = xs.filter p := by
  have h := filter_map (p := p) (f := Prod.fst) (l := xs.zipIdx)
  rw [zipIdx_map_fst] at h
  exact h.symm

theorem length_exactCandidates :
    (exactCandidates policy input policy.models).length =
      (eligibleModels policy input).length := by
  rw [exactCandidates, length_map, eligibleModels,
    ← map_fst_filter_zipIdx (fun model => decide (Eligible policy input model)), length_map]

theorem mem_eligibleModels_iff :
    model ∈ eligibleModels policy input ↔
      model ∈ policy.models ∧ Eligible policy input model := by
  simp [eligibleModels]

def candidateOf (policy : PolicySnapshot) (input : KernelInput) (model : KernelModel) :
    ExactCandidate :=
  exactCandidate policy input (model, policy.models.idxOf model)

def prefers (policy : PolicySnapshot) (input : KernelInput) (a b : KernelModel) : Bool :=
  outranks (candidateOf policy input a) (candidateOf policy input b)

theorem greatest_of_isTop {ms : List KernelModel} (h : IsTop (prefers policy input) ms model) :
    Greatest policy input ms model := by
  refine ⟨h.1, fun other hother hne => ?_⟩
  have hbeats := h.2 other hother hne
  rw [prefers, outranks_eq_true_iff] at hbeats
  simpa only [Outranks, Preferred, candidateOf, exactCandidate, UInt16.lt_iff_toNat_lt,
    UInt32.lt_iff_toNat_lt, UInt16.toNat_inj] using hbeats

end Ranking

section Selection

variable {policy : PolicySnapshot} {input : KernelInput}

theorem zipIdx_eq_map_idxOf {α : Type*} [DecidableEq α] {xs : List α} (h : xs.Nodup) :
    xs.zipIdx = xs.map fun x => (x, xs.idxOf x) := by
  refine ext_getElem (by simp) fun i hi hi' => ?_
  simp [h.idxOf_getElem]

section Models

variable (input) (hnodup : (policy.models.map KernelModel.modelId).Nodup)

include hnodup

theorem nodup_eligibleModels : (eligibleModels policy input).Nodup :=
  hnodup.of_map.filter _

theorem ranks_eligibleModels : Ranks (prefers policy input) (eligibleModels policy input) where
  asymm := by
    intro a _ b _ hab
    rw [← Bool.not_eq_true]
    simp only [prefers, outranks_eq_true_iff, Outranks] at hab ⊢
    omega
  trans := by
    intro a _ b _ c _ hab hbc
    simp only [prefers, outranks_eq_true_iff, Outranks] at hab hbc ⊢
    omega
  total := by
    intro a ha b hb hne
    have hid : (candidateOf policy input a).modelId ≠ (candidateOf policy input b).modelId :=
      fun h => hne (inj_on_of_nodup_map hnodup (mem_eligibleModels_iff.1 ha).1
        (mem_eligibleModels_iff.1 hb).1 (UInt32.toNat_inj.1 h))
    simp only [prefers, outranks_eq_true_iff, Outranks]
    omega

theorem topTwo_exactCandidates :
    topTwo outranks (exactCandidates policy input policy.models) =
      ((topTwo (prefers policy input) (eligibleModels policy input)).1.map
          (candidateOf policy input),
        (topTwo (prefers policy input) (eligibleModels policy input)).2.map
          (candidateOf policy input)) := by
  have hcands : exactCandidates policy input policy.models =
      (eligibleModels policy input).map (candidateOf policy input) := by
    rw [exactCandidates, zipIdx_eq_map_idxOf hnodup.of_map, filter_map, map_map]
    rfl
  rw [hcands]
  exact topTwo_map _ _ (fun _ _ => rfl) _

end Models

theorem Greatest.unique {ms : List KernelModel} {a b : KernelModel}
    (ha : Greatest policy input ms a) (hb : Greatest policy input ms b) : a = b := by
  by_contra hne
  have hab := ha.2 b hb.1 (Ne.symm hne)
  have hba := hb.2 a ha.1 hne
  simp only [Preferred, UInt16.lt_iff_toNat_lt, UInt32.lt_iff_toNat_lt,
    ← UInt16.toNat_inj] at hab hba
  omega

/-- What a decision records when `best` leads the eligible models: the leader with
its position, cost and utility, and the leader of the others, if there are any. -/
structure Records (policy : PolicySnapshot) (input : KernelInput) (d : KernelDecision)
    (best : KernelModel) : Prop where
  selectedModelId : d.selectedModelId = best.modelId
  selectedModelIndex : policy.models[d.selectedModelIndex.toNat]? = some best
  estimatedCost : d.estimatedCostMicrounits.toNat = exactCost best input
  expectedUtility : d.expectedUtilityMicrounits.toInt = exactUtility policy best input
  counterfactual_none : (eligibleModels policy input).erase best = [] →
    d.counterfactualModelId = 0 ∧ d.counterfactualUtilityMicrounits = 0
  counterfactual_some : (eligibleModels policy input).erase best ≠ [] →
    ∃ second, Greatest policy input ((eligibleModels policy input).erase best) second ∧
      d.counterfactualModelId = second.modelId ∧
      d.counterfactualUtilityMicrounits.toInt = exactUtility policy second input

section Distinct

variable (hnodup : (policy.models.map KernelModel.modelId).Nodup)

include hnodup

theorem records_of_topTwo {d : KernelDecision} {best : KernelModel} {second : Option KernelModel}
    (htop : topTwo (prefers policy input) (eligibleModels policy input) = (some best, second))
    (hd : d.toExact = exactSelect policy input (candidateOf policy input best)
      (second.map (candidateOf policy input))) :
    Greatest policy input (eligibleModels policy input) best ∧ Records policy input d best := by
  have hmodels := nodup_eligibleModels input hnodup
  have hranks := ranks_eligibleModels input hnodup
  have hlead := isTop_of_topTwo hmodels hranks htop
  have hindex : d.selectedModelIndex.toNat = policy.models.idxOf best :=
    congrArg selectedModelIndex hd
  refine ⟨greatest_of_isTop hlead, UInt32.toNat_inj.1 (congrArg selectedModelId hd),
    ?_, congrArg estimatedCostMicrounits hd,
    congrArg expectedUtilityMicrounits hd, ?_, ?_⟩
  · rw [hindex, getElem?_idxOf (mem_eligibleModels_iff.1 hlead.1).1]
  · intro hempty
    cases second with
    | none =>
      exact ⟨UInt32.toNat_inj.1 (congrArg counterfactualModelId hd),
        Int64.toInt_inj.1 (congrArg counterfactualUtilityMicrounits hd)⟩
    | some c =>
      have hmem := (isTop_erase_of_topTwo hmodels hranks htop).1
      rw [hempty] at hmem
      cases hmem
  · intro hrest
    cases second with
    | none => exact absurd (erase_eq_nil_of_topTwo hmodels hranks htop) hrest
    | some c =>
      exact ⟨c, greatest_of_isTop (isTop_erase_of_topTwo hmodels hranks htop),
        UInt32.toNat_inj.1 (congrArg counterfactualModelId hd),
        congrArg counterfactualUtilityMicrounits hd⟩

/-- Within the two hard limits, on a catalog that the counters count: either no model is
eligible and the request is rejected, or the greatest eligible model is selected. -/
theorem prescribe_of_limits (hlen : policy.models.length ≤ 65535)
    (hrisk : input.riskBps < policy.hardRiskLimitBps)
    (hconfidence : policy.minimumConfidenceBps ≤ input.confidenceBps) :
    ∃ d, policy.prescribe input = some d ∧
      d.eligibleModels.toNat = (eligibleModels policy input).length ∧
      (d.action = .reject ∧ d.expectedUtilityMicrounits = 0 ∧ eligibleModels policy input = [] ∨
        d.action ≠ .reject ∧ ∃ best, Greatest policy input (eligibleModels policy input) best ∧
          Records policy input d best) := by
  obtain ⟨d, h, hinner, hd⟩ := prescribeInner_eq_exact policy input hlen
  refine ⟨d, by rw [prescribe, hinner, Option.map_some], ?_⟩
  rw [exactPrescribe, if_neg (by rwa [ge_iff_le, not_le, ← UInt16.lt_iff_toNat_lt]),
    if_neg (by rwa [not_lt, ← UInt16.le_iff_toNat_le]), topTwo_exactCandidates input hnodup] at hd
  rw [← length_exactCandidates]
  rcases htop : topTwo (prefers policy input) (eligibleModels policy input) with ⟨best, second⟩
  rw [htop] at hd
  cases best with
  | none =>
    refine ⟨congrArg ExactDecision.eligibleModels hd, .inl ⟨congrArg ExactDecision.action hd,
      Int64.toInt_inj.1 (congrArg ExactDecision.expectedUtilityMicrounits hd), ?_⟩⟩
    exact (topTwo_fst_eq_none_iff (nodup_eligibleModels input hnodup)
      (ranks_eligibleModels input hnodup)).1 (congrArg Prod.fst htop)
  | some best =>
    have haction : d.action = if (candidateOf policy input best).modelId =
        input.requestedModelId.toNat then .executeRequested else .substitute :=
      congrArg ExactDecision.action hd
    refine ⟨congrArg ExactDecision.eligibleModels hd, .inr ⟨?_, best,
      records_of_topTwo hnodup htop hd⟩⟩
    rw [haction]
    split <;> simp

end Distinct

theorem prescribe_of_blocked (policy : PolicySnapshot) (input : KernelInput)
    (h : ¬ (input.riskBps < policy.hardRiskLimitBps ∧
      policy.minimumConfidenceBps ≤ input.confidenceBps)) :
    ∃ d, policy.prescribe input = some d ∧ d.eligibleModels = 0 ∧ d.action = .reject ∧
      d.expectedUtilityMicrounits = 0 ∧
      (d.reason = .riskHardLimit ∨ d.reason = .confidenceHardLimit) := by
  by_cases hrisk : input.riskBps ≥ policy.hardRiskLimitBps
  · refine ⟨_, by rw [prescribe, prescribeInner, if_pos hrisk,
      Option.map_some], rfl, rfl, rfl, .inl rfl⟩
  · have hconfidence : input.confidenceBps < policy.minimumConfidenceBps :=
      UInt16.not_le.1 fun hle => h ⟨UInt16.not_le.1 hrisk, hle⟩
    refine ⟨_, by rw [prescribe, prescribeInner, if_neg hrisk,
      if_pos hconfidence, Option.map_some], rfl, rfl, rfl, .inr rfl⟩

/-- Under a trusted policy, a request within the two hard limits is rejected
exactly when no model is eligible; otherwise the one greatest eligible model is
selected, and the greatest of the others is the counterfactual. -/
theorem prescribe_of_tryNewTrusted {policyEpoch catalogEpoch : UInt64}
    {hardRiskLimitBps minimumConfidenceBps riskPenaltyMultiplierBps : UInt16}
    {latencyPenaltyMicrounitsPerMs : UInt64} {models : List KernelModel}
    (htrusted : tryNewTrusted policyEpoch catalogEpoch hardRiskLimitBps
      minimumConfidenceBps riskPenaltyMultiplierBps latencyPenaltyMicrounitsPerMs models =
        .ok policy)
    (hrisk : input.riskBps < policy.hardRiskLimitBps)
    (hconfidence : policy.minimumConfidenceBps ≤ input.confidenceBps) :
    ∃ d, policy.prescribe input = some d ∧
      (d.action = .reject ↔ ∀ model ∈ policy.models, ¬ Eligible policy input model) ∧
      d.eligibleModels.toNat = (eligibleModels policy input).length ∧
      (d.action ≠ .reject →
        ∃ best, Greatest policy input (eligibleModels policy input) best ∧
          (∀ other, Greatest policy input (eligibleModels policy input) other → other = best) ∧
          Records policy input d best) := by
  obtain ⟨hlen, hnodup⟩ := tryNewTrusted_ok htrusted
  obtain ⟨d, hd, hcount, hcases⟩ := prescribe_of_limits hnodup hlen hrisk hconfidence
  refine ⟨d, hd, ?_, hcount, fun hne => ?_⟩
  · rcases hcases with ⟨haction, -, hempty⟩ | ⟨haction, best, hbest, -⟩
    · refine iff_of_true haction fun model hmem helig => ?_
      exact not_mem_nil (hempty ▸ mem_eligibleModels_iff.2 ⟨hmem, helig⟩)
    · obtain ⟨hmem, helig⟩ := mem_eligibleModels_iff.1 hbest.1
      exact iff_of_false haction fun hnone => hnone best hmem helig
  · rcases hcases with ⟨haction, -, -⟩ | ⟨-, best, hbest, hrecords⟩
    · exact absurd haction hne
    · exact ⟨best, hbest, fun _ h => h.unique hbest, hrecords⟩

theorem tryNewTrusted_unitPrice : PolicySnapshot.tryNewTrusted 1 1 5000 1000 10000 1
    [unitPriceModel 1 5000, unitPriceModel 2 6000] =
      .ok (newUnchecked 1 1 5000 1000 10000 1
        [unitPriceModel 1 5000, unitPriceModel 2 6000]) := by
  have hsort : [unitPriceModel 1 5000, unitPriceModel 2 6000].mergeSort
      (fun a b => decide (a.modelId ≤ b.modelId)) =
        [unitPriceModel 1 5000, unitPriceModel 2 6000] :=
    mergeSort_of_pairwise (by decide)
  simp only [tryNewTrusted, hsort]
  rfl

theorem prescribe_of_tryNewTrusted_unitPrice :
    ∃ policy, tryNewTrusted 1 1 5000 1000 10000 1
        [unitPriceModel 1 5000, unitPriceModel 2 6000] = .ok policy ∧
      ∃ d, policy.prescribe unitPriceInput = some d ∧
        ((d.action = .reject ↔ ∀ model ∈ policy.models, ¬ Eligible policy unitPriceInput model) ∧
          d.eligibleModels.toNat = (eligibleModels policy unitPriceInput).length ∧
          (d.action ≠ .reject →
            ∃ best, Greatest policy unitPriceInput (eligibleModels policy unitPriceInput) best ∧
              (∀ other,
                Greatest policy unitPriceInput (eligibleModels policy unitPriceInput) other →
                other = best) ∧
              Records policy unitPriceInput d best)) := by
  exact ⟨_, tryNewTrusted_unitPrice, prescribe_of_tryNewTrusted tryNewTrusted_unitPrice (by decide)
    (by decide)⟩

end Selection

end Calybris.Kernel
