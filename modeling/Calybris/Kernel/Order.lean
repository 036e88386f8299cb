import Calybris.Kernel.Account
import Calybris.Kernel.Digest

/-!
# The order of a catalog

The trusted constructor sorts the catalog, so the order in which the models were
listed cannot be seen in anything the policy answers. The legacy constructor
keeps the order, while the policy digest sorts. What the digest forgets is then
visible in one field of a decision, the position of the selected model:
`prescribe_eq_iff_of_policyPreimage_eq`.
-/

namespace Calybris.Kernel

open Machine Selection Text List PolicySnapshot KernelModel

section Sorting

theorem mergeSort_modelId_eq_of_perm {ms ms' : List KernelModel} (hperm : ms.Perm ms')
    (hnodup : (ms.map modelId).Nodup) :
    ms.mergeSort (fun a b => decide (a.modelId ≤ b.modelId)) =
      ms'.mergeSort fun a b => decide (a.modelId ≤ b.modelId) := by
  have hsorted : ∀ xs : List KernelModel,
      (xs.mergeSort fun a b => decide (a.modelId ≤ b.modelId)).Pairwise
        fun a b => decide (a.modelId ≤ b.modelId) = true := by
    apply pairwise_mergeSort
    · intro a b c hab hbc
      rw [decide_eq_true_iff] at hab hbc ⊢
      exact UInt32.le_trans hab hbc
    · intro a b
      rw [Bool.or_eq_true, decide_eq_true_iff, decide_eq_true_iff]
      exact UInt32.le_total a.modelId b.modelId
  have hall : (ms.mergeSort fun a b => decide (a.modelId ≤ b.modelId)).Perm
      (ms'.mergeSort fun a b => decide (a.modelId ≤ b.modelId)) :=
    (mergeSort_perm _ _).trans (hperm.trans (mergeSort_perm _ _).symm)
  refine hall.eq_of_pairwise ?_ (hsorted ms) (hsorted ms')
  intro a b ha hb hab hba
  rw [decide_eq_true_iff] at hab hba
  rw [mem_mergeSort] at ha hb
  exact inj_on_of_nodup_map hnodup ha (hperm.mem_iff.2 hb) (UInt32.le_antisymm hab hba)

end Sorting

section Trusted

variable {policyEpoch catalogEpoch : UInt64}
  {hardRiskLimitBps minimumConfidenceBps riskPenaltyMultiplierBps : UInt16}
  {latencyPenaltyMicrounitsPerMs : UInt64} {ms ms' : List KernelModel}

theorem tryNewTrusted_of_perm (hperm : ms.Perm ms') {policy : PolicySnapshot}
    (h : tryNewTrusted policyEpoch catalogEpoch hardRiskLimitBps
      minimumConfidenceBps riskPenaltyMultiplierBps latencyPenaltyMicrounitsPerMs ms =
        .ok policy) :
    tryNewTrusted policyEpoch catalogEpoch hardRiskLimitBps
      minimumConfidenceBps riskPenaltyMultiplierBps latencyPenaltyMicrounitsPerMs ms' =
        .ok policy := by
  unfold tryNewTrusted at h ⊢
  split_ifs at h with hlen hzero
  rw [if_neg (hperm.length_eq ▸ hlen)]
  have hzero' : ¬ (ms'.any fun model => model.modelId == 0) = true := by
    simp only [any_eq_true] at hzero ⊢
    rintro ⟨model, hmem, hid⟩
    exact hzero ⟨model, hperm.mem_iff.2 hmem, hid⟩
  rw [if_neg hzero']
  cases hflag : ms.find? fun model => decide (model.enabled > 1) with
  | some model =>
    rw [hflag] at h
    cases h
  | none =>
    have hflag' : (ms'.find? fun model => decide (model.enabled > 1)) = none := by
      rw [find?_eq_none] at hflag ⊢
      exact fun model hmem => hflag model (hperm.mem_iff.2 hmem)
    rw [hflag] at h
    rw [hflag']
    dsimp only at h ⊢
    have hnodup : (ms.map modelId).Nodup := by
      split at h
      · cases h
      · next hvalid =>
        have hsorted := (validate_ok hvalid).1
        exact (((mergeSort_perm ms _).map _).nodup_iff).1 hsorted
    rw [← mergeSort_modelId_eq_of_perm hperm hnodup]
    exact h

/-- The order of the models given to the trusted constructor is never seen again:
both orders are accepted or both refused, and accepted ones have one digest preimage
and answer every request alike, in every field. -/
theorem tryNewTrusted_perm (hperm : ms.Perm ms') :
    ((∃ policy, tryNewTrusted policyEpoch catalogEpoch hardRiskLimitBps
        minimumConfidenceBps riskPenaltyMultiplierBps latencyPenaltyMicrounitsPerMs ms =
          .ok policy) ↔
      ∃ policy, tryNewTrusted policyEpoch catalogEpoch hardRiskLimitBps
        minimumConfidenceBps riskPenaltyMultiplierBps latencyPenaltyMicrounitsPerMs ms' =
          .ok policy) ∧
    ∀ policy policy', tryNewTrusted policyEpoch catalogEpoch hardRiskLimitBps
        minimumConfidenceBps riskPenaltyMultiplierBps latencyPenaltyMicrounitsPerMs ms =
          .ok policy →
      tryNewTrusted policyEpoch catalogEpoch hardRiskLimitBps
        minimumConfidenceBps riskPenaltyMultiplierBps latencyPenaltyMicrounitsPerMs ms' =
          .ok policy' →
      policyPreimage policy = policyPreimage policy' ∧
        ∀ input, policy.prescribe input = policy'.prescribe input ∧
          policy.prescribeWithTrace input = policy'.prescribeWithTrace input ∧
          policy.explain input = policy'.explain input := by
  refine ⟨⟨fun ⟨policy, h⟩ => ⟨policy, tryNewTrusted_of_perm hperm h⟩,
    fun ⟨policy, h⟩ => ⟨policy, tryNewTrusted_of_perm hperm.symm h⟩⟩, ?_⟩
  intro policy policy' h h'
  rw [tryNewTrusted_of_perm hperm h] at h'
  cases h'
  exact ⟨rfl, fun input => ⟨rfl, rfl, rfl⟩⟩

theorem tryNewTrusted_perm_unitPrice :
    ∃ policy policy', tryNewTrusted 1 1 5000 1000 10000 1
        [unitPriceModel 1 5000, unitPriceModel 2 6000] = .ok policy ∧
      tryNewTrusted 1 1 5000 1000 10000 1
        [unitPriceModel 2 6000, unitPriceModel 1 5000] = .ok policy' ∧
      policyPreimage policy = policyPreimage policy' ∧
      ∀ input, policy.prescribe input = policy'.prescribe input ∧
        policy.prescribeWithTrace input = policy'.prescribeWithTrace input ∧
        policy.explain input = policy'.explain input := by
  have hswap : [unitPriceModel 1 5000, unitPriceModel 2 6000].Perm
      [unitPriceModel 2 6000, unitPriceModel 1 5000] := List.Perm.swap _ _ _
  obtain ⟨policy', hsecond⟩ := (tryNewTrusted_perm hswap).1.1 ⟨_, tryNewTrusted_unitPrice⟩
  exact ⟨_, policy', tryNewTrusted_unitPrice, hsecond,
    (tryNewTrusted_perm hswap).2 _ _ tryNewTrusted_unitPrice hsecond⟩

end Trusted

structure SameUpToOrder (p q : PolicySnapshot) : Prop where
  policyEpoch : p.policyEpoch = q.policyEpoch
  catalogEpoch : p.catalogEpoch = q.catalogEpoch
  hardRiskLimitBps : p.hardRiskLimitBps = q.hardRiskLimitBps
  minimumConfidenceBps : p.minimumConfidenceBps = q.minimumConfidenceBps
  riskPenaltyMultiplierBps : p.riskPenaltyMultiplierBps = q.riskPenaltyMultiplierBps
  latencyPenaltyMicrounitsPerMs :
    p.latencyPenaltyMicrounitsPerMs = q.latencyPenaltyMicrounitsPerMs
  models : p.models.Perm q.models

def ExactCandidate.unplaced (c : ExactCandidate) : ExactCandidate := { c with modelIndex := 0 }

def ExactDecision.unplaced (d : ExactDecision) : ExactDecision := { d with selectedModelIndex := 0 }

theorem outranks_unplaced (a b : ExactCandidate) :
    outranks a.unplaced b.unplaced = outranks a b := rfl

section SameUpToOrder

variable {p q : PolicySnapshot} {input : KernelInput}

theorem sameUpToOrder_of_policyPreimage_eq (h : policyPreimage p = policyPreimage q) :
    SameUpToOrder p q := by
  obtain ⟨h1, h2, h3, h4, h5, h6, h7⟩ := policyPreimage_inj h
  exact ⟨h1, h2, h3, h4, h5, h6, h7⟩

variable (hsame : SameUpToOrder p q)

include hsame

theorem SameUpToOrder.exactUtility (model : KernelModel) :
    exactUtility p model input = exactUtility q model input := by
  rw [Kernel.exactUtility, Kernel.exactUtility, hsame.riskPenaltyMultiplierBps,
    hsame.latencyPenaltyMicrounitsPerMs]

theorem SameUpToOrder.eligible (model : KernelModel) :
    Eligible p input model ↔ Eligible q input model := by
  rw [Eligible, Eligible, hsame.exactUtility]

theorem SameUpToOrder.exactVerdict (model : KernelModel) :
    exactVerdict p input model = exactVerdict q input model := by
  simp only [Kernel.exactVerdict, hsame.exactUtility]

theorem SameUpToOrder.exactHistogram :
    exactHistogram p input p.models = exactHistogram q input q.models := by
  simp only [Kernel.exactHistogram, countVerdicts, hsame.exactVerdict, hsame.models.countP_eq]

theorem SameUpToOrder.greatest {ms : List KernelModel} {model : KernelModel} :
    Greatest p input ms model ↔ Greatest q input ms model := by
  simp only [Greatest, Preferred, hsame.exactUtility]

theorem SameUpToOrder.eligibleModels :
    (eligibleModels p input).Perm (eligibleModels q input) := by
  simp only [Kernel.eligibleModels, hsame.eligible]
  exact hsame.models.filter _

theorem SameUpToOrder.unplaced_candidateOf (model : KernelModel) :
    (candidateOf p input model).unplaced = (candidateOf q input model).unplaced := by
  simp only [candidateOf, exactCandidate, ExactCandidate.unplaced, hsame.exactUtility]

theorem SameUpToOrder.prefers : prefers p input = prefers q input := by
  funext a b
  have hq := outranks_unplaced (candidateOf q input a) (candidateOf q input b)
  rwa [← hsame.unplaced_candidateOf, ← hsame.unplaced_candidateOf, outranks_unplaced] at hq

theorem SameUpToOrder.topTwo (input : KernelInput)
    (hp : (p.models.map modelId).Nodup)
    (hq : (q.models.map modelId).Nodup) :
    topTwo (Kernel.prefers p input) (Kernel.eligibleModels p input) =
      topTwo (Kernel.prefers q input) (Kernel.eligibleModels q input) := by
  have hranks := ranks_eligibleModels input hq
  rw [← hsame.prefers] at hranks ⊢
  exact topTwo_perm (nodup_eligibleModels input hp) (ranks_eligibleModels input hp) hranks
    hsame.eligibleModels

end SameUpToOrder

section Unplaced

variable {p q : PolicySnapshot} {input : KernelInput}

theorem exactSelect_unplaced (policy : PolicySnapshot) (best : ExactCandidate)
    (second : Option ExactCandidate) :
    (exactSelect policy input best second).unplaced =
      (exactSelect policy input best.unplaced
        (second.map ExactCandidate.unplaced)).unplaced := by
  cases second <;> rfl

theorem exactPrescribe_unplaced_eq (input : KernelInput) (hsame : SameUpToOrder p q)
    (hp : (p.models.map modelId).Nodup)
    (hq : (q.models.map modelId).Nodup) :
    (exactPrescribe p input).unplaced = (exactPrescribe q input).unplaced := by
  have hunplaced : ExactCandidate.unplaced ∘ candidateOf p input =
      ExactCandidate.unplaced ∘ candidateOf q input := funext hsame.unplaced_candidateOf
  have hcount : (exactCandidates p input p.models).length =
      (exactCandidates q input q.models).length := by
    rw [length_exactCandidates, length_exactCandidates, hsame.eligibleModels.length_eq]
  simp only [exactPrescribe, exactReject, hsame.hardRiskLimitBps, hsame.minimumConfidenceBps,
    hsame.policyEpoch, hsame.catalogEpoch, hsame.exactHistogram, hsame.models.length_eq, hcount]
  split
  · rfl
  · split
    · rfl
    · rw [topTwo_exactCandidates input hp, topTwo_exactCandidates input hq,
        hsame.topTwo input hp hq]
      rcases topTwo (prefers q input) (eligibleModels q input) with ⟨_ | best, second⟩
      · rfl
      · dsimp only [Option.map_some]
        rw [exactSelect_unplaced p, exactSelect_unplaced q, hsame.unplaced_candidateOf,
          Option.map_map, Option.map_map, hunplaced]
        simp only [exactSelect, hcount, hsame.models.length_eq, hsame.policyEpoch,
          hsame.catalogEpoch]

theorem selectedModelIndex_exactPrescribe (hrisk : input.riskBps < p.hardRiskLimitBps)
    (hconfidence : p.minimumConfidenceBps ≤ input.confidenceBps)
    (hnodup : (p.models.map modelId).Nodup) :
    (∃ model, Greatest p input (eligibleModels p input) model ∧
      (exactPrescribe p input).selectedModelIndex = p.models.idxOf model) ∨
    ((∀ model, ¬ Greatest p input (eligibleModels p input) model) ∧
      (exactPrescribe p input).selectedModelIndex = 65535) := by
  have hmodels := nodup_eligibleModels input hnodup
  have hranks := ranks_eligibleModels input hnodup
  rw [exactPrescribe, if_neg (by rwa [ge_iff_le, not_le, ← UInt16.lt_iff_toNat_lt]),
    if_neg (by rwa [not_lt, ← UInt16.le_iff_toNat_le]), topTwo_exactCandidates input hnodup]
  rcases htop : topTwo (prefers p input) (eligibleModels p input) with ⟨best, second⟩
  cases best with
  | none =>
    have hnil := (topTwo_fst_eq_none_iff hmodels hranks).1 (congrArg Prod.fst htop)
    exact .inr ⟨fun model h => not_mem_nil (hnil ▸ h.1), rfl⟩
  | some best =>
    exact .inl ⟨best, greatest_of_isTop (isTop_of_topTwo hmodels hranks htop), rfl⟩

theorem exactPrescribe_eq_iff (hsame : SameUpToOrder p q)
    (hp : (p.models.map modelId).Nodup)
    (hq : (q.models.map modelId).Nodup) :
    exactPrescribe p input = exactPrescribe q input ↔
      p.hardRiskLimitBps ≤ input.riskBps ∨ input.confidenceBps < p.minimumConfidenceBps ∨
        ∀ model, Greatest p input (eligibleModels p input) model →
          p.models.idxOf model = q.models.idxOf model := by
  have hunplaced := exactPrescribe_unplaced_eq input hsame hp hq
  have hindex : exactPrescribe p input = exactPrescribe q input ↔
      (exactPrescribe p input).selectedModelIndex =
        (exactPrescribe q input).selectedModelIndex := by
    refine ⟨fun h => by rw [h], fun h => ?_⟩
    cases hpd : exactPrescribe p input
    cases hqd : exactPrescribe q input
    simp only [hpd, hqd, ExactDecision.unplaced, ExactDecision.mk.injEq] at hunplaced h ⊢
    tauto
  by_cases hrisk : p.hardRiskLimitBps ≤ input.riskBps
  · refine iff_of_true ?_ (.inl hrisk)
    rw [hindex, exactPrescribe, if_pos (UInt16.le_iff_toNat_le.1 hrisk), exactPrescribe,
      if_pos (UInt16.le_iff_toNat_le.1 (hsame.hardRiskLimitBps ▸ hrisk))]
    rfl
  by_cases hconfidence : input.confidenceBps < p.minimumConfidenceBps
  · refine iff_of_true ?_ (.inr (.inl hconfidence))
    rw [hindex, exactPrescribe, exactPrescribe, ← hsame.hardRiskLimitBps,
      if_neg (fun h => hrisk (UInt16.le_iff_toNat_le.2 h)),
      if_neg (fun h => hrisk (UInt16.le_iff_toNat_le.2 h)),
      if_pos (UInt16.lt_iff_toNat_lt.1 hconfidence),
      if_pos (UInt16.lt_iff_toNat_lt.1 (hsame.minimumConfidenceBps ▸ hconfidence))]
    rfl
  -- Past the limits, both decisions record where the same model stands.
  have hboth : ∀ model, Greatest q input (eligibleModels q input) model ↔
      Greatest p input (eligibleModels p input) model := by
    intro model
    rw [← hsame.greatest]
    simp only [Greatest, hsame.eligibleModels.mem_iff]
  simp only [hindex, hrisk, hconfidence, false_or]
  have hleft := selectedModelIndex_exactPrescribe (UInt16.not_le.1 hrisk)
    (UInt16.not_lt.1 hconfidence) hp
  have hright := selectedModelIndex_exactPrescribe
    (UInt16.not_le.1 (hsame.hardRiskLimitBps ▸ hrisk))
    (UInt16.not_lt.1 (hsame.minimumConfidenceBps ▸ hconfidence)) hq
  simp only [hboth] at hright
  rcases hleft with ⟨model, hgreatest, hidx⟩ | ⟨hnone, hidx⟩
  · rcases hright with ⟨model', hgreatest', hidx'⟩ | ⟨hnone', -⟩
    · obtain rfl := hgreatest.unique hgreatest'
      rw [hidx, hidx']
      exact ⟨fun h other hother => hother.unique hgreatest ▸ h, fun h => h model hgreatest⟩
    · exact absurd hgreatest (hnone' model)
  · rcases hright with ⟨model', hgreatest', -⟩ | ⟨-, hidx'⟩
    · exact absurd hgreatest' (hnone model')
    · exact iff_of_true (hidx.trans hidx'.symm) fun model h => absurd h (hnone model)

end Unplaced

section Legacy

variable {policyEpoch catalogEpoch policyEpoch' catalogEpoch' : UInt64}
  {hardRiskLimitBps minimumConfidenceBps riskPenaltyMultiplierBps : UInt16}
  {hardRiskLimitBps' minimumConfidenceBps' riskPenaltyMultiplierBps' : UInt16}
  {latencyPenaltyMicrounitsPerMs latencyPenaltyMicrounitsPerMs' : UInt64}
  {ms ms' : List KernelModel} {p q : PolicySnapshot}

theorem tryNew_ok_nodup (h : PolicySnapshot.tryNew policyEpoch catalogEpoch hardRiskLimitBps
      minimumConfidenceBps riskPenaltyMultiplierBps latencyPenaltyMicrounitsPerMs ms = .ok p) :
    (p.models.map modelId).Nodup := by
  unfold tryNew at h
  dsimp only at h
  split at h
  · cases h
  · next hvalid =>
    cases h
    exact (validate_ok hvalid).1

theorem KernelDecision.toExact_injective : Function.Injective KernelDecision.toExact := by
  intro a b h
  simp only [KernelDecision.toExact, ExactDecision.mk.injEq, UInt64.toNat_inj, UInt32.toNat_inj,
    UInt16.toNat_inj, Int64.toInt_inj] at h
  cases a
  cases b
  simp_all

/-- Two policies of the legacy constructor with one digest preimage decide a request
alike, and to one decision digest preimage, exactly when a hard limit refuses it or
the greatest eligible model stands at the same place in both catalogs. -/
theorem prescribe_eq_iff_of_policyPreimage_eq
    (hp : tryNew policyEpoch catalogEpoch hardRiskLimitBps
      minimumConfidenceBps riskPenaltyMultiplierBps latencyPenaltyMicrounitsPerMs ms = .ok p)
    (hq : tryNew policyEpoch' catalogEpoch' hardRiskLimitBps'
      minimumConfidenceBps' riskPenaltyMultiplierBps' latencyPenaltyMicrounitsPerMs' ms' = .ok q)
    (hlen : p.models.length ≤ 65535) (hlen' : q.models.length ≤ 65535)
    (hpreimage : policyPreimage p = policyPreimage q) (input : KernelInput) :
    (p.prescribe input = q.prescribe input ↔
      p.hardRiskLimitBps ≤ input.riskBps ∨ input.confidenceBps < p.minimumConfidenceBps ∨
        ∀ model, Greatest p input (eligibleModels p input) model →
          p.models.idxOf model = q.models.idxOf model) ∧
    ((p.prescribe input).map decisionPreimage = (q.prescribe input).map decisionPreimage ↔
      p.prescribe input = q.prescribe input) := by
  constructor
  · have hsame := sameUpToOrder_of_policyPreimage_eq hpreimage
    obtain ⟨d, h, hinner, hd⟩ := prescribeInner_eq_exact p input hlen
    obtain ⟨d', h', hinner', hd'⟩ := prescribeInner_eq_exact q input hlen'
    rw [← exactPrescribe_eq_iff hsame (tryNew_ok_nodup hp) (tryNew_ok_nodup hq), ← hd, ← hd',
      KernelDecision.toExact_injective.eq_iff, prescribe, prescribe,
      hinner, hinner', Option.map_some, Option.map_some, Option.some.injEq]
  · exact (Option.map_injective decisionPreimage_injective).eq_iff

def listed12 : PolicySnapshot :=
  .newUnchecked 1 1 5000 1000 10000 1 [unitPriceModel 1 5000, unitPriceModel 2 6000]

def listed21 : PolicySnapshot :=
  .newUnchecked 1 1 5000 1000 10000 1 [unitPriceModel 2 6000, unitPriceModel 1 5000]

theorem tryNew_listed :
    tryNew 1 1 5000 1000 10000 1 [unitPriceModel 1 5000, unitPriceModel 2 6000] = .ok listed12 ∧
      tryNew 1 1 5000 1000 10000 1 [unitPriceModel 2 6000, unitPriceModel 1 5000] = .ok listed21 :=
  ⟨rfl, rfl⟩

theorem policyPreimage_listed : policyPreimage listed12 = policyPreimage listed21 := by
  have hsort : sortById [unitPriceModel 1 5000, unitPriceModel 2 6000] =
      sortById [unitPriceModel 2 6000, unitPriceModel 1 5000] :=
    mergeSort_modelId_eq_of_perm (List.Perm.swap _ _ _) (by decide)
  simp only [policyPreimage, listed12, listed21, newUnchecked, hsort]

theorem prescribe_eq_iff_of_policyPreimage_eq_unitPrice :
    (listed12.prescribe unitPriceInput = listed21.prescribe unitPriceInput ↔
      listed12.hardRiskLimitBps ≤ unitPriceInput.riskBps ∨
        unitPriceInput.confidenceBps < listed12.minimumConfidenceBps ∨
        ∀ model, Greatest listed12 unitPriceInput (eligibleModels listed12 unitPriceInput) model →
          [unitPriceModel 1 5000, unitPriceModel 2 6000].idxOf model =
            [unitPriceModel 2 6000, unitPriceModel 1 5000].idxOf model) ∧
    ((listed12.prescribe unitPriceInput).map decisionPreimage =
        (listed21.prescribe unitPriceInput).map decisionPreimage ↔
      listed12.prescribe unitPriceInput = listed21.prescribe unitPriceInput) :=
  prescribe_eq_iff_of_policyPreimage_eq tryNew_listed.1 tryNew_listed.2 (by decide) (by decide)
    policyPreimage_listed unitPriceInput

/-- Both orders are accepted with one preimage, and the second model is selected at
position 1 in one and at position 0 in the other. -/
theorem prescribe_ne_of_policyPreimage_eq :
    ∃ p q, tryNew 1 1 5000 1000 10000 1
        [unitPriceModel 1 5000, unitPriceModel 2 6000] = .ok p ∧
      tryNew 1 1 5000 1000 10000 1
        [unitPriceModel 2 6000, unitPriceModel 1 5000] = .ok q ∧
      p.models.length ≤ 65535 ∧ q.models.length ≤ 65535 ∧ policyPreimage p = policyPreimage q ∧
      p.prescribe unitPriceInput ≠ q.prescribe unitPriceInput ∧
      (p.prescribe unitPriceInput).map decisionPreimage ≠
        (q.prescribe unitPriceInput).map decisionPreimage := by
  refine ⟨_, _, tryNew_listed.1, tryNew_listed.2, by decide, by decide, policyPreimage_listed, ?_,
    ?_⟩
  · decide
  · decide

end Legacy

end Calybris.Kernel
