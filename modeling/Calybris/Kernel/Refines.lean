import Calybris.Kernel.Exact

/-!
# The decision loop refines the exact decision

`Counted policy input xs st` relates the counters after the models `xs` to the exact
counts of `xs`, up to the limit of a word, and `Leading policy input xs st` the leaders
to the exact leaders. Each has its step and its run. Together, for a catalog that the
counters can count, they are `LoopInv`, off which `prescribeInner_eq_exact` reads the
decision.
-/

namespace Calybris.Kernel

open Machine Selection List Option PolicySnapshot ExactHistogram

section Comparison

theorem outranks_toExact (a b : Candidate) :
    outranks a.toExact b.toExact = candidateBetter a b := by
  have hutility : (a.utility = b.utility) ↔ (a.utility.toInt = b.utility.toInt) :=
    Int64.toInt_inj.symm
  have hcost : (a.cost = b.cost) ↔ (a.cost.toNat = b.cost.toNat) := UInt64.toNat_inj.symm
  have hquality : (a.qualityBps = b.qualityBps) ↔ (a.qualityBps.toNat = b.qualityBps.toNat) :=
    UInt16.toNat_inj.symm
  rw [Bool.eq_iff_iff, outranks_eq_true_iff]
  simp only [Outranks, Candidate.toExact, candidateBetter, decide_eq_true_eq,
    Bool.or_eq_true, Bool.and_eq_true, beq_iff_eq, gt_iff_lt, Int64.lt_iff_toInt_lt,
    UInt64.lt_iff_toNat_lt, UInt16.lt_iff_toNat_lt, UInt32.lt_iff_toNat_lt, hutility, hcost,
    hquality]
  constructor
  · rintro (h | ⟨hu, h | ⟨hc, h | ⟨hq, h⟩⟩⟩)
    · exact .inl (.inl (.inl h))
    · exact .inl (.inl (.inr ⟨hu, h⟩))
    · exact .inl (.inr ⟨⟨hu, hc⟩, h⟩)
    · exact .inr ⟨⟨⟨hu, hc⟩, hq⟩, h⟩
  · rintro (((h | ⟨hu, h⟩) | ⟨⟨hu, hc⟩, h⟩) | ⟨⟨⟨hu, hc⟩, hq⟩, h⟩)
    · exact .inl h
    · exact .inr ⟨hu, .inl h⟩
    · exact .inr ⟨hu, .inr ⟨hc, .inl h⟩⟩
    · exact .inr ⟨hu, .inr ⟨hc, .inr ⟨hq, h⟩⟩⟩

end Comparison

section Append

variable (policy : PolicySnapshot) (input : KernelInput)

theorem exactCandidates_append_singleton (xs : List KernelModel) (model : KernelModel) :
    exactCandidates policy input (xs ++ [model]) =
      exactCandidates policy input xs ++
        if Eligible policy input model then
          [exactCandidate policy input (model, xs.length)] else [] := by
  unfold exactCandidates
  rw [zipIdx_append, filter_append, map_append]
  congr 1
  by_cases h : Eligible policy input model
  · simp [h]
  · simp [h]

def ExactHistogram.bump (h : ExactHistogram) : ExactVerdict → ExactHistogram
  | .rejected .disabled => { h with disabled := h.disabled + 1 }
  | .rejected .quality => { h with quality := h.quality + 1 }
  | .rejected .latency => { h with latency := h.latency + 1 }
  | .rejected .capability => { h with capability := h.capability + 1 }
  | .rejected .providerUnrepresentable => { h with provider := h.provider + 1 }
  | .rejected .providerNotAllowed => { h with provider := h.provider + 1 }
  | .rejected .region => { h with region := h.region + 1 }
  | .rejected .riskCeiling => { h with riskCeiling := h.riskCeiling + 1 }
  | .overBudget => { h with budget := h.budget + 1 }
  | .nonPositiveUtility => { h with utility := h.utility + 1 }
  | .eligible => h

theorem exactHistogram_append_singleton (xs : List KernelModel) (model : KernelModel) :
    exactHistogram policy input (xs ++ [model]) =
      (exactHistogram policy input xs).bump (exactVerdict policy input model) := by
  unfold exactHistogram countVerdicts
  simp only [countP_append]
  cases h : exactVerdict policy input model with
  | rejected gate => cases gate <;> simp [bump, h]
  | overBudget | nonPositiveUtility | eligible => simp [bump, h]

def ExactHistogram.Within (h : ExactHistogram) (n : Nat) : Prop :=
  h.disabled ≤ n ∧ h.quality ≤ n ∧ h.riskCeiling ≤ n ∧ h.latency ≤ n ∧ h.capability ≤ n ∧
    h.provider ≤ n ∧ h.region ≤ n ∧ h.budget ≤ n ∧ h.utility ≤ n

theorem exactHistogram_within (xs : List KernelModel) :
    (exactHistogram policy input xs).Within xs.length :=
  ⟨countP_le_length, countP_le_length, countP_le_length, countP_le_length,
    countP_le_length, countP_le_length, countP_le_length, countP_le_length,
    countP_le_length⟩

theorem exactCandidates_length_le (xs : List KernelModel) :
    (exactCandidates policy input xs).length ≤ xs.length := by
  unfold exactCandidates
  rw [length_map]
  exact (length_filter_le _ _).trans (length_zipIdx).le

end Append

section Counters

namespace ExactHistogram

def capped (h : ExactHistogram) : ExactHistogram where
  disabled := min 65535 h.disabled
  quality := min 65535 h.quality
  riskCeiling := min 65535 h.riskCeiling
  latency := min 65535 h.latency
  capability := min 65535 h.capability
  provider := min 65535 h.provider
  region := min 65535 h.region
  budget := min 65535 h.budget
  utility := min 65535 h.utility

def Fits (h : ExactHistogram) : Prop := h.budget ≤ 65535 ∧ h.utility ≤ 65535

end ExactHistogram

theorem toExact_bump_capped {h : RejectionHistogram} {exact : ExactHistogram}
    (heq : h.toExact = exact.capped) (gate : GateKind) :
    (h.bump gate).toExact = (exact.bump (.rejected gate)).capped := by
  have hone : ∀ (a : UInt16) (n : Nat), a.toNat = min 65535 n →
      (saturatingAdd16 a 1).toNat = min 65535 (n + 1) := by
    intro a n ha
    rw [toNat_saturatingAdd16_one, ha]
    omega
  simp only [RejectionHistogram.toExact, ExactHistogram.capped, ExactHistogram.mk.injEq] at heq
  obtain ⟨h1, h2, h3, h4, h5, h6, h7, h8, h9⟩ := heq
  cases gate <;>
    simp [RejectionHistogram.bump, RejectionHistogram.toExact, ExactHistogram.bump, capped, *]
  all_goals exact hone _ _ (by assumption)

theorem ExactHistogram.Within.capped_eq {h : ExactHistogram} {n : Nat} (hwithin : h.Within n)
    (hn : n ≤ 65535) : h.capped = h ∧ h.Fits := by
  obtain ⟨h1, h2, h3, h4, h5, h6, h7, h8, h9⟩ := hwithin
  have hmin {a : Nat} (ha : a ≤ n) : min 65535 a = a := min_eq_right (ha.trans hn)
  refine ⟨?_, h8.trans hn, h9.trans hn⟩
  rw [capped, hmin h1, hmin h2, hmin h3, hmin h4, hmin h5, hmin h6, hmin h7, hmin h8, hmin h9]

theorem dominantRejectionReason_toExact (h : RejectionHistogram) :
    dominantRejectionReason h = h.toExact.dominantReason := rfl

end Counters

structure LoopInv (policy : PolicySnapshot) (input : KernelInput) (xs : List KernelModel)
    (st : LoopState) : Prop where
  leaders : topTwo outranks (exactCandidates policy input xs) =
    (st.best.map Candidate.toExact, st.second.map Candidate.toExact)
  eligible : st.eligibleModels.toNat = (exactCandidates policy input xs).length
  rejected : st.rejected.toExact = exactHistogram policy input xs

section Loop

variable {policy : PolicySnapshot} {input : KernelInput} {pricing : Pricing} {model : KernelModel}

/-- The verdict on a model by the comparisons that the loop makes. -/
theorem exists_terms (hnew : Pricing.new policy input = some pricing)
    (hmem : model ∈ policy.models) :
    ∃ terms, pricing.terms model (pricing.cost model input) = some terms ∧
      terms.utility.toInt = exactUtility policy model input ∧
      exactVerdict policy input model = match firstFailedGate model input with
        | some gate => .rejected gate
        | none =>
          if pricing.cost model input > input.budgetLimitMicrounits then .overBudget
          else if terms.utility ≤ 0 then .nonPositiveUtility
          else .eligible := by
  obtain ⟨terms, hterms, hutility⟩ := pricing_terms_utility hnew hmem
  refine ⟨terms, hterms, hutility, ?_⟩
  rw [exactVerdict]
  cases firstFailedGate model input with
  | some gate => rfl
  | none =>
    simp only [gt_iff_lt, UInt64.lt_iff_toNat_lt, toNat_pricing_cost hnew hmem,
      Int64.le_iff_toInt_le, hutility, Int64.toInt_zero]

theorem prescribeStep_eq (hnew : Pricing.new policy input = some pricing)
    (hmem : model ∈ policy.models) (st : LoopState) (index : Nat) :
    ∃ utility : Int64, utility.toInt = exactUtility policy model input ∧
      prescribeStep pricing input st index model =
        match exactVerdict policy input model with
        | .rejected gate => some { st with rejected := st.rejected.bump gate }
        | .overBudget => (checkedAdd16 st.rejected.budget 1).map fun n =>
          { st with rejected := { st.rejected with budget := n } }
        | .nonPositiveUtility => (checkedAdd16 st.rejected.utility 1).map fun n =>
          { st with rejected := { st.rejected with utility := n } }
        | .eligible =>
          let leaders := offer candidateBetter (st.best, st.second) {
            modelId := model.modelId
            modelIndex := toU16OrMax index
            qualityBps := model.qualityBps
            cost := pricing.cost model input
            utility := utility }
          some { st with
            best := leaders.1
            second := leaders.2
            eligibleModels := saturatingAdd16 st.eligibleModels 1 } := by
  obtain ⟨terms, hterms, hutility, hverdict⟩ := exists_terms hnew hmem
  refine ⟨terms.utility, hutility, ?_⟩
  simp only [hverdict, prescribeStep, hterms, bind_some]
  cases firstFailedGate model input with
  | some gate => rfl
  | none =>
    dsimp only
    split_ifs <;> rfl

variable {xs : List KernelModel}

theorem exactCandidates_append_of_ne (h : exactVerdict policy input model ≠ .eligible) :
    exactCandidates policy input (xs ++ [model]) = exactCandidates policy input xs := by
  rw [exactCandidates_append_singleton, if_neg fun helig =>
    h ((exactVerdict_eq_eligible_iff policy input model).2 helig), append_nil]

structure Counted (policy : PolicySnapshot) (input : KernelInput) (xs : List KernelModel)
    (st : LoopState) : Prop where
  best : st.best = none ↔ exactCandidates policy input xs = []
  eligible : st.eligibleModels.toNat = min 65535 (exactCandidates policy input xs).length
  rejected : st.rejected.toExact = (exactHistogram policy input xs).capped

theorem counted_nil : Counted policy input [] {} := ⟨⟨fun _ => rfl, fun _ => rfl⟩, rfl, rfl⟩

theorem checkedAdd16_of_capped {a : UInt16} {n : Nat} (ha : a.toNat = min 65535 n) :
    (n + 1 ≤ 65535 → ∃ c, checkedAdd16 a 1 = some c ∧ c.toNat = min 65535 (n + 1)) ∧
      (n = 65535 → checkedAdd16 a 1 = none) := by
  constructor
  · intro hn
    obtain ⟨c, hc, hval⟩ := checkedAdd16_one (a := a) (by omega)
    exact ⟨c, hc, by omega⟩
  · intro hn
    have hone : (1 : UInt16).toNat = 1 := rfl
    exact if_neg (by omega)

theorem exactHistogram_fits_of_append {ys : List KernelModel}
    (h : (exactHistogram policy input (xs ++ ys)).Fits) :
    (exactHistogram policy input xs).Fits := by
  simp only [ExactHistogram.Fits, exactHistogram, countVerdicts, countP_append] at h ⊢
  omega

variable (hnew : Pricing.new policy input = some pricing)

include hnew

/-- One model is counted, unless its counter is full and a plain addition. -/
theorem counted_step {st : LoopState} (hinv : Counted policy input xs st)
    (hfits : (exactHistogram policy input xs).Fits) (hmem : model ∈ policy.models) :
    ((exactHistogram policy input (xs ++ [model])).Fits →
      ∃ st', prescribeStep pricing input st xs.length model = some st' ∧
        Counted policy input (xs ++ [model]) st') ∧
    (¬ (exactHistogram policy input (xs ++ [model])).Fits →
      prescribeStep pricing input st xs.length model = none) := by
  obtain ⟨utility, -, hstep⟩ := prescribeStep_eq hnew hmem st xs.length
  have hhist := exactHistogram_append_singleton policy input xs model
  have hkeep : exactVerdict policy input model ≠ .eligible →
      exactCandidates policy input (xs ++ [model]) = exactCandidates policy input xs :=
    exactCandidates_append_of_ne
  obtain ⟨hbudget, hutility⟩ := hfits
  have hcounts := hinv.rejected
  simp only [RejectionHistogram.toExact, ExactHistogram.capped, ExactHistogram.mk.injEq] at hcounts
  rw [hstep, hhist]
  cases hverdict : exactVerdict policy input model with
  | rejected gate =>
    have hsame := hkeep (by simp [hverdict])
    refine ⟨fun _ => ⟨_, rfl, by rw [hsame]; exact hinv.best, by rw [hsame]; exact hinv.eligible,
      ?_⟩, fun hnot => absurd ?_ hnot⟩
    · rw [hhist, hverdict]
      exact toExact_bump_capped hinv.rejected gate
    · cases gate <;> exact ⟨hbudget, hutility⟩
  | overBudget =>
    have hsame := hkeep (by simp [hverdict])
    obtain ⟨hroom, hfull⟩ := checkedAdd16_of_capped hcounts.2.2.2.2.2.2.2.1
    refine ⟨fun hfits => ?_, fun hnot => ?_⟩
    · obtain ⟨n, hn, hval⟩ := hroom hfits.1
      refine ⟨_, by rw [hn]; rfl, by rw [hsame]; exact hinv.best,
        by rw [hsame]; exact hinv.eligible, ?_⟩
      rw [hhist, hverdict]
      simp [RejectionHistogram.toExact, ExactHistogram.bump, ExactHistogram.capped, hval, hcounts]
    · have hlimit : ¬ (exactHistogram policy input xs).budget + 1 ≤ 65535 :=
        fun hle => hnot ⟨hle, hutility⟩
      rw [hfull (by omega), map_none]
  | nonPositiveUtility =>
    have hsame := hkeep (by simp [hverdict])
    obtain ⟨hroom, hfull⟩ := checkedAdd16_of_capped hcounts.2.2.2.2.2.2.2.2
    refine ⟨fun hfits => ?_, fun hnot => ?_⟩
    · obtain ⟨n, hn, hval⟩ := hroom hfits.2
      refine ⟨_, by rw [hn]; rfl, by rw [hsame]; exact hinv.best,
        by rw [hsame]; exact hinv.eligible, ?_⟩
      rw [hhist, hverdict]
      simp [RejectionHistogram.toExact, ExactHistogram.bump, ExactHistogram.capped, hval, hcounts]
    · have hlimit : ¬ (exactHistogram policy input xs).utility + 1 ≤ 65535 :=
        fun hle => hnot ⟨hbudget, hle⟩
      rw [hfull (by omega), map_none]
  | eligible =>
    have heligible := (exactVerdict_eq_eligible_iff policy input model).1 hverdict
    have hcands := exactCandidates_append_singleton policy input xs model
    rw [if_pos heligible] at hcands
    refine ⟨fun _ => ⟨_, rfl, ?_, ?_, ?_⟩, fun hnot => absurd ⟨hbudget, hutility⟩ hnot⟩
    · rw [hcands]
      simp [offer_fst_ne_none]
    · rw [hcands, length_append, length_singleton, toNat_saturatingAdd16_one, hinv.eligible]
      omega
    · rw [hhist, hverdict]
      exact hinv.rejected

theorem counted_run (ys : List KernelModel) :
    ∀ (xs : List KernelModel) (st : LoopState), Counted policy input xs st →
      (exactHistogram policy input xs).Fits → (∀ model ∈ ys, model ∈ policy.models) →
      ((exactHistogram policy input (xs ++ ys)).Fits →
        ∃ st', prescribeLoop pricing input xs.length ys st = some st' ∧
          Counted policy input (xs ++ ys) st') ∧
      (¬ (exactHistogram policy input (xs ++ ys)).Fits →
        prescribeLoop pricing input xs.length ys st = none) := by
  induction ys with
  | nil =>
    intro xs st hinv hfits _
    rw [append_nil]
    exact ⟨fun _ => ⟨st, rfl, hinv⟩, fun hnot => absurd hfits hnot⟩
  | cons model ys ih =>
    intro xs st hinv hfits hmem
    obtain ⟨hcounted, hoverflow⟩ := counted_step hnew hinv hfits (hmem model mem_cons_self)
    have hpath : xs ++ model :: ys = (xs ++ [model]) ++ ys := by simp
    rw [prescribeLoop, hpath]
    by_cases hnext : (exactHistogram policy input (xs ++ [model])).Fits
    · obtain ⟨st', hst', hinv'⟩ := hcounted hnext
      have hrest := ih (xs ++ [model]) st' hinv' hnext fun m hm => hmem m (mem_cons_of_mem _ hm)
      rw [length_append, length_singleton] at hrest
      rw [hst', bind_some]
      exact hrest
    · refine ⟨fun hall => absurd (exactHistogram_fits_of_append hall) hnext, fun _ => ?_⟩
      rw [hoverflow hnext, bind_none]

def Leading (policy : PolicySnapshot) (input : KernelInput) (xs : List KernelModel)
    (st : LoopState) : Prop :=
  topTwo outranks (exactCandidates policy input xs) =
    (st.best.map Candidate.toExact, st.second.map Candidate.toExact)

theorem leading_step {st st' : LoopState} (hinv : Leading policy input xs st)
    (hmem : model ∈ policy.models) (hlen : xs.length ≤ 65535)
    (hstep : prescribeStep pricing input st xs.length model = some st') :
    Leading policy input (xs ++ [model]) st' := by
  obtain ⟨utility, hutility, heq⟩ := prescribeStep_eq hnew hmem st xs.length
  rw [heq] at hstep
  by_cases hverdict : exactVerdict policy input model = .eligible
  · rw [hverdict] at hstep
    cases hstep
    rw [Leading, exactCandidates_append_singleton,
      if_pos ((exactVerdict_eq_eligible_iff policy input model).1 hverdict),
      topTwo_append_singleton, hinv,
      ← offer_map Candidate.toExact outranks outranks_toExact (st.best, st.second)]
    congr 1
    simp [exactCandidate, Candidate.toExact, toNat_pricing_cost hnew hmem, hutility,
      toNat_toU16OrMax hlen]
  · -- The other verdicts are only counted.
    have hsame : st'.best = st.best ∧ st'.second = st.second := by
      split at hstep
      · cases hstep
        exact ⟨rfl, rfl⟩
      · obtain ⟨n, -, rfl⟩ := map_eq_some_iff.1 hstep
        exact ⟨rfl, rfl⟩
      · obtain ⟨n, -, rfl⟩ := map_eq_some_iff.1 hstep
        exact ⟨rfl, rfl⟩
      · next heligible => exact absurd heligible hverdict
    rw [Leading, exactCandidates_append_of_ne hverdict, hsame.1, hsame.2]
    exact hinv

theorem leading_run {ys : List KernelModel} {st st' : LoopState} (hinv : Leading policy input xs st)
    (hmem : ∀ model ∈ ys, model ∈ policy.models) (hlen : (xs ++ ys).length ≤ 65535)
    (hrun : prescribeLoop pricing input xs.length ys st = some st') :
    Leading policy input (xs ++ ys) st' := by
  induction ys generalizing xs st with
  | nil =>
    cases hrun
    rwa [append_nil]
  | cons model ys ih =>
    obtain ⟨hmodel, hmem⟩ := forall_mem_cons.1 hmem
    obtain ⟨st₁, hst₁, hrest⟩ := bind_eq_some_iff.1 hrun
    have hpath : xs ++ model :: ys = (xs ++ [model]) ++ ys := by simp
    rw [hpath] at hlen ⊢
    refine ih (leading_step hnew hinv hmodel ?_ hst₁) hmem hlen (by simpa using hrest)
    simp only [length_append] at hlen
    omega

end Loop

section Decision

variable {policy : PolicySnapshot} {input : KernelInput}

theorem reject_toExact (reason : KernelReason) (evaluated eligible : UInt16) :
    (policy.reject input reason evaluated eligible).1.toExact =
      exactReject policy input reason evaluated.toNat eligible.toNat := rfl

theorem conclude_toExact {st : LoopState} (hinv : LoopInv policy input policy.models st)
    (hlen : policy.models.length ≤ 65535) :
    (policy.conclude input st).1.toExact =
      match topTwo outranks (exactCandidates policy input policy.models) with
      | (none, _) => exactReject policy input
          (exactHistogram policy input policy.models).dominantReason policy.models.length
          (exactCandidates policy input policy.models).length
      | (some best, second) => exactSelect policy input best second := by
  have hcount := toNat_toU16OrMax hlen
  rw [hinv.leaders]
  unfold conclude
  cases hbest : st.best with
  | none =>
    dsimp only [map_none]
    rw [reject_toExact, hcount, hinv.eligible, dominantRejectionReason_toExact, hinv.rejected]
  | some best =>
    dsimp only [map_some]
    have hid : (best.modelId = input.requestedModelId) ↔
        (best.toExact.modelId = input.requestedModelId.toNat) := UInt32.toNat_inj.symm
    have hsecond : ((st.second.map Candidate.modelId).getD 0).toNat =
        ((st.second.map Candidate.toExact).map ExactCandidate.modelId).getD 0 := by
      cases st.second <;> rfl
    have hsecondUtility : ((st.second.map Candidate.utility).getD 0).toInt =
        ((st.second.map Candidate.toExact).map ExactCandidate.utility).getD 0 := by
      cases st.second <;> rfl
    simp only [KernelDecision.toExact, exactSelect, hcount, hinv.eligible, hsecond,
      hsecondUtility, hid]
    by_cases h : best.toExact.modelId = input.requestedModelId.toNat
    · simp only [if_pos h]
      rfl
    · simp only [if_neg h]
      rfl

theorem prescribeInner_eq_map {pricing : Pricing} (hnew : Pricing.new policy input = some pricing)
    (hrisk : input.riskBps < policy.hardRiskLimitBps)
    (hconfidence : policy.minimumConfidenceBps ≤ input.confidenceBps) :
    policy.prescribeInner input =
      (prescribeLoop pricing input 0 policy.models {}).map (policy.conclude input) := by
  rw [prescribeInner, if_neg (UInt16.not_le.2 hrisk), if_neg (UInt16.not_lt.2 hconfidence)]
  simp only [hnew, bind_eq_bind, bind_some]
  exact (map_eq_bind ..).symm

theorem prescribeInner_of_limits (policy : PolicySnapshot) (input : KernelInput)
    (hlen : policy.models.length ≤ 65535) (hrisk : input.riskBps < policy.hardRiskLimitBps)
    (hconfidence : policy.minimumConfidenceBps ≤ input.confidenceBps) :
    ∃ st, policy.prescribeInner input = some (policy.conclude input st) ∧
      LoopInv policy input policy.models st := by
  obtain ⟨pricing, hnew, -⟩ := pricing_new_eq policy input
  obtain ⟨hcapped, hfits⟩ := (exactHistogram_within policy input policy.models).capped_eq hlen
  obtain ⟨st, hrun, hinv⟩ := (counted_run hnew policy.models [] {} counted_nil
    ⟨Nat.zero_le _, Nat.zero_le _⟩ fun _ h => h).1 hfits
  have hstart : Leading policy input [] {} := rfl
  refine ⟨st, ?_, leading_run hnew hstart (fun _ h => h) hlen hrun, ?_, hinv.rejected.trans hcapped⟩
  · rw [prescribeInner_eq_map hnew hrisk hconfidence]
    exact congrArg _ hrun
  · rw [hinv.eligible]
    exact min_eq_right ((exactCandidates_length_le policy input policy.models).trans hlen)

theorem prescribeInner_eq_exact (policy : PolicySnapshot) (input : KernelInput)
    (hlen : policy.models.length ≤ 65535) :
    ∃ d h, policy.prescribeInner input = some (d, h) ∧
      d.toExact = exactPrescribe policy input := by
  by_cases hrisk : input.riskBps ≥ policy.hardRiskLimitBps
  · refine ⟨_, _, by rw [prescribeInner, if_pos hrisk], ?_⟩
    rw [exactPrescribe, if_pos (UInt16.le_iff_toNat_le.1 hrisk)]
    rfl
  · by_cases hconfidence : input.confidenceBps < policy.minimumConfidenceBps
    · refine ⟨_, _, by
        rw [prescribeInner, if_neg hrisk, if_pos hconfidence], ?_⟩
      rw [exactPrescribe, if_neg (fun h => hrisk (UInt16.le_iff_toNat_le.2 h)),
        if_pos (UInt16.lt_iff_toNat_lt.1 hconfidence)]
      rfl
    · obtain ⟨st, hinner, hinv⟩ := prescribeInner_of_limits policy input hlen
        (UInt16.not_le.1 hrisk) (UInt16.not_lt.1 hconfidence)
      refine ⟨_, _, hinner, ?_⟩
      rw [exactPrescribe, if_neg (fun h => hrisk (UInt16.le_iff_toNat_le.2 h)),
        if_neg (fun h => hconfidence (UInt16.lt_iff_toNat_lt.2 h))]
      exact conclude_toExact hinv hlen

/-- `prescribe` returns exactly the decision computed with unbounded integers:
every catalog the counters can count, every input, no overflow on the way. -/
theorem prescribe_eq_exactPrescribe (policy : PolicySnapshot) (input : KernelInput)
    (hlen : policy.models.length ≤ 65535) :
    (policy.prescribe input).map KernelDecision.toExact = some (exactPrescribe policy input) := by
  obtain ⟨d, h, hinner, hexact⟩ := prescribeInner_eq_exact policy input hlen
  rw [prescribe, hinner, map_some, map_some, hexact]

def unitPriceModel (modelId : UInt32) (qualityBps : UInt16) : KernelModel where
  modelId := modelId
  providerId := 1
  qualityBps := qualityBps
  riskCeilingBps := 10000
  enabled := 1
  p95LatencyMs := 100
  capabilities := 0
  regionMask := 1
  inputCostMicrounitsPerMillionTokens := 1000000
  outputCostMicrounitsPerMillionTokens := 1000000

def unitPriceInput : KernelInput where
  requestSequence := 7
  requestedModelId := 1
  inputTokens := 10
  outputTokens := 10
  businessValueMicrounits := 1000000
  budgetLimitMicrounits := 1000
  riskBps := 100
  confidenceBps := 9000
  minimumQualityBps := 1000
  maxP95LatencyMs := 1000
  requiredCapabilities := 0
  allowedProviderMask := allProviders
  requiredRegionMask := 1

theorem prescribe_eq_exactPrescribe_unitPrice :
    ((newUnchecked 1 1 5000 1000 10000 1
        [unitPriceModel 1 5000, unitPriceModel 2 6000]).prescribe unitPriceInput).map
        KernelDecision.toExact =
      some (exactPrescribe (newUnchecked 1 1 5000 1000 10000 1
        [unitPriceModel 1 5000, unitPriceModel 2 6000]) unitPriceInput) :=
  prescribe_eq_exactPrescribe _ _ (by decide)

end Decision

end Calybris.Kernel
