import Calybris.Kernel.Explain

/-!
# The rows of an explanation account for the decision

`explain` builds its rows in a loop of its own. Every row is a `RowOf` its model:
the verdict is the exact one, and an eligible row carries the exact cost and
utility. The counters of the decision loop are counts of exact verdicts as well,
so the rows can be counted against them, and so can the third copy of the
arithmetic in `utilityForModel`.
-/

namespace Calybris.Kernel

open Machine Selection List PolicySnapshot CandidateVerdict ExactHistogram

def CandidateVerdict.toExact : CandidateVerdict → ExactVerdict
  | .rejected gate _ _ => .rejected gate
  | .overBudget _ _ => .overBudget
  | .nonPositiveUtility _ => .nonPositiveUtility
  | .eligible _ => .eligible

def rowHistogram (rows : List CandidateExplanation) : ExactHistogram :=
  countVerdicts (fun row => row.verdict.toExact) rows

def ExactHistogram.total (h : ExactHistogram) : Nat :=
  h.disabled + h.quality + h.riskCeiling + h.latency + h.capability + h.provider + h.region +
    h.budget + h.utility

def ExactHistogram.gateCount (h : ExactHistogram) : KernelReason → Option Nat
  | .capabilityConstraint => some h.capability
  | .regionConstraint => some h.region
  | .providerConstraint => some h.provider
  | .qualityConstraint => some h.quality
  | .riskCeilingConstraint => some h.riskCeiling
  | .latencyConstraint => some h.latency
  | .budgetConstraint => some h.budget
  | .nonPositiveUtility => some h.utility
  | .noEnabledModel => some h.disabled
  | .requestedModelMaximizesUtility => none
  | .alternativeMaximizesUtility => none
  | .riskHardLimit => none
  | .confidenceHardLimit => none

def NamesLargestGate (h : ExactHistogram) (reason : KernelReason) : Prop :=
  ∃ n, h.gateCount reason = some n ∧ ∀ other m, h.gateCount other = some m → m ≤ n

section Dominant

theorem foldl_lastMax_spec (xs : List (Nat × KernelReason)) (x : Nat × KernelReason) :
    (xs.foldl (fun best y => if y.1 < best.1 then best else y) x ∈ x :: xs) ∧
      ∀ y ∈ x :: xs, y.1 ≤ (xs.foldl (fun best y => if y.1 < best.1 then best else y) x).1 := by
  induction xs generalizing x with
  | nil => simp
  | cons y ys ih =>
    rw [foldl_cons]
    split
    · next hlt =>
      obtain ⟨hmem, hmax⟩ := ih x
      have hx := hmax x mem_cons_self
      refine ⟨cons_subset_cons _ (subset_cons_self _ _) hmem, ?_⟩
      simp only [forall_mem_cons] at hmax ⊢
      exact ⟨hmax.1, hlt.le.trans hx, hmax.2⟩
    · next hle =>
      obtain ⟨hmem, hmax⟩ := ih y
      have hy := hmax y mem_cons_self
      refine ⟨mem_cons_of_mem _ hmem, ?_⟩
      rw [forall_mem_cons]
      exact ⟨(Nat.le_of_not_lt hle).trans hy, hmax⟩

/-- The dominant reason is that of an entry with the greatest count, unless every
count is zero. -/
theorem dominantReason_spec (x : Nat × KernelReason) (xs : List (Nat × KernelReason)) :
    (∃ entry ∈ x :: xs, dominantReason (x :: xs) = entry.2 ∧ ∀ y ∈ x :: xs, y.1 ≤ entry.1) ∨
      (dominantReason (x :: xs) = .noEnabledModel ∧ ∀ y ∈ x :: xs, y.1 = 0) := by
  obtain ⟨hmem, hmax⟩ := foldl_lastMax_spec xs x
  unfold dominantReason lastMaxByCount
  by_cases hpos : 0 < (xs.foldl (fun best y => if y.1 < best.1 then best else y) x).1
  · left
    refine ⟨_, hmem, ?_, hmax⟩
    simp [Option.filter, hpos]
  · right
    refine ⟨by simp [Option.filter, hpos], ?_⟩
    intro y hy
    have := hmax y hy
    omega

theorem namesLargestGate_dominantReason (h : ExactHistogram) :
    NamesLargestGate h h.dominantReason := by
  -- Every gate stands in the list of the source.
  have hall : ∀ {n : Nat}, (∀ y ∈ [(h.capability, KernelReason.capabilityConstraint),
      (h.region, .regionConstraint), (h.provider, .providerConstraint),
      (h.quality, .qualityConstraint), (h.riskCeiling, .riskCeilingConstraint),
      (h.latency, .latencyConstraint), (h.budget, .budgetConstraint),
      (h.utility, .nonPositiveUtility), (h.disabled, .noEnabledModel)], y.1 ≤ n) →
      ∀ other m, h.gateCount other = some m → m ≤ n := by
    intro n hle other m hother
    simp only [forall_mem_cons] at hle
    cases other <;> simp only [gateCount, Option.some.injEq, reduceCtorEq] at hother <;>
      subst hother <;> tauto
  rcases dominantReason_spec (h.capability, .capabilityConstraint) _ with
    ⟨entry, hentry, hreason, hmax⟩ | ⟨hreason, hzero⟩
  · refine ⟨entry.1, ?_, hall hmax⟩
    rw [ExactHistogram.dominantReason, hreason]
    simp only [mem_cons, not_mem_nil, or_false] at hentry
    rcases hentry with rfl | rfl | rfl | rfl | rfl | rfl | rfl | rfl | rfl <;> rfl
  · refine ⟨h.disabled, ?_, hall fun y hy => ?_⟩
    · rw [ExactHistogram.dominantReason, hreason]
      rfl
    · rw [hzero y hy]
      exact Nat.zero_le _

end Dominant

variable {policy : PolicySnapshot} {input : KernelInput}

theorem ExactHistogram.total_bump (h : ExactHistogram) (verdict : ExactVerdict) :
    (h.bump verdict).total = h.total + if verdict = .eligible then 0 else 1 := by
  cases verdict with
  | rejected gate => cases gate <;> simp [bump, total] <;> omega
  | overBudget | nonPositiveUtility => simp [bump, total]; omega
  | eligible => rfl

theorem total_add_length_exactCandidates (xs : List KernelModel) :
    (exactHistogram policy input xs).total + (exactCandidates policy input xs).length =
      xs.length := by
  induction xs using List.reverseRecOn with
  | nil => rfl
  | append_singleton xs model ih =>
    rw [exactHistogram_append_singleton, total_bump, exactCandidates_append_singleton]
    simp only [exactVerdict_eq_eligible_iff, length_append, length_singleton]
    by_cases h : Eligible policy input model
    · simp only [if_pos h, length_singleton]
      omega
    · simp only [if_neg h, length_nil]
      omega

section Rows

variable {pricing : Pricing}

/-- A row says of its model what the exact evaluation says. -/
structure RowOf (policy : PolicySnapshot) (input : KernelInput) (entry : KernelModel × Nat)
    (row : CandidateExplanation) : Prop where
  modelId : row.modelId = entry.1.modelId
  modelIndex : row.modelIndex = toU16OrMax entry.2
  verdict : row.verdict.toExact = exactVerdict policy input entry.1
  terms : ∀ terms, row.verdict = .eligible terms →
    terms.costMicrounits.toNat = exactCost entry.1 input ∧
      terms.utility.toInt = exactUtility policy entry.1 input

theorem terms_costMicrounits {model : KernelModel} {cost : UInt64} {terms : UtilityTerms}
    (h : pricing.terms model cost = some terms) : terms.costMicrounits = cost := by
  simp only [Pricing.terms, Option.bind_eq_bind, Option.bind_eq_some_iff, Option.some.injEq] at h
  obtain ⟨_, -, _, -, _, -, _, -, _, -, rfl⟩ := h
  rfl

theorem explainCandidate_rowOf (hnew : Pricing.new policy input = some pricing)
    {entry : KernelModel × Nat} (hmem : entry.1 ∈ policy.models) :
    ∃ row, explainCandidate pricing input entry = some row ∧ RowOf policy input entry row := by
  obtain ⟨terms, hterms, hutility, hverdict⟩ := exists_terms hnew hmem
  simp only [explainCandidate, candidateVerdict, hterms]
  cases hgate : firstFailedGate entry.1 input with
  | some gate => exact ⟨_, rfl, rfl, rfl, by rw [hverdict, hgate]; rfl, by simp⟩
  | none =>
    rw [hgate] at hverdict
    dsimp only at hverdict
    split_ifs at hverdict ⊢ with hover hnonpos
    · exact ⟨_, rfl, rfl, rfl, hverdict.symm, by simp⟩
    · exact ⟨_, rfl, rfl, rfl, by simp [hverdict, hnonpos, toExact], by simp [hnonpos]⟩
    · refine ⟨_, rfl, rfl, rfl, by simp [hverdict, hnonpos, toExact], ?_⟩
      simp only [hnonpos, if_false, eligible.injEq]
      rintro _ rfl
      rw [terms_costMicrounits hterms]
      exact ⟨toNat_pricing_cost hnew hmem, hutility⟩

theorem exists_mapM_forall₂ {α β : Type*} (R : α → β → Prop) (f : α → Option β) (xs : List α)
    (h : ∀ x ∈ xs, ∃ y, f x = some y ∧ R x y) :
    ∃ ys, xs.mapM f = some ys ∧ List.Forall₂ R xs ys := by
  induction xs with
  | nil => exact ⟨[], rfl, .nil⟩
  | cons x xs ih =>
    obtain ⟨y, hy, hR⟩ := h x mem_cons_self
    obtain ⟨ys, hys, hall⟩ := ih fun x hx => h x (mem_cons_of_mem _ hx)
    exact ⟨y :: ys, by simp [mapM_cons, hy, hys], .cons hR hall⟩

theorem explain_of_limits {d : KernelDecision} {h : RejectionHistogram}
    (hinner : policy.prescribeInner input = some (d, h))
    (hreason : d.reason ≠ .riskHardLimit ∧ d.reason ≠ .confidenceHardLimit) :
    ∃ rows, policy.explain input = some { decision := d, candidates := rows } ∧
      List.Forall₂ (RowOf policy input) policy.models.zipIdx rows := by
  obtain ⟨pricing, hnew, -⟩ := pricing_new_eq policy input
  obtain ⟨rows, hrows, hall⟩ := exists_mapM_forall₂ (RowOf policy input)
    (explainCandidate pricing input) policy.models.zipIdx fun entry hentry =>
      explainCandidate_rowOf hnew (fst_mem_of_mem_zipIdx hentry)
  refine ⟨rows, ?_, hall⟩
  simp [explain, hinner, hreason, hnew, hrows]

end Rows

/-- The third copy of the arithmetic, on a model of the catalog that costs no more
than the budget: it is the terms of the loop. -/
theorem utilityForModel_of_find (hrisk : input.riskBps < policy.hardRiskLimitBps)
    (hconfidence : policy.minimumConfidenceBps ≤ input.confidenceBps)
    {pricing : Pricing} (hnew : Pricing.new policy input = some pricing) {modelId : UInt32}
    {model : KernelModel}
    (hfind : policy.models.find? (fun model => model.modelId == modelId) = some model)
    (hgate : firstFailedGate model input = none) :
    policy.utilityForModel input modelId =
      if pricing.cost model input > input.budgetLimitMicrounits then some none
      else (pricing.terms model (pricing.cost model input)).map fun terms =>
        if terms.utility ≤ 0 then none else some terms.utility := by
  rw [utilityForModel, if_neg (UInt16.not_le.2 hrisk), if_neg (UInt16.not_lt.2 hconfidence), hfind]
  simp only [hgate, Option.isSome_none, Bool.false_eq_true, if_false]
  simp only [Pricing.new, Option.bind_eq_bind, Option.bind_eq_some_iff, Option.some.injEq] at hnew
  obtain ⟨riskPenalty, hpenalty, rfl⟩ := hnew
  rw [hpenalty]
  simp only [Pricing.cost, Pricing.terms, Pricing.qualityAdjusted, Pricing.latencyPenalty,
    Option.bind_eq_bind, Option.bind_some]
  congr 1
  simp only [Option.map_bind, Function.comp_def, Option.map_some]
  generalize Option.filter _ _ = qualityPrefix
  generalize (checkedMul policy.maxP95LatencyMs.toUInt64 _).isSome = allLatenciesFit
  cases qualityPrefix with
  | none =>
    dsimp only
    cases allLatenciesFit <;> simp only [Bool.false_eq_true, if_true, if_false] <;>
      simp only [Option.bind_some, apply_ite some]
  | some pre =>
    dsimp only [Option.bind_some]
    cases allLatenciesFit <;> simp only [Bool.false_eq_true, if_true, if_false] <;>
      simp only [Option.bind_some, apply_ite some]

/-- Within the hard limits, the utility of one model is that of an eligible model of
the catalog with the identifier. -/
theorem utilityForModel_spec (hrisk : input.riskBps < policy.hardRiskLimitBps)
    (hconfidence : policy.minimumConfidenceBps ≤ input.confidenceBps)
    (hnodup : (policy.models.map KernelModel.modelId).Nodup) (modelId : UInt32) :
    ∃ result, policy.utilityForModel input modelId = some result ∧
      ∀ utility, result = some utility ↔ ∃ model ∈ policy.models, model.modelId = modelId ∧
        Eligible policy input model ∧ utility.toInt = exactUtility policy model input := by
  obtain ⟨pricing, hnew, -⟩ := pricing_new_eq policy input
  cases hfind : policy.models.find? fun model => model.modelId == modelId with
  | none =>
    refine ⟨none, ?_, ?_⟩
    · rw [utilityForModel, if_neg (UInt16.not_le.2 hrisk),
        if_neg (UInt16.not_lt.2 hconfidence), hfind]
    · intro utility
      rw [find?_eq_none] at hfind
      refine iff_of_false (by simp) ?_
      rintro ⟨model, hmem, hid, -⟩
      exact hfind model hmem (beq_iff_eq.2 hid)
  | some model =>
    have hmem := mem_of_find?_eq_some hfind
    have hid : model.modelId = modelId := by simpa using find?_some hfind
    obtain ⟨terms, hterms, hutility, hverdict⟩ := exists_terms hnew hmem
    -- Identifiers are distinct, so the model found is the only one in question.
    have hone : ∀ utility : Int64,
        (∃ model ∈ policy.models, model.modelId = modelId ∧ Eligible policy input model ∧
          utility.toInt = exactUtility policy model input) ↔
        exactVerdict policy input model = .eligible ∧ utility = terms.utility := by
      intro utility
      rw [← Int64.toInt_inj, hutility, exactVerdict_eq_eligible_iff]
      constructor
      · rintro ⟨other, hother, hotherId, h⟩
        rwa [inj_on_of_nodup_map hnodup hother hmem (hotherId.trans hid.symm)] at h
      · exact fun h => ⟨model, hmem, hid, h⟩
    simp only [hone, hverdict]
    cases hgate : firstFailedGate model input with
    | some gate =>
      refine ⟨none, ?_, by simp⟩
      rw [utilityForModel, if_neg (UInt16.not_le.2 hrisk),
        if_neg (UInt16.not_lt.2 hconfidence), hfind]
      simp only [hgate, Option.isSome_some, if_true]
    | none =>
      rw [utilityForModel_of_find hrisk hconfidence hnew hfind hgate, hterms, Option.map_some]
      split_ifs <;> exact ⟨_, rfl, by simp [eq_comm]⟩

theorem CandidateVerdict.toExact_eq_eligible_iff (verdict : CandidateVerdict) :
    verdict.toExact = .eligible ↔ ∃ terms, verdict = .eligible terms := by
  cases verdict <;> simp [toExact]

theorem CandidateVerdict.eligibleTerms_isSome (verdict : CandidateVerdict) :
    verdict.eligibleTerms.isSome = decide (verdict.toExact = .eligible) := by
  cases verdict <;> rfl

section Counting

variable {rows : List CandidateExplanation}
  (h : Forall₂ (RowOf policy input) policy.models.zipIdx rows)

include h

theorem map_rows_eq {α : Type*} {f : CandidateExplanation → α} {g : KernelModel → α}
    (hfg : ∀ row entry, RowOf policy input entry row → f row = g entry.1) :
    rows.map f = policy.models.map g := by
  rw [← zipIdx_map_fst 0 policy.models, map_map, ← forall₂_eq_eq_eq, forall₂_map_left_iff,
    forall₂_map_right_iff]
  exact h.flip.imp hfg

theorem countP_rows (p : ExactVerdict → Bool) :
    rows.countP (fun row => p row.verdict.toExact) =
      policy.models.countP fun model => p (exactVerdict policy input model) := by
  have hmap := congrArg (List.countP p) (map_rows_eq h fun _ _ hrow => hrow.verdict)
  rwa [countP_map, countP_map] at hmap

theorem rowHistogram_eq : rowHistogram rows = exactHistogram policy input policy.models := by
  simp only [rowHistogram, exactHistogram, countVerdicts]
  congr 1 <;> exact countP_rows h fun verdict => decide (verdict ∈ _)

theorem length_eligible_rows {d : KernelDecision} :
    (Explanation.eligible { decision := d, candidates := rows }).length =
      (exactCandidates policy input policy.models).length := by
  rw [Explanation.eligible, ← countP_eq_length_filter, length_exactCandidates,
    eligibleModels, ← countP_eq_length_filter]
  simp only [eligibleTerms_isSome, ← exactVerdict_eq_eligible_iff]
  exact countP_rows h fun verdict => decide (verdict = .eligible)

theorem exists_model_of_row {row : CandidateExplanation} (hrow : row ∈ rows)
    {terms : UtilityTerms} (hterms : row.verdict = .eligible terms) :
    ∃ model ∈ policy.models, model.modelId = row.modelId ∧ Eligible policy input model ∧
      terms.utility.toInt = exactUtility policy model input := by
  obtain ⟨i, hi, rfl⟩ := mem_iff_getElem.1 hrow
  have hlen := h.length_eq
  have hof := (forall₂_iff_get.1 h).2 i (by omega) hi
  have hmem := fst_mem_of_mem_zipIdx (get_mem policy.models.zipIdx ⟨i, by omega⟩)
  refine ⟨_, hmem, hof.modelId.symm, ?_, (hof.terms terms hterms).2⟩
  rw [← exactVerdict_eq_eligible_iff, ← hof.verdict, toExact_eq_eligible_iff]
  exact ⟨terms, hterms⟩

theorem exists_row_of_model {model : KernelModel} {i : Nat}
    (hi : policy.models[i]? = some model) (helig : Eligible policy input model) :
    ∃ row ∈ rows, row.modelId = model.modelId ∧ row.modelIndex = toU16OrMax i ∧
      ∃ terms, row.verdict = .eligible terms ∧
        terms.costMicrounits.toNat = exactCost model input ∧
        terms.utility.toInt = exactUtility policy model input := by
  obtain ⟨hlt, hget⟩ := List.getElem?_eq_some_iff.1 hi
  have hlen := h.length_eq
  rw [length_zipIdx] at hlen
  have hof := (forall₂_iff_get.1 h).2 i (by simpa using hlt) (by omega)
  have hentry : policy.models.zipIdx.get ⟨i, by simpa using hlt⟩ = (model, i) := by
    simp [hget]
  rw [hentry] at hof
  refine ⟨_, get_mem rows ⟨i, by omega⟩, hof.modelId, hof.modelIndex, ?_⟩
  have hverdict := hof.verdict.trans ((exactVerdict_eq_eligible_iff policy input model).2 helig)
  obtain ⟨terms, hterms⟩ := (toExact_eq_eligible_iff _).1 hverdict
  exact ⟨terms, hterms, hof.terms terms hterms⟩

end Counting

structure Accounts (policy : PolicySnapshot) (input : KernelInput) (d : KernelDecision)
    (trace : DecisionTrace) (explanation : Explanation) : Prop where
  decision : explanation.decision = d
  histogram : rowHistogram explanation.candidates = trace.rejections.toExact
  eligible : explanation.eligible.length = trace.eligibleModels.toNat ∧
    trace.eligibleModels = d.eligibleModels
  total : input.riskBps < policy.hardRiskLimitBps →
    policy.minimumConfidenceBps ≤ input.confidenceBps →
    trace.rejections.toExact.total + trace.eligibleModels.toNat = policy.models.length
  distinct : (explanation.candidates.map CandidateExplanation.modelId).Nodup
  selected : d.action ≠ .reject → ∃ row ∈ explanation.candidates,
    row.modelId = d.selectedModelId ∧ row.modelIndex = d.selectedModelIndex ∧
      ∃ terms, row.verdict = .eligible terms ∧
        terms.costMicrounits = d.estimatedCostMicrounits ∧
        terms.utility = d.expectedUtilityMicrounits
  utility : ∀ modelId, ∃ result, policy.utilityForModel input modelId = some result ∧
    ∀ utility, result = some utility ↔ ∃ row ∈ explanation.candidates, row.modelId = modelId ∧
      ∃ terms, row.verdict = .eligible terms ∧ terms.utility = utility
  reason : input.riskBps < policy.hardRiskLimitBps →
    policy.minimumConfidenceBps ≤ input.confidenceBps → trace.eligibleModels = 0 →
    d.action = .reject ∧ NamesLargestGate trace.rejections.toExact d.reason

/-- A refusal at a hard limit has no rows, no counts and no utilities. -/
theorem accounts_reject (reason : KernelReason)
    (hlimit : ¬ (input.riskBps < policy.hardRiskLimitBps ∧
      policy.minimumConfidenceBps ≤ input.confidenceBps)) :
    Accounts policy input (policy.reject input reason 0 0).1
      { rejections := {}, evaluatedModels := 0, eligibleModels := 0 }
      { decision := (policy.reject input reason 0 0).1, candidates := [] } where
  decision := rfl
  histogram := rfl
  eligible := ⟨rfl, rfl⟩
  total := fun hrisk hconfidence => absurd ⟨hrisk, hconfidence⟩ hlimit
  distinct := nodup_nil
  selected := fun h => absurd rfl h
  utility := by
    intro modelId
    refine ⟨none, ?_, by simp⟩
    by_cases hrisk : input.riskBps ≥ policy.hardRiskLimitBps
    · rw [utilityForModel, if_pos hrisk]
    · have hconfidence : input.confidenceBps < policy.minimumConfidenceBps :=
        UInt16.not_le.1 fun h => hlimit ⟨UInt16.not_le.1 hrisk, h⟩
      rw [utilityForModel, if_neg hrisk, if_pos hconfidence]
  reason := fun hrisk hconfidence => absurd ⟨hrisk, hconfidence⟩ hlimit

theorem conclude_snd (policy : PolicySnapshot) (input : KernelInput) (st : LoopState) :
    (policy.conclude input st).2 = st.rejected := by
  unfold conclude
  split <;> rfl

theorem conclude_eligibleModels (policy : PolicySnapshot) (input : KernelInput) (st : LoopState) :
    (policy.conclude input st).1.eligibleModels = st.eligibleModels := by
  unfold conclude
  split <;> rfl

/-- Without a leader the decision is a rejection for a gate, with one it is not a
rejection at a hard limit either. -/
theorem conclude_reason (policy : PolicySnapshot) (input : KernelInput) (st : LoopState) :
    (st.best = none → (policy.conclude input st).1.action = .reject ∧
      NamesLargestGate st.rejected.toExact (policy.conclude input st).1.reason) ∧
    (policy.conclude input st).1.reason ≠ .riskHardLimit ∧
      (policy.conclude input st).1.reason ≠ .confidenceHardLimit := by
  unfold conclude
  cases hbest : st.best with
  | none =>
    have hnames := namesLargestGate_dominantReason st.rejected.toExact
    rw [← dominantRejectionReason_toExact] at hnames
    dsimp only [reject]
    refine ⟨fun _ => ⟨rfl, hnames⟩, ?_⟩
    obtain ⟨n, hn, -⟩ := hnames
    constructor <;> intro h <;> rw [h] at hn <;> cases hn
  | some best =>
    dsimp only
    refine ⟨nofun, ?_⟩
    constructor <;> split <;> simp

/-- Within the hard limits the rows account for the decision. -/
theorem accounts_of_limits (hlen : policy.models.length ≤ 65535)
    (hnodup : (policy.models.map KernelModel.modelId).Nodup)
    (hrisk : input.riskBps < policy.hardRiskLimitBps)
    (hconfidence : policy.minimumConfidenceBps ≤ input.confidenceBps) {st : LoopState}
    (hinv : LoopInv policy input policy.models st) {rows : List CandidateExplanation}
    (hrows : List.Forall₂ (RowOf policy input) policy.models.zipIdx rows) :
    Accounts policy input (policy.conclude input st).1
      { rejections := (policy.conclude input st).2
        evaluatedModels := (policy.conclude input st).1.evaluatedModels
        eligibleModels := (policy.conclude input st).1.eligibleModels }
      { decision := (policy.conclude input st).1, candidates := rows } := by
  have hexact := conclude_toExact hinv hlen
  refine ⟨rfl, ?_, ⟨?_, rfl⟩, fun _ _ => ?_, ?_, fun haction => ?_, fun modelId => ?_,
    fun _ _ hzero => ?_⟩
  · rw [conclude_snd, rowHistogram_eq hrows, hinv.rejected]
  · rw [conclude_eligibleModels, hinv.eligible, length_eligible_rows hrows]
  · rw [conclude_snd, conclude_eligibleModels, hinv.rejected, hinv.eligible,
      total_add_length_exactCandidates]
  · rw [map_rows_eq hrows fun _ _ hrow => hrow.modelId]
    exact hnodup
  · rcases htop : topTwo (prefers policy input) (eligibleModels policy input) with ⟨best, second⟩
    rw [topTwo_exactCandidates input hnodup, htop] at hexact
    cases best with
    | none => exact absurd (congrArg ExactDecision.action hexact) haction
    | some best =>
      obtain ⟨hgreatest, hrecords⟩ := records_of_topTwo hnodup htop hexact
      obtain ⟨row, hrow, hid, hindex, terms, hverdict, hcost, hutility⟩ :=
        exists_row_of_model hrows hrecords.selectedModelIndex
          (mem_eligibleModels_iff.1 hgreatest.1).2
      refine ⟨row, hrow, hid.trans hrecords.selectedModelId.symm, ?_, terms, hverdict, ?_, ?_⟩
      · rw [hindex, ← UInt16.toNat_inj]
        exact toNat_toU16OrMax (Nat.le_of_lt_succ (UInt16.toNat_lt _))
      · rw [← UInt64.toNat_inj, hcost, hrecords.estimatedCost]
      · rw [← Int64.toInt_inj, hutility, hrecords.expectedUtility]
  · obtain ⟨result, hresult, hspec⟩ := utilityForModel_spec hrisk hconfidence hnodup modelId
    refine ⟨result, hresult, fun utility => (hspec utility).trans ?_⟩
    constructor
    · rintro ⟨model, hmem, rfl, helig, hutility⟩
      obtain ⟨i, hi⟩ := mem_iff_getElem?.1 hmem
      obtain ⟨row, hrow, hid, -, terms, hverdict, -, hterms⟩ := exists_row_of_model hrows hi helig
      exact ⟨row, hrow, hid, terms, hverdict, Int64.toInt_inj.1 (hterms.trans hutility.symm)⟩
    · rintro ⟨row, hrow, rfl, terms, hverdict, rfl⟩
      exact exists_model_of_row hrows hrow hverdict
  · rw [conclude_snd]
    refine (conclude_reason policy input st).1 ?_
    -- Nothing eligible means no candidate, so the scan found no leader.
    have hnil : exactCandidates policy input policy.models = [] := by
      rw [← length_eq_zero_iff, ← hinv.eligible, ← conclude_eligibleModels policy input]
      exact congrArg UInt16.toNat hzero
    have hbest := congrArg Prod.fst hinv.leaders
    rw [hnil] at hbest
    exact Option.map_eq_none_iff.1 hbest.symm

/-- On every snapshot with distinct identifiers that its counters can count, the
trace, the explanation and the utility of each model tell one story: the rows are
counted by the histogram, the selected model has an eligible row with the cost and
utility of the decision, and a request within the hard limits that finds nothing
eligible is rejected for a gate that turned away the most models. -/
theorem explain_accounts (policy : PolicySnapshot) (input : KernelInput)
    (hlen : policy.models.length ≤ 65535)
    (hnodup : (policy.models.map KernelModel.modelId).Nodup) :
    ∃ d trace explanation, policy.prescribeWithTrace input = some (d, trace) ∧
      policy.explain input = some explanation ∧ Accounts policy input d trace explanation := by
  by_cases hlimits : input.riskBps < policy.hardRiskLimitBps ∧
      policy.minimumConfidenceBps ≤ input.confidenceBps
  · obtain ⟨st, hinner, hinv⟩ := prescribeInner_of_limits policy input hlen hlimits.1 hlimits.2
    obtain ⟨rows, hexplain, hrows⟩ := explain_of_limits hinner (conclude_reason policy input st).2
    exact ⟨_, _, _, by rw [prescribeWithTrace, hinner, Option.map_some], hexplain,
      accounts_of_limits hlen hnodup hlimits.1 hlimits.2 hinv hrows⟩
  · have hinner : ∃ reason, (reason = .riskHardLimit ∨ reason = .confidenceHardLimit) ∧
        policy.prescribeInner input = some (policy.reject input reason 0 0) := by
      unfold prescribeInner
      by_cases hrisk : input.riskBps ≥ policy.hardRiskLimitBps
      · exact ⟨_, .inl rfl, if_pos hrisk⟩
      · refine ⟨_, .inr rfl, ?_⟩
        rw [if_neg hrisk, if_pos (UInt16.not_le.1 fun h => hlimits ⟨UInt16.not_le.1 hrisk, h⟩)]
    obtain ⟨reason, hreason, hinner⟩ := hinner
    refine ⟨_, _, _, ?_, ?_, accounts_reject reason hlimits⟩
    · rw [prescribeWithTrace, hinner]
      rfl
    · rw [explain, hinner]
      exact if_pos hreason

theorem explain_accounts_unitPrice :
    ∃ d trace explanation,
      (newUnchecked 1 1 5000 1000 10000 1
        [unitPriceModel 1 5000, unitPriceModel 2 6000]).prescribeWithTrace unitPriceInput =
          some (d, trace) ∧
      (newUnchecked 1 1 5000 1000 10000 1
        [unitPriceModel 1 5000, unitPriceModel 2 6000]).explain unitPriceInput = some explanation ∧
      Accounts (newUnchecked 1 1 5000 1000 10000 1
        [unitPriceModel 1 5000, unitPriceModel 2 6000]) unitPriceInput d trace explanation :=
  explain_accounts _ _ (by decide) (by decide)

/-- At a hard limit nothing is eligible either, and the reason names no gate. -/
theorem explain_reason_hardLimit :
    ∃ d trace, (newUnchecked 1 1 100 1000 10000 1
        [unitPriceModel 1 5000, unitPriceModel 2 6000]).prescribeWithTrace unitPriceInput =
          some (d, trace) ∧
      trace.eligibleModels = 0 ∧ d.action = .reject ∧ d.reason = .riskHardLimit ∧
      ¬ NamesLargestGate trace.rejections.toExact d.reason := by
  refine ⟨_, _, rfl, rfl, rfl, rfl, ?_⟩
  rintro ⟨n, hn, -⟩
  cases hn

end Calybris.Kernel
