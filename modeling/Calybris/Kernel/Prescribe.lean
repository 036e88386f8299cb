import Calybris.Kernel.Pricing
import Calybris.Selection.TopTwo

/-!
# The decision loop

`prescribeInner` walks the catalog once. Each model either bumps one rejection
counter or is offered to the pair of leaders. The counters of the gates
saturate; the two counters behind the gates are plain `u16` additions, so the
loop returns `none` when one of them overflows, as it does when a 128-bit step
does not fit.
-/

namespace Calybris.Kernel

open Machine Selection Option

def candidateBetter (left right : Candidate) : Bool :=
  decide (left.utility > right.utility) ||
    (left.utility == right.utility && decide (left.cost < right.cost)) ||
    (left.utility == right.utility && left.cost == right.cost &&
      decide (left.qualityBps > right.qualityBps)) ||
    (left.utility == right.utility && left.cost == right.cost &&
      left.qualityBps == right.qualityBps && decide (left.modelId < right.modelId))

def toU16OrMax (n : Nat) : UInt16 :=
  if n < 2 ^ 16 then UInt16.ofNat n else UInt16.ofNat (2 ^ 16 - 1)

/-- The last entry with the greatest count, as `Iterator::max_by_key` returns. -/
def lastMaxByCount : List (Nat × KernelReason) → Option (Nat × KernelReason)
  | [] => none
  | x :: xs => some (xs.foldl (fun best y => if y.1 < best.1 then best else y) x)

def dominantReason (counts : List (Nat × KernelReason)) : KernelReason :=
  match (lastMaxByCount counts).filter fun entry => decide (entry.1 > 0) with
  | none => .noEnabledModel
  | some entry => entry.2

def dominantRejectionReason (counts : RejectionHistogram) : KernelReason :=
  dominantReason [
    (counts.capability.toNat, .capabilityConstraint),
    (counts.region.toNat, .regionConstraint),
    (counts.provider.toNat, .providerConstraint),
    (counts.quality.toNat, .qualityConstraint),
    (counts.riskCeiling.toNat, .riskCeilingConstraint),
    (counts.latency.toNat, .latencyConstraint),
    (counts.budget.toNat, .budgetConstraint),
    (counts.utility.toNat, .nonPositiveUtility),
    (counts.disabled.toNat, .noEnabledModel)]

structure LoopState where
  best : Option Candidate := none
  second : Option Candidate := none
  eligibleModels : UInt16 := 0
  rejected : RejectionHistogram := {}

def prescribeStep (pricing : Pricing) (input : KernelInput) (st : LoopState)
    (index : Nat) (model : KernelModel) : Option LoopState :=
  match firstFailedGate model input with
  | some kind => some { st with rejected := st.rejected.bump kind }
  | none =>
    let cost := pricing.cost model input
    if cost > input.budgetLimitMicrounits then
      (checkedAdd16 st.rejected.budget 1).map fun n =>
        { st with rejected := { st.rejected with budget := n } }
    else
      (pricing.terms model cost).bind fun terms =>
        if terms.utility ≤ 0 then
          (checkedAdd16 st.rejected.utility 1).map fun n =>
            { st with rejected := { st.rejected with utility := n } }
        else
          let leaders := offer candidateBetter (st.best, st.second) {
            modelId := model.modelId
            modelIndex := toU16OrMax index
            qualityBps := model.qualityBps
            cost := cost
            utility := terms.utility }
          some { st with
            best := leaders.1
            second := leaders.2
            eligibleModels := saturatingAdd16 st.eligibleModels 1 }

def prescribeLoop (pricing : Pricing) (input : KernelInput) :
    Nat → List KernelModel → LoopState → Option LoopState
  | _, [], st => some st
  | index, model :: models, st =>
    (prescribeStep pricing input st index model).bind
      (prescribeLoop pricing input (index + 1) models)

namespace PolicySnapshot

/-- A rejection. The histogram is the empty one: the hard limits exit before any
model is evaluated. -/
def reject (policy : PolicySnapshot) (input : KernelInput) (reason : KernelReason)
    (evaluatedModels eligibleModels : UInt16) : KernelDecision × RejectionHistogram :=
  ({ requestSequence := input.requestSequence
     action := .reject
     reason := reason
     selectedModelId := 0
     selectedModelIndex := UInt16.ofNat (2 ^ 16 - 1)
     estimatedCostMicrounits := 0
     expectedUtilityMicrounits := 0
     counterfactualModelId := 0
     counterfactualUtilityMicrounits := 0
     evaluatedModels := evaluatedModels
     eligibleModels := eligibleModels
     policyEpoch := policy.policyEpoch
     catalogEpoch := policy.catalogEpoch }, {})

def conclude (policy : PolicySnapshot) (input : KernelInput) (st : LoopState) :
    KernelDecision × RejectionHistogram :=
  let evaluatedModels := toU16OrMax policy.models.length
  match st.best with
  | none => ((policy.reject input (dominantRejectionReason st.rejected) evaluatedModels
      st.eligibleModels).1, st.rejected)
  | some best =>
    let action := if best.modelId = input.requestedModelId then
      KernelAction.executeRequested else .substitute
    ({ requestSequence := input.requestSequence
       action := action
       reason := if action = .executeRequested then
         .requestedModelMaximizesUtility else .alternativeMaximizesUtility
       selectedModelId := best.modelId
       selectedModelIndex := best.modelIndex
       estimatedCostMicrounits := best.cost
       expectedUtilityMicrounits := best.utility
       counterfactualModelId := (st.second.map Candidate.modelId).getD 0
       counterfactualUtilityMicrounits := (st.second.map Candidate.utility).getD 0
       evaluatedModels := evaluatedModels
       eligibleModels := st.eligibleModels
       policyEpoch := policy.policyEpoch
       catalogEpoch := policy.catalogEpoch }, st.rejected)

def prescribeInner (policy : PolicySnapshot) (input : KernelInput) :
    Option (KernelDecision × RejectionHistogram) :=
  if input.riskBps ≥ policy.hardRiskLimitBps then
    some (policy.reject input .riskHardLimit 0 0)
  else if input.confidenceBps < policy.minimumConfidenceBps then
    some (policy.reject input .confidenceHardLimit 0 0)
  else do
    let pricing ← Pricing.new policy input
    let st ← prescribeLoop pricing input 0 policy.models {}
    some (policy.conclude input st)

def prescribe (policy : PolicySnapshot) (input : KernelInput) : Option KernelDecision :=
  (policy.prescribeInner input).map Prod.fst

/-- A decision has the epochs of its policy. -/
theorem epochs_of_prescribe {policy : PolicySnapshot} {input : KernelInput}
    {decision : KernelDecision} (h : policy.prescribe input = some decision) :
    decision.policyEpoch = policy.policyEpoch ∧ decision.catalogEpoch = policy.catalogEpoch := by
  have hconclude (st : LoopState) : (policy.conclude input st).1.policyEpoch = policy.policyEpoch ∧
      (policy.conclude input st).1.catalogEpoch = policy.catalogEpoch := by
    rw [conclude]
    cases st.best <;> exact ⟨rfl, rfl⟩
  obtain ⟨⟨_, rejected⟩, hinner, rfl⟩ := map_eq_some_iff.1 h
  rw [prescribeInner] at hinner
  split_ifs at hinner
  · obtain rfl := (Prod.mk.inj (some.inj hinner)).1
    exact ⟨rfl, rfl⟩
  · obtain rfl := (Prod.mk.inj (some.inj hinner)).1
    exact ⟨rfl, rfl⟩
  · obtain ⟨pricing, -, hloop⟩ := bind_eq_some_iff.1 hinner
    obtain ⟨st, -, hst⟩ := bind_eq_some_iff.1 hloop
    exact (Prod.mk.inj (some.inj hst)).1 ▸ hconclude st

end PolicySnapshot

section Words

theorem toNat_toU16OrMax {n : Nat} (h : n ≤ 65535) : (toU16OrMax n).toNat = n := by
  have hlt : n < 2 ^ 16 := by omega
  rw [toU16OrMax, if_pos hlt]
  exact UInt16.toNat_ofNat_of_lt' hlt

end Words

end Calybris.Kernel
