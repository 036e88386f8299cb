import Calybris.Kernel.Types
import Mathlib.Algebra.Order.Floor.Div

/-!
# The economic calculation and its exact meaning

`Pricing` is the loop-invariant half of the calculation, with the four guards
that choose between wrapping `u64` arithmetic and the wide fallback. Every
128-bit step goes through `i128?`, so `none` means that one of them did not fit.

`exactCost` and `exactUtility` state the same quantities over unbounded
integers. The results of this module are that each guard, computed from the
maxima of the catalog, makes the wrapping arithmetic exact for every model of
the catalog, and that the fallback always fits.
-/

namespace Calybris.Kernel

open Machine Option Nat UInt64

def modelCostFast (model : KernelModel) (inputTokens outputTokens : UInt32) : UInt64 :=
  (inputTokens.toUInt64 * model.inputCostMicrounitsPerMillionTokens + costRounding) / costScale +
    (outputTokens.toUInt64 * model.outputCostMicrounitsPerMillionTokens + costRounding) / costScale

/-- The wide cost: both halves in `u128`, saturating, then stopped at `u64::MAX`. -/
def modelCostReference (model : KernelModel) (inputTokens outputTokens : UInt32) : UInt64 :=
  let input := saturatingAdd128 (saturatingMul128 inputTokens.toNat
    model.inputCostMicrounitsPerMillionTokens.toNat) costRounding.toNat / costScale.toNat
  let output := saturatingAdd128 (saturatingMul128 outputTokens.toNat
    model.outputCostMicrounitsPerMillionTokens.toNat) costRounding.toNat / costScale.toNat
  let total := saturatingAdd128 input output
  if total < 2 ^ 64 then ofNat total else ofNat (2 ^ 64 - 1)

def scaledTermReference (value firstBps secondBps : UInt64) : Option Int := do
  let first ← i128? ((value.toNat : Int) * firstBps.toNat)
  let second ← i128? (first * secondBps.toNat)
  some (second.tdiv scaledBasisPoints.toNat)

def scaledTermExact (value firstBps secondBps : UInt64) : Option Int :=
  match (checkedMul value firstBps).bind (checkedMul · secondBps) with
  | none => scaledTermReference value firstBps secondBps
  | some numerator => some (numerator / scaledBasisPoints).toNat

def clampI128ToI64 (value : Int) : Int64 := Int64.ofIntClamp value

def PolicySnapshot.allCostsFitU64 (policy : PolicySnapshot)
    (inputTokens outputTokens : UInt32) : Bool :=
  let input := (checkedMul inputTokens.toUInt64 policy.maxInputCost).bind
    (checkedAdd · costRounding)
  let output := (checkedMul outputTokens.toUInt64 policy.maxOutputCost).bind
    (checkedAdd · costRounding)
  match input, output with
  | some input, some output => (checkedAdd input output).isSome
  | _, _ => false

/-- The loop-invariant half of the economic calculation, built once a request. -/
structure Pricing where
  value : UInt64
  confidenceBps : UInt64
  qualityPrefix : Option UInt64
  riskPenalty : Int
  allCostsFit : Bool
  allLatenciesFit : Bool
  latencyPenPerMs : UInt64

namespace Pricing

def new (policy : PolicySnapshot) (input : KernelInput) : Option Pricing := do
  let value := (max input.businessValueMicrounits 0).toUInt64
  let confidenceBps := input.confidenceBps.toUInt64
  let riskPenalty ← scaledTermExact value input.riskBps.toUInt64
    policy.riskPenaltyMultiplierBps.toUInt64
  some {
    value := value
    confidenceBps := confidenceBps
    qualityPrefix := (checkedMul value confidenceBps).filter fun pre =>
      (checkedMul pre policy.maxQualityBps.toUInt64).isSome
    riskPenalty := riskPenalty
    allCostsFit := policy.allCostsFitU64 input.inputTokens input.outputTokens
    allLatenciesFit := (checkedMul policy.maxP95LatencyMs.toUInt64
      policy.latencyPenaltyMicrounitsPerMs).isSome
    latencyPenPerMs := policy.latencyPenaltyMicrounitsPerMs }

def cost (pricing : Pricing) (model : KernelModel) (input : KernelInput) : UInt64 :=
  if pricing.allCostsFit then modelCostFast model input.inputTokens input.outputTokens
  else modelCostReference model input.inputTokens input.outputTokens

/-- The quality term of `terms`: wrapping when the prefix was admitted. -/
def qualityAdjusted (pricing : Pricing) (model : KernelModel) : Option Int :=
  match pricing.qualityPrefix with
  | none => scaledTermReference pricing.value pricing.confidenceBps model.qualityBps.toUInt64
  | some pre => some ((pre * model.qualityBps.toUInt64) / scaledBasisPoints).toNat

/-- The latency term of `terms`: wrapping when every latency fits. -/
def latencyPenalty (pricing : Pricing) (model : KernelModel) : Option Int :=
  if pricing.allLatenciesFit then
    some ((model.p95LatencyMs.toUInt64 * pricing.latencyPenPerMs).toNat : Int)
  else i128? ((model.p95LatencyMs.toNat : Int) * pricing.latencyPenPerMs.toNat)

def terms (pricing : Pricing) (model : KernelModel) (costMicrounits : UInt64) :
    Option UtilityTerms := do
  let qualityAdjusted ← pricing.qualityAdjusted model
  let latencyPenalty ← pricing.latencyPenalty model
  let afterRisk ← i128? (qualityAdjusted - pricing.riskPenalty)
  let afterCost ← i128? (afterRisk - costMicrounits.toNat)
  let afterLatency ← i128? (afterCost - latencyPenalty)
  some {
    qualityAdjusted := qualityAdjusted
    riskPenalty := pricing.riskPenalty
    costMicrounits := costMicrounits
    latencyPenalty := latencyPenalty
    utility := clampI128ToI64 afterLatency }

end Pricing

def exactValue (input : KernelInput) : Nat := input.businessValueMicrounits.toInt.toNat

def exactTokenCost (tokens : UInt32) (price : UInt64) : Nat :=
  (tokens.toNat * price.toNat) ⌈/⌉ 10 ^ 6

def exactCost (model : KernelModel) (input : KernelInput) : Nat :=
  min (2 ^ 64 - 1)
    (exactTokenCost input.inputTokens model.inputCostMicrounitsPerMillionTokens +
      exactTokenCost input.outputTokens model.outputCostMicrounitsPerMillionTokens)

def exactUtility (policy : PolicySnapshot) (model : KernelModel) (input : KernelInput) : Int :=
  max (-2 ^ 63) (min (2 ^ 63 - 1)
    (((exactValue input * input.confidenceBps.toNat * model.qualityBps.toNat / 10 ^ 8 : Nat) :
        Int) -
      (exactValue input * input.riskBps.toNat * policy.riskPenaltyMultiplierBps.toNat / 10 ^ 8 :
        Nat) -
      exactCost model input -
      (model.p95LatencyMs.toNat * policy.latencyPenaltyMicrounitsPerMs.toNat : Nat)))

section Costs

theorem exactTokenCost_eq_div (tokens : UInt32) (price : UInt64) :
    exactTokenCost tokens price = (tokens.toNat * price.toNat + 999999) / 1000000 := by
  have hpred : tokens.toNat * price.toNat + 10 ^ 6 - 1 = tokens.toNat * price.toNat + 999999 := by
    omega
  have hscale : (10 ^ 6 : Nat) = 1000000 := by norm_num
  rw [exactTokenCost, ceilDiv_eq_add_pred_div, hpred, hscale]

theorem tokens_mul_price_lt (tokens : UInt32) (price : UInt64) :
    tokens.toNat * price.toNat < 2 ^ 96 := by
  have hmul := Nat.mul_lt_mul'' tokens.toNat_lt price.toNat_lt
  calc tokens.toNat * price.toNat < 2 ^ 32 * 2 ^ 64 := hmul
    _ = 2 ^ 96 := by norm_num

theorem exactTokenCost_le (tokens : UInt32) (price : UInt64) :
    exactTokenCost tokens price ≤ tokens.toNat * price.toNat + 999999 := by
  rw [exactTokenCost_eq_div]
  exact div_le_self _ _

theorem exactTokenCost_lt (tokens : UInt32) (price : UInt64) :
    exactTokenCost tokens price < 2 ^ 96 := by
  have hlt := tokens_mul_price_lt tokens price
  rw [exactTokenCost_eq_div]
  omega

theorem saturating_direction_eq (tokens : UInt32) (price : UInt64) :
    saturatingAdd128 (saturatingMul128 tokens.toNat price.toNat) costRounding.toNat /
      costScale.toNat = exactTokenCost tokens price := by
  have hlt := tokens_mul_price_lt tokens price
  have hround : costRounding.toNat = 999999 := rfl
  have hscale : costScale.toNat = 1000000 := rfl
  rw [hround, hscale, saturatingMul128_of_lt (by omega), saturatingAdd128_of_lt (by omega),
    exactTokenCost_eq_div]

theorem toNat_modelCostReference (model : KernelModel) (input : KernelInput) :
    (modelCostReference model input.inputTokens input.outputTokens).toNat =
      exactCost model input := by
  have hin := exactTokenCost_lt input.inputTokens model.inputCostMicrounitsPerMillionTokens
  have hout := exactTokenCost_lt input.outputTokens model.outputCostMicrounitsPerMillionTokens
  simp only [modelCostReference, exactCost, saturating_direction_eq]
  rw [saturatingAdd128_of_lt (by omega)]
  split
  · next hlt =>
    rw [toNat_ofNat_of_lt' hlt]
    omega
  · next hge =>
    rw [toNat_ofNat_of_lt' (by norm_num [UInt64.size])]
    omega

theorem toNat_fast_direction (tokens : UInt32) (price : UInt64)
    (hfit : tokens.toNat * price.toNat + 999999 < 2 ^ 64) :
    ((tokens.toUInt64 * price + costRounding) / costScale).toNat =
      exactTokenCost tokens price := by
  have hround : costRounding.toNat = 999999 := rfl
  have hscale : costScale.toNat = 1000000 := rfl
  have hmul : (tokens.toUInt64 * price).toNat = tokens.toNat * price.toNat := by
    rw [toNat_mul_of_lt (by rw [UInt32.toNat_toUInt64]; omega), UInt32.toNat_toUInt64]
  rw [UInt64.toNat_div, toNat_add_of_lt (by rw [hmul, hround]; exact hfit), hmul, hround,
    hscale, exactTokenCost_eq_div]

theorem allCostsFitU64_bounds {policy : PolicySnapshot} {inputTokens outputTokens : UInt32}
    (h : policy.allCostsFitU64 inputTokens outputTokens = true) :
    inputTokens.toNat * policy.maxInputCost.toNat + 999999 +
      (outputTokens.toNat * policy.maxOutputCost.toNat + 999999) < 2 ^ 64 := by
  have hround : costRounding.toNat = 999999 := rfl
  unfold PolicySnapshot.allCostsFitU64 at h
  dsimp only at h
  split at h
  · next input output hin hout =>
    obtain ⟨inProduct, hinMul, hinAdd⟩ := bind_eq_some_iff.1 hin
    obtain ⟨outProduct, houtMul, houtAdd⟩ := bind_eq_some_iff.1 hout
    obtain ⟨rfl, hinMulLt⟩ := checkedMul_eq_some hinMul
    obtain ⟨rfl, houtMulLt⟩ := checkedMul_eq_some houtMul
    obtain ⟨rfl, hinLt⟩ := checkedAdd_eq_some hinAdd
    obtain ⟨rfl, houtLt⟩ := checkedAdd_eq_some houtAdd
    have hsum := (checkedAdd_isSome_iff _ _).1 h
    rw [toNat_add_of_lt hinLt, toNat_add_of_lt houtLt, toNat_mul_of_lt hinMulLt,
      toNat_mul_of_lt houtMulLt, hround] at hsum
    simpa using hsum
  · cases h

theorem toNat_modelCostFast {policy : PolicySnapshot} {model : KernelModel}
    (hmem : model ∈ policy.models) (input : KernelInput)
    (hfit : policy.allCostsFitU64 input.inputTokens input.outputTokens = true) :
    (modelCostFast model input.inputTokens input.outputTokens).toNat =
      exactCost model input := by
  have hbounds := allCostsFitU64_bounds hfit
  have hin : input.inputTokens.toNat * model.inputCostMicrounitsPerMillionTokens.toNat ≤
      input.inputTokens.toNat * policy.maxInputCost.toNat :=
    mul_le_mul_left _ (policy.inputCost_le_max hmem)
  have hout : input.outputTokens.toNat * model.outputCostMicrounitsPerMillionTokens.toNat ≤
      input.outputTokens.toNat * policy.maxOutputCost.toNat :=
    mul_le_mul_left _ (policy.outputCost_le_max hmem)
  have hsum := lt_of_le_of_lt
    (Nat.add_le_add (Nat.add_le_add_right hin 999999) (Nat.add_le_add_right hout 999999)) hbounds
  have hinc := toNat_fast_direction input.inputTokens
    model.inputCostMicrounitsPerMillionTokens (lt_of_le_of_lt (le_add_right _ _) hsum)
  have houtc := toNat_fast_direction input.outputTokens
    model.outputCostMicrounitsPerMillionTokens (lt_of_le_of_lt (le_add_left _ _) hsum)
  have htotal := Nat.add_le_add (exactTokenCost_le input.inputTokens
    model.inputCostMicrounitsPerMillionTokens) (exactTokenCost_le input.outputTokens
    model.outputCostMicrounitsPerMillionTokens)
  unfold modelCostFast exactCost
  rw [toNat_add_of_lt (by rw [hinc, houtc]; exact lt_of_le_of_lt htotal hsum), hinc, houtc,
    min_eq_right (le_sub_one_of_lt (lt_of_le_of_lt htotal hsum))]

end Costs

section Terms

theorem scaledBasisPoints_toNat : scaledBasisPoints.toNat = 10 ^ 8 := by
  simp [scaledBasisPoints]

/-- A value, and two basis-point factors of 16 bits each, multiply well inside
the signed 128-bit range. -/
theorem value_mul_mul_lt {value first second : Nat} (hvalue : value < 2 ^ 64)
    (hfirst : first < 2 ^ 16) (hsecond : second < 2 ^ 16) :
    value * first < 2 ^ 80 ∧ value * first * second < 2 ^ 96 := by
  have hone : value * first < 2 ^ 80 := calc
    value * first < 2 ^ 64 * 2 ^ 16 := Nat.mul_lt_mul'' hvalue hfirst
    _ = 2 ^ 80 := by norm_num
  refine ⟨hone, ?_⟩
  calc value * first * second < 2 ^ 80 * 2 ^ 16 := Nat.mul_lt_mul'' hone hsecond
    _ = 2 ^ 96 := by norm_num

/-- The wide scaled term never overflows and is the exact floor. -/
theorem scaledTermReference_eq (value : UInt64) (first second : UInt16) :
    scaledTermReference value first.toUInt64 second.toUInt64 =
      some ((value.toNat * first.toNat * second.toNat / 10 ^ 8 : Nat) : Int) := by
  obtain ⟨hone, htwo⟩ := value_mul_mul_lt value.toNat_lt first.toNat_lt second.toNat_lt
  have hscale := scaledBasisPoints_toNat
  have hfirst : i128? ((value.toNat : Int) * first.toUInt64.toNat) =
      some ((value.toNat * first.toNat : Nat) : Int) := by
    rw [UInt16.toNat_toUInt64, ← cast_mul]
    exact i128?_of_bounds (by omega) (by omega)
  have hsecond : i128? (((value.toNat * first.toNat : Nat) : Int) * second.toUInt64.toNat) =
      some ((value.toNat * first.toNat * second.toNat : Nat) : Int) := by
    rw [UInt16.toNat_toUInt64, ← cast_mul]
    exact i128?_of_bounds (by omega) (by omega)
  have hnonneg : (0 : Int) ≤ ((value.toNat * first.toNat * second.toNat : Nat) : Int) :=
    Int.natCast_nonneg _
  rw [scaledTermReference, hfirst, bind_eq_bind, bind_some, hsecond,
    bind_some, hscale, Int.tdiv_eq_ediv_of_nonneg hnonneg, Int.natCast_div]

theorem scaledTermExact_eq (value : UInt64) (first second : UInt16) :
    scaledTermExact value first.toUInt64 second.toUInt64 =
      some ((value.toNat * first.toNat * second.toNat / 10 ^ 8 : Nat) : Int) := by
  have hscale := scaledBasisPoints_toNat
  unfold scaledTermExact
  split
  · exact scaledTermReference_eq value first second
  · next numerator hnum =>
    obtain ⟨product, hmul, hmul'⟩ := bind_eq_some_iff.1 hnum
    obtain ⟨rfl, hlt⟩ := checkedMul_eq_some hmul
    obtain ⟨rfl, hlt'⟩ := checkedMul_eq_some hmul'
    rw [UInt64.toNat_div, toNat_mul_of_lt hlt', toNat_mul_of_lt hlt, hscale,
      UInt16.toNat_toUInt64, UInt16.toNat_toUInt64]

theorem toNat_value (input : KernelInput) :
    (max input.businessValueMicrounits 0).toUInt64.toNat = exactValue input :=
  toNat_toUInt64_max_zero _

theorem pricing_new_eq (policy : PolicySnapshot) (input : KernelInput) :
    ∃ pricing, Pricing.new policy input = some pricing ∧
      pricing.value.toNat = exactValue input ∧
      pricing.confidenceBps = input.confidenceBps.toUInt64 ∧
      pricing.qualityPrefix = (checkedMul pricing.value pricing.confidenceBps).filter
        (fun pre => (checkedMul pre policy.maxQualityBps.toUInt64).isSome) ∧
      pricing.riskPenalty = (exactValue input * input.riskBps.toNat *
        policy.riskPenaltyMultiplierBps.toNat / 10 ^ 8 : Nat) ∧
      pricing.allCostsFit = policy.allCostsFitU64 input.inputTokens input.outputTokens ∧
      pricing.allLatenciesFit = (checkedMul policy.maxP95LatencyMs.toUInt64
        policy.latencyPenaltyMicrounitsPerMs).isSome ∧
      pricing.latencyPenPerMs = policy.latencyPenaltyMicrounitsPerMs := by
  have hvalue := toNat_value input
  have hrisk := scaledTermExact_eq (max input.businessValueMicrounits 0).toUInt64
    input.riskBps policy.riskPenaltyMultiplierBps
  rw [hvalue] at hrisk
  rw [Pricing.new, hrisk]
  exact ⟨_, rfl, hvalue, rfl, rfl, rfl, rfl, rfl, rfl⟩

variable {policy : PolicySnapshot} {input : KernelInput} {model : KernelModel}
  {pricing : Pricing}

section

variable (hnew : Pricing.new policy input = some pricing)

include hnew

section

variable (hmem : model ∈ policy.models)

include hmem

theorem toNat_pricing_cost : (pricing.cost model input).toNat = exactCost model input := by
  obtain ⟨pricing', hnew', -, -, -, -, hfit, -, -⟩ := pricing_new_eq policy input
  obtain rfl : pricing = pricing' := Option.some.inj (hnew.symm.trans hnew')
  unfold Pricing.cost
  split
  · next h => exact toNat_modelCostFast hmem input (hfit ▸ h)
  · exact toNat_modelCostReference model input

/-- The quality term, fast or wide. The fast product is bounded by the one the
guard checked, since no model exceeds the catalog's best quality. -/
theorem qualityAdjusted_eq :
    pricing.qualityAdjusted model =
      some ((exactValue input * input.confidenceBps.toNat * model.qualityBps.toNat / 10 ^ 8 :
        Nat) : Int) := by
  obtain ⟨pricing', hnew', hvalue, hconf, hpref, -, -, -, -⟩ := pricing_new_eq policy input
  obtain rfl : pricing = pricing' := Option.some.inj (hnew.symm.trans hnew')
  have hscale := scaledBasisPoints_toNat
  unfold Pricing.qualityAdjusted
  cases hpre : pricing.qualityPrefix with
  | none =>
    dsimp only
    rw [hconf, scaledTermReference_eq, hvalue]
  | some pre =>
    rw [hpre] at hpref
    obtain ⟨hmul, hguard⟩ := filter_eq_some_iff.1 hpref.symm
    obtain ⟨rfl, hlt⟩ := checkedMul_eq_some hmul
    have hbound := (checkedMul_isSome_iff _ _).1 hguard
    rw [UInt16.toNat_toUInt64] at hbound
    have hquality := mul_le_mul_left (pricing.value * pricing.confidenceBps).toNat
      (policy.qualityBps_le_max hmem)
    dsimp only
    rw [UInt64.toNat_div, toNat_mul_of_lt (by rw [UInt16.toNat_toUInt64]; omega),
      toNat_mul_of_lt hlt, hvalue, hconf, hscale, UInt16.toNat_toUInt64, UInt16.toNat_toUInt64]

theorem latencyPenalty_eq :
    pricing.latencyPenalty model =
      some ((model.p95LatencyMs.toNat * policy.latencyPenaltyMicrounitsPerMs.toNat : Nat) :
        Int) := by
  obtain ⟨pricing', hnew', -, -, -, -, -, hfit, hpen⟩ := pricing_new_eq policy input
  obtain rfl : pricing = pricing' := Option.some.inj (hnew.symm.trans hnew')
  rw [Pricing.latencyPenalty, hpen]
  split
  · next h =>
    have hbound := (checkedMul_isSome_iff _ _).1 (hfit ▸ h)
    rw [UInt32.toNat_toUInt64] at hbound
    have hlatency := mul_le_mul_right policy.latencyPenaltyMicrounitsPerMs.toNat
      (policy.p95LatencyMs_le_max hmem)
    rw [toNat_mul_of_lt (by rw [UInt32.toNat_toUInt64]; omega), UInt32.toNat_toUInt64]
  · have hlt := tokens_mul_price_lt model.p95LatencyMs policy.latencyPenaltyMicrounitsPerMs
    rw [← cast_mul]
    exact i128?_of_bounds (by omega) (by omega)

/-- The terms of every model of the catalog exist, no 128-bit step overflows,
and their utility is the exact one. -/
theorem pricing_terms_utility :
    ∃ terms, pricing.terms model (pricing.cost model input) = some terms ∧
      terms.utility.toInt = exactUtility policy model input := by
  obtain ⟨pricing', hnew', -, -, -, hrisk, -, -, -⟩ := pricing_new_eq policy input
  obtain rfl : pricing = pricing' := Option.some.inj (hnew.symm.trans hnew')
  have hcost := toNat_pricing_cost hnew hmem
  have hvalue : exactValue input < 2 ^ 64 := toNat_value input ▸ toNat_lt _
  obtain ⟨-, hq⟩ := value_mul_mul_lt hvalue input.confidenceBps.toNat_lt model.qualityBps.toNat_lt
  obtain ⟨-, hr⟩ := value_mul_mul_lt hvalue input.riskBps.toNat_lt
    policy.riskPenaltyMultiplierBps.toNat_lt
  have hl := tokens_mul_price_lt model.p95LatencyMs policy.latencyPenaltyMicrounitsPerMs
  have hc : exactCost model input < 2 ^ 64 := by
    rw [← hcost]
    exact toNat_lt _
  have hq' := div_le_self (exactValue input * input.confidenceBps.toNat *
    model.qualityBps.toNat) (10 ^ 8)
  have hr' := div_le_self (exactValue input * input.riskBps.toNat *
    policy.riskPenaltyMultiplierBps.toNat) (10 ^ 8)
  rw [Pricing.terms, qualityAdjusted_eq hnew hmem, latencyPenalty_eq hnew hmem, hrisk, hcost]
  simp only [bind_eq_bind, bind_some]
  rw [i128?_of_bounds (by omega) (by omega), bind_some,
    i128?_of_bounds (by omega) (by omega), bind_some,
    i128?_of_bounds (by omega) (by omega), bind_some]
  refine ⟨_, rfl, ?_⟩
  rw [clampI128ToI64, toInt_ofIntClamp, exactUtility]

end

end

end Terms

end Calybris.Kernel
