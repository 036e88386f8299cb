import Calybris.Kernel.Trusted

/-!
# Changing one candidate

A counterfactual runs the kernel on a copy of the policy with one candidate replaced. That
also changes the maxima which pick the arithmetic, and with them nothing: the decision is
the exact one on either path. A candidate that is no worse in every property passes where
the other passed, costs no more and has no lower utility, so it wins where the other won,
the tie-break included. A lever moves one property, in one direction for the better.
-/

namespace Calybris.Kernel

open Machine List UInt64 KernelModel

/-! ### The policy with one candidate replaced -/

def withModel (policy : PolicySnapshot) (index : Nat) (model : KernelModel) : PolicySnapshot :=
  .newUnchecked policy.policyEpoch policy.catalogEpoch policy.hardRiskLimitBps
    policy.minimumConfidenceBps policy.riskPenaltyMultiplierBps
    policy.latencyPenaltyMicrounitsPerMs (policy.models.set index model)

def KernelDecision.isExecutable (decision : KernelDecision) : Bool :=
  match decision.action with
  | .executeRequested | .substitute => true
  | .reject => false

def selected (decision : KernelDecision) (modelId : UInt32) : Bool :=
  decision.isExecutable && decision.selectedModelId == modelId

def wins (policy : PolicySnapshot) (index : Nat) (input : KernelInput) (modelId : UInt32)
    (candidate : KernelModel) : Option Bool :=
  ((withModel policy index candidate).prescribe input).map fun decision =>
    selected decision modelId

section Replaced

variable {policy : PolicySnapshot} {index : Nat} {input : KernelInput}
  {model candidate : KernelModel}

section

variable (hget : policy.models[index]? = some model)

include hget

theorem withModel_self : withModel policy index model = policy := by
  obtain ⟨hlt, rfl⟩ := List.getElem?_eq_some_iff.1 hget
  obtain ⟨-, -, -, -, -, -, -, -, -, -, models, rfl, rfl, rfl, rfl⟩ := policy
  simp only [withModel, PolicySnapshot.newUnchecked, List.set_getElem_self]

theorem map_modelId_set (hid : candidate.modelId = model.modelId) :
    (policy.models.set index candidate).map modelId =
      policy.models.map modelId := by
  obtain ⟨hlt, rfl⟩ := List.getElem?_eq_some_iff.1 hget
  rw [List.map_set, hid, ← List.getElem_map modelId, List.set_getElem_self]
  simpa using hlt

theorem mem_set_iff {x : KernelModel} :
    x ∈ policy.models.set index candidate ↔
      x = candidate ∨ x ∈ policy.models.eraseIdx index := by
  obtain ⟨hlt, -⟩ := List.getElem?_eq_some_iff.1 hget
  rw [(List.set_perm_cons_eraseIdx hlt candidate).mem_iff, List.mem_cons]

end

theorem modelId_ne_of_mem_eraseIdx (hnodup : (policy.models.map KernelModel.modelId).Nodup)
    (hget : policy.models[index]? = some model) {x : KernelModel}
    (hx : x ∈ policy.models.eraseIdx index) : x.modelId ≠ model.modelId := by
  obtain ⟨hlt, rfl⟩ := List.getElem?_eq_some_iff.1 hget
  have hperm := (List.set_perm_cons_eraseIdx hlt policy.models[index]).map modelId
  rw [List.set_getElem_self] at hperm
  have hcons := hperm.nodup_iff.1 hnodup
  rw [map_cons, nodup_cons] at hcons
  intro heq
  exact hcons.1 (heq ▸ mem_map_of_mem hx)

/-- The candidate leads the eligible models in the place of the one at the index. -/
def Wins (policy : PolicySnapshot) (index : Nat) (input : KernelInput) (candidate : KernelModel) :
    Prop :=
  Eligible policy input candidate ∧ ∀ x ∈ policy.models.eraseIdx index,
    Eligible policy input x → Preferred policy input candidate x

theorem greatest_withModel_iff (hnodup : (policy.models.map KernelModel.modelId).Nodup)
    (hget : policy.models[index]? = some model) (hid : candidate.modelId = model.modelId) :
    Greatest (withModel policy index candidate) input
      (eligibleModels (withModel policy index candidate) input) candidate ↔
        Wins policy index input candidate := by
  constructor
  · rintro ⟨hmem, hbeats⟩
    refine ⟨(mem_eligibleModels_iff.1 hmem).2, fun x hx helig => ?_⟩
    refine hbeats x (mem_eligibleModels_iff.2 ⟨(mem_set_iff hget).2 (.inr hx), helig⟩) fun heq => ?_
    exact modelId_ne_of_mem_eraseIdx hnodup hget hx (heq ▸ hid)
  · rintro ⟨helig, hbeats⟩
    refine ⟨mem_eligibleModels_iff.2 ⟨(mem_set_iff hget).2 (.inl rfl), helig⟩, fun x hx hne => ?_⟩
    obtain ⟨hmem, helig'⟩ := mem_eligibleModels_iff.1 hx
    exact hbeats x (((mem_set_iff hget).1 hmem).resolve_left hne) helig'

theorem prescribe_withModel (hlen : policy.models.length ≤ 65535)
    (hnodup : (policy.models.map modelId).Nodup)
    (hrisk : input.riskBps < policy.hardRiskLimitBps)
    (hconfidence : policy.minimumConfidenceBps ≤ input.confidenceBps)
    (hget : policy.models[index]? = some model) (hid : candidate.modelId = model.modelId) :
    ∃ d, (withModel policy index candidate).prescribe input = some d ∧
      (selected d model.modelId = true ↔ Wins policy index input candidate) ∧
      (Wins policy index input candidate →
        d.estimatedCostMicrounits.toNat = exactCost candidate input) := by
  have hnodup' : ((withModel policy index candidate).models.map modelId).Nodup := by
    rw [show (withModel policy index candidate).models.map modelId = _ from
      map_modelId_set hget hid]
    exact hnodup
  have hlen' : (withModel policy index candidate).models.length ≤ 65535 := by
    rw [show (withModel policy index candidate).models.length = _ from length_set]
    exact hlen
  obtain ⟨d, hd, -, hcases⟩ := prescribe_of_limits hnodup' hlen' hrisk hconfidence
  refine ⟨d, hd, ?_⟩
  rw [← greatest_withModel_iff hnodup hget hid]
  rcases hcases with ⟨haction, -, hempty⟩ | ⟨haction, best, hbest, hrecords⟩
  · have hnone : ¬ Greatest (withModel policy index candidate) input
        (eligibleModels (withModel policy index candidate) input) candidate :=
      fun h => not_mem_nil (hempty ▸ h.1)
    refine ⟨iff_of_false ?_ hnone, fun h => absurd h hnone⟩
    simp [selected, KernelDecision.isExecutable, haction]
  · have hexecutable : d.isExecutable = true := by
      unfold KernelDecision.isExecutable
      split
      · rfl
      · rfl
      · next hreject => exact absurd hreject haction
    rw [selected, hexecutable, Bool.true_and, hrecords.selectedModelId, beq_iff_eq]
    refine ⟨⟨fun heq => ?_, fun h => by rw [hbest.unique h, hid]⟩, fun h => ?_⟩
    · have hcand : candidate ∈ (withModel policy index candidate).models :=
        (mem_set_iff hget).2 (.inl rfl)
      obtain rfl : best = candidate := inj_on_of_nodup_map hnodup'
        (mem_eligibleModels_iff.1 hbest.1).1 hcand (heq.trans hid.symm)
      exact hbest
    · rw [hrecords.estimatedCost, hbest.unique h]

end Replaced

/-! ### Better candidates -/

structure KernelModel.NoWorse (a b : KernelModel) : Prop where
  modelId : b.modelId = a.modelId
  providerId : b.providerId = a.providerId
  enabled : b.enabled = a.enabled
  capabilities : b.capabilities = a.capabilities
  regionMask : b.regionMask = a.regionMask
  quality : a.qualityBps ≤ b.qualityBps
  riskCeiling : a.riskCeilingBps ≤ b.riskCeilingBps
  latency : b.p95LatencyMs ≤ a.p95LatencyMs
  inputCost : b.inputCostMicrounitsPerMillionTokens ≤ a.inputCostMicrounitsPerMillionTokens
  outputCost : b.outputCostMicrounitsPerMillionTokens ≤ a.outputCostMicrounitsPerMillionTokens

theorem exactTokenCost_mono (tokens : UInt32) {price price' : UInt64} (h : price ≤ price') :
    exactTokenCost tokens price ≤ exactTokenCost tokens price' := by
  rw [exactTokenCost_eq_div, exactTokenCost_eq_div]
  exact Nat.div_le_div_right (Nat.add_le_add_right (Nat.mul_le_mul_left _ (le_iff_toNat_le.1 h)) _)

namespace KernelModel.NoWorse

variable {policy : PolicySnapshot} {input : KernelInput} {a b : KernelModel}

theorem refl (a : KernelModel) : a.NoWorse a :=
  ⟨rfl, rfl, rfl, rfl, rfl, UInt16.le_refl _, UInt16.le_refl _, UInt32.le_refl _, UInt64.le_refl _,
    UInt64.le_refl _⟩

theorem firstFailedGate (h : a.NoWorse b) (hgate : Kernel.firstFailedGate a input = none) :
    Kernel.firstFailedGate b input = none := by
  rw [firstFailedGate_eq_none_iff] at hgate ⊢
  obtain ⟨henabled, hquality, hlatency, hcapabilities, hid, hproviders, hregion, hrisk⟩ := hgate
  rw [h.enabled, h.capabilities, h.providerId, h.regionMask]
  exact ⟨henabled, UInt16.le_trans hquality h.quality,
    hlatency.imp_right (UInt32.le_trans h.latency), hcapabilities, hid, hproviders, hregion,
    UInt16.le_trans hrisk h.riskCeiling⟩

theorem exactCost_le (h : a.NoWorse b) : exactCost b input ≤ exactCost a input :=
  min_le_min le_rfl (Nat.add_le_add (exactTokenCost_mono _ h.inputCost)
    (exactTokenCost_mono _ h.outputCost))

theorem exactUtility_le (h : a.NoWorse b) :
    exactUtility policy a input ≤ exactUtility policy b input := by
  have hquality : exactValue input * input.confidenceBps.toNat * a.qualityBps.toNat / 10 ^ 8 ≤
      exactValue input * input.confidenceBps.toNat * b.qualityBps.toNat / 10 ^ 8 :=
    Nat.div_le_div_right (Nat.mul_le_mul_left _ (UInt16.le_iff_toNat_le.1 h.quality))
  have hlatency : b.p95LatencyMs.toNat * policy.latencyPenaltyMicrounitsPerMs.toNat ≤
      a.p95LatencyMs.toNat * policy.latencyPenaltyMicrounitsPerMs.toNat :=
    Nat.mul_le_mul_right _ (UInt32.le_iff_toNat_le.1 h.latency)
  have hcost : exactCost b input ≤ exactCost a input := h.exactCost_le
  rw [exactUtility, exactUtility]
  refine max_le_max le_rfl (min_le_min le_rfl ?_)
  omega

theorem eligible (h : a.NoWorse b) (helig : Eligible policy input a) : Eligible policy input b :=
  ⟨h.firstFailedGate helig.1, h.exactCost_le.trans helig.2.1, helig.2.2.trans_le h.exactUtility_le⟩

theorem preferred (h : a.NoWorse b) {x : KernelModel} (hbeats : Preferred policy input a x) :
    Preferred policy input b x := by
  have hutility : exactUtility policy a input ≤ exactUtility policy b input := h.exactUtility_le
  have hcost : exactCost b input ≤ exactCost a input := h.exactCost_le
  have hquality := UInt16.le_iff_toNat_le.1 h.quality
  simp only [Preferred, UInt16.lt_iff_toNat_lt, UInt32.lt_iff_toNat_lt, ← UInt16.toNat_inj,
    h.modelId] at hbeats ⊢
  omega

theorem wins (h : a.NoWorse b) {index : Nat} (hwins : Wins policy index input a) :
    Wins policy index input b :=
  ⟨h.eligible hwins.1, fun x hx helig => h.preferred (hwins.2 x hx helig)⟩

end KernelModel.NoWorse

/-! ### Levers -/

def ppm : Nat := 1000000

def maxPriceScalePpm : Nat := 1000 * ppm

def scaledPrice (price : UInt64) (scale : Nat) : UInt64 :=
  let v := price.toNat * scale / ppm
  if v < 2 ^ 64 then ofNat v else ofNat (2 ^ 64 - 1)

def scaled (model : KernelModel) (scale : Nat) : KernelModel :=
  { model with
    inputCostMicrounitsPerMillionTokens :=
      scaledPrice model.inputCostMicrounitsPerMillionTokens scale
    outputCostMicrounitsPerMillionTokens :=
      scaledPrice model.outputCostMicrounitsPerMillionTokens scale }

inductive Lever where
  | qualityBps
  | p95LatencyMs
  | priceScalePpm
  | riskCeilingBps
  | enabled
  deriving DecidableEq

namespace Lever

def set : Lever → KernelModel → Nat → KernelModel
  | .qualityBps, model, v => { model with qualityBps := UInt16.ofNat v }
  | .p95LatencyMs, model, v => { model with p95LatencyMs := UInt32.ofNat v }
  | .priceScalePpm, model, v => scaled model v
  | .riskCeilingBps, model, v => { model with riskCeilingBps := UInt16.ofNat v }
  | .enabled, model, v => { model with enabled := UInt8.ofNat v }

def current : Lever → KernelModel → Nat
  | .qualityBps, model => model.qualityBps.toNat
  | .p95LatencyMs, model => model.p95LatencyMs.toNat
  | .priceScalePpm, _ => ppm
  | .riskCeilingBps, model => model.riskCeilingBps.toNat
  | .enabled, model => model.enabled.toNat

def limit : Lever → Nat
  | .qualityBps | .riskCeilingBps => maxBps.toNat
  | .p95LatencyMs => 2 ^ 32 - 1
  | .priceScalePpm => maxPriceScalePpm
  | .enabled => 1

variable {lever : Lever} {model : KernelModel} {v w : Nat}

theorem modelId_set (lever : Lever) (model : KernelModel) (v : Nat) :
    (lever.set model v).modelId = model.modelId := by
  cases lever <;> rfl

theorem scaledPrice_ppm (price : UInt64) : scaledPrice price ppm = price := by
  have hcancel : price.toNat * ppm / ppm = price.toNat := Nat.mul_div_cancel _ (by decide)
  rw [scaledPrice, hcancel, if_pos price.toNat_lt, UInt64.ofNat_toNat]

theorem scaledPrice_mono (price : UInt64) (h : v ≤ w) :
    scaledPrice price v ≤ scaledPrice price w := by
  have hscale : price.toNat * v / ppm ≤ price.toNat * w / ppm :=
    Nat.div_le_div_right (Nat.mul_le_mul_left _ h)
  have htoNat : ∀ s, (scaledPrice price s).toNat = min (2 ^ 64 - 1) (price.toNat * s / ppm) := by
    intro s
    unfold scaledPrice
    dsimp only
    split
    · next hlt => rw [toNat_ofNat_of_lt' hlt]; omega
    · next hge => rw [toNat_ofNat_of_lt' (by norm_num [UInt64.size])]; omega
  rw [le_iff_toNat_le, htoNat, htoNat]
  omega

theorem set_current (lever : Lever) (model : KernelModel) :
    lever.set model (lever.current model) = model := by
  cases lever with
  | priceScalePpm => simp only [set, current, scaled, scaledPrice_ppm]
  | _ => simp only [set, current, UInt16.ofNat_toNat, UInt32.ofNat_toNat, UInt8.ofNat_toNat]

def rising : Lever → Bool
  | .qualityBps | .riskCeilingBps | .enabled => true
  | .p95LatencyMs | .priceScalePpm => false

def Worse (lever : Lever) (b v : Nat) : Prop := if lever.rising then v < b else b < v

theorem uint16_ofNat_le (hvw : v ≤ w) (hw : w ≤ maxBps.toNat) :
    UInt16.ofNat v ≤ UInt16.ofNat w := by
  have hlimit : w ≤ 10000 := hw
  rw [UInt16.le_iff_toNat_le, UInt16.toNat_ofNat_of_lt' (by simp [UInt16.size]; omega),
    UInt16.toNat_ofNat_of_lt' (by simp [UInt16.size]; omega)]
  exact hvw

theorem uint32_ofNat_le (hvw : v ≤ w) (hw : w ≤ 2 ^ 32 - 1) :
    UInt32.ofNat v ≤ UInt32.ofNat w := by
  rw [UInt32.le_iff_toNat_le, UInt32.toNat_ofNat_of_lt' (by simp [UInt32.size]; omega),
    UInt32.toNat_ofNat_of_lt' (by simp [UInt32.size]; omega)]
  exact hvw

theorem noWorse (hlever : lever ≠ .enabled) {b : Nat} (hb : b ≤ lever.limit) (hv : v ≤ lever.limit)
    (h : ¬ lever.Worse b v) : (lever.set model b).NoWorse (lever.set model v) := by
  cases lever with
  | qualityBps =>
    exact { KernelModel.NoWorse.refl model with quality := uint16_ofNat_le (Nat.le_of_not_lt h) hv }
  | p95LatencyMs =>
    exact { KernelModel.NoWorse.refl model with latency := uint32_ofNat_le (Nat.le_of_not_lt h) hb }
  | priceScalePpm =>
    exact { KernelModel.NoWorse.refl model with
      inputCost := scaledPrice_mono _ (Nat.le_of_not_lt h)
      outputCost := scaledPrice_mono _ (Nat.le_of_not_lt h) }
  | riskCeilingBps =>
    exact { KernelModel.NoWorse.refl model with
      riskCeiling := uint16_ofNat_le (Nat.le_of_not_lt h) hv }
  | enabled => exact absurd rfl hlever

end Lever

end Calybris.Kernel
