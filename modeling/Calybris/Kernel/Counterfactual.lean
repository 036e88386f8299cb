import Calybris.Kernel.Account
import Calybris.Kernel.Lever
import Calybris.Search.Monotone

/-!
# What would have to change

`whatWouldWin` searches, lever by lever, for the smallest change after which a candidate is
selected, and `decisionMargin` for the largest after which the selected one still is. The
search is a bisection of answers of the kernel itself, so it is exact because the answers
turn once: the set of values at which a candidate wins is closed in the direction in which
its lever gets better.

As in the kernel, `none` is an evaluation that does not return.
-/

namespace Calybris.Kernel

open Machine Search Option PolicySnapshot

structure Requirement where
  lever : Lever
  current : Nat
  boundary : Nat
  /-- For a price, what the candidate would cost at the boundary. -/
  costAtBoundaryMicrounits : Option UInt64
  deriving DecidableEq

structure Counterfactual where
  modelId : UInt32
  decision : KernelDecision
  /-- Set when the request was refused before any candidate was looked at. -/
  blockedByRequest : Option KernelReason
  levers : List Requirement
  deriving DecidableEq

structure Margin where
  modelId : UInt32
  decision : KernelDecision
  levers : List Requirement
  deriving DecidableEq

def requestBlock (reason : KernelReason) : Option KernelReason :=
  if reason = .riskHardLimit ∨ reason = .confidenceHardLimit then some reason else none

def plain (lever : Lever) (current boundary : Nat) : Requirement where
  lever := lever
  current := current
  boundary := boundary
  costAtBoundaryMicrounits := none

/-- The cost is that of the decision at the scale, which selects the candidate. -/
def priced (policy : PolicySnapshot) (index : Nat) (input : KernelInput) (model : KernelModel)
    (scale : Nat) : Option Requirement :=
  ((withModel policy index (scaled model scale)).prescribe input).map fun decision =>
    { lever := .priceScalePpm
      current := ppm
      boundary := scale
      costAtBoundaryMicrounits := some decision.estimatedCostMicrounits }

def pricedEntry (policy : PolicySnapshot) (index : Nat) (input : KernelInput)
    (model : KernelModel) : Option Nat → Option (Option Requirement)
  | none => some none
  | some scale => (priced policy index input model scale).map some

/-- The smallest single-lever change after which the model is selected. The inner `none` is
a model that is not in the catalog. -/
def whatWouldWin (policy : PolicySnapshot) (input : KernelInput) (modelId : UInt32) :
    Option (Option Counterfactual) :=
  match policy.models.findIdx? fun model => model.modelId == modelId with
  | none => some none
  | some index => do
      let decision ← policy.prescribe input
      let blockedByRequest := requestBlock decision.reason
      let out (levers : List Requirement) : Counterfactual :=
        { modelId := modelId
          decision := decision
          blockedByRequest := blockedByRequest
          levers := levers }
      if blockedByRequest.isSome || selected decision modelId then some (some (out []))
      else
        let model ← policy.models[index]?
        let win (lever : Lever) (v : Nat) := wins policy index input modelId (lever.set model v)
        if model.enabled = 0 then
          -- the other levers are measured on the candidate as it is, switched off
          let on ← win .enabled 1
          some (some (out (if on then [plain .enabled 0 1] else [])))
        else
          let q := model.qualityBps.toNat
          let quality ← lowestTrue (win .qualityBps) q maxBps.toNat
          let l := model.p95LatencyMs.toNat
          let latency ← highestTrue (win .p95LatencyMs) 0 l
          let price ← highestTrue (win .priceScalePpm) 0 ppm
          let price ← pricedEntry policy index input model price
          let r := model.riskCeilingBps.toNat
          let risk ← lowestTrue (win .riskCeilingBps) r maxBps.toNat
          some (some (out ((quality.map (plain .qualityBps q)).toList ++
            (latency.map (plain .p95LatencyMs l)).toList ++ price.toList ++
            (risk.map (plain .riskCeilingBps r)).toList)))

/-- How far the selected candidate's levers can move before it stops winning. The inner
`none` is a decision that selected nothing. -/
def decisionMargin (policy : PolicySnapshot) (input : KernelInput) : Option (Option Margin) := do
  let decision ← policy.prescribe input
  if !decision.isExecutable then some none
  else
    let modelId := decision.selectedModelId
    match policy.models.findIdx? fun model => model.modelId == modelId with
    | none => some none
    | some index =>
      let model ← policy.models[index]?
      let win (lever : Lever) (v : Nat) := wins policy index input modelId (lever.set model v)
      let q := model.qualityBps.toNat
      let quality ← lowestTrue (win .qualityBps) 0 q
      let l := model.p95LatencyMs.toNat
      let slowest ← win .p95LatencyMs (2 ^ 32 - 1)
      let latency ← (if slowest then some none else
        highestTrue (win .p95LatencyMs) l (2 ^ 32 - 1))
      let dearest ← win .priceScalePpm maxPriceScalePpm
      let price ← (if dearest then some none else
        highestTrue (win .priceScalePpm) ppm maxPriceScalePpm)
      let price ← pricedEntry policy index input model price
      let r := model.riskCeilingBps.toNat
      let strictest ← win .riskCeilingBps 0
      let risk ← (if strictest then some none else lowestTrue (win .riskCeilingBps) 0 r)
      some (some
        { modelId := modelId
          decision := decision
          levers := (quality.map (plain .qualityBps q)).toList ++
            (latency.map (plain .p95LatencyMs l)).toList ++ price.toList ++
            (risk.map (plain .riskCeilingBps r)).toList })

/-! ### The values a lever is tried at -/

namespace Lever

def Favours (lever : Lever) (model : KernelModel) (v : Nat) : Prop :=
  if lever.rising then lever.current model ≤ v ∧ v ≤ lever.limit else v ≤ lever.current model

def Against (lever : Lever) (model : KernelModel) (v : Nat) : Prop :=
  if lever.rising then v ≤ lever.current model else lever.current model ≤ v ∧ v ≤ lever.limit

end Lever

/-- A request within the hard limits about the model at an index, in a catalog that the
counters count. -/
structure Asked (policy : PolicySnapshot) (index : Nat) (input : KernelInput)
    (model : KernelModel) : Prop where
  len : policy.models.length ≤ 65535
  nodup : (policy.models.map KernelModel.modelId).Nodup
  bps : model.qualityBps ≤ maxBps ∧ model.riskCeilingBps ≤ maxBps
  risk : input.riskBps < policy.hardRiskLimitBps
  confidence : policy.minimumConfidenceBps ≤ input.confidenceBps
  get : policy.models[index]? = some model

variable {policy : PolicySnapshot} {index : Nat} {input : KernelInput} {model : KernelModel}
  {d : KernelDecision} {lever : Lever}

namespace Asked

theorem of_validate (hvalid : policy.validate = .ok ()) (hlen : policy.models.length ≤ 65535)
    (hrisk : input.riskBps < policy.hardRiskLimitBps)
    (hconfidence : policy.minimumConfidenceBps ≤ input.confidenceBps)
    (hget : policy.models[index]? = some model) : Asked policy index input model :=
  ⟨hlen, (validate_ok hvalid).1, (validate_ok hvalid).2 model (List.mem_of_getElem? hget), hrisk,
    hconfidence, hget⟩

variable (h : Asked policy index input model)

include h

theorem current_le (lever : Lever) (hlever : lever ≠ .enabled) :
    lever.current model ≤ lever.limit := by
  cases lever with
  | qualityBps => exact UInt16.le_iff_toNat_le.1 h.bps.1
  | p95LatencyMs => exact Nat.le_sub_one_of_lt model.p95LatencyMs.toNat_lt
  | priceScalePpm => exact Nat.le_mul_of_pos_left ppm (by decide)
  | riskCeilingBps => exact UInt16.le_iff_toNat_le.1 h.bps.2
  | enabled => exact absurd rfl hlever

theorem findIdx?_eq :
    (policy.models.findIdx? fun other => other.modelId == model.modelId) = some index := by
  obtain ⟨hlt, hmodel⟩ := List.getElem?_eq_some_iff.1 h.get
  rw [List.findIdx?_eq_some_iff_getElem]
  refine ⟨hlt, by simp [hmodel], fun j hj => ?_⟩
  have hne : policy.models[j].modelId ≠ policy.models[index].modelId :=
    List.pairwise_iff_getElem.1 (List.pairwise_map.1 h.nodup) j index (hj.trans hlt) hlt hj
  simpa [hmodel] using hne

open Classical in
theorem win_eq (lever : Lever) (v : Nat) :
    wins policy index input model.modelId (lever.set model v) =
      some (decide (Wins policy index input (lever.set model v))) := by
  obtain ⟨d, hd, hselected, -⟩ := prescribe_withModel h.len h.nodup h.risk h.confidence h.get
    (lever.modelId_set model v)
  rw [wins, hd, map_some, some.injEq, Bool.eq_iff_iff, hselected, decide_eq_true_iff]

open Classical in
theorem win_of_wins {v : Nat} (hwins : Wins policy index input (lever.set model v)) :
    wins policy index input model.modelId (lever.set model v) = some true := by
  rw [h.win_eq, some.injEq, decide_eq_true_iff]
  exact hwins

open Classical in
theorem win_of_not_wins {v : Nat} (hwins : ¬ Wins policy index input (lever.set model v)) :
    wins policy index input model.modelId (lever.set model v) = some false := by
  rw [h.win_eq, some.injEq, decide_eq_false_iff_not]
  exact hwins

open Classical in
theorem searched (lever : Lever) (lo hi : Nat) (hlever : lever ≠ .enabled)
    (hhi : hi ≤ lever.limit) :
    ∃ x, (if lever.rising then lowestTrue else highestTrue)
        (fun v => wins policy index input model.modelId (lever.set model v)) lo hi = some x ∧
      Found (fun v => Wins policy index input (lever.set model v)) (fun v => lo ≤ v ∧ v ≤ hi)
        lever.Worse x := by
  have hdecides : Decides (fun v => wins policy index input model.modelId (lever.set model v))
      (fun v => Wins policy index input (lever.set model v)) lo hi :=
    fun v _ _ => h.win_eq lever v
  have hmono : ∀ v w, v ≤ hi → w ≤ hi → ¬ lever.Worse v w →
      Wins policy index input (lever.set model v) → Wins policy index input (lever.set model w) :=
    fun v w hv hw hworse => (Lever.noWorse hlever (hv.trans hhi) (hw.trans hhi) hworse).wins
  cases hrising : lever.rising with
  | true =>
    obtain ⟨x, hx, hfound⟩ := lowestTrue_spec hdecides fun v w _ hvw hw =>
      hmono v w (hvw.trans hw) hw (by simpa [Lever.Worse, hrising] using hvw)
    exact ⟨x, hx, hfound.congr (fun _ => Iff.rfl) fun b v => by simp [Lever.Worse, hrising]⟩
  | false =>
    obtain ⟨x, hx, hfound⟩ := highestTrue_spec hdecides fun v w _ hvw hw =>
      hmono w v hw (hvw.trans hw) (by simpa [Lever.Worse, hrising] using hvw)
    exact ⟨x, hx, hfound.congr (fun _ => Iff.rfl) fun b v => by simp [Lever.Worse, hrising]⟩

theorem requestBlock_eq (hd : policy.prescribe input = some d) : requestBlock d.reason = none := by
  obtain ⟨st, hinner, -⟩ := prescribeInner_of_limits policy input h.len h.risk h.confidence
  rw [prescribe, hinner, map_some, some.injEq] at hd
  obtain ⟨-, hrisk, hconfidence⟩ := conclude_reason policy input st
  rw [← hd, requestBlock, if_neg (not_or.2 ⟨hrisk, hconfidence⟩)]

theorem selected_iff (hd : policy.prescribe input = some d) :
    selected d model.modelId = true ↔ Wins policy index input model := by
  obtain ⟨d', hd', hselected, -⟩ :=
    prescribe_withModel h.len h.nodup h.risk h.confidence h.get
      (rfl : model.modelId = model.modelId)
  rw [withModel_self h.get, hd, some.injEq] at hd'
  rwa [hd']

end Asked

/-! ### The entries -/

def byLever (quality latency price risk : Option Nat) : Lever → Option Nat
  | .qualityBps => quality
  | .p95LatencyMs => latency
  | .priceScalePpm => price
  | .riskCeilingBps => risk
  | .enabled => none

/-- The entries report what the searches found: one for each lever with a boundary, with the
candidate's cost there for a price. -/
structure Reports (input : KernelInput) (model : KernelModel) (found : Lever → Option Nat)
    (levers : List Requirement) : Prop where
  boundary : ∀ r ∈ levers, r.current = r.lever.current model ∧ found r.lever = some r.boundary
  cost : ∀ r ∈ levers, r.lever = .priceScalePpm → ∃ cost, r.costAtBoundaryMicrounits = some cost ∧
    cost.toNat = exactCost (scaled model r.boundary) input
  absent : ∀ lever, (∀ r ∈ levers, r.lever ≠ lever) → found lever = none

theorem Asked.reports (h : Asked policy index input model)
    (quality latency price risk : Option Nat)
    (hprice : ∀ b, price = some b → Wins policy index input (scaled model b)) :
    ∃ entry, pricedEntry policy index input model price = some entry ∧
      Reports input model (byLever quality latency price risk)
        ((quality.map (plain .qualityBps model.qualityBps.toNat)).toList ++
          (latency.map (plain .p95LatencyMs model.p95LatencyMs.toNat)).toList ++ entry.toList ++
          (risk.map (plain .riskCeilingBps model.riskCeilingBps.toNat)).toList) := by
  have hentry : ∃ entry, pricedEntry policy index input model price = some entry ∧
      (entry = none → price = none) ∧
      ∀ r, entry = some r → r.lever = .priceScalePpm ∧ r.current = ppm ∧
        price = some r.boundary ∧ ∃ cost, r.costAtBoundaryMicrounits = some cost ∧
          cost.toNat = exactCost (scaled model r.boundary) input := by
    cases price with
    | none => exact ⟨none, rfl, fun _ => rfl, fun r hr => by cases hr⟩
    | some b =>
      obtain ⟨d, hd, -, hcost⟩ := prescribe_withModel h.len h.nodup h.risk h.confidence h.get
        (Lever.modelId_set .priceScalePpm model b)
      rw [show Lever.set .priceScalePpm model b = scaled model b from rfl] at hd hcost
      refine ⟨_, by rw [pricedEntry, priced, hd, map_some, map_some],
        (by intro hnone; cases hnone), fun r hr => ?_⟩
      rw [← some.inj hr]
      exact ⟨rfl, rfl, rfl, _, rfl, hcost (hprice b rfl)⟩
  obtain ⟨entry, heq, hnone, hsome⟩ := hentry
  refine ⟨entry, heq, ?_, ?_, fun lever habsent => ?_⟩
  · intro r hr
    simp only [List.mem_append, mem_toList, map_eq_some_iff] at hr
    rcases hr with ((⟨b, hb, rfl⟩ | ⟨b, hb, rfl⟩) | hr) | ⟨b, hb, rfl⟩
    · exact ⟨rfl, hb⟩
    · exact ⟨rfl, hb⟩
    · obtain ⟨hlever, hcurrent, hboundary, -⟩ := hsome r hr
      rw [hlever]
      exact ⟨hcurrent, hboundary⟩
    · exact ⟨rfl, hb⟩
  · intro r hr hlever
    simp only [List.mem_append, mem_toList, map_eq_some_iff] at hr
    rcases hr with ((⟨b, -, rfl⟩ | ⟨b, -, rfl⟩) | hr) | ⟨b, -, rfl⟩
    · cases hlever
    · cases hlever
    · exact (hsome r hr).2.2.2
    · cases hlever
  · simp only [List.mem_append, mem_toList, map_eq_some_iff] at habsent
    cases lever with
    | qualityBps =>
      exact eq_none_iff_forall_ne_some.2 fun b hb =>
        habsent _ (.inl (.inl (.inl ⟨b, hb, rfl⟩))) rfl
    | p95LatencyMs =>
      exact eq_none_iff_forall_ne_some.2 fun b hb =>
        habsent _ (.inl (.inl (.inr ⟨b, hb, rfl⟩))) rfl
    | priceScalePpm =>
      refine hnone (eq_none_iff_forall_ne_some.2 fun r hr => ?_)
      exact habsent r (.inl (.inr hr)) (hsome r hr).1
    | riskCeilingBps =>
      exact eq_none_iff_forall_ne_some.2 fun b hb =>
        habsent _ (.inr ⟨b, hb, rfl⟩) rfl
    | enabled => rfl

/-! ### The smallest change that wins -/

theorem Asked.whatWouldWin_eq (h : Asked policy index input model) (henabled : model.enabled ≠ 0)
    (hd : policy.prescribe input = some d) (hnot : selected d model.modelId = false) :
    ∃ found levers, whatWouldWin policy input model.modelId =
        some (some ⟨model.modelId, d, none, levers⟩) ∧
      Reports input model found levers ∧
      ∀ lever, lever ≠ .enabled → Found (fun v => Wins policy index input (lever.set model v))
        (lever.Favours model) lever.Worse (found lever) := by
  obtain ⟨quality, hquality, hfoundq⟩ :=
    h.searched .qualityBps model.qualityBps.toNat maxBps.toNat (by decide) le_rfl
  obtain ⟨latency, hlatency, hfoundl⟩ :=
    h.searched .p95LatencyMs 0 model.p95LatencyMs.toNat (by decide)
      (h.current_le .p95LatencyMs (by decide))
  obtain ⟨price, hprice, hfoundp⟩ :=
    h.searched .priceScalePpm 0 ppm (by decide) (h.current_le .priceScalePpm (by decide))
  obtain ⟨risk, hrisk, hfoundr⟩ :=
    h.searched .riskCeilingBps model.riskCeilingBps.toNat maxBps.toNat (by decide) le_rfl
  have hwins : ∀ b, price = some b → Wins policy index input (scaled model b) := by
    rintro b rfl
    exact hfoundp.2.1
  obtain ⟨entry, hentry, hreports⟩ := h.reports quality latency price risk hwins
  refine ⟨_, _, ?_, hreports, fun lever hlever => ?_⟩
  · simp only [Lever.rising, reduceIte, Bool.false_eq_true] at hquality hlatency hprice hrisk
    unfold whatWouldWin
    rw [h.findIdx?_eq]
    simp only [hd, h.requestBlock_eq hd, hnot, h.get, if_neg henabled, isSome_none,
      Bool.or_false, Bool.false_eq_true, if_false, bind_eq_bind, bind_some, hquality,
      hlatency, hprice, hrisk, hentry]
  · cases lever with
    | qualityBps => exact hfoundq
    | p95LatencyMs => exact hfoundl.of_zero
    | priceScalePpm => exact hfoundp.of_zero
    | riskCeilingBps => exact hfoundr
    | enabled => exact absurd rfl hlever

/-- The entries give the smallest change of the lever after which the model is selected. -/
structure SmallestChange (policy : PolicySnapshot) (index : Nat) (input : KernelInput)
    (model : KernelModel) (levers : List Requirement) (lever : Lever) : Prop where
  /-- The model is selected at a reported boundary, and at no value before it. -/
  boundary : ∀ r ∈ levers, r.lever = lever →
    r.current = lever.current model ∧ lever.Favours model r.boundary ∧
      wins policy index input model.modelId (lever.set model r.boundary) = some true ∧
      ∀ v, lever.Favours model v → lever.Worse r.boundary v →
        wins policy index input model.modelId (lever.set model v) = some false
  absent : (∀ r ∈ levers, r.lever ≠ lever) → ∀ v, lever.Favours model v →
    wins policy index input model.modelId (lever.set model v) = some false
  cost : ∀ r ∈ levers, r.lever = lever → lever = .priceScalePpm →
    ∃ cost, r.costAtBoundaryMicrounits = some cost ∧
      cost.toNat = exactCost (scaled model r.boundary) input

/-- For an enabled model of a validated catalog that a request within the hard limits does
not select, `whatWouldWin` reports the smallest change of each lever, and leaves a lever out
only where no favourable value of it would do. -/
theorem whatWouldWin_smallestChange (hvalid : policy.validate = .ok ())
    (hlen : policy.models.length ≤ 65535) (hrisk : input.riskBps < policy.hardRiskLimitBps)
    (hconfidence : policy.minimumConfidenceBps ≤ input.confidenceBps)
    (hget : policy.models[index]? = some model) (henabled : model.enabled ≠ 0)
    {d : KernelDecision} (hd : policy.prescribe input = some d)
    (hnot : selected d model.modelId = false) :
    ∃ levers, whatWouldWin policy input model.modelId =
        some (some ⟨model.modelId, d, none, levers⟩) ∧
      ∀ lever, lever ≠ .enabled → SmallestChange policy index input model levers lever := by
  have h := Asked.of_validate hvalid hlen hrisk hconfidence hget
  obtain ⟨found, levers, heq, hreports, hfound⟩ := h.whatWouldWin_eq henabled hd hnot
  refine ⟨levers, heq, fun lever hlever => ⟨?_, fun habsent v hv => ?_, ?_⟩⟩
  · rintro r hr rfl
    obtain ⟨hcurrent, hboundary⟩ := hreports.boundary r hr
    have hsearch := hfound r.lever hlever
    rw [hboundary] at hsearch
    obtain ⟨hrange, hwins, hbefore⟩ := hsearch
    exact ⟨hcurrent, hrange, h.win_of_wins hwins,
      fun v hv hworse => h.win_of_not_wins (hbefore v hv hworse)⟩
  · have hsearch := hfound lever hlever
    rw [hreports.absent lever habsent] at hsearch
    exact h.win_of_not_wins (hsearch v hv)
  · rintro r hr rfl hprice
    exact hreports.cost r hr hprice

theorem whatWouldWin_smallestChange_unitPrice :
    ∃ policy d levers, policy.validate = .ok () ∧
      policy.models[0]? = some (unitPriceModel 1 5000) ∧
      policy.prescribe unitPriceInput = some d ∧ selected d 1 = false ∧
      whatWouldWin policy unitPriceInput 1 = some (some ⟨1, d, none, levers⟩) ∧
      ∀ lever, lever ≠ .enabled →
        SmallestChange policy 0 unitPriceInput (unitPriceModel 1 5000) levers lever := by
  have hd : ∃ d, (newUnchecked 1 1 5000 1000 10000 1
      [unitPriceModel 1 5000, unitPriceModel 2 6000]).prescribe unitPriceInput = some d ∧
        selected d 1 = false := ⟨_, rfl, by decide⟩
  obtain ⟨d, hd, hnot⟩ := hd
  have hmodels : (newUnchecked 1 1 5000 1000 10000 1
      [unitPriceModel 1 5000, unitPriceModel 2 6000]).models[0]? = some (unitPriceModel 1 5000) :=
    rfl
  obtain ⟨levers, hchange⟩ := whatWouldWin_smallestChange rfl (by decide) (by decide) (by decide)
    hmodels (by decide) hd hnot
  exact ⟨_, d, levers, rfl, hmodels, hd, hnot, hchange⟩

/-! ### The largest change that still wins -/

/-- What a margin says of the values of a lever: up to the boundary they do, beyond it they
do not, and without a boundary they all do. -/
def Kept (p range : Nat → Prop) (worse : Nat → Nat → Prop) : Option Nat → Prop
  | none => ∀ v, range v → p v
  | some b => range b ∧ (∀ v, range v → ¬ worse b v → p v) ∧ ∀ v, range v → worse b v → ¬ p v

section

variable (h : Asked policy index input model)

include h

theorem Lever.against_current (lever : Lever) (hlever : lever ≠ .enabled) :
    lever.Against model (lever.current model) := by
  unfold Against
  split
  · exact le_rfl
  · exact ⟨le_rfl, h.current_le lever hlever⟩

theorem Lever.le_limit_of_against {lever : Lever} (hlever : lever ≠ .enabled) {v : Nat}
    (hv : lever.Against model v) : v ≤ lever.limit := by
  unfold Against at hv
  split at hv
  · exact hv.trans (h.current_le lever hlever)
  · exact hv.2

/-- A search over the unfavourable values finds a boundary, since the model wins at the
current one, and everything up to the boundary wins because it is better. -/
theorem Asked.kept_of_found (hwins : Wins policy index input model) {lever : Lever}
    (hlever : lever ≠ .enabled) {x : Option Nat}
    (hfound : Found (fun v => Wins policy index input (lever.set model v)) (lever.Against model)
      lever.Worse x) :
    x ≠ none ∧ Kept (fun v => Wins policy index input (lever.set model v)) (lever.Against model)
      lever.Worse x := by
  cases x with
  | none =>
    have hcurrent : ¬ Wins policy index input (lever.set model (lever.current model)) :=
      hfound _ (Lever.against_current h lever hlever)
    rw [lever.set_current] at hcurrent
    exact absurd hwins hcurrent
  | some b =>
    obtain ⟨hb, hwinsb, hbeyond⟩ := hfound
    refine ⟨by simp, hb, fun v hv hnot => ?_, hbeyond⟩
    exact (Lever.noWorse hlever (Lever.le_limit_of_against h hlever hb)
      (Lever.le_limit_of_against h hlever hv) hnot).wins hwinsb

/-- A search that is only made where the model loses at the far end of the range: where it
wins there it wins all over the range. -/
theorem Asked.kept_of_guarded (hwins : Wins policy index input model) (lever : Lever)
    (hlever : lever ≠ .enabled) (last : Nat) (hlast : lever.Against model last)
    (hworst : ∀ v, lever.Against model v → ¬ lever.Worse last v) {search : Option (Option Nat)}
    (hsearch : ∃ x, search = some x ∧
      Found (fun v => Wins policy index input (lever.set model v)) (lever.Against model)
        lever.Worse x) :
    ∃ b x, wins policy index input model.modelId (lever.set model last) = some b ∧
      (if b then some none else search) = some x ∧
      Kept (fun v => Wins policy index input (lever.set model v)) (lever.Against model)
        lever.Worse x := by
  by_cases hfar : Wins policy index input (lever.set model last)
  · refine ⟨true, none, h.win_of_wins hfar, rfl, fun v hv => ?_⟩
    exact (Lever.noWorse hlever (Lever.le_limit_of_against h hlever hlast)
      (Lever.le_limit_of_against h hlever hv) (hworst v hv)).wins hfar
  · obtain ⟨x, hx, hfound⟩ := hsearch
    exact ⟨false, x, h.win_of_not_wins hfar, hx, (h.kept_of_found hwins hlever hfound).2⟩

end

theorem not_wins_quality_zero :
    ¬ Wins policy index input (Lever.qualityBps.set model 0) := by
  rintro ⟨⟨-, -, hutility⟩, -⟩
  have hzero : (Lever.qualityBps.set model 0).qualityBps.toNat = 0 := rfl
  rw [exactUtility, hzero, Nat.mul_zero, Nat.zero_div] at hutility
  omega

theorem Asked.decisionMargin_eq (h : Asked policy index input model)
    (hd : policy.prescribe input = some d) (hexecutable : d.isExecutable = true)
    (hid : d.selectedModelId = model.modelId) :
    ∃ found levers, decisionMargin policy input = some (some ⟨d.selectedModelId, d, levers⟩) ∧
      Reports input model found levers ∧ found .qualityBps ≠ none ∧
      ∀ lever, lever ≠ .enabled → Kept (fun v => Wins policy index input (lever.set model v))
        (lever.Against model) lever.Worse (found lever) := by
  have hwins : Wins policy index input model :=
    (h.selected_iff hd).1 (by simp [selected, hexecutable, hid])
  obtain ⟨quality, hquality, hfoundq⟩ := h.searched .qualityBps 0 model.qualityBps.toNat
    (by decide) (h.current_le .qualityBps (by decide))
  obtain ⟨hsome, hkeptq⟩ := h.kept_of_found hwins (by decide) hfoundq.of_zero
  obtain ⟨slowest, latency, hslowest, hlatency, hkeptl⟩ :=
    h.kept_of_guarded hwins .p95LatencyMs (by decide) (2 ^ 32 - 1)
      ⟨h.current_le .p95LatencyMs (by decide), le_rfl⟩ (fun v hv => Nat.not_lt.2 hv.2)
      (h.searched .p95LatencyMs model.p95LatencyMs.toNat (2 ^ 32 - 1) (by decide) le_rfl)
  obtain ⟨dearest, price, hdearest, hprice, hkeptp⟩ :=
    h.kept_of_guarded hwins .priceScalePpm (by decide) maxPriceScalePpm
      ⟨h.current_le .priceScalePpm (by decide), le_rfl⟩ (fun v hv => Nat.not_lt.2 hv.2)
      (h.searched .priceScalePpm ppm maxPriceScalePpm (by decide) le_rfl)
  obtain ⟨x, hx, hfoundr⟩ := h.searched .riskCeilingBps 0 model.riskCeilingBps.toNat (by decide)
    (h.current_le .riskCeilingBps (by decide))
  obtain ⟨strictest, risk, hstrictest, hrisk, hkeptr⟩ :=
    h.kept_of_guarded hwins .riskCeilingBps (by decide) 0 (Nat.zero_le _)
      (fun v _ => Nat.not_lt_zero v) ⟨x, hx, hfoundr.of_zero⟩
  have hscaled : ∀ b, price = some b → Wins policy index input (scaled model b) := by
    rintro b rfl
    exact hkeptp.2.1 b hkeptp.1 (Nat.lt_irrefl b)
  obtain ⟨entry, hentry, hreports⟩ := h.reports quality latency price risk hscaled
  refine ⟨_, _, ?_, hreports, hsome, fun lever hlever => ?_⟩
  · simp only [Lever.rising, reduceIte, Bool.false_eq_true] at hquality hlatency hprice hrisk
    unfold decisionMargin
    rw [hd]
    simp only [bind_eq_bind, bind_some, hexecutable, Bool.not_true,
      Bool.false_eq_true, if_false, hid, h.findIdx?_eq, h.get, hquality, hslowest, hlatency,
      hdearest, hprice, hentry, hstrictest, hrisk]
  · cases lever with
    | qualityBps => exact hkeptq
    | p95LatencyMs => exact hkeptl
    | priceScalePpm => exact hkeptp
    | riskCeilingBps => exact hkeptr
    | enabled => exact absurd rfl hlever

/-- The entries give the largest change of the lever after which the model is still
selected. -/
structure LargestChange (policy : PolicySnapshot) (index : Nat) (input : KernelInput)
    (model : KernelModel) (levers : List Requirement) (lever : Lever) : Prop where
  /-- The model is selected up to a reported boundary, and at no value beyond it. -/
  boundary : ∀ r ∈ levers, r.lever = lever →
    r.current = lever.current model ∧ lever.Against model r.boundary ∧
      (∀ v, lever.Against model v → ¬ lever.Worse r.boundary v →
        wins policy index input model.modelId (lever.set model v) = some true) ∧
      ∀ v, lever.Against model v → lever.Worse r.boundary v →
        wins policy index input model.modelId (lever.set model v) = some false
  absent : (∀ r ∈ levers, r.lever ≠ lever) → ∀ v, lever.Against model v →
    wins policy index input model.modelId (lever.set model v) = some true

/-- The index of the model a decision selected, whose request was within the limits. -/
theorem exists_asked_of_isExecutable (hvalid : policy.validate = .ok ())
    (hlen : policy.models.length ≤ 65535) (hd : policy.prescribe input = some d)
    (hexecutable : d.isExecutable = true) :
    ∃ index model, Asked policy index input model ∧ d.selectedModelId = model.modelId := by
  have haction : d.action ≠ .reject := by
    intro hreject
    simp [KernelDecision.isExecutable, hreject] at hexecutable
  by_cases hlimits : input.riskBps < policy.hardRiskLimitBps ∧
      policy.minimumConfidenceBps ≤ input.confidenceBps
  · obtain ⟨d', hd', -, hcases⟩ :=
      prescribe_of_limits (validate_ok hvalid).1 hlen hlimits.1 hlimits.2
    obtain rfl : d = d' := some.inj (hd.symm.trans hd')
    obtain ⟨-, best, -, hrecords⟩ := hcases.resolve_left fun hreject => haction hreject.1
    exact ⟨_, best, .of_validate hvalid hlen hlimits.1 hlimits.2 hrecords.selectedModelIndex,
      hrecords.selectedModelId⟩
  · obtain ⟨d', hd', -, hreject, -⟩ := prescribe_of_blocked policy input hlimits
    obtain rfl : d = d' := some.inj (hd.symm.trans hd')
    exact absurd hreject haction

/-- For a request that selects a model of a validated catalog, `decisionMargin` reports the
largest change of each lever and leaves a lever out only where the model stays selected over
the whole range. There is always an entry for quality, since nothing is selected without it. -/
theorem decisionMargin_largestChange (hvalid : policy.validate = .ok ())
    (hlen : policy.models.length ≤ 65535) {d : KernelDecision}
    (hd : policy.prescribe input = some d) (hexecutable : d.isExecutable = true) :
    ∃ index model levers, policy.models[index]? = some model ∧
      d.selectedModelId = model.modelId ∧
      decisionMargin policy input = some (some ⟨model.modelId, d, levers⟩) ∧
      (∀ lever, lever ≠ .enabled → LargestChange policy index input model levers lever) ∧
      ∃ r ∈ levers, r.lever = .qualityBps ∧ 1 ≤ r.boundary := by
  obtain ⟨index, model, h, hid⟩ := exists_asked_of_isExecutable hvalid hlen hd hexecutable
  obtain ⟨found, levers, heq, hreports, hsome, hkept⟩ := h.decisionMargin_eq hd hexecutable hid
  refine ⟨index, model, levers, h.get, hid, hid ▸ heq, fun lever hlever => ⟨?_, ?_⟩, ?_⟩
  · rintro r hr rfl
    obtain ⟨hcurrent, hboundary⟩ := hreports.boundary r hr
    have hsearch := hkept r.lever hlever
    rw [hboundary] at hsearch
    obtain ⟨hrange, hupto, hbeyond⟩ := hsearch
    exact ⟨hcurrent, hrange, fun v hv hnot => h.win_of_wins (hupto v hv hnot),
      fun v hv hworse => h.win_of_not_wins (hbeyond v hv hworse)⟩
  · intro habsent v hv
    have hsearch := hkept lever hlever
    rw [hreports.absent lever habsent] at hsearch
    exact h.win_of_wins (hsearch v hv)
  · have hentry : ∃ r ∈ levers, r.lever = .qualityBps := by
      by_contra hnone
      exact hsome (hreports.absent _ fun r hr hlever => hnone ⟨r, hr, hlever⟩)
    obtain ⟨r, hr, hlever⟩ := hentry
    refine ⟨r, hr, hlever, Nat.one_le_iff_ne_zero.2 fun hzero => ?_⟩
    have hsearch := hkept .qualityBps (by decide)
    rw [← hlever, (hreports.boundary r hr).2, hlever, hzero] at hsearch
    exact not_wins_quality_zero (hsearch.2.1 0 hsearch.1 (Nat.lt_irrefl 0))

theorem decisionMargin_largestChange_unitPrice :
    ∃ policy d index model levers, policy.validate = .ok () ∧
      policy.prescribe unitPriceInput = some d ∧ d.isExecutable = true ∧
      policy.models[index]? = some model ∧ d.selectedModelId = model.modelId ∧
      decisionMargin policy unitPriceInput = some (some ⟨model.modelId, d, levers⟩) ∧
      (∀ lever, lever ≠ .enabled →
        LargestChange policy index unitPriceInput model levers lever) ∧
      ∃ r ∈ levers, r.lever = .qualityBps ∧ 1 ≤ r.boundary := by
  have hd : ∃ d, (newUnchecked 1 1 5000 1000 10000 1
      [unitPriceModel 1 5000, unitPriceModel 2 6000]).prescribe unitPriceInput = some d ∧
        d.isExecutable = true := ⟨_, rfl, by decide⟩
  obtain ⟨d, hd, hexecutable⟩ := hd
  obtain ⟨index, model, levers, hmargin⟩ :=
    decisionMargin_largestChange rfl (by decide) hd hexecutable
  exact ⟨_, d, index, model, levers, rfl, hd, hexecutable, hmargin⟩

end Calybris.Kernel
