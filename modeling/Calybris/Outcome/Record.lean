import Calybris.Kernel.Digest
import Calybris.Text.Sha256
import Calybris.Wal.Entry

/-!
# Outcome records

`outcome.rs` writes down what followed a decision: which decision it was, how the model
that was acted on came to be chosen, what became of it and what was measured. A record
has a digest that is taken of the digests of its identity and of its selection and of the
bytes of everything else, each optional part behind a byte that says whether it is there.

With no collision among the texts that are hashed the digest determines the record,
presence and absence of every measurement included: `eq_of_outcomeDigest_eq`.
-/

namespace Calybris.Outcomes

open Text Note Wal List

/-- `calyidn1` and a zero byte. -/
def identityDigestTag : Bytes := [99, 97, 108, 121, 105, 100, 110, 49, 0]

/-- `calyout1` and a zero byte. -/
def outcomeDigestTag : Bytes := [99, 97, 108, 121, 111, 117, 116, 49, 0]

/-- `calysel1` and a zero byte. -/
def selectionDigestTag : Bytes := [99, 97, 108, 121, 115, 101, 108, 49, 0]

@[ext]
structure DecisionIdentity where
  policyDigest : Bytes32
  inputDigest : Bytes32
  decisionDigest : Bytes32
  requestSequence : UInt64
  deriving DecidableEq

inductive SelectionStrategy where
  | maximiseUtility
  | explore
  | human
  deriving DecidableEq, Repr

def SelectionStrategy.code : SelectionStrategy → UInt8
  | .maximiseUtility => 0
  | .explore => 1
  | .human => 2

@[ext]
structure Selection where
  strategy : SelectionStrategy
  actedModelId : UInt32
  propensityBps : Option UInt16
  deriving DecidableEq, Repr

inductive Disposition where
  | applied
  | abandoned
  | inFlight
  deriving DecidableEq, Repr

def Disposition.code : Disposition → UInt8
  | .applied => 0
  | .abandoned => 1
  | .inFlight => 2

@[ext]
structure Observation where
  realizedCostMicrounits : Option UInt64
  realizedLatencyMs : Option UInt32
  succeeded : Option Bool
  deriving DecidableEq, Repr

@[ext]
structure Outcome where
  identity : DecisionIdentity
  observedAtMicros : UInt64
  revision : UInt32
  selection : Selection
  disposition : Disposition
  observation : Observation
  deriving DecidableEq

/-! ### Layouts -/

def identityPreimage (identity : DecisionIdentity) : Bytes :=
  identityDigestTag ++ identity.policyDigest.1 ++ identity.inputDigest.1 ++
    identity.decisionDigest.1 ++ le64 identity.requestSequence

def selectionPreimage (selection : Selection) : Bytes :=
  selectionDigestTag ++ [selection.strategy.code] ++ le32 selection.actedModelId ++
    optional le16 selection.propensityBps

variable (D : Digests)

def identityDigest (identity : DecisionIdentity) : Bytes32 := D.sha256 (identityPreimage identity)

def selectionDigest (selection : Selection) : Bytes32 := D.sha256 (selectionPreimage selection)

def outcomePreimage (outcome : Outcome) : Bytes :=
  outcomeDigestTag ++ (identityDigest D outcome.identity).1 ++ le64 outcome.observedAtMicros ++
    le32 outcome.revision ++ (selectionDigest D outcome.selection).1 ++
    [outcome.disposition.code] ++ optional le64 outcome.observation.realizedCostMicrounits ++
    optional le32 outcome.observation.realizedLatencyMs ++
    optional (fun succeeded => [Bool.toUInt8 succeeded]) outcome.observation.succeeded

def outcomeDigest (outcome : Outcome) : Bytes32 := D.sha256 (outcomePreimage D outcome)

def hashedTexts (outcome : Outcome) : List Bytes :=
  [outcomePreimage D outcome, identityPreimage outcome.identity,
    selectionPreimage outcome.selection]

def CollisionFree (a b : Outcome) : Prop :=
  ∀ s ∈ hashedTexts D a, ∀ t ∈ hashedTexts D b, D.sha256 s = D.sha256 t → s = t

/-! ### What can be read off -/

theorem SelectionStrategy.code_injective : Function.Injective SelectionStrategy.code := by
  intro a b
  cases a <;> cases b <;> decide

theorem Disposition.code_injective : Function.Injective Disposition.code := by
  intro a b
  cases a <;> cases b <;> decide

theorem bytes32_append_inj {a b : Bytes32} {s t : Bytes} :
    a.1 ++ s = b.1 ++ t ↔ a = b ∧ s = t := by
  constructor
  · intro h
    obtain ⟨hdigest, hrest⟩ := append_inj h (a.2.trans b.2.symm)
    exact ⟨Subtype.ext hdigest, hrest⟩
  · rintro ⟨rfl, rfl⟩
    rfl

theorem identityPreimage_injective : Function.Injective identityPreimage := by
  intro a b h
  simp only [identityPreimage, append_assoc, append_cancel_left_eq, bytes32_append_inj,
    le64_inj] at h
  obtain ⟨hpolicy, hinput, hdecision, hsequence⟩ := h
  exact DecisionIdentity.ext hpolicy hinput hdecision hsequence

theorem selectionPreimage_injective : Function.Injective selectionPreimage := by
  intro a b h
  simp only [selectionPreimage, append_assoc, append_cancel_left_eq, cons_append,
    nil_append, cons.injEq, le32_append_inj] at h
  obtain ⟨hstrategy, hmodel, hpropensity⟩ := h
  have hbps := (optional_append_inj (s := []) (t := []) (fun h => le16_append_inj.1 h)).1
    (congrArg (· ++ []) hpropensity)
  exact Selection.ext (SelectionStrategy.code_injective hstrategy) hmodel hbps.1

variable {D}

theorem outcomePreimage_inj {a b : Outcome} (h : outcomePreimage D a = outcomePreimage D b) :
    identityDigest D a.identity = identityDigest D b.identity ∧
      a.observedAtMicros = b.observedAtMicros ∧ a.revision = b.revision ∧
      selectionDigest D a.selection = selectionDigest D b.selection ∧
      a.disposition = b.disposition ∧ a.observation = b.observation := by
  simp only [outcomePreimage, append_assoc, append_cancel_left_eq, bytes32_append_inj,
    le64_append_inj, le32_append_inj, cons_append, nil_append, cons.injEq] at h
  obtain ⟨hidentity, htime, hrevision, hselection, hdisposition, h⟩ := h
  obtain ⟨hcost, h⟩ := (optional_append_inj fun h => le64_append_inj.1 h).1 h
  obtain ⟨hlatency, h⟩ := (optional_append_inj fun h => le32_append_inj.1 h).1 h
  obtain ⟨hsucceeded, -⟩ := (optional_append_inj (s := []) (t := []) (by
    intro a b s t h
    obtain ⟨hbyte, hrest⟩ := cons.inj h
    refine ⟨?_, hrest⟩
    revert hbyte
    cases a <;> cases b <;> decide)).1 (congrArg (· ++ []) h)
  exact ⟨hidentity, htime, hrevision, hselection, Disposition.code_injective hdisposition,
    Observation.ext hcost hlatency hsucceeded⟩

theorem eq_of_outcomeDigest_eq {a b : Outcome}
    (hfree : CollisionFree D a b)
    (h : outcomeDigest D a = outcomeDigest D b) : a = b := by
  have hpreimage : outcomePreimage D a = outcomePreimage D b :=
    hfree _ (by simp [hashedTexts]) _ (by simp [hashedTexts]) h
  obtain ⟨hidentity, htime, hrevision, hselection, hdisposition, hobservation⟩ :=
    outcomePreimage_inj hpreimage
  have hidentity' : identityPreimage a.identity = identityPreimage b.identity :=
    hfree _ (by simp [hashedTexts]) _ (by simp [hashedTexts]) hidentity
  have hselection' : selectionPreimage a.selection = selectionPreimage b.selection :=
    hfree _ (by simp [hashedTexts]) _ (by simp [hashedTexts]) hselection
  exact Outcome.ext (identityPreimage_injective hidentity') htime hrevision
    (selectionPreimage_injective hselection') hdisposition hobservation

/-- With no collision among what is hashed for two records, an equal digest is of an equal
record; and the three kinds of text are never the same, whatever the hash. -/
theorem outcomeDigest_exact (D : Digests) :
    (∀ a b : Outcome, CollisionFree D a b →
      (outcomeDigest D a = outcomeDigest D b ↔ a = b)) ∧
    (∀ outcome selection, outcomePreimage D outcome ≠ selectionPreimage selection) ∧
    (∀ outcome identity, outcomePreimage D outcome ≠ identityPreimage identity) ∧
    ∀ selection identity, selectionPreimage selection ≠ identityPreimage identity := by
  refine ⟨fun a b hfree => ⟨eq_of_outcomeDigest_eq hfree, congrArg _⟩, ?_, ?_, ?_⟩
  -- The fifth byte of the tag says which kind it is.
  · intro outcome selection h
    simp [outcomePreimage, selectionPreimage, outcomeDigestTag, selectionDigestTag] at h
  · intro outcome identity h
    simp [outcomePreimage, identityPreimage, outcomeDigestTag, identityDigestTag] at h
  · intro selection identity h
    simp [selectionPreimage, identityPreimage, selectionDigestTag, identityDigestTag] at h

/-- A choice of a person, carried out, with no measurement of the cost. -/
def unmeasured : Outcome where
  identity :=
    { policyDigest := digestOf 0x823412d1eacb67956220e532959f0104603057c88704863ca38e7cd188fda812
      inputDigest := digestOf 0x652f55016243bf1b9f1bbea46d5749ef892dbe394e46de9d66ab1aacf0b4af57
      decisionDigest := digestOf 0x86ae35d58a6aa3b5742df94ef9d7162219f0106a911ae1954c1f0604aaec805d
      requestSequence := 7 }
  observedAtMicros := 1000
  revision := 0
  selection := ⟨.human, 4, none⟩
  disposition := .applied
  observation := ⟨none, none, some true⟩

def free : Outcome := { unmeasured with observation := ⟨some 0, none, some true⟩ }

theorem outcomeDigest_exact_free : CollisionFree sha256Digests unmeasured free ∧
    outcomeDigest sha256Digests unmeasured ≠ outcomeDigest sha256Digests free := by
  have hfree : CollisionFree sha256Digests unmeasured free := by
    unfold CollisionFree
    decide +kernel
  refine ⟨hfree, fun h => ?_⟩
  have hsame := ((outcomeDigest_exact sha256Digests).1 unmeasured free hfree).1 h
  exact absurd hsame (by decide)

end Calybris.Outcomes
