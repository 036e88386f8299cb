import Calybris.Kernel.Digest
import Calybris.Wal.Entry

/-!
# Audit bundles

A decision is verified by running the kernel again. An audit bundle binds it to its
policy and input by their digests, in lower-case hexadecimal, under fixed metadata. The
bundle of a decision that replays passes the check that readers make of stored bundles.

A run of the kernel that stops is `none`, and so is what depends on it.
-/

namespace Calybris.Verify

open Text Note Kernel Wal

inductive VerifyResult where
  | valid
  | mismatch (expected actual : KernelDecision)
  | digestMismatch (expectedHex actualHex : Bytes)
  deriving DecidableEq

def auditSchemaVersion : String := "calybris.audit.v1"

def auditDigestAlgorithm : String := "sha256"

def auditProofVersion : UInt16 := 1

def auditCreatedBy : String := "calybris"

structure AuditBundle where
  schemaVersion : String
  digestAlgorithm : String
  proofVersion : UInt16
  policyEpoch : UInt64
  catalogEpoch : UInt64
  createdBy : String
  policyDigestHex : Bytes
  inputDigestHex : Bytes
  decisionDigestHex : Bytes
  replayValid : Bool
  deriving DecidableEq

inductive AuditBundleValidationError where
  | schemaVersion (found : String)
  | digestAlgorithm (found : String)
  | proofVersion (found : UInt16)
  | createdBy (found : String)
  | replayInvalid
  | nonCanonicalDigest (field : String)
  deriving DecidableEq

def isCanonicalDigest (digest : Bytes) : Bool := digest.length == 64 && digest.all isHexByte

namespace AuditBundle

def validateDigests : List (String × Bytes) → Except AuditBundleValidationError Unit
  | [] => .ok ()
  | (field, digest) :: rest =>
    if isCanonicalDigest digest then validateDigests rest else .error (.nonCanonicalDigest field)

def validateCanonical (bundle : AuditBundle) : Except AuditBundleValidationError Unit :=
  if bundle.schemaVersion ≠ auditSchemaVersion then .error (.schemaVersion bundle.schemaVersion)
  else if bundle.digestAlgorithm ≠ auditDigestAlgorithm then
    .error (.digestAlgorithm bundle.digestAlgorithm)
  else if bundle.proofVersion ≠ auditProofVersion then .error (.proofVersion bundle.proofVersion)
  else if bundle.createdBy ≠ auditCreatedBy then .error (.createdBy bundle.createdBy)
  else if !bundle.replayValid then .error .replayInvalid
  else validateDigests [("policy_digest_hex", bundle.policyDigestHex),
    ("input_digest_hex", bundle.inputDigestHex), ("decision_digest_hex", bundle.decisionDigestHex)]

end AuditBundle

variable (D : Digests)

def policyDigest (policy : PolicySnapshot) : Bytes32 := D.sha256 (policyPreimage policy)

def inputDigest (input : KernelInput) : Bytes32 := D.sha256 (inputPreimage input)

def decisionDigest (decision : KernelDecision) : Bytes32 := D.sha256 (decisionPreimage decision)

def digestToHex (digest : Bytes32) : Bytes := bytesToHex digest.1

/-- The bundle of a decision, whether or not it replays. -/
def auditBundle (policy : PolicySnapshot) (input : KernelInput) (decision : KernelDecision) :
    Option AuditBundle :=
  (policy.prescribe input).map fun replayed => {
    schemaVersion := auditSchemaVersion
    digestAlgorithm := auditDigestAlgorithm
    proofVersion := auditProofVersion
    policyEpoch := policy.policyEpoch
    catalogEpoch := policy.catalogEpoch
    createdBy := auditCreatedBy
    policyDigestHex := digestToHex (policyDigest D policy)
    inputDigestHex := digestToHex (inputDigest D input)
    decisionDigestHex := digestToHex (decisionDigest D decision)
    replayValid := decide (replayed = decision) }

def verifyDecision (policy : PolicySnapshot) (input : KernelInput) (decision : KernelDecision) :
    Option VerifyResult :=
  (policy.prescribe input).map fun replayed =>
    if replayed ≠ decision then .mismatch replayed decision
    else if decisionDigest D replayed ≠ decisionDigest D decision then
      .digestMismatch (digestToHex (decisionDigest D replayed))
        (digestToHex (decisionDigest D decision))
    else .valid

def verifiedAuditBundle (policy : PolicySnapshot) (input : KernelInput)
    (decision : KernelDecision) : Option (Except VerifyResult AuditBundle) :=
  (verifyDecision D policy input decision).bind fun result =>
    match result with
    | .valid => (auditBundle D policy input decision).map .ok
    | error => some (.error error)

section

variable {D} {policy : PolicySnapshot} {input : KernelInput} {decision : KernelDecision}
  {bundle : AuditBundle}

theorem isCanonicalDigest_digestToHex (digest : Bytes32) :
    isCanonicalDigest (digestToHex digest) = true := by
  rw [isCanonicalDigest, digestToHex, length_bytesToHex, digest.2, Bool.and_eq_true,
    List.all_eq_true]
  exact ⟨rfl, fun b hb => isHexByte_of_mem hb⟩

theorem verifyDecision_eq_valid_iff :
    verifyDecision D policy input decision = some .valid ↔
      policy.prescribe input = some decision := by
  rw [verifyDecision, Option.map_eq_some_iff]
  constructor
  · rintro ⟨replayed, hreplayed, hvalid⟩
    split_ifs at hvalid with hne
    rw [hreplayed, not_not.1 hne]
  · intro h
    exact ⟨decision, h, by simp⟩

structure Binds (D : Digests) (policy : PolicySnapshot) (input : KernelInput)
    (decision : KernelDecision) (bundle : AuditBundle) : Prop where
  policy_eq : bundle.policyDigestHex = digestToHex (policyDigest D policy)
  input_eq : bundle.inputDigestHex = digestToHex (inputDigest D input)
  decision_eq : bundle.decisionDigestHex = digestToHex (decisionDigest D decision)

theorem verifiedAuditBundle_eq_ok_iff :
    verifiedAuditBundle D policy input decision = some (.ok bundle) ↔
      policy.prescribe input = some decision ∧
        auditBundle D policy input decision = some bundle := by
  constructor
  · intro h
    obtain ⟨result, hresult, hbundle⟩ := Option.bind_eq_some_iff.1 h
    cases result with
    | valid =>
      obtain ⟨found, hfound, heq⟩ := Option.map_eq_some_iff.1 hbundle
      cases heq
      exact ⟨verifyDecision_eq_valid_iff.1 hresult, hfound⟩
    | mismatch | digestMismatch => cases hbundle
  · rintro ⟨hreplay, hbundle⟩
    rw [verifiedAuditBundle, verifyDecision_eq_valid_iff.2 hreplay]
    simp [hbundle]

theorem validateCanonical_of_auditBundle (hreplay : policy.prescribe input = some decision)
    (h : auditBundle D policy input decision = some bundle) :
    bundle.validateCanonical = .ok () ∧ Binds D policy input decision bundle ∧
      bundle.policyEpoch = policy.policyEpoch ∧ bundle.catalogEpoch = policy.catalogEpoch := by
  rw [auditBundle, hreplay, Option.map_some] at h
  cases h
  refine ⟨?_, ⟨rfl, rfl, rfl⟩, rfl, rfl⟩
  simp [AuditBundle.validateCanonical, AuditBundle.validateDigests, isCanonicalDigest_digestToHex]

end

end Calybris.Verify
