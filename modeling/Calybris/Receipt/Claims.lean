import Calybris.Verify.Bundle
import Calybris.Wal.Hex
import Calybris.Wal.Verified
import Calybris.Wal.Writer

/-!
# The claims of a receipt

A receipt binds a decision that replays to its policy and input and, where they are
attached, to a state transition and a position in the log. Its claims are hashed in one
byte layout: the length of the schema before the schema, numbers in eight little-endian
bytes, digests as their bytes, and one byte before each optional part that says whether
it is there.

A digest is read from its hexadecimal text and refused unless the text is the only one of
its bytes, so the layout determines the claims as they are written: `claimsPreimage_inj`.
-/

namespace Calybris.Receipt

open Text Note Kernel Wal Verify List

def receiptSchema : String := "calybris.receipt.v1"

/-- `calyrcp1` and a zero byte. -/
def receiptDigestTag : Bytes := [99, 97, 108, 121, 114, 99, 112, 49, 0]

/-- `calyrcs1` and a zero byte. -/
def receiptSignatureContext : Bytes := [99, 97, 108, 121, 114, 99, 115, 49, 0]

structure ReceiptState where
  step : UInt64
  stateDigestBeforeHex : Bytes
  stateDigestAfterHex : Bytes
  deriving DecidableEq

structure ReceiptWal where
  sequence : UInt64
  entryHash : Bytes
  deriving DecidableEq

structure ReceiptAnchors where
  state : Option ReceiptState
  wal : Option ReceiptWal

structure ReceiptSignature where
  signerId : String
  signedAtEpochMs : UInt64
  publicKeyHex : Bytes
  signatureHex : Bytes
  deriving DecidableEq

structure DecisionReceipt where
  schemaVersion : String
  policyEpoch : UInt64
  catalogEpoch : UInt64
  policyDigestHex : Bytes
  inputDigestHex : Bytes
  decisionDigestHex : Bytes
  replayValid : Bool
  state : Option ReceiptState
  wal : Option ReceiptWal
  claimsDigestHex : Bytes
  signature : Option ReceiptSignature
  deriving DecidableEq

inductive ReceiptError where
  | unknownSchema (schema : String)
  | replayFlagFalse
  | policyDigestMismatch
  | inputDigestMismatch
  | decisionDigestMismatch
  | replayInvalid
  | malformed (field reason : String)
  | claimsDigestMismatch
  | missingSignature
  | badSignature
  | untrustedKey
  | walAnchorMismatch
  | stateAnchorMismatch
  deriving DecidableEq

def parseField (n : Nat) (field : String) (value : Bytes) : Except ReceiptError Bytes :=
  match parseHex n value with
  | .ok bytes => .ok bytes
  | .error (.length found) =>
    .error (.malformed field
      ("expected " ++ toString (n * 2) ++ " hex chars, found " ++ toString found))
  | .error (.digit offset) =>
    .error (.malformed field ("invalid hex at offset " ++ toString offset))

def hashOptionalState : Option ReceiptState → Except ReceiptError Bytes
  | some state =>
    if state.step = 0 then .error (.malformed "state.step" "must be at least 1")
    else do
      let before ← parseField 32 "state_digest_before_hex" state.stateDigestBeforeHex
      let after ← parseField 32 "state_digest_after_hex" state.stateDigestAfterHex
      return 1 :: (le64 state.step ++ (before ++ after))
  | none => .ok [0]

def hashOptionalWal : Option ReceiptWal → Except ReceiptError Bytes
  | some wal =>
    if wal.sequence = 0 then .error (.malformed "wal.sequence" "must be at least 1")
    else do
      let hash ← parseField 32 "wal.entry_hash" wal.entryHash
      return 1 :: (le64 wal.sequence ++ hash)
  | none => .ok [0]

def schemaLen (schema : String) : Except ReceiptError UInt64 :=
  if (literal schema).length < 2 ^ 64 then .ok (UInt64.ofNat (literal schema).length)
  else .error (.malformed "schema_version" "length does not fit u64")

def claimsPreimage (receipt : DecisionReceipt) : Except ReceiptError Bytes := do
  let length ← schemaLen receipt.schemaVersion
  let policy ← parseField 32 "policy_digest_hex" receipt.policyDigestHex
  let input ← parseField 32 "input_digest_hex" receipt.inputDigestHex
  let decision ← parseField 32 "decision_digest_hex" receipt.decisionDigestHex
  let state ← hashOptionalState receipt.state
  let wal ← hashOptionalWal receipt.wal
  return receiptDigestTag ++ (le64 length ++ (literal receipt.schemaVersion ++
    (le64 receipt.policyEpoch ++ (le64 receipt.catalogEpoch ++ (policy ++ (input ++ (decision ++
      (if receipt.replayValid then 1 else 0) :: (state ++ wal))))))))

def receiptClaimsDigest (D : Digests) (receipt : DecisionReceipt) : Except ReceiptError Bytes32 :=
  (claimsPreimage receipt).map D.sha256

structure Claims where
  schemaVersion : String
  policyEpoch : UInt64
  catalogEpoch : UInt64
  policyDigestHex : Bytes
  inputDigestHex : Bytes
  decisionDigestHex : Bytes
  replayValid : Bool
  state : Option ReceiptState
  wal : Option ReceiptWal
  deriving DecidableEq

def DecisionReceipt.claims (receipt : DecisionReceipt) : Claims where
  schemaVersion := receipt.schemaVersion
  policyEpoch := receipt.policyEpoch
  catalogEpoch := receipt.catalogEpoch
  policyDigestHex := receipt.policyDigestHex
  inputDigestHex := receipt.inputDigestHex
  decisionDigestHex := receipt.decisionDigestHex
  replayValid := receipt.replayValid
  state := receipt.state
  wal := receipt.wal

section

variable {n : Nat} {field : String} {value bytes : Bytes}

theorem parseField_eq_ok_iff :
    parseField n field value = .ok bytes ↔ value = bytesToHex bytes ∧ bytes.length = n := by
  rw [← parseHex_eq_ok_iff, parseField]
  cases parseHex n value with
  | ok found => simp
  | error error => cases error <;> simp

theorem parseField_append_inj {field' : String} {value' bytes' s t : Bytes}
    (h : parseField n field value = .ok bytes) (h' : parseField n field' value' = .ok bytes') :
    bytes ++ s = bytes' ++ t ↔ value = value' ∧ s = t := by
  obtain ⟨rfl, hlength⟩ := parseField_eq_ok_iff.1 h
  obtain ⟨rfl, hlength'⟩ := parseField_eq_ok_iff.1 h'
  constructor
  · intro heq
    obtain ⟨rfl, rfl⟩ := append_inj heq (hlength.trans hlength'.symm)
    exact ⟨rfl, rfl⟩
  · rintro ⟨hvalue, rfl⟩
    rw [bytesToHex_injective hvalue]

theorem hashOptionalState_some_eq_ok_iff {x : ReceiptState} :
    hashOptionalState (some x) = .ok bytes ↔ x.step ≠ 0 ∧
      ∃ before, parseField 32 "state_digest_before_hex" x.stateDigestBeforeHex = .ok before ∧
      ∃ after, parseField 32 "state_digest_after_hex" x.stateDigestAfterHex = .ok after ∧
        1 :: (le64 x.step ++ (before ++ after)) = bytes := by
  by_cases hstep : x.step = 0 <;>
    simp [hashOptionalState, hstep, bind_eq_ok_iff, pure, Except.pure]

theorem hashOptionalWal_some_eq_ok_iff {x : ReceiptWal} :
    hashOptionalWal (some x) = .ok bytes ↔ x.sequence ≠ 0 ∧
      ∃ hash, parseField 32 "wal.entry_hash" x.entryHash = .ok hash ∧
        1 :: (le64 x.sequence ++ hash) = bytes := by
  by_cases hsequence : x.sequence = 0 <;>
    simp [hashOptionalWal, hsequence, bind_eq_ok_iff, pure, Except.pure]

/-- Whether a state is there, and which, is read off the layout. -/
theorem hashOptionalState_append_inj {state state' : Option ReceiptState} {bytes' s t : Bytes}
    (h : hashOptionalState state = .ok bytes) (h' : hashOptionalState state' = .ok bytes')
    (heq : bytes ++ s = bytes' ++ t) : state = state' ∧ s = t := by
  cases state with
  | none =>
    cases h
    cases state' with
    | none =>
      cases h'
      exact ⟨rfl, (cons.inj heq).2⟩
    | some x' =>
      obtain ⟨-, _, -, _, -, rfl⟩ := hashOptionalState_some_eq_ok_iff.1 h'
      exact absurd (cons.inj heq).1 (by decide)
  | some x =>
    obtain ⟨-, before, hb, after, ha, rfl⟩ := hashOptionalState_some_eq_ok_iff.1 h
    cases state' with
    | none =>
      cases h'
      exact absurd (cons.inj heq).1 (by decide)
    | some x' =>
      obtain ⟨-, before', hb', after', ha', rfl⟩ := hashOptionalState_some_eq_ok_iff.1 h'
      simp only [cons_append, append_assoc, cons.injEq, true_and, le64_append_inj,
        parseField_append_inj hb hb', parseField_append_inj ha ha'] at heq
      obtain ⟨hstep, hbefore, hafter, rfl⟩ := heq
      refine ⟨?_, rfl⟩
      cases x
      cases x'
      simp_all

theorem hashOptionalWal_inj {wal wal' : Option ReceiptWal} (h : hashOptionalWal wal = .ok bytes)
    (h' : hashOptionalWal wal' = .ok bytes) : wal = wal' := by
  cases wal with
  | none =>
    cases h
    cases wal' with
    | none => rfl
    | some x' =>
      obtain ⟨-, _, -, heq⟩ := hashOptionalWal_some_eq_ok_iff.1 h'
      exact absurd (cons.inj heq).1 (by decide)
  | some x =>
    obtain ⟨-, hash, hh, rfl⟩ := hashOptionalWal_some_eq_ok_iff.1 h
    cases wal' with
    | none =>
      cases h'
    | some x' =>
      obtain ⟨-, hash', hh', heq⟩ := hashOptionalWal_some_eq_ok_iff.1 h'
      obtain ⟨hsequence, hhash⟩ := le64_append_inj.1 (cons.inj heq).2
      have hvalue : x'.entryHash = x.entryHash :=
        ((parseField_append_inj hh' hh (s := []) (t := [])).1 (by rw [hhash])).1
      cases x
      cases x'
      simp_all

theorem claimsPreimage_eq_ok_iff {receipt : DecisionReceipt} :
    claimsPreimage receipt = .ok bytes ↔
      (literal receipt.schemaVersion).length < 2 ^ 64 ∧ ∃ policy input decision state wal,
        parseField 32 "policy_digest_hex" receipt.policyDigestHex = .ok policy ∧
        parseField 32 "input_digest_hex" receipt.inputDigestHex = .ok input ∧
        parseField 32 "decision_digest_hex" receipt.decisionDigestHex = .ok decision ∧
        hashOptionalState receipt.state = .ok state ∧ hashOptionalWal receipt.wal = .ok wal ∧
        bytes = receiptDigestTag ++ (le64 (UInt64.ofNat (literal receipt.schemaVersion).length) ++
          (literal receipt.schemaVersion ++ (le64 receipt.policyEpoch ++
            (le64 receipt.catalogEpoch ++ (policy ++ (input ++ (decision ++
              (if receipt.replayValid then 1 else 0) :: (state ++ wal)))))))) := by
  simp only [claimsPreimage, schemaLen, bind_eq_ok_iff, pure, Except.pure, Except.ok.injEq]
  by_cases hlength : (literal receipt.schemaVersion).length < 2 ^ 64
  · simp only [hlength, if_true, Except.ok.injEq, exists_eq_left', true_and]
    constructor
    · rintro ⟨policy, hp, input, hi, decision, hd, state, hs, wal, hw, rfl⟩
      exact ⟨policy, input, decision, state, wal, hp, hi, hd, hs, hw, rfl⟩
    · rintro ⟨policy, input, decision, state, wal, hp, hi, hd, hs, hw, rfl⟩
      exact ⟨policy, hp, input, hi, decision, hd, state, hs, wal, hw, rfl⟩
  · simp only [hlength, if_false, reduceCtorEq, false_and, exists_false]

theorem literal_injective : Function.Injective literal := fun _ _ h =>
  String.toList_injective (utf8_injective h)

theorem claimsPreimage_inj {receipt receipt' : DecisionReceipt}
    (h : claimsPreimage receipt = .ok bytes) (h' : claimsPreimage receipt' = .ok bytes) :
    receipt.claims = receipt'.claims := by
  obtain ⟨hlength, policy, input, decision, state, wal, hp, hi, hd, hs, hw, rfl⟩ :=
    claimsPreimage_eq_ok_iff.1 h
  obtain ⟨hlength', policy', input', decision', state', wal', hp', hi', hd', hs', hw', heq⟩ :=
    claimsPreimage_eq_ok_iff.1 h'
  obtain ⟨hlen, heq⟩ := le64_append_inj.1 (append_cancel_left heq)
  have hsize :
      (literal receipt.schemaVersion).length = (literal receipt'.schemaVersion).length := by
    have := congrArg UInt64.toNat hlen
    rwa [UInt64.toNat_ofNat', UInt64.toNat_ofNat', Nat.mod_eq_of_lt hlength,
      Nat.mod_eq_of_lt hlength'] at this
  obtain ⟨hschema, heq⟩ := append_inj heq hsize
  simp only [le64_append_inj, parseField_append_inj hp hp', parseField_append_inj hi hi',
    parseField_append_inj hd hd', cons.injEq] at heq
  obtain ⟨h1, h2, h3, h4, h5, hreplay, hrest⟩ := heq
  obtain ⟨hstate, rfl⟩ := hashOptionalState_append_inj hs hs' hrest
  have hwal := hashOptionalWal_inj hw hw'
  have hflag : receipt.replayValid = receipt'.replayValid := by
    revert hreplay
    cases receipt.replayValid <;> cases receipt'.replayValid <;> decide
  simp only [DecisionReceipt.claims, literal_injective hschema, h1, h2, h3, h4, h5, hflag, hstate,
    hwal]

end

end Calybris.Receipt
