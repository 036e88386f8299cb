import Calybris.Note.Canonical
import Calybris.Receipt.Claims
import Calybris.Wal.Audited

/-!
# Issuing, signing and verifying receipts

A receipt is issued only for a decision that replays. Its verification checks every claim
against the disclosed policy, input and decision; the full verification also checks the
signature under a trusted key and the state and log position that the caller expects.

Signatures are a parameter. What is accepted claims what is expected, whoever signed it;
that the trusted key signed these claims needs that the signature on the receipt presented
is not a forgery.
-/

namespace Calybris.Receipt

open Text Note Kernel Wal Verify List

/-- What receipts use of Ed25519: the key of a secret, whether bytes are a key (or the
text of the error), signing and verifying. -/
structure Ed25519 where
  verifyingKey : Bytes32 → Bytes32
  fromBytes : Bytes → Except String Unit
  sign : Bytes32 → Bytes → Bytes64
  verify : Bytes → Bytes → Bytes → Bool

def require (p : Prop) [Decidable p] (error : ReceiptError) : Except ReceiptError Unit :=
  if p then .ok () else .error error

variable (D : Digests) (S : Ed25519)

def draftReceipt (snapshot : PolicySnapshot) (input : KernelInput) (decision : KernelDecision)
    (anchors : ReceiptAnchors) : DecisionReceipt where
  schemaVersion := receiptSchema
  policyEpoch := decision.policyEpoch
  catalogEpoch := decision.catalogEpoch
  policyDigestHex := bytesToHex (policyDigest D snapshot).1
  inputDigestHex := bytesToHex (inputDigest D input).1
  decisionDigestHex := bytesToHex (decisionDigest D decision).1
  replayValid := true
  state := anchors.state
  wal := anchors.wal
  claimsDigestHex := []
  signature := none

def issueReceipt (snapshot : PolicySnapshot) (input : KernelInput) (decision : KernelDecision)
    (anchors : ReceiptAnchors) : Option (Except ReceiptError DecisionReceipt) :=
  (verifyDecision D snapshot input decision).map fun result => do
    require (result = .valid) .replayInvalid
    let receipt := draftReceipt D snapshot input decision anchors
    let digest ← receiptClaimsDigest D receipt
    return { receipt with claimsDigestHex := bytesToHex digest.1 }

def checkFields (receipt : DecisionReceipt) (snapshot : PolicySnapshot) (input : KernelInput)
    (decision : KernelDecision) : Except ReceiptError Unit := do
  require (receipt.schemaVersion = receiptSchema) (.unknownSchema receipt.schemaVersion)
  require (receipt.replayValid = true) .replayFlagFalse
  require (receipt.policyEpoch = decision.policyEpoch ∧
    receipt.catalogEpoch = decision.catalogEpoch) .replayInvalid
  require (receipt.policyDigestHex = bytesToHex (policyDigest D snapshot).1) .policyDigestMismatch
  require (receipt.inputDigestHex = bytesToHex (inputDigest D input).1) .inputDigestMismatch
  require (receipt.decisionDigestHex = bytesToHex (decisionDigest D decision).1)
    .decisionDigestMismatch

def verifyReceipt (receipt : DecisionReceipt) (snapshot : PolicySnapshot) (input : KernelInput)
    (decision : KernelDecision) : Option (Except ReceiptError Unit) :=
  match checkFields D receipt snapshot input decision with
  | .error error => some (.error error)
  | .ok () =>
    (verifyDecision D snapshot input decision).map fun result => do
      require (result = .valid) .replayInvalid
      let claims ← receiptClaimsDigest D receipt
      require (receipt.claimsDigestHex = bytesToHex claims.1) .claimsDigestMismatch

def verifyReceiptWal (receipt : DecisionReceipt) (sequence : UInt64) (entryHash : Bytes) :
    Except ReceiptError Unit :=
  match receipt.wal with
  | some wal => require (wal.sequence = sequence ∧ wal.entryHash = entryHash) .walAnchorMismatch
  | none => .error .walAnchorMismatch

def verifyReceiptState (receipt : DecisionReceipt) (step : UInt64)
    (stateDigestBeforeHex stateDigestAfterHex : Bytes) : Except ReceiptError Unit :=
  match receipt.state with
  | some state =>
    require (state.step = step ∧ state.stateDigestBeforeHex = stateDigestBeforeHex ∧
      state.stateDigestAfterHex = stateDigestAfterHex) .stateAnchorMismatch
  | none => .error .stateAnchorMismatch

def receiptSigningMessage (claimsDigest : Bytes32) (signedAtEpochMs : UInt64) (signerId : String) :
    Bytes :=
  receiptSignatureContext ++ (claimsDigest.1 ++ (le64 signedAtEpochMs ++ literal signerId))

def signReceipt (receipt : DecisionReceipt) (signingKey : Bytes32) (signerId : String)
    (signedAtEpochMs : UInt64) : Except ReceiptError DecisionReceipt := do
  let claimsDigest ← receiptClaimsDigest D receipt
  require (receipt.claimsDigestHex = bytesToHex claimsDigest.1) .claimsDigestMismatch
  let message := receiptSigningMessage claimsDigest signedAtEpochMs signerId
  return { receipt with signature := some {
    signerId := signerId
    signedAtEpochMs := signedAtEpochMs
    publicKeyHex := bytesToHex (S.verifyingKey signingKey).1
    signatureHex := bytesToHex (S.sign signingKey message).1 } }

def readKey (bytes : Bytes) : Except ReceiptError Unit :=
  match S.fromBytes bytes with
  | .ok () => .ok ()
  | .error reason => .error (.malformed "signature.public_key_hex" reason)

def verifyReceiptSignature (receipt : DecisionReceipt) (trustedKey : Option Bytes) :
    Except ReceiptError Unit :=
  match receipt.signature with
  | none => .error .missingSignature
  | some signature => do
      let claimsDigest ← receiptClaimsDigest D receipt
      require (receipt.claimsDigestHex = bytesToHex claimsDigest.1) .claimsDigestMismatch
      let keyBytes ← parseField 32 "signature.public_key_hex" signature.publicKeyHex
      readKey S keyBytes
      require (∀ trusted ∈ trustedKey, trusted = keyBytes) .untrustedKey
      let signatureBytes ← parseField 64 "signature.signature_hex" signature.signatureHex
      let message :=
        receiptSigningMessage claimsDigest signature.signedAtEpochMs signature.signerId
      require (S.verify keyBytes message signatureBytes = true) .badSignature

def verifyReceiptFull (receipt : DecisionReceipt) (snapshot : PolicySnapshot)
    (input : KernelInput) (decision : KernelDecision) (trustedKey : Bytes)
    (expectedState : ReceiptState) (expectedWal : ReceiptWal) :
    Option (Except ReceiptError Unit) :=
  match verifyReceipt D receipt snapshot input decision with
  | none => none
  | some (.error error) => some (.error error)
  | some (.ok ()) => some do
      verifyReceiptSignature D S receipt (some trustedKey)
      verifyReceiptState receipt expectedState.step expectedState.stateDigestBeforeHex
        expectedState.stateDigestAfterHex
      verifyReceiptWal receipt expectedWal.sequence expectedWal.entryHash

/-! ### What is accepted -/

section Accepted

variable {D S} {receipt : DecisionReceipt} {snapshot : PolicySnapshot} {input : KernelInput}
  {decision : KernelDecision}

theorem require_eq_ok_iff {p : Prop} [Decidable p] {error : ReceiptError} {u : Unit} :
    require p error = .ok u ↔ p := by
  by_cases hp : p <;> simp [require, hp]

/-- What a receipt must claim: the schema, the epochs of the decision, the digests, that
the decision replays, and the evidence. -/
def expectedClaims (D : Digests) (snapshot : PolicySnapshot) (input : KernelInput)
    (decision : KernelDecision) (state : Option ReceiptState) (wal : Option ReceiptWal) :
    Claims where
  schemaVersion := receiptSchema
  policyEpoch := decision.policyEpoch
  catalogEpoch := decision.catalogEpoch
  policyDigestHex := bytesToHex (policyDigest D snapshot).1
  inputDigestHex := bytesToHex (inputDigest D input).1
  decisionDigestHex := bytesToHex (decisionDigest D decision).1
  replayValid := true
  state := state
  wal := wal

theorem checkFields_eq_ok_iff :
    checkFields D receipt snapshot input decision = .ok () ↔
      receipt.claims = expectedClaims D snapshot input decision receipt.state receipt.wal := by
  simp only [checkFields, bind_eq_ok_iff, require_eq_ok_iff, exists_const, DecisionReceipt.claims,
    expectedClaims, Claims.mk.injEq, and_true]
  tauto

def DecisionReceipt.Bound (D : Digests) (receipt : DecisionReceipt) : Prop :=
  ∃ digest, receiptClaimsDigest D receipt = .ok digest ∧
    receipt.claimsDigestHex = bytesToHex digest.1

theorem verifyReceipt_eq_ok_iff :
    verifyReceipt D receipt snapshot input decision = some (.ok ()) ↔
      receipt.claims = expectedClaims D snapshot input decision receipt.state receipt.wal ∧
        snapshot.prescribe input = some decision ∧ receipt.Bound D := by
  rw [← checkFields_eq_ok_iff, ← verifyDecision_eq_valid_iff, verifyReceipt]
  cases checkFields D receipt snapshot input decision with
  | error error => simp
  | ok checked =>
    simp only [Option.map_eq_some_iff, bind_eq_ok_iff, require_eq_ok_iff, exists_const,
      DecisionReceipt.Bound, true_and]
    constructor
    · rintro ⟨result, hresult, rfl, hbound⟩
      exact ⟨hresult, hbound⟩
    · rintro ⟨hresult, hbound⟩
      exact ⟨_, hresult, rfl, hbound⟩

theorem verifyReceiptSignature_eq_ok_iff {trusted : Bytes} :
    verifyReceiptSignature D S receipt (some trusted) = .ok () ↔
      ∃ signature digest bytes, receipt.signature = some signature ∧
        receiptClaimsDigest D receipt = .ok digest ∧
        receipt.claimsDigestHex = bytesToHex digest.1 ∧
        parseField 32 "signature.public_key_hex" signature.publicKeyHex = .ok trusted ∧
        readKey S trusted = .ok () ∧
        parseField 64 "signature.signature_hex" signature.signatureHex = .ok bytes ∧
        S.verify trusted (receiptSigningMessage digest signature.signedAtEpochMs signature.signerId)
          bytes = true := by
  rw [verifyReceiptSignature]
  cases receipt.signature with
  | none => simp
  | some signature =>
    simp only [bind_eq_ok_iff, require_eq_ok_iff, exists_const, Option.mem_def,
      Option.some.injEq, forall_eq']
    constructor
    · rintro ⟨digest, hdigest, hhex, keyBytes, hkey, ⟨⟩, hread, rfl, bytes, hbytes, hverify⟩
      exact ⟨signature, digest, bytes, rfl, hdigest, hhex, hkey, hread, hbytes, hverify⟩
    · rintro ⟨_, digest, bytes, rfl, hdigest, hhex, hkey, hread, hbytes, hverify⟩
      exact ⟨digest, hdigest, hhex, trusted, hkey, (), hread, rfl, bytes, hbytes, hverify⟩

theorem verifyReceiptState_eq_ok_iff {state : ReceiptState} :
    verifyReceiptState receipt state.step state.stateDigestBeforeHex state.stateDigestAfterHex =
      .ok () ↔ receipt.state = some state := by
  rw [verifyReceiptState]
  cases receipt.state with
  | none => simp
  | some found =>
    cases found
    cases state
    simp only [require_eq_ok_iff, Option.some.injEq, ReceiptState.mk.injEq]

theorem verifyReceiptWal_eq_ok_iff {wal : ReceiptWal} :
    verifyReceiptWal receipt wal.sequence wal.entryHash = .ok () ↔ receipt.wal = some wal := by
  rw [verifyReceiptWal]
  cases receipt.wal with
  | none => simp
  | some found =>
    cases found
    cases wal
    simp only [require_eq_ok_iff, Option.some.injEq, ReceiptWal.mk.injEq]

theorem verifyReceiptFull_eq_ok_iff {trusted : Bytes} {state : ReceiptState} {wal : ReceiptWal} :
    verifyReceiptFull D S receipt snapshot input decision trusted state wal = some (.ok ()) ↔
      verifyReceipt D receipt snapshot input decision = some (.ok ()) ∧
        verifyReceiptSignature D S receipt (some trusted) = .ok () ∧
        receipt.state = some state ∧ receipt.wal = some wal := by
  rw [verifyReceiptFull, ← verifyReceiptState_eq_ok_iff, ← verifyReceiptWal_eq_ok_iff]
  cases verifyReceipt D receipt snapshot input decision with
  | none => simp
  | some result =>
    cases result with
    | error error => simp
    | ok checked => simp [bind_eq_ok_iff, Unique.exists_iff]

end Accepted

/-! ### What is issued -/

section Issued

variable {D S} {snapshot : PolicySnapshot} {input : KernelInput} {decision : KernelDecision}

def ReceiptState.WellFormed (state : ReceiptState) : Prop :=
  state.step ≠ 0 ∧ isCanonicalDigest state.stateDigestBeforeHex = true ∧
    isCanonicalDigest state.stateDigestAfterHex = true

def ReceiptWal.WellFormed (wal : ReceiptWal) : Prop :=
  wal.sequence ≠ 0 ∧ isCanonicalDigest wal.entryHash = true

def ReceiptAnchors.WellFormed (anchors : ReceiptAnchors) : Prop :=
  (∀ state ∈ anchors.state, state.WellFormed) ∧ ∀ wal ∈ anchors.wal, wal.WellFormed

theorem exists_parseField (field : String) {value : Bytes} (h : isCanonicalDigest value = true) :
    ∃ bytes, parseField 32 field value = .ok bytes := by
  rw [isCanonicalDigest, Bool.and_eq_true, beq_iff_eq, all_eq_true] at h
  obtain ⟨bytes, hvalue, hlength⟩ := exists_bytesToHex (n := 32) h.1 h.2
  exact ⟨bytes, parseField_eq_ok_iff.2 ⟨hvalue, hlength⟩⟩

theorem exists_hashOptionalState {state : Option ReceiptState}
    (h : ∀ x ∈ state, x.WellFormed) : ∃ bytes, hashOptionalState state = .ok bytes := by
  cases state with
  | none => exact ⟨[0], rfl⟩
  | some x =>
    obtain ⟨hstep, hbefore, hafter⟩ := h x rfl
    obtain ⟨before, hbefore⟩ := exists_parseField "state_digest_before_hex" hbefore
    obtain ⟨after, hafter⟩ := exists_parseField "state_digest_after_hex" hafter
    exact ⟨_, hashOptionalState_some_eq_ok_iff.2 ⟨hstep, before, hbefore, after, hafter, rfl⟩⟩

theorem exists_hashOptionalWal {wal : Option ReceiptWal} (h : ∀ x ∈ wal, x.WellFormed) :
    ∃ bytes, hashOptionalWal wal = .ok bytes := by
  cases wal with
  | none => exact ⟨[0], rfl⟩
  | some x =>
    obtain ⟨hsequence, hentry⟩ := h x rfl
    obtain ⟨hash, hhash⟩ := exists_parseField "wal.entry_hash" hentry
    exact ⟨_, hashOptionalWal_some_eq_ok_iff.2 ⟨hsequence, hash, hhash, rfl⟩⟩

theorem exists_receiptClaimsDigest {receipt : DecisionReceipt}
    (hclaims : receipt.claims = expectedClaims D snapshot input decision receipt.state receipt.wal)
    (hstate : ∀ x ∈ receipt.state, x.WellFormed) (hwal : ∀ x ∈ receipt.wal, x.WellFormed) :
    ∃ digest, receiptClaimsDigest D receipt = .ok digest := by
  obtain ⟨state, hstate⟩ := exists_hashOptionalState hstate
  obtain ⟨wal, hwal⟩ := exists_hashOptionalWal hwal
  have hdigest : ∀ (field : String) (digest : Bytes32),
      parseField 32 field (bytesToHex digest.1) = .ok digest.1 := fun field digest =>
    parseField_eq_ok_iff.2 ⟨rfl, digest.2⟩
  simp only [DecisionReceipt.claims, expectedClaims, Claims.mk.injEq] at hclaims
  obtain ⟨hschema, -, -, hpolicy, hinput, hdecision, -, -, -⟩ := hclaims
  have hlength : (literal receipt.schemaVersion).length < 2 ^ 64 := by
    rw [hschema]
    decide
  have hpreimage := claimsPreimage_eq_ok_iff.2 ⟨hlength, _, _, _, state, wal,
    hpolicy ▸ hdigest _ _, hinput ▸ hdigest _ _, hdecision ▸ hdigest _ _, hstate, hwal, rfl⟩
  rw [receiptClaimsDigest, hpreimage]
  exact ⟨_, rfl⟩

theorem receiptClaimsDigest_congr {receipt receipt' : DecisionReceipt}
    (h : receipt.claims = receipt'.claims) :
    receiptClaimsDigest D receipt = receiptClaimsDigest D receipt' := by
  cases receipt
  cases receipt'
  simp only [DecisionReceipt.claims, Claims.mk.injEq] at h
  simp only [receiptClaimsDigest, claimsPreimage, h]

/-- For a decision that replays a receipt is issued; it claims what is expected, with the
digest of these claims. -/
theorem exists_issueReceipt {anchors : ReceiptAnchors}
    (hreplay : snapshot.prescribe input = some decision) (hanchors : anchors.WellFormed) :
    ∃ receipt, issueReceipt D snapshot input decision anchors = some (.ok receipt) ∧
      receipt.claims = expectedClaims D snapshot input decision anchors.state anchors.wal ∧
      receipt.Bound D := by
  have hclaims : (draftReceipt D snapshot input decision anchors).claims =
      expectedClaims D snapshot input decision anchors.state anchors.wal := rfl
  obtain ⟨digest, hdigest⟩ := exists_receiptClaimsDigest hclaims hanchors.1 hanchors.2
  refine ⟨{ draftReceipt D snapshot input decision anchors with
    claimsDigestHex := bytesToHex digest.1 }, ?_, hclaims, digest, ?_, rfl⟩
  · rw [issueReceipt, verifyDecision_eq_valid_iff.2 hreplay, Option.map_some]
    simp only [hdigest]
    rfl
  · rw [← hdigest]
    exact receiptClaimsDigest_congr rfl

theorem signReceipt_eq_ok_iff {receipt signed : DecisionReceipt} {secret : Bytes32}
    {signerId : String} {signedAtEpochMs : UInt64} :
    signReceipt D S receipt secret signerId signedAtEpochMs = .ok signed ↔
      ∃ digest, receiptClaimsDigest D receipt = .ok digest ∧
        receipt.claimsDigestHex = bytesToHex digest.1 ∧
        signed = { receipt with signature := some {
          signerId := signerId
          signedAtEpochMs := signedAtEpochMs
          publicKeyHex := bytesToHex (S.verifyingKey secret).1
          signatureHex := bytesToHex
            (S.sign secret (receiptSigningMessage digest signedAtEpochMs signerId)).1 } } := by
  simp only [signReceipt, bind_eq_ok_iff, require_eq_ok_iff, exists_const, pure, Except.pure,
    Except.ok.injEq]
  exact exists_congr fun digest => and_congr_right fun _ => and_congr_right fun _ => eq_comm

def Ed25519.Correct (S : Ed25519) (secret : Bytes32) (message : Bytes) : Prop :=
  S.fromBytes (S.verifyingKey secret).1 = .ok () ∧
    S.verify (S.verifyingKey secret).1 message (S.sign secret message).1 = true

theorem verifyReceiptFull_of_signReceipt {receipt signed : DecisionReceipt} {secret : Bytes32}
    {signerId : String} {signedAtEpochMs : UInt64} {state : ReceiptState} {wal : ReceiptWal}
    (hcorrect : ∀ digest, receiptClaimsDigest D receipt = .ok digest →
      S.Correct secret (receiptSigningMessage digest signedAtEpochMs signerId))
    (hverify : verifyReceipt D receipt snapshot input decision = some (.ok ()))
    (hstate : receipt.state = some state) (hwal : receipt.wal = some wal)
    (hsign : signReceipt D S receipt secret signerId signedAtEpochMs = .ok signed) :
    verifyReceiptFull D S signed snapshot input decision (S.verifyingKey secret).1 state wal =
      some (.ok ()) := by
  obtain ⟨digest, hdigest, hhex, rfl⟩ := signReceipt_eq_ok_iff.1 hsign
  obtain ⟨hclaims, hreplay, -⟩ := verifyReceipt_eq_ok_iff.1 hverify
  have hdigest' (signature : Option ReceiptSignature) :
      receiptClaimsDigest D { receipt with signature := signature } = .ok digest := by
    rw [← hdigest]
    exact receiptClaimsDigest_congr rfl
  refine verifyReceiptFull_eq_ok_iff.2 ⟨verifyReceipt_eq_ok_iff.2
    ⟨hclaims, hreplay, digest, hdigest' _, hhex⟩, verifyReceiptSignature_eq_ok_iff.2
    ⟨_, digest, _, rfl, hdigest' _, hhex, parseField_eq_ok_iff.2 ⟨rfl, (S.verifyingKey secret).2⟩,
      ?_, parseField_eq_ok_iff.2 ⟨rfl, (S.sign secret _).2⟩, (hcorrect digest hdigest).2⟩, hstate,
    hwal⟩
  rw [readKey, (hcorrect digest hdigest).1]

end Issued

/-! ### What the trusted key signed -/

section Signed

variable {D S}

/-- The signature on this receipt, if it verifies under the key of `secret`, is on a message
that a call of `sign_receipt` signed; the calls gave the receipts of `signed`. -/
structure Unforged (D : Digests) (S : Ed25519) (secret : Bytes32) (signed : List DecisionReceipt)
    (receipt : DecisionReceipt) : Prop where
  calls : ∀ result ∈ signed, ∃ unsigned signerId signedAtEpochMs,
    signReceipt D S unsigned secret signerId signedAtEpochMs = .ok result
  presented : ∀ signature digest bytes, receipt.signature = some signature →
    receiptClaimsDigest D receipt = .ok digest →
    parseField 64 "signature.signature_hex" signature.signatureHex = .ok bytes →
    S.verify (S.verifyingKey secret).1
      (receiptSigningMessage digest signature.signedAtEpochMs signature.signerId) bytes = true →
    ∃ result ∈ signed, ∃ signature' digest', result.signature = some signature' ∧
      receiptClaimsDigest D result = .ok digest' ∧
      receiptSigningMessage digest signature.signedAtEpochMs signature.signerId =
        receiptSigningMessage digest' signature'.signedAtEpochMs signature'.signerId

def CollisionFree (D : Digests) (receipts : List DecisionReceipt) : Prop :=
  ∀ r ∈ receipts, ∀ r' ∈ receipts, ∀ bytes bytes', claimsPreimage r = .ok bytes →
    claimsPreimage r' = .ok bytes' → D.sha256 bytes = D.sha256 bytes' → bytes = bytes'

theorem receiptSigningMessage_inj {digest digest' : Bytes32} {time time' : UInt64}
    {signer signer' : String} :
    receiptSigningMessage digest time signer = receiptSigningMessage digest' time' signer' ↔
      digest = digest' ∧ time = time' ∧ signer = signer' := by
  constructor
  · intro h
    obtain ⟨hdigest, hrest⟩ := append_inj (append_cancel_left h) (digest.2.trans digest'.2.symm)
    obtain ⟨htime, hsigner⟩ := le64_append_inj.1 hrest
    exact ⟨Subtype.ext hdigest, htime, literal_injective hsigner⟩
  · rintro ⟨rfl, rfl, rfl⟩
    rfl

theorem CollisionFree.claims_eq {receipts : List DecisionReceipt} (h : CollisionFree D receipts)
    {r r' : DecisionReceipt} (hr : r ∈ receipts) (hr' : r' ∈ receipts) {digest : Bytes32}
    (hdigest : receiptClaimsDigest D r = .ok digest)
    (hdigest' : receiptClaimsDigest D r' = .ok digest) : r.claims = r'.claims := by
  obtain ⟨bytes, hbytes, hhash⟩ := exists_of_map_eq_ok hdigest
  obtain ⟨bytes', hbytes', hhash'⟩ := exists_of_map_eq_ok hdigest'
  obtain rfl := h r hr r' hr' bytes bytes' hbytes hbytes' (hhash.trans hhash'.symm)
  exact claimsPreimage_inj hbytes hbytes'

theorem exists_signed {receipt : DecisionReceipt} {secret : Bytes32}
    {signed : List DecisionReceipt} (hsigned : Unforged D S secret signed receipt)
    (hfree : CollisionFree D (receipt :: signed))
    (h : verifyReceiptSignature D S receipt (some (S.verifyingKey secret).1) = .ok ()) :
    ∃ result ∈ signed, result.claims = receipt.claims ∧
      result.signature.map (fun s => (s.signerId, s.signedAtEpochMs)) =
        receipt.signature.map fun s => (s.signerId, s.signedAtEpochMs) := by
  obtain ⟨signature, digest, bytes, hsignature, hdigest, -, -, -, hbytes, hverify⟩ :=
    verifyReceiptSignature_eq_ok_iff.1 h
  obtain ⟨result, hresult, signature', digest', hsignature', hdigest', hmessage⟩ :=
    hsigned.presented _ _ _ hsignature hdigest hbytes hverify
  obtain ⟨rfl, htime, hid⟩ := receiptSigningMessage_inj.1 hmessage
  refine ⟨result, hresult, hfree.claims_eq (mem_cons_of_mem _ hresult) mem_cons_self
    hdigest' hdigest, ?_⟩
  rw [hsignature, hsignature', Option.map_some, Option.map_some, htime, hid]

/-- For a decision that replays, with well-formed evidence or none, a receipt is issued and
verified. A receipt that the full verification accepts claims what is expected, field by
field. If its signature is not forged, the trusted key signed these claims, since nothing
else has their layout. -/
theorem verifyReceipt_spec (D : Digests) (S : Ed25519) :
    (∀ snapshot input decision anchors, snapshot.prescribe input = some decision →
      anchors.WellFormed →
        ∃ receipt, issueReceipt D snapshot input decision anchors = some (.ok receipt) ∧
          receipt.claims = expectedClaims D snapshot input decision anchors.state anchors.wal ∧
          verifyReceipt D receipt snapshot input decision = some (.ok ())) ∧
    (∀ receipt snapshot input decision trusted state wal,
      verifyReceiptFull D S receipt snapshot input decision trusted state wal = some (.ok ()) →
        receipt.claims = expectedClaims D snapshot input decision (some state) (some wal) ∧
        decision.policyEpoch = snapshot.policyEpoch ∧
        decision.catalogEpoch = snapshot.catalogEpoch) ∧
    (∀ receipt snapshot input decision secret state wal signed,
      Unforged D S secret signed receipt → CollisionFree D (receipt :: signed) →
      verifyReceiptFull D S receipt snapshot input decision (S.verifyingKey secret).1 state wal =
        some (.ok ()) →
        ∃ result ∈ signed, result.claims = receipt.claims ∧
          result.signature.map (fun s => (s.signerId, s.signedAtEpochMs)) =
            receipt.signature.map fun s => (s.signerId, s.signedAtEpochMs)) ∧
    ∀ receipt receipt' bytes, claimsPreimage receipt = .ok bytes →
      claimsPreimage receipt' = .ok bytes → receipt.claims = receipt'.claims := by
  refine ⟨?_, ?_, ?_, fun _ _ _ => claimsPreimage_inj⟩
  · intro snapshot input decision anchors hreplay hanchors
    obtain ⟨receipt, hissue, hclaims, hbound⟩ := exists_issueReceipt (D := D) hreplay hanchors
    have hstate : receipt.state = anchors.state := congrArg Claims.state hclaims
    have hwal : receipt.wal = anchors.wal := congrArg Claims.wal hclaims
    refine ⟨receipt, hissue, hclaims, verifyReceipt_eq_ok_iff.2 ⟨?_, hreplay, hbound⟩⟩
    rw [hstate, hwal, hclaims]
  · intro receipt snapshot input decision trusted state wal h
    obtain ⟨hverify, -, hstate, hwal⟩ := verifyReceiptFull_eq_ok_iff.1 h
    obtain ⟨hclaims, hreplay, -⟩ := verifyReceipt_eq_ok_iff.1 hverify
    rw [hstate, hwal] at hclaims
    exact ⟨hclaims, PolicySnapshot.epochs_of_prescribe hreplay⟩
  · intro receipt snapshot input decision secret state wal signed hsigned hfree h
    exact exists_signed hsigned hfree (verifyReceiptFull_eq_ok_iff.1 h).2.1

end Signed

section Instances

def singleClaimsDigest : Bytes32 :=
  digestOf 0x4fa1cd2ec7fe3c36ae167ead8994a3fba3fca0eaa59e439109cf611fd4d9a3e3

/-- The first step of a state, and the first entry of a log. -/
def singleState : ReceiptState where
  step := 1
  stateDigestBeforeHex := bytesToHex (replicate 32 0x11)
  stateDigestAfterHex := bytesToHex (replicate 32 0x22)

@[inherit_doc singleState]
def singleWal : ReceiptWal where
  sequence := 1
  entryHash := bytesToHex
    (digestOf 0x10bf76d7e2716021d030753843f8089a437aa2f8b5b6aa0ea6f6c772e705621e).1

def singleSecret : Bytes32 := ⟨replicate 32 7, rfl⟩

/-- The Ed25519 key of `singleSecret`. -/
def singleKey : Bytes32 :=
  digestOf 0xea4a6c63e29c520abef5507b132ec5f9954776aebebe7b92421eea691446d22c

def singleMessage : Bytes :=
  receiptSigningMessage singleClaimsDigest 1700000000000 "prod-key-1"

/-- The Ed25519 signature of `singleMessage` under `singleSecret`. -/
def singleSignature : Bytes64 :=
  ⟨[0x06, 0xcf, 0xab, 0x36, 0xd1, 0xf4, 0x1b, 0x2f, 0x79, 0x60, 0xc5, 0xd5, 0x5c, 0xff, 0xcd, 0x6d,
    0xfb, 0x24, 0x5f, 0xf4, 0x28, 0x05, 0x05, 0x1d, 0xd2, 0x1a, 0xc7, 0x7a, 0x67, 0x0f, 0x29, 0x4b,
    0x20, 0x88, 0x1e, 0x29, 0x0c, 0x22, 0x39, 0x8d, 0xe9, 0xd5, 0xf0, 0xbb, 0x68, 0xcb, 0x38, 0x09,
    0xdb, 0x53, 0xf4, 0x61, 0x4f, 0x72, 0x8b, 0xb3, 0x1b, 0x33, 0xef, 0x75, 0x6a, 0x70, 0xf1, 0x02],
    rfl⟩

/-- Agrees with Ed25519 on the one message that is signed. -/
def singleScheme : Ed25519 where
  verifyingKey _ := singleKey
  fromBytes _ := .ok ()
  sign _ _ := singleSignature
  verify key message signature :=
    decide (key = singleKey.1 ∧ message = singleMessage ∧ signature = singleSignature.1)

theorem receiptClaimsDigest_single {receipt : DecisionReceipt}
    (h : receipt.claims = expectedClaims sha256Digests (epochPolicy 1) unitPriceInput
      (epochDecision 1) (some singleState) (some singleWal)) :
    receiptClaimsDigest sha256Digests receipt = .ok singleClaimsDigest := by
  have hdraft : receiptClaimsDigest sha256Digests (draftReceipt sha256Digests (epochPolicy 1)
      unitPriceInput (epochDecision 1) ⟨some singleState, some singleWal⟩) =
        .ok singleClaimsDigest := by
    decide +kernel
  exact (receiptClaimsDigest_congr h).trans hdraft

theorem wellFormed_single : (⟨some singleState, some singleWal⟩ : ReceiptAnchors).WellFormed := by
  simp only [ReceiptAnchors.WellFormed, Option.mem_def, Option.some.injEq, forall_eq',
    ReceiptState.WellFormed, ReceiptWal.WellFormed]
  decide

theorem correct_single : singleScheme.Correct singleSecret singleMessage := by
  simp [Ed25519.Correct, singleScheme]

theorem unforged_single {receipt signed : DecisionReceipt}
    (h : signReceipt sha256Digests singleScheme receipt singleSecret "prod-key-1" 1700000000000 =
      .ok signed) : Unforged sha256Digests singleScheme singleSecret [signed] signed where
  calls result hresult := by
    obtain rfl := mem_singleton.1 hresult
    exact ⟨receipt, _, _, h⟩
  presented signature digest _ hsignature hdigest _ _ :=
    ⟨signed, mem_singleton_self _, signature, digest, hsignature, hdigest, rfl⟩

/-- The receipt is issued, signed and accepted with its evidence. -/
theorem verifyReceipt_spec_single :
    ∃ receipt signed,
      issueReceipt sha256Digests (epochPolicy 1) unitPriceInput (epochDecision 1)
        ⟨some singleState, some singleWal⟩ = some (.ok receipt) ∧
      signReceipt sha256Digests singleScheme receipt singleSecret "prod-key-1" 1700000000000 =
        .ok signed ∧
      verifyReceiptFull sha256Digests singleScheme signed (epochPolicy 1) unitPriceInput
        (epochDecision 1) singleKey.1 singleState singleWal = some (.ok ()) ∧
      signed.claims = expectedClaims sha256Digests (epochPolicy 1) unitPriceInput (epochDecision 1)
        (some singleState) (some singleWal) ∧
      ∃ result ∈ [signed], result.claims = signed.claims := by
  obtain ⟨hissue, hfull, hsigned, -⟩ := verifyReceipt_spec sha256Digests singleScheme
  obtain ⟨receipt, hreceipt, hclaims, hverify⟩ :=
    hissue _ _ _ _ prescribe_epochPolicy.1 wellFormed_single
  obtain ⟨-, -, digest, hdigest, hhex⟩ := verifyReceipt_eq_ok_iff.1 hverify
  obtain ⟨signed, hsign⟩ : ∃ signed, signReceipt sha256Digests singleScheme receipt singleSecret
      "prod-key-1" 1700000000000 = .ok signed :=
    ⟨_, signReceipt_eq_ok_iff.2 ⟨digest, hdigest, hhex, rfl⟩⟩
  have hcorrect (digest : Bytes32) (h : receiptClaimsDigest sha256Digests receipt = .ok digest) :
      singleScheme.Correct singleSecret
        (receiptSigningMessage digest 1700000000000 "prod-key-1") := by
    obtain rfl := Except.ok.inj (h.symm.trans (receiptClaimsDigest_single hclaims))
    exact correct_single
  have haccepted := verifyReceiptFull_of_signReceipt hcorrect hverify
    (congrArg Claims.state hclaims) (congrArg Claims.wal hclaims) hsign
  -- one receipt was signed, so there is one preimage
  have hfree : CollisionFree sha256Digests [signed, signed] := by
    intro r hr r' hr' bytes bytes' hbytes hbytes' _
    simp only [mem_cons, not_mem_nil, or_false, or_self] at hr hr'
    subst hr hr'
    exact Except.ok.inj (hbytes.symm.trans hbytes')
  obtain ⟨result, hresult, hsame, -⟩ :=
    hsigned _ _ _ _ singleSecret _ _ [signed] (unforged_single hsign) hfree haccepted
  exact ⟨receipt, signed, hreceipt, hsign, haccepted, (hfull _ _ _ _ _ _ _ haccepted).1, result,
    hresult, hsame⟩

end Instances

end Calybris.Receipt
