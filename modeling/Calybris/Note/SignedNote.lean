import Calybris.Note.Checkpoint

/-!
# Signed notes

A note is a text and signature lines. A log signs the text itself; a witness
signs a message made of a header, the time and the text, so that a cosignature
says when the text was seen. `cosignatureMessage_inj` is what the quorum results
rest on: a cosignature for one text is never one for another.
-/

namespace Calybris.Note

open Text Merkle

def algEd25519 : UInt8 := 0x01

def algCosignatureV1 : UInt8 := 0x04

def maxNoteBytes : Nat := 64 * 1024

def maxSignatures : Nat := 100

def maxCosignatureTime : Nat := 2 ^ 63 - 1

def signaturePrefixText : List Char := ['—', ' ']

def cosignatureHeader : List Char := "cosignature/v1\ntime ".toList

def isValidName (name : List Char) : Bool :=
  name != [] && !name.any fun c => c == '+' || isWhitespace c || isControl c

structure NoteSignature where
  name : List Char
  keyHash : Nat
  signature : Bytes
  deriving DecidableEq

structure NoteVerifier where
  name : List Char
  algorithm : UInt8
  keyHash : Nat
  key : Bytes32
  deriving DecidableEq

structure SignedNote where
  text : List Char
  signatures : List NoteSignature
  deriving DecidableEq

structure LogSigner where
  verifier : NoteVerifier
  seed : Bytes32
  deriving DecidableEq

structure WitnessSigner where
  verifier : NoteVerifier
  seed : Bytes32
  deriving DecidableEq

variable (P : Primitives)

def NoteSignature.line (sig : NoteSignature) : List Char :=
  signaturePrefixText ++ sig.name ++ ' ' ::
    P.base64Encode (toBigEndian 4 sig.keyHash ++ sig.signature) ++ ['\n']

def NoteSignature.parseLine (line : List Char) : Except CheckpointError NoteSignature :=
  if signaturePrefixText.isPrefixOf line then
    match splitOnce ' ' (line.drop signaturePrefixText.length) with
    | none => .error (.malformedNote "signature line must be `— name signature`")
    | some (name, encoded) =>
      if isValidName name then
        match P.base64Decode encoded with
        | none => .error (.malformedNote "signature is not standard base64")
        | some raw =>
          if raw.length < 5 then
            .error (.malformedNote "signature is shorter than a key hash and one byte")
          else .ok ⟨name, ofBigEndian (raw.take 4), raw.drop 4⟩
      else .error .badName
  else .error (.malformedNote "signature line must start with an em dash and a space")

def keyHash (name : List Char) (algorithm : UInt8) (key : Bytes32) : Nat :=
  ofBigEndian ((P.sha256 (utf8 name ++ utf8 ['\n'] ++ algorithm :: key.1)).1.take 4)

def NoteVerifier.new (name : List Char) (algorithm : UInt8) (key : Bytes32) :
    Except CheckpointError NoteVerifier :=
  if isValidName name then .ok ⟨name, algorithm, Note.keyHash P name algorithm key, key⟩
  else .error .badName

def cosignatureMessage (timestamp : Nat) (text : List Char) :
    Except CheckpointError (List Char) :=
  if timestamp = 0 ∨ timestamp > maxCosignatureTime then .error (.badTimestamp timestamp)
  else if (text.splitOn '\n').length < 4 then
    .error (.malformedNote "a cosigned note has at least three lines")
  else .ok (cosignatureHeader ++ decimal timestamp ++ '\n' :: text)

namespace SignedNote

def parseLines : List (List Char) → List NoteSignature →
    Except CheckpointError (List NoteSignature)
  | [], signatures => .ok signatures
  | line :: lines, signatures =>
    if signatures.length = maxSignatures then .error .tooManySignatures
    else
      match NoteSignature.parseLine P line with
      | .error error => .error error
      | .ok sig =>
        if signatures.any fun s => s.name == sig.name && s.keyHash == sig.keyHash then
          .error .duplicateSignature
        else parseLines lines (signatures ++ [sig])

/-- Reads a note. Signatures are parsed, not verified. -/
def parse (note : List Char) : Except CheckpointError SignedNote :=
  if utf8Len note > maxNoteBytes then .error .noteTooLarge
  else if note.any fun c => isControl c && c != '\n' then
    .error (.malformedNote "note contains a control character other than newline")
  else
    match splitLastBlank note with
    | none => .error (.malformedNote "note has no blank line before its signatures")
    | some (text, rest) =>
      if ['\n', '\n'].isSuffixOf text then
        .error (.malformedNote "note text ends in a blank line")
      else
        match stripNewline rest with
        | none => .error (.malformedNote "note must end in a newline")
        | some block =>
          if block = [] then .error (.malformedNote "note has no signatures")
          else (parseLines P (block.splitOn '\n') []).map fun signatures => ⟨text, signatures⟩

def addSignature (note : SignedNote) (sig : NoteSignature) : Except CheckpointError SignedNote :=
  if note.signatures.any fun s => s.name == sig.name && s.keyHash == sig.keyHash then
    .error .duplicateSignature
  else if note.signatures.length = maxSignatures then .error .tooManySignatures
  else .ok { note with signatures := note.signatures ++ [sig] }

def render (note : SignedNote) : List Char :=
  note.text ++ '\n' :: note.signatures.flatMap (NoteSignature.line P)

def checkpoint (note : SignedNote) : Except CheckpointError Checkpoint :=
  Checkpoint.parse P note.text

def signatureFrom (note : SignedNote) (key : NoteVerifier) :
    Except CheckpointError NoteSignature :=
  match note.signatures.find? fun s => s.name == key.name && s.keyHash == key.keyHash with
  | some sig => .ok sig
  | none => .error (.notSigned key.name)

def verify (note : SignedNote) (key : NoteVerifier) : Except CheckpointError Unit :=
  if key.algorithm ≠ algEd25519 then .error (.wrongAlgorithm key.algorithm)
  else
    match note.signatureFrom key with
    | .error error => .error error
    | .ok sig =>
      match toBytes64 sig.signature with
      | none => .error (.badSignature key.name)
      | some bytes =>
        if P.verifyStrict key.key (utf8 note.text) bytes then .ok ()
        else .error (.badSignature key.name)

def cosignatureTime (note : SignedNote) (key : NoteVerifier) : Except CheckpointError Nat :=
  if key.algorithm ≠ algCosignatureV1 then .error (.wrongAlgorithm key.algorithm)
  else
    match note.signatureFrom key with
    | .error error => .error error
    | .ok sig =>
      if sig.signature.length ≠ 72 then .error (.badSignature key.name)
      else
        match toBytes64 (sig.signature.drop 8) with
        | none => .error (.badSignature key.name)
        | some bytes =>
          match cosignatureMessage (ofBigEndian (sig.signature.take 8)) note.text with
          | .error error => .error error
          | .ok message =>
            if P.verifyStrict key.key (utf8 message) bytes then
              .ok (ofBigEndian (sig.signature.take 8))
            else .error (.badSignature key.name)

end SignedNote

def LogSigner.fromSeed (name : List Char) (seed : Bytes32) : Except CheckpointError LogSigner :=
  (NoteVerifier.new P name algEd25519 (P.verifyingKey seed)).map fun verifier => ⟨verifier, seed⟩

def LogSigner.sign (signer : LogSigner) (checkpoint : Checkpoint) : SignedNote where
  text := checkpoint.body P
  signatures := [⟨signer.verifier.name, signer.verifier.keyHash,
    (P.sign signer.seed (utf8 (checkpoint.body P))).1⟩]

def WitnessSigner.fromSeed (name : List Char) (seed : Bytes32) :
    Except CheckpointError WitnessSigner :=
  (NoteVerifier.new P name algCosignatureV1 (P.verifyingKey seed)).map fun verifier =>
    ⟨verifier, seed⟩

def WitnessSigner.cosign (signer : WitnessSigner) (text : List Char) (timestamp : Nat) :
    Except CheckpointError NoteSignature :=
  match cosignatureMessage timestamp text with
  | .error error => .error error
  | .ok message => .ok ⟨signer.verifier.name, signer.verifier.keyHash,
      toBigEndian 8 timestamp ++ (P.sign signer.seed (utf8 message)).1⟩

section Message

variable {P} {timestamp timestamp' time : Nat} {text text' message : List Char}
  {note : SignedNote} {key : NoteVerifier} {sig : NoteSignature}

/-- There is a message for a time that a cosignature can carry and a text of three lines. -/
theorem cosignatureMessage_eq_ok_iff : cosignatureMessage timestamp text = .ok message ↔
    0 < timestamp ∧ timestamp ≤ maxCosignatureTime ∧ 4 ≤ (text.splitOn '\n').length ∧
      message = cosignatureHeader ++ decimal timestamp ++ '\n' :: text := by
  unfold cosignatureMessage
  split_ifs with htime hlines
  · constructor
    · intro h
      cases h
    · omega
  · constructor
    · intro h
      cases h
    · omega
  · rw [Except.ok.injEq]
    constructor
    · intro h
      exact ⟨by omega, by omega, by omega, h.symm⟩
    · exact fun h => h.2.2.2.symm

theorem cosignatureMessage_inj (h : cosignatureMessage timestamp text = .ok message)
    (h' : cosignatureMessage timestamp' text' = .ok message) :
    timestamp = timestamp' ∧ text = text' := by
  obtain ⟨-, -, -, hmessage⟩ := cosignatureMessage_eq_ok_iff.1 h
  obtain ⟨-, -, -, hmessage'⟩ := cosignatureMessage_eq_ok_iff.1 h'
  have heq := hmessage.symm.trans hmessage'
  rw [List.append_assoc, List.append_assoc] at heq
  obtain ⟨htime, htext⟩ := append_cons_inj (newline_notMem_decimal _) (newline_notMem_decimal _)
    (List.append_cancel_left heq)
  have hnat := congrArg ofDecimal htime
  rw [ofDecimal_decimal, ofDecimal_decimal] at hnat
  exact ⟨hnat, htext⟩

namespace SignedNote

theorem mem_of_signatureFrom (h : note.signatureFrom key = .ok sig) : sig ∈ note.signatures := by
  unfold signatureFrom at h
  split at h
  · next hfind =>
    cases h
    exact List.mem_of_find?_eq_some hfind
  · cases h

theorem verify_eq_ok_iff : note.verify P key = .ok () ↔ key.algorithm = algEd25519 ∧
    ∃ sig bytes, note.signatureFrom key = .ok sig ∧ toBytes64 sig.signature = some bytes ∧
      P.verifyStrict key.key (utf8 note.text) bytes = true := by
  unfold verify
  constructor
  · intro h
    split_ifs at h with halgorithm
    split at h
    · cases h
    next sig hsig =>
    split at h
    · cases h
    next bytes hbytes =>
    split_ifs at h with hverify
    exact ⟨not_ne_iff.1 halgorithm, sig, bytes, hsig, hbytes, hverify⟩
  · rintro ⟨halgorithm, sig, bytes, hsig, hbytes, hverify⟩
    simp only [halgorithm, ne_eq, not_true_eq_false, hsig, hbytes, hverify, if_true, if_false]

theorem cosignatureTime_eq_ok_iff : note.cosignatureTime P key = .ok time ↔
    key.algorithm = algCosignatureV1 ∧
    ∃ sig bytes message, note.signatureFrom key = .ok sig ∧ sig.signature.length = 72 ∧
      toBytes64 (sig.signature.drop 8) = some bytes ∧
      ofBigEndian (sig.signature.take 8) = time ∧
      cosignatureMessage time note.text = .ok message ∧
      P.verifyStrict key.key (utf8 message) bytes = true := by
  unfold cosignatureTime
  constructor
  · intro h
    split_ifs at h with halgorithm
    split at h
    · cases h
    next sig hsig =>
    split_ifs at h with hlen
    split at h
    · cases h
    next bytes hbytes =>
    split at h
    · cases h
    next message hmessage =>
    split_ifs at h with hverify
    cases h
    exact ⟨not_ne_iff.1 halgorithm, sig, bytes, message, hsig, not_ne_iff.1 hlen, hbytes, rfl,
      hmessage, hverify⟩
  · rintro ⟨halgorithm, sig, bytes, message, hsig, hlen, hbytes, rfl, hmessage, hverify⟩
    simp only [halgorithm, ne_eq, not_true_eq_false, hsig, hlen, hbytes, hmessage, hverify,
      if_true, if_false]

end SignedNote

end Message

end Calybris.Note
