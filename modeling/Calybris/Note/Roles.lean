import Calybris.Note.Canonical

/-!
# A key in two roles

A log signs the text of a checkpoint; a witness signs a message that starts with a header
and the time. The same secret can be read as a log's key and as a witness's. The messages of
the two roles are never the same: the second line of a checkpoint is a number, and the
second line of a witness's message starts with a word. So where the signatures on a note are
not forged, an accepted log signature was made by the log and an accepted cosignature by the
witness, for that time and text.
-/

namespace Calybris.Note

open Text Merkle List WitnessSigner

section Keys

variable (P : Primitives)

def skeyStart : List Char := "PRIVATE+KEY+".toList

def isAsciiHexdigit (b : UInt8) : Bool :=
  (48 ≤ b && b ≤ 57) || (65 ≤ b && b ≤ 70) || (97 ≤ b && b ≤ 102)

def parseSeed (encoded : List Char) (algorithms : List UInt8) : Except CheckpointError Bytes32 :=
  match P.base64Decode encoded with
  | none => .error (.badKey "key is not standard base64")
  | some [] => .error (.badKey "key is empty")
  | some (algorithm :: seed) =>
    if algorithm ∈ algorithms then
      match toBytes32 seed with
      | none => .error (.badKey "Ed25519 seed must be 32 bytes")
      | some seed => .ok seed
    else .error (.wrongAlgorithm algorithm)

/-- The name and the seed of a signer key `PRIVATE+KEY+name+hash+key`. -/
def parseSkey (skey : List Char) (algorithms : List UInt8) :
    Except CheckpointError (List Char × Bytes32) :=
  if skeyStart.isPrefixOf skey then
    match splitOnce '+' (skey.drop skeyStart.length) with
    | none => .error (.badKey "expected PRIVATE+KEY+name+hash+key")
    | some (name, rest) =>
      match splitOnce '+' rest with
      | none => .error (.badKey "expected PRIVATE+KEY+name+hash+key")
      | some (hash, encoded) =>
        if isValidName name then
          if utf8Len hash = 8 ∧ (utf8 hash).all isAsciiHexdigit then
            (parseSeed P encoded algorithms).map fun seed => (name, seed)
          else .error (.badKey "key hash must be 8 hex digits")
        else .error .badName
  else .error (.badKey "signer key must start with PRIVATE+KEY+")

def LogSigner.fromSkey (skey : List Char) : Except CheckpointError LogSigner :=
  match parseSkey P skey [algEd25519] with
  | .error error => .error error
  | .ok (name, seed) => LogSigner.fromSeed P name seed

/-- Reads a witness's signer key, or a log's; either way it signs as a witness. -/
def WitnessSigner.fromSkey (skey : List Char) : Except CheckpointError WitnessSigner :=
  match parseSkey P skey [algCosignatureV1, algEd25519] with
  | .error error => .error error
  | .ok (name, seed) => fromSeed P name seed

variable {P} {skey encoded name : List Char} {algorithms algorithms' : List UInt8}
  {seed : Bytes32}

theorem parseSeed_mono (h : parseSeed P encoded algorithms = .ok seed)
    (hsub : algorithms ⊆ algorithms') : parseSeed P encoded algorithms' = .ok seed := by
  unfold parseSeed at h ⊢
  split at h
  · cases h
  · cases h
  next algorithm bytes hdecode =>
  split_ifs at h with hmem
  rw [if_pos (hsub hmem)]
  exact h

theorem parseSkey_mono (h : parseSkey P skey algorithms = .ok (name, seed))
    (hsub : algorithms ⊆ algorithms') : parseSkey P skey algorithms' = .ok (name, seed) := by
  unfold parseSkey at h ⊢
  split_ifs at h ⊢ with hstart
  split at h
  · cases h
  next name' rest hrest =>
  split at h
  · cases h
  next hash encoded hencoded =>
  split_ifs at h with hname hhash
  obtain ⟨seed', hseed, heq⟩ := exists_of_map_eq_ok h
  simp only [if_pos hname, if_pos hhash, parseSeed_mono hseed hsub]
  exact congrArg Except.ok heq

theorem LogSigner.of_fromSeed {signer : LogSigner}
    (h : LogSigner.fromSeed P name seed = .ok signer) :
    signer.seed = seed ∧ signer.verifier.key = P.verifyingKey seed ∧
      signer.verifier.algorithm = algEd25519 := by
  obtain ⟨verifier, hverifier, rfl⟩ := exists_of_map_eq_ok h
  unfold NoteVerifier.new at hverifier
  split_ifs at hverifier
  cases hverifier
  exact ⟨rfl, rfl, rfl⟩

theorem WitnessSigner.of_fromSeed {signer : WitnessSigner}
    (h : fromSeed P name seed = .ok signer) :
    signer.seed = seed ∧ signer.verifier.key = P.verifyingKey seed ∧
      signer.verifier.algorithm = algCosignatureV1 := by
  obtain ⟨verifier, hverifier, rfl⟩ := exists_of_map_eq_ok h
  unfold NoteVerifier.new at hverifier
  split_ifs at hverifier
  cases hverifier
  exact ⟨rfl, rfl, rfl⟩

theorem exists_fromSeed {log : LogSigner} (h : LogSigner.fromSeed P name seed = .ok log) :
    ∃ witness, fromSeed P name seed = .ok witness := by
  obtain ⟨verifier, hverifier, -⟩ := exists_of_map_eq_ok h
  unfold NoteVerifier.new at hverifier
  split_ifs at hverifier with hname
  rw [fromSeed, NoteVerifier.new, if_pos hname]
  exact ⟨_, rfl⟩

theorem exists_fromSkey {log : LogSigner} (h : LogSigner.fromSkey P skey = .ok log) :
    ∃ witness, fromSkey P skey = .ok witness ∧ witness.seed = log.seed := by
  unfold LogSigner.fromSkey at h
  split at h
  · cases h
  next name seed hskey =>
  obtain ⟨witness, hwitness⟩ := exists_fromSeed h
  refine ⟨witness, ?_, ?_⟩
  · rw [fromSkey, parseSkey_mono hskey (by simp)]
    exact hwitness
  · rw [(of_fromSeed hwitness).1, (LogSigner.of_fromSeed h).1]

end Keys

section Messages

variable {P : Primitives} {timestamp : Nat} {text message : List Char} {checkpoint : Checkpoint}

theorem cosignatureHeader_eq :
    cosignatureHeader = "cosignature/v1".toList ++ '\n' :: "time ".toList := by decide

theorem body_ne_cosignatureMessage (h : cosignatureMessage timestamp text = .ok message)
    (checkpoint : Checkpoint) : checkpoint.body P ≠ message := by
  intro hbody
  obtain ⟨-, -, -, rfl⟩ := cosignatureMessage_eq_ok_iff.1 h
  rw [Checkpoint.body, cosignatureHeader_eq, append_assoc, append_assoc,
    append_assoc, append_assoc, cons_append, cons_append,
    cons_append] at hbody
  obtain ⟨-, hrest⟩ := append_cons_inj (newline_notMem_of_isValidLine checkpoint.origin_valid)
    (by decide) hbody
  rw [← append_assoc] at hrest
  have hword : '\n' ∉ "time ".toList ++ decimal timestamp := by
    rw [mem_append, not_or]
    exact ⟨by decide, newline_notMem_decimal timestamp⟩
  obtain ⟨hsize, -⟩ := append_cons_inj (newline_notMem_decimal _) hword hrest
  have ht : 't' ∈ decimal checkpoint.size := hsize ▸ mem_append_left _ (by decide)
  exact absurd (isDigit_of_mem_decimal ht) (by decide)

theorem parse_cosignatureMessage_ne_ok (h : cosignatureMessage timestamp text = .ok message) :
    Checkpoint.parse P message ≠ .ok checkpoint := fun hparse =>
  body_ne_cosignatureMessage h checkpoint (Checkpoint.body_of_parse hparse)

theorem four_le_length_splitOn (h : Checkpoint.parse P text = .ok checkpoint) :
    4 ≤ (text.splitOn '\n').length := by
  unfold Checkpoint.parse at h
  split at h
  · cases h
  next front hstrip =>
  have hsplit : text.splitOn '\n' = front.splitOn '\n' ++ [[]] := by
    rw [eq_concat_of_stripNewline hstrip, splitOn_eq_splitOnP, splitOn_eq_splitOnP,
      splitOnP_append_cons _ _ (by simp)]
    rfl
  rw [hsplit, length_append, length_singleton]
  split at h
  · cases h
  · cases h
  · cases h
  next origin size root extensions hlines =>
  rw [hlines]
  simp

end Messages

section Signing

variable (P : Primitives)

def Primitives.Signs : Prop :=
  ∀ seed message, P.verifyStrict (P.verifyingKey seed) message (P.sign seed message) = true

theorem signs_standard : standard.Signs := by
  intro seed message
  simp only [standard, Bool.or_eq_true, any_eq_true, decide_eq_true_eq]
  cases hfind : signedTexts.find? fun x => decide (x.1 = seed ∧ utf8 x.2.1 = message) with
  | none => exact .inr rfl
  | some x =>
    obtain ⟨hseed, hmessage⟩ : x.1 = seed ∧ utf8 x.2.1 = message := by
      simpa using find?_some hfind
    exact .inl ⟨x, mem_of_find?_eq_some hfind, congrArg keyOf hseed, hmessage, rfl⟩

variable {P} {signer : WitnessSigner} {name text : List Char} {seed : Bytes32} {timestamp : Nat}
  {line : NoteSignature} {note note' : SignedNote} {checkpoint : Checkpoint}

theorem cosign_eq_ok_iff : signer.cosign P text timestamp = .ok line ↔
    ∃ message, cosignatureMessage timestamp text = .ok message ∧
      line = ⟨signer.verifier.name, signer.verifier.keyHash,
        toBigEndian 8 timestamp ++ (P.sign signer.seed (utf8 message)).1⟩ := by
  rw [cosign]
  split
  · next error herror => simp [herror]
  · next message hmessage => simp [hmessage, eq_comm]

/-- A cosignature verifies in every note with the text where it is the witness's line. -/
theorem cosignatureTime_of_cosign (hsigns : P.Signs)
    (hsigner : fromSeed P name seed = .ok signer)
    (hline : signer.cosign P note.text timestamp = .ok line)
    (hfrom : note.signatureFrom signer.verifier = .ok line) :
    note.cosignatureTime P signer.verifier = .ok timestamp := by
  obtain ⟨hseed, hkey, halgorithm⟩ := of_fromSeed hsigner
  obtain ⟨message, hmessage, rfl⟩ := cosign_eq_ok_iff.1 hline
  obtain ⟨-, hle, -⟩ := cosignatureMessage_eq_ok_iff.1 hmessage
  have hlen := length_toBigEndian 8 timestamp
  have htake : (toBigEndian 8 timestamp ++ (P.sign signer.seed (utf8 message)).1).take 8 =
      toBigEndian 8 timestamp := take_left' hlen
  have hdrop : (toBigEndian 8 timestamp ++ (P.sign signer.seed (utf8 message)).1).drop 8 =
      (P.sign signer.seed (utf8 message)).1 := drop_left' hlen
  have hlt : timestamp < 256 ^ 8 := by
    rw [maxCosignatureTime] at hle
    omega
  refine SignedNote.cosignatureTime_eq_ok_iff.2
    ⟨halgorithm, _, P.sign signer.seed (utf8 message), message, hfrom, ?_, ?_, ?_, hmessage, ?_⟩
  · rw [length_append, hlen, (P.sign signer.seed (utf8 message)).2]
  · rw [hdrop, toBytes64_val]
  · rw [htake, ofBigEndian_toBigEndian hlt]
  · rw [hkey, ← hseed]
    exact hsigns signer.seed (utf8 message)

theorem signatureFrom_of_addSignature {sig : NoteSignature} {key : NoteVerifier}
    (hname : sig.name = key.name) (hhash : sig.keyHash = key.keyHash)
    (h : note.addSignature sig = .ok note') : note'.signatureFrom key = .ok sig := by
  obtain ⟨rfl, hunique, -⟩ := SignedNote.of_addSignature h
  have hnone : note.signatures.find? (fun s => s.name == key.name && s.keyHash == key.keyHash) =
      none := by
    rw [find?_eq_none]
    intro s hs hsame
    simp only [Bool.and_eq_true, beq_iff_eq] at hsame
    exact hunique s hs ⟨hsame.1.trans hname.symm, hsame.2.trans hhash.symm⟩
  rw [SignedNote.signatureFrom, find?_append, hnone, Option.none_or,
    find?_cons_of_pos (by simp [hname, hhash])]

end Signing

section Roles

variable (P : Primitives)

/-- What a key signs that a log and a witness share: the texts of checkpoints, and the
messages for times and texts. -/
def signedMessages (logged : Set Checkpoint) (cosigned : Set (Nat × List Char)) : Set Bytes :=
  {m | (∃ checkpoint ∈ logged, m = utf8 (checkpoint.body P)) ∨
    ∃ c ∈ cosigned, ∃ message, cosignatureMessage c.1 c.2 = .ok message ∧ m = utf8 message}

/-- What the lines of a note offer as a signature: on its text, or on the message for the
time that stands in the line. -/
inductive SignedNote.Presents (note : SignedNote) : Bytes → Bytes64 → Prop
  | text {sig : NoteSignature} {bytes : Bytes64} (hsig : sig ∈ note.signatures)
      (hbytes : toBytes64 sig.signature = some bytes) : Presents note (utf8 note.text) bytes
  | message {sig : NoteSignature} {bytes : Bytes64} {message : List Char}
      (hsig : sig ∈ note.signatures) (hbytes : toBytes64 (sig.signature.drop 8) = some bytes)
      (hmessage : cosignatureMessage (ofBigEndian (sig.signature.take 8)) note.text =
        .ok message) : Presents note (utf8 message) bytes

/-- What the note presents and the key of the seed accepts was made by signing. -/
def SignedNote.Unforged (note : SignedNote) (seed : Bytes32) (signed : Set Bytes) : Prop :=
  ∀ message bytes, note.Presents message bytes →
    P.verifyStrict (P.verifyingKey seed) message bytes = true →
      message ∈ signed ∧ bytes = P.sign seed message

variable {P} {seed : Bytes32} {logged : Set Checkpoint} {cosigned : Set (Nat × List Char)}
  {checkpoint : Checkpoint} {timestamp : Nat} {text message : List Char}

theorem mem_signedMessages_body (h : utf8 text ∈ signedMessages P logged cosigned)
    (hparse : Checkpoint.parse P text = .ok checkpoint) :
    ∃ signed ∈ logged, text = signed.body P := by
  obtain ⟨signed, hsigned, heq⟩ | ⟨c, -, message, hmessage, heq⟩ := h
  · exact ⟨signed, hsigned, utf8_injective heq⟩
  · obtain rfl := utf8_injective heq
    exact absurd hparse (parse_cosignatureMessage_ne_ok hmessage)

theorem mem_signedMessages_cosignatureMessage
    (h : utf8 message ∈ signedMessages P logged cosigned)
    (hmessage : cosignatureMessage timestamp text = .ok message) :
    (timestamp, text) ∈ cosigned := by
  obtain ⟨checkpoint, -, heq⟩ | ⟨c, hc, message', hmessage', heq⟩ := h
  · exact absurd (utf8_injective heq).symm (body_ne_cosignatureMessage hmessage checkpoint)
  · obtain rfl := utf8_injective heq
    obtain ⟨rfl, rfl⟩ := cosignatureMessage_inj hmessage hmessage'
    exact hc

section Replay

variable {log : LogSigner} {witness : WitnessSigner} {name name' : List Char}
  {note : SignedNote} {sig line : NoteSignature} {time stated : Nat}
  (hnote : note.Unforged P seed (signedMessages P logged cosigned))

include hnote

theorem made_of_verify (hlog : LogSigner.fromSeed P name seed = .ok log)
    (hverify : note.verify P log.verifier = .ok ()) :
    utf8 note.text ∈ signedMessages P logged cosigned ∧ ∃ sig,
      note.signatureFrom log.verifier = .ok sig ∧
        sig.signature = (P.sign seed (utf8 note.text)).1 := by
  obtain ⟨-, sig, bytes, hfrom, hbytes, hstrict⟩ := SignedNote.verify_eq_ok_iff.1 hverify
  rw [(LogSigner.of_fromSeed hlog).2.1] at hstrict
  obtain ⟨hsigned, rfl⟩ := hnote _ _ (.text (SignedNote.mem_of_signatureFrom hfrom) hbytes) hstrict
  exact ⟨hsigned, sig, hfrom, (eq_of_toBytes64 hbytes).symm⟩

theorem made_of_cosignatureTime (hwitness : WitnessSigner.fromSeed P name seed = .ok witness)
    (htime : note.cosignatureTime P witness.verifier = .ok time) :
    ∃ message, cosignatureMessage time note.text = .ok message ∧
      utf8 message ∈ signedMessages P logged cosigned ∧ ∃ sig,
        note.signatureFrom witness.verifier = .ok sig ∧
          sig.signature.drop 8 = (P.sign seed (utf8 message)).1 := by
  obtain ⟨-, sig, bytes, message, hfrom, -, hbytes, rfl, hmessage, hstrict⟩ :=
    SignedNote.cosignatureTime_eq_ok_iff.1 htime
  rw [(of_fromSeed hwitness).2.1] at hstrict
  obtain ⟨hsigned, rfl⟩ :=
    hnote _ _ (.message (SignedNote.mem_of_signatureFrom hfrom) hbytes hmessage) hstrict
  exact ⟨message, hmessage, hsigned, sig, hfrom, (eq_of_toBytes64 hbytes).symm⟩

/-- One signature, so one message. -/
theorem text_of_verify (hlog : LogSigner.fromSeed P name seed = .ok log)
    (hinj : Set.InjOn (P.sign seed) (signedMessages P logged cosigned))
    (hsigned : utf8 message ∈ signedMessages P logged cosigned)
    (hfrom : note.signatureFrom log.verifier = .ok sig)
    (hsig : sig.signature = (P.sign seed (utf8 message)).1)
    (hverify : note.verify P log.verifier = .ok ()) : note.text = message := by
  obtain ⟨hmade, sig', hfrom', hsig'⟩ := made_of_verify hnote hlog hverify
  obtain rfl := Except.ok.inj (hfrom.symm.trans hfrom')
  exact utf8_injective (hinj hmade hsigned (Subtype.ext (hsig'.symm.trans hsig)))

theorem message_of_cosignatureTime (hwitness : WitnessSigner.fromSeed P name seed = .ok witness)
    (hinj : Set.InjOn (P.sign seed) (signedMessages P logged cosigned))
    (hsigned : utf8 message ∈ signedMessages P logged cosigned)
    (hfrom : note.signatureFrom witness.verifier = .ok sig)
    (hsig : sig.signature.drop 8 = (P.sign seed (utf8 message)).1)
    (htime : note.cosignatureTime P witness.verifier = .ok stated) :
    cosignatureMessage stated note.text = .ok message := by
  obtain ⟨message', hmessage, hmade, sig', hfrom', hsig'⟩ :=
    made_of_cosignatureTime hnote hwitness htime
  obtain rfl := Except.ok.inj (hfrom.symm.trans hfrom')
  rwa [← utf8_injective (hinj hmade hsigned (Subtype.ext (hsig'.symm.trans hsig)))]

end Replay

/-- The two roles of a key do not mix. The messages of a witness are injective in the time
and the text and are no checkpoints; a log's signer key is also read as a witness's. For a
note whose signatures are not forged: an accepted log signature on a checkpoint was made on it
by the log, and an accepted cosignature by the witness for that time and text. Where no two
messages got one signature, that of a cosignature is on no checkpoint a log signature and for
no other time or text a cosignature, and that of a log is nowhere a cosignature. -/
theorem roles_separate (P : Primitives) :
    (∀ time time' text text' message, cosignatureMessage time text = .ok message →
        cosignatureMessage time' text' = .ok message → time = time' ∧ text = text') ∧
      (∀ time text message, cosignatureMessage time text = .ok message →
        ∀ checkpoint, Checkpoint.parse P message ≠ .ok checkpoint) ∧
      (∀ skey log, LogSigner.fromSkey P skey = .ok log →
        ∃ witness, fromSkey P skey = .ok witness ∧ witness.seed = log.seed) ∧
      ∀ name name' seed log witness, LogSigner.fromSeed P name seed = .ok log →
        fromSeed P name' seed = .ok witness → ∀ logged cosigned (note : SignedNote),
        note.Unforged P seed (signedMessages P logged cosigned) →
          (∀ checkpoint, note.verify P log.verifier = .ok () →
            note.checkpoint P = .ok checkpoint → ∃ signed ∈ logged, note.text = signed.body P) ∧
          (∀ time, note.cosignatureTime P witness.verifier = .ok time →
            (time, note.text) ∈ cosigned) ∧
          (Set.InjOn (P.sign seed) (signedMessages P logged cosigned) →
            (∀ time text line, (time, text) ∈ cosigned → witness.cosign P text time = .ok line →
              (∀ sig checkpoint, note.signatureFrom log.verifier = .ok sig →
                sig.signature = line.signature.drop 8 → note.checkpoint P = .ok checkpoint →
                  note.verify P log.verifier ≠ .ok ()) ∧
                ∀ sig stated, note.signatureFrom witness.verifier = .ok sig →
                  sig.signature.drop 8 = line.signature.drop 8 →
                  note.cosignatureTime P witness.verifier = .ok stated →
                    stated = time ∧ note.text = text) ∧
            ∀ checkpoint ∈ logged, ∀ line ∈ (log.sign P checkpoint).signatures,
              ∀ sig stated, note.signatureFrom witness.verifier = .ok sig →
                sig.signature.drop 8 = line.signature →
                  note.cosignatureTime P witness.verifier ≠ .ok stated) := by
  refine ⟨fun _ _ _ _ _ => cosignatureMessage_inj,
    fun _ _ _ h _ => parse_cosignatureMessage_ne_ok h, fun _ _ => exists_fromSkey, ?_⟩
  intro name name' seed log witness hlog hwitness logged cosigned note hnote
  refine ⟨fun checkpoint hverify hparse => ?_, fun time htime => ?_, fun hinj => ⟨?_, ?_⟩⟩
  · exact mem_signedMessages_body (made_of_verify hnote hlog hverify).1 hparse
  · obtain ⟨message, hmessage, hmade, -⟩ := made_of_cosignatureTime hnote hwitness htime
    exact mem_signedMessages_cosignatureMessage hmade hmessage
  · intro time text line hmem hline
    obtain ⟨message, hmessage, rfl⟩ := cosign_eq_ok_iff.1 hline
    have hdrop : (toBigEndian 8 time ++ (P.sign witness.seed (utf8 message)).1).drop 8 =
        (P.sign seed (utf8 message)).1 := by
      rw [(of_fromSeed hwitness).1]
      exact drop_left' (length_toBigEndian 8 time)
    have hsigned : utf8 message ∈ signedMessages P logged cosigned :=
      .inr ⟨_, hmem, message, hmessage, rfl⟩
    constructor
    · intro sig checkpoint hfrom hsig hparse hverify
      have htext := text_of_verify hnote hlog hinj hsigned hfrom (hsig.trans hdrop) hverify
      rw [SignedNote.checkpoint, htext] at hparse
      exact parse_cosignatureMessage_ne_ok hmessage hparse
    · intro sig stated hfrom hsig htime
      exact cosignatureMessage_inj (message_of_cosignatureTime hnote hwitness hinj hsigned hfrom
        (hsig.trans hdrop) htime) hmessage
  · intro checkpoint hmem line hline sig stated hfrom hsig htime
    obtain rfl := mem_singleton.1 hline
    rw [(LogSigner.of_fromSeed hlog).1] at hsig
    have hmessage := message_of_cosignatureTime hnote hwitness hinj
      (.inl ⟨checkpoint, hmem, rfl⟩) hfrom hsig htime
    exact body_ne_cosignatureMessage hmessage checkpoint rfl

/-! ### One key in both roles -/

def sharedLog : LogSigner := ⟨logVerifier, seedOf 0⟩

def sharedWitness : WitnessSigner :=
  ⟨⟨['w'], algCosignatureV1, 0x1afbd705, zerosKey⟩, seedOf 0⟩

def sharedMessages : Set Bytes :=
  signedMessages standard {checkpoint1} {(5, headText 1 leafA)}

/-- The head of one leaf with both lines made by the log's key. -/
def sharedNote : SignedNote :=
  ⟨headText 1 leafA,
    [logLine logSignature1, cosignatureLine sharedWitness.verifier 5 logCosignature]⟩

/-- The signature of the cosignature in the place of the log's. -/
def replayedNote : SignedNote := ⟨headText 1 leafA, [logLine logCosignature]⟩

theorem cosignatureMessage_shared :
    cosignatureMessage 5 (headText 1 leafA) = .ok (cosignedText 5 1 leafA) := by decide +kernel

theorem sign_shared :
    standard.sign (seedOf 0) (utf8 (headText 1 leafA)) = logSignature1 ∧
      standard.sign (seedOf 0) (utf8 (cosignedText 5 1 leafA)) = logCosignature := by
  decide +kernel

theorem mem_sharedMessages {message : Bytes} : message ∈ sharedMessages ↔
    message = utf8 (headText 1 leafA) ∨ message = utf8 (cosignedText 5 1 leafA) := by
  have hbody : checkpoint1.body standard = headText 1 leafA := by decide +kernel
  constructor
  · rintro (⟨checkpoint, rfl, rfl⟩ | ⟨c, rfl, message, hmessage, rfl⟩)
    · exact .inl (congrArg utf8 hbody)
    · rw [Except.ok.inj (hmessage.symm.trans cosignatureMessage_shared)]
      exact .inr rfl
  · rintro (rfl | rfl)
    · exact .inl ⟨checkpoint1, rfl, congrArg utf8 hbody.symm⟩
    · exact .inr ⟨_, rfl, _, cosignatureMessage_shared, rfl⟩

theorem injOn_sharedMessages : Set.InjOn (standard.sign (seedOf 0)) sharedMessages := by
  have hne : logSignature1 ≠ logCosignature := by decide +kernel
  intro a ha b hb h
  rcases mem_sharedMessages.1 ha with rfl | rfl <;> rcases mem_sharedMessages.1 hb with rfl | rfl
  · rfl
  · rw [sign_shared.1, sign_shared.2] at h
    exact absurd h hne
  · rw [sign_shared.1, sign_shared.2] at h
    exact absurd h.symm hne
  · rfl

theorem unforged_sharedNote :
    sharedNote.Unforged standard (seedOf 0) sharedMessages := by
  have hlong : toBytes64 (cosignatureLine sharedWitness.verifier 5 logCosignature).signature =
      none := by decide +kernel
  have hshort : toBytes64 ((logLine logSignature1).signature.drop 8) = none := by decide +kernel
  have htake : ofBigEndian ((cosignatureLine sharedWitness.verifier 5 logCosignature).signature.take
      8) = 5 := by decide +kernel
  have hdrop : toBytes64 ((cosignatureLine sharedWitness.verifier 5 logCosignature).signature.drop
      8) = some logCosignature := by decide +kernel
  intro message bytes hpresents _
  cases hpresents with
  | text hsig hbytes =>
    simp only [sharedNote, mem_cons, not_mem_nil, or_false] at hsig
    rcases hsig with rfl | rfl
    · obtain rfl := Option.some.inj ((toBytes64_val logSignature1).symm.trans hbytes)
      exact ⟨mem_sharedMessages.2 (.inl rfl), sign_shared.1.symm⟩
    · cases hlong.symm.trans hbytes
  | message hsig hbytes hmessage =>
    simp only [sharedNote, mem_cons, not_mem_nil, or_false] at hsig
    rcases hsig with rfl | rfl
    · cases hshort.symm.trans hbytes
    · obtain rfl := Option.some.inj (hdrop.symm.trans hbytes)
      rw [htake] at hmessage
      obtain rfl := Except.ok.inj (cosignatureMessage_shared.symm.trans hmessage)
      exact ⟨mem_sharedMessages.2 (.inr rfl), sign_shared.2.symm⟩

theorem unforged_replayedNote :
    replayedNote.Unforged standard (seedOf 0) sharedMessages := by
  have hshort : toBytes64 ((logLine logCosignature).signature.drop 8) = none := by decide +kernel
  have hrefused : standard.verifyStrict zerosKey (utf8 (headText 1 leafA))
      logCosignature = false := by decide +kernel
  intro message bytes hpresents hverify
  cases hpresents with
  | text hsig hbytes =>
    obtain rfl := mem_singleton.1 hsig
    obtain rfl := Option.some.inj ((toBytes64_val logCosignature).symm.trans hbytes)
    cases hrefused.symm.trans hverify
  | message hsig hbytes hmessage =>
    obtain rfl := mem_singleton.1 hsig
    cases hshort.symm.trans hbytes

theorem roles_separate_shared :
    sharedNote.verify standard sharedLog.verifier = .ok () ∧
      sharedNote.cosignatureTime standard sharedWitness.verifier = .ok 5 ∧
      (∃ signed ∈ ({checkpoint1} : Set Checkpoint),
        sharedNote.text = signed.body standard) ∧
      (5, sharedNote.text) ∈ ({(5, headText 1 leafA)} : Set (Nat × List Char)) ∧
      replayedNote.verify standard sharedLog.verifier ≠ .ok () := by
  obtain ⟨-, -, -, hroles⟩ := roles_separate standard
  have hlog : LogSigner.fromSeed standard ['l'] (seedOf 0) = .ok sharedLog := by
    decide +kernel
  have hwitness : fromSeed standard ['w'] (seedOf 0) = .ok sharedWitness := by decide +kernel
  have hverify : sharedNote.verify standard sharedLog.verifier = .ok () := by
    decide +kernel
  have htime : sharedNote.cosignatureTime standard sharedWitness.verifier = .ok 5 := by
    decide +kernel
  have hparse : ∀ note ∈ [sharedNote, replayedNote],
      note.checkpoint standard = .ok checkpoint1 := by decide +kernel
  have hline : sharedWitness.cosign standard (headText 1 leafA) 5 =
      .ok (cosignatureLine sharedWitness.verifier 5 logCosignature) := by decide +kernel
  have hfrom : replayedNote.signatureFrom sharedLog.verifier = .ok (logLine logCosignature) := by
    decide +kernel
  obtain ⟨hlogged, hcosigned, -⟩ := hroles _ _ _ _ _ hlog hwitness {checkpoint1}
    {(5, headText 1 leafA)} sharedNote unforged_sharedNote
  obtain ⟨-, -, hreplay⟩ := hroles _ _ _ _ _ hlog hwitness {checkpoint1}
    {(5, headText 1 leafA)} replayedNote unforged_replayedNote
  refine ⟨hverify, htime, hlogged _ hverify (hparse _ mem_cons_self), hcosigned _ htime, ?_⟩
  exact ((hreplay injOn_sharedMessages).1 _ _ _ rfl hline).1 _ _ hfrom (by decide +kernel)
    (hparse _ (by simp))

end Roles

end Calybris.Note
