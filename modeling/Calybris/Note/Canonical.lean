import Calybris.Note.SignedNote
import Calybris.Text.Base64
import Calybris.Text.Block
import Calybris.Text.Sha256

/-!
# Checkpoints and notes are canonical text

`Checkpoint.parse` and `SignedNote.parse` accept a text only in the form that `body` and
`render` write, and read back what these write. A checkpoint is a block of non-empty
lines; a note is a text, a blank line and a block of signature lines, and since neither a
checkpoint nor the signature lines hold a blank line, the last one is where the text
ends. All that is used of base64 is in `Primitives.StrictBase64`.
-/

namespace Calybris.Note

open Text Merkle List NoteSignature

/-- Standard base64, decoded strictly: decoding inverts encoding and accepts nothing
else. The characters are those of the alphabet, which lies between `+` and `z`. -/
structure Primitives.StrictBase64 (P : Primitives) : Prop where
  decode_encode : ∀ bytes, P.base64Decode (P.base64Encode bytes) = some bytes
  encode_decode : ∀ {text bytes}, P.base64Decode text = some bytes → P.base64Encode bytes = text
  alphabet : ∀ {bytes c}, c ∈ P.base64Encode bytes → 43 ≤ c.toNat ∧ c.toNat ≤ 122
  length_encode : ∀ bytes, (P.base64Encode bytes).length = 4 * ((bytes.length + 2) / 3)

theorem exists_of_map_eq_ok {ε α β : Type} {f : α → β} {x : Except ε α} {b : β}
    (h : x.map f = .ok b) : ∃ a, x = .ok a ∧ f a = b := by
  cases x with
  | error e => cases h
  | ok a => exact ⟨a, rfl, Except.ok.inj h⟩

section Characters

theorem newline_notMem_of_isValidLine {line : List Char} (h : isValidLine line = true) :
    '\n' ∉ line := by
  intro hmem
  simp only [isValidLine, Bool.and_eq_true, bne_iff_ne, Bool.not_eq_true', any_eq_false] at h
  exact h.2 _ hmem rfl

theorem ne_nil_of_isValidLine {line : List Char} (h : isValidLine line = true) : line ≠ [] := by
  simp only [isValidLine, Bool.and_eq_true, bne_iff_ne] at h
  exact h.1

theorem not_isControl_of_isValidLine {line : List Char} {c : Char} (h : isValidLine line = true)
    (hc : c ∈ line) : isControl c = false := by
  simp only [isValidLine, Bool.and_eq_true, bne_iff_ne, Bool.not_eq_true', any_eq_false] at h
  exact Bool.eq_false_iff.2 (h.2 c hc)

theorem isControl_eq_false {c : Char} (hlow : 0x20 ≤ c.toNat) (hhigh : c.toNat < 0x7f) :
    isControl c = false := by
  simp only [isControl, Bool.or_eq_false_iff, Bool.and_eq_false_iff, decide_eq_false_iff_not]
  omega

theorem isValidLine_of {line : List Char} (hne : line ≠ [])
    (h : ∀ c ∈ line, 0x20 ≤ c.toNat ∧ c.toNat < 0x7f) : isValidLine line = true := by
  simp only [isValidLine, Bool.and_eq_true, bne_iff_ne, Bool.not_eq_true', any_eq_false]
  exact ⟨hne, fun c hc => by simp [isControl_eq_false (h c hc).1 (h c hc).2]⟩

theorem isValidLine_decimal (n : Nat) : isValidLine (decimal n) = true := by
  apply isValidLine_of Nat.toDigits_ne_nil
  intro c hc
  have := toNat_of_mem_decimal hc
  omega

theorem Primitives.StrictBase64.isValidLine_encode {P : Primitives} (hP : P.StrictBase64)
    {bytes : Bytes} (hne : bytes ≠ []) : isValidLine (P.base64Encode bytes) = true := by
  apply isValidLine_of
  · intro hnil
    have hlen := hP.length_encode bytes
    have hpos := length_pos_iff.2 hne
    rw [hnil, length_nil] at hlen
    omega
  · intro c hc
    have := hP.alphabet hc
    omega

end Characters

/-! ### A log of two leaves, and its witnesses -/

section Sample

theorem length_seedOf (b : UInt8) : (List.replicate 32 b).length = 32 := length_replicate

def seedOf (b : UInt8) : Bytes32 := ⟨List.replicate 32 b, length_seedOf b⟩

def zerosKey : Bytes32 :=
  digestOf 0x3b6a27bcceb6a42d62a3a8d02a6f0d73653215771de243a63ac048a18b59da29

def onesKey : Bytes32 := digestOf 0x8a88e3dd7409f195fd52db2d3cba5d72ca6709bf1d94121bf3748801b40f6f5c

def twosKey : Bytes32 := digestOf 0x8139770ea87d175f56a35466c34c7ecccb8d8a91b4ee37a25df60f5b8fc9b394

def threesKey : Bytes32 :=
  digestOf 0xed4928c628d1c2c6eae90338905995612959273a5c63f93636c14614ac8737d1

/-- Ed25519 at four seeds: the log has the first, the witnesses the others. -/
def keyOf (seed : Bytes32) : Bytes32 :=
  if seed = seedOf 0 then zerosKey
  else if seed = seedOf 1 then onesKey
  else if seed = seedOf 2 then twosKey
  else if seed = seedOf 3 then threesKey
  else seed

def headText (size : Nat) (root : Bytes32) : List Char :=
  'o' :: '\n' :: (decimal size ++ '\n' :: (Base64.encode root.1 ++ ['\n']))

def cosignedText (time size : Nat) (root : Bytes32) : List Char :=
  cosignatureHeader ++ decimal time ++ '\n' :: headText size root

theorem length_signatureOf (r s : Nat) : (toBigEndian 32 r ++ toBigEndian 32 s).length = 64 := by
  rw [length_append, length_toBigEndian, length_toBigEndian]

def signatureOf (r s : Nat) : Bytes64 :=
  ⟨toBigEndian 32 r ++ toBigEndian 32 s, length_signatureOf r s⟩

/-- The log on its two heads, and on an empty tree with a root of its own. -/
def logSignature1 : Bytes64 :=
  signatureOf 0xfa7ae7dee2d54188075586fa575e689833d56fe4267364644bc6c1f862c5942e
    0x0d1783d4ebf32caf253e134c697d9c847f8ed9fa617a9f56cca7727830499e0d

def logSignature2 : Bytes64 :=
  signatureOf 0x6d6225f15439cf5dcae411af43d5cf00b5aca8cbf3b15dd090facec30b5f5c62
    0xe3bdc9756eee7a9878fcbde83f6af8861aa01cd8b4bee4e888b91e2b77b2c90d

def logSignature0 : Bytes64 :=
  signatureOf 0x639074dd417385e0ea64c923140013491dc2e8a1ec22730322f3e7112c603ed5
    0xf91d5c0010ebecaaa6b2b978c60469e755e5e966b9c0e1c461d45438ffb97402

/-- The log's key as a witness. -/
def logCosignature : Bytes64 :=
  signatureOf 0x312e400b0fa3a30e54e2094dcc083e94afc3033fb41e7abcf894eaeddca43f38
    0x5213d3b0c466157056c835b9cf2d42e0e6c8eacc3e0d5dd4cda2bd6ac114f503

def onesSignature1 : Bytes64 :=
  signatureOf 0xa33aa554eced16d61ae4aa1a65b783c7ca2c8cac838f0ad2abe0cf057420d0db
    0x6dafab7e2c61a93afa65eb42eb97329a345061c7aaa99c9ab588ed3c48165301

def onesSignature2 : Bytes64 :=
  signatureOf 0xefcedf9778a6aebfee7d6f622739fd7461396d87841df714c6b6973f43239329
    0x0be363dc8c9f32d3a2e41587d51d0e131f36a410179c749bb78fcda120dc9509

def twosSignature1 : Bytes64 :=
  signatureOf 0x48bb2bac41e8134b8ff920592298944807151fdbe47a56fc7bc66e5fa3709e1f
    0x6c314047408c5cf4c5c6b725cba511b78e58fdd4ae9fd202794f8651d533fa07

def twosSignature2 : Bytes64 :=
  signatureOf 0xd8edce5f719200bd3c1a18ba6b3bfde50525a58f467b861cd2bdf9e778865211
    0x0d9e3ffc14187af75e121f10479c9a466d87b70e2778d7eee8f8c2cb7f65fd09

def threesSignature1 : Bytes64 :=
  signatureOf 0xda6c52784105404fe06321fbd1e59fffb632620dff2f14fbfb5f24cdb0684534
    0xcbf9a82186a124a2a3b67dd25889959db516b6cf328cb7b6ca66b512b981170a

def signedTexts : List (Bytes32 × List Char × Bytes64) :=
  [(seedOf 0, headText 1 leafA, logSignature1), (seedOf 0, headText 2 rootAB, logSignature2),
    (seedOf 0, headText 0 leafB, logSignature0), (seedOf 0, cosignedText 5 1 leafA, logCosignature),
    (seedOf 1, cosignedText 5 1 leafA, onesSignature1),
    (seedOf 1, cosignedText 6 2 rootAB, onesSignature2),
    (seedOf 2, cosignedText 9 1 leafA, twosSignature1),
    (seedOf 2, cosignedText 9 2 rootAB, twosSignature2),
    (seedOf 3, cosignedText 1 1 leafA, threesSignature1)]

theorem length_otherSignature (key : Bytes32) (message : Bytes) :
    (key.1 ++ (Sha256.hash message).1).length = 64 := by
  rw [length_append, key.2, (Sha256.hash message).2]

/-- A stand-in for the signatures on all other messages. -/
def otherSignature (key : Bytes32) (message : Bytes) : Bytes64 :=
  ⟨key.1 ++ (Sha256.hash message).1, length_otherSignature key message⟩

/-- Base64 and SHA-256, and Ed25519 at the four seeds and the messages they have signed. -/
def standard : Primitives where
  base64Encode := Base64.encode
  base64Decode := Base64.decode
  sha256 := Sha256.hash
  verifyingKey := keyOf
  sign seed message :=
    ((signedTexts.find? fun x => x.1 = seed ∧ utf8 x.2.1 = message).map fun x => x.2.2).getD
      (otherSignature (keyOf seed) message)
  verifyStrict key message sig :=
    (signedTexts.any fun x => keyOf x.1 = key ∧ utf8 x.2.1 = message ∧ x.2.2 = sig) ||
      decide (sig = otherSignature key message)

theorem strictBase64_standard : standard.StrictBase64 where
  decode_encode := Base64.decode_encode
  encode_decode := Base64.encode_decode
  alphabet := Base64.toNat_of_mem_encode
  length_encode := Base64.length_encode

def logVerifier : NoteVerifier := ⟨['l'], algEd25519, 0xc1013280, zerosKey⟩

def onesVerifier : NoteVerifier := ⟨['w'], algCosignatureV1, 0x10043a1a, onesKey⟩

def twosVerifier : NoteVerifier := ⟨['v'], algCosignatureV1, 0x9319b719, twosKey⟩

def threesVerifier : NoteVerifier := ⟨['u'], algCosignatureV1, 0x0a2025dc, threesKey⟩

def logLine (signature : Bytes64) : NoteSignature := ⟨['l'], logVerifier.keyHash, signature.1⟩

def cosignatureLine (verifier : NoteVerifier) (time : Nat) (signature : Bytes64) : NoteSignature :=
  ⟨verifier.name, verifier.keyHash, toBigEndian 8 time ++ signature.1⟩

/-- The two heads, signed by the log and cosigned by its first witness. -/
def note1 : SignedNote :=
  ⟨headText 1 leafA, [logLine logSignature1, cosignatureLine onesVerifier 5 onesSignature1]⟩

def note2 : SignedNote :=
  ⟨headText 2 rootAB, [logLine logSignature2, cosignatureLine onesVerifier 6 onesSignature2]⟩

end Sample

namespace Checkpoint

variable (P : Primitives)

inductive Built : Checkpoint → Prop
  | new {origin head hsize checkpoint} (h : new origin head hsize = .ok checkpoint) :
      Built checkpoint
  | withExtension {checkpoint line extended} (hbuilt : Built checkpoint)
      (h : withExtension checkpoint line = .ok extended) : Built extended

def lines (checkpoint : Checkpoint) : List (List Char) :=
  checkpoint.origin :: decimal checkpoint.size :: P.base64Encode checkpoint.root.1 ::
    checkpoint.extensions

variable {P} {checkpoint : Checkpoint} {origin size root text : List Char}
  {extensions : List (List Char)}

theorem built (checkpoint : Checkpoint) : Built checkpoint := by
  obtain ⟨origin, size, root, extensions, horigin, hsize, hextensions⟩ := checkpoint
  induction extensions using List.reverseRecOn with
  | nil =>
    have hnew : Checkpoint.new origin ⟨size, root⟩ hsize =
        .ok ⟨origin, size, root, [], horigin, hsize, hextensions⟩ := dif_pos horigin
    exact .new hnew
  | append_singleton extensions line ih =>
    have hfront : ∀ l ∈ extensions, isValidLine l = true := fun l hl =>
      hextensions l (mem_append_left _ hl)
    exact .withExtension (ih hfront) (dif_pos (hextensions line (by simp)))

theorem body_eq_unlines (checkpoint : Checkpoint) :
    checkpoint.body P = unlines (checkpoint.lines P) := by
  simp [body, lines, unlines]

theorem isValidLine_of_mem_lines (hP : P.StrictBase64) {line : List Char}
    (h : line ∈ checkpoint.lines P) : isValidLine line = true := by
  simp only [lines, mem_cons] at h
  obtain rfl | rfl | rfl | h := h
  · exact checkpoint.origin_valid
  · exact isValidLine_decimal _
  · apply hP.isValidLine_encode
    intro hnil
    have hlen := checkpoint.root.2
    rw [hnil] at hlen
    cases hlen
  · exact checkpoint.extensions_valid line h

theorem parseLines_lines (hP : P.StrictBase64) (checkpoint : Checkpoint) :
    parseLines P checkpoint.origin (decimal checkpoint.size)
      (P.base64Encode checkpoint.root.1) checkpoint.extensions = .ok checkpoint := by
  have hsize : ofDecimal (decimal checkpoint.size) < 2 ^ 64 := by
    rw [ofDecimal_decimal]
    exact checkpoint.size_lt
  have hroot : toBytes32 checkpoint.root.1 = some checkpoint.root := dif_pos checkpoint.root.2
  rw [parseLines, dif_pos checkpoint.origin_valid, if_pos (isCanonicalDecimal_decimal _),
    dif_pos hsize, hP.decode_encode]
  simp only [hroot, ne_eq, not_true_eq_false, if_false]
  rw [dif_pos checkpoint.extensions_valid]
  simp only [ofDecimal_decimal]

theorem lines_of_parseLines (h : parseLines P origin size root extensions = .ok checkpoint) :
    checkpoint.lines P = origin :: size :: root :: extensions := by
  unfold parseLines at h
  by_cases horigin : isValidLine origin = true
  · rw [dif_pos horigin] at h
    by_cases hdecimal : isCanonicalDecimal size = true
    · rw [if_pos hdecimal] at h
      by_cases hsize : ofDecimal size < 2 ^ 64
      · rw [dif_pos hsize] at h
        split at h
        · cases h
        · split at h
          · cases h
          · split_ifs at h with hroot hextensions
            cases h
            rw [lines, decimal_ofDecimal hdecimal, not_not.1 hroot]
      · rw [dif_neg hsize] at h
        cases h
    · rw [if_neg hdecimal] at h
      cases h
  · rw [dif_neg horigin] at h
    cases h

theorem parse_body (hP : P.StrictBase64) (checkpoint : Checkpoint) :
    parse P (checkpoint.body P) = .ok checkpoint := by
  have hlines : ∀ line ∈ checkpoint.lines P, '\n' ∉ line := fun line hline =>
    newline_notMem_of_isValidLine (isValidLine_of_mem_lines hP hline)
  have hne : checkpoint.lines P ≠ [] := cons_ne_nil _ _
  obtain ⟨text, hstrip, hsplit⟩ := splitOn_unlines hne hlines
  rw [parse, body_eq_unlines, hstrip]
  simp only [hsplit, lines]
  exact parseLines_lines hP checkpoint

theorem body_of_parse (h : parse P text = .ok checkpoint) : checkpoint.body P = text := by
  unfold parse at h
  split at h
  · cases h
  · next stripped hstrip =>
    split at h
    · cases h
    · cases h
    · cases h
    · next hsplit =>
      rw [body_eq_unlines, lines_of_parseLines h, ← hsplit, unlines_splitOn hstrip]

/-- The text of a checkpoint is canonical: a checkpoint has one text, and a text is of one
checkpoint. -/
theorem text_canonical (hP : P.StrictBase64) :
    (∀ checkpoint, Built checkpoint → parse P (checkpoint.body P) = .ok checkpoint) ∧
    (∀ text checkpoint, parse P text = .ok checkpoint → checkpoint.body P = text) ∧
    (∀ text text' checkpoint, parse P text = .ok checkpoint → parse P text' = .ok checkpoint →
      text = text') ∧
    ∀ checkpoint checkpoint' : Checkpoint, checkpoint.body P = checkpoint'.body P →
      checkpoint = checkpoint' := by
  refine ⟨fun checkpoint _ => parse_body hP checkpoint, fun _ _ => body_of_parse, ?_, ?_⟩
  · intro text text' checkpoint h h'
    exact (body_of_parse h).symm.trans (body_of_parse h')
  · intro checkpoint checkpoint' h
    have hok := parse_body hP checkpoint
    rw [h, parse_body hP checkpoint'] at hok
    exact (Except.ok.inj hok).symm

theorem isValidLine_o : isValidLine ['o'] = true := rfl

theorem zero_lt_size : 0 < 2 ^ 64 := by decide

theorem forall_mem_nil_isValidLine : ∀ line ∈ ([] : List (List Char)), isValidLine line = true :=
  nofun

theorem one_lt_size : 1 < 2 ^ 64 := by decide

theorem two_lt_size : 2 < 2 ^ 64 := by decide

theorem isValidLine_ext : ∀ line ∈ ["ext 1".toList], isValidLine line = true := by decide

/-- The head of two leaves with an extension line. -/
def extended : Checkpoint :=
  ⟨['o'], 2, rootAB, ["ext 1".toList], isValidLine_o, two_lt_size, isValidLine_ext⟩

theorem text_canonical_extended :
    extended.body standard =
        "o\n2\nsTeYX/SE+2ANuTEHx3sDZcgNePW0Kd7Q/Zc2HQd5mes=\next 1\n".toList ∧
      parse standard (extended.body standard) = .ok extended :=
  ⟨by decide +kernel, (text_canonical strictBase64_standard).1 extended (built extended)⟩

end Checkpoint

def checkpoint1 : Checkpoint :=
  ⟨['o'], 1, leafA, [], Checkpoint.isValidLine_o, Checkpoint.one_lt_size,
    Checkpoint.forall_mem_nil_isValidLine⟩

def checkpoint2 : Checkpoint :=
  ⟨['o'], 2, rootAB, [], Checkpoint.isValidLine_o, Checkpoint.two_lt_size,
    Checkpoint.forall_mem_nil_isValidLine⟩

namespace NoteSignature

variable (P : Primitives)

def lineText (sig : NoteSignature) : List Char :=
  signaturePrefixText ++ sig.name ++ ' ' ::
    P.base64Encode (toBigEndian 4 sig.keyHash ++ sig.signature)

/-- What a signature line can carry: a key name, a `u32`, at least one byte. -/
structure Writable (sig : NoteSignature) : Prop where
  name_valid : isValidName sig.name = true
  keyHash_lt : sig.keyHash < 256 ^ 4
  signature_ne_nil : sig.signature ≠ []

variable {P} {sig : NoteSignature} {line : List Char}

theorem line_eq (sig : NoteSignature) : sig.line P = sig.lineText P ++ ['\n'] := by
  simp [line, lineText]

theorem notMem_of_isValidName {name : List Char} {c : Char} (h : isValidName name = true)
    (hc : c ∈ name) : c ≠ ' ' ∧ isControl c = false := by
  simp only [isValidName, Bool.and_eq_true, bne_iff_ne, Bool.not_eq_true',
    any_eq_false, Bool.or_eq_true, not_or, Bool.not_eq_true] at h
  obtain ⟨⟨-, hspace⟩, hcontrol⟩ := h.2 c hc
  refine ⟨?_, hcontrol⟩
  rintro rfl
  exact absurd hspace (by decide)

section

variable (hP : P.StrictBase64)

include hP

theorem isValidLine_lineText (h : sig.Writable) : isValidLine (sig.lineText P) = true := by
  simp only [isValidLine, Bool.and_eq_true, bne_iff_ne, Bool.not_eq_true', any_eq_false,
    Bool.not_eq_true]
  refine ⟨by simp [lineText, signaturePrefixText], ?_⟩
  intro c hc
  simp only [lineText, mem_append, mem_cons] at hc
  obtain (hpre | hname) | rfl | hencoded := hc
  · exact eq_false_of_any (p := isControl) (by decide) c hpre
  · exact (notMem_of_isValidName h.name_valid hname).2
  · rfl
  · have := hP.alphabet hencoded
    exact isControl_eq_false (by omega) (by omega)

theorem parseLine_lineText (h : sig.Writable) : parseLine P (sig.lineText P) = .ok sig := by
  have hspace : ' ' ∉ sig.name := fun hmem => (notMem_of_isValidName h.name_valid hmem).1 rfl
  have hlen := length_toBigEndian 4 sig.keyHash
  have hsplit : splitOnce ' ' ((sig.lineText P).drop signaturePrefixText.length) =
      some (sig.name, P.base64Encode (toBigEndian 4 sig.keyHash ++ sig.signature)) := by
    rw [lineText, append_assoc, drop_left, splitOnce_append hspace]
  have hpre : signaturePrefixText.isPrefixOf (sig.lineText P) = true := by
    rw [ isPrefixOf_iff_prefix, lineText, append_assoc]
    exact prefix_append _ _
  have hfive : ¬(toBigEndian 4 sig.keyHash ++ sig.signature).length < 5 := by
    have := length_pos_iff.2 h.signature_ne_nil
    rw [length_append]
    omega
  rw [parseLine, if_pos hpre, hsplit]
  simp only [h.name_valid, if_true, hP.decode_encode, if_neg hfive]
  rw [take_left' hlen, drop_left' hlen, ofBigEndian_toBigEndian h.keyHash_lt]

theorem of_parseLine (h : parseLine P line = .ok sig) : sig.Writable ∧ sig.lineText P = line := by
  unfold parseLine at h
  split at h
  · next hpre =>
    obtain ⟨rest, rfl⟩ := isPrefixOf_iff_prefix.1 hpre
    rw [drop_left] at h
    split at h
    · cases h
    · next name encoded hsplit =>
      obtain rfl := eq_of_splitOnce hsplit
      split at h
      · next hname =>
        split at h
        · cases h
        · next raw hraw =>
          split_ifs at h with hfive
          cases h
          have hlen : (raw.take 4).length = 4 := by
            rw [length_take]
            omega
          have hback := toBigEndian_ofBigEndian (raw.take 4)
          have hlt := ofBigEndian_lt (raw.take 4)
          rw [hlen] at hback hlt
          refine ⟨⟨hname, hlt, ?_⟩, ?_⟩
          · rw [← length_pos_iff, length_drop]
            omega
          · rw [lineText, hback, take_append_drop, hP.encode_decode hraw, append_assoc]
      · cases h
  · cases h

end

end NoteSignature

namespace SignedNote

variable (P : Primitives)

/-- A log's signature on a checkpoint, then signature lines added one at a time, each made
by a witness key or read from a line. -/
inductive Built : SignedNote → Prop
  | sign {name seed signer} (checkpoint : Checkpoint)
      (hsigner : LogSigner.fromSeed P name seed = .ok signer) : Built (signer.sign P checkpoint)
  | cosigned {note name seed signer text timestamp sig note'} (hnote : Built note)
      (hsigner : WitnessSigner.fromSeed P name seed = .ok signer)
      (hsig : signer.cosign P text timestamp = .ok sig)
      (hadd : note.addSignature sig = .ok note') : Built note'
  | parsed {note line sig note'} (hnote : Built note)
      (hsig : parseLine P line = .ok sig)
      (hadd : note.addSignature sig = .ok note') : Built note'

structure Lines (signatures : List NoteSignature) : Prop where
  writable : ∀ sig ∈ signatures, sig.Writable
  unique : signatures.Pairwise fun s t => ¬(s.name = t.name ∧ s.keyHash = t.keyHash)
  length_le : signatures.length ≤ maxSignatures

/-- What a rendered note can carry and still be read: a text of lines that does not end in
a blank one, and signature lines. -/
structure Readable (note : SignedNote) : Prop where
  text_ends : ∃ front, note.text = front ++ ['\n']
  text_not_blank : ¬['\n', '\n'] <:+ note.text
  text_controls : ∀ c ∈ note.text, isControl c = true → c = '\n'
  signatures_ne_nil : note.signatures ≠ []
  lines : Lines note.signatures

variable {P} {note note' : SignedNote} {sig : NoteSignature} {signatures front : List NoteSignature}
  {lines : List (List Char)} {text : List Char}

theorem any_sameKey_eq_false :
    (signatures.any fun s => s.name == sig.name && s.keyHash == sig.keyHash) = false ↔
      ∀ s ∈ signatures, ¬(s.name = sig.name ∧ s.keyHash = sig.keyHash) := by
  simp

theorem render_eq (note : SignedNote) :
    note.render P = note.text ++ '\n' ::
      unlines (note.signatures.map (lineText P)) := by
  have hline : line P = fun sig => sig.lineText P ++ ['\n'] := funext line_eq
  rw [render, unlines, flatMap_map, hline]

theorem render_append (text : List Char) (front more : List NoteSignature) :
    render P ⟨text, front ++ more⟩ =
      render P ⟨text, front⟩ ++ more.flatMap (line P) := by
  simp [render]

section

variable (hP : P.StrictBase64)

include hP

theorem parseLines_lineText (h : Lines (front ++ signatures)) :
    parseLines P (signatures.map (lineText P)) front =
      .ok (front ++ signatures) := by
  induction signatures generalizing front with
  | nil => simp [parseLines]
  | cons sig signatures ih =>
    have hlen := h.length_le
    have hfront : ∀ s ∈ front, ¬(s.name = sig.name ∧ s.keyHash = sig.keyHash) := fun s hs =>
      (pairwise_append.1 h.unique).2.2 s hs sig mem_cons_self
    rw [length_append, length_cons] at hlen
    rw [map_cons, parseLines, if_neg (by omega), parseLine_lineText hP (h.writable sig (by simp))]
    simp only [any_sameKey_eq_false.2 hfront, Bool.false_eq_true, if_false]
    rw [ih (by rwa [append_assoc, singleton_append]), append_assoc, singleton_append]

theorem of_parseLines (h : parseLines P lines front = .ok signatures) :
    signatures.map (lineText P) =
      front.map (lineText P) ++ lines := by
  induction lines generalizing front with
  | nil =>
    cases h
    rw [append_nil]
  | cons line lines ih =>
    rw [parseLines] at h
    split_ifs at h
    split at h
    · cases h
    · next sig hsig =>
      split_ifs at h
      rw [ih h, map_append, append_assoc, map_singleton, (of_parseLine hP hsig).2, singleton_append]

theorem render_of_parse (h : parse P text = .ok note) : note.render P = text := by
  unfold parse at h
  split_ifs at h
  split at h
  · cases h
  · next body rest hsplit =>
    obtain ⟨front, -, rfl⟩ := eq_of_splitLastBlank hsplit
    split_ifs at h
    split at h
    · cases h
    · next block hblock =>
      split_ifs at h
      cases hlines : parseLines P (block.splitOn '\n') [] with
      | error error =>
        rw [hlines] at h
        cases h
      | ok signatures =>
        rw [hlines] at h
        cases h
        have hmap := of_parseLines hP hlines
        rw [render_eq]
        simp only [hmap, map_nil, nil_append]
        rw [unlines_splitOn hblock]

end

theorem of_addSignature (h : note.addSignature sig = .ok note') :
    note' = { note with signatures := note.signatures ++ [sig] } ∧
      (∀ s ∈ note.signatures, ¬(s.name = sig.name ∧ s.keyHash = sig.keyHash)) ∧
      note.signatures.length ≠ maxSignatures := by
  unfold addSignature at h
  split_ifs at h with hsame hfull
  exact ⟨(Except.ok.inj h).symm, any_sameKey_eq_false.1 (Bool.eq_false_iff.2 hsame), hfull⟩

theorem Lines.addSignature (hlines : Lines note.signatures) (hsig : sig.Writable)
    (h : note.addSignature sig = .ok note') : Lines note'.signatures := by
  obtain ⟨rfl, hunique, hfull⟩ := of_addSignature h
  have hlen := hlines.length_le
  refine ⟨?_, ?_, ?_⟩
  · intro s hs
    rcases mem_append.1 hs with hold | hnew
    · exact hlines.writable s hold
    · rwa [mem_singleton.1 hnew]
  · refine pairwise_append.2 ⟨hlines.unique, pairwise_singleton _ _, ?_⟩
    intro s hs t ht
    rw [mem_singleton.1 ht]
    exact hunique s hs
  · rw [length_append, length_singleton]
    omega

theorem of_noteVerifierNew {name : List Char} {algorithm : UInt8} {key : Bytes32}
    {verifier : NoteVerifier} (h : NoteVerifier.new P name algorithm key = .ok verifier) :
    isValidName verifier.name = true ∧ verifier.keyHash < 256 ^ 4 := by
  unfold NoteVerifier.new at h
  split_ifs at h with hname
  cases h
  refine ⟨hname, ?_⟩
  have hlt := ofBigEndian_lt ((P.sha256 (utf8 name ++ utf8 ['\n'] ++ algorithm :: key.1)).1.take 4)
  refine hlt.trans_le (Nat.pow_le_pow_right (by omega) ?_)
  rw [length_take]
  omega

theorem writable_cosign {name : List Char} {seed : Bytes32} {signer : WitnessSigner}
    {timestamp : Nat} (hsigner : WitnessSigner.fromSeed P name seed = .ok signer)
    (hsig : signer.cosign P text timestamp = .ok sig) : sig.Writable := by
  obtain ⟨verifier, hverifier, rfl⟩ := exists_of_map_eq_ok hsigner
  obtain ⟨hname, hhash⟩ := of_noteVerifierNew hverifier
  unfold WitnessSigner.cosign at hsig
  split at hsig
  · cases hsig
  · next message hmessage =>
    cases hsig
    exact ⟨hname, hhash, by simp [toBigEndian]⟩

theorem lines_singleton (h : sig.Writable) : Lines [sig] := by
  refine ⟨?_, pairwise_singleton _ _, (by decide : 1 ≤ maxSignatures)⟩
  intro s hs
  rwa [mem_singleton.1 hs]

theorem lines_of_parseLines (hP : P.StrictBase64) (hfront : Lines front)
    (h : parseLines P lines front = .ok signatures) : Lines signatures := by
  induction lines generalizing front with
  | nil =>
    cases h
    exact hfront
  | cons line lines ih =>
    rw [parseLines] at h
    split_ifs at h with hfull
    split at h
    · cases h
    · next sig hsig =>
      split_ifs at h with hsame
      have hadd : addSignature ⟨[], front⟩ sig = .ok ⟨[], front ++ [sig]⟩ := by
        rw [addSignature, if_neg hsame, if_neg hfull]
      exact ih (hfront.addSignature (of_parseLine hP hsig).1 hadd) h

theorem Readable.addSignature (hnote : Readable note) (hsig : sig.Writable)
    (h : note.addSignature sig = .ok note') : Readable note' := by
  have hlines := hnote.lines.addSignature hsig h
  obtain ⟨rfl, -, -⟩ := of_addSignature h
  exact ⟨hnote.text_ends, hnote.text_not_blank, hnote.text_controls, by simp, hlines⟩

theorem eq_newline_of_mem_unlines {ls : List (List Char)} (h : ∀ line ∈ ls, isValidLine line = true)
    {c : Char} (hc : c ∈ unlines ls) (hcontrol : isControl c = true) : c = '\n' := by
  obtain ⟨line, hline, hmem⟩ := mem_flatMap.1 hc
  rcases mem_append.1 hmem with hin | hnl
  · rw [not_isControl_of_isValidLine (h line hline) hin] at hcontrol
    cases hcontrol
  · exact mem_singleton.1 hnl

section

variable (hP : P.StrictBase64)

include hP

theorem readable_body (checkpoint : Checkpoint) (hne : signatures ≠ [])
    (hlines : Lines signatures) :
    Readable ⟨checkpoint.body P, signatures⟩ := by
  have hvalid : ∀ line ∈ checkpoint.lines P, isValidLine line = true :=
    fun line hline => Checkpoint.isValidLine_of_mem_lines hP hline
  have hbody := Checkpoint.body_eq_unlines (P := P) checkpoint
  refine ⟨⟨['\n'].intercalate (checkpoint.lines P), ?_⟩, ?_, ?_, hne, hlines⟩
  · exact hbody.trans (unlines_eq_intercalate (cons_ne_nil _ _))
  · rw [hbody]
    refine not_isSuffixOf_unlines fun line hline => ?_
    exact ⟨ne_nil_of_isValidLine (hvalid line hline),
      newline_notMem_of_isValidLine (hvalid line hline)⟩
  · intro c hc
    exact eq_newline_of_mem_unlines hvalid (hbody ▸ hc)

theorem Built.readable (h : Built P note) : Readable note := by
  induction h with
  | @sign name seed signer checkpoint hsigner =>
    obtain ⟨verifier, hverifier, rfl⟩ := exists_of_map_eq_ok hsigner
    obtain ⟨hname, hhash⟩ := of_noteVerifierNew hverifier
    refine readable_body hP checkpoint (cons_ne_nil _ _) (lines_singleton ⟨hname, hhash, ?_⟩)
    refine ne_nil_of_length_pos ?_
    exact (P.sign seed (utf8 (checkpoint.body P))).2.symm ▸ Nat.zero_lt_succ 63
  | cosigned hnote hsigner hsig hadd ih => exact ih.addSignature (writable_cosign hsigner hsig) hadd
  | parsed hnote hsig hadd ih => exact ih.addSignature (of_parseLine hP hsig).1 hadd

theorem readable_of_parse (h : parse P text = .ok note) : Readable note := by
  unfold parse at h
  split_ifs at h with hsize hcontrol
  split at h
  · cases h
  next body rest hsplit =>
  obtain ⟨front, hfront, rfl⟩ := eq_of_splitLastBlank hsplit
  split_ifs at h with hblank
  split at h
  · cases h
  next block hblock =>
  split_ifs at h with hnil
  obtain ⟨signatures, hlines, rfl⟩ := exists_of_map_eq_ok h
  have hmap := of_parseLines hP hlines
  refine ⟨⟨front, hfront⟩, mt isSuffixOf_iff_suffix.2 hblank, ?_, ?_,
    lines_of_parseLines hP ⟨by simp, .nil, by simp⟩ hlines⟩
  · intro c hc hcontrol'
    by_contra hne
    refine hcontrol (any_eq_true.2 ⟨c, mem_append_left _ hc, ?_⟩)
    simp [hcontrol', hne]
  · rintro rfl
    exact splitOn_ne_nil '\n' block hmap.symm

theorem any_isControl_render (h : Readable note) :
    ((note.render P).any fun c => isControl c && c != '\n') = false := by
  have hsigs : ∀ line ∈ note.signatures.map (lineText P),
      isValidLine line = true := by
    intro line hline
    obtain ⟨sig, hsig, rfl⟩ := mem_map.1 hline
    exact isValidLine_lineText hP (h.lines.writable sig hsig)
  rw [any_eq_false]
  intro c hc hbad
  simp only [Bool.and_eq_true, bne_iff_ne] at hbad
  rw [render_eq] at hc
  rcases mem_append.1 hc with hbody | hrest
  · exact hbad.2 (h.text_controls c hbody hbad.1)
  · rcases mem_cons.1 hrest with hnl | hblock
    · exact hbad.2 hnl
    · exact hbad.2 (eq_newline_of_mem_unlines hsigs hblock hbad.1)

theorem parse_render (h : Readable note) (hsize : utf8Len (note.render P) ≤ maxNoteBytes) :
    parse P (note.render P) = .ok note := by
  have hvalid : ∀ line ∈ note.signatures.map (lineText P), line ≠ [] ∧ '\n' ∉ line := by
    intro line hline
    obtain ⟨sig, hsig, rfl⟩ := mem_map.1 hline
    have hline := isValidLine_lineText hP (h.lines.writable sig hsig)
    exact ⟨ne_nil_of_isValidLine hline, newline_notMem_of_isValidLine hline⟩
  -- The text ends where the last blank line is.
  have hsplit : splitLastBlank (note.render P) =
      some (note.text, unlines (note.signatures.map (lineText P))) := by
    obtain ⟨front, hfront⟩ := h.text_ends
    rw [render_eq, hfront, append_assoc]
    exact splitLastBlank_append (splitLastBlank_unlines hvalid) _
  have hsuffix : ¬['\n', '\n'].isSuffixOf note.text = true := by
    rw [isSuffixOf_iff_suffix]
    exact h.text_not_blank
  obtain ⟨block, hstrip, hblock⟩ := splitOn_unlines (by simpa using h.signatures_ne_nil)
    fun line hline => (hvalid line hline).2
  have hblock_ne : block ≠ [] := by
    rintro rfl
    have hnil : [] ∈ note.signatures.map (lineText P) := by
      rw [← hblock]
      simp
    exact (hvalid [] hnil).1 rfl
  have hparsed : parseLines P (note.signatures.map (lineText P)) [] =
      .ok note.signatures := parseLines_lineText hP h.lines
  rw [parse, if_neg (by omega), any_isControl_render hP h, if_neg Bool.false_ne_true, hsplit]
  simp only [if_neg hsuffix, hstrip, if_neg hblock_ne, hblock]
  rw [hparsed]
  rfl

end

/-- A note has one text: what is accepted is what is rendered, and a note built from a
signed checkpoint reads back as itself while it is not too large to read. -/
theorem render_canonical (hP : P.StrictBase64) :
    (∀ text note, parse P text = .ok note → note.render P = text) ∧
    ∀ note, Built P note → utf8Len (note.render P) ≤ maxNoteBytes →
      parse P (note.render P) = .ok note :=
  ⟨fun _ _ => render_of_parse hP, fun _ hbuilt => parse_render hP (hbuilt.readable hP)⟩

theorem built_note1 : Built standard note1 := by
  have hlog : LogSigner.fromSeed standard ['l'] (seedOf 0) =
      .ok ⟨logVerifier, seedOf 0⟩ := by decide +kernel
  have hwitness : WitnessSigner.fromSeed standard ['w'] (seedOf 1) =
      .ok ⟨onesVerifier, seedOf 1⟩ := by decide +kernel
  have hlogged : LogSigner.sign standard ⟨logVerifier, seedOf 0⟩ checkpoint1 =
      ⟨headText 1 leafA, [logLine logSignature1]⟩ := by decide +kernel
  have hsig : WitnessSigner.cosign standard ⟨onesVerifier, seedOf 1⟩ (headText 1 leafA) 5 =
      .ok (cosignatureLine onesVerifier 5 onesSignature1) := by decide +kernel
  have hbuilt : Built standard ⟨headText 1 leafA, [logLine logSignature1]⟩ :=
    hlogged ▸ Built.sign checkpoint1 hlog
  exact .cosigned hbuilt hwitness hsig (by decide +kernel)

theorem render_canonical_note1 :
    Built standard note1 ∧
      utf8Len (note1.render standard) ≤ maxNoteBytes ∧
      parse standard (note1.render standard) = .ok note1 :=
  ⟨built_note1, by decide +kernel,
    (render_canonical strictBase64_standard).2 note1 built_note1 (by decide +kernel)⟩

end SignedNote

end Calybris.Note
