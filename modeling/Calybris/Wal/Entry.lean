import Calybris.Lines.Basic
import Calybris.Machine.Checked
import Calybris.Note.Checkpoint
import Calybris.Text.Sha256

/-!
# Entries of the write-ahead log

A log is a file of lines, each the JSON text of one entry: its sequence number, the
hash of the entry before it, its own hash, and the payload. The hash is SHA-256, or
HMAC-SHA256 under a key, of the previous hash followed by the payload's text.

Texts are their UTF-8 bytes. The two digests and the JSON reader are parameters: a
reader takes a line to the entry it writes, with the text of the payload as it stands
there.
-/

namespace Calybris.Wal

open Text Note List

def minHmacKeyBytes : Nat := 32

def maxWalEntryBytes : Nat := 16 * 1024 * 1024

def maxWalPayloadBytes : Nat := maxWalEntryBytes - 512

abbrev newline : UInt8 := 0x0a

structure WalEntry where
  sequence : UInt64
  previousHash : Bytes
  entryHash : Bytes
  data : Bytes
  deriving DecidableEq, Repr

structure WalAnchor where
  schemaVersion : String
  sequence : UInt64
  lastHash : Bytes
  keyed : Bool
  deriving DecidableEq, Repr

def walAnchorSchema : String := "calybris.wal-anchor.v1"

/-- Why the log was refused. The errors of input and output are told apart by their
messages. -/
inductive WalError where
  | json
  | chainBroken (sequence : UInt64) (expected found : Bytes)
  | duplicateSequence (sequence : UInt64)
  | shortKey (found : Nat)
  | entryTooLarge (found : Nat)
  | sequenceOverflow
  | poisoned
  | payloadTooLarge
  | notUtf8
  | writeFailed
  | unknownAnchorSchema (schema : String)
  | anchorMode
  | anchorMismatch (expected : UInt64 × Bytes) (found : UInt64 × Bytes)
  | shorterThanAnchor (expected head : UInt64)
  | anchorPrefixMismatch (sequence : UInt64) (expected found : Bytes)
  deriving DecidableEq, Repr

structure Digests where
  sha256 : Bytes → Bytes32
  hmacSha256 : Bytes → Bytes → Bytes32

def sha256Digests : Digests := ⟨Sha256.hash, Sha256.hmac⟩

/-- The reader of lines, an entry with its payload as raw text, and the texts of values
that the serializer writes. -/
structure SerdeJson where
  parseEntry : Bytes → Option WalEntry
  IsValue : Bytes → Prop

/-! ### Hexadecimal -/

def hexDigit (n : Nat) : UInt8 := UInt8.ofNat (if n < 10 then 48 + n else 87 + n)

def bytesToHex (bytes : Bytes) : Bytes :=
  bytes.flatMap fun b => [hexDigit (b.toNat / 16), hexDigit (b.toNat % 16)]

theorem hexDigit_toNat {n : Nat} (h : n < 16) :
    (hexDigit n).toNat = if n < 10 then 48 + n else 87 + n := by
  unfold hexDigit
  rw [UInt8.toNat_ofNat']
  apply Nat.mod_eq_of_lt
  split <;> omega

theorem hexDigit_inj {m n : Nat} (hm : m < 16) (hn : n < 16) (h : hexDigit m = hexDigit n) :
    m = n := by
  have h' := congrArg UInt8.toNat h
  rw [hexDigit_toNat hm, hexDigit_toNat hn] at h'
  split at h' <;> split at h' <;> omega

theorem length_bytesToHex (bytes : Bytes) : (bytesToHex bytes).length = 2 * bytes.length := by
  induction bytes with
  | nil => rfl
  | cons b bytes ih =>
    rw [bytesToHex, flatMap_cons, length_append, ← bytesToHex, ih, length_cons]
    simp
    omega

theorem length_digest (digest : Bytes32) : (bytesToHex digest.1).length = 64 := by
  rw [length_bytesToHex, digest.2]

theorem bytesToHex_injective : Function.Injective bytesToHex := by
  intro a
  induction a with
  | nil =>
    intro b h
    cases b with
    | nil => rfl
    | cons y b => simp [bytesToHex] at h
  | cons x a ih =>
    intro b h
    cases b with
    | nil => simp [bytesToHex] at h
    | cons y b =>
      simp only [bytesToHex, flatMap_cons, cons_append, nil_append, cons.injEq] at h
      obtain ⟨hhigh, hlow, hrest⟩ := h
      have hx := x.toNat_lt
      have hy := y.toNat_lt
      have h1 := hexDigit_inj (by omega) (by omega) hhigh
      have h2 := hexDigit_inj (by omega) (by omega) hlow
      have hxy : x = y := UInt8.toNat_inj.1 (by omega)
      rw [hxy, ih hrest]

def isHexByte (b : UInt8) : Bool := (48 ≤ b && b ≤ 57) || (97 ≤ b && b ≤ 102)

theorem isHexByte_hexDigit {n : Nat} (h : n < 16) : isHexByte (hexDigit n) = true := by
  have hall : ∀ k : Fin 16, isHexByte (hexDigit k) = true := by decide
  exact hall ⟨n, h⟩

theorem isHexByte_of_mem {bytes : Bytes} {b : UInt8} (h : b ∈ bytesToHex bytes) :
    isHexByte b = true := by
  obtain ⟨x, -, hx⟩ := mem_flatMap.1 h
  have hlt := x.toNat_lt
  rcases mem_cons.1 hx with rfl | hx
  · exact isHexByte_hexDigit (by omega)
  · obtain rfl := mem_singleton.1 hx
    exact isHexByte_hexDigit (by omega)

/-! ### Hashes -/

def genesis : Bytes := utf8 "genesis".toList

variable (D : Digests)

def validateHmacKey (key : Bytes) : Except WalError Unit :=
  if key.length < minHmacKeyBytes then .error (.shortKey key.length) else .ok ()

def computeHash (key : Option Bytes) (previousHash dataJson : Bytes) : Except WalError Bytes :=
  match key with
  | some k =>
    match validateHmacKey k with
    | .error error => .error error
    | .ok () => .ok (bytesToHex (D.hmacSha256 k (previousHash ++ dataJson)).1)
  | none => .ok (bytesToHex (D.sha256 (previousHash ++ dataJson)).1)

def link (key : Option Bytes) (previousHash dataJson : Bytes) : Bytes :=
  match key with
  | some k => bytesToHex (D.hmacSha256 k (previousHash ++ dataJson)).1
  | none => bytesToHex (D.sha256 (previousHash ++ dataJson)).1

def validateKey : Option Bytes → Except WalError Unit
  | some k => validateHmacKey k
  | none => .ok ()

section

variable {D} {key : Option Bytes} {h d : Bytes}

theorem computeHash_of_validateKey (hkey : validateKey key = .ok ()) :
    computeHash D key h d = .ok (link D key h d) := by
  cases key with
  | none => rfl
  | some k =>
    have hk : validateHmacKey k = .ok () := hkey
    simp only [computeHash, hk, link]

theorem exists_link_eq (D : Digests) (key : Option Bytes) (h d : Bytes) :
    ∃ digest : Bytes32, link D key h d = bytesToHex digest.1 := by
  cases key with
  | none => exact ⟨_, rfl⟩
  | some k => exact ⟨_, rfl⟩

theorem length_link : (link D key h d).length = 64 := by
  obtain ⟨digest, hdigest⟩ := exists_link_eq D key h d
  rw [hdigest, length_digest]

theorem isHexByte_of_mem_link {b : UInt8} (hb : b ∈ link D key h d) : isHexByte b = true := by
  obtain ⟨digest, hdigest⟩ := exists_link_eq D key h d
  rw [hdigest] at hb
  exact isHexByte_of_mem hb

theorem link_ne_genesis : link D key h d ≠ genesis := by
  intro heq
  have hlen := congrArg length heq
  rw [length_link] at hlen
  revert hlen
  decide

end

end Calybris.Wal
