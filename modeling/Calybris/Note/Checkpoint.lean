import Calybris.Merkle.Tree
import Calybris.Text.Basic

/-!
# Checkpoints

A checkpoint is a tree head written as text: the origin line, the size in
decimal, the root in base64, then extension lines, each ending in a newline.
Its fields are private in the source so that every value is one the text can
write; here the type carries that. Base64, SHA-256 and Ed25519 are parameters,
collected in `Primitives`.
-/

namespace Calybris.Note

open Text Merkle

abbrev Bytes32 := {bytes : Bytes // bytes.length = 32}

theorem length_zeros : (List.replicate 32 (0 : UInt8)).length = 32 := rfl

def zeroHash : Bytes32 := ⟨List.replicate 32 0, length_zeros⟩

abbrev Bytes64 := {bytes : Bytes // bytes.length = 64}

structure Primitives where
  base64Encode : Bytes → List Char
  base64Decode : List Char → Option Bytes
  sha256 : Bytes → Bytes32
  verifyingKey : Bytes32 → Bytes32
  sign : Bytes32 → Bytes → Bytes64
  verifyStrict : Bytes32 → Bytes → Bytes64 → Bool

def toBytes32 (bytes : Bytes) : Option Bytes32 :=
  if h : bytes.length = 32 then some ⟨bytes, h⟩ else none

def toBytes64 (bytes : Bytes) : Option Bytes64 :=
  if h : bytes.length = 64 then some ⟨bytes, h⟩ else none

theorem toBytes32_val (hash : Bytes32) : toBytes32 hash.1 = some hash := dif_pos hash.2

theorem eq_of_toBytes32 {bytes : Bytes} {hash : Bytes32} (h : toBytes32 bytes = some hash) :
    hash.1 = bytes := by
  unfold toBytes32 at h
  split_ifs at h
  cases h
  rfl

theorem toBytes64_val (signature : Bytes64) : toBytes64 signature.1 = some signature :=
  dif_pos signature.2

theorem eq_of_toBytes64 {bytes : Bytes} {signature : Bytes64}
    (h : toBytes64 bytes = some signature) : signature.1 = bytes := by
  unfold toBytes64 at h
  split_ifs at h
  cases h
  rfl

namespace Primitives

variable (P : Primitives)

def leafHash (data : Bytes) : Bytes32 := P.sha256 (0x00 :: data)

/-- The tree's hashing: `SHA-256(0x01 ‖ left ‖ right)`, and `SHA-256("")` for the
empty tree. -/
def hashing : Hashing Bytes32 where
  nodeHash left right := P.sha256 (0x01 :: (left.1 ++ right.1))
  emptyRoot := P.sha256 []

end Primitives

inductive CheckpointError where
  | badName
  | badKey (reason : String)
  | wrongAlgorithm (algorithm : UInt8)
  | noteTooLarge
  | malformedNote (reason : String)
  | malformedCheckpoint (reason : String)
  | tooManySignatures
  | duplicateSignature
  | notSigned (name : List Char)
  | badSignature (name : List Char)
  | badTimestamp (timestamp : Nat)
  deriving DecidableEq

def isValidLine (line : List Char) : Bool := line != [] && !line.any isControl

structure Checkpoint where
  origin : List Char
  size : Nat
  root : Bytes32
  extensions : List (List Char)
  origin_valid : isValidLine origin = true
  size_lt : size < 2 ^ 64
  extensions_valid : ∀ line ∈ extensions, isValidLine line = true
  deriving DecidableEq

namespace Checkpoint

variable (P : Primitives)

def head (checkpoint : Checkpoint) : TreeHead Bytes32 where
  size := checkpoint.size
  root := checkpoint.root

/-- A checkpoint of `head` for the log named `origin`. The size of a head is a `u64`. -/
def new (origin : List Char) (head : TreeHead Bytes32) (hsize : head.size < 2 ^ 64) :
    Except CheckpointError Checkpoint :=
  if horigin : isValidLine origin = true then
    .ok ⟨origin, head.size, head.root, [], horigin, hsize, by simp⟩
  else
    .error (.malformedCheckpoint "origin must be one non-empty line without control characters")

def withExtension (checkpoint : Checkpoint) (line : List Char) :
    Except CheckpointError Checkpoint :=
  if hline : isValidLine line = true then
    .ok
      { checkpoint with
        extensions := checkpoint.extensions ++ [line]
        extensions_valid := by
          intro l hl
          rcases List.mem_append.1 hl with hold | hnew
          · exact checkpoint.extensions_valid l hold
          · rw [List.mem_singleton.1 hnew]
            exact hline }
  else
    .error (.malformedCheckpoint
      "extension must be one non-empty line without control characters")

def body (checkpoint : Checkpoint) : List Char :=
  checkpoint.origin ++ '\n' :: decimal checkpoint.size ++ '\n' ::
    P.base64Encode checkpoint.root.1 ++ '\n' ::
      checkpoint.extensions.flatMap fun line => line ++ ['\n']

def parseLines (origin size root : List Char) (extensions : List (List Char)) :
    Except CheckpointError Checkpoint :=
  if horigin : isValidLine origin = true then
    if isCanonicalDecimal size then
      if hsize : ofDecimal size < 2 ^ 64 then
        match P.base64Decode root with
        | none => .error (.malformedCheckpoint "root hash is not standard base64")
        | some decoded =>
          match toBytes32 decoded with
          | none => .error (.malformedCheckpoint "root hash is not 32 bytes")
          | some rootBytes =>
            if P.base64Encode rootBytes.1 ≠ root then
              .error (.malformedCheckpoint "root hash is not canonically encoded")
            else if hextensions : ∀ line ∈ extensions, isValidLine line = true then
              .ok ⟨origin, ofDecimal size, rootBytes, extensions, horigin, hsize, hextensions⟩
            else
              .error (.malformedCheckpoint
                "extension lines must be non-empty, without control characters")
      else .error (.malformedCheckpoint "tree size exceeds u64")
    else .error (.malformedCheckpoint "tree size must be decimal without leading zeros")
  else .error (.malformedCheckpoint "origin must be non-empty, without control characters")

def parse (body : List Char) : Except CheckpointError Checkpoint :=
  match stripNewline body with
  | none => .error (.malformedCheckpoint "body must end in a newline")
  | some text =>
    match text.splitOn '\n' with
    | [] => .error (.malformedCheckpoint "missing origin")
    | [_] => .error (.malformedCheckpoint "missing tree size")
    | [_, _] => .error (.malformedCheckpoint "missing root hash")
    | origin :: size :: root :: extensions => parseLines P origin size root extensions

end Checkpoint

end Calybris.Note
