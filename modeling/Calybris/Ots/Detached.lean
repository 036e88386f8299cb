import Calybris.Ots.Timestamp

/-!
# Detached timestamps

A detached timestamp is the SHA-256 digest of a file with its proof. It is read from an
`.ots` file or begun for a digest; calendars are sent a commitment that is derived from
the digest, and their responses are folded into the proof. A proof that reaches a Bitcoin
attestation is checked against the header of the block.
-/

namespace Calybris.Ots

open Text Note Parse Wal

def magic : Bytes :=
  [0x00, 0x4f, 0x70, 0x65, 0x6e, 0x54, 0x69, 0x6d, 0x65, 0x73, 0x74, 0x61, 0x6d, 0x70, 0x73, 0x00,
   0x00, 0x50, 0x72, 0x6f, 0x6f, 0x66, 0x00, 0xbf, 0x89, 0xe2, 0xe8, 0x84, 0xe8, 0x92, 0x94]

def majorVersion : UInt8 := 1

abbrev Bytes16 := {bytes : Bytes // bytes.length = 16}

abbrev Bytes80 := {bytes : Bytes // bytes.length = 80}

def minTargetZeroBits : Nat := 64

namespace Timestamp

variable (H : Hashes)

def withOp (t : Timestamp) (op : Op) : Timestamp :=
  match Entries.find op t.ops with
  | some _ => t
  | none => { t with ops := t.ops ++ [(op, new ((op.apply H t.msg).getD []))] }.canonicalize

mutual

def modify (msg : Bytes) (f : Timestamp → Timestamp) : Timestamp → Option Timestamp
  | ⟨found, attestations, ops⟩ =>
    if found = msg then some (f ⟨found, attestations, ops⟩)
    else (modifyOps msg f ops).map fun ops => ⟨found, attestations, ops⟩

def modifyOps (msg : Bytes) (f : Timestamp → Timestamp) :
    List (Op × Timestamp) → Option (List (Op × Timestamp))
  | [] => none
  | (op, child) :: rest =>
    match modify msg f child with
    | some child => some ((op, child) :: rest)
    | none => (modifyOps msg f rest).map fun rest => (op, child) :: rest

end

end Timestamp

/-- The big-endian target that a compact `nBits` encodes, where it is positive and fits. -/
def targetOf (bits : UInt32) : Option Bytes :=
  let exponent := (bits >>> 24).toNat
  let mantissa := bits &&& 0x00ffffff
  if mantissa &&& 0x00800000 ≠ 0 ∨ mantissa = 0 ∨ ¬ (3 ≤ exponent ∧ exponent ≤ 32) then none
  else
    let start := 32 - exponent
    some (List.replicate start 0 ++ (toBigEndian 4 mantissa.toNat).drop 1 ++
      List.replicate (32 - (start + 3)) 0)

def leadingZeroBits : Bytes → Nat
  | [] => 0
  | b :: rest => if b = 0 then 8 + leadingZeroBits rest else 7 - b.toNat.log2

def ofLe32 (bytes : Bytes) : UInt32 := UInt32.ofNat (ofBigEndian bytes.reverse)

structure BitcoinHeader where
  height : UInt64
  blockHash : Bytes
  blockTime : UInt64
  deriving DecidableEq

structure DetachedTimestamp where
  timestamp : Timestamp

namespace DetachedTimestamp

def new (digest : Bytes32) : DetachedTimestamp := ⟨.new digest.1⟩

def digest (t : DetachedTimestamp) : Bytes := t.timestamp.msg

def serialize (t : DetachedTimestamp) : Bytes :=
  magic ++ (majorVersion :: Op.sha256.tag :: (t.timestamp.msg ++ t.timestamp.write))

variable (H : Hashes)

def readFile : OtsReader Timestamp := do
  let version ← varuint
  if version ≠ majorVersion.toUInt64 then throw (.malformed "unsupported major version")
  else
    let tag ← byte
    if tag ≠ Op.sha256.tag then throw (.malformed "only SHA-256 file digests are supported")
    else
      let digest ← take 32
      Timestamp.read H maxDepth digest.1

def parse (bytes : Bytes) : Except OtsError DetachedTimestamp :=
  if bytes.length > maxProofBytes then .error (.malformed "proof is too large")
  else if magic.isPrefixOf bytes then
    (runAll (readFile H) (.malformed "trailing bytes after the proof")
      (bytes.drop magic.length)).map DetachedTimestamp.mk
  else .error (.malformed "not an OpenTimestamps proof")

/-- Appends the nonce to the digest and hashes; gives the commitment to send to calendars.
`none` where the commitment is not of 32 bytes. -/
def prepareSubmission (t : DetachedTimestamp) (nonce : Bytes16) :
    Option (Bytes32 × DetachedTimestamp) := do
  let root := t.timestamp.withOp H (.append nonce.1)
  let node ← Entries.find (.append nonce.1) root.ops
  let node := node.withOp H .sha256
  let leaf ← Entries.find .sha256 node.ops
  let commitment ← toBytes32 leaf.msg
  return (commitment, ⟨{ root with ops := Entries.put (.append nonce.1) node root.ops }⟩)

def mergeCalendarResponse (t : DetachedTimestamp) (commitment body : Bytes) :
    Except OtsError DetachedTimestamp := do
  let upgrade ← Timestamp.deserialize H body commitment
  match t.timestamp.modify commitment fun node => node.merge upgrade with
  | some timestamp => return ⟨timestamp⟩
  | none => throw (.malformed "the commitment is not part of this proof")

def pending (t : DetachedTimestamp) : List (Bytes × Bytes) :=
  t.timestamp.collect.filterMap fun
    | (msg, .pending uri) => some (msg, uri)
    | _ => none

def verifyBitcoin (t : DetachedTimestamp) (height : UInt64) (header : Bytes80) :
    Except OtsError BitcoinHeader :=
  let merkleRoot := (header.1.drop 36).take 32
  if ¬ t.timestamp.collect.any fun x => x.2 = .bitcoin height && x.1 = merkleRoot then
    .error .notInBlock
  else
    let bits := ofLe32 ((header.1.drop 72).take 4)
    match targetOf bits with
    | none => .error .badProofOfWork
    | some target =>
      if leadingZeroBits target < minTargetZeroBits then .error .insufficientWork
      else
        let hash := H.sha256 (H.sha256 header.1).1
        if target < hash.1.reverse then .error .badProofOfWork
        else .ok {
          height := height
          blockHash := bytesToHex hash.1.reverse
          blockTime := (ofLe32 ((header.1.drop 68).take 4)).toUInt64 }

end DetachedTimestamp

end Calybris.Ots
