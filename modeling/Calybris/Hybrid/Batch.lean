import Calybris.Merkle.Inclusion
import Calybris.Note.Roles
import Calybris.Note.Tree

/-!
# Signed batches

A hybrid signature is an Ed25519 and an ML-DSA-65 signature over one tagged digest. A batch
is signed once: its digests are the leaves of a tree, and what is signed is the tree's size
and root behind a tag of their own. Every digest goes out with its inclusion proof.

The signer builds all proofs in one pass over the tree. Each is the proof the tree gives for
that leaf alone, so the verifier of inclusion proofs accepts it. The other way round, an
accepted batch signature is over a head the signer signed, and where no two hashed texts
collide that head commits to its digests, so an accepted item is the one at its index.
-/

namespace Calybris.Hybrid

open Text Merkle Hashing Note Primitives List UInt64

/-- The tag of the message that both halves sign: `calyhyb1`. -/
def hybridTag : Bytes := utf8 "calyhyb1".toList

/-- The context string that ML-DSA binds: `calybris`. -/
def mlDsaContext : Bytes := utf8 "calybris".toList

/-- The tag of the head of a batch: `calyhbt1`. -/
def batchTag : Bytes := utf8 "calyhbt1".toList

abbrev MlDsaKey := {bytes : Bytes // bytes.length = 1952}

abbrev MlDsaSignature := {bytes : Bytes // bytes.length = 3309}

/-- The two signature schemes. Not every thirty-two bytes are an Ed25519 key, and not every
encoded ML-DSA signature decodes. -/
structure Schemes extends Primitives where
  isKey : Bytes32 → Bool
  mlDsaKey : Bytes32 → MlDsaKey
  mlDsaSign : Bytes32 → Bytes → Bytes → Option MlDsaSignature
  mlDsaDecodes : MlDsaSignature → Bool
  mlDsaVerify : MlDsaKey → Bytes → Bytes → MlDsaSignature → Bool

inductive HybridError where
  | malformedEd25519
  | malformedMlDsa
  | ed25519Invalid
  | mlDsaInvalid
  | signingFailed
  | emptyBatch
  | notInBatch
  deriving DecidableEq

structure HybridPublicKey where
  ed25519 : Bytes32
  mlDsa65 : Bytes

structure HybridSignature where
  ed25519 : Bytes
  mlDsa65 : Bytes
  deriving DecidableEq

structure HybridSigner where
  ed25519 : Bytes32
  mlDsa : Bytes32

structure BatchSignature where
  size : UInt64
  root : Bytes32
  signature : HybridSignature
  deriving DecidableEq

structure BatchItem where
  index : UInt64
  proof : List Bytes32
  deriving DecidableEq

abbrev Digests := {digests : List Bytes32 // digests.length < 2 ^ 64}

def message (digest : Bytes32) : Bytes := hybridTag ++ digest.1

def toMlDsaKey (bytes : Bytes) : Option MlDsaKey :=
  if h : bytes.length = 1952 then some ⟨bytes, h⟩ else none

def toMlDsaSignature (bytes : Bytes) : Option MlDsaSignature :=
  if h : bytes.length = 3309 then some ⟨bytes, h⟩ else none

def batchText (size : UInt64) (root : Bytes32) : Bytes :=
  batchTag ++ (toBigEndian 8 size.toNat ++ root.1)

section Code

variable (S : Schemes)

namespace HybridSigner

variable (signer : HybridSigner)

def publicKey : HybridPublicKey where
  ed25519 := S.verifyingKey signer.ed25519
  mlDsa65 := (S.mlDsaKey signer.mlDsa).1

def sign (digest : Bytes32) : Except HybridError HybridSignature :=
  let m := message digest
  match S.mlDsaSign signer.mlDsa m mlDsaContext with
  | none => .error .signingFailed
  | some pq => .ok ⟨(S.sign signer.ed25519 m).1, pq.1⟩

end HybridSigner

def verify (publicKey : HybridPublicKey) (digest : Bytes32) (sig : HybridSignature) :
    Except HybridError Unit :=
  let m := message digest
  if S.isKey publicKey.ed25519 then
    match toBytes64 sig.ed25519 with
    | none => .error .malformedEd25519
    | some edSig =>
      if S.verifyStrict publicKey.ed25519 m edSig then
        match toMlDsaKey publicKey.mlDsa65 with
        | none => .error .malformedMlDsa
        | some vk =>
          match toMlDsaSignature sig.mlDsa65 with
          | none => .error .malformedMlDsa
          | some pqSig =>
            if S.mlDsaDecodes pqSig then
              if S.mlDsaVerify vk m mlDsaContext pqSig then .ok ()
              else .error .mlDsaInvalid
            else .error .malformedMlDsa
      else .error .ed25519Invalid
  else .error .malformedEd25519

def batchDigest (size : UInt64) (root : Bytes32) : Bytes32 := S.sha256 (batchText size root)

def batchLeaves (digests : List Bytes32) : List Bytes32 :=
  digests.map fun digest => S.leafHash digest.1

def HybridSigner.signBatch (signer : HybridSigner) (digests : List Bytes32) :
    Except HybridError (BatchSignature × List BatchItem) :=
  if digests = [] then .error .emptyBatch
  else
    let leaves := batchLeaves S digests
    let size := ofNat leaves.length
    let root := S.hashing.rootOf leaves
    match signer.sign S (batchDigest S size root) with
    | .error e => .error e
    | .ok signature =>
      let items := (S.hashing.allInclusionProofs leaves).mapIdx fun i proof =>
        { index := ofNat i, proof := proof : BatchItem }
      .ok (⟨size, root, signature⟩, items)

/-- A batch whose signature has been checked; `verifyBatch` alone builds one. -/
structure VerifiedBatch (publicKey : HybridPublicKey) where
  batch : BatchSignature
  size_ne_zero : batch.size ≠ 0
  signature_verifies :
    verify S publicKey (batchDigest S batch.size batch.root) batch.signature = .ok ()

def VerifiedBatch.verifyItem {S : Schemes} {publicKey : HybridPublicKey}
    (verified : VerifiedBatch S publicKey) (digest : Bytes32) (item : BatchItem) :
    Except HybridError Unit :=
  match S.hashing.verifyInclusion ⟨verified.batch.size.toNat, verified.batch.root⟩
      item.index.toNat (S.leafHash digest.1) item.proof with
  | .ok () => .ok ()
  | .error _ => .error .notInBatch

def verifyBatch (publicKey : HybridPublicKey) (batch : BatchSignature) :
    Except HybridError (VerifiedBatch S publicKey) :=
  if hsize : batch.size = 0 then .error .emptyBatch
  else
    match hverify : verify S publicKey (batchDigest S batch.size batch.root) batch.signature with
    | .error e => .error e
    | .ok () => .ok ⟨batch, hsize, hverify⟩

def verifyBatchItem (publicKey : HybridPublicKey) (digest : Bytes32) (item : BatchItem)
    (batch : BatchSignature) : Except HybridError Unit :=
  match verifyBatch S publicKey batch with
  | .error e => .error e
  | .ok verified => verified.verifyItem digest item

end Code

section Texts

variable (S : Schemes)

def batchHead (digests : Digests) : TreeHead Bytes32 := S.treeHeadOf (digests.1.map Subtype.val)

def signedTexts (digests : Digests) : List Bytes :=
  batchText (ofNat (batchHead S digests).size) (batchHead S digests).root ::
    S.rootTexts (digests.1.map Subtype.val)

def itemTexts (batch : BatchSignature) (digest : Bytes32) (item : BatchItem) : List Bytes :=
  batchText batch.size batch.root :: leafText digest.1 ::
    (S.hashing.inclusionPairs item.index.toNat batch.size.toNat (S.leafHash digest.1)
      item.proof).map nodeText

def Signs (signer : HybridSigner) : Prop :=
  ∀ digest signature, signer.sign S digest = .ok signature →
    verify S (signer.publicKey S) digest signature = .ok ()

/-- The signature of this batch, if the key accepts it, is over the head of one of the batches
that were signed. -/
def Unforged (publicKey : HybridPublicKey) (batches : Set Digests) (batch : BatchSignature) :
    Prop :=
  verify S publicKey (batchDigest S batch.size batch.root) batch.signature = .ok () →
    ∃ digests ∈ batches, batchDigest S batch.size batch.root =
      batchDigest S (ofNat (batchHead S digests).size) (batchHead S digests).root

variable {S} {publicKey : HybridPublicKey} {batch : BatchSignature} {digests : Digests}
  {digest : Bytes32} {item : BatchItem} {texts : Set Bytes}

theorem batchLeaves_eq (digests : List Bytes32) :
    batchLeaves S digests = (digests.map Subtype.val).map S.leafHash := by
  rw [map_map]
  rfl

theorem batchHead_size (digests : Digests) : (batchHead S digests).size = digests.1.length := by
  simp only [batchHead, treeHeadOf, length_map]

theorem batchHead_eq (digests : Digests) :
    batchHead S digests = S.hashing.headOf (batchLeaves S digests.1) := by
  rw [batchLeaves_eq]
  rfl

theorem toNat_batchHead_size (digests : Digests) :
    (ofNat (batchHead S digests).size).toNat = digests.1.length := by
  rw [batchHead_size, toNat_ofNat_of_lt' digests.2]

theorem batchText_inj {size size' : UInt64} {root root' : Bytes32}
    (h : batchText size root = batchText size' root') : size = size' ∧ root = root' := by
  have hrest := append_cancel_left h
  have hlen : (toBigEndian 8 size.toNat).length = (toBigEndian 8 size'.toNat).length := by
    rw [length_toBigEndian, length_toBigEndian]
  obtain ⟨hsize, hroot⟩ := append_inj hrest hlen
  have hnat := congrArg ofBigEndian hsize
  rw [ofBigEndian_toBigEndian size.toNat_lt, ofBigEndian_toBigEndian size'.toNat_lt] at hnat
  exact ⟨UInt64.toNat_inj.1 hnat, Subtype.ext hroot⟩

theorem verify_eq_ok_iff {sig : HybridSignature} :
    verify S publicKey digest sig = .ok () ↔
      ∃ edSig vk pqSig, toBytes64 sig.ed25519 = some edSig ∧
        toMlDsaKey publicKey.mlDsa65 = some vk ∧ toMlDsaSignature sig.mlDsa65 = some pqSig ∧
        S.isKey publicKey.ed25519 = true ∧
        S.verifyStrict publicKey.ed25519 (message digest) edSig = true ∧
        S.mlDsaDecodes pqSig = true ∧
        S.mlDsaVerify vk (message digest) mlDsaContext pqSig = true := by
  rw [verify]
  constructor
  · intro h
    split_ifs at h with hkey
    split at h
    · cases h
    next edSig hed =>
    split_ifs at h with hstrict
    split at h
    · cases h
    next vk hvk =>
    split at h
    · cases h
    next pqSig hpq =>
    split_ifs at h with hdecodes hverify
    exact ⟨edSig, vk, pqSig, hed, hvk, hpq, hkey, hstrict, hdecodes, hverify⟩
  · rintro ⟨edSig, vk, pqSig, hed, hvk, hpq, hkey, hstrict, hdecodes, hverify⟩
    simp only [hkey, hed, hstrict, hvk, hpq, hdecodes, hverify, if_true]

variable {verified : VerifiedBatch S publicKey}

theorem batch_of_verifyBatch (h : verifyBatch S publicKey batch = .ok verified) :
    verified.batch = batch := by
  rw [verifyBatch] at h
  split_ifs at h
  split at h
  · cases h
  · cases h
    rfl

theorem verifyItem_eq_ok_iff :
    verified.verifyItem digest item = .ok () ↔
      S.hashing.verifyInclusion ⟨verified.batch.size.toNat, verified.batch.root⟩
        item.index.toNat (S.leafHash digest.1) item.proof = .ok () := by
  rw [VerifiedBatch.verifyItem]
  split
  · next heq => exact iff_of_true rfl heq
  · next heq => simp [heq]

theorem verifyBatchItem_eq_ok_iff :
    verifyBatchItem S publicKey digest item batch = .ok () ↔
      ∃ verified : VerifiedBatch S publicKey, verifyBatch S publicKey batch = .ok verified ∧
        verified.verifyItem digest item = .ok () := by
  rw [verifyBatchItem]
  split
  · next heq => simp [heq]
  · next verified heq => simp [heq]

/-- An item accepted under the head of a batch is the digest at its index. -/
theorem VerifiedBatch.sound (hsize : verified.batch.size.toNat = digests.1.length)
    (hroot : verified.batch.root = (batchHead S digests).root) (hfree : S.CollisionFree texts)
    (hsigned : ∀ t ∈ signedTexts S digests, t ∈ texts)
    (hitem : ∀ t ∈ itemTexts S verified.batch digest item, t ∈ texts)
    (hok : verified.verifyItem digest item = .ok ()) :
    digests.1[item.index.toNat]? = some digest := by
  have hlen : (batchLeaves S digests.1).length = digests.1.length := length_map _
  rw [verifyItem_eq_ok_iff, hroot, hsize, ← hlen, batchHead_eq] at hok
  have hpairs : S.hashing.CollisionFree {p | nodeText p ∈ texts} := hfree.hashing fun _ hp => hp
  obtain ⟨hleaf, -⟩ := verifyInclusion_sound hok hpairs
    (fun p hp => hsigned _ (mem_cons_of_mem _ (nodeText_mem_rootTexts (by
      rwa [← batchLeaves_eq]))))
    (fun p hp => hitem _ (mem_cons_of_mem _ (mem_cons_of_mem _
      (mem_map_of_mem (by rwa [hsize, ← hlen])))))
  rw [batchLeaves, getElem?_map, Option.map_eq_some_iff] at hleaf
  obtain ⟨stored, hstored, hhash⟩ := hleaf
  have hmem : stored.1 ∈ digests.1.map Subtype.val := mem_map_of_mem (mem_of_getElem? hstored)
  have htext := hfree (hsigned _ (mem_cons_of_mem _ (leafText_mem_rootTexts hmem)))
    (hitem _ (mem_cons_of_mem _ mem_cons_self)) hhash
  rw [hstored, Subtype.ext (cons.inj htext).2]

end Texts

section Batch

variable {S : Schemes} {signer : HybridSigner} {batch : BatchSignature} {items : List BatchItem}
  {digests : Digests}

theorem of_signBatch (h : signer.signBatch S digests.1 = .ok (batch, items)) :
    digests.1 ≠ [] ∧ batch.size = ofNat (batchHead S digests).size ∧
      batch.root = (batchHead S digests).root ∧
      signer.sign S (batchDigest S batch.size batch.root) = .ok batch.signature ∧
      items = (range digests.1.length).map fun i =>
        ⟨ofNat i, S.hashing.path i (batchLeaves S digests.1)⟩ := by
  rw [HybridSigner.signBatch] at h
  split_ifs at h with hne
  dsimp only at h
  split at h
  · cases h
  · next signature hsign =>
    cases h
    rw [batchHead_eq]
    refine ⟨hne, rfl, rfl, hsign, ?_⟩
    rw [allInclusionProofs_eq, batchLeaves, length_map]
    apply ext_getElem
    · simp
    · intro i hi hi'
      simp

theorem exists_verifyBatch (hsigns : Signs S signer)
    (h : signer.signBatch S digests.1 = .ok (batch, items)) :
    ∃ verified, verifyBatch S (signer.publicKey S) batch = .ok verified := by
  obtain ⟨hne, hsize, -, hsign, -⟩ := of_signBatch h
  have hpos : batch.size ≠ 0 := by
    intro hzero
    rw [hsize] at hzero
    have hlen := toNat_batchHead_size (S := S) digests
    rw [hzero] at hlen
    exact hne (eq_nil_of_length_eq_zero hlen.symm)
  refine ⟨⟨batch, hpos, hsigns _ _ hsign⟩, ?_⟩
  rw [verifyBatch, dif_neg hpos]
  split
  · next heq => cases heq.symm.trans (hsigns _ _ hsign)
  · rfl

theorem verifyItem_of_signBatch (h : signer.signBatch S digests.1 = .ok (batch, items))
    {verified : VerifiedBatch S (signer.publicKey S)}
    (hverified : verifyBatch S (signer.publicKey S) batch = .ok verified) {i : Nat}
    {digest : Bytes32} {item : BatchItem} (hdigest : digests.1[i]? = some digest)
    (hitem : items[i]? = some item) :
    item.index.toNat = i ∧ verified.verifyItem digest item = .ok () := by
  obtain ⟨-, hsize, hroot, -, rfl⟩ := of_signBatch h
  have hi : i < digests.1.length := (List.getElem?_eq_some_iff.1 hdigest).1
  rw [List.getElem?_map, List.getElem?_range hi, Option.map_some, Option.some.injEq] at hitem
  subst hitem
  have hindex : (ofNat i).toNat = i := toNat_ofNat_of_lt' (hi.trans digests.2)
  have hleaf : (batchLeaves S digests.1)[i]? = some (S.leafHash digest.1) := by
    rw [batchLeaves, getElem?_map, hdigest]
    rfl
  refine ⟨hindex, verifyItem_eq_ok_iff.2 ?_⟩
  rw [batch_of_verifyBatch hverified, hsize, toNat_batchHead_size, hroot, hindex, batchHead_eq]
  have haccepted := verifyInclusion_path (H := S.hashing) hleaf
  rwa [headOf, batchLeaves, length_map] at haccepted

/-- For every batch: the proofs made in one pass are those made one at a time, and every item
the signer returns is accepted for its digest. An item accepted against a batch is the digest
of that batch at its index, both for the batch the signer returned and for any batch whose
signature is not forged. -/
theorem signBatch_complete_sound (S : Schemes) (signer : HybridSigner) (digests : Digests) :
    (S.hashing.allInclusionProofs (batchLeaves S digests.1)).map .ok =
        (range digests.1.length).map (S.hashing.inclusionProof (batchLeaves S digests.1)) ∧
      (Signs S signer → ∀ batch items, signer.signBatch S digests.1 = .ok (batch, items) →
        items.length = digests.1.length ∧
          ∃ verified, verifyBatch S (signer.publicKey S) batch = .ok verified ∧
            ∀ i digest item, digests.1[i]? = some digest → items[i]? = some item →
              item.index.toNat = i ∧ verified.verifyItem digest item = .ok ()) ∧
      (∀ batch items, signer.signBatch S digests.1 = .ok (batch, items) → ∀ digest item,
        S.CollisionFree {t | t ∈ signedTexts S digests ∨ t ∈ itemTexts S batch digest item} →
        verifyBatchItem S (signer.publicKey S) digest item batch = .ok () →
          digests.1[item.index.toNat]? = some digest) ∧
      ∀ batches batch, Unforged S (signer.publicKey S) batches batch → ∀ digest item,
        S.CollisionFree {t | (∃ signed ∈ batches, t ∈ signedTexts S signed) ∨
          t ∈ itemTexts S batch digest item} →
        verifyBatchItem S (signer.publicKey S) digest item batch = .ok () →
          ∃ signed ∈ batches, batch.size.toNat = signed.1.length ∧
            batch.root = (batchHead S signed).root ∧
            signed.1[item.index.toNat]? = some digest := by
  refine ⟨?_, ?_, ?_, ?_⟩
  · rw [allInclusionProofs_eq, map_map, batchLeaves, length_map]
    apply map_congr_left
    intro index hindex
    rw [Function.comp_apply, inclusionProof, length_map, if_neg (Nat.not_le.2 (mem_range.1 hindex))]
  · intro hsigns batch items h
    obtain ⟨-, -, -, -, hitems⟩ := of_signBatch h
    obtain ⟨verified, hverified⟩ := exists_verifyBatch hsigns h
    refine ⟨by rw [hitems, length_map, length_range], verified, hverified, ?_⟩
    exact fun i digest item => verifyItem_of_signBatch h hverified
  · intro batch items h digest item hfree hok
    obtain ⟨-, hsize, hroot, -, -⟩ := of_signBatch h
    obtain ⟨verified, hverified, hitem⟩ := verifyBatchItem_eq_ok_iff.1 hok
    obtain rfl := batch_of_verifyBatch hverified
    refine verified.sound ?_ hroot hfree (fun _ ht => .inl ht) (fun _ ht => .inr ht) hitem
    rw [hsize, toNat_batchHead_size]
  · intro batches batch hunforged digest item hfree hok
    obtain ⟨verified, hverified, hitem⟩ := verifyBatchItem_eq_ok_iff.1 hok
    obtain rfl := batch_of_verifyBatch hverified
    obtain ⟨signed, hsigned, hdigest⟩ := hunforged verified.signature_verifies
    -- One digest, so one text, so one head.
    have htext := hfree (.inr mem_cons_self) (.inl ⟨signed, hsigned, mem_cons_self⟩) hdigest
    obtain ⟨hsize, hroot⟩ := batchText_inj htext
    have hlen : verified.batch.size.toNat = signed.1.length := by
      rw [hsize, toNat_batchHead_size]
    exact ⟨signed, hsigned, hlen, hroot, verified.sound hlen hroot hfree
      (fun _ ht => .inl ⟨signed, hsigned, ht⟩) (fun _ ht => .inr ht) hitem⟩

/-! ### Two digests -/

theorem length_mlDsaKey (seed : Bytes32) : (seed.1 ++ replicate 1920 0).length = 1952 := by
  rw [length_append, seed.2, length_replicate]

theorem length_mlDsaSignature (seed : Bytes32) (m : Bytes) :
    (seed.1 ++ ((Sha256.hash m).1 ++ replicate 3245 0)).length = 3309 := by
  rw [length_append, length_append, seed.2, (Sha256.hash m).2, length_replicate]

/-- A key that is its seed, and signatures that are the key and the hash of the message: each
message has the one signature that its key accepts. -/
def twoSchemes : Schemes :=
  { standard with
    isKey := fun _ => true
    mlDsaKey := fun seed => ⟨seed.1 ++ replicate 1920 0, length_mlDsaKey seed⟩
    mlDsaSign := fun seed m context => some
      ⟨seed.1 ++ ((Sha256.hash (context ++ m)).1 ++ replicate 3245 0),
        length_mlDsaSignature seed (context ++ m)⟩
    mlDsaDecodes := fun _ => true
    mlDsaVerify := fun vk m context sig =>
      sig.1 = vk.1.take 32 ++ ((Sha256.hash (context ++ m)).1 ++ replicate 3245 0) }

def twoSigner : HybridSigner := ⟨seedOf 0, seedOf 0⟩

theorem toMlDsaKey_val (key : MlDsaKey) : toMlDsaKey key.1 = some key := dif_pos key.2

theorem toMlDsaSignature_val (signature : MlDsaSignature) :
    toMlDsaSignature signature.1 = some signature := dif_pos signature.2

theorem signs_two (signer : HybridSigner) : Signs twoSchemes signer := by
  intro digest signature h
  cases h
  refine verify_eq_ok_iff.2 ⟨_, _, _, toBytes64_val _, toMlDsaKey_val _,
    toMlDsaSignature_val ⟨_, length_mlDsaSignature _ _⟩, rfl, signs_standard _ _, rfl,
    decide_eq_true ?_⟩
  exact congrArg (· ++ _) (take_left' signer.mlDsa.2).symm

theorem two_lt_pow : [leafA, leafB].length < 2 ^ 64 := by decide

def twoDigests : Digests := ⟨[leafA, leafB], two_lt_pow⟩

/-- The hashes of the two digests as leaves, and of the pair. -/
def twoLeaf1 : Bytes32 :=
  digestOf 0x810110ea5bff4349a1327fbdb6ecc944a2980d614dd0a6a0af3be737fb0b513b

def twoLeaf2 : Bytes32 :=
  digestOf 0x3ce17a3ef4b5a9a591bc498d15d06f8efcc8f94ebfbb05b181ede8e2e7b065f1

def twoRoot : Bytes32 := digestOf 0x77ac0b47c56fd692b3c4a95a0c4ce91a5f57fd9973c9ca9ac430221ec7b971f7

theorem batchLeaves_two : batchLeaves twoSchemes twoDigests.1 = [twoLeaf1, twoLeaf2] := by
  decide +kernel

theorem rootOf_two : twoSchemes.hashing.rootOf [twoLeaf1, twoLeaf2] = twoRoot := by
  rw [rootOf_pair]
  decide +kernel

theorem batchHead_two : batchHead twoSchemes twoDigests = ⟨2, twoRoot⟩ := by
  rw [batchHead_eq, batchLeaves_two, headOf, rootOf_two]
  rfl

theorem allInclusionProofs_two :
    twoSchemes.hashing.allInclusionProofs [twoLeaf1, twoLeaf2] = [[twoLeaf2], [twoLeaf1]] := by
  rw [allInclusionProofs, if_neg (by simp), rootAndProofs_of_two_le (by simp)]
  simp [show split 2 = 1 by decide, rootAndProofs]

theorem signBatch_two : ∃ signature, twoSigner.signBatch twoSchemes twoDigests.1 =
    .ok (⟨2, twoRoot, signature⟩, [⟨0, [twoLeaf2]⟩, ⟨1, [twoLeaf1]⟩]) := by
  rw [HybridSigner.signBatch, if_neg (by simp [twoDigests])]
  simp only [batchLeaves_two, rootOf_two, allInclusionProofs_two]
  exact ⟨_, rfl⟩

/-- What is hashed for the batch of two and for its second item. -/
def twoTexts : List Bytes :=
  [batchText 2 twoRoot, leafText leafA.1, leafText leafB.1, nodeText (twoLeaf1, twoLeaf2)]

theorem collisionFree_twoTexts : twoSchemes.CollisionFree {t | t ∈ twoTexts} :=
  fun _ hs _ ht => inj_on_of_nodup_map (f := twoSchemes.sha256) (by decide +kernel) hs ht

theorem signedTexts_two : signedTexts twoSchemes twoDigests = twoTexts := by
  have hmap : [leafA.1, leafB.1].map twoSchemes.leafHash = [twoLeaf1, twoLeaf2] := batchLeaves_two
  rw [signedTexts, batchHead_two, rootTexts, if_neg (by simp [twoDigests])]
  simp only [twoDigests, map_cons, map_nil] at hmap ⊢
  rw [hmap, rootPairs_pair]
  rfl

theorem itemTexts_two (signature : HybridSignature) : ∀ t ∈ itemTexts twoSchemes
    ⟨2, twoRoot, signature⟩ leafB ⟨1, [twoLeaf1]⟩, t ∈ twoTexts := by
  have hleaf : twoSchemes.leafHash leafB.1 = twoLeaf2 := by decide +kernel
  have hpairs : twoSchemes.hashing.inclusionPairs 1 2 twoLeaf2 [twoLeaf1] =
      [(twoLeaf1, twoLeaf2)] := by decide +kernel
  have hone : (1 : UInt64).toNat = 1 := rfl
  have htwo : (2 : UInt64).toNat = 2 := rfl
  simp [itemTexts, hleaf, hone, htwo, hpairs, twoTexts]

/-- The second item of the batch of two. -/
theorem signBatch_complete_sound_two :
    ∃ batch items, twoSigner.signBatch twoSchemes twoDigests.1 = .ok (batch, items) ∧
      ∃ item, items[1]? = some item ∧
        verifyBatchItem twoSchemes (twoSigner.publicKey twoSchemes) leafB item batch = .ok () ∧
        ∃ signed ∈ ({twoDigests} : Set Digests), batch.size.toNat = signed.1.length ∧
          signed.1[item.index.toNat]? = some leafB := by
  obtain ⟨-, hcomplete, -, hsound⟩ := signBatch_complete_sound twoSchemes twoSigner twoDigests
  obtain ⟨signature, hsigned⟩ := signBatch_two
  obtain ⟨-, verified, hverified, haccepts⟩ := hcomplete (signs_two _) _ _ hsigned
  obtain ⟨-, hitem⟩ := haccepts 1 leafB ⟨1, [twoLeaf1]⟩ rfl rfl
  have hok := verifyBatchItem_eq_ok_iff.2 ⟨verified, hverified, hitem⟩
  have hunforged : Unforged twoSchemes (twoSigner.publicKey twoSchemes) {twoDigests}
      ⟨2, twoRoot, signature⟩ := by
    intro _
    refine ⟨twoDigests, rfl, ?_⟩
    rw [batchHead_two]
    rfl
  have htexts : {t | (∃ signed ∈ ({twoDigests} : Set Digests), t ∈ signedTexts twoSchemes signed) ∨
      t ∈ itemTexts twoSchemes ⟨2, twoRoot, signature⟩ leafB ⟨1, [twoLeaf1]⟩} ⊆
        {t | t ∈ twoTexts} := by
    rintro t (⟨signed, rfl, ht⟩ | ht)
    · exact signedTexts_two ▸ ht
    · exact itemTexts_two signature t ht
  obtain ⟨signed, hmem, hsize, -, hdigest⟩ :=
    hsound _ _ hunforged _ _ (collisionFree_twoTexts.mono htexts) hok
  exact ⟨_, _, hsigned, _, rfl, hok, signed, hmem, hsize, hdigest⟩

end Batch

end Calybris.Hybrid
