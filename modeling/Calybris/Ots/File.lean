import Calybris.Ots.Canonical
import Calybris.Ots.Detached

/-!
# Timestamp files

A file that is accepted is the text of one `File`: a spelling of the version, a digest, and
a proof tree whose operations have results. Trees that differ in the order of their
branches, in branches that are repeated or share an operation, and in how numbers are
spelled show the same, and so have the same value. The value is written as such a file
again, the shortest one: `parse_serialize`.
-/

namespace Calybris.Ots

open Text Note Parse List DetachedTimestamp

def Branches.append : Branches → Branches → Branches
  | .last branch, q => .fork branch q
  | .fork branch p, q => .fork branch (p.append q)

mutual

/-- The branches differ in how numbers are spelled, and behind operations as nodes may. -/
inductive Branch.Same : Branch → Branch → Prop where
  | attestation {s s' : Spelling AttestationText} (h : s.value = s'.value) :
      Branch.Same (.attestation s) (.attestation s')
  | op {s s' : Spelling OpText} {p p' : Branches} (h : s.value = s'.value)
      (hchild : Branches.Same p p') : Branch.Same (.op s p) (.op s' p')

/-- The nodes differ in the order of their branches, in branches that are repeated or share
an operation, and in their branches as these may. -/
inductive Branches.Same : Branches → Branches → Prop where
  | last {b b' : Branch} (h : Branch.Same b b') : Branches.Same (.last b) (.last b')
  | fork {b b' : Branch} {p p' : Branches} (h : Branch.Same b b') (hrest : Branches.Same p p') :
      Branches.Same (.fork b p) (.fork b' p')
  | swap (b b' : Branch) (p : Branches) :
      Branches.Same (.fork b (.fork b' p)) (.fork b' (.fork b p))
  | swapLast (b b' : Branch) : Branches.Same (.fork b (.last b')) (.fork b' (.last b))
  | dup (b : Branch) (p : Branches) : Branches.Same (.fork b (.fork b p)) (.fork b p)
  | dupLast (b : Branch) : Branches.Same (.fork b (.last b)) (.last b)
  | share (s : Spelling OpText) (p p' q : Branches) :
      Branches.Same (.fork (.op s p) (.fork (.op s p') q)) (.fork (.op s (p.append p')) q)
  | shareLast (s : Spelling OpText) (p p' : Branches) :
      Branches.Same (.fork (.op s p) (.last (.op s p'))) (.last (.op s (p.append p')))
  | symm {p p' : Branches} (h : Branches.Same p p') : Branches.Same p' p
  | trans {p p' q : Branches} (h : Branches.Same p p') (h' : Branches.Same p' q) :
      Branches.Same p q

end

theorem Branches.shows_append (p q : Branches) (path : List Op) (a : Attestation) :
    (p.append q).Shows path a ↔ p.Shows path a ∨ q.Shows path a := by
  cases p with
  | last branch => exact Iff.rfl
  | fork branch p => rw [append, Branches.Shows, p.shows_append, Branches.Shows, or_assoc]

theorem Branches.Same.shows_iff {p p' : Branches} (h : Branches.Same p p') :
    ∀ path a, p.Shows path a ↔ p'.Shows path a := by
  have hshare (s : Spelling OpText) (p p' : Branches) (path : List Op) (a : Attestation) :
      (Branch.op s (p.append p')).Shows path a ↔
        (Branch.op s p).Shows path a ∨ (Branch.op s p').Shows path a := by
    simp only [Branch.Shows, shows_append, and_or_left, exists_or]
  refine @Branches.Same.rec (fun b b' _ => ∀ path a, b.Shows path a ↔ b'.Shows path a)
    (fun p p' _ => ∀ path a, p.Shows path a ↔ p'.Shows path a)
    ?attestation ?op ?last ?fork ?swap ?swapLast ?dup ?dupLast ?share ?shareLast ?symm ?trans p p' h
  case attestation =>
    intro s s' h path a
    simp only [Branch.Shows, h]
  case op =>
    intro s s' p p' h _ ih path a
    simp only [Branch.Shows, h, ih]
  case last => exact fun _ ih => ih
  case fork => exact fun _ _ ih ihrest path a => or_congr (ih path a) (ihrest path a)
  case swap => exact fun _ _ _ _ _ => or_left_comm
  case swapLast => exact fun _ _ _ _ => or_comm
  case dup => exact fun _ _ _ _ => or_self_left
  case dupLast => exact fun _ _ _ => or_self_iff
  case share =>
    intro s p p' q path a
    simp only [Branches.Shows, hshare, or_assoc]
  case shareLast =>
    intro s p p' path a
    simp only [Branches.Shows, hshare]
  case symm => exact fun _ ih path a => (ih path a).symm
  case trans => exact fun _ _ ih ih' path a => (ih path a).trans (ih' path a)

/-- An accepted file: the magic, a spelling of the version, the digest and the proof. -/
@[ext]
structure File where
  version : {text : Bytes // VaruintText text 1}
  digest : Bytes32
  proof : Branches

namespace File

def bytes (file : File) : Bytes :=
  magic ++ (file.version.1 ++ Op.sha256.tag :: (file.digest.1 ++ file.proof.text))

/-- The files differ in the spelling of numbers, the order of branches, and branches that
are repeated or share an operation. -/
def Same (file file' : File) : Prop :=
  file.digest = file'.digest ∧ file.proof.Same file'.proof

end File

section Parse

variable {H : Hashes}

theorem parses_readFile : Parses (DetachedTimestamp.readFile H) fun text t =>
    ∃ file : File, text = file.version.1 ++ Op.sha256.tag :: (file.digest.1 ++ file.proof.text) ∧
      file.proof.Evaluates H maxDepth file.digest.1 ∧
      t = file.proof.build H (.new file.digest.1) := by
  refine (parses_varuint.bind fun version => Parses.ite (fun _ => parses_throw) fun _ =>
    parses_byte.bind fun tag => Parses.ite (fun _ => parses_throw) fun _ =>
      (parses_take 32).bind fun digest => parses_read maxDepth digest.1).congr fun text t => ?_
  constructor
  · rintro ⟨version, spelled, _, rfl, hspelled, h⟩
    split_ifs at h with hversion
    obtain ⟨tag, _, _, rfl, rfl, h⟩ := h
    split_ifs at h with htag
    obtain ⟨digest, _, _, rfl, rfl, p, rfl, heval, rfl⟩ := h
    rw [not_not] at hversion htag
    subst hversion htag
    exact ⟨⟨⟨spelled, hspelled⟩, digest, p⟩, rfl, heval, rfl⟩
  · rintro ⟨⟨⟨spelled, hspelled⟩, digest, p⟩, rfl, heval, rfl⟩
    refine ⟨1, spelled, _, rfl, hspelled, (if_neg (not_not.2 rfl)).mpr ?_⟩
    refine ⟨Op.sha256.tag, [Op.sha256.tag], _, rfl, rfl, (if_neg (not_not.2 rfl)).mpr ?_⟩
    exact ⟨digest, _, _, rfl, rfl, p, rfl, heval, rfl⟩

theorem parse_eq_ok_iff {bytes : Bytes} {t : DetachedTimestamp} :
    parse H bytes = .ok t ↔
      ∃ file : File, bytes = file.bytes ∧ bytes.length ≤ maxProofBytes ∧
        file.proof.Evaluates H maxDepth file.digest.1 ∧
        t.timestamp = file.proof.build H (.new file.digest.1) := by
  rw [parse]
  split_ifs with hlarge hmagic
  · exact iff_of_false nofun fun ⟨_, _, hle, _⟩ => absurd hle (not_le.2 hlarge)
  · obtain ⟨rest, rfl⟩ := isPrefixOf_iff_prefix.1 hmagic
    rw [drop_left, parses_readFile.map_runAll_eq_ok_iff]
    simp only [File.bytes, append_cancel_left_eq]
    constructor
    · rintro ⟨_, ⟨file, rfl, heval, rfl⟩, rfl⟩
      exact ⟨file, rfl, not_lt.1 hlarge, heval, rfl⟩
    · rintro ⟨file, rfl, -, heval, ht⟩
      exact ⟨_, ⟨file, rfl, heval, rfl⟩, by rw [← ht]⟩
  · refine iff_of_false nofun ?_
    rintro ⟨file, rfl, -⟩
    exact hmagic ( isPrefixOf_iff_prefix.2 (prefix_append _ _))

theorem exists_parse (file : File) (hle : file.bytes.length ≤ maxProofBytes)
    (heval : file.proof.Evaluates H maxDepth file.digest.1) :
    ∃ t, parse H file.bytes = .ok t :=
  ⟨⟨file.proof.build H (.new file.digest.1)⟩, parse_eq_ok_iff.2 ⟨file, rfl, hle, heval, rfl⟩⟩

end Parse

section RoundTrip

variable {H : Hashes}

theorem File.bytes_inj {file file' : File} (h : file.bytes = file'.bytes) : file = file' := by
  obtain ⟨hversion, -, htail⟩ :=
    parses_varuint.inj file.version.2 file'.version.2 (append_cancel_left h)
  obtain ⟨hdigest, hproof⟩ :=
    append_inj (cons.inj htail).2 (file.digest.2.trans file'.digest.2.symm)
  exact File.ext (Subtype.ext hversion) (Subtype.ext hdigest)
    (Branches.text_inj (congrArg (· ++ []) hproof)).1

theorem parse_serialize_eq_ok_iff {depth : Nat} {t t' : DetachedTimestamp}
    (h : t.timestamp.Proper H depth) (hlength : t.digest.length = 32) :
    parse H t.serialize = .ok t' ↔
      (∀ path a, t.timestamp.Shows path a → path.length < maxDepth) ∧
        t.serialize.length ≤ maxProofBytes ∧ t' = t := by
  obtain ⟨p, htext, -, hshows⟩ := h.exists_branches
  let file : File := ⟨⟨[majorVersion], varuintText_writeVaruint 1⟩, ⟨t.digest, hlength⟩, p⟩
  have hbytes : t.serialize = file.bytes := by
    rw [File.bytes, htext]
    rfl
  have hbuild (heval : p.Evaluates H maxDepth t.digest) :
      p.build H (.new t.digest) = t.timestamp :=
    (Timestamp.proper_build heval).ext h (p.msg_build _) fun path a =>
      (Timestamp.shows_build_new p _ path a).trans (hshows path a)
  rw [← h.ordered.iff_length_lt h.attests, hbytes, parse_eq_ok_iff]
  constructor
  · rintro ⟨file', hfile, hle, heval, ht'⟩
    cases File.bytes_inj hfile
    have ht := hbuild heval
    exact ⟨ht ▸ (Timestamp.proper_build heval).ordered, hle, congrArg mk (ht'.trans ht)⟩
  · rintro ⟨hordered, hle, rfl⟩
    obtain ⟨q, hq, heval, -⟩ := Timestamp.Proper.exists_branches ⟨hordered, h.sound, h.attests⟩
    cases (Branches.text_inj (congrArg (· ++ []) (hq.trans htext.symm))).1
    exact ⟨file, rfl, hle, heval, (hbuild heval).symm⟩

theorem proper_of_parse {bytes : Bytes} {t : DetachedTimestamp}
    (h : parse H bytes = .ok t) :
    t.timestamp.Proper H maxDepth ∧ t.digest.length = 32 := by
  obtain ⟨file, -, -, heval, ht⟩ := parse_eq_ok_iff.1 h
  rw [digest, ht, file.proof.msg_build]
  exact ⟨Timestamp.proper_build heval, file.digest.2⟩

theorem length_serialize_le {bytes : Bytes} {t : DetachedTimestamp}
    (h : parse H bytes = .ok t) : t.serialize.length ≤ bytes.length := by
  obtain ⟨hproper, -⟩ := proper_of_parse h
  have hlength := hproper.ordered.length_write hproper.attests
  obtain ⟨file, rfl, -, -, ht⟩ := parse_eq_ok_iff.1 h
  have hversion : file.version.1.length ≠ 0 := by
    obtain ⟨_ | ⟨b, text⟩, hgroups, -⟩ := file.version
    · nomatch hgroups
    · exact Nat.succ_ne_zero _
  have hweight := file.proof.weight_build_le (H := H) (.new file.digest.1)
  rw [← ht, Timestamp.weight_new] at hweight
  have hmsg : t.timestamp.msg = file.digest.1 := by rw [ht, file.proof.msg_build]; rfl
  simp only [serialize, File.bytes, length_append, length_cons, hmsg]
  omega

/-- A file that is accepted is written again as a file that is accepted, with the same
value, and not longer. Files that differ in the spelling of numbers, in the order of
branches, or in branches that are repeated or share an operation have the same value. -/
theorem parse_serialize (H : Hashes) :
    (∀ bytes t, parse H bytes = .ok t →
      parse H t.serialize = .ok t ∧ t.serialize.length ≤ bytes.length) ∧
    (∀ bytes t, parse H bytes = .ok t → ∃! file : File, bytes = file.bytes) ∧
    ∀ file file' : File, file.Same file' → ∀ t t',
      parse H file.bytes = .ok t →
      parse H file'.bytes = .ok t' → t = t' := by
  refine ⟨fun bytes t h => ?_, fun bytes t h => ?_, fun file file' hsame t t' h h' => ?_⟩
  · obtain ⟨hproper, hdigest⟩ := proper_of_parse h
    obtain ⟨_, rfl, hle, -⟩ := parse_eq_ok_iff.1 h
    have hlength := length_serialize_le h
    exact ⟨(parse_serialize_eq_ok_iff hproper hdigest).2
      ⟨(hproper.ordered.iff_length_lt hproper.attests).1 hproper.ordered, hlength.trans hle, rfl⟩,
      hlength⟩
  · obtain ⟨file, rfl, -⟩ := parse_eq_ok_iff.1 h
    exact ⟨file, rfl, fun file' hfile' => File.bytes_inj hfile'.symm⟩
  · obtain ⟨f, hf, -, heval, ht⟩ := parse_eq_ok_iff.1 h
    obtain ⟨f', hf', -, heval', ht'⟩ := parse_eq_ok_iff.1 h'
    cases File.bytes_inj hf
    cases File.bytes_inj hf'
    refine congrArg mk ((proper_of_parse h).1.ext (proper_of_parse h').1 ?_ ?_)
    · rw [ht, ht', file.proof.msg_build, file'.proof.msg_build, hsame.1]
    · simp only [ht, ht', Timestamp.shows_build_new, hsame.2.shows_iff, implies_true]

end RoundTrip

/-! ### A step of a Merkle path

The last step of a path to the Merkle root of Bitcoin block 358391. -/

section MerkleStep

def ofTable (table : List (Bytes × Bytes32)) : Hashes where
  sha256 msg := (table.lookup msg).getD zeroHash
  ripemd160 _ := ⟨replicate 20 0, rfl⟩

def stepDigest : Bytes32 :=
  digestOf 0x3f10376d0aebb4647ff550b60d69ba5ad6b6809d51af6a6476e0312a9433a3bf

def stepSibling : Bytes32 :=
  digestOf 0x0be23709859913babd4460bbddf8ed213e7c8773a4b1face30f8acfdf093b705

def stepHash : Bytes32 :=
  digestOf 0xfaa6e88835c144ad73f48992bc05e691a52a9199df02450194f3a03b530dc2d7

def stepRoot : Bytes32 :=
  digestOf 0x007ee445d23ad061af4a36b809501fab1ac4f2d7e7a739817dd0cbb7ec661b8a

def stepTable : List (Bytes × Bytes32) :=
  [(stepSibling.1 ++ stepDigest.1, stepHash), (stepHash.1, stepRoot)]

def stepPrepend : Spelling OpText where
  text := (Op.prepend stepSibling.1).write
  value := .prepend stepSibling.1
  spells := ⟨_, rfl, by decide, varbytesText_writeVarbytes (by decide) (by decide)⟩

def stepSha256 : Spelling OpText where
  text := [Op.sha256.tag]
  value := .sha256
  spells := ⟨[], rfl, rfl⟩

def stepAttestation : Spelling AttestationText where
  text := (Attestation.bitcoin 358391).write
  value := .bitcoin 358391
  spells := ⟨_, _, rfl, varbytesText_writeVarbytes (by decide) (by decide),
    varuintText_writeVaruint _⟩

/-- The height with a group too many. -/
def stepAttestationLong : Spelling AttestationText where
  text := bitcoinTag.1 ++ [4, 0xf7, 0xef, 0x95, 0x00]
  value := .bitcoin 358391
  spells := ⟨_, [0xf7, 0xef, 0x95, 0x00], rfl,
    ⟨by decide, [4], 4, ⟨.last (by decide), by decide⟩, rfl, rfl⟩,
    ⟨.more (by decide) (.more (by decide) (.more (by decide) (.last (by decide)))), by decide⟩⟩

def stepBranch (spelling : Spelling AttestationText) : Branch :=
  .op stepPrepend (.last (.op stepSha256 (.last (.op stepSha256 (.last (.attestation spelling))))))

def stepFile : File where
  version := ⟨[1], varuintText_writeVaruint 1⟩
  digest := stepDigest
  proof := .last (stepBranch stepAttestation)

/-- The branch twice, and numbers with a group too many. -/
def stepFileTwice : File where
  version := ⟨[0x81, 0x00], .more (by decide) (.last (by decide)), by decide⟩
  digest := stepDigest
  proof := .fork (stepBranch stepAttestation) (.last (stepBranch stepAttestationLong))

theorem stepFile_same : stepFile.Same stepFileTwice := by
  have hbranch : (stepBranch stepAttestation).Same (stepBranch stepAttestationLong) :=
    .op rfl (.last (.op rfl (.last (.op rfl (.last (.attestation rfl))))))
  have hrefl : (stepBranch stepAttestation).Same (stepBranch stepAttestation) :=
    .op rfl (.last (.op rfl (.last (.op rfl (.last (.attestation rfl))))))
  exact ⟨rfl, (Branches.Same.dupLast _).symm.trans (.fork hrefl (.last hbranch))⟩

theorem stepBranch_evaluates {H : Hashes}
    (hhash : H.sha256 (stepSibling.1 ++ stepDigest.1) = stepHash)
    (hroot : H.sha256 stepHash.1 = stepRoot) (spelling : Spelling AttestationText) (depth : Nat) :
    (stepBranch spelling).Evaluates H (depth + 3) stepDigest.1 := by
  refine ⟨stepSibling.1 ++ stepDigest.1, rfl, stepHash.1, ?_, stepRoot.1, ?_, trivial⟩
  · rw [← hhash]
    exact nextMsg_sha256 _
  · rw [← hroot]
    exact nextMsg_sha256 _

/-- Both files are accepted, and have one value. -/
theorem parse_serialize_step :
    stepFile.bytes ≠ stepFileTwice.bytes ∧ stepFile.Same stepFileTwice ∧
      ∃ t, parse (ofTable stepTable) stepFile.bytes = .ok t ∧
        parse (ofTable stepTable) stepFileTwice.bytes = .ok t ∧
        parse (ofTable stepTable) t.serialize = .ok t ∧
        t.serialize.length ≤ stepFileTwice.bytes.length := by
  have heval (spelling : Spelling AttestationText) :
      (stepBranch spelling).Evaluates (ofTable stepTable) (252 + 3) stepDigest.1 :=
    stepBranch_evaluates (by decide) (by decide) spelling 252
  obtain ⟨t, ht⟩ := exists_parse stepFile (by decide +kernel) (heval _)
  obtain ⟨t', ht'⟩ := exists_parse stepFileTwice (by decide +kernel) ⟨heval _, heval _⟩
  obtain ⟨hwrite, -, hsame⟩ := parse_serialize (ofTable stepTable)
  obtain rfl := hsame _ _ stepFile_same t t' ht ht'
  exact ⟨by decide, stepFile_same, t, ht, ht', hwrite _ t ht'⟩

end MerkleStep

end Calybris.Ots
