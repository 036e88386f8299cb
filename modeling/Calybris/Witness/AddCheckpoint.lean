import Calybris.Merkle.History
import Calybris.Note.Tree

/-!
# A witness handles a request

`addCheckpoint` cut at the two points where it touches its store. `authenticate` is what
comes before the store is read: the clock, the note, the log and its signature.
`checkLatest` is what is done with the head that was read. The rest is a
compare-and-swap and the signature.
-/

namespace Calybris.Witnesses

open Text Merkle Note

/-- An `add-checkpoint` request: the size the client believes the witness last
cosigned, the consistency proof from it, and the note signed by the log. -/
structure AddCheckpoint where
  oldSize : Nat
  proof : List Bytes32
  note : List Char
  deriving DecidableEq

inductive WitnessError where
  | malformed (reason : String)
  | badCheckpoint (error : CheckpointError)
  | unknownLog (origin : List Char)
  | badLogSignature
  | conflict (latest : Nat)
  | shrinking
  | badProof
  | store (reason : String)
  | badClock (now : Nat)
  deriving DecidableEq

structure Witness where
  signer : WitnessSigner
  logs : List Char → Option NoteVerifier

abbrev Store := List Char → Option (TreeHead Bytes32)

def compareAndSwap (store : Store) (origin : List Char) (expected : Option (TreeHead Bytes32))
    (new : TreeHead Bytes32) : Option Store :=
  if store origin = expected then some (Function.update store origin (some new)) else none

variable (P : Primitives)

/-- The request up to the read of the store: a note with its checkpoint, signed by
the key of the log its origin names. -/
def authenticate (witness : Witness) (request : AddCheckpoint) (now : Nat) :
    Except WitnessError (SignedNote × Checkpoint) :=
  if now = 0 ∨ now > 2 ^ 63 - 1 then .error (.badClock now)
  else
    match SignedNote.parse P request.note with
    | .error error => .error (.badCheckpoint error)
    | .ok note =>
      match note.checkpoint P with
      | .error error => .error (.badCheckpoint error)
      | .ok checkpoint =>
        match witness.logs checkpoint.origin with
        | none => .error (.unknownLog checkpoint.origin)
        | some key =>
          match note.verify P key with
          | .error _ => .error .badLogSignature
          | .ok () => .ok (note, checkpoint)

def latestSize (latest : Option (TreeHead Bytes32)) : Nat := (latest.map TreeHead.size).getD 0

/-- Does the new head extend the one last cosigned? Anything but the empty tree
extends the empty tree, which has exactly one root. -/
def extendsLatest (latest : Option (TreeHead Bytes32)) (new : TreeHead Bytes32)
    (proof : List Bytes32) : Bool :=
  match latest.filter fun old => 0 < old.size with
  | some old => (P.hashing.verifyConsistency old new proof).isOk
  | none => proof = [] && (0 < new.size || new.root = P.hashing.emptyRoot)

def checkLatest (latest : Option (TreeHead Bytes32)) (request : AddCheckpoint)
    (new : TreeHead Bytes32) : Except WitnessError Unit :=
  if request.oldSize ≠ latestSize latest then .error (.conflict (latestSize latest))
  else if new.size < request.oldSize then .error .shrinking
  else if extendsLatest P latest new request.proof then .ok ()
  else .error .badProof

/-- The consistency check that `checkLatest` makes, if it comes to one. -/
def checksMade (latest : Option (TreeHead Bytes32)) (request : AddCheckpoint)
    (new : TreeHead Bytes32) : List (Check Bytes32) :=
  if request.oldSize = latestSize latest ∧ request.oldSize ≤ new.size then
    ((latest.filter fun old => 0 < old.size).map fun old => ⟨old, new, request.proof⟩).toList
  else []

def addCheckpoint (witness : Witness) (store : Store) (request : AddCheckpoint) (now : Nat) :
    Except WitnessError NoteSignature × Store :=
  match authenticate P witness request now with
  | .error error => (.error error, store)
  | .ok (note, checkpoint) =>
    let latest := store checkpoint.origin
    match checkLatest P latest request checkpoint.head with
    | .error error => (.error error, store)
    | .ok () =>
      match compareAndSwap store checkpoint.origin latest checkpoint.head with
      | none => (.error (.conflict (latestSize (store checkpoint.origin))), store)
      | some store' =>
        match witness.signer.cosign P note.text now with
        | .error error => (.error (.badCheckpoint error), store')
        | .ok line => (.ok line, store')

section Checks

variable {P} {latest : Option (TreeHead Bytes32)} {request : AddCheckpoint}
  {new old : TreeHead Bytes32} {leaves : TreeHead Bytes32 → List Bytes32}
  {seen : List (TreeHead Bytes32)} {checks : List (Check Bytes32)}

structure Authentic (P : Primitives) (witness : Witness) (request : AddCheckpoint) (now : Nat)
    (note : SignedNote) (checkpoint : Checkpoint) : Prop where
  now_pos : 0 < now
  now_le : now ≤ maxCosignatureTime
  parse : SignedNote.parse P request.note = .ok note
  checkpoint_eq : note.checkpoint P = .ok checkpoint
  signed : ∃ key, witness.logs checkpoint.origin = some key ∧ note.verify P key = .ok ()

theorem authentic_of_authenticate {witness : Witness} {now : Nat} {note : SignedNote}
    {checkpoint : Checkpoint} (h : authenticate P witness request now = .ok (note, checkpoint)) :
    Authentic P witness request now note checkpoint := by
  unfold authenticate at h
  split_ifs at h with hnow
  split at h
  · cases h
  next note' hparse =>
  split at h
  · cases h
  next checkpoint' hcheckpoint =>
  split at h
  · cases h
  next key hkey =>
  split at h
  · cases h
  next hverify =>
  cases h
  rw [not_or] at hnow
  exact ⟨Nat.pos_of_ne_zero hnow.1, Nat.le_of_not_lt hnow.2, hparse, hcheckpoint, key, hkey,
    hverify⟩

theorem checkLatest_eq_ok (h : checkLatest P latest request new = .ok ()) :
    request.oldSize = latestSize latest ∧ latestSize latest ≤ new.size ∧
      extendsLatest P latest new request.proof = true := by
  unfold checkLatest at h
  split_ifs at h with hconflict hshrink hextends
  rw [not_not] at hconflict
  exact ⟨hconflict, by omega, hextends⟩

theorem extendsLatest_of_pos (hpos : 0 < old.size)
    (h : extendsLatest P (some old) new request.proof = true) :
    P.hashing.verifyConsistency old new request.proof = .ok () := by
  rw [extendsLatest, Option.filter_some_pos (by simpa using hpos)] at h
  cases hverify : P.hashing.verifyConsistency old new request.proof with
  | error error =>
    simp only [hverify] at h
    cases h
  | ok _ => rfl

theorem extendsLatest_of_zero (hzero : latestSize latest = 0)
    (h : extendsLatest P latest new request.proof = true) :
    0 < new.size ∨ new.root = P.hashing.emptyRoot := by
  have hfilter : latest.filter (fun old => decide (0 < old.size)) = none := by
    cases latest with
    | none => rfl
    | some old =>
      have hsize : old.size = 0 := hzero
      exact Option.filter_some_neg (by simp [hsize])
  rw [extendsLatest, hfilter] at h
  simpa using (Bool.and_eq_true_iff.1 h).2

/-- A head that was checked against the latest one commits, and has it for a prefix
head. -/
theorem isPrefixHead_of_checkLatest (hist : History P.hashing leaves seen checks)
    (hnew : new ∈ seen) (h : checkLatest P latest request new = .ok ())
    (hmade : ∀ c ∈ checksMade latest request new, c ∈ checks)
    (hlatest : ∀ old, latest = some old → Commits P.hashing leaves old) :
    Commits P.hashing leaves new ∧
      ∀ old, latest = some old → IsPrefixHead P.hashing leaves old new := by
  obtain ⟨hconflict, hle, hextends⟩ := checkLatest_eq_ok h
  by_cases hzero : latestSize latest = 0
  · have hcommits : Commits P.hashing leaves new := by
      by_cases hsize : new.size = 0
      · refine commits_of_size_zero hsize ?_
        rcases extendsLatest_of_zero hzero hextends with hpos | hroot
        · omega
        · exact hroot
      · exact commits_of_seen hist hnew (by omega)
    refine ⟨hcommits, ?_⟩
    rintro old rfl
    exact isPrefixHead_of_size_zero (hlatest old rfl) hzero
  · cases latest with
    | none => exact absurd rfl hzero
    | some old =>
      have hpos : 0 < old.size := Nat.pos_of_ne_zero hzero
      have hcheck : (⟨old, new, request.proof⟩ : Check Bytes32) ∈ checks := by
        refine hmade _ ?_
        rw [checksMade, if_pos ⟨hconflict, hconflict ▸ hle⟩,
          Option.filter_some_pos (by simpa using hpos)]
        exact List.mem_singleton.2 rfl
      have hle' : old.size ≤ new.size := hle
      refine ⟨commits_of_seen hist hnew (by omega), ?_⟩
      rintro old' heq
      cases heq
      exact isPrefixHead_of_verifyConsistency hist hnew hcheck hpos
        (extendsLatest_of_pos hpos hextends)

end Checks

section Sample

def oLogs (origin : List Char) : Option NoteVerifier :=
  if origin = ['o'] then some logVerifier else none

def onesWitness : Witness := ⟨⟨onesVerifier, seedOf 1⟩, oLogs⟩

def twosWitness : Witness := ⟨⟨twosVerifier, seedOf 2⟩, oLogs⟩

def logNote (size : Nat) (root : Bytes32) (signature : Bytes64) : SignedNote :=
  ⟨headText size root, [logLine signature]⟩

/-- The first leaf of the log. -/
def request1 : AddCheckpoint := ⟨0, [], (logNote 1 leafA logSignature1).render standard⟩

/-- The second leaf, which is also the consistency proof. -/
def request2 : AddCheckpoint :=
  ⟨1, [leafB], (logNote 2 rootAB logSignature2).render standard⟩

end Sample

end Calybris.Witnesses
