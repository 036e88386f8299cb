import Calybris.Note.SignedNote

/-!
# Witness policies

A verifier trusts a list of witnesses and asks that a number of them have
cosigned. `verifyCheckpoint` checks the log's signature on a note, reads its
checkpoint and counts the valid cosignatures.
-/

namespace Calybris.Audit

open Text Merkle Note

inductive AuditError where
  | checkpoint (error : CheckpointError)
  | merkle (error : MerkleError)
  | badPolicy (reason : String)
  | quorumNotMet (got need : Nat)
  | wrongOrigin (got want : List Char)
  | shrinking
  | inconsistent
  | stale
  | cosignedInTheFuture (witness : List Char) (time latest : Nat)
  | noCheckpoint
  | timeUnproven
  | signatureUndated
  | signedAfterRevocation (existedBy revokedAt : Nat)
  | bitcoinNeedsHeight
  | anchoredAfterRevocation (height revokedHeight : Nat)
  deriving DecidableEq

def SameWitness (a b : NoteVerifier) : Prop :=
  a.key = b.key ∨ (a.name = b.name ∧ a.keyHash = b.keyHash)

instance : DecidableRel SameWitness :=
  fun _ _ => inferInstanceAs (Decidable (_ ∨ _ ∧ _))

structure WitnessPolicy where
  witnesses : List NoteVerifier
  threshold : Nat
  threshold_pos : 0 < threshold
  threshold_le : threshold ≤ witnesses.length
  cosigners : ∀ w ∈ witnesses, w.algorithm = algCosignatureV1
  distinct : witnesses.Pairwise fun a b => ¬ SameWitness a b

structure Cosigned where
  witness : List Char
  time : Nat
  deriving DecidableEq

structure Witnessed where
  note : SignedNote
  checkpoint : Checkpoint
  cosigned : List Cosigned
  threshold : Nat
  deriving DecidableEq

/-- The time by which a quorum says it had seen the checkpoint: the `threshold`-th earliest
cosignature time. `none` where the index is out of range. -/
def Witnessed.seenBy (w : Witnessed) : Option Nat :=
  w.cosigned[w.threshold - 1]?.map Cosigned.time

/-- The time since which a quorum has seen the log in this state: the `threshold`-th
latest cosignature time. `none` where the index is out of range. -/
def Witnessed.freshAsOf (w : Witnessed) : Option Nat :=
  w.cosigned[w.cosigned.length - w.threshold]?.map Cosigned.time

namespace WitnessPolicy

def new (witnesses : List NoteVerifier) (threshold : Nat) : Except AuditError WitnessPolicy :=
  if hpos : threshold = 0 then .error (.badPolicy "threshold must be at least one")
  else if hle : threshold > witnesses.length then
    .error (.badPolicy "threshold exceeds the number of witnesses")
  else if hcosigners : ∀ w ∈ witnesses, w.algorithm = algCosignatureV1 then
    if hdistinct : witnesses.Pairwise fun a b => ¬ SameWitness a b then
      .ok ⟨witnesses, threshold, Nat.pos_of_ne_zero hpos, Nat.le_of_not_lt hle, hcosigners,
        hdistinct⟩
    else .error (.badPolicy "a witness is listed twice")
  else .error (.badPolicy "witness keys must be cosignature/v1 keys")

theorem new_eq_ok {witnesses : List NoteVerifier} {threshold : Nat} {policy : WitnessPolicy}
    (h : new witnesses threshold = .ok policy) :
    policy.witnesses = witnesses ∧ policy.threshold = threshold := by
  unfold new at h
  split_ifs at h
  cases h
  exact ⟨rfl, rfl⟩

variable (P : Primitives)

def cosignatures (policy : WitnessPolicy) (note : SignedNote) : List Cosigned :=
  policy.witnesses.filterMap fun w =>
    (note.cosignatureTime P w).toOption.map fun time => ⟨w.name, time⟩

end WitnessPolicy

def earliest : List Cosigned → Option Cosigned
  | [] => none
  | c :: cs => some (cs.foldl (fun best c => if c.time < best.time then c else best) c)

variable (P : Primitives)

/-- The quorum check on a note that was read. -/
def verifyParsed (note : SignedNote) (checkpoint : Checkpoint) (policy : WitnessPolicy)
    (latest : Option Nat) : Except AuditError Witnessed :=
  let all := policy.cosignatures P note
  let cosigned := all.filter fun c => latest.all fun l => c.time ≤ l
  let ahead := all.filter fun c => !(latest.all fun l => c.time ≤ l)
  if cosigned.length < policy.threshold then
    match earliest ahead, latest with
    | some first, some latest =>
      .error (.cosignedInTheFuture first.witness first.time latest)
    | _, _ => .error (.quorumNotMet cosigned.length policy.threshold)
  else
    .ok ⟨note, checkpoint, cosigned.mergeSort fun a b => a.time ≤ b.time, policy.threshold⟩

def verifyQuorum (note : List Char) (log : NoteVerifier) (policy : WitnessPolicy)
    (latest : Option Nat) : Except AuditError Witnessed :=
  match SignedNote.parse P note with
  | .error error => .error (.checkpoint error)
  | .ok note =>
    match note.verify P log with
    | .error error => .error (.checkpoint error)
    | .ok () =>
      match note.checkpoint P with
      | .error error => .error (.checkpoint error)
      | .ok checkpoint => verifyParsed P note checkpoint policy latest

def verifyCheckpoint (note : List Char) (log : NoteVerifier) (policy : WitnessPolicy) :
    Except AuditError Witnessed := verifyQuorum P note log policy none

/-- The same at time `now`: a cosignature dated after `now + maxSkew` is not counted. -/
def verifyCheckpointAt (note : List Char) (log : NoteVerifier) (policy : WitnessPolicy)
    (now maxSkew : Nat) : Except AuditError Witnessed :=
  verifyQuorum P note log policy (some (min (now + maxSkew) (2 ^ 64 - 1)))

section Accepted

/-- What an accepted note is: its own note and checkpoint, with a quorum of the policy's
cosignatures on it, earliest first. -/
structure Accepted (text : List Char) (log : NoteVerifier) (policy : WitnessPolicy)
    (latest : Option Nat) (w : Witnessed) : Prop where
  parse : SignedNote.parse P text = .ok w.note
  verify : w.note.verify P log = .ok ()
  checkpoint : w.note.checkpoint P = .ok w.checkpoint
  cosigned : w.cosigned =
    ((policy.cosignatures P w.note).filter fun c => latest.all fun l => c.time ≤ l).mergeSort
      fun a b => a.time ≤ b.time
  threshold : w.threshold = policy.threshold
  quorum : policy.threshold ≤ w.cosigned.length

variable {P} {text : List Char} {log : NoteVerifier} {policy : WitnessPolicy}
  {latest : Option Nat} {w : Witnessed}

theorem accepted_of_verifyQuorum (h : verifyQuorum P text log policy latest = .ok w) :
    Accepted P text log policy latest w := by
  unfold verifyQuorum at h
  split at h
  · cases h
  next note hparse =>
  split at h
  · cases h
  next hverify =>
  split at h
  · cases h
  next checkpoint hcheckpoint =>
  simp only [verifyParsed] at h
  split_ifs at h with hquorum
  · split at h <;> cases h
  · cases h
    refine ⟨hparse, hverify, hcheckpoint, rfl, rfl, ?_⟩
    rw [List.length_mergeSort]
    exact Nat.le_of_not_lt hquorum

theorem verifyCheckpoint_eq_ok (h : verifyCheckpoint P text log policy = .ok w) :
    SignedNote.parse P text = .ok w.note ∧ w.note.verify P log = .ok () ∧
      w.note.checkpoint P = .ok w.checkpoint ∧
      policy.threshold ≤ (policy.cosignatures P w.note).length := by
  have haccepted := accepted_of_verifyQuorum h
  have hquorum := haccepted.quorum
  rw [haccepted.cosigned, List.length_mergeSort] at hquorum
  exact ⟨haccepted.parse, haccepted.verify, haccepted.checkpoint,
    hquorum.trans (List.length_filter_le _ _)⟩

theorem exists_verifyCheckpoint {note : SignedNote} {checkpoint : Checkpoint}
    (hparse : SignedNote.parse P text = .ok note) (hverify : note.verify P log = .ok ())
    (hcheckpoint : note.checkpoint P = .ok checkpoint)
    (hquorum : policy.threshold ≤ (policy.cosignatures P note).length) :
    ∃ w, verifyCheckpoint P text log policy = .ok w ∧ w.note = note ∧
      w.checkpoint = checkpoint := by
  have hall : (policy.cosignatures P note).filter
      (fun c => (none : Option Nat).all fun l => c.time ≤ l) = policy.cosignatures P note :=
    List.filter_eq_self.2 fun _ _ => rfl
  rw [verifyCheckpoint, verifyQuorum]
  simp only [hparse, hverify, hcheckpoint, verifyParsed, hall, if_neg hquorum.not_gt]
  exact ⟨_, rfl, rfl, rfl⟩

theorem isSome_freshAsOf_of_verifyQuorum (h : verifyQuorum P text log policy latest = .ok w) :
    w.freshAsOf.isSome := by
  have haccepted := accepted_of_verifyQuorum h
  have hpos := policy.threshold_pos
  have hquorum := haccepted.quorum
  rw [Witnessed.freshAsOf, Option.isSome_map, isSome_getElem?, haccepted.threshold]
  omega

end Accepted

end Calybris.Audit
