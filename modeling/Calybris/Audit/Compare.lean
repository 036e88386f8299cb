import Calybris.Audit.Auditor

/-!
# Comparing an auditor's view with another

`compare` takes a checkpoint that another party was shown. Two checkpoints of one size and
different roots are a split view, and the two signed notes prove it to anyone with the log's
key. Otherwise the smaller head must be the head of a prefix of the larger tree, by a
consistency proof. A head of size zero needs no proof, and its root is not looked at: a log
can sign an empty tree with any root and compare as consistent with everything.
-/

namespace Calybris.Audit

open Text Merkle Note Transition

structure SplitView where
  first : SignedNote
  second : SignedNote
  deriving DecidableEq

inductive Comparison where
  | consistent
  | splitView (view : SplitView)
  deriving DecidableEq

def SplitView.verify (P : Primitives) (view : SplitView) (log : NoteVerifier) :
    Except AuditError Unit :=
  match view.first.verify P log with
  | .error error => .error (.checkpoint error)
  | .ok () =>
    match view.second.verify P log with
    | .error error => .error (.checkpoint error)
    | .ok () =>
      match view.first.checkpoint P with
      | .error error => .error (.checkpoint error)
      | .ok a =>
        match view.second.checkpoint P with
        | .error error => .error (.checkpoint error)
        | .ok b =>
          if a.origin = b.origin ∧ a.size = b.size ∧ a.root ≠ b.root then .ok ()
          else .error .inconsistent

def bySize (a b : TreeHead Bytes32) : TreeHead Bytes32 × TreeHead Bytes32 :=
  if a.size < b.size then (a, b) else (b, a)

theorem lt_of_bySize {a b small large : TreeHead Bytes32} (h : a.size ≠ b.size)
    (hsizes : bySize a b = (small, large)) : small.size < large.size := by
  rw [bySize] at hsizes
  split_ifs at hsizes with hlt
  · cases hsizes
    exact hlt
  · cases hsizes
    omega

namespace Auditor

variable (P : Primitives)

def compareSizes (small large : TreeHead Bytes32) (proof : List Bytes32) :
    Except AuditError Comparison :=
  if small.size = 0 ∨ P.hashing.verifyConsistency small large proof = .ok () then
    .ok .consistent
  else .error .inconsistent

def compare (auditor : Auditor) (note : List Char) (proof : List Bytes32) :
    Except AuditError Comparison :=
  match auditor.latest with
  | none => .error .noCheckpoint
  | some ours =>
    match SignedNote.parse P note with
    | .error error => .error (.checkpoint error)
    | .ok theirs =>
      match theirs.verify P auditor.log with
      | .error error => .error (.checkpoint error)
      | .ok () =>
        match theirs.checkpoint P with
        | .error error => .error (.checkpoint error)
        | .ok cp =>
          if cp.origin ≠ auditor.origin then
            .error (.wrongOrigin cp.origin auditor.origin)
          else
            let a := ours.checkpoint.head
            let b := cp.head
            if a.size = b.size then
              if a.root = b.root then .ok .consistent
              else .ok (.splitView ⟨ours.note, theirs⟩)
            else compareSizes P (bySize a b).1 (bySize a b).2 proof

/-- The auditors there are: built, configured and advanced. -/
inductive Reachable : Auditor → Prop
  | new (origin : List Char) (log : NoteVerifier) (policy : WitnessPolicy) :
      Reachable (Auditor.new origin log policy)
  | withMaxAge {auditor : Auditor} (h : Reachable auditor) (seconds : Nat) :
      Reachable (auditor.withMaxAge seconds)
  | withMaxClockSkew {auditor : Auditor} (h : Reachable auditor) (seconds : Nat) :
      Reachable (auditor.withMaxClockSkew seconds)
  | advance {auditor auditor' : Auditor} {note : List Char} {proof : List Bytes32} {now : Nat}
      {result : Except AuditError Witnessed} (h : Reachable auditor)
      (hcall : auditor.advance P note proof now = some (result, auditor')) : Reachable auditor'

/-- What the latest checkpoint of an auditor is: one of its log, signed. -/
structure Holds (auditor : Auditor) (w : Witnessed) : Prop where
  verify : w.note.verify P auditor.log = .ok ()
  checkpoint : w.note.checkpoint P = .ok w.checkpoint
  origin : w.checkpoint.origin = auditor.origin

structure Compared (auditor : Auditor) (note : List Char) (ours : Witnessed)
    (theirs : SignedNote) (cp : Checkpoint) : Prop where
  latest : auditor.latest = some ours
  parse : SignedNote.parse P note = .ok theirs
  verify : theirs.verify P auditor.log = .ok ()
  checkpoint : theirs.checkpoint P = .ok cp
  origin : cp.origin = auditor.origin

variable {P} {auditor auditor' : Auditor} {note : List Char} {proof : List Bytes32} {now : Nat}

theorem Reachable.holds (h : Reachable P auditor) {w : Witnessed} (hw : auditor.latest = some w) :
    Holds P auditor w := by
  induction h with
  | new origin log policy => cases hw
  | withMaxAge h seconds ih => exact ⟨(ih hw).verify, (ih hw).checkpoint, (ih hw).origin⟩
  | withMaxClockSkew h seconds ih => exact ⟨(ih hw).verify, (ih hw).checkpoint, (ih hw).origin⟩
  | @advance auditor auditor' note proof now result h hcall ih =>
    cases result with
    | error error => exact advance_error hcall ▸ ih (advance_error hcall ▸ hw)
    | ok next =>
      obtain ⟨hquorum, horigin⟩ := of_check (check_of_advance hcall)
      have haccepted := accepted_of_verifyQuorum hquorum
      obtain ⟨rfl, -⟩ := advance_ok hcall
      cases hw
      exact ⟨haccepted.verify, haccepted.checkpoint, horigin⟩

/-- The three ways `compare` returns. -/
theorem compare_cases {comparison : Comparison}
    (h : auditor.compare P note proof = .ok comparison) :
    ∃ ours theirs cp, Compared P auditor note ours theirs cp ∧
      ((comparison = .consistent ∧ ours.checkpoint.head = cp.head) ∨
        (comparison = .splitView ⟨ours.note, theirs⟩ ∧ ours.checkpoint.size = cp.size ∧
          ours.checkpoint.root ≠ cp.root) ∨
        (comparison = .consistent ∧ ours.checkpoint.size ≠ cp.size ∧
          ((bySize ours.checkpoint.head cp.head).1.size = 0 ∨ P.hashing.verifyConsistency
            (bySize ours.checkpoint.head cp.head).1 (bySize ours.checkpoint.head cp.head).2
              proof = .ok ()))) := by
  unfold compare at h
  split at h
  · cases h
  next ours hlatest =>
  split at h
  · cases h
  next theirs hparse =>
  split at h
  · cases h
  next hverify =>
  split at h
  · cases h
  next cp hcheckpoint =>
  split_ifs at h with horigin
  refine ⟨ours, theirs, cp, ⟨hlatest, hparse, hverify, hcheckpoint, not_ne_iff.1 horigin⟩, ?_⟩
  dsimp only at h
  split_ifs at h with hsize hroot
  · refine .inl ⟨(Except.ok.inj h).symm, ?_⟩
    rw [Checkpoint.head, Checkpoint.head, TreeHead.mk.injEq]
    exact ⟨hsize, hroot⟩
  · exact .inr (.inl ⟨(Except.ok.inj h).symm, hsize, hroot⟩)
  · rw [compareSizes] at h
    split_ifs at h with hproof
    exact .inr (.inr ⟨(Except.ok.inj h).symm, hsize, hproof⟩)

/-- What a comparison shows, whatever was signed: of two heads found consistent the smaller
is the head of a prefix of the tree of the larger, exactly if it is not an empty tree with a
root of its own; and a split view verifies from scratch under the log's key. The heads of
size at least one commit to leaf lists, and the pairs hashed do not collide. -/
theorem compare_sound (P : Primitives) (auditor : Auditor) (hauditor : Reachable P auditor)
    (note : List Char) (proof : List Bytes32) :
    (auditor.compare P note proof = .ok .consistent →
      ∃ ours theirs cp, Compared P auditor note ours theirs cp ∧
        ∀ leaves small large, bySize ours.checkpoint.head cp.head = (small, large) →
          History P.hashing leaves [small, large] [⟨small, large, proof⟩] →
            (IsPrefixHead P.hashing leaves small large ↔
              (small.size = 0 → small.root = P.hashing.emptyRoot)) ∧
            (small.size = large.size → small.root = large.root)) ∧
      ∀ view, auditor.compare P note proof = .ok (.splitView view) →
        view.verify P auditor.log = .ok () := by
  constructor
  · intro h
    obtain ⟨ours, theirs, cp, hcompared, hcases⟩ := compare_cases h
    refine ⟨ours, theirs, cp, hcompared, fun leaves small large hsizes hist => ?_⟩
    obtain ⟨-, hsame⟩ | ⟨hsplit, -⟩ | ⟨-, hne, hproof⟩ := hcases
    · -- One head: it commits to its leaves, or to none of them.
      have hpair : (small, large) = (cp.head, cp.head) := by
        rw [← hsizes, hsame, bySize, if_neg (lt_irrefl _)]
      cases hpair
      refine ⟨⟨IsPrefixHead.root_of_size_zero, fun hempty => .refl ?_⟩, fun _ => rfl⟩
      rcases Nat.eq_zero_or_pos cp.head.size with hzero | hpos
      · exact commits_of_size_zero hzero (hempty hzero)
      · exact commits_of_seen hist List.mem_cons_self hpos
    · cases hsplit
    · have hlt := lt_of_bySize hne hsizes
      rw [hsizes] at hproof
      refine ⟨⟨IsPrefixHead.root_of_size_zero, fun hempty => ?_⟩, fun hsame => absurd hsame hlt.ne⟩
      rcases Nat.eq_zero_or_pos small.size with hzero | hpos
      · exact isPrefixHead_of_size_zero (commits_of_size_zero hzero (hempty hzero)) hzero
      · exact isPrefixHead_of_verifyConsistency hist (by simp) List.mem_cons_self hpos
          (hproof.resolve_left hpos.ne')
  · intro view h
    obtain ⟨ours, theirs, cp, hcompared, hcases⟩ := compare_cases h
    have hours := hauditor.holds hcompared.latest
    obtain ⟨hconsistent, -⟩ | ⟨hsplit, hsize, hroot⟩ | ⟨hconsistent, -⟩ := hcases
    · cases hconsistent
    · cases hsplit
      rw [SplitView.verify]
      simp only [hours.verify, hcompared.verify, hours.checkpoint, hcompared.checkpoint]
      exact if_pos ⟨hours.origin.trans hcompared.origin.symm, hsize, hroot⟩
    · cases hconsistent

section Compared

open View

def oneAuditor : Auditor :=
  { twoAuditor with latest := some ⟨note1, checkpoint1, [⟨['w'], 5⟩], 1⟩ }

theorem reachable_oneAuditor : Reachable standard oneAuditor := by
  have hcheck : twoAuditor.check standard (note1.render standard) 5 =
      some (.ok ⟨note1, checkpoint1, [⟨['w'], 5⟩], 1⟩) := by decide +kernel
  have hcall : twoAuditor.advance standard (note1.render standard) [] 5 =
      some (.ok ⟨note1, checkpoint1, [⟨['w'], 5⟩], 1⟩, oneAuditor) := by
    rw [Auditor.advance, hcheck]
    rfl
  exact .advance (.new ['o'] logVerifier _) hcall

/-- One leaf against two, with the proof between them. -/
theorem compare_sound_two :
    Reachable standard oneAuditor ∧
      oneAuditor.compare standard (note2.render standard) [leafB] = .ok .consistent ∧
      IsPrefixHead standard.hashing twoLeaves checkpoint1.head checkpoint2.head := by
  have hreach := reachable_oneAuditor
  have hcompare : oneAuditor.compare standard (note2.render standard) [leafB] =
      .ok .consistent := by decide +kernel
  have hparse : SignedNote.parse standard (note2.render standard) = .ok note2 := by decide +kernel
  have hcheckpoint : note2.checkpoint standard = .ok checkpoint2 := by decide +kernel
  obtain ⟨ours, theirs, cp, hcompared, hextends⟩ :=
    (compare_sound standard oneAuditor hreach _ _).1 hcompare
  obtain rfl := Option.some.inj hcompared.latest
  obtain rfl := Except.ok.inj (hcompared.parse.symm.trans hparse)
  obtain rfl := Except.ok.inj (hcompared.checkpoint.symm.trans hcheckpoint)
  exact ⟨hreach, hcompare, (hextends twoLeaves checkpoint1.head checkpoint2.head (by decide)
    history_two).1.2 (by decide)⟩

/-- An empty tree with the leaf hash of `b` for its root. -/
def checkpoint0 : Checkpoint :=
  ⟨['o'], 0, leafB, [], Checkpoint.isValidLine_o, Checkpoint.zero_lt_size,
    Checkpoint.forall_mem_nil_isValidLine⟩

def zeroNote : SignedNote := ⟨headText 0 leafB, [logLine logSignature0]⟩

/-- A signed empty tree with a root that is not the root of the empty tree is found
consistent with a log of one leaf. -/
theorem compare_checkpoint0 :
    Reachable standard oneAuditor ∧
      (∃ ours theirs, Compared standard oneAuditor (zeroNote.render standard)
        ours theirs checkpoint0 ∧ ours.checkpoint = checkpoint1) ∧
      oneAuditor.compare standard (zeroNote.render standard) [] = .ok .consistent ∧
      ∀ leaves, ¬ IsPrefixHead standard.hashing leaves checkpoint0.head
        checkpoint1.head := by
  refine ⟨reachable_oneAuditor, ⟨_, zeroNote, ⟨rfl, by decide +kernel, by decide +kernel,
    by decide +kernel, rfl⟩, rfl⟩, by decide +kernel, fun leaves h => ?_⟩
  exact absurd (h.root_of_size_zero rfl) (by decide +kernel)

end Compared

end Auditor

end Calybris.Audit
