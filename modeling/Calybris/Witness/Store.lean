import Calybris.Note.Roles
import Calybris.Note.Tree
import Calybris.Witness.AddCheckpoint

/-!
# A witness and its store

A store can fail, and it may fail after it has recorded the new head. `WitnessStore` is what
the witness asks of one: a swap that reports success has recorded the new head and nothing
else, and one that reports a mismatch has recorded nothing. The store in memory and the store
in a file are such.

The witness moves its store before it signs. That is safe because everything the signature
could be refused for has been checked by then: the clock is checked first, and a text that
was read as a checkpoint has the three lines a cosigned text needs.
-/

namespace Calybris.Witnesses

open Function Merkle Note Text

/-- Where a witness keeps the latest tree head it cosigned for each log. `heads` is what is
recorded; after an error of the swap it may be either state. -/
structure WitnessStore (S : Type*) where
  latest : S → List Char → Except String (Option (TreeHead Bytes32)) × S
  compareAndSwap : S → List Char → Option (TreeHead Bytes32) → TreeHead Bytes32 →
    Except String Bool × S
  heads : S → Store
  heads_latest : ∀ s origin, heads (latest s origin).2 = heads s
  swap_true : ∀ s origin expected new, (compareAndSwap s origin expected new).1 = .ok true →
    heads s origin = expected ∧
      heads (compareAndSwap s origin expected new).2 =
        update (heads s) origin (some new)
  swap_false : ∀ s origin expected new, (compareAndSwap s origin expected new).1 = .ok false →
    heads (compareAndSwap s origin expected new).2 = heads s

section Memory

def MemoryStore.compareAndSwap (heads : Store) (origin : List Char)
    (expected : Option (TreeHead Bytes32)) (new : TreeHead Bytes32) :
    Except String Bool × Store :=
  if heads origin ≠ expected then (.ok false, heads)
  else (.ok true, update heads origin (some new))

def memoryStore : WitnessStore Store where
  latest heads origin := (.ok (heads origin), heads)
  compareAndSwap := MemoryStore.compareAndSwap
  heads heads := heads
  heads_latest _ _ := rfl
  swap_true := by
    intro s origin expected new h
    unfold MemoryStore.compareAndSwap at h ⊢
    split_ifs at h ⊢ with hexpected
    · cases h
    · exact ⟨not_ne_iff.1 hexpected, rfl⟩
  swap_false := by
    intro s origin expected new h
    unfold MemoryStore.compareAndSwap at h ⊢
    split_ifs at h ⊢ with hexpected
    · rfl
    · cases h

end Memory

section File

/-- What goes wrong with an operation on the file. A failed write may have come as far as
having the new file in place. -/
structure Faults where
  lock : Option String
  read : Option String
  write : Option (String × Bool)

/-- The file, or why it cannot be read, and what the operations to come will meet. -/
structure FileStore where
  file : Except String Store
  faults : List Faults

namespace FileStore

def faultsNow (s : FileStore) : Faults := s.faults.headD ⟨none, none, none⟩

def next (s : FileStore) : FileStore := { s with faults := s.faults.tail }

def readAll (s : FileStore) : Except String Store :=
  match s.faultsNow.read with
  | some error => .error error
  | none => s.file

def latest (s : FileStore) (origin : List Char) :
    Except String (Option (TreeHead Bytes32)) × FileStore :=
  (s.readAll.map fun heads => heads origin, s.next)

/-- Takes the lock, reads the file again and replaces it. -/
def compareAndSwap (s : FileStore) (origin : List Char) (expected : Option (TreeHead Bytes32))
    (new : TreeHead Bytes32) : Except String Bool × FileStore :=
  match s.faultsNow.lock with
  | some error => (.error error, s.next)
  | none =>
    match s.readAll with
    | .error error => (.error error, s.next)
    | .ok heads =>
      if heads origin ≠ expected then (.ok false, s.next)
      else
        let replaced := update heads origin (some new)
        match s.faultsNow.write with
        | some (error, false) => (.error error, s.next)
        | some (error, true) => (.error error, { s.next with file := .ok replaced })
        | none => (.ok true, { s.next with file := .ok replaced })

/-- What is recorded: nothing, in a file that cannot be read. -/
def heads (s : FileStore) : Store :=
  match s.file with
  | .error _ => fun _ => none
  | .ok heads => heads

variable {s : FileStore} {origin : List Char} {expected : Option (TreeHead Bytes32)}
  {new : TreeHead Bytes32}

theorem heads_of_readAll {heads : Store} (h : s.readAll = .ok heads) : s.heads = heads := by
  unfold readAll at h
  split at h
  · cases h
  · rw [FileStore.heads, h]

theorem of_compareAndSwap_true (h : (s.compareAndSwap origin expected new).1 = .ok true) :
    s.heads origin = expected ∧
      (s.compareAndSwap origin expected new).2.heads =
        update s.heads origin (some new) := by
  unfold compareAndSwap at h ⊢
  split at h
  · cases h
  · split at h
    · cases h
    next heads hread =>
    split_ifs at h ⊢ with hexpected
    · cases h
    · rw [heads_of_readAll hread]
      dsimp only at h ⊢
      split at h
      · cases h
      · cases h
      · exact ⟨not_ne_iff.1 hexpected, rfl⟩

theorem of_compareAndSwap_false (h : (s.compareAndSwap origin expected new).1 = .ok false) :
    (s.compareAndSwap origin expected new).2.heads = s.heads := by
  unfold compareAndSwap at h ⊢
  split at h
  · cases h
  · split at h
    · cases h
    next heads hread =>
    split_ifs at h ⊢ with hexpected
    · rfl
    · dsimp only at h
      split at h <;> cases h

theorem compareAndSwap_cases {heads : Store} (h : s.file = .ok heads) (origin : List Char)
    (new : TreeHead Bytes32) :
    let swapped := s.compareAndSwap origin (heads origin) new
    (∃ error, swapped.1 = .error error) ∧ swapped.2.file = .ok heads ∨
      (∃ error, swapped.1 = .error error) ∧
        swapped.2.file = .ok (update heads origin (some new)) ∨
      swapped.1 = .ok true ∧ swapped.2.file = .ok (update heads origin (some new)) := by
  intro swapped
  have hnext : s.next.file = .ok heads := h
  cases hlock : s.faultsNow.lock with
  | some error => exact .inl (by simp [swapped, compareAndSwap, hlock, hnext])
  | none =>
    cases hread : s.faultsNow.read with
    | some error => exact .inl (by simp [swapped, compareAndSwap, hlock, readAll, hread, hnext])
    | none =>
      simp only [swapped, compareAndSwap, hlock, readAll, hread, h]
      rcases hwrite : s.faultsNow.write with _ | ⟨error, _ | _⟩ <;> simp [hnext]

end FileStore

def fileStore : WitnessStore FileStore where
  latest := FileStore.latest
  compareAndSwap := FileStore.compareAndSwap
  heads := FileStore.heads
  heads_latest _ _ := rfl
  swap_true _ _ _ _ := FileStore.of_compareAndSwap_true
  swap_false _ _ _ _ := FileStore.of_compareAndSwap_false

end File

variable (P : Primitives) {S : Type*} (store : WitnessStore S)

def addCheckpointOn (witness : Witness) (s : S) (request : AddCheckpoint) (now : Nat) :
    Except WitnessError NoteSignature × S :=
  match authenticate P witness request now with
  | .error error => (.error error, s)
  | .ok (note, checkpoint) =>
    match store.latest s checkpoint.origin with
    | (.error reason, s) => (.error (.store reason), s)
    | (.ok latest, s) =>
      match checkLatest P latest request checkpoint.head with
      | .error error => (.error error, s)
      | .ok () =>
        match store.compareAndSwap s checkpoint.origin latest checkpoint.head with
        | (.error reason, s) => (.error (.store reason), s)
        | (.ok false, s) =>
          match store.latest s checkpoint.origin with
          | (.error reason, s) => (.error (.store reason), s)
          | (.ok latest, s) => (.error (.conflict (latestSize latest)), s)
        | (.ok true, s) =>
          match witness.signer.cosign P note.text now with
          | .error error => (.error (.badCheckpoint error), s)
          | .ok line => (.ok line, s)

section Outcome

variable {P} {store} {witness : Witness} {s s' : S} {request : AddCheckpoint} {now : Nat}
  {note : SignedNote} {checkpoint : Checkpoint}

theorem addCheckpointOn_memoryStore (witness : Witness) (heads : Store) (request : AddCheckpoint)
    (now : Nat) :
    addCheckpointOn P memoryStore witness heads request now =
      addCheckpoint P witness heads request now := by
  unfold addCheckpointOn addCheckpoint
  cases hauthenticate : authenticate P witness request now with
  | error error => rfl
  | ok read =>
    obtain ⟨note, checkpoint⟩ := read
    simp only [memoryStore]
    cases hcheck : checkLatest P (heads checkpoint.origin) request checkpoint.head with
    | error error => rfl
    | ok _ =>
      cases witness.signer.cosign P note.text now <;>
        simp [MemoryStore.compareAndSwap, compareAndSwap]

theorem exists_cosign_of_authenticate (signer : WitnessSigner)
    (h : authenticate P witness request now = .ok (note, checkpoint)) :
    ∃ line, signer.cosign P note.text now = .ok line := by
  have hauthentic := authentic_of_authenticate h
  exact ⟨_, cosign_eq_ok_iff.2 ⟨_, cosignatureMessage_eq_ok_iff.2 ⟨hauthentic.now_pos,
    hauthentic.now_le, four_le_length_splitOn hauthentic.checkpoint_eq, rfl⟩, rfl⟩⟩

inductive Outcome (P : Primitives) (store : WitnessStore S) (witness : Witness) (s : S)
    (request : AddCheckpoint) (now : Nat) : Except WitnessError NoteSignature × S → Prop
  | refused (error : WitnessError) (s' : S) (hheads : store.heads s' = store.heads s) :
      Outcome P store witness s request now (.error error, s')
  | failed (reason : String) (s' : S) :
      Outcome P store witness s request now (.error (.store reason), s')
  | cosigned (note : SignedNote) (checkpoint : Checkpoint) (line : NoteSignature) (s' : S)
      (hauthentic : Authentic P witness request now note checkpoint)
      (hline : witness.signer.cosign P note.text now = .ok line)
      (hheads : store.heads s' =
        update (store.heads s) checkpoint.origin (some checkpoint.head)) :
      Outcome P store witness s request now (.ok line, s')

theorem outcome_addCheckpointOn (witness : Witness) (s : S) (request : AddCheckpoint)
    (now : Nat) :
    Outcome P store witness s request now (addCheckpointOn P store witness s request now) := by
  have hread : ∀ {s s' : S} {origin : List Char} {result},
      store.latest s origin = (result, s') → store.heads s' = store.heads s := by
    intro s s' origin result h
    rw [← store.heads_latest s origin, h]
  rw [addCheckpointOn]
  split
  · exact .refused _ _ rfl
  next note checkpoint hauthenticate =>
  split
  · exact .failed _ _
  next latest s₁ hlatest =>
  split
  · exact .refused _ _ (hread hlatest)
  split
  · exact .failed _ _
  · next s₂ hswap =>
    have hheads := store.swap_false s₁ checkpoint.origin latest checkpoint.head (by rw [hswap])
    rw [hswap] at hheads
    split
    · exact .failed _ _
    next latest' s₃ hlatest' =>
    exact .refused _ _ ((hread hlatest').trans (hheads.trans (hread hlatest)))
  · next s₂ hswap =>
    obtain ⟨-, hheads⟩ :=
      store.swap_true s₁ checkpoint.origin latest checkpoint.head (by rw [hswap])
    rw [hswap, hread hlatest] at hheads
    obtain ⟨line, hline⟩ := exists_cosign_of_authenticate witness.signer hauthenticate
    rw [hline]
    exact .cosigned note checkpoint line s₂ (authentic_of_authenticate hauthenticate) hline hheads

/-- A request that is refused leaves the stored heads as they were, unless the store itself
failed. One that succeeds has stored the head of its note for the origin of the note and
nothing else, and the line it returns verifies as a cosignature of the text at that time, by
itself and when it is added to the note. Once the swap has succeeded the signature is made. -/
theorem addCheckpointOn_spec (P : Primitives) (hsigns : P.Signs) {S : Type*}
    (store : WitnessStore S) (witness : Witness) {name : List Char} {seed : Bytes32}
    (hsigner : WitnessSigner.fromSeed P name seed = .ok witness.signer) (s : S)
    (request : AddCheckpoint) (now : Nat) :
    (∀ error s', addCheckpointOn P store witness s request now = (.error error, s') →
        (∀ reason, error ≠ .store reason) → store.heads s' = store.heads s) ∧
      (∀ line s', addCheckpointOn P store witness s request now = (.ok line, s') →
        ∃ note checkpoint, SignedNote.parse P request.note = .ok note ∧
          note.checkpoint P = .ok checkpoint ∧
          store.heads s' checkpoint.origin = some checkpoint.head ∧
          (∀ origin, origin ≠ checkpoint.origin → store.heads s' origin = store.heads s origin) ∧
          SignedNote.cosignatureTime P ⟨note.text, [line]⟩ witness.signer.verifier = .ok now ∧
          ∀ note', note.addSignature line = .ok note' →
            note'.cosignatureTime P witness.signer.verifier = .ok now) ∧
      ∀ note checkpoint latest s₁ s₂,
        authenticate P witness request now = .ok (note, checkpoint) →
        store.latest s checkpoint.origin = (.ok latest, s₁) →
        checkLatest P latest request checkpoint.head = .ok () →
        store.compareAndSwap s₁ checkpoint.origin latest checkpoint.head = (.ok true, s₂) →
          ∃ line, addCheckpointOn P store witness s request now = (.ok line, s₂) := by
  have houtcome : Outcome P store witness s request now _ :=
    outcome_addCheckpointOn witness s request now
  refine ⟨?_, ?_, ?_⟩
  · intro error s' h hstore
    rw [h] at houtcome
    cases houtcome with
    | refused error s' hheads => exact hheads
    | failed reason s' => exact absurd rfl (hstore reason)
  · intro line s' h
    rw [h] at houtcome
    cases houtcome with
    | cosigned note checkpoint line s' hauthentic hline hheads =>
      obtain ⟨message, -, hmade⟩ := cosign_eq_ok_iff.1 hline
      refine ⟨note, checkpoint, hauthentic.parse, hauthentic.checkpoint_eq, ?_, ?_, ?_, ?_⟩
      · rw [hheads, update_self]
      · intro origin hne
        rw [hheads, update_of_ne hne]
      · have hfrom : SignedNote.signatureFrom ⟨note.text, [line]⟩ witness.signer.verifier =
            .ok line := by
          rw [SignedNote.signatureFrom, List.find?_cons_of_pos (by simp [hmade])]
        exact cosignatureTime_of_cosign hsigns hsigner hline hfrom
      · intro note' hadd
        have hfrom : note'.signatureFrom witness.signer.verifier = .ok line :=
          signatureFrom_of_addSignature (by rw [hmade]) (by rw [hmade]) hadd
        obtain ⟨rfl, -, -⟩ := SignedNote.of_addSignature hadd
        exact cosignatureTime_of_cosign hsigns hsigner hline hfrom
  · intro note checkpoint latest s₁ s₂ hauthenticate hlatest hcheck hswap
    obtain ⟨line, hline⟩ := exists_cosign_of_authenticate witness.signer hauthenticate
    refine ⟨line, ?_⟩
    rw [addCheckpointOn]
    simp only [hauthenticate, hlatest, hcheck, hswap, hline]

theorem authenticate_request1 : authenticate standard onesWitness request1 5 =
    .ok (logNote 1 leafA logSignature1, checkpoint1) := by
  decide +kernel

theorem authenticate_request2 : authenticate standard onesWitness request2 6 =
    .ok (logNote 2 rootAB logSignature2, checkpoint2) := by
  decide +kernel

/-- The first leaf of a log, cosigned at time 5. -/
theorem addCheckpointOn_spec_first :
    ∃ line heads, addCheckpointOn standard memoryStore onesWitness (fun _ => none)
        request1 5 = (.ok line, heads) ∧
      heads ['o'] = some checkpoint1.head ∧
      SignedNote.cosignatureTime standard ⟨headText 1 leafA, [line]⟩ onesVerifier =
        .ok 5 := by
  have hsigner : WitnessSigner.fromSeed standard ['w'] (seedOf 1) =
      .ok onesWitness.signer := by decide +kernel
  have hcheck : checkLatest standard none request1 checkpoint1.head = .ok () := by
    decide +kernel
  obtain ⟨-, hok, hswap⟩ := addCheckpointOn_spec standard
    signs_standard memoryStore onesWitness hsigner (fun _ => none) request1 5
  obtain ⟨line, hline⟩ := hswap _ _ _ _ _ authenticate_request1 rfl hcheck rfl
  obtain ⟨note, checkpoint, hparse, hcheckpoint, hstored, -, htime, -⟩ := hok _ _ hline
  have hauthentic := authentic_of_authenticate authenticate_request1
  obtain rfl := Except.ok.inj (hparse.symm.trans hauthentic.parse)
  obtain rfl := Except.ok.inj (hcheckpoint.symm.trans hauthentic.checkpoint_eq)
  exact ⟨line, _, hline, hstored, htime⟩

/-! ### A log that grows -/

/-- A log that has grown since the witness cosigned it is cosigned again. The witness holds the
head of the leaves the log had, or nothing yet, and then the head of those it has. -/
theorem addCheckpoint_growth {heads : Store} {leaves leaves' : List Bytes32}
    (hauthenticate : authenticate P witness request now = .ok (note, checkpoint))
    (hlatest : heads checkpoint.origin = some (P.hashing.headOf leaves) ∨
      heads checkpoint.origin = none ∧ leaves = [])
    (hleaves : leaves <+: leaves') (hhead : checkpoint.head = P.hashing.headOf leaves')
    (hold : request.oldSize = leaves.length)
    (hproof : request.proof =
      if leaves = [] then [] else P.hashing.subproof leaves.length leaves' true) :
    ∃ line, addCheckpoint P witness heads request now =
      (.ok line, update heads checkpoint.origin (some checkpoint.head)) := by
  have hsize : latestSize (heads checkpoint.origin) = leaves.length := by
    rcases hlatest with h | ⟨h, rfl⟩ <;> rw [h] <;> rfl
  have hextends : extendsLatest P (heads checkpoint.origin) checkpoint.head request.proof := by
    rw [hproof, hhead, extendsLatest]
    by_cases hne : leaves = []
    · -- the empty tree has one root, and any other tree extends it
      subst hne
      have hnone : (heads checkpoint.origin).filter (fun old => decide (0 < old.size)) = none := by
        rcases hlatest with h | ⟨h, -⟩ <;> rw [h] <;> rfl
      cases leaves' <;> simp [hnone, Hashing.headOf, Hashing.rootOf]
    · have haccepted := Hashing.verifyConsistency_of_prefix (H := P.hashing) hleaves hne
      have hpos : 0 < (P.hashing.headOf leaves).size := List.length_pos_of_ne_nil hne
      rw [hlatest.resolve_right fun h => hne h.2, Option.filter_some_pos (by simpa using hpos)]
      simp only [if_neg hne, haccepted]
      rfl
  have hcheck : checkLatest P (heads checkpoint.origin) request checkpoint.head = .ok () := by
    have hle : leaves.length ≤ checkpoint.head.size := hhead ▸ hleaves.length_le
    rw [checkLatest, if_neg (by omega), if_neg (by omega), if_pos hextends]
  obtain ⟨line, hline⟩ := exists_cosign_of_authenticate witness.signer hauthenticate
  refine ⟨line, ?_⟩
  simp only [addCheckpoint, hauthenticate, hcheck, compareAndSwap, if_true, hline]

/-- From one leaf to two, with the consistency proof between them. -/
theorem addCheckpoint_growth_second :
    ∃ line, addCheckpoint standard onesWitness
        (update (fun _ => none) ['o'] (some checkpoint1.head)) request2 6 =
      (.ok line, update (update (fun _ => none) ['o'] (some checkpoint1.head)) ['o']
        (some checkpoint2.head)) := by
  have hproof : standard.hashing.subproof 1 [leafA, leafB] true = [leafB] := by
    have hsplit : split 2 = 1 := by decide
    rw [Hashing.subproof]
    simp [hsplit, Hashing.subproof]
  have hleaves : [leafA] <+: [leafA, leafB] := ⟨[leafB], rfl⟩
  refine addCheckpoint_growth authenticate_request2 (.inl ?_) hleaves ?_ rfl hproof.symm
  · rw [Hashing.headOf, Hashing.rootOf]
    rfl
  · rw [Hashing.headOf, Primitives.rootOf_standard]
    rfl

end Outcome

end Calybris.Witnesses
