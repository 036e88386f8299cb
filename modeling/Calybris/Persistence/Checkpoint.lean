import Calybris.Persistence.Artifact

/-!
# Coordinated checkpoints

A checkpoint flushes the log, takes a snapshot and saves three files: the snapshot and
the anchor of the log, under names of their generation, and then the manifest that names
them. Between the saves the engine goes on, a save may fail, and the process may end; a
process that starts anew restores the engine from what it loads.
-/

namespace Calybris.Persistence

open Text Wal Budget

variable {Tenant : Type*}

def checkpointManifestSchema : String := "calybris.checkpoint-manifest.v1"

structure CheckpointManifest where
  schemaVersion : String
  snapshotFile : List Char
  walAnchorFile : List Char
  snapshotVersion : Nat
  ledgerDigestHex : Bytes
  walSequence : UInt64
  walHash : Bytes
  walKeyed : Bool
  deriving DecidableEq

structure CoordinatedCheckpoint (Tenant : Type*) where
  manifest : CheckpointManifest
  snapshot : BudgetSnapshot Tenant
  anchor : WalAnchor
  deriving DecidableEq

structure Formats (Tenant : Type*) where
  asBytes : Tenant → Bytes
  snapshot : Codec (BudgetSnapshot Tenant)
  anchor : Codec WalAnchor
  manifest : Codec CheckpointManifest

structure Formats.Lawful (F : Formats Tenant) : Prop where
  snapshot : F.snapshot.Lawful
  anchor : F.anchor.Lawful
  manifest : F.manifest.Lawful

section

variable [LinearOrder Tenant] (D : Digests) (F : Formats Tenant)

def ledgerDigestHex (snapshot : BudgetSnapshot Tenant) : Bytes :=
  bytesToHex (D.sha256 (ledgerPreimage F.asBytes snapshot)).1

/-! ### Loading -/

def loadCoordinatedCheckpoint (directory : Directory) :
    Except (PersistenceError Tenant) (CoordinatedCheckpoint Tenant) :=
  match directory.loadJsonBounded F.manifest manifestFile with
  | .error error => .error error
  | .ok manifest =>
    if manifest.schemaVersion ≠ checkpointManifestSchema then
      .error (.unknownManifestSchema manifest.schemaVersion)
    else
      match validateGenerationFilename manifest.snapshotFile,
        validateGenerationFilename manifest.walAnchorFile with
      | .error error, _ | .ok (), .error error => .error error
      | .ok (), .ok () =>
        match directory.loadJsonBounded F.snapshot manifest.snapshotFile,
          directory.loadJsonBounded F.anchor manifest.walAnchorFile with
        | .error error, _ | .ok _, .error error => .error error
        | .ok snapshot, .ok anchor =>
          if snapshot.version ≠ manifest.snapshotVersion ∨
              snapshot.walHighWatermark ≠ some manifest.walSequence.toNat ∨
              ledgerDigestHex D F snapshot ≠ manifest.ledgerDigestHex then
            .error .manifestMismatch
          else
            match validateSnapshotForRestore snapshot with
            | .error error => .error (.restore error)
            | .ok () =>
              match anchor.verifyHead (manifest.walSequence, manifest.walHash)
                manifest.walKeyed with
              | .error error => .error (.wal error)
              | .ok _ => .ok ⟨manifest, snapshot, anchor⟩

/-! ### Taking one -/

def generation (snapshot : BudgetSnapshot Tenant) (anchor : WalAnchor) :
    CoordinatedCheckpoint Tenant where
  manifest :=
    { schemaVersion := checkpointManifestSchema
      snapshotFile := snapshotFile snapshot.version anchor.sequence
      walAnchorFile := walAnchorFile snapshot.version anchor.sequence
      snapshotVersion := snapshot.version
      ledgerDigestHex := ledgerDigestHex D F snapshot
      walSequence := anchor.sequence
      walHash := anchor.lastHash
      walKeyed := anchor.keyed }
  snapshot := snapshot
  anchor := anchor

inductive Checkpointer (Tenant : Type*) where
  | idle
  | capture (anchor : WalAnchor)
  | saveSnapshot (snapshot : BudgetSnapshot Tenant) (anchor : WalAnchor)
  | saveWalAnchor (snapshot : BudgetSnapshot Tenant) (anchor : WalAnchor)
  | saveManifest (snapshot : BudgetSnapshot Tenant) (anchor : WalAnchor)

end

structure Process (Tenant : Type*) (n m : Nat) where
  shared : Shared Tenant n m
  walFile : WalFile
  writer : WalWriter
  directory : Directory
  checkpointer : Checkpointer Tenant
  /-- The generations whose manifest was put in its place, the last one at the end. -/
  generations : List (CoordinatedCheckpoint Tenant)
  returned : List (Except (PersistenceError Tenant) (CoordinatedCheckpoint Tenant))

namespace Process

variable [LinearOrder Tenant] {n m : Nat}

inductive Event (Tenant : Type*) (n m : Nat) where
  | ledger (event : Shared.Event Tenant n m)
  | append (payload : Serialization) (failsAfter : Option Nat)
  /-- `checkpoint_coordinated` begins: the directory is made and the log is flushed. -/
  | checkpoint (created flushed synced : Bool)
  | capture
  | save (saving : Saving)
  /-- The process ends, and starts with what it finds of the log. -/
  | restart (walFile : WalFile) (key : Option Bytes)

def start (directory : Directory) (walFile : WalFile) (writer : WalWriter) :
    Process Tenant n m where
  shared := .init
  walFile := walFile
  writer := writer
  directory := directory
  checkpointer := .idle
  generations := []
  returned := []

variable (D : Digests) (J : SerdeJson) (F : Formats Tenant) (s : Process Tenant n m)

def finish (result : Except (PersistenceError Tenant) (CoordinatedCheckpoint Tenant)) :
    Process Tenant n m :=
  { s with checkpointer := .idle, returned := s.returned ++ [result] }

def capture (anchor : WalAnchor) : Process Tenant n m :=
  match s.shared.core.engine.trySnapshot s.shared.registry.tenants with
  | .error _ => s.finish (.error .allocatorExhausted)
  | .ok (engine, taken) =>
    let s' := { s with shared := { s.shared with
      core := { s.shared.core with engine := engine }
      registry := { s.shared.registry with snapshotVersion := taken.version }
      history := { s.shared.history with
        captures := s.shared.history.captures ++ [taken] } } }
    let snapshot := { taken with walHighWatermark := some anchor.sequence.toNat }
    match validateSnapshotForRestore snapshot with
    | .error error => s'.finish (.error (.restore error))
    | .ok () => { s' with checkpointer := .saveSnapshot snapshot anchor }

def proceed (saved : Saved Tenant) (next : Process Tenant n m → Process Tenant n m) :
    Process Tenant n m :=
  let s' := { s with directory := saved.directory }
  match saved.result with
  | .error error => s'.finish (.error error)
  | .ok () => next s'

def save (saving : Saving) : Option (Process Tenant n m) :=
  match s.checkpointer with
  | .idle | .capture _ => none
  | .saveSnapshot snapshot anchor =>
    let saved := s.directory.saveJsonAtomic F.snapshot
      (snapshotFile snapshot.version anchor.sequence) snapshot saving
    some (s.proceed saved fun s' => { s' with checkpointer := .saveWalAnchor snapshot anchor })
  | .saveWalAnchor snapshot anchor =>
    let saved := s.directory.saveJsonAtomic F.anchor
      (walAnchorFile snapshot.version anchor.sequence) anchor saving
    some (s.proceed saved fun s' => { s' with checkpointer := .saveManifest snapshot anchor })
  | .saveManifest snapshot anchor =>
    let committed := generation D F snapshot anchor
    let saved := s.directory.saveJsonAtomic F.manifest manifestFile committed.manifest saving
    let s' := { s with generations :=
      if saved.placed then s.generations ++ [committed] else s.generations }
    some (s'.proceed saved fun s' => s'.finish (.ok committed))

def recover : Option (Engine Tenant × Registry Tenant) :=
  match s.directory manifestFile with
  | none => some (.new, .new)
  | some _ =>
    match loadCoordinatedCheckpoint D F s.directory with
    | .error _ => none
    | .ok loaded =>
      match Engine.restoreFromSnapshot loaded.snapshot with
      | .error _ => none
      | .ok restored => some restored

def step : Event Tenant n m → Option (Process Tenant n m)
  | .ledger event => (s.shared.step event).map fun shared => { s with shared := shared }
  | .append payload failsAfter =>
    -- The checkpoint has the writer to itself.
    match s.checkpointer with
    | .idle =>
      let appended := s.writer.append D s.walFile failsAfter payload
      some { s with writer := appended.2.1, walFile := appended.2.2 }
    | _ => none
  | .checkpoint created flushed synced =>
    match s.checkpointer with
    | .idle =>
      if created then
        match s.writer.flushAndSync flushed synced with
        | (.error error, writer) => some ({ s with writer := writer }.finish (.error (.wal error)))
        | (.ok (), writer) =>
          some { s with writer := writer, checkpointer := .capture writer.anchor }
      else some (s.finish (.error .io))
    | _ => none
  | .capture =>
    match s.checkpointer with
    | .capture anchor => if s.shared.core.gateFree then some (s.capture anchor) else none
    | _ => none
  | .save saving => s.save D F saving
  | .restart walFile key =>
    match WalWriter.openInner D J key walFile with
    | .error _ => none
    | .ok writer =>
      (s.recover D F).map fun restored =>
        { s with
          shared := .start restored.1 restored.2
          walFile := walFile
          writer := writer
          checkpointer := .idle }

end Process

end Calybris.Persistence
