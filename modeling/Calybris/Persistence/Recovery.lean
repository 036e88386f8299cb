import Calybris.Budget.Allocator
import Calybris.Persistence.Checkpoint

/-!
# What a new process finds

The engine that takes a snapshot has passed the position that the committed manifest
carries, whether it went on from it or was restored from it. So a later generation has a
higher version and files of its own, and the files of the committed one stay as they are.
-/

namespace Calybris.Persistence

open Text Wal Budget Transition List Process

variable {Tenant : Type*} [LinearOrder Tenant] {n m : Nat} {D : Digests} {J : SerdeJson}
  {F : Formats Tenant}

/-! ### Loading a committed generation -/

/-- A snapshot and an anchor that may be saved by an engine at the position `nextId`. -/
structure Prepared (nextId : Nat) (snapshot : BudgetSnapshot Tenant) (anchor : WalAnchor) :
    Prop where
  valid : validateSnapshotForRestore snapshot = .ok ()
  watermark : snapshot.walHighWatermark = some anchor.sequence.toNat
  schema : anchor.schemaVersion = walAnchorSchema
  fence : ∃ fence, 0 < fence ∧ fence ≤ nextId ∧ fence ≤ recoveryAllocatorMask ∧
    snapshot.version = recoverySnapshotTag ||| fence

variable {anchor : WalAnchor} {snapshot : BudgetSnapshot Tenant}

theorem Prepared.mono {nextId nextId' : Nat} (h : Prepared nextId snapshot anchor)
    (hle : nextId ≤ nextId') : Prepared nextId' snapshot anchor := by
  obtain ⟨fence, hpos, hfence, hmask, hversion⟩ := h.fence
  exact { h with fence := ⟨fence, hpos, hfence.trans hle, hmask, hversion⟩ }

/-- The three files of a generation. -/
structure Committed (D : Digests) (F : Formats Tenant) (directory : Directory)
    (snapshot : BudgetSnapshot Tenant) (anchor : WalAnchor) : Prop where
  holds_manifest : directory.Holds F.manifest manifestFile (generation D F snapshot anchor).manifest
  holds_snapshot :
    directory.Holds F.snapshot (snapshotFile snapshot.version anchor.sequence) snapshot
  holds_anchor : directory.Holds F.anchor (walAnchorFile snapshot.version anchor.sequence) anchor

variable {directory : Directory}

theorem loadCoordinatedCheckpoint_of_committed (hF : F.Lawful) {nextId : Nat}
    (h : Committed D F directory snapshot anchor) (hprepared : Prepared nextId snapshot anchor) :
    loadCoordinatedCheckpoint D F directory = .ok (generation D F snapshot anchor) := by
  have hnames : ∀ version sequence,
      validateGenerationFilename (Persistence.snapshotFile version sequence) =
        (.ok () : Except (PersistenceError Tenant) Unit) ∧
      validateGenerationFilename (Persistence.walAnchorFile version sequence) =
        (.ok () : Except (PersistenceError Tenant) Unit) := fun version sequence =>
    ⟨validateGenerationFilename_generationFile (by decide) version sequence,
      validateGenerationFilename_generationFile (by decide) version sequence⟩
  have hhead : anchor.verifyHead (anchor.sequence, anchor.lastHash) anchor.keyed =
      .ok (anchor.sequence, anchor.lastHash) := by
    simp [WalAnchor.verifyHead, WalAnchor.validateMetadata, hprepared.schema]
  rw [loadCoordinatedCheckpoint, Directory.loadJsonBounded_of_holds hF.manifest h.holds_manifest]
  simp only [generation, ne_eq, not_true_eq_false, if_false, hnames,
    Directory.loadJsonBounded_of_holds hF.snapshot h.holds_snapshot,
    Directory.loadJsonBounded_of_holds hF.anchor h.holds_anchor, hprepared.watermark, or_self,
    hprepared.valid, hhead]

theorem Committed.frame {directory' : Directory} (h : Committed D F directory snapshot anchor)
    (hsame : ∀ name, name = manifestFile ∨ name = snapshotFile snapshot.version anchor.sequence ∨
      name = walAnchorFile snapshot.version anchor.sequence → directory' name = directory name) :
    Committed D F directory' snapshot anchor where
  holds_manifest := ⟨(hsame _ (.inl rfl)).trans h.holds_manifest.1, h.holds_manifest.2⟩
  holds_snapshot := ⟨(hsame _ (.inr (.inl rfl))).trans h.holds_snapshot.1, h.holds_snapshot.2⟩
  holds_anchor := ⟨(hsame _ (.inr (.inr rfl))).trans h.holds_anchor.1, h.holds_anchor.2⟩

def Checkpointer.file : Checkpointer Tenant → Option (List Char)
  | .idle | .capture _ => none
  | .saveSnapshot snapshot anchor => some (snapshotFile snapshot.version anchor.sequence)
  | .saveWalAnchor snapshot anchor => some (walAnchorFile snapshot.version anchor.sequence)
  | .saveManifest .. => some manifestFile

/-! ### What holds in every run -/

namespace Process

def nextId (s : Process Tenant n m) : Nat := s.shared.core.engine.nextId

/-- The last generation is on disk, and the engine is past its fence. -/
def Last (D : Digests) (F : Formats Tenant) (s : Process Tenant n m) : Prop :=
  ∀ last, s.generations.getLast? = some last → ∃ snapshot anchor,
    last = generation D F snapshot anchor ∧ Committed D F s.directory snapshot anchor ∧
      Prepared s.nextId snapshot anchor

/-- What is about to be saved belongs to a later generation than the last. -/
structure Ready (s : Process Tenant n m) (snapshot : BudgetSnapshot Tenant) (anchor : WalAnchor) :
    Prop where
  prepared : Prepared s.nextId snapshot anchor
  later : ∀ last, s.generations.getLast? = some last → last.snapshot.version < snapshot.version

def Stands (F : Formats Tenant) (s : Process Tenant n m) : Checkpointer Tenant → Prop
  | .idle => True
  | .capture anchor => anchor.schemaVersion = walAnchorSchema
  | .saveSnapshot snapshot anchor => s.Ready snapshot anchor
  | .saveWalAnchor snapshot anchor => s.Ready snapshot anchor ∧
      s.directory.Holds F.snapshot (snapshotFile snapshot.version anchor.sequence) snapshot
  | .saveManifest snapshot anchor => s.Ready snapshot anchor ∧
      s.directory.Holds F.snapshot (snapshotFile snapshot.version anchor.sequence) snapshot ∧
      s.directory.Holds F.anchor (walAnchorFile snapshot.version anchor.sequence) anchor

structure Inv (D : Digests) (F : Formats Tenant) (s : Process Tenant n m) : Prop where
  absent : s.generations = [] → s.directory manifestFile = none
  last : s.Last D F
  stands : s.Stands F s.checkpointer
  returned : ∀ c, .ok c ∈ s.returned → c ∈ s.generations

variable {s s' : Process Tenant n m}

theorem Inv.frame (h : s.Inv D F) (hdirectory : s'.directory = s.directory)
    (hgenerations : s'.generations = s.generations) (hle : s.nextId ≤ s'.nextId)
    (hstands : s'.Stands F s'.checkpointer)
    (hreturned : ∀ c, .ok c ∈ s'.returned → .ok c ∈ s.returned) : s'.Inv D F where
  absent hnil := by
    rw [hdirectory]
    exact h.absent (hgenerations ▸ hnil)
  last last hlast := by
    rw [hgenerations] at hlast
    obtain ⟨snapshot, anchor, heq, hcommitted, hprepared⟩ := h.last last hlast
    exact ⟨snapshot, anchor, heq, hdirectory ▸ hcommitted, hprepared.mono hle⟩
  stands := hstands
  returned c hc := by
    rw [hgenerations]
    exact h.returned c (hreturned c hc)

theorem Ready.frame (h : s.Ready snapshot anchor) (hgenerations : s'.generations = s.generations)
    (hle : s.nextId ≤ s'.nextId) : s'.Ready snapshot anchor where
  prepared := h.prepared.mono hle
  later := hgenerations ▸ h.later

theorem Stands.frame {c : Checkpointer Tenant} (h : s.Stands F c)
    (hdirectory : s'.directory = s.directory) (hgenerations : s'.generations = s.generations)
    (hle : s.nextId ≤ s'.nextId) : s'.Stands F c := by
  cases c with
  | idle => trivial
  | capture anchor => exact h
  | saveSnapshot snapshot anchor => exact Ready.frame h hgenerations hle
  | saveWalAnchor | saveManifest =>
    exact ⟨h.1.frame hgenerations hle, hdirectory ▸ h.2⟩

theorem Inv.finish_error (h : s.Inv D F) (error : PersistenceError Tenant) :
    (s.finish (.error error)).Inv D F := by
  refine h.frame rfl rfl le_rfl trivial fun c hc => ?_
  simpa [finish] using hc

theorem Inv.ledger (h : s.Inv D F) {shared : Shared Tenant n m} (hstep : s.shared.Step shared) :
    ({ s with shared := shared } : Process Tenant n m).Inv D F :=
  have hle := hstep.allots.nextId_le
  h.frame rfl rfl hle (h.stands.frame rfl rfl hle) fun _ hc => hc

/-! ### Taking the snapshot -/

theorem Inv.capture (h : s.Inv D F) (hschema : anchor.schemaVersion = walAnchorSchema) :
    (s.capture anchor).Inv D F := by
  by_cases hlt : s.shared.core.engine.nextId < recoveryAllocatorMask
  · simp only [Process.capture, Engine.trySnapshot, if_pos hlt]
    set taken := s.shared.core.engine.picture s.shared.registry.tenants with htaken
    have hversion : taken.version = recoverySnapshotTag ||| (s.nextId + 1) := rfl
    -- The last generation is below the position that the snapshot takes.
    have hlater : ∀ last, s.generations.getLast? = some last →
        last.snapshot.version < taken.version := by
      intro last hlast
      obtain ⟨snapshot, anchor', rfl, -, hprepared⟩ := h.last last hlast
      obtain ⟨fence, -, hfence, hmask, hfenced⟩ := hprepared.fence
      have hsnapshot : (generation D F snapshot anchor').snapshot.version =
          recoverySnapshotTag ||| fence := hfenced
      have hnext : s.nextId + 1 ≤ recoveryAllocatorMask := hlt
      rw [hversion, hsnapshot, tag_or_eq_add hmask, tag_or_eq_add hnext]
      omega
    split
    · apply Inv.finish_error
      exact h.frame rfl rfl (Nat.le_succ _) (h.stands.frame rfl rfl (Nat.le_succ _)) fun _ hc => hc
    · next hvalid =>
      refine h.frame rfl rfl (Nat.le_succ _) ?_ fun _ hc => hc
      exact
        { prepared :=
            { valid := hvalid
              watermark := rfl
              schema := hschema
              fence := ⟨s.nextId + 1, Nat.succ_pos _, le_rfl, hlt, hversion⟩ }
          later := hlater }
  · simp only [Process.capture, Engine.trySnapshot, if_neg hlt]
    exact h.finish_error _

/-! ### The saves -/

theorem Inv.proceed {saved : Saved Tenant} {next : Process Tenant n m → Process Tenant n m}
    (herror : ∀ error, saved.result = .error error →
      (({ s with directory := saved.directory } : Process Tenant n m).finish
        (.error error)).Inv D F)
    (hok : saved.result = .ok () →
      (next { s with directory := saved.directory }).Inv D F) :
    (s.proceed saved next).Inv D F := by
  simp only [Process.proceed]
  split
  · next error hresult => exact herror error hresult
  · next hresult => exact hok hresult

theorem Inv.put (h : s.Inv D F) {name : List Char} {c : Checkpointer Tenant}
    (hmanifest : name ≠ manifestFile) (hlast : ∀ last, s.generations.getLast? = some last →
      name ≠ last.manifest.snapshotFile ∧ name ≠ last.manifest.walAnchorFile)
    (hothers : ∀ other, other ≠ name → directory other = s.directory other)
    (hstands : Stands F { s with directory := directory } c) :
    ({ s with directory := directory, checkpointer := c } : Process Tenant n m).Inv D F where
  absent hnil := (hothers _ hmanifest.symm).trans (h.absent hnil)
  last last hget := by
    obtain ⟨snapshot, anchor, rfl, hcommitted, hprepared⟩ := h.last last hget
    obtain ⟨hsnapshot, hanchor⟩ := hlast _ hget
    refine ⟨snapshot, anchor, rfl, hcommitted.frame ?_, hprepared⟩
    rintro other (rfl | rfl | rfl)
    · exact hothers _ hmanifest.symm
    · exact hothers _ hsnapshot.symm
    · exact hothers _ hanchor.symm
  stands := hstands.frame rfl rfl le_rfl
  returned := h.returned

theorem Inv.generationFile_ne (h : s.Inv D F) (hready : s.Ready snapshot anchor) :
    ∀ last, s.generations.getLast? = some last →
      (snapshotFile snapshot.version anchor.sequence ≠ last.manifest.snapshotFile ∧
        snapshotFile snapshot.version anchor.sequence ≠ last.manifest.walAnchorFile) ∧
      (walAnchorFile snapshot.version anchor.sequence ≠ last.manifest.snapshotFile ∧
        walAnchorFile snapshot.version anchor.sequence ≠ last.manifest.walAnchorFile) := by
  intro last hlast
  have hlt := hready.later last hlast
  obtain ⟨snapshot', anchor', rfl, -⟩ := h.last last hlast
  refine ⟨⟨fun heq => ?_, snapshotFile_ne_walAnchorFile _ _ _ _⟩,
    ⟨(snapshotFile_ne_walAnchorFile _ _ _ _).symm, fun heq => ?_⟩⟩
  · exact hlt.ne (generationFile_inj heq).symm
  · exact hlt.ne (generationFile_inj heq).symm

theorem Inv.saveFile (h : s.Inv D F) {α : Type*} {codec : Codec α} {value : α} {name : List Char}
    {next : Checkpointer Tenant} (hmanifest : name ≠ manifestFile)
    (hlast : ∀ last, s.generations.getLast? = some last →
      name ≠ last.manifest.snapshotFile ∧ name ≠ last.manifest.walAnchorFile)
    (hnext : ∀ directory : Directory, directory.Holds codec name value →
      (∀ other, other ≠ name → directory other = s.directory other) →
      Stands F { s with directory := directory } next) (saving : Saving) :
    (s.proceed (s.directory.saveJsonAtomic codec name value saving)
      fun s' => { s' with checkpointer := next }).Inv D F := by
  generalize hsaved : s.directory.saveJsonAtomic codec name value saving = saved
  rcases Directory.saveJsonAtomic_cases hsaved with ⟨-, hresult, hsame⟩ | ⟨-, hholds, hothers⟩
  · refine .proceed (fun error _ => ?_) fun hok => absurd hok hresult
    rw [hsame]
    exact h.finish_error error
  · refine .proceed (fun error _ => ?_) fun _ => ?_
    · exact (h.put (c := .idle) hmanifest hlast hothers trivial).finish_error error
    · exact h.put hmanifest hlast hothers (hnext _ hholds hothers)

theorem Inv.saveManifest (h : s.Inv D F) (hready : s.Ready snapshot anchor)
    (hsnapshot : s.directory.Holds F.snapshot (snapshotFile snapshot.version anchor.sequence)
      snapshot)
    (hanchor : s.directory.Holds F.anchor (walAnchorFile snapshot.version anchor.sequence) anchor)
    {saved : Saved Tenant} {saving : Saving}
    (hsaved : s.directory.saveJsonAtomic F.manifest manifestFile
      (generation D F snapshot anchor).manifest saving = saved) :
    (({ s with generations := if saved.placed then s.generations ++ [generation D F snapshot anchor]
        else s.generations } : Process Tenant n m).proceed saved
      fun s' => s'.finish (.ok (generation D F snapshot anchor))).Inv D F := by
  rcases Directory.saveJsonAtomic_cases hsaved with
    ⟨hplaced, hresult, hsame⟩ | ⟨hplaced, hholds, hothers⟩
  · rw [hplaced]
    refine .proceed (fun error _ => ?_) fun hok => absurd hok hresult
    rw [hsame]
    exact h.finish_error error
  · have hcommitted : Committed D F saved.directory snapshot anchor :=
      { holds_manifest := hholds
        holds_snapshot :=
          ⟨(hothers _ (snapshotFile_ne_manifestFile _ _)).trans hsnapshot.1, hsnapshot.2⟩
        holds_anchor :=
          ⟨(hothers _ (walAnchorFile_ne_manifestFile _ _)).trans hanchor.1, hanchor.2⟩ }
    rw [hplaced]
    -- Whatever the checkpoint returns, its generation is the last one now.
    have hfinish : ∀ result : Except (PersistenceError Tenant) (CoordinatedCheckpoint Tenant),
        (∀ c, result = .ok c → c = generation D F snapshot anchor) →
        (({ s with
          directory := saved.directory
          generations := s.generations ++ [generation D F snapshot anchor] } :
            Process Tenant n m).finish result).Inv D F := by
      intro result hresult
      refine ⟨fun hnil => ?_, fun last hlast => ?_, trivial, fun c hc => ?_⟩
      · exact absurd hnil (append_ne_nil_of_right_ne_nil _ (cons_ne_nil _ _))
      · obtain rfl : generation D F snapshot anchor = last := by
          simpa [finish, getLast?_append] using hlast
        exact ⟨snapshot, anchor, rfl, hcommitted, hready.prepared⟩
      · rcases mem_append.1 hc with hc | hc
        · exact mem_append_left _ (h.returned c hc)
        · rw [hresult c (mem_singleton.1 hc).symm]
          exact mem_append_right _ (mem_singleton_self _)
    exact .proceed (fun error _ => hfinish _ nofun) fun _ => hfinish _ (by rintro c ⟨⟩; rfl)

theorem Inv.save (h : s.Inv D F) {saving : Saving} (hsave : s.save D F saving = some s') :
    s'.Inv D F := by
  have hstands := h.stands
  unfold Process.save at hsave
  cases hc : s.checkpointer with
  | idle | capture => simp [hc] at hsave
  | saveSnapshot snapshot anchor =>
    rw [hc] at hsave hstands
    cases hsave
    have hready : s.Ready snapshot anchor := hstands
    refine h.saveFile (snapshotFile_ne_manifestFile _ _)
      (fun last hlast => (h.generationFile_ne hready last hlast).1) ?_ saving
    exact fun directory hholds _ => ⟨hready.frame rfl le_rfl, hholds⟩
  | saveWalAnchor snapshot anchor =>
    rw [hc] at hsave hstands
    cases hsave
    obtain ⟨hready, hsnapshot⟩ := hstands
    refine h.saveFile (walAnchorFile_ne_manifestFile _ _)
      (fun last hlast => (h.generationFile_ne hready last hlast).2) ?_ saving
    exact fun directory hholds hothers => ⟨hready.frame rfl le_rfl,
      ⟨(hothers _ (snapshotFile_ne_walAnchorFile _ _ _ _)).trans hsnapshot.1, hsnapshot.2⟩, hholds⟩
  | saveManifest snapshot anchor =>
    rw [hc] at hsave hstands
    cases hsave
    obtain ⟨hready, hsnapshot, hanchor⟩ := hstands
    exact h.saveManifest hready hsnapshot hanchor rfl

/-! ### Starting anew -/

theorem Inv.exists_recover (hF : F.Lawful) (h : s.Inv D F) :
    ∃ restored, s.recover D F = some restored ∧
      ∀ last, s.generations.getLast? = some last → ∃ snapshot anchor,
        last = generation D F snapshot anchor ∧ Committed D F s.directory snapshot anchor ∧
          Prepared restored.1.nextId snapshot anchor := by
  cases hlast : s.generations.getLast? with
  | none =>
    have hnone := h.absent (getLast?_eq_none_iff.1 hlast)
    refine ⟨(.new, .new), ?_, nofun⟩
    rw [recover, hnone]
  | some last =>
    obtain ⟨snapshot, anchor, rfl, hcommitted, hprepared⟩ := h.last last hlast
    obtain ⟨e, registry, hrestore⟩ := Engine.exists_restoreFromSnapshot hprepared.valid
    refine ⟨(e, registry), ?_, ?_⟩
    · have hsnapshot : Engine.restoreFromSnapshot (generation D F snapshot anchor).snapshot =
          .ok (e, registry) := hrestore
      simp only [recover, hcommitted.holds_manifest.1,
        loadCoordinatedCheckpoint_of_committed hF hcommitted hprepared, hsnapshot]
    · rintro _ ⟨⟩
      -- The restored engine begins with the position that the version carries.
      obtain ⟨fence, hpos, -, hmask, hversion⟩ := hprepared.fence
      obtain ⟨-, -, hnext, -⟩ := Engine.restoreFromSnapshot_eq_ok hrestore
      rw [hversion, allocatorFromSnapshotVersion_tag hpos hmask] at hnext
      have hfence : fence = e.nextId := Except.ok.inj hnext
      exact ⟨snapshot, anchor, rfl, hcommitted,
        { hprepared with fence := ⟨fence, hpos, hfence.le, hmask, hversion⟩ }⟩

theorem Inv.restart (hF : F.Lawful) (h : s.Inv D F) {restored : Engine Tenant × Registry Tenant}
    (hrecover : s.recover D F = some restored) (walFile : WalFile) (writer : WalWriter) :
    ({ s with
      shared := .start restored.1 restored.2
      walFile := walFile
      writer := writer
      checkpointer := .idle } : Process Tenant n m).Inv D F := by
  obtain ⟨other, hother, hlast⟩ := h.exists_recover hF
  obtain rfl := Option.some.inj (hrecover.symm.trans hother)
  exact ⟨h.absent, hlast, trivial, h.returned⟩

theorem Inv.step (hF : F.Lawful) (h : s.Inv D F) {event : Event Tenant n m}
    (hstep : s.step D J F event = some s') : s'.Inv D F := by
  cases event with
  | ledger event =>
    obtain ⟨shared, hshared, rfl⟩ := Option.map_eq_some_iff.1 hstep
    exact h.ledger (Shared.step_inv hshared)
  | append payload failsAfter =>
    simp only [Process.step] at hstep
    split at hstep
    · cases hstep
      exact h.frame rfl rfl le_rfl (h.stands.frame rfl rfl le_rfl) fun _ hc => hc
    · cases hstep
  | checkpoint created flushed synced =>
    simp only [Process.step] at hstep
    split at hstep
    · split at hstep
      · split at hstep
        · cases hstep
          apply Inv.finish_error
          exact h.frame rfl rfl le_rfl (h.stands.frame rfl rfl le_rfl) fun _ hc => hc
        · cases hstep
          exact h.frame rfl rfl le_rfl rfl fun _ hc => hc
      · cases hstep
        exact h.finish_error _
    · cases hstep
  | capture =>
    simp only [Process.step] at hstep
    split at hstep
    · next anchor hc =>
      split at hstep
      · cases hstep
        have hstands := h.stands
        rw [hc] at hstands
        exact h.capture hstands
      · cases hstep
    · cases hstep
  | save saving => exact h.save hstep
  | restart walFile key =>
    simp only [Process.step] at hstep
    split at hstep
    · cases hstep
    · next writer hopen =>
      obtain ⟨restored, hrecover, rfl⟩ := Option.map_eq_some_iff.1 hstep
      exact h.restart hF hrecover walFile writer

omit [LinearOrder Tenant] in
theorem directory_proceed {α : Type*} {codec : Codec α} {value : α} {file name : List Char}
    {saving : Saving} {next : Process Tenant n m → Process Tenant n m}
    (hnext : ∀ s, (next s).directory = s.directory) (hname : file ≠ name) :
    (s.proceed (directory.saveJsonAtomic codec file value saving) next).directory name =
      directory name := by
  generalize hsaved : directory.saveJsonAtomic codec file value saving = saved
  have hdirectory : (s.proceed saved next).directory = saved.directory := by
    simp only [proceed]
    split
    · rfl
    · rw [hnext]
  rw [hdirectory]
  rcases Directory.saveJsonAtomic_cases hsaved with ⟨-, -, hsame⟩ | ⟨-, -, hothers⟩
  · rw [hsame]
  · exact hothers name hname.symm

theorem directory_capture (anchor : WalAnchor) : (s.capture anchor).directory = s.directory := by
  simp only [capture]
  split
  · rfl
  · split <;> rfl

/-- No step writes another file than the one the checkpoint is at. -/
theorem directory_step {event : Event Tenant n m} (hstep : s.step D J F event = some s')
    {name : List Char} (hname : s.checkpointer.file ≠ some name) :
    s'.directory name = s.directory name := by
  cases event with
  | ledger event =>
    obtain ⟨shared, -, rfl⟩ := Option.map_eq_some_iff.1 hstep
    rfl
  | append payload failsAfter =>
    simp only [step] at hstep
    split at hstep
    · cases hstep
      rfl
    · cases hstep
  | checkpoint created flushed synced =>
    simp only [step] at hstep
    repeat' split at hstep
    all_goals first
      | cases hstep; done
      | cases hstep; rfl
  | capture =>
    simp only [step] at hstep
    split at hstep
    · split at hstep
      · cases hstep
        rw [directory_capture]
      · cases hstep
    · cases hstep
  | save saving =>
    simp only [step, save] at hstep
    split at hstep
    · cases hstep
    · cases hstep
    all_goals
      next hc =>
        cases hstep
        rw [hc] at hname
        exact directory_proceed (fun _ => rfl) fun heq => hname (congrArg some heq)
  | restart walFile key =>
    simp only [step] at hstep
    split at hstep
    · cases hstep
    · obtain ⟨restored, -, rfl⟩ := Option.map_eq_some_iff.1 hstep
      rfl

/-- The file that is saved next is not one that the committed manifest names. -/
theorem Inv.file_ne (h : s.Inv D F) {last : CoordinatedCheckpoint Tenant}
    (hlast : s.generations.getLast? = some last) :
    s.checkpointer.file ≠ some last.manifest.snapshotFile ∧
      s.checkpointer.file ≠ some last.manifest.walAnchorFile := by
  have hstands := h.stands
  cases hc : s.checkpointer with
  | idle | capture => exact ⟨nofun, nofun⟩
  | saveSnapshot snapshot anchor =>
    rw [hc] at hstands
    obtain ⟨⟨h1, h2⟩, -⟩ := h.generationFile_ne hstands last hlast
    exact ⟨fun heq => h1 (Option.some.inj heq), fun heq => h2 (Option.some.inj heq)⟩
  | saveWalAnchor snapshot anchor =>
    rw [hc] at hstands
    obtain ⟨-, h1, h2⟩ := h.generationFile_ne hstands.1 last hlast
    exact ⟨fun heq => h1 (Option.some.inj heq), fun heq => h2 (Option.some.inj heq)⟩
  | saveManifest snapshot anchor =>
    obtain ⟨snapshot', anchor', rfl, -⟩ := h.last last hlast
    exact ⟨fun heq => snapshotFile_ne_manifestFile _ _ (Option.some.inj heq).symm,
      fun heq => walAnchorFile_ne_manifestFile _ _ (Option.some.inj heq).symm⟩

/-- However ledger and log go on, saves fail and the process ends: once a checkpoint has
returned, the last generation whose manifest was saved is what loads, no step writes a
file that its manifest names, and a new process gets its engine. -/
theorem loadCoordinatedCheckpoint_run (hF : F.Lawful) {directory : Directory}
    (hnone : directory manifestFile = none) {walFile : WalFile} {writer : WalWriter}
    {events : List (Event Tenant n m)}
    (hrun : run (step D J F) (start directory walFile writer) events = some s) :
    ((∃ c, .ok c ∈ s.returned) → ∃ last, s.generations.getLast? = some last) ∧
    (∀ last, s.generations.getLast? = some last →
      loadCoordinatedCheckpoint D F s.directory = .ok last ∧
      ∀ event s', s.step D J F event = some s' →
        s'.directory last.manifest.snapshotFile = s.directory last.manifest.snapshotFile ∧
        s'.directory last.manifest.walAnchorFile = s.directory last.manifest.walAnchorFile) ∧
    ∀ walFile key writer, WalWriter.openInner D J key walFile = .ok writer →
      ∃ s', s.step D J F (.restart walFile key) = some s' := by
  have hstart : (start directory walFile writer : Process Tenant n m).Inv D F :=
    ⟨fun _ => hnone, (fun _ h => by cases h), trivial, fun _ h => by cases h⟩
  have h : s.Inv D F := run_invariant (fun hs hstep => hs.step hF hstep) hstart hrun
  refine ⟨?_, ?_, ?_⟩
  · rintro ⟨c, hc⟩
    obtain ⟨last, hlast⟩ := getLast?_isSome.2 (ne_nil_of_mem (h.returned c hc)) |>
      Option.isSome_iff_exists.1
    exact ⟨last, hlast⟩
  · intro last hlast
    obtain ⟨snapshot, anchor, heq, hcommitted, hprepared⟩ := h.last last hlast
    obtain ⟨hsnapshot, hanchor⟩ := h.file_ne hlast
    refine ⟨?_, fun event s' hstep =>
      ⟨directory_step hstep hsnapshot, directory_step hstep hanchor⟩⟩
    rw [heq]
    exact loadCoordinatedCheckpoint_of_committed hF hcommitted hprepared
  · intro walFile key writer hopen
    obtain ⟨restored, hrecover, -⟩ := h.exists_recover hF
    simp only [step, hopen, hrecover]
    exact ⟨_, rfl⟩

end Process

/-! ### A process that ends in its second checkpoint -/

/-- The format on a few values; the others are too large to be written. -/
def Codec.ofTable {α : Type*} [DecidableEq α] (table : List (α × Bytes)) : Codec α where
  toWriterPretty value :=
    [(table.lookup value).getD (List.replicate (maxPersistenceArtifactBytes + 1) 0)]
  fromSlice bytes := (table.find? fun row => row.2 = bytes).map Prod.fst

theorem Codec.lawful_ofTable {α : Type*} [DecidableEq α] {table : List (α × Bytes)}
    (h : ∀ row ∈ table, (Codec.ofTable table).fromSlice row.2 = some row.1) :
    (Codec.ofTable table).Lawful := by
  intro value hlength
  have htext : (Codec.ofTable table).text value =
      (table.lookup value).getD (List.replicate (maxPersistenceArtifactBytes + 1) 0) := by
    simp [Codec.text, Codec.ofTable]
  cases hlookup : table.lookup value with
  | none =>
    rw [htext, hlookup, Option.getD_none, length_replicate] at hlength
    omega
  | some text =>
    rw [htext, hlookup, Option.getD_some]
    have hmem : (value, text) ∈ table := by
      obtain ⟨before, after, rfl, -⟩ := lookup_eq_some_iff.1 hlookup
      exact mem_append_right _ mem_cons_self
    exact h _ hmem

def deskSnapshot (version : Nat) : BudgetSnapshot Unit :=
  ⟨version, [⟨(), 9, 9, 0, 0⟩], 0, some 0⟩

def deskAnchor : WalAnchor := ⟨walAnchorSchema, 0, genesis, false⟩

def deskDigests : Digests where
  sha256 _ := ⟨[142, 211, 58, 34, 120, 252, 202, 181, 236, 155, 145, 239, 31, 166, 156, 111, 46,
    167, 214, 32, 9, 163, 232, 198, 147, 147, 99, 90, 70, 195, 25, 154], rfl⟩
  hmacSha256 _ _ := Note.zeroHash

def asBytes (s : String) : Bytes := s.toUTF8.data.toList

def deskManifest : CheckpointManifest where
  schemaVersion := checkpointManifestSchema
  snapshotFile := "snapshot-v9223372036854775810-wal-0.json".toList
  walAnchorFile := "wal-anchor-v9223372036854775810-wal-0.json".toList
  snapshotVersion := 9223372036854775810
  ledgerDigestHex :=
    asBytes "8ed33a2278fccab5ec9b91ef1fa69c6f2ea7d62009a3e8c69393635a46c3199a"
  walSequence := 0
  walHash := genesis
  walKeyed := false

def deskSnapshotText (version watermark : String) : Bytes :=
  asBytes "\x7b\n  \"version\": " ++ asBytes version ++ asBytes ",\n  \"tenants\": [\n    \x7b\n" ++
    asBytes "      \"tenant_id\": \"desk\",\n      \"initial_microcents\": 9,\n" ++
    asBytes "      \"remaining_microcents\": 9,\n      \"reserved_microcents\": 0,\n" ++
    asBytes "      \"committed_microcents\": 0\n    \x7d\n  ],\n" ++
    asBytes "  \"active_reservations\": 0,\n  \"wal_high_watermark\": " ++ asBytes watermark ++
    asBytes "\n\x7d"

def deskFormats : Formats Unit where
  asBytes _ := Persistence.asBytes "desk"
  snapshot := .ofTable
    [(deskSnapshot 9223372036854775810, deskSnapshotText "9223372036854775810" "0"),
      (deskSnapshot 9223372036854775811, deskSnapshotText "9223372036854775811" "0")]
  anchor := .ofTable
    [(deskAnchor,
      asBytes "\x7b\n  \"schema_version\": \"calybris.wal-anchor.v1\",\n  \"sequence\": 0,\n" ++
        asBytes "  \"last_hash\": \"genesis\",\n  \"keyed\": false\n\x7d")]
  manifest := .ofTable
    [(deskManifest,
      asBytes "\x7b\n  \"schema_version\": \"calybris.checkpoint-manifest.v1\",\n" ++
        asBytes "  \"snapshot_file\": \"snapshot-v9223372036854775810-wal-0.json\",\n" ++
        asBytes "  \"wal_anchor_file\": \"wal-anchor-v9223372036854775810-wal-0.json\",\n" ++
        asBytes "  \"snapshot_version\": 9223372036854775810,\n  \"ledger_digest_hex\": \"" ++
        asBytes "8ed33a2278fccab5ec9b91ef1fa69c6f2ea7d62009a3e8c69393635a46c3199a\",\n" ++
        asBytes "  \"wal_sequence\": 0,\n  \"wal_hash\": \"genesis\",\n" ++
        asBytes "  \"wal_keyed\": false\n\x7d")]

theorem lawful_deskFormats : deskFormats.Lawful where
  snapshot := Codec.lawful_ofTable (by decide +kernel)
  anchor := Codec.lawful_ofTable (by simp [Codec.ofTable])
  manifest := Codec.lawful_ofTable (by simp [Codec.ofTable])

attribute [local instance] neZero_one in
/-- The process ends when the second checkpoint has saved its snapshot. -/
def crashTrace : List (Process.Event Unit 1 0) :=
  [.ledger (.core (.call 0 (.tryEnsureTenant () 9))), .ledger (.core (.advance 0 false)),
    .checkpoint true true true, .capture, .save .done, .save .done, .save .done,
    .checkpoint true true true, .capture, .save .done]

theorem Process.loadCoordinatedCheckpoint_run_crash :
    ∃ s, run (step deskDigests numberJson deskFormats)
        (start (fun _ => none) .empty ⟨0, genesis, none, false⟩) crashTrace = some s ∧
      (s.directory "snapshot-v9223372036854775811-wal-0.json".toList).isSome ∧
      loadCoordinatedCheckpoint deskDigests deskFormats s.directory =
        .ok ⟨deskManifest, deskSnapshot 9223372036854775810, deskAnchor⟩ ∧
      ∃ s', s.step deskDigests numberJson deskFormats (.restart .empty none) = some s' := by
  obtain ⟨s, hs, hfile, hlast⟩ : ∃ s ∈ run (step deskDigests numberJson deskFormats)
        (start (fun _ => none) .empty ⟨0, genesis, none, false⟩) crashTrace,
      (s.directory "snapshot-v9223372036854775811-wal-0.json".toList).isSome ∧
      s.generations.getLast? =
        some ⟨deskManifest, deskSnapshot 9223372036854775810, deskAnchor⟩ := by decide +kernel
  obtain ⟨-, hloads, hrestarts⟩ := loadCoordinatedCheckpoint_run lawful_deskFormats rfl hs
  exact ⟨s, hs, hfile, (hloads _ hlast).1,
    hrestarts .empty none ⟨0, genesis, none, false⟩ (by decide +kernel)⟩

end Calybris.Persistence
