import Calybris.Witness.Service
import Calybris.Witness.Store

/-!
# Processes that share one state file

A store in a file: the latest head is read without the lock, the compare-and-swap
takes an exclusive lock, reads the file again, and replaces it by a rename. A
process can die, or an operation on the file fail, at any point; either way the
lock is gone and the request with it, and what was renamed into place stays.

Each step is answered by a run of the service with an atomic store: the rename is
the swap. So the file is never behind a head that was cosigned. A request that one process
serves alone, with the store whose operations fail as they may, is a run of these steps.
-/

namespace Calybris.Witnesses

open Function Merkle Note Text Transition

/-- Where a process stands with its request. The lock is held from `locked` to
`replaced`. -/
inductive FilePhase where
  | idle
  | waiting (note : SignedNote) (checkpoint : Checkpoint) (now : Nat)
      (latest : Option (TreeHead Bytes32))
  | locked (note : SignedNote) (checkpoint : Checkpoint) (now : Nat)
      (latest : Option (TreeHead Bytes32))
  | matched (note : SignedNote) (checkpoint : Checkpoint) (now : Nat)
      (latest : Option (TreeHead Bytes32)) (heads : Store)
  | replaced (note : SignedNote) (checkpoint : Checkpoint) (now : Nat)
  | stored (note : SignedNote) (checkpoint : Checkpoint) (now : Nat)

def FilePhase.holdsLock : FilePhase → Bool
  | .locked .. | .matched .. | .replaced .. => true
  | _ => false

structure FileService (Process : Type*) where
  file : Store
  lock : Option Process
  phase : Process → FilePhase
  seen : List (TreeHead Bytes32)
  checks : List (Check Bytes32)
  cosigned : List Cosignature

inductive FileEvent (Process : Type*) where
  | submit (process : Process) (request : AddCheckpoint) (now : Nat)
  | lock (process : Process)
  | reread (process : Process)
  | replace (process : Process)
  | unlock (process : Process)
  | sign (process : Process)
  | crash (process : Process)

variable {Process : Type*} [DecidableEq Process]

namespace FileService

def initial : FileService Process where
  file _ := none
  lock := none
  phase _ := .idle
  seen := []
  checks := []
  cosigned := []

def setPhase (s : FileService Process) (process : Process) (phase : FilePhase) :
    FileService Process :=
  { s with phase := update s.phase process phase }

/-- The request is over; the lock goes with it where the process held it. -/
def leave (s : FileService Process) (process : Process) : FileService Process :=
  { s with
    lock := if (s.phase process).holdsLock then none else s.lock
    phase := update s.phase process .idle }

def look (P : Primitives) (s : FileService Process) (process : Process)
    (request : AddCheckpoint) (now : Nat) (note : SignedNote) (checkpoint : Checkpoint) :
    FileService Process :=
  let latest := s.file checkpoint.origin
  let s := { s with
    seen := checkpoint.head :: s.seen
    checks := checksMade latest request checkpoint.head ++ s.checks }
  match checkLatest P latest request checkpoint.head with
  | .error _ => s
  | .ok () => s.setPhase process (.waiting note checkpoint now latest)

def step (P : Primitives) (witness : Process → Witness) (s : FileService Process) :
    FileEvent Process → Option (FileService Process)
  | .submit process request now =>
    match s.phase process, authenticate P (witness process) request now with
    | .idle, .ok (note, checkpoint) => some (s.look P process request now note checkpoint)
    | .idle, .error _ => some s
    | _, _ => none
  | .lock process =>
    match s.lock, s.phase process with
    | none, .waiting note checkpoint now latest => some ({ s with
        lock := some process }.setPhase process (.locked note checkpoint now latest))
    | _, _ => none
  | .reread process =>
    match s.phase process with
    | .locked note checkpoint now latest =>
      if s.file checkpoint.origin = latest then
        some (s.setPhase process (.matched note checkpoint now latest s.file))
      else some (s.leave process)
    | _ => none
  | .replace process =>
    match s.phase process with
    | .matched note checkpoint now _ heads => some ({ s with
        file := update heads checkpoint.origin (some checkpoint.head)
        }.setPhase process (.replaced note checkpoint now))
    | _ => none
  | .unlock process =>
    match s.phase process with
    | .replaced note checkpoint now => some ({ s with
        lock := none }.setPhase process (.stored note checkpoint now))
    | _ => none
  | .sign process =>
    match s.phase process with
    | .stored note checkpoint now =>
      match (witness process).signer.cosign P note.text now with
      | .error _ => some (s.setPhase process .idle)
      | .ok line => some ({ s with
          cosigned := ⟨note.text, checkpoint, now, line⟩ :: s.cosigned
          }.setPhase process .idle)
    | _ => none
  | .crash process => some (s.leave process)

variable {P : Primitives} {witness : Process → Witness} {s s' : FileService Process}
  {e : FileEvent Process}

inductive Effect (P : Primitives) (witness : Process → Witness) (s : FileService Process) :
    FileService Process → Prop
  | same : Effect P witness s s
  | looked {process request now note checkpoint} (hphase : s.phase process = .idle)
      (hopened : authenticate P (witness process) request now = .ok (note, checkpoint)) :
      Effect P witness s (s.look P process request now note checkpoint)
  | locked {process note checkpoint now latest} (hlock : s.lock = none)
      (hphase : s.phase process = .waiting note checkpoint now latest) :
      Effect P witness s ({ s with
        lock := some process }.setPhase process (.locked note checkpoint now latest))
  | matched {process note checkpoint now latest}
      (hphase : s.phase process = .locked note checkpoint now latest)
      (hmatch : s.file checkpoint.origin = latest) :
      Effect P witness s (s.setPhase process (.matched note checkpoint now latest s.file))
  | left (process : Process) : Effect P witness s (s.leave process)
  | replaced {process note checkpoint now latest heads}
      (hphase : s.phase process = .matched note checkpoint now latest heads) :
      Effect P witness s ({ s with
        file := update heads checkpoint.origin (some checkpoint.head)
        }.setPhase process (.replaced note checkpoint now))
  | unlocked {process note checkpoint now}
      (hphase : s.phase process = .replaced note checkpoint now) : Effect P witness s ({ s with
        lock := none }.setPhase process (.stored note checkpoint now))
  | unsigned {process note checkpoint now error}
      (hphase : s.phase process = .stored note checkpoint now)
      (hline : (witness process).signer.cosign P note.text now = .error error) :
      Effect P witness s (s.setPhase process .idle)
  | signed {process note checkpoint now line}
      (hphase : s.phase process = .stored note checkpoint now)
      (hline : (witness process).signer.cosign P note.text now = .ok line) :
      Effect P witness s ({ s with
        cosigned := ⟨note.text, checkpoint, now, line⟩ :: s.cosigned }.setPhase process .idle)

theorem effect_of_step (h : s.step P witness e = some s') : Effect P witness s s' := by
  cases e with
  | submit process request now =>
    simp only [step] at h
    split at h <;> cases h
    · exact .looked ‹_› ‹_›
    · exact .same
  | lock process =>
    simp only [step] at h
    split at h <;> cases h
    exact .locked ‹_› ‹_›
  | reread process =>
    simp only [step] at h
    split at h
    · split_ifs at h with hmatch <;> cases h
      · exact .matched ‹_› hmatch
      · exact .left process
    · cases h
  | replace process =>
    simp only [step] at h
    split at h <;> cases h
    exact .replaced ‹_›
  | unlock process =>
    simp only [step] at h
    split at h <;> cases h
    exact .unlocked ‹_›
  | sign process =>
    simp only [step] at h
    split at h
    · split at h <;> cases h
      · exact .unsigned ‹_› ‹_›
      · exact .signed ‹_› ‹_›
    · cases h
  | crash process =>
    cases h
    exact .left process

section Locking

/-- One process holds the lock, and while it does, the file is what it read. -/
structure Locked (s : FileService Process) : Prop where
  holder : ∀ process, (s.phase process).holdsLock = true → s.lock = some process
  matched : ∀ process note checkpoint now latest heads,
    s.phase process = .matched note checkpoint now latest heads →
      heads = s.file ∧ s.file checkpoint.origin = latest

omit [DecidableEq Process] in
theorem locked_initial : Locked (initial : FileService Process) where
  holder _ h := by cases h
  matched _ _ _ _ _ _ h := by cases h

/-- A new phase for one process keeps the invariant, when the others do not hold the
lock or nothing about lock and file has changed for them. -/
theorem Locked.update (hs : Locked s) {process : Process} {phase : FilePhase}
    (hphase : s'.phase = update s.phase process phase)
    (hothers : ∀ other ≠ process, (s.phase other).holdsLock = true →
      s'.lock = s.lock ∧ s'.file = s.file)
    (hlock : phase.holdsLock = true → s'.lock = some process)
    (hmatched : ∀ note checkpoint now latest heads,
      phase = .matched note checkpoint now latest heads →
        heads = s'.file ∧ s'.file checkpoint.origin = latest) : Locked s' := by
  constructor
  · intro other hholds
    rw [hphase] at hholds
    by_cases hne : other = process
    · subst hne
      rw [update_self] at hholds
      exact hlock hholds
    · rw [update_of_ne hne] at hholds
      rw [(hothers other hne hholds).1]
      exact hs.holder other hholds
  · intro other note checkpoint now latest heads hother
    rw [hphase] at hother
    by_cases hne : other = process
    · subst hne
      rw [update_self] at hother
      exact hmatched note checkpoint now latest heads hother
    · rw [update_of_ne hne] at hother
      rw [(hothers other hne (by rw [hother]; rfl)).2]
      exact hs.matched other note checkpoint now latest heads hother

omit [DecidableEq Process] in
theorem Locked.not_holdsLock (hs : Locked s) {process other : Process}
    (h : (s.phase process).holdsLock = true) (hne : other ≠ process) :
    (s.phase other).holdsLock ≠ true := by
  intro hother
  have heq := (hs.holder process h).symm.trans (hs.holder other hother)
  exact hne (Option.some.inj heq).symm

theorem locked_leave (hs : Locked s) (process : Process) : Locked (s.leave process) := by
  refine hs.update rfl ?_ (fun h => by cases h) (fun _ _ _ _ _ h => by cases h)
  intro other hne hother
  have hfree : (s.phase process).holdsLock ≠ true := fun h => hs.not_holdsLock h hne hother
  exact ⟨if_neg hfree, rfl⟩

theorem Locked.update_free (hs : Locked s) {process : Process} {phase : FilePhase}
    (hphase : s'.phase = Function.update s.phase process phase) (hlock : s'.lock = s.lock)
    (hfile : s'.file = s.file) (hfree : phase.holdsLock = false) : Locked s' := by
  refine hs.update hphase (fun _ _ _ => ⟨hlock, hfile⟩) ?_ ?_
  · intro h
    rw [hfree] at h
    cases h
  · rintro note checkpoint now latest heads rfl
    cases hfree

/-- The process that holds the lock may change the file and give the lock away. -/
theorem Locked.update_of_holder (hs : Locked s) {process : Process} {phase : FilePhase}
    (hholds : (s.phase process).holdsLock = true)
    (hphase : s'.phase = Function.update s.phase process phase)
    (hlock : phase.holdsLock = true → s'.lock = some process)
    (hmatched : ∀ note checkpoint now latest heads,
      phase ≠ .matched note checkpoint now latest heads) : Locked s' :=
  hs.update hphase (fun _ hne hother => absurd hother (hs.not_holdsLock hholds hne)) hlock
    (fun _ _ _ _ _ h => absurd h (hmatched _ _ _ _ _))

theorem locked_step (hs : Locked s) (h : s.step P witness e = some s') : Locked s' := by
  cases effect_of_step h with
  | same => exact hs
  | looked hphase hopened =>
    simp only [look]
    split
    · exact ⟨hs.holder, hs.matched⟩
    · exact hs.update_free rfl rfl rfl rfl
  | locked hlock hphase =>
    refine hs.update rfl ?_ (fun _ => rfl) (fun _ _ _ _ _ h => by cases h)
    intro other hne hother
    rw [hs.holder other hother] at hlock
    cases hlock
  | matched hphase hmatch =>
    refine hs.update rfl (fun _ _ _ => ⟨rfl, rfl⟩) (fun _ => hs.holder _ (by rw [hphase]; rfl)) ?_
    intro _ _ _ _ _ heq
    cases heq
    exact ⟨rfl, hmatch⟩
  | left process => exact locked_leave hs process
  | replaced hphase =>
    have hholds := congrArg FilePhase.holdsLock hphase
    exact hs.update_of_holder hholds rfl (fun _ => hs.holder _ hholds) (by simp)
  | unlocked hphase =>
    have hholds := congrArg FilePhase.holdsLock hphase
    exact hs.update_of_holder hholds rfl (by simp [FilePhase.holdsLock]) (by simp)
  | unsigned => exact hs.update_free rfl rfl rfl rfl
  | signed => exact hs.update_free rfl rfl rfl rfl

end Locking

section Refinement

/-- Where the handler of an atomic store stands meanwhile: the swap is the rename. -/
def phaseOf : FilePhase → Phase
  | .idle => .idle
  | .waiting note checkpoint now latest => .read note checkpoint now latest
  | .locked note checkpoint now latest => .read note checkpoint now latest
  | .matched note checkpoint now latest _ => .read note checkpoint now latest
  | .replaced note checkpoint now => .swapped note checkpoint now
  | .stored note checkpoint now => .swapped note checkpoint now

/-- The service with an atomic store that the processes make together. -/
def toService (s : FileService Process) : Service Process where
  store := s.file
  phase process := phaseOf (s.phase process)
  seen := s.seen
  checks := s.checks
  cosigned := s.cosigned

theorem toService_setPhase (s : FileService Process) (process : Process) (phase : FilePhase) :
    (s.setPhase process phase).toService = s.toService.setPhase process (phaseOf phase) := by
  simp only [toService, setPhase, Service.setPhase, Service.mk.injEq, true_and, and_true]
  funext other
  by_cases hne : other = process
  · subst hne
    rw [update_self, update_self]
  · rw [update_of_ne hne, update_of_ne hne]

theorem toService_setPhase_self {process : Process} {phase : FilePhase}
    (h : phaseOf (s.phase process) = phaseOf phase) :
    (s.setPhase process phase).toService = s.toService := by
  rw [toService_setPhase, ← h]
  simp only [Service.setPhase, toService, update_eq_self]

theorem toService_leave (s : FileService Process) (process : Process) :
    (s.leave process).toService = s.toService.setPhase process .idle :=
  toService_setPhase s process .idle

theorem toService_look (s : FileService Process) (process : Process) (request : AddCheckpoint)
    (now : Nat) (note : SignedNote) (checkpoint : Checkpoint) :
    (s.look P process request now note checkpoint).toService =
      s.toService.look P process request now note checkpoint := by
  have hstore : s.toService.store = s.file := rfl
  simp only [look, Service.look, hstore]
  cases checkLatest P (s.file checkpoint.origin) request checkpoint.head with
  | error error => rfl
  | ok _ => exact toService_setPhase _ process _

omit [DecidableEq Process] in
theorem toService_phase {process : Process} {phase : FilePhase} (h : s.phase process = phase) :
    s.toService.phase process = phaseOf phase := congrArg phaseOf h

theorem exists_run_of_toService_eq (h : s'.toService = s.toService) :
    ∃ ds, run (Service.step P witness) s.toService ds = some s'.toService :=
  ⟨[], by rw [h, run_nil]⟩

theorem exists_run_of_service_step {d : Event Process}
    (h : s.toService.step P witness d = some s'.toService) :
    ∃ ds, run (Service.step P witness) s.toService ds = some s'.toService :=
  ⟨[d], run_singleton_eq_some_iff.2 h⟩

/-- The rename is the swap: under the lock the file is still what was read before it. -/
theorem service_step_replaced (hs : Locked s) {process : Process} {note : SignedNote}
    {checkpoint : Checkpoint} {now : Nat} {latest : Option (TreeHead Bytes32)} {heads : Store}
    (hphase : s.phase process = .matched note checkpoint now latest heads) :
    s.toService.step P witness (.swap process) = some ({ s with
      file := update heads checkpoint.origin (some checkpoint.head)
      }.setPhase process (.replaced note checkpoint now)).toService := by
  obtain ⟨rfl, hmatch⟩ := hs.matched process note checkpoint now latest heads hphase
  have hswap : compareAndSwap s.toService.store checkpoint.origin latest checkpoint.head =
      some (update s.file checkpoint.origin (some checkpoint.head)) := if_pos hmatch
  simp only [Service.step, toService_phase hphase, phaseOf, hswap, toService_setPhase]
  rfl

theorem exists_run_of_step (hs : Locked s) (h : s.step P witness e = some s') :
    ∃ ds, run (Service.step P witness) s.toService ds = some s'.toService := by
  cases effect_of_step h with
  | same => exact ⟨[], rfl⟩
  | @looked process request now note checkpoint hphase hopened =>
    refine exists_run_of_service_step (d := .submit process request now) ?_
    simp only [Service.step, toService_phase hphase, phaseOf, hopened, toService_look]
  | locked hlock hphase =>
    exact exists_run_of_toService_eq (toService_setPhase_self (congrArg phaseOf hphase :))
  | matched hphase hmatch =>
    exact exists_run_of_toService_eq (toService_setPhase_self (congrArg phaseOf hphase :))
  | left process =>
    exact exists_run_of_service_step (d := .crash process) (by rw [Service.step, toService_leave])
  | replaced hphase => exact exists_run_of_service_step (service_step_replaced hs hphase)
  | unlocked hphase =>
    exact exists_run_of_toService_eq (toService_setPhase_self (congrArg phaseOf hphase :))
  | @unsigned process note checkpoint now error hphase hline =>
    refine exists_run_of_service_step (d := .sign process) ?_
    simp only [Service.step, toService_phase hphase, phaseOf, hline, toService_setPhase]
  | @signed process note checkpoint now line hphase hline =>
    refine exists_run_of_service_step (d := .sign process) ?_
    simp only [Service.step, toService_phase hphase, phaseOf, hline, toService_setPhase]
    rfl

theorem exists_run_toService {es : List (FileEvent Process)}
    (hs : Locked s) (h : run (step P witness) s es = some s') :
    ∃ ds, run (Service.step P witness) s.toService ds = some s'.toService := by
  have hstep : ∀ {s : FileService Process} {e s' t}, Locked s ∧ t = s.toService →
      s.step P witness e = some s' → ∃ ds t', run (Service.step P witness) t ds = some t' ∧
        (Locked s' ∧ t' = s'.toService) := by
    rintro s e s' t ⟨hs, rfl⟩ hstep
    obtain ⟨ds, hds⟩ := exists_run_of_step hs hstep
    exact ⟨ds, _, hds, locked_step hs hstep, rfl⟩
  obtain ⟨ds, t, hds, -, rfl⟩ :=
    run_simulates (R := fun (s : FileService Process) t => Locked s ∧ t = s.toService)
      hstep ⟨hs, rfl⟩ h
  exact ⟨ds, hds⟩

theorem locked_run {es : List (FileEvent Process)}
    (h : run (step P witness) initial es = some s) : Locked s :=
  run_invariant (fun hs hstep => locked_step hs hstep) locked_initial h

/-- Processes that share a state file, in every interleaving and with crashes at any
step: what is stored for an origin never shrinks, and every head for which a
cosignature was returned is the head of a prefix of the tree stored now. -/
theorem fileStore_extends {es : List (FileEvent Process)}
    (h : run (step P witness) initial es = some s) :
    (∀ es' s', run (step P witness) s es' = some s' → ∀ origin head,
      s.file origin = some head → ∃ head', s'.file origin = some head' ∧
        head.size ≤ head'.size) ∧
      ∀ leaves, History P.hashing leaves s.seen s.checks → ∀ r ∈ s.cosigned,
        ∃ head, s.file r.checkpoint.origin = some head ∧
          Extends P.hashing r.checkpoint.head head := by
  obtain ⟨ds, hds⟩ := exists_run_toService locked_initial h
  constructor
  · intro es' s' h'
    obtain ⟨ds', hds'⟩ := exists_run_toService (locked_run h) h'
    exact Service.sizesLe_run (Service.grows_run hds) hds'
  · intro leaves hist r hr
    have hsound := Service.sound_run hds hist
    obtain ⟨head, hstored, hhead⟩ := hsound.cosigned r hr
    have hcommits := (hsound.stored _ head hstored).2
    exact ⟨head, hstored, hhead.toExtends (.refl hcommits) (hhead.size_le hcommits)⟩

/-- Two processes with one key. Both have read an empty file when the first of them stores
and signs the first leaf, and the second finds the file changed under the lock. It then stores
the second leaf and dies before it signs. -/
def sharedTrace : List (FileEvent Bool) :=
  [.submit true request1 5, .submit false request1 5, .lock true, .reread true, .replace true,
    .unlock true, .lock false, .reread false, .sign true, .submit false request2 6, .lock false,
    .reread false, .replace false, .crash false, .submit true request2 6]

theorem fileStore_extends_two :
    ∃ s, run (step standard fun _ => onesWitness) initial sharedTrace = some s ∧
      s.file ['o'] = some checkpoint2.head ∧
      (s.cosigned.map fun r => r.checkpoint) = [checkpoint1] ∧
      ∀ r ∈ s.cosigned, ∃ head, s.file r.checkpoint.origin = some head ∧
        Extends standard.hashing r.checkpoint.head head := by
  obtain ⟨s, hrun, hfile, hcosigned, hseen, hchecks⟩ :
      ∃ s ∈ run (step standard fun _ => onesWitness) initial sharedTrace,
        s.file ['o'] = some checkpoint2.head ∧
        (s.cosigned.map fun r => r.checkpoint) = [checkpoint1] ∧
        s.seen ⊆ [checkpoint1.head, checkpoint2.head] ∧
        s.checks ⊆ [⟨checkpoint1.head, checkpoint2.head, [leafB]⟩] := by
    decide +kernel
  exact ⟨s, hrun, hfile, hcosigned, (fileStore_extends hrun).2 twoLeaves
    (history_two.mono hseen hchecks)⟩

end Refinement

section Alone

variable {process : Process} {note : SignedNote} {checkpoint : Checkpoint} {now : Nat}
  {request : AddCheckpoint} {t : FileStore}

/-- The compare-and-swap of one process while nobody else is at work. -/
theorem exists_run_compareAndSwap (hlock : s.lock = none)
    (hphase : s.phase process = .waiting note checkpoint now (s.file checkpoint.origin))
    (ht : t.file = .ok s.file) :
    ∃ es s', run (step P witness) s es = some s' ∧ s'.lock = none ∧
      let swapped := t.compareAndSwap checkpoint.origin (s.file checkpoint.origin) checkpoint.head
      swapped.2.file = .ok s'.file ∧
        ((∃ error, swapped.1 = .error error) ∧ s'.phase process = .idle ∨
          swapped.1 = .ok true ∧ s'.phase process = .stored note checkpoint now) := by
  have hfree : (s.phase process).holdsLock = false := by rw [hphase]; rfl
  rcases FileStore.compareAndSwap_cases ht checkpoint.origin checkpoint.head with
    ⟨herror, hfile⟩ | ⟨herror, hfile⟩ | ⟨hswapped, hfile⟩
  · refine ⟨[.crash process], s.leave process, rfl, ?_, hfile, .inl ⟨herror, ?_⟩⟩
    · rw [leave, hlock, ite_self]
    · exact update_self ..
  · refine ⟨[.lock process, .reread process, .replace process, .crash process], ?_⟩
    simp [run, step, hlock, hphase, setPhase, leave, FilePhase.holdsLock, hfile, herror]
  · refine ⟨[.lock process, .reread process, .replace process, .unlock process], ?_⟩
    simp [run, step, hlock, hphase, setPhase, hfile, hswapped]

theorem exists_run_submit (hidle : s.phase process = .idle)
    (hopened : authenticate P (witness process) request now = .ok (note, checkpoint))
    (hcheck : checkLatest P (s.file checkpoint.origin) request checkpoint.head = .ok ()) :
    ∃ s', run (step P witness) s [.submit process request now] = some s' ∧ s'.lock = s.lock ∧
      s'.file = s.file ∧
      s'.phase process = .waiting note checkpoint now (s.file checkpoint.origin) := by
  simp [run, step, hidle, hopened, look, hcheck, setPhase]

theorem exists_run_sign (hphase : s.phase process = .stored note checkpoint now)
    (hlock : s.lock = none) {line : NoteSignature}
    (hline : (witness process).signer.cosign P note.text now = .ok line) :
    ∃ s', run (step P witness) s [.sign process] = some s' ∧ s'.lock = none ∧
      s'.phase process = .idle ∧ s'.file = s.file ∧
      ∃ r ∈ s'.cosigned, r.line = line ∧ r.time = now := by
  simp [run, step, hphase, hline, hlock, setPhase]

/-- A request that one process serves alone with the store in a file, whatever goes wrong with
the file, is a run of its steps; a line that it returns is one that the run has cosigned. -/
theorem exists_run_addCheckpointOn (hlock : s.lock = none) (hidle : s.phase process = .idle)
    (ht : t.file = .ok s.file) (request : AddCheckpoint) (now : Nat) :
    ∃ es s', run (step P witness) s es = some s' ∧ s'.lock = none ∧ s'.phase process = .idle ∧
      let served := addCheckpointOn P fileStore (witness process) t request now
      served.2.file = .ok s'.file ∧
        ∀ line, served.1 = .ok line → ∃ r ∈ s'.cosigned, r.line = line ∧ r.time = now := by
  cases hopened : authenticate P (witness process) request now with
  | error error =>
    refine ⟨[.submit process request now], s, ?_, hlock, hidle, ?_⟩
    · exact run_singleton_eq_some_iff.2 (by simp only [step, hidle, hopened])
    · simp [addCheckpointOn, hopened, ht]
  | ok opened =>
    obtain ⟨note, checkpoint⟩ := opened
    have hnext : t.next.file = .ok s.file := ht
    rcases hlatest : t.readAll with error | heads
    · refine ⟨[.crash process], s.leave process, rfl, ?_, update_self .., ?_⟩
      · rw [leave, hlock, ite_self]
      · simp [addCheckpointOn, hopened, fileStore, FileStore.latest, hlatest, Except.map, hnext,
          leave]
    obtain rfl : s.file = heads := by
      have hheads := FileStore.heads_of_readAll hlatest
      rwa [FileStore.heads, ht] at hheads
    cases hcheck : checkLatest P (s.file checkpoint.origin) request checkpoint.head with
    | error error =>
      refine ⟨[.submit process request now], s.look P process request now note checkpoint, ?_⟩
      simp [run, step, hidle, addCheckpointOn, hopened, fileStore, FileStore.latest, hlatest,
        Except.map, hcheck, look, hlock, hnext]
    | ok _ =>
      obtain ⟨s₁, hsubmit, hlock₁, hfile₁, hwaiting⟩ := exists_run_submit hidle hopened hcheck
      rw [← hfile₁] at hwaiting hnext
      obtain ⟨es, s₂, hswap, hlock₂, hfile₂, houtcome⟩ : ∃ es s₂,
          run (step P witness) s₁ es = some s₂ ∧ _ :=
        exists_run_compareAndSwap (hlock₁.trans hlock) hwaiting hnext
      rw [hfile₁] at hfile₂ houtcome
      rcases hcas : t.next.compareAndSwap checkpoint.origin (s.file checkpoint.origin)
        checkpoint.head with ⟨result, t'⟩
      simp only [hcas] at hfile₂ houtcome
      rcases houtcome with ⟨⟨error, rfl⟩, hphase₂⟩ | ⟨rfl, hphase₂⟩
      · refine ⟨_, s₂, (run_append hsubmit).trans hswap, hlock₂, hphase₂, ?_⟩
        simp [addCheckpointOn, hopened, fileStore, FileStore.latest, hlatest, Except.map, hcheck,
          hcas, hfile₂]
      · obtain ⟨line, hline⟩ := exists_cosign_of_authenticate (witness process).signer hopened
        obtain ⟨s₃, hsign, hlock₃, hphase₃, hfile₃, hcosigned⟩ :=
          exists_run_sign hphase₂ hlock₂ hline
        refine ⟨_, s₃, (run_append hsubmit).trans ((run_append hswap).trans hsign), hlock₃,
          hphase₃, ?_⟩
        simp [addCheckpointOn, hopened, fileStore, FileStore.latest, hlatest, Except.map, hcheck,
          hcas, hline, hfile₂, hfile₃, hcosigned]

end Alone

end FileService

end Calybris.Witnesses
