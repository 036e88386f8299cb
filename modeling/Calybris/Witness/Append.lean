import Calybris.Transition.Run
import Calybris.Witness.AddCheckpoint

/-!
# Processes that append to one note

A witness that is told to append its cosignature to a note reads the note before it
signs, without a lock: the text has to be the one in the request, and the note has to
have room. The line is then added under an exclusive lock. The note is read again, must
still have the text that was signed, takes the line beside those that others have added
meanwhile, and is replaced by a rename. A process can die, or an operation on a file
fail, at any point; the lock is gone then, and what was renamed into place stays.

No line is lost that way. The room that is checked is a number of lines, though, and a
note that is read has a limit in bytes as well: a line may be added, and reported, that
leaves a file which is not a note any more.
-/

namespace Calybris.Witnesses

open Function Merkle Note Text Transition List SignedNote

inductive AppendError where
  | note (error : CheckpointError)
  | request (error : CheckpointError)
  /-- The file is not the checkpoint in the request; nothing was signed. -/
  | otherCheckpoint
  | alreadySigned (name : List Char)
  | noRoom
  /-- The file was changed to another checkpoint while the witness was signing. -/
  | changed
  deriving DecidableEq

/-- The check before the witness signs: the text of the note that is to be cosigned. -/
def appendTarget (P : Primitives) (file : List Char) (request : AddCheckpoint)
    (signer : WitnessSigner) : Except AppendError (List Char) :=
  match parse P file with
  | .error error => .error (.note error)
  | .ok note =>
    match parse P request.note with
    | .error error => .error (.request error)
    | .ok requested =>
      if note.text ≠ requested.text then .error .otherCheckpoint
      else if note.signatures.any fun s =>
          s.name == signer.verifier.name && s.keyHash == signer.verifier.keyHash then
        .error (.alreadySigned signer.verifier.name)
      else if maxSignatures ≤ note.signatures.length then .error .noRoom
      else .ok note.text

/-- Where a process stands. The lock is held from `locked` to `replaced`. -/
inductive AppendPhase where
  | idle
  | checked (request : AddCheckpoint) (text : List Char)
  | signed (text : List Char) (sig : NoteSignature)
  | locked (text : List Char) (sig : NoteSignature)
  /-- The note that was read under the lock has the text that was signed. -/
  | reread (note : SignedNote) (sig : NoteSignature)
  | added (note : SignedNote) (sig : NoteSignature)
  | replaced (sig : NoteSignature)

def AppendPhase.holdsLock : AppendPhase → Bool
  | .locked .. | .reread .. | .added .. | .replaced .. => true
  | _ => false

structure NoteFile (Process : Type*) where
  file : List Char
  lock : Option Process
  phase : Process → AppendPhase
  results : List (Except AppendError NoteSignature)

inductive AppendEvent (Process : Type*) where
  | check (process : Process) (request : AddCheckpoint)
  /-- The witness handles the request, with its own state as it is then. -/
  | sign (process : Process) (store : Store) (now : Nat)
  | lock (process : Process)
  | reread (process : Process)
  | add (process : Process)
  | replace (process : Process)
  | unlock (process : Process)
  /-- The process dies, or an operation on a file fails. -/
  | crash (process : Process)

variable {Process : Type*} [DecidableEq Process]

namespace NoteFile

def start (file : List Char) : NoteFile Process where
  file := file
  lock := none
  phase _ := .idle
  results := []

variable (s : NoteFile Process)

def setPhase (process : Process) (phase : AppendPhase) : NoteFile Process :=
  { s with phase := update s.phase process phase }

/-- The command is over; the lock goes with it where the process held it. -/
def leave (process : Process) (result : Option (Except AppendError NoteSignature)) :
    NoteFile Process where
  file := s.file
  lock := if (s.phase process).holdsLock then none else s.lock
  phase := update s.phase process .idle
  results := s.results ++ result.toList

def step (P : Primitives) (witness : Process → Witness) :
    AppendEvent Process → Option (NoteFile Process)
  | .check process request =>
    match s.phase process with
    | .idle =>
      match appendTarget P s.file request (witness process).signer with
      | .error error => some (s.leave process (some (.error error)))
      | .ok text => some (s.setPhase process (.checked request text))
    | _ => none
  | .sign process store now =>
    match s.phase process with
    | .checked request text =>
      match (addCheckpoint P (witness process) store request now).1 with
      | .error _ => some (s.leave process none)
      | .ok sig => some (s.setPhase process (.signed text sig))
    | _ => none
  | .lock process =>
    match s.lock, s.phase process with
    | none, .signed text sig => some ({ s with
        lock := some process }.setPhase process (.locked text sig))
    | _, _ => none
  | .reread process =>
    match s.phase process with
    | .locked text sig =>
      match parse P s.file with
      | .error error => some (s.leave process (some (.error (.note error))))
      | .ok note =>
        if note.text ≠ text then some (s.leave process (some (.error .changed)))
        else some (s.setPhase process (.reread note sig))
    | _ => none
  | .add process =>
    match s.phase process with
    | .reread note sig =>
      match note.addSignature sig with
      | .error error => some (s.leave process (some (.error (.note error))))
      | .ok note' => some (s.setPhase process (.added note' sig))
    | _ => none
  | .replace process =>
    match s.phase process with
    | .added note sig => some ({ s with
        file := note.render P }.setPhase process (.replaced sig))
    | _ => none
  | .unlock process =>
    match s.phase process with
    | .replaced sig => some (s.leave process (some (.ok sig)))
    | _ => none
  | .crash process => some (s.leave process none)

/-- The line that is about to go into the file leaves it a note that can be read. The process
holds the lock, so the file is the one it has read. -/
def Fits (P : Primitives) : AppendEvent Process → Prop
  | .replace process => ∀ note sig, s.phase process = .added note sig →
      utf8Len s.file + utf8Len (sig.line P) ≤ maxNoteBytes
  | _ => True

/-! ### What a step can do -/

section Effect

variable {s} {P : Primitives} {witness : Process → Witness} {s' : NoteFile Process}
  {e : AppendEvent Process}

inductive Effect (P : Primitives) (witness : Process → Witness) (s : NoteFile Process) :
    AppendEvent Process → NoteFile Process → Prop
  | left {e process result} (he : ∀ process, e ≠ .replace process)
      (hresult : ∀ sig, result ≠ some (.ok sig)) : Effect P witness s e (s.leave process result)
  | checked {process request text} (hphase : s.phase process = .idle) :
      Effect P witness s (.check process request) (s.setPhase process (.checked request text))
  | signed {process store now request text sig} (hphase : s.phase process = .checked request text)
      (hsig : (addCheckpoint P (witness process) store request now).1 = .ok sig) :
      Effect P witness s (.sign process store now) (s.setPhase process (.signed text sig))
  | locked {process text sig} (hlock : s.lock = none)
      (hphase : s.phase process = .signed text sig) : Effect P witness s (.lock process)
        ({ s with lock := some process }.setPhase process (.locked text sig))
  | reread {process text sig note} (hphase : s.phase process = .locked text sig)
      (hparse : parse P s.file = .ok note) :
      Effect P witness s (.reread process) (s.setPhase process (.reread note sig))
  | added {process note sig note'} (hphase : s.phase process = .reread note sig)
      (hadd : note.addSignature sig = .ok note') :
      Effect P witness s (.add process) (s.setPhase process (.added note' sig))
  | replaced {process note sig} (hphase : s.phase process = .added note sig) :
      Effect P witness s (.replace process)
        ({ s with file := note.render P }.setPhase process (.replaced sig))
  | unlocked {process sig} (hphase : s.phase process = .replaced sig) :
      Effect P witness s (.unlock process) (s.leave process (some (.ok sig)))

theorem effect_of_step (h : s.step P witness e = some s') : Effect P witness s e s' := by
  cases e with
  | check process request =>
    simp only [step] at h
    split at h
    · split at h <;> cases h
      · exact .left (by simp) (by simp)
      · exact .checked ‹_›
    · cases h
  | sign process store now =>
    simp only [step] at h
    split at h
    · split at h <;> cases h
      · exact .left (by simp) (by simp)
      · exact .signed ‹_› ‹_›
    · cases h
  | lock process =>
    simp only [step] at h
    split at h <;> cases h
    exact .locked ‹_› ‹_›
  | reread process =>
    simp only [step] at h
    split at h
    · split at h
      · cases h
        exact .left (by simp) (by simp)
      · split at h <;> cases h
        · exact .left (by simp) (by simp)
        · exact .reread ‹_› ‹_›
    · cases h
  | add process =>
    simp only [step] at h
    split at h
    · split at h <;> cases h
      · exact .left (by simp) (by simp)
      · exact .added ‹_› ‹_›
    · cases h
  | replace process =>
    simp only [step] at h
    split at h <;> cases h
    exact .replaced ‹_›
  | unlock process =>
    simp only [step] at h
    split at h <;> cases h
    exact .unlocked ‹_›
  | crash process =>
    cases h
    exact .left (by simp) (by simp)

end Effect

end NoteFile

/-! ### What the processes know of the note -/

/-- What a process knows while the note is `note`. Only under the lock is it about the
note. -/
def AppendPhase.Knows (note : SignedNote) : AppendPhase → Prop
  | .signed _ sig | .locked _ sig => sig.Writable
  | .reread note' sig => note' = note ∧ sig.Writable
  | .added note' sig => note.addSignature sig = .ok note' ∧ sig.Writable
  | .replaced sig => sig ∈ note.signatures
  | _ => True

variable {phase : AppendPhase}

theorem AppendPhase.Knows.of_not_holdsLock {note note' : SignedNote} (h : phase.Knows note)
    (hfree : phase.holdsLock ≠ true) : phase.Knows note' := by
  cases phase with
  | idle | checked | signed => exact h
  | _ => exact absurd rfl hfree

/-- What a witness signs is a line that a note can carry. -/
theorem writable_of_addCheckpoint {P : Primitives} {witness : Witness} {store : Store}
    {request : AddCheckpoint} {now : Nat} {sig : NoteSignature} {name : List Char} {seed : Bytes32}
    (hsigner : WitnessSigner.fromSeed P name seed = .ok witness.signer)
    (h : (addCheckpoint P witness store request now).1 = .ok sig) : sig.Writable := by
  unfold addCheckpoint at h
  split at h
  · cases h
  dsimp only at h
  split at h
  · cases h
  split at h
  · cases h
  split at h
  · cases h
  · next hsig =>
    cases h
    exact writable_cosign hsigner hsig

namespace NoteFile

variable {P : Primitives} {witness : Process → Witness} {s s' u : NoteFile Process}
  {note : SignedNote} {process : Process} {e : AppendEvent Process}

/-- The file is this note, and has every line whose append was reported. -/
structure Shows (P : Primitives) (s : NoteFile Process) (note : SignedNote) : Prop where
  file : s.file = note.render P
  readable : note.Readable
  holder : ∀ process, (s.phase process).holdsLock = true → s.lock = some process
  knows : ∀ process, (s.phase process).Knows note
  reported : ∀ sig, .ok sig ∈ s.results → sig ∈ note.signatures

namespace Shows

section

variable (h : Shows P s note)

include h

omit [DecidableEq Process] in
theorem of_phase (hphase : s.phase process = phase) :
    phase.Knows note := hphase ▸ h.knows process

omit [DecidableEq Process] in
theorem not_holdsLock (hholds : (s.phase process).holdsLock = true) {other : Process}
    (hne : other ≠ process) : (s.phase other).holdsLock ≠ true := by
  intro hother
  have heq := (h.holder process hholds).symm.trans (h.holder other hother)
  exact hne (Option.some.inj heq).symm

theorem move (hphase : s'.phase = update s.phase process phase) (hknows : phase.Knows note)
    (hholds : phase.holdsLock = true → s'.lock = some process)
    (hothers : ∀ other ≠ process, (s.phase other).holdsLock = true → s'.lock = s.lock)
    (hreported : ∀ sig, .ok sig ∈ s'.results → sig ∈ note.signatures) (hfile : s'.file = s.file) :
    Shows P s' note where
  file := hfile.trans h.file
  readable := h.readable
  holder := by
    rw [hphase]
    refine (forall_update_iff s.phase fun other phase =>
      phase.holdsLock = true → s'.lock = some other).2 ⟨hholds, fun other hne hother => ?_⟩
    rw [hothers other hne hother]
    exact h.holder other hother
  knows := by
    rw [hphase]
    exact (forall_update_iff s.phase fun _ phase => phase.Knows note).2
      ⟨hknows, fun other _ => h.knows other⟩
  reported := hreported

theorem setPhase (hknows : phase.Knows note)
    (hholds : phase.holdsLock = true → (s.phase process).holdsLock = true) :
    Shows P (s.setPhase process phase) note :=
  h.move rfl hknows (fun hp => h.holder process (hholds hp)) (fun _ _ _ => rfl) h.reported
    rfl

theorem leave (process : Process) {result : Option (Except AppendError NoteSignature)}
    (hresult : ∀ sig, result = some (.ok sig) → sig ∈ note.signatures) :
    Shows P (s.leave process result) note := by
  refine h.move rfl trivial (by simp [AppendPhase.holdsLock]) ?_ ?_ rfl
  · intro other hne hother
    exact if_neg fun hholds => h.not_holdsLock hholds hne hother
  · intro sig hsig
    rcases mem_append.1 hsig with hold | hnew
    · exact h.reported sig hold
    · exact hresult sig (Option.mem_toList.1 hnew)

theorem replace {note' : SignedNote} {sig : NoteSignature}
    (hphase : s.phase process = .added note' sig) :
    Shows P ({ s with file := note'.render P }.setPhase process (.replaced sig))
      { note with signatures := note.signatures ++ [sig] } := by
  have hholds : (s.phase process).holdsLock = true := by rw [hphase]; rfl
  obtain ⟨hadd, hsig⟩ := h.of_phase hphase
  have hreadable := h.readable.addSignature hsig hadd
  obtain ⟨rfl, -, -⟩ := of_addSignature hadd
  refine ⟨rfl, hreadable, ?_, ?_, fun sig hsig => mem_append_left _ (h.reported sig hsig)⟩
  · exact (forall_update_iff s.phase fun other phase =>
      phase.holdsLock = true → s.lock = some other).2
      ⟨fun _ => h.holder process hholds, fun other _ => h.holder other⟩
  · refine (forall_update_iff s.phase fun _ phase => AppendPhase.Knows _ phase).2
      ⟨mem_append_right _ (mem_singleton_self sig), fun other hne => ?_⟩
    exact (h.knows other).of_not_holdsLock (h.not_holdsLock hholds hne)

end

omit [DecidableEq Process] in
theorem parse_eq_ok_iff (hP : P.StrictBase64) (h : Shows P s note) {note' : SignedNote} :
    parse P s.file = .ok note' ↔ note = note' ∧ utf8Len s.file ≤ maxNoteBytes := by
  by_cases hle : utf8Len s.file ≤ maxNoteBytes
  · have hparse := parse_render hP h.readable (h.file ▸ hle)
    rw [h.file, hparse, Except.ok.injEq, ← h.file, and_iff_left hle]
  · rw [parse, if_pos (by omega)]
    simp [hle]

omit [DecidableEq Process] in
theorem utf8Len_le {more : List NoteSignature} (h : Shows P s note)
    (h' : Shows P s' { note with signatures := note.signatures ++ more }) :
    utf8Len s.file ≤ utf8Len s'.file := by
  rw [h.file, h'.file, render_append, utf8Len_append]
  exact Nat.le_add_right _ _

section

variable (hP : P.StrictBase64) (hwitness : ∀ process, ∃ name seed,
  WitnessSigner.fromSeed P name seed = .ok (witness process).signer)

include hP hwitness

/-- Only a replacement changes the note, and it adds one line. -/
theorem effect (h : Shows P s note) (heffect : Effect P witness s e s') :
    (∀ process, e ≠ .replace process) ∧ Shows P s' note ∨
      ∃ process note' sig, e = .replace process ∧ s.phase process = .added note' sig ∧
        Shows P s' { note with signatures := note.signatures ++ [sig] } := by
  cases heffect with
  | left he hresult => exact .inl ⟨he, h.leave _ fun sig hsig => absurd hsig (hresult sig)⟩
  | checked hphase => exact .inl ⟨by simp, h.setPhase trivial (by simp [AppendPhase.holdsLock])⟩
  | signed hphase hsig =>
    obtain ⟨name, seed, hsigner⟩ := hwitness _
    exact .inl ⟨by simp, h.setPhase (writable_of_addCheckpoint hsigner hsig)
      (by simp [AppendPhase.holdsLock])⟩
  | locked hlock hphase =>
    have hsig := h.of_phase hphase
    refine .inl ⟨by simp, h.move rfl hsig (fun _ => rfl) (fun other _ hother => ?_) h.reported rfl⟩
    cases hlock.symm.trans (h.holder other hother)
  | reread hphase hparse =>
    have hsig := h.of_phase hphase
    exact .inl ⟨by simp, h.setPhase ⟨((h.parse_eq_ok_iff hP).1 hparse).1.symm, hsig⟩
      fun _ => by rw [hphase]; rfl⟩
  | added hphase hadd =>
    obtain ⟨rfl, hsig⟩ := h.of_phase hphase
    exact .inl ⟨by simp, h.setPhase ⟨hadd, hsig⟩ fun _ => by rw [hphase]; rfl⟩
  | replaced hphase => exact .inr ⟨_, _, _, rfl, hphase, h.replace hphase⟩
  | unlocked hphase =>
    have hmem := h.of_phase hphase
    refine .inl ⟨by simp, h.leave _ fun sig heq => ?_⟩
    rwa [← Except.ok.inj (Option.some.inj heq)]

/-- A step adds one line at the end, or leaves the note as it is. -/
theorem step (h : Shows P s note) (hstep : s.step P witness e = some s') :
    ∃ more, Shows P s' { note with signatures := note.signatures ++ more } := by
  rcases h.effect hP hwitness (effect_of_step hstep) with ⟨-, hsame⟩ | ⟨-, -, sig, -, -, hadded⟩
  · exact ⟨[], by rwa [append_nil]⟩
  · exact ⟨[sig], hadded⟩

theorem run (h : Shows P s note) {es : List (AppendEvent Process)}
    (hrun : run (NoteFile.step · P witness) s es = some s') :
    ∃ more, Shows P s' { note with signatures := note.signatures ++ more } := by
  induction es generalizing s note with
  | nil =>
    cases hrun
    exact ⟨[], by rwa [append_nil]⟩
  | cons e es ih =>
    obtain ⟨t, hstep, hrest⟩ := run_cons_eq_some_iff.1 hrun
    obtain ⟨more, ht⟩ := h.step hP hwitness hstep
    obtain ⟨more', hs'⟩ := ih ht hrest
    exact ⟨more ++ more', by rwa [← append_assoc]⟩

theorem utf8Len_le_iff (h : Shows P s note) (hsize : utf8Len s.file ≤ maxNoteBytes)
    (hstep : s.step P witness e = some s') :
    utf8Len s'.file ≤ maxNoteBytes ↔ s.Fits P e := by
  rcases h.effect hP hwitness (effect_of_step hstep) with
    ⟨he, hsame⟩ | ⟨process, note', sig, rfl, hphase, hadded⟩
  · refine iff_of_true (by rwa [hsame.file, ← h.file]) ?_
    cases e with
    | replace process => exact absurd rfl (he process)
    | _ => trivial
  · have hlength : utf8Len s'.file = utf8Len s.file + utf8Len (sig.line P) := by
      rw [hadded.file, h.file, render_append, utf8Len_append, flatMap_singleton]
    rw [hlength, Fits, hphase]
    constructor
    · rintro hle _ _ heq
      cases heq
      exact hle
    · intro hfits
      exact hfits note' sig rfl

/-- The file stays small enough to be read exactly when every line that went into it fitted. -/
theorem eachStep_fits_iff (h : Shows P s note) (hsize : utf8Len s.file ≤ maxNoteBytes)
    {es : List (AppendEvent Process)}
    (hrun : Transition.run (NoteFile.step · P witness) s es = some s') :
    EachStep (NoteFile.step · P witness) (Fits · P) s es ↔ utf8Len s'.file ≤ maxNoteBytes := by
  refine eachStep_iff (I := fun s => ∃ note, Shows P s note)
    (Q := fun s => utf8Len s.file ≤ maxNoteBytes) ?_ ?_ ?_ ⟨note, h⟩ hsize hrun
  · rintro s e s' ⟨note, h⟩ hstep
    obtain ⟨more, h'⟩ := h.step hP hwitness hstep
    exact ⟨_, h'⟩
  · rintro s e s' ⟨note, h⟩ hsize hstep
    exact h.utf8Len_le_iff hP hwitness hsize hstep
  · rintro s e s' ⟨note, h⟩ hstep hsize
    obtain ⟨more, h'⟩ := h.step hP hwitness hstep
    exact (h.utf8Len_le h').trans hsize

end

end Shows

omit [DecidableEq Process] in
theorem shows_start {file : List Char} (hP : P.StrictBase64)
    (hfile : parse P file = .ok note) :
    Shows P (start file : NoteFile Process) note :=
  ⟨(render_of_parse hP hfile).symm, readable_of_parse hP hfile,
    (fun _ h => by cases h), fun _ => trivial, by simp [start]⟩

/-- However many processes append to a note, and whatever happens to them: at two moments of
a run the file is a note with the text that it had, the later one has the lines of the earlier
in their order, and it has the line of every append that was reported, exactly when every line
that went into the file until then has left it small enough to be read. -/
theorem append_run (hP : P.StrictBase64)
    (hwitness : ∀ process, ∃ name seed,
      WitnessSigner.fromSeed P name seed = .ok (witness process).signer)
    {file : List Char} (hfile : parse P file = .ok note)
    {es es' : List (AppendEvent Process)} (hu : run (step · P witness) (start file) es = some u)
    (hs : run (step · P witness) u es' = some s) :
    EachStep (step · P witness) (Fits · P) (start file) (es ++ es') ↔
      ∃ before after, parse P u.file = .ok ⟨note.text, before⟩ ∧
        parse P s.file = .ok ⟨note.text, before ++ after⟩ ∧
        ∀ sig, .ok sig ∈ s.results → sig ∈ before ++ after := by
  have hstart : Shows P (start file : NoteFile Process) note := shows_start hP hfile
  obtain ⟨more, hshows⟩ := hstart.run hP hwitness hu
  obtain ⟨more', hshows'⟩ := hshows.run hP hwitness hs
  have hrun : run (step · P witness) (start file) (es ++ es') = some s := by
    rw [run_append hu, hs]
  rw [hstart.eachStep_fits_iff hP hwitness ((hstart.parse_eq_ok_iff hP).1 hfile).2 hrun]
  constructor
  · intro hsize
    have hle := (hshows.utf8Len_le hshows').trans hsize
    exact ⟨_, more', (hshows.parse_eq_ok_iff hP).2 ⟨rfl, hle⟩,
      (hshows'.parse_eq_ok_iff hP).2 ⟨rfl, hsize⟩, hshows'.reported⟩
  · rintro ⟨before, after, -, hparse, -⟩
    exact ((hshows'.parse_eq_ok_iff hP).1 hparse).2

section Crowded

open SignedNote

theorem parse_request1 :
    parse standard request1.note = .ok (logNote 1 leafA logSignature1) := by
  decide +kernel

def onesLine : NoteSignature := cosignatureLine onesVerifier 5 onesSignature1

theorem onesWitness_fromSeed (_ : Bool) : ∃ name seed,
    WitnessSigner.fromSeed standard name seed = .ok onesWitness.signer :=
  ⟨['w'], seedOf 1, by decide +kernel⟩

/-- Two processes with one key have both signed when the first of them appends its line. -/
def bothTrace : List (AppendEvent Bool) :=
  [.check false request1, .check true request1, .sign false (fun _ => none) 5,
    .sign true (fun _ => none) 5, .lock true, .reread true, .add true, .replace true, .unlock true,
    .lock false, .reread false, .add false]

theorem append_run_both :
    ∃ s, run (step · standard fun _ => onesWitness) (start request1.note) bothTrace = some s ∧
      s.results = [.ok onesLine, .error (.note .duplicateSignature)] ∧
      ∃ lines, parse standard s.file = .ok ⟨headText 1 leafA, lines⟩ ∧
        onesLine ∈ lines := by
  obtain ⟨s, hs, hresults, hsize⟩ : ∃ s ∈ run (step · standard fun _ => onesWitness)
      (start request1.note) bothTrace,
      s.results = [.ok onesLine, .error (.note .duplicateSignature)] ∧
      utf8Len s.file ≤ maxNoteBytes := by
    decide +kernel
  have hP := strictBase64_standard
  have hstart : Shows standard (start request1.note : NoteFile Bool) _ :=
    shows_start hP parse_request1
  have hfits := (hstart.eachStep_fits_iff hP onesWitness_fromSeed
    ((hstart.parse_eq_ok_iff hP).1 parse_request1).2 hs).2 hsize
  obtain ⟨lines, after, -, hfile, hreported⟩ :=
    (append_run hP onesWitness_fromSeed parse_request1 run_nil hs).1 hfits
  exact ⟨s, hs, hresults, _, hfile, hreported onesLine (by simp [hresults])⟩

/-! ### A note without room -/

theorem run_alone (witness : Process → Witness) {file : List Char} {request : AddCheckpoint}
    {store : Store} {now : Nat} {note' : SignedNote} {sig : NoteSignature}
    (hparse : parse P file = .ok note)
    (htarget : appendTarget P file request (witness process).signer = .ok note.text)
    (hsig : (addCheckpoint P (witness process) store request now).1 = .ok sig)
    (hadd : note.addSignature sig = .ok note') :
    ∃ s, run (step · P witness) (start file) [.check process request, .sign process store now,
        .lock process, .reread process, .add process, .replace process, .unlock process] = some s ∧
      s.file = note'.render P ∧ s.results = [.ok sig] := by
  simp [run, step, start, setPhase, leave, hparse, htarget, hsig, hadd]

def longLine : NoteSignature := ⟨List.replicate 65300 'x', 0, [0]⟩

def crowdedNote : SignedNote := ⟨headText 1 leafA, [logLine logSignature1, longLine]⟩

theorem utf8Len_longLine : utf8Len (longLine.line standard) = 65314 := by
  have hlength (n : Nat) : utf8Len (List.replicate n 'x') = n := by
    rw [utf8Len, utf8_of_ascii fun c hc => by rw [eq_of_mem_replicate hc]; decide,
      length_map, length_replicate]
  have hname : utf8Len longLine.name = 65300 := hlength 65300
  have hdash : utf8Len signaturePrefixText = 4 := rfl
  have hrest : utf8Len (' ' :: standard.base64Encode
      (toBigEndian 4 longLine.keyHash ++ longLine.signature)) = 9 := rfl
  have hend : utf8Len ['\n'] = 1 := rfl
  rw [NoteSignature.line, utf8Len_append, utf8Len_append, utf8Len_append, hdash, hname, hrest, hend]

theorem utf8Len_crowdedNote : utf8Len (crowdedNote.render standard) = 65463 := by
  have hlogged : utf8Len ((logNote 1 leafA logSignature1).render standard) = 149 := by
    decide +kernel
  have hrender := render_append (P := standard) (headText 1 leafA)
    [logLine logSignature1] [longLine]
  rw [flatMap_singleton] at hrender
  exact (congrArg utf8Len hrender).trans
    (by rw [utf8Len_append, utf8Len_longLine]; exact congrArg (· + 65314) hlogged)

theorem parse_crowdedNote :
    parse standard (crowdedNote.render standard) = .ok crowdedNote := by
  have hP := strictBase64_standard
  have hlogged := readable_of_parse hP parse_request1
  have hlong : longLine.Writable := by
    refine ⟨?_, by decide, cons_ne_nil _ _⟩
    have hname (n : Nat) : isValidName (List.replicate (n + 1) 'x') = true := by
      rw [isValidName, any_replicate]
      simp [replicate_succ]
      decide
    exact hname 65299
  have hadd : (logNote 1 leafA logSignature1).addSignature longLine = .ok crowdedNote := by
    rw [addSignature, if_neg (by decide), if_neg (by decide)]
    rfl
  refine parse_render hP (hlogged.addSignature hlong hadd) ?_
  rw [utf8Len_crowdedNote]
  decide

/-- The note is read, has room for a line and no line of the witness. Its cosignature is
appended and reported, and the file is no note any more. -/
theorem append_noteTooLarge :
    parse standard (crowdedNote.render standard) = .ok crowdedNote ∧
      ∃ s, run (step · standard fun _ : Bool => onesWitness)
          (start (crowdedNote.render standard)) [.check true request1,
            .sign true (fun _ => none) 5, .lock true, .reread true, .add true, .replace true,
            .unlock true] = some s ∧
        s.results = [.ok onesLine] ∧ parse standard s.file = .error .noteTooLarge := by
  have hparse := parse_crowdedNote
  have htarget : appendTarget standard (crowdedNote.render standard)
      request1 onesWitness.signer = .ok crowdedNote.text := by
    rw [appendTarget, hparse, parse_request1]
    dsimp only
    rw [if_neg (by simp [crowdedNote, logNote]), if_neg (by decide +kernel), if_neg (by decide)]
  have hadd : crowdedNote.addSignature onesLine =
      .ok ⟨headText 1 leafA, crowdedNote.signatures ++ [onesLine]⟩ := by
    rw [addSignature, if_neg (by decide), if_neg (by decide)]
    rfl
  obtain ⟨s, hrun, hfile, hresults⟩ := run_alone (fun _ : Bool => onesWitness) hparse htarget
    (show (addCheckpoint _ _ (fun _ => none) _ 5).1 = .ok onesLine by decide +kernel) hadd
  refine ⟨hparse, s, hrun, hresults, ?_⟩
  have hline : utf8Len (onesLine.line standard) = 111 := by decide +kernel
  have hsize : utf8Len s.file = 65574 := by
    rw [hfile, render_append, utf8Len_append, flatMap_singleton, hline]
    exact congrArg (· + 111) utf8Len_crowdedNote
  rw [parse, if_pos (by rw [hsize]; decide)]

end Crowded

end NoteFile

end Calybris.Witnesses
