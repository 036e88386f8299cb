import Calybris.Transition.Run
import Calybris.Witness.AddCheckpoint

/-!
# A witness under interleaved requests

Any number of handlers serve requests over one store. A handler reads the latest
head and checks the new one against it, swaps it in later, and signs later still;
other handlers step in between, and a handler can stop at any point. The state
keeps what the run has done: the log-signed heads seen, the consistency checks
made, and the cosignatures returned.

The invariant `Sound` says that every cosigned head is a prefix head of the head
stored now. It rests on the compare-and-swap: what was checked against the head
read is swapped in only where that head is still stored.
-/

namespace Calybris.Witnesses

open Function Merkle Note Text Transition

inductive Phase where
  | idle
  | read (note : SignedNote) (checkpoint : Checkpoint) (now : Nat)
      (latest : Option (TreeHead Bytes32))
  | swapped (note : SignedNote) (checkpoint : Checkpoint) (now : Nat)

/-- A cosignature that was returned, with what was cosigned. -/
structure Cosignature where
  text : List Char
  checkpoint : Checkpoint
  time : Nat
  line : NoteSignature

structure Service (Handler : Type*) where
  store : Store
  phase : Handler → Phase
  seen : List (TreeHead Bytes32)
  checks : List (Check Bytes32)
  cosigned : List Cosignature

inductive Event (Handler : Type*) where
  /-- A request, up to the read of the store and the checks on what was read. -/
  | submit (handler : Handler) (request : AddCheckpoint) (now : Nat)
  | swap (handler : Handler)
  | sign (handler : Handler)
  | crash (handler : Handler)

variable {Handler : Type*} [DecidableEq Handler]

namespace Service

def initial : Service Handler where
  store _ := none
  phase _ := .idle
  seen := []
  checks := []
  cosigned := []

def setPhase (s : Service Handler) (handler : Handler) (phase : Phase) : Service Handler :=
  { s with phase := update s.phase handler phase }

def look (P : Primitives) (s : Service Handler) (handler : Handler) (request : AddCheckpoint)
    (now : Nat) (note : SignedNote) (checkpoint : Checkpoint) : Service Handler :=
  let latest := s.store checkpoint.origin
  let s := { s with
    seen := checkpoint.head :: s.seen
    checks := checksMade latest request checkpoint.head ++ s.checks }
  match checkLatest P latest request checkpoint.head with
  | .error _ => s
  | .ok () => s.setPhase handler (.read note checkpoint now latest)

/-- One step of one handler. The witness's key and logs may differ between the
handlers of one store. -/
def step (P : Primitives) (witness : Handler → Witness) (s : Service Handler) :
    Event Handler → Option (Service Handler)
  | .submit handler request now =>
    match s.phase handler, authenticate P (witness handler) request now with
    | .idle, .ok (note, checkpoint) => some (s.look P handler request now note checkpoint)
    | .idle, .error _ => some s
    | _, _ => none
  | .swap handler =>
    match s.phase handler with
    | .read note checkpoint now latest =>
      match compareAndSwap s.store checkpoint.origin latest checkpoint.head with
      | none => some (s.setPhase handler .idle)
      | some store => some ({ s with store := store }.setPhase handler
          (.swapped note checkpoint now))
    | _ => none
  | .sign handler =>
    match s.phase handler with
    | .swapped note checkpoint now =>
      match (witness handler).signer.cosign P note.text now with
      | .error _ => some (s.setPhase handler .idle)
      | .ok line => some ({ s with
          cosigned := ⟨note.text, checkpoint, now, line⟩ :: s.cosigned }.setPhase handler .idle)
    | _ => none
  | .crash handler => some (s.setPhase handler .idle)

inductive Effect (P : Primitives) (witness : Handler → Witness) (s : Service Handler) :
    Service Handler → Prop
  | refuse (seen : List (TreeHead Bytes32)) (checks : List (Check Bytes32)) :
      Effect P witness s { s with seen := seen ++ s.seen, checks := checks ++ s.checks }
  | read (handler : Handler) (request : AddCheckpoint) (now : Nat) (note : SignedNote)
      (checkpoint : Checkpoint)
      (hopened : authenticate P (witness handler) request now = .ok (note, checkpoint))
      (hcheck : checkLatest P (s.store checkpoint.origin) request checkpoint.head = .ok ()) :
      Effect P witness s ({ s with
        seen := checkpoint.head :: s.seen
        checks := checksMade (s.store checkpoint.origin) request checkpoint.head ++ s.checks
        }.setPhase handler (.read note checkpoint now (s.store checkpoint.origin)))
  | drop (handler : Handler) : Effect P witness s (s.setPhase handler .idle)
  | swap (handler : Handler) (note : SignedNote) (checkpoint : Checkpoint) (now : Nat)
      (hphase : s.phase handler = .read note checkpoint now (s.store checkpoint.origin)) :
      Effect P witness s ({ s with
        store := update s.store checkpoint.origin (some checkpoint.head)
        }.setPhase handler (.swapped note checkpoint now))
  | sign (handler : Handler) (note : SignedNote) (checkpoint : Checkpoint) (now : Nat)
      (line : NoteSignature) (hphase : s.phase handler = .swapped note checkpoint now)
      (hline : (witness handler).signer.cosign P note.text now = .ok line) :
      Effect P witness s ({ s with
        cosigned := ⟨note.text, checkpoint, now, line⟩ :: s.cosigned }.setPhase handler .idle)

variable {P : Primitives} {witness : Handler → Witness} {s s' : Service Handler}
  {e : Event Handler}

theorem effect_of_step (h : s.step P witness e = some s') : Effect P witness s s' := by
  cases e with
  | submit handler request now =>
    simp only [step] at h
    split at h
    · next hopened =>
      cases h
      simp only [look]
      split
      · exact .refuse [_] (checksMade _ _ _)
      · next hcheck => exact .read handler request now _ _ hopened hcheck
    · cases h
      exact .refuse [] []
    · cases h
  | swap handler =>
    simp only [step] at h
    split at h
    · next note checkpoint now latest hphase =>
      by_cases hlatest : s.store checkpoint.origin = latest
      · rw [compareAndSwap, if_pos hlatest] at h
        cases h
        subst hlatest
        exact .swap handler note checkpoint now hphase
      · rw [compareAndSwap, if_neg hlatest] at h
        cases h
        exact .drop handler
    · cases h
  | sign handler =>
    simp only [step] at h
    split at h
    · next note checkpoint now hphase =>
      split at h
      · cases h
        exact .drop handler
      · next line hline =>
        cases h
        exact .sign handler note checkpoint now line hphase hline
    · cases h
  | crash handler =>
    cases h
    exact .drop handler

@[simp] theorem setPhase_store (handler : Handler) (phase : Phase) :
    (s.setPhase handler phase).store = s.store := rfl

theorem setPhase_phase_self (handler : Handler) (phase : Phase) :
    (s.setPhase handler phase).phase handler = phase := update_self ..

theorem Effect.seen_subset (h : Effect P witness s s') :
    (∀ x ∈ s.seen, x ∈ s'.seen) ∧ ∀ x ∈ s.checks, x ∈ s'.checks := by
  cases h with
  | refuse seen checks =>
    exact ⟨fun x hx => List.mem_append_right _ hx, fun x hx => List.mem_append_right _ hx⟩
  | read handler request now note checkpoint hopened hcheck =>
    exact ⟨fun x hx => List.mem_cons_of_mem _ hx, fun x hx => List.mem_append_right _ hx⟩
  | drop | swap | sign => exact ⟨fun x hx => hx, fun x hx => hx⟩

theorem phase_of_setPhase {handler other : Handler} {phase phase' : Phase}
    (h : (s.setPhase handler phase).phase other = phase') :
    (other = handler ∧ phase = phase') ∨ s.phase other = phase' := by
  by_cases hne : other = handler
  · subst hne
    rw [setPhase_phase_self] at h
    exact .inl ⟨rfl, h⟩
  · exact .inr ((update_of_ne hne _ _).symm.trans h)

section Phases

variable {handler : Handler} {note : SignedNote} {checkpoint : Checkpoint} {now : Nat}
  {latest : Option (TreeHead Bytes32)}

theorem Effect.read_cases (h : Effect P witness s s')
    (hphase : s'.phase handler = .read note checkpoint now latest) :
    s.phase handler = .read note checkpoint now latest ∨
      ∃ request, authenticate P (witness handler) request now = .ok (note, checkpoint) ∧
        s.store checkpoint.origin = latest ∧ checkpoint.head ∈ s'.seen ∧
        checkLatest P latest request checkpoint.head = .ok () ∧
        ∀ c ∈ checksMade latest request checkpoint.head, c ∈ s'.checks := by
  cases h with
  | refuse seen checks => exact .inl hphase
  | read other request now' note' checkpoint' hopened hcheck =>
    rcases phase_of_setPhase hphase with ⟨rfl, hset⟩ | hold
    · cases hset
      exact .inr ⟨request, hopened, rfl, List.mem_cons_self, hcheck,
        fun c hc => List.mem_append_left _ hc⟩
    · exact .inl hold
  | drop | swap | sign =>
    rcases phase_of_setPhase hphase with ⟨-, hset⟩ | hold
    · cases hset
    · exact .inl hold

theorem Effect.swapped_cases (h : Effect P witness s s')
    (hphase : s'.phase handler = .swapped note checkpoint now) :
    s.phase handler = .swapped note checkpoint now ∨
      (s.phase handler = .read note checkpoint now (s.store checkpoint.origin) ∧
        s'.store = update s.store checkpoint.origin (some checkpoint.head)) := by
  cases h with
  | refuse seen checks => exact .inl hphase
  | read | drop | sign =>
    rcases phase_of_setPhase hphase with ⟨-, hset⟩ | hold
    · cases hset
    · exact .inl hold
  | swap other note' checkpoint' now' hread =>
    rcases phase_of_setPhase hphase with ⟨rfl, hset⟩ | hold
    · cases hset
      exact .inr ⟨hread, rfl⟩
    · exact .inl hold

theorem Effect.store_cases (h : Effect P witness s s') :
    s'.store = s.store ∨ ∃ handler note checkpoint now,
      s.phase handler = .read note checkpoint now (s.store checkpoint.origin) ∧
        s'.store = update s.store checkpoint.origin (some checkpoint.head) := by
  cases h with
  | refuse | read | drop | sign => exact .inl rfl
  | swap handler note checkpoint now hread =>
    exact .inr ⟨handler, note, checkpoint, now, hread, rfl⟩

theorem Effect.cosigned_cases (h : Effect P witness s s') {r : Cosignature}
    (hr : r ∈ s'.cosigned) :
    r ∈ s.cosigned ∨ ∃ handler note,
      s.phase handler = .swapped note r.checkpoint r.time ∧ r.text = note.text ∧
        (witness handler).signer.cosign P note.text r.time = .ok r.line := by
  cases h with
  | refuse | read | drop | swap => exact .inl hr
  | sign handler note checkpoint now line hswapped hline =>
    rcases List.mem_cons.1 hr with rfl | hr
    · exact .inr ⟨handler, note, hswapped, rfl, hline⟩
    · exact .inl hr

end Phases

variable {es : List (Event Handler)}

section Sizes

def Grows (s : Service Handler) : Prop :=
  ∀ handler note checkpoint now latest,
    s.phase handler = .read note checkpoint now latest → latestSize latest ≤ checkpoint.size

omit [DecidableEq Handler] in
theorem grows_initial : Grows (initial : Service Handler) := by
  intro handler note checkpoint now latest h
  cases h

theorem Effect.grows (h : Effect P witness s s') (hs : Grows s) : Grows s' := by
  intro handler note checkpoint now latest hphase
  rcases h.read_cases hphase with hold | ⟨request, -, -, -, hcheck, -⟩
  · exact hs handler note checkpoint now latest hold
  · exact (checkLatest_eq_ok hcheck).2.1

def SizesLe (a b : Store) : Prop :=
  ∀ origin h, a origin = some h → ∃ h', b origin = some h' ∧ h.size ≤ h'.size

theorem SizesLe.refl (a : Store) : SizesLe a a := fun _ h ha => ⟨h, ha, le_rfl⟩

theorem SizesLe.trans {a b c : Store} (hab : SizesLe a b) (hbc : SizesLe b c) : SizesLe a c := by
  intro origin h ha
  obtain ⟨h', hb, hle⟩ := hab origin h ha
  obtain ⟨h'', hc, hle'⟩ := hbc origin h' hb
  exact ⟨h'', hc, hle.trans hle'⟩

theorem Effect.sizesLe (h : Effect P witness s s') (hs : Grows s) : SizesLe s.store s'.store := by
  intro origin head hstored
  rcases h.store_cases with hstore | ⟨handler, note, checkpoint, now, hread, hstore⟩
  · exact ⟨head, by rw [hstore, hstored], le_rfl⟩
  · by_cases ho : origin = checkpoint.origin
    · subst ho
      have hle := hs handler _ _ _ _ hread
      rw [hstored] at hle
      exact ⟨checkpoint.head, by rw [hstore, update_self], hle⟩
    · exact ⟨head, by rw [hstore, update_of_ne ho, hstored], le_rfl⟩

theorem grows_run (h : run (step P witness) initial es = some s) :
    Grows s :=
  run_invariant (fun hs hstep => (effect_of_step hstep).grows hs) grows_initial h

theorem sizesLe_run (hs : Grows s) (h : run (step P witness) s es = some s') :
    SizesLe s.store s'.store :=
  run_monotone (I := Grows) (R := fun s s' => SizesLe s.store s'.store)
    (fun hs hstep => (effect_of_step hstep).grows hs) (fun s => .refl s.store)
    (fun hab hbc => hab.trans hbc) (fun hs hstep => (effect_of_step hstep).sizesLe hs) hs h

end Sizes

section Soundness

/-- A handler at work, or a cosignature, has the checkpoint its text encodes. -/
structure Reads (P : Primitives) (s : Service Handler) : Prop where
  read : ∀ handler note checkpoint now latest,
    s.phase handler = .read note checkpoint now latest →
      Checkpoint.parse P note.text = .ok checkpoint
  swapped : ∀ handler note checkpoint now,
    s.phase handler = .swapped note checkpoint now →
      Checkpoint.parse P note.text = .ok checkpoint
  cosigned : ∀ r ∈ s.cosigned, Checkpoint.parse P r.text = .ok r.checkpoint

omit [DecidableEq Handler] in
theorem reads_initial : Reads P (initial : Service Handler) where
  read _ _ _ _ _ h := by cases h
  swapped _ _ _ _ h := by cases h
  cosigned r hr := by cases hr

theorem Effect.reads (h : Effect P witness s s') (hs : Reads P s) : Reads P s' where
  read handler note checkpoint now latest hphase := by
    rcases h.read_cases hphase with hold | ⟨request, hopened, -⟩
    · exact hs.read handler note checkpoint now latest hold
    · exact (authentic_of_authenticate hopened).checkpoint_eq
  swapped handler note checkpoint now hphase := by
    rcases h.swapped_cases hphase with hold | ⟨hread, -⟩
    · exact hs.swapped handler note checkpoint now hold
    · exact hs.read handler note checkpoint now _ hread
  cosigned r hr := by
    rcases h.cosigned_cases hr with hold | ⟨handler, note, hswapped, htext, -⟩
    · exact hs.cosigned r hold
    · rw [htext]
      exact hs.swapped handler note r.checkpoint r.time hswapped

variable {leaves : TreeHead Bytes32 → List Bytes32}

/-- What is swapped in, and what was cosigned, is a prefix head of what is stored. -/
structure Sound (P : Primitives) (leaves : TreeHead Bytes32 → List Bytes32)
    (s : Service Handler) : Prop where
  stored : ∀ origin h, s.store origin = some h → h ∈ s.seen ∧ Commits P.hashing leaves h
  read : ∀ handler note checkpoint now latest,
    s.phase handler = .read note checkpoint now latest →
      checkpoint.head ∈ s.seen ∧ Commits P.hashing leaves checkpoint.head ∧
        ∀ old, latest = some old → IsPrefixHead P.hashing leaves old checkpoint.head
  swapped : ∀ handler note checkpoint now,
    s.phase handler = .swapped note checkpoint now →
      ∃ h, s.store checkpoint.origin = some h ∧ IsPrefixHead P.hashing leaves checkpoint.head h
  cosigned : ∀ r ∈ s.cosigned,
    ∃ h, s.store r.checkpoint.origin = some h ∧
      IsPrefixHead P.hashing leaves r.checkpoint.head h

omit [DecidableEq Handler] in
theorem sound_initial : Sound P leaves (initial : Service Handler) where
  stored origin h hs := by cases hs
  read _ _ _ _ _ h := by cases h
  swapped _ _ _ _ h := by cases h
  cosigned r hr := by cases hr

theorem Effect.isPrefixHead (h : Effect P witness s s') (hs : Sound P leaves s)
    (hist : History P.hashing leaves s.seen s.checks) {origin : List Char}
    {a : TreeHead Bytes32}
    (ha : ∃ b, s.store origin = some b ∧ IsPrefixHead P.hashing leaves a b) :
    ∃ b, s'.store origin = some b ∧ IsPrefixHead P.hashing leaves a b := by
  obtain ⟨b, hb, hab⟩ := ha
  rcases h.store_cases with hstore | ⟨handler, note, checkpoint, now, hread, hstore⟩
  · exact ⟨b, by rw [hstore, hb], hab⟩
  · by_cases ho : origin = checkpoint.origin
    · subst ho
      obtain ⟨hseen, -, hextends⟩ := hs.read handler note checkpoint now _ hread
      obtain ⟨hbseen, hbcommits⟩ := hs.stored _ b hb
      refine ⟨checkpoint.head, by rw [hstore, update_self], ?_⟩
      exact hab.trans hist hbseen hseen hbcommits (hextends b hb)
    · exact ⟨b, by rw [hstore, update_of_ne ho, hb], hab⟩

/-- One step keeps the invariant, as long as the heads it has seen commit and the
pairs hashed do not collide. -/
theorem Effect.sound (h : Effect P witness s s') (hs : Sound P leaves s)
    (hist : History P.hashing leaves s'.seen s'.checks) : Sound P leaves s' := by
  obtain ⟨hseen, hchecks⟩ := h.seen_subset
  have hist0 : History P.hashing leaves s.seen s.checks := hist.mono hseen hchecks
  refine ⟨?_, ?_, ?_, ?_⟩
  · intro origin head hstored
    rcases h.store_cases with hstore | ⟨handler, note, checkpoint, now, hread, hstore⟩
    · rw [hstore] at hstored
      obtain ⟨hmem, hcommits⟩ := hs.stored origin head hstored
      exact ⟨hseen _ hmem, hcommits⟩
    · obtain ⟨hmem, hcommits, -⟩ := hs.read handler note checkpoint now _ hread
      rw [hstore] at hstored
      by_cases ho : origin = checkpoint.origin
      · subst ho
        rw [update_self] at hstored
        cases hstored
        exact ⟨hseen _ hmem, hcommits⟩
      · rw [update_of_ne ho] at hstored
        obtain ⟨hmem, hcommits⟩ := hs.stored origin head hstored
        exact ⟨hseen _ hmem, hcommits⟩
  · intro handler note checkpoint now latest hphase
    rcases h.read_cases hphase with hold | ⟨request, -, hlatest, hmem, hcheck, hmade⟩
    · obtain ⟨hmem, hcommits, hextends⟩ := hs.read handler note checkpoint now latest hold
      exact ⟨hseen _ hmem, hcommits, hextends⟩
    · have hold : ∀ old, latest = some old → Commits P.hashing leaves old := by
        intro old hold
        exact (hs.stored checkpoint.origin old (hlatest.trans hold)).2
      exact ⟨hmem, isPrefixHead_of_checkLatest hist hmem hcheck hmade hold⟩
  · intro handler note checkpoint now hphase
    rcases h.swapped_cases hphase with hold | ⟨hread, hstore⟩
    · exact h.isPrefixHead hs hist0 (hs.swapped handler note checkpoint now hold)
    · obtain ⟨-, hcommits, -⟩ := hs.read handler note checkpoint now _ hread
      exact ⟨checkpoint.head, by rw [hstore, update_self], .refl hcommits⟩
  · intro r hr
    rcases h.cosigned_cases hr with hold | ⟨handler, note, hswapped, -, -⟩
    · exact h.isPrefixHead hs hist0 (hs.cosigned r hold)
    · exact h.isPrefixHead hs hist0 (hs.swapped handler note r.checkpoint r.time hswapped)

theorem sound_run (h : run (step P witness) initial es = some s)
    (hist : History P.hashing leaves s.seen s.checks) : Sound P leaves s := by
  refine run_invariant
    (I := fun s => History P.hashing leaves s.seen s.checks → Sound P leaves s)
    ?_ (fun _ => sound_initial) h hist
  intro s e s' hs hstep hist'
  have heffect := effect_of_step hstep
  obtain ⟨hseen, hchecks⟩ := heffect.seen_subset
  exact heffect.sound (hs (hist'.mono hseen hchecks)) hist'

theorem reads_run (h : run (step P witness) initial es = some s) :
    Reads P s :=
  run_invariant (fun hs hstep => (effect_of_step hstep).reads hs) reads_initial h

end Soundness

section Alone

variable {handler : Handler} {request : AddCheckpoint} {now : Nat} {line : NoteSignature}
  {store : Store}

/-- A request that is served alone is served by three steps in a row. -/
theorem run_addCheckpoint (hidle : s.phase handler = .idle)
    (h : addCheckpoint P (witness handler) s.store request now = (.ok line, store)) :
    ∃ s', run (step P witness) s [.submit handler request now, .swap handler, .sign handler] =
        some s' ∧ s'.store = store ∧ ∃ r ∈ s'.cosigned, r.line = line ∧ r.time = now := by
  unfold addCheckpoint at h
  cases hopened : authenticate P (witness handler) request now with
  | error error =>
    rw [hopened] at h
    cases h
  | ok opened =>
    obtain ⟨note, checkpoint⟩ := opened
    simp only [hopened] at h
    cases hcheck : checkLatest P (s.store checkpoint.origin) request checkpoint.head with
    | error error =>
      rw [hcheck] at h
      cases h
    | ok _ =>
      simp only [hcheck, compareAndSwap, if_true] at h
      cases hcosign : (witness handler).signer.cosign P note.text now with
      | error error =>
        rw [hcosign] at h
        cases h
      | ok line' =>
        rw [hcosign] at h
        cases h
        simp only [run, step, hidle, hopened, look, hcheck, setPhase_phase_self,
          setPhase_store, compareAndSwap, if_true, Option.bind_some, hcosign]
        exact ⟨_, rfl, rfl, _, List.mem_cons_self, rfl, rfl⟩

end Alone

end Service

end Calybris.Witnesses
