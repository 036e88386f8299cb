import Calybris.Audit.Policy
import Calybris.Note.Tree
import Calybris.Transition.Run

/-!
# An auditor's view of a log

An auditor keeps the latest checkpoint it accepted, and accepts a next one only with a
consistency proof from it. A `View` adds to the auditor what it has accepted so far and
the consistency checks it has made. Each accepted head is compared with the one before
it only; that any two of them belong to one history comes from chaining what the proofs
show.
-/

namespace Calybris.Audit

open Text Merkle Note Transition List Option

def defaultMaxClockSkew : Nat := 300

structure Auditor where
  log : NoteVerifier
  origin : List Char
  policy : WitnessPolicy
  maxAge : Option Nat
  maxSkew : Nat
  latest : Option Witnessed

namespace Auditor

def new (origin : List Char) (log : NoteVerifier) (policy : WitnessPolicy) : Auditor where
  log := log
  origin := origin
  policy := policy
  maxAge := none
  maxSkew := defaultMaxClockSkew
  latest := none

def withMaxAge (auditor : Auditor) (seconds : Nat) : Auditor :=
  { auditor with maxAge := some seconds }

def withMaxClockSkew (auditor : Auditor) (seconds : Nat) : Auditor :=
  { auditor with maxSkew := seconds }

variable (P : Primitives)

/-- The quorum, the origin and the age of a note; `none` where the age cannot be read. -/
def check (auditor : Auditor) (note : List Char) (now : Nat) :
    Option (Except AuditError Witnessed) :=
  match verifyCheckpointAt P note auditor.log auditor.policy now auditor.maxSkew with
  | .error error => some (.error error)
  | .ok w =>
    if w.checkpoint.origin ≠ auditor.origin then
      some (.error (.wrongOrigin w.checkpoint.origin auditor.origin))
    else
      match auditor.maxAge with
      | none => some (.ok w)
      | some max =>
        w.freshAsOf.map fun fresh => if now - fresh > max then .error .stale else .ok w

/-- What is checked of the next head against the latest accepted one. -/
def compareLatest (old new : TreeHead Bytes32) (proof : List Bytes32) : Except AuditError Unit :=
  if new.size < old.size then .error .shrinking
  else if new.size = old.size ∧ new.root ≠ old.root then .error .inconsistent
  else if 0 < old.size ∧ P.hashing.verifyConsistency old new proof ≠ .ok () then
    .error .inconsistent
  else .ok ()

/-- Accepts the log's next checkpoint, given the consistency proof from the latest one
accepted. The result is that of the call and the auditor after it. -/
def advance (auditor : Auditor) (note : List Char) (proof : List Bytes32) (now : Nat) :
    Option (Except AuditError Witnessed × Auditor) :=
  (auditor.check P note now).map fun checked =>
    match checked with
    | .error error => (.error error, auditor)
    | .ok next =>
      match auditor.latest with
      | none => (.ok next, { auditor with latest := some next })
      | some prev =>
        match compareLatest P prev.checkpoint.head next.checkpoint.head proof with
        | .error error => (.error error, auditor)
        | .ok () => (.ok next, { auditor with latest := some next })

end Auditor

structure Advance where
  note : List Char
  proof : List Bytes32
  now : Nat

/-- An auditor with the checkpoints it has accepted, oldest first, and the heads it has
compared. -/
structure View where
  auditor : Auditor
  accepted : List Witnessed
  checks : List (Check Bytes32)

namespace View

variable (P : Primitives)

def start (auditor : Auditor) : View := ⟨auditor, [], []⟩

def made (auditor : Auditor) (next : Witnessed) (proof : List Bytes32) : List (Check Bytes32) :=
  auditor.latest.toList.map fun prev => ⟨prev.checkpoint.head, next.checkpoint.head, proof⟩

def step (view : View) (call : Advance) : Option View :=
  (view.auditor.advance P call.note call.proof call.now).map fun result =>
    match result.1 with
    | .error _ => { view with auditor := result.2 }
    | .ok next =>
      ⟨result.2, view.accepted ++ [next], view.checks ++ made view.auditor next call.proof⟩

def heads (view : View) : List (TreeHead Bytes32) := view.accepted.map fun w => w.checkpoint.head

end View

namespace Auditor

variable {P : Primitives} {auditor auditor' : Auditor} {note : List Char} {proof : List Bytes32}
  {now : Nat} {next : Witnessed} {old new : TreeHead Bytes32}

theorem isSome_check (auditor : Auditor) (note : List Char) (now : Nat) :
    (auditor.check P note now).isSome := by
  unfold check
  split
  · rfl
  · next w hw =>
    split
    · rfl
    · split
      · rfl
      · rw [isSome_map]
        exact isSome_freshAsOf_of_verifyQuorum hw

theorem of_check (h : auditor.check P note now = some (.ok next)) :
    verifyCheckpointAt P note auditor.log auditor.policy now auditor.maxSkew = .ok next ∧
      next.checkpoint.origin = auditor.origin := by
  unfold check at h
  split at h
  · cases h
  next w hw =>
  split_ifs at h with horigin
  · cases h
  have hnext : w = next := by
    split at h
    · exact Except.ok.inj (Option.some.inj h)
    · obtain ⟨fresh, -, hok⟩ := map_eq_some_iff.1 h
      split_ifs at hok
      exact Except.ok.inj hok
  exact ⟨hnext ▸ hw, hnext ▸ not_ne_iff.1 horigin⟩

theorem compareLatest_eq_ok (h : compareLatest P old new proof = .ok ()) :
    old.size ≤ new.size ∧ (1 ≤ old.size → P.hashing.verifyConsistency old new proof = .ok ()) := by
  unfold compareLatest at h
  split_ifs at h with hlt hroot hproof
  refine ⟨by omega, fun hpos => ?_⟩
  by_contra hne
  exact hproof ⟨hpos, hne⟩

theorem advance_error {error : AuditError}
    (h : auditor.advance P note proof now = some (.error error, auditor')) :
    auditor' = auditor := by
  obtain ⟨checked, -, heq⟩ := map_eq_some_iff.1 h
  cases checked with
  | error e => exact (Prod.mk.inj heq).2.symm
  | ok next =>
    simp only at heq
    split at heq
    · cases heq
    · split at heq
      · exact (Prod.mk.inj heq).2.symm
      · cases heq

theorem check_of_advance (h : auditor.advance P note proof now = some (.ok next, auditor')) :
    auditor.check P note now = some (.ok next) := by
  obtain ⟨checked, hcheck, heq⟩ := map_eq_some_iff.1 h
  cases checked with
  | error e => cases heq
  | ok w =>
    have hw : w = next := by
      simp only at heq
      split at heq
      · exact Except.ok.inj (Prod.mk.inj heq).1
      · split at heq
        · cases heq
        · exact Except.ok.inj (Prod.mk.inj heq).1
    rw [hcheck, hw]

theorem advance_ok (h : auditor.advance P note proof now = some (.ok next, auditor')) :
    auditor' = { auditor with latest := some next } ∧
      ∀ prev, auditor.latest = some prev →
        compareLatest P prev.checkpoint.head next.checkpoint.head proof = .ok () := by
  obtain ⟨checked, -, heq⟩ := map_eq_some_iff.1 h
  cases checked with
  | error e => cases heq
  | ok w =>
    simp only at heq
    split at heq
    · next hlatest =>
      obtain ⟨hw, rfl⟩ := Prod.mk.inj heq
      cases hw
      refine ⟨rfl, fun prev hprev => ?_⟩
      rw [hlatest] at hprev
      cases hprev
    · next old hlatest =>
      split at heq
      · cases heq
      · next hcompare =>
        obtain ⟨hw, rfl⟩ := Prod.mk.inj heq
        cases hw
        refine ⟨rfl, fun prev hprev => ?_⟩
        rw [hlatest] at hprev
        cases hprev
        exact hcompare

end Auditor

namespace View

variable {P : Primitives} {view view' : View} {call : Advance}
  {leaves : TreeHead Bytes32 → List Bytes32}

inductive Effect (P : Primitives) (view view' : View) : Prop
  | refused (h : view' = view)
  | accepted (next : Witnessed) (proof : List Bytes32)
      (hview : view' = ⟨{ view.auditor with latest := some next }, view.accepted ++ [next],
        view.checks ++ made view.auditor next proof⟩)
      (hcompare : ∀ prev, view.auditor.latest = some prev →
        Auditor.compareLatest P prev.checkpoint.head next.checkpoint.head proof = .ok ())

theorem effect_of_step (h : view.step P call = some view') : Effect P view view' := by
  obtain ⟨⟨result, auditor⟩, hadvance, heq⟩ := map_eq_some_iff.1 h
  cases result with
  | error error =>
    obtain rfl := Auditor.advance_error hadvance
    exact .refused heq.symm
  | ok next =>
    obtain ⟨rfl, hcompare⟩ := Auditor.advance_ok hadvance
    exact .accepted next call.proof heq.symm hcompare

theorem isSome_step (view : View) (call : Advance) : (view.step P call).isSome := by
  rw [step, isSome_map, Auditor.advance, isSome_map]
  exact Auditor.isSome_check _ _ _

theorem exists_run (view : View) (calls : List Advance) :
    ∃ view', run (step P) view calls = some view' := by
  induction calls generalizing view with
  | nil => exact ⟨view, rfl⟩
  | cons call calls ih =>
    obtain ⟨next, hnext⟩ := isSome_iff_exists.1 (isSome_step (P := P) view call)
    obtain ⟨last, hlast⟩ := ih next
    exact ⟨last, run_cons_eq_some_iff.2 ⟨next, hnext, hlast⟩⟩

/-- What is last in a list, where each relates to those after it, is related to by all
the others. -/
theorem eq_or_rel_of_getLast? {α : Type} {R : α → α → Prop} {l : List α} {a z : α}
    (h : l.Pairwise R) (hlast : l.getLast? = some z) (ha : a ∈ l) : a = z ∨ R a z := by
  obtain ⟨front, rfl⟩ := getLast?_eq_some_iff.1 hlast
  rcases mem_append.1 ha with hfront | hz
  · exact .inr ((pairwise_append.1 h).2.2 a hfront z (mem_singleton_self z))
  · exact .inl (mem_singleton.1 hz)

theorem pairwise_concat {α : Type} {R : α → α → Prop} {l : List α} {b : α}
    (h : l.Pairwise R) (hlast : ∀ a ∈ l, R a b) : (l ++ [b]).Pairwise R := by
  refine pairwise_append.2 ⟨h, pairwise_singleton _ _, ?_⟩
  intro a ha c hc
  rw [mem_singleton.1 hc]
  exact hlast a ha

/-- The latest checkpoint is the last one accepted, and sizes do not decrease. -/
structure Grows (view : View) : Prop where
  latest : view.auditor.latest = view.accepted.getLast?
  sizes : view.heads.Pairwise fun a b => a.size ≤ b.size

theorem Grows.exists_latest (h : Grows view) {a : TreeHead Bytes32} (ha : a ∈ view.heads) :
    ∃ prev, view.auditor.latest = some prev ∧ view.heads.getLast? = some prev.checkpoint.head := by
  obtain ⟨w, hw, -⟩ := mem_map.1 ha
  have hsome : view.auditor.latest = some (view.accepted.getLast (ne_nil_of_mem hw)) := by
    rw [h.latest, getLast?_eq_some_getLast]
  refine ⟨_, hsome, ?_⟩
  rw [heads, getLast?_map, ← h.latest, hsome]
  rfl

theorem Effect.grows (h : Effect P view view') (hview : Grows view) : Grows view' := by
  cases h with
  | refused h => rwa [h]
  | accepted next proof hview' hcompare =>
    subst hview'
    refine ⟨by simp, ?_⟩
    rw [heads, map_append, map_singleton]
    refine pairwise_concat hview.sizes ?_
    intro a ha
    obtain ⟨prev, hprev, hlast⟩ := hview.exists_latest ha
    obtain ⟨hle, -⟩ := Auditor.compareLatest_eq_ok (hcompare prev hprev)
    rcases eq_or_rel_of_getLast? hview.sizes hlast ha with rfl | hsize
    · exact hle
    · exact hsize.trans hle

def OneHistory (P : Primitives) (leaves : TreeHead Bytes32 → List Bytes32) (view : View) : Prop :=
  view.heads.Pairwise fun a b => 1 ≤ a.size → IsPrefixHead P.hashing leaves a b

/-- The next head is compared with the latest one, and the proofs chain. -/
theorem Effect.oneHistory (h : Effect P view view') (hgrows : Grows view)
    (hview : OneHistory P leaves view)
    (hist : History P.hashing leaves view'.heads view'.checks) : OneHistory P leaves view' := by
  cases h with
  | refused h => rwa [h]
  | accepted next proof hview' hcompare =>
    subst hview'
    rw [heads, map_append, map_singleton] at hist
    rw [OneHistory, heads, map_append, map_singleton]
    refine pairwise_concat hview ?_
    intro a ha hpos
    obtain ⟨prev, hprev, hlast⟩ := hgrows.exists_latest ha
    have hmem : prev.checkpoint.head ∈ view.heads := mem_of_getLast? hlast
    have hle : a.size ≤ prev.checkpoint.head.size := by
      rcases eq_or_rel_of_getLast? hgrows.sizes hlast ha with rfl | hsize
      · exact le_rfl
      · exact hsize
    obtain ⟨-, hproof⟩ := Auditor.compareLatest_eq_ok (hcompare prev hprev)
    have hmade : (⟨prev.checkpoint.head, next.checkpoint.head, proof⟩ : Check Bytes32) ∈
        view.checks ++ made view.auditor next proof := by
      simp [made, hprev]
    have hnext : IsPrefixHead P.hashing leaves prev.checkpoint.head next.checkpoint.head :=
      isPrefixHead_of_verifyConsistency hist (by simp) hmade (hpos.trans hle)
        (hproof (hpos.trans hle))
    rcases eq_or_rel_of_getLast? hview hlast ha with rfl | hgrows
    · exact hnext
    · have hseen : prev.checkpoint.head ∈
          view.accepted.map (fun w => w.checkpoint.head) ++ [next.checkpoint.head] :=
        mem_append_left _ hmem
      exact (hgrows hpos).trans hist hseen (by simp)
        (commits_of_seen hist hseen (hpos.trans hle)) hnext

theorem Effect.subset (h : Effect P view view') :
    (∀ a ∈ view.heads, a ∈ view'.heads) ∧ ∀ c ∈ view.checks, c ∈ view'.checks := by
  cases h with
  | refused h => simp [h]
  | accepted next proof hview' hcompare =>
    subst hview'
    refine ⟨fun a ha => ?_, fun c hc => mem_append_left _ hc⟩
    rw [heads, map_append]
    exact mem_append_left _ ha

theorem grows_run {auditor : Auditor} (hauditor : auditor.latest = none) {calls : List Advance}
    (h : run (step P) (start auditor) calls = some view) : Grows view :=
  run_invariant (fun hview hstep => (effect_of_step hstep).grows hview) ⟨hauditor, .nil⟩ h

theorem oneHistory_run {auditor : Auditor} (hauditor : auditor.latest = none)
    {calls : List Advance} (h : run (step P) (start auditor) calls = some view)
    (hist : History P.hashing leaves view.heads view.checks) : OneHistory P leaves view := by
  have hstart : OneHistory P leaves (start auditor) := List.Pairwise.nil
  refine (run_invariant (I := fun view => Grows view ∧
    (History P.hashing leaves view.heads view.checks → OneHistory P leaves view))
    ?_ ⟨⟨hauditor, .nil⟩, fun _ => hstart⟩ h).2 hist
  rintro view call view' ⟨hgrows, hone⟩ hstep
  have heffect := effect_of_step hstep
  obtain ⟨hheads, hchecks⟩ := heffect.subset
  exact ⟨heffect.grows hgrows,
    fun hist => heffect.oneHistory hgrows (hone (hist.mono hheads hchecks)) hist⟩

/-- However an auditor is advanced, what it accepts is one growing history: every call
returns, the latest checkpoint is the last accepted, sizes do not decrease, and where the
heads commit to leaf lists and the pairs hashed do not collide, each head is the head of a
prefix of every later one. A call that fails leaves the auditor as it was. -/
theorem advance_history (auditor : Auditor) (hauditor : auditor.latest = none)
    (calls : List Advance) :
    ∃ view, run (step P) (start auditor) calls = some view ∧
      view.auditor.latest = view.accepted.getLast? ∧
      (view.heads.Pairwise fun a b => a.size ≤ b.size) ∧
      (∀ leaves, History P.hashing leaves view.heads view.checks → OneHistory P leaves view) ∧
      ∀ note proof now error auditor',
        view.auditor.advance P note proof now = some (.error error, auditor') →
          auditor' = view.auditor := by
  obtain ⟨view, hrun⟩ := exists_run (P := P) (start auditor) calls
  have hgrows := grows_run hauditor hrun
  exact ⟨view, hrun, hgrows.latest, hgrows.sizes, fun _ hist => oneHistory_run hauditor hrun hist,
    fun _ _ _ _ _ => Auditor.advance_error⟩

section TwoLeaves

def twoAuditor : Auditor :=
  Auditor.new ['o'] logVerifier
    ⟨[onesVerifier], 1, by decide, by decide, by decide, List.pairwise_singleton _ _⟩

/-- The log grows by a leaf between two calls. -/
def twoCalls : List Advance :=
  [⟨note1.render standard, [], 5⟩, ⟨note2.render standard, [leafB], 6⟩]

theorem twoCalls_heads :
    (run (step standard) (start twoAuditor) twoCalls).map heads =
      some [checkpoint1.head, checkpoint2.head] := by
  decide +kernel

theorem twoCalls_checks :
    (run (step standard) (start twoAuditor) twoCalls).map View.checks =
      some [⟨checkpoint1.head, checkpoint2.head, [leafB]⟩] := by
  decide +kernel

theorem advance_history_two :
    ∃ view, run (step standard) (start twoAuditor) twoCalls = some view ∧
      view.heads = [checkpoint1.head, checkpoint2.head] ∧
      OneHistory standard twoLeaves view := by
  obtain ⟨view, hrun, -, -, hone, -⟩ := advance_history (P := standard) twoAuditor rfl twoCalls
  have hheads := twoCalls_heads
  have hchecks := twoCalls_checks
  rw [hrun, map_some, Option.some.injEq] at hheads hchecks
  refine ⟨view, hrun, hheads, hone twoLeaves ?_⟩
  rw [hheads, hchecks]
  exact history_two

end TwoLeaves

end View

end Calybris.Audit
