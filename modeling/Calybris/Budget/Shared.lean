import Calybris.Budget.Finance
import Calybris.Budget.Linear

/-!
# The engine with its callers, its observers and their history

Observers take snapshots and certificates while the callers work. A snapshot waits
until no call is in the gate and is then one step; a certificate takes its snapshot
first and turns to the baseline in a later step of its own.

The history has a clock that counts the steps. It records what every call returned,
with the times at which the call began and ended, and every snapshot and certificate.
-/

namespace Calybris.Budget

open Finset Function Transition

variable {Tenant : Type*} [LinearOrder Tenant] {n m : Nat}

structure Reply (Tenant : Type*) where
  began : Nat
  ended : Nat
  call : Call Tenant
  outcome : Outcome

def Reply.op (r : Reply Tenant) : Option (Op Tenant) := r.call.request.op r.outcome

structure Taken (Tenant : Type*) where
  began : Nat
  captured : Nat
  ended : Nat
  snapshot : BudgetSnapshot Tenant

inductive Observer (Tenant : Type*) where
  | idle
  /-- `try_snapshot` waits for the gate. -/
  | snapshot (began : Nat)
  | taken (began captured : Nat)
      (result : Except SnapshotAllocatorError (BudgetSnapshot Tenant))
  | certify
  | rotate (snapshot : BudgetSnapshot Tenant)
  | panicked

structure History (Tenant : Type*) (n : Nat) where
  clock : Nat
  /-- The last call of each thread, with the time at which it began. -/
  calls : Fin n → Option (Nat × Call Tenant)
  replies : List (Reply Tenant)
  captures : List (BudgetSnapshot Tenant)
  snapshots : List (Taken Tenant)
  certificates : List (BudgetSnapshot Tenant × Int)

namespace History

variable (h : History Tenant n)

def empty : History Tenant n := ⟨0, fun _ => none, [], [], [], []⟩

def tick : History Tenant n := { h with clock := h.clock + 1 }

/-- A thread comes to a program counter; if its call has returned, that is a reply. -/
def arrive (i : Fin n) (p : Pc Tenant) : History Tenant n :=
  match p, h.calls i with
  | .idle (some outcome), some (began, call) =>
    { h.tick with replies := h.replies ++ [⟨began, h.clock, call, outcome⟩] }
  | _, _ => h.tick

def begin (i : Fin n) (call : Call Tenant) : History Tenant n :=
  { h with calls := update h.calls i (some (h.clock, call)) }

end History

structure Shared (Tenant : Type*) (n m : Nat) where
  core : State Tenant n
  registry : Registry Tenant
  observers : Fin m → Observer Tenant
  history : History Tenant n

namespace Shared

inductive Event (Tenant : Type*) (n m : Nat) where
  | core (event : Budget.Event Tenant n)
  | trySnapshot (observer : Fin m)
  | certifyLedger (observer : Fin m)
  | observe (observer : Fin m)

/-- A call, and as many steps of its thread. -/
def Event.called (i : Fin n) (call : Call Tenant) (steps : Nat) : List (Event Tenant n m) :=
  .core (.call i call) :: List.replicate steps (.core (.advance i false))

def start (e : Engine Tenant) (registry : Registry Tenant) : Shared Tenant n m where
  core := ⟨e, fun _ => .idle none⟩
  registry := registry
  observers _ := .idle
  history := .empty

def init : Shared Tenant n m := start .new .new

variable (s : Shared Tenant n m)

/-- The keys of the maps after a step of a thread at `p`. -/
def keep (p : Pc Tenant) : Registry Tenant :=
  match p with
  | .ensure t _ =>
    if (s.core.engine.tenantBudgets t).isNone then
      { s.registry with tenants := s.registry.tenants ++ [t] }
    else s.registry
  | _ => s.registry

def move (j : Fin m) (o : Observer Tenant) : Shared Tenant n m :=
  { s with observers := update s.observers j o, history := s.history.tick }

def capture (j : Fin m)
    (next : Except SnapshotAllocatorError (BudgetSnapshot Tenant) → Observer Tenant) :
    Shared Tenant n m :=
  match s.core.engine.trySnapshot s.registry.tenants with
  | .error err => s.move j (next (.error err))
  | .ok (engine, snapshot) =>
    { s.move j (next (.ok snapshot)) with
      core := { s.core with engine := engine }
      registry := { s.registry with snapshotVersion := snapshot.version }
      history := { s.history.tick with captures := s.history.captures ++ [snapshot] } }

def observe (j : Fin m) : Option (Shared Tenant n m) :=
  match s.observers j with
  | .idle | .panicked => none
  | .snapshot began =>
    if s.core.gateFree then some (s.capture j (.taken began s.history.clock)) else none
  | .taken began captured result =>
    match result with
    | .error _ => some (s.move j .idle)
    | .ok snapshot =>
      some { s.move j .idle with
        history := { s.history.tick with
          snapshots := s.history.snapshots ++ [⟨began, captured, s.history.clock, snapshot⟩] } }
  | .certify =>
    if s.core.gateFree then
      some (s.capture j fun result =>
        match result with
        | .error _ => .panicked
        | .ok snapshot => .rotate snapshot)
    else none
  | .rotate snapshot =>
    let certified := Budget.certifyLedger s.registry.lastCertifiedCommittedTotal snapshot
    some { s.move j .idle with
      registry := { s.registry with lastCertifiedCommittedTotal := certified.2 }
      history := { s.history.tick with
        certificates := s.history.certificates ++ [(snapshot, certified.1)] } }

def step : Event Tenant n m → Option (Shared Tenant n m)
  | .core (.call i call) =>
    (s.core.step (.call i call)).map fun core =>
      { s with
        core := core
        history := (s.history.begin i call).arrive i (core.pc i) }
  | .core (.advance i fails) =>
    (s.core.step (.advance i fails)).map fun core =>
      { s with
        core := core
        registry := s.keep (s.core.pc i)
        history := s.history.arrive i (core.pc i) }
  | .trySnapshot j =>
    match s.observers j with
    | .idle => some (s.move j (.snapshot s.history.clock))
    | _ => none
  | .certifyLedger j =>
    match s.observers j with
    | .idle => some (s.move j .certify)
    | _ => none
  | .observe j => s.observe j

/-! ### What a step can be -/

def after (j : Fin m) (o : Observer Tenant) : Shared Tenant n m :=
  let snapshot := s.core.engine.picture s.registry.tenants
  { s.move j o with
    core := { s.core with engine := { s.core.engine with nextId := s.core.engine.nextId + 1 } }
    registry := { s.registry with snapshotVersion := snapshot.version }
    history := { s.history.tick with captures := s.history.captures ++ [snapshot] } }

inductive Step : Shared Tenant n m → Prop
  | call {i c} (hidle : (s.core.pc i).inProgress = false) :
      Step { s with
        core := ⟨s.core.engine, update s.core.pc i c.start⟩
        history := (s.history.begin i c).arrive i c.start }
  | advance {i fails e' p'}
      (h : Budget.advance s.core.free fails s.core.engine s.core.gateFree (s.core.pc i) =
        some (e', p')) :
      Step { s with
        core := ⟨e', update s.core.pc i p'⟩
        registry := s.keep (s.core.pc i)
        history := s.history.arrive i p' }
  | ask {j o} (hj : s.observers j = .idle) (ho : o = .snapshot s.history.clock ∨ o = .certify) :
      Step (s.move j o)
  | take {j o} (hgate : s.core.gateFree) (hlt : s.core.engine.nextId < recoveryAllocatorMask)
      (ho : (∃ began, s.observers j = .snapshot began ∧
          o = .taken began s.history.clock (.ok (s.core.engine.picture s.registry.tenants))) ∨
        s.observers j = .certify ∧ o = .rotate (s.core.engine.picture s.registry.tenants)) :
      Step (s.after j o)
  | refuse {j o} (hfull : ¬ s.core.engine.nextId < recoveryAllocatorMask)
      (ho : (∃ began, s.observers j = .snapshot began ∧
          o = .taken began s.history.clock (.error .allocatorExhausted)) ∨
        s.observers j = .certify ∧ o = .panicked) :
      Step (s.move j o)
  | give {j began captured snapshot} (hj : s.observers j = .taken began captured (.ok snapshot)) :
      Step { s.move j .idle with
        history := { s.history.tick with
          snapshots := s.history.snapshots ++ [⟨began, captured, s.history.clock, snapshot⟩] } }
  | fail {j began captured err} (hj : s.observers j = .taken began captured (.error err)) :
      Step (s.move j .idle)
  | certify {j snapshot} (hj : s.observers j = .rotate snapshot) :
      Step { s.move j .idle with
        registry := { s.registry with lastCertifiedCommittedTotal :=
          (Budget.certifyLedger s.registry.lastCertifiedCommittedTotal snapshot).2 }
        history := { s.history.tick with
          certificates := s.history.certificates ++ [(snapshot,
            (Budget.certifyLedger s.registry.lastCertifiedCommittedTotal snapshot).1)] } }

variable {s} {s' : Shared Tenant n m}

theorem capture_eq (j : Fin m)
    (next : Except SnapshotAllocatorError (BudgetSnapshot Tenant) → Observer Tenant) :
    s.capture j next =
      if s.core.engine.nextId < recoveryAllocatorMask then
        s.after j (next (.ok (s.core.engine.picture s.registry.tenants)))
      else s.move j (next (.error .allocatorExhausted)) := by
  by_cases hlt : s.core.engine.nextId < recoveryAllocatorMask
  · simp only [capture, Engine.trySnapshot, if_pos hlt]
    rfl
  · simp only [capture, Engine.trySnapshot, if_neg hlt]

theorem step_observe {j : Fin m} (h : s.observe j = some s') : s.Step s' := by
  unfold observe at h
  split at h
  · cases h
  · cases h
  · next began hj =>
    split at h
    · next hgate =>
      cases h
      rw [capture_eq]
      split
      · next hlt => exact .take hgate hlt (.inl ⟨began, hj, rfl⟩)
      · next hfull => exact .refuse hfull (.inl ⟨began, hj, rfl⟩)
    · cases h
  · next hj =>
    split at h <;> cases h
    · exact .fail hj
    · exact .give hj
  · next hj =>
    split at h
    · next hgate =>
      cases h
      rw [capture_eq]
      split
      · next hlt => exact .take hgate hlt (.inr ⟨hj, rfl⟩)
      · next hfull => exact .refuse hfull (.inr ⟨hj, rfl⟩)
    · cases h
  · next hj =>
    cases h
    exact .certify hj

theorem step_inv {ev : Event Tenant n m} (h : s.step ev = some s') : s.Step s' := by
  cases ev with
  | core ev =>
    cases ev with
    | call i c =>
      obtain ⟨core, hcore, rfl⟩ := Option.map_eq_some_iff.1 h
      simp only [State.step] at hcore
      split at hcore
      · cases hcore
      · next hidle =>
        cases hcore
        simp only [update_self]
        exact .call (by simpa using hidle)
    | advance i fails =>
      obtain ⟨core, hcore, rfl⟩ := Option.map_eq_some_iff.1 h
      obtain ⟨⟨e', p'⟩, hadvance, rfl⟩ := Option.map_eq_some_iff.1 hcore
      simp only [update_self]
      exact .advance hadvance
  | trySnapshot j =>
    simp only [step] at h
    split at h
    · next hj =>
      cases h
      exact .ask hj (.inl rfl)
    · cases h
  | certifyLedger j =>
    simp only [step] at h
    split at h
    · next hj =>
      cases h
      exact .ask hj (.inr rfl)
    · cases h
  | observe j => exact step_observe h

end Shared

end Calybris.Budget
