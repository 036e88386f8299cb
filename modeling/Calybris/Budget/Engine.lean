import Mathlib.Algebra.BigOperators.Group.Finset.Basic
import Mathlib.Data.Fintype.Basic
import Calybris.Transition.Run

/-!
# The budget engine, one atomic step at a time

A call on the engine is cut where other threads can come in between: at each lock
section, each load, each attempt of a compare-and-swap loop, and each fetch-add or
fetch-sub. What a thread has done so far and still has to do is its program counter.

The atomics of a tenant are shared handles: a thread finds them once, under the lock
of their map, and uses them after it let the lock go. Tenants are never removed, so
the model looks them up by tenant at each use.

A lock that stays held from one step to the next is held by the threads whose
program counter stands inside its section. Sections without a step inside are one
step.
-/

namespace Calybris.Budget

open Finset Function

/-! ### 64-bit integers -/

def InI64 (x : Int) : Prop := -2 ^ 63 ≤ x ∧ x < 2 ^ 63

instance (x : Int) : Decidable (InI64 x) := inferInstanceAs (Decidable (_ ∧ _))

def wrap (x : Int) : Int := Int.bmod x (2 ^ 64)

theorem wrap_of_inI64 {x : Int} (h : InI64 x) : wrap x = x := by
  obtain ⟨h1, h2⟩ := h
  exact Int.bmod_eq_of_le_mul_two (by omega) (by omega)

def checkedAdd (x y : Int) : Option Int :=
  if InI64 (x + y) then some (x + y) else none

theorem checkedAdd_eq_some {x y z : Int} (h : checkedAdd x y = some z) :
    z = x + y ∧ InI64 z := by
  unfold checkedAdd at h
  split at h
  · cases h
    exact ⟨rfl, ‹_›⟩
  · cases h

theorem inI64_toInt (x : Int64) : InI64 x.toInt := by
  have h1 := x.le_toInt
  have h2 := x.toInt_lt
  exact ⟨by omega, by omega⟩

/-! ### Results -/

inductive BudgetReservation where
  | reserved (remaining : Int)
  | insufficient (remaining required : Int)
  | missingTenant
  | missingReservation
  | exposureLimitExceeded (current max : Int)
  | overflow (current : Int)
  deriving DecidableEq, Repr

inductive TopUpResult where
  | toppedUp (added newInitial remaining : Int)
  | missingTenant
  | invalidAmount
  | overflow
  deriving DecidableEq, Repr

inductive BudgetConfigurationError where
  | negativeAmount (field : String) (value : Int)
  deriving DecidableEq, Repr

inductive BudgetSettlement where
  | committed (remaining actual : Int)
  | released (remaining returned : Int)
  | overrun (remaining : Int)
  | invalidAmount
  | missingReservation
  | missingTenant
  | overflow (remaining : Int)
  deriving DecidableEq, Repr

inductive Outcome where
  | configured (error : Option BudgetConfigurationError)
  | topUp (result : TopUpResult)
  | reservation (result : BudgetReservation) (id : Option Nat)
  | settlement (result : BudgetSettlement)
  deriving DecidableEq, Repr

/-! ### The engine -/

structure ReservationRecord (Tenant : Type*) where
  tenant : Tenant
  reserved : Int

def recoveryAllocatorMask : Nat := 2 ^ 63 - 1

structure Engine (Tenant : Type*) where
  tenantBudgets : Tenant → Option Int
  initialMicrocents : Tenant → Option Int
  committedMicrocents : Tenant → Option Int
  reservations : Nat → Option (ReservationRecord Tenant)
  maxReservedMicrocents : Tenant → Option Int
  tenantReservedTotals : Tenant → Option Int
  nextId : Nat
  overflowed : Bool

variable {Tenant : Type*} [DecidableEq Tenant]

namespace Engine

def new : Engine Tenant where
  tenantBudgets _ := none
  initialMicrocents _ := none
  committedMicrocents _ := none
  reservations _ := none
  maxReservedMicrocents _ := none
  tenantReservedTotals _ := none
  nextId := 1
  overflowed := false

variable (e : Engine Tenant)

def remaining (t : Tenant) : Int := (e.tenantBudgets t).getD 0

def initial (t : Tenant) : Int := (e.initialMicrocents t).getD 0

def committed (t : Tenant) : Int := (e.committedMicrocents t).getD 0

def reservedTotal (t : Tenant) : Int := (e.tenantReservedTotals t).getD 0

/-- Records whether the result of an unchecked operation is out of range. -/
def check (x : Int) : Engine Tenant :=
  { e with overflowed := e.overflowed || !decide (InI64 x) }

def setBudget (t : Tenant) (x : Int) : Engine Tenant :=
  { e with tenantBudgets := update e.tenantBudgets t (some x) }

def setInitial (t : Tenant) (x : Int) : Engine Tenant :=
  { e with initialMicrocents := update e.initialMicrocents t (some x) }

def setCommitted (t : Tenant) (x : Int) : Engine Tenant :=
  { e with committedMicrocents := update e.committedMicrocents t (some x) }

def setReservedTotal (t : Tenant) (x : Int) : Engine Tenant :=
  { e with tenantReservedTotals := update e.tenantReservedTotals t (some x) }

def insertTenant (t : Tenant) (b : Int) : Engine Tenant :=
  { e with
    tenantBudgets := update e.tenantBudgets t (some b)
    initialMicrocents := update e.initialMicrocents t (some b)
    committedMicrocents := update e.committedMicrocents t (some 0)
    tenantReservedTotals := update e.tenantReservedTotals t (some 0) }

def fetchAddBudget (t : Tenant) (x : Int) : Engine Tenant :=
  (e.check (e.remaining t + x)).setBudget t (wrap (e.remaining t + x))

def fetchSubTotal (t : Tenant) (x : Int) : Engine Tenant :=
  (e.check (e.reservedTotal t - x)).setReservedTotal t (wrap (e.reservedTotal t - x))

def insertReservation (id : Nat) (r : ReservationRecord Tenant) : Engine Tenant :=
  { e with reservations := update e.reservations id (some r) }

def removeReservation (id : Nat) : Engine Tenant :=
  { e with reservations := update e.reservations id none }

end Engine

/-! ### Program counters -/

inductive TopUpStage where
  | lookup
  | lock
  /-- From here on the lock of the initial amounts is held. -/
  | load (newInitial : Int)
  | credit (newInitial current : Int)
  | store (newInitial remaining : Int)

inductive ReserveStage where
  | lookup
  | readLimit
  | loadTotal (max : Int)
  | increment (max current : Int)
  | allocate
  /-- Takes the amount off the reserved total again; with the balance found where that
  did not suffice, without where the identifiers are used up. -/
  | undo (insufficient : Option Int)
  | reportOverflow
  | load (id : Nat)
  | debit (id : Nat) (current : Int)
  | insert (id : Nat) (remaining : Int)

/-- The lock of the reservations is held in every stage, the one of the committed
amounts from `load` to `store`. -/
inductive CommitStage where
  | lookup
  | lockCommitted
  | load (newCommitted : Int)
  | debit (newCommitted current : Int)
  /-- Puts the record back; with the balance found where the debit failed. -/
  | reinsert (overrun : Option Int)
  | reportOverflow
  | store (newCommitted : Int)
  | refund
  | subtract
  | report

/-- The lock of the reservations is held in every stage. -/
inductive ReleaseStage where
  | lookup
  | subtract
  | refund

inductive Pc (Tenant : Type*) where
  | idle (last : Option Outcome)
  | ensure (tenant : Tenant) (budget : Int)
  | setMaxReserved (tenant : Tenant) (max : Int)
  | topUp (tenant : Tenant) (amount : Int) (stage : TopUpStage)
  | reserve (tenant : Tenant) (cost : Int) (stage : ReserveStage)
  | lockCommit (id : Nat) (actual : Int)
  | commit (id : Nat) (record : ReservationRecord Tenant) (actual : Int) (stage : CommitStage)
  | lockRelease (id : Nat)
  | release (id : Nat) (record : ReservationRecord Tenant) (stage : ReleaseStage)

/-- The locks that a thread keeps while others take steps. -/
inductive Mutex where
  | initials
  | committed
  | reservations

@[simp] theorem Mutex.forall_iff {P : Mutex → Prop} :
    (∀ m, P m) ↔ P .initials ∧ P .committed ∧ P .reservations :=
  ⟨fun h => ⟨h _, h _, h _⟩, fun ⟨h1, h2, h3⟩ m => by cases m <;> assumption⟩

namespace Pc

@[simp] def inProgress : Pc Tenant → Bool
  | .idle _ => false
  | _ => true

omit [DecidableEq Tenant] in
theorem eq_idle {p : Pc Tenant} (h : p.inProgress = false) : ∃ last, p = .idle last := by
  cases p with
  | idle last => exact ⟨last, rfl⟩
  | _ => cases h

def inGate : Pc Tenant → Bool
  | .idle _ | .setMaxReserved .. => false
  | _ => true

@[simp] def holds : Pc Tenant → Mutex → Bool
  | .topUp _ _ (.load ..), .initials => true
  | .topUp _ _ (.credit ..), .initials => true
  | .topUp _ _ (.store ..), .initials => true
  | .commit _ _ _ (.load ..), .committed => true
  | .commit _ _ _ (.debit ..), .committed => true
  | .commit _ _ _ (.store ..), .committed => true
  | .commit .., .reservations => true
  | .release .., .reservations => true
  | _, _ => false

end Pc

inductive Call (Tenant : Type*) where
  | tryEnsureTenant (tenant : Tenant) (budget : Int64)
  | trySetMaxReserved (tenant : Tenant) (max : Int64)
  | topUpTenant (tenant : Tenant) (amount : Int64)
  | tryReserve (tenant : Tenant) (cost : Int64)
  | commit (id : UInt64) (actual : Int64)
  | release (id : UInt64)

/-- The checks on the arguments, before the gate. -/
def Call.start : Call Tenant → Pc Tenant
  | .tryEnsureTenant t b =>
    if b.toInt < 0 then
      .idle (some (.configured (some (.negativeAmount "budget_microcents" b.toInt))))
    else .ensure t b.toInt
  | .trySetMaxReserved t m =>
    if m.toInt < 0 then
      .idle (some (.configured (some (.negativeAmount "max_reserved_microcents" m.toInt))))
    else .setMaxReserved t m.toInt
  | .topUpTenant t a =>
    if a.toInt ≤ 0 then .idle (some (.topUp .invalidAmount)) else .topUp t a.toInt .lookup
  | .tryReserve t c =>
    if c.toInt ≤ 0 then .idle (some (.reservation (.insufficient 0 c.toInt) none))
    else .reserve t c.toInt .lookup
  | .commit id actual =>
    if actual.toInt < 0 then .idle (some (.settlement .invalidAmount))
    else .lockCommit id.toNat actual.toInt
  | .release id => .lockRelease id.toNat

/-! ### Steps

`free m` says that no thread holds `m`, `fails` that the compare-and-swap of this
step, if there is one, fails although it finds the expected value.
-/

section Steps

variable (free : Mutex → Bool) (fails : Bool) (e : Engine Tenant)

/-- The four maps are locked together. -/
def tryEnsureTenant (t : Tenant) (b : Int) : Option (Engine Tenant × Pc Tenant) :=
  if free .initials && free .committed then
    some (if (e.tenantBudgets t).isNone then e.insertTenant t b else e,
      .idle (some (.configured none)))
  else none

def topUpTenant (t : Tenant) (a : Int) : TopUpStage → Option (Engine Tenant × Pc Tenant)
  | .lookup =>
    match e.tenantBudgets t with
    | some _ => some (e, .topUp t a .lock)
    | none => some (e, .idle (some (.topUp .missingTenant)))
  | .lock =>
    if free .initials then
      match e.initialMicrocents t with
      | none => some (e, .idle (some (.topUp .missingTenant)))
      | some currentInitial =>
        match checkedAdd currentInitial a with
        | none => some (e, .idle (some (.topUp .overflow)))
        | some newInitial => some (e, .topUp t a (.load newInitial))
    else none
  | .load newInitial => some (e, .topUp t a (.credit newInitial (e.remaining t)))
  | .credit newInitial current =>
    match checkedAdd current a with
    | none => some (e, .idle (some (.topUp .overflow)))
    | some new =>
      if !fails && e.remaining t == current then
        some (e.setBudget t new, .topUp t a (.store newInitial new))
      else some (e, .topUp t a (.credit newInitial (e.remaining t)))
  | .store newInitial remaining =>
    some (e.setInitial t newInitial, .idle (some (.topUp (.toppedUp a newInitial remaining))))

def tryReserve (t : Tenant) (c : Int) : ReserveStage → Option (Engine Tenant × Pc Tenant)
  | .lookup =>
    match e.tenantBudgets t, e.tenantReservedTotals t with
    | some _, some _ => some (e, .reserve t c .readLimit)
    | _, _ => some (e, .idle (some (.reservation .missingTenant none)))
  | .readLimit => some (e, .reserve t c (.loadTotal ((e.maxReservedMicrocents t).getD 0)))
  | .loadTotal max => some (e, .reserve t c (.increment max (e.reservedTotal t)))
  | .increment max current =>
    match checkedAdd current c with
    | none => some (e, .reserve t c .reportOverflow)
    | some newTotal =>
      if max > 0 ∧ newTotal > max then
        some (e, .idle (some (.reservation (.exposureLimitExceeded current max) none)))
      else if !fails && e.reservedTotal t == current then
        some (e.setReservedTotal t newTotal, .reserve t c .allocate)
      else some (e, .reserve t c (.increment max (e.reservedTotal t)))
  | .allocate =>
    if e.nextId < recoveryAllocatorMask then
      some ({ e with nextId := e.nextId + 1 }, .reserve t c (.load e.nextId))
    else some (e, .reserve t c (.undo none))
  | .undo none => some (e.fetchSubTotal t c, .reserve t c .reportOverflow)
  | .undo (some current) =>
    some (e.fetchSubTotal t c, .idle (some (.reservation (.insufficient current c) none)))
  | .reportOverflow =>
    some (e, .idle (some (.reservation (.overflow (e.reservedTotal t)) none)))
  | .load id => some (e, .reserve t c (.debit id (e.remaining t)))
  | .debit id current =>
    if current < c then some (e, .reserve t c (.undo (some current)))
    else if !fails && e.remaining t == current then
      some ((e.check (current - c)).setBudget t (wrap (current - c)),
        .reserve t c (.insert id (wrap (current - c))))
    else some (e.check (current - c), .reserve t c (.debit id (e.remaining t)))
  | .insert id remaining =>
    if free .reservations then
      some (e.insertReservation id ⟨t, c⟩,
        .idle (some (.reservation (.reserved remaining) (some id))))
    else none

/-- Removes the record, under the lock that the rest of the call keeps. -/
def lockCommit (id : Nat) (actual : Int) : Option (Engine Tenant × Pc Tenant) :=
  if free .reservations then
    match e.reservations id with
    | none => some (e, .idle (some (.settlement .missingReservation)))
    | some r => some (e.removeReservation id, .commit id r actual .lookup)
  else none

def commit (id : Nat) (r : ReservationRecord Tenant) (actual : Int) :
    CommitStage → Option (Engine Tenant × Pc Tenant)
  | .lookup =>
    match e.tenantBudgets r.tenant with
    | some _ => some (e, .commit id r actual .lockCommitted)
    | none => some (e.insertReservation id r, .idle (some (.settlement .missingTenant)))
  | .lockCommitted =>
    if free .committed then
      match checkedAdd (e.committed r.tenant) actual with
      | none => some (e, .commit id r actual (.reinsert none))
      | some newCommitted =>
        if 0 < wrap (actual - r.reserved) then
          some (e.check (actual - r.reserved), .commit id r actual (.load newCommitted))
        else some (e.check (actual - r.reserved), .commit id r actual (.store newCommitted))
    else none
  | .load newCommitted => some (e, .commit id r actual (.debit newCommitted (e.remaining r.tenant)))
  | .debit newCommitted current =>
    let delta := wrap (actual - r.reserved)
    if current < delta then some (e, .commit id r actual (.reinsert (some current)))
    else if !fails && e.remaining r.tenant == current then
      some ((e.check (current - delta)).setBudget r.tenant (wrap (current - delta)),
        .commit id r actual (.store newCommitted))
    else some (e.check (current - delta),
      .commit id r actual (.debit newCommitted (e.remaining r.tenant)))
  | .reinsert none => some (e.insertReservation id r, .commit id r actual .reportOverflow)
  | .reinsert (some current) =>
    some (e.insertReservation id r, .idle (some (.settlement (.overrun current))))
  | .reportOverflow => some (e, .idle (some (.settlement (.overflow (e.remaining r.tenant)))))
  | .store newCommitted =>
    some (e.setCommitted r.tenant newCommitted,
      .commit id r actual (if wrap (actual - r.reserved) < 0 then .refund else .subtract))
  | .refund =>
    let delta := wrap (actual - r.reserved)
    some ((e.check (-delta)).fetchAddBudget r.tenant (wrap (-delta)), .commit id r actual .subtract)
  | .subtract =>
    match e.tenantReservedTotals r.tenant with
    | some _ => some (e.fetchSubTotal r.tenant r.reserved, .commit id r actual .report)
    | none => some (e, .commit id r actual .report)
  | .report => some (e, .idle (some (.settlement (.committed (e.remaining r.tenant) actual))))

def lockRelease (id : Nat) : Option (Engine Tenant × Pc Tenant) :=
  if free .reservations then
    match e.reservations id with
    | none => some (e, .idle (some (.settlement .missingReservation)))
    | some r => some (e.removeReservation id, .release id r .lookup)
  else none

def release (id : Nat) (r : ReservationRecord Tenant) :
    ReleaseStage → Option (Engine Tenant × Pc Tenant)
  | .lookup =>
    match e.tenantBudgets r.tenant with
    | some _ => some (e, .release id r .subtract)
    | none => some (e.insertReservation id r, .idle (some (.settlement .missingTenant)))
  | .subtract =>
    match e.tenantReservedTotals r.tenant with
    | some _ => some (e.fetchSubTotal r.tenant r.reserved, .release id r .refund)
    | none => some (e, .release id r .refund)
  -- The result adds the amount once more to the value that the fetch-add returned.
  | .refund =>
    some ((e.fetchAddBudget r.tenant r.reserved).check (e.remaining r.tenant + r.reserved),
      .idle (some (.settlement
        (.released (wrap (e.remaining r.tenant + r.reserved)) r.reserved))))

/-- The gate is taken exclusively: no call is on its way. -/
def trySetMaxReserved (gateFree : Bool) (t : Tenant) (m : Int) :
    Option (Engine Tenant × Pc Tenant) :=
  if gateFree then
    some ({ e with maxReservedMicrocents :=
        Function.update e.maxReservedMicrocents t (if m = 0 then none else some m) },
      .idle (some (.configured none)))
  else none

/-- The next step of a thread; `none` where it waits for a lock or has no call. -/
def advance (gateFree : Bool) : Pc Tenant → Option (Engine Tenant × Pc Tenant)
  | .idle _ => none
  | .ensure t b => tryEnsureTenant free e t b
  | .setMaxReserved t m => trySetMaxReserved e gateFree t m
  | .topUp t a stage => topUpTenant free fails e t a stage
  | .reserve t c stage => tryReserve free fails e t c stage
  | .lockCommit id actual => lockCommit free e id actual
  | .commit id r actual stage => commit free fails e id r actual stage
  | .lockRelease id => lockRelease free e id
  | .release id r stage => release e id r stage

end Steps

/-! ### The engine and its threads -/

structure State (Tenant : Type*) (n : Nat) where
  engine : Engine Tenant
  pc : Fin n → Pc Tenant

inductive Event (Tenant : Type*) (n : Nat) where
  | call (thread : Fin n) (call : Call Tenant)
  | advance (thread : Fin n) (fails : Bool)

namespace State

variable {n : Nat} (s : State Tenant n)

def init : State Tenant n := ⟨Engine.new, fun _ => .idle none⟩

def free (m : Mutex) : Bool := decide (∀ i, (s.pc i).holds m = false)

def gateFree : Bool := decide (∀ i, (s.pc i).inGate = false)

def Quiescent : Prop := ∀ i, (s.pc i).inProgress = false

instance : Decidable s.Quiescent := inferInstanceAs (Decidable (∀ _, _))

def step : Event Tenant n → Option (State Tenant n)
  | .call i c =>
    if (s.pc i).inProgress then none
    else some ⟨s.engine, update s.pc i c.start⟩
  | .advance i fails =>
    (advance s.free fails s.engine s.gateFree (s.pc i)).map fun x =>
      ⟨x.1, update s.pc i x.2⟩

end State

end Calybris.Budget
