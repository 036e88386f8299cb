import Calybris.Budget.Ledger
import Mathlib.Data.Nat.Bitwise

/-!
# Snapshots of the ledger, and restoring them

A snapshot takes one allocator position for itself and carries the next one in its
version, under a tag. Restoring reads that position back as the first identifier
that may be issued. `Registry` is what the engine has besides the counters that its
calls use: the keys of its maps, the version of its last snapshot and the baseline
of its last certificate.
-/

namespace Calybris.Budget

open Finset

variable {Tenant : Type*}

/-! ### Snapshots -/

structure TenantLedger (Tenant : Type*) where
  tenantId : Tenant
  initialMicrocents : Int
  remainingMicrocents : Int
  reservedMicrocents : Int
  committedMicrocents : Int
  deriving DecidableEq

structure BudgetSnapshot (Tenant : Type*) where
  version : Nat
  tenants : List (TenantLedger Tenant)
  activeReservations : Nat
  walHighWatermark : Option Nat
  deriving DecidableEq

structure TenantLedger.InRange (row : TenantLedger Tenant) : Prop where
  initial : InI64 row.initialMicrocents
  remaining : InI64 row.remainingMicrocents
  reserved : InI64 row.reservedMicrocents
  committed : InI64 row.committedMicrocents

structure BudgetSnapshot.InRange (snap : BudgetSnapshot Tenant) : Prop where
  version : snap.version < 2 ^ 64
  tenants : snap.tenants.length < 2 ^ 64
  rows : ∀ row ∈ snap.tenants, row.InRange
  activeReservations : snap.activeReservations < 2 ^ 64
  walHighWatermark : ∀ watermark ∈ snap.walHighWatermark, watermark < 2 ^ 64

inductive ConservationStatus (Tenant : Type*) where
  | balanced
  | violation (tenantId : Tenant) (deltaMicrocents : Int)
  | aggregateOverflow
  deriving DecidableEq

def checkedSub (x y : Int) : Option Int := if InI64 (x - y) then some (x - y) else none

def TenantLedger.violation (row : TenantLedger Tenant) : Option (ConservationStatus Tenant) :=
  match (checkedAdd row.remainingMicrocents row.reservedMicrocents).bind
      fun v => checkedAdd v row.committedMicrocents with
  | none => some .aggregateOverflow
  | some sum =>
    if sum ≠ row.initialMicrocents then
      match checkedSub sum row.initialMicrocents with
      | none => some .aggregateOverflow
      | some delta => some (.violation row.tenantId delta)
    else if row.remainingMicrocents < 0 then
      some (.violation row.tenantId row.remainingMicrocents)
    else none

def conservationStatusForSnapshot (snapshot : BudgetSnapshot Tenant) : ConservationStatus Tenant :=
  (snapshot.tenants.findSome? TenantLedger.violation).getD .balanced

theorem TenantLedger.violation_eq_none {row : TenantLedger Tenant}
    (hremaining : 0 ≤ row.remainingMicrocents) (hreserved : 0 ≤ row.reservedMicrocents)
    (hcommitted : 0 ≤ row.committedMicrocents) (hinitial : row.initialMicrocents < 2 ^ 63)
    (hsum : row.remainingMicrocents + row.reservedMicrocents + row.committedMicrocents =
      row.initialMicrocents) : row.violation = none := by
  have h1 : InI64 (row.remainingMicrocents + row.reservedMicrocents) := ⟨by omega, by omega⟩
  have h2 : InI64 (row.remainingMicrocents + row.reservedMicrocents + row.committedMicrocents) :=
    ⟨by omega, by omega⟩
  rw [violation, checkedAdd, if_pos h1, Option.bind_some, checkedAdd, if_pos h2, hsum]
  simp [hremaining.not_gt]

theorem conservationStatusForSnapshot_eq_balanced {snapshot : BudgetSnapshot Tenant}
    (h : ∀ row ∈ snapshot.tenants, row.violation = none) :
    conservationStatusForSnapshot snapshot = .balanced := by
  rw [conservationStatusForSnapshot, List.findSome?_eq_none_iff.2 h, Option.getD_none]

/-! ### Taking one -/

inductive SnapshotAllocatorError where
  | allocatorExhausted
  deriving DecidableEq

def recoverySnapshotTag : Nat := 2 ^ 63

structure Registry (Tenant : Type*) where
  tenants : List Tenant
  snapshotVersion : Nat
  lastCertifiedCommittedTotal : Int

namespace Registry

def new : Registry Tenant := ⟨[], 0, 0⟩

end Registry

namespace Engine

variable (e : Engine Tenant)

def row (t : Tenant) : TenantLedger Tenant where
  tenantId := t
  initialMicrocents := e.initial t
  remainingMicrocents := e.remaining t
  reservedMicrocents := e.reservedTotal t
  committedMicrocents := e.committed t

def activeReservations : Nat := #{id ∈ range e.nextId | (e.reservations id).isSome}

def picture [LinearOrder Tenant] (tenants : List Tenant) : BudgetSnapshot Tenant where
  version := recoverySnapshotTag ||| (e.nextId + 1)
  tenants := (tenants.map e.row).mergeSort fun a b => decide (a.tenantId ≤ b.tenantId)
  activeReservations := e.activeReservations
  walHighWatermark := none

def trySnapshot [LinearOrder Tenant] (tenants : List Tenant) :
    Except SnapshotAllocatorError (Engine Tenant × BudgetSnapshot Tenant) :=
  if e.nextId < recoveryAllocatorMask then
    .ok ({ e with nextId := e.nextId + 1 }, e.picture tenants)
  else .error .allocatorExhausted

end Engine

/-! ### Restoring one -/

inductive RestoreError (Tenant : Type*) where
  | activeReservations (count : Nat)
  | ghostReservation (tenantId : Tenant) (reservedMicrocents : Int)
  /-- For a tenant, or for the metadata under a name of their own. -/
  | negativeLedgerField (tenantId : Tenant ⊕ String) (field : String) (value : Int)
  | conservationViolation (status : ConservationStatus Tenant)
  | duplicateTenant (tenantId : Tenant)
  deriving DecidableEq

def allocatorFromSnapshotVersion (version : Nat) : Except (RestoreError Tenant) Nat :=
  let nextId := version &&& recoveryAllocatorMask
  if version &&& recoverySnapshotTag = 0 ∨ nextId = 0 then
    .error (.negativeLedgerField (.inr "<snapshot-metadata>") "recovery-aware version tag"
      (if version < 2 ^ 63 then version else 2 ^ 63 - 1))
  else .ok nextId

def TenantLedger.validate [DecidableEq Tenant] (seen : List Tenant) (row : TenantLedger Tenant) :
    Except (RestoreError Tenant) Unit :=
  if row.tenantId ∈ seen then .error (.duplicateTenant row.tenantId)
  else if row.reservedMicrocents ≠ 0 then
    .error (.ghostReservation row.tenantId row.reservedMicrocents)
  else if row.remainingMicrocents < 0 then
    .error (.negativeLedgerField (.inl row.tenantId) "remaining_microcents"
      row.remainingMicrocents)
  else if row.initialMicrocents < 0 then
    .error (.negativeLedgerField (.inl row.tenantId) "initial_microcents" row.initialMicrocents)
  else if row.committedMicrocents < 0 then
    .error (.negativeLedgerField (.inl row.tenantId) "committed_microcents"
      row.committedMicrocents)
  else .ok ()

def validateRows [DecidableEq Tenant] :
    List Tenant → List (TenantLedger Tenant) → Except (RestoreError Tenant) Unit
  | _, [] => .ok ()
  | seen, row :: rows => do
      row.validate seen
      validateRows (row.tenantId :: seen) rows

def validateSnapshotLedger [DecidableEq Tenant] (snap : BudgetSnapshot Tenant) :
    Except (RestoreError Tenant) Unit :=
  if 0 < snap.activeReservations then .error (.activeReservations snap.activeReservations)
  else do
    validateRows [] snap.tenants
    match conservationStatusForSnapshot snap with
    | .balanced => .ok ()
    | status => .error (.conservationViolation status)

def validateSnapshotForRestore [DecidableEq Tenant] (snap : BudgetSnapshot Tenant) :
    Except (RestoreError Tenant) Unit := do
  let _ ← allocatorFromSnapshotVersion snap.version
  validateSnapshotLedger snap

namespace Engine

variable [DecidableEq Tenant]

def restoreRow (e : Engine Tenant) (row : TenantLedger Tenant) : Engine Tenant :=
  { e with
    tenantBudgets := Function.update e.tenantBudgets row.tenantId (some row.remainingMicrocents)
    initialMicrocents :=
      Function.update e.initialMicrocents row.tenantId (some row.initialMicrocents)
    committedMicrocents :=
      Function.update e.committedMicrocents row.tenantId (some row.committedMicrocents)
    tenantReservedTotals :=
      Function.update e.tenantReservedTotals row.tenantId (some row.reservedMicrocents) }

/-- Everything the engine had is cleared first, the caps included, so that nothing of it
is an argument. -/
def restoreFromSnapshot (snap : BudgetSnapshot Tenant) :
    Except (RestoreError Tenant) (Engine Tenant × Registry Tenant) :=
  match validateSnapshotForRestore snap, allocatorFromSnapshotVersion snap.version with
  | .error err, _ | .ok _, .error err => .error err
  | .ok _, .ok nextReservationId =>
    let restoredCommittedTotal :=
      (snap.tenants.foldlM (fun total row => checkedAdd total row.committedMicrocents) 0).getD
        (2 ^ 63 - 1)
    .ok ({ snap.tenants.foldl restoreRow new with nextId := nextReservationId },
      ⟨snap.tenants.map TenantLedger.tenantId, snap.version, restoredCommittedTotal⟩)

/-- `restore_from_snapshot` on an engine that has something. Nothing is written before
all the checks have passed. -/
def restore (e : Engine Tenant) (registry : Registry Tenant) (snap : BudgetSnapshot Tenant) :
    Except (RestoreError Tenant) Unit × Engine Tenant × Registry Tenant :=
  match restoreFromSnapshot snap with
  | .error err => (.error err, e, registry)
  | .ok restored => (.ok (), restored)

end Engine

/-! ### The fence in a version -/

theorem tag_or_eq_add {x : Nat} (hx : x ≤ recoveryAllocatorMask) :
    recoverySnapshotTag ||| x = 2 ^ 63 + x := by
  have hlt : x < 2 ^ 63 := by
    unfold recoveryAllocatorMask at hx
    omega
  have hor := Nat.two_pow_add_eq_or_of_lt hlt 1
  rw [mul_one] at hor
  exact hor.symm

theorem allocatorFromSnapshotVersion_tag {x : Nat} (hpos : 0 < x)
    (hx : x ≤ recoveryAllocatorMask) :
    (allocatorFromSnapshotVersion (recoverySnapshotTag ||| x) : Except (RestoreError Tenant) Nat) =
      .ok x := by
  have hmask : (recoverySnapshotTag ||| x) &&& recoveryAllocatorMask = x := by
    rw [tag_or_eq_add hx, recoveryAllocatorMask, Nat.and_two_pow_sub_one_eq_mod]
    unfold recoveryAllocatorMask at hx
    omega
  have htag : (recoverySnapshotTag ||| x) &&& recoverySnapshotTag ≠ 0 := by
    rw [Nat.and_or_distrib_right, Nat.and_self, recoverySnapshotTag]
    exact ((Nat.two_pow_pos 63).trans_le Nat.left_le_or).ne'
  rw [allocatorFromSnapshotVersion]
  simp [hmask, htag, hpos.ne']

end Calybris.Budget
