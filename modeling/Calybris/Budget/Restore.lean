import Calybris.Budget.Shared

/-!
# A restored engine

What the checks on a snapshot let through is a ledger without holds whose amounts add
up, so the engine restored from it satisfies the invariant, with the fence of the
snapshot as its next identifier.
-/

namespace Calybris.Budget

open Finset Transition List Option Engine TenantLedger

variable {Tenant : Type*} [DecidableEq Tenant]

/-! ### What the checks let through -/

structure TenantLedger.Sound (row : TenantLedger Tenant) : Prop where
  reserved : row.reservedMicrocents = 0
  remaining : 0 ≤ row.remainingMicrocents
  initial : 0 ≤ row.initialMicrocents
  committed : 0 ≤ row.committedMicrocents
  sum : row.remainingMicrocents + row.committedMicrocents = row.initialMicrocents
  initial_lt : row.initialMicrocents < 2 ^ 63

variable {row : TenantLedger Tenant}

omit [DecidableEq Tenant] in
theorem TenantLedger.sum_of_violation (h : row.violation = none) :
    row.remainingMicrocents + row.reservedMicrocents + row.committedMicrocents =
      row.initialMicrocents ∧ row.initialMicrocents < 2 ^ 63 := by
  rw [violation] at h
  split at h
  · cases h
  · next sum hsum =>
    obtain ⟨v, hv, hsum⟩ := bind_eq_some_iff.1 hsum
    obtain ⟨rfl, -⟩ := checkedAdd_eq_some hv
    obtain ⟨rfl, hin⟩ := checkedAdd_eq_some hsum
    split at h
    · split at h <;> cases h
    · next heq =>
      rw [not_not] at heq
      exact ⟨heq, heq ▸ hin.2⟩

omit [DecidableEq Tenant] in
theorem TenantLedger.violation_ne_balanced (row : TenantLedger Tenant) :
    row.violation ≠ some .balanced := by
  rw [violation]
  split
  · simp
  · split_ifs
    · split <;> simp
    · simp
    · simp

variable {snap : BudgetSnapshot Tenant}

omit [DecidableEq Tenant] in
theorem violation_of_balanced (h : conservationStatusForSnapshot snap = .balanced)
    (hrow : row ∈ snap.tenants) : row.violation = none := by
  rw [conservationStatusForSnapshot] at h
  cases hfind : snap.tenants.findSome? violation with
  | none => exact findSome?_eq_none_iff.1 hfind row hrow
  | some status =>
    rw [hfind, getD_some] at h
    obtain ⟨other, -, hother⟩ := exists_of_findSome?_eq_some hfind
    exact absurd (h ▸ hother) other.violation_ne_balanced

theorem TenantLedger.validate_eq_ok_iff {seen : List Tenant} :
    row.validate seen = .ok () ↔ row.tenantId ∉ seen ∧ row.reservedMicrocents = 0 ∧
      0 ≤ row.remainingMicrocents ∧ 0 ≤ row.initialMicrocents ∧ 0 ≤ row.committedMicrocents := by
  rw [validate]
  split_ifs with hseen hreserved hremaining hinitial hcommitted
  · simp [hseen]
  · simp [hreserved]
  · simp [hremaining.not_ge]
  · simp [hinitial.not_ge]
  · simp [hcommitted.not_ge]
  · simp [hseen, not_not.1 hreserved, not_lt.1 hremaining, not_lt.1 hinitial, not_lt.1 hcommitted]

theorem validateRows_cons_eq_ok_iff {seen : List Tenant} {rows : List (TenantLedger Tenant)} :
    validateRows seen (row :: rows) = .ok () ↔
      row.validate seen = .ok () ∧ validateRows (row.tenantId :: seen) rows = .ok () := by
  rw [validateRows]
  cases row.validate seen with
  | error err => exact iff_of_false (by rintro ⟨⟩) (by rintro ⟨⟨⟩, -⟩)
  | ok u => exact (and_iff_right rfl).symm

theorem validateRows_eq_ok_iff {seen : List Tenant} {rows : List (TenantLedger Tenant)} :
    validateRows seen rows = .ok () ↔ (rows.map tenantId).Nodup ∧
      ∀ row ∈ rows, row.validate seen = .ok () := by
  induction rows generalizing seen with
  | nil => simp [validateRows]
  | cons row rows ih =>
    have hseen : (∀ other ∈ rows, other.validate (row.tenantId :: seen) = .ok ()) ↔
        row.tenantId ∉ rows.map tenantId ∧
          ∀ other ∈ rows, other.validate seen = .ok () := by
      simp only [validate_eq_ok_iff, List.mem_cons, not_or, List.mem_map, not_exists,
        not_and, and_assoc, forall_and]
    rw [validateRows_cons_eq_ok_iff, ih, hseen, List.map_cons, List.nodup_cons,
      List.forall_mem_cons]
    tauto

omit [DecidableEq Tenant] in
theorem TenantLedger.Sound.violation (h : row.Sound) : row.violation = none := by
  have hsum := h.sum
  have hreserved := h.reserved
  exact violation_eq_none h.remaining hreserved.ge h.committed h.initial_lt (by omega)

theorem validateSnapshotLedger_eq_ok_iff :
    validateSnapshotLedger snap = .ok () ↔ snap.activeReservations = 0 ∧
      (snap.tenants.map tenantId).Nodup ∧ ∀ row ∈ snap.tenants, row.Sound := by
  rw [validateSnapshotLedger]
  split
  case isTrue hactive => exact iff_of_false (by rintro ⟨⟩) (fun h => by omega)
  case isFalse hactive =>
    rw [and_iff_right (by omega)]
    constructor
    · intro h
      cases hrows : validateRows [] snap.tenants with
      | error err => rw [hrows] at h; cases h
      | ok u =>
        rw [hrows] at h
        obtain ⟨hnodup, hfields⟩ := validateRows_eq_ok_iff.1 hrows
        refine ⟨hnodup, fun row hrow => ?_⟩
        have hbalanced : conservationStatusForSnapshot snap = .balanced := by
          cases hstatus : conservationStatusForSnapshot snap with
          | balanced => rfl
          | _ => rw [hstatus] at h; cases h
        obtain ⟨-, hreserved, hremaining, hinitial, hcommitted⟩ :=
          validate_eq_ok_iff.1 (hfields row hrow)
        obtain ⟨hsum, hlt⟩ := sum_of_violation (violation_of_balanced hbalanced hrow)
        exact ⟨hreserved, hremaining, hinitial, hcommitted, by omega, hlt⟩
    · rintro ⟨hnodup, hsound⟩
      have hrows : validateRows [] snap.tenants = .ok () :=
        validateRows_eq_ok_iff.2 ⟨hnodup, fun row hrow => by
          have h := hsound row hrow
          exact validate_eq_ok_iff.2 ⟨not_mem_nil, h.reserved, h.remaining, h.initial, h.committed⟩⟩
      have hbalanced : conservationStatusForSnapshot snap = .balanced :=
        conservationStatusForSnapshot_eq_balanced fun row hrow => (hsound row hrow).violation
      rw [hrows, hbalanced]
      rfl

omit [DecidableEq Tenant] in
theorem allocatorFromSnapshotVersion_eq_ok_iff {version nextId : Nat} :
    (allocatorFromSnapshotVersion version : Except (RestoreError Tenant) Nat) = .ok nextId ↔
      version &&& recoverySnapshotTag ≠ 0 ∧ nextId ≠ 0 ∧
        version &&& recoveryAllocatorMask = nextId := by
  rw [allocatorFromSnapshotVersion]
  split
  case isTrue h =>
    refine iff_of_false (by rintro ⟨⟩) ?_
    rintro ⟨htag, hne, rfl⟩
    exact h.elim htag hne
  case isFalse h =>
    rw [not_or] at h
    refine ⟨fun heq => ?_, fun heq => congrArg _ heq.2.2⟩
    cases heq
    exact ⟨h.1, h.2, rfl⟩

theorem validateSnapshotForRestore_eq_ok_iff :
    validateSnapshotForRestore snap = .ok () ↔ validateSnapshotLedger snap = .ok () ∧ ∃ nextId,
      (allocatorFromSnapshotVersion snap.version : Except (RestoreError Tenant) Nat) =
        .ok nextId := by
  rw [validateSnapshotForRestore]
  cases (allocatorFromSnapshotVersion snap.version : Except (RestoreError Tenant) Nat) with
  | error err => exact iff_of_false (by rintro ⟨⟩) (by rintro ⟨-, nextId, ⟨⟩⟩)
  | ok nextId => exact (and_iff_left ⟨nextId, rfl⟩).symm

structure BudgetSnapshot.Restorable (snap : BudgetSnapshot Tenant) : Prop where
  tag : snap.version &&& recoverySnapshotTag ≠ 0
  fence : snap.version &&& recoveryAllocatorMask ≠ 0
  activeReservations : snap.activeReservations = 0
  nodup : (snap.tenants.map tenantId).Nodup
  rows : ∀ row ∈ snap.tenants, row.reservedMicrocents = 0 ∧ 0 ≤ row.initialMicrocents ∧
    0 ≤ row.remainingMicrocents ∧ 0 ≤ row.committedMicrocents ∧
    row.remainingMicrocents + row.committedMicrocents = row.initialMicrocents

theorem restorable_of_validateSnapshotForRestore (h : validateSnapshotForRestore snap = .ok ()) :
    snap.Restorable := by
  rw [validateSnapshotForRestore_eq_ok_iff, validateSnapshotLedger_eq_ok_iff] at h
  obtain ⟨⟨hactive, hnodup, hsound⟩, nextId, hnext⟩ := h
  obtain ⟨htag, hne, rfl⟩ := allocatorFromSnapshotVersion_eq_ok_iff.1 hnext
  refine ⟨htag, hne, hactive, hnodup, fun row hrow => ?_⟩
  have h := hsound row hrow
  exact ⟨h.reserved, h.initial, h.remaining, h.committed, h.sum⟩

namespace Engine

section Rows

variable {rows : List (TenantLedger Tenant)} {e : Engine Tenant} {t : Tenant}

theorem foldl_update (f : TenantLedger Tenant → Int) (m : Tenant → Option Int)
    (h : (rows.map tenantId).Nodup) :
    rows.foldl (fun (m : Tenant → Option Int) row =>
        Function.update m row.tenantId (some (f row))) m t =
      ((rows.find? (·.tenantId = t)).map f).or (m t) := by
  induction rows generalizing m with
  | nil => rfl
  | cons row rows ih =>
    rw [List.map_cons, List.nodup_cons] at h
    rw [List.foldl_cons, ih _ h.2]
    by_cases heq : row.tenantId = t
    · subst heq
      have hnone : rows.find? (·.tenantId = row.tenantId) = none := by
        rw [find?_eq_none]
        intro other hother hsame
        exact h.1 (mem_map.2 ⟨other, hother, of_decide_eq_true hsame⟩)
      simp [hnone]
    · simp [heq, Ne.symm heq]

theorem find?_of_mem (h : (rows.map TenantLedger.tenantId).Nodup) (hrow : row ∈ rows) :
    rows.find? (·.tenantId = row.tenantId) = some row := by
  obtain ⟨other, hother⟩ : ∃ other, rows.find? (·.tenantId = row.tenantId) = some other := by
    rw [← isSome_iff_exists, find?_isSome]
    exact ⟨row, hrow, decide_eq_true rfl⟩
  have hsame : other.tenantId = row.tenantId := by simpa using find?_some hother
  rwa [inj_on_of_nodup_map h (mem_of_find?_eq_some hother) hrow hsame] at hother

theorem foldl_restoreRow_map (field : Engine Tenant → Tenant → Option Int)
    {f : TenantLedger Tenant → Int}
    (hrow : ∀ e row, field (restoreRow e row) =
      Function.update (field e) row.tenantId (some (f row)))
    (hnew : ∀ t, field new t = none) (h : (rows.map tenantId).Nodup) (t : Tenant) :
    field (rows.foldl restoreRow new) t = (rows.find? (·.tenantId = t)).map f := by
  have hhom : rows.foldl (fun (m : Tenant → Option Int) row =>
      Function.update m row.tenantId (some (f row))) (field new) =
        field (rows.foldl restoreRow new) :=
    foldl_hom field fun e row => (hrow e row).symm
  rw [← hhom, foldl_update f _ h, hnew, or_none]

theorem foldl_restoreRow_of_eq {α : Type*} (field : Engine Tenant → α)
    (hrow : ∀ e row, field (restoreRow e row) = field e) :
    field (rows.foldl restoreRow e) = field e := by
  induction rows generalizing e with
  | nil => rfl
  | cons row rows ih => rw [foldl_cons, ih, hrow]

end Rows

structure Restored (rows : List (TenantLedger Tenant)) (e : Engine Tenant) : Prop where
  tenantBudgets : ∀ t, e.tenantBudgets t =
    (rows.find? (·.tenantId = t)).map TenantLedger.remainingMicrocents
  initial : ∀ t, e.initialMicrocents t =
    (rows.find? (·.tenantId = t)).map TenantLedger.initialMicrocents
  committed : ∀ t, e.committedMicrocents t =
    (rows.find? (·.tenantId = t)).map TenantLedger.committedMicrocents
  reserved : ∀ t, e.tenantReservedTotals t =
    (rows.find? (·.tenantId = t)).map TenantLedger.reservedMicrocents
  reservations : ∀ id, e.reservations id = none
  maxReserved : ∀ t, e.maxReservedMicrocents t = none
  overflowed : e.overflowed = false

theorem restored_foldl {rows : List (TenantLedger Tenant)}
    (h : (rows.map TenantLedger.tenantId).Nodup) (nextId : Nat) :
    Restored rows { rows.foldl restoreRow new with nextId := nextId } where
  tenantBudgets := foldl_restoreRow_map tenantBudgets (fun _ _ => rfl) (fun _ => rfl) h
  initial := foldl_restoreRow_map initialMicrocents (fun _ _ => rfl) (fun _ => rfl) h
  committed := foldl_restoreRow_map committedMicrocents (fun _ _ => rfl) (fun _ => rfl) h
  reserved := foldl_restoreRow_map tenantReservedTotals (fun _ _ => rfl) (fun _ => rfl) h
  reservations := congrFun (foldl_restoreRow_of_eq reservations fun _ _ => rfl)
  maxReserved := congrFun (foldl_restoreRow_of_eq maxReservedMicrocents fun _ _ => rfl)
  overflowed := foldl_restoreRow_of_eq overflowed fun _ _ => rfl

theorem restoreFromSnapshot_eq_ok {e : Engine Tenant} {registry : Registry Tenant}
    (h : restoreFromSnapshot snap = .ok (e, registry)) :
    validateSnapshotForRestore snap = .ok () ∧ Restored snap.tenants e ∧
      allocatorFromSnapshotVersion snap.version = (.ok e.nextId : Except (RestoreError Tenant) _) ∧
      registry = ⟨snap.tenants.map TenantLedger.tenantId, snap.version,
        (snap.tenants.foldlM (fun total row => checkedAdd total row.committedMicrocents) 0).getD
          (2 ^ 63 - 1)⟩ := by
  rw [restoreFromSnapshot] at h
  split at h
  · cases h
  · cases h
  · next nextId hvalid hnext =>
    cases h
    obtain ⟨hledger, -⟩ := validateSnapshotForRestore_eq_ok_iff.1 hvalid
    exact ⟨hvalid, restored_foldl (validateSnapshotLedger_eq_ok_iff.1 hledger).2.1 _, hnext, rfl⟩

theorem exists_restoreFromSnapshot (h : validateSnapshotForRestore snap = .ok ()) :
    ∃ e registry, restoreFromSnapshot snap = .ok (e, registry) := by
  obtain ⟨-, nextId, hnext⟩ := validateSnapshotForRestore_eq_ok_iff.1 h
  simp only [restoreFromSnapshot, h, hnext]
  exact ⟨_, _, rfl⟩

namespace Restored

variable {rows : List (TenantLedger Tenant)} {e : Engine Tenant}

section

variable (h : Restored rows e)

include h

theorem held (t : Tenant) : e.held t = 0 := by
  simp [Engine.held, h.reservations, Engine.heldFor]

theorem row_of_mem (hnodup : (rows.map TenantLedger.tenantId).Nodup) (hrow : row ∈ rows) :
    e.row row.tenantId = row := by
  have hfind := find?_of_mem hnodup hrow
  simp [Engine.row, Engine.remaining, Engine.initial, Engine.committed, Engine.reservedTotal,
    h.tenantBudgets, h.initial, h.committed, h.reserved, hfind]

theorem activeReservations : e.activeReservations = 0 := by
  simp [Engine.activeReservations, h.reservations]

theorem amounts (hsound : ∀ row ∈ rows, row.Sound) (t : Tenant) :
    0 ≤ e.remaining t ∧ 0 ≤ e.initial t ∧ 0 ≤ e.committed t ∧ e.reservedTotal t = 0 ∧
      e.remaining t + e.committed t = e.initial t ∧ e.initial t < 2 ^ 63 := by
  rw [Engine.remaining, Engine.initial, Engine.committed, Engine.reservedTotal,
    h.tenantBudgets, h.initial, h.committed, h.reserved]
  cases hfind : rows.find? (·.tenantId = t) with
  | none => simp
  | some row =>
    obtain ⟨hreserved, hremaining, hinitial, hcommitted, hsum, hlt⟩ :=
      hsound row (mem_of_find?_eq_some hfind)
    exact ⟨hremaining, hinitial, hcommitted, hreserved, hsum, hlt⟩

theorem wellFormed (hsound : ∀ row ∈ rows, row.Sound) (hle : e.nextId ≤ recoveryAllocatorMask) :
    e.WellFormed := by
  have hamounts := h.amounts hsound
  constructor
  case isSome_initial | isSome_committed | isSome_reservedTotal =>
    intro t
    simp only [h.initial, h.committed, h.reserved, h.tenantBudgets, isSome_map]
  case reservations =>
    intro id r hr
    rw [h.reservations] at hr
    cases hr
  case nextId_le => exact hle
  case overflowed => exact h.overflowed
  all_goals
    intro t
    have := hamounts t
    omega

end

end Restored

end Engine

theorem inv_restored {n : Nat} {e : Engine Tenant} {registry : Registry Tenant}
    (h : restoreFromSnapshot snap = .ok (e, registry)) :
    Inv (⟨e, fun _ => .idle none⟩ : State Tenant n) := by
  obtain ⟨hvalid, hrestored, hnext, -⟩ := restoreFromSnapshot_eq_ok h
  obtain ⟨-, -, hsound⟩ :=
    validateSnapshotLedger_eq_ok_iff.1 (validateSnapshotForRestore_eq_ok_iff.1 hvalid).1
  have hamounts := hrestored.amounts hsound
  constructor
  case balance =>
    intro t
    have := hamounts t
    simp only [balance, hrestored.held, Pc.heldBack, Pc.granted, sum_const_zero]
    omega
  case uncovered =>
    intro t
    have := hamounts t
    simp only [uncovered, hrestored.held, Pc.counted, sum_const_zero]
    omega
  case granted_lt =>
    intro t
    have := hamounts t
    simp only [Pc.granted, sum_const_zero]
    omega
  case wellFormed =>
    obtain ⟨-, -, hfence⟩ := allocatorFromSnapshotVersion_eq_ok_iff.1 hnext
    exact hrestored.wellFormed hsound (hfence ▸ Nat.and_le_right)
  case locally => exact fun i => .idle _ _
  case distinct => exact fun i j id hid => by cases hid
  case exclusive => exact fun m i j hm => by cases m <;> cases hm

end Calybris.Budget
