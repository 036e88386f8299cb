import Calybris.Budget.Engine
import Calybris.Transition.Threads

/-!
# What a call owes to the ledger

In the middle of a call the amounts of a tenant do not add up: something was taken
from one counter and is not yet in the next. The program counter says how much.
`heldBack` has left the remaining amount and is neither in an open hold nor
committed; `counted` is in the reserved total and in no open hold; `granted` is in
the remaining amount and not yet in the initial one.

`Moves` is what a step of one thread does, seen from the others: it changes the
counters by what its own debts change, and leaves alone what other threads rely on.
-/

namespace Calybris.Budget

open Finset Transition

variable {Tenant : Type*} [DecidableEq Tenant]

/-! ### Debts -/

@[simp] def TopUpStage.granted (amount : Int) : TopUpStage → Int
  | .store .. => amount
  | _ => 0

@[simp] def ReserveStage.heldBack (cost : Int) : ReserveStage → Int
  | .insert .. => cost
  | _ => 0

@[simp] def ReserveStage.counted (cost : Int) : ReserveStage → Int
  | .lookup | .readLimit | .loadTotal _ | .increment .. | .reportOverflow => 0
  | _ => cost

@[simp] def CommitStage.heldBack (reserved actual : Int) : CommitStage → Int
  | .store _ => max reserved actual
  | .refund => reserved - actual
  | .reportOverflow | .subtract | .report => 0
  | _ => reserved

@[simp] def CommitStage.counted (reserved : Int) : CommitStage → Int
  | .reportOverflow | .report => 0
  | _ => reserved

@[simp] def ReleaseStage.counted (reserved : Int) : ReleaseStage → Int
  | .refund => 0
  | _ => reserved

/-- A balance that was read is one of `i64`. -/
@[simp] def ReserveStage.Sane : ReserveStage → Prop
  | .debit _ current => current < 2 ^ 63
  | _ => True

/-- The sign of the difference is known once it was acted on. -/
@[simp] def CommitStage.Sane (reserved actual : Int) : CommitStage → Prop
  | .load _ => reserved < actual
  | .debit _ current => reserved < actual ∧ current < 2 ^ 63
  | .refund => actual < reserved
  | _ => True

namespace Pc

@[simp] def heldBack : Pc Tenant → Tenant → Int
  | .reserve t' c stage, t => if t = t' then stage.heldBack c else 0
  | .commit _ r actual stage, t =>
    if t = r.tenant then stage.heldBack r.reserved actual else 0
  | .release _ r _, t => if t = r.tenant then r.reserved else 0
  | _, _ => 0

@[simp] def counted : Pc Tenant → Tenant → Int
  | .reserve t' c stage, t => if t = t' then stage.counted c else 0
  | .commit _ r _ stage, t => if t = r.tenant then stage.counted r.reserved else 0
  | .release _ r stage, t => if t = r.tenant then stage.counted r.reserved else 0
  | _, _ => 0

@[simp] def granted : Pc Tenant → Tenant → Int
  | .topUp t' a stage, t => if t = t' then stage.granted a else 0
  | _, _ => 0

@[simp] def tenant : Pc Tenant → Option Tenant
  | .topUp _ _ .lookup | .reserve _ _ .lookup => none
  | .topUp t .. | .reserve t .. => some t
  | .commit _ r .. | .release _ r _ => some r.tenant
  | _ => none

/-- An identifier that was issued and that the thread may still write. -/
@[simp] def pendingId : Pc Tenant → Option Nat
  | .reserve _ _ (.load id) | .reserve _ _ (.debit id _) | .reserve _ _ (.insert id _) => some id
  | .commit _ _ _ .reportOverflow => none
  | .commit id .. | .release id .. => some id
  | _ => none

@[simp] def newInitial : Pc Tenant → Option (Tenant × Int × Int)
  | .topUp t a (.load x) | .topUp t a (.credit x _) | .topUp t a (.store x _) => some (t, a, x)
  | _ => none

@[simp] def newCommitted : Pc Tenant → Option (Tenant × Int × Int)
  | .commit _ r actual (.load x) | .commit _ r actual (.debit x _)
  | .commit _ r actual (.store x) => some (r.tenant, actual, x)
  | _ => none

/-- What the checks on the arguments and the record taken out ensure. -/
@[simp] def Sane : Pc Tenant → Prop
  | .ensure _ b => 0 ≤ b ∧ b < 2 ^ 63
  | .topUp _ a _ => 0 < a ∧ a < 2 ^ 63
  | .reserve _ c stage => (0 < c ∧ c < 2 ^ 63) ∧ stage.Sane
  | .lockCommit _ actual => 0 ≤ actual ∧ actual < 2 ^ 63
  | .commit _ r actual stage =>
    (0 ≤ actual ∧ actual < 2 ^ 63) ∧ (0 < r.reserved ∧ r.reserved < 2 ^ 63) ∧
      stage.Sane r.reserved actual
  | .release _ r _ => 0 < r.reserved ∧ r.reserved < 2 ^ 63
  | _ => True

/-- What a thread relies on between its steps. -/
structure Locally (e : Engine Tenant) (p : Pc Tenant) : Prop where
  sane : p.Sane
  known : ∀ t, p.tenant = some t → (e.tenantBudgets t).isSome
  pending : ∀ id, p.pendingId = some id → id < e.nextId ∧ e.reservations id = none
  initial : ∀ t a x, p.newInitial = some (t, a, x) → x = e.initial t + a ∧ x < 2 ^ 63
  committed : ∀ t a x, p.newCommitted = some (t, a, x) → x = e.committed t + a ∧ x < 2 ^ 63

omit [DecidableEq Tenant] in
theorem Locally.idle (e : Engine Tenant) (last : Option Outcome) :
    Locally e (.idle last : Pc Tenant) := by
  constructor <;> simp

omit [DecidableEq Tenant] in
/-- A thread can go on relying on what it relied on, as long as nobody writes what it
has locked or its pending identifier. -/
theorem Locally.frame {e e' : Engine Tenant} {p : Pc Tenant} (h : p.Locally e)
    (hknown : ∀ t, (e.tenantBudgets t).isSome → (e'.tenantBudgets t).isSome)
    (hissued : e.nextId ≤ e'.nextId)
    (hpending : ∀ id, p.pendingId = some id → e'.reservations id = none)
    (hinitial : p.newInitial ≠ none → ∀ t, e'.initial t = e.initial t)
    (hcommitted : p.newCommitted ≠ none → ∀ t, e'.committed t = e.committed t) :
    p.Locally e' where
  sane := h.sane
  known t ht := hknown t (h.known t ht)
  pending id hid := ⟨(h.pending id hid).1.trans_le hissued, hpending id hid⟩
  initial t a x hx := by
    rw [hinitial (by rw [hx]; simp)]
    exact h.initial t a x hx
  committed t a x hx := by
    rw [hcommitted (by rw [hx]; simp)]
    exact h.committed t a x hx

theorem owes_nonneg {p : Pc Tenant} (h : p.Sane) (t : Tenant) :
    0 ≤ p.heldBack t ∧ 0 ≤ p.counted t := by
  cases p with
  | reserve t' c stage =>
    obtain ⟨⟨hc, -⟩, -⟩ := h
    by_cases heq : t = t' <;> cases stage <;> simp [heq] <;> omega
  | commit id r actual stage =>
    obtain ⟨⟨hactual, -⟩, ⟨hr, -⟩, hstage⟩ := h
    by_cases heq : t = r.tenant <;> cases stage <;>
      simp only [CommitStage.Sane] at hstage <;> simp [heq] <;> omega
  | release id r stage =>
    obtain ⟨hr, -⟩ := h
    by_cases heq : t = r.tenant <;> cases stage <;> simp [heq] <;> omega
  | _ => exact ⟨le_rfl, le_rfl⟩

theorem granted_nonneg {p : Pc Tenant} (h : p.Sane) (t : Tenant) : 0 ≤ p.granted t := by
  cases p with
  | topUp t' a stage =>
    obtain ⟨ha, -⟩ := h
    cases stage <;> simp only [granted, TopUpStage.granted] <;> split <;> omega
  | _ => exact le_rfl

theorem granted_eq_zero {p : Pc Tenant} (h : p.holds .initials = false) (t : Tenant) :
    p.granted t = 0 := by
  cases p with
  | topUp t' a stage => cases stage <;> simp_all [granted, holds, TopUpStage.granted]
  | _ => rfl

omit [DecidableEq Tenant] in
theorem holds_of_newInitial {p : Pc Tenant} {x : Tenant × Int × Int}
    (h : p.newInitial = some x) : p.holds .initials := by
  cases p with
  | topUp t a stage => cases stage <;> simp_all [newInitial, holds]
  | _ => simp [newInitial] at h

omit [DecidableEq Tenant] in
theorem holds_of_newCommitted {p : Pc Tenant} {x : Tenant × Int × Int}
    (h : p.newCommitted = some x) : p.holds .committed := by
  cases p with
  | commit id r actual stage => cases stage <;> simp_all [newCommitted, holds]
  | _ => simp [newCommitted] at h

end Pc

/-! ### The counters of a tenant -/

namespace Engine

def heldFor (t : Tenant) : Option (ReservationRecord Tenant) → Int
  | some r => if t = r.tenant then r.reserved else 0
  | none => 0

variable (e : Engine Tenant)

def held (t : Tenant) : Int := ∑ id ∈ range e.nextId, heldFor t (e.reservations id)

def balance (t : Tenant) : Int := e.remaining t + e.held t + e.committed t - e.initial t

def uncovered (t : Tenant) : Int := e.reservedTotal t - e.held t

structure WellFormed : Prop where
  remaining_nonneg : ∀ t, 0 ≤ e.remaining t
  initial_nonneg : ∀ t, 0 ≤ e.initial t
  committed_nonneg : ∀ t, 0 ≤ e.committed t
  committed_lt : ∀ t, e.committed t < 2 ^ 63
  reservedTotal_nonneg : ∀ t, 0 ≤ e.reservedTotal t
  reservedTotal_lt : ∀ t, e.reservedTotal t < 2 ^ 63
  isSome_initial : ∀ t, (e.initialMicrocents t).isSome = (e.tenantBudgets t).isSome
  isSome_committed : ∀ t, (e.committedMicrocents t).isSome = (e.tenantBudgets t).isSome
  isSome_reservedTotal : ∀ t, (e.tenantReservedTotals t).isSome = (e.tenantBudgets t).isSome
  reservations : ∀ id r, e.reservations id = some r →
    id < e.nextId ∧ (0 < r.reserved ∧ r.reserved < 2 ^ 63) ∧ (e.tenantBudgets r.tenant).isSome
  nextId_le : e.nextId ≤ recoveryAllocatorMask
  overflowed : e.overflowed = false

variable {e} {t t' : Tenant} {x : Int} {id : Nat} {r : ReservationRecord Tenant}

section

variable (h : e.WellFormed)

include h

theorem heldFor_nonneg (t : Tenant) (id : Nat) : 0 ≤ heldFor t (e.reservations id) := by
  cases hr : e.reservations id with
  | none => exact le_rfl
  | some r =>
    obtain ⟨-, ⟨hpos, -⟩, -⟩ := h.reservations id r hr
    simp only [heldFor]
    split <;> omega

theorem held_nonneg (t : Tenant) : 0 ≤ e.held t :=
  sum_nonneg fun id _ => heldFor_nonneg h t id

theorem reserved_le_held (hr : e.reservations id = some r) : r.reserved ≤ e.held r.tenant := by
  have hid := (h.reservations id r hr).1
  calc r.reserved = heldFor r.tenant (e.reservations id) := by simp [hr, heldFor]
    _ ≤ e.held r.tenant :=
      single_le_sum (fun id' _ => heldFor_nonneg h r.tenant id') (mem_range.2 hid)

omit [DecidableEq Tenant] in
theorem nextId_notMem (hid : e.nextId ≤ id) : e.reservations id = none := by
  by_contra hne
  obtain ⟨r, hr⟩ := Option.ne_none_iff_exists'.1 hne
  have := (h.reservations id r hr).1
  omega

end

/-! An unchecked operation that stays in range is the exact one. -/

omit [DecidableEq Tenant] in
theorem check_of_inI64 (h : InI64 x) : e.check x = e := by
  simp [check, h]

theorem fetchAddBudget_of_inI64 (h : InI64 (e.remaining t + x)) :
    e.fetchAddBudget t x = e.setBudget t (e.remaining t + x) := by
  rw [fetchAddBudget, check_of_inI64 h, wrap_of_inI64 h]

theorem fetchSubTotal_of_inI64 (h : InI64 (e.reservedTotal t - x)) :
    e.fetchSubTotal t x = e.setReservedTotal t (e.reservedTotal t - x) := by
  rw [fetchSubTotal, check_of_inI64 h, wrap_of_inI64 h]

/-! What each write does to the two sums. -/

theorem getD_update {m : Tenant → Option Int} :
    (Function.update m t (some x) t').getD 0 = if t' = t then x else (m t').getD 0 := by
  by_cases h : t' = t <;> simp [h]

theorem remaining_setBudget :
    (e.setBudget t x).remaining t' = if t' = t then x else e.remaining t' :=
  getD_update

theorem initial_setInitial :
    (e.setInitial t x).initial t' = if t' = t then x else e.initial t' :=
  getD_update

theorem committed_setCommitted :
    (e.setCommitted t x).committed t' = if t' = t then x else e.committed t' :=
  getD_update

theorem reservedTotal_setReservedTotal :
    (e.setReservedTotal t x).reservedTotal t' = if t' = t then x else e.reservedTotal t' :=
  getD_update

theorem remaining_insertTenant :
    (e.insertTenant t x).remaining t' = if t' = t then x else e.remaining t' :=
  getD_update

theorem initial_insertTenant :
    (e.insertTenant t x).initial t' = if t' = t then x else e.initial t' :=
  getD_update

theorem committed_insertTenant :
    (e.insertTenant t x).committed t' = if t' = t then 0 else e.committed t' :=
  getD_update

theorem reservedTotal_insertTenant :
    (e.insertTenant t x).reservedTotal t' = if t' = t then 0 else e.reservedTotal t' :=
  getD_update

theorem ite_eq_add_ite (f : Tenant → Int) :
    (if t' = t then x else f t') = f t' + if t' = t then x - f t else 0 := by
  split
  · next heq => rw [heq]; omega
  · omega

@[simp] theorem balance_setBudget :
    (e.setBudget t x).balance t' = e.balance t' + if t' = t then x - e.remaining t else 0 := by
  have h : (e.setBudget t x).balance t' =
      (e.setBudget t x).remaining t' + e.held t' + e.committed t' - e.initial t' := rfl
  rw [h, remaining_setBudget, ite_eq_add_ite, balance]
  omega

@[simp] theorem balance_setInitial :
    (e.setInitial t x).balance t' = e.balance t' - if t' = t then x - e.initial t else 0 := by
  have h : (e.setInitial t x).balance t' =
      e.remaining t' + e.held t' + e.committed t' - (e.setInitial t x).initial t' := rfl
  rw [h, initial_setInitial, ite_eq_add_ite, balance]
  omega

@[simp] theorem balance_setCommitted :
    (e.setCommitted t x).balance t' = e.balance t' + if t' = t then x - e.committed t else 0 := by
  have h : (e.setCommitted t x).balance t' =
      e.remaining t' + e.held t' + (e.setCommitted t x).committed t' - e.initial t' := rfl
  rw [h, committed_setCommitted, ite_eq_add_ite, balance]
  omega

@[simp] theorem balance_setReservedTotal : (e.setReservedTotal t x).balance t' = e.balance t' :=
  rfl

@[simp] theorem uncovered_setReservedTotal :
    (e.setReservedTotal t x).uncovered t' =
      e.uncovered t' + if t' = t then x - e.reservedTotal t else 0 := by
  have h : (e.setReservedTotal t x).uncovered t' =
      (e.setReservedTotal t x).reservedTotal t' - e.held t' := rfl
  rw [h, reservedTotal_setReservedTotal, ite_eq_add_ite, uncovered]
  omega

@[simp] theorem uncovered_setBudget : (e.setBudget t x).uncovered t' = e.uncovered t' := rfl

@[simp] theorem uncovered_setCommitted : (e.setCommitted t x).uncovered t' = e.uncovered t' := rfl

theorem held_insertReservation (hid : id < e.nextId) (hnone : e.reservations id = none) :
    (e.insertReservation id r).held t = e.held t + if t = r.tenant then r.reserved else 0 := by
  have h := sum_update (mem_range.2 hid) (heldFor t) e.reservations (some r)
  rw [hnone] at h
  simpa [held, insertReservation, heldFor] using h

theorem held_removeReservation (hid : id < e.nextId) (hsome : e.reservations id = some r) :
    (e.removeReservation id).held t = e.held t - if t = r.tenant then r.reserved else 0 := by
  have h := sum_update (mem_range.2 hid) (heldFor t) e.reservations none
  rw [hsome] at h
  simpa [held, removeReservation, heldFor] using h

theorem held_issue (h : e.WellFormed) : ({ e with nextId := e.nextId + 1 }).held t = e.held t := by
  simp [held, sum_range_succ, nextId_notMem h le_rfl, heldFor]

/-! ### Writes to a well-formed engine -/

theorem isSome_update {m : Tenant → Option Int} (ht : (m t).isSome) :
    (Function.update m t (some x) t').isSome = (m t').isSome := by
  by_cases h : t' = t
  · subst h
    simp [ht]
  · simp [h]

theorem forall_update {m : Tenant → Option Int} {P : Int → Prop} (hx : P x)
    (h : ∀ t', P ((m t').getD 0)) (t' : Tenant) :
    P ((Function.update m t (some x) t').getD 0) := by
  rw [getD_update]
  split
  · exact hx
  · exact h t'

theorem isSome_insertTenant (ht : (e.tenantBudgets t').isSome) :
    ((e.insertTenant t x).tenantBudgets t').isSome := by
  by_cases h : t' = t
  · simp [insertTenant, h]
  · simpa [insertTenant, h] using ht

namespace WellFormed

section

variable (h : e.WellFormed)

include h

omit [DecidableEq Tenant] in
theorem isSome_of_known (ht : (e.tenantBudgets t).isSome) :
    (e.initialMicrocents t).isSome ∧ (e.committedMicrocents t).isSome ∧
      (e.tenantReservedTotals t).isSome :=
  ⟨by rwa [h.isSome_initial], by rwa [h.isSome_committed], by rwa [h.isSome_reservedTotal]⟩

omit [DecidableEq Tenant] in
theorem eq_zero (ht : e.tenantBudgets t = none) :
    e.remaining t = 0 ∧ e.initial t = 0 ∧ e.committed t = 0 ∧ e.reservedTotal t = 0 := by
  have h1 := h.isSome_initial t
  have h2 := h.isSome_committed t
  have h3 := h.isSome_reservedTotal t
  simp only [ht, Option.isSome_none, Option.isSome_eq_false_iff, Option.isNone_iff_eq_none]
    at h1 h2 h3
  simp [remaining, initial, committed, reservedTotal, ht, h1, h2, h3]

theorem insertTenant (hx : 0 ≤ x) : (e.insertTenant t x).WellFormed := by
  constructor
  case reservations =>
    intro id r hr
    obtain ⟨hid, hpos, hknown⟩ := h.reservations id r hr
    exact ⟨hid, hpos, isSome_insertTenant hknown⟩
  case nextId_le => exact h.nextId_le
  case overflowed => exact h.overflowed
  all_goals
    intro t'
    by_cases heq : t' = t
    · subst heq
      simp [Engine.insertTenant, remaining, initial, committed, reservedTotal, hx]
    · simp only [Engine.insertTenant, remaining, initial, committed, reservedTotal,
        Function.update_of_ne heq]
      first
        | exact h.remaining_nonneg t'
        | exact h.initial_nonneg t'
        | exact h.committed_nonneg t'
        | exact h.committed_lt t'
        | exact h.reservedTotal_nonneg t'
        | exact h.reservedTotal_lt t'
        | exact h.isSome_initial t'
        | exact h.isSome_committed t'
        | exact h.isSome_reservedTotal t'

section

variable (ht : (e.tenantBudgets t).isSome)

include ht

theorem setBudget (hx : 0 ≤ x) : (e.setBudget t x).WellFormed := by
  have hsome : ∀ t', ((e.setBudget t x).tenantBudgets t').isSome = (e.tenantBudgets t').isSome :=
    fun t' => isSome_update ht
  exact
    { h with
      remaining_nonneg := forall_update hx h.remaining_nonneg
      isSome_initial := fun t' => (h.isSome_initial t').trans (hsome t').symm
      isSome_committed := fun t' => (h.isSome_committed t').trans (hsome t').symm
      isSome_reservedTotal := fun t' => (h.isSome_reservedTotal t').trans (hsome t').symm
      reservations := by
        intro id r hr
        rw [hsome]
        exact h.reservations id r hr }

theorem setInitial (hx : 0 ≤ x) : (e.setInitial t x).WellFormed :=
  { h with
    initial_nonneg := forall_update hx h.initial_nonneg
    isSome_initial := fun t' =>
      (isSome_update (h.isSome_of_known ht).1).trans (h.isSome_initial t') }

theorem setCommitted (hx : 0 ≤ x) (hlt : x < 2 ^ 63) : (e.setCommitted t x).WellFormed :=
  { h with
    committed_nonneg := forall_update hx h.committed_nonneg
    committed_lt := forall_update (P := (· < 2 ^ 63)) hlt h.committed_lt
    isSome_committed := fun t' =>
      (isSome_update (h.isSome_of_known ht).2.1).trans (h.isSome_committed t') }

theorem setReservedTotal (hx : 0 ≤ x) (hlt : x < 2 ^ 63) : (e.setReservedTotal t x).WellFormed :=
  { h with
    reservedTotal_nonneg := forall_update hx h.reservedTotal_nonneg
    reservedTotal_lt := forall_update (P := (· < 2 ^ 63)) hlt h.reservedTotal_lt
    isSome_reservedTotal := fun t' =>
      (isSome_update (h.isSome_of_known ht).2.2).trans (h.isSome_reservedTotal t') }

end

omit [DecidableEq Tenant] in
theorem insertReservation (hid : id < e.nextId) (hr : 0 < r.reserved ∧ r.reserved < 2 ^ 63)
    (ht : (e.tenantBudgets r.tenant).isSome) : (e.insertReservation id r).WellFormed :=
  { h with
    reservations := by
      intro id' r' hr'
      by_cases hid' : id' = id
      · subst hid'
        obtain rfl : r = r' := by simpa [Engine.insertReservation] using hr'
        exact ⟨hid, hr, ht⟩
      · have hold : e.reservations id' = some r' := by
          simpa [Engine.insertReservation, hid'] using hr'
        exact h.reservations id' r' hold }

omit [DecidableEq Tenant] in
theorem removeReservation : (e.removeReservation id).WellFormed :=
  { h with
    reservations := by
      intro id' r' hr'
      by_cases hid' : id' = id
      · simp [Engine.removeReservation, hid'] at hr'
      · have hold : e.reservations id' = some r' := by
          simpa [Engine.removeReservation, hid'] using hr'
        exact h.reservations id' r' hold }

omit [DecidableEq Tenant] in
theorem issue (hlt : e.nextId < recoveryAllocatorMask) :
    ({ e with nextId := e.nextId + 1 }).WellFormed :=
  { h with
    reservations := fun id r hr =>
      ⟨Nat.lt_succ_of_lt (h.reservations id r hr).1, (h.reservations id r hr).2⟩
    nextId_le := hlt }

end

end WellFormed

end Engine

end Calybris.Budget
