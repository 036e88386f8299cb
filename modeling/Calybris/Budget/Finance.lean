import Calybris.Budget.Snapshot
import Calybris.Machine.Checked
import Calybris.Text.LittleEndian

/-!
# Certificates

A certificate reports the totals of a snapshot and what was committed since the
certificate before it. The digest that binds it to the snapshot is a parameter.
-/

namespace Calybris.Budget

open Machine Option

variable {Tenant : Type*}

/-! ### The ledger digest -/

section Digest

open Text

def ledgerDigestTag : Bytes := [99, 97, 108, 121, 108, 100, 103, 49, 0]

def walWatermarkTag : Bytes := utf8 "calybris.ledger.wal-watermark.v1\x00".toList

def leAmount (x : Int) : Bytes := toLittleEndian 8 (x % 2 ^ 64).toNat

def updateLedger (asBytes : Tenant → Bytes) (row : TenantLedger Tenant) : Bytes :=
  toLittleEndian 4 (asBytes row.tenantId).length ++ asBytes row.tenantId ++
    leAmount row.initialMicrocents ++ leAmount row.remainingMicrocents ++
    leAmount row.reservedMicrocents ++ leAmount row.committedMicrocents

def ledgerPreimage [LinearOrder Tenant] (asBytes : Tenant → Bytes)
    (snapshot : BudgetSnapshot Tenant) : Bytes :=
  ledgerDigestTag ++ toLittleEndian 8 snapshot.version ++
    toLittleEndian 8 snapshot.tenants.length ++ toLittleEndian 8 snapshot.activeReservations ++
    (snapshot.tenants.mergeSort fun a b => decide (a.tenantId ≤ b.tenantId)).flatMap
      (updateLedger asBytes) ++
    match snapshot.walHighWatermark with
    | some watermark => walWatermarkTag ++ toLittleEndian 8 watermark
    | none => []

end Digest

/-! ### Certificates -/

def addTotals (totals : Int × Int) (row : TenantLedger Tenant) : Option (Int × Int) :=
  (i128? (totals.1 + row.initialMicrocents)).bind fun initial =>
    (i128? (totals.2 + row.committedMicrocents)).map fun committed => (initial, committed)

def snapshotTotals (snapshot : BudgetSnapshot Tenant) : Option (Int × Int) :=
  (snapshot.tenants.foldlM addTotals (0, 0)).filter fun totals =>
    InI64 totals.1 ∧ InI64 totals.2

def rotateCertificateBaseline (baseline snapshotTotalCommitted : Int) : Int × Int :=
  if snapshotTotalCommitted ≤ baseline then (0, baseline)
  else (wrap (snapshotTotalCommitted - baseline), snapshotTotalCommitted)

structure FinancialCertificate where
  snapshotVersion : Nat
  ledgerDigestHex : List UInt8
  tenantCount : Nat
  activeReservations : Nat
  conservationBalanced : Bool
  totalInitialMicrocents : Int
  totalCommittedMicrocents : Int
  aggregateTotalsRepresentable : Bool
  committedSinceLastCertificate : Int

def certifySnapshot [DecidableEq Tenant] (ledgerDigestHex : BudgetSnapshot Tenant → List UInt8)
    (snapshot : BudgetSnapshot Tenant) (committedSinceLastCertificate : Int) :
    FinancialCertificate :=
  let totals := snapshotTotals snapshot
  { snapshotVersion := snapshot.version
    ledgerDigestHex := ledgerDigestHex snapshot
    tenantCount := snapshot.tenants.length
    activeReservations := snapshot.activeReservations
    conservationBalanced :=
      conservationStatusForSnapshot snapshot = .balanced ∧ totals.isSome
    totalInitialMicrocents := (totals.map Prod.fst).getD 0
    totalCommittedMicrocents := (totals.map Prod.snd).getD 0
    aggregateTotalsRepresentable := totals.isSome
    committedSinceLastCertificate := committedSinceLastCertificate }

/-- The second half of `certify_ledger`, once the snapshot is taken: what was committed
since the last certificate, and the baseline after it. -/
def certifyLedger (baseline : Int) (snapshot : BudgetSnapshot Tenant) : Int × Int :=
  match snapshotTotals snapshot with
  | some totals => rotateCertificateBaseline baseline totals.2
  | none => (0, baseline)

theorem foldlM_addTotals_eq_some {rows : List (TenantLedger Tenant)} {x y : Int × Int}
    (h : rows.foldlM addTotals x = some y) :
    y.1 = x.1 + (rows.map TenantLedger.initialMicrocents).sum ∧
      y.2 = x.2 + (rows.map TenantLedger.committedMicrocents).sum := by
  induction rows generalizing x with
  | nil =>
    cases h
    simp
  | cons row rows ih =>
    rw [List.foldlM_cons, bind_eq_bind, bind_eq_some_iff] at h
    obtain ⟨z, hz, hrest⟩ := h
    obtain ⟨initial, hinitial, hz⟩ := bind_eq_some_iff.1 hz
    obtain ⟨committed, hcommitted, rfl⟩ := map_eq_some_iff.1 hz
    rw [i128?, ite_none_right_eq_some, some.injEq] at hinitial hcommitted
    obtain ⟨h1, h2⟩ := ih hrest
    simp only [List.map_cons, List.sum_cons]
    exact ⟨by rw [h1, ← hinitial.2, add_assoc], by rw [h2, ← hcommitted.2, add_assoc]⟩

theorem snapshotTotals_eq_some {snapshot : BudgetSnapshot Tenant} {totals : Int × Int}
    (h : snapshotTotals snapshot = some totals) :
    totals.2 = (snapshot.tenants.map TenantLedger.committedMicrocents).sum ∧ InI64 totals.2 := by
  obtain ⟨hfold, hin⟩ := filter_eq_some_iff.1 h
  obtain ⟨-, hsum⟩ := foldlM_addTotals_eq_some hfold
  have hin : InI64 totals.1 ∧ InI64 totals.2 := of_decide_eq_true hin
  exact ⟨by rw [hsum, zero_add], hin.2⟩

end Calybris.Budget
