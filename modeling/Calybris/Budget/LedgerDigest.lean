import Calybris.Budget.Finance
import Calybris.Text.Order

/-!
# What the ledger digest is taken of

The preimage of the ledger digest says how many rows it has and how long each identifier
is, so the rows are read off from the left and what is behind the last of them is the
watermark, or nothing. The rows are sorted by the bytes of their identifiers, so where
these are distinct the order in the snapshot does not matter.
-/

namespace Calybris.Budget

open Text Text.ByteOrder List

variable {Tenant : Type*}

theorem leAmount_append_inj {x y : Int} (hx : InI64 x) (hy : InI64 y) {s t : Bytes} :
    leAmount x ++ s = leAmount y ++ t ↔ x = y ∧ s = t := by
  unfold InI64 at hx hy
  rw [leAmount, leAmount, toLittleEndian_append_inj (by omega) (by omega)]
  refine and_congr_left fun _ => ⟨fun h => by omega, fun h => by rw [h]⟩

theorem updateLedger_append_inj {asBytes : Tenant → Bytes} (hbytes : Function.Injective asBytes)
    {row row' : TenantLedger Tenant} (hrow : row.InRange) (hrow' : row'.InRange)
    (hid : (asBytes row.tenantId).length < 2 ^ 32) (hid' : (asBytes row'.tenantId).length < 2 ^ 32)
    {s t : Bytes} (h : updateLedger asBytes row ++ s = updateLedger asBytes row' ++ t) :
    row = row' ∧ s = t := by
  simp only [updateLedger, append_assoc] at h
  rw [toLittleEndian_append_inj (by omega) (by omega)] at h
  obtain ⟨hlen, h⟩ := h
  obtain ⟨hsame, h⟩ := append_inj h hlen
  rw [leAmount_append_inj hrow.initial hrow'.initial,
    leAmount_append_inj hrow.remaining hrow'.remaining,
    leAmount_append_inj hrow.reserved hrow'.reserved,
    leAmount_append_inj hrow.committed hrow'.committed] at h
  obtain ⟨h1, h2, h3, h4, hrest⟩ := h
  have hids := hbytes hsame
  cases row
  cases row'
  simp_all

theorem walWatermark_inj {w w' : Option Nat}
    (h : (match w with
      | some watermark => walWatermarkTag ++ toLittleEndian 8 watermark
      | none => []) =
      match w' with
      | some watermark => walWatermarkTag ++ toLittleEndian 8 watermark
      | none => [])
    (hw : ∀ x ∈ w, x < 2 ^ 64) (hw' : ∀ x ∈ w', x < 2 ^ 64) : w = w' := by
  have hne (x : Nat) : walWatermarkTag ++ toLittleEndian 8 x ≠ [] := by
    intro hnil
    have hlen := congrArg List.length hnil
    simp at hlen
  cases w with
  | none =>
    cases w' with
    | none => rfl
    | some x => exact absurd h.symm (hne x)
  | some x =>
    cases w' with
    | none => exact absurd h (hne x)
    | some y =>
      have hx := hw x rfl
      have hy := hw' y rfl
      rw [toLittleEndian_inj (by omega) (by omega) (append_cancel_left h)]

variable [LinearOrder Tenant]

theorem ledgerPreimage_inj {asBytes : Tenant → Bytes} (hbytes : Function.Injective asBytes)
    {a b : BudgetSnapshot Tenant} (ha : a.InRange) (hb : b.InRange)
    (hida : ∀ row ∈ a.tenants, (asBytes row.tenantId).length < 2 ^ 32)
    (hidb : ∀ row ∈ b.tenants, (asBytes row.tenantId).length < 2 ^ 32)
    (h : ledgerPreimage asBytes a = ledgerPreimage asBytes b) :
    a.version = b.version ∧ a.activeReservations = b.activeReservations ∧
      a.walHighWatermark = b.walHighWatermark ∧ a.tenants.Perm b.tenants := by
  have hsorted := fun l : List (TenantLedger Tenant) =>
    mergeSort_perm l fun a b => decide (a.tenantId ≤ b.tenantId)
  have hfits {n : Nat} (hn : n < 2 ^ 64) : n < 256 ^ 8 := hn
  simp only [ledgerPreimage, append_assoc, append_cancel_left_eq] at h
  rw [toLittleEndian_append_inj (hfits ha.version) (hfits hb.version),
    toLittleEndian_append_inj (hfits ha.tenants) (hfits hb.tenants),
    toLittleEndian_append_inj (hfits ha.activeReservations) (hfits hb.activeReservations)] at h
  obtain ⟨hversions, hcount, hactives, h⟩ := h
  obtain ⟨hrows, hsuffix⟩ := flatMap_append_inj
    (P := fun row => row.InRange ∧ (asBytes row.tenantId).length < 2 ^ 32)
    (fun hx hy => updateLedger_append_inj hbytes hx.1 hy.1 hx.2 hy.2)
    (by rw [length_mergeSort, length_mergeSort, hcount])
    (fun row hrow => by
      rw [mem_mergeSort] at hrow
      exact ⟨ha.rows row hrow, hida row hrow⟩)
    (fun row hrow => by
      rw [mem_mergeSort] at hrow
      exact ⟨hb.rows row hrow, hidb row hrow⟩) h
  refine ⟨hversions, hactives, walWatermark_inj hsuffix ha.walHighWatermark hb.walHighWatermark, ?_⟩
  exact (hsorted a.tenants).symm.trans ((List.Perm.of_eq hrows).trans (hsorted b.tenants))

/-- Rows of distinct tenants have one order by tenant. -/
theorem mergeSort_eq_of_perm {l l' : List (TenantLedger Tenant)}
    (hnodup : (l.map TenantLedger.tenantId).Nodup) (h : l.Perm l') :
    (l.mergeSort fun a b => decide (a.tenantId ≤ b.tenantId)) =
      l'.mergeSort fun a b => decide (a.tenantId ≤ b.tenantId) := by
  have hperm := fun l : List (TenantLedger Tenant) =>
    mergeSort_perm l fun a b => decide (a.tenantId ≤ b.tenantId)
  have hascending (l : List (TenantLedger Tenant)) :
      (l.mergeSort fun a b => decide (a.tenantId ≤ b.tenantId)).Pairwise
        fun a b => a.tenantId ≤ b.tenantId := by
    refine (pairwise_mergeSort ?_ ?_ l).imp fun hxy => of_decide_eq_true hxy
    · intro x y z hxy hyz
      simpa using (of_decide_eq_true hxy).trans (of_decide_eq_true hyz)
    · intro x y
      simpa using le_total x.tenantId y.tenantId
  refine List.Perm.eq_of_pairwise ?_ (hascending l) (hascending l')
    ((hperm l).trans (h.trans (hperm l').symm))
  intro x y hx hy hxy hyx
  rw [mem_mergeSort] at hx hy
  exact inj_on_of_nodup_map hnodup hx (h.mem_iff.2 hy) (le_antisymm hxy hyx)

/-- With identifiers as the bytes they are: equal preimages are of snapshots with the same
version, count of reservations, watermark and rows, and with distinct identifiers the
order of the rows does not show. -/
theorem ledgerPreimage_exact :
    (∀ a b : BudgetSnapshot Bytes, a.InRange → b.InRange →
      (∀ row ∈ a.tenants, row.tenantId.length < 2 ^ 32) →
      (∀ row ∈ b.tenants, row.tenantId.length < 2 ^ 32) →
      ledgerPreimage id a = ledgerPreimage id b →
        a.version = b.version ∧ a.activeReservations = b.activeReservations ∧
          a.walHighWatermark = b.walHighWatermark ∧ a.tenants.Perm b.tenants) ∧
    ∀ (a : BudgetSnapshot Bytes) (rows : List (TenantLedger Bytes)),
      (a.tenants.map TenantLedger.tenantId).Nodup → a.tenants.Perm rows →
        ledgerPreimage id { a with tenants := rows } = ledgerPreimage id a := by
  refine ⟨fun a b ha hb hida hidb h => ledgerPreimage_inj Function.injective_id ha hb hida hidb h,
    fun a rows hnodup hperm => ?_⟩
  simp only [ledgerPreimage, ← mergeSort_eq_of_perm hnodup hperm, hperm.length_eq]

/-- A replay boundary at three, the later identifier first. -/
def unsorted : BudgetSnapshot Bytes where
  version := 2 ^ 63 + 4
  tenants := [⟨[98, 99], 100, 60, 30, 10⟩, ⟨[97], 5, 5, 0, 0⟩]
  activeReservations := 1
  walHighWatermark := some 3

theorem unsorted_inRange : unsorted.InRange where
  version := by decide
  tenants := by decide
  rows := by
    simp only [unsorted, forall_mem_cons]
    exact ⟨⟨by decide, by decide, by decide, by decide⟩,
      ⟨by decide, by decide, by decide, by decide⟩, by simp⟩
  activeReservations := by decide
  walHighWatermark := by simp [unsorted]

def inOrder : BudgetSnapshot Bytes :=
  { unsorted with tenants := unsorted.tenants.reverse }

theorem inOrder_inRange : inOrder.InRange :=
  { unsorted_inRange with
    tenants := by decide
    rows := fun row hrow => unsorted_inRange.rows row (mem_reverse.1 hrow) }

theorem ledgerPreimage_exact_unsorted :
    ledgerPreimage id inOrder = ledgerPreimage id unsorted ∧ inOrder.version = unsorted.version ∧
      inOrder.activeReservations = unsorted.activeReservations ∧
      inOrder.walHighWatermark = unsorted.walHighWatermark ∧
      inOrder.tenants.Perm unsorted.tenants := by
  obtain ⟨hinj, hperm⟩ := ledgerPreimage_exact
  have hsame : ledgerPreimage id inOrder = ledgerPreimage id unsorted :=
    hperm unsorted _ (by decide) (reverse_perm _).symm
  exact ⟨hsame,
    hinj inOrder unsorted inOrder_inRange unsorted_inRange (by decide) (by decide) hsame⟩

end Calybris.Budget
