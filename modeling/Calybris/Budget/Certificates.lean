import Calybris.Budget.Restore
import Calybris.Budget.Settled

/-!
# Certificates account for what was committed once

The snapshot of a certificate and the turn of the baseline are two steps, so that the
certificates may reach the baseline in another order than their snapshots were taken.
The baseline is the largest total that reached it, and what the certificates report as
newly committed adds up to how far it has come.
-/

namespace Calybris.Budget

open Finset Function Transition List Option TenantLedger FinancialCertificate Shared

variable {Tenant : Type*}

/-! ### The baseline -/

/-- What the certificates so far say about the baseline they began with and the one they
left. -/
structure Telescopes (start baseline : Int) (certificates : List (BudgetSnapshot Tenant × Int)) :
    Prop where
  start_nonneg : 0 ≤ start
  start_le : start ≤ baseline
  sum : (certificates.map Prod.snd).sum = baseline - start
  le : ∀ c ∈ certificates, ∀ totals, snapshotTotals c.1 = some totals →
    start ≤ totals.2 ∧ totals.2 ≤ baseline
  attained : baseline = start ∨
    ∃ c ∈ certificates, ∃ totals, snapshotTotals c.1 = some totals ∧ totals.2 = baseline

namespace Telescopes

variable {start baseline : Int} {certificates : List (BudgetSnapshot Tenant × Int)}
  {snapshot : BudgetSnapshot Tenant}

theorem nil (h : 0 ≤ start) : Telescopes start start ([] : List (BudgetSnapshot Tenant × Int)) where
  start_nonneg := h
  start_le := le_rfl
  sum := by simp
  le _ hc := by cases hc
  attained := .inl rfl

section

variable (h : Telescopes start baseline certificates)

include h

theorem stay (hle : ∀ totals, snapshotTotals snapshot = some totals →
      start ≤ totals.2 ∧ totals.2 ≤ baseline) :
    Telescopes start baseline (certificates ++ [(snapshot, 0)]) where
  start_nonneg := h.start_nonneg
  start_le := h.start_le
  sum := by simpa using h.sum
  le c hc := by
    rcases mem_append.1 hc with hc | hc
    · exact h.le c hc
    · obtain rfl := List.mem_singleton.1 hc
      exact hle
  attained := by
    refine h.attained.imp_right ?_
    rintro ⟨c, hc, hattained⟩
    exact ⟨c, mem_append_left _ hc, hattained⟩

theorem rotate {totals : Int × Int} (htotals : snapshotTotals snapshot = some totals)
    (hlt : baseline < totals.2) :
    Telescopes start totals.2 (certificates ++ [(snapshot, totals.2 - baseline)]) where
  start_nonneg := h.start_nonneg
  start_le := h.start_le.trans hlt.le
  sum := by
    rw [List.map_append, List.sum_append, h.sum, List.map_singleton, List.sum_singleton]
    omega
  le c hc other hother := by
    rcases mem_append.1 hc with hc | hc
    · obtain ⟨hstart, hle⟩ := h.le c hc other hother
      exact ⟨hstart, hle.trans hlt.le⟩
    · obtain rfl := List.mem_singleton.1 hc
      obtain rfl := some.inj (htotals.symm.trans hother)
      exact ⟨h.start_le.trans hlt.le, le_rfl⟩
  attained := .inr ⟨_, List.mem_append_right _ (List.mem_singleton_self _), totals, htotals, rfl⟩

/-- One more certificate, whichever baseline its snapshot comes to. -/
theorem certify (hsnapshot : start ≤ (snapshot.tenants.map TenantLedger.committedMicrocents).sum) :
    Telescopes start (certifyLedger baseline snapshot).2
      (certificates ++ [(snapshot, (certifyLedger baseline snapshot).1)]) := by
  cases htotals : snapshotTotals snapshot with
  | none =>
    simp only [certifyLedger, htotals]
    exact h.stay fun totals hsome => by rw [htotals] at hsome; cases hsome
  | some totals =>
    obtain ⟨hsum, hin⟩ := snapshotTotals_eq_some htotals
    simp only [certifyLedger, htotals, rotateCertificateBaseline]
    split
    · next hle =>
      refine h.stay fun other hother => ?_
      obtain rfl := some.inj (htotals.symm.trans hother)
      exact ⟨hsum ▸ hsnapshot, hle⟩
    · next hlt =>
      -- Neither the total nor the baseline is negative, so the difference is in range.
      have hdelta : InI64 (totals.2 - baseline) := by
        have hstart := h.start_nonneg
        have hbaseline := h.start_le
        obtain ⟨-, hmax⟩ := hin
        exact ⟨by omega, by omega⟩
      have hrotate := h.rotate htotals (not_le.1 hlt)
      rwa [← wrap_of_inI64 hdelta] at hrotate

/-- The largest of the representable totals is the baseline. -/
theorem max?_totals :
    ((certificates.filterMap fun c => (snapshotTotals c.1).map Prod.snd).max?).getD start =
      baseline := by
  set totals := certificates.filterMap fun c => (snapshotTotals c.1).map Prod.snd with htotals
  have hmem : ∀ x ∈ totals, start ≤ x ∧ x ≤ baseline := by
    intro x hx
    obtain ⟨c, hc, hx⟩ := mem_filterMap.1 hx
    obtain ⟨pair, hpair, rfl⟩ := map_eq_some_iff.1 hx
    exact h.le c hc pair hpair
  have hattained : baseline = start ∨ baseline ∈ totals := by
    refine h.attained.imp_right ?_
    rintro ⟨c, hc, pair, hpair, rfl⟩
    exact mem_filterMap.2 ⟨c, hc, by rw [hpair, map_some]⟩
  cases hmax : totals.max? with
  | none =>
    rw [max?_eq_none_iff] at hmax
    rcases hattained with heq | hin
    · exact heq.symm
    · rw [hmax] at hin
      cases hin
  | some largest =>
    obtain ⟨hlargest, hle⟩ := max?_eq_some_iff.1 hmax
    rcases hattained with heq | hin
    · exact le_antisymm (hmem _ hlargest).2 (heq ▸ (hmem _ hlargest).1)
    · exact le_antisymm (hmem _ hlargest).2 (hle _ hin)

end

end Telescopes

/-! ### What a snapshot shows as committed -/

theorem Engine.sum_committed_picture [LinearOrder Tenant] (e : Engine Tenant)
    (tenants : List Tenant) :
    ((e.picture tenants).tenants.map TenantLedger.committedMicrocents).sum =
      (tenants.map e.committed).sum := by
  have hperm := (List.mergeSort_perm (tenants.map e.row)
    fun a b => decide (a.tenantId ≤ b.tenantId)).map TenantLedger.committedMicrocents
  rw [picture, hperm.sum_eq, List.map_map]
  rfl

theorem foldlM_checkedAdd_getD {rows : List (TenantLedger Tenant)}
    (h : ∀ row ∈ rows, 0 ≤ row.committedMicrocents) {x : Int} (hx : 0 ≤ x) :
    0 ≤ (rows.foldlM (fun total row => checkedAdd total row.committedMicrocents) x).getD
        (2 ^ 63 - 1) ∧
      (rows.foldlM (fun total row => checkedAdd total row.committedMicrocents) x).getD
        (2 ^ 63 - 1) ≤ x + (rows.map committedMicrocents).sum := by
  induction rows generalizing x with
  | nil => simpa using hx
  | cons row rows ih =>
    have hrow := h row mem_cons_self
    have hrows := fun other hother => h other (mem_cons_of_mem _ hother)
    have hnonneg : 0 ≤ (rows.map committedMicrocents).sum := by
      apply List.sum_nonneg
      intro y hy
      obtain ⟨other, hother, rfl⟩ := mem_map.1 hy
      exact hrows other hother
    rw [List.foldlM_cons, List.map_cons, List.sum_cons, checkedAdd]
    split
    · obtain ⟨h1, h2⟩ := ih hrows (x := x + row.committedMicrocents) (by omega)
      exact ⟨h1, h2.trans (by omega)⟩
    · next hout =>
      have hmax : 2 ^ 63 ≤ x + row.committedMicrocents := by
        by_contra hlt
        exact hout ⟨by omega, by omega⟩
      simp only [bind_eq_bind, bind_none, getD_none]
      omega

variable {registry : Registry Tenant}

theorem Engine.restoredCommittedTotal_le [DecidableEq Tenant] {snap : BudgetSnapshot Tenant}
    {e : Engine Tenant} (h : restoreFromSnapshot snap = .ok (e, registry)) :
    0 ≤ registry.lastCertifiedCommittedTotal ∧
      registry.lastCertifiedCommittedTotal ≤ (registry.tenants.map e.committed).sum := by
  obtain ⟨hvalid, hrestored, -, rfl⟩ := restoreFromSnapshot_eq_ok h
  obtain ⟨-, hnodup, hsound⟩ :=
    validateSnapshotLedger_eq_ok_iff.1 (validateSnapshotForRestore_eq_ok_iff.1 hvalid).1
  have hcommitted : (snap.tenants.map TenantLedger.tenantId).map e.committed =
      snap.tenants.map TenantLedger.committedMicrocents := by
    rw [List.map_map]
    apply List.map_congr_left
    intro row hrow
    exact congrArg TenantLedger.committedMicrocents (hrestored.row_of_mem hnodup hrow)
  simpa [hcommitted] using foldlM_checkedAdd_getD (fun row hrow => (hsound row hrow).committed)
    (le_refl (0 : Int))

/-! ### Runs -/

/-- An engine that nobody used yet. -/
inductive Begins [DecidableEq Tenant] : Engine Tenant → Registry Tenant → Prop
  | new : Begins .new .new
  | restored {snap e registry} (h : Engine.restoreFromSnapshot snap = .ok (e, registry)) :
      Begins e registry

section

variable [LinearOrder Tenant] {n m : Nat} {s s' : Shared Tenant n m}

def Shared.certificates (s : Shared Tenant n m)
    (ledgerDigestHex : BudgetSnapshot Tenant → List UInt8) : List FinancialCertificate :=
  s.history.certificates.map fun c => certifySnapshot ledgerDigestHex c.1 c.2

theorem Shared.map_totalCommitted (ledgerDigestHex : BudgetSnapshot Tenant → List UInt8) :
    ((s.certificates ledgerDigestHex).filter
        aggregateTotalsRepresentable).map
      totalCommittedMicrocents =
      s.history.certificates.filterMap fun c => (snapshotTotals c.1).map Prod.snd := by
  rw [certificates]
  induction s.history.certificates with
  | nil => rfl
  | cons c certificates ih =>
    have hrepresentable : (certifySnapshot ledgerDigestHex c.1 c.2).aggregateTotalsRepresentable =
        (snapshotTotals c.1).isSome := rfl
    have htotal : (certifySnapshot ledgerDigestHex c.1 c.2).totalCommittedMicrocents =
        ((snapshotTotals c.1).map Prod.snd).getD 0 := rfl
    cases htotals : snapshotTotals c.1 <;> simp [hrepresentable, htotal, htotals, ih]

omit [LinearOrder Tenant] in
theorem History.certificates_arrive {h : History Tenant n} {i : Fin n} {p : Pc Tenant} :
    (h.arrive i p).certificates = h.certificates := by
  unfold History.arrive
  split <;> rfl

omit [LinearOrder Tenant] in
theorem Shared.lastCertified_keep {p : Pc Tenant} : (s.keep p).lastCertifiedCommittedTotal =
    s.registry.lastCertifiedCommittedTotal := by
  unfold keep
  split
  · split <;> rfl
  · rfl

def Shared.totalCommitted (s : Shared Tenant n m) : Int :=
  (s.registry.tenants.map s.core.engine.committed).sum

theorem Shared.Step.totalCommitted_le (hstep : s.Step s') (h : Inv s.core) :
    s.totalCommitted ≤ s'.totalCommitted := by
  obtain ⟨added, htenants⟩ : ∃ added, s'.registry.tenants = s.registry.tenants ++ added := by
    cases hstep with
    | @advance i fails e' p' hadvance =>
      simp only [keep]
      split
      · split
        · exact ⟨_, rfl⟩
        · exact ⟨[], (append_nil _).symm⟩
      · exact ⟨[], (append_nil _).symm⟩
    | _ => exact ⟨[], (append_nil _).symm⟩
  rw [totalCommitted, totalCommitted, htenants, map_append, sum_append]
  have hsame : (s.registry.tenants.map s.core.engine.committed).sum ≤
      (s.registry.tenants.map s'.core.engine.committed).sum :=
    sum_le_sum fun t _ => hstep.committed_le h t
  have hadded : 0 ≤ (added.map s'.core.engine.committed).sum := by
    apply List.sum_nonneg
    intro x hx
    obtain ⟨t, -, rfl⟩ := mem_map.1 hx
    exact (hstep.inv h).wellFormed.committed_nonneg t
  omega

/-- The certificates so far, and those on their way to the baseline. -/
structure Certified (start : Int) (s : Shared Tenant n m) : Prop where
  inv : Inv s.core
  start_le : start ≤ s.totalCommitted
  rotating : ∀ j snapshot, s.observers j = .rotate snapshot →
    start ≤ (snapshot.tenants.map committedMicrocents).sum
  telescopes : Telescopes start s.registry.lastCertifiedCommittedTotal s.history.certificates

namespace Certified

variable {start : Int}

theorem of_start {e : Engine Tenant} (hinv : Inv (⟨e, fun _ => .idle none⟩ : State Tenant n))
    (hnonneg : 0 ≤ registry.lastCertifiedCommittedTotal)
    (hle : registry.lastCertifiedCommittedTotal ≤ (registry.tenants.map e.committed).sum) :
    Certified registry.lastCertifiedCommittedTotal
      (Shared.start e registry : Shared Tenant n m) where
  inv := hinv
  start_le := hle
  rotating j snapshot hj := by cases hj
  telescopes := .nil hnonneg

theorem step (h : Certified start s) (hstep : s.Step s') : Certified start s' where
  inv := hstep.inv h.inv
  start_le := h.start_le.trans (hstep.totalCommitted_le h.inv)
  rotating := by
    intro j snapshot hj
    cases hstep with
    | call | advance => exact h.rotating j snapshot hj
    | @ask k o hk ho | @refuse k o hfull ho =>
      by_cases heq : j = k
      · subst heq
        simp only [move, update_self] at hj
        subst hj
        simp at ho
      · simp only [move, update_of_ne heq] at hj
        exact h.rotating j snapshot hj
    | @take k o hgate hlt ho =>
      by_cases heq : j = k
      · subst heq
        simp only [Shared.after, Shared.move, update_self] at hj
        subst hj
        obtain ⟨-, hsnapshot⟩ : s.observers j = .certify ∧
            Observer.rotate snapshot = .rotate (s.core.engine.picture s.registry.tenants) := by
          simpa using ho
        obtain rfl := Observer.rotate.inj hsnapshot
        rw [Engine.sum_committed_picture]
        exact h.start_le
      · simp only [Shared.after, Shared.move, update_of_ne heq] at hj
        exact h.rotating j snapshot hj
    | @give k | @fail k | @certify k =>
      by_cases heq : j = k
      · subst heq
        simp [move] at hj
      · simp only [move, update_of_ne heq] at hj
        exact h.rotating j snapshot hj
  telescopes := by
    cases hstep with
    | certify hj => exact h.telescopes.certify (h.rotating _ _ hj)
    | call =>
      rw [History.certificates_arrive]
      exact h.telescopes
    | advance =>
      rw [History.certificates_arrive, lastCertified_keep]
      exact h.telescopes
    | take | ask | refuse | give | fail => exact h.telescopes

theorem of_begins {e : Engine Tenant} (h : Begins e registry) :
    Certified registry.lastCertifiedCommittedTotal
      (Shared.start e registry : Shared Tenant n m) := by
  cases h with
  | new => exact of_start inv_init le_rfl le_rfl
  | restored h =>
    obtain ⟨hnonneg, hle⟩ := Engine.restoredCommittedTotal_le h
    exact of_start (inv_restored h) hnonneg hle

end Certified

/-- However commits and certificates interleave: what the certificates report as newly
committed adds up to the largest of their representable totals, less the baseline at the
start. -/
theorem sum_committedSinceLastCertificate (ledgerDigestHex : BudgetSnapshot Tenant → List UInt8)
    {e : Engine Tenant} {registry : Registry Tenant} {es : List (Shared.Event Tenant n m)}
    (hbegins : Begins e registry) (h : run Shared.step (Shared.start e registry) es = some s) :
    ((s.certificates ledgerDigestHex).map
        committedSinceLastCertificate).sum =
      ((((s.certificates ledgerDigestHex).filter
            aggregateTotalsRepresentable).map
          totalCommittedMicrocents).max?).getD
        registry.lastCertifiedCommittedTotal - registry.lastCertifiedCommittedTotal := by
  have hcertified : Certified registry.lastCertifiedCommittedTotal s :=
    run_invariant (fun hs hstep => hs.step (Shared.step_inv hstep)) (.of_begins hbegins) h
  have htelescopes := hcertified.telescopes
  rw [Shared.map_totalCommitted, htelescopes.max?_totals, ← htelescopes.sum, Shared.certificates,
    List.map_map]
  rfl

open Shared.Event in
attribute [local instance] neZero_one neZero_two in
/-- The certificate whose snapshot is older comes to the baseline last. -/
def staleTrace : List (Shared.Event Unit 1 2) :=
  called 0 (.tryEnsureTenant () 10) 1 ++ called 0 (.tryReserve () 4) 8 ++
  called 0 (.commit 1 3) 7 ++ [.certifyLedger 0, .observe 0] ++ called 0 (.tryReserve () 5) 8 ++
  called 0 (.commit 3 4) 7 ++ [.certifyLedger 1, .observe 1, .observe 1, .observe 0]

theorem sum_committedSinceLastCertificate_stale :
    ∃ s, run step (start .new .new) staleTrace = some s ∧
      (s.certificates fun _ => []).map totalCommittedMicrocents = [7, 3] ∧
      ((s.certificates fun _ => []).map committedSinceLastCertificate).sum = 7 := by
  obtain ⟨s, hs, htotals, hrepresentable⟩ :
      ∃ s, run step (start .new .new) staleTrace = some s ∧
        (s.certificates fun _ => []).map totalCommittedMicrocents = [7, 3] ∧
        (((s.certificates fun _ => []).filter aggregateTotalsRepresentable).map
          totalCommittedMicrocents).max? = some 7 :=
    ⟨_, rfl, by decide +kernel, by decide +kernel⟩
  refine ⟨s, hs, htotals, ?_⟩
  rw [sum_committedSinceLastCertificate (fun _ => []) .new hs, hrepresentable]
  rfl

end

end Calybris.Budget
