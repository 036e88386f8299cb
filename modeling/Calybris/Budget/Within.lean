import Calybris.Budget.Alone

/-!
# Settlements within a hold

A commit of no more than its hold and a release take the hold out of the ledger without
asking the balance for anything. So a caller that has the engine to itself is never
refused one of them for a hold that is open.
-/

namespace Calybris.Budget

variable {Tenant : Type*}

section Stages

variable [DecidableEq Tenant] {id : Nat} {r : ReservationRecord Tenant} {actual : Int}
  {free : Mutex → Bool} {fails gateFree : Bool} {e e' : Engine Tenant} {p p' : Pc Tenant}

/-- The stages of a commit that its hold covers. -/
inductive Paying (id : Nat) (r : ReservationRecord Tenant) (actual : Int) (e : Engine Tenant) :
    Pc Tenant → Prop
  | lock (hr : e.reservations id = some r) (ht : (e.tenantBudgets r.tenant).isSome)
      (hsum : InI64 (e.committed r.tenant + actual)) : Paying id r actual e (.lockCommit id actual)
  | lookup (ht : (e.tenantBudgets r.tenant).isSome)
      (hsum : InI64 (e.committed r.tenant + actual)) :
      Paying id r actual e (.commit id r actual .lookup)
  | lockCommitted (hsum : InI64 (e.committed r.tenant + actual)) :
      Paying id r actual e (.commit id r actual .lockCommitted)
  | store (newCommitted : Int) : Paying id r actual e (.commit id r actual (.store newCommitted))
  | refund : Paying id r actual e (.commit id r actual .refund)
  | subtract : Paying id r actual e (.commit id r actual .subtract)
  | report : Paying id r actual e (.commit id r actual .report)
  | paid (remaining : Int) :
      Paying id r actual e (.idle (some (.settlement (.committed remaining actual))))

/-- Nothing above the hold is to be debited, so no stage can fail. -/
theorem Paying.advance (h : Paying id r actual e p) (hactual : 0 ≤ actual)
    (hle : actual ≤ r.reserved) (hlt : r.reserved < 2 ^ 63)
    (hadvance : advance free fails e gateFree p = some (e', p')) : Paying id r actual e' p' := by
  have hwrap : wrap (actual - r.reserved) = actual - r.reserved :=
    wrap_of_inI64 ⟨by omega, by omega⟩
  cases h with
  | lock hr ht hsum =>
    simp only [Budget.advance, Budget.lockCommit, hr] at hadvance
    split at hadvance
    · cases hadvance
      exact .lookup ht hsum
    · cases hadvance
  | lookup ht hsum =>
    obtain ⟨x, hx⟩ := Option.isSome_iff_exists.1 ht
    simp only [Budget.advance, commit, hx] at hadvance
    cases hadvance
    exact .lockCommitted hsum
  | lockCommitted hsum =>
    simp only [Budget.advance, commit, checkedAdd, if_pos hsum, hwrap,
      if_neg (show ¬ 0 < actual - r.reserved by omega)] at hadvance
    split at hadvance
    · cases hadvance
      exact .store _
    · cases hadvance
  | store newCommitted =>
    cases hadvance
    split
    · exact .refund
    · exact .subtract
  | refund =>
    cases hadvance
    exact .subtract
  | subtract =>
    simp only [Budget.advance, commit] at hadvance
    split at hadvance <;> cases hadvance <;> exact .report
  | report =>
    cases hadvance
    exact .paid _
  | paid => cases hadvance

/-- The stages of a release of an open hold. -/
inductive Returning (id : Nat) (r : ReservationRecord Tenant) (e : Engine Tenant) :
    Pc Tenant → Prop
  | lock (hr : e.reservations id = some r) (ht : (e.tenantBudgets r.tenant).isSome) :
      Returning id r e (.lockRelease id)
  | lookup (ht : (e.tenantBudgets r.tenant).isSome) : Returning id r e (.release id r .lookup)
  | subtract : Returning id r e (.release id r .subtract)
  | refund : Returning id r e (.release id r .refund)
  | returned (remaining : Int) :
      Returning id r e (.idle (some (.settlement (.released remaining r.reserved))))

theorem Returning.advance (h : Returning id r e p)
    (hadvance : advance free fails e gateFree p = some (e', p')) : Returning id r e' p' := by
  cases h with
  | lock hr ht =>
    simp only [Budget.advance, Budget.lockRelease, hr] at hadvance
    split at hadvance
    · cases hadvance
      exact .lookup ht
    · cases hadvance
  | lookup ht =>
    obtain ⟨x, hx⟩ := Option.isSome_iff_exists.1 ht
    simp only [Budget.advance, release, hx] at hadvance
    cases hadvance
    exact .subtract
  | subtract =>
    simp only [Budget.advance, release] at hadvance
    split at hadvance <;> cases hadvance <;> exact .refund
  | refund =>
    cases hadvance
    exact .returned _
  | returned => cases hadvance

end Stages

variable [LinearOrder Tenant]

/-- What every step of the only caller keeps holds when its call returns. -/
theorem Shared.of_finish {P : Engine Tenant → Pc Tenant → Prop}
    (hstep : ∀ {free fails e gateFree p e' p'}, P e p →
      advance free fails e gateFree p = some (e', p') → P e' p')
    {s s' : Shared Tenant 1 1} {fuel : Nat} {weak : List Bool} {o : Outcome}
    (h : P s.core.engine (s.core.pc 0)) (hfinish : s.finish fuel weak = some (s', o)) :
    P s'.core.engine (.idle (some o)) := by
  induction fuel generalizing s weak with
  | zero => cases hfinish
  | succ fuel ih =>
    rw [finish] at hfinish
    split at hfinish
    · next last hp =>
      obtain ⟨o', rfl, heq⟩ := Option.map_eq_some_iff.1 hfinish
      cases heq
      rwa [hp] at h
    · obtain ⟨u, hu, hfinish⟩ := Option.bind_eq_some_iff.1 hfinish
      obtain ⟨core, hcore, rfl⟩ := Option.map_eq_some_iff.1 hu
      obtain ⟨⟨e', p'⟩, hadvance, rfl⟩ := Option.map_eq_some_iff.1 hcore
      refine ih ?_ hfinish
      simp only [Function.update_self]
      exact hstep h hadvance

theorem Shared.of_perform {P : Engine Tenant → Pc Tenant → Prop}
    (hstep : ∀ {free fails e gateFree p e' p'}, P e p →
      advance free fails e gateFree p = some (e', p') → P e' p')
    {s s' : Shared Tenant 1 1} {weak : List Bool} {c : Call Tenant} {o : Outcome}
    (h : P s.core.engine c.start) (hperform : s.perform weak c = some (s', o)) :
    P s'.core.engine (.idle (some o)) := by
  obtain ⟨u, hu, hfinish⟩ := Option.bind_eq_some_iff.1 hperform
  obtain ⟨core, hcore, rfl⟩ := Option.map_eq_some_iff.1 hu
  simp only [State.step] at hcore
  split at hcore
  · cases hcore
  · cases hcore
    refine of_finish hstep ?_ hfinish
    simpa only [Function.update_self] using h

namespace Rests

variable {g g' : Shared Tenant 1 1} {b : Book Tenant} {weak : List Bool} {o : Outcome}
  {id : Nat} {r : ReservationRecord Tenant} {c : Int}

theorem covered (h : Rests g b) (hr : b.holds id = some r) :
    g.core.engine.reservations id = some r ∧ (UInt64.ofNat id).toNat = id ∧
      r.reserved < 2 ^ 63 ∧ (g.core.engine.tenantBudgets r.tenant).isSome ∧
      0 ≤ g.core.engine.committed r.tenant ∧
      g.core.engine.committed r.tenant + r.reserved < 2 ^ 63 := by
  obtain ⟨ops, htracks⟩ := h.tracks
  have hw := htracks.inv.wellFormed
  have hrecord := (htracks.reservations_of_gateFree h.gateFree id).trans hr
  obtain ⟨hid, ⟨-, hlt⟩, ht⟩ := hw.reservations id r hrecord
  have hheld := Engine.reserved_le_held hw hrecord
  obtain ⟨hsum, hreserved⟩ := htracks.inv.sum_of_gateFree h.gateFree r.tenant
  have hinitial := (htracks.inv.inI64 r.tenant).2.2.2.2
  have hremaining := hw.remaining_nonneg r.tenant
  have hcommitted := hw.committed_nonneg r.tenant
  have hmask : recoveryAllocatorMask < UInt64.size := by decide
  have hnext := hw.nextId_le
  exact ⟨hrecord, UInt64.toNat_ofNat_of_lt' (by omega), hlt, ht, hcommitted, by omega⟩

theorem isCommitted_of_le (h : Rests g b) (hr : b.holds id = some r) (hc : 0 ≤ c)
    (hle : c ≤ r.reserved)
    (hperform : g.perform weak (.commit (.ofNat id) (.ofInt c)) = some (g', o)) :
    ∃ remaining, o = .settlement (.committed remaining c) := by
  obtain ⟨hrecord, hid, hlt, ht, hcommitted, hsum⟩ := h.covered hr
  have hcost : (Int64.ofInt c).toInt = c := Int64.toInt_ofInt_of_le (by omega) (by omega)
  have hstart : Paying id r c g.core.engine
      (Call.commit (.ofNat id) (.ofInt c) : Call Tenant).start := by
    rw [Call.start, hcost, hid, if_neg (by omega)]
    exact .lock hrecord ht ⟨by omega, by omega⟩
  cases Shared.of_perform (P := Paying id r c)
    (fun hp hadvance => hp.advance hc hle hlt hadvance) hstart hperform
  exact ⟨_, rfl⟩

theorem isReleased (h : Rests g b) (hr : b.holds id = some r)
    (hperform : g.perform weak (.release (.ofNat id)) = some (g', o)) :
    ∃ remaining, o = .settlement (.released remaining r.reserved) := by
  obtain ⟨hrecord, hid, -, ht, -⟩ := h.covered hr
  have hstart : Returning id r g.core.engine (Call.release (.ofNat id) : Call Tenant).start := by
    rw [Call.start, hid]
    exact .lock hrecord ht
  cases Shared.of_perform (P := Returning id r)
    (fun hp hadvance => hp.advance hadvance) hstart hperform
  exact ⟨_, rfl⟩

end Rests

end Calybris.Budget
