import Calybris.Budget.Ledger

/-!
# What a step can do to the counters

Most steps only read; the others change one counter by what the thread then owes less
or more. What a lemma asks of the two program counters beyond that is routine for
given ones: `simp` shows it.
-/

namespace Calybris.Budget

open Engine

variable {Tenant : Type*} [DecidableEq Tenant]

/-- A step of a thread from `p` to `p'`, as the other threads see it. -/
structure Moves (free : Mutex → Bool) (e : Engine Tenant) (p : Pc Tenant)
    (e' : Engine Tenant) (p' : Pc Tenant) : Prop where
  balance : ∀ t, e'.balance t + p'.heldBack t - p'.granted t =
    e.balance t + p.heldBack t - p.granted t
  uncovered : ∀ t, e'.uncovered t - p'.counted t = e.uncovered t - p.counted t
  /-- Only who has the lock of the initial amounts grants more. -/
  granted : (∀ t, e'.initial t + p'.granted t = e.initial t + p.granted t) ∨
    ((p.holds .initials ∨ free .initials) ∧
      ∀ t, e'.initial t + p'.granted t = e.initial t + p.granted t ∨
        e'.initial t + p'.granted t < 2 ^ 63)
  wellFormed : e'.WellFormed
  locally : p'.Locally e'
  known : ∀ t, (e.tenantBudgets t).isSome → (e'.tenantBudgets t).isSome
  issued : e.nextId ≤ e'.nextId
  closed : ∀ id, id < e.nextId → e.reservations id = none → p.pendingId ≠ some id →
    e'.reservations id = none
  initial : (∀ t, e'.initial t = e.initial t) ∨ p.holds .initials ∨ free .initials
  committed : (∀ t, e'.committed t = e.committed t) ∨ p.holds .committed ∨ free .committed
  pendingId : ∀ id, p'.pendingId = some id →
    p.pendingId = some id ∨ e.nextId ≤ id ∨ e.reservations id ≠ none
  holds : ∀ m, p'.holds m → p.holds m ∨ free m

/-- The second program counter owes what the first does, and has no identifier and no lock
besides. -/
@[mk_iff]
structure Pc.Alike (free : Mutex → Bool) (p p' : Pc Tenant) : Prop where
  heldBack : ∀ t, p'.heldBack t = p.heldBack t
  counted : ∀ t, p'.counted t = p.counted t
  granted : ∀ t, p'.granted t = p.granted t
  pendingId : ∀ id, p'.pendingId = some id → p.pendingId = some id
  holds : ∀ m, p'.holds m → p.holds m ∨ free m

/-- What a thread has counted is in the reserved total, and what it holds back can be
given back. -/
structure Covered (e : Engine Tenant) (p : Pc Tenant) : Prop where
  counted : ∀ t, p.counted t ≤ e.reservedTotal t
  heldBack : ∀ t, e.remaining t + p.heldBack t < 2 ^ 63

theorem Covered.remaining_lt {e : Engine Tenant} {p : Pc Tenant} (h : Covered e p)
    (hl : p.Locally e) (t : Tenant) : e.remaining t < 2 ^ 63 := by
  have h1 := h.heldBack t
  have h2 := (Pc.owes_nonneg hl.sane t).1
  omega

section

variable {free : Mutex → Bool} {fails : Bool} {e e' : Engine Tenant} {p p' : Pc Tenant}
  {t : Tenant} {id : Nat} {r : ReservationRecord Tenant}

theorem Moves.quiet (hw : e.WellFormed) (hl : p'.Locally e) (h : p.Alike free p') :
    Moves free e p e p' where
  balance t := by rw [h.heldBack, h.granted]
  uncovered t := by rw [h.counted]
  granted := .inl fun t => by rw [h.granted]
  wellFormed := hw
  locally := hl
  known _ ht := ht
  issued := le_rfl
  closed _ _ hnone _ := hnone
  initial := .inl fun _ => rfl
  committed := .inl fun _ => rfl
  pendingId id hid := .inl (h.pendingId id hid)
  holds := h.holds

variable {last : Option Outcome}

section

variable (hw : e.WellFormed)

include hw

theorem Moves.setBudget {x : Int} (ht : (e.tenantBudgets t).isSome) (hx : 0 ≤ x) (hl : p'.Locally e)
    (hheld : ∀ t', p'.heldBack t' - p'.granted t' + (if t' = t then x - e.remaining t else 0) =
      p.heldBack t' - p.granted t')
    (hgranted : (∀ t', p'.granted t' = p.granted t') ∨
      ((p.holds .initials ∨ free .initials) ∧
        ∀ t', p'.granted t' = p.granted t' ∨ e.initial t' + p'.granted t' < 2 ^ 63))
    (h : (∀ t', p'.counted t' = p.counted t') ∧
      (∀ id, p'.pendingId = some id → p.pendingId = some id) ∧
      ∀ m, p'.holds m → p.holds m ∨ free m) :
    Moves free e p (e.setBudget t x) p' where
  balance t' := by
    have := hheld t'
    rw [balance_setBudget]
    omega
  uncovered t' := by rw [uncovered_setBudget, h.1]
  granted := by
    rcases hgranted with heq | ⟨hlock, hcases⟩
    · exact .inl fun t' => by rw [heq]; rfl
    · refine .inr ⟨hlock, fun t' => ?_⟩
      exact (hcases t').imp (fun heq => by rw [heq]; rfl) id
  wellFormed := hw.setBudget ht hx
  locally := hl.frame (fun t' => (isSome_update ht).symm ▸ id) le_rfl
    (fun id hid => (hl.pending id hid).2) (fun _ _ => rfl) (fun _ _ => rfl)
  known t' := (isSome_update ht).symm ▸ id
  issued := le_rfl
  closed _ _ hnone _ := hnone
  initial := .inl fun _ => rfl
  committed := .inl fun _ => rfl
  pendingId id hid := .inl (h.2.1 id hid)
  holds := h.2.2

theorem Moves.setReservedTotal {x : Int} (ht : (e.tenantBudgets t).isSome) (hx : 0 ≤ x ∧ x < 2 ^ 63)
    (hl : p'.Locally e)
    (hcounted : ∀ t', p'.counted t' - (if t' = t then x - e.reservedTotal t else 0) =
      p.counted t')
    (h : (∀ t', p'.heldBack t' = p.heldBack t' ∧ p'.granted t' = p.granted t') ∧
      (∀ id, p'.pendingId = some id → p.pendingId = some id) ∧
      ∀ m, p'.holds m → p.holds m ∨ free m) :
    Moves free e p (e.setReservedTotal t x) p' where
  balance t' := by rw [balance_setReservedTotal, (h.1 t').1, (h.1 t').2]
  uncovered t' := by
    have := hcounted t'
    rw [uncovered_setReservedTotal]
    omega
  granted := .inl fun t' => by rw [(h.1 t').2]; rfl
  wellFormed := hw.setReservedTotal ht hx.1 hx.2
  locally := hl.frame (fun _ => id) le_rfl (fun id hid => (hl.pending id hid).2)
    (fun _ _ => rfl) (fun _ _ => rfl)
  known _ := id
  issued := le_rfl
  closed _ _ hnone _ := hnone
  initial := .inl fun _ => rfl
  committed := .inl fun _ => rfl
  pendingId id hid := .inl (h.2.1 id hid)
  holds := h.2.2

theorem Moves.insertReservation (hlp : p.Locally e) (hid : p.pendingId = some id)
    (hr : 0 < r.reserved ∧ r.reserved < 2 ^ 63) (ht : (e.tenantBudgets r.tenant).isSome)
    (hl : p'.Locally e) (hnone : p'.pendingId = none)
    (h : (∀ t, p'.heldBack t + (if t = r.tenant then r.reserved else 0) = p.heldBack t ∧
        p'.counted t + (if t = r.tenant then r.reserved else 0) = p.counted t ∧
        p'.granted t = p.granted t) ∧ ∀ m, p'.holds m → p.holds m ∨ free m) :
    Moves free e p (e.insertReservation id r) p' where
  balance t := by
    obtain ⟨hlt, hfree⟩ := hlp.pending id hid
    obtain ⟨h1, -, hgranted⟩ := h.1 t
    have h2 : (e.insertReservation id r).balance t = e.remaining t +
      (e.insertReservation id r).held t + e.committed t - e.initial t := rfl
    rw [h2, held_insertReservation hlt hfree, hgranted, Engine.balance]
    omega
  uncovered t := by
    obtain ⟨hlt, hfree⟩ := hlp.pending id hid
    have h1 := (h.1 t).2.1
    have h2 : (e.insertReservation id r).uncovered t = e.reservedTotal t -
      (e.insertReservation id r).held t := rfl
    rw [h2, held_insertReservation hlt hfree, Engine.uncovered]
    omega
  granted := .inl fun t => by rw [(h.1 t).2.2]; rfl
  wellFormed := hw.insertReservation (hlp.pending id hid).1 hr ht
  locally := hl.frame (fun _ h => h) le_rfl (by rw [hnone]; simp) (fun _ _ => rfl)
    (fun _ _ => rfl)
  known _ h := h
  issued := le_rfl
  closed id' _ hnone' hne := by
    have hne' : id' ≠ id := by
      rintro rfl
      exact hne hid
    simpa [Engine.insertReservation, hne'] using hnone'
  initial := .inl fun _ => rfl
  committed := .inl fun _ => rfl
  pendingId id' h := by
    rw [hnone] at h
    cases h
  holds := h.2

theorem Moves.removeReservation (hr : e.reservations id = some r) (hsane : p'.Sane)
    (htenant : p'.tenant = some r.tenant) (hid : p'.pendingId = some id)
    (hinitial : p'.newInitial = none) (hcommitted : p'.newCommitted = none)
    (h : (∀ t, p'.heldBack t - (if t = r.tenant then r.reserved else 0) = p.heldBack t ∧
        p'.counted t - (if t = r.tenant then r.reserved else 0) = p.counted t ∧
        p'.granted t = p.granted t) ∧ ∀ m, p'.holds m → p.holds m ∨ free m) :
    Moves free e p (e.removeReservation id) p' where
  balance t := by
    obtain ⟨h1, -, hgranted⟩ := h.1 t
    have h2 : (e.removeReservation id).balance t = e.remaining t +
      (e.removeReservation id).held t + e.committed t - e.initial t := rfl
    rw [h2, held_removeReservation (hw.reservations id r hr).1 hr, hgranted, Engine.balance]
    omega
  uncovered t := by
    have h1 := (h.1 t).2.1
    have h2 : (e.removeReservation id).uncovered t = e.reservedTotal t -
      (e.removeReservation id).held t := rfl
    rw [h2, held_removeReservation (hw.reservations id r hr).1 hr, Engine.uncovered]
    omega
  granted := .inl fun t => by rw [(h.1 t).2.2]; rfl
  wellFormed := hw.removeReservation
  locally := by
    refine ⟨hsane, ?_, ?_, by rw [hinitial]; simp, by rw [hcommitted]; simp⟩
    · rw [htenant]
      rintro _ ⟨⟩
      exact (hw.reservations id r hr).2.2
    · rw [hid]
      rintro _ ⟨⟩
      exact ⟨(hw.reservations id r hr).1, by simp [Engine.removeReservation]⟩
  known _ h := h
  issued := le_rfl
  closed id' _ hnone _ := by
    by_cases heq : id' = id
    · simp [Engine.removeReservation, heq]
    · simpa [Engine.removeReservation, heq] using hnone
  initial := .inl fun _ => rfl
  committed := .inl fun _ => rfl
  pendingId id' h := by
    rw [hid] at h
    cases h
    exact .inr (.inr (by simp [hr]))
  holds := h.2

theorem Moves.insertTenant {b : Int} (hnew : e.tenantBudgets t = none) (hb : 0 ≤ b ∧ b < 2 ^ 63)
    (hinitials : free .initials) (hcommitted : free .committed) :
    Moves free e (.ensure t b) (e.insertTenant t b) (.idle last) := by
  obtain ⟨hrem, hini, hcom, htot⟩ := hw.eq_zero hnew
  have hheld : ∀ t', (e.insertTenant t b).held t' = e.held t' := fun _ => rfl
  exact
    { balance := by
        intro t'
        by_cases heq : t' = t
        · subst heq
          simp [Engine.balance, hheld, hrem, hini, hcom]
          simp [Engine.insertTenant, Engine.remaining, Engine.committed, Engine.initial]
        · simp [Engine.balance, Engine.insertTenant, Engine.remaining, Engine.committed,
            Engine.initial, Engine.held, heq]
      uncovered := by
        intro t'
        by_cases heq : t' = t
        · subst heq
          simp [Engine.uncovered, hheld, htot]
          simp [Engine.insertTenant, Engine.reservedTotal]
        · simp [Engine.uncovered, Engine.insertTenant, Engine.reservedTotal, Engine.held, heq]
      granted := by
        refine .inr ⟨.inr hinitials, fun t' => ?_⟩
        by_cases heq : t' = t
        · exact .inr (by simpa [Engine.insertTenant, Engine.initial, heq] using hb.2)
        · exact .inl (by simp [Engine.insertTenant, Engine.initial, heq])
      wellFormed := hw.insertTenant hb.1
      locally := .idle _ _
      known := fun _ => isSome_insertTenant
      issued := le_rfl
      closed := fun _ _ hnone _ => hnone
      initial := .inr (.inr hinitials)
      committed := .inr (.inr hcommitted)
      pendingId := by simp
      holds := by simp }

theorem Moves.issue {c : Int} (hl : (Pc.reserve t c .allocate).Locally e)
    (hmask : e.nextId < recoveryAllocatorMask) :
    Moves free e (.reserve t c .allocate) { e with nextId := e.nextId + 1 }
      (.reserve t c (.load e.nextId)) := by
  have hheld : ∀ t', ({ e with nextId := e.nextId + 1 }).held t' = e.held t' :=
    fun t' => held_issue hw
  exact
    { balance := by
        intro t'
        simp [Engine.balance, hheld, Engine.remaining, Engine.committed, Engine.initial]
      uncovered := by
        intro t'
        simp [Engine.uncovered, hheld, Engine.reservedTotal]
      granted := .inl fun _ => rfl
      wellFormed := hw.issue hmask
      locally := by
        refine ⟨⟨hl.sane.1, by simp⟩, hl.known, ?_, by simp, by simp⟩
        rintro _ ⟨⟩
        have hnone : e.reservations e.nextId = none := nextId_notMem hw le_rfl
        exact ⟨Nat.lt_succ_self _, hnone⟩
      known := fun _ h => h
      issued := Nat.le_succ _
      closed := fun _ _ hnone _ => hnone
      initial := .inl fun _ => rfl
      committed := .inl fun _ => rfl
      pendingId := by
        rintro _ ⟨⟩
        exact .inr (.inl le_rfl)
      holds := by simp }

theorem Moves.setCommitted {x : Int} (ht : (e.tenantBudgets t).isSome) (hx : 0 ≤ x ∧ x < 2 ^ 63)
    (hlock : p.holds .committed) (hl : p'.Locally e) (hnew : p'.newCommitted = none)
    (hheld : ∀ t', p'.heldBack t' + (if t' = t then x - e.committed t else 0) = p.heldBack t')
    (h : (∀ t', p'.counted t' = p.counted t' ∧ p'.granted t' = p.granted t') ∧
      (∀ id, p'.pendingId = some id → p.pendingId = some id) ∧
      ∀ m, p'.holds m → p.holds m ∨ free m) :
    Moves free e p (e.setCommitted t x) p' where
  balance t' := by
    have := hheld t'
    rw [balance_setCommitted, (h.1 t').2]
    omega
  uncovered t' := by rw [uncovered_setCommitted, (h.1 t').1]
  granted := .inl fun t' => by rw [(h.1 t').2]; rfl
  wellFormed := hw.setCommitted ht hx.1 hx.2
  locally := hl.frame (fun _ h => h) le_rfl (fun id hid => (hl.pending id hid).2)
    (fun _ _ => rfl) (fun h => absurd hnew h)
  known _ h := h
  issued := le_rfl
  closed _ _ hnone _ := hnone
  initial := .inl fun _ => rfl
  committed := .inr (.inl hlock)
  pendingId id hid := .inl (h.2.1 id hid)
  holds := h.2.2

end

omit [DecidableEq Tenant] in
theorem Pc.Locally.reserve {c : Int} {stage : ReserveStage} (hc : 0 < c ∧ c < 2 ^ 63)
    (hknown : (e.tenantBudgets t).isSome) (hstage : stage.Sane)
    (hid : (Pc.reserve t c stage).pendingId = none) : (Pc.reserve t c stage).Locally e where
  sane := ⟨hc, hstage⟩
  known t' ht' := by cases stage <;> cases ht' <;> exact hknown
  pending id h := by
    rw [hid] at h
    cases h
  initial := by simp
  committed := by simp

omit [DecidableEq Tenant] in
/-- A commit keeps its tenant and its identifier from stage to stage, until it has put the
hold back. -/
theorem Pc.Locally.commit {actual : Int} {stage stage' : CommitStage}
    (h : (Pc.commit id r actual stage).Locally e)
    (hid : (Pc.commit id r actual stage).pendingId = some id)
    (hstage : stage'.Sane r.reserved actual)
    (hnew : (Pc.commit id r actual stage').newCommitted = none) :
    (Pc.commit id r actual stage').Locally e where
  sane := ⟨h.sane.1, h.sane.2.1, hstage⟩
  known := h.known
  pending id' h' := by
    have hsame : id' = id := by cases stage' <;> cases h' <;> rfl
    exact h.pending id' (hsame ▸ hid)
  initial := by simp
  committed t a x h' := by
    rw [hnew] at h'
    cases h'

theorem Moves.setInitial {a x y : Int} (hw : e.WellFormed)
    (hl : (Pc.topUp t a (.store x y)).Locally e) :
    Moves free e (.topUp t a (.store x y)) (e.setInitial t x) (.idle last) := by
  obtain ⟨hnew, hlt⟩ := hl.initial t a x rfl
  obtain ⟨ha, -⟩ := hl.sane
  have hpos := hw.initial_nonneg t
  have hsum : ∀ t', (e.setInitial t x).initial t' =
      e.initial t' + (Pc.topUp t a (.store x y)).granted t' := by
    intro t'
    rw [initial_setInitial]
    by_cases heq : t' = t <;> simp [heq, hnew]
  exact
    { balance := by
        intro t'
        rw [balance_setInitial]
        by_cases heq : t' = t <;> simp [heq, hnew]
      uncovered := fun _ => rfl
      granted := .inl fun t' => by simpa using hsum t'
      wellFormed := hw.setInitial (hl.known t rfl) (by omega)
      locally := .idle _ _
      known := fun _ h => h
      issued := le_rfl
      closed := fun _ _ hnone _ => hnone
      initial := .inr (.inl rfl)
      committed := .inl fun _ => rfl
      pendingId := by simp
      holds := by simp }

theorem Moves.setCap {caps : Tenant → Option Int} {m : Int} (hw : e.WellFormed) :
    Moves free e (.setMaxReserved t m) { e with maxReservedMicrocents := caps } (.idle last) where
  balance _ := rfl
  uncovered _ := rfl
  granted := .inl fun _ => rfl
  wellFormed := { hw with }
  locally := .idle _ _
  known _ h := h
  issued := le_rfl
  closed _ _ hnone _ := hnone
  initial := .inl fun _ => rfl
  committed := .inl fun _ => rfl
  pendingId := by simp
  holds := by simp

end

end Calybris.Budget
