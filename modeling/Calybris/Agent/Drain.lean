import Calybris.Agent.Writes

/-!
# No hold is stuck

An attempt that is no longer running and not yet settled has its reservation in the
ledger, and the ledger never refuses a settlement within it. So each such attempt can be
resolved at once by hand, closed run or not, and one after the other they all can, until
nothing is reserved any more.
-/

namespace Calybris

namespace Budget

namespace Rests

variable {Tenant : Type*} [LinearOrder Tenant] {g : Shared Tenant 1 1} {b : Book Tenant}
  {id : Nat} {r : ReservationRecord Tenant} {c : Int}

theorem SettledAt.reservations (h : SettledAt g b id r c) :
    g.core.engine.reservations id = none := by
  obtain ⟨x, -, hrests⟩ := h
  obtain ⟨ops, htracks⟩ := hrests.tracks
  rw [htracks.reservations_of_gateFree hrests.gateFree]
  exact Function.update_self id none b.holds

end Rests

end Budget

namespace Agent

open Budget Transition Option

namespace AgentBudget

variable {budget : Int} {B B' : AgentBudget} {k : String} {a a' : Attempt}

theorem amount_of_le {name : String} {value : Int} (h : 0 ≤ value) (hle : value ≤ maxI64) :
    amount name value false = .ok () := by
  simp [amount, h, hle]

structure Resolves (B : AgentBudget) (k : String) (a : Attempt) (B' : AgentBudget) : Prop where
  entry : ∃ a', B'.attempts = B.attempts.set k a' ∧ a'.report.status.isSettled ∧
    a'.reservationId = none
  hold : ∃ id, a.reservationId = some id ∧ B'.guard.core.engine.reservations id = none
  reserved : B'.guard.core.engine.reservedTotal "run" =
    B.guard.core.engine.reservedTotal "run" - a.report.reservedMicrocents

theorem Resolves.of_accounted (hB : B.Accounted budget) (hB' : B'.Accounted budget) {id : Nat}
    (hget : B.attempts.get? k = some a) (hid : a.reservationId = some id)
    (hset : B'.attempts = B.attempts.set k a') (hsettled : a'.report.status.isSettled)
    (hnone : a'.reservationId = none) (hhold : B'.guard.core.engine.reservations id = none) :
    B.Resolves k a B' := by
  have hopen := (hB.agrees.sound k a (Dict.mem_entries.2 hget)).isUnresolved hid
  have hsound : a'.Sound :=
    hB'.agrees.sound k a' (Dict.mem_entries.2 (by rw [hset, Dict.get?_set, if_pos rfl]))
  refine ⟨⟨a', hset, hsettled, hnone⟩, ⟨id, hid, hhold⟩, ?_⟩
  rw [hB'.agrees.reserved, hB.agrees.reserved, hset, Dict.total_set, hget, map_some,
    getD_some, Attempt.held_of_isUnresolved hopen, hsound.held_eq_zero hnone, Int.add_zero]

namespace Accounted

section

variable (hB : B.Accounted budget) (hget : B.attempts.get? k = some a)

include hB hget

theorem exists_reservationId (hopen : a.report.status.isUnresolved) :
    ∃ id, a.reservationId = some id :=
  isSome_iff_exists.1 ((hB.agrees.sound k a (Dict.mem_entries.2 hget)).held.2 hopen)

theorem exists_commit {id : Nat} (hid : a.reservationId = some id) {cost : Int} (hcost : 0 ≤ cost)
    (hle : cost ≤ a.report.reservedMicrocents) (hlt : cost < 2 ^ 63) (weak : List Bool) :
    ∃ guard, (∃ o, B.guard.perform weak (.commit (.ofNat id) (.ofInt cost)) = some (guard, o) ∧
      o.isCommitted) ∧ guard.core.engine.reservations id = none := by
  obtain ⟨b, h⟩ := hB
  have hr := h.holds k a id hget hid
  obtain ⟨guard, o, hperform⟩ :=
    Shared.exists_perform weak (.commit (.ofNat id) (.ofInt cost)) h.rests.idle
  obtain ⟨remaining, rfl⟩ := h.rests.isCommitted_of_le hr hcost hle hperform
  exact ⟨guard, ⟨_, hperform, rfl⟩, (h.rests.commit ⟨hcost, hlt⟩ hr hperform).reservations⟩

theorem exists_release {id : Nat} (hid : a.reservationId = some id) (weak : List Bool) :
    ∃ guard, (∃ o, B.guard.perform weak (.release (.ofNat id)) = some (guard, o) ∧
      o.isReleased) ∧ guard.core.engine.reservations id = none := by
  obtain ⟨b, h⟩ := hB
  have hr := h.holds k a id hget hid
  obtain ⟨guard, o, hperform⟩ := Shared.exists_perform weak (.release (.ofNat id)) h.rests.idle
  obtain ⟨remaining, rfl⟩ := h.rests.isReleased hr hperform
  exact ⟨guard, ⟨_, hperform, rfl⟩, (h.rests.release hr hperform).reservations⟩

theorem exists_settleLocked (hdue : a.Due k) (hopen : a.report.status.isUnresolved) {cost : Int}
    (hcost : 0 ≤ cost) (hle : cost ≤ a.report.reservedMicrocents) (weak : List Bool) :
    ∃ B', B.settleLocked weak k a cost = some (B', .ok ()) ∧ B.Resolves k a B' := by
  obtain ⟨id, hid⟩ := hB.exists_reservationId hget hopen
  have hlt : cost < 2 ^ 63 := by
    have hmax := hdue.reserved.2
    unfold maxI64 at hmax
    omega
  obtain ⟨guard, hperform, hhold⟩ := hB.exists_commit hget hid hcost hle hlt weak
  have hover : decide (a.report.reservedMicrocents < cost) = false := decide_eq_false hle.not_gt
  obtain ⟨B', heq, hset, rfl⟩ : ∃ B', B.settleLocked weak k a cost = some (B', .ok ()) ∧
      B'.attempts = B.attempts.set k ⟨{ a.report with
        actualMicrocents := some cost, status := .committed }, none⟩ ∧ B'.guard = guard := by
    obtain ⟨o, hperform, hcommitted⟩ := hperform
    simp only [AgentBudget.settleLocked, hid, hperform, hover, map_some, if_pos hcommitted]
    exact ⟨_, rfl, rfl, rfl⟩
  have haccounted := hB.settleLocked hget ⟨hcost, hlt⟩ heq
  exact ⟨B', heq, .of_accounted hB haccounted hget hid hset rfl rfl hhold⟩

theorem reconcile_ok (hdue : a.Due k) (hstatus : a.report.status = .uncertain) {cost : Int}
    (hcost : 0 ≤ cost) (hle : cost ≤ a.report.reservedMicrocents) (weak : List Bool) :
    ∃ B', B.reconcile weak k cost = some (B', .ok ()) ∧ B.Resolves k a B' := by
  have hentry : B.unresolved k = .ok a := by
    simp only [unresolved, hget, hstatus, true_or, if_true]
  obtain ⟨B', hsettle, hresolves⟩ :=
    hB.exists_settleLocked hget hdue (by rw [hstatus]; rfl) hcost hle weak
  refine ⟨B', ?_, hresolves⟩
  rw [AgentBudget.reconcile, hdue.key, amount_of_le hcost (hle.trans hdue.reserved.2), hentry]
  exact (if_pos (.inl (hdue.unseen (.inr hstatus)))).trans hsettle

theorem release_ok (hdue : a.Due k) (hstatus : a.report.status = .uncertain) (weak : List Bool) :
    ∃ B', B.release weak k true = some (B', .ok ()) ∧ B.Resolves k a B' := by
  have hentry : B.unresolved k = .ok a := by
    simp only [unresolved, hget, hstatus, true_or, if_true]
  obtain ⟨id, hid⟩ := hB.exists_reservationId hget (by rw [hstatus]; rfl)
  obtain ⟨guard, ⟨o, hperform, hreleased⟩, hhold⟩ := hB.exists_release hget hid weak
  obtain ⟨B', heq, hset, rfl⟩ : ∃ B', B.release weak k true = some (B', .ok ()) ∧
      B'.attempts = B.attempts.set k ⟨{ a.report with
        status := .released, actualMicrocents := some 0 }, none⟩ ∧ B'.guard = guard := by
    rw [AgentBudget.release, hdue.key, hentry]
    simp only [require, hdue.unseen (.inr hstatus), hid, hperform, map_some, if_pos hreleased]
    exact ⟨_, rfl, rfl, rfl⟩
  exact ⟨B', heq, .of_accounted hB (hB.does (release_does heq)) hget hid hset rfl rfl hhold⟩

theorem correct_ok (hdue : a.Due k)
    (hstatus : a.report.status = .overrunUnsettled) {corrected : Int} (hcorrected : 0 ≤ corrected)
    (hle : corrected ≤ a.report.reservedMicrocents) {why : String} (hwhy : reason why = .ok ())
    (weak : List Bool) :
    ∃ B', B.correct weak k corrected why = some (B', .ok ()) ∧ B.Resolves k a B' := by
  obtain ⟨observed, hobserved, hover⟩ := hdue.overrun hstatus
  obtain ⟨id, hid⟩ := hB.exists_reservationId hget (by rw [hstatus]; rfl)
  have hlt : corrected < 2 ^ 63 := by
    have hmax := hdue.reserved.2
    unfold maxI64 at hmax
    omega
  obtain ⟨guard, ⟨o, hperform, hcommitted⟩, hhold⟩ :=
    hB.exists_commit hget hid hcorrected hle hlt weak
  obtain ⟨B', heq, hset, rfl⟩ : ∃ B', B.correct weak k corrected why = some (B', .ok ()) ∧
      B'.attempts = B.attempts.set k ⟨{ a.report with
        status := .corrected
        correctedMicrocents := some corrected
        correctionReason := some why }, none⟩ ∧ B'.guard = guard := by
    rw [AgentBudget.correct, hdue.key, amount_of_le hcorrected (hle.trans hdue.reserved.2), hwhy,
      hget]
    simp only [require, hstatus, hobserved, hid, hperform, map_some, if_pos hcommitted,
      if_neg (show ¬ observed ≤ corrected by omega)]
    exact ⟨_, rfl, rfl, rfl⟩
  exact ⟨B', heq, .of_accounted hB (hB.does (correct_does heq)) hget hid hset rfl rfl hhold⟩

end

end Accounted

def pending (B : AgentBudget) : Int :=
  B.attempts.total fun a => if a.report.status.isUnresolved then 1 else 0

theorem pending_nonneg (B : AgentBudget) : 0 ≤ B.pending := by
  refine List.sum_nonneg fun x hx => ?_
  obtain ⟨e, -, rfl⟩ := List.mem_map.1 hx
  dsimp only
  split <;> omega

theorem Resolves.pending_lt (h : B.Resolves k a B') (hget : B.attempts.get? k = some a)
    (hopen : a.report.status.isUnresolved) : B'.pending < B.pending := by
  obtain ⟨a', hset, hsettled, -⟩ := h.entry
  have hclosed : ¬ a'.report.status.isUnresolved :=
    fun hopen' => AttemptStatus.not_isSettled hopen' hsettled
  rw [pending, pending, hset, Dict.total_set, hget, map_some, getD_some, if_pos hopen,
    if_neg hclosed]
  omega

theorem Resolves.quiet (h : B.Resolves k a B')
    (hquiet : ∀ k a, B.attempts.get? k = some a → a.report.status ≠ .running) :
    ∀ k a, B'.attempts.get? k = some a → a.report.status ≠ .running := by
  obtain ⟨a', hset, hsettled, -⟩ := h.entry
  intro k' x hget
  rw [hset] at hget
  rcases Dict.of_get?_set hget with ⟨-, rfl⟩ | ⟨-, hget⟩
  · intro hrunning
    rw [hrunning] at hsettled
    cases hsettled
  · exact hquiet k' x hget

theorem Accounted.reservedTotal_eq_zero (hB : B.Accounted budget)
    (hnone : ∀ k a, B.attempts.get? k = some a → ¬ a.report.status.isUnresolved) :
    B.guard.core.engine.reservedTotal "run" = 0 := by
  rw [hB.agrees.reserved]
  refine List.sum_eq_zero fun x hx => ?_
  obtain ⟨⟨k, a⟩, hmem, rfl⟩ := List.mem_map.1 hx
  exact if_neg (hnone k a (Dict.mem_entries.1 hmem))

end AgentBudget

namespace System

variable {Task : Type*} [DecidableEq Task] {budget : Int} {s s' : System Task}

theorem Sane.exists_resolve (h : s.Sane budget)
    (hquiet : ∀ k a, s.budget.attempts.get? k = some a → a.report.status ≠ .running) {k : String}
    {a : Attempt} (hget : s.budget.attempts.get? k = some a)
    (hopen : a.report.status.isUnresolved) :
    ∃ (ev : Event Task) (s' : System Task), s.step ev = some s' ∧
      s.budget.Resolves k a s'.budget := by
  have hdue := h.due k a hget
  cases hstatus : a.report.status with
  | running => exact absurd hstatus (hquiet k a hget)
  | uncertain =>
    obtain ⟨B', heq, hresolves⟩ := h.accounted.release_ok hget hdue hstatus []
    exact ⟨.release k true [], _, by rw [System.step, heq]; rfl, hresolves⟩
  | overrunUnsettled =>
    obtain ⟨B', heq, hresolves⟩ := h.accounted.correct_ok hget hdue hstatus le_rfl
      hdue.reserved.1.le (show reason "written off" = .ok () by decide) []
    exact ⟨.correct k 0 "written off" [], _, by rw [System.step, heq]; rfl, hresolves⟩
  | _ => simp [hstatus, AttemptStatus.isUnresolved] at hopen

/-- One after the other, until nothing is reserved. -/
theorem Sane.exists_drain (h : s.Sane budget)
    (hquiet : ∀ k a, s.budget.attempts.get? k = some a → a.report.status ≠ .running) :
    ∃ (es : List (Event Task)) (t : System Task), run System.step s es = some t ∧
      t.budget.guard.core.engine.reservedTotal "run" = 0 := by
  induction hn : s.budget.pending.toNat using Nat.strongRecOn generalizing s with
  | ind n ih =>
    by_cases hopen : ∃ k a, s.budget.attempts.get? k = some a ∧ a.report.status.isUnresolved
    · obtain ⟨k, a, hget, hopen⟩ := hopen
      obtain ⟨ev, s', hstep, hresolves⟩ := h.exists_resolve hquiet hget hopen
      have hlt : s'.budget.pending.toNat < n := by
        have hless := hresolves.pending_lt hget hopen
        have hnonneg := s'.budget.pending_nonneg
        omega
      obtain ⟨es, t, hrun, hzero⟩ := ih _ hlt (h.step hstep) (hresolves.quiet hquiet) rfl
      exact ⟨ev :: es, t, run_cons_eq_some_iff.2 ⟨s', hstep, hrun⟩, hzero⟩
    · push Not at hopen
      exact ⟨[], s, rfl, h.accounted.reservedTotal_eq_zero hopen⟩

/-- In every state that a budget comes to, closed or not: an uncertain attempt without a
cost is resolved by a release and by a reconciliation at any cost within its reservation,
an unsettled overrun by a correction to any amount within its reservation, and with no
operation running there is a way to a ledger that reserves nothing. -/
theorem no_hold_stuck {maxAttempts maxDeniedRecords : Int} {B : AgentBudget}
    (hnew : AgentBudget.new budget maxAttempts maxDeniedRecords = some (.ok B))
    {es : List (Event Task)} (hrun : run step (start B) es = some s) :
    (∀ k a, s.budget.attempts.get? k = some a → a.report.status = .uncertain →
      a.report.actualMicrocents = none → ∀ weak,
        (∃ B', s.budget.release weak k true = some (B', .ok ()) ∧ s.budget.Resolves k a B') ∧
        ∀ cost, 0 ≤ cost → cost ≤ a.report.reservedMicrocents →
          ∃ B', s.budget.reconcile weak k cost = some (B', .ok ()) ∧ s.budget.Resolves k a B') ∧
    (∀ k a, s.budget.attempts.get? k = some a → a.report.status = .overrunUnsettled →
      ∀ weak corrected why, 0 ≤ corrected → corrected ≤ a.report.reservedMicrocents →
        reason why = .ok () →
          ∃ B', s.budget.correct weak k corrected why = some (B', .ok ()) ∧
            s.budget.Resolves k a B') ∧
    ((∀ k a, s.budget.attempts.get? k = some a → a.report.status ≠ .running) →
      ∃ (es' : List (Event Task)) (t : System Task), run step s es' = some t ∧
        t.budget.guard.core.engine.reservedTotal "run" = 0) := by
  have hsane := sane_run hnew hrun
  refine ⟨fun k a hget hstatus _ weak => ⟨?_, fun cost hcost hle => ?_⟩,
    fun k a hget hstatus weak corrected why hcorrected hle hwhy => ?_, hsane.exists_drain⟩
  · exact hsane.accounted.release_ok hget (hsane.due k a hget) hstatus weak
  · exact hsane.accounted.reconcile_ok hget (hsane.due k a hget) hstatus hcost hle weak
  · exact hsane.accounted.correct_ok hget (hsane.due k a hget) hstatus hcorrected hle hwhy weak

/-- After the overrun of the third call two attempts are open, in a run that is closed. -/
theorem no_hold_stuck_overrun : ∃ B, AgentBudget.new 100 10 10 = some (.ok B) ∧
    ∃ s, run step (start B) overrunTrace = some s ∧ s.budget.closed = true ∧
      s.statuses = [("plan", .committed), ("search", .uncertain), ("draft", .overrunUnsettled)] ∧
      ∃ (es : List (Event (Fin 2))) (t : System (Fin 2)), run step s es = some t ∧
        t.budget.guard.core.engine.reservedTotal "run" = 0 := by
  obtain ⟨B, hB, s, hs, hclosed, hstatuses⟩ : ∃ B, AgentBudget.new 100 10 10 = some (.ok B) ∧
      ∃ s ∈ run step (start B) overrunTrace, s.budget.closed = true ∧ s.statuses =
        [("plan", .committed), ("search", .uncertain), ("draft", .overrunUnsettled)] :=
    exists_new (by decide)
  refine ⟨B, hB, s, hs, hclosed, hstatuses, (no_hold_stuck hB hs).2.2 fun k a hget hrunning => ?_⟩
  have hmem := mem_statuses hget
  rw [hstatuses, hrunning] at hmem
  simp at hmem

end System

end Agent

end Calybris
