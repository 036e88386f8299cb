import Calybris.Agent.Writes

/-!
# The accuracy report

`reservation_accuracy` counts the attempts with a settled status and reports the largest
amount settled. The count is exact. The amount is kept by the settlements at the observed
cost; a correction takes its amount from the ledger as well, and does not count it there.
-/

namespace Calybris.Agent

open Budget Transition

def AttemptStatus.isObserved : AttemptStatus → Bool
  | .committed | .overrunSettled => true
  | _ => false

theorem AttemptStatus.isSettled_of_isObserved {status : AttemptStatus} (h : status.isObserved) :
    status.isSettled := by
  cases status <;> simp_all [isObserved, isSettled]

namespace AgentBudget

variable {B B' : AgentBudget} {k : String}

/-- The amount that the ledger took for a settled attempt is at most this, and is this for
one of them; without one it is zero. -/
structure IsLargest (B : AgentBudget) (amount : Int) : Prop where
  le : ∀ k a, B.attempts.get? k = some a → a.report.status.isSettled → a.charged ≤ amount
  attained : (∃ k a, B.attempts.get? k = some a ∧ a.report.status.isSettled ∧ a.charged = amount) ∨
    amount = 0 ∧ ∀ k a, B.attempts.get? k = some a → ¬ a.report.status.isSettled

/-- The amount is zero, or some attempt that settled at its observed cost took as much. -/
def Covers (B : AgentBudget) (amount : Int) : Prop :=
  amount = 0 ∨ ∃ k a, B.attempts.get? k = some a ∧ a.report.status.isObserved ∧ amount ≤ a.charged

/-- What the settlements keep: the largest amount of the attempts that were not corrected. -/
structure Counted (B : AgentBudget) : Prop where
  nonneg : 0 ≤ B.largestSettled
  le : ∀ k a, B.attempts.get? k = some a → a.report.status.isSettled →
    a.report.status ≠ .corrected → a.charged ≤ B.largestSettled
  covers : B.Covers B.largestSettled

theorem Counted.empty {budget maxAttempts maxDeniedRecords : Int}
    (h : AgentBudget.new budget maxAttempts maxDeniedRecords = some (.ok B)) : B.Counted := by
  obtain ⟨hattempts, hlargest⟩ := empty_of_new h
  refine ⟨hlargest.ge, fun k a hget => ?_, .inl hlargest⟩
  rw [hattempts] at hget
  cases hget

/-- The entry that a section writes was not settled before, so that the attempt with the
largest amount stays. -/
theorem Counted.writes (h : B.Counted) (hwrites : B.Writes k B') : B'.Counted := by
  cases hwrites with
  | nothing hset hlargest =>
    obtain ⟨hnonneg, hle, hcovers⟩ := h
    rw [← hlargest] at hnonneg hle hcovers
    rw [← hset] at hle
    exact ⟨hnonneg, hle, by rwa [Covers, ← hset] at hcovers⟩
  | @entry old a' took hget hmoves hset hlargest =>
    have hgrows : B.largestSettled ≤ B'.largestSettled := by
      rw [hlargest]
      cases took with
      | none => exact le_rfl
      | some cost => exact le_max_left _ _
    have hother : ∀ k' a, B.attempts.get? k' = some a → a.report.status.isSettled →
        B'.attempts.get? k' = some a := by
      intro k' a hget' hsettled
      rw [hset, Dict.get?_set, if_neg, hget']
      rintro rfl
      exact hmoves.not_isSettled (hget.symm.trans hget') hsettled
    refine ⟨h.nonneg.trans hgrows, fun k' a hget' hsettled hcorrected => ?_, ?_⟩
    · rw [hset] at hget'
      rcases Dict.of_get?_set hget' with ⟨-, rfl⟩ | ⟨-, hget'⟩
      · cases hmoves with
        | settle =>
          rw [Attempt.charged_settle, hlargest]
          exact le_max_right _ _
        | correct => exact absurd rfl hcorrected
        | release => exact h.nonneg.trans hgrows
        | start | uncertain | overrun => cases hsettled
      · exact (h.le k' a hget' hsettled hcorrected).trans hgrows
    · have hkeeps : B'.largestSettled = B.largestSettled → B'.Covers B'.largestSettled := by
        intro hsame
        rw [hsame]
        refine h.covers.imp_right ?_
        rintro ⟨k', a, hget', hobserved, hle⟩
        exact ⟨k', a, hother k' a hget' (AttemptStatus.isSettled_of_isObserved hobserved),
          hobserved, hle⟩
      cases hmoves with
      | @settle a actual =>
        rcases max_choice B.largestSettled actual with hmax | hmax
        · exact hkeeps (hlargest.trans hmax)
        · refine .inr ⟨k, _, by rw [hset, Dict.get?_set, if_pos rfl], ?_, ?_⟩
          · dsimp only
            split <;> rfl
          · rw [Attempt.charged_settle, hlargest]
            exact hmax.le
      | start | uncertain | overrun | release | correct => exact hkeeps hlargest

/-- The report names the largest amount exactly when the settlements cover the
corrections. -/
theorem Counted.isLargest_iff (h : B.Counted)
    (hcharged : ∀ k a, B.attempts.get? k = some a → 0 ≤ a.charged) :
    B.IsLargest B.largestSettled ↔ ∀ k a, B.attempts.get? k = some a →
      a.report.status = .corrected → B.Covers a.charged := by
  constructor
  · intro hlargest k a hget hcorrected
    have hle := hlargest.le k a hget (hcorrected ▸ rfl)
    rcases h.covers with hzero | ⟨k', a', hget', hobserved, hcost⟩
    · exact .inl (le_antisymm (hzero ▸ hle) (hcharged k a hget))
    · exact .inr ⟨k', a', hget', hobserved, hle.trans hcost⟩
  · intro hcovers
    have hobserved : ∀ k a, B.attempts.get? k = some a → a.report.status.isObserved →
        a.charged ≤ B.largestSettled := by
      intro k a hget hstatus
      refine h.le k a hget (AttemptStatus.isSettled_of_isObserved hstatus) fun hcorrected => ?_
      rw [hcorrected] at hstatus
      cases hstatus
    have hle : ∀ k a, B.attempts.get? k = some a → a.report.status.isSettled →
        a.charged ≤ B.largestSettled := by
      intro k a hget hsettled
      by_cases hcorrected : a.report.status = .corrected
      · rcases hcovers k a hget hcorrected with hzero | ⟨k', a', hget', hstatus, hcost⟩
        · exact hzero.le.trans h.nonneg
        · exact hcost.trans (hobserved k' a' hget' hstatus)
      · exact h.le k a hget hsettled hcorrected
    refine ⟨hle, ?_⟩
    rcases h.covers with hzero | ⟨k, a, hget, hstatus, hcost⟩
    · by_cases hsome : ∃ k a, B.attempts.get? k = some a ∧ a.report.status.isSettled
      · obtain ⟨k, a, hget, hsettled⟩ := hsome
        exact .inl ⟨k, a, hget, hsettled,
          le_antisymm (hle k a hget hsettled) (hzero.le.trans (hcharged k a hget))⟩
      · push Not at hsome
        exact .inr ⟨hzero, fun k a hget hsettled => hsome k a hget hsettled⟩
    · exact .inl ⟨k, a, hget, AttemptStatus.isSettled_of_isObserved hstatus,
        le_antisymm (hobserved k a hget hstatus) hcost⟩

theorem settledAttempts_eq (hdue : ∀ k a, B.attempts.get? k = some a → a.Due k) :
    B.reservationAccuracy.settledAttempts =
      (B.attempts.entries.filter fun entry => entry.2.report.status.isSettled).length := by
  simp only [reservationAccuracy, List.filter_map, List.length_map]
  congr 1
  refine List.filter_congr fun entry hentry => ?_
  have h := hdue entry.1 entry.2 (Dict.mem_entries.1 hentry)
  cases hsettled : entry.2.report.status.isSettled with
  | false => simp [hsettled]
  | true => simp [hsettled, h.seen hsettled, h.reserved.1]

end AgentBudget

namespace System

variable {Task : Type*} [DecidableEq Task] {budget : Int} {s : System Task}

theorem counted_run {maxAttempts maxDeniedRecords : Int} {B : AgentBudget}
    (hnew : AgentBudget.new budget maxAttempts maxDeniedRecords = some (.ok B))
    {es : List (Event Task)} (hrun : run step (start B) es = some s) : s.budget.Counted := by
  have h : s.Sane budget ∧ s.budget.Counted := by
    refine run_invariant (I := fun s : System Task => s.Sane budget ∧ s.budget.Counted) ?_
      ⟨.start hnew, .empty hnew⟩ hrun
    rintro u ev u' ⟨hsane, hcounted⟩ hstep
    obtain ⟨k, hwrites⟩ := step_writes hsane.accounted hstep
    exact ⟨hsane.step hstep, hcounted.writes hwrites⟩
  exact h.2

/-- In every state that a budget comes to, the report counts the attempts with a settled
status; and the amount it names is the largest that the ledger took exactly when every
corrected amount is zero or at most a committed or overrun cost. -/
theorem accuracy_run {maxAttempts maxDeniedRecords : Int} {B : AgentBudget}
    (hnew : AgentBudget.new budget maxAttempts maxDeniedRecords = some (.ok B))
    {es : List (Event Task)} (hrun : run step (start B) es = some s) :
    s.budget.reservationAccuracy.settledAttempts =
        (s.budget.attempts.entries.filter fun entry => entry.2.report.status.isSettled).length ∧
      (s.budget.IsLargest s.budget.reservationAccuracy.largestSettledMicrocents ↔
        ∀ k a, s.budget.attempts.get? k = some a → a.report.status = .corrected →
          s.budget.Covers a.charged) := by
  have hdue := (sane_run hnew hrun).due
  exact ⟨AgentBudget.settledAttempts_eq hdue,
    (counted_run hnew hrun).isLargest_iff fun k a hget => (hdue k a hget).charged⟩

attribute [local instance] neZero_one in
def creditTrace : List (Event (Fin 1)) :=
  [.begin 0 "overrun" 40 [], .finish 0 60 [], .uncertain 0,
    .correct "overrun" 30 "provider credit CR-1" []]

/-- One attempt is settled, at thirty, and the largest amount settled is zero. -/
theorem not_isLargest_credit : ∃ B, AgentBudget.new 50 10 10 = some (.ok B) ∧
    ∃ s, run step (start B) creditTrace = some s ∧
      s.budget.reservationAccuracy.settledAttempts = 1 ∧
      s.budget.reservationAccuracy.largestSettledMicrocents = 0 ∧
      s.budget.guard.core.engine.committed "run" = 30 ∧
      ¬ s.budget.IsLargest s.budget.reservationAccuracy.largestSettledMicrocents := by
  obtain ⟨B, hB, s, hs, hcount, hlargest, hledger, a, hget, hsettled, hcharged⟩ : ∃ B,
      AgentBudget.new 50 10 10 = some (.ok B) ∧ ∃ s ∈ run step (start B) creditTrace,
        s.budget.reservationAccuracy.settledAttempts = 1 ∧
        s.budget.reservationAccuracy.largestSettledMicrocents = 0 ∧
        s.budget.guard.core.engine.committed "run" = 30 ∧
        ∃ a ∈ s.budget.attempts.get? "overrun", a.report.status.isSettled ∧ a.charged = 30 :=
    exists_new (by decide)
  refine ⟨B, hB, s, hs, hcount, hlargest, hledger, fun h => ?_⟩
  have hle := h.le "overrun" a hget hsettled
  rw [hlargest, hcharged] at hle
  omega

theorem accuracy_run_overrun : ∃ B, AgentBudget.new 100 10 10 = some (.ok B) ∧
    ∃ s, run step (start B) overrunTrace = some s ∧
      s.budget.reservationAccuracy.settledAttempts = 1 ∧
      s.budget.reservationAccuracy.largestSettledMicrocents = 30 ∧ s.budget.IsLargest 30 := by
  obtain ⟨B, hB, s, hs, hcount, hlargest, hstatuses⟩ : ∃ B,
      AgentBudget.new 100 10 10 = some (.ok B) ∧ ∃ s ∈ run step (start B) overrunTrace,
        s.budget.reservationAccuracy.settledAttempts = 1 ∧
        s.budget.reservationAccuracy.largestSettledMicrocents = 30 ∧ s.statuses =
          [("plan", .committed), ("search", .uncertain), ("draft", .overrunUnsettled)] :=
    exists_new (by decide)
  refine ⟨B, hB, s, hs, hcount, hlargest, hlargest ▸ (accuracy_run hB hs).2.2 ?_⟩
  intro k a hget hcorrected
  have hmem := mem_statuses hget
  rw [hstatuses, hcorrected] at hmem
  simp at hmem

end System

end Calybris.Agent
