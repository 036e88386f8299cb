import Calybris.Agent.Lifecycle
import Calybris.Budget.Within

/-!
# What is written about an attempt

A section writes the entry of one attempt at most, and each way of doing so takes the
attempt from one status to another. A settlement within the reservation is never refused
by the ledger, so what it leaves open is an overrun.
-/

namespace Calybris.Agent

open Budget Transition

/-- How an entry is written: what was there before, what is there after, and what a
settlement took from the ledger at the cost that was observed. -/
inductive Attempt.Moves (k : String) : Option Attempt → Attempt → Option Int → Prop
  | start {reserve : Int} {id : Option Nat} (hid : attemptId k = .ok ())
      (hreserve : amount "reserve_microcents" reserve true = .ok ()) :
      Moves k none ⟨⟨k, .running, reserve, none, none, none⟩, id⟩ none
  | uncertain {a : Attempt} (hrunning : a.report.status = .running) :
      Moves k (some a) { a with report := { a.report with status := .uncertain } } none
  | settle {a : Attempt} {actual : Int} (hopen : a.report.status.isUnresolved)
      (hactual : 0 ≤ actual) :
      Moves k (some a) ⟨{ a.report with
        actualMicrocents := some actual
        status := if a.report.reservedMicrocents < actual then .overrunSettled else .committed },
        none⟩ (some actual)
  | overrun {a : Attempt} {actual : Int} (id : Nat) (hopen : a.report.status.isUnresolved)
      (hover : a.report.reservedMicrocents < actual) :
      Moves k (some a) ⟨{ a.report with
        actualMicrocents := some actual
        status := .overrunUnsettled }, some id⟩ none
  | release {a : Attempt} (hopen : a.report.status.isUnresolved) :
      Moves k (some a) ⟨{ a.report with
        status := .released
        actualMicrocents := some 0 }, none⟩ none
  | correct {a : Attempt} {corrected : Int} {why : String}
      (hover : a.report.status = .overrunUnsettled) (hcorrected : 0 ≤ corrected) :
      Moves k (some a) ⟨{ a.report with
        status := .corrected
        correctedMicrocents := some corrected
        correctionReason := some why }, none⟩ none

structure Attempt.Due (k : String) (a : Attempt) : Prop where
  key : attemptId k = .ok ()
  reserved : 0 < a.report.reservedMicrocents ∧ a.report.reservedMicrocents ≤ maxI64
  unseen : a.report.status = .running ∨ a.report.status = .uncertain →
    a.report.actualMicrocents = none
  overrun : a.report.status = .overrunUnsettled → a.Overrun
  seen : a.report.status.isSettled → a.report.actualMicrocents.isSome
  charged : 0 ≤ a.charged

theorem Attempt.charged_settle (report : AttemptReport) (actual : Int) :
    Attempt.charged ⟨{ report with
      actualMicrocents := some actual
      status := if report.reservedMicrocents < actual then .overrunSettled else .committed },
      none⟩ = actual := by
  by_cases hover : report.reservedMicrocents < actual <;> simp [charged, hover]

theorem Attempt.Moves.due {k : String} {old : Option Attempt} {a' : Attempt} {took : Option Int}
    (h : Attempt.Moves k old a' took) (hold : ∀ a ∈ old, a.Due k) : a'.Due k := by
  cases h with
  | start hid hreserve =>
    exact ⟨hid, AgentBudget.amount_positive hreserve, fun _ => rfl, by simp,
      by simp [AttemptStatus.isSettled], le_rfl⟩
  | @uncertain a hrunning =>
    have ha := hold a rfl
    exact ⟨ha.key, ha.reserved, fun _ => ha.unseen (.inl hrunning), by simp,
      by simp [AttemptStatus.isSettled], le_rfl⟩
  | @settle a actual _ hactual =>
    have ha := hold a rfl
    refine ⟨ha.key, ha.reserved, ?_, ?_, fun _ => rfl,
      (charged_settle a.report actual).symm ▸ hactual⟩
    all_goals dsimp only; split <;> simp
  | @overrun a actual id _ hover =>
    have ha := hold a rfl
    exact ⟨ha.key, ha.reserved, by simp, fun _ => ⟨actual, rfl, hover⟩, fun _ => rfl, le_rfl⟩
  | @release a =>
    have ha := hold a rfl
    exact ⟨ha.key, ha.reserved, by simp, by simp, fun _ => rfl, le_rfl⟩
  | @correct a corrected why hover hcorrected =>
    have ha := hold a rfl
    obtain ⟨cost, hcost, -⟩ := ha.overrun hover
    exact ⟨ha.key, ha.reserved, by simp, by simp, fun _ => by rw [hcost]; rfl, hcorrected⟩

theorem Attempt.Moves.not_isSettled {k : String} {old : Option Attempt} {a' : Attempt}
    {took : Option Int} (h : Attempt.Moves k old a' took) {a : Attempt} (ha : old = some a) :
    ¬ a.report.status.isSettled := by
  cases h with
  | start => cases ha
  | uncertain hrunning =>
    cases ha
    simp [hrunning, AttemptStatus.isSettled]
  | settle hopen | overrun _ hopen | release hopen =>
    cases ha
    exact AttemptStatus.not_isSettled hopen
  | correct hover =>
    cases ha
    simp [hover, AttemptStatus.isSettled]

namespace AgentBudget

inductive Writes (B : AgentBudget) (k : String) (B' : AgentBudget) : Prop
  | nothing (h : B'.attempts = B.attempts) (hlargest : B'.largestSettled = B.largestSettled)
  | entry {old : Option Attempt} {a' : Attempt} {took : Option Int}
      (hget : B.attempts.get? k = old) (hmoves : Attempt.Moves k old a' took)
      (h : B'.attempts = B.attempts.set k a')
      (hlargest : B'.largestSettled = (took.map (max B.largestSettled)).getD B.largestSettled)

variable {budget : Int} {B B' : AgentBudget} {k : String} {weak : List Bool}
  {result : Except AgentError Unit}

theorem Writes.forall {P : String → Attempt → Prop} (h : B.Writes k B')
    (hmoves : ∀ {old a' took}, Attempt.Moves k old a' took → (∀ a ∈ old, P k a) → P k a')
    (hall : ∀ k a, B.attempts.get? k = some a → P k a) :
    ∀ k a, B'.attempts.get? k = some a → P k a := by
  intro k' a hget
  cases h with
  | nothing hset => exact hall k' a (hset ▸ hget)
  | entry hold hmove hset =>
    rw [hset] at hget
    rcases Dict.of_get?_set hget with ⟨rfl, rfl⟩ | ⟨-, hget⟩
    · exact hmoves hmove fun a ha => hall _ a (hold.trans ha)
    · exact hall k' a hget

theorem empty_of_new {maxAttempts maxDeniedRecords : Int}
    (h : AgentBudget.new budget maxAttempts maxDeniedRecords = some (.ok B)) :
    B.attempts = .empty ∧ B.largestSettled = 0 := by
  unfold AgentBudget.new at h
  split at h
  · cases h
  obtain ⟨⟨guard, outcome⟩, -, h⟩ := Option.map_eq_some_iff.1 h
  dsimp only at h
  split at h
  · cases h
  · cases h
    exact ⟨rfl, rfl⟩

theorem settleLocked_writes (hB : B.Accounted budget) {a : Attempt} {actual : Int}
    (hget : B.attempts.get? k = some a) (hactual : 0 ≤ actual)
    (h : B.settleLocked weak k a actual = some (B', result)) : B.Writes k B' := by
  obtain ⟨b, hB⟩ := hB
  unfold AgentBudget.settleLocked at h
  split at h
  · cases h
    exact .nothing rfl rfl
  next id hid =>
  have hopen := (hB.sound k a hget).isUnresolved hid
  obtain ⟨⟨guard, o⟩, hperform, h⟩ := Option.map_eq_some_iff.1 h
  dsimp only at h
  split at h
  · cases h
    refine .entry hget (.settle hopen hactual) ?_ rfl
    simp [AgentBudget.record]
  next hrefused =>
  have hover : a.report.reservedMicrocents < actual := by
    by_contra hle
    obtain ⟨remaining, rfl⟩ :=
      hB.rests.isCommitted_of_le (hB.holds k a id hget hid) hactual (not_lt.1 hle) hperform
    exact hrefused rfl
  cases h
  refine .entry hget (.overrun id hopen hover) ?_ rfl
  simp [AgentBudget.record, hover]

theorem Does.writes {c : Caller} (h : B.Does k c B') (hB : B.Accounted budget) :
    B.Writes k B' := by
  cases h with
  | keeps h => exact .nothing h.attempts h.largestSettled
  | enters h =>
    obtain ⟨weak, guard, o, -, -, rfl⟩ := h.granted
    exact .entry h.new (.start h.key h.positive) rfl rfl
  | uncertain hget hrunning => exact .entry hget (.uncertain hrunning) rfl rfl
  | settles hget hactual _ hsettle =>
    exact settleLocked_writes hB hget (amount_ok hactual).1 hsettle
  | releases hentry =>
    obtain ⟨hget, hopen, -⟩ := of_unresolved hentry
    exact .entry hget (.release hopen) rfl rfl
  | corrects hamount hget hstatus =>
    exact .entry hget (.correct hstatus (amount_ok hamount).1) rfl rfl

end AgentBudget

namespace System

variable {Task : Type*} [DecidableEq Task] {budget : Int} {s s' : System Task} {ev : Event Task}

theorem step_writes (h : s.budget.Accounted budget) (hstep : s.step ev = some s') :
    ∃ k, s.budget.Writes k s'.budget := by
  obtain ⟨k, c, hdoes⟩ := (step_moved hstep).exists_does
  exact ⟨k, hdoes.writes h⟩

structure Sane (budget : Int) (s : System Task) : Prop where
  accounted : s.budget.Accounted budget
  due : ∀ k a, s.budget.attempts.get? k = some a → a.Due k

omit [DecidableEq Task] in
theorem Sane.start {maxAttempts maxDeniedRecords : Int} {B : AgentBudget}
    (h : AgentBudget.new budget maxAttempts maxDeniedRecords = some (.ok B)) :
    Sane budget (start B : System Task) := by
  refine ⟨.new h, fun k a hget => ?_⟩
  rw [System.start, (AgentBudget.empty_of_new h).1] at hget
  cases hget

theorem Sane.step (h : s.Sane budget) (hstep : s.step ev = some s') : s'.Sane budget := by
  obtain ⟨k, hwrites⟩ := step_writes h.accounted hstep
  exact ⟨step_accounted h.accounted hstep, hwrites.forall (fun hmoves => hmoves.due) h.due⟩

theorem sane_run {maxAttempts maxDeniedRecords : Int} {B : AgentBudget}
    (hnew : AgentBudget.new budget maxAttempts maxDeniedRecords = some (.ok B))
    {es : List (Event Task)} (h : run System.step (System.start B) es = some s) : s.Sane budget :=
  run_invariant (I := Sane budget) (fun hs hstep => hs.step hstep) (.start hnew) h

end System

end Calybris.Agent
