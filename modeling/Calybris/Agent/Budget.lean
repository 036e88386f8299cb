import Calybris.Budget.Allocator
import Calybris.Budget.Alone
import Calybris.Dict.Basic
import Mathlib.Data.String.Basic

/-!
# The call budget of an agent

An `AgentBudget` admits the calls of one run. It keeps a registry of the attempts that
were admitted and a native ledger with the one tenant `"run"`; the sections under its
lock are what touches the two, so each is one step and its native calls have the ledger
to themselves.

`call` and `acall` are three such sections: the admission, the settlement, and the
handler of an exception. The operation and its cost run between them, for as long as
they like, and may make calls of their own; those belong to another task of the model.
What they raise, and a cancellation, is an event of its own.

A process that inherited the budget by a fork is refused before it comes to the lock.
-/

namespace Calybris

/-! ### Native results, as the binding gives them -/

namespace Budget

def BudgetReservation.status : BudgetReservation → String
  | .reserved _ => "reserved"
  | .insufficient .. => "insufficient"
  | .missingTenant => "missing_tenant"
  | .missingReservation => "missing_reservation"
  | .exposureLimitExceeded .. => "exposure_limit_exceeded"
  | .overflow _ => "overflow"

def BudgetSettlement.status : BudgetSettlement → String
  | .committed .. => "committed"
  | .released .. => "released"
  | .overrun _ => "overrun"
  | .invalidAmount => "invalid_amount"
  | .missingReservation => "missing_reservation"
  | .missingTenant => "missing_tenant"
  | .overflow _ => "overflow"

namespace Outcome

def status : Outcome → String
  | .reservation result _ => result.status
  | .settlement result => result.status
  | _ => ""

def isReserved : Outcome → Bool
  | .reservation (.reserved _) (some _) => true
  | _ => false

def isCommitted : Outcome → Bool
  | .settlement (.committed ..) => true
  | _ => false

def isReleased : Outcome → Bool
  | .settlement (.released ..) => true
  | _ => false

end Outcome

end Budget

namespace Agent

open Budget Transition

/-! ### Errors and checks -/

inductive AgentError where
  | inputValidation (message : String)
  | runClosed (reason : String)
  | duplicateAttempt (attempt : String)
  | attemptLimit (message : String)
  | budgetDenied (status : String)
  | attemptState (message : String)
  | correction (message : String)
  | budgetOverrun (attempt : String) (actual : Int) (settled : Bool)
  | configuration (error : BudgetConfigurationError)
  | snapshot (error : SnapshotAllocatorError)
  | index
  | key (attempt : String)
  deriving DecidableEq

def maxI64 : Int := 2 ^ 63 - 1

def amount (name : String) (value : Int) (positive : Bool) : Except AgentError Unit :=
  let minimum : Int := if positive then 1 else 0
  if minimum ≤ value ∧ value ≤ maxI64 then .ok ()
  else .error (.inputValidation
    (name ++ " must be an integer in [" ++ toString minimum ++ ", " ++ toString maxI64 ++ "]"))

def attemptId (value : String) : Except AgentError Unit :=
  if 0 < value.utf8ByteSize ∧ value.utf8ByteSize ≤ 256 then .ok ()
  else .error (.inputValidation "attempt_id must contain 1 to 256 UTF-8 bytes")

/-- The characters that `str.strip` takes off. -/
def isSpace (c : Char) : Bool :=
  (9 ≤ c.toNat && c.toNat ≤ 13) || (28 ≤ c.toNat && c.toNat ≤ 32) || c.toNat == 0x85 ||
    c.toNat == 0xa0 || c.toNat == 0x1680 || (0x2000 ≤ c.toNat && c.toNat ≤ 0x200a) ||
    c.toNat == 0x2028 || c.toNat == 0x2029 || c.toNat == 0x202f || c.toNat == 0x205f ||
    c.toNat == 0x3000

def reason (value : String) : Except AgentError Unit :=
  if value.toList.any (fun c => !isSpace c) ∧ value.utf8ByteSize ≤ 256 then .ok ()
  else .error (.inputValidation "reason must contain 1 to 256 UTF-8 bytes of text")

/-! ### The registry -/

inductive AttemptStatus where
  | running
  | uncertain
  | committed
  | overrunSettled
  | overrunUnsettled
  | released
  | corrected
  | denied
  deriving DecidableEq

/-- The statuses whose amount the ledger took: `SETTLED_STATUSES`. -/
def AttemptStatus.isSettled : AttemptStatus → Bool
  | .committed | .overrunSettled | .corrected | .released => true
  | _ => false

structure AttemptReport where
  attemptId : String
  status : AttemptStatus
  reservedMicrocents : Int
  actualMicrocents : Option Int
  correctedMicrocents : Option Int
  correctionReason : Option String
  deriving DecidableEq

structure Attempt where
  report : AttemptReport
  reservationId : Option Nat
  deriving DecidableEq

inductive CloseReason where
  | overrun
  | settlementError
  | explicit
  deriving DecidableEq

def CloseReason.text : CloseReason → String
  | .overrun => "overrun"
  | .settlementError => "settlement_error"
  | .explicit => "explicit"

structure RunBalance where
  initialMicrocents : Int
  remainingMicrocents : Int
  reservedMicrocents : Int
  committedMicrocents : Int
  closed : Bool
  closeReason : Option CloseReason
  deriving DecidableEq

structure RunReport extends RunBalance where
  conservationBalanced : Bool
  attempts : List AttemptReport
  denied : List AttemptReport
  deniedTotal : Nat
  deriving DecidableEq

structure RunAccuracy where
  settledAttempts : Nat
  medianRatioPpm : Option Int
  heldUnusedMicrocents : Int
  denialsWithHeadroom : Nat
  denialsTotal : Nat
  largestSettledMicrocents : Int
  deriving DecidableEq

structure AgentBudget where
  guard : Shared String 1 1
  maxAttempts : Int
  maxDeniedRecords : Int
  attempts : Dict String Attempt
  denied : List AttemptReport
  deniedTotal : Nat
  denialsWithHeadroom : Nat
  largestSettled : Int
  closed : Bool
  closeReason : Option CloseReason

namespace AgentBudget

def empty (guard : Shared String 1 1) (maxAttempts maxDeniedRecords : Int) : AgentBudget where
  guard := guard
  maxAttempts := maxAttempts
  maxDeniedRecords := maxDeniedRecords
  attempts := .empty
  denied := []
  deniedTotal := 0
  denialsWithHeadroom := 0
  largestSettled := 0
  closed := false
  closeReason := none

/-- `__init__`: the checks on the arguments, and the tenant of the run. -/
def new (budget maxAttempts maxDeniedRecords : Int) : Option (Except AgentError AgentBudget) :=
  match (do
    amount "budget_microcents" budget false
    amount "max_attempts" maxAttempts true
    amount "max_denied_records" maxDeniedRecords true : Except AgentError Unit) with
  | .error err => some (.error err)
  | .ok () =>
    (Shared.init.perform [] (.tryEnsureTenant "run" (.ofInt budget))).map fun (guard, outcome) =>
      match outcome with
      | .configured (some err) => .error (.configuration err)
      | _ => .ok (empty guard maxAttempts maxDeniedRecords)

variable {α : Type} (B : AgentBudget) (weak : List Bool)

def require (check : Except AgentError Unit)
    (rest : Option (AgentBudget × Except AgentError α)) :
    Option (AgentBudget × Except AgentError α) :=
  match check with
  | .error err => some (B, .error err)
  | .ok () => rest

def record (attempt : String) (entry : Attempt) : AgentBudget :=
  { B with attempts := B.attempts.set attempt entry }

def ledger : Option (AgentBudget × Except AgentError (TenantLedger String)) :=
  B.guard.trySnapshot.map fun (guard, result) =>
    ({ B with guard := guard },
      match result with
      | .error err => .error (.snapshot err)
      | .ok snapshot =>
        match snapshot.tenants with
        | [] => .error .index
        | row :: _ => .ok row)

/-- Denials are kept in a bounded ring and counted in full. -/
def appendDenied (attempt : String) (reserve : Int) : AgentBudget :=
  let denied := B.denied ++ [⟨attempt, .denied, reserve, none, none, none⟩]
  { B with
    deniedTotal := B.deniedTotal + 1
    denied := denied.drop (denied.length - B.maxDeniedRecords.toNat) }

/-- A refused admission. It is counted apart where the largest amount ever settled would
still have been there. -/
def deny (attempt : String) (reserve : Int) (status : String) :
    Option (AgentBudget × Except AgentError Unit) :=
  let B := B.appendDenied attempt reserve
  if 0 < B.largestSettled then
    B.ledger.map fun (B, row) =>
      match row with
      | .error err => (B, .error err)
      | .ok row =>
        if B.largestSettled ≤ row.remainingMicrocents then
          ({ B with denialsWithHeadroom := B.denialsWithHeadroom + 1 },
            .error (.budgetDenied status))
        else (B, .error (.budgetDenied status))
  else some (B, .error (.budgetDenied status))

def begin (attempt : String) (reserve : Int) : Option (AgentBudget × Except AgentError Unit) :=
  B.require (do attemptId attempt; amount "reserve_microcents" reserve true) <|
    if B.closed then
      some (B, .error (.runClosed ((B.closeReason.map CloseReason.text).getD "closed")))
    else if (B.attempts.get? attempt).isSome then some (B, .error (.duplicateAttempt attempt))
    else if B.maxAttempts ≤ B.attempts.entries.length then
      some (B, .error (.attemptLimit "max_attempts reached"))
    else
      (B.guard.perform weak (.tryReserve "run" (.ofInt reserve))).bind fun (guard, hold) =>
        let B := { B with guard := guard }
        if hold.isReserved then
          some (B.record attempt ⟨⟨attempt, .running, reserve, none, none, none⟩, hold.issued⟩,
            .ok ())
        else B.deny attempt reserve hold.status

def uncertain (attempt : String) : AgentBudget × Except AgentError Unit :=
  match B.attempts.get? attempt with
  | none => (B, .error (.key attempt))
  | some entry =>
    if entry.report.status = .running then
      (B.record attempt { entry with report := { entry.report with status := .uncertain } },
        .ok ())
    else (B, .ok ())

def settleLocked (attempt : String) (entry : Attempt) (actual : Int) :
    Option (AgentBudget × Except AgentError Unit) :=
  match entry.reservationId with
  | none => some (B, .error (.attemptState
      "budget invariant violated: settling an attempt that holds no reservation"))
  | some id =>
    let overrun : Bool := entry.report.reservedMicrocents < actual
    let B := { B with
      closed := B.closed || overrun
      closeReason := if overrun then some .overrun else B.closeReason }
    let report := { entry.report with actualMicrocents := some actual }
    (B.guard.perform weak (.commit (.ofNat id) (.ofInt actual))).map fun (guard, settled) =>
      let B := { B with guard := guard }
      if settled.isCommitted then
        ({ B.record attempt
              ⟨{ report with status := if overrun then .overrunSettled else .committed }, none⟩ with
            largestSettled := max B.largestSettled actual },
          if overrun then .error (.budgetOverrun entry.report.attemptId actual true) else .ok ())
      else
        ({ B.record attempt
              ⟨{ report with status := if overrun then .overrunUnsettled else .uncertain },
                some id⟩ with
            closed := true
            closeReason := some (if overrun then .overrun else .settlementError) },
          if overrun then .error (.budgetOverrun entry.report.attemptId actual false)
          else .error (.attemptState
            ("Settlement failed: " ++ settled.status ++ "; run closed")))

def finish (attempt : String) (actual : Int) : Option (AgentBudget × Except AgentError Unit) :=
  B.require (amount "actual_microcents" actual false) <|
    match B.attempts.get? attempt with
    | none => some (B, .error (.key attempt))
    | some entry => B.settleLocked weak attempt entry actual

def unresolved (attempt : String) : Except AgentError Attempt :=
  match B.attempts.get? attempt with
  | some entry =>
    if entry.report.status = .uncertain ∨ entry.report.status = .overrunUnsettled then .ok entry
    else .error (.attemptState "Only an unresolved, non-running attempt can be reconciled")
  | none => .error (.attemptState "Only an unresolved, non-running attempt can be reconciled")

def reconcile (attempt : String) (actual : Int) : Option (AgentBudget × Except AgentError Unit) :=
  B.require (do attemptId attempt; amount "actual_microcents" actual false) <|
    match B.unresolved attempt with
    | .error err => some (B, .error err)
    | .ok entry =>
      if entry.report.actualMicrocents = none ∨ entry.report.actualMicrocents = some actual then
        B.settleLocked weak attempt entry actual
      else some (B, .error (.attemptState "Cannot replace previously observed cost"))

def release (attempt : String) (confirmedNoCharge : Bool) :
    Option (AgentBudget × Except AgentError Unit) :=
  B.require (do
    attemptId attempt
    if confirmedNoCharge then .ok ()
    else .error (.inputValidation "Release requires confirmed_no_charge=True")) <|
    match B.unresolved attempt with
    | .error err => some (B, .error err)
    | .ok entry =>
      if entry.report.actualMicrocents ≠ none then
        some (B, .error (.attemptState "Observed cost must be reconciled, not released"))
      else
        match entry.reservationId with
        | none => some (B, .error (.attemptState
            "budget invariant violated: releasing an attempt that holds no reservation"))
        | some id =>
          (B.guard.perform weak (.release (.ofNat id))).map fun (guard, result) =>
            let B := { B with guard := guard }
            if result.isReleased then
              (B.record attempt
                ⟨{ entry.report with status := .released, actualMicrocents := some 0 }, none⟩,
                .ok ())
            else
              ({ B with closed := true, closeReason := some .settlementError },
                .error (.attemptState ("Release failed: " ++ result.status)))

def correct (attempt : String) (corrected : Int) (why : String) :
    Option (AgentBudget × Except AgentError Unit) :=
  B.require (do attemptId attempt; amount "corrected_microcents" corrected false; reason why) <|
    match B.attempts.get? attempt with
    | none => some (B, .error (.correction "Only an unsettled overrun can be corrected"))
    | some entry =>
      if entry.report.status ≠ .overrunUnsettled then
        some (B, .error (.correction "Only an unsettled overrun can be corrected"))
      else
        match entry.report.actualMicrocents, entry.reservationId with
        | none, _ => some (B, .error (.attemptState
            "budget invariant violated: correcting an overrun with no observed cost"))
        | some observed, held =>
          if observed ≤ corrected then
            some (B, .error (.correction
              ("correction must be below the observed " ++ toString observed ++
                " microcents")))
          else
            match held with
            | none => some (B, .error (.attemptState
                "budget invariant violated: correcting an attempt that holds no reservation"))
            | some id =>
              (B.guard.perform weak (.commit (.ofNat id) (.ofInt corrected))).map
                fun (guard, settled) =>
                  let B := { B with guard := guard }
                  if settled.isCommitted then
                    (B.record attempt
                      ⟨{ entry.report with
                          status := .corrected
                          correctedMicrocents := some corrected
                          correctionReason := some why }, none⟩, .ok ())
                  else (B, .error (.correction
                    ("Correction could not be settled: " ++ settled.status)))

def close : AgentBudget :=
  { B with closed := true, closeReason := B.closeReason.or (some .explicit) }

def balance : Option (AgentBudget × Except AgentError RunBalance) :=
  B.ledger.map fun (B, row) =>
    (B, row.map fun row =>
      { initialMicrocents := row.initialMicrocents
        remainingMicrocents := row.remainingMicrocents
        reservedMicrocents := row.reservedMicrocents
        committedMicrocents := row.committedMicrocents
        closed := B.closed
        closeReason := B.closeReason })

/-- The report takes a second snapshot, for its check of the conservation. -/
def report : Option (AgentBudget × Except AgentError RunReport) :=
  B.balance.bind fun (B, balance) =>
    match balance with
    | .error err => some (B, .error err)
    | .ok balance =>
      B.guard.trySnapshot.map fun (guard, result) =>
        ({ B with guard := guard },
          match result with
          | .error err => .error (.snapshot err)
          | .ok snapshot => .ok
              { balance with
                conservationBalanced := conservationStatusForSnapshot snapshot = .balanced
                attempts := B.attempts.entries.map fun entry => entry.2.report
                denied := B.denied
                deniedTotal := B.deniedTotal })

def reservationAccuracy : RunAccuracy :=
  let settled := (B.attempts.entries.map fun entry => entry.2.report).filter fun report =>
    report.status.isSettled && report.actualMicrocents.isSome &&
      decide (0 < report.reservedMicrocents)
  let ratios := (settled.filterMap fun report => report.actualMicrocents.map fun actual =>
    (actual * 1000000).fdiv report.reservedMicrocents).mergeSort
  { settledAttempts := settled.length
    medianRatioPpm := ratios[ratios.length / 2]?
    heldUnusedMicrocents := (settled.filterMap fun report =>
      (report.actualMicrocents.filter (· ≤ report.reservedMicrocents)).map fun actual =>
        report.reservedMicrocents - actual).sum
    denialsWithHeadroom := B.denialsWithHeadroom
    denialsTotal := B.deniedTotal
    largestSettledMicrocents := B.largestSettled }

end AgentBudget

/-! ### Threads and async tasks -/

inductive Phase where
  | idle
  /-- After the admission: the operation and the cost run. -/
  | operating (attempt : String)
  /-- After the settlement, before the call returns. -/
  | settled (attempt : String)
  /-- An exception is on its way to the handler. -/
  | raising (attempt : String)
  deriving DecidableEq

structure System (Task : Type*) where
  budget : AgentBudget
  phase : Task → Phase

/-- `weak` is what the weak compare-and-swaps of the native call meet. -/
inductive Event (Task : Type*) where
  | begin (task : Task) (attempt : String) (reserve : Int) (weak : List Bool)
  /-- The cost callback has returned `actual`. -/
  | finish (task : Task) (actual : Int) (weak : List Bool)
  | raise (task : Task)
  | uncertain (task : Task)
  | leave (task : Task)
  | reconcile (attempt : String) (actual : Int) (weak : List Bool)
  | release (attempt : String) (confirmedNoCharge : Bool) (weak : List Bool)
  | correct (attempt : String) (corrected : Int) (why : String) (weak : List Bool)
  | close
  | balance
  | report

namespace System

variable {Task : Type*} [DecidableEq Task]

def start (budget : AgentBudget) : System Task := ⟨budget, fun _ => .idle⟩

variable (s : System Task)

def enter (task : Task) (budget : AgentBudget) (phase : Phase) : System Task :=
  ⟨budget, Function.update s.phase task phase⟩

def step : Event Task → Option (System Task)
  | .begin task attempt reserve weak =>
    match s.phase task with
    | .idle => (s.budget.begin weak attempt reserve).map fun (budget, result) =>
      s.enter task budget (match result with
        | .ok () => .operating attempt
        | .error _ => .idle)
    | _ => none
  | .finish task actual weak =>
    match s.phase task with
    | .operating attempt => (s.budget.finish weak attempt actual).map fun (budget, result) =>
      s.enter task budget (match result with
        | .ok () => .settled attempt
        | .error _ => .raising attempt)
    | _ => none
  | .raise task =>
    match s.phase task with
    | .operating attempt | .settled attempt => some (s.enter task s.budget (.raising attempt))
    | _ => none
  | .uncertain task =>
    match s.phase task with
    | .raising attempt => some (s.enter task (s.budget.uncertain attempt).1 .idle)
    | _ => none
  | .leave task =>
    match s.phase task with
    | .settled _ => some (s.enter task s.budget .idle)
    | _ => none
  | .reconcile attempt actual weak =>
    (s.budget.reconcile weak attempt actual).map fun x => { s with budget := x.1 }
  | .release attempt confirmedNoCharge weak =>
    (s.budget.release weak attempt confirmedNoCharge).map fun x => { s with budget := x.1 }
  | .correct attempt corrected why weak =>
    (s.budget.correct weak attempt corrected why).map fun x => { s with budget := x.1 }
  | .close => some { s with budget := s.budget.close }
  | .balance => s.budget.balance.map fun x => { s with budget := x.1 }
  | .report => s.budget.report.map fun x => { s with budget := x.1 }

end System

end Agent

end Calybris
