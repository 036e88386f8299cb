import Calybris.Agent.Budget

/-!
# What the sections do

A section under the lock of an agent budget asks the native ledger for one thing at most,
and the answer decides what it writes into the registry: nothing, or the entry of one
attempt. `Does` lists the ways in which the two change, and `Moved` what a step of the
system is in these terms. What holds along every run is proved from the two lists.
-/

namespace Calybris

/-! ### Native calls between rests -/

namespace Budget

open Transition Option

variable {Tenant : Type*} [LinearOrder Tenant]

section Op

variable {t : Tenant} {c : Int} {id : Nat} {o : Outcome}

omit [LinearOrder Tenant] in
theorem Request.op_reserve : (Request.reserve t c).op o =
    if o.isReserved then o.issued.map (Op.reserve t c) else none := by
  cases o with
  | reservation result id => cases result <;> cases id <;> rfl
  | _ => rfl

omit [LinearOrder Tenant] in
theorem Request.op_commit : (Request.commit id c : Request Tenant).op o =
    if o.isCommitted then some (.commit id c) else none := by
  cases o with
  | settlement result => cases result <;> rfl
  | _ => rfl

omit [LinearOrder Tenant] in
theorem Request.op_release : (Request.release id : Request Tenant).op o =
    if o.isReleased then some (.release id) else none := by
  cases o with
  | settlement result => cases result <;> rfl
  | _ => rfl

theorem Outcome.exists_issued (h : o.isReserved) : ∃ id, o.issued = some id := by
  cases o with
  | reservation result id =>
    cases id with
    | none => cases result <;> cases h
    | some id => exact ⟨id, rfl⟩
  | _ => cases h

end Op

namespace Rests

variable {g g' : Shared Tenant 1 1} {b : Book Tenant} {weak : List Bool} {o : Outcome}
  {call : Call Tenant} {t : Tenant} {c : Int} {id : Nat} {r : ReservationRecord Tenant}

section

variable (h : Rests g b)

include h

theorem issued (hr : b.holds id = some r) : id ∈ b.issued := by
  obtain ⟨ops, htracks⟩ := h.tracks
  exact htracks.shown.issued_holds id r hr

theorem toNat_ofNat (hr : b.holds id = some r) : (UInt64.ofNat id).toNat = id := by
  obtain ⟨ops, htracks⟩ := h.tracks
  have hlt := htracks.shown.issued_lt id (h.issued hr)
  have hle := htracks.inv.wellFormed.nextId_le
  have hmask : recoveryAllocatorMask < UInt64.size := by decide
  exact UInt64.toNat_ofNat_of_lt' (by omega)

theorem of_op (hperform : g.perform weak call = some (g', o)) {op : Op Tenant}
    (hop : call.request.op o = some op) : ∃ b', b.apply op = some b' ∧ Rests g' b' := by
  obtain ⟨b', hrun, hrests⟩ := h.perform hperform
  rw [hop, toList_some, run_singleton_eq_some_iff] at hrun
  exact ⟨b', hrun, hrests⟩

theorem of_refusal (hperform : g.perform weak call = some (g', o))
    (hop : call.request.op o = none) :
    Rests g' b := by
  obtain ⟨b', hrun, hrests⟩ := h.perform hperform
  rw [hop] at hrun
  cases hrun
  exact hrests

theorem reserve (hc : 0 ≤ c ∧ c < 2 ^ 63)
    (hperform : g.perform weak (.tryReserve t (.ofInt c)) = some (g', o)) :
    if o.isReserved then
      ∃ id b', o.issued = some id ∧ b.apply (.reserve t c id) = some b' ∧ Rests g' b'
    else Rests g' b := by
  have hop : (Call.tryReserve t (.ofInt c)).request.op o = _ := Request.op_reserve
  rw [Int64.toInt_ofInt_of_le (by omega) (by omega)] at hop
  split
  · next hreserved =>
    obtain ⟨id, hid⟩ := Outcome.exists_issued hreserved
    rw [if_pos hreserved, hid, map_some] at hop
    exact ⟨id, (h.of_op hperform hop).imp fun b' hb' => ⟨hid, hb'⟩⟩
  · next hrefused => exact h.of_refusal hperform (hop.trans (if_neg hrefused))

omit h in
/-- The hold was settled at a cost. -/
def SettledAt (g' : Shared Tenant 1 1) (b : Book Tenant) (id : Nat) (r : ReservationRecord Tenant)
    (c : Int) : Prop :=
  ∃ x, b.account r.tenant = some x ∧ Rests g' (b.settle id r.tenant
    ⟨x.initial, x.remaining + r.reserved - c, x.committed + c⟩)

theorem commit (hc : 0 ≤ c ∧ c < 2 ^ 63) (hr : b.holds id = some r)
    (hperform : g.perform weak (.commit (.ofNat id) (.ofInt c)) = some (g', o)) :
    if o.isCommitted then SettledAt g' b id r c else Rests g' b := by
  have hop : (Call.commit (.ofNat id) (.ofInt c) : Call Tenant).request.op o = _ :=
    Request.op_commit
  rw [Int64.toInt_ofInt_of_le (by omega) (by omega), h.toNat_ofNat hr] at hop
  split
  · next hcommitted =>
    obtain ⟨b', happly, hrests⟩ := h.of_op hperform (hop.trans (if_pos hcommitted))
    obtain ⟨r', hr', x, hx, -, rfl⟩ := Book.apply_commit_eq_some_iff.1 happly
    obtain rfl := some.inj (hr.symm.trans hr')
    exact ⟨x, hx, hrests⟩
  · next hrefused => exact h.of_refusal hperform (hop.trans (if_neg hrefused))

theorem release (hr : b.holds id = some r)
    (hperform : g.perform weak (.release (.ofNat id)) = some (g', o)) :
    if o.isReleased then SettledAt g' b id r 0 else Rests g' b := by
  have hop : (Call.release (.ofNat id) : Call Tenant).request.op o = _ := Request.op_release
  rw [h.toNat_ofNat hr] at hop
  split
  · next hreleased =>
    obtain ⟨b', happly, hrests⟩ := h.of_op hperform (hop.trans (if_pos hreleased))
    obtain ⟨r', hr', x, hx, rfl⟩ := Book.apply_release_eq_some_iff.1 happly
    obtain rfl := some.inj (hr.symm.trans hr')
    exact ⟨x, hx, by rwa [Int.sub_zero, Int.add_zero]⟩
  · next hrefused => exact h.of_refusal hperform (hop.trans (if_neg hrefused))

end

end Rests

theorem Rests.of_trySnapshot {g g' : Shared Tenant 1 1} {b : Book Tenant}
    {taken : Except SnapshotAllocatorError (BudgetSnapshot Tenant)} (h : Rests g b)
    (htaken : g.trySnapshot = some (g', taken)) : Rests g' b := by
  obtain ⟨g₁, hrests, htaken₁⟩ := h.trySnapshot
  rw [htaken₁] at htaken
  exact (Prod.mk.inj (some.inj htaken)).1 ▸ hrests

end Budget

namespace Agent

open Budget Transition

def AttemptStatus.isUnresolved : AttemptStatus → Bool
  | .running | .uncertain | .overrunUnsettled => true
  | _ => false

/-- Whose section it is: of the call that made the attempt, the settlement at its end, or
one that is called by hand. -/
inductive Caller where
  | call
  | finish
  | hand

def Caller.isLive : Caller → Bool
  | .hand => false
  | _ => true

namespace AgentBudget

def Backed (B : AgentBudget) (b : Book String) : Prop :=
  ∀ k a id, B.attempts.get? k = some a → a.reservationId = some id →
    b.holds id = some ⟨"run", a.report.reservedMicrocents⟩

/-- Nothing is written into an entry, and the ledger grants nothing. -/
structure Keeps (B B' : AgentBudget) : Prop where
  attempts : B'.attempts = B.attempts
  maxAttempts : B'.maxAttempts = B.maxAttempts
  largestSettled : B'.largestSettled = B.largestSettled
  closed : B.closed = true → B'.closed = true
  rests : ∀ {b}, Rests B.guard b → B.Backed b → Rests B'.guard b

theorem Keeps.refl (B : AgentBudget) : B.Keeps B := ⟨rfl, rfl, rfl, id, fun h _ => h⟩

/-- The ledger grants a hold, and the attempt is admitted with it. -/
structure Enters (B : AgentBudget) (k : String) (reserve : Int) (B' : AgentBudget) : Prop where
  key : attemptId k = .ok ()
  positive : amount "reserve_microcents" reserve true = .ok ()
  isOpen : B.closed = false
  new : B.attempts.get? k = none
  room : (B.attempts.entries.length : Int) < B.maxAttempts
  granted : ∃ weak guard o,
    B.guard.perform weak (.tryReserve "run" (.ofInt reserve)) = some (guard, o) ∧ o.isReserved ∧
      B' = { B with guard := guard }.record k
        ⟨⟨k, .running, reserve, none, none, none⟩, o.issued⟩

inductive Does (B : AgentBudget) (k : String) : Caller → AgentBudget → Prop
  | keeps {c : Caller} {B' : AgentBudget} (h : B.Keeps B') : Does B k c B'
  | enters {reserve : Int} {B' : AgentBudget} (h : B.Enters k reserve B') : Does B k .call B'
  | uncertain {a : Attempt} (hget : B.attempts.get? k = some a)
      (hrunning : a.report.status = .running) :
      Does B k .call (B.record k { a with report := { a.report with status := .uncertain } })
  | settles {c : Caller} {a : Attempt} {weak : List Bool} {actual : Int} {B' : AgentBudget}
      {result : Except AgentError Unit} (hget : B.attempts.get? k = some a)
      (hactual : amount "actual_microcents" actual false = .ok ())
      (hcost : c = .finish ∨ c = .hand ∧ a.report.status.isUnresolved ∧
        a.report.status ≠ .running ∧
        (a.report.actualMicrocents = none ∨ a.report.actualMicrocents = some actual))
      (hsettle : B.settleLocked weak k a actual = some (B', result)) : Does B k c B'
  | releases {a : Attempt} {id : Nat} {weak : List Bool} {guard : Shared String 1 1} {o : Outcome}
      (hentry : B.unresolved k = .ok a) (hcost : a.report.actualMicrocents = none)
      (hid : a.reservationId = some id)
      (hperform : B.guard.perform weak (.release (.ofNat id)) = some (guard, o))
      (hreleased : o.isReleased) :
      Does B k .hand ({ B with guard := guard }.record k
        ⟨{ a.report with status := .released, actualMicrocents := some 0 }, none⟩)
  | corrects {a : Attempt} {id : Nat} {weak : List Bool} {guard : Shared String 1 1} {o : Outcome}
      {corrected : Int} {why : String}
      (hcorrected : amount "corrected_microcents" corrected false = .ok ())
      (hget : B.attempts.get? k = some a) (hstatus : a.report.status = .overrunUnsettled)
      (hid : a.reservationId = some id)
      (hperform : B.guard.perform weak (.commit (.ofNat id) (.ofInt corrected)) = some (guard, o))
      (hcommitted : o.isCommitted) :
      Does B k .hand ({ B with guard := guard }.record k
        ⟨{ a.report with
            status := .corrected
            correctedMicrocents := some corrected
            correctionReason := some why }, none⟩)

variable {B B' B'' : AgentBudget} {k : String} {weak : List Bool} {c : Caller}
  {result : Except AgentError Unit}

theorem Enters.exists_get? {reserve : Int} (h : B.Enters k reserve B') :
    ∃ id, B'.attempts.get? k = some ⟨⟨k, .running, reserve, none, none, none⟩, id⟩ := by
  obtain ⟨weak, guard, o, -, -, rfl⟩ := h.granted
  exact ⟨o.issued, Dict.get?_set.trans (if_pos rfl)⟩

/-! ### Checks -/

theorem amount_ok {name : String} {value : Int} {positive : Bool}
    (h : amount name value positive = .ok ()) : 0 ≤ value ∧ value < 2 ^ 63 := by
  have hrange : (if positive then 1 else 0) ≤ value ∧ value ≤ maxI64 := by
    by_contra hnot
    simp only [amount, if_neg hnot] at h
    cases h
  unfold maxI64 at hrange
  cases positive <;> simp at hrange <;> omega

theorem amount_positive {name : String} {value : Int} (h : amount name value true = .ok ()) :
    0 < value ∧ value ≤ maxI64 := by
  have hrange : 1 ≤ value ∧ value ≤ maxI64 := by
    by_contra hnot
    simp only [amount, if_true, if_neg hnot] at h
    cases h
  omega

theorem ok_of_bind {x y : Except AgentError Unit} (h : (x >>= fun _ => y) = .ok ()) :
    x = .ok () ∧ y = .ok () := by
  cases x with
  | error err => cases h
  | ok u => exact ⟨rfl, h⟩

theorem of_unresolved {a : Attempt} (h : B.unresolved k = .ok a) :
    B.attempts.get? k = some a ∧ a.report.status.isUnresolved ∧ a.report.status ≠ .running := by
  unfold AgentBudget.unresolved at h
  split at h
  · next x hget =>
    split at h
    · next hstatus =>
      cases h
      refine ⟨hget, ?_, ?_⟩ <;> rcases hstatus with hs | hs <;>
        simp [hs, AttemptStatus.isUnresolved]
    · cases h
  · cases h

/-! ### Sections that write no entry -/

theorem Keeps.trans (h : B.Keeps B') (h' : B'.Keeps B'') : B.Keeps B'' where
  attempts := h'.attempts.trans h.attempts
  maxAttempts := h'.maxAttempts.trans h.maxAttempts
  largestSettled := h'.largestSettled.trans h.largestSettled
  closed hclosed := h'.closed (h.closed hclosed)
  rests hrests hbacked := h'.rests (h.rests hrests hbacked) (by rwa [Backed, h.attempts])

theorem Does.refused {raised : Except AgentError Unit}
    (heq : some (B, raised) = some (B', result)) : B.Does k c B' := by
  cases heq
  exact .keeps (.refl B)

theorem Does.of_require {check : Except AgentError Unit}
    {rest : Option (AgentBudget × Except AgentError Unit)}
    (h : B.require check rest = some (B', result))
    (hrest : check = .ok () → rest = some (B', result) → B.Does k c B') : B.Does k c B' := by
  cases check with
  | error err => exact .refused h
  | ok u => exact hrest rfl h

theorem ledger_keeps {row : Except AgentError (TenantLedger String)}
    (h : B.ledger = some (B', row)) : B.Keeps B' := by
  obtain ⟨⟨guard, result⟩, htaken, heq⟩ := Option.map_eq_some_iff.1 h
  cases heq
  exact ⟨rfl, rfl, rfl, id, fun hrests _ => hrests.of_trySnapshot htaken⟩

theorem balance_keeps {balance : Except AgentError RunBalance}
    (h : B.balance = some (B', balance)) : B.Keeps B' := by
  obtain ⟨⟨B₁, row⟩, hledger, heq⟩ := Option.map_eq_some_iff.1 h
  cases heq
  exact ledger_keeps hledger

theorem report_keeps {report : Except AgentError RunReport} (h : B.report = some (B', report)) :
    B.Keeps B' := by
  obtain ⟨⟨B₁, balance⟩, hbalance, h⟩ := Option.bind_eq_some_iff.1 h
  have hkeeps := balance_keeps hbalance
  cases balance with
  | error err =>
    cases h
    exact hkeeps
  | ok balance =>
    obtain ⟨⟨guard, result⟩, htaken, heq⟩ := Option.map_eq_some_iff.1 h
    cases heq
    exact hkeeps.trans ⟨rfl, rfl, rfl, id, fun hrests _ => hrests.of_trySnapshot htaken⟩

/-- A denial raises. It is written down, and the ledger is read for it at most. -/
theorem deny_keeps {reserve : Int} {status : String}
    (h : B.deny k reserve status = some (B', result)) :
    B.Keeps B' ∧ ∃ err, result = .error err := by
  unfold deny at h
  dsimp only at h
  have hdenied : B.Keeps (B.appendDenied k reserve) := ⟨rfl, rfl, rfl, id, fun h _ => h⟩
  split at h
  · obtain ⟨⟨B₁, row⟩, hledger, h⟩ := Option.map_eq_some_iff.1 h
    have hread := hdenied.trans (ledger_keeps hledger)
    cases row with
    | error err =>
      cases h
      exact ⟨hread, _, rfl⟩
    | ok row =>
      dsimp only at h
      split at h <;> cases h
      · exact ⟨hread.trans ⟨rfl, rfl, rfl, id, fun h _ => h⟩, _, rfl⟩
      · exact ⟨hread, _, rfl⟩
  · cases h
    exact ⟨hdenied, _, rfl⟩

/-! ### Sections that write -/

/-- An admission is of a new attempt, in a run that is open and has room; one that is
refused writes no entry. -/
theorem begin_cases {reserve : Int} (h : B.begin weak k reserve = some (B', result)) :
    B.Keeps B' ∧ (∃ err, result = .error err) ∨ result = .ok () ∧ B.Enters k reserve B' := by
  have hrefused : ∀ {err : AgentError}, some (B, Except.error err) = some (B', result) →
      B.Keeps B' ∧ ∃ err, result = .error err := by
    intro err heq
    cases heq
    exact ⟨.refl B, err, rfl⟩
  unfold AgentBudget.begin at h
  cases hcheck : (do attemptId k; amount "reserve_microcents" reserve true :
      Except AgentError Unit) with
  | error err =>
    rw [hcheck] at h
    exact .inl (hrefused h)
  | ok u =>
  rw [hcheck] at h
  dsimp only [require] at h
  split at h
  · exact .inl (hrefused h)
  next hopen =>
  split at h
  · exact .inl (hrefused h)
  next hnew =>
  split at h
  · exact .inl (hrefused h)
  next hroom =>
  obtain ⟨⟨guard, o⟩, hperform, h⟩ := Option.bind_eq_some_iff.1 h
  obtain ⟨hid, hamount⟩ := ok_of_bind hcheck
  dsimp only at h
  split at h
  · next hreserved =>
    cases h
    exact .inr ⟨rfl, hid, hamount, by simpa using hopen, by simpa using hnew, by omega, weak, guard,
      o, hperform, hreserved, rfl⟩
  · next hreserved =>
    have hasked : B.Keeps { B with guard := guard } := ⟨rfl, rfl, rfl, id, fun hrests _ => by
      simpa [hreserved] using hrests.reserve (amount_ok hamount) hperform⟩
    obtain ⟨hkeeps, herr⟩ := deny_keeps h
    exact .inl ⟨hasked.trans hkeeps, herr⟩

theorem finish_does {actual : Int} (h : B.finish weak k actual = some (B', result)) :
    B.Does k .finish B' := by
  refine .of_require h fun hcheck h => ?_
  split at h
  · exact .refused h
  · next a hget => exact .settles hget hcheck (.inl rfl) h

theorem uncertain_does (B : AgentBudget) (k : String) : B.Does k .call (B.uncertain k).1 := by
  unfold AgentBudget.uncertain
  split
  · exact .keeps (.refl B)
  next a hget =>
  split
  · next hrunning => exact .uncertain hget hrunning
  · exact .keeps (.refl B)

theorem reconcile_does {actual : Int} (h : B.reconcile weak k actual = some (B', result)) :
    B.Does k .hand B' := by
  refine .of_require h fun hcheck h => ?_
  split at h
  · exact .refused h
  next a hentry =>
  split at h
  · next hcost =>
    obtain ⟨hget, hopen, hover⟩ := of_unresolved hentry
    exact .settles hget (ok_of_bind hcheck).2 (.inr ⟨rfl, hopen, hover, hcost⟩) h
  · exact .refused h

/-- A release gives the hold back, or closes the run where that fails. -/
theorem release_does {confirmed : Bool} (h : B.release weak k confirmed = some (B', result)) :
    B.Does k .hand B' := by
  refine .of_require h fun _ h => ?_
  split at h
  · exact .refused h
  next a hentry =>
  split at h
  · exact .refused h
  next hcost =>
  split at h
  · exact .refused h
  next id hid =>
  obtain ⟨⟨guard, o⟩, hperform, h⟩ := Option.map_eq_some_iff.1 h
  dsimp only at h
  split at h
  · next hreleased =>
    cases h
    exact .releases hentry (not_not.1 hcost) hid hperform hreleased
  · next hreleased =>
    cases h
    refine .keeps ⟨rfl, rfl, rfl, fun _ => rfl, fun hrests hbacked => ?_⟩
    have hasked := hrests.release (hbacked k a id (of_unresolved hentry).1 hid) hperform
    rwa [if_neg hreleased] at hasked

/-- A correction settles an overrun that could not be settled, or leaves it. -/
theorem correct_does {corrected : Int} {why : String}
    (h : B.correct weak k corrected why = some (B', result)) : B.Does k .hand B' := by
  refine .of_require h fun hcheck h => ?_
  split at h
  · exact .refused h
  next a hget =>
  split at h
  · exact .refused h
  next hstatus =>
  split at h
  · exact .refused h
  split at h
  · exact .refused h
  split at h
  · exact .refused h
  next id hid =>
  have hamount := (ok_of_bind (ok_of_bind hcheck).2).1
  obtain ⟨⟨guard, o⟩, hperform, h⟩ := Option.map_eq_some_iff.1 h
  dsimp only at h
  split at h
  · next hcommitted =>
    cases h
    exact .corrects hamount hget (not_not.1 hstatus) hid hperform hcommitted
  · next hcommitted =>
    cases h
    refine .keeps ⟨rfl, rfl, rfl, fun h => h, fun hrests hbacked => ?_⟩
    have hasked := hrests.commit (amount_ok hamount) (hbacked k a id hget hid) hperform
    rwa [if_neg hcommitted] at hasked

end AgentBudget

def Phase.attempt? : Phase → Option String
  | .idle => none
  | .operating attempt | .settled attempt | .raising attempt => some attempt

namespace System

variable {Task : Type*} {s s' : System Task} {ev : Event Task}

def startedBy (s' : System Task) : Event Task → List String
  | .begin task attempt _ _ => if s'.phase task = .operating attempt then [attempt] else []
  | _ => []

variable [DecidableEq Task]

/-- What a step is: an admission, a section of a call that goes on from it, or a section
outside the calls. -/
inductive Moved (s : System Task) (ev : Event Task) : System Task → Prop
  | begin {task : Task} {k : String} {reserve : Int} {weak : List Bool} {B : AgentBudget}
      (hev : ev = .begin task k reserve weak) (hidle : s.phase task = .idle)
      (henters : s.budget.Enters k reserve B) : Moved s ev (s.enter task B (.operating k))
  | call {task : Task} {k : String} {c : Caller} {B : AgentBudget} {phase : Phase}
      (hphase : (s.phase task).attempt? = some k) (hdoes : s.budget.Does k c B)
      (hlive : c.isLive = true) (hfinish : c = .finish → s.phase task = .operating k)
      (hnext : phase.attempt? = none ∨ phase.attempt? = some k)
      (hover : ∀ k', phase ≠ .operating k') (hquiet : (s.enter task B phase).startedBy ev = [])
      (hclose : ev ≠ .close) : Moved s ev (s.enter task B phase)
  | hand {k : String} {B : AgentBudget} (hdoes : s.budget.Does k .hand B)
      (hquiet : startedBy { s with budget := B } ev = [])
      (hclose : ev = .close → B.closed = true) : Moved s ev { s with budget := B }

theorem step_moved (hstep : s.step ev = some s') : s.Moved ev s' := by
  cases ev with
  | begin task k reserve weak =>
    simp only [step] at hstep
    split at hstep
    next hidle =>
      obtain ⟨⟨B, result⟩, hbegin, rfl⟩ := Option.map_eq_some_iff.1 hstep
      rcases AgentBudget.begin_cases hbegin with ⟨hkeeps, err, rfl⟩ | ⟨rfl, henters⟩
      · have hback : s.enter task B .idle = { s with budget := B } := by
          rw [enter, ← hidle, Function.update_eq_self]
        dsimp only
        rw [hback]
        exact .hand (k := k) (.keeps hkeeps) (by simp [startedBy, hidle]) (by simp)
      · exact .begin rfl hidle henters
    · cases hstep
  | finish task actual weak =>
    simp only [step] at hstep
    split at hstep
    · next k hphase =>
      obtain ⟨⟨B, result⟩, hfinish, rfl⟩ := Option.map_eq_some_iff.1 hstep
      refine .call (by rw [hphase]; rfl) (AgentBudget.finish_does hfinish) rfl (fun _ => hphase)
        (.inr ?_) ?_ rfl (by simp)
      · cases result <;> rfl
      · cases result <;> simp
    · cases hstep
  | raise task | leave task =>
    simp only [step] at hstep
    split at hstep <;> cases hstep <;> next k hphase =>
      exact .call (k := k) (c := .call) (by rw [hphase]; rfl) (.keeps (.refl _)) rfl (by simp)
        (by simp [Phase.attempt?]) (by simp) rfl (by simp)
  | uncertain task =>
    simp only [step] at hstep
    split at hstep
    · next k hphase =>
      cases hstep
      exact .call (by rw [hphase]; rfl) (s.budget.uncertain_does k) rfl (by simp) (.inl rfl)
        (by simp) rfl (by simp)
    · cases hstep
  | reconcile k actual weak =>
    obtain ⟨⟨B, result⟩, hreconcile, rfl⟩ := Option.map_eq_some_iff.1 hstep
    exact .hand (AgentBudget.reconcile_does hreconcile) rfl (by simp)
  | release k confirmed weak =>
    obtain ⟨⟨B, result⟩, hrelease, rfl⟩ := Option.map_eq_some_iff.1 hstep
    exact .hand (AgentBudget.release_does hrelease) rfl (by simp)
  | correct k corrected why weak =>
    obtain ⟨⟨B, result⟩, hcorrect, rfl⟩ := Option.map_eq_some_iff.1 hstep
    exact .hand (AgentBudget.correct_does hcorrect) rfl (by simp)
  | close =>
    cases hstep
    exact .hand (k := "") (.keeps ⟨rfl, rfl, rfl, fun _ => rfl, fun h _ => h⟩) rfl fun _ => rfl
  | balance =>
    obtain ⟨⟨B, balance⟩, hbalance, rfl⟩ := Option.map_eq_some_iff.1 hstep
    exact .hand (k := "") (.keeps (AgentBudget.balance_keeps hbalance)) rfl (by simp)
  | report =>
    obtain ⟨⟨B, report⟩, hreport, rfl⟩ := Option.map_eq_some_iff.1 hstep
    exact .hand (k := "") (.keeps (AgentBudget.report_keeps hreport)) rfl (by simp)

theorem Moved.exists_does (h : s.Moved ev s') : ∃ k c, s.budget.Does k c s'.budget := by
  cases h with
  | begin _ _ henters => exact ⟨_, _, .enters henters⟩
  | call _ hdoes | hand hdoes => exact ⟨_, _, hdoes⟩

end System

end Agent

end Calybris
