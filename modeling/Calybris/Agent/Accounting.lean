import Calybris.Agent.Sections

/-!
# The registry and the ledger agree

In every state that an agent budget comes to, whatever its tasks do, the native ledger
holds what the unresolved attempts reserved and has committed what the settled ones
cost. The two change in the same section: a native call that was refused leaves the
ledger as it was, one that went through changes the account by the amounts that the
section then writes into the registry.
-/

namespace Calybris.Agent

open Budget Transition Option Function Dict

/-! ### What the attempts say about the ledger -/

namespace Attempt

variable (a : Attempt)

def held : Int := if a.report.status.isUnresolved then a.report.reservedMicrocents else 0

def charged : Int :=
  match a.report.status with
  | .committed | .overrunSettled => a.report.actualMicrocents.getD 0
  | .corrected => a.report.correctedMicrocents.getD 0
  | _ => 0

structure Sound : Prop where
  held : a.reservationId.isSome ↔ a.report.status.isUnresolved
  actual : a.report.status = .committed ∨ a.report.status = .overrunSettled →
    a.report.actualMicrocents.isSome
  corrected : a.report.status = .corrected → a.report.correctedMicrocents.isSome

variable {a}

theorem charged_of_isUnresolved (h : a.report.status.isUnresolved) : a.charged = 0 := by
  unfold charged
  cases hs : a.report.status <;> simp [hs, AttemptStatus.isUnresolved] at h ⊢

theorem held_of_isUnresolved (h : a.report.status.isUnresolved) :
    a.held = a.report.reservedMicrocents := if_pos h

theorem Sound.isUnresolved {id : Nat} (h : a.Sound) (hid : a.reservationId = some id) :
    a.report.status.isUnresolved := h.held.1 (by rw [hid]; rfl)

theorem Sound.held_eq_zero (h : a.Sound) (hid : a.reservationId = none) : a.held = 0 := by
  refine if_neg fun hopen => ?_
  have hsome := h.held.2 hopen
  rw [hid] at hsome
  cases hsome

theorem Sound.of_isUnresolved {id : Nat} (hid : a.reservationId = some id)
    (hopen : a.report.status.isUnresolved) : a.Sound where
  held := by simp [hid, hopen]
  actual hs := by rcases hs with hs | hs <;> rw [hs] at hopen <;> cases hopen
  corrected hs := by
    rw [hs] at hopen
    cases hopen

end Attempt

section Resolved

variable (report : AttemptReport) (cost : Int)

theorem Attempt.sound_settled (overrun : Bool) :
    Attempt.Sound ⟨{ report with
      actualMicrocents := some cost
      status := if overrun then .overrunSettled else .committed }, none⟩ := by
  cases overrun <;> constructor <;> simp [AttemptStatus.isUnresolved]

theorem Attempt.charged_settled (overrun : Bool) :
    Attempt.charged ⟨{ report with
      actualMicrocents := some cost
      status := if overrun then .overrunSettled else .committed }, none⟩ = cost := by
  cases overrun <;> rfl

end Resolved

/-- The native ledger shows a book whose account of the run is what the attempts say. -/
structure Accounts (budget : Int) (guard : Shared String 1 1) (attempts : Dict String Attempt)
    (b : Book String) : Prop where
  rests : Rests guard b
  initial : b.initial "run" = budget
  held : b.held "run" = attempts.total Attempt.held
  committed : b.committed "run" = attempts.total Attempt.charged
  sound : ∀ k a, attempts.get? k = some a → a.Sound
  holds : ∀ k a id, attempts.get? k = some a → a.reservationId = some id →
    b.holds id = some ⟨"run", a.report.reservedMicrocents⟩
  distinct : ∀ k k' a a' id, attempts.get? k = some a → attempts.get? k' = some a' →
    a.reservationId = some id → a'.reservationId = some id → k = k'

namespace Accounts

variable {budget : Int} {guard guard' : Shared String 1 1} {attempts : Dict String Attempt}
  {b b' : Book String} {k : String} {a a' : Attempt}

section

variable (h : Accounts budget guard attempts b)

include h

theorem write (hrests : Rests guard' b') (hinitial : b'.initial "run" = b.initial "run")
    (hsound : a'.Sound)
    (hheld : b'.held "run" = b.held "run" - ((attempts.get? k).map Attempt.held).getD 0 + a'.held)
    (hcommitted : b'.committed "run" =
      b.committed "run" - ((attempts.get? k).map Attempt.charged).getD 0 + a'.charged)
    (hholds : ∀ id, a'.reservationId = some id →
      b'.holds id = some ⟨"run", a'.report.reservedMicrocents⟩)
    (hothers : ∀ k' a id, k' ≠ k → attempts.get? k' = some a → a.reservationId = some id →
      b'.holds id = b.holds id ∧ a'.reservationId ≠ some id) :
    Accounts budget guard' (attempts.set k a') b' where
  rests := hrests
  initial := hinitial.trans h.initial
  held := by rw [total_set, hheld, h.held]
  committed := by rw [total_set, hcommitted, h.committed]
  sound k' a hget := by
    rcases of_get?_set hget with ⟨-, rfl⟩ | ⟨-, hget⟩
    · exact hsound
    · exact h.sound k' a hget
  holds k' a id hget hid := by
    rcases of_get?_set hget with ⟨-, rfl⟩ | ⟨hne, hget⟩
    · exact hholds id hid
    · rw [(hothers k' a id hne hget hid).1, h.holds k' a id hget hid]
  distinct k1 k2 a1 a2 id hget1 hget2 hid1 hid2 := by
    rcases of_get?_set hget1 with ⟨rfl, rfl⟩ | ⟨h1, hold1⟩ <;>
      rcases of_get?_set hget2 with ⟨rfl, rfl⟩ | ⟨h2, hold2⟩
    · rfl
    · exact absurd hid1 (hothers k2 a2 id h2 hold2 hid2).2
    · exact absurd hid2 (hothers k1 a1 id h1 hold1 hid1).2
    · exact h.distinct k1 k2 a1 a2 id hold1 hold2 hid1 hid2

theorem enter {c : Int} {id : Nat} (hnew : attempts.get? k = none)
    (happly : b.apply (.reserve "run" c id) = some b') (hrests : Rests guard' b') :
    Accounts budget guard' (attempts.set k ⟨⟨k, .running, c, none, none, none⟩, some id⟩) b' := by
  obtain ⟨hid, hholds, hheld, hcommitted, hinitial⟩ := Book.amounts_of_reserve happly
  refine h.write hrests hinitial (.of_isUnresolved rfl rfl) ?_ ?_ ?_ ?_
  · rw [hnew, hheld]
    simp [Attempt.held, AttemptStatus.isUnresolved]
  · rw [hnew, hcommitted]
    simp [Attempt.charged]
  · rintro _ ⟨⟩
    rw [hholds, update_self]
  · intro k' a id' _ hget hid'
    have hne : id' ≠ id := fun heq => hid (heq ▸ h.rests.issued (h.holds k' a id' hget hid'))
    refine ⟨by rw [hholds, update_of_ne hne], fun heq => ?_⟩
    exact hne (Option.some.inj heq).symm

theorem relabel {id : Nat} (hget : attempts.get? k = some a) (hrests : Rests guard' b)
    (hid : a.reservationId = some id) (hid' : a'.reservationId = some id)
    (hreserved : a'.report.reservedMicrocents = a.report.reservedMicrocents)
    (hopen : a'.report.status.isUnresolved) : Accounts budget guard' (attempts.set k a') b := by
  have hwas := (h.sound k a hget).isUnresolved hid
  refine h.write hrests rfl (.of_isUnresolved hid' hopen) ?_ ?_ ?_ ?_
  · rw [hget, map_some, getD_some, Attempt.held_of_isUnresolved hwas,
      Attempt.held_of_isUnresolved hopen, hreserved, Int.sub_add_cancel]
  · rw [hget, map_some, getD_some, Attempt.charged_of_isUnresolved hwas,
      Attempt.charged_of_isUnresolved hopen, Int.sub_add_cancel]
  · intro i hi
    obtain rfl : id = i := Option.some.inj (hid'.symm.trans hi)
    rw [hreserved, h.holds k a id hget hid]
  · intro k' x i hne hx hi
    refine ⟨rfl, fun heq => hne ?_⟩
    exact h.distinct k' k x a i hx hget hi (hid.trans (hid'.symm.trans heq))

theorem settle {id : Nat} (hget : attempts.get? k = some a) (hid : a.reservationId = some id)
    (hsettled : Rests.SettledAt guard' b id ⟨"run", a.report.reservedMicrocents⟩ a'.charged)
    (hsound : a'.Sound) (hnone : a'.reservationId = none) :
    ∃ b', Accounts budget guard' (attempts.set k a') b' := by
  obtain ⟨x, hx, hrests⟩ := hsettled
  obtain ⟨hinitial, -, hcommitted⟩ := Book.amounts_of_account hx
  have hwas := (h.sound k a hget).isUnresolved hid
  have hhold := h.holds k a id hget hid
  obtain ⟨hholds, hheld, hcommitted', hinitial'⟩ :=
    Book.amounts_of_settle (h.rests.issued hhold) hhold _
  refine ⟨_, h.write hrests (hinitial'.trans hinitial.symm) hsound ?_ ?_ ?_ ?_⟩
  · rw [hget, map_some, getD_some, Attempt.held_of_isUnresolved hwas, hheld,
      hsound.held_eq_zero hnone, Int.add_zero]
  · rw [hget, map_some, getD_some, Attempt.charged_of_isUnresolved hwas, hcommitted',
      hcommitted, Int.sub_zero]
  · intro i hi
    rw [hnone] at hi
    cases hi
  · intro k' y i hne hy hi
    have hne' : i ≠ id := fun heq => hne (h.distinct k' k y a i hy hget hi (heq ▸ hid))
    exact ⟨by rw [hholds, update_of_ne hne'], by rw [hnone]; nofun⟩

end

section Native

variable {id : Nat} {c : Int} {weak : List Bool} {o : Outcome}

theorem commit (h : Accounts budget guard attempts b) (hget : attempts.get? k = some a)
    (hid : a.reservationId = some id) (hc : 0 ≤ c ∧ c < 2 ^ 63)
    (hperform : guard.perform weak (.commit (.ofNat id) (.ofInt c)) = some (guard', o))
    (hcommitted : o.isCommitted) (hsound : a'.Sound) (hnone : a'.reservationId = none)
    (hcharged : a'.charged = c) : ∃ b', Accounts budget guard' (attempts.set k a') b' := by
  have hsettled := h.rests.commit hc (h.holds k a id hget hid) hperform
  rw [if_pos hcommitted, ← hcharged] at hsettled
  exact h.settle hget hid hsettled hsound hnone

theorem release (h : Accounts budget guard attempts b) (hget : attempts.get? k = some a)
    (hid : a.reservationId = some id)
    (hperform : guard.perform weak (.release (.ofNat id)) = some (guard', o))
    (hreleased : o.isReleased) (hsound : a'.Sound) (hnone : a'.reservationId = none)
    (hcharged : a'.charged = 0) : ∃ b', Accounts budget guard' (attempts.set k a') b' := by
  have hsettled := h.rests.release (h.holds k a id hget hid) hperform
  rw [if_pos hreleased, ← hcharged] at hsettled
  exact h.settle hget hid hsettled hsound hnone

end Native

end Accounts

/-! ### The sections -/

namespace AgentBudget

def Accounted (budget : Int) (B : AgentBudget) : Prop :=
  ∃ b, Accounts budget B.guard B.attempts b

variable {budget : Int} {B B' : AgentBudget} {weak : List Bool} {attempt : String}
  {result : Except AgentError Unit}

namespace Accounted

theorem settleLocked (h : B.Accounted budget) {entry : Attempt} {actual : Int}
    (hget : B.attempts.get? attempt = some entry) (hactual : 0 ≤ actual ∧ actual < 2 ^ 63)
    (hsettle : B.settleLocked weak attempt entry actual = some (B', result)) :
    B'.Accounted budget := by
  obtain ⟨b, h⟩ := h
  unfold AgentBudget.settleLocked at hsettle
  split at hsettle
  · cases hsettle
    exact ⟨b, h⟩
  · next id hid =>
    obtain ⟨⟨guard, o⟩, hperform, hsettle⟩ := map_eq_some_iff.1 hsettle
    by_cases hcommitted : o.isCommitted
    · simp only [if_pos hcommitted, Prod.mk.injEq] at hsettle
      obtain ⟨rfl, -⟩ := hsettle
      exact h.commit hget hid hactual hperform hcommitted (Attempt.sound_settled ..) rfl
        (Attempt.charged_settled ..)
    · simp only [if_neg hcommitted, Prod.mk.injEq] at hsettle
      obtain ⟨rfl, -⟩ := hsettle
      have hrests := h.rests.commit hactual (h.holds _ _ id hget hid) hperform
      rw [if_neg hcommitted] at hrests
      exact ⟨b, h.relabel hget hrests hid rfl rfl (by dsimp only; split <;> rfl)⟩

theorem does (h : B.Accounted budget) {c : Caller} (hdoes : B.Does attempt c B') :
    B'.Accounted budget := by
  obtain ⟨b, h⟩ := h
  cases hdoes with
  | keeps hkeeps =>
    have hrests := hkeeps.rests h.rests h.holds
    exact ⟨b, by rw [hkeeps.attempts]; exact { h with rests := hrests }⟩
  | enters henters =>
    obtain ⟨weak, guard, o, hperform, hreserved, rfl⟩ := henters.granted
    have hcases := h.rests.reserve (amount_ok henters.positive) hperform
    rw [if_pos hreserved] at hcases
    obtain ⟨id, b', hissued, happly, hrests⟩ := hcases
    refine ⟨b', ?_⟩
    rw [AgentBudget.record, hissued]
    exact h.enter henters.new happly hrests
  | uncertain hget hrunning =>
    obtain ⟨id, hid⟩ := isSome_iff_exists.1 ((h.sound _ _ hget).held.2 (by rw [hrunning]; rfl))
    exact ⟨b, h.relabel hget h.rests hid hid rfl rfl⟩
  | settles hget hactual _ hsettle =>
    exact settleLocked ⟨b, h⟩ hget (amount_ok hactual) hsettle
  | releases hentry _ hid hperform hreleased =>
    refine h.release (of_unresolved hentry).1 hid hperform hreleased ?_ rfl rfl
    constructor <;> simp [AttemptStatus.isUnresolved]
  | corrects hamount hget _ hid hperform hcommitted =>
    refine h.commit hget hid (amount_ok hamount) hperform hcommitted ?_ rfl rfl
    constructor <;> simp [AttemptStatus.isUnresolved]

theorem new {maxAttempts maxDeniedRecords : Int}
    (hnew : AgentBudget.new budget maxAttempts maxDeniedRecords = some (.ok B)) :
    B.Accounted budget := by
  unfold AgentBudget.new at hnew
  split at hnew
  · cases hnew
  · next hcheck =>
    have hbudget := amount_ok (ok_of_bind hcheck).1
    have htoInt : (Int64.ofInt budget).toInt = budget :=
      Int64.toInt_ofInt_of_le (by omega) (by omega)
    obtain ⟨guard, hperform⟩ : ∃ guard, (Shared.init : Shared String 1 1).perform []
        (.tryEnsureTenant "run" (.ofInt budget)) = some (guard, .configured none) := by
      have hstart : (Call.tryEnsureTenant "run" (.ofInt budget)).start =
          .ensure "run" (Int64.ofInt budget).toInt := if_neg (by omega)
      simp only [Shared.perform, Shared.step, State.step, hstart]
      exact ⟨_, rfl⟩
    rw [hperform] at hnew
    obtain rfl : empty guard maxAttempts maxDeniedRecords = B := by simpa using hnew
    obtain ⟨b, happly, hrests⟩ := Rests.init.of_op hperform rfl
    rw [htoInt] at happly
    cases happly
    refine ⟨_, hrests, ?_, rfl, ?_, ?_, ?_, ?_⟩
    · exact Book.initial_setAccount.trans (if_pos rfl)
    · exact Book.committed_setAccount.trans (if_pos rfl)
    all_goals simp [empty]

end Accounted

end AgentBudget

/-! ### Sections return -/

namespace AgentBudget

variable {budget : Int} {B : AgentBudget} {weak : List Bool} {attempt : String}

theorem isSome_require {α : Type} {check : Except AgentError Unit}
    {rest : Option (AgentBudget × Except AgentError α)} (h : rest.isSome) :
    (B.require check rest).isSome := by
  cases check with
  | error err => rfl
  | ok u => exact h

theorem isSome_ledger {b : Book String} (h : Rests B.guard b) : B.ledger.isSome := by
  obtain ⟨guard, -, htaken⟩ := h.trySnapshot
  rw [ledger, htaken]
  rfl

theorem isSome_deny {b : Book String} (h : Rests B.guard b) (reserve : Int) (status : String) :
    (B.deny attempt reserve status).isSome := by
  unfold deny
  dsimp only
  split
  · rw [isSome_map]
    exact isSome_ledger (B := B.appendDenied attempt reserve) h
  · rfl

namespace Accounted

section

variable (h : B.Accounted budget)

include h

theorem isSome_perform (call : Call String) : (B.guard.perform weak call).isSome := by
  obtain ⟨b, h⟩ := h
  obtain ⟨guard, o, hperform⟩ := Shared.exists_perform weak call h.rests.idle
  rw [hperform]
  rfl

theorem isSome_begin (reserve : Int) : (B.begin weak attempt reserve).isSome := by
  refine isSome_require ?_
  split
  · rfl
  split
  · rfl
  split
  · rfl
  obtain ⟨⟨guard, o⟩, hperform⟩ := isSome_iff_exists.1
    (h.isSome_perform (.tryReserve "run" (.ofInt reserve)))
  obtain ⟨b, h⟩ := h
  obtain ⟨b', -, hrests⟩ := h.rests.perform hperform
  rw [hperform, bind_some]
  dsimp only
  split
  · rfl
  · exact isSome_deny (B := { B with guard := guard }) hrests _ _

theorem isSome_settleLocked (entry : Attempt) (actual : Int) :
    (B.settleLocked weak attempt entry actual).isSome := by
  unfold AgentBudget.settleLocked
  split
  · rfl
  · rw [isSome_map]
    exact h.isSome_perform _

theorem isSome_finish (actual : Int) : (B.finish weak attempt actual).isSome := by
  refine isSome_require ?_
  split
  · rfl
  · exact h.isSome_settleLocked _ _

theorem isSome_reconcile (actual : Int) : (B.reconcile weak attempt actual).isSome := by
  refine isSome_require ?_
  split
  · rfl
  split
  · exact h.isSome_settleLocked _ _
  · rfl

theorem isSome_release (confirmed : Bool) : (B.release weak attempt confirmed).isSome := by
  refine isSome_require ?_
  split
  · rfl
  split
  · rfl
  split
  · rfl
  · rw [isSome_map]
    exact h.isSome_perform _

theorem isSome_correct (corrected : Int) (why : String) :
    (B.correct weak attempt corrected why).isSome := by
  refine isSome_require ?_
  split
  · rfl
  split
  · rfl
  split
  · rfl
  split
  · rfl
  split
  · rfl
  · rw [isSome_map]
    exact h.isSome_perform _

theorem isSome_balance : B.balance.isSome := by
  obtain ⟨b, h⟩ := h
  rw [AgentBudget.balance, isSome_map]
  exact isSome_ledger h.rests

theorem isSome_report : B.report.isSome := by
  obtain ⟨⟨B', balance⟩, hbalance⟩ := isSome_iff_exists.1 h.isSome_balance
  have hdoes : B.Does "" .hand B' := .keeps (balance_keeps hbalance)
  obtain ⟨b, h'⟩ := h.does hdoes
  obtain ⟨guard, -, htaken⟩ := h'.rests.trySnapshot
  rw [AgentBudget.report, hbalance, bind_some]
  cases balance with
  | error err => rfl
  | ok balance =>
    dsimp only
    rw [htaken]
    rfl

end

end Accounted

end AgentBudget

/-! ### Every state of a run -/

structure Agrees (budget : Int) (B : AgentBudget) : Prop where
  reserved : B.guard.core.engine.reservedTotal "run" = B.attempts.total Attempt.held
  committed : B.guard.core.engine.committed "run" = B.attempts.total Attempt.charged
  conserved : B.guard.core.engine.reservedTotal "run" + B.guard.core.engine.committed "run" +
    B.guard.core.engine.remaining "run" = budget
  initial : B.guard.core.engine.initial "run" = budget
  sound : ∀ k a, (k, a) ∈ B.attempts.entries → a.Sound
  holds : ∀ k a id, (k, a) ∈ B.attempts.entries → a.reservationId = some id →
    B.guard.core.engine.reservations id = some ⟨"run", a.report.reservedMicrocents⟩
  distinct : ∀ k k' a a' id, (k, a) ∈ B.attempts.entries → (k', a') ∈ B.attempts.entries →
    a.reservationId = some id → a'.reservationId = some id → k = k'

theorem AgentBudget.Accounted.agrees {budget : Int} {B : AgentBudget} (h : B.Accounted budget) :
    Agrees budget B := by
  obtain ⟨b, h⟩ := h
  obtain ⟨ops, htracks⟩ := h.rests.tracks
  obtain ⟨hinitial, -, hcommitted, hheld⟩ := htracks.amounts_of_gateFree h.rests.gateFree "run"
  have hsum := (htracks.inv.sum_of_gateFree h.rests.gateFree "run").1
  have hreservations := htracks.reservations_of_gateFree h.rests.gateFree
  have hbudget := h.initial
  constructor
  · rw [← hheld, h.held]
  · rw [← hcommitted, h.committed]
  · omega
  · rw [← hinitial, hbudget]
  · intro k a hmem
    exact h.sound k a (mem_entries.1 hmem)
  · intro k a id hmem hid
    rw [hreservations, h.holds k a id (mem_entries.1 hmem) hid]
  · intro k k' a a' id hmem hmem'
    exact h.distinct k k' a a' id (mem_entries.1 hmem) (mem_entries.1 hmem')

namespace System

variable {Task : Type*} [DecidableEq Task]

theorem step_accounted {budget : Int} {s s' : System Task} {ev : Event Task}
    (h : s.budget.Accounted budget) (hstep : s.step ev = some s') :
    s'.budget.Accounted budget := by
  obtain ⟨k, c, hdoes⟩ := (step_moved hstep).exists_does
  exact h.does hdoes

/-- The event is one that the task has before it. -/
def Enabled (s : System Task) : Event Task → Prop
  | .begin task .. => s.phase task = .idle
  | .finish task .. => ∃ attempt, s.phase task = .operating attempt
  | .raise task => ∃ attempt, s.phase task = .operating attempt ∨ s.phase task = .settled attempt
  | .uncertain task => ∃ attempt, s.phase task = .raising attempt
  | .leave task => ∃ attempt, s.phase task = .settled attempt
  | _ => True

theorem isSome_step {budget : Int} {s : System Task} (h : s.budget.Accounted budget)
    {ev : Event Task} (hev : s.Enabled ev) : (s.step ev).isSome := by
  cases ev with
  | begin task attempt reserve weak =>
    simp only [step, show s.phase task = .idle from hev, isSome_map]
    exact h.isSome_begin reserve
  | finish task actual weak =>
    obtain ⟨attempt, hphase⟩ := hev
    simp only [step, hphase, isSome_map]
    exact h.isSome_finish actual
  | raise task =>
    obtain ⟨attempt, hphase | hphase⟩ := hev <;> simp only [step, hphase] <;> rfl
  | uncertain task | leave task =>
    obtain ⟨attempt, hphase⟩ := hev
    simp only [step, hphase]
    rfl
  | reconcile attempt actual weak =>
    simp only [step, isSome_map]
    exact h.isSome_reconcile actual
  | release attempt confirmed weak =>
    simp only [step, isSome_map]
    exact h.isSome_release confirmed
  | correct attempt corrected why weak =>
    simp only [step, isSome_map]
    exact h.isSome_correct corrected why
  | close => rfl
  | balance =>
    simp only [step, isSome_map]
    exact h.isSome_balance
  | report =>
    simp only [step, isSome_map]
    exact h.isSome_report

/-- Whatever threads and tasks do with a budget, its ledger and its attempts agree after
every step. -/
theorem agrees_run {budget maxAttempts maxDeniedRecords : Int} {B : AgentBudget}
    (hnew : AgentBudget.new budget maxAttempts maxDeniedRecords = some (.ok B))
    {es : List (Event Task)} {s : System Task} (h : run step (start B) es = some s) :
    Agrees budget s.budget := by
  have hstart : (start B : System Task).budget.Accounted budget := .new hnew
  have haccounted : s.budget.Accounted budget :=
    run_invariant (I := fun s : System Task => s.budget.Accounted budget)
      (fun hs hstep => step_accounted hs hstep) hstart h
  exact haccounted.agrees

attribute [local instance] neZero_two in
def overrunTrace : List (Event (Fin 2)) :=
  [.begin 0 "plan" 40 [false, false, false, true], .begin 1 "search" 50 [], .finish 0 30 [],
    .leave 0, .raise 1, .uncertain 1, .begin 0 "draft" 20 [], .finish 0 25 [], .uncertain 0]

def settlingTrace : List (Event (Fin 2)) :=
  overrunTrace ++ [.balance, .reconcile "search" 10 [], .correct "draft" 22 "provider credit" []]

def statuses (s : System Task) : List (String × AttemptStatus) :=
  s.budget.attempts.entries.map fun entry => (entry.1, entry.2.report.status)

omit [DecidableEq Task] in
theorem mem_statuses {s : System Task} {k : String} {a : Attempt}
    (h : s.budget.attempts.get? k = some a) : (k, a.report.status) ∈ s.statuses :=
  List.mem_map.2 ⟨(k, a), mem_entries.2 h, rfl⟩

omit [DecidableEq Task] in
theorem exists_new {new : Option (Except AgentError AgentBudget)} {P : AgentBudget → Prop}
    (h : ∃ x ∈ new, ∃ B ∈ x.toOption, P B) : ∃ B, new = some (.ok B) ∧ P B := by
  obtain ⟨x, hx, B, hB, hP⟩ := h
  cases x with
  | error err => cases hB
  | ok B' =>
    obtain rfl : B' = B := Option.some.inj hB
    exact ⟨B', hx, hP⟩

theorem agrees_run_overrun : ∃ B, AgentBudget.new 100 10 10 = some (.ok B) ∧
    (∃ s, run step (start B) overrunTrace = some s ∧
      s.statuses = [("plan", .committed), ("search", .uncertain), ("draft", .overrunUnsettled)] ∧
      Agrees 100 s.budget) ∧
    ∃ s, run step (start B) settlingTrace = some s ∧
      s.statuses = [("plan", .committed), ("search", .committed), ("draft", .corrected)] ∧
      Agrees 100 s.budget := by
  obtain ⟨B, hB, ⟨s, hs, hopen⟩, s', hs', hsettled⟩ : ∃ B,
      AgentBudget.new 100 10 10 = some (.ok B) ∧
      (∃ s ∈ run step (start B) overrunTrace, s.statuses =
        [("plan", .committed), ("search", .uncertain), ("draft", .overrunUnsettled)]) ∧
      ∃ s ∈ run step (start B) settlingTrace, s.statuses =
        [("plan", .committed), ("search", .committed), ("draft", .corrected)] :=
    exists_new (by decide)
  exact ⟨B, hB, ⟨s, hs, hopen, agrees_run hB hs⟩, s', hs', hsettled, agrees_run hB hs'⟩

/-- No task ever waits, for a lock of the ledger or for anything else: every run goes on with any
event that a task has before it. -/
theorem enabled_run {budget maxAttempts maxDeniedRecords : Int} {B : AgentBudget}
    (hnew : AgentBudget.new budget maxAttempts maxDeniedRecords = some (.ok B))
    {es : List (Event Task)} {s : System Task} (h : run step (start B) es = some s)
    {ev : Event Task} (hev : s.Enabled ev) : ∃ s', run step (start B) (es ++ [ev]) = some s' := by
  have haccounted := run_invariant (I := fun s : System Task => s.budget.Accounted budget)
    (fun hs hstep => step_accounted hs hstep) (.new hnew) h
  obtain ⟨s', hs'⟩ := Option.isSome_iff_exists.1 (isSome_step haccounted hev)
  exact ⟨s', run_append_singleton_eq_some_iff.2 ⟨s, h, hs'⟩⟩

theorem enabled_run_overrun : ∃ B, AgentBudget.new 100 10 10 = some (.ok B) ∧
    ∃ s', run step (start B) (overrunTrace ++ [.begin 1 "check" 5 []]) = some s' := by
  obtain ⟨B, hB, s, hs, hidle⟩ : ∃ B, AgentBudget.new 100 10 10 = some (.ok B) ∧
      ∃ s ∈ run step (start B) overrunTrace, s.phase 1 = .idle := exists_new (by decide)
  exact ⟨B, hB, enabled_run hB hs hidle⟩

end System

end Calybris.Agent
