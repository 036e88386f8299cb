import Calybris.Agent.Accounting

/-!
# The life of an attempt

An admitted attempt is in the registry for good. A section writes at most one entry: it
enters a new attempt, or takes an unresolved one further. Who may do the latter depends
on whether the call is still running. A running attempt belongs to the task that made the
call, one that is no longer running to whoever settles it by hand, so a settlement of the
one kind never meets one of the other.

From what a section does to one entry follow the properties of whole runs: which
operations are started, which entries are final, and when the run admits nothing more.
-/

namespace Calybris.Agent

open Budget Transition Option List Dict

/-! ### One entry -/

theorem AttemptStatus.not_isSettled {status : AttemptStatus} (h : status.isUnresolved) :
    ¬ status.isSettled := by
  cases status <;> simp_all [AttemptStatus.isUnresolved, AttemptStatus.isSettled]

namespace Attempt

def Overrun (a : Attempt) : Prop :=
  ∃ cost, a.report.actualMicrocents = some cost ∧ a.report.reservedMicrocents < cost

structure Later (a a' : Attempt) : Prop where
  settled : a.report.status.isSettled → a' = a
  reserved : a'.report.reservedMicrocents = a.report.reservedMicrocents
  actual : ∀ cost, a.report.actualMicrocents = some cost → a'.report.actualMicrocents = some cost

namespace Later

variable {a a' a'' : Attempt}

theorem refl (a : Attempt) : a.Later a := ⟨fun _ => rfl, rfl, fun _ hcost => hcost⟩

theorem trans (h : a.Later a') (h' : a'.Later a'') : a.Later a'' where
  settled hs := by
    obtain rfl := h.settled hs
    exact h'.settled hs
  reserved := h'.reserved.trans h.reserved
  actual cost hcost := h'.actual cost (h.actual cost hcost)

theorem of_isUnresolved (hopen : a.report.status.isUnresolved)
    (hreserved : a'.report.reservedMicrocents = a.report.reservedMicrocents)
    (hactual : ∀ cost, a.report.actualMicrocents = some cost →
      a'.report.actualMicrocents = some cost) : a.Later a' :=
  ⟨fun hs => absurd hs (AttemptStatus.not_isSettled hopen), hreserved, hactual⟩

end Later

end Attempt

/-! ### One section -/

namespace AgentBudget

/-- What a section does to the registry. `live` is whether it is a section of the call
that made the attempt. -/
inductive Change (live : Bool) (B : AgentBudget) (k : String) (B' : AgentBudget) : Prop
  | same (h : B'.attempts = B.attempts)
  | enter (reserve : Int) (id : Option Nat) (hopen : B.closed = false)
      (hnew : B.attempts.get? k = none) (hroom : B.attempts.entries.length < B.maxAttempts)
      (hreserve : 0 < reserve)
      (h : B'.attempts = B.attempts.set k ⟨⟨k, .running, reserve, none, none, none⟩, id⟩)
  | move (a a' : Attempt) (hget : B.attempts.get? k = some a)
      (hlive : a.report.status = .running ↔ live = true) (hlater : a.Later a')
      (hoverrun : a'.Overrun → a.Overrun ∨ B'.closed = true)
      (h : B'.attempts = B.attempts.set k a')

structure Section (live : Bool) (B : AgentBudget) (k : String) (B' : AgentBudget) : Prop where
  maxAttempts : B'.maxAttempts = B.maxAttempts
  closed : B.closed = true → B'.closed = true
  change : Change live B k B'

structure Regular (B : AgentBudget) : Prop where
  room : (B.attempts.entries.length : Int) ≤ B.maxAttempts
  positive : ∀ k a, B.attempts.get? k = some a → 0 < a.report.reservedMicrocents
  overrun : ∀ k a, B.attempts.get? k = some a → a.Overrun → B.closed = true

variable {live : Bool} {B B' : AgentBudget} {k k' : String} {weak : List Bool}
  {result : Except AgentError Unit}

namespace Change

theorem get?_of_ne (h : Change live B k B') (hne : k' ≠ k) :
    B'.attempts.get? k' = B.attempts.get? k' := by
  cases h with
  | same h => rw [h]
  | enter _ _ _ _ _ _ h | move _ _ _ _ _ _ h => rw [h, get?_set, if_neg hne]

theorem exists_later (h : Change live B k B') {a : Attempt}
    (hget : B.attempts.get? k' = some a) :
    ∃ a', B'.attempts.get? k' = some a' ∧ a.Later a' := by
  by_cases hk : k' = k
  · subst hk
    cases h with
    | same h => exact ⟨a, by rw [h, hget], .refl a⟩
    | enter _ _ _ hnew => cases hnew.symm.trans hget
    | move a₁ a' hget₁ _ hlater _ h =>
      obtain rfl : a₁ = a := some.inj (hget₁.symm.trans hget)
      exact ⟨a', by rw [h, get?_set, if_pos rfl], hlater⟩
  · exact ⟨a, by rw [h.get?_of_ne hk, hget], .refl a⟩

theorem get?_of_running (h : Change false B k B') {a : Attempt}
    (hget : B.attempts.get? k' = some a) (hrunning : a.report.status = .running) :
    B'.attempts.get? k' = some a := by
  by_cases hk : k' = k
  · subst hk
    cases h with
    | same h => rw [h, hget]
    | enter _ _ _ hnew => cases hnew.symm.trans hget
    | move a₁ _ hget₁ hlive =>
      obtain rfl : a₁ = a := some.inj (hget₁.symm.trans hget)
      exact absurd (hlive.1 hrunning) Bool.false_ne_true
  · rw [h.get?_of_ne hk, hget]

end Change

theorem Regular.of_section (h : B.Regular) (hsection : Section live B k B') : B'.Regular := by
  obtain ⟨hmax, hclosed, hchange⟩ := hsection
  cases hchange with
  | same hset =>
    refine ⟨by rw [hset, hmax]; exact h.room, ?_, ?_⟩ <;> rw [hset]
    · exact h.positive
    · exact fun k a hget hover => hclosed (h.overrun k a hget hover)
  | enter reserve id hopen hnew hroom hreserve hset =>
    refine ⟨?_, ?_, ?_⟩ <;> rw [hset]
    · rw [hmax, length_set_of_none hnew]
      push_cast
      omega
    · intro k' a hget
      rcases of_get?_set hget with ⟨-, rfl⟩ | ⟨-, hget⟩
      · exact hreserve
      · exact h.positive k' a hget
    · intro k' a hget hover
      rcases of_get?_set hget with ⟨-, rfl⟩ | ⟨-, hget⟩
      · obtain ⟨cost, hcost, -⟩ := hover
        cases hcost
      · exact hclosed (h.overrun k' a hget hover)
  | move a a' hget _ hlater hoverrun hset =>
    refine ⟨?_, ?_, ?_⟩ <;> rw [hset]
    · rw [hmax, length_set_of_some hget]
      exact h.room
    · intro k' x hget'
      rcases of_get?_set hget' with ⟨-, rfl⟩ | ⟨-, hget'⟩
      · rw [hlater.reserved]
        exact h.positive k a hget
      · exact h.positive k' x hget'
    · intro k' x hget' hover
      rcases of_get?_set hget' with ⟨-, rfl⟩ | ⟨-, hget'⟩
      · exact (hoverrun hover).elim (fun hwas => hclosed (h.overrun k a hget hwas)) id
      · exact hclosed (h.overrun k' x hget' hover)

/-! ### The sections of the source -/

theorem Keeps.toSection (h : B.Keeps B') : Section live B k B' :=
  ⟨h.maxAttempts, h.closed, .same h.attempts⟩

theorem Section.written {a a' : Attempt} (hget : B.attempts.get? k = some a)
    (hset : B'.attempts = B.attempts.set k a') (hmax : B'.maxAttempts = B.maxAttempts)
    (hlive : a.report.status = .running ↔ live = true) (hopen : a.report.status.isUnresolved)
    (hreserved : a'.report.reservedMicrocents = a.report.reservedMicrocents)
    (hactual : ∀ cost, a.report.actualMicrocents = some cost →
      a'.report.actualMicrocents = some cost)
    (hclosed : B.closed = true → B'.closed = true)
    (hoverrun : a'.Overrun → a.Overrun ∨ B'.closed = true) : Section live B k B' :=
  ⟨hmax, hclosed, .move a a' hget hlive (.of_isUnresolved hopen hreserved hactual) hoverrun hset⟩

/-- A settlement writes the cost it was given, and closes the run where that is above the
reservation. -/
theorem settleLocked_section {a : Attempt} {actual : Int} (hget : B.attempts.get? k = some a)
    (hopen : a.report.status.isUnresolved) (hlive : a.report.status = .running ↔ live = true)
    (hcost : a.report.actualMicrocents = none ∨ a.report.actualMicrocents = some actual)
    (h : B.settleLocked weak k a actual = some (B', result)) : Section live B k B' := by
  have hkept : ∀ cost, a.report.actualMicrocents = some cost → some actual = some cost := by
    intro cost hseen
    rcases hcost with hcost | hcost <;> cases hcost.symm.trans hseen
    rfl
  unfold AgentBudget.settleLocked at h
  split at h
  · cases h
    exact Keeps.toSection (.refl _)
  obtain ⟨⟨guard, o⟩, -, h⟩ := map_eq_some_iff.1 h
  dsimp only at h
  split at h
  · cases h
    refine .written hget rfl rfl hlive hopen rfl hkept
      (fun hclosed => by simp [AgentBudget.record, hclosed]) ?_
    rintro ⟨cost, hseen, hover⟩
    cases hseen
    exact .inr (by simp [AgentBudget.record, show a.report.reservedMicrocents < actual from hover])
  · cases h
    exact .written hget rfl rfl hlive hopen rfl hkept (fun _ => rfl) fun _ => .inr rfl

/-- The settlement of a call is of an attempt that runs, one by hand of one that does not;
what is released had no cost, and gets none above its reservation. -/
theorem Does.toSection {c : Caller} (h : B.Does k c B') (hB : B.Regular)
    (hfinish : c = .finish → ∃ a, B.attempts.get? k = some a ∧ a.report.status = .running ∧
      a.report.actualMicrocents = none) : Section c.isLive B k B' := by
  cases h with
  | keeps h => exact h.toSection
  | enters h =>
    obtain ⟨weak, guard, o, -, -, rfl⟩ := h.granted
    exact ⟨rfl, id, .enter _ o.issued h.isOpen h.new h.room (amount_positive h.positive).1 rfl⟩
  | uncertain hget hrunning =>
    exact .written hget rfl rfl (by simp [hrunning, Caller.isLive]) (by rw [hrunning]; rfl) rfl
      (fun _ hcost => hcost) id .inl
  | settles hget _ hcost hsettle =>
    rcases hcost with rfl | ⟨rfl, hopen, hover, hcost⟩
    · obtain ⟨a, hget', hrunning, hnone⟩ := hfinish rfl
      obtain rfl := some.inj (hget.symm.trans hget')
      exact settleLocked_section hget (by rw [hrunning]; rfl) (by simp [hrunning, Caller.isLive])
        (.inl hnone) hsettle
    · exact settleLocked_section hget hopen (by simpa [Caller.isLive] using hover) hcost hsettle
  | @releases a _ _ _ _ hentry hcost =>
    obtain ⟨hget, hopen, hover⟩ := of_unresolved hentry
    refine .written hget rfl rfl (by simpa [Caller.isLive] using hover) hopen rfl ?_ id ?_
    · intro cost hseen
      cases hcost.symm.trans hseen
    · rintro ⟨cost, hseen, hover⟩
      cases hseen
      exact absurd hover (Int.lt_asymm (hB.positive k a hget))
  | corrects _ hget hstatus =>
    exact .written hget rfl rfl (by simp [hstatus, Caller.isLive]) (by rw [hstatus]; rfl) rfl
      (fun _ hcost => hcost) id .inl

theorem Regular.empty (guard : Shared String 1 1) {maxAttempts : Int} (h : 0 ≤ maxAttempts)
    (maxDeniedRecords : Int) :
    (AgentBudget.empty guard maxAttempts maxDeniedRecords).Regular := by
  refine ⟨h, ?_, ?_⟩ <;> simp [AgentBudget.empty]

theorem Regular.new {budget maxAttempts maxDeniedRecords : Int}
    (h : AgentBudget.new budget maxAttempts maxDeniedRecords = some (.ok B)) :
    B.Regular ∧ B.maxAttempts = maxAttempts := by
  unfold AgentBudget.new at h
  split at h
  · cases h
  next hcheck =>
  obtain ⟨⟨guard, outcome⟩, -, h⟩ := map_eq_some_iff.1 h
  dsimp only at h
  have hroom := (amount_positive (ok_of_bind (ok_of_bind hcheck).2).1).1
  split at h
  · cases h
  · cases h
    exact ⟨.empty guard hroom.le maxDeniedRecords, rfl⟩

end AgentBudget

/-! ### The tasks -/

namespace System

variable {Task : Type*} {s s' : System Task} {ev : Event Task} {k : String} {task : Task}

/-- Whose attempt is whose. A running call has its attempt to itself, and no cost yet. -/
structure Orderly (s : System Task) : Prop where
  regular : s.budget.Regular
  known : ∀ i k, (s.phase i).attempt? = some k → (s.budget.attempts.get? k).isSome
  alone : ∀ i j k, (s.phase i).attempt? = some k → (s.phase j).attempt? = some k → i = j
  operating : ∀ i k, s.phase i = .operating k → ∃ a, s.budget.attempts.get? k = some a ∧
    a.report.status = .running ∧ a.report.actualMicrocents = none

theorem nodup_startedBy (s' : System Task) (ev : Event Task) : (s'.startedBy ev).Nodup := by
  cases ev with
  | begin task attempt reserve weak =>
    simp only [startedBy]
    split
    · exact nodup_singleton _
    · exact nodup_nil
  | _ => exact nodup_nil

variable {B : AgentBudget}

theorem Orderly.start (h : B.Regular) :
    (start B : System Task).Orderly :=
  ⟨h, nofun, nofun, nofun⟩

theorem Orderly.by_hand (h : s.Orderly) (hsection : s.budget.Section false k B) :
    Orderly { s with budget := B } where
  regular := h.regular.of_section hsection
  known i k' hi := by
    obtain ⟨a, ha⟩ := isSome_iff_exists.1 (h.known i k' hi)
    obtain ⟨a', ha', -⟩ := hsection.change.exists_later ha
    exact isSome_iff_exists.2 ⟨a', ha'⟩
  alone := h.alone
  operating i k' hi := by
    obtain ⟨a, ha, hrunning, hnone⟩ := h.operating i k' hi
    exact ⟨a, hsection.change.get?_of_running ha hrunning, hrunning, hnone⟩

/-- What a step is, for the registry: a section, and for an operation that it starts an
admission. -/
structure Stepped (s s' : System Task) (ev : Event Task) : Prop where
  orderly : s'.Orderly
  sections : ∃ live k, s.budget.Section live k s'.budget
  starts : ∀ k ∈ s'.startedBy ev, s.budget.closed = false ∧ s.budget.attempts.get? k = none ∧
    (s'.budget.attempts.get? k).isSome
  closes : ev = .close → s'.budget.closed = true

theorem Stepped.by_hand (h : s.Orderly) (hsection : s.budget.Section false k B)
    (hquiet : startedBy { s with budget := B } ev = []) (hclose : ev = .close → B.closed = true) :
    s.Stepped { s with budget := B } ev where
  orderly := h.by_hand hsection
  sections := ⟨false, k, hsection⟩
  starts k' hk' := by
    rw [hquiet] at hk'
    cases hk'
  closes := hclose

structure Later (s t : System Task) : Prop where
  maxAttempts : t.budget.maxAttempts = s.budget.maxAttempts
  closed : s.budget.closed = true → t.budget.closed = true
  entries : ∀ k a, s.budget.attempts.get? k = some a →
    ∃ a', t.budget.attempts.get? k = some a' ∧ a.Later a'

theorem Later.refl (s : System Task) : s.Later s :=
  ⟨rfl, id, fun _ a hget => ⟨a, hget, .refl a⟩⟩

theorem Later.trans {t u : System Task} (h : s.Later t) (h' : t.Later u) : s.Later u where
  maxAttempts := h'.maxAttempts.trans h.maxAttempts
  closed hclosed := h'.closed (h.closed hclosed)
  entries k a hget := by
    obtain ⟨a', hget', hlater⟩ := h.entries k a hget
    obtain ⟨a'', hget'', hlater'⟩ := h'.entries k a' hget'
    exact ⟨a'', hget'', hlater.trans hlater'⟩

theorem Stepped.later (h : s.Stepped s' ev) : s.Later s' := by
  obtain ⟨live, k, hmax, hclosed, hchange⟩ := h.sections
  exact ⟨hmax, hclosed, fun k' a hget => hchange.exists_later hget⟩

variable [DecidableEq Task]

/-- The operations that are started in a run, in their order. -/
def started : System Task → List (Event Task) → List String
  | _, [] => []
  | s, ev :: es =>
    match s.step ev with
    | none => []
    | some s' => s'.startedBy ev ++ started s' es

theorem phase_enter {phase : Phase} {i : Task} :
    (s.enter task B phase).phase i = if i = task then phase else s.phase i :=
  Function.update_apply ..

namespace Orderly

/-- A section of the call of a task, after which the operation is over. -/
theorem of_call (h : s.Orderly) (hphase : (s.phase task).attempt? = some k)
    (hsection : s.budget.Section true k B) {phase : Phase}
    (hnext : phase.attempt? = none ∨ phase.attempt? = some k)
    (hover : ∀ k', phase ≠ .operating k') : Orderly (s.enter task B phase) := by
  have hwas : ∀ i k', ((s.enter task B phase).phase i).attempt? = some k' →
      (s.phase i).attempt? = some k' := by
    intro i k' hi
    rw [phase_enter] at hi
    split at hi
    · next hit =>
      rcases hnext with hnone | hsame
      · cases hnone.symm.trans hi
      · rw [hit, hphase, ← hsame, hi]
    · exact hi
  refine ⟨h.regular.of_section hsection, fun i k' hi => ?_,
    fun i j k' hi hj => h.alone i j k' (hwas i k' hi) (hwas j k' hj), fun i k' hi => ?_⟩
  · obtain ⟨a, ha⟩ := isSome_iff_exists.1 (h.known i k' (hwas i k' hi))
    obtain ⟨a', ha', -⟩ := hsection.change.exists_later ha
    exact isSome_iff_exists.2 ⟨a', ha'⟩
  · rw [phase_enter] at hi
    split at hi
    · exact absurd hi (hover k')
    next hit =>
    obtain ⟨a, ha, hrunning, hnone⟩ := h.operating i k' hi
    -- the attempt is another one, since this one is the task's
    have hne : k' ≠ k := fun heq =>
      hit (h.alone i task k (by rw [hi, ← heq]; rfl) hphase)
    exact ⟨a, (hsection.change.get?_of_ne hne).trans ha, hrunning, hnone⟩

theorem of_begin (h : s.Orderly) (hidle : s.phase task = .idle) {reserve : Int} {id : Option Nat}
    (hnew : s.budget.attempts.get? k = none)
    (hget : B.attempts.get? k = some ⟨⟨k, .running, reserve, none, none, none⟩, id⟩)
    (hsection : s.budget.Section true k B) : Orderly (s.enter task B (.operating k)) := by
  have hfresh : ∀ i, (s.phase i).attempt? ≠ some k := by
    intro i hi
    have hknown := h.known i k hi
    rw [hnew] at hknown
    cases hknown
  have hcases : ∀ i k', ((s.enter task B (.operating k)).phase i).attempt? = some k' →
      i = task ∧ k' = k ∨ k' ≠ k ∧ (s.phase i).attempt? = some k' := by
    intro i k' hi
    rw [phase_enter] at hi
    split at hi
    · next hit => exact .inl ⟨hit, (some.inj hi).symm⟩
    · exact .inr ⟨fun heq => hfresh i (heq ▸ hi), hi⟩
  refine ⟨h.regular.of_section hsection, fun i k' hi => ?_, fun i j k' hi hj => ?_,
    fun i k' hi => ?_⟩
  · rcases hcases i k' hi with ⟨-, rfl⟩ | ⟨hne, hi⟩
    · exact isSome_iff_exists.2 ⟨_, hget⟩
    · have hsame : B.attempts.get? k' = s.budget.attempts.get? k' :=
        hsection.change.get?_of_ne hne
      exact (congrArg isSome hsame).trans (h.known i k' hi)
  · rcases hcases i k' hi with ⟨rfl, rfl⟩ | ⟨hne, hi⟩
    · rcases hcases j k' hj with ⟨rfl, -⟩ | ⟨hne, -⟩
      · rfl
      · exact absurd rfl hne
    · rcases hcases j k' hj with ⟨-, rfl⟩ | ⟨-, hj⟩
      · exact absurd rfl hne
      · exact h.alone i j k' hi hj
  · rw [phase_enter] at hi
    split at hi
    · obtain rfl := Phase.operating.inj hi
      exact ⟨_, hget, rfl, rfl⟩
    · obtain ⟨a, ha, hrunning, hnone⟩ := h.operating i k' hi
      have hne : k' ≠ k := fun heq => hfresh i (by rw [hi, ← heq]; rfl)
      exact ⟨a, (hsection.change.get?_of_ne hne).trans ha, hrunning, hnone⟩

end Orderly

namespace Stepped

theorem of_call (h : s.Orderly) (hphase : (s.phase task).attempt? = some k)
    (hsection : s.budget.Section true k B) {phase : Phase}
    (hnext : phase.attempt? = none ∨ phase.attempt? = some k) (hover : ∀ k', phase ≠ .operating k')
    (hquiet : (s.enter task B phase).startedBy ev = []) (hclose : ev ≠ .close) :
    s.Stepped (s.enter task B phase) ev where
  orderly := h.of_call hphase hsection hnext hover
  sections := ⟨true, k, hsection⟩
  starts k' hk' := by
    rw [hquiet] at hk'
    cases hk'
  closes heq := absurd heq hclose

end Stepped

theorem step_stepped (h : s.Orderly) (hstep : s.step ev = some s') : s.Stepped s' ev := by
  cases step_moved hstep with
  | @begin task k _ _ _ hev hidle henters =>
    have hsection := (AgentBudget.Does.enters henters).toSection h.regular (fun h => by cases h)
    obtain ⟨id, hget⟩ := henters.exists_get?
    refine ⟨h.of_begin hidle henters.new hget hsection, ⟨_, _, hsection⟩, fun k' hk' => ?_,
      by simp [hev]⟩
    obtain rfl : k' = k := by simpa [hev, startedBy, enter] using hk'
    exact ⟨henters.isOpen, henters.new, isSome_iff_exists.2 ⟨_, hget⟩⟩
  | call hphase hdoes hlive hfinish hnext hover hquiet hclose =>
    have hsection := hdoes.toSection h.regular fun hc => h.operating _ _ (hfinish hc)
    rw [hlive] at hsection
    exact .of_call h hphase hsection hnext hover hquiet hclose
  | hand hdoes hquiet hclose =>
    exact .by_hand h (hdoes.toSection h.regular (fun h => by cases h)) hquiet hclose

/-! ### Every run -/

section Run

variable {t : System Task} {es : List (Event Task)}

theorem orderly_run (hs : s.Orderly) (h : run step s es = some t) : t.Orderly :=
  run_invariant (I := Orderly) (fun hs hstep => (step_stepped hs hstep).orderly) hs h

theorem later_run (hs : s.Orderly) (h : run step s es = some t) : s.Later t :=
  run_monotone (I := Orderly) (fun hs hstep => (step_stepped hs hstep).orderly) Later.refl
    Later.trans (fun hs hstep => (step_stepped hs hstep).later) hs h

theorem closed_run (hs : s.Orderly) (h : run step s es = some t) (hclose : Event.close ∈ es) :
    t.budget.closed = true := by
  have hhistory := run_history
    (P := fun es (t : System Task) => t.Orderly ∧ (Event.close ∈ es → t.budget.closed = true))
    ⟨hs, (by simp)⟩ (fun {es ev _ _} ht hstep => ?_) h
  · exact hhistory.2 hclose
  · have hstepped := step_stepped ht.1 hstep
    refine ⟨hstepped.orderly, fun hmem => ?_⟩
    rcases mem_append.1 hmem with hmem | hmem
    · exact hstepped.later.closed (ht.2 hmem)
    · exact hstepped.closes (mem_singleton.1 hmem).symm

theorem started_of_closed (hs : s.Orderly) (hclosed : s.budget.closed = true)
    (es : List (Event Task)) : s.started es = [] := by
  induction es generalizing s with
  | nil => rfl
  | cons ev es ih =>
    rw [started]
    split
    · rfl
    next s' hstep =>
    have hstepped := step_stepped hs hstep
    have hnone : s'.startedBy ev = [] := eq_nil_iff_forall_not_mem.2 fun k hk =>
      Bool.false_ne_true ((hstepped.starts k hk).1.symm.trans hclosed)
    rw [hnone, ih hstepped.orderly (hstepped.later.closed hclosed), nil_append]

/-- An operation is started once, and not where its attempt is in the registry. -/
theorem nodup_started (hs : s.Orderly) (es : List (Event Task)) :
    (s.started es).Nodup ∧ ∀ k ∈ s.started es, s.budget.attempts.get? k = none := by
  induction es generalizing s with
  | nil => exact ⟨nodup_nil, by simp [started]⟩
  | cons ev es ih =>
    rw [started]
    split
    · exact ⟨nodup_nil, by simp⟩
    next s' hstep =>
    have hstepped := step_stepped hs hstep
    obtain ⟨hnodup, hnew⟩ := ih hstepped.orderly
    refine ⟨nodup_append.2 ⟨nodup_startedBy s' ev, hnodup, ?_⟩, fun k hk => ?_⟩
    · rintro k hk _ hk' rfl
      have hsome := (hstepped.starts k hk).2.2
      rw [hnew k hk'] at hsome
      cases hsome
    · rcases mem_append.1 hk with hk | hk
      · exact (hstepped.starts k hk).2.1
      · -- what is in the registry before the step is there after it
        by_contra hne
        obtain ⟨a, hget⟩ := ne_none_iff_exists'.1 hne
        obtain ⟨a', hget', -⟩ := hstepped.later.entries k a hget
        cases (hnew k hk).symm.trans hget'

end Run

/-- Whatever threads and tasks do with a budget: no operation is started twice; a settled
attempt stays as it is and an observed cost is not replaced; after an overrun or when the
run is closed nothing more is started; and the registry has its bound. -/
theorem lifecycle_run {budget maxAttempts maxDeniedRecords : Int} {B : AgentBudget}
    (hnew : AgentBudget.new budget maxAttempts maxDeniedRecords = some (.ok B))
    {es es' : List (Event Task)} {s t : System Task} (hs : run step (start B) es = some s)
    (ht : run step s es' = some t) :
    ((start B).started (es ++ es')).Nodup ∧
    (∀ k a, s.budget.attempts.get? k = some a → ∃ a', t.budget.attempts.get? k = some a' ∧
      (a.report.status.isSettled → a'.report = a.report) ∧
      ∀ cost, a.report.actualMicrocents = some cost → a'.report.actualMicrocents = some cost) ∧
    (s.budget.closed = true ∨ Event.close ∈ es ∨
      (∃ k a, s.budget.attempts.get? k = some a ∧ a.Overrun) → s.started es' = []) ∧
    (t.budget.attempts.entries.length : Int) ≤ maxAttempts := by
  obtain ⟨hregular, hmax⟩ := AgentBudget.Regular.new hnew
  have hstart : (start B : System Task).Orderly := .start hregular
  have horderly := orderly_run hstart hs
  refine ⟨(nodup_started hstart _).1, fun k a hget => ?_, fun hclosed => ?_, ?_⟩
  · obtain ⟨a', hget', hlater⟩ := (later_run horderly ht).entries k a hget
    exact ⟨a', hget', fun hsettled => by rw [hlater.settled hsettled], hlater.actual⟩
  · refine started_of_closed horderly ?_ es'
    rcases hclosed with hclosed | hclose | ⟨k, a, hget, hover⟩
    · exact hclosed
    · exact closed_run hstart hs hclose
    · exact horderly.regular.overrun k a hget hover
  · have hroom := (orderly_run horderly ht).regular.room
    have hmax' : t.budget.maxAttempts = maxAttempts := by
      rw [(later_run horderly ht).maxAttempts, (later_run hstart hs).maxAttempts]
      exact hmax
    rwa [hmax'] at hroom

attribute [local instance] neZero_two in
def lateTrace : List (Event (Fin 2)) :=
  [.reconcile "search" 10 [], .begin 0 "late" 1 [], .correct "draft" 22 "provider credit" [],
    .begin 1 "plan" 1 []]

theorem lifecycle_run_overrun : ∃ B, AgentBudget.new 100 3 10 = some (.ok B) ∧
    ∃ s t, run step (start B) overrunTrace = some s ∧ run step s lateTrace = some t ∧
      (start B).started (overrunTrace ++ lateTrace) = ["plan", "search", "draft"] ∧
      s.started lateTrace = [] ∧ (t.budget.attempts.entries.length : Int) ≤ 3 := by
  obtain ⟨B, hB, s, hs, t, ht, hclosed, hstarted⟩ : ∃ B,
      AgentBudget.new 100 3 10 = some (.ok B) ∧
      ∃ s ∈ run step (start B) overrunTrace, ∃ t ∈ run step s lateTrace, s.budget.closed = true ∧
        (start B).started (overrunTrace ++ lateTrace) = ["plan", "search", "draft"] :=
    exists_new (by decide +kernel)
  have hlife := lifecycle_run hB hs ht
  exact ⟨B, hB, s, t, hs, ht, hstarted, hlife.2.2.1 (.inl hclosed), hlife.2.2.2⟩

end System

end Calybris.Agent
