import Calybris.Budget.Pictures

/-!
# Calls that nobody interrupts

An owner that keeps the engine to itself and makes one call after the other. A call
then runs to its end: a compare-and-swap that finds another value than it expects has
read the new one, and only the failures of a weak compare-and-swap hold it up, which
are in the hands of the machine. Between the calls the engine shows its book.
-/

namespace Calybris.Budget

open Finset Function Transition Option

section Steps

variable {Tenant : Type*} [DecidableEq Tenant]

/-- How many steps a call has before it at most, without failures of weak
compare-and-swaps. A thread that has made no call comes before all that have. -/
def Pc.steps (e : Engine Tenant) : Pc Tenant → Nat
  | .idle none => 13
  | .idle (some _) => 0
  | .ensure .. | .setMaxReserved .. => 1
  | .topUp t _ stage =>
    match stage with
    | .lookup => 6
    | .lock => 5
    | .load _ => 4
    | .credit _ current => if e.remaining t = current then 2 else 3
    | .store .. => 1
  | .reserve t _ stage =>
    match stage with
    | .lookup => 12
    | .readLimit => 11
    | .loadTotal _ => 10
    | .increment _ current => if e.reservedTotal t = current then 8 else 9
    | .allocate => 7
    | .load _ => 6
    | .debit _ current => if e.remaining t = current then 4 else 5
    | .insert .. => 3
    | .undo _ => 2
    | .reportOverflow => 1
  | .lockCommit .. => 12
  | .commit _ r _ stage =>
    match stage with
    | .lookup => 11
    | .lockCommitted => 10
    | .load _ => 9
    | .debit _ current => if e.remaining r.tenant = current then 7 else 8
    | .store _ => 6
    | .refund => 5
    | .subtract => 4
    | .report => 3
    | .reinsert _ => 2
    | .reportOverflow => 1
  | .lockRelease _ => 4
  | .release _ _ stage =>
    match stage with
    | .lookup => 3
    | .subtract => 2
    | .refund => 1

variable {free : Mutex → Bool} {fails gateFree : Bool} {e : Engine Tenant} {p : Pc Tenant}

def Pc.Proceeds (p : Pc Tenant) (e : Engine Tenant) (fails : Bool)
    (next : Option (Engine Tenant × Pc Tenant)) : Prop :=
  ∃ e' p', next = some (e', p') ∧ p'.steps e' + (if fails then 0 else 1) ≤ p.steps e

section Proceeds

variable {e' : Engine Tenant} {p' : Pc Tenant}

omit [DecidableEq Tenant] in
theorem Pc.Proceeds.of_lt (h : p'.steps e' < p.steps e) : p.Proceeds e fails (some (e', p')) := by
  refine ⟨e', p', rfl, ?_⟩
  split <;> omega

omit [DecidableEq Tenant] in
theorem Pc.Proceeds.retry {x current : Int} {k : Nat} (hcas : ¬ (!fails && x == current) = true)
    (h : p.steps e = if x = current then k else k + 1) (h' : p'.steps e' = k) :
    p.Proceeds e fails (some (e', p')) := by
  refine ⟨e', p', rfl, ?_⟩
  rw [h, h']
  cases fails with
  | false =>
    have hne : x ≠ current := by simpa using hcas
    simp [hne]
  | true =>
    simp only [if_true]
    split <;> omega

end Proceeds

theorem topUpTenant_proceeds {t : Tenant} {a : Int} {stage : TopUpStage}
    (hfree : ∀ m, free m = !(Pc.topUp t a stage).holds m) :
    (Pc.topUp t a stage).Proceeds e fails (topUpTenant free fails e t a stage) := by
  cases stage with
  | lookup =>
    simp only [topUpTenant]
    split <;> exact .of_lt (by simp [Pc.steps])
  | lock =>
    have hlock : free .initials = true := hfree .initials
    simp only [topUpTenant]
    rw [if_pos hlock]
    split
    · exact .of_lt (by simp [Pc.steps])
    · split <;> exact .of_lt (by simp [Pc.steps])
  | load | store => exact .of_lt (by simp [Pc.steps])
  | credit newInitial current =>
    have hpos : 0 < (if e.remaining t = current then 2 else 3) - 1 := by split <;> omega
    simp only [topUpTenant]
    split
    · exact .of_lt (by simp only [Pc.steps]; omega)
    · split
      · exact .of_lt (by simp only [Pc.steps]; omega)
      · next hcas => exact .retry hcas rfl (if_pos rfl)

theorem tryReserve_proceeds {t : Tenant} {c : Int} {stage : ReserveStage}
    (hfree : ∀ m, free m = !(Pc.reserve t c stage).holds m) :
    (Pc.reserve t c stage).Proceeds e fails (tryReserve free fails e t c stage) := by
  cases stage with
  | lookup | allocate =>
    simp only [tryReserve]
    split <;> exact .of_lt (by simp [Pc.steps])
  | readLimit | load | loadTotal | reportOverflow => exact .of_lt (by simp [Pc.steps])
  | increment max current =>
    have hpos : 7 < if e.reservedTotal t = current then 8 else 9 := by split <;> omega
    simp only [tryReserve]
    split
    · exact .of_lt (by simp only [Pc.steps]; omega)
    · split
      · exact .of_lt (by simp only [Pc.steps]; omega)
      · split
        · exact .of_lt hpos
        · next hcas => exact .retry hcas rfl (if_pos rfl)
  | undo insufficient => cases insufficient <;> exact .of_lt (by simp [Pc.steps])
  | debit id current =>
    have hpos : 3 < if e.remaining t = current then 4 else 5 := by split <;> omega
    simp only [tryReserve]
    split
    · exact .of_lt (by simp only [Pc.steps]; omega)
    · split
      · exact .of_lt hpos
      · next hcas => exact .retry hcas rfl (if_pos rfl)
  | insert id remaining =>
    have hlock : free .reservations = true := hfree .reservations
    simp only [tryReserve]
    rw [if_pos hlock]
    exact .of_lt (by simp [Pc.steps])

theorem commit_proceeds {id : Nat} {r : ReservationRecord Tenant} {actual : Int}
    {stage : CommitStage} (hfree : ∀ m, free m = !(Pc.commit id r actual stage).holds m) :
    (Pc.commit id r actual stage).Proceeds e fails (commit free fails e id r actual stage) := by
  cases stage with
  | lookup | subtract =>
    simp only [commit]
    split <;> exact .of_lt (by simp [Pc.steps])
  | lockCommitted =>
    have hlock : free .committed = true := hfree .committed
    simp only [commit]
    rw [if_pos hlock]
    split
    · exact .of_lt (by simp [Pc.steps])
    · split <;> exact .of_lt (by simp [Pc.steps])
  | load newCommitted =>
    exact .of_lt (by simp [Pc.steps])
  | debit newCommitted current =>
    have hpos : 6 < if e.remaining r.tenant = current then 7 else 8 := by split <;> omega
    simp only [commit]
    split
    · exact .of_lt (by simp only [Pc.steps]; omega)
    · split
      · exact .of_lt hpos
      · next hcas => exact .retry hcas rfl (if_pos rfl)
  | reinsert overrun => cases overrun <;> exact .of_lt (by simp [Pc.steps])
  | store newCommitted =>
    by_cases hdelta : wrap (actual - r.reserved) < 0 <;>
      exact .of_lt (by simp [hdelta, Pc.steps])
  | reportOverflow | refund | report => exact .of_lt (by simp [Pc.steps])

theorem release_proceeds {id : Nat} {r : ReservationRecord Tenant} {stage : ReleaseStage} :
    (Pc.release id r stage).Proceeds e fails (release e id r stage) := by
  cases stage with
  | lookup | subtract =>
    simp only [release]
    split <;> exact .of_lt (by simp [Pc.steps])
  | refund => exact .of_lt (by simp [Pc.steps])

/-- A call that has the engine to itself never waits. -/
theorem advance_proceeds (hp : p.inProgress) (hfree : ∀ m, free m = !p.holds m)
    (hgate : gateFree = !p.inGate) : p.Proceeds e fails (advance free fails e gateFree p) := by
  cases p with
  | idle last => cases hp
  | ensure t b =>
    simp only [advance, tryEnsureTenant]
    rw [hfree, hfree]
    exact .of_lt (by simp [Pc.steps])
  | setMaxReserved t m =>
    simp only [advance, trySetMaxReserved]
    rw [hgate]
    exact .of_lt (by simp [Pc.steps])
  | topUp t a stage => exact topUpTenant_proceeds hfree
  | reserve t c stage => exact tryReserve_proceeds hfree
  | lockCommit id actual =>
    have hlock : free .reservations = true := hfree .reservations
    simp only [advance, lockCommit]
    rw [if_pos hlock]
    split <;> exact .of_lt (by simp [Pc.steps])
  | commit id r actual stage => exact commit_proceeds hfree
  | lockRelease id =>
    have hlock : free .reservations = true := hfree .reservations
    simp only [advance, lockRelease]
    rw [if_pos hlock]
    split <;> exact .of_lt (by simp [Pc.steps])
  | release id r stage => exact release_proceeds

omit [DecidableEq Tenant] in
theorem Pc.steps_le (hp : p.inProgress) : p.steps e ≤ 12 := by
  have hite : ∀ (c : Prop) [Decidable c] (k : Nat), k ≤ 11 → (if c then k else k + 1) ≤ 12 := by
    intro c _ k hk
    split <;> omega
  cases p with
  | idle last => cases hp
  | topUp t a stage => cases stage <;> first | exact hite _ 2 (by omega) | simp [Pc.steps]
  | reserve t c stage =>
    cases stage <;> first | exact hite _ 8 (by omega) | exact hite _ 4 (by omega) | simp [Pc.steps]
  | commit id r actual stage =>
    cases stage <;> first | exact hite _ 7 (by omega) | simp [Pc.steps]
  | release id r stage => cases stage <;> simp [Pc.steps]
  | _ => simp [Pc.steps]

end Steps

variable {Tenant : Type*} [LinearOrder Tenant]

/-! ### A call from beginning to end -/

namespace Shared

attribute [local instance] neZero_one

/-- The call goes on until it returns. `weak` says which of its steps find a weak
compare-and-swap failing. -/
def finish : Nat → List Bool → Shared Tenant 1 1 → Option (Shared Tenant 1 1 × Outcome)
  | 0, _, _ => none
  | fuel + 1, weak, s =>
    match s.core.pc 0 with
    | .idle last => last.map fun outcome => (s, outcome)
    | _ => (s.step (.core (.advance 0 (weak.headD false)))).bind (finish fuel weak.tail)

def perform (s : Shared Tenant 1 1) (weak : List Bool) (call : Call Tenant) :
    Option (Shared Tenant 1 1 × Outcome) :=
  (s.step (.core (.call 0 call))).bind (finish (weak.length + 13) weak)

/-- `try_snapshot` by the only observer, while no call is on its way. -/
def trySnapshot (s : Shared Tenant 1 1) :
    Option (Shared Tenant 1 1 × Except SnapshotAllocatorError (BudgetSnapshot Tenant)) :=
  (s.step (.trySnapshot 0)).bind fun s => (s.step (.observe 0)).bind fun s =>
    match s.observers 0 with
    | .taken _ _ result => (s.step (.observe 0)).map fun s => (s, result)
    | _ => none

end Shared

section Finish

variable {s s' : Shared Tenant 1 1} {weak : List Bool} {fuel : Nat} {c : Call Tenant}
  {o : Outcome}

omit [LinearOrder Tenant] in
theorem State.free_one (s : State Tenant 1) (m : Mutex) : s.free m = !(s.pc 0).holds m := by
  simp [State.free, Fin.forall_fin_one]

omit [LinearOrder Tenant] in
theorem State.gateFree_one (s : State Tenant 1) : s.gateFree = !(s.pc 0).inGate := by
  simp [State.gateFree, Fin.forall_fin_one]

theorem State.advance_one (s : State Tenant 1) (fails : Bool) (hp : (s.pc 0).inProgress) :
    (s.pc 0).Proceeds s.engine fails (advance s.free fails s.engine s.gateFree (s.pc 0)) :=
  advance_proceeds hp s.free_one s.gateFree_one

theorem Shared.finish_of_inProgress (h : (s.core.pc 0).inProgress) :
    s.finish (fuel + 1) weak =
      (s.step (.core (.advance 0 (weak.headD false)))).bind (finish fuel weak.tail) := by
  rw [finish]
  split
  · next hp => simp [hp] at h
  · rfl

theorem Shared.finish_of_idle (h : s.core.pc 0 = .idle (some o)) :
    s.finish (fuel + 1) weak = some (s, o) := by
  simp [finish, h]

omit [LinearOrder Tenant] in
theorem Pc.inProgress_or_idle {e : Engine Tenant} {p : Pc Tenant} (hle : p.steps e ≤ 12) :
    p.inProgress ∨ ∃ o, p = .idle (some o) := by
  cases p with
  | idle last =>
    cases last with
    | none => simp [Pc.steps] at hle
    | some o => exact .inr ⟨o, rfl⟩
  | _ => exact .inl rfl

/-- With as much fuel as the call has steps before it, and one for each failure of a
weak compare-and-swap, the call returns. -/
theorem Shared.exists_finish (hfuel : (s.core.pc 0).steps s.core.engine + weak.length < fuel)
    (hle : (s.core.pc 0).steps s.core.engine ≤ 12) :
    ∃ s' o, s.finish fuel weak = some (s', o) := by
  induction fuel generalizing s weak with
  | zero => omega
  | succ fuel ih =>
    rcases Pc.inProgress_or_idle hle with hp | ⟨o, hp⟩
    · obtain ⟨e', p', hadvance, hsteps⟩ := s.core.advance_one (weak.headD false) hp
      have hweak : weak.tail.length + (if weak.headD false then 1 else 0) ≤ weak.length := by
        cases weak with
        | nil => exact le_rfl
        | cons w weak => cases w <;> simp
      have hless : p'.steps e' + weak.tail.length < fuel ∧ p'.steps e' ≤ 12 := by
        split at hsteps
        · next hfails =>
          rw [if_pos hfails] at hweak
          omega
        · omega
      rw [finish_of_inProgress hp, step, State.step, hadvance]
      simp only [map_some, bind_some]
      apply ih
      · simpa only [update_self] using hless.1
      · simpa only [update_self] using hless.2
    · exact ⟨s, o, finish_of_idle hp⟩

omit [LinearOrder Tenant] in
theorem Call.start_ne_idle_none (c : Call Tenant) : c.start ≠ .idle none := by
  cases c with
  | release id => simp [Call.start]
  | _ =>
    simp only [Call.start]
    split <;> simp

theorem Shared.exists_perform (weak : List Bool) (c : Call Tenant)
    (hidle : (s.core.pc 0).inProgress = false) :
    ∃ s' o, s.perform weak c = some (s', o) := by
  have hsteps : c.start.steps s.core.engine ≤ 12 := by
    cases hp : c.start with
    | idle last =>
      cases last with
      | none => exact absurd hp (Call.start_ne_idle_none c)
      | some o => simp [Pc.steps]
    | _ => exact Pc.steps_le rfl
  rw [perform, step, State.step, if_neg (by rw [hidle]; exact Bool.false_ne_true)]
  simp only [map_some, bind_some]
  apply exists_finish
  · simp only [update_self]
    omega
  · simpa only [update_self] using hsteps

end Finish

/-! ### What the call reports -/

section Reports

variable {n : Nat} {h : History Tenant n} {i : Fin n}

/-- The only caller made the call `c` when the operations `before` had been reported. -/
inductive Serving (before : List (Op Tenant)) (c : Call Tenant) (s : Shared Tenant 1 1) : Prop
  | under_way (began : Nat) (hprogress : (s.core.pc 0).inProgress)
      (hcall : s.history.calls 0 = some (began, c)) (hops : s.history.ops = before)
  | returned (o : Outcome) (hpc : s.core.pc 0 = .idle (some o))
      (hops : s.history.ops = before ++ (c.request.op o).toList)

variable {s s' : Shared Tenant 1 1} {before : List (Op Tenant)} {c : Call Tenant}
  {weak : List Bool} {fuel : Nat} {o : Outcome}

omit [LinearOrder Tenant] in
theorem Serving.arrive {began : Nat} {history : History Tenant 1} {e : Engine Tenant}
    {p : Pc Tenant} {pc : Fin 1 → Pc Tenant} {registry : Registry Tenant}
    {observers : Fin 1 → Observer Tenant} (hp : p ≠ .idle none)
    (hcall : history.calls 0 = some (began, c)) (hops : history.ops = before) :
    Serving before c ⟨⟨e, update pc 0 p⟩, registry, observers, history.arrive 0 p⟩ := by
  have hcalls : (history.arrive 0 p).calls 0 = some (began, c) :=
    (congrFun History.calls_arrive 0).trans hcall
  cases p with
  | idle last =>
    cases last with
    | none => exact absurd rfl hp
    | some o =>
      refine .returned o (update_self 0 _ pc) ?_
      rw [← hops]
      simp only [History.arrive, hcall, History.ops, List.filterMap_append]
      congr 1
  | _ => exact .under_way began (by simp only [update_self]; rfl) hcalls hops

theorem Serving.finish (h : Serving before c s) (hfinish : s.finish fuel weak = some (s', o)) :
    (∃ es, run Shared.step s es = some s') ∧ s'.core.pc 0 = .idle (some o) ∧
      s'.observers = s.observers ∧ s'.history.ops = before ++ (c.request.op o).toList := by
  induction fuel generalizing s weak with
  | zero => cases hfinish
  | succ fuel ih =>
    cases h with
    | returned o' hpc hops =>
      rw [Shared.finish_of_idle hpc, Option.some.injEq, Prod.mk.injEq] at hfinish
      obtain ⟨rfl, rfl⟩ := hfinish
      exact ⟨⟨[], rfl⟩, hpc, rfl, hops⟩
    | under_way began hprogress hcall hops =>
      obtain ⟨e', p', hadvance, hsteps⟩ := s.core.advance_one (weak.headD false) hprogress
      have hp' : p' ≠ .idle none := by
        rintro rfl
        have hlast : (Pc.idle none : Pc Tenant).steps e' = 13 := rfl
        have hle := Pc.steps_le (e := s.core.engine) hprogress
        omega
      have hstep : s.step (.core (.advance 0 (weak.headD false))) =
          some ⟨⟨e', update s.core.pc 0 p'⟩, s.keep (s.core.pc 0), s.observers,
            s.history.arrive 0 p'⟩ := by
        simp only [Shared.step, State.step, hadvance, map_some, update_self]
      rw [Shared.finish_of_inProgress hprogress, hstep, bind_some] at hfinish
      obtain ⟨⟨es, hrun⟩, hpc, hobservers, hops'⟩ := ih (.arrive hp' hcall hops) hfinish
      exact ⟨⟨_ :: es, run_cons_eq_some_iff.2 ⟨_, hstep, hrun⟩⟩, hpc, hobservers, hops'⟩

end Reports

/-! ### Between the calls -/

theorem Shared.capture_spec (s : Shared Tenant 1 1)
    (next : Except SnapshotAllocatorError (BudgetSnapshot Tenant) → Observer Tenant) :
    (s.capture 0 next).observers 0 =
        next (if s.core.engine.nextId < recoveryAllocatorMask then
          .ok (s.core.engine.picture s.registry.tenants) else .error .allocatorExhausted) ∧
      (s.capture 0 next).core.pc = s.core.pc ∧
      (s.capture 0 next).history.replies = s.history.replies := by
  rw [capture_eq]
  split <;> exact ⟨update_self 0 _ s.observers, rfl, rfl⟩

theorem Shared.observe_taken {s : Shared Tenant 1 1} {began captured : Nat}
    {result : Except SnapshotAllocatorError (BudgetSnapshot Tenant)}
    (h : s.observers 0 = .taken began captured result) :
    ∃ s', s.step (.observe 0) = some s' ∧ s'.core = s.core ∧
      s'.history.replies = s.history.replies ∧ s'.observers 0 = .idle := by
  cases result with
  | error err =>
    refine ⟨s.move 0 .idle, ?_, rfl, rfl, update_self 0 _ s.observers⟩
    simp only [step, observe, h]
  | ok snapshot =>
    simp only [step, observe, h]
    exact ⟨_, rfl, rfl, rfl, update_self 0 _ s.observers⟩

structure Rests (s : Shared Tenant 1 1) (b : Book Tenant) : Prop where
  tracks : ∃ ops, Tracks s ops b
  idle : (s.core.pc 0).inProgress = false
  observer : s.observers 0 = .idle

namespace Rests

variable {s s' : Shared Tenant 1 1} {b : Book Tenant} {c : Call Tenant} {weak : List Bool}
  {o : Outcome}

theorem init : Rests (Shared.init : Shared Tenant 1 1) Book.empty :=
  ⟨⟨[], Tracks.init⟩, rfl, rfl⟩

theorem gateFree (h : Rests s b) : s.core.gateFree := by
  rw [State.gateFree_one]
  obtain ⟨last, hlast⟩ := Pc.eq_idle h.idle
  rw [hlast]
  rfl

/-- What the callers were told in between is what happened to the book. -/
theorem of_run (h : Rests s b) {es : List (Shared.Event Tenant 1 1)}
    (hrun : run Shared.step s es = some s') {op : Option (Op Tenant)}
    (hops : s'.history.ops = s.history.ops ++ op.toList)
    (hidle : (s'.core.pc 0).inProgress = false) (hobserver : s'.observers 0 = .idle) :
    ∃ b', run Book.apply b op.toList = some b' ∧ Rests s' b' := by
  obtain ⟨ops, htracks⟩ := h.tracks
  obtain ⟨new, b', htracks'⟩ := htracks.run hrun
  have hrests' : Rests s' b' := ⟨⟨_, htracks'⟩, hidle, hobserver⟩
  have hperm : new.Perm op.toList := by
    have hold := htracks.perm_ops_of_gateFree h.gateFree
    have hnew := htracks'.perm_ops_of_gateFree hrests'.gateFree
    rw [hops] at hnew
    exact (List.perm_append_left_iff ops).1 (hnew.trans (hold.symm.append_right _))
  have heq : new = op.toList := by
    cases op with
    | none => exact List.perm_nil.1 hperm
    | some op => exact List.perm_singleton.1 hperm
  refine ⟨b', ?_, hrests'⟩
  rw [← heq, ← run_append htracks.booked]
  exact htracks'.booked

theorem perform (h : Rests s b) (hperform : s.perform weak c = some (s', o)) :
    ∃ b', run Book.apply b (c.request.op o).toList = some b' ∧ Rests s' b' := by
  rw [Shared.perform, bind_eq_some_iff] at hperform
  obtain ⟨u, hcall, hfinish⟩ := hperform
  have hu : u = ⟨⟨s.core.engine, update s.core.pc 0 c.start⟩, s.registry, s.observers,
      (s.history.begin 0 c).arrive 0 c.start⟩ := by
    simp only [Shared.step, State.step, if_neg (ne_true_of_eq_false h.idle), map_some,
      Option.some.injEq, update_self] at hcall
    exact hcall.symm
  have hserving : Serving s.history.ops c u := by
    rw [hu]
    exact .arrive c.start_ne_idle_none (update_self 0 _ s.history.calls) rfl
  obtain ⟨⟨es, hrun⟩, hpc, hobservers, hops⟩ := hserving.finish hfinish
  refine h.of_run (run_cons_eq_some_iff.2 ⟨u, hcall, hrun⟩) hops (by rw [hpc]; rfl) ?_
  rw [hobservers, hu]
  exact h.observer

/-- A snapshot is the picture of the moment, and leaves the book alone. -/
theorem trySnapshot (h : Rests s b) : ∃ s', Rests s' b ∧
    s.trySnapshot = some (s', if s.core.engine.nextId < recoveryAllocatorMask then
      .ok (s.core.engine.picture s.registry.tenants) else .error .allocatorExhausted) := by
  have hasked : s.step (.trySnapshot 0) = some (s.move 0 (.snapshot s.history.clock)) := by
    simp only [Shared.step, h.observer]
  obtain ⟨taken, htaken, hobserver, hpc, hreplies⟩ : ∃ taken,
      (s.move 0 (.snapshot s.history.clock)).step (.observe 0) = some taken ∧
      taken.observers 0 = .taken s.history.clock (s.history.clock + 1)
        (if s.core.engine.nextId < recoveryAllocatorMask then
          .ok (s.core.engine.picture s.registry.tenants) else .error .allocatorExhausted) ∧
      taken.core.pc = s.core.pc ∧ taken.history.replies = s.history.replies := by
    have hobserver : (s.move 0 (.snapshot s.history.clock)).observers 0 =
        .snapshot s.history.clock := update_self 0 _ s.observers
    have hgate : (s.move 0 (.snapshot s.history.clock)).core.gateFree := h.gateFree
    refine ⟨_, ?_, (s.move 0 (.snapshot s.history.clock)).capture_spec _⟩
    simp only [Shared.step, Shared.observe, hobserver, if_pos hgate]
    rfl
  obtain ⟨s', hgiven, hcore, hreplies', hidle⟩ := Shared.observe_taken hobserver
  have hrun : run Shared.step s [.trySnapshot 0, .observe 0, .observe 0] = some s' := by
    simp only [run, hasked, htaken, hgiven, bind_some]
  have hops : s'.history.ops = s.history.ops ++ (none : Option (Op Tenant)).toList := by
    rw [History.ops, History.ops, hreplies', hreplies, toList_none, List.append_nil]
  obtain ⟨b', hb', hrests⟩ := h.of_run hrun hops (by rw [hcore, hpc, h.idle]) hidle
  cases hb'
  refine ⟨s', hrests, ?_⟩
  simp only [Shared.trySnapshot, hasked, htaken, hobserver, hgiven, bind_some, map_some]

end Rests

end Calybris.Budget
