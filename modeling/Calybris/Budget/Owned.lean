import Calybris.Budget.Exposure

/-!
# Owned reservations

`Reservation` wraps the identifier of a hold so that it can be settled once: `commit`
takes it by value and gives it back only with an overrun. The engine keeps the hold in
more cases than that. It does so for a negative amount, and where the committed total of
the tenant would leave `i64`; the caller is then told `Ok`, has no reservation any more,
and the hold stays open.
-/

namespace Calybris.Budget

open Finset Function Transition Option Shared

variable {Tenant : Type*}

/-- The reservation, apart from the engine that it borrows. -/
structure Reservation where
  id : UInt64
  amountMicrocents : Int64

def reserveOwned (cost : Int64) (result : BudgetReservation) (id : Option Nat) :
    Except BudgetReservation Reservation :=
  match result, id with
  | .reserved _, some id => .ok ⟨.ofNat id, cost⟩
  | refused, _ => .error refused

def Reservation.commit (reservation : Reservation) :
    BudgetSettlement → Except (BudgetSettlement × Reservation) BudgetSettlement
  | .overrun remaining => .error (.overrun remaining, reservation)
  | settled => .ok settled

/-- A call of `reserve_owned` returned the reservation. -/
def History.Owns {n : Nat} (h : History Tenant n) (reservation : Reservation) : Prop :=
  ∃ r ∈ h.replies, ∃ t cost result id, r.call = .tryReserve t cost ∧
    r.outcome = .reservation result id ∧ reserveOwned cost result id = .ok reservation

theorem reserveOwned_eq_ok {cost : Int64} {result : BudgetReservation} {id : Option Nat}
    {reservation : Reservation} (h : reserveOwned cost result id = .ok reservation) :
    ∃ k, id = some k ∧ reservation.id = .ofNat k := by
  unfold reserveOwned at h
  split at h
  · cases h
    exact ⟨_, rfl, rfl⟩
  · cases h

section

variable [LinearOrder Tenant] {n m : Nat} {s s' : Shared Tenant n m} {b : Book Tenant}

/-! ### Identifiers that were given out -/

omit [LinearOrder Tenant] in
theorem Pc.pendingId_of_allocated {p : Pc Tenant} {id : Nat} (h : p.allocated = some id) :
    p.pendingId = some id := by
  cases p with
  | reserve t c stage => cases stage <;> exact h
  | _ => cases h

def Shared.Issued (s : Shared Tenant n m) : Prop :=
  ∀ r ∈ s.history.replies, ∀ id, r.issued = some id →
    id < s.core.engine.nextId ∧ ∀ i, (s.core.pc i).allocated ≠ some id

/-- An identifier that is returned now was in the hands of one reservation, which ends. -/
theorem Kept.issued_returns (h : Kept s b) {r : Reply Tenant} (hreturns : s.Returns s' r) {id : Nat}
    (hid : r.issued = some id) :
    id < s'.core.engine.nextId ∧ ∀ i, (s'.core.pc i).allocated ≠ some id := by
  cases hreturns with
  | atOnce hidle hstart hcore =>
    rw [Reply.issued, Call.issued_start hstart] at hid
    cases hid
  | @atLast i fails e' hadvance hcall hrequest hended hcore =>
    cases advance_allocation hadvance with
    | keep hnext hp hnone =>
      rw [Reply.issued, hnone _ rfl] at hid
      cases hid
    | allot hlt hnext hp hprogress => cases hprogress
    | @issue id' result hnext hp hlast =>
      obtain rfl : id' = id := by
        rw [Reply.issued, some.inj (Pc.idle.inj hlast)] at hid
        exact some.inj hid
      have hpending := Pc.pendingId_of_allocated hp
      rw [hcore]
      refine ⟨hnext ▸ ((h.inv.locally i).pending id' hpending).1, fun j hj => ?_⟩
      rcases Pc.allocated_update hj with ⟨-, hidle⟩ | ⟨hne, hj⟩
      · cases hidle
      · exact hne (h.inv.distinct j i id' (Pc.pendingId_of_allocated hj) hpending)

theorem Shared.Issued.step (h : s.Issued) (hkept : Kept s b) (hstep : s.Step s') :
    s'.Issued := by
  intro r hr id hid
  -- What was returned before stays below the allocator, which gives new identifiers only.
  have hold (hr : r ∈ s.history.replies) :
      id < s'.core.engine.nextId ∧ ∀ i, (s'.core.pc i).allocated ≠ some id := by
    obtain ⟨hlt, hnot⟩ := h r hr id hid
    cases hstep.allots with
    | keep hnext hpc _ => exact ⟨hnext ▸ hlt, fun i hi => hnot i (hpc i id hi)⟩
    | allot _ hnext hpc _ =>
      refine ⟨by omega, fun i hi => ?_⟩
      rcases hpc i id hi with ⟨-, rfl⟩ | hi
      · exact lt_irrefl _ hlt
      · exact hnot i hi
    | issue hnext _ hpc _ => exact ⟨hnext ▸ hlt, fun i hi => hnot i (hpc i id hi).2⟩
    | capture _ hnext hpc _ => exact ⟨by omega, fun i hi => hnot i (hpc ▸ hi)⟩
  rcases hstep.replies with hsame | ⟨r', hreply⟩
  · exact hold (hsame ▸ hr)
  · rw [hreply, List.mem_append, List.mem_singleton] at hr
    rcases hr with hr | rfl
    · exact hold hr
    · exact hkept.issued_returns (hstep.returns hkept.serves hreply) hid

/-! ### How a commit returns -/

inductive Settles (free : Mutex → Bool) (e : Engine Tenant) (id : Nat) (actual : Int) :
    Pc Tenant → Engine Tenant → BudgetSettlement → Prop
  | missing (hfree : free .reservations) (hnone : e.reservations id = none) :
      Settles free e id actual (.lockCommit id actual) e .missingReservation
  | missingTenant {r} (hnone : e.tenantBudgets r.tenant = none) :
      Settles free e id actual (.commit id r actual .lookup) (e.insertReservation id r)
        .missingTenant
  | overrun {r remaining} :
      Settles free e id actual (.commit id r actual (.reinsert (some remaining)))
        (e.insertReservation id r) (.overrun remaining)
  | overflow {r} :
      Settles free e id actual (.commit id r actual .reportOverflow) e
        (.overflow (e.remaining r.tenant))
  | committed {r} :
      Settles free e id actual (.commit id r actual .report) e
        (.committed (e.remaining r.tenant) actual)

theorem advance_settles {free : Mutex → Bool} {fails gateFree : Bool} {e e' : Engine Tenant}
    {p : Pc Tenant} {id : Nat} {actual : Int} {settlement : BudgetSettlement}
    (h : advance free fails e gateFree p = some (e', .idle (some (.settlement settlement))))
    (hrequest : p.request = some (.commit id actual)) :
    Settles free e id actual p e' settlement := by
  cases p with
  | lockCommit id' actual' =>
    obtain ⟨rfl, rfl⟩ := Request.commit.inj (some.inj hrequest)
    simp only [advance, lockCommit] at h
    split at h
    · next hfree =>
      split at h
      · next hnone =>
        cases h
        exact .missing hfree hnone
      · cases h
    · cases h
  | commit id' r actual' stage =>
    obtain ⟨rfl, rfl⟩ := Request.commit.inj (some.inj hrequest)
    cases stage with
    | lookup =>
      simp only [advance, commit] at h
      split at h
      · cases h
      · next hnone =>
        cases h
        exact .missingTenant hnone
    | reinsert overrun =>
      cases overrun with
      | none => cases h
      | some remaining =>
        cases h
        exact .overrun
    | reportOverflow =>
      cases h
      exact .overflow
    | report =>
      cases h
      exact .committed
    | _ =>
      simp only [advance, commit] at h
      (repeat' split at h) <;> cases h
  | _ => cases hrequest

/-- What a commit knows in each stage, where `c` was committed for the tenant when it took
the record out. -/
def CommitStage.Found (e : Engine Tenant) (id : Nat) (r : ReservationRecord Tenant)
    (actual c : Int) : CommitStage → Prop
  | .lookup | .lockCommitted => e.committed r.tenant = c
  | .reinsert none => ¬ InI64 (c + actual)
  | .reportOverflow => ¬ InI64 (c + actual) ∧ e.reservations id = some r
  | _ => InI64 (c + actual)

def State.Finding (s : State Tenant n) (i : Fin n) (id : Nat) (r : ReservationRecord Tenant)
    (actual c : Int) : Prop :=
  ∃ stage, s.pc i = .commit id r actual stage ∧ stage.Found s.engine id r actual c

section Found

variable {free : Mutex → Bool} {fails gateFree : Bool} {e e' : Engine Tenant} {p p' : Pc Tenant}
  {id : Nat} {r : ReservationRecord Tenant} {actual c : Int}

theorem CommitStage.Found.commit {stage : CommitStage} (hfound : stage.Found e id r actual c)
    (h : Budget.commit free fails e id r actual stage = some (e', p')) (hprogress : p'.inProgress) :
    ∃ stage', p' = .commit id r actual stage' ∧ stage'.Found e' id r actual c := by
  cases stage with
  | lockCommitted =>
    simp only [Budget.commit, checkedAdd, show e.committed r.tenant = c from hfound] at h
    split at h
    · by_cases hin : InI64 (c + actual)
      · rw [if_pos hin] at h
        simp only at h
        split at h <;> cases h <;> exact ⟨_, rfl, hin⟩
      · rw [if_neg hin] at h
        cases h
        exact ⟨_, rfl, hin⟩
    · cases h
  | reinsert overrun =>
    cases overrun with
    | none =>
      cases h
      exact ⟨_, rfl, hfound, update_self _ _ _⟩
    | some remaining =>
      cases h
      cases hprogress
  | store newCommitted =>
    cases h
    exact ⟨_, rfl, by split <;> exact hfound⟩
  | _ =>
    -- The stage that comes next knows the same, or the call returns.
    simp only [Budget.commit] at h
    (repeat' split at h) <;> cases h <;> first | cases hprogress; done | exact ⟨_, rfl, hfound⟩

/-- As long as another thread has the lock of the map, the map and what is committed for
a known tenant stay as they are. -/
theorem advance_leaves (h : advance free fails e gateFree p = some (e', p'))
    (hp : p.holds .reservations = false) (hfree : free .reservations = false) :
    e'.reservations = e.reservations ∧
      ∀ t, (e.tenantBudgets t).isSome → e'.committed t = e.committed t := by
  cases p with
  | idle => cases h
  | commit id r a stage => cases stage <;> cases hp
  | release => cases hp
  | lockCommit | lockRelease => simp [advance, lockCommit, lockRelease, hfree] at h
  | ensure t b =>
    simp only [advance, tryEnsureTenant] at h
    split at h
    · cases h
      split
      · next hnone =>
        refine ⟨rfl, fun t' ht' => ?_⟩
        have hne : t' ≠ t := by
          rintro rfl
          simp [isNone_iff_eq_none.1 hnone] at ht'
        simp [Engine.committed, Engine.insertTenant, update_of_ne hne]
      · exact ⟨rfl, fun _ _ => rfl⟩
    · cases h
  | setMaxReserved t x =>
    simp only [advance, trySetMaxReserved] at h
    split at h <;> cases h
    exact ⟨rfl, fun _ _ => rfl⟩
  | topUp t a stage =>
    cases stage <;> simp only [advance, topUpTenant] at h <;> (repeat' split at h) <;> cases h <;>
      exact ⟨rfl, fun _ _ => rfl⟩
  | reserve t x stage =>
    cases stage with
    | insert => simp [advance, tryReserve, hfree] at h
    | undo insufficient => cases insufficient <;> cases h <;> exact ⟨rfl, fun _ _ => rfl⟩
    | _ =>
      simp only [advance, tryReserve] at h
      (repeat' split at h) <;> cases h <;> exact ⟨rfl, fun _ _ => rfl⟩

end Found

/-- While the commit is under way, what it found stays so: it has the lock. -/
theorem Kept.finding_step (h : Kept s b) {i : Fin n} {id : Nat} {r : ReservationRecord Tenant}
    {actual c : Int} (hfinding : s.core.Finding i id r actual c) (hstep : s.Step s')
    (hprogress : (s'.core.pc i).inProgress) : s'.core.Finding i id r actual c := by
  obtain ⟨stage, hp, hfound⟩ := hfinding
  -- A step that leaves the thread, the map and what is committed alone.
  have hsame {e' : Engine Tenant} (hmap : e'.reservations = s.core.engine.reservations)
      (hcommitted : e'.committed r.tenant = s.core.engine.committed r.tenant) :
      stage.Found e' id r actual c := by
    cases stage with
    | reinsert overrun => cases overrun <;> exact hfound
    | _ => simpa only [CommitStage.Found, hmap, hcommitted] using hfound
  cases hstep with
  | @call j c' hidle =>
    have hij : i ≠ j := by
      rintro rfl
      rw [hp] at hidle
      cases hidle
    exact ⟨stage, (update_of_ne hij _ _).trans hp, hfound⟩
  | @advance j fails e' p' hadvance =>
    by_cases hij : i = j
    · subst hij
      simp only [update_self] at hprogress
      rw [hp] at hadvance
      obtain ⟨stage', rfl, hfound'⟩ := hfound.commit hadvance hprogress
      exact ⟨stage', update_self _ _ _, hfound'⟩
    · have hlock : (s.core.pc i).holds .reservations := by rw [hp]; cases stage <;> rfl
      have hother : (s.core.pc j).holds .reservations = false :=
        (h.inv.exclusive .reservations).eq_false_of_ne (.inl hlock) (Ne.symm hij)
      have hfree : s.core.free .reservations = false := by
        rw [State.free, decide_eq_false_iff_not]
        intro hall
        rw [hall i] at hlock
        cases hlock
      have hknown := (h.inv.locally i).known r.tenant (by rw [hp]; rfl)
      obtain ⟨hmap, hcommitted⟩ := advance_leaves hadvance hother hfree
      exact ⟨stage, (update_of_ne hij _ _).trans hp, hsame hmap (hcommitted _ hknown)⟩
  | take => exact ⟨stage, hp, hsame rfl rfl⟩
  | ask | refuse | give | fail | certify => exact ⟨stage, hp, hfound⟩

/-! ### Commits of owned reservations -/

section NotOpen

variable {id : Nat} {i : Fin n} {r : ReservationRecord Tenant}

omit [LinearOrder Tenant] in
/-- An identifier that was given out has its hold in the map, as long as nobody has the
lock of the map. -/
theorem Shared.open_iff_of_free (hfree : s.core.free .reservations)
    (hissued : ∀ j, (s.core.pc j).allocated ≠ some id) :
    s.core.Open id r ↔ s.core.engine.reservations id = some r := by
  refine or_iff_left ?_
  rintro ⟨j, hj⟩
  rcases Pc.done_or_holds_of_hold id r hj with hdone | hlock
  · obtain ⟨x, hp⟩ := Pc.done_eq_reserve hdone
    exact hissued j (by rw [hp]; rfl)
  · rw [of_decide_eq_true hfree j] at hlock
    cases hlock

theorem Kept.not_open_of_report (h : Kept s b) {r' : ReservationRecord Tenant} {actual : Int}
    (hp : s.core.pc i = .commit id r' actual .report) : ¬ s.core.Open id r := by
  have hpending : (s.core.pc i).pendingId = some id := by rw [hp]; rfl
  rintro (hr | ⟨j, hj⟩)
  · rw [((h.inv.locally i).pending id hpending).2] at hr
    cases hr
  · obtain rfl := h.inv.distinct j i id (Pc.pendingId_of_hold hj) hpending
    rw [hp] at hj
    cases hj

omit [LinearOrder Tenant] in
theorem State.open_of_idle {s : State Tenant n} {last : Option Outcome}
    (h : (⟨s.engine, update s.pc i (.idle last)⟩ : State Tenant n).Open id r) :
    s.Open id r := by
  refine h.imp_right fun hex => ?_
  rcases (exists_hold_update_iff s i (.idle last) (id, r)).1 hex with hidle | ⟨j, -, hj⟩
  · cases hidle
  · exact ⟨j, hj⟩

end NotOpen

/-- Steps in which the call of thread `i` does not return. -/
def Shared.Underway (i : Fin n) (s s' : Shared Tenant n m) : Prop :=
  (∃ event, s.step event = some s') ∧ (s'.core.pc i).inProgress

/-- A call of `commit` by thread `i`, from the state in which the engine looks for the hold
to the one in which it returns. A negative amount is refused where the call is made. -/
inductive Shared.Commits (s : Shared Tenant n m) (i : Fin n) (id : UInt64) (actual : Int64)
    (s' : Shared Tenant n m) : Prop
  | refused (hcall : s.step (.core (.call i (.commit id actual))) = some s')
  | missed {fails} (hp : s.core.pc i = .lockCommit id.toNat actual.toInt)
      (hlook : s.step (.core (.advance i fails)) = some s')
  | decided {fails event u u'} (hp : s.core.pc i = .lockCommit id.toNat actual.toInt)
      (hlook : s.step (.core (.advance i fails)) = some u) (hprogress : (u.core.pc i).inProgress)
      (hrest : Relation.ReflTransGen (Underway i) u u') (hlast : u'.step event = some s')

theorem Shared.core_of_advance {i : Fin n} {fails : Bool}
    (h : s.step (.core (.advance i fails)) = some s') : ∃ e' p',
      advance s.core.free fails s.core.engine s.core.gateFree (s.core.pc i) = some (e', p') ∧
        s'.core = ⟨e', update s.core.pc i p'⟩ := by
  simp only [step, State.step, Option.map_map, Option.map_eq_some_iff] at h
  obtain ⟨⟨e', p'⟩, hadvance, rfl⟩ := h
  exact ⟨e', p', hadvance, rfl⟩

/-- The step in which a call that is under way returns is one of its own. -/
theorem Shared.advance_of_returned {i : Fin n} {o : Outcome} (h : s.Step s')
    (hprogress : (s.core.pc i).inProgress) (hreturned : s'.core.pc i = .idle (some o)) :
    ∃ fails e', advance s.core.free fails s.core.engine s.core.gateFree (s.core.pc i) =
      some (e', .idle (some o)) ∧ s'.core = ⟨e', update s.core.pc i (.idle (some o))⟩ := by
  have hsame (h : s'.core.pc i = s.core.pc i) : False := by
    rw [← h, hreturned] at hprogress
    cases hprogress
  cases h with
  | @call j c hidle =>
    by_cases hij : i = j
    · subst hij
      rw [hidle] at hprogress
      cases hprogress
    · exact (hsame (update_of_ne hij _ _)).elim
  | @advance j fails e' p' hadvance =>
    by_cases hij : i = j
    · subst hij
      obtain rfl : p' = .idle (some o) := by simpa only [update_self] using hreturned
      exact ⟨fails, e', hadvance, rfl⟩
    · exact (hsame (update_of_ne hij _ _)).elim
  | take | ask | refuse | give | fail | certify => exact (hsame rfl).elim

theorem Kept.finding_rest (h : Kept s b) {i : Fin n} {id : Nat} {r : ReservationRecord Tenant}
    {actual c : Int} (hfinding : s.core.Finding i id r actual c)
    (hrest : Relation.ReflTransGen (Shared.Underway i) s s') :
    (∃ b, Kept s' b) ∧ s'.core.Finding i id r actual c := by
  induction hrest with
  | refl => exact ⟨⟨b, h⟩, hfinding⟩
  | tail hrest hnext ih =>
    obtain ⟨⟨b', hkept⟩, hfinding'⟩ := ih
    obtain ⟨⟨event, hstep⟩, hprogress⟩ := hnext
    obtain ⟨-, b'', -, hkept'⟩ := hkept.step (step_inv hstep)
    exact ⟨⟨b'', hkept'⟩, hkept.finding_step hfinding' (step_inv hstep) hprogress⟩

/-- A commit that found its hold keeps it open without giving it back exactly when the
committed total had no room. -/
theorem Kept.closes_iff (h : Kept s b) {i : Fin n} {reservation : Reservation}
    {r : ReservationRecord Tenant} {actual c : Int}
    (hfinding : s.core.Finding i reservation.id.toNat r actual c) (hstep : s.Step s')
    {settlement : BudgetSettlement}
    (hreturned : s'.core.pc i = .idle (some (.settlement settlement))) :
    (reservation.commit settlement = .ok settlement →
      ∀ r, ¬ s'.core.Open reservation.id.toNat r) ↔ InI64 (c + actual) := by
  obtain ⟨stage, hp, hfound⟩ := hfinding
  obtain ⟨fails, e', hadvance, hcore⟩ := advance_of_returned hstep (by rw [hp]; rfl) hreturned
  have hsettles := advance_settles hadvance (by rw [hp]; rfl)
  rw [hcore]
  generalize hq : s.core.pc i = p at hsettles
  rw [hp] at hq
  cases hsettles with
  | missing => cases hq
  | @missingTenant r' hnone =>
    cases hq
    have hknown := (h.inv.locally i).known r.tenant (by rw [hp]; rfl)
    rw [hnone] at hknown
    cases hknown
  | overrun =>
    cases hq
    exact iff_of_true (fun hok => by cases hok) hfound
  | overflow =>
    cases hq
    exact iff_of_false (fun hclosed => hclosed rfl r (.inl hfound.2)) hfound.1
  | committed =>
    cases hq
    exact iff_of_true (fun _ r hopen => h.not_open_of_report hp (State.open_of_idle hopen)) hfound

/-- The identifier of a reservation that is owned was given out. -/
theorem Kept.allocated_ne (h : Kept s b) (hissued : s.Issued) {reservation : Reservation}
    (howned : s.history.Owns reservation) (j : Fin n) :
    (s.core.pc j).allocated ≠ some reservation.id.toNat := by
  obtain ⟨grant, hgrant, t, cost, result, id, -, hresult, howned⟩ := howned
  obtain ⟨k, rfl, hk⟩ := reserveOwned_eq_ok howned
  obtain ⟨hlt, hnot⟩ := hissued grant hgrant k (by rw [Reply.issued, hresult]; rfl)
  have hle := h.inv.wellFormed.nextId_le
  have hmask : recoveryAllocatorMask < UInt64.size := by decide
  rw [hk, UInt64.toNat_ofNat_of_lt' (by omega)]
  exact hnot j

/-- A commit that returns where it is called has refused a negative amount. -/
theorem Shared.refused_of_call {i : Fin n} {id : UInt64} {actual : Int64}
    {settlement : BudgetSettlement} (hcall : s.step (.core (.call i (.commit id actual))) = some s')
    (hreturned : s'.core.pc i = .idle (some (.settlement settlement))) :
    actual.toInt < 0 ∧ settlement = .invalidAmount ∧
      ∀ k r, s'.core.Open k r ↔ s.core.Open k r := by
  simp only [step, State.step, map_eq_some_iff, ite_none_left_eq_some] at hcall
  obtain ⟨core, ⟨hidle, hcore⟩, rfl⟩ := hcall
  cases hcore
  simp only [update_self] at hreturned
  rw [Call.start] at hreturned ⊢
  split at hreturned
  · next hneg =>
    cases hreturned
    obtain ⟨last, hlast⟩ := Pc.eq_idle (by simpa using hidle)
    refine ⟨hneg, rfl, fun k r => ⟨?_, ?_⟩⟩
    · rw [if_pos hneg]
      exact State.open_of_idle
    · intro hopen
      refine hopen.imp_right ?_
      rintro ⟨j, hj⟩
      refine (exists_hold_update_iff s.core i _ _).2 (.inr ⟨j, ?_, hj⟩)
      rintro rfl
      rw [hlast] at hj
      cases hj
  · cases hreturned

/-- An owner that is told `Ok` has no hold left, in every state that the engine comes to
and whatever the other threads do meanwhile, exactly when the hold is not open where the
engine looks for it, or the amount is not negative and the committed total of the tenant
has room for it. -/
theorem commit_ok_closes_iff {e : Engine Tenant} {registry : Registry Tenant}
    (hbegins : Begins e registry) {es : List (Shared.Event Tenant n m)}
    (hrun : run step (start e registry) es = some s) {reservation : Reservation}
    (howned : s.history.Owns reservation) {i : Fin n} {actual : Int64}
    (hcommits : s.Commits i reservation.id actual s') {settlement : BudgetSettlement}
    (hreturned : s'.core.pc i = .idle (some (.settlement settlement))) :
    (reservation.commit settlement = .ok settlement →
      ∀ r, ¬ s'.core.Open reservation.id.toNat r) ↔
    ∀ r, s.core.Open reservation.id.toNat r →
      0 ≤ actual.toInt ∧ s.core.engine.committed r.tenant + actual.toInt < 2 ^ 63 := by
  obtain ⟨b, hkept, hissued⟩ : ∃ b, Kept s b ∧ s.Issued :=
    hbegins.run_kept (P := fun _ s => s.Issued) (fun r hr => by cases hr)
      (fun hu h hstep => h.step hu (step_inv hstep)) hrun
  have hfresh := hkept.allocated_ne hissued howned
  cases hcommits with
  | refused hcall =>
    obtain ⟨hneg, rfl, hsame⟩ := refused_of_call hcall hreturned
    simp only [hsame]
    exact ⟨fun hclosed r hopen => (hclosed rfl r hopen).elim,
      fun hnone _ r hopen => absurd (hnone r hopen).1 (by omega)⟩
  | missed hp hlook =>
    obtain ⟨e', p', hadvance, hcore⟩ := core_of_advance hlook
    rw [hcore] at hreturned
    simp only [update_self] at hreturned
    rw [hp] at hadvance
    subst hreturned
    simp only [advance, lockCommit] at hadvance
    split at hadvance
    · next hfree =>
      split at hadvance
      · next hnone =>
        cases hadvance
        have hnot (r : ReservationRecord Tenant) : ¬ s.core.Open reservation.id.toNat r := by
          rw [open_iff_of_free hfree hfresh, hnone]
          simp
        rw [hcore]
        exact iff_of_true (fun _ r hopen => hnot r (State.open_of_idle hopen))
          fun r hopen => (hnot r hopen).elim
      · cases hadvance
    · cases hadvance
  | @decided fails event u u' hp hlook hprogress hrest hlast =>
    obtain ⟨e', p', hadvance, hcore⟩ := core_of_advance hlook
    have hsane := (hkept.inv.locally i).sane
    rw [hp] at hadvance hsane
    simp only [advance, lockCommit] at hadvance
    split at hadvance
    · next hfree =>
      split at hadvance
      · cases hadvance
        rw [hcore] at hprogress
        simp only [update_self] at hprogress
        cases hprogress
      · next r hr =>
        cases hadvance
        obtain ⟨-, b', -, hkept'⟩ := hkept.step (step_inv hlook)
        have hfinding : u.core.Finding i reservation.id.toNat r actual.toInt
            (s.core.engine.committed r.tenant) := by
          rw [hcore]
          exact ⟨.lookup, update_self _ _ _, rfl⟩
        obtain ⟨⟨b'', hkept''⟩, hfinding'⟩ := hkept'.finding_rest hfinding hrest
        have hcommitted := hkept.inv.wellFormed.committed_nonneg r.tenant
        rw [hkept''.closes_iff hfinding' (step_inv hlast) hreturned]
        simp only [open_iff_of_free hfree hfresh, hr, some.injEq, forall_eq', InI64]
        obtain ⟨hactual, -⟩ := hsane
        constructor
        · rintro ⟨-, hlt⟩
          exact ⟨hactual, hlt⟩
        · rintro ⟨-, hlt⟩
          exact ⟨by omega, hlt⟩
    · cases hadvance

end

open Shared.Event in
attribute [local instance] neZero_one in
def ownedTrace : List (Shared.Event Unit 1 0) :=
  called 0 (.tryEnsureTenant () 10) 1 ++ called 0 (.tryReserve () 5) 8

attribute [local instance] neZero_one in
theorem commit_ok_closes_iff_paid :
    ∃ s s', run step (start .new .new)
        (ownedTrace ++ [.core (.call 0 (.commit 1 3))]) = some s ∧ s.history.Owns ⟨1, 5⟩ ∧
      s.Commits 0 1 3 s' ∧ s'.core.pc 0 = .idle (some (.settlement (.committed 7 3))) ∧
      s.core.Open 1 ⟨(), 5⟩ ∧ ∀ r, ¬ s'.core.Open 1 r := by
  have hnext {s s' : Shared Unit 1 0} (h : s.step (.core (.advance 0 false)) = some s')
      (hprogress : (s'.core.pc 0).inProgress) : Shared.Underway 0 s s' := ⟨⟨_, h⟩, hprogress⟩
  have hlast {s s' : Shared Unit 1 0} (h : s.step (.core (.advance 0 false)) = some s') := h
  obtain ⟨s, s', hs, howned, hcommits, hreturned, hopen, hroom⟩ :
      ∃ s s', run step (start .new .new)
          (ownedTrace ++ [.core (.call 0 (.commit 1 3))]) = some s ∧ s.history.Owns ⟨1, 5⟩ ∧
        s.Commits 0 1 3 s' ∧ s'.core.pc 0 = .idle (some (.settlement (.committed 7 3))) ∧
        s.core.Open 1 ⟨(), 5⟩ ∧ s.core.engine.committed () + 3 < 2 ^ 63 :=
    ⟨_, _, rfl, ⟨_, .tail _ (.head _), (), 5, _, _, rfl, rfl, rfl⟩,
      .decided rfl (hlast rfl) rfl (.head (hnext rfl rfl) (.head (hnext rfl rfl)
        (.head (hnext rfl rfl) (.head (hnext rfl rfl) (.single (hnext rfl rfl)))))) (hlast rfl),
      rfl, .inl rfl, by decide⟩
  refine ⟨s, s', hs, howned, hcommits, hreturned, hopen, ?_⟩
  exact (commit_ok_closes_iff .new hs howned hcommits hreturned).2
    (fun r _ => ⟨by decide, hroom⟩) rfl

open Shared.Event in
attribute [local instance] neZero_one in
/-- Nearly all of the largest budget is committed, and a commit of 20 is about to return. -/
def fullTrace : List (Shared.Event Unit 1 0) :=
  called 0 (.tryEnsureTenant () 9223372036854775807) 1 ++
  called 0 (.tryReserve () 9223372036854775797) 8 ++ called 0 (.commit 1 9223372036854775797) 6 ++
  called 0 (.tryReserve () 5) 8 ++ called 0 (.commit 2 20) 4

attribute [local instance] neZero_one in
/-- A negative amount, and a total that leaves `i64`: `Ok` is returned, the reservation is
gone and its hold is open. -/
theorem open_of_commit_ok :
    (∃ s s' reply, run step (start .new .new) ownedTrace = some s ∧
      s.step (.core (.call 0 (.commit 1 (-1)))) = some s' ∧ s.history.Owns ⟨1, 5⟩ ∧
      s'.history.replies = s.history.replies ++ [reply] ∧ reply.call = .commit 1 (-1) ∧
      reply.outcome = .settlement .invalidAmount ∧
      (⟨1, 5⟩ : Reservation).commit .invalidAmount = .ok .invalidAmount ∧
      s'.core.Open 1 ⟨(), 5⟩) ∧
    ∃ s s' reply, run step (start .new .new) fullTrace = some s ∧
      s.step (.core (.advance 0 false)) = some s' ∧ s.history.Owns ⟨2, 5⟩ ∧
      s'.history.replies = s.history.replies ++ [reply] ∧ reply.call = .commit 2 20 ∧
      reply.outcome = .settlement (.overflow 5) ∧
      (⟨2, 5⟩ : Reservation).commit (.overflow 5) = .ok (.overflow 5) ∧
      s'.core.Open 2 ⟨(), 5⟩ :=
  ⟨⟨_, _, _, rfl, rfl, ⟨_, .tail _ (.head _), (), 5, _, _, rfl, rfl, rfl⟩, rfl, rfl, rfl, rfl,
      .inl rfl⟩,
    _, _, _, rfl, rfl,
    ⟨_, .tail _ (.tail _ (.tail _ (.head _))), (), 5, _, _, rfl, rfl, rfl⟩, rfl, rfl, rfl, rfl,
    .inl rfl⟩

end Calybris.Budget
