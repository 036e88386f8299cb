import Calybris.Budget.Allocator
import Calybris.Budget.Frame

/-!
# The cap on the open holds of a tenant

A reservation reads the cap and then raises the reserved total, which the cap limits,
before it debits the balance. The cap cannot change while a call is on its way, so the
cap it read is the one in force when the hold is opened, and the total counts every
open hold.

The total counts more than that. A reservation that is going to be refused has its
amount there for a while, and so has a settlement that is not finished; a refusal for
exposure can go back to those.
-/

namespace Calybris.Budget

open Finset Transition

variable {Tenant : Type*}

def Engine.cap (e : Engine Tenant) (t : Tenant) : Int := (e.maxReservedMicrocents t).getD 0

def Reply.capFor [DecidableEq Tenant] (t : Tenant) (r : Reply Tenant) : Option Int :=
  match r.op with
  | some (.cap t' m) => if t' = t then some m else none
  | _ => none

def History.cap [DecidableEq Tenant] {n : Nat} (h : History Tenant n) (t : Tenant) : Int :=
  (h.replies.filterMap (Reply.capFor t)).getLast?.getD 0

section

variable [DecidableEq Tenant] {n : Nat}

def State.openHolds (s : State Tenant n) (t : Tenant) : Int :=
  s.engine.held t + ∑ i, (s.pc i).holding t

/-- What a call has in the reserved total without an open hold: the amount of a reservation
that is not decided yet, or of a settlement that is not finished. -/
def Pc.inTransit (p : Pc Tenant) (t : Tenant) : Int := p.counted t - p.holding t

def Pc.Admitted (e : Engine Tenant) : Pc Tenant → Prop
  | .reserve t _ (.insert ..) => 0 < e.cap t → e.reservedTotal t ≤ e.cap t
  | _ => True

variable {s : State Tenant n}

theorem Inv.reservedTotal_eq (h : Inv s) (t : Tenant) :
    s.engine.reservedTotal t = s.openHolds t + ∑ i, (s.pc i).inTransit t := by
  have huncovered := h.uncovered t
  simp only [Pc.inTransit, sum_sub_distrib, State.openHolds]
  rw [Engine.uncovered] at huncovered
  omega

theorem Inv.inTransit_nonneg (h : Inv s) (i : Fin n) (t : Tenant) :
    0 ≤ (s.pc i).inTransit t :=
  sub_nonneg.2 (Pc.debts_le (h.locally i).sane t).2.2.2

theorem Inv.openHolds_le (h : Inv s) (t : Tenant) : s.openHolds t ≤ s.engine.reservedTotal t := by
  have hnonneg : 0 ≤ ∑ i, (s.pc i).inTransit t := sum_nonneg fun i _ => h.inTransit_nonneg i t
  rw [h.reservedTotal_eq]
  omega

theorem Shows.openHolds_eq {b : Book Tenant} (h : Shows s b) (t : Tenant) :
    s.openHolds t = b.held t :=
  (h.held t).symm

theorem Book.held_le_of_opens {b b' : Book Tenant} {op : Op Tenant} (happly : b.apply op = some b')
    {id : Nat} {r : ReservationRecord Tenant} (hnot : b.holds id ≠ some r)
    (hopen : b'.holds id = some r) :
    0 < (b'.cap r.tenant).getD 0 → b'.held r.tenant ≤ (b'.cap r.tenant).getD 0 := by
  have hsettled (id' : Nat) (x : Account) (t : Tenant) :
      (b.settle id' t x).holds id ≠ some r := by
    intro h
    by_cases hid : id = id' <;> simp_all [settle, setAccount]
  cases op with
  | ensure t x =>
    cases happly
    split at hopen <;> exact absurd hopen hnot
  | cap t x =>
    cases happly
    exact absurd hopen hnot
  | topUp t a =>
    obtain ⟨x, -, -, rfl⟩ := apply_topUp_eq_some_iff.1 happly
    exact absurd hopen hnot
  | reserve t c id' =>
    obtain ⟨x, -, ⟨hid, -, -, hcap⟩, rfl⟩ := apply_reserve_eq_some_iff.1 happly
    have hrecord : r = ⟨t, c⟩ := by
      by_cases heq : id = id'
      · subst heq
        have hself : (b.place id ⟨t, c⟩ ⟨x.initial, x.remaining - c, x.committed⟩).holds id =
            some ⟨t, c⟩ := Function.update_self ..
        exact Option.some.inj (hopen.symm.trans hself)
      · exact absurd ((Function.update_of_ne heq _ _).symm.trans hopen) hnot
    subst hrecord
    intro hpos
    rw [held_place hid, Engine.heldFor, if_pos rfl]
    exact hcap hpos
  | commit id' actual =>
    obtain ⟨r', -, x, -, -, rfl⟩ := apply_commit_eq_some_iff.1 happly
    exact absurd hopen (hsettled id' _ _)
  | release id' =>
    obtain ⟨r', -, x, -, rfl⟩ := apply_release_eq_some_iff.1 happly
    exact absurd hopen (hsettled id' _ _)

end

section

variable [LinearOrder Tenant] {n m : Nat} {s s' : Shared Tenant n m} {b : Book Tenant} {t : Tenant}
  {id : Nat}

/-- The step that opens a hold finds it within the cap together with the others. -/
theorem Kept.openHolds_le_of_opens (h : Kept s b) (hstep : s.Step s')
    {r : ReservationRecord Tenant} (hnot : ¬ s.core.Open id r) (hopen : s'.core.Open id r)
    (hpos : 0 < s'.core.engine.cap r.tenant) :
    s'.core.openHolds r.tenant ≤ s'.core.engine.cap r.tenant := by
  obtain ⟨op, b', hrun, hkept'⟩ := h.step hstep
  have hnot' : b.holds id ≠ some r := fun hr => hnot ((h.shown.holds id r).1 hr)
  have hopen' : b'.holds id = some r := (hkept'.shown.holds id r).2 hopen
  cases op with
  | none =>
    cases hrun
    exact absurd hopen' hnot'
  | some op =>
    rw [Option.toList_some, run_singleton_eq_some_iff] at hrun
    have hle := Book.held_le_of_opens hrun hnot' hopen'
    rw [Engine.cap, ← hkept'.shown.cap] at hpos ⊢
    rw [hkept'.shown.openHolds_eq]
    exact hle hpos

/-! ### The cap while a call is on its way -/

omit [LinearOrder Tenant] in
theorem Pc.done_eq_reserve {p : Pc Tenant} {c : Int} (h : p.done = some (.reserve t c id)) :
    ∃ x, p = .reserve t c (.insert id x) := by
  cases p with
  | reserve t' c' stage =>
    cases stage with
    | insert id' x =>
      obtain ⟨rfl, rfl, rfl⟩ := Op.reserve.inj (Option.some.inj h)
      exact ⟨x, rfl⟩
    | _ => cases h
  | topUp t' a stage => cases stage <;> cases h
  | commit id' r actual stage => cases stage <;> cases h
  | _ => cases h

variable {i : Fin n}

/-- A thread comes to the insertion of its hold by the debit. -/
theorem Kept.admitted_of_act (h : Kept s b) {e' : Engine Tenant} {p' : Pc Tenant}
    (hact : Act s.core.free s.core.gateFree s.core.engine (s.core.pc i) e' p')
    (hold : (s.core.pc i).Admitted s.core.engine) : p'.Admitted e' := by
  have hlimited := h.shown.limited i
  generalize s.core.pc i = p at hact hold hlimited
  cases hact with
  | debit hle => exact hlimited
  | quiet hq =>
    cases hp' : p' with
    | reserve t' c stage =>
      cases stage with
      | insert id' x =>
        have hrequest : p.request = some (.reserve t' c) := by
          rw [← hq.request (by rw [hp']; rfl), hp']
          rfl
        have hdone : p.done = some (.reserve t' c id') := by
          rw [← Pc.effect_of_request hrequest (.reserve t' c), ← hq.effect _ hrequest, hp']
          rfl
        obtain ⟨y, rfl⟩ := Pc.done_eq_reserve hdone
        exact hold
      | _ => exact trivial
    | _ => exact trivial
  | undo hp' => rcases hp' with rfl | ⟨x, rfl⟩ <;> exact trivial
  | putBack hp' => rcases hp' with rfl | ⟨x, rfl⟩ <;> exact trivial
  | _ => exact trivial

omit [LinearOrder Tenant] in
/-- An admitted hold stays within the cap while others count more, which they do only
within the cap, and nobody changes it. -/
theorem Pc.Admitted.frame [DecidableEq Tenant] {gateFree : Bool} {e e' : Engine Tenant}
    {p p' q : Pc Tenant} {b b' : Book Tenant} (h : q.Admitted e)
    (hgate : q.inGate → gateFree = false) (hf : Follows gateFree e p b e' p' b') :
    q.Admitted e' := by
  cases q with
  | reserve t' c stage =>
    cases stage with
    | insert id' x =>
      rcases hf.limits with hfree | ⟨hcap, htotal⟩
      · rw [hgate rfl] at hfree
        cases hfree
      · have hle := htotal t'
        simp only [Admitted, Engine.cap, hcap] at h ⊢
        omega
    | _ => exact trivial
  | _ => exact trivial

omit [LinearOrder Tenant] in
theorem History.cap_arrive [DecidableEq Tenant] {h : History Tenant n} {began : Nat}
    {call : Call Tenant} {o : Outcome} (hcall : h.calls i = some (began, call)) :
    (h.arrive i (.idle (some o))).cap t =
      (Reply.capFor t ⟨began, h.clock, call, o⟩).getD (h.cap t) := by
  simp only [arrive, hcall, cap, tick, List.filterMap_append]
  cases hlast : Reply.capFor t ⟨began, h.clock, call, o⟩ <;> simp [hlast]

omit [LinearOrder Tenant] in
theorem Reply.capFor_eq_none [DecidableEq Tenant] {r : Reply Tenant}
    (h : ∀ t x, r.call.request ≠ .cap t x) : r.capFor t = none := by
  have hop : ∀ t x, r.op ≠ some (.cap t x) := by
    intro t x hop
    rw [Reply.op] at hop
    unfold Request.op at hop
    split at hop <;> first | exact h _ _ (by assumption) | cases hop
  rw [capFor]
  split
  · exact absurd ‹_› (hop _ _)
  · rfl

/-- What is known about caps: admitted holds are within them, and they are those that the
callers were told. -/
structure Exposed (s : Shared Tenant n m) : Prop where
  admitted : ∀ i, (s.core.pc i).Admitted s.core.engine
  told : ∀ t, s.core.engine.cap t = s.history.cap t

namespace Exposed

theorem of_begins {e : Engine Tenant} {registry : Registry Tenant} (h : Begins e registry) :
    Exposed (Shared.start e registry : Shared Tenant n m) where
  admitted _ := trivial
  told t := by
    cases h with
    | new => rfl
    | restored h =>
      rw [Engine.restoreFromSnapshot] at h
      split at h
      · cases h
      · cases h
      · cases h
        exact congrArg (fun caps => Option.getD (caps t) 0)
          (Engine.foldl_restoreRow_of_eq Engine.maxReservedMicrocents fun _ _ => rfl)

/-- The cap in force changes where the update returns. -/
theorem told_advance (h : Exposed s) (hkept : Kept s b) {fails : Bool} {e' : Engine Tenant}
    {p' : Pc Tenant}
    (hadvance : advance s.core.free fails s.core.engine s.core.gateFree (s.core.pc i) =
      some (e', p')) : e'.cap t = (s.history.arrive i p').cap t := by
  have hact := (hkept.inv.advances hadvance).act
  obtain ⟨q, hq⟩ := exists_request_of_advance hadvance
  obtain ⟨began, call, hcall, rfl⟩ := hkept.serves i q hq
  by_cases hp : ∃ t x, s.core.pc i = .setMaxReserved t x
  · obtain ⟨t', x, hp⟩ := hp
    simp only [hp, advance, trySetMaxReserved, Option.ite_none_right_eq_some, Option.some.injEq,
      Prod.mk.injEq] at hadvance
    obtain ⟨-, rfl, rfl⟩ := hadvance
    rw [hp] at hq
    have hop : Reply.capFor t ⟨began, s.history.clock, call, .configured none⟩ =
        if t' = t then some x else none := by
      rw [Reply.capFor, Reply.op, ← Option.some.inj hq]
      rfl
    rw [History.cap_arrive hcall, hop, ← h.told, Engine.cap, Engine.cap]
    by_cases ht : t' = t
    · subst ht
      by_cases hx : x = 0 <;> simp [hx]
    · simp [ht, Ne.symm ht]
  · have hp : ∀ t x, s.core.pc i ≠ .setMaxReserved t x := fun t x h => hp ⟨t, x, h⟩
    have hsame : e'.maxReservedMicrocents = s.core.engine.maxReservedMicrocents := by
      generalize s.core.pc i = p at hact hp
      cases hact with
      | cap => exact absurd rfl (hp _ _)
      | _ => rfl
    have hcap : e'.cap t = s.history.cap t := by rw [← h.told, Engine.cap, hsame, Engine.cap]
    rw [hcap]
    cases hp' : p' with
    | idle last =>
      cases last with
      | none => rfl
      | some o =>
        rw [History.cap_arrive hcall, Reply.capFor_eq_none, Option.getD_none]
        intro t' x hrequest
        rw [hrequest] at hq
        cases hpc : s.core.pc i with
        | setMaxReserved t'' x' => exact hp t'' x' hpc
        | _ => simp [hpc] at hq
    | _ => rfl

theorem step (h : Exposed s) (hkept : Kept s b) (hstep : s.Step s') : Exposed s' := by
  cases hstep with
  | @call i c hidle =>
    constructor
    · rw [Function.forall_update_iff s.core.pc fun _ p => p.Admitted s.core.engine]
      refine ⟨?_, fun j _ => h.admitted j⟩
      cases c <;> simp only [Call.start] <;> (try split) <;> exact trivial
    · intro t
      have hcall : (s.history.begin i c).calls i = some (s.history.clock, c) :=
        Function.update_self ..
      rw [h.told]
      cases hp : c.start with
      | idle last =>
        cases last with
        | none => rfl
        | some o =>
          rw [History.cap_arrive hcall, Reply.capFor, Reply.op, Call.op_start hp]
          rfl
      | _ => rfl
  | @advance i fails e' p' hadvance =>
    refine ⟨?_, fun t => h.told_advance hkept hadvance⟩
    obtain ⟨-, b', -, hfollows, -⟩ := hkept.answered hadvance
    rw [Function.forall_update_iff s.core.pc fun _ p => p.Admitted e']
    refine ⟨hkept.admitted_of_act (hkept.inv.advances hadvance).act (h.admitted i), fun j hj => ?_⟩
    refine (h.admitted j).frame (fun hgate => ?_) hfollows
    exact decide_eq_false fun hfree => by simp [hfree j] at hgate
  | take | ask | refuse | give | fail | certify => exact ⟨h.admitted, h.told⟩

end Exposed

/-! ### Calls that return -/

omit [LinearOrder Tenant] in
theorem Act.insert_of_op [DecidableEq Tenant] {free : Mutex → Bool} {gateFree : Bool}
    {e e' : Engine Tenant} {p : Pc Tenant} {q : Request Tenant} {o : Outcome} {c : Int}
    (h : Act free gateFree e p e' (.idle (some o))) (hq : p.request = some q)
    (hop : q.op o = some (.reserve t c id)) :
    (∃ x, p = .reserve t c (.insert id x)) ∧ e' = e.insertReservation id ⟨t, c⟩ := by
  obtain ⟨rfl, x, rfl⟩ : q = .reserve t c ∧ ∃ x, o = .reservation (.reserved x) (some id) := by
    unfold Request.op at hop
    split at hop <;> cases hop
    exact ⟨rfl, _, rfl⟩
  generalize hp' : Pc.idle (some (.reservation (.reserved x) (some id))) = p' at h
  cases h with
  | insert =>
    obtain ⟨rfl, rfl⟩ := Request.reserve.inj (Option.some.inj hq)
    obtain ⟨-, hid⟩ := Outcome.reservation.inj (Option.some.inj (Pc.idle.inj hp'))
    cases hid
    exact ⟨⟨_, rfl⟩, rfl⟩
  | quiet hquiet =>
    -- Then the hold would still be in the hands of the thread.
    have heffect := hquiet.effect _ hq
    rw [Pc.effect_of_request hq, ← hp'] at heffect
    obtain ⟨y, rfl⟩ := Pc.done_eq_reserve heffect.symm
    have hhold := hquiet.hold
    rw [← hp'] at hhold
    cases hhold
  | undo hcases | putBack hcases =>
    rcases hcases with rfl | ⟨x, rfl⟩ <;> cases hp'
  | _ => cases hp'

/-- An update of a cap that returns leaves every hold open. -/
theorem Shared.Returns.open_of_cap {r : Reply Tenant} (h : s.Returns s' r) {x : Int64}
    (hcall : r.call = .trySetMaxReserved t x) {id : Nat} {record : ReservationRecord Tenant}
    (hopen : s.core.Open id record) : s'.core.Open id record := by
  -- The thread that updates the cap has no record in its hands.
  have hkeep : ∀ (i : Fin n) (e' : Engine Tenant), (s.core.pc i).hold = none →
      e'.reservations = s.core.engine.reservations →
      (⟨e', Function.update s.core.pc i (.idle (some r.outcome))⟩ : State Tenant n).Open id
        record := by
    intro i e' hnone hsame
    refine hopen.imp (fun hr => hsame ▸ hr) fun ⟨j, hj⟩ => ⟨j, ?_⟩
    have hne : j ≠ i := by
      rintro rfl
      rw [hnone] at hj
      cases hj
    exact (congrArg Pc.hold (Function.update_of_ne hne _ _)).trans hj
  cases h with
  | @atOnce i hidle hstart hcore =>
    rw [hcore]
    obtain ⟨last, hlast⟩ := Pc.eq_idle hidle
    exact hkeep i _ (by rw [hlast]; rfl) rfl
  | @atLast i fails e' hadvance hcalls hrequest hended hcore =>
    rw [hcall] at hrequest
    rw [hcore]
    cases hp : s.core.pc i with
    | setMaxReserved t' x' =>
      simp only [hp, advance, trySetMaxReserved, Option.ite_none_right_eq_some,
        Option.some.injEq, Prod.mk.injEq] at hadvance
      obtain ⟨-, rfl, -⟩ := hadvance
      exact hkeep i _ (by rw [hp]; rfl) rfl
    | _ => simp [hp, Call.request] at hrequest

theorem exists_exposed {e : Engine Tenant} {registry : Registry Tenant}
    (hbegins : Begins e registry) {es : List (Shared.Event Tenant n m)}
    (h : run Shared.step (Shared.start e registry) es = some s) :
    ∃ b, Kept s b ∧ Exposed s :=
  hbegins.run_kept (P := fun _ s => Exposed s) (.of_begins hbegins)
    (fun hu hexposed hstep => hexposed.step hu (Shared.step_inv hstep)) h

/-- Whatever the threads do: the step that opens a hold finds the open holds of its tenant
within the cap in force, and so does the step at which the caller is told; an update of a
cap closes no hold; and the cap in force is the one that the last update to return has
set, so that every hold opened after it obeys it. -/
theorem openHolds_le_cap {e : Engine Tenant} {registry : Registry Tenant}
    (hbegins : Begins e registry) {es : List (Shared.Event Tenant n m)}
    (hrun : run Shared.step (Shared.start e registry) es = some s)
    {event : Shared.Event Tenant n m} (hstep : s.step event = some s') :
    (∀ id r, ¬ s.core.Open id r → s'.core.Open id r → 0 < s'.core.engine.cap r.tenant →
      s'.core.openHolds r.tenant ≤ s'.core.engine.cap r.tenant) ∧
    (∀ reply t c id, s'.history.replies = s.history.replies ++ [reply] →
      reply.op = some (.reserve t c id) → s'.core.Open id ⟨t, c⟩ ∧
        (0 < s'.core.engine.cap t → s'.core.openHolds t ≤ s'.core.engine.cap t)) ∧
    (∀ reply t x, s'.history.replies = s.history.replies ++ [reply] →
      reply.call = .trySetMaxReserved t x →
        ∀ id r, s.core.Open id r → s'.core.Open id r) ∧
    ∀ t x before update after, s'.history.replies = before ++ update :: after →
      update.op = some (.cap t x) → (∀ r ∈ after, ∀ x', r.op ≠ some (.cap t x')) →
        s'.core.engine.cap t = x := by
  obtain ⟨b, hkept, hexposed⟩ := exists_exposed hbegins hrun
  have hstep' := Shared.step_inv hstep
  have hexposed' := hexposed.step hkept hstep'
  refine ⟨fun id r => hkept.openHolds_le_of_opens hstep', ?_, ?_, ?_⟩
  · intro reply t c id hreply hop
    have hinv' := hstep'.inv hkept.inv
    cases hstep'.returns hkept.serves hreply with
    | atOnce hidle hstart hcore =>
      rw [Reply.op, Call.op_start hstart] at hop
      cases hop
    | @atLast i fails e' hadvance hcall hrequest hended hcore =>
      have hact := (hkept.inv.advances hadvance).act
      obtain ⟨⟨x, hp⟩, rfl⟩ := hact.insert_of_op hrequest hop
      refine ⟨.inl ?_, fun hpos => ?_⟩
      · rw [hcore]
        exact Function.update_self ..
      · have hadmitted := hexposed.admitted i
        rw [hp] at hadmitted
        have hle := hinv'.openHolds_le t
        rw [hcore] at hpos hle ⊢
        exact hle.trans (hadmitted hpos)
  · intro reply t x hreply hcall id r
    exact (hstep'.returns hkept.serves hreply).open_of_cap hcall
  · intro t x before update after hreplies hop hlast
    have hnone : after.filterMap (Reply.capFor t) = [] := by
      refine List.filterMap_eq_nil_iff.2 fun r hr => ?_
      rw [Reply.capFor]
      split
      · next t' x' hcap =>
        refine if_neg fun (heq : t' = t) => ?_
        exact hlast r hr x' (heq ▸ hcap)
      · rfl
    have hupdate : update.capFor t = some x := by simp [Reply.capFor, hop]
    rw [hexposed'.told, History.cap, hreplies, List.filterMap_append, List.filterMap_cons, hupdate,
      hnone]
    simp

open Shared.Event in
attribute [local instance] neZero_two in
/-- Two reservations under a cap that has room for both; the second is about to debit. -/
def cappedTrace : List (Shared.Event Unit 2 0) :=
  called 0 (.tryEnsureTenant () 20) 1 ++ called 0 (.trySetMaxReserved () 5) 1 ++
  called 0 (.tryReserve () 2) 8 ++ called 1 (.tryReserve () 3) 6

attribute [local instance] neZero_two in
theorem openHolds_le_cap_capped :
    ∃ s s', run Shared.step (Shared.start .new .new) cappedTrace = some s ∧
      s.step (.core (.advance 1 false)) = some s' ∧ s.core.openHolds () = 2 ∧
      s'.core.Open 2 ⟨(), 3⟩ ∧ s'.core.openHolds () ≤ 5 := by
  obtain ⟨s, s', hs, hs', hsum, hnone, hhold, hopen, hcap⟩ :
      ∃ s s', run Shared.step (Shared.start .new .new) cappedTrace = some s ∧
        s.step (.core (.advance 1 false)) = some s' ∧ s.core.openHolds () = 2 ∧
        s.core.engine.reservations 2 = none ∧ (∀ i, (s.core.pc i).hold.isNone) ∧
        (s'.core.pc 1).hold = some (2, ⟨(), 3⟩) ∧ s'.core.engine.cap () = 5 :=
    ⟨_, _, rfl, rfl, by decide, rfl, by decide, rfl, rfl⟩
  have hnot : ¬ s.core.Open 2 ⟨(), 3⟩ := by
    rintro (hr | ⟨i, hi⟩)
    · rw [hnone] at hr
      cases hr
    · have := hhold i
      rw [hi] at this
      cases this
  have hle := (openHolds_le_cap .new hs hs').1 2 ⟨(), 3⟩ hnot (.inr ⟨1, hopen⟩)
  rw [hcap] at hle
  exact ⟨s, s', hs, hs', hsum, .inr ⟨1, hopen⟩, hle (by decide)⟩

/-! ### Refusals -/

omit [LinearOrder Tenant] in
@[simp] theorem History.clock_arrive {h : History Tenant n} {p : Pc Tenant} :
    (h.arrive i p).clock = h.clock + 1 := by
  unfold arrive
  split <;> rfl

theorem Shared.Step.clock (h : s.Step s') : s'.history.clock = s.history.clock + 1 := by
  cases h with
  | call | advance => exact History.clock_arrive
  | _ => rfl

theorem Shared.Step.replies (h : s.Step s') : s'.history.replies = s.history.replies ∨
    ∃ r, s'.history.replies = s.history.replies ++ [r] := by
  have harrive (h : History Tenant n) (i : Fin n) (p : Pc Tenant) :
      (h.arrive i p).replies = h.replies ∨ ∃ r, (h.arrive i p).replies = h.replies ++ [r] :=
    (h.replies_arrive i p).imp_right fun ⟨r, hr, _⟩ => ⟨r, hr⟩
  cases h with
  | call => exact harrive _ _ _
  | advance => exact harrive _ _ _
  | _ => exact .inl rfl

/-- A moment of a run, during the call that thread `i` made at `began`, at which the
total and the cap of the tenant were those, and the call had no part in the total. -/
structure Sight (start : Shared Tenant n m) (es : List (Shared.Event Tenant n m)) (i : Fin n)
    (began : Nat) (call : Call Tenant) (t : Tenant) (current max : Int) (u : Shared Tenant n m) :
    Prop where
  passes : Passes Shared.step start es u
  calls : u.history.calls i = some (began, call)
  began_le : began ≤ u.history.clock
  total : u.core.engine.reservedTotal t = current
  cap : u.core.engine.cap t = max
  inTransit : (u.core.pc i).inTransit t = 0

section Refused

variable {start : Shared Tenant n m} {es : List (Shared.Event Tenant n m)}

omit [LinearOrder Tenant] in
theorem Sight.append {began : Nat} {call : Call Tenant} {current max : Int} [LinearOrder Tenant]
    {u : Shared Tenant n m} (h : Sight start es i began call t current max u)
    (es' : List (Shared.Event Tenant n m)) :
    Sight start (es ++ es') i began call t current max u :=
  { h with passes := h.passes.append es' }

/-- The total that a reservation goes by was there at a moment of its call, and so was one
that it was refused for. -/
structure Sighted (start : Shared Tenant n m) (es : List (Shared.Event Tenant n m))
    (s : Shared Tenant n m) : Prop where
  run : run Shared.step start es = some s
  began_le : ∀ i began call, s.history.calls i = some (began, call) → began ≤ s.history.clock
  counting : ∀ i t c max current, s.core.pc i = .reserve t c (.increment max current) →
    ∃ began call u, s.history.calls i = some (began, call) ∧
      Sight start es i began call t current max u ∧ u.history.clock ≤ s.history.clock
  refused : ∀ r ∈ s.history.replies, ∀ (t : Tenant) (c : Int64), r.call = .tryReserve t c →
    ∀ current max id, r.outcome = .reservation (.exposureLimitExceeded current max) id →
      ∃ i u, Sight start es i r.began r.call t current max u ∧ u.history.clock ≤ r.ended ∧
        0 < max ∧ max < current + c.toInt

omit [LinearOrder Tenant] in
theorem Pc.eq_reserve_of_request {p : Pc Tenant} {c : Int} (h : p.request = some (.reserve t c)) :
    ∃ stage, p = .reserve t c stage := by
  cases p with
  | reserve t' c' stage =>
    obtain ⟨rfl, rfl⟩ := Request.reserve.inj (Option.some.inj h)
    exact ⟨stage, rfl⟩
  | _ => cases h

section Stages

variable {free : Mutex → Bool} {fails : Bool} {e e' : Engine Tenant} {stage : ReserveStage}
  {c c' max current : Int}

theorem tryReserve_increment {t' : Tenant}
    (h : tryReserve free fails e t c stage = some (e', .reserve t' c' (.increment max current)))
    (hlimited : (Pc.reserve t c stage).Limited e) :
    e.reservedTotal t = current ∧ e.cap t = max ∧ (Pc.reserve t c stage).inTransit t = 0 := by
  cases stage with
  | loadTotal max' =>
    cases h
    exact ⟨rfl, hlimited.symm, by simp [Pc.inTransit, Engine.heldFor]⟩
  | increment max' current' =>
    simp only [tryReserve] at h
    (repeat' split at h) <;> cases h
    exact ⟨rfl, hlimited.symm, by simp [Pc.inTransit, Engine.heldFor]⟩
  | undo insufficient => cases insufficient <;> cases h
  | _ =>
    simp only [tryReserve] at h
    (repeat' split at h) <;> cases h

/-- A refusal for exposure compares the total and the cap that the call went by. -/
theorem tryReserve_exposureLimitExceeded {id : Option Nat}
    (h : tryReserve free fails e t c stage =
      some (e', .idle (some (.reservation (.exposureLimitExceeded current max) id)))) :
    stage = .increment max current ∧ 0 < max ∧ max < current + c := by
  cases stage with
  | increment max' current' =>
    simp only [tryReserve] at h
    split at h
    · cases h
    · next newTotal hadd =>
      obtain ⟨rfl, -⟩ := checkedAdd_eq_some hadd
      split at h
      · next hover =>
        cases h
        exact ⟨rfl, hover⟩
      · split at h <;> cases h
  | undo insufficient => cases insufficient <;> cases h
  | _ =>
    simp only [tryReserve] at h
    (repeat' split at h) <;> cases h

end Stages

namespace Sighted

theorem start_of (start : Shared Tenant n m) (hidle : ∀ i, start.core.pc i = .idle none)
    (hempty : start.history = .empty) : Sighted start [] start where
  run := rfl
  began_le i began call h := by
    rw [hempty] at h
    cases h
  counting i t c max current h := by
    rw [hidle] at h
    cases h
  refused r hr := by
    rw [hempty] at hr
    cases hr

section

variable (h : Sighted start es s)

include h

theorem sight (hkept : Kept s b) {fails : Bool} {e' : Engine Tenant} {c max current : Int}
    (hadvance : advance s.core.free fails s.core.engine s.core.gateFree (s.core.pc i) =
      some (e', .reserve t c (.increment max current))) :
    ∃ began call, s.history.calls i = some (began, call) ∧
      Sight start es i began call t current max s := by
  have hact := (hkept.inv.advances hadvance).act
  obtain ⟨stage, hp⟩ := Pc.eq_reserve_of_request (hact.request rfl).symm
  obtain ⟨began, call, hcall, -⟩ := hkept.serves i (.reserve t c) (by rw [hp]; rfl)
  have hlimited := hkept.shown.limited i
  rw [hp] at hlimited
  rw [hp, advance] at hadvance
  obtain ⟨htotal, hcap, htransit⟩ := tryReserve_increment hadvance hlimited
  exact ⟨began, call, hcall, passes_end h.run, hcall, h.began_le i began call hcall, htotal, hcap,
    by rw [hp]; exact htransit⟩

theorem began_le_step (hstep : s.Step s') {began : Nat} {call : Call Tenant}
    (hcall : s'.history.calls i = some (began, call)) : began ≤ s'.history.clock := by
  have hclock := hstep.clock
  have hold : s.history.calls i = some (began, call) → began ≤ s'.history.clock := by
    intro hcall
    have := h.began_le i began call hcall
    omega
  cases hstep with
  | @call j c hidle =>
    rw [History.calls_arrive] at hcall
    by_cases hi : i = j
    · subst hi
      obtain ⟨rfl, -⟩ : s.history.clock = began ∧ c = call := by
        simpa [History.begin] using hcall
      omega
    · exact hold (by simpa [History.begin, hi] using hcall)
  | advance =>
    rw [History.calls_arrive] at hcall
    exact hold hcall
  | take | ask | refuse | give | fail | certify => exact hold hcall

theorem counting_step (hkept : Kept s b) (hstep : s.Step s') (event : Shared.Event Tenant n m)
    {c max current : Int} (hp : s'.core.pc i = .reserve t c (.increment max current)) :
    ∃ began call u, s'.history.calls i = some (began, call) ∧
      Sight start (es ++ [event]) i began call t current max u ∧
      u.history.clock ≤ s'.history.clock := by
  have hclock := hstep.clock
  have hold (hpc : s'.core.pc i = s.core.pc i)
      (hcalls : s'.history.calls i = s.history.calls i) :
      ∃ began call u, s'.history.calls i = some (began, call) ∧
        Sight start (es ++ [event]) i began call t current max u ∧
        u.history.clock ≤ s'.history.clock := by
    obtain ⟨began, call, u, hcall, hsight, hle⟩ := h.counting i t c max current (hpc ▸ hp)
    exact ⟨began, call, u, hcalls.trans hcall, hsight.append [event], by omega⟩
  cases hstep with
  | @call j call hidle =>
    by_cases hi : i = j
    · subst hi
      simp only [Function.update_self] at hp
      cases call <;> simp only [Call.start] at hp <;> (try split at hp) <;> cases hp
    · exact hold (Function.update_of_ne hi _ _) (by simp [History.begin, hi])
  | @advance j fails e' p' hadvance =>
    by_cases hi : i = j
    · subst hi
      simp only [Function.update_self] at hp
      subst hp
      obtain ⟨began, call, hcall, hsight⟩ := h.sight hkept hadvance
      exact ⟨began, call, s, by rw [History.calls_arrive, hcall], hsight.append [event], by omega⟩
    · exact hold (Function.update_of_ne hi _ _) (by rw [History.calls_arrive])
  | take | ask | refuse | give | fail | certify => exact hold rfl rfl

/-- A call that is refused for exposure goes by a total that was there during the call. -/
theorem refused_returns {r : Reply Tenant} (hreturns : s.Returns s' r) {c : Int64}
    (hcall : r.call = .tryReserve t c) {current max : Int} {id : Option Nat}
    (hrefused : r.outcome = .reservation (.exposureLimitExceeded current max) id) :
    ∃ i u, Sight start es i r.began r.call t current max u ∧ u.history.clock ≤ r.ended ∧
      0 < max ∧ max < current + c.toInt := by
  cases hreturns with
  | atOnce hidle hstart hcore =>
    rw [hcall, hrefused, Call.start] at hstart
    split at hstart <;> cases hstart
  | @atLast i fails e' hadvance hcalls hrequest hended hcore =>
    rw [hcall, Call.request] at hrequest
    obtain ⟨stage, hp⟩ := Pc.eq_reserve_of_request hrequest
    rw [hp, hrefused, advance] at hadvance
    obtain ⟨rfl, hpos, hlt⟩ := tryReserve_exposureLimitExceeded hadvance
    obtain ⟨began, call, u, hcall', hsight, hle⟩ := h.counting i t c.toInt max current hp
    obtain ⟨rfl, rfl⟩ := Prod.mk.inj (Option.some.inj (hcalls.symm.trans hcall'))
    exact ⟨i, u, hsight, hended ▸ hle, hpos, hlt⟩

theorem step (hkept : Kept s b) {event : Shared.Event Tenant n m} (hstep : s.step event = some s') :
    Sighted start (es ++ [event]) s' where
  run := run_append_singleton_eq_some_iff.2 ⟨s, h.run, hstep⟩
  began_le i began call := h.began_le_step (Shared.step_inv hstep)
  counting i t c max current := h.counting_step hkept (Shared.step_inv hstep) event
  refused r hr t c hcall current max id hrefused := by
    have hstep' := Shared.step_inv hstep
    have hnew (hreturns : s.Returns s' r) := h.refused_returns hreturns hcall hrefused
    obtain ⟨i, u, hsight, hrest⟩ : ∃ i u, Sight start es i r.began r.call t current max u ∧
        u.history.clock ≤ r.ended ∧ 0 < max ∧ max < current + c.toInt := by
      rcases hstep'.replies with hsame | ⟨r', hreply⟩
      · exact h.refused r (hsame ▸ hr) t c hcall current max id hrefused
      · rw [hreply, List.mem_append, List.mem_singleton] at hr
        rcases hr with hr | rfl
        · exact h.refused r hr t c hcall current max id hrefused
        · exact hnew (hstep'.returns hkept.serves hreply)
    exact ⟨i, u, hsight.append [event], hrest⟩

end

end Sighted

/-- Whenever a reservation was refused for exposure there was a moment during its call at
which the open holds of the tenant, with what other calls had in the total at that
moment, left less than the requested amount below the cap in force. -/
theorem exposureLimitExceeded_sight {e : Engine Tenant} {registry : Registry Tenant}
    (hbegins : Begins e registry) (hrun : run Shared.step (Shared.start e registry) es = some s)
    {r : Reply Tenant} (hr : r ∈ s.history.replies) {c : Int64} (hcall : r.call = .tryReserve t c)
    {current max : Int} {id : Option Nat}
    (hrefused : r.outcome = .reservation (.exposureLimitExceeded current max) id) :
    ∃ i u, Passes Shared.step (Shared.start e registry) es u ∧
      u.history.calls i = some (r.began, r.call) ∧
      r.began ≤ u.history.clock ∧ u.history.clock ≤ r.ended ∧ 0 < u.core.engine.cap t ∧
      u.core.engine.cap t <
        u.core.openHolds t + ∑ j ∈ univ.erase i, (u.core.pc j).inTransit t + c.toInt := by
  obtain ⟨-, -, hsighted⟩ := hbegins.run_kept (P := Sighted (Shared.start e registry))
    (.start_of _ (fun _ => rfl) rfl) (fun hu hsighted => hsighted.step hu) hrun
  obtain ⟨i, u, hsight, hended, hpos, hlt⟩ :=
    hsighted.refused r hr t c hcall current max id hrefused
  obtain ⟨es', -, hrun'⟩ := hsight.passes
  obtain ⟨b', hkept⟩ := exists_kept hbegins hrun'
  have htotal := hkept.inv.reservedTotal_eq t
  have hsum := add_sum_erase univ (fun j => (u.core.pc j).inTransit t) (mem_univ i)
  rw [hsight.inTransit] at hsum
  refine ⟨i, u, hsight.passes, hsight.calls, hsight.began_le, hended, ?_, ?_⟩
  · rw [hsight.cap]
    exact hpos
  · have hcurrent := hsight.total
    rw [hsight.cap]
    omega

open Shared.Event in
attribute [local instance] neZero_two in
/-- The first thread has counted 8, which the balance of 5 does not cover, when the second
asks for 3 under a cap of 10. -/
def crowdedTrace : List (Shared.Event Unit 2 0) :=
  called 0 (.tryEnsureTenant () 5) 1 ++ called 0 (.trySetMaxReserved () 10) 1 ++
  called 0 (.tryReserve () 8) 4 ++ called 1 (.tryReserve () 3) 4 ++
  List.replicate 4 (core (.advance 0 false))

attribute [local instance] neZero_two in
theorem exposureLimitExceeded_sight_crowded :
    ∃ s, run Shared.step (Shared.start .new .new) crowdedTrace = some s ∧
      ∃ r ∈ s.history.replies, r.call = .tryReserve () 3 ∧
        r.outcome = .reservation (.exposureLimitExceeded 8 10) none ∧
        ∃ i u, Passes Shared.step (Shared.start .new .new) crowdedTrace u ∧
          r.began ≤ u.history.clock ∧ u.history.clock ≤ r.ended ∧
          u.core.engine.cap () <
            u.core.openHolds () + ∑ j ∈ univ.erase i, (u.core.pc j).inTransit () + 3 := by
  obtain ⟨s, hs, r, hr, hcall, hrefused⟩ :
      ∃ s, run Shared.step (Shared.start .new .new) crowdedTrace = some s ∧
        ∃ r ∈ s.history.replies, r.call = .tryReserve () 3 ∧
          r.outcome = .reservation (.exposureLimitExceeded 8 10) none :=
    ⟨_, rfl, _, .tail _ (.tail _ (.head _)), rfl, rfl⟩
  obtain ⟨i, u, hpasses, -, hbegan, hended, -, hlt⟩ :=
    exposureLimitExceeded_sight .new hs hr hcall hrefused
  exact ⟨s, hs, r, hr, hcall, hrefused, i, u, hpasses, hbegan, hended, hlt⟩

/-- A reservation that fits under the cap with all open holds, at every moment, is refused
for exposure because of another one that is then refused itself. -/
theorem exposureLimitExceeded_without_holds :
    ∃ s, run Shared.step (Shared.start .new .new) crowdedTrace = some s ∧
      (∃ r ∈ s.history.replies, r.call = .tryReserve () 3 ∧
        r.outcome = .reservation (.exposureLimitExceeded 8 10) none) ∧
      (∃ r ∈ s.history.replies, r.call = .tryReserve () 8 ∧
        r.outcome = .reservation (.insufficient 5 8) none) ∧
      ∀ u, Passes Shared.step (Shared.start .new .new) crowdedTrace u →
        u.core.openHolds () + 3 ≤ 10 := by
  refine ⟨_, rfl, ⟨_, .tail _ (.tail _ (.head _)), rfl, rfl⟩,
    ⟨_, .tail _ (.tail _ (.tail _ (.head _))), rfl, rfl⟩, ?_⟩
  have hall : ∀ es ∈ crowdedTrace.inits, ∀ u ∈ run Shared.step (Shared.start .new .new) es,
      u.core.openHolds () + 3 ≤ 10 := by
    decide
  rintro u ⟨es, hes, hu⟩
  exact hall es (List.mem_inits es crowdedTrace |>.2 hes) u hu

end Refused

end

end Calybris.Budget
