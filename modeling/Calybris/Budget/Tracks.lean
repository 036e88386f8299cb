import Calybris.Budget.Shared

/-!
# The history is a history of the book

What the callers were told so far, with the operations of calls that are past their
turning point, is what was done to the book, in some order. The snapshots of the
observers leave the book alone.
-/

namespace Calybris.Budget

open Finset Transition Engine Shared

variable {Tenant : Type*} [LinearOrder Tenant] {n m : Nat}

/-! ### Calls that begin -/

/-- Nothing of the call is in the book, or owed to it. -/
structure Pc.Clean (p : Pc Tenant) : Prop where
  done : p.done = none
  hold : p.hold = none
  fresh : p.fresh = none
  granted : ∀ t, p.granted t = 0
  owed : ∀ t, p.owed t = 0
  spent : ∀ t, p.spent t = 0
  limited : ∀ e, p.Limited e

theorem Pc.clean_of_idle {p : Pc Tenant} (h : p.inProgress = false) : p.Clean := by
  obtain ⟨last, rfl⟩ := Pc.eq_idle h
  constructor <;> simp

theorem Call.clean_start (c : Call Tenant) : c.start.Clean := by
  cases c <;> simp only [Call.start]
  case release => constructor <;> simp
  all_goals split <;> constructor <;> simp

omit [LinearOrder Tenant] in
theorem Call.request_start {c : Call Tenant} {q : Request Tenant}
    (h : c.start.request = some q) : q = c.request := by
  cases c <;> simp only [Call.start] at h
  case release => exact (Option.some.inj h).symm
  all_goals
    split at h
    · cases h
    · exact (Option.some.inj h).symm

omit [LinearOrder Tenant] in
theorem Call.op_start {c : Call Tenant} {o : Outcome} (h : c.start = .idle (some o)) :
    c.request.op o = none := by
  cases c <;> simp only [Call.start] at h
  case release => cases h
  all_goals
    split at h
    · cases h
      rfl
    · cases h

theorem Call.effect_start (c : Call Tenant) : c.start.effect c.request = none := by
  have hdone := c.clean_start.done
  cases hp : c.start with
  | idle last =>
    cases last with
    | none => rfl
    | some o => exact Call.op_start hp
  | _ => rw [hp] at hdone; exact hdone

omit [LinearOrder Tenant] in
theorem exists_request_of_advance [DecidableEq Tenant] {free : Mutex → Bool}
    {fails gateFree : Bool} {e : Engine Tenant} {p : Pc Tenant} {x : Engine Tenant × Pc Tenant}
    (h : Budget.advance free fails e gateFree p = some x) : ∃ q, p.request = some q := by
  cases p with
  | idle last => cases h
  | _ => exact ⟨_, rfl⟩

omit [LinearOrder Tenant] in
theorem Pc.effect_of_request {p : Pc Tenant} {q : Request Tenant} (h : p.request = some q)
    (q' : Request Tenant) : p.effect q' = p.done := by
  cases p with
  | idle last => cases h
  | _ => rfl

omit [LinearOrder Tenant] in
theorem Act.request [DecidableEq Tenant] {free : Mutex → Bool} {gateFree : Bool}
    {e e' : Engine Tenant} {p p' : Pc Tenant} (h : Act free gateFree e p e' p')
    (hp' : p'.inProgress) : p'.request = p.request := by
  cases h with
  | quiet hq => exact hq.request hp'
  | undo hcases | putBack hcases =>
    rcases hcases with rfl | ⟨x, rfl⟩
    · rfl
    · cases hp'
  | _ => first | rfl | cases hp'

omit [LinearOrder Tenant] in
/-- Only `try_ensure_tenant` adds a tenant. -/
theorem Act.isSome_tenantBudgets [DecidableEq Tenant] {free : Mutex → Bool} {gateFree : Bool}
    {e e' : Engine Tenant} {p p' : Pc Tenant} (h : Act free gateFree e p e' p')
    (hl : p.Locally e) (t : Tenant) :
    (e'.tenantBudgets t).isSome ↔ (e.tenantBudgets t).isSome ∨ ∃ b, p = .ensure t b := by
  cases h with
  | @ensure t' b hnew =>
    by_cases heq : t = t'
    · simp [heq, insertTenant]
    · simp [insertTenant, heq, Ne.symm heq]
  | @ensured t' b hold =>
    refine ⟨.inl, ?_⟩
    rintro (hsome | ⟨x, hx⟩)
    · exact hsome
    · obtain ⟨rfl, -⟩ := Pc.ensure.inj hx
      exact hold
  | quiet hq =>
    refine ⟨.inl, ?_⟩
    rintro (hsome | ⟨x, hx⟩)
    · exact hsome
    · exact absurd hx (hq.ne_ensure t x)
  | credit | debit | overrun | refund | giveBack =>
    simp [setBudget, isSome_update (hl.known _ rfl)]
  | _ => simp [setInitial, setCommitted, setReservedTotal,
      insertReservation, removeReservation]

theorem Shows.clean {s : State Tenant n} {b : Book Tenant} {i : Fin n} {p' : Pc Tenant}
    (h : Shows s b) (hp : (s.pc i).Clean) (hp' : p'.Clean) :
    Follows s.gateFree s.engine (s.pc i) b s.engine p' b := by
  refine h.same rfl (.of_pc (hp'.limited _) (fun t => ?_) (fun t => ?_) (fun t => ?_) ?_ ?_)
  · rw [hp.granted, hp'.granted]
  · rw [hp.owed, hp'.owed]
  · rw [hp.spent, hp'.spent]
  · rw [hp.hold, hp'.hold]
  · intro id hid
    rw [hp'.fresh] at hid
    cases hid

/-! ### Snapshots -/

section Issue

variable {s : State Tenant n} {b : Book Tenant}

/-- A snapshot takes an identifier and changes nothing else. -/
theorem Inv.issue (h : Inv s) (hlt : s.engine.nextId < recoveryAllocatorMask) :
    Inv (⟨{ s.engine with nextId := s.engine.nextId + 1 }, s.pc⟩ : State Tenant n) where
  balance t := by
    have heq : ({ s.engine with nextId := s.engine.nextId + 1 } : Engine Tenant).balance t =
        s.engine.balance t := by
      rw [Engine.balance, Engine.held_issue h.wellFormed]
      rfl
    rw [heq]
    exact h.balance t
  uncovered t := by
    have heq : ({ s.engine with nextId := s.engine.nextId + 1 } : Engine Tenant).uncovered t =
        s.engine.uncovered t := by
      rw [Engine.uncovered, Engine.held_issue h.wellFormed]
      rfl
    rw [heq]
    exact h.uncovered t
  granted_lt := h.granted_lt
  wellFormed := h.wellFormed.issue hlt
  locally i := (h.locally i).frame (fun _ => id) (Nat.le_succ _)
    (fun id hid => ((h.locally i).pending id hid).2) (fun _ _ => rfl) (fun _ _ => rfl)
  distinct := h.distinct
  exclusive := h.exclusive

theorem Shared.Step.inv {s s' : Shared Tenant n m} (hstep : s.Step s') (h : Inv s.core) :
    Inv s'.core := by
  cases hstep with
  | call hidle => exact h.move (start_moves _ h.wellFormed hidle)
  | advance hadvance => exact h.move (h.advances hadvance).moves
  | take hgate hlt ho => exact h.issue hlt
  | ask | refuse | give | fail | certify => exact h

theorem Shows.issueNext (h : Shows s b) (hinv : Inv s) :
    Shows (⟨{ s.engine with nextId := s.engine.nextId + 1 }, s.pc⟩ : State Tenant n) b :=
  { h with
    held := by
      intro t
      rw [held_issue hinv.wellFormed]
      exact h.held t
    issued_lt := fun id hid => (h.issued_lt id hid).trans (Nat.lt_succ_self _) }

end Issue

/-! ### The calls that the threads work on -/

section Calls

variable {s s' : Shared Tenant n m}

omit [LinearOrder Tenant] in
@[simp] theorem History.calls_arrive {h : History Tenant n} {i : Fin n} {p : Pc Tenant} :
    (h.arrive i p).calls = h.calls := by
  unfold arrive
  split <;> rfl

def Shared.Serves (s : Shared Tenant n m) : Prop :=
  ∀ i q, (s.core.pc i).request = some q →
    ∃ began call, s.history.calls i = some (began, call) ∧ call.request = q

theorem Shared.Step.serves (hstep : s.Step s') (h : s.Serves) (hinv : Inv s.core) :
    s'.Serves := by
  intro k q hq
  cases hstep with
  | @call i c hidle =>
    by_cases hk : k = i
    · subst hk
      refine ⟨s.history.clock, c, ?_, (Call.request_start (by simpa using hq)).symm⟩
      rw [History.calls_arrive]
      exact Function.update_self ..
    · obtain ⟨began, call, hcalls, hrequest⟩ := h k q (by simpa [hk] using hq)
      refine ⟨began, call, ?_, hrequest⟩
      rw [History.calls_arrive]
      simpa [History.begin, hk] using hcalls
  | @advance i fails e' p' hadvance =>
    rw [History.calls_arrive]
    by_cases hk : k = i
    · subst hk
      have hact := (hinv.advances hadvance).act
      have hprogress : p'.inProgress := by
        cases hp : p' with
        | idle last => simp [hp] at hq
        | _ => rfl
      exact h k q ((hact.request hprogress).symm.trans (by simpa using hq))
    · exact h k q (by simpa [hk] using hq)
  | take | ask | refuse | give | fail | certify => exact h k q hq

end Calls

/-! ### The history -/

theorem add_add_eq_of_exchange {M : Type*} [AddCancelCommMonoid M] {r r' d d' x x' y : M}
    (hsum : d' + x = d + x') (hreplies : r' + x' = r + (x + y)) : r + d + y = r' + d' := by
  apply add_right_cancel (b := x)
  calc r + d + y + x = r + (x + y) + d := by abel
    _ = r' + (d + x') := by rw [← hreplies]; abel
    _ = r' + d' + x := by rw [← hsum, add_assoc]

/-- The operations done so far, in the order of their turning points, and the book they
lead to. -/
structure Tracks (s : Shared Tenant n m) (ops : List (Op Tenant)) (b : Book Tenant) : Prop where
  inv : Inv s.core
  shown : Shows s.core b
  booked : run Book.apply Book.empty ops = some b
  replied : (ops : Multiset (Op Tenant)) = s.history.replies.filterMap Reply.op +
    ∑ i, ((s.core.pc i).done.toList : Multiset (Op Tenant))
  serves : ∀ i q, (s.core.pc i).request = some q →
    ∃ began call, s.history.calls i = some (began, call) ∧ call.request = q
  tenants : ∀ t, t ∈ s.registry.tenants ↔ (s.core.engine.tenantBudgets t).isSome
  nodup : s.registry.tenants.Nodup

namespace History

variable {h : History Tenant n} {i : Fin n} {p : Pc Tenant} {began : Nat} {call : Call Tenant}

omit [LinearOrder Tenant] in
theorem filterMap_replies_arrive (hcall : h.calls i = some (began, call)) :
    ((h.arrive i p).replies.filterMap Reply.op : Multiset (Op Tenant)) +
        (p.done.toList : Multiset (Op Tenant)) =
      (h.replies.filterMap Reply.op : Multiset (Op Tenant)) +
        ((p.effect call.request).toList : Multiset (Op Tenant)) := by
  cases p with
  | idle last =>
    cases last with
    | none => simp [arrive, tick]
    | some outcome =>
      have hlast : ∀ r : Reply Tenant, [r].filterMap Reply.op = r.op.toList := by
        intro r
        cases hop : r.op <;> simp [hop]
      simp only [arrive, hcall, tick, List.filterMap_append, hlast, ← Multiset.coe_add]
      exact add_zero _
  | _ => rfl

end History

namespace Shared

variable {s : Shared Tenant n m} {p : Pc Tenant} {t : Tenant}

omit [LinearOrder Tenant] in
theorem mem_keep (h : ∀ t, t ∈ s.registry.tenants ↔ (s.core.engine.tenantBudgets t).isSome) :
    t ∈ (s.keep p).tenants ↔
      (s.core.engine.tenantBudgets t).isSome ∨ ∃ b, p = .ensure t b := by
  cases p with
  | ensure t' b =>
    simp only [keep, Pc.ensure.injEq]
    split
    · rw [List.mem_append, h, List.mem_singleton]
      exact or_congr_right ⟨fun heq => ⟨b, heq.symm, rfl⟩, fun ⟨_, heq, _⟩ => heq.symm⟩
    · next hold =>
      rw [h]
      refine ⟨.inl, ?_⟩
      rintro (hsome | ⟨b, rfl, -⟩)
      · exact hsome
      · simpa [Option.isSome_iff_ne_none] using hold
  | _ => simpa [keep] using h t

omit [LinearOrder Tenant] in
theorem nodup_keep (h : s.registry.tenants.Nodup)
    (hnew : ∀ t, s.core.engine.tenantBudgets t = none → t ∉ s.registry.tenants) :
    (s.keep p).tenants.Nodup := by
  cases p with
  | ensure t b =>
    simp only [keep]
    split
    · next hnone =>
      have ht := hnew t (Option.isNone_iff_eq_none.1 hnone)
      rw [List.nodup_append]
      simpa [h] using fun a ha (heq : a = t) => ht (heq ▸ ha)
    · exact h
  | _ => exact h

end Shared

namespace Tracks

variable {s s' : Shared Tenant n m} {ops : List (Op Tenant)} {b : Book Tenant}

theorem init : Tracks (Shared.init : Shared Tenant n m) [] Book.empty where
  inv := inv_init
  shown :=
    { known := fun _ => rfl
      initial := fun t => by simp [Shared.init, Shared.start, Book.initial, Book.empty, new,
        initial]
      remaining := fun t => by simp [Shared.init, Shared.start, Book.remaining, Book.empty,
        new, remaining]
      committed := fun t => by simp [Shared.init, Shared.start, Book.committed, Book.empty,
        new, committed]
      held := fun t => by simp [Shared.init, Shared.start, Book.held, Book.empty, new,
        held, heldFor]
      holds := fun id r => by simp [Shared.init, Shared.start, Book.empty, new]
      cap := rfl
      issued_holds := fun id r h => by cases h
      issued_lt := fun id h => by simp [Book.empty] at h
      fresh := fun i id h => by cases h
      limited := fun i => trivial }
  booked := rfl
  replied := by simp [Shared.init, Shared.start, History.empty]
  serves i q h := by cases h
  tenants t := by simp [Shared.init, Shared.start, Registry.new, new]
  nodup := .nil

theorem other (h : Tracks s ops b) (hcore : s'.core = s.core)
    (htenants : s'.registry.tenants = s.registry.tenants)
    (hcalls : s'.history.calls = s.history.calls)
    (hreplies : s'.history.replies = s.history.replies) : Tracks s' ops b where
  inv := hcore ▸ h.inv
  shown := hcore ▸ h.shown
  booked := h.booked
  replied := by
    rw [hcore, hreplies]
    exact h.replied
  serves := by
    rw [hcore, hcalls]
    exact h.serves
  tenants := by
    rw [hcore, htenants]
    exact h.tenants
  nodup := htenants ▸ h.nodup

theorem call (h : Tracks s ops b) {i : Fin n} {c : Call Tenant}
    (hidle : (s.core.pc i).inProgress = false) :
    Tracks { s with
      core := ⟨s.core.engine, Function.update s.core.pc i c.start⟩
      history := (s.history.begin i c).arrive i c.start } ops b := by
  have hclean := Pc.clean_of_idle hidle
  have hcall : (s.history.begin i c).calls i = some (s.history.clock, c) := Function.update_self ..
  have heffect := c.effect_start
  refine ⟨h.inv.move (start_moves c h.inv.wellFormed hidle),
    h.shown.follow h.inv (h.shown.clean hclean c.clean_start), h.booked, ?_,
    (Shared.Step.call hidle).serves h.serves h.inv, h.tenants, h.nodup⟩
  have hsum := sum_update_add (mem_univ i)
    (fun p : Pc Tenant => (p.done.toList : Multiset (Op Tenant))) s.core.pc c.start
  have hreplies := History.filterMap_replies_arrive (p := c.start) hcall
  rw [hclean.done, c.clean_start.done, add_left_inj] at hsum
  rw [heffect, c.clean_start.done, add_left_inj] at hreplies
  rw [hsum, hreplies]
  exact h.replied

theorem advance (h : Tracks s ops b) {i : Fin n} {fails : Bool} {e' : Engine Tenant}
    {p' : Pc Tenant}
    (hadvance : Budget.advance s.core.free fails s.core.engine s.core.gateFree (s.core.pc i) =
      some (e', p')) :
    ∃ new b', Tracks { s with
      core := ⟨e', Function.update s.core.pc i p'⟩
      registry := s.keep (s.core.pc i)
      history := s.history.arrive i p' } (ops ++ new) b' := by
  have hact := (h.inv.advances hadvance).act
  have hmove := (h.inv.advances hadvance).moves
  obtain ⟨op, b', hrun, hfollows, heffect⟩ := h.shown.act h.inv hact
  obtain ⟨q, hq⟩ := exists_request_of_advance hadvance
  obtain ⟨began, call, hcall, hcq⟩ := h.serves i q hq
  have hdone := Pc.effect_of_request hq q
  refine ⟨op.toList, b', h.inv.move hmove, h.shown.follow h.inv hfollows,
    by rw [run_append h.booked, hrun], ?_, (Shared.Step.advance hadvance).serves h.serves h.inv,
    ?_, ?_⟩
  · -- What the thread had done moves into the replies when its call returns.
    have hsum := sum_update_add (mem_univ i)
      (fun p : Pc Tenant => (p.done.toList : Multiset (Op Tenant))) s.core.pc p'
    have hreplies := History.filterMap_replies_arrive (p := p') hcall
    rw [hcq, heffect q hq, hdone, ← Multiset.coe_add] at hreplies
    rw [← Multiset.coe_add, h.replied]
    exact add_add_eq_of_exchange hsum hreplies
  · intro t
    rw [mem_keep h.tenants]
    exact (hact.isSome_tenantBudgets (h.inv.locally i) t).symm
  · exact nodup_keep h.nodup fun t ht => by simpa [ht] using h.tenants t

theorem step (h : Tracks s ops b) (hstep : s.Step s') : ∃ new b', Tracks s' (ops ++ new) b' := by
  have hsame : ops = ops ++ [] := (List.append_nil ops).symm
  cases hstep with
  | call hidle => exact ⟨[], b, hsame ▸ h.call hidle⟩
  | advance hadvance => exact h.advance hadvance
  | take hgate hlt ho =>
    exact ⟨[], b, hsame ▸ ⟨h.inv.issue hlt, h.shown.issueNext h.inv, h.booked, h.replied,
      h.serves, h.tenants, h.nodup⟩⟩
  | ask | refuse | give | fail | certify => exact ⟨[], b, hsame ▸ h.other rfl rfl rfl rfl⟩

theorem run {es : List (Shared.Event Tenant n m)} (h : Tracks s ops b)
    (hrun : Transition.run Shared.step s es = some s') : ∃ new b', Tracks s' (ops ++ new) b' := by
  refine run_invariant (I := fun s => ∃ new b', Tracks s (ops ++ new) b') ?_
    ⟨[], b, (List.append_nil ops).symm ▸ h⟩ hrun
  rintro u ev u' ⟨new, b', hu⟩ hstep
  obtain ⟨more, b'', hu'⟩ := hu.step (step_inv hstep)
  exact ⟨new ++ more, b'', by rwa [← List.append_assoc]⟩

end Tracks

end Calybris.Budget
