import Calybris.Budget.Tracks
import Mathlib.Algebra.BigOperators.Fin

/-!
# Every hold is settled at most once

The operations that the callers were told of, together with those already decided in
calls that still have to return, are the operations of a book in another order. So an
identifier is issued once and settled once, a hold that was not settled is open, and
the committed amount of a tenant is what its commits say.
-/

namespace Calybris.Budget

open Finset Transition

variable {Tenant : Type*} [LinearOrder Tenant] {n m : Nat}

namespace History

def ops (h : History Tenant n) : List (Op Tenant) := h.replies.filterMap Reply.op

end History

def Shared.decided (s : Shared Tenant n m) : List (Op Tenant) :=
  s.history.ops ++ (List.finRange n).filterMap fun i => (s.core.pc i).done

theorem sum_toList_eq_filterMap {α : Type*} (f : Fin n → Option α) :
    ∑ i, ((f i).toList : Multiset α) = ((List.finRange n).filterMap f : Multiset α) := by
  have hlist : ∀ l : List (Fin n), (l.map fun i => ((f i).toList : Multiset α)).sum =
      (l.filterMap f : Multiset α) := by
    intro l
    induction l with
    | nil => rfl
    | cons i l ih =>
      rw [List.map_cons, List.sum_cons, ih]
      cases hi : f i <;> simp [hi]
  rw [Fin.sum_univ_def, hlist]

omit [LinearOrder Tenant] in
theorem Pc.settles_of_done {p : Pc Tenant} (hfree : p.holds .reservations = false) :
    ∀ op, p.done = some op → op.settles = none := by
  cases p with
  | topUp t a stage => cases stage <;> simp [Op.settles]
  | reserve t c stage => cases stage <;> simp [Op.settles]
  | commit id r actual stage => cases stage <;> simp at hfree
  | release id r stage => simp at hfree
  | _ => simp

omit [LinearOrder Tenant] in
theorem Pc.hold_of_done {p : Pc Tenant} {id : Nat} :
    ∀ op, p.done = some op → op.issues = some id → ∃ r, p.hold = some (id, r) := by
  cases p with
  | topUp t a stage => cases stage <;> simp [Op.issues]
  | reserve t c stage => cases stage <;> simp [Op.issues]
  | commit id r actual stage => cases stage <;> simp [Op.issues]
  | release id r stage => simp [Op.issues]
  | _ => simp

omit [LinearOrder Tenant] in
theorem Pc.holds_committed_of_reservations {p : Pc Tenant}
    (h : p.holds .reservations = false) : p.holds .committed = false := by
  cases p with
  | topUp t a stage => cases stage <;> rfl
  | commit id r actual stage => cases stage <;> simp at h
  | _ => rfl

namespace Tracks

variable {s s' : Shared Tenant n m} {ops : List (Op Tenant)} {b : Book Tenant}

theorem perm_decided (h : Tracks s ops b) : ops.Perm s.decided := by
  have hreplied := h.replied
  rw [sum_toList_eq_filterMap, Multiset.coe_add, Multiset.coe_eq_coe] at hreplied
  exact hreplied

omit [LinearOrder Tenant] in
theorem settledIds_decided (hfree : s.core.free .reservations) :
    settledIds s.decided = settledIds s.history.ops := by
  have hnil : settledIds ((List.finRange n).filterMap fun i => (s.core.pc i).done) = [] := by
    rw [settledIds, List.filterMap_eq_nil_iff]
    intro op hop
    obtain ⟨i, -, hi⟩ := List.mem_filterMap.1 hop
    exact Pc.settles_of_done (of_decide_eq_true hfree i) op hi
  rw [Shared.decided, settledIds, List.filterMap_append, ← settledIds, ← settledIds, hnil,
    List.append_nil]

theorem spentBy_decided (h : Tracks s ops b) (hfree : s.core.free .reservations) (t : Tenant) :
    spentBy s.decided t = spentBy s.history.ops t := by
  have hbooked := Booked.of_run h.booked
  refine spentBy_append _ ?_ ?_ t
  · intro op hop
    obtain ⟨i, -, hi⟩ := List.mem_filterMap.1 hop
    exact Pc.settles_of_done (of_decide_eq_true hfree i) op hi
  · -- Such an identifier belongs to an open hold, and those are not settled.
    intro op hop id hid hsettled
    obtain ⟨i, -, hi⟩ := List.mem_filterMap.1 hop
    obtain ⟨r, hr⟩ := Pc.hold_of_done op hi hid
    have hopen : b.holds id = some r := (h.shown.holds id r).2 (.inr ⟨i, hr⟩)
    obtain ⟨-, hnot⟩ := (hbooked.isSome_holds id).1 (by simp [hopen])
    rw [← settledIds_decided hfree] at hsettled
    exact hnot ((h.perm_decided.filterMap _).mem_iff.2 hsettled)

end Tracks

/-! ### What the callers can rely on -/

/-- Identifiers and amounts, in the terms of what the callers were told. -/
structure SettledOnce (s : Shared Tenant n m) : Prop where
  issued_once : (issuedIds s.history.ops).Nodup
  settled_once : (settledIds s.history.ops).Nodup
  /-- In the middle of calls, up to the amount of a commit that is about to be stored. -/
  committed : ∀ t, s.core.engine.committed t + ∑ i, (s.core.pc i).spent t = spentBy s.decided t
  committed_of_free : s.core.free .reservations →
    ∀ t, s.core.engine.committed t = spentBy s.history.ops t
  /-- In the middle of calls, a hold that was not settled may be in the hands of a commit
  that has the lock. -/
  still_open : ∀ t c id, Op.reserve t c id ∈ s.history.ops → id ∉ settledIds s.decided →
    s.core.engine.reservations id = some ⟨t, c⟩ ∨
      ∃ i, (s.core.pc i).hold = some (id, ⟨t, c⟩) ∧ (s.core.pc i).holds .reservations
  open_of_free : s.core.free .reservations → ∀ t c id, Op.reserve t c id ∈ s.history.ops →
    id ∉ settledIds s.history.ops → s.core.engine.reservations id = some ⟨t, c⟩

omit [LinearOrder Tenant] in
/-- A hold out of the map is one that a call just opened, or one that it has the lock
for. -/
theorem Pc.done_or_holds_of_hold {p : Pc Tenant} : ∀ id r, p.hold = some (id, r) →
    p.done = some (.reserve r.tenant r.reserved id) ∨ p.holds .reservations := by
  cases p with
  | reserve t c stage => cases stage <;> simp
  | commit id r actual stage => exact fun _ _ _ => .inr (by cases stage <;> rfl)
  | _ => simp

theorem Tracks.settledOnce {s : Shared Tenant n m} {ops : List (Op Tenant)} {b : Book Tenant}
    (h : Tracks s ops b) : SettledOnce s := by
  have hbooked := Booked.of_run h.booked
  have hissued : (issuedIds s.decided).Nodup :=
    (h.perm_decided.filterMap _).nodup_iff.1 hbooked.issued_nodup
  have hsettled : (settledIds s.decided).Nodup :=
    (h.perm_decided.filterMap _).nodup_iff.1 hbooked.settled_nodup
  have hcommitted : ∀ t, s.core.engine.committed t + ∑ i, (s.core.pc i).spent t =
      spentBy s.decided t := by
    intro t
    rw [← spentBy_perm ops h.perm_decided, ← hbooked.committed, h.shown.committed]
  have hopen : ∀ t c id, Op.reserve t c id ∈ s.history.ops → id ∉ settledIds s.decided →
      s.core.engine.reservations id = some ⟨t, c⟩ ∨
        ∃ i, (s.core.pc i).hold = some (id, ⟨t, c⟩) ∧ (s.core.pc i).holds .reservations := by
    intro t c id hmem hnot
    have hops : Op.reserve t c id ∈ ops := h.perm_decided.mem_iff.2 (List.mem_append_left _ hmem)
    have hsome : (b.holds id).isSome := by
      rw [hbooked.isSome_holds]
      exact ⟨mem_issuedIds hops, fun hset => hnot ((h.perm_decided.filterMap _).mem_iff.1 hset)⟩
    obtain ⟨r, hr⟩ := Option.isSome_iff_exists.1 hsome
    obtain rfl := hbooked.record id r hr t c hops
    rcases (h.shown.holds id _).1 hr with hmap | ⟨i, hi⟩
    · exact .inl hmap
    · rcases Pc.done_or_holds_of_hold id _ hi with hdone | hlock
      · -- The call that issued the identifier has already returned.
        have htwice := hissued
        rw [issuedIds, Shared.decided, List.filterMap_append, List.nodup_append] at htwice
        have hpending : id ∈ issuedIds ((List.finRange n).filterMap fun i => (s.core.pc i).done) :=
          mem_issuedIds (List.mem_filterMap.2 ⟨i, List.mem_finRange i, hdone⟩)
        exact absurd rfl (htwice.2.2 id (mem_issuedIds hmem) id hpending)
      · exact .inr ⟨i, hi, hlock⟩
  refine ⟨?_, ?_, hcommitted, ?_, hopen, ?_⟩
  · exact hissued.sublist ((List.sublist_append_left _ _).filterMap _)
  · exact hsettled.sublist ((List.sublist_append_left _ _).filterMap _)
  · intro hfree t
    rw [← h.spentBy_decided hfree, ← hcommitted, sum_eq_zero, add_zero]
    intro i _
    have hi : (s.core.pc i).holds .reservations = false := of_decide_eq_true hfree i
    exact Pc.spent_eq_zero (Pc.holds_committed_of_reservations hi) t
  · intro hfree t c id hmem hnot
    rcases hopen t c id hmem (by rwa [Tracks.settledIds_decided hfree]) with hmap | ⟨i, -, hlock⟩
    · exact hmap
    · have hi : (s.core.pc i).holds .reservations = false := of_decide_eq_true hfree i
      rw [hi] at hlock
      cases hlock

/-! ### The committed amount never decreases -/

omit [LinearOrder Tenant] in
theorem Act.committed_le [DecidableEq Tenant] {free : Mutex → Bool} {gateFree : Bool}
    {e e' : Engine Tenant} {p p' : Pc Tenant} (h : Act free gateFree e p e' p')
    (hw : e.WellFormed) (hl : p.Locally e) (t : Tenant) : e.committed t ≤ e'.committed t := by
  cases h with
  | ensure hnew =>
    rw [Engine.committed_insertTenant]
    split
    · next heq => rw [heq, (hw.eq_zero hnew).2.2.1]
    · exact le_rfl
  | @store id r actual x =>
    obtain ⟨hx, -⟩ := hl.committed r.tenant actual x rfl
    obtain ⟨⟨hactual, -⟩, -⟩ := hl.sane
    rw [Engine.committed_setCommitted]
    split
    · next heq =>
      rw [heq]
      omega
    · exact le_rfl
  | _ => exact le_rfl

section

variable {s s' : Shared Tenant n m} {es es' : List (Shared.Event Tenant n m)}

theorem Shared.Step.committed_le (hstep : s.Step s') (h : Inv s.core) (t : Tenant) :
    s.core.engine.committed t ≤ s'.core.engine.committed t := by
  cases hstep with
  | @advance i fails e' p' hadvance =>
    have hl := h.locally i
    exact (h.advances hadvance).act.committed_le h.wellFormed hl t
  | _ => exact le_rfl

/-- In every run, however the calls interleave: an identifier is issued once and settled
at most once, a hold that was not settled is open, and the committed amount of a tenant
is the sum over its commits and never decreases. -/
theorem run_settledOnce (h : run Shared.step Shared.init es = some s) :
    SettledOnce s ∧ ∀ es' s', run Shared.step s es' = some s' →
      ∀ t, s.core.engine.committed t ≤ s'.core.engine.committed t := by
  obtain ⟨ops, b, htracks⟩ := Tracks.init.run h
  refine ⟨htracks.settledOnce, fun es' s' hrun t => ?_⟩
  exact run_monotone (I := fun s : Shared Tenant n m => Inv s.core)
    (R := fun s s' => s.core.engine.committed t ≤ s'.core.engine.committed t)
    (fun hs hstep => (Shared.step_inv hstep).inv hs) (fun _ => le_rfl)
    (fun h1 h2 => h1.trans h2)
    (fun hs hstep => (Shared.step_inv hstep).committed_le hs t) htracks.inv hrun

open Shared.Event in
attribute [local instance] neZero_two in
/-- A commit beyond the balance is refused, the other thread reserves, and then both
threads commit the first hold at once. -/
def refusedTrace : List (Shared.Event Unit 2 0) :=
  called 0 (.tryEnsureTenant () 10) 1 ++ called 0 (.tryReserve () 4) 8 ++
  called 0 (.commit 1 20) 6 ++ called 1 (.tryReserve () 5) 8 ++
  core (.call 0 (.commit 1 3)) :: called 1 (.commit 1 2) 0 ++
  List.replicate 7 (core (.advance 0 false)) ++ [core (.advance 1 false)]

theorem run_settledOnce_refused : ∃ s, run Shared.step Shared.init refusedTrace = some s ∧
    s.history.ops = [.ensure () 10, .reserve () 4 1, .reserve () 5 2, .commit 1 3] ∧
    s.core.engine.committed () = 3 ∧ s.core.engine.reservations 2 = some ⟨(), 5⟩ := by
  obtain ⟨s, hs, hops, hfree⟩ : ∃ s, run Shared.step Shared.init refusedTrace = some s ∧
      s.history.ops = [.ensure () 10, .reserve () 4 1, .reserve () 5 2, .commit 1 3] ∧
      s.core.free .reservations := ⟨_, rfl, rfl, by decide⟩
  obtain ⟨hsettled, -⟩ := run_settledOnce hs
  have hcommitted := hsettled.committed_of_free hfree ()
  have hopen := hsettled.open_of_free hfree () 5 2
  rw [hops] at hcommitted hopen
  exact ⟨s, hs, hops, hcommitted, hopen (by decide) (by decide)⟩

end

end Calybris.Budget
