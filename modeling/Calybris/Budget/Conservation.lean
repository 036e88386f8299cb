import Calybris.Budget.Acts

/-!
# Conservation under every interleaving

Over all threads, what the counters of a tenant lack or have too much is what the
threads owe. That sum is kept by every step, it bounds every counter, and where no
call is in progress nobody owes anything.
-/

namespace Calybris.Budget

open Finset Function Transition Option Engine

variable {Tenant : Type*} [DecidableEq Tenant] {n : Nat}

structure Inv (s : State Tenant n) : Prop where
  balance : ∀ t, s.engine.balance t + ∑ i, (s.pc i).heldBack t = ∑ i, (s.pc i).granted t
  uncovered : ∀ t, s.engine.uncovered t = ∑ i, (s.pc i).counted t
  granted_lt : ∀ t, s.engine.initial t + ∑ i, (s.pc i).granted t < 2 ^ 63
  wellFormed : s.engine.WellFormed
  locally : ∀ i, (s.pc i).Locally s.engine
  distinct : ∀ i j id, (s.pc i).pendingId = some id → (s.pc j).pendingId = some id → i = j
  exclusive : ∀ m, Exclusive (fun p : Pc Tenant => p.holds m) s.pc

section

variable {s s' : State Tenant n} {i j : Fin n} {e' : Engine Tenant} {p' : Pc Tenant} {t : Tenant}

theorem inv_init : Inv (State.init : State Tenant n) where
  balance t := by
    simp [State.init, new, balance, remaining, committed, initial, held, heldFor]
  uncovered t := by
    simp [State.init, new, uncovered, reservedTotal, held, heldFor]
  granted_lt t := by simp [State.init, new, initial]
  wellFormed := by
    constructor <;>
      simp [State.init, new, remaining, initial, committed, reservedTotal, recoveryAllocatorMask]
  locally i := .idle _ _
  distinct i j id h := by cases h
  exclusive m i j h := by cases m <;> cases h

namespace Inv

theorem covered (h : Inv s) (i : Fin n) : Covered s.engine (s.pc i) where
  counted t := by
    have hle : (s.pc i).counted t ≤ ∑ j, (s.pc j).counted t :=
      single_le_sum (fun j _ => (Pc.owes_nonneg (h.locally j).sane t).2) (mem_univ i)
    have hsum := h.uncovered t
    have hheld := Engine.held_nonneg h.wellFormed t
    rw [Engine.uncovered] at hsum
    omega
  heldBack t := by
    have hle : (s.pc i).heldBack t ≤ ∑ j, (s.pc j).heldBack t :=
      single_le_sum (fun j _ => (Pc.owes_nonneg (h.locally j).sane t).1) (mem_univ i)
    have hsum := h.balance t
    have hlt := h.granted_lt t
    have hheld := held_nonneg h.wellFormed t
    have hcommitted := h.wellFormed.committed_nonneg t
    rw [Engine.balance] at hsum
    omega

theorem eq_false_of_ne (h : Inv s) {m : Mutex} (hi : (s.pc i).holds m ∨ s.free m) (hj : j ≠ i) :
    (s.pc j).holds m = false :=
  (h.exclusive m).eq_false_of_ne (hi.imp_right of_decide_eq_true) hj

theorem granted_of_moves (h : Inv s) (hm : Moves s.free s.engine (s.pc i) e' p') (t : Tenant) :
    e'.initial t + (∑ j, (s.pc j).granted t - (s.pc i).granted t + p'.granted t) < 2 ^ 63 := by
  have hlt := h.granted_lt t
  rcases hm.granted with heq | ⟨hlock, hcases⟩
  · have := heq t
    omega
  · have hsum : ∑ j, (s.pc j).granted t = (s.pc i).granted t := by
      refine sum_eq_single i (fun j _ hj => ?_) (by simp)
      exact Pc.granted_eq_zero (h.eq_false_of_ne hlock hj) t
    have := hcases t
    omega

/-- What a thread relies on survives the steps of the others. -/
theorem locally_of_moves (h : Inv s) (hm : Moves s.free s.engine (s.pc i) e' p') (hj : j ≠ i) :
    (s.pc j).Locally e' := by
  refine (h.locally j).frame hm.known hm.issued ?_ ?_ ?_
  · intro id hid
    obtain ⟨hlt, hnone⟩ := (h.locally j).pending id hid
    exact hm.closed id hlt hnone fun hi => hj (h.distinct j i id hid hi)
  · intro hne
    obtain ⟨x, hx⟩ := ne_none_iff_exists'.1 hne
    rcases hm.initial with heq | hlock
    · exact heq
    · have := h.eq_false_of_ne hlock hj
      rw [Pc.holds_of_newInitial hx] at this
      cases this
  · intro hne
    obtain ⟨x, hx⟩ := ne_none_iff_exists'.1 hne
    rcases hm.committed with heq | hlock
    · exact heq
    · have := h.eq_false_of_ne hlock hj
      rw [Pc.holds_of_newCommitted hx] at this
      cases this

theorem pendingId_ne_of_moves (h : Inv s) (hm : Moves s.free s.engine (s.pc i) e' p') (hj : j ≠ i)
    {id : Nat} (hid : p'.pendingId = some id) : (s.pc j).pendingId ≠ some id := by
  intro hjd
  obtain ⟨hlt, hnone⟩ := (h.locally j).pending id hjd
  rcases hm.pendingId id hid with hi | hle | hsome
  · exact hj (h.distinct j i id hjd hi)
  · omega
  · exact hsome hnone

theorem move (h : Inv s) (hm : Moves s.free s.engine (s.pc i) e' p') :
    Inv (⟨e', update s.pc i p'⟩ : State Tenant n) where
  balance t := by
    have hheld := sum_update (mem_univ i) (fun p : Pc Tenant => p.heldBack t) s.pc p'
    have hgranted := sum_update (mem_univ i) (fun p : Pc Tenant => p.granted t) s.pc p'
    have := h.balance t
    have := hm.balance t
    simp only at hheld hgranted ⊢
    omega
  uncovered t := by
    have hcounted := sum_update (mem_univ i) (fun p : Pc Tenant => p.counted t) s.pc p'
    have := h.uncovered t
    have := hm.uncovered t
    simp only at hcounted ⊢
    omega
  granted_lt t := by
    have hgranted := sum_update (mem_univ i) (fun p : Pc Tenant => p.granted t) s.pc p'
    have := h.granted_of_moves hm t
    simp only at hgranted ⊢
    omega
  wellFormed := hm.wellFormed
  locally := by
    rw [forall_update_iff s.pc fun _ p => Pc.Locally e' p]
    exact ⟨hm.locally, fun j hj => h.locally_of_moves hm hj⟩
  distinct j k id hj hk := by
    by_cases hji : j = i <;> by_cases hki : k = i
    · rw [hji, hki]
    · simp only [hji, update_self] at hj
      simp only [update_of_ne hki] at hk
      exact absurd hk (h.pendingId_ne_of_moves hm hki hj)
    · simp only [hki, update_self] at hk
      simp only [update_of_ne hji] at hj
      exact absurd hj (h.pendingId_ne_of_moves hm hji hk)
    · simp only [update_of_ne hji] at hj
      simp only [update_of_ne hki] at hk
      exact h.distinct j k id hj hk
  exclusive m := by
    refine (h.exclusive m).update fun hold => ?_
    exact (hm.holds m hold).imp_right of_decide_eq_true

end Inv

theorem start_moves {free : Mutex → Bool} {p : Pc Tenant} {e : Engine Tenant} (c : Call Tenant)
    (hw : e.WellFormed) (hp : p.inProgress = false) : Moves free e p e c.start := by
  obtain ⟨last, rfl⟩ := Pc.eq_idle hp
  cases c with
  | tryEnsureTenant t x | topUpTenant t x | commit id x =>
    obtain ⟨-, hlt⟩ := inI64_toInt x
    simp only [Call.start]
    split
    · exact .quiet hw (.idle _ _) (by simp [Pc.alike_iff])
    · exact .quiet hw ⟨⟨by omega, hlt⟩, by simp, by simp, by simp, by simp⟩ (by simp [Pc.alike_iff])
  | trySetMaxReserved t m =>
    simp only [Call.start]
    split
    · exact .quiet hw (.idle _ _) (by simp [Pc.alike_iff])
    · exact .quiet hw ⟨trivial, by simp, by simp, by simp, by simp⟩ (by simp [Pc.alike_iff])
  | tryReserve t c =>
    obtain ⟨-, hlt⟩ := inI64_toInt c
    simp only [Call.start]
    split
    · exact .quiet hw (.idle _ _) (by simp [Pc.alike_iff])
    · exact .quiet hw ⟨⟨⟨by omega, hlt⟩, by simp⟩, by simp, by simp, by simp, by simp⟩
        (by simp [Pc.alike_iff])
  | release id =>
    rw [Call.start]
    exact .quiet hw ⟨trivial, by simp, by simp, by simp, by simp⟩ (by simp [Pc.alike_iff])

theorem Inv.advances (h : Inv s) {fails : Bool}
    (hadvance : advance s.free fails s.engine s.gateFree (s.pc i) = some (e', p')) :
    Advances s.free s.gateFree s.engine (s.pc i) e' p' :=
  advance_advances hadvance h.wellFormed (h.locally i) (h.covered i)

theorem Inv.step {ev : Event Tenant n} (h : Inv s) (hstep : s.step ev = some s') : Inv s' := by
  cases ev with
  | call i c =>
    simp only [State.step] at hstep
    split at hstep
    · cases hstep
    · next hidle =>
      cases hstep
      exact h.move (start_moves c h.wellFormed (by simpa using hidle))
  | advance i fails =>
    obtain ⟨⟨e', p'⟩, hadvance, rfl⟩ := map_eq_some_iff.1 hstep
    exact h.move (h.advances hadvance).moves

theorem inv_run {es : List (Event Tenant n)} (h : run State.step State.init es = some s) :
    Inv s :=
  run_invariant (fun hs hstep => hs.step hstep) inv_init h

namespace Inv

theorem inI64 (h : Inv s) (t : Tenant) :
    InI64 (s.engine.remaining t) ∧ InI64 (s.engine.reservedTotal t) ∧
      InI64 (s.engine.committed t) ∧ InI64 (s.engine.initial t) := by
  have hgranted : 0 ≤ ∑ i, (s.pc i).granted t :=
    sum_nonneg fun i _ => Pc.granted_nonneg (h.locally i).sane t
  have hheldBack : 0 ≤ ∑ i, (s.pc i).heldBack t :=
    sum_nonneg fun i _ => (Pc.owes_nonneg (h.locally i).sane t).1
  have hlt := h.granted_lt t
  have hbalance := h.balance t
  have hheld := Engine.held_nonneg h.wellFormed t
  have hremaining := h.wellFormed.remaining_nonneg t
  have hinitial := h.wellFormed.initial_nonneg t
  have hcommitted := h.wellFormed.committed_nonneg t
  have hcommitted_lt := h.wellFormed.committed_lt t
  have htotal := h.wellFormed.reservedTotal_nonneg t
  have htotal_lt := h.wellFormed.reservedTotal_lt t
  rw [Engine.balance] at hbalance
  exact ⟨⟨by omega, by omega⟩, ⟨by omega, by omega⟩, ⟨by omega, by omega⟩, ⟨by omega, by omega⟩⟩

theorem conserved (h : Inv s) (hq : s.Quiescent) (t : Tenant) :
    s.engine.remaining t + s.engine.reservedTotal t + s.engine.committed t = s.engine.initial t ∧
      s.engine.reservedTotal t = s.engine.held t := by
  have hzero : ∀ i, (s.pc i).heldBack t = 0 ∧ (s.pc i).counted t = 0 ∧ (s.pc i).granted t = 0 := by
    intro i
    obtain ⟨last, hi⟩ := Pc.eq_idle (hq i)
    simp [hi]
  have hbalance := h.balance t
  have huncovered := h.uncovered t
  rw [sum_eq_zero fun i _ => (hzero i).1, sum_eq_zero fun i _ => (hzero i).2.2,
    Engine.balance] at hbalance
  rw [sum_eq_zero fun i _ => (hzero i).2.1, Engine.uncovered] at huncovered
  exact ⟨by omega, by omega⟩

end Inv

/-- Along every interleaving no counter leaves its range and nothing remains below
zero, and whenever no call is in progress the amounts of every tenant add up to what
it was granted. -/
theorem run_conserves {es : List (Event Tenant n)} (h : run State.step State.init es = some s) :
    s.engine.overflowed = false ∧ s.engine.nextId < 2 ^ 64 ∧
      (∀ t r, s.engine.tenantBudgets t = some r → ∃ u c x,
        s.engine.tenantReservedTotals t = some u ∧ s.engine.committedMicrocents t = some c ∧
          s.engine.initialMicrocents t = some x ∧
          0 ≤ r ∧ InI64 r ∧ InI64 u ∧ InI64 c ∧ InI64 x ∧
          (s.Quiescent → r + u + c = x ∧ u = s.engine.held t)) ∧
      ∀ id r, s.engine.reservations id = some r → id < s.engine.nextId := by
  have hinv := inv_run h
  have hw := hinv.wellFormed
  refine ⟨hw.overflowed, ?_, ?_, fun id r hr => (hw.reservations id r hr).1⟩
  · have := hw.nextId_le
    unfold recoveryAllocatorMask at this
    omega
  · intro t r hr
    obtain ⟨hx, hc, hu⟩ := hw.isSome_of_known (t := t) (by simp [hr])
    obtain ⟨x, hx⟩ := isSome_iff_exists.1 hx
    obtain ⟨c, hc⟩ := isSome_iff_exists.1 hc
    obtain ⟨u, hu⟩ := isSome_iff_exists.1 hu
    have hnonneg := hw.remaining_nonneg t
    have hin := hinv.inI64 t
    have hsum := fun hq => hinv.conserved hq t
    simp only [remaining, reservedTotal, committed, initial, hr, hx,
      hc, hu, getD_some] at hnonneg hin hsum
    exact ⟨u, c, x, hu, hc, hx, hnonneg, hin.1, hin.2.1, hin.2.2.1, hin.2.2.2, hsum⟩

/-- Two threads reserve at once: the second finds another total than it read, goes on,
and takes its amount off again when the balance does not suffice. Then it commits more
than the first has reserved. -/
def contendedTrace : List (Event Unit 2) :=
  Event.call 0 (.tryEnsureTenant () 10) :: Event.advance 0 false ::
  Event.call 0 (.tryReserve () 4) :: Event.call 1 (.tryReserve () 7) ::
  List.replicate 3 (Event.advance 0 false) ++ List.replicate 3 (Event.advance 1 false) ++
  Event.advance 0 false :: List.replicate 2 (Event.advance 1 false) ++
  List.replicate 3 (Event.advance 0 false) ++ List.replicate 4 (Event.advance 1 false) ++
  Event.advance 0 false :: Event.call 1 (.commit 1 5) :: List.replicate 8 (Event.advance 1 false)

theorem run_conserves_contended : ∃ s, run State.step State.init contendedTrace = some s ∧
    s.engine.tenantBudgets () = some 5 ∧ s.engine.overflowed = false ∧
      ∃ u c x, 5 + u + c = x ∧ u = s.engine.held () := by
  obtain ⟨s, hs, hbudget, hq⟩ : ∃ s, run State.step State.init contendedTrace = some s ∧
      s.engine.tenantBudgets () = some 5 ∧ s.Quiescent := by
    refine ⟨_, rfl, rfl, ?_⟩
    decide
  obtain ⟨hflow, -, htenants, -⟩ := run_conserves hs
  obtain ⟨u, c, x, -, -, -, -, -, -, -, -, hsum⟩ := htenants () 5 hbudget
  exact ⟨s, hs, hbudget, hflow, u, c, x, hsum hq⟩

end

end Calybris.Budget
