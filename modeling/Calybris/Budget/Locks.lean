import Calybris.Locks.Order
import Mathlib.Data.Fintype.Order

/-!
# The locks of the engine

Which locks the methods of the engine take, in which order, on each of the ways through
them. The amounts are left out: a method may take any of its ways. The checkpoint gate
is a reader-writer lock, all the others are mutexes.
-/

namespace Calybris.Budget

open Transition Locks

/-- In the order in which they are taken. -/
inductive Lock where
  | checkpointGate
  | reservations
  | tenantBudgets
  | initialMicrocents
  | committedMicrocents
  | tenantReservedTotals
  | maxReservedMicrocents
  | lastCertifiedCommittedTotal

namespace Lock

def rank : Lock → Nat
  | .checkpointGate => 0
  | .reservations => 1
  | .tenantBudgets => 2
  | .initialMicrocents => 3
  | .committedMicrocents => 4
  | .tenantReservedTotals => 5
  | .maxReservedMicrocents => 6
  | .lastCertifiedCommittedTotal => 7

theorem rank_injective : Function.Injective rank := by
  intro a b
  cases a <;> cases b <;> simp [rank]

instance linearOrder : LinearOrder Lock := LinearOrder.lift' rank rank_injective

theorem rank_lt (l : Lock) : rank l < 8 := by
  cases l <;> decide

instance finite : Finite Lock :=
  Finite.of_injective (fun l => (⟨rank l, rank_lt l⟩ : Fin 8)) fun _ _ h =>
    rank_injective (Fin.mk.inj h)

end Lock

inductive Method where
  | trySetMaxReservedMicrocents
  | snapshotVersion
  | tryTotalCommittedMicrocents
  | committedSinceLastCertificate
  | rotateCertificateBaseline
  | restoreFromSnapshot
  | tryEnsureTenant
  | topUpTenant
  | initialMicrocents
  | committedMicrocents
  | reservedMicrocents
  | trySnapshot
  | remainingMicrocents
  | tryReserve
  | commit
  | release
  | tenantCount
  | activeReservations
  deriving DecidableEq

namespace Method

def lock (mutex : Lock) (body : List (Action Lock)) : List (Action Lock) :=
  guarded mutex .exclusive body

def read (body : List (Action Lock)) : List (Action Lock) := guarded .checkpointGate .shared body

def write (body : List (Action Lock)) : List (Action Lock) :=
  guarded .checkpointGate .exclusive body

/-- The ways through a method. An empty one returns before any lock is taken. -/
def paths : Method → List (List (Action Lock))
  | .trySetMaxReservedMicrocents => [[], write (lock .maxReservedMicrocents [])]
  | .snapshotVersion => [[]]
  | .tryTotalCommittedMicrocents => [lock .committedMicrocents []]
  | .committedSinceLastCertificate =>
    -- the total is computed and its guard dropped before the baseline is read
    [lock .committedMicrocents [] ++ lock .lastCertifiedCommittedTotal []]
  | .rotateCertificateBaseline => [lock .lastCertifiedCommittedTotal []]
  | .restoreFromSnapshot =>
    [[],
      write (lock .reservations [] ++
        lock .tenantBudgets (lock .initialMicrocents (lock .committedMicrocents
          (lock .tenantReservedTotals (lock .maxReservedMicrocents
            (lock .lastCertifiedCommittedTotal []))))))]
  | .tryEnsureTenant =>
    [[],
      read (lock .tenantBudgets (lock .initialMicrocents (lock .committedMicrocents
        (lock .tenantReservedTotals []))))]
  | .topUpTenant =>
    [[],
      -- no such tenant
      read (lock .tenantBudgets []),
      read (lock .tenantBudgets [] ++ lock .initialMicrocents [])]
  | .initialMicrocents => [lock .initialMicrocents []]
  | .committedMicrocents => [lock .committedMicrocents []]
  | .reservedMicrocents => [lock .tenantReservedTotals []]
  | .trySnapshot =>
    [write (lock .reservations (lock .tenantBudgets (lock .initialMicrocents
      (lock .committedMicrocents (lock .tenantReservedTotals [])))))]
  | .remainingMicrocents => [lock .tenantBudgets []]
  | .tryReserve =>
    [[],
      -- no such tenant
      read (lock .tenantBudgets (lock .tenantReservedTotals [])),
      -- over the cap, out of identifiers or out of budget
      read (lock .tenantBudgets (lock .tenantReservedTotals []) ++
        lock .maxReservedMicrocents []),
      read (lock .tenantBudgets (lock .tenantReservedTotals []) ++
        lock .maxReservedMicrocents [] ++ lock .reservations [])]
  | .commit =>
    [[],
      -- no such reservation
      read (lock .reservations []),
      -- no such tenant
      read (lock .reservations (lock .tenantBudgets [])),
      -- the sum overflows, or the balance does not cover an overrun
      read (lock .reservations (lock .tenantBudgets [] ++ lock .committedMicrocents [])),
      read (lock .reservations (lock .tenantBudgets [] ++ lock .committedMicrocents [] ++
        lock .tenantReservedTotals []))]
  | .release =>
    [read (lock .reservations []),
      read (lock .reservations (lock .tenantBudgets [])),
      read (lock .reservations (lock .tenantBudgets [] ++ lock .tenantReservedTotals []))]
  | .tenantCount => [lock .tenantBudgets []]
  | .activeReservations => [lock .reservations []]

theorem ordered_paths : ∀ method, ∀ path ∈ paths method, ordered [] path := by
  intro method
  cases method <;> decide

end Method

variable {ι : Type*} [Fintype ι] [DecidableEq ι]

/-- Whatever methods the threads call and however they interleave, there are no threads
each of which waits for a lock that only others of them hold, and as long as a call is
under way some thread can go on. -/
theorem never_deadlocks {es : List (Locks.Event ι Method)} {s : ι → Thread Lock}
    (h : run (Locks.step Method.paths) (fun _ => Thread.idle) es = some s) :
    (∀ threads : Set ι, ¬ Deadlock s threads) ∧
      ∀ i, (s i).todo ≠ [] → ∃ j, (Locks.act s j).isSome := by
  have hordered : Ordered s := ordered_of_run Method.ordered_paths h
  exact ⟨hordered.not_deadlock, fun i => hordered.exists_act⟩

def waitingTrace : List (Locks.Event Bool Method) :=
  [.call false .commit 4, .act false, .act false, .call true .trySnapshot 0]

theorem never_deadlocks_waiting : ∃ s : Bool → Thread Lock,
    run (Locks.step Method.paths) (fun _ => Thread.idle) waitingTrace = some s ∧
      Blocked s true .checkpointGate ∧ Holds s false .reservations ∧
      ∀ threads, ¬ Deadlock s threads := by
  obtain ⟨s, hrun, hblocked, hholds⟩ : ∃ s : Bool → Thread Lock,
      run (Locks.step Method.paths) (fun _ => Thread.idle) waitingTrace = some s ∧
        Blocked s true .checkpointGate ∧ Holds s false .reservations := by
    refine ⟨_, rfl, ⟨⟨_, _, rfl⟩, false, .shared, ?_⟩, ⟨.exclusive, ?_⟩⟩
    · exact List.mem_cons_of_mem _ List.mem_cons_self
    · exact List.mem_cons_self
  exact ⟨s, hrun, hblocked, hholds, (never_deadlocks hrun).1⟩

end Calybris.Budget
