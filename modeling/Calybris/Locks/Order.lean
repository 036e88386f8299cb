import Calybris.Transition.Run
import Mathlib.Data.Fintype.Pi
import Mathlib.Order.WellFounded

/-!
# Locks taken in order

Threads take and give back locks, shared or exclusive, along paths that are fixed when a
thread sets out. Where every path takes its locks in ascending order, each thread that
waits has only locks below the one it waits for. So the locks ascend from a waiting
thread to whoever holds what it waits for, and there is no set of threads in which each
waits for another.
-/

namespace Calybris.Locks

open Function Transition

inductive Mode where
  | shared
  | exclusive
  deriving DecidableEq

def Mode.excludes : Mode → Mode → Bool
  | .shared, .shared => false
  | _, _ => true

inductive Action (L : Type*) where
  | acquire (lock : L) (mode : Mode)
  | release (lock : L)
  deriving DecidableEq

structure Thread (L : Type*) where
  held : List (L × Mode)
  todo : List (Action L)

def Thread.idle {L : Type*} : Thread L := ⟨[], []⟩

/-! ### The paths of a guard -/

section Guards

variable {L : Type*}

def guarded (lock : L) (mode : Mode) (body : List (Action L)) : List (Action L) :=
  .acquire lock mode :: (body ++ [.release lock])

/-- The lock is taken only above those that the thread has, and at the end it has none. -/
def ordered [LT L] [DecidableLT L] [DecidableEq L] : List (L × Mode) → List (Action L) → Bool
  | held, [] => held.isEmpty
  | held, .acquire lock mode :: rest =>
    held.all (fun x => decide (x.1 < lock)) && ordered ((lock, mode) :: held) rest
  | held, .release lock :: rest => ordered (held.eraseP fun x => x.1 = lock) rest

end Guards

/-! ### Threads side by side -/

section System

variable {ι L M : Type*} [Fintype ι] [DecidableEq ι] [DecidableEq L]

inductive Event (ι M : Type*) where
  | call (thread : ι) (method : M) (path : Nat)
  | act (thread : ι)

variable (s : ι → Thread L)

def free (lock : L) (mode : Mode) : Bool :=
  decide (∀ i, ∀ x ∈ (s i).held, x.1 = lock → mode.excludes x.2 = false)

def act (i : ι) : Option (ι → Thread L) :=
  match (s i).todo with
  | [] => none
  | .acquire lock mode :: rest =>
    if free s lock mode then
      some (update s i ⟨(lock, mode) :: (s i).held, rest⟩)
    else none
  | .release lock :: rest =>
    some (update s i ⟨(s i).held.eraseP fun x => x.1 = lock, rest⟩)

def step (paths : M → List (List (Action L))) (s : ι → Thread L) :
    Event ι M → Option (ι → Thread L)
  | .call i method path =>
    if (s i).todo = [] then
      (paths method)[path]?.map fun todo => update s i ⟨(s i).held, todo⟩
    else none
  | .act i => act s i

/-! ### Waiting -/

def Holds (i : ι) (lock : L) : Prop := ∃ mode, (lock, mode) ∈ (s i).held

/-- The thread stands before a lock that somebody has. A reader before a lock that
readers have counts as well, since the lock may put it behind a writer that waits. -/
def Blocked (i : ι) (lock : L) : Prop :=
  (∃ mode rest, (s i).todo = .acquire lock mode :: rest) ∧ ∃ j, Holds s j lock

/-- Each of these threads is blocked, and so is everyone who holds the lock it waits
for. -/
structure Deadlock (threads : Set ι) : Prop where
  nonempty : threads.Nonempty
  blocked : ∀ i ∈ threads, ∃ lock, Blocked s i lock ∧ ∀ j, Holds s j lock → j ∈ threads

end System

/-! ### Order -/

section Order

variable {ι L M : Type*} [LinearOrder L] {s s' : ι → Thread L}

def Ordered (s : ι → Thread L) : Prop := ∀ i, ordered (s i).held (s i).todo

theorem Ordered.lt_of_blocked (h : Ordered s) {i : ι} {lock lock' : L} (hholds : Holds s i lock)
    (hblocked : Blocked s i lock') : lock < lock' := by
  obtain ⟨mode, hheld⟩ := hholds
  obtain ⟨⟨mode', rest, htodo⟩, -⟩ := hblocked
  have hi := h i
  rw [htodo, ordered, Bool.and_eq_true, List.all_eq_true] at hi
  exact of_decide_eq_true (hi.1 _ hheld)

/-- The locks ascend along the waits. -/
theorem Ordered.not_deadlock [WellFoundedGT L] (h : Ordered s) (threads : Set ι) :
    ¬ Deadlock s threads := by
  rintro ⟨⟨i, hi⟩, hblocked⟩
  have hclimb (lock : L) : ∀ i ∈ threads, ¬ Blocked s i lock := by
    induction lock using WellFoundedGT.induction with
    | ind lock ih =>
      intro i hi hwaits
      obtain ⟨lock', hwaits', hholders⟩ := hblocked i hi
      obtain rfl : lock = lock' := by
        obtain ⟨⟨mode, rest, htodo⟩, -⟩ := hwaits
        obtain ⟨⟨mode', rest', htodo'⟩, -⟩ := hwaits'
        cases htodo.symm.trans htodo'
        rfl
      obtain ⟨j, hj⟩ := hwaits.2
      obtain ⟨above, habove, -⟩ := hblocked j (hholders j hj)
      exact ih above (h.lt_of_blocked hj habove) j (hholders j hj) habove
  obtain ⟨lock, hwaits, -⟩ := hblocked i hi
  exact hclimb lock i hi hwaits

theorem Ordered.update [DecidableEq ι] (h : Ordered s) {i : ι} {t : Thread L}
    (ht : ordered t.held t.todo) : Ordered (update s i t) := by
  intro j
  by_cases hj : j = i
  · subst hj
    rwa [update_self]
  · rw [update_of_ne hj]
    exact h j

variable [Fintype ι] [DecidableEq ι]

theorem Ordered.act (h : Ordered s) {i : ι} (hact : Locks.act s i = some s') : Ordered s' := by
  have hi := h i
  rw [Locks.act] at hact
  split at hact
  · cases hact
  · next lock mode rest htodo =>
    rw [htodo, ordered, Bool.and_eq_true] at hi
    split_ifs at hact
    cases hact
    exact h.update hi.2
  · next lock rest htodo =>
    rw [htodo, ordered] at hi
    cases hact
    exact h.update hi

theorem Ordered.step {paths : M → List (List (Action L))}
    (hpaths : ∀ method, ∀ path ∈ paths method, ordered [] path) (h : Ordered s) {e : Event ι M}
    (hstep : Locks.step paths s e = some s') : Ordered s' := by
  cases e with
  | call i method path =>
    rw [Locks.step] at hstep
    split_ifs at hstep with hdone
    obtain ⟨todo, htodo, rfl⟩ := Option.map_eq_some_iff.1 hstep
    have hi := h i
    rw [hdone, ordered, List.isEmpty_iff] at hi
    refine h.update ?_
    rw [hi]
    exact hpaths method todo (List.mem_of_getElem? htodo)
  | act i => exact h.act hstep

theorem ordered_of_run {paths : M → List (List (Action L))}
    (hpaths : ∀ method, ∀ path ∈ paths method, ordered [] path) {es : List (Event ι M)}
    (h : run (Locks.step paths) (fun _ => Thread.idle) es = some s) : Ordered s :=
  run_invariant (I := Ordered) (fun hs hstep => hs.step hpaths hstep) (fun _ => rfl) h

theorem Ordered.exists_act [WellFoundedGT L] (h : Ordered s) {i : ι} (hi : (s i).todo ≠ []) :
    ∃ j, (Locks.act s j).isSome := by
  by_contra! hstuck
  refine h.not_deadlock {j | (s j).todo ≠ []} ⟨⟨i, hi⟩, fun j hj => ?_⟩
  have hj' := hstuck j
  rw [Locks.act] at hj'
  split at hj'
  · next hdone => exact absurd hdone hj
  · next lock mode rest htodo =>
    split_ifs at hj' with hfree
    · cases hj' rfl
    · rw [free, decide_eq_true_eq] at hfree
      push Not at hfree
      obtain ⟨k, x, hx, rfl, -⟩ := hfree
      refine ⟨x.1, ⟨⟨mode, rest, htodo⟩, k, x.2, hx⟩, ?_⟩
      rintro l ⟨mode', hl⟩ hdone
      have hlast := h l
      rw [hdone, ordered, List.isEmpty_iff] at hlast
      rw [hlast] at hl
      cases hl
  · cases hj' rfl

end Order

end Calybris.Locks
