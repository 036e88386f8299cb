import Mathlib.Algebra.BigOperators.Group.Finset.Piecewise
import Mathlib.Algebra.Order.BigOperators.Group.Finset
import Mathlib.Tactic.Abel

/-!
# Families of which one member changes

The local states of threads, or the cells of a map, of which a step rewrites one.
A sum over the family changes by what that member contributes, and a lock that only
one member can hold stays exclusive when the member that takes it found it free.
-/

namespace Calybris.Transition

theorem neZero_one : NeZero 1 := ⟨Nat.one_ne_zero⟩

theorem neZero_two : NeZero 2 := ⟨Nat.succ_ne_zero 1⟩

open Finset Function

variable {ι α M : Type*} [DecidableEq ι]

theorem sum_update_add [AddCommMonoid M] {s : Finset ι} {i : ι} (hi : i ∈ s) (f : α → M)
    (c : ι → α) (a : α) :
    ∑ j ∈ s, f (update c i a j) + f (c i) = ∑ j ∈ s, f (c j) + f a := by
  have hupdate : (fun j => f (update c i a j)) = update (f ∘ c) i (f a) := by
    rw [← comp_update]
    rfl
  rw [hupdate, sum_update_of_mem hi, sum_eq_add_sum_sdiff_singleton_of_mem hi (fun j => f (c j))]
  simp only [comp_apply]
  abel

theorem sum_update [AddCommGroup M] {s : Finset ι} {i : ι} (hi : i ∈ s) (f : α → M)
    (c : ι → α) (a : α) :
    ∑ j ∈ s, f (update c i a j) = ∑ j ∈ s, f (c j) - f (c i) + f a := by
  rw [sub_add_eq_add_sub, eq_sub_iff_add_eq, sum_update_add hi]

def Exclusive (holds : α → Bool) (c : ι → α) : Prop :=
  ∀ i j, holds (c i) → holds (c j) → i = j

namespace Exclusive

variable {holds : α → Bool} {c : ι → α} {i : ι} {a : α}

omit [DecidableEq ι] in
theorem eq_false_of_ne (h : Exclusive holds c) (hi : holds (c i) ∨ ∀ k, holds (c k) = false)
    {j : ι} (hj : j ≠ i) : holds (c j) = false := by
  rcases hi with hi | hfree
  · by_contra hne
    exact hj (h j i (by simpa using hne) hi)
  · exact hfree j

theorem update (h : Exclusive holds c)
    (ha : holds a → holds (c i) ∨ ∀ j, holds (c j) = false) :
    Exclusive holds (update c i a) := by
  have key : ∀ j, j ≠ i → holds (c j) → ¬ holds a := by
    intro j hj hcj hold
    simp [h.eq_false_of_ne (ha hold) hj] at hcj
  intro j k hj hk
  by_cases hji : j = i <;> by_cases hki : k = i
  · rw [hji, hki]
  · rw [hji, update_self] at hj
    rw [update_of_ne hki] at hk
    exact absurd hj (key k hki hk)
  · rw [hki, update_self] at hk
    rw [update_of_ne hji] at hj
    exact absurd hk (key j hji hj)
  · rw [update_of_ne hji] at hj
    rw [update_of_ne hki] at hk
    exact h j k hj hk

end Exclusive

end Calybris.Transition
