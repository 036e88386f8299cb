import Mathlib.Algebra.Order.BigOperators.Group.Finset
import Mathlib.Algebra.BigOperators.Intervals

/-!
# The Gregorian calendar

Dates from 1970 on, with their day counted from the first of January of that year. The count
adds whole years, whole months and days, so a later date has a larger count.
-/

namespace Calybris.Calendar

open Finset

def isLeap (y : Nat) : Bool := y % 4 = 0 && (y % 100 ≠ 0 || y % 400 = 0)

def daysInMonth (y : Nat) : Nat → Nat
  | 2 => if isLeap y then 29 else 28
  | 4 | 6 | 9 | 11 => 30
  | _ => 31

def daysInYear (y : Nat) : Nat := if isLeap y then 366 else 365

structure Date where
  year : Nat
  month : Nat
  day : Nat
  year_le : 1970 ≤ year
  month_mem : 1 ≤ month ∧ month ≤ 12
  day_mem : 1 ≤ day ∧ day ≤ daysInMonth year month

def Date.dayOfYear (x : Date) : Nat :=
  ∑ i ∈ range (x.month - 1), daysInMonth x.year (i + 1) + (x.day - 1)

/-- The days since 1970-01-01. -/
def Date.dayNumber (x : Date) : Nat :=
  ∑ i ∈ range (x.year - 1970), daysInYear (1970 + i) + x.dayOfYear

def Date.Before (x y : Date) : Prop :=
  x.year < y.year ∨ x.year = y.year ∧ (x.month < y.month ∨ x.month = y.month ∧ x.day < y.day)

/-- What is left of one part is less than the parts up to a later one. -/
theorem sum_range_add_lt {f : Nat → Nat} {i j r : Nat} (hij : i < j) (hr : r < f i) :
    ∑ k ∈ range i, f k + r < ∑ k ∈ range j, f k :=
  calc ∑ k ∈ range i, f k + r < ∑ k ∈ range (i + 1), f k := by
        rw [sum_range_succ]
        exact Nat.add_lt_add_left hr _
    _ ≤ ∑ k ∈ range j, f k := sum_le_sum_of_subset (range_subset_range.2 hij)

theorem sum_daysInMonth (y : Nat) : ∑ i ∈ range 12, daysInMonth y (i + 1) = daysInYear y := by
  rw [daysInYear]
  split_ifs with h <;> simp [sum_range_succ, daysInMonth, h]

namespace Date

variable {x y : Date}

theorem day_sub_one_lt (x : Date) : x.day - 1 < daysInMonth x.year (x.month - 1 + 1) := by
  rw [Nat.sub_add_cancel x.month_mem.1]
  exact Nat.sub_one_lt_of_le x.day_mem.1 x.day_mem.2

theorem dayOfYear_lt (x : Date) : x.dayOfYear < daysInYear (1970 + (x.year - 1970)) := by
  rw [Nat.add_sub_cancel' x.year_le, ← sum_daysInMonth]
  exact sum_range_add_lt (Nat.sub_one_lt_of_le x.month_mem.1 x.month_mem.2) x.day_sub_one_lt

theorem dayNumber_lt (h : x.Before y) : x.dayNumber < y.dayNumber := by
  rcases h with hyear | ⟨hyear, hmonth | ⟨hmonth, hday⟩⟩
  · have hsum := sum_range_add_lt (f := fun i => daysInYear (1970 + i))
      (Nat.sub_lt_sub_right x.year_le hyear) x.dayOfYear_lt
    exact hsum.trans_le (Nat.le_add_right _ _)
  · have hsum := sum_range_add_lt (f := fun i => daysInMonth x.year (i + 1))
      (Nat.sub_lt_sub_right x.month_mem.1 hmonth) x.day_sub_one_lt
    rw [dayNumber, dayNumber, dayOfYear, dayOfYear, ← hyear]
    exact Nat.add_lt_add_left (hsum.trans_le (Nat.le_add_right _ _)) _
  · rw [dayNumber, dayNumber, dayOfYear, dayOfYear, ← hyear, ← hmonth]
    have := x.day_mem
    omega

theorem before_iff : x.Before y ↔ x.dayNumber < y.dayNumber := by
  refine ⟨dayNumber_lt, fun h => ?_⟩
  by_contra hnot
  by_cases hafter : y.Before x
  · exact absurd (dayNumber_lt hafter) h.not_gt
  · -- neither is before the other, so they are the same date
    obtain ⟨hyear, hmonth, hday⟩ : x.year = y.year ∧ x.month = y.month ∧ x.day = y.day := by
      simp only [Before] at hnot hafter
      omega
    rw [dayNumber, dayNumber, dayOfYear, dayOfYear, hyear, hmonth, hday] at h
    exact absurd h (Nat.lt_irrefl _)

end Date

end Calybris.Calendar
