import Mathlib.Data.Int.Interval
import Mathlib.Data.List.MinMax
import Mathlib.Tactic.Ring
import Mathlib.Tactic.Linarith

/-!
# Fixed-width arithmetic with explicit overflow

A machine word is one of the core types `UInt16`, `UInt32`, `UInt64`, whose
operators wrap. The checked operations return `none` where the exact result
does not fit the word. The 128-bit integers have no core type: they are `Int`
and `Nat`, and `i128? x` keeps `x` when it fits and is `none` otherwise, so a
computation that returns `some` has stepped only through representable values.

The lemmas read every operation back as the exact operation on `Nat` or `Int`.
-/

namespace Calybris.Machine

def checkedMul (a b : UInt64) : Option UInt64 :=
  if a.toNat * b.toNat < 2 ^ 64 then some (a * b) else none

def checkedAdd (a b : UInt64) : Option UInt64 :=
  if a.toNat + b.toNat < 2 ^ 64 then some (a + b) else none

def checkedAdd16 (a b : UInt16) : Option UInt16 :=
  if a.toNat + b.toNat < 2 ^ 16 then some (a + b) else none

def saturatingAdd16 (a b : UInt16) : UInt16 :=
  if a.toNat + b.toNat < 2 ^ 16 then a + b else UInt16.ofNat (2 ^ 16 - 1)

def i128? (x : Int) : Option Int :=
  if -2 ^ 127 ≤ x ∧ x < 2 ^ 127 then some x else none

def saturatingMul128 (a b : Nat) : Nat := min (a * b) (2 ^ 128 - 1)

def saturatingAdd128 (a b : Nat) : Nat := min (a + b) (2 ^ 128 - 1)

def maxOrDefault {α : Type*} [Max α] [OfNat α 0] (xs : List α) : α :=
  xs.max?.getD 0

theorem checkedMul_eq_some {a b c : UInt64} (h : checkedMul a b = some c) :
    c = a * b ∧ a.toNat * b.toNat < 2 ^ 64 := by
  unfold checkedMul at h
  split at h
  · next hlt => exact ⟨(Option.some.inj h).symm, hlt⟩
  · cases h

theorem checkedMul_isSome_iff (a b : UInt64) :
    (checkedMul a b).isSome = true ↔ a.toNat * b.toNat < 2 ^ 64 := by
  unfold checkedMul
  split <;> simp_all

theorem checkedAdd_eq_some {a b c : UInt64} (h : checkedAdd a b = some c) :
    c = a + b ∧ a.toNat + b.toNat < 2 ^ 64 := by
  unfold checkedAdd at h
  split at h
  · next hlt => exact ⟨(Option.some.inj h).symm, hlt⟩
  · cases h

theorem checkedAdd_isSome_iff (a b : UInt64) :
    (checkedAdd a b).isSome = true ↔ a.toNat + b.toNat < 2 ^ 64 := by
  unfold checkedAdd
  split <;> simp_all

theorem toNat_mul_of_lt {a b : UInt64} (h : a.toNat * b.toNat < 2 ^ 64) :
    (a * b).toNat = a.toNat * b.toNat := by
  rw [UInt64.toNat_mul, Nat.mod_eq_of_lt h]

theorem toNat_add_of_lt {a b : UInt64} (h : a.toNat + b.toNat < 2 ^ 64) :
    (a + b).toNat = a.toNat + b.toNat := by
  rw [UInt64.toNat_add, Nat.mod_eq_of_lt h]

theorem checkedAdd16_one {a : UInt16} (h : a.toNat < 2 ^ 16 - 1) :
    ∃ c, checkedAdd16 a 1 = some c ∧ c.toNat = a.toNat + 1 := by
  have hlt : a.toNat + (1 : UInt16).toNat < 2 ^ 16 := by
    have hone : (1 : UInt16).toNat = 1 := rfl
    omega
  refine ⟨a + 1, ?_, ?_⟩
  · simp only [checkedAdd16, if_pos hlt]
  · rw [UInt16.toNat_add, Nat.mod_eq_of_lt hlt]
    rfl

theorem toNat_saturatingAdd16_one (a : UInt16) :
    (saturatingAdd16 a 1).toNat = min (2 ^ 16 - 1) (a.toNat + 1) := by
  have hone : (1 : UInt16).toNat = 1 := rfl
  have hsize := a.toNat_lt
  unfold saturatingAdd16
  split
  · next hlt =>
    rw [UInt16.toNat_add, Nat.mod_eq_of_lt hlt, hone]
    omega
  · next hge =>
    rw [hone] at hge
    have hlimit : (UInt16.ofNat (2 ^ 16 - 1)).toNat = 2 ^ 16 - 1 := rfl
    rw [hlimit]
    omega

theorem i128?_of_bounds {x : Int} (hlo : -2 ^ 127 ≤ x) (hhi : x < 2 ^ 127) :
    i128? x = some x := by
  unfold i128?
  rw [if_pos ⟨hlo, hhi⟩]

theorem saturatingMul128_of_lt {a b : Nat} (h : a * b < 2 ^ 128) :
    saturatingMul128 a b = a * b := by
  unfold saturatingMul128
  omega

theorem saturatingAdd128_of_lt {a b : Nat} (h : a + b < 2 ^ 128) :
    saturatingAdd128 a b = a + b := by
  unfold saturatingAdd128
  omega

/-- Every element is at most the greatest one, read through a map to `Nat` that
turns maxima into maxima. -/
theorem le_maxOrDefault {α : Type*} [Max α] [OfNat α 0] (toNat : α → Nat)
    (hmax : ∀ a b, toNat (max a b) = max (toNat a) (toNat b))
    {xs : List α} {x : α} (hx : x ∈ xs) :
    toNat x ≤ toNat (maxOrDefault xs) := by
  have hfold : ∀ (ys : List α) (a : α), toNat a ≤ toNat (ys.foldl max a) ∧
      ∀ y ∈ ys, toNat y ≤ toNat (ys.foldl max a) := by
    intro ys
    induction ys with
    | nil => simp
    | cons b ys ih =>
      intro a
      obtain ⟨hacc, hmem⟩ := ih (max a b)
      rw [hmax] at hacc
      simp only [List.foldl_cons, List.mem_cons]
      refine ⟨by omega, ?_⟩
      rintro y (rfl | hy)
      · omega
      · exact hmem y hy
  cases xs with
  | nil => simp at hx
  | cons a ys =>
    rw [maxOrDefault, List.max?_cons', Option.getD_some]
    rcases List.mem_cons.1 hx with rfl | hx
    · exact (hfold ys x).1
    · exact (hfold ys a).2 x hx

theorem toNat_toUInt64_max_zero (x : Int64) :
    (max x 0).toUInt64.toNat = x.toInt.toNat := by
  have hnonneg : (0 : Int64) ≤ max x 0 ∧ (max x 0).toInt = max x.toInt 0 := by
    show (0 : Int64) ≤ (if x ≤ 0 then 0 else x) ∧ (if x ≤ 0 then (0 : Int64) else x).toInt = _
    split
    · next h =>
      have hx : x.toInt ≤ 0 := by simpa using Int64.le_iff_toInt_le.1 h
      exact ⟨Int64.le_iff_toInt_le.2 (by simp), by simp; omega⟩
    · next h =>
      have hx : 0 < x.toInt := by
        by_contra hneg
        exact h (Int64.le_iff_toInt_le.2 (by simpa using hneg))
      refine ⟨Int64.le_iff_toInt_le.2 (by simp; omega), by omega⟩
  rw [Int64.toNat_toUInt64_of_le hnonneg.1]
  show ((max x 0).toInt).toNat = _
  rw [hnonneg.2]
  omega

theorem toInt_ofIntClamp (x : Int) :
    (Int64.ofIntClamp x).toInt = max (-2 ^ 63) (min (2 ^ 63 - 1) x) := by
  unfold Int64.ofIntClamp
  split
  · split
    · rw [Int64.toInt_ofIntLE]
      simp only [Int64.toInt_minValue, Int64.toInt_maxValue] at *
      omega
    · simp only [Int64.toInt_maxValue] at *
      omega
  · simp only [Int64.toInt_minValue] at *
    omega

end Calybris.Machine
