import Calybris.Modular.Power
import Calybris.Note.Checkpoint
import Mathlib.NumberTheory.LegendreSymbol.Basic
import Mathlib.Tactic.NormNum.Prime

/-!
# Points of the independent verifier

`_decompress` of `verify_bundle.py` reads a point of the curve `-x² + y² = 1 + d x² y²` modulo
`2 ^ 255 - 19` from its `y` and the parity of its `x`, which it finds by a power and a root
of `-1`.
-/

namespace Calybris.Verify.Ed25519

open Calybris.Text Calybris.Note Calybris.Modular

def p : Nat := 2 ^ 255 - 19

def d : Nat := (-121665 * (powMod 121666 (p - 2) p : Int) % p).toNat

def sqrtM1 : Nat := powMod 2 ((p - 1) / 4) p

def root (x2 : Nat) : Nat :=
  let x := powMod x2 ((p + 3) / 8) p
  if (x * x - x2 : Int) % p ≠ 0 then x * sqrtM1 % p else x

def decompress (s : Bytes) : Option (Nat × Nat × Nat × Nat) :=
  if s.length ≠ 32 then none
  else
    let sign := ofBigEndian s.reverse >>> 255
    let y := ofBigEndian s.reverse &&& (1 <<< 255 - 1)
    if p ≤ y then none
    else
      let x2 := ((y * y - 1 : Int) * powMod (d * y * y + 1) (p - 2) p % p).toNat
      let x := root x2
      if (x * x - x2 : Int) % p ≠ 0 ∨ (x = 0 ∧ sign ≠ 0) then none
      else
        let x := if x &&& 1 ≠ sign then p - x else x
        some (x, y, 1, x * y % p)

/-! ### The field -/

theorem prime_p : p.Prime := by
  have h10 : Nat.Prime 2773320623 :=
    prime_of_powMod 5 [2, 2437, 569003] (by norm_num) rfl (by decide +kernel)
  have h11 : Nat.Prime 72106336199 :=
    prime_of_powMod 7 [2, 13, 2773320623] (by simp [h10]; norm_num) rfl (by decide +kernel)
  have h16 : Nat.Prime 1919519569386763 :=
    prime_of_powMod 2 [2, 3, 7, 19, 47, 47, 127, 8574133] (by norm_num) rfl (by decide +kernel)
  have h17 : Nat.Prime 31757755568855353 :=
    prime_of_powMod 10 [2, 2, 2, 3, 31, 107, 223, 4153, 430751] (by norm_num) rfl
      (by decide +kernel)
  have h35 : Nat.Prime 75445702479781427272750846543864801 :=
    prime_of_powMod 7 [2, 2, 2, 2, 2, 3, 3, 5, 5, 75707, 72106336199, 1919519569386763]
      (by simp [h11, h16]; norm_num) rfl (by decide +kernel)
  have h71 : Nat.Prime 74058212732561358302231226437062788676166966415465897661863160754340907 :=
    prime_of_powMod 2 [2, 3, 353, 57467, 132049, 1923133, 31757755568855353,
      75445702479781427272750846543864801] (by simp [h17, h35]; norm_num) rfl (by decide +kernel)
  exact prime_of_powMod 2 [2, 2, 3, 65147,
    74058212732561358302231226437062788676166966415465897661863160754340907]
    (by simp [h71]; norm_num) rfl (by decide +kernel)

instance : Fact p.Prime := ⟨prime_p⟩

theorem sqrtM1_sq : (sqrtM1 : ZMod p) ^ 2 = -1 := by
  rw [sqrtM1, natCast_powMod, ← pow_mul]
  exact pow_eq_neg_one (by decide) (by decide +kernel)

theorem not_isSquare_d : ¬ IsSquare (d : ZMod p) := by
  have hpow : (d : ZMod p) ^ (p / 2) = -1 := pow_eq_neg_one (by decide) (by decide +kernel)
  have : Fact (2 < p) := ⟨by decide⟩
  intro hsq
  have hne : (d : ZMod p) ≠ 0 := by
    intro hzero
    rw [hzero, zero_pow (by decide)] at hpow
    exact neg_ne_zero.2 one_ne_zero hpow.symm
  rw [(ZMod.euler_criterion p hne).1 hsq] at hpow
  exact ZMod.neg_one_ne_one hpow.symm

def OnCurve (x y : ZMod p) : Prop := -x ^ 2 + y ^ 2 = 1 + d * x ^ 2 * y ^ 2

theorem denominator_ne_zero (y : ZMod p) : d * y * y + 1 ≠ 0 := by
  intro hzero
  have hy : y ≠ 0 := by
    rintro rfl
    rw [mul_zero, zero_add] at hzero
    exact one_ne_zero hzero
  refine not_isSquare_d ⟨sqrtM1 / y, ?_⟩
  have hi := sqrtM1_sq
  field_simp
  linear_combination hzero - hi

theorem onCurve_iff (x y : ZMod p) :
    OnCurve x y ↔ x ^ 2 = (y * y - 1) * (d * y * y + 1) ^ (p - 2) := by
  have hne := denominator_ne_zero y
  have hinv : (d * y * y + 1) ^ (p - 2) = (d * y * y + 1)⁻¹ := by
    refine eq_inv_of_mul_eq_one_left ?_
    rw [← pow_succ]
    exact ZMod.pow_card_sub_one_eq_one hne
  rw [hinv, ← div_eq_mul_inv, eq_div_iff hne, OnCurve]
  constructor <;> intro h <;> linear_combination -h

/-! ### Roots -/

theorem emod_eq_zero_iff (x x2 : Nat) :
    (x * x - x2 : Int) % p = 0 ↔ (x : ZMod p) ^ 2 = x2 := by
  rw [← Int.dvd_iff_emod_eq_zero, ← ZMod.intCast_zmod_eq_zero_iff_dvd]
  push_cast
  rw [sub_eq_zero, pow_two]

theorem root_lt (x2 : Nat) : root x2 < p := by
  rw [root]
  split_ifs
  · rw [powMod_eq]
    exact Nat.mod_lt _ (by decide)
  · exact Nat.mod_lt _ (by decide)

theorem root_sq {x2 : Nat} {z : ZMod p} (h : z ^ 2 = x2) : (root x2 : ZMod p) ^ 2 = x2 := by
  have hroot := sq_pow_of_sq (by decide) h
  rw [← natCast_powMod] at hroot
  rw [root]
  split_ifs with hx
  · rw [ne_eq, emod_eq_zero_iff] at hx
    rw [ZMod.natCast_mod, Nat.cast_mul, mul_pow, sqrtM1_sq, hroot.resolve_left hx, neg_mul_neg,
      mul_one]
  · rwa [not_not, emod_eq_zero_iff] at hx

/-- A point is returned exactly where the `y` is one of the field, the curve has a solution,
and that is not zero with its sign set. The `x` is then a solution with the parity asked for. -/
theorem decompress_exact (s : Bytes32) :
    let sign := ofBigEndian s.1.reverse / 2 ^ 255
    let y := ofBigEndian s.1.reverse % 2 ^ 255
    ((decompress s.1).isSome ↔
      y < p ∧ ∃ x : ZMod p, OnCurve x y ∧ ¬ (x = 0 ∧ sign = 1)) ∧
    (decompress s.1 = none ∨ ∃ x : Nat, decompress s.1 = some (x, y, 1, x * y % p) ∧
      x < p ∧ OnCurve x y ∧ x % 2 = sign) := by
  intro sign y
  have hsign : sign < 2 := by
    have hlt := ofBigEndian_lt s.1.reverse
    rw [List.length_reverse, s.2] at hlt
    exact Nat.div_lt_of_lt_mul (hlt.trans_eq (by decide))
  have hshift : ofBigEndian s.1.reverse >>> 255 = sign := Nat.shiftRight_eq_div_pow _ _
  have hmask : ofBigEndian s.1.reverse &&& (1 <<< 255 - 1) = y :=
    Nat.and_two_pow_sub_one_eq_mod _ 255
  rw [decompress, if_neg (not_not.2 s.2)]
  simp only [hshift, hmask, Nat.and_one_is_mod]
  clear_value sign y
  by_cases hy : p ≤ y
  · rw [if_pos hy]
    exact ⟨iff_of_false Bool.false_ne_true fun h => h.1.not_ge hy, .inl rfl⟩
  rw [if_neg hy]
  have hcurve (z : ZMod p) : OnCurve z y ↔
      z ^ 2 = (((y * y - 1 : Int) * powMod (d * y * y + 1) (p - 2) p % p).toNat : Nat) := by
    rw [natCast_toNat_emod (by decide), onCurve_iff]
    push_cast [natCast_powMod]
    rfl
  generalize ((y * y - 1 : Int) * powMod (d * y * y + 1) (p - 2) p % p).toNat = x2 at *
  have hlt := root_lt x2
  by_cases hroot : (root x2 : ZMod p) ^ 2 = x2
  swap
  · rw [if_pos (.inl ((emod_eq_zero_iff _ _).not.2 hroot))]
    refine ⟨iff_of_false Bool.false_ne_true ?_, .inl rfl⟩
    rintro ⟨-, z, hz, -⟩
    exact hroot (root_sq ((hcurve z).1 hz))
  by_cases hzero : root x2 = 0 ∧ sign ≠ 0
  · rw [if_pos (.inr hzero)]
    refine ⟨iff_of_false Bool.false_ne_true ?_, .inl rfl⟩
    rintro ⟨-, z, hz, hsolution⟩
    rw [hcurve, ← hroot, hzero.1, Nat.cast_zero, zero_pow two_ne_zero] at hz
    exact hsolution ⟨pow_eq_zero_iff two_ne_zero |>.1 hz, by omega⟩
  · rw [if_neg (not_or.2 ⟨not_not.2 ((emod_eq_zero_iff _ _).2 hroot), hzero⟩)]
    refine ⟨iff_of_true rfl ⟨not_le.1 hy, root x2, (hcurve _).2 hroot, fun h => ?_⟩,
      .inr ⟨_, rfl, ?_⟩⟩
    · have hdvd := (ZMod.natCast_eq_zero_iff _ _).1 h.1
      exact hzero ⟨Nat.eq_zero_of_dvd_of_lt hdvd hlt, by omega⟩
    · have hodd : p % 2 = 1 := by decide
      split_ifs with hparity
      · refine ⟨by omega, (hcurve _).2 ?_, by omega⟩
        rw [Nat.cast_sub hlt.le, ZMod.natCast_self, zero_sub, neg_sq, hroot]
      · exact ⟨hlt, (hcurve _).2 hroot, not_not.1 hparity⟩

end Calybris.Verify.Ed25519
