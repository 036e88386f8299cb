import Mathlib.NumberTheory.LucasPrimality
import Mathlib.FieldTheory.Finite.Basic

/-!
# Powers modulo a number

`powMod` is found by repeated squaring, so that it can be evaluated at large exponents. With
it a number is shown to be prime from the prime factors of its predecessor, and a square root
is found modulo a prime that is 5 modulo 8.
-/

namespace Calybris.Modular

def powModBits (m : Nat) : Nat → Nat → Nat → Nat
  | 0, _, _ => 1 % m
  | bits + 1, a, n =>
    let r := powModBits m bits (a * a % m) (n / 2)
    if n % 2 = 1 then r * a % m else r

def powMod (a n m : Nat) : Nat := powModBits m (n.log2 + 1) a n

theorem powModBits_eq (m bits a n : Nat) (h : n < 2 ^ bits) :
    powModBits m bits a n = a ^ n % m := by
  induction bits generalizing a n with
  | zero => rw [powModBits, Nat.lt_one_iff.1 h, Nat.pow_zero]
  | succ bits ih =>
    have hpow : (a * a % m) ^ (n / 2) % m = a ^ (2 * (n / 2)) % m := by
      rw [← Nat.pow_mod, Nat.pow_mul, Nat.pow_two]
    rw [powModBits, ih _ _ (by omega), hpow]
    split_ifs with hodd
    · rw [Nat.mod_mul_mod, ← Nat.pow_succ, show (2 * (n / 2)).succ = n by omega]
    · rw [show 2 * (n / 2) = n by omega]

theorem powMod_eq (a n m : Nat) : powMod a n m = a ^ n % m :=
  powModBits_eq m _ a n Nat.lt_log2_self

theorem natCast_powMod (a n m : Nat) : (powMod a n m : ZMod m) = (a : ZMod m) ^ n := by
  rw [powMod_eq, ZMod.natCast_mod, Nat.cast_pow]

theorem natCast_toNat_emod {m : Nat} (hm : m ≠ 0) (z : Int) : ((z % m).toNat : ZMod m) = z := by
  rw [← Int.cast_natCast, Int.toNat_of_nonneg (Int.emod_nonneg _ (Nat.cast_ne_zero.2 hm)),
    ZMod.intCast_mod]

theorem pow_eq_neg_one {a n m : Nat} (hm : 0 < m) (h : powMod a n m = m - 1) :
    (a : ZMod m) ^ n = -1 := by
  rw [← natCast_powMod, h, Nat.cast_pred hm, ZMod.natCast_self, zero_sub]

/-- Lucas's test, with the factors of the predecessor given. -/
theorem prime_of_powMod {p : Nat} (a : Nat) (factors : List Nat) (hprime : ∀ q ∈ factors, q.Prime)
    (hprod : factors.prod + 1 = p)
    (hpow : 1 < p ∧ powMod a (p - 1) p = 1 ∧ ∀ q ∈ factors, powMod a ((p - 1) / q) p ≠ 1) :
    p.Prime := by
  obtain ⟨hone, hfull, hpart⟩ := hpow
  refine lucas_primality p a ?_ fun q hq hdvd hroot => ?_
  · rw [← natCast_powMod, hfull, Nat.cast_one]
  · rw [← hprod, Nat.add_sub_cancel, hq.prime.dvd_prod_iff] at hdvd
    obtain ⟨r, hr, hqr⟩ := hdvd
    obtain rfl := (Nat.prime_dvd_prime_iff_eq hq (hprime r hr)).1 hqr
    rw [← natCast_powMod] at hroot
    have hmod := (ZMod.natCast_eq_natCast_iff' _ 1 p).1 (hroot.trans Nat.cast_one.symm)
    rw [powMod_eq, Nat.mod_mod, ← powMod_eq, Nat.mod_eq_of_lt hone] at hmod
    exact hpart q hr hmod

/-- The power finds a root of a square, up to a root of its negative. -/
theorem sq_pow_of_sq {p : Nat} [Fact p.Prime] (hp : p % 8 = 5) {a x : ZMod p} (h : x ^ 2 = a) :
    (a ^ ((p + 3) / 8)) ^ 2 = a ∨ (a ^ ((p + 3) / 8)) ^ 2 = -a := by
  subst h
  by_cases hx : x = 0
  · exact .inl (by rw [hx, zero_pow two_ne_zero, zero_pow (by omega), zero_pow two_ne_zero])
  · have hsq : (x ^ ((p - 1) / 2)) ^ 2 = 1 := by
      rw [← pow_mul, Nat.div_mul_cancel (by omega), ZMod.pow_card_sub_one_eq_one hx]
    have hpow : ((x ^ 2) ^ ((p + 3) / 8)) ^ 2 = x ^ 2 * x ^ ((p - 1) / 2) := by
      rw [← pow_mul, ← pow_mul, ← pow_add]
      congr 1
      omega
    rw [hpow]
    rcases mul_self_eq_one_iff.1 ((pow_two _).symm.trans hsq) with hone | hneg
    · exact .inl (by rw [hone, mul_one])
    · exact .inr (by rw [hneg, mul_neg_one])

end Calybris.Modular
