import Calybris.Text.Basic
import Mathlib.Data.List.Lex

/-!
# The order of bytes

Byte strings are compared byte by byte. Strings of one length are then compared as the
numbers they write, highest byte first.
-/

namespace Calybris.Text

namespace ByteOrder

scoped instance instLinearOrderUInt8 : LinearOrder UInt8 where
  le_refl := UInt8.le_refl
  le_trans _ _ _ := UInt8.le_trans
  le_antisymm _ _ := UInt8.le_antisymm
  le_total := UInt8.le_total
  lt_iff_le_not_ge a b := by
    rw [UInt8.lt_iff_toNat_lt, UInt8.le_iff_toNat_le, UInt8.le_iff_toNat_le]
    omega
  toDecidableLE := inferInstance
  toDecidableEq := inferInstance
  toDecidableLT := inferInstance

end ByteOrder

open ByteOrder

theorem lt_iff_ofBigEndian_lt {a b : Bytes} (hlength : a.length = b.length) :
    a < b ↔ ofBigEndian a < ofBigEndian b := by
  induction a generalizing b with
  | nil => simp [List.length_eq_zero_iff.1 hlength.symm]
  | cons x a ih =>
    cases b with
    | nil => cases hlength
    | cons y b =>
      have hlen : a.length = b.length := Nat.succ.inj hlength
      have ha : ofBigEndian a < 256 ^ b.length := hlen ▸ ofBigEndian_lt a
      have hb := ofBigEndian_lt b
      rw [List.cons_lt_cons_iff, ih hlen, ofBigEndian_cons, ofBigEndian_cons, hlen,
        UInt8.lt_iff_toNat_lt, ← UInt8.toNat_inj]
      -- where the first bytes differ, what follows is smaller than one of them
      rcases Nat.lt_trichotomy x.toNat y.toNat with hlt | heq | hgt
      · have hstep := Nat.mul_le_mul_right (256 ^ b.length) (Nat.succ_le_of_lt hlt)
        rw [Nat.succ_mul] at hstep
        exact iff_of_true (.inl hlt) (by omega)
      · rw [heq]
        omega
      · have hstep := Nat.mul_le_mul_right (256 ^ b.length) (Nat.succ_le_of_lt hgt)
        rw [Nat.succ_mul] at hstep
        exact iff_of_false (by omega) (by omega)

end Calybris.Text
