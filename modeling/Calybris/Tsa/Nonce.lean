import Calybris.Text.Basic
import Mathlib.Data.List.TakeWhile

/-!
# The nonce of a timestamp token

A request may carry a nonce, and the token that answers it is to carry the same one. The two
are compared as content bytes without their leading zeros (`tsa.rs`), so the sign of what was
returned is not read: a returned `-1` is the byte `ff`, which is what is left of a sent 255.
-/

namespace Calybris.Tsa

open Calybris.Text
open List

/-- The shortest two's-complement bytes of an integer. -/
def Minimal : Bytes → Prop
  | [] => False
  | [_] => True
  | b :: c :: _ => ¬ (b = 0 ∧ c < 0x80) ∧ ¬ (b = 0xff ∧ 0x80 ≤ c)

structure DerInt where
  asBytes : Bytes
  minimal : Minimal asBytes

def DerInt.toInt (i : DerInt) : Int :=
  if i.asBytes.head?.any (0x80 ≤ ·) then ofBigEndian i.asBytes - 256 ^ i.asBytes.length
  else ofBigEndian i.asBytes

def trimmed (bytes : Bytes) : Bytes := bytes.dropWhile (· == 0)

theorem trimmed_head_ne {bytes rest : Bytes} {b : UInt8} (h : trimmed bytes = b :: rest) :
    b ≠ 0 := by
  have hne : bytes.dropWhile (· == 0) ≠ [] := fun hnil => cons_ne_nil b rest (h ▸ hnil)
  have hhead := head_dropWhile_not (· == 0) hne
  simpa [show bytes.dropWhile (· == 0) = b :: rest from h] using hhead

def positiveInt (bytes : Bytes) : DerInt where
  asBytes := (if (trimmed bytes).head?.all (0x80 ≤ ·) then [0] else []) ++ trimmed bytes
  minimal := by
    rcases h : trimmed bytes with - | ⟨b, - | ⟨c, rest⟩⟩
    · trivial
    · have hb := trimmed_head_ne h
      by_cases hhigh : 0x80 ≤ b <;> simp [hhigh, Minimal, UInt8.not_lt.2]
    · have hb := trimmed_head_ne h
      by_cases hhigh : 0x80 ≤ b
      · simp [hhigh, Minimal, UInt8.not_lt.2 hhigh]
      · have hne : b ≠ 0xff := fun h => hhigh (h ▸ by decide)
        simp [hhigh, Minimal, hb, hne]

def intValue (i : DerInt) : Bytes :=
  let zeros := (i.asBytes.takeWhile (· == 0)).length
  i.asBytes.drop (min zeros (i.asBytes.length - 1))

def nonceMatches (nonce : UInt64) : Option DerInt → Bool
  | some got => intValue got == intValue (positiveInt (toBigEndian 8 nonce.toNat))
  | none => false

theorem trimmed_replicate_append (n : Nat) (bytes : Bytes) :
    trimmed (replicate n 0 ++ bytes) = trimmed bytes :=
  dropWhile_append_of_pos fun _ hb => beq_iff_eq.2 (eq_of_mem_replicate hb)

theorem ofBigEndian_trimmed (bytes : Bytes) : ofBigEndian (trimmed bytes) = ofBigEndian bytes := by
  induction bytes with
  | nil => rfl
  | cons b bytes ih =>
    by_cases hb : b = 0
    · rw [hb, ofBigEndian_cons, UInt8.toNat_zero, Nat.zero_mul, Nat.zero_add, ← ih]
      rfl
    · rw [trimmed, dropWhile_cons_of_neg (by simpa using hb)]

theorem trimmed_eq_trimmed_iff {a b : Bytes} :
    trimmed a = trimmed b ↔ ofBigEndian a = ofBigEndian b := by
  refine ⟨fun h => ?_, fun h => ?_⟩
  · rw [← ofBigEndian_trimmed a, h, ofBigEndian_trimmed]
  · -- both are written with one length, and are then the same bytes
    have hpadded : replicate b.length 0 ++ a = replicate a.length 0 ++ b := by
      rw [← toBigEndian_ofBigEndian (_ ++ a), ← toBigEndian_ofBigEndian (_ ++ b)]
      simp only [length_append, length_replicate, ofBigEndian_append, ofBigEndian_replicate_zero,
        h, Nat.zero_mul, Nat.add_comm b.length]
    rw [← trimmed_replicate_append b.length, hpadded, trimmed_replicate_append]

theorem intValue_eq (i : DerInt) :
    intValue i = if trimmed i.asBytes = [] then [0] else trimmed i.asBytes := by
  obtain ⟨bytes, hminimal⟩ := i
  have happend := takeWhile_append_dropWhile (p := (· == 0)) (l := bytes)
  have hzeros : bytes.takeWhile (· == 0) = replicate (bytes.takeWhile (· == 0)).length 0 :=
    eq_replicate_of_mem fun b hb => by simpa using mem_takeWhile_imp hb
  rw [intValue]
  generalize (bytes.takeWhile (· == 0)).length = n at *
  rw [hzeros] at happend
  rcases htrimmed : trimmed bytes with - | ⟨b, rest⟩
  · rw [← trimmed, htrimmed, append_nil] at happend
    obtain - | n := n
    · rw [← happend] at hminimal
      exact hminimal.elim
    · simp [← happend]
  · rw [← trimmed, htrimmed] at happend
    simp [← happend]

theorem ofBigEndian_positiveInt (bytes : Bytes) :
    ofBigEndian (positiveInt bytes).asBytes = ofBigEndian bytes := by
  rw [positiveInt, ofBigEndian_append, ofBigEndian_trimmed]
  split_ifs <;> simp [ofBigEndian]

theorem nonceMatches_iff {nonce : UInt64} {got : DerInt} :
    nonceMatches nonce (some got) = true ↔ ofBigEndian got.asBytes = nonce.toNat := by
  have hzero (bytes : Bytes) : trimmed bytes ≠ [0] := fun h => trimmed_head_ne h rfl
  have hinj (a b : Bytes) : ((if trimmed a = [] then [0] else trimmed a) =
      if trimmed b = [] then [0] else trimmed b) ↔ trimmed a = trimmed b := by
    split_ifs with ha hb hb
    · exact iff_of_true rfl (ha.trans hb.symm)
    · exact iff_of_false (hzero b).symm (ha ▸ Ne.symm hb)
    · exact iff_of_false (hzero a) (hb ▸ ha)
    · rfl
  rw [nonceMatches, beq_iff_eq, intValue_eq, intValue_eq, hinj, trimmed_eq_trimmed_iff,
    ofBigEndian_positiveInt, ofBigEndian_toBigEndian nonce.toNat_lt]

theorem DerInt.toInt_of_nonneg {i : DerInt} (h : 0 ≤ i.toInt) :
    i.toInt = ofBigEndian i.asBytes := by
  have hlt := ofBigEndian_lt i.asBytes
  rw [DerInt.toInt] at h ⊢
  split_ifs at h ⊢
  · zify at hlt
    omega
  · rfl

/-- The comparison is right about a returned integer exactly when that is not negative, or
its content bytes write another number than the nonce. -/
theorem nonceMatches_right_iff (nonce : UInt64) (got : DerInt) :
    (nonceMatches nonce (some got) = true ↔ got.toInt = nonce.toNat) ↔
      0 ≤ got.toInt ∨ ofBigEndian got.asBytes ≠ nonce.toNat := by
  rw [nonceMatches_iff]
  by_cases h : 0 ≤ got.toInt
  · rw [got.toInt_of_nonneg h, Nat.cast_inj]
    exact iff_of_true Iff.rfl (.inl (Nat.cast_nonneg _))
  · have hne : got.toInt ≠ nonce.toNat := by omega
    simp only [hne, iff_false, h, false_or, ne_eq]

/-- A returned `-1` is taken for a sent 255. -/
theorem nonceMatches_negative :
    nonceMatches 255 (some ⟨[0xff], trivial⟩) = true ∧ DerInt.toInt ⟨[0xff], trivial⟩ = -1 :=
  ⟨rfl, rfl⟩

end Calybris.Tsa
