import Calybris.Wal.Entry

/-!
# Reading hexadecimal

The texts of digests are lower-case: a text of the right length with no other character
is read, and it is the only text of the bytes it is read as.
-/

namespace Calybris.Wal

open Text

def nibble (c : UInt8) : Option Nat :=
  if 48 ≤ c ∧ c ≤ 57 then some (c.toNat - 48)
  else if 97 ≤ c ∧ c ≤ 102 then some (c.toNat - 97 + 10)
  else none

inductive HexError where
  | length (found : Nat)
  | digit (offset : Nat)
  deriving DecidableEq

/-- The bytes of pairs of digits, or the offset of the first character that is none. A
character without a partner is left out. -/
def parsePairs (offset : Nat) : Bytes → Except HexError Bytes
  | high :: low :: rest =>
    match nibble high with
    | none => .error (.digit offset)
    | some h =>
      match nibble low with
      | none => .error (.digit (offset + 1))
      | some l => (parsePairs (offset + 2) rest).map fun bytes => UInt8.ofNat (16 * h + l) :: bytes
  | _ => .ok []

def parseHex (n : Nat) (value : Bytes) : Except HexError Bytes :=
  if value.length ≠ n * 2 then .error (.length value.length) else parsePairs 0 value

theorem nibble_hexDigit {n : Nat} (h : n < 16) : nibble (hexDigit n) = some n := by
  have hall : ∀ k : Fin 16, nibble (hexDigit k) = some k.1 := by decide
  exact hall ⟨n, h⟩

theorem hexDigit_of_nibble {c : UInt8} {n : Nat} (h : nibble c = some n) :
    n < 16 ∧ hexDigit n = c := by
  simp only [nibble, UInt8.le_iff_toNat_le, UInt8.reduceToNat] at h
  split_ifs at h with hdigit hletter
  · cases h
    refine ⟨by omega, UInt8.toNat_inj.1 ?_⟩
    rw [hexDigit_toNat (by omega), if_pos (by omega)]
    omega
  · cases h
    refine ⟨by omega, UInt8.toNat_inj.1 ?_⟩
    rw [hexDigit_toNat (by omega), if_neg (by omega)]
    omega

theorem bytesToHex_cons {x y : Nat} (hx : x < 16) (hy : y < 16) (bytes : Bytes) :
    bytesToHex (UInt8.ofNat (16 * x + y) :: bytes) =
      hexDigit x :: hexDigit y :: bytesToHex bytes := by
  have hbyte : (UInt8.ofNat (16 * x + y)).toNat = 16 * x + y := by
    rw [UInt8.toNat_ofNat']
    omega
  have hhalf : (16 * x + y) / 16 = x := by omega
  have hmod : (16 * x + y) % 16 = y := by omega
  rw [bytesToHex, List.flatMap_cons, ← bytesToHex, hbyte, hhalf, hmod]
  rfl

theorem parsePairs_bytesToHex (offset : Nat) (bytes : Bytes) :
    parsePairs offset (bytesToHex bytes) = .ok bytes := by
  induction bytes generalizing offset with
  | nil => rfl
  | cons b bytes ih =>
    have hlt := b.toNat_lt
    have hbyte : 16 * (b.toNat / 16) + b.toNat % 16 = b.toNat := by omega
    have hcons : bytesToHex (b :: bytes) =
        hexDigit (b.toNat / 16) :: hexDigit (b.toNat % 16) :: bytesToHex bytes := rfl
    rw [hcons, parsePairs, nibble_hexDigit (by omega), nibble_hexDigit (by omega), ih]
    simp only [hbyte, UInt8.ofNat_toNat]
    rfl

theorem bytesToHex_of_parsePairs {offset : Nat} {value bytes : Bytes} (heven : value.length % 2 = 0)
    (h : parsePairs offset value = .ok bytes) : bytesToHex bytes = value := by
  induction offset, value using parsePairs.induct generalizing bytes with
  | case1 offset high low rest hhigh => simp [parsePairs, hhigh] at h
  | case2 offset high low rest x hhigh hlow => simp [parsePairs, hhigh, hlow] at h
  | case3 offset high low rest x hhigh y hlow ih =>
    obtain ⟨hx, rfl⟩ := hexDigit_of_nibble hhigh
    obtain ⟨hy, rfl⟩ := hexDigit_of_nibble hlow
    simp only [parsePairs, hhigh, hlow] at h
    cases hrest : parsePairs (offset + 2) rest with
    | error error =>
      rw [hrest] at h
      cases h
    | ok tail =>
      rw [hrest] at h
      cases h
      have htail := ih (by simp only [List.length_cons] at heven; omega) hrest
      rw [bytesToHex_cons hx hy, htail]
  | case4 value offset hshort =>
    cases value with
    | nil =>
      cases h
      rfl
    | cons a value =>
      cases value with
      | nil => simp at heven
      | cons b value => exact (hshort a b value rfl).elim

theorem parseHex_eq_ok_iff {n : Nat} {value bytes : Bytes} :
    parseHex n value = .ok bytes ↔ value = bytesToHex bytes ∧ bytes.length = n := by
  rw [parseHex]
  constructor
  · intro h
    split_ifs at h with hlen
    rw [not_not] at hlen
    have hvalue := bytesToHex_of_parsePairs (by omega) h
    refine ⟨hvalue.symm, ?_⟩
    rw [← hvalue, length_bytesToHex] at hlen
    omega
  · rintro ⟨rfl, rfl⟩
    rw [if_neg (by rw [length_bytesToHex]; omega), parsePairs_bytesToHex]

theorem isSome_nibble {c : UInt8} (h : isHexByte c = true) : (nibble c).isSome = true := by
  simp only [isHexByte, Bool.or_eq_true, Bool.and_eq_true, decide_eq_true_eq] at h
  rw [nibble]
  split_ifs with hdigit hletter
  · rfl
  · rfl
  · exact absurd h (not_or.2 ⟨hdigit, hletter⟩)

/-- A text of lower-case digits, an even number of them, is the text of some bytes. -/
theorem exists_bytesToHex {n : Nat} {value : Bytes} (hlength : value.length = n * 2)
    (hdigits : ∀ c ∈ value, isHexByte c = true) :
    ∃ bytes, value = bytesToHex bytes ∧ bytes.length = n := by
  induction n generalizing value with
  | zero =>
    obtain rfl : value = [] := List.eq_nil_of_length_eq_zero (by omega)
    exact ⟨[], rfl, rfl⟩
  | succ n ih =>
    match value, hlength with
    | [_], hlength =>
      rw [List.length_singleton] at hlength
      omega
    | high :: low :: rest, hlength =>
      simp only [List.forall_mem_cons] at hdigits
      obtain ⟨hhigh, hlow, hrest⟩ := hdigits
      obtain ⟨x, hx⟩ := Option.isSome_iff_exists.1 (isSome_nibble hhigh)
      obtain ⟨y, hy⟩ := Option.isSome_iff_exists.1 (isSome_nibble hlow)
      obtain ⟨hxlt, rfl⟩ := hexDigit_of_nibble hx
      obtain ⟨hylt, rfl⟩ := hexDigit_of_nibble hy
      simp only [List.length_cons] at hlength
      obtain ⟨bytes, rfl, hbytes⟩ := ih (by omega) hrest
      refine ⟨UInt8.ofNat (16 * x + y) :: bytes, ?_, by simp [hbytes]⟩
      rw [bytesToHex_cons hxlt hylt]

end Calybris.Wal
