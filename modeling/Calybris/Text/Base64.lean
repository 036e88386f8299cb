import Calybris.Text.Basic

/-!
# Base64

The standard alphabet with padding. Three bytes are four symbols; a last group of one
or two bytes is padded. The decoder is strict: padding stands only at the end and is
required, and the bits a padded group does not use are zero. So a text that decodes is
the encoding of what it decodes to, and the other way round.
-/

namespace Calybris.Text

open Option

namespace Base64

def symbol (n : Nat) : Char :=
  if n < 26 then Char.ofNat (n + 65)
  else if n < 52 then Char.ofNat (n + 71)
  else if n < 62 then Char.ofNat (n - 4)
  else if n = 62 then '+' else '/'

def value (c : Char) : Option Nat :=
  if 65 ≤ c.toNat ∧ c.toNat ≤ 90 then some (c.toNat - 65)
  else if 97 ≤ c.toNat ∧ c.toNat ≤ 122 then some (c.toNat - 71)
  else if 48 ≤ c.toNat ∧ c.toNat ≤ 57 then some (c.toNat + 4)
  else if c = '+' then some 62 else if c = '/' then some 63 else none

def encode : Bytes → List Char
  | [] => []
  | [a] => [symbol (a.toNat / 4), symbol (a.toNat % 4 * 16), '=', '=']
  | [a, b] =>
    [symbol (a.toNat / 4), symbol (a.toNat % 4 * 16 + b.toNat / 16),
      symbol (b.toNat % 16 * 4), '=']
  | a :: b :: c :: rest =>
    symbol (a.toNat / 4) :: symbol (a.toNat % 4 * 16 + b.toNat / 16) ::
      symbol (b.toNat % 16 * 4 + c.toNat / 64) :: symbol (c.toNat % 64) :: encode rest

/-- The bytes of a group of four symbols, of which the last may be padding. -/
def decodeGroup (w x y z : Char) : Option Bytes :=
  (value w).bind fun i => (value x).bind fun j =>
    if y = '=' then
      if z = '=' ∧ j % 16 = 0 then some [UInt8.ofNat (i * 4 + j / 16)] else none
    else
      (value y).bind fun k =>
        if z = '=' then
          if k % 4 = 0 then
            some [UInt8.ofNat (i * 4 + j / 16), UInt8.ofNat (j % 16 * 16 + k / 4)]
          else none
        else
          (value z).map fun l =>
            [UInt8.ofNat (i * 4 + j / 16), UInt8.ofNat (j % 16 * 16 + k / 4),
              UInt8.ofNat (k % 4 * 64 + l)]

def decode : List Char → Option Bytes
  | [] => some []
  | w :: x :: y :: z :: rest =>
    (decodeGroup w x y z).bind fun group =>
      if z = '=' ∧ rest ≠ [] then none else (decode rest).map fun bytes => group ++ bytes
  | _ => none

section Symbols

theorem value_symbol {n : Nat} (h : n < 64) : value (symbol n) = some n := by
  have hall : ∀ m < 64, value (symbol m) = some m := by decide
  exact hall n h

theorem forall_symbol {p : Char → Prop} (h : ∀ m < 64, p (symbol m)) (n : Nat) :
    p (symbol n) := by
  by_cases hn : n < 64
  · exact h n hn
  · have hlast : symbol n = symbol 63 := by
      simp [symbol, show ¬n < 26 by omega, show ¬n < 52 by omega, show ¬n < 62 by omega,
        show n ≠ 62 by omega]
    exact hlast ▸ h 63 (by decide)

theorem symbol_ne_pad (n : Nat) : symbol n ≠ '=' := forall_symbol (p := (· ≠ '=')) (by decide) n

theorem lt_of_value {c : Char} {n : Nat} (h : value c = some n) : n < 64 := by
  unfold value at h
  split_ifs at h <;> (obtain rfl := Option.some.inj h) <;> omega

theorem symbol_of_value {c : Char} {n : Nat} (h : value c = some n) : symbol n = c := by
  unfold value at h
  split_ifs at h with h1 h2 h3 h4 h5
  all_goals cases h
  · rw [symbol, if_pos (by omega), Nat.sub_add_cancel h1.1, Char.ofNat_toNat]
  · rw [symbol, if_neg (by omega), if_pos (by omega), Nat.sub_add_cancel (by omega),
      Char.ofNat_toNat]
  · rw [symbol, if_neg (by omega), if_neg (by omega), if_pos (by omega), Nat.add_sub_cancel,
      Char.ofNat_toNat]
  · exact h4.symm
  · exact h5.symm

theorem toNat_symbol (n : Nat) : 43 ≤ (symbol n).toNat ∧ (symbol n).toNat ≤ 122 :=
  forall_symbol (p := fun c => 43 ≤ c.toNat ∧ c.toNat ≤ 122) (by decide) n

end Symbols

section Groups

variable {w x y z : Char} {group : Bytes}

theorem ofNat_eq {a : UInt8} {n : Nat} (h : n = a.toNat) : UInt8.ofNat n = a := by
  rw [h, UInt8.ofNat_toNat]

theorem decodeGroup_one (a : UInt8) :
    decodeGroup (symbol (a.toNat / 4)) (symbol (a.toNat % 4 * 16)) '=' '=' = some [a] := by
  have ha := a.toNat_lt
  rw [decodeGroup, value_symbol (by omega), value_symbol (by omega)]
  simp only [bind_some, if_true, true_and]
  rw [if_pos (by omega), ofNat_eq (a := a) (by omega)]

theorem decodeGroup_two (a b : UInt8) :
    decodeGroup (symbol (a.toNat / 4)) (symbol (a.toNat % 4 * 16 + b.toNat / 16))
      (symbol (b.toNat % 16 * 4)) '=' = some [a, b] := by
  have ha := a.toNat_lt
  have hb := b.toNat_lt
  rw [decodeGroup, value_symbol (by omega), value_symbol (by omega), value_symbol (by omega)]
  simp only [bind_some, symbol_ne_pad, if_false, if_true]
  rw [if_pos (by omega), ofNat_eq (a := a) (by omega), ofNat_eq (a := b) (by omega)]

theorem decodeGroup_three (a b c : UInt8) :
    decodeGroup (symbol (a.toNat / 4)) (symbol (a.toNat % 4 * 16 + b.toNat / 16))
      (symbol (b.toNat % 16 * 4 + c.toNat / 64)) (symbol (c.toNat % 64)) = some [a, b, c] := by
  have ha := a.toNat_lt
  have hb := b.toNat_lt
  have hc := c.toNat_lt
  rw [decodeGroup, value_symbol (by omega), value_symbol (by omega), value_symbol (by omega),
    value_symbol (by omega)]
  simp only [bind_some, symbol_ne_pad, if_false, map_some]
  rw [ofNat_eq (a := a) (by omega), ofNat_eq (a := b) (by omega), ofNat_eq (a := c) (by omega)]

theorem toNat_ofNat_lt {n : Nat} (h : n < 256) : (UInt8.ofNat n).toNat = n := by
  rw [UInt8.toNat_ofNat', Nat.mod_eq_of_lt h]

theorem encode_decodeGroup (h : decodeGroup w x y z = some group) :
    encode group = [w, x, y, z] ∧ (z ≠ '=' → group.length = 3) := by
  unfold decodeGroup at h
  obtain ⟨i, hi, hsecond⟩ := bind_eq_some_iff.1 h
  obtain ⟨j, hj, hthird⟩ := bind_eq_some_iff.1 hsecond
  clear h hsecond
  have hilt := lt_of_value hi
  have hjlt := lt_of_value hj
  obtain rfl := symbol_of_value hi
  obtain rfl := symbol_of_value hj
  split at hthird
  · next hy =>
    split at hthird
    · next hz =>
      cases hthird
      refine ⟨?_, fun hne => absurd hz.1 hne⟩
      rw [encode, toNat_ofNat_lt (by omega), hy, hz.1, show (i * 4 + j / 16) / 4 = i by omega,
        show (i * 4 + j / 16) % 4 * 16 = j by omega]
    · cases hthird
  · obtain ⟨k, hk, hfourth⟩ := bind_eq_some_iff.1 hthird
    clear hthird
    have hklt := lt_of_value hk
    obtain rfl := symbol_of_value hk
    split at hfourth
    · next hz =>
      split at hfourth
      · next hk0 =>
        cases hfourth
        refine ⟨?_, fun hne => absurd hz hne⟩
        rw [encode, toNat_ofNat_lt (by omega), toNat_ofNat_lt (by omega), hz,
          show (i * 4 + j / 16) / 4 = i by omega,
          show (i * 4 + j / 16) % 4 * 16 + (j % 16 * 16 + k / 4) / 16 = j by omega,
          show (j % 16 * 16 + k / 4) % 16 * 4 = k by omega]
      · cases hfourth
    · obtain ⟨l, hl, rfl⟩ := map_eq_some_iff.1 hfourth
      have hllt := lt_of_value hl
      obtain rfl := symbol_of_value hl
      refine ⟨?_, fun _ => rfl⟩
      rw [encode, encode, toNat_ofNat_lt (by omega), toNat_ofNat_lt (by omega),
        toNat_ofNat_lt (by omega), show (i * 4 + j / 16) / 4 = i by omega,
        show (i * 4 + j / 16) % 4 * 16 + (j % 16 * 16 + k / 4) / 16 = j by omega,
        show (j % 16 * 16 + k / 4) % 16 * 4 + (k % 4 * 64 + l) / 64 = k by omega,
        show (k % 4 * 64 + l) % 64 = l by omega]

theorem encode_append {rest : Bytes} (h : group.length = 3) :
    encode (group ++ rest) = encode group ++ encode rest := by
  match group, h with
  | [a, b, c], _ => rfl

end Groups

theorem decode_encode (bytes : Bytes) : decode (encode bytes) = some bytes := by
  induction bytes using encode.induct with
  | case1 => rfl
  | case2 a => simp [encode, decode, decodeGroup_one]
  | case3 a b => simp [encode, decode, decodeGroup_two]
  | case4 a b c rest ih => simp [encode, decode, decodeGroup_three, symbol_ne_pad, ih]

theorem encode_decode {text : List Char} {bytes : Bytes} (h : decode text = some bytes) :
    encode bytes = text := by
  induction text using decode.induct generalizing bytes with
  | case1 =>
    cases h
    rfl
  | case2 w x y z rest ih =>
    rw [decode] at h
    obtain ⟨group, hgroup, h⟩ := bind_eq_some_iff.1 h
    obtain ⟨henc, hlen⟩ := encode_decodeGroup hgroup
    split at h
    · cases h
    · next hpad =>
      obtain ⟨tail, htail, rfl⟩ := map_eq_some_iff.1 h
      have hrest := ih htail
      by_cases hz : z = '='
      · -- Padding ends the text.
        obtain rfl : rest = [] := by
          by_contra hne
          exact hpad ⟨hz, hne⟩
        cases htail
        rw [List.append_nil, henc]
      · rw [encode_append (hlen hz), henc, hrest]
        rfl
  | case3 text hnil hgroup =>
    rw [decode.eq_3 text hnil hgroup] at h
    cases h

theorem toNat_of_mem_encode {bytes : Bytes} {c : Char} (h : c ∈ encode bytes) :
    43 ≤ c.toNat ∧ c.toNat ≤ 122 := by
  induction bytes using encode.induct with
  | case1 => cases h
  | case2 | case3 =>
    simp only [encode, List.mem_cons, List.not_mem_nil, or_false] at h
    obtain rfl | rfl | rfl | rfl := h
    all_goals first | exact toNat_symbol _ | decide
  | case4 a b d rest ih =>
    simp only [encode, List.mem_cons] at h
    obtain rfl | rfl | rfl | rfl | h := h
    all_goals first | exact toNat_symbol _ | exact ih h

theorem length_encode (bytes : Bytes) : (encode bytes).length = 4 * ((bytes.length + 2) / 3) := by
  induction bytes using encode.induct with
  | case1 => rfl
  | case2 a => simp [encode]
  | case3 a b => simp [encode]
  | case4 a b c rest ih =>
    simp only [encode, List.length_cons, ih]
    omega

end Base64

end Calybris.Text
