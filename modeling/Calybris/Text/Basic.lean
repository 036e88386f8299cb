import Mathlib.Data.List.Basic
import Mathlib.Data.List.Induction
import Mathlib.Data.Nat.Digits.Defs

/-!
# Text

Strings are lists of characters, with their UTF-8 bytes where a length or a
message is measured in bytes. The operations are those the formats use: decimal
numbers without a leading zero, one line and the rest, the last blank line.
-/

namespace Calybris.Text

open List Nat

abbrev Bytes := List UInt8

def utf8 (text : List Char) : Bytes := text.flatMap String.utf8EncodeChar

def utf8Len (text : List Char) : Nat := (utf8 text).length

theorem utf8_append (a b : List Char) : utf8 (a ++ b) = utf8 a ++ utf8 b := flatMap_append

theorem utf8Len_append (a b : List Char) : utf8Len (a ++ b) = utf8Len a + utf8Len b := by
  rw [utf8Len, utf8_append, length_append, utf8Len, utf8Len]

theorem utf8_injective : Function.Injective utf8 := by
  intro a b h
  have hencode : a.utf8Encode = b.utf8Encode := congrArg toByteArray h
  have hstring : String.ofList a = String.ofList b := String.toByteArray_inj.1 hencode
  exact String.ofList_injective hstring

theorem validateUTF8_iff {bytes : Bytes} :
    ByteArray.validateUTF8 ⟨bytes.toArray⟩ = true ↔ ∃ text, bytes = utf8 text := by
  rw [ByteArray.validateUTF8_eq_true_iff]
  constructor
  · rintro ⟨text, h⟩
    have hdata : bytes.toArray = text.utf8Encode.data := congrArg ByteArray.data h
    rw [utf8Encode, data_toByteArray] at hdata
    exact ⟨text, by simpa [utf8] using hdata⟩
  · rintro ⟨text, rfl⟩
    refine ⟨text, ByteArray.ext ?_⟩
    rw [utf8Encode, data_toByteArray]
    rfl

theorem exists_utf8_of_ascii {bytes : Bytes} (h : ∀ b ∈ bytes, b.toNat < 128) :
    ∃ text, bytes = utf8 text := by
  have hascii : ∀ n < 128, String.utf8EncodeChar (Char.ofNat n) = [UInt8.ofNat n] := by
    decide +kernel
  refine ⟨bytes.map fun b => Char.ofNat b.toNat, ?_⟩
  induction bytes with
  | nil => rfl
  | cons b bytes ih =>
    obtain ⟨hb, hbytes⟩ := forall_mem_cons.1 h
    rw [map_cons, utf8, flatMap_cons, hascii _ hb, UInt8.ofNat_toNat, singleton_append, ← utf8,
      ← ih hbytes]

def isControl (c : Char) : Bool :=
  c.toNat < 0x20 || (0x7f ≤ c.toNat && c.toNat < 0xa0)

/-- Characters with the Unicode property White_Space. -/
def isWhitespace (c : Char) : Bool :=
  (0x9 ≤ c.toNat && c.toNat ≤ 0xd) || c.toNat == 0x20 || c.toNat == 0x85 || c.toNat == 0xa0 ||
    c.toNat == 0x1680 || (0x2000 ≤ c.toNat && c.toNat ≤ 0x200a) || c.toNat == 0x2028 ||
    c.toNat == 0x2029 || c.toNat == 0x202f || c.toNat == 0x205f || c.toNat == 0x3000

def isAsciiDigit (c : Char) : Bool := '0' ≤ c && c ≤ '9'

def decimal (n : Nat) : List Char := Nat.toDigits 10 n

def ofDecimal (text : List Char) : Nat :=
  text.foldl (fun n c => 10 * n + (c.toNat - '0'.toNat)) 0

def isCanonicalDecimal (text : List Char) : Bool :=
  text != [] && text.all isAsciiDigit && (text == ['0'] || text.head? != some '0')

def splitOnce (sep : Char) : List Char → Option (List Char × List Char)
  | [] => none
  | c :: rest =>
    if c = sep then some ([], rest)
    else (splitOnce sep rest).map fun parts => (c :: parts.1, parts.2)

/-- The text up to the end of the line before the last blank line, and what follows
the blank line. -/
def splitLastBlank : List Char → Option (List Char × List Char)
  | [] => none
  | c :: rest =>
    match splitLastBlank rest with
    | some parts => some (c :: parts.1, parts.2)
    | none =>
      if c = '\n' ∧ rest.head? = some '\n' then some (['\n'], rest.tail) else none

def stripNewline (text : List Char) : Option (List Char) :=
  if text.getLast? = some '\n' then some text.dropLast else none

def ofBigEndian (bytes : Bytes) : Nat := bytes.foldl (fun n b => 256 * n + b.toNat) 0

def toBigEndian : Nat → Nat → Bytes
  | 0, _ => []
  | width + 1, n => UInt8.ofNat (n / 256 ^ width) :: toBigEndian width n

section Separator

variable {α : Type*}

theorem eq_false_of_any {l : List α} {p : α → Bool} (h : l.any p = false) :
    ∀ a ∈ l, p a = false :=
  fun a ha => Bool.eq_false_of_not_eq_true (any_eq_false.1 h a ha)

/-- Before the first separator two texts agree, and after it. -/
theorem append_cons_inj {sep : α} {a a' b b' : List α} (ha : sep ∉ a) (ha' : sep ∉ a')
    (h : a ++ sep :: b = a' ++ sep :: b') : a = a' ∧ b = b' := by
  induction a generalizing a' with
  | nil =>
    cases a' with
    | nil => exact ⟨rfl, (cons.inj h).2⟩
    | cons x xs =>
      obtain ⟨rfl, -⟩ := cons.inj h
      exact absurd mem_cons_self ha'
  | cons x xs ih =>
    cases a' with
    | nil =>
      obtain ⟨rfl, -⟩ := cons.inj h
      exact absurd mem_cons_self ha
    | cons y ys =>
      obtain ⟨rfl, htail⟩ := cons.inj h
      obtain ⟨rfl, hrest⟩ := ih (fun hm => ha (mem_cons_of_mem _ hm))
        (fun hm => ha' (mem_cons_of_mem _ hm)) htail
      exact ⟨rfl, hrest⟩

theorem isDigit_of_mem_decimal {n : Nat} {c : Char} (h : c ∈ decimal n) : c.isDigit = true :=
  isDigit_of_mem_toDigits (by decide) (by decide) h

theorem newline_notMem_decimal (n : Nat) : '\n' ∉ decimal n := fun h =>
  absurd (isDigit_of_mem_decimal h) (by decide)

theorem toNat_of_mem_decimal {n : Nat} {c : Char} (h : c ∈ decimal n) :
    48 ≤ c.toNat ∧ c.toNat ≤ 57 := by
  have hdigit := isDigit_of_mem_decimal h
  simp only [Char.isDigit, Bool.and_eq_true, decide_eq_true_eq] at hdigit
  exact ⟨hdigit.1, hdigit.2⟩

theorem utf8_of_ascii {text : List Char} (h : ∀ c ∈ text, c.toNat < 128) :
    utf8 text = text.map fun c => UInt8.ofNat c.toNat := by
  rw [utf8, map_eq_flatMap]
  apply flatMap_congr
  intro c hc
  exact if_pos (le_of_lt_succ (h c hc))

theorem utf8_decimal (n : Nat) :
    utf8 (decimal n) = (decimal n).map fun c => UInt8.ofNat c.toNat := by
  apply utf8_of_ascii
  intro c hc
  have := toNat_of_mem_decimal hc
  omega

theorem toNat_of_mem_utf8_decimal {n : Nat} {b : UInt8} (h : b ∈ utf8 (decimal n)) :
    48 ≤ b.toNat ∧ b.toNat ≤ 57 := by
  rw [utf8_decimal] at h
  obtain ⟨c, hc, rfl⟩ := mem_map.1 h
  have hrange := toNat_of_mem_decimal hc
  rw [UInt8.toNat_ofNat', mod_eq_of_lt (by omega)]
  exact hrange

theorem length_utf8_decimal_le {n k : Nat} (hk : 0 < k) (h : n < 10 ^ k) :
    (utf8 (decimal n)).length ≤ k := by
  rw [utf8_decimal, length_map]
  exact toDigits_length 10 n k hk h

end Separator

section Numbers

theorem ofDecimal_decimal (n : Nat) : ofDecimal (decimal n) = n := by
  have h := ofDigitChars_ten_toDigits (n := n)
  rwa [ofDigitChars_eq_foldl] at h

theorem ofDecimal_concat (text : List Char) (c : Char) :
    ofDecimal (text ++ [c]) = 10 * ofDecimal text + (c.toNat - '0'.toNat) :=
  foldl_concat ..

theorem toNat_of_isAsciiDigit {c : Char} (h : isAsciiDigit c = true) :
    48 ≤ c.toNat ∧ c.toNat ≤ 57 := by
  simp only [isAsciiDigit, Bool.and_eq_true, decide_eq_true_eq] at h
  exact h

theorem decimal_digit {c : Char} (h : isAsciiDigit c = true) :
    decimal (c.toNat - '0'.toNat) = [c] := by
  obtain ⟨hlow, hhigh⟩ := toNat_of_isAsciiDigit h
  have hall : ∀ n < 10, decimal n = [Char.ofNat (n + 48)] := by decide
  rw [show '0'.toNat = 48 from rfl, hall _ (by omega), Nat.sub_add_cancel hlow, Char.ofNat_toNat]

/-- A text of digits that does not begin with a zero writes a positive number. -/
theorem ofDecimal_pos {text : List Char} (hne : text ≠ []) (hdigits : text.all isAsciiDigit = true)
    (hhead : text.head? ≠ some '0') : 0 < ofDecimal text := by
  induction text using reverseRecOn with
  | nil => exact absurd rfl hne
  | append_singleton text c ih =>
    simp only [all_append, all_cons, all_nil, Bool.and_true, Bool.and_eq_true] at hdigits
    obtain ⟨hlow, -⟩ := toNat_of_isAsciiDigit hdigits.2
    rw [ofDecimal_concat]
    cases text with
    | nil =>
      have hc : c.toNat ≠ 48 := fun h =>
        hhead (congrArg some ((Char.ofNat_toNat c).symm.trans (congrArg Char.ofNat h)))
      have : '0'.toNat = 48 := rfl
      omega
    | cons d text =>
      have := ih (by simp) hdigits.1 hhead
      omega

theorem decimal_ofDecimal {text : List Char} (h : isCanonicalDecimal text = true) :
    decimal (ofDecimal text) = text := by
  simp only [isCanonicalDecimal, Bool.and_eq_true, bne_iff_ne, ne_eq, Bool.or_eq_true,
    beq_iff_eq] at h
  obtain ⟨⟨hne, hdigits⟩, rfl | hhead⟩ := h
  · rfl
  -- Digit by digit from the left: what is read so far is positive.
  induction text using reverseRecOn with
  | nil => exact absurd rfl hne
  | append_singleton text c ih =>
    simp only [all_append, all_cons, all_nil, Bool.and_true, Bool.and_eq_true] at hdigits
    have hrange := toNat_of_isAsciiDigit hdigits.2
    have hzero : '0'.toNat = 48 := rfl
    rw [ofDecimal_concat]
    cases text with
    | nil => rw [show 10 * ofDecimal [] = 0 from rfl, zero_add, decimal_digit hdigits.2]; rfl
    | cons d text =>
      have hpos := ofDecimal_pos (by simp) hdigits.1 hhead
      rw [decimal, ← toDigits_append_toDigits (by omega) hpos (by omega)]
      congr 1
      · exact ih (by simp) hdigits.1 hhead
      · exact decimal_digit hdigits.2

theorem head?_decimal {n : Nat} (h : 0 < n) : (decimal n).head? ≠ some '0' := by
  induction n using Nat.strongRecOn with
  | ind n ih =>
    rcases lt_or_ge n 10 with hlt | hge
    · have hall : ∀ m < 10, 0 < m → (decimal m).head? ≠ some '0' := by decide
      exact hall n hlt h
    · have hsplit : decimal n = decimal (n / 10) ++ decimal (n % 10) := by
        rw [decimal, decimal, decimal,
          toDigits_append_toDigits (by omega) (by omega) (by omega), div_add_mod]
      have hne : decimal (n / 10) ≠ [] := toDigits_ne_nil
      rw [hsplit, head?_append_of_ne_nil _ hne]
      exact ih _ (by omega) (by omega)

theorem isCanonicalDecimal_decimal (n : Nat) : isCanonicalDecimal (decimal n) = true := by
  have hne : decimal n ≠ [] := toDigits_ne_nil
  have hdigits : (decimal n).all isAsciiDigit = true := by
    rw [all_eq_true]
    intro c hc
    have := toNat_of_mem_decimal hc
    simp only [isAsciiDigit, Bool.and_eq_true, decide_eq_true_eq]
    exact this
  simp only [isCanonicalDecimal, Bool.and_eq_true, bne_iff_ne, ne_eq, Bool.or_eq_true, beq_iff_eq]
  rcases Nat.eq_zero_or_pos n with rfl | hpos
  · exact ⟨⟨hne, hdigits⟩, Or.inl rfl⟩
  · exact ⟨⟨hne, hdigits⟩, Or.inr (head?_decimal hpos)⟩

theorem length_toBigEndian (width n : Nat) : (toBigEndian width n).length = width := by
  induction width with
  | zero => rfl
  | succ width ih => rw [toBigEndian, length_cons, ih]

theorem ofBigEndian_cons (b : UInt8) (bytes : Bytes) :
    ofBigEndian (b :: bytes) = b.toNat * 256 ^ bytes.length + ofBigEndian bytes := by
  have hacc : ∀ (l : Bytes) (acc : Nat), l.foldl (fun n c => 256 * n + c.toNat) acc =
      acc * 256 ^ l.length + ofBigEndian l := by
    intro l
    induction l with
    | nil =>
      intro acc
      simp [ofBigEndian]
    | cons c l ih =>
      intro acc
      rw [ofBigEndian, foldl_cons, foldl_cons, ih, ih, length_cons]
      ring
  rw [ofBigEndian, foldl_cons, hacc, mul_zero, zero_add]

theorem ofBigEndian_append (a b : Bytes) :
    ofBigEndian (a ++ b) = ofBigEndian a * 256 ^ b.length + ofBigEndian b := by
  induction a with
  | nil => simp [ofBigEndian]
  | cons x a ih =>
    rw [cons_append, ofBigEndian_cons, ofBigEndian_cons, ih, length_append, pow_add]
    ring

theorem ofBigEndian_replicate_zero (n : Nat) : ofBigEndian (replicate n 0) = 0 := by
  induction n with
  | zero => rfl
  | succ n ih => rw [replicate_succ, ofBigEndian_cons, ih, UInt8.toNat_zero, zero_mul]

theorem ofBigEndian_lt (bytes : Bytes) : ofBigEndian bytes < 256 ^ bytes.length := by
  induction bytes with
  | nil => decide
  | cons b bytes ih =>
    have hb := b.toNat_lt
    rw [ofBigEndian_cons, length_cons, Nat.pow_succ]
    nlinarith

theorem toBigEndian_add_mul (width n k : Nat) :
    toBigEndian width (k * 256 ^ width + n) = toBigEndian width n := by
  induction width generalizing k with
  | zero => rfl
  | succ width ih =>
    have hmul : k * 256 ^ (width + 1) = k * 256 * 256 ^ width := by ring
    rw [toBigEndian, toBigEndian, hmul, ih, add_comm, add_mul_div_right _ _ (by positivity)]
    congr 1
    exact UInt8.toNat_inj.1 (by simp [UInt8.toNat_ofNat'])

theorem toBigEndian_ofBigEndian (bytes : Bytes) :
    toBigEndian bytes.length (ofBigEndian bytes) = bytes := by
  induction bytes with
  | nil => rfl
  | cons b bytes ih =>
    have hlt := ofBigEndian_lt bytes
    rw [ofBigEndian_cons, length_cons, toBigEndian, toBigEndian_add_mul, ih,
      add_comm, add_mul_div_right _ _ (by positivity), div_eq_of_lt hlt, zero_add,
      UInt8.ofNat_toNat]

theorem ofBigEndian_toBigEndian {width n : Nat} (h : n < 256 ^ width) :
    ofBigEndian (toBigEndian width n) = n := by
  induction width generalizing n with
  | zero =>
    rw [pow_zero] at h
    exact (lt_one_iff.1 h).symm
  | succ width ih =>
    have hpos : 0 < 256 ^ width := by positivity
    have hdiv : n / 256 ^ width < 256 := Nat.div_lt_of_lt_mul (by rwa [Nat.pow_succ] at h)
    have hlow : toBigEndian width n = toBigEndian width (n % 256 ^ width) := by
      conv_lhs => rw [← div_add_mod' n (256 ^ width)]
      exact toBigEndian_add_mul ..
    rw [toBigEndian, ofBigEndian_cons, length_toBigEndian, hlow, ih (mod_lt _ hpos),
      UInt8.toNat_ofNat', mod_eq_of_lt hdiv, div_add_mod']

end Numbers

end Calybris.Text
