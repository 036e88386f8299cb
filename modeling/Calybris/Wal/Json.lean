import Calybris.Text.Scan
import Calybris.Wal.Writer

/-!
# Reading a line back

What the log relies on of its JSON reader: the line of an entry reads as that entry,
with the payload's text as it stands there; whitespace around a text is skipped, a form
feed is not whitespace, and nothing else may follow an entry.

A scanner of payloads makes such a reader, for entries whose fields stand in the order in
which they are written. `numberJson` is one for payloads that are natural numbers,
`bracketJson` one for strings, arrays and objects.
-/

namespace Calybris.Wal

open Text Note Option List Scanner

def isJsonWhitespace (b : UInt8) : Bool := b == 0x20 || b == 0x09 || b == 0x0a || b == 0x0d

/-- Small letters and digits: what `genesis` and hashes are made of. -/
def isPlainByte (b : UInt8) : Bool := (48 ≤ b && b ≤ 57) || (97 ≤ b && b ≤ 122)

/-- The hashes need no escape in a JSON string. -/
structure WalEntry.Plain (entry : WalEntry) : Prop where
  previousHash : ∀ b ∈ entry.previousHash, isPlainByte b = true
  entryHash : ∀ b ∈ entry.entryHash, isPlainByte b = true

structure SerdeJson.Lawful (J : SerdeJson) : Prop where
  parse_entryText : ∀ entry : WalEntry, entry.Plain → J.IsValue entry.data →
    J.parseEntry (entryText entry) = some entry
  parse_whitespace_cons : ∀ b bytes, isJsonWhitespace b = true →
    J.parseEntry (b :: bytes) = J.parseEntry bytes
  parse_append_whitespace : ∀ bytes b entry, isJsonWhitespace b = true →
    J.parseEntry bytes = some entry → J.parseEntry (bytes ++ [b]) = some entry
  parse_formFeed_cons : ∀ bytes, J.parseEntry (0x0c :: bytes) = none
  whitespace_of_parse : ∀ a b entry entry', J.parseEntry a = some entry →
    J.parseEntry (a ++ b) = some entry' → ∀ c ∈ b, isJsonWhitespace c = true

/-! ### Numbers -/

def parseNumber (text : Bytes) : Option Nat :=
  let n := Nat.ofDigitChars 10 (text.map fun b => Char.ofNat b.toNat) 0
  if utf8 (decimal n) = text then some n else none

theorem parseNumber_decimal (n : Nat) : parseNumber (utf8 (decimal n)) = some n := by
  have hchars : (utf8 (decimal n)).map (fun b => Char.ofNat b.toNat) = decimal n := by
    rw [utf8_decimal, List.map_map]
    refine (List.map_congr_left fun c hc => ?_).trans (List.map_id _)
    have hrange := toNat_of_mem_decimal hc
    rw [Function.comp_apply, UInt8.toNat_ofNat', Nat.mod_eq_of_lt (by omega), Char.ofNat_toNat,
      id_eq]
  have hn : Nat.ofDigitChars 10 ((utf8 (decimal n)).map fun b => Char.ofNat b.toNat) 0 = n := by
    rw [hchars]
    exact Nat.ofDigitChars_ten_toDigits
  simp only [parseNumber, hn, if_true]

/-- A reader that skips whitespace on both sides of what is scanned. -/
def scannerJson (scan : Scanner UInt8 WalEntry) (IsValue : Bytes → Prop) : SerdeJson where
  parseEntry bytes :=
    (scan (bytes.dropWhile isJsonWhitespace)).bind fun x =>
      if x.2.all isJsonWhitespace then some x.1 else none
  IsValue := IsValue

section ScannerJson

variable {scan : Scanner UInt8 WalEntry} {IsValue : Bytes → Prop} {bytes t : Bytes}
  {entry : WalEntry}

theorem parseEntry_scannerJson_eq_some_iff :
    (scannerJson scan IsValue).parseEntry bytes = some entry ↔ ∃ rest,
      scan (bytes.dropWhile isJsonWhitespace) = some (entry, rest) ∧
        rest.all isJsonWhitespace = true := by
  simp only [scannerJson, bind_eq_some_iff, ite_none_right_eq_some, Prod.exists]
  constructor
  · rintro ⟨entry', rest, hscan, hrest, heq⟩
    cases heq
    exact ⟨rest, hscan, hrest⟩
  · rintro ⟨rest, hscan, hrest⟩
    exact ⟨entry, rest, hscan, hrest, rfl⟩

theorem scan_dropWhile_append (hstable : scan.Stable) (hnil : scan [] = none) {rest : Bytes}
    (h : scan (bytes.dropWhile isJsonWhitespace) = some (entry, rest)) :
    scan ((bytes ++ t).dropWhile isJsonWhitespace) = some (entry, rest ++ t) := by
  have hne : bytes.dropWhile isJsonWhitespace ≠ [] := by
    intro hempty
    rw [hempty, hnil] at h
    cases h
  rw [dropWhile_append, if_neg (by simpa using hne)]
  exact hstable _ _ _ _ h

theorem lawful_scannerJson (hstable : scan.Stable) (hnil : scan [] = none)
    (hformFeed : ∀ bytes, scan (0x0c :: bytes) = none)
    (hentry : ∀ entry : WalEntry, entry.Plain → IsValue entry.data →
      scan (entryText entry) = some (entry, [])) : (scannerJson scan IsValue).Lawful where
  parse_entryText := by
    intro entry hplain hvalue
    refine parseEntry_scannerJson_eq_some_iff.2 ⟨[], ?_, rfl⟩
    rw [← hentry entry hplain hvalue]
    congr 1
  parse_whitespace_cons := by
    intro b bytes hb
    simp only [scannerJson, dropWhile_cons, hb, if_true]
  parse_append_whitespace := by
    intro bytes b entry hb h
    obtain ⟨rest, hscan, hrest⟩ := parseEntry_scannerJson_eq_some_iff.1 h
    refine parseEntry_scannerJson_eq_some_iff.2
      ⟨rest ++ [b], scan_dropWhile_append hstable hnil hscan, ?_⟩
    simp [hrest, hb]
  parse_formFeed_cons := by
    intro bytes
    have hspace : isJsonWhitespace 0x0c = false := by decide
    simp only [scannerJson, dropWhile_cons, hspace, Bool.false_eq_true, if_false, hformFeed,
      bind_none]
  whitespace_of_parse := by
    intro a b entry entry' ha hab
    obtain ⟨rest, hscan, -⟩ := parseEntry_scannerJson_eq_some_iff.1 ha
    obtain ⟨rest', hscan', hrest'⟩ := parseEntry_scannerJson_eq_some_iff.1 hab
    rw [scan_dropWhile_append hstable hnil hscan] at hscan'
    cases hscan'
    intro c hc
    exact all_eq_true.1 hrest' c (mem_append_right _ hc)

end ScannerJson

/-! ### What stands before the payload -/

/-- The fields before the payload: the digits of the sequence, and the two hashes. -/
def scanHeader : Scanner UInt8 (Bytes × Bytes × Bytes) :=
  (strip (literal "\x7b\"sequence\":")).andThen fun _ =>
  (cut 0x2c).andThen fun sequence =>
  (strip (literal "\"previous_hash\":\"")).andThen fun _ =>
  (cut 0x22).andThen fun previousHash =>
  (strip (literal ",\"entry_hash\":\"")).andThen fun _ =>
  (cut 0x22).andThen fun entryHash =>
  (strip (literal ",\"data\":")).andThen fun _ =>
  .ofOption (some (sequence, previousHash, entryHash))

section Header

variable {entry : WalEntry}

theorem stable_scanHeader : scanHeader.Stable := by
  unfold scanHeader
  refine (stable_strip _).andThen fun _ => (stable_cut _).andThen fun _ =>
    (stable_strip _).andThen fun _ => (stable_cut _).andThen fun _ =>
    (stable_strip _).andThen fun _ => (stable_cut _).andThen fun _ =>
    (stable_strip _).andThen fun _ => ?_
  exact stable_ofOption _

theorem scanHeader_formFeed_cons (bytes : Bytes) : scanHeader (0x0c :: bytes) = none := by
  have hbrace : literal "\x7b\"sequence\":" = 0x7b :: literal "\"sequence\":" := by decide
  simp [scanHeader, andThen, strip, hbrace]

theorem notMem_utf8_decimal {m : Nat} {b : UInt8} (hb : b.toNat < 48 ∨ 57 < b.toNat) :
    b ∉ utf8 (decimal m) := by
  intro hmem
  have := toNat_of_mem_utf8_decimal hmem
  omega

theorem scanHeader_entryText (hplain : entry.Plain) :
    scanHeader (entryText entry) =
      some ((utf8 (decimal entry.sequence.toNat), entry.previousHash, entry.entryHash),
        entry.data ++ [0x7d]) := by
  have hcomma : literal ",\"previous_hash\":\"" = 0x2c :: literal "\"previous_hash\":\"" := by
    decide
  have hquote : literal "\",\"entry_hash\":\"" = 0x22 :: literal ",\"entry_hash\":\"" := by
    decide
  have hquote' : literal "\",\"data\":" = 0x22 :: literal ",\"data\":" := by decide
  have hbrace : literal "\x7d" = [0x7d] := by decide
  have hnoquote : ∀ h : Bytes, (∀ b ∈ h, isPlainByte b = true) → (0x22 : UInt8) ∉ h := by
    intro h hh hmem
    exact absurd (hh _ hmem) (by decide)
  rw [scanHeader, entryText, andThen_eq_some (strip_append _ _), hcomma, cons_append,
    andThen_eq_some (cut_append (notMem_utf8_decimal (by decide)) _),
    andThen_eq_some (strip_append _ _), hquote, cons_append,
    andThen_eq_some (cut_append (hnoquote _ hplain.previousHash) _),
    andThen_eq_some (strip_append _ _), hquote', cons_append,
    andThen_eq_some (cut_append (hnoquote _ hplain.entryHash) _),
    andThen_eq_some (strip_append _ _), hbrace]
  rfl

end Header

/-- An entry. The scanner of the payload reads the brace behind it as well. -/
def scanEntry (payload : Scanner UInt8 Bytes) : Scanner UInt8 WalEntry :=
  scanHeader.andThen fun x =>
  payload.andThen fun data =>
  .ofOption ((parseNumber x.1).bind fun n =>
    if n < 2 ^ 64 then some ⟨UInt64.ofNat n, x.2.1, x.2.2, data⟩ else none)

theorem lawful_scanEntry {payload : Scanner UInt8 Bytes} {IsValue : Bytes → Prop}
    (hstable : payload.Stable)
    (hvalue : ∀ data, IsValue data → payload (data ++ [0x7d]) = some (data, [])) :
    (scannerJson (scanEntry payload) IsValue).Lawful := by
  refine lawful_scannerJson ?_ rfl (fun bytes => ?_) fun entry hplain hdata => ?_
  · exact stable_scanHeader.andThen fun _ => hstable.andThen fun _ => stable_ofOption _
  · rw [scanEntry, andThen, scanHeader_formFeed_cons]
    rfl
  · rw [scanEntry, andThen_eq_some (scanHeader_entryText hplain), andThen_eq_some (hvalue _ hdata)]
    simp only [ofOption, parseNumber_decimal, bind_some, entry.sequence.toNat_lt,
      if_true, UInt64.ofNat_toNat, map_some]

def scanNumber : Scanner UInt8 Bytes :=
  (cut 0x7d).andThen fun data => .ofOption ((parseNumber data).map fun _ => data)

def numberJson : SerdeJson :=
  scannerJson (scanEntry scanNumber) fun text => ∃ n, text = utf8 (decimal n)

theorem lawful_numberJson : numberJson.Lawful := by
  refine lawful_scanEntry ((stable_cut _).andThen fun _ => stable_ofOption _) ?_
  rintro _ ⟨n, rfl⟩
  rw [scanNumber, andThen_eq_some (cut_append (notMem_utf8_decimal (by decide)) _),
    ofOption, parseNumber_decimal]
  rfl

/-! ### Strings, arrays and objects -/

/-- Where a scan stands in a value: the brackets that are open, and the string. -/
structure Nesting where
  depth : Nat
  quoted : Bool
  escaped : Bool

def Nesting.next (nesting : Nesting) (b : UInt8) : Nesting :=
  if nesting.escaped then { nesting with escaped := false }
  else if nesting.quoted then { nesting with quoted := b != 0x22, escaped := b == 0x5c }
  else if b = 0x22 then { nesting with quoted := true }
  else if b = 0x7b ∨ b = 0x5b then { nesting with depth := nesting.depth + 1 }
  else if b = 0x7d ∨ b = 0x5d then { nesting with depth := nesting.depth - 1 }
  else nesting

/-- Reads to where nothing is open. -/
def scanNested : Nesting → Scanner UInt8 Bytes
  | _, [] => none
  | nesting, b :: bytes =>
    if (nesting.next b).depth = 0 ∧ (nesting.next b).quoted = false then some ([b], bytes)
    else (scanNested (nesting.next b) bytes).map fun x => (b :: x.1, x.2)

theorem stable_scanNested (nesting : Nesting) : (scanNested nesting).Stable := by
  intro bytes
  induction bytes generalizing nesting with
  | nil =>
    intro x r t h
    cases h
  | cons b bytes ih =>
    intro x r t h
    rw [cons_append, scanNested]
    rw [scanNested] at h
    split_ifs at h ⊢ with hclosed
    · cases h
      rfl
    · obtain ⟨⟨y, rest⟩, hy, heq⟩ := map_eq_some_iff.1 h
      cases heq
      rw [ih _ y rest t hy]
      rfl

def scanValue : Scanner UInt8 Bytes := scanNested ⟨0, false, false⟩

/-- A reader for logs of strings, arrays and objects. -/
def bracketJson : SerdeJson :=
  scannerJson
    (scanEntry
      (scanValue.andThen fun data => (strip [0x7d]).andThen fun _ => .ofOption (some data)))
    fun text => scanValue text = some (text, [])

theorem lawful_bracketJson : bracketJson.Lawful := by
  have hstable : scanValue.Stable := stable_scanNested _
  refine lawful_scanEntry (hstable.andThen fun _ => (stable_strip _).andThen fun _ =>
    stable_ofOption _) fun data hdata => ?_
  rw [andThen_eq_some (hstable _ _ _ [0x7d] hdata)]
  rfl

/-! ### The log of one and two -/

/-- SHA-256 of `genesis1`. -/
def oneDigest : Bytes32 :=
  digestOf 0x0e0532cac27f275485f2bead4c8398385e5505a514716a9960b2f2b6b4880013

/-- SHA-256 of the digits of `oneDigest` and `2`. -/
def twoDigest : Bytes32 :=
  digestOf 0x7a9cee652ecf4b50207837ed9bfbdcc364b51cd7e53f90ecd7527b23533d9bba

def numberDigests : Digests where
  sha256 text := if text = literal "genesis1" then oneDigest else twoDigest
  hmacSha256 _ _ := oneDigest

def oneEntry : WalEntry := ⟨1, genesis, bytesToHex oneDigest.1, literal "1"⟩

def twoEntry : WalEntry := ⟨2, bytesToHex oneDigest.1, bytesToHex twoDigest.1, literal "2"⟩

def numberPayload (n : Nat) : Serialization := ⟨[utf8 (decimal n)], false⟩

def oneLog : WalFile := ⟨entryLine oneEntry, by decide +kernel⟩

def twoLog : WalFile := ⟨entryLine oneEntry ++ entryLine twoEntry, by decide +kernel⟩

def oneWriter : WalWriter := ⟨1, bytesToHex oneDigest.1, none, false⟩

def twoWriter : WalWriter := ⟨2, bytesToHex twoDigest.1, none, false⟩

end Calybris.Wal
