import Calybris.Note.Checkpoint
import Calybris.Parse.Reader
import Calybris.Text.Order
import Calybris.Text.Str
import Mathlib.Data.Prod.Lex

/-!
# The parts of a timestamp proof

A proof is made of numbers in groups of seven bits, byte strings with their length before
them, operations and attestations. Each is modelled with its reader, its grammar and its
writer. A number has several texts, since the highest groups may be zero; the writer gives
the shortest, and so does the writer of everything that contains numbers.
-/

namespace Calybris.Ots

open Text Note Parse List UInt64

inductive OtsError where
  | malformed (reason : String)
  | notInBlock
  | badProofOfWork
  | insufficientWork
  deriving DecidableEq

abbrev OtsReader (α : Type) := Reader UInt8 OtsError α

abbrev Bytes8 := {bytes : Bytes // bytes.length = 8}

def maxMsg : Nat := 4096

def maxPayload : Nat := 8192

def maxUri : Nat := 1000

def unexpectedEnd : OtsError := .malformed "unexpected end of proof"

def varuintOverflow : OtsError := .malformed "varuint overflows u64"

def byte : OtsReader UInt8 := fun s =>
  match s with
  | [] => .error unexpectedEnd
  | b :: rest => .ok (b, rest)

def take (n : Nat) : OtsReader {bytes : Bytes // bytes.length = n} := fun s =>
  if h : n ≤ s.length then .ok (⟨s.take n, List.length_take_of_le h⟩, s.drop n)
  else .error unexpectedEnd

def varuintFrom : List UInt64 → UInt64 → OtsReader UInt64
  | [], _ => throw varuintOverflow
  | shift :: shifts, value => do
      let b ← byte
      let part := (b &&& 0x7f).toUInt64
      if shift = 63 ∧ 1 < part then throw varuintOverflow
      else
        let value := value ||| part <<< shift
        if b &&& 0x80 = 0 then return value else varuintFrom shifts value

def shifts : List UInt64 := (List.range' 0 10 7).map UInt64.ofNat

def varuint : OtsReader UInt64 := varuintFrom shifts 0

def varbytes (max : Nat) : OtsReader Bytes := do
  let len ← varuint
  if len.toNat ≤ max then
    let bytes ← take len.toNat
    return bytes.1
  else throw (.malformed "length over the limit")

def writeVaruintFrom : Nat → UInt64 → Bytes
  | 0, _ => []
  | fuel + 1, v =>
    let b := (v &&& 0x7f).toUInt8
    let v := v >>> 7
    if v = 0 then [b] else (b ||| 0x80) :: writeVaruintFrom fuel v

def writeVaruint (v : UInt64) : Bytes := writeVaruintFrom 10 v

def writeVarbytes (bytes : Bytes) : Bytes := writeVaruint (UInt64.ofNat bytes.length) ++ bytes

inductive Op where
  | sha1
  | ripemd160
  | sha256
  | keccak256
  | append (arg : Bytes)
  | prepend (arg : Bytes)
  | reverse
  | hexlify
  deriving DecidableEq

namespace Op

def tag : Op → UInt8
  | .sha1 => 0x02
  | .ripemd160 => 0x03
  | .sha256 => 0x08
  | .keccak256 => 0x67
  | .append _ => 0xf0
  | .prepend _ => 0xf1
  | .reverse => 0xf2
  | .hexlify => 0xf3

def arg : Op → Bytes
  | .append arg => arg
  | .prepend arg => arg
  | _ => []

def sortKey (op : Op) : UInt8 ×ₗ Bytes := toLex (op.tag, op.arg)

def write : Op → Bytes
  | .append arg => (Op.append arg).tag :: writeVarbytes arg
  | .prepend arg => (Op.prepend arg).tag :: writeVarbytes arg
  | op => [op.tag]

end Op

def tagAttestation : UInt8 := 0x00

def tagFork : UInt8 := 0xff

def readArg (op : Bytes → Op) : OtsReader Op := do
  let arg ← varbytes maxMsg
  if arg = [] then throw (.malformed "empty append or prepend") else return op arg

def readOp (tag : UInt8) : OtsReader Op :=
  if tag = Op.sha1.tag then return .sha1
  else if tag = Op.ripemd160.tag then return .ripemd160
  else if tag = Op.sha256.tag then return .sha256
  else if tag = Op.keccak256.tag then return .keccak256
  else if tag = Op.reverse.tag then return .reverse
  else if tag = Op.hexlify.tag then return .hexlify
  else if tag = (Op.append []).tag then readArg .append
  else if tag = (Op.prepend []).tag then readArg .prepend
  else throw (.malformed "unknown operation tag")

inductive Attestation where
  /-- A calendar's promise to commit this message later. -/
  | pending (uri : Bytes)
  /-- The message is the Merkle root of the Bitcoin block at `height`. -/
  | bitcoin (height : UInt64)
  /-- Any other notary, kept verbatim. -/
  | unknown (tag : Bytes8) (payload : Bytes)
  deriving DecidableEq

def pendingTag : Bytes8 := ⟨[0x83, 0xdf, 0xe3, 0x0d, 0x2e, 0xf9, 0x0c, 0x8e], rfl⟩

def bitcoinTag : Bytes8 := ⟨[0x05, 0x88, 0x96, 0x0d, 0x73, 0xd7, 0x19, 0x01], rfl⟩

def isUriByte (c : UInt8) : Bool :=
  (48 ≤ c && c ≤ 57) || (65 ≤ c && c ≤ 90) || (97 ≤ c && c ≤ 122) ||
    [45, 46, 95, 47, 58].contains c

def validUri (uri : Bytes) : Bool := uri.length ≤ maxUri && uri.all isUriByte

namespace Attestation

def tag : Attestation → Bytes8
  | .pending _ => pendingTag
  | .bitcoin _ => bitcoinTag
  | .unknown tag _ => tag

/-- Within a notary the order is that of what the payload means. -/
def sortKey : Attestation → Bytes ×ₗ Bytes
  | .pending uri => toLex (pendingTag.1, uri)
  | .bitcoin height => toLex (bitcoinTag.1, toBigEndian 8 height.toNat)
  | .unknown tag payload => toLex (tag.1, payload)

def payload : Attestation → Bytes
  | .pending uri => writeVarbytes uri
  | .bitcoin height => writeVaruint height
  | .unknown _ payload => payload

def write (a : Attestation) : Bytes := a.tag.1 ++ writeVarbytes a.payload

end Attestation

def readPayload (tag : Bytes8) : OtsReader Attestation :=
  if tag = pendingTag then do
    let uri ← varbytes maxUri
    if decodeUtf8 uri = none then throw (.malformed "calendar URI is not UTF-8")
    else if !validUri uri then throw (.malformed "calendar URI has a disallowed character")
    else return .pending uri
  else if tag = bitcoinTag then do
    let height ← varuint
    return .bitcoin height
  else fun payload => .ok (.unknown tag payload, [])

def readAttestation : OtsReader Attestation := do
  let tag ← take 8
  let payload ← varbytes maxPayload
  lift (runAll (readPayload tag) (.malformed "attestation payload has trailing bytes") payload)

/-! ### Numbers -/

variable {text : Bytes}

section Numbers

/-- Groups of seven bits, lowest first, each but the last with the high bit set. -/
inductive Groups : Bytes → Nat → Prop where
  | last {b : UInt8} (hb : b.toNat < 128) : Groups [b] b.toNat
  | more {b : UInt8} {text : Bytes} {n : Nat} (hb : 128 ≤ b.toNat) (h : Groups text n) :
      Groups (b :: text) (b.toNat - 128 + 128 * n)

def VaruintText (text : Bytes) (v : UInt64) : Prop := Groups text v.toNat ∧ text.length ≤ 10

theorem toNat_group (b : UInt8) : (b &&& 0x7f).toUInt64.toNat = b.toNat % 128 := by
  rw [UInt8.toNat_toUInt64, UInt8.toNat_and]
  exact Nat.and_two_pow_sub_one_eq_mod b.toNat 7

theorem and_high_eq_zero_iff (b : UInt8) : b &&& 0x80 = 0 ↔ b.toNat < 128 := by
  have h : ∀ n : Fin 256, UInt8.ofNat n &&& 0x80 = 0 ↔ n.1 < 128 := by
    decide +kernel
  simpa using h ⟨b.toNat, b.toNat_lt⟩

theorem toNat_or_shiftLeft {value part shift : UInt64} (hshift : shift.toNat < 64)
    (hvalue : value.toNat < 2 ^ shift.toNat) (hpart : part.toNat * 2 ^ shift.toNat < 2 ^ 64) :
    (value ||| part <<< shift).toNat = value.toNat + 2 ^ shift.toNat * part.toNat := by
  rw [UInt64.toNat_or, UInt64.toNat_shiftLeft, Nat.mod_eq_of_lt hshift, Nat.shiftLeft_eq,
    Nat.mod_eq_of_lt hpart, Nat.or_comm, Nat.mul_comm, ← Nat.two_pow_add_eq_or_of_lt hvalue,
    Nat.add_comm]

theorem parses_byte : Parses byte fun text b => text = [b] := by
  refine ⟨fun {s b rest} => ?_⟩
  cases s with
  | nil => simp [byte]
  | cons c s => simp [byte]

theorem parses_take (n : Nat) : Parses (take n) fun text bytes => text = bytes.1 := by
  refine ⟨fun {s bytes rest} => ?_⟩
  rw [take]
  constructor
  · intro h
    split_ifs at h with hle
    cases h
    exact ⟨_, (take_append_drop n s).symm, rfl⟩
  · rintro ⟨_, rfl, rfl⟩
    obtain ⟨bytes, rfl⟩ := bytes
    simp

theorem varuintFrom_cons (shift value : UInt64) (shifts : List UInt64) (b : UInt8) (s : Bytes) :
    varuintFrom (shift :: shifts) value (b :: s) =
      if shift = 63 ∧ 1 < (b &&& 0x7f).toUInt64 then .error varuintOverflow
      else if b &&& 0x80 = 0 then .ok (value ||| (b &&& 0x7f).toUInt64 <<< shift, s)
      else varuintFrom shifts (value ||| (b &&& 0x7f).toUInt64 <<< shift) s := by
  change (if _ then _ else if _ then _ else _ : OtsReader UInt64) s = _
  split_ifs <;> rfl

theorem one_lt_group_iff (b : UInt8) : 1 < (b &&& 0x7f).toUInt64 ↔ 1 < b.toNat % 128 := by
  rw [lt_iff_toNat_lt, toNat_group]
  rfl

theorem varuintFrom_cons_eq_ok_iff {shift value v : UInt64} {rest_shifts : List UInt64} {b : UInt8}
    {s rest : Bytes} :
    varuintFrom (shift :: rest_shifts) value (b :: s) = .ok (v, rest) ↔
      ¬ (shift = 63 ∧ 1 < b.toNat % 128) ∧
      ((b.toNat < 128 ∧ v = value ||| (b &&& 0x7f).toUInt64 <<< shift ∧ s = rest) ∨
        (128 ≤ b.toNat ∧ varuintFrom rest_shifts (value ||| (b &&& 0x7f).toUInt64 <<< shift) s =
          .ok (v, rest))) := by
  simp only [varuintFrom_cons, one_lt_group_iff, and_high_eq_zero_iff]
  split_ifs with hover hhigh
  · simp [hover]
  · simp [hover, hhigh, eq_comm]
  · simp [hover, hhigh, not_lt.1 hhigh]

theorem exists_groups_cons_iff {P : Nat → Prop} {m : Nat} {b : UInt8} {s rest : Bytes} :
    (∃ text n, b :: s = text ++ rest ∧ Groups text n ∧ text.length ≤ m + 1 ∧ P n) ↔
      (b.toNat < 128 ∧ s = rest ∧ P b.toNat) ∨ (128 ≤ b.toNat ∧ ∃ text n, s = text ++ rest ∧
        Groups text n ∧ text.length ≤ m ∧ P (b.toNat - 128 + 128 * n)) := by
  constructor
  · rintro ⟨text, n, htext, hgroups, hlength, hn⟩
    cases hgroups with
    | last hb =>
      obtain ⟨rfl, rfl⟩ := List.cons.inj htext
      exact .inl ⟨hb, rfl, hn⟩
    | more hb h =>
      obtain ⟨rfl, rfl⟩ := List.cons.inj htext
      exact .inr ⟨hb, _, _, rfl, h, Nat.le_of_succ_le_succ hlength, hn⟩
  · rintro (⟨hb, rfl, hn⟩ | ⟨hb, text, n, rfl, h, hlength, hn⟩)
    · exact ⟨[b], _, rfl, .last hb, Nat.le_add_left _ _, hn⟩
    · exact ⟨b :: text, _, rfl, .more hb h, Nat.succ_le_succ hlength, hn⟩

/-- The loop adds the groups that it reads above the bits that it has. -/
theorem varuintFrom_eq_ok_iff {k m : Nat} (hk : k + m = 10) {value : UInt64}
    (hvalue : value.toNat < 2 ^ (7 * k)) {s rest : Bytes} {v : UInt64} :
    varuintFrom ((List.range' (7 * k) m 7).map ofNat) value s = .ok (v, rest) ↔
      ∃ text n, s = text ++ rest ∧ Groups text n ∧ text.length ≤ m ∧
        v.toNat = value.toNat + 2 ^ (7 * k) * n := by
  induction m generalizing k value s with
  | zero =>
    refine iff_of_false nofun ?_
    rintro ⟨text, n, -, hgroups, hlength, -⟩
    cases hgroups <;> simp at hlength
  | succ m ih =>
    cases s with
    | nil =>
      refine iff_of_false nofun ?_
      rintro ⟨text, n, htext, hgroups, -⟩
      obtain rfl : text = [] := (append_eq_nil_iff.1 htext.symm).1
      cases hgroups
    | cons b s =>
      have hshift : (ofNat (7 * k)).toNat = 7 * k := by
        rw [toNat_ofNat']
        omega
      have hlast : UInt64.ofNat (7 * k) = 63 ↔ k = 9 := by
        rw [← UInt64.toNat_inj, hshift]
        change 7 * k = 63 ↔ k = 9
        omega
      rw [range'_succ, map_cons, varuintFrom_cons_eq_ok_iff, hlast, exists_groups_cons_iff]
      have hb := b.toNat_lt
      by_cases hover : k = 9 ∧ 1 < b.toNat % 128
      · -- the tenth group has one bit left
        refine iff_of_false (fun h => h.1 hover) ?_
        obtain ⟨rfl, hbig⟩ := hover
        rintro (⟨hlow, -, hv⟩ | ⟨-, text, n, -, hgroups, hlength, -⟩)
        · have := v.toNat_lt
          omega
        · cases hgroups <;> simp at hlength <;> omega
      · have hpart : b.toNat % 128 * 2 ^ (7 * k) < 2 ^ 64 := by
          by_cases hnine : k = 9
          · subst hnine
            omega
          · have hle : 2 ^ (7 * k) ≤ 2 ^ 56 := Nat.pow_le_pow_right (by decide) (by omega)
            calc b.toNat % 128 * 2 ^ (7 * k) ≤ 127 * 2 ^ 56 := Nat.mul_le_mul (by omega) hle
              _ < 2 ^ 64 := by decide
        have hnext : (value ||| (b &&& 0x7f).toUInt64 <<< ofNat (7 * k)).toNat =
            value.toNat + 2 ^ (7 * k) * (b.toNat % 128) := by
          rw [toNat_or_shiftLeft (by omega) (by rwa [hshift]) (by rwa [hshift, toNat_group]),
            hshift, toNat_group]
        have hpow : 2 ^ (7 * (k + 1)) = 2 ^ (7 * k) * 128 := Nat.pow_add 2 (7 * k) 7
        have hbound : value.toNat + 2 ^ (7 * k) * (b.toNat % 128) < 2 ^ (7 * (k + 1)) := by
          rw [hpow]
          nlinarith [Nat.mod_lt b.toNat (show 0 < 128 by decide)]
        rw [and_iff_right hover, show 7 * k + 7 = 7 * (k + 1) from rfl,
          ih (by omega) (by rwa [hnext]), hnext, ← UInt64.toNat_inj, hnext, hpow]
        refine or_congr (and_congr_right fun hlow => ?_) (and_congr_right fun hhigh => ?_)
        · rw [Nat.mod_eq_of_lt hlow, and_comm]
        · rw [show b.toNat % 128 = b.toNat - 128 by omega]
          simp only [Nat.mul_add, Nat.mul_assoc, Nat.add_assoc]

theorem parses_varuint : Parses varuint VaruintText := by
  refine ⟨fun {s v rest} => ?_⟩
  rw [varuint, shifts]
  refine (varuintFrom_eq_ok_iff (k := 0) (m := 10) rfl (by decide)).trans ?_
  constructor
  · rintro ⟨text, n, rfl, hgroups, hlength, hv⟩
    have hn : n = v.toNat := by simpa using hv.symm
    exact ⟨text, rfl, hn ▸ hgroups, hlength⟩
  · rintro ⟨text, rfl, hgroups, hlength⟩
    exact ⟨text, v.toNat, rfl, hgroups, hlength, by simp⟩

theorem toNat_low (v : UInt64) : (v &&& 0x7f).toUInt8.toNat = v.toNat % 128 := by
  rw [UInt64.toNat_toUInt8, UInt64.toNat_and, show (0x7f : UInt64).toNat = 2 ^ 7 - 1 from rfl,
    Nat.and_two_pow_sub_one_eq_mod]
  exact Nat.mod_eq_of_lt (by omega)

theorem toNat_low_or_high (v : UInt64) :
    ((v &&& 0x7f).toUInt8 ||| 0x80).toNat = v.toNat % 128 + 128 := by
  have hlow : v.toNat % 128 < 2 ^ 7 := Nat.mod_lt _ (by decide)
  rw [UInt8.toNat_or, toNat_low, Nat.or_comm, show (0x80 : UInt8).toNat = 2 ^ 7 * 1 from rfl,
    ← Nat.two_pow_add_eq_or_of_lt hlow, Nat.add_comm]

theorem toNat_shiftRight_seven (v : UInt64) : (v >>> 7).toNat = v.toNat / 128 := by
  rw [UInt64.toNat_shiftRight]
  exact Nat.shiftRight_eq_div_pow _ 7

theorem shiftRight_seven_eq_zero_iff (v : UInt64) : v >>> 7 = 0 ↔ v.toNat < 128 := by
  rw [← UInt64.toNat_inj, toNat_shiftRight_seven]
  change v.toNat / 128 = 0 ↔ _
  omega

theorem groups_writeVaruintFrom {fuel : Nat} {v : UInt64} (h : v.toNat < 128 ^ (fuel + 1)) :
    Groups (writeVaruintFrom (fuel + 1) v) v.toNat := by
  induction fuel generalizing v with
  | zero =>
    have hlow : v.toNat < 128 := by simpa using h
    rw [writeVaruintFrom, if_pos ((shiftRight_seven_eq_zero_iff v).2 hlow)]
    have hgroup := Groups.last (b := (v &&& 0x7f).toUInt8) (by rw [toNat_low]; omega)
    rwa [toNat_low, Nat.mod_eq_of_lt hlow] at hgroup
  | succ fuel ih =>
    rw [writeVaruintFrom]
    split_ifs with hlow
    · rw [shiftRight_seven_eq_zero_iff] at hlow
      have hgroup := Groups.last (b := (v &&& 0x7f).toUInt8) (by rw [toNat_low]; omega)
      rwa [toNat_low, Nat.mod_eq_of_lt hlow] at hgroup
    · have hnext : (v >>> 7).toNat < 128 ^ (fuel + 1) := by
        rw [toNat_shiftRight_seven]
        exact Nat.div_lt_of_lt_mul (by rwa [← Nat.pow_succ'])
      have hgroup := Groups.more (b := (v &&& 0x7f).toUInt8 ||| 0x80)
        (by rw [toNat_low_or_high]; omega) (ih hnext)
      rw [toNat_low_or_high, toNat_shiftRight_seven] at hgroup
      convert hgroup using 1
      omega

theorem length_writeVaruintFrom_le (fuel : Nat) (v : UInt64) :
    (writeVaruintFrom fuel v).length ≤ fuel := by
  induction fuel generalizing v with
  | zero => exact Nat.le_refl _
  | succ fuel ih =>
    rw [writeVaruintFrom]
    split_ifs
    · simp
    · simpa using ih (v >>> 7)

/-- No text of a number, or of a greater one, is shorter than the one that is written. -/
theorem length_writeVaruintFrom_le_of_groups {fuel : Nat} {v : UInt64} {n : Nat} (h : Groups text n)
    (hle : v.toNat ≤ n) : (writeVaruintFrom fuel v).length ≤ text.length := by
  induction fuel generalizing v text n with
  | zero => exact Nat.zero_le _
  | succ fuel ih =>
    rw [writeVaruintFrom]
    split_ifs with hlow
    · cases h <;> simp
    · rw [shiftRight_seven_eq_zero_iff] at hlow
      cases h with
      | last hb => omega
      | @more b text n hb h =>
        have hb := b.toNat_lt
        have hnext : (v >>> 7).toNat ≤ n := by
          rw [toNat_shiftRight_seven]
          omega
        simpa using ih h hnext

theorem varuintText_writeVaruint (v : UInt64) : VaruintText (writeVaruint v) v :=
  ⟨groups_writeVaruintFrom (v.toNat_lt.trans (by decide)), length_writeVaruintFrom_le 10 v⟩

theorem varuintFrom_take (shifts : List UInt64) (value : UInt64) (s : Bytes) :
    varuintFrom shifts value s = (varuintFrom shifts value (s.take shifts.length)).map
      fun x => (x.1, x.2 ++ s.drop shifts.length) := by
  induction shifts generalizing value s with
  | nil => rfl
  | cons shift shifts ih =>
    cases s with
    | nil => rfl
    | cons b s =>
      rw [length_cons, take_succ_cons, drop_succ_cons, varuintFrom_cons, varuintFrom_cons]
      split_ifs
      · rfl
      · simp [Except.map]
      · exact ih _ s

/-- What is written for a number is read back as it, whatever follows. The reader goes by ten
bytes at most, and what it returns is the number that the groups it has read write. A group is
shifted where all of its bits stay in the word. -/
theorem varuint_exact :
    (∀ (v : UInt64) (rest : Bytes), varuint (writeVaruint v ++ rest) = .ok (v, rest)) ∧
    (∀ s, varuint s = (varuint (s.take 10)).map fun x => (x.1, x.2 ++ s.drop 10)) ∧
    (∀ s v rest, varuint s = .ok (v, rest) ↔
      ∃ text, s = text ++ rest ∧ Groups text v.toNat ∧ text.length ≤ 10) ∧
    ∀ (k : Fin shifts.length) (b : UInt8),
      shifts[k] = 63 ∧ 1 < (b &&& 0x7f).toUInt64 ∨
        ((b &&& 0x7f).toUInt64 <<< shifts[k]).toNat = b.toNat % 128 * 2 ^ shifts[k].toNat := by
  refine ⟨fun v rest => parses_varuint.ok_iff.2 ⟨_, rfl, varuintText_writeVaruint v⟩,
    varuintFrom_take shifts 0, fun s v rest => parses_varuint.ok_iff, fun k b => ?_⟩
  rw [one_lt_group_iff, UInt64.toNat_shiftLeft, toNat_group, Nat.shiftLeft_eq]
  have hshifts : ∀ shift ∈ shifts, shift.toNat ≤ 56 ∨ shift = 63 := by
    simp [shifts, range']
  have hb := Nat.mod_lt b.toNat (show 0 < 128 by decide)
  refine or_iff_not_imp_left.2 fun hover => ?_
  have hlt : b.toNat % 128 * 2 ^ shifts[k].toNat < 2 ^ 64 ∧ shifts[k].toNat < 64 := by
    rcases hshifts shifts[k] (getElem_mem k.2) with hle | hlast
    · have hpow := Nat.pow_le_pow_right (show 0 < 2 by decide) hle
      exact ⟨(Nat.mul_lt_mul_of_lt_of_le hb hpow (by positivity)).trans (by decide), by omega⟩
    · have hone : b.toNat % 128 ≤ 1 := not_lt.1 fun h => hover ⟨hlast, h⟩
      rw [hlast]
      exact ⟨(Nat.mul_le_mul_right _ hone).trans_lt (by decide), by decide⟩
  rw [Nat.mod_eq_of_lt hlt.2, Nat.mod_eq_of_lt hlt.1]

def VarbytesText (max : Nat) (text bytes : Bytes) : Prop :=
  bytes.length ≤ max ∧ ∃ t v, VaruintText t v ∧ v.toNat = bytes.length ∧ text = t ++ bytes

theorem parses_varbytes (max : Nat) : Parses (varbytes max) (VarbytesText max) := by
  refine ⟨fun {s bytes rest} => ?_⟩
  rw [varbytes, bind_eq_ok_iff]
  constructor
  · rintro ⟨len, s', hlen, h⟩
    obtain ⟨t, rfl, ht⟩ := parses_varuint.ok_iff.1 hlen
    split_ifs at h with hmax
    · obtain ⟨taken, s'', htake, hpure⟩ := bind_eq_ok_iff.1 h
      obtain ⟨_, rfl, rfl⟩ := (parses_take _).ok_iff.1 htake
      obtain ⟨rfl, rfl⟩ := pure_eq_ok_iff.1 hpure
      exact ⟨t ++ taken.1, (append_assoc _ _ _).symm, taken.2.symm ▸ hmax, t, len, ht,
        taken.2.symm, rfl⟩
    · cases h
  · rintro ⟨_, rfl, hmax, t, v, ht, hv, rfl⟩
    refine ⟨v, bytes ++ rest, parses_varuint.ok_iff.2 ⟨t, append_assoc _ _ _, ht⟩, ?_⟩
    rw [if_pos (hv.symm ▸ hmax), bind_eq_ok_iff]
    exact ⟨⟨bytes, hv.symm⟩, rest, (parses_take _).ok_iff.2 ⟨bytes, rfl, rfl⟩, rfl⟩

theorem varbytesText_writeVarbytes {max : Nat} {bytes : Bytes} (h : bytes.length ≤ max)
    (hmax : max < 2 ^ 64) : VarbytesText max (writeVarbytes bytes) bytes := by
  refine ⟨h, _, _, varuintText_writeVaruint _, ?_, rfl⟩
  rw [toNat_ofNat', Nat.mod_eq_of_lt (by omega)]

theorem VarbytesText.length_writeVarbytes_le {max : Nat} {bytes bytes' : Bytes}
    (h : VarbytesText max text bytes) (hle : bytes'.length ≤ bytes.length) :
    (writeVarbytes bytes').length ≤ text.length := by
  obtain ⟨-, t, v, ⟨hgroups, -⟩, hv, rfl⟩ := h
  have hlen : (writeVaruint (ofNat bytes'.length)).length ≤ t.length := by
    refine length_writeVaruintFrom_le_of_groups hgroups ?_
    rw [toNat_ofNat', hv]
    exact (Nat.mod_le _ _).trans hle
  rw [writeVarbytes, length_append, length_append]
  omega

end Numbers

/-! ### Operations -/

section Operations

def Op.ArgText : Op → Bytes → Prop
  | .append arg, text => arg ≠ [] ∧ VarbytesText maxMsg text arg
  | .prepend arg, text => arg ≠ [] ∧ VarbytesText maxMsg text arg
  | _, text => text = []

def OpText (text : Bytes) (op : Op) : Prop := ∃ t, text = op.tag :: t ∧ op.ArgText t

theorem Op.sortKey_injective : Function.Injective Op.sortKey := by
  intro op op' h
  obtain ⟨htag, harg⟩ := Prod.mk.inj (toLex_inj.1 h)
  cases op <;> cases op' <;> simp_all [Op.tag, Op.arg]

theorem parses_readArg (op : Bytes → Op) :
    Parses (readArg op) fun text op' => ∃ arg, op' = op arg ∧ arg ≠ [] ∧
      VarbytesText maxMsg text arg := by
  refine ⟨fun {s op' rest} => ?_⟩
  rw [readArg, bind_eq_ok_iff]
  constructor
  · rintro ⟨arg, s', hread, h⟩
    obtain ⟨t, rfl, ht⟩ := (parses_varbytes _).ok_iff.1 hread
    split_ifs at h with hempty
    · cases h
    · obtain ⟨rfl, rfl⟩ := pure_eq_ok_iff.1 h
      exact ⟨t, rfl, arg, rfl, hempty, ht⟩
  · rintro ⟨t, rfl, arg, rfl, hempty, ht⟩
    refine ⟨arg, rest, (parses_varbytes _).ok_iff.2 ⟨t, rfl, ht⟩, ?_⟩
    rw [if_neg hempty]
    rfl

theorem parses_readOp (tag : UInt8) :
    Parses (readOp tag) fun text op => op.tag = tag ∧ op.ArgText text := by
  have hplain {op : Op} (hop : ∀ op' : Op, op'.tag = op.tag ↔ op' = op)
      (harg : ∀ text, op.ArgText text ↔ text = []) :
      Parses (pure op : OtsReader Op) fun text op' => op'.tag = op.tag ∧ op'.ArgText text := by
    refine parses_pure.congr fun text op' => ?_
    rw [hop]
    constructor
    · rintro ⟨rfl, rfl⟩
      exact ⟨rfl, (harg []).2 rfl⟩
    · rintro ⟨rfl, htext⟩
      exact ⟨(harg text).1 htext, rfl⟩
  rw [readOp]
  split_ifs with h h h h h h h h
  iterate 6 exact h ▸ hplain (by rintro (_ | _) <;> simp [Op.tag]) fun _ => Iff.rfl
  · refine (parses_readArg .append).congr fun text op => ?_
    rw [h]
    cases op <;> simp [Op.tag, Op.ArgText]
  · refine (parses_readArg .prepend).congr fun text op => ?_
    rw [h]
    cases op <;> simp [Op.tag, Op.ArgText]
  · refine parses_throw.congr fun text op => iff_of_false id ?_
    rintro ⟨rfl, -⟩
    cases op <;> simp [Op.tag] at *

theorem opText_write {op : Op} (h : OpText text op) : OpText op.write op := by
  obtain ⟨t, -, ht⟩ := h
  cases op with
  | append | prepend => exact ⟨_, rfl, ht.1, varbytesText_writeVarbytes ht.2.1 (by decide)⟩
  | _ => exact ⟨[], rfl, rfl⟩

theorem OpText.length_write_le {op : Op} (h : OpText text op) : op.write.length ≤ text.length := by
  obtain ⟨t, rfl, ht⟩ := h
  cases op with
  | append | prepend => simpa [Op.write] using ht.2.length_writeVarbytes_le le_rfl
  | _ => simp [Op.write]

end Operations

/-! ### Attestations -/

section Attestations

def Attestation.PayloadText : Attestation → Bytes → Prop
  | .pending uri, text => validUri uri = true ∧ VarbytesText maxUri text uri
  | .bitcoin height, text => VaruintText text height
  | .unknown tag payload, text => text = payload ∧ tag ≠ pendingTag ∧ tag ≠ bitcoinTag

def AttestationText (text : Bytes) (a : Attestation) : Prop :=
  ∃ t payload, text = a.tag.1 ++ t ∧ VarbytesText maxPayload t payload ∧ a.PayloadText payload

theorem toNat_lt_of_isUriByte {c : UInt8} (h : isUriByte c = true) : c.toNat < 128 := by
  simp only [isUriByte, Bool.or_eq_true, Bool.and_eq_true, decide_eq_true_eq, contains_iff_mem,
    mem_cons, not_mem_nil, or_false, UInt8.le_iff_toNat_le, ← UInt8.toNat_inj] at h
  simp only [UInt8.reduceToNat] at h
  omega

theorem decodeUtf8_ne_none {uri : Bytes} (h : validUri uri = true) : decodeUtf8 uri ≠ none := by
  rw [validUri, Bool.and_eq_true, all_eq_true] at h
  have hchar : ∀ b ∈ uri, (Char.ofNat b.toNat).toNat = b.toNat := by
    intro b hb
    have hlt := toNat_lt_of_isUriByte (h.2 b hb)
    rw [Char.ofNat, dif_pos (Or.inl (by omega))]
    rfl
  have hascii : ∀ c ∈ uri.map fun b => Char.ofNat b.toNat, c.toNat < 128 := by
    simp only [forall_mem_map]
    intro b hb
    rw [hchar b hb]
    exact toNat_lt_of_isUriByte (h.2 b hb)
  have hutf8 : utf8 (uri.map fun b => Char.ofNat b.toNat) = uri := by
    rw [utf8_of_ascii hascii, map_map]
    refine (map_congr_left fun b hb => ?_).trans (map_id uri)
    rw [Function.comp_apply, hchar b hb, UInt8.ofNat_toNat, id]
  rw [← hutf8, decodeUtf8_utf8]
  exact Option.some_ne_none _

theorem readPayload_eq_ok_iff {tag : Bytes8} {payload : Bytes} {a : Attestation} :
    readPayload tag payload = .ok (a, []) ↔ a.tag = tag ∧ a.PayloadText payload := by
  rw [readPayload]
  split_ifs with hpending hbitcoin
  · subst hpending
    rw [bind_eq_ok_iff]
    constructor
    · rintro ⟨uri, s, huri, h⟩
      obtain ⟨t, rfl, ht⟩ := (parses_varbytes _).ok_iff.1 huri
      split_ifs at h with hutf8 hvalid
      · cases h
      · cases h
      · obtain ⟨rfl, rfl⟩ := pure_eq_ok_iff.1 h
        rw [append_nil]
        exact ⟨rfl, by simpa using hvalid, ht⟩
    · rintro ⟨htag, hpayload⟩
      cases a with
      | pending uri =>
        obtain ⟨hvalid, ht⟩ := hpayload
        refine ⟨uri, [], (parses_varbytes _).ok_iff.2 ⟨payload, (append_nil _).symm, ht⟩, ?_⟩
        rw [if_neg (decodeUtf8_ne_none hvalid), if_neg (by simp [hvalid])]
        rfl
      | bitcoin height => cases htag
      | unknown tag payload => exact absurd htag hpayload.2.1
  · subst hbitcoin
    rw [bind_eq_ok_iff]
    constructor
    · rintro ⟨height, s, hheight, h⟩
      obtain ⟨t, rfl, ht⟩ := parses_varuint.ok_iff.1 hheight
      obtain ⟨rfl, rfl⟩ := pure_eq_ok_iff.1 h
      rw [append_nil]
      exact ⟨rfl, ht⟩
    · rintro ⟨htag, hpayload⟩
      cases a with
      | pending uri => exact absurd htag.symm hpending
      | bitcoin height =>
        exact ⟨height, [], parses_varuint.ok_iff.2 ⟨payload, (append_nil _).symm, hpayload⟩, rfl⟩
      | unknown tag payload => exact absurd htag hpayload.2.2
  · rw [Except.ok.injEq, Prod.mk.injEq, eq_self, and_true]
    constructor
    · rintro rfl
      exact ⟨rfl, rfl, hpending, hbitcoin⟩
    · rintro ⟨rfl, hpayload⟩
      cases a with
      | pending uri => exact absurd rfl hpending
      | bitcoin height => exact absurd rfl hbitcoin
      | unknown tag found => rw [hpayload.1]; rfl

theorem parses_readAttestation : Parses readAttestation AttestationText := by
  refine ((parses_take 8).bind fun tag => (parses_varbytes maxPayload).bind fun payload =>
    parses_lift).congr fun text a => ?_
  simp only [runAll_eq_ok_iff, readPayload_eq_ok_iff]
  constructor
  · rintro ⟨_, _, _, rfl, rfl, payload, t, _, rfl, ht, rfl, rfl, hpayload⟩
    rw [append_nil]
    exact ⟨t, payload, rfl, ht, hpayload⟩
  · rintro ⟨t, payload, rfl, ht, hpayload⟩
    exact ⟨a.tag, a.tag.1, t, rfl, rfl, payload, t, [], (append_nil t).symm, ht, rfl, rfl, hpayload⟩

theorem payloadText_payload {a : Attestation} (h : a.PayloadText text) :
    a.PayloadText a.payload ∧ a.payload.length ≤ text.length := by
  cases a with
  | pending uri =>
    exact ⟨⟨h.1, varbytesText_writeVarbytes h.2.1 (by decide)⟩, h.2.length_writeVarbytes_le le_rfl⟩
  | bitcoin height =>
    exact ⟨varuintText_writeVaruint height, length_writeVaruintFrom_le_of_groups h.1 le_rfl⟩
  | unknown tag payload =>
    obtain ⟨rfl, htag⟩ := h
    exact ⟨⟨rfl, htag⟩, le_rfl⟩

theorem attestationText_write {a : Attestation} (h : AttestationText text a) :
    AttestationText a.write a ∧ a.write.length ≤ text.length := by
  obtain ⟨t, payload, rfl, ht, hpayload⟩ := h
  obtain ⟨hwrite, hlength⟩ := payloadText_payload hpayload
  refine ⟨⟨_, a.payload, rfl, varbytesText_writeVarbytes (hlength.trans ht.1) (by decide), hwrite⟩,
    ?_⟩
  rw [Attestation.write, length_append, length_append]
  exact Nat.add_le_add_left (ht.length_writeVarbytes_le hlength) _

/-- The key tells readable attestations apart. -/
theorem eq_of_sortKey_eq {a a' : Attestation} {text' : Bytes} (h : AttestationText text a)
    (h' : AttestationText text' a') (hkey : a.sortKey = a'.sortKey) : a = a' := by
  obtain ⟨-, payload, -, -, hpayload⟩ := h
  obtain ⟨-, payload', -, -, hpayload'⟩ := h'
  cases a <;> cases a' <;> simp only [Attestation.sortKey, toLex_inj, Prod.mk.injEq] at hkey
  · rw [hkey.2]
  · exact absurd hkey.1 (by decide)
  · exact absurd (Subtype.ext hkey.1.symm) hpayload'.2.1
  · exact absurd hkey.1 (by decide)
  · next height height' =>
    have hheight := congrArg ofBigEndian hkey.2
    rw [ofBigEndian_toBigEndian height.toNat_lt, ofBigEndian_toBigEndian height'.toNat_lt,
      UInt64.toNat_inj] at hheight
    rw [hheight]
  · exact absurd (Subtype.ext hkey.1.symm) hpayload'.2.2
  · exact absurd (Subtype.ext hkey.1) hpayload.2.1
  · exact absurd (Subtype.ext hkey.1) hpayload.2.2
  · rw [Subtype.ext hkey.1, hkey.2]

end Attestations

end Calybris.Ots
