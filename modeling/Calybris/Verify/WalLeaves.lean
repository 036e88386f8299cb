import Calybris.Merkle.Levels
import Calybris.Merkle.Stack
import Calybris.Text.Str
import Calybris.Wal.Cut
import Calybris.Wal.Hex

/-!
# The leaves of a log, read twice

A checkpoint commits to the Merkle tree over the entry hashes of a log.
`from_verified_wal` builds the tree in the crate; `wal_leaves` of the bundle script
computes its leaves again from the file, and `check_wal` compares the root.

The script reads the file as text and splits it with `splitlines`, which ends a line at
characters that JSON strings may hold as they are: U+0085, U+2028 and U+2029. Here is what
either does with one line: a whole line is the next link of the chain and adds its leaf,
a line that was cut stops the script.
-/

namespace Calybris.Verify

open Text Note Lines Transition Merkle Wal List

variable (D : Digests)

def leafHash (data : Bytes) : Bytes32 := D.sha256 (0x00 :: data)

def hashing : Hashing Bytes32 where
  nodeHash left right := D.sha256 (0x01 :: (left.1 ++ right.1))
  emptyRoot := D.sha256 []

/-! ### The crate -/

inductive WalMerkleError where
  | wal (error : WalError)
  | merkle (error : MerkleError)
  deriving DecidableEq

def leafFromEntryHash (entryHash : Bytes) : Except MerkleError Bytes32 :=
  match parseHex 32 entryHash with
  | .error _ => .error .badEntryHash
  | .ok bytes => if h : bytes.length = 32 then .ok ⟨bytes, h⟩ else .error .badEntryHash

def indexEntry (s : MerkleTree Bytes32 × Option MerkleError) (entry : WalEntry) :
    Option (MerkleTree Bytes32 × Option MerkleError) :=
  match leafFromEntryHash entry.entryHash with
  | .ok data => (s.1.push (hashing D) (leafHash D data.1)).map fun tree => (tree, s.2)
  | .error error => some (s.1, some error)

/-- Scans a log once and indexes its entry hashes. `decode` reads a line with its payload
as a JSON value. -/
def fromVerifiedWal (J : SerdeJson) (decode : Bytes → Option WalEntry) (key : Option Bytes)
    (bytes : Bytes) : Option (Except WalMerkleError (MerkleTree Bytes32)) :=
  match readVerifiedWalInner D J key decode bytes with
  | .error error => some (.error (.wal error))
  | .ok entries =>
    (entries.foldlM (indexEntry D) (.new, none)).map fun s =>
      match s.2 with
      | some error => .error (.merkle error)
      | none => .ok s.1

/-! ### The script -/

/-- What a lookup in a parsed line gives: it raises, or finds a string or something else. -/
inductive Field where
  | missing
  | other
  | text (value : List Char)
  deriving DecidableEq

structure ParsedLine where
  previousHash : Field
  entryHash : Field
  deriving DecidableEq

inductive ScriptError where
  | unicodeDecode
  | jsonDecode
  | substringNotFound
  | lookup
  | fromHex
  deriving DecidableEq

def hexdigest (digest : Bytes32) : List Char :=
  (bytesToHex digest.1).map fun b => Char.ofNat b.toNat

def hexValue (c : Char) : Option Nat :=
  if '0' ≤ c ∧ c ≤ '9' then some (c.toNat - 48)
  else if 'a' ≤ c ∧ c ≤ 'f' then some (c.toNat - 87)
  else if 'A' ≤ c ∧ c ≤ 'F' then some (c.toNat - 55)
  else none

/-- `bytes.fromhex`, which skips whitespace before a pair of digits. -/
def fromHex : List Char → Option Bytes
  | [] => some []
  | [c] => if [9, 10, 11, 12, 13, 32].contains c.toNat then some [] else none
  | c :: d :: rest =>
    if [9, 10, 11, 12, 13, 32].contains c.toNat then fromHex (d :: rest)
    else
      (hexValue c).bind fun high => (hexValue d).bind fun low =>
        (fromHex rest).map fun bytes => UInt8.ofNat (16 * high + low) :: bytes

/-- The digest of a message. An empty key is no key. -/
def messageDigest (key : Option Bytes) (message : Bytes) : Bytes32 :=
  match key with
  | some k => if k = [] then D.sha256 message else D.hmacSha256 k message
  | none => D.sha256 message

def dataKey : List Char := "\"data\":".toList

/-- The loop of `wal_leaves` over the lines that are left: the number of the next line, the
hash it must name, and the leaves so far. -/
def walLeavesFrom (loads : List Char → Option ParsedLine) (key : Option Bytes) :
    Nat → List Char → List Bytes32 → List (List Char) →
      Except ScriptError (List Bytes32 × Option String)
  | _, _, leaves, [] => .ok (leaves, none)
  | number, previous, leaves, line :: rest =>
    match loads line with
    | none => .error .jsonDecode
    | some entry =>
      match indexOf dataKey line with
      | none => .error .substringNotFound
      | some start =>
        let data := line.dropLast.drop (start + dataKey.length)
        let expected := hexdigest (messageDigest D key (utf8 (previous ++ data)))
        let broken := "entry " ++ toString number ++ " breaks the hash chain"
        match entry.previousHash with
        | .missing => .error .lookup
        | .other => .ok (leaves, some broken)
        | .text found =>
          if found ≠ previous then .ok (leaves, some broken)
          else
            match entry.entryHash with
            | .missing => .error .lookup
            | .other => .ok (leaves, some broken)
            | .text hash =>
              if hash ≠ expected then .ok (leaves, some broken)
              else
                match fromHex hash with
                | none => .error .fromHex
                | some bytes =>
                  walLeavesFrom loads key (number + 1) hash
                    (leaves ++ [leafHash D bytes]) rest

def walLeaves (loads : List Char → Option ParsedLine) (key : Option Bytes) (bytes : Bytes) :
    Except ScriptError (List Bytes32 × Option String) :=
  match decodeUtf8 bytes with
  | none => .error .unicodeDecode
  | some text => walLeavesFrom D loads key 1 "genesis".toList [] (textLines text)

inductive WalReport where
  | failed (what detail : String)
  | passed (entries size : Nat)
  deriving DecidableEq

def checkWal (loads : List Char → Option ParsedLine) (key : Option Bytes) (bytes : Bytes)
    (size : Nat) (root : Bytes) : Except ScriptError WalReport :=
  match walLeaves D loads key bytes with
  | .error error => .error error
  | .ok (_, some broken) => .ok (.failed "WAL" broken)
  | .ok (leaves, none) =>
    if leaves.length < size ∨ ((hashing D).merkleRoot (leaves.take size)).1 ≠ root then
      .ok (.failed "Merkle root" "the WAL does not reproduce the checkpoint root")
    else .ok (.passed leaves.length size)

/-! ### The readers of a line -/

structure LineReaders where
  value : Bytes → Option WalEntry
  loads : List Char → Option ParsedLine

/-- Both read what was written, which `IsValue` bounds to values that are nested no deeper
than either reader goes. A line that was cut short is no JSON: its brace is open. -/
structure LineReaders.Lawful (R : LineReaders) (J : SerdeJson) : Prop where
  value_entryLine : ∀ entry : WalEntry, entry.Plain → J.IsValue entry.data →
    ∃ typed, R.value (entryLine entry) = some typed ∧ typed.entryHash = entry.entryHash
  loads_entryText : ∀ (entry : WalEntry) text, entry.Plain → J.IsValue entry.data →
    utf8 text = entryText entry →
    ∃ previous hash, R.loads text = some ⟨.text previous, .text hash⟩ ∧
      utf8 previous = entry.previousHash ∧ utf8 hash = entry.entryHash
  loads_of_cut : ∀ (entry : WalEntry) a b, entry.Plain → J.IsValue entry.data →
    utf8 (a ++ b) = entryText entry → b ≠ [] → R.loads a = none

def Unbroken (text : Bytes) : Prop :=
  ∀ chars, text = utf8 chars → ∀ c ∈ chars, isLineBoundary c = false

/-! ### Plain bytes as characters -/

section Characters

def ascii (bytes : Bytes) : List Char := bytes.map fun b => Char.ofNat b.toNat

theorem toNat_of_isPlainByte {b : UInt8} (h : isPlainByte b = true) :
    48 ≤ b.toNat ∧ b.toNat ≤ 122 := by
  simp only [isPlainByte, Bool.or_eq_true, Bool.and_eq_true, decide_eq_true_eq,
    UInt8.le_iff_toNat_le, UInt8.reduceToNat] at h
  omega

theorem toNat_ofNat_byte (b : UInt8) : (Char.ofNat b.toNat).toNat = b.toNat := by
  have hlt := b.toNat_lt
  have hvalid : b.toNat.isValidChar := .inl (by omega)
  rw [Char.ofNat, dif_pos hvalid]
  rfl

theorem utf8_ascii {bytes : Bytes} (h : ∀ b ∈ bytes, isPlainByte b = true) :
    utf8 (ascii bytes) = bytes := by
  have hascii : ∀ c ∈ ascii bytes, c.toNat < 128 := by
    intro c hc
    obtain ⟨b, hb, rfl⟩ := mem_map.1 hc
    rw [toNat_ofNat_byte]
    have := toNat_of_isPlainByte (h b hb)
    omega
  rw [utf8_of_ascii hascii, ascii, map_map]
  refine (map_congr_left fun b _ => ?_).trans (map_id _)
  rw [Function.comp_apply, toNat_ofNat_byte, UInt8.ofNat_toNat, id_eq]

theorem hexdigest_eq (digest : Bytes32) : hexdigest digest = ascii (bytesToHex digest.1) := rfl

theorem fromHex_hexdigest (digest : Bytes32) : fromHex (hexdigest digest) = some digest.1 := by
  have hdigit : ∀ n : Fin 16,
      hexValue (Char.ofNat (hexDigit n).toNat) = some n.1 ∧
        [9, 10, 11, 12, 13, 32].contains (Char.ofNat (hexDigit n).toNat).toNat = false := by
    decide
  have hbytes : ∀ bytes : Bytes, fromHex (ascii (bytesToHex bytes)) = some bytes := by
    intro bytes
    induction bytes with
    | nil => rfl
    | cons b bytes ih =>
      have hlt := b.toNat_lt
      obtain ⟨hhigh, hspace⟩ := hdigit ⟨b.toNat / 16, by omega⟩
      obtain ⟨hlow, -⟩ := hdigit ⟨b.toNat % 16, by omega⟩
      have hbyte : 16 * (b.toNat / 16) + b.toNat % 16 = b.toNat := by omega
      have hcons : ascii (bytesToHex (b :: bytes)) =
          Char.ofNat (hexDigit (b.toNat / 16)).toNat ::
            Char.ofNat (hexDigit (b.toNat % 16)).toNat :: ascii (bytesToHex bytes) := rfl
      rw [hcons, fromHex, hspace, hhigh, hlow, ih]
      simp only [Option.bind_some, Option.map_some, hbyte, UInt8.ofNat_toNat, Bool.false_eq_true,
        if_false]
  exact hbytes digest.1

end Characters

/-! ### The line of an entry as text -/

section Line

def sequenceKey : List Char := "\x7b\"sequence\":".toList

def previousHashKey : List Char := ",\"previous_hash\":\"".toList

def entryHashKey : List Char := "\",\"entry_hash\":\"".toList

def lineText (entry : WalEntry) (data : List Char) : List Char :=
  sequenceKey ++ (decimal entry.sequence.toNat ++ (previousHashKey ++ (ascii entry.previousHash ++
    (entryHashKey ++ (ascii entry.entryHash ++ (['"', ','] ++ (dataKey ++ (data ++ ['\x7d']))))))))

variable {entry : WalEntry} {data : List Char}

theorem utf8_lineText (hplain : entry.Plain) (hdata : entry.data = utf8 data) :
    utf8 (lineText entry data) = entryText entry := by
  have hkey : literal "\",\"data\":" = utf8 (['"', ','] ++ dataKey) := by decide
  have hbrace : utf8 ['\x7d'] = literal "\x7d" := by decide
  rw [entryText, hkey, hdata, ← hbrace, lineText]
  simp only [utf8_append, utf8_ascii hplain.previousHash, utf8_ascii hplain.entryHash, append_assoc]
  rfl

theorem isLineBoundary_of_plain {bytes : Bytes} (h : ∀ b ∈ bytes, isPlainByte b = true) :
    ∀ c ∈ ascii bytes, isLineBoundary c = false ∧ c ≠ '"' := by
  intro c hc
  obtain ⟨b, hb, rfl⟩ := mem_map.1 hc
  have hall : ∀ n : Fin 123, 48 ≤ n.1 →
      isLineBoundary (Char.ofNat n) = false ∧ Char.ofNat n ≠ '"' := by
    decide
  have hbounds := toNat_of_isPlainByte (h b hb)
  exact hall ⟨b.toNat, by omega⟩ hbounds.1

theorem isLineBoundary_of_mem_decimal {n : Nat} {c : Char} (hc : c ∈ decimal n) :
    isLineBoundary c = false ∧ c ≠ '"' := by
  have hall : ∀ n : Fin 58, 48 ≤ n.1 →
      isLineBoundary (Char.ofNat n) = false ∧ Char.ofNat n ≠ '"' := by
    decide
  have hbounds := toNat_of_mem_decimal hc
  have hchar := hall ⟨c.toNat, by omega⟩ hbounds.1
  rwa [Char.ofNat_toNat] at hchar

theorem forall_lineText_iff (hplain : entry.Plain) :
    (∀ c ∈ lineText entry data, isLineBoundary c = false) ↔
      ∀ c ∈ data, isLineBoundary c = false := by
  have hkeys : sequenceKey.any isLineBoundary = false ∧
      previousHashKey.any isLineBoundary = false ∧ entryHashKey.any isLineBoundary = false ∧
      dataKey.any isLineBoundary = false ∧ isLineBoundary '"' = false ∧
      isLineBoundary ',' = false ∧ isLineBoundary '\x7d' = false := by
    decide
  obtain ⟨h1, h2, h3, h4, h5, h6, h7⟩ := hkeys
  constructor
  · intro h c hc
    refine h c ?_
    simp [lineText, hc]
  · intro h
    simp only [lineText, forall_mem_append, forall_mem_cons, not_mem_nil,
      false_imp_iff, implies_true, and_true]
    exact ⟨eq_false_of_any h1, fun c hc => (isLineBoundary_of_mem_decimal hc).1,
      eq_false_of_any h2, fun c hc => (isLineBoundary_of_plain hplain.previousHash c hc).1,
      eq_false_of_any h3, fun c hc => (isLineBoundary_of_plain hplain.entryHash c hc).1, ⟨h5, h6⟩,
      eq_false_of_any h4, h, h7⟩

def Finds (line rest : List Char) : Prop :=
  ∃ start, indexOf dataKey line = some start ∧ line.drop (start + dataKey.length) = rest

theorem Finds.cons {c : Char} {line rest : List Char} (h : Finds line rest)
    (hc : dataKey.isPrefixOf (c :: line) = false) : Finds (c :: line) rest := by
  obtain ⟨start, hstart, hrest⟩ := h
  refine ⟨start + 1, by rw [indexOf_cons hc, hstart]; rfl, ?_⟩
  rw [Nat.add_right_comm, drop_succ_cons, hrest]

theorem Finds.append {line rest : List Char} (h : Finds line rest) (part : List Char)
    (hpart : ∀ s ∈ part.tails, s ≠ [] → ¬ s <+: dataKey ∧ ¬ dataKey <+: s) :
    Finds (part ++ line) rest := by
  induction part with
  | nil => exact h
  | cons c part ih =>
    rw [tails_cons, forall_mem_cons] at hpart
    refine (ih hpart.2).cons ?_
    rw [← Bool.not_eq_true, isPrefixOf_iff_prefix]
    intro hkey
    obtain ⟨hshort, hlong⟩ := hpart.1 (cons_ne_nil c part)
    rcases prefix_or_prefix_of_prefix hkey (prefix_append (c :: part) line) with h | h
    · exact hlong h
    · exact hshort h

theorem Finds.append_of_notMem {part line rest : List Char} (h : Finds line rest)
    (hpart : '"' ∉ part) : Finds (part ++ line) rest := by
  have hkey : dataKey = '"' :: "data\":".toList := by decide
  obtain ⟨start, hstart, hrest⟩ := h
  refine ⟨start + part.length, ?_, ?_⟩
  · rw [hkey, indexOf_append hpart, ← hkey, hstart]
    rfl
  · rw [Nat.add_right_comm, Nat.add_comm, ← drop_drop, drop_left, hrest]

theorem Finds.value {value line rest : List Char} (h : Finds ('"' :: ',' :: line) rest)
    (hvalue : '"' ∉ value) : Finds ('"' :: (value ++ '"' :: ',' :: line)) rest := by
  have hkey : dataKey = '"' :: (['d', 'a', 't', 'a'] ++ '"' :: [':']) := by decide
  refine (h.append_of_notMem hvalue).cons ?_
  rw [← Bool.not_eq_true, isPrefixOf_iff_prefix, hkey]
  rintro ⟨t, ht⟩
  have htext : ['d', 'a', 't', 'a'] ++ '"' :: (':' :: t) = value ++ '"' :: ',' :: line :=
    (List.cons.inj ht).2
  obtain ⟨-, hcolon⟩ := append_cons_inj (by decide) hvalue htext
  exact absurd (List.cons.inj hcolon).1 (by decide)

theorem finds_lineText (hplain : entry.Plain) : Finds (lineText entry data) (data ++ ['\x7d']) := by
  have hdigits : '"' ∉ decimal entry.sequence.toNat := fun h =>
    (isLineBoundary_of_mem_decimal h).2 rfl
  have hprevious : '"' ∉ ascii entry.previousHash := fun h =>
    (isLineBoundary_of_plain hplain.previousHash _ h).2 rfl
  have hhash : '"' ∉ ascii entry.entryHash := fun h =>
    (isLineBoundary_of_plain hplain.entryHash _ h).2 rfl
  have hpreviousKey : previousHashKey = ",\"previous_hash\":".toList ++ ['"'] := by decide
  have hentryKey : entryHashKey = '"' :: ',' :: ("\"entry_hash\":".toList ++ ['"']) := by decide
  -- The parts from the key of the payload back to the brace.
  have hself : Finds (dataKey ++ (data ++ ['\x7d'])) (data ++ ['\x7d']) :=
    ⟨0, indexOf_append_self _ _, by rw [Nat.zero_add, drop_left]⟩
  have hcomma := hself.append ['"', ','] (by decide)
  have hentry := (Finds.value hcomma hhash).append "\",\"entry_hash\":".toList (by decide)
  have hrest := (Finds.value hentry hprevious).append ",\"previous_hash\":".toList (by decide)
  have hline := (hrest.append_of_notMem hdigits).append sequenceKey (by decide)
  rw [lineText, hpreviousKey, hentryKey]
  exact hline

theorem indexOf_lineText (data : List Char) (hplain : entry.Plain) :
    ∃ start, indexOf dataKey (lineText entry data) = some start ∧
      (lineText entry data).dropLast.drop (start + dataKey.length) = data := by
  obtain ⟨start, hstart, hrest⟩ : Finds (lineText entry data) (data ++ ['\x7d']) :=
    finds_lineText hplain
  refine ⟨start, hstart, ?_⟩
  rw [drop_dropLast, hrest, dropLast_concat]

end Line

/-! ### What the script finds -/

section Script

def entryDigest (key : Option Bytes) (entry : WalEntry) : Bytes32 :=
  match key with
  | some k => D.hmacSha256 k (entry.previousHash ++ entry.data)
  | none => D.sha256 (entry.previousHash ++ entry.data)

def entryLeaf (key : Option Bytes) (entry : WalEntry) : Bytes32 :=
  leafHash D (entryDigest D key entry).1

variable {D} {J : SerdeJson} {R : LineReaders} {key : Option Bytes} {s : ChainState}
  {entry : WalEntry} {data : List Char}

theorem entryHash_eq (h : Follows D key s [entry]) :
    entry.entryHash = bytesToHex (entryDigest D key entry).1 := by
  obtain ⟨⟨-, hprevious, hhash, -⟩, -⟩ := h
  rw [← hprevious] at hhash
  cases key with
  | none => exact (Except.ok.inj hhash).symm
  | some k =>
    simp only [computeHash] at hhash
    split at hhash
    · cases hhash
    · exact (Except.ok.inj hhash).symm

theorem messageDigest_eq (hkey : validateKey key = .ok ()) :
    messageDigest D key (entry.previousHash ++ entry.data) = entryDigest D key entry := by
  cases key with
  | none => rfl
  | some k =>
    have hne : k ≠ [] := by
      rintro rfl
      cases hkey
    rw [messageDigest, if_neg hne, entryDigest]

/-- A whole line is the next link of the chain, and its leaf is added. -/
theorem walLeavesFrom_lineText (hR : R.Lawful J) (hkey : validateKey key = .ok ())
    (hfollows : Follows D key s [entry]) (hclean : entry.Clean J) (hdata : entry.data = utf8 data)
    (number : Nat) (leaves : List Bytes32) (rest : List (List Char)) :
    walLeavesFrom D R.loads key number (ascii s.lastHash) leaves (lineText entry data :: rest) =
      walLeavesFrom D R.loads key (number + 1) (ascii (s.accept entry).lastHash)
        (leaves ++ [entryLeaf D key entry]) rest := by
  have hplain := hclean.plain
  obtain ⟨previous, hash, hloads, hprevious, hhash⟩ :=
    hR.loads_entryText entry _ hplain hclean.isValue (utf8_lineText hplain hdata)
  obtain ⟨start, hstart, hslice⟩ := indexOf_lineText data hplain
  have hlast : entry.previousHash = s.lastHash := hfollows.1.2.1
  obtain rfl : previous = ascii entry.previousHash :=
    utf8_injective (hprevious.trans (utf8_ascii hplain.previousHash).symm)
  obtain rfl : hash = ascii entry.entryHash :=
    utf8_injective (hhash.trans (utf8_ascii hplain.entryHash).symm)
  have hexpected : hexdigest (messageDigest D key (utf8 (ascii entry.previousHash ++ data))) =
      ascii entry.entryHash := by
    rw [utf8_append, hprevious, ← hdata, messageDigest_eq hkey, hexdigest_eq, entryHash_eq hfollows]
  have hbytes : fromHex (ascii entry.entryHash) = some (entryDigest D key entry).1 := by
    rw [entryHash_eq hfollows, ← hexdigest_eq, fromHex_hexdigest]
  rw [walLeavesFrom, ← hlast]
  simp only [hloads, hstart, hslice, hexpected, hbytes, ne_eq, not_true_eq_false, if_false]
  rfl

end Script

end Calybris.Verify
