import Calybris.Chain.Head
import Calybris.Wal.Entry

/-!
# The verified reader

The file is read line by line, each with a bound. Blank lines are skipped; every other
line must be the next entry of the chain. The loop is a fold over the lines of the
file, and it succeeds exactly on the files whose entries follow one another.
-/

namespace Calybris.Wal

open Text Note Lines

def isAsciiWhitespace (b : UInt8) : Bool :=
  b == 0x20 || b == 0x09 || b == 0x0a || b == 0x0c || b == 0x0d

def isBlank (line : Bytes) : Bool := line.all isAsciiWhitespace

/-- At most one byte more than the longest line is read. -/
def readBoundedLine (bytes : Bytes) : Except WalError (Bytes × Bytes) :=
  let buffer := line newline (bytes.take (maxWalEntryBytes + 1))
  if buffer.length > maxWalEntryBytes then .error (.entryTooLarge buffer.length)
  else .ok (buffer, bytes.drop buffer.length)

theorem readBoundedLine_eq_ok {bytes buffer rest : Bytes}
    (h : readBoundedLine bytes = .ok (buffer, rest)) :
    buffer = line newline (bytes.take (maxWalEntryBytes + 1)) ∧
      rest = bytes.drop buffer.length := by
  simp only [readBoundedLine] at h
  split at h
  · cases h
  · cases h
    exact ⟨rfl, rfl⟩

section Loop

variable {σ : Type*} (body : σ → Bytes → Except WalError σ)

def forEachLine (s : σ) (bytes : Bytes) : Except WalError σ :=
  match _h : readBoundedLine bytes with
  | .error error => .error error
  | .ok (buffer, rest) =>
    if _hread : buffer.length = 0 then .ok s
    else
      match body s buffer with
      | .error error => .error error
      | .ok s' => forEachLine s' rest
termination_by bytes.length
decreasing_by
  obtain ⟨rfl, rfl⟩ := readBoundedLine_eq_ok _h
  have := length_line_le newline (bytes.take (maxWalEntryBytes + 1))
  simp only [List.length_take, List.length_drop] at this ⊢
  omega

def boundedBody (s : σ) (line : Bytes) : Except WalError σ :=
  if line.length > maxWalEntryBytes then .error (.entryTooLarge (maxWalEntryBytes + 1))
  else body s line

variable {body}

theorem readBoundedLine_of_le {bytes : Bytes}
    (h : (line newline bytes).length ≤ maxWalEntryBytes) :
    readBoundedLine bytes =
      .ok (line newline bytes, bytes.drop (line newline bytes).length) := by
  simp only [readBoundedLine, line_take]
  rw [List.take_of_length_le (by omega), if_neg (by omega)]

theorem readBoundedLine_of_lt {bytes : Bytes}
    (h : maxWalEntryBytes < (line newline bytes).length) :
    readBoundedLine bytes = .error (.entryTooLarge (maxWalEntryBytes + 1)) := by
  have hlen : ((line newline bytes).take (maxWalEntryBytes + 1)).length = maxWalEntryBytes + 1 := by
    rw [List.length_take]
    omega
  simp only [readBoundedLine, line_take, hlen]
  rw [if_pos (by omega)]

theorem forEachLine_eq_foldlM (s : σ) (bytes : Bytes) :
    forEachLine body s bytes = (lines newline bytes).foldlM (boundedBody body) s := by
  induction hn : bytes.length using Nat.strong_induction_on generalizing s bytes with
  | _ n ih =>
    rw [forEachLine]
    by_cases hnil : bytes = []
    · subst hnil
      rfl
    · have hpos := List.length_pos_iff.2 (line_ne_nil newline hnil)
      have hlines := lines_eq_cons newline hnil
      rw [hlines, List.foldlM_cons]
      by_cases hle : (line newline bytes).length ≤ maxWalEntryBytes
      · have hbody : boundedBody body s (line newline bytes) = body s (line newline bytes) := by
          rw [boundedBody, if_neg (by omega)]
        rw [readBoundedLine_of_le hle, hbody]
        simp only [dif_neg (Nat.ne_of_gt hpos)]
        cases body s (line newline bytes) with
        | error error => rfl
        | ok s' =>
          refine ih _ ?_ s' _ rfl
          have := List.length_pos_iff.2 hnil
          rw [List.length_drop]
          omega
      · rw [readBoundedLine_of_lt (by omega), boundedBody, if_pos (by omega)]
        rfl

end Loop

/-! ### The chain -/

structure ChainState where
  expectedSequence : UInt64
  lastSequence : UInt64
  lastHash : Bytes

namespace ChainState

def init : ChainState := ⟨1, 0, genesis⟩

def accept (s : ChainState) (entry : WalEntry) : ChainState :=
  ⟨s.expectedSequence + 1, entry.sequence, entry.entryHash⟩

end ChainState

section Verify

variable (D : Digests) (J : SerdeJson) (key : Option Bytes)

/-- The checks on one entry. The comparison of the hashes takes constant time. -/
def checkEntry (s : ChainState) (entry : WalEntry) : Except WalError ChainState :=
  if entry.sequence ≠ s.expectedSequence then .error (.duplicateSequence entry.sequence)
  else if entry.previousHash ≠ s.lastHash then
    .error (.chainBroken entry.sequence s.lastHash entry.previousHash)
  else
    match computeHash D key entry.previousHash entry.data with
    | .error error => .error error
    | .ok computed =>
      if computed ≠ entry.entryHash then
        .error (.chainBroken entry.sequence computed entry.entryHash)
      else
        match Machine.checkedAdd s.expectedSequence 1 with
        | none => .error .sequenceOverflow
        | some next => .ok ⟨next, entry.sequence, entry.entryHash⟩

def validateLine (s : ChainState) (line : Bytes) : Except WalError ChainState :=
  if isBlank line then .ok s
  else
    match J.parseEntry line with
    | none => .error .json
    | some entry => checkEntry D key s entry

def validateChainReader (bytes : Bytes) : Except WalError (UInt64 × Bytes) :=
  (forEachLine (validateLine D J key) .init bytes).map fun s => (s.lastSequence, s.lastHash)

def validateChainInner (bytes : Bytes) : Except WalError (UInt64 × Bytes) :=
  match validateKey key with
  | .error error => .error error
  | .ok () => validateChainReader D J key bytes

/-- The entry is handed to the visitor as `decode` reads it from the same line. -/
def visitLine {β : Type*} (decode : Bytes → Option β) (s : ChainState × List β) (line : Bytes) :
    Except WalError (ChainState × List β) :=
  if isBlank line then .ok s
  else
    match J.parseEntry line with
    | none => .error .json
    | some entry =>
      match checkEntry D key s.1 entry with
      | .error error => .error error
      | .ok s' =>
        match decode line with
        | none => .error .json
        | some typed => .ok (s', s.2 ++ [typed])

def visitVerifiedWalInner {β : Type*} (decode : Bytes → Option β) (bytes : Bytes) :
    Except WalError ((UInt64 × Bytes) × List β) :=
  match validateKey key with
  | .error error => .error error
  | .ok () =>
    (forEachLine (visitLine D J key decode) (.init, []) bytes).map fun s =>
      ((s.1.lastSequence, s.1.lastHash), s.2)

def readVerifiedWalInner {β : Type*} (decode : Bytes → Option β) (bytes : Bytes) :
    Except WalError (List β) :=
  (visitVerifiedWalInner D J key decode bytes).map Prod.snd

end Verify

/-! ### Anchors -/

namespace WalAnchor

variable (anchor : WalAnchor)

def validateMetadata (keyed : Bool) : Except WalError Unit :=
  if anchor.schemaVersion ≠ walAnchorSchema then
    .error (.unknownAnchorSchema anchor.schemaVersion)
  else if anchor.keyed ≠ keyed then .error .anchorMode
  else .ok ()

def verifyHead (found : UInt64 × Bytes) (keyed : Bool) : Except WalError (UInt64 × Bytes) :=
  match anchor.validateMetadata keyed with
  | .error error => .error error
  | .ok () =>
    if found.1 ≠ anchor.sequence ∨ found.2 ≠ anchor.lastHash then
      .error (.anchorMismatch (anchor.sequence, anchor.lastHash) found)
    else .ok (anchor.sequence, anchor.lastHash)

end WalAnchor

section Anchored

variable (D : Digests) (J : SerdeJson)

def verifyWal (bytes : Bytes) : Except WalError (UInt64 × Bytes) :=
  validateChainInner D J none bytes

def verifyWalAgainstAnchor (bytes : Bytes) (anchor : WalAnchor) :
    Except WalError (UInt64 × Bytes) :=
  match verifyWal D J bytes with
  | .error error => .error error
  | .ok found => anchor.verifyHead found false

def verifyWalKeyedAgainstAnchor (bytes key : Bytes) (anchor : WalAnchor) :
    Except WalError (UInt64 × Bytes) :=
  match validateChainInner D J (some key) bytes with
  | .error error => .error error
  | .ok found => anchor.verifyHead found true

def anchoredHash (anchor : WalAnchor) (entries : List WalEntry) : Option Bytes :=
  entries.foldl
    (fun found entry => if entry.sequence = anchor.sequence then some entry.entryHash else found)
    (if anchor.sequence = 0 then some genesis else none)

def verifyWalContainsAnchorInner (key : Option Bytes) (bytes : Bytes) (anchor : WalAnchor) :
    Except WalError (UInt64 × Bytes) :=
  match anchor.validateMetadata key.isSome with
  | .error error => .error error
  | .ok () =>
    match visitVerifiedWalInner D J key J.parseEntry bytes with
    | .error error => .error error
    | .ok (head, entries) =>
      match anchoredHash anchor entries with
      | none => .error (.shorterThanAnchor anchor.sequence head.1)
      | some found =>
        if found ≠ anchor.lastHash then
          .error (.anchorPrefixMismatch anchor.sequence anchor.lastHash found)
        else .ok head

def verifyWalContainsAnchor (bytes : Bytes) (anchor : WalAnchor) :
    Except WalError (UInt64 × Bytes) :=
  verifyWalContainsAnchorInner D J none bytes anchor

def verifyWalKeyedContainsAnchor (bytes key : Bytes) (anchor : WalAnchor) :
    Except WalError (UInt64 × Bytes) :=
  verifyWalContainsAnchorInner D J (some key) bytes anchor

end Anchored

end Calybris.Wal
