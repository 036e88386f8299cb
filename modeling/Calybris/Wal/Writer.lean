import Calybris.Wal.Reader

/-!
# The writer

A payload is serialized through a writer with a limit, hashed onto the last hash, and
written as one line in append mode. A refused payload writes nothing; an error of the
file may leave a part of the line behind, and no later call goes through.
-/

namespace Calybris.Wal

open Text Note

/-! ### Serialization under a limit -/

/-- What the serializer of a payload does: the chunks it writes, and whether it fails
after them. -/
structure Serialization where
  chunks : List Bytes
  fails : Bool

namespace Serialization

def text (payload : Serialization) : Bytes := payload.chunks.flatten

end Serialization

structure LimitedWriter where
  inner : Bytes
  limit : Nat
  exceeded : Bool

namespace LimitedWriter

def new (limit : Nat) : LimitedWriter := ⟨[], limit, false⟩

def write (writer : LimitedWriter) (chunk : Bytes) : LimitedWriter :=
  if chunk.length > writer.limit - writer.inner.length then { writer with exceeded := true }
  else { writer with inner := writer.inner ++ chunk }

def writeChunks (writer : LimitedWriter) : List Bytes → LimitedWriter
  | [] => writer
  | chunk :: chunks =>
    let written := writer.write chunk
    if written.exceeded then written else written.writeChunks chunks

end LimitedWriter

def serialize (payload : Serialization) : Except WalError Bytes :=
  let writer := (LimitedWriter.new maxWalPayloadBytes).writeChunks payload.chunks
  if writer.exceeded then .error .payloadTooLarge
  else if payload.fails then .error .json
  else if ByteArray.validateUTF8 ⟨writer.inner.toArray⟩ then .ok writer.inner
  else .error .notUtf8

/-! ### Files -/

def maxFileBytes : Nat := 2 ^ 63 - 1

structure WalFile where
  bytes : Bytes
  bounded : bytes.length ≤ maxFileBytes
  deriving DecidableEq

namespace WalFile

def empty : WalFile := ⟨[], Nat.zero_le _⟩

theorem eq_of_bytes_eq {file file' : WalFile} (h : file.bytes = file'.bytes) : file = file' := by
  cases file
  cases file'
  cases h
  rfl

/-- Writes at the end of the file. With `failsAfter` the file takes that many bytes and
then fails; it also fails where it is full. -/
def writeAll (file : WalFile) (failsAfter : Option Nat) (line : Bytes) : Bool × WalFile :=
  let room := maxFileBytes - file.bytes.length
  let taken := line.take (min room (failsAfter.getD room))
  (decide (taken.length = line.length) && failsAfter.isNone,
    ⟨file.bytes ++ taken, by
      have := file.bounded
      simp only [List.length_append, taken, List.length_take]
      omega⟩)

theorem bytes_writeAll {file : WalFile} {failsAfter : Option Nat} {line : Bytes}
    (h : (file.writeAll failsAfter line).1 = true) :
    (file.writeAll failsAfter line).2.bytes = file.bytes ++ line := by
  simp only [writeAll, Bool.and_eq_true, decide_eq_true_eq] at h ⊢
  rw [(List.take_prefix _ line).eq_of_length h.1]

theorem writeAll_of_bytes_eq {file file' : WalFile} {line : Bytes}
    (h : file'.bytes = file.bytes ++ line) : file.writeAll none line = (true, file') := by
  have hbounded := file'.bounded
  rw [h, List.length_append] at hbounded
  have htake : line.take (min (maxFileBytes - file.bytes.length)
      (Option.getD none (maxFileBytes - file.bytes.length))) = line := by
    rw [Option.getD_none, Nat.min_self, List.take_of_length_le (by omega)]
  obtain ⟨bytes, hbytes⟩ := file'
  simp only [writeAll, htake, decide_true, Option.isNone_none, Bool.and_self, Prod.mk.injEq,
    true_and, mk.injEq]
  exact h.symm

end WalFile

/-! ### The line of an entry -/

def literal (s : String) : Bytes := utf8 s.toList

theorem literal_eq_toUTF8 (s : String) : literal s = s.toUTF8.data.toList := by
  have h : s.toList.utf8Encode = s.toUTF8 := String.utf8Encode_toList
  rw [← h, List.utf8Encode, List.data_toByteArray]
  rfl

def entryText (entry : WalEntry) : Bytes :=
  literal "\x7b\"sequence\":" ++ (utf8 (decimal entry.sequence.toNat) ++
    (literal ",\"previous_hash\":\"" ++ (entry.previousHash ++
      (literal "\",\"entry_hash\":\"" ++ (entry.entryHash ++
        (literal "\",\"data\":" ++ (entry.data ++ literal "\x7d")))))))

def entryLine (entry : WalEntry) : Bytes := entryText entry ++ [newline]

/-! ### The writer -/

structure WalWriter where
  sequence : UInt64
  lastHash : Bytes
  hmacKey : Option Bytes
  poisoned : Bool
  deriving DecidableEq

namespace WalWriter

variable (D : Digests) (J : SerdeJson)

def openInner (hmacKey : Option Bytes) (file : WalFile) : Except WalError WalWriter :=
  match validateKey hmacKey with
  | .error error => .error error
  | .ok () =>
    match validateChainReader D J hmacKey file.bytes with
    | .error error => .error error
    | .ok (sequence, lastHash) => .ok ⟨sequence, lastHash, hmacKey, false⟩

def nextEntry (writer : WalWriter) (payload : Serialization) : Except WalError WalEntry :=
  if writer.poisoned then .error .poisoned
  else
    match Machine.checkedAdd writer.sequence 1 with
    | none => .error .sequenceOverflow
    | some nextSequence =>
      match serialize payload with
      | .error error => .error error
      | .ok dataJson =>
        match computeHash D writer.hmacKey writer.lastHash dataJson with
        | .error error => .error error
        | .ok entryHash => .ok ⟨nextSequence, writer.lastHash, entryHash, dataJson⟩

def append (writer : WalWriter) (file : WalFile) (failsAfter : Option Nat)
    (payload : Serialization) : Except WalError WalEntry × WalWriter × WalFile :=
  match writer.nextEntry D payload with
  | .error error => (.error error, writer, file)
  | .ok entry =>
    let written := file.writeAll failsAfter (entryLine entry)
    if written.1 then
      (.ok entry, { writer with sequence := entry.sequence, lastHash := entry.entryHash },
        written.2)
    else (.error .writeFailed, { writer with poisoned := true }, written.2)

/-- A call that only asks something of the file; `done` says whether the file did it. -/
def askFile (writer : WalWriter) (done : Bool) : Except WalError Unit × WalWriter :=
  if writer.poisoned then (.error .poisoned, writer)
  else if done then (.ok (), writer)
  else (.error .writeFailed, { writer with poisoned := true })

def flushAndSync (writer : WalWriter) (flushed synced : Bool) : Except WalError Unit × WalWriter :=
  writer.askFile (flushed && synced)

def flush (writer : WalWriter) (flushed : Bool) : Except WalError Unit × WalWriter :=
  writer.askFile flushed

def sync (writer : WalWriter) (synced : Bool) : Except WalError Unit × WalWriter :=
  writer.askFile synced

def anchor (writer : WalWriter) : WalAnchor :=
  ⟨walAnchorSchema, writer.sequence, writer.lastHash, writer.hmacKey.isSome⟩

end WalWriter

end Calybris.Wal
