import Calybris.Wal.Log

/-!
# The writer whose appends can be dropped

The awaited log has a validator of its own, with the loop and its checks in one. It returns
what the blocking validator returns.

`AsyncWalWriter` writes the line of an entry in three pieces, each of them awaited, and
awaits a sync after them where it is told to. The head moves only after the last await. A
future that is dropped at one of them stops there: what its writes have put into the file
stays, the head is where it was, and the writer is not poisoned, so the next append goes on
behind a part of a line, or writes an entry that is there already.

A write that is dropped or fails may have put any part of its bytes into the file. The
runtime writes behind its caller; the file here is the one with these writes through.
-/

namespace Calybris.Wal

open Text Note Lines List

/-! ### The validator -/

section Validator

variable (D : Digests) (J : SerdeJson) (key : Option Bytes)

/-- What `take(..).read_until(..)` puts into the buffer. -/
def readUntil (bytes : Bytes) : Bytes := line newline (bytes.take (maxWalEntryBytes + 1))

theorem length_readUntil_le (bytes : Bytes) : (readUntil bytes).length ≤ bytes.length := by
  have h := length_line_le newline (bytes.take (maxWalEntryBytes + 1))
  rw [length_take] at h
  exact h.trans (Nat.min_le_right _ _)

def validateChainAsyncLoop (s : ChainState) (bytes : Bytes) : Except WalError ChainState :=
  if _hread : (readUntil bytes).length = 0 then .ok s
  else if (readUntil bytes).length > maxWalEntryBytes then
    .error (.entryTooLarge (readUntil bytes).length)
  else if isBlank (readUntil bytes) then
    validateChainAsyncLoop s (bytes.drop (readUntil bytes).length)
  else
    match J.parseEntry (readUntil bytes) with
    | none => .error .json
    | some entry =>
      if entry.sequence ≠ s.expectedSequence then .error (.duplicateSequence entry.sequence)
      else if entry.previousHash ≠ s.lastHash then
        .error (.chainBroken entry.sequence s.lastHash entry.previousHash)
      else
        match computeHash D key entry.previousHash entry.data with
        | .error error => .error error
        | .ok computed =>
          if computed ≠ entry.entryHash then
            .error (.chainBroken entry.sequence computed entry.entryHash)
          else
            match Machine.checkedAdd s.expectedSequence 1 with
            | none => .error .sequenceOverflow
            | some next =>
              validateChainAsyncLoop ⟨next, entry.sequence, entry.entryHash⟩
                (bytes.drop (readUntil bytes).length)
termination_by bytes.length
decreasing_by
  all_goals
    have := length_readUntil_le bytes
    rw [List.length_drop]
    omega

def validateChainAsyncReader (bytes : Bytes) : Except WalError (UInt64 × Bytes) :=
  (validateChainAsyncLoop D J key .init bytes).map fun s => (s.lastSequence, s.lastHash)

def validateChainAsync (bytes : Bytes) : Except WalError (UInt64 × Bytes) :=
  match validateKey key with
  | .error error => .error error
  | .ok () => validateChainAsyncReader D J key bytes

variable {D J key}

theorem readBoundedLine_eq (bytes : Bytes) :
    readBoundedLine bytes =
      if (readUntil bytes).length > maxWalEntryBytes then
        .error (.entryTooLarge (readUntil bytes).length)
      else .ok (readUntil bytes, bytes.drop (readUntil bytes).length) := rfl

/-- One turn of the loop checks a line as the blocking validator does. -/
theorem validateChainAsyncLoop_step (s : ChainState) (bytes : Bytes)
    (hread : (readUntil bytes).length ≠ 0) (hlen : ¬ (readUntil bytes).length > maxWalEntryBytes) :
    validateChainAsyncLoop D J key s bytes =
      match validateLine D J key s (readUntil bytes) with
      | .error error => .error error
      | .ok s' => validateChainAsyncLoop D J key s' (bytes.drop (readUntil bytes).length) := by
  rw [validateChainAsyncLoop, dif_neg hread, if_neg hlen, validateLine]
  by_cases hblank : isBlank (readUntil bytes) = true
  · rw [if_pos hblank, if_pos hblank]
  · rw [if_neg hblank, if_neg hblank]
    cases J.parseEntry (readUntil bytes) with
    | none => rfl
    | some entry =>
      simp only [checkEntry]
      split
      · rfl
      · split
        · rfl
        · cases computeHash D key entry.previousHash entry.data with
          | error error => rfl
          | ok computed =>
            dsimp only
            split
            · rfl
            · cases Machine.checkedAdd s.expectedSequence 1 with
              | none => rfl
              | some next => rfl

theorem validateChainAsyncLoop_eq (s : ChainState) (bytes : Bytes) :
    validateChainAsyncLoop D J key s bytes = forEachLine (validateLine D J key) s bytes := by
  induction hn : bytes.length using Nat.strong_induction_on generalizing s bytes with
  | _ n ih =>
    rw [forEachLine, readBoundedLine_eq]
    by_cases hread : (readUntil bytes).length = 0
    · rw [validateChainAsyncLoop, dif_pos hread, if_neg (by omega)]
      simp only [dif_pos hread]
    · by_cases hlen : (readUntil bytes).length > maxWalEntryBytes
      · rw [validateChainAsyncLoop, dif_neg hread, if_pos hlen, if_pos hlen]
      · rw [validateChainAsyncLoop_step s bytes hread hlen, if_neg hlen]
        simp only [dif_neg hread]
        cases validateLine D J key s (readUntil bytes) with
        | error error => rfl
        | ok s' =>
          have hle := length_readUntil_le bytes
          exact ih _ (by rw [length_drop]; omega) s' _ rfl

theorem validateChainAsyncReader_eq (bytes : Bytes) :
    validateChainAsyncReader D J key bytes = validateChainReader D J key bytes := by
  rw [validateChainAsyncReader, validateChainReader, validateChainAsyncLoop_eq]

theorem validateChainAsync_eq (bytes : Bytes) :
    validateChainAsync D J key bytes = validateChainInner D J key bytes := by
  rw [validateChainAsync, validateChainInner]
  cases validateKey key with
  | error error => rfl
  | ok valid => exact validateChainAsyncReader_eq bytes

end Validator

/-! ### Awaited writes -/

/-- How an awaited operation ends, with the bytes that a write has put into the file where
it does not end well. -/
inductive Await where
  | ready
  | failed (taken : Nat)
  | dropped (taken : Nat)

inductive Ended where
  | done
  | failed
  | dropped
  deriving DecidableEq

/-- `sync_data` puts nothing into the file. -/
def Await.ended : Await → Ended
  | .ready => .done
  | .failed _ => .failed
  | .dropped _ => .dropped

namespace WalFile

def writeAwaited (file : WalFile) (text : Bytes) : Await → Ended × WalFile
  | .ready =>
    let written := file.writeAll none text
    (if written.1 then .done else .failed, written.2)
  | .failed taken => (.failed, (file.writeAll (some taken) text).2)
  | .dropped taken => (.dropped, (file.writeAll (some taken) text).2)

/-- Writes the pieces in order, up to the first that does not end well. -/
def writePieces (file : WalFile) : List (Bytes × Await) → Ended × WalFile
  | [] => (.done, file)
  | (text, await) :: pieces =>
    match file.writeAwaited text await with
    | (.done, file') => file'.writePieces pieces
    | (.failed, file') => (.failed, file')
    | (.dropped, file') => (.dropped, file')

end WalFile

/-! ### The writer -/

structure Awaits where
  header : Await
  data : Await
  close : Await
  sync : Await

/-- No await of these is the last that is reached because the future was dropped there. -/
def Undropped : List Await → Prop
  | [] => True
  | .ready :: awaits => Undropped awaits
  | .failed _ :: _ => True
  | .dropped _ :: _ => False

/-- A future that is dropped is dropped before a byte of its line was taken. -/
def Awaits.DropsEarly (awaits : Awaits) (syncOnAppend : Bool) : Prop :=
  match awaits.header with
  | .ready => Undropped ([awaits.data, awaits.close] ++ if syncOnAppend then [awaits.sync] else [])
  | .failed _ => True
  | .dropped taken => taken = 0

def headerText (entry : WalEntry) : Bytes :=
  literal "\x7b\"sequence\":" ++ (utf8 (decimal entry.sequence.toNat) ++
    (literal ",\"previous_hash\":\"" ++ (entry.previousHash ++
      (literal "\",\"entry_hash\":\"" ++ (entry.entryHash ++ literal "\",\"data\":")))))

structure AsyncWalWriter extends WalWriter where
  syncOnAppend : Bool
  deriving DecidableEq

namespace AsyncWalWriter

variable (D : Digests) (J : SerdeJson)

def openInner (hmacKey : Option Bytes) (syncOnAppend : Bool) (file : WalFile) :
    Except WalError AsyncWalWriter :=
  match validateKey hmacKey with
  | .error error => .error error
  | .ok () =>
    match validateChainAsyncReader D J hmacKey file.bytes with
    | .error error => .error error
    | .ok (sequence, lastHash) => .ok ⟨⟨sequence, lastHash, hmacKey, false⟩, syncOnAppend⟩

def nextEntry (writer : AsyncWalWriter) (payload : Serialization) : Except WalError WalEntry :=
  match writer.toWalWriter.nextEntry D payload with
  | .error error => .error error
  | .ok entry =>
    let lineLen := (headerText entry).length + entry.data.length + 2
    if lineLen > maxWalEntryBytes then .error (.entryTooLarge lineLen) else .ok entry

/-- The writer and the file after an append, and what it returned. A dropped future has not
returned. -/
def append (writer : AsyncWalWriter) (file : WalFile) (awaits : Awaits) (payload : Serialization) :
    Option (Except WalError WalEntry) × AsyncWalWriter × WalFile :=
  match writer.nextEntry D payload with
  | .error error => (some (.error error), writer, file)
  | .ok entry =>
    match file.writePieces [(headerText entry, awaits.header), (entry.data, awaits.data),
      (literal "\x7d\n", awaits.close)] with
    | (.failed, file') => (some (.error .writeFailed), { writer with poisoned := true }, file')
    | (.dropped, file') => (none, writer, file')
    | (.done, file') =>
      match if writer.syncOnAppend then awaits.sync.ended else .done with
      | .failed => (some (.error .writeFailed), { writer with poisoned := true }, file')
      | .dropped => (none, writer, file')
      | .done =>
        (some (.ok entry),
          { writer with sequence := entry.sequence, lastHash := entry.entryHash }, file')

end AsyncWalWriter

structure AppendCall (J : SerdeJson) where
  payload : Payload J
  awaits : Awaits

namespace AsyncWalWriter

variable {J : SerdeJson}

def afterCalls (D : Digests) (writer : AsyncWalWriter) (file : WalFile) :
    List (AppendCall J) → AsyncWalWriter × WalFile
  | [] => (writer, file)
  | call :: calls =>
    let after := writer.append D file call.awaits call.payload.serialization
    after.2.1.afterCalls D after.2.2 calls

end AsyncWalWriter

/-! ### What was written -/

section Pieces

variable {file file' : WalFile} {text : Bytes} {await : Await} {entry : WalEntry}

namespace WalFile

theorem bytes_of_writeAwaited (h : file.writeAwaited text await = (.done, file')) :
    file'.bytes = file.bytes ++ text := by
  cases await with
  | ready =>
    simp only [writeAwaited, Prod.mk.injEq] at h
    obtain ⟨hdone, rfl⟩ := h
    cases hwritten : (file.writeAll none text).1 with
    | true => exact bytes_writeAll hwritten
    | false =>
      rw [hwritten] at hdone
      cases hdone
  | failed | dropped => cases congrArg Prod.fst h

theorem bytes_of_writePieces {pieces : List (Bytes × Await)}
    (h : file.writePieces pieces = (.done, file')) :
    file'.bytes = file.bytes ++ (pieces.map Prod.fst).flatten := by
  induction pieces generalizing file with
  | nil =>
    cases h
    rw [map_nil, flatten_nil, append_nil]
  | cons piece pieces ih =>
    rw [writePieces] at h
    split at h
    · next file₁ hpiece =>
      rw [ih h, bytes_of_writeAwaited hpiece, map_cons, flatten_cons, append_assoc]
    · cases congrArg Prod.fst h
    · cases congrArg Prod.fst h

/-- A write that is dropped shows in the awaits, and one that is done passes the first of
them. -/
theorem undropped_of_writePieces {pieces : List (Bytes × Await)} {rest : List Await} {ended : Ended}
    (h : file.writePieces pieces = (ended, file'))
    (hall : Undropped (pieces.map Prod.snd ++ rest)) :
    ended ≠ .dropped ∧ (ended = .done → Undropped rest) := by
  induction pieces generalizing file with
  | nil =>
    cases h
    exact ⟨by decide, fun _ => hall⟩
  | cons piece pieces ih =>
    obtain ⟨text, await⟩ := piece
    rw [writePieces] at h
    cases await with
    | ready =>
      simp only [writeAwaited] at h
      cases hwritten : (file.writeAll none text).1 <;>
        simp only [hwritten, if_true, Bool.false_eq_true, if_false] at h
      · cases h
        exact ⟨by decide, by simp⟩
      · exact ih h hall
    | failed taken =>
      cases h
      exact ⟨by decide, by simp⟩
    | dropped taken => exact hall.elim

end WalFile

theorem headerText_append (entry : WalEntry) :
    headerText entry ++ (entry.data ++ literal "\x7d\n") = entryLine entry := by
  have hclose : literal "\x7d\n" = literal "\x7d" ++ [newline] := by decide
  rw [hclose]
  simp only [headerText, entryLine, entryText, append_assoc]

end Pieces

namespace AsyncWalWriter

section Cases

variable {D : Digests} {writer writer' : AsyncWalWriter} {file file' : WalFile} {awaits : Awaits}
  {payload : Serialization} {entry : WalEntry}

theorem nextEntry_eq_ok (h : writer.nextEntry D payload = .ok entry) :
    writer.toWalWriter.nextEntry D payload = .ok entry := by
  unfold nextEntry at h
  split at h
  · cases h
  · next entry' hnext =>
    dsimp only at h
    split at h
    · cases h
    · rwa [Except.ok.inj h] at hnext

/-- What an append can do: it returns an entry and has done what the blocking writer does,
it returns an error and has poisoned the writer or done nothing, or it was dropped and the
writer knows nothing of it. -/
theorem append_cases (D : Digests) (writer : AsyncWalWriter) (file : WalFile) (awaits : Awaits)
    (payload : Serialization) :
    match writer.append D file awaits payload with
    | (some (.ok entry), writer', file') =>
      writer.toWalWriter.append D file none payload = (.ok entry, writer'.toWalWriter, file') ∧
        writer'.sequence = entry.sequence ∧ writer'.lastHash = entry.entryHash
    | (some (.error _), writer', file') =>
      writer'.poisoned = true ∨ writer' = writer ∧ file' = file
    | (none, writer', _) => writer' = writer := by
  unfold append
  cases hnext : writer.nextEntry D payload with
  | error error => exact .inr ⟨rfl, rfl⟩
  | ok entry =>
    dsimp only
    rcases hpieces : file.writePieces [(headerText entry, awaits.header),
      (entry.data, awaits.data), (literal "\x7d\n", awaits.close)] with ⟨_ | _ | _, file'⟩
    · dsimp only
      cases if writer.syncOnAppend then awaits.sync.ended else .done with
      | failed => exact .inl rfl
      | dropped => rfl
      | done =>
        refine ⟨?_, rfl, rfl⟩
        have hbytes := WalFile.bytes_of_writePieces hpieces
        simp only [map_cons, map_nil, flatten_cons, flatten_nil,
          append_nil, headerText_append] at hbytes
        simp only [WalWriter.append, nextEntry_eq_ok hnext,
          WalFile.writeAll_of_bytes_eq hbytes, if_true]
    · exact .inl rfl
    · rfl

theorem syncOnAppend_append (D : Digests) (writer : AsyncWalWriter) (file : WalFile)
    (awaits : Awaits) (payload : Serialization) :
    (writer.append D file awaits payload).2.1.syncOnAppend = writer.syncOnAppend := by
  unfold append
  split
  · rfl
  · split
    · rfl
    · rfl
    · split <;> rfl

theorem file_of_dropsEarly
    (hearly : ∀ text, serialize payload = .ok text → awaits.DropsEarly writer.syncOnAppend)
    (h : writer.append D file awaits payload = (none, writer', file')) : file' = file := by
  unfold append at h
  split at h
  · cases h
  next entry hnext =>
  replace hearly := hearly _ (WalWriter.nextEntry_eq_ok (nextEntry_eq_ok hnext)).2.2.1
  unfold Awaits.DropsEarly at hearly
  split at hearly
  · next hheader =>
    rw [hheader] at h
    split at h
    · cases h
    · next hpieces => exact absurd rfl (WalFile.undropped_of_writePieces hpieces hearly).1
    · next hpieces =>
      have hsync := (WalFile.undropped_of_writePieces hpieces hearly).2 rfl
      split at h
      · cases h
      · next hended =>
        -- the sync is awaited last, and only where the writer is told to
        cases hsync' : writer.syncOnAppend <;>
          simp only [hsync', if_true, Bool.false_eq_true, if_false] at hended hsync
        · cases hended
        · cases hawait : awaits.sync <;> rw [hawait] at hended hsync
          · cases hended
          · cases hended
          · exact hsync.elim
      · cases h
  · next taken hheader =>
    rw [hheader] at h
    cases h
  · next taken hheader =>
    subst hearly
    rw [hheader] at h
    cases h
    exact WalFile.eq_of_bytes_eq (by simp [WalFile.writeAll])

end Cases

/-! ### Runs -/

section Run

variable {D : Digests} {J : SerdeJson} {key : Option Bytes} {writer writer' : AsyncWalWriter}
  {opened file file' : WalFile} {calls : List (AppendCall J)}

/-- A writer that still goes on stands at the end of the file, which is one of whole lines or
the one that was opened. -/
def Sound (D : Digests) (J : SerdeJson) (key : Option Bytes) (opened : WalFile)
    (writer : AsyncWalWriter) (file : WalFile) : Prop :=
  writer.poisoned = true ∨
    (tail newline file.bytes = [] ∨ file = opened) ∧ ∃ s, Stands D J key file writer.toWalWriter s

theorem stands_of_openInner {syncOnAppend : Bool}
    (hopen : openInner D J key syncOnAppend file = .ok writer) :
    ∃ s, Stands D J key file writer.toWalWriter s := by
  suffices h : WalWriter.openInner D J key file = .ok writer.toWalWriter from
    Wal.stands_of_openInner h
  rw [openInner, validateChainAsyncReader_eq] at hopen
  split at hopen
  · cases hopen
  · next hkey =>
    split at hopen
    · cases hopen
    · next hhead =>
      cases hopen
      rw [WalWriter.openInner, hkey, hhead]

theorem Sound.append_ok (hJ : J.Lawful) (hsound : Sound D J key opened writer file)
    {call : AppendCall J} {entry : WalEntry}
    (happendable : ∀ text, serialize call.payload.serialization = .ok text →
      Appendable J opened [call.payload.serialization])
    (h : writer.append D file call.awaits call.payload.serialization =
      (some (.ok entry), writer', file')) :
    tail newline file'.bytes = [] ∧ (∃ s, Stands D J key file' writer'.toWalWriter s) ∧
      entriesOf J file'.bytes = entriesOf J file.bytes ++ [entry] := by
  have hcases := append_cases D writer file call.awaits call.payload.serialization
  rw [h] at hcases
  obtain ⟨happend, -, -⟩ := hcases
  obtain ⟨hnext, -, -⟩ := WalWriter.append_eq_ok happend
  obtain ⟨-, -, hserialize, -⟩ := WalWriter.nextEntry_eq_ok hnext
  obtain ⟨hend, s, hs⟩ := hsound.resolve_left fun hpoisoned => by
    rw [WalWriter.nextEntry, if_pos hpoisoned] at hnext
    cases hnext
  refine ⟨Stands.tail_of_append happend, ?_⟩
  rcases hend with htail | rfl
  · obtain ⟨hs', hentries, -⟩ := hs.append_payload call.payload hJ htail happend
    exact ⟨⟨_, hs'⟩, hentries⟩
  · obtain ⟨hspace, hlength, -⟩ := happendable _ hserialize
    rw [← hs.length_entryLine hnext, ← length_append] at hlength
    obtain ⟨hdata, -⟩ := WalWriter.data_of_nextEntry hnext
    obtain ⟨hs', hentries⟩ := hs.append hJ happend (hdata ▸ call.payload.isValue _ hserialize)
      (hdata ▸ call.payload.newline_notMem _ hserialize) hspace hlength
    exact ⟨⟨_, hs'⟩, hentries⟩

theorem Sound.append (hJ : J.Lawful) (hsound : Sound D J key opened writer file)
    (call : AppendCall J)
    (happendable : ∀ text, serialize call.payload.serialization = .ok text →
      Appendable J opened [call.payload.serialization])
    (hearly : ∀ text, serialize call.payload.serialization = .ok text →
      call.awaits.DropsEarly writer.syncOnAppend)
    {returned : Option (Except WalError WalEntry)}
    (h : writer.append D file call.awaits call.payload.serialization = (returned, writer', file')) :
    Sound D J key opened writer' file' := by
  have hcases := append_cases D writer file call.awaits call.payload.serialization
  rw [h] at hcases
  rcases returned with _ | error | entry
  · obtain rfl : writer' = writer := hcases
    rwa [file_of_dropsEarly hearly h]
  · rcases hcases with hpoisoned | ⟨rfl, rfl⟩
    · exact .inl hpoisoned
    · exact hsound
  · obtain ⟨htail, hstands, -⟩ := hsound.append_ok hJ happendable h
    exact .inr ⟨.inl htail, hstands⟩

theorem Sound.afterCalls (hJ : J.Lawful) (hsound : Sound D J key opened writer file)
    (happendable : ∀ call ∈ calls, ∀ text, serialize call.payload.serialization = .ok text →
      Appendable J opened [call.payload.serialization])
    (hearly : ∀ call ∈ calls, ∀ text, serialize call.payload.serialization = .ok text →
      call.awaits.DropsEarly writer.syncOnAppend)
    (h : writer.afterCalls D file calls = (writer', file')) :
    Sound D J key opened writer' file' := by
  induction calls generalizing writer file with
  | nil =>
    cases h
    exact hsound
  | cons call calls ih =>
    obtain ⟨happendable₁, happendable⟩ := forall_mem_cons.1 happendable
    obtain ⟨hearly₁, hearly⟩ := forall_mem_cons.1 hearly
    rcases happend : writer.append D file call.awaits call.payload.serialization with
      ⟨returned, writer₁, file₁⟩
    simp only [AsyncWalWriter.afterCalls, happend] at h
    have hsync : writer₁.syncOnAppend = writer.syncOnAppend := by
      rw [← syncOnAppend_append D writer file call.awaits call.payload.serialization, happend]
    rw [← hsync] at hearly
    exact ih (hsound.append hJ call happendable₁ hearly₁ happend) happendable hearly h

end Run

end AsyncWalWriter

end Calybris.Wal
