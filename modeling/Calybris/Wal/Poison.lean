import Calybris.Wal.Append

/-!
# A writer that fails stays failed

An append is refused before it writes, or it writes its line, or the file fails and may
hold a part of the line. After a failure of the file, in an append or in a flush or a
sync, the writer is poisoned: every later call is refused and the file stays as it is. So
a file is what it was, the lines of the entries that were returned, and at most one part
of a line behind them, which nothing follows.
-/

namespace Calybris.Wal

open Text

inductive WriterCall where
  | append (payload : Serialization) (failsAfter : Option Nat)
  | flush (flushed : Bool)
  | sync (synced : Bool)
  | flushAndSync (flushed synced : Bool)

namespace WalWriter

variable (D : Digests)

/-- What a call returns, an entry where it is an append, with the writer and the file
after it. -/
def perform (writer : WalWriter) (file : WalFile) :
    WriterCall → Except WalError (Option WalEntry) × WalWriter × WalFile
  | .append payload failsAfter =>
    let after := writer.append D file failsAfter payload
    (after.1.map some, after.2)
  | .flush flushed => ((writer.flush flushed).1.map fun _ => none, (writer.flush flushed).2, file)
  | .sync synced => ((writer.sync synced).1.map fun _ => none, (writer.sync synced).2, file)
  | .flushAndSync flushed synced =>
    ((writer.flushAndSync flushed synced).1.map fun _ => none,
      (writer.flushAndSync flushed synced).2, file)

def performAll (writer : WalWriter) (file : WalFile) :
    List WriterCall → List (Except WalError (Option WalEntry)) × WalWriter × WalFile
  | [] => ([], writer, file)
  | call :: calls =>
    let after := writer.perform D file call
    let later := after.2.1.performAll after.2.2 calls
    (after.1 :: later.1, later.2)

/-- The call came to the file, and the file failed. -/
def FileFails (writer : WalWriter) (file : WalFile) : WriterCall → Prop
  | .append payload failsAfter =>
    ∃ entry, writer.nextEntry D payload = .ok entry ∧
      (file.writeAll failsAfter (entryLine entry)).1 = false
  | .flush flushed => writer.poisoned = false ∧ flushed = false
  | .sync synced => writer.poisoned = false ∧ synced = false
  | .flushAndSync flushed synced => writer.poisoned = false ∧ (flushed && synced) = false

end WalWriter

def written (results : List (Except WalError (Option WalEntry))) : List WalEntry :=
  results.filterMap fun result => result.toOption.join

/-! ### One call -/

section Call

variable {D : Digests} {writer writer' : WalWriter} {file file' : WalFile} {payload : Serialization}
  {call : WriterCall} {result : Except WalError (Option WalEntry)}

theorem not_serialize_of_fails (h : payload.fails = true) (text : Bytes) :
    serialize payload ≠ .ok text := by
  intro hok
  rw [(validateUTF8_of_serialize hok).1] at h
  cases h

theorem not_serialize_of_lt (h : maxWalPayloadBytes < payload.text.length) (text : Bytes) :
    serialize payload ≠ .ok text := by
  intro hok
  obtain ⟨rfl, hle⟩ := serialize_eq_ok hok
  omega

namespace WalWriter

theorem nextEntry_of_poisoned (h : writer.poisoned = true) :
    writer.nextEntry D payload = .error .poisoned := if_pos h

theorem not_poisoned_of_nextEntry {entry : WalEntry} (h : writer.nextEntry D payload = .ok entry) :
    writer.poisoned = false := by
  by_contra hpoisoned
  rw [nextEntry_of_poisoned (by simpa using hpoisoned)] at h
  cases h

theorem exists_error_of_refused (h : writer.poisoned = true ∨ writer.sequence.toNat + 1 = 2 ^ 64 ∨
      payload.fails = true ∨ maxWalPayloadBytes < payload.text.length) :
    ∃ error, writer.nextEntry D payload = .error error := by
  cases hnext : writer.nextEntry D payload with
  | error error => exact ⟨error, rfl⟩
  | ok entry =>
    obtain ⟨hsequence, -, hserialize, -⟩ := nextEntry_eq_ok hnext
    rcases h with hpoisoned | hlast | hfails | hlong
    · rw [not_poisoned_of_nextEntry hnext] at hpoisoned
      cases hpoisoned
    · have hbound := entry.sequence.toNat_lt
      omega
    · exact absurd hserialize (not_serialize_of_fails hfails _)
    · exact absurd hserialize (not_serialize_of_lt hlong _)

theorem append_of_nextEntry {error : WalError} (h : writer.nextEntry D payload = .error error)
    (file : WalFile) (failsAfter : Option Nat) :
    writer.append D file failsAfter payload = (.error error, writer, file) := by
  rw [append, h]

/-- What a call can do: it is refused, the file fails and holds a part of a line, the line of
an entry is written, or nothing is written. -/
inductive Performed (D : Digests) (writer : WalWriter) (file : WalFile) :
    Except WalError (Option WalEntry) → WalWriter → WalFile → Prop where
  | refused (error : WalError) : Performed D writer file (.error error) writer file
  | failed (entry : WalEntry) {file' : WalFile} (tail : Bytes) (hpart : tail <+: entryLine entry)
      (hbytes : file'.bytes = file.bytes ++ tail) :
      Performed D writer file (.error .writeFailed) { writer with poisoned := true } file'
  | wrote {payload : Serialization} (entry : WalEntry) {file' : WalFile}
      (hnext : writer.nextEntry D payload = .ok entry)
      (hbytes : file'.bytes = file.bytes ++ entryLine entry) :
      Performed D writer file (.ok (some entry))
        { writer with sequence := entry.sequence, lastHash := entry.entryHash } file'
  | done : Performed D writer file (.ok none) writer file

theorem performed_append (D : Digests) (writer : WalWriter) (file : WalFile)
    (failsAfter : Option Nat) (payload : Serialization) :
    Performed D writer file ((writer.append D file failsAfter payload).1.map some)
      (writer.append D file failsAfter payload).2.1
      (writer.append D file failsAfter payload).2.2 := by
  cases hnext : writer.nextEntry D payload with
  | error error =>
    rw [append_of_nextEntry hnext]
    exact .refused error
  | ok entry =>
    rw [append, hnext]
    cases hwritten : (file.writeAll failsAfter (entryLine entry)).1 with
    | true =>
      simp only [hwritten, if_true]
      exact .wrote entry hnext (WalFile.bytes_writeAll hwritten)
    | false =>
      simp only [hwritten, Bool.false_eq_true, if_false]
      exact .failed entry _ (List.take_prefix _ _) rfl

theorem performed_askFile (D : Digests) (writer : WalWriter) (file : WalFile) (done : Bool) :
    Performed D writer file ((writer.askFile done).1.map fun _ => none) (writer.askFile done).2
      file := by
  unfold askFile
  by_cases hpoisoned : writer.poisoned = true
  · rw [if_pos hpoisoned]
    exact .refused _
  · rw [if_neg hpoisoned]
    cases done with
    | true => exact .done
    | false => exact .failed ⟨0, [], [], []⟩ [] List.nil_prefix (List.append_nil _).symm

theorem performed (D : Digests) (writer : WalWriter) (file : WalFile) (call : WriterCall) :
    Performed D writer file (writer.perform D file call).1 (writer.perform D file call).2.1
      (writer.perform D file call).2.2 := by
  cases call with
  | append payload failsAfter => exact performed_append D writer file failsAfter payload
  | flush flushed => exact performed_askFile D writer file flushed
  | sync synced => exact performed_askFile D writer file synced
  | flushAndSync flushed synced => exact performed_askFile D writer file (flushed && synced)

theorem askFile_of_poisoned (h : writer.poisoned = true) (done : Bool) :
    writer.askFile done = (.error .poisoned, writer) := if_pos h

theorem perform_of_poisoned (h : writer.poisoned = true) (file : WalFile) (call : WriterCall) :
    writer.perform D file call = (.error .poisoned, writer, file) := by
  cases call with
  | append payload failsAfter =>
    simp only [perform, append_of_nextEntry (nextEntry_of_poisoned h)]
    rfl
  | flush flushed =>
    simp only [perform, flush, askFile_of_poisoned h]
    rfl
  | sync synced =>
    simp only [perform, sync, askFile_of_poisoned h]
    rfl
  | flushAndSync flushed synced =>
    simp only [perform, flushAndSync, askFile_of_poisoned h]
    rfl

theorem perform_of_fileFails (h : writer.FileFails D file call) :
    (writer.perform D file call).1 = .error .writeFailed ∧
      (writer.perform D file call).2.1 = { writer with poisoned := true } := by
  cases call with
  | append payload failsAfter =>
    obtain ⟨entry, hnext, hwritten⟩ := h
    simp [perform, append, hnext, hwritten, Except.map]
  | flush flushed =>
    obtain ⟨hpoisoned, rfl⟩ := h
    simp [perform, flush, askFile, hpoisoned, Except.map]
  | sync synced =>
    obtain ⟨hpoisoned, rfl⟩ := h
    simp [perform, sync, askFile, hpoisoned, Except.map]
  | flushAndSync flushed synced =>
    obtain ⟨hpoisoned, hasked⟩ := h
    simp [perform, flushAndSync, askFile, hpoisoned, hasked, Except.map]

end WalWriter

end Call

/-! ### Runs -/

namespace WalWriter

variable {D : Digests} {writer : WalWriter}

theorem performAll_of_poisoned (h : writer.poisoned = true) (file : WalFile)
    (calls : List WriterCall) :
    writer.performAll D file calls = (calls.map fun _ => .error .poisoned, writer, file) := by
  induction calls with
  | nil => rfl
  | cons call calls ih =>
    simp only [performAll, perform_of_poisoned h, ih]
    rfl

theorem written_map_error (calls : List WriterCall) :
    written (calls.map fun _ => .error .poisoned) = [] := by
  induction calls with
  | nil => rfl
  | cons call calls ih => exact ih

/-- The file is what it was, the lines of the entries that were returned and, behind them,
nothing or a part of one line, which is there only where the writer is poisoned. -/
theorem bytes_performAll (D : Digests) (writer : WalWriter) (file : WalFile)
    (calls : List WriterCall) :
    ∃ tail, (writer.performAll D file calls).2.2.bytes =
        file.bytes ++ (written (writer.performAll D file calls).1).flatMap entryLine ++ tail ∧
      (tail = [] ∨ (writer.performAll D file calls).2.1.poisoned = true ∧
        ∃ entry, tail <+: entryLine entry) := by
  induction calls generalizing writer file with
  | nil => exact ⟨[], by simp [performAll, written], .inl rfl⟩
  | cons call calls ih =>
    have hcall := performed D writer file call
    rcases hperform : writer.perform D file call with ⟨result, writer', file'⟩
    rw [hperform] at hcall
    simp only [performAll, hperform]
    obtain ⟨tail, hbytes, htail⟩ := ih writer' file'
    cases hcall with
    | refused | done => exact ⟨tail, hbytes, htail⟩
    | wrote entry hnext hline =>
      refine ⟨tail, ?_, htail⟩
      have hcons (results) : written (.ok (some entry) :: results) = entry :: written results := rfl
      rw [hbytes, hline, hcons, List.flatMap_cons]
      simp only [List.append_assoc]
    | failed entry part hpart hline =>
      -- nothing is written behind the part
      rw [performAll_of_poisoned rfl]
      refine ⟨part, ?_, .inr ⟨rfl, entry, hpart⟩⟩
      have hnone : written (.error .writeFailed :: calls.map fun _ => .error .poisoned) = [] :=
        written_map_error calls
      rw [hnone, hline, List.flatMap_nil, List.append_nil]

/-- A refused append leaves the file, the sequence number and the last hash; a failure of the
file is returned and ends all writing by this writer, so nothing follows a part of a line. -/
theorem fails_closed (D : Digests) :
    (∀ (writer : WalWriter) (payload : Serialization),
      (writer.poisoned = true ∨ writer.sequence.toNat + 1 = 2 ^ 64 ∨ payload.fails = true ∨
        maxWalPayloadBytes < payload.text.length) →
      ∃ error, ∀ (file : WalFile) (failsAfter : Option Nat),
        writer.append D file failsAfter payload = (.error error, writer, file)) ∧
    (∀ (writer : WalWriter) (file : WalFile) (call : WriterCall), writer.FileFails D file call →
      ∃ writer' file', writer.perform D file call = (.error .writeFailed, writer', file') ∧
        writer'.sequence = writer.sequence ∧ writer'.lastHash = writer.lastHash ∧
        ∀ calls, writer'.performAll D file' calls =
          (calls.map fun _ => .error .poisoned, writer', file')) ∧
    ∀ (writer : WalWriter) (file : WalFile) (calls : List WriterCall),
      ∃ tail, (writer.performAll D file calls).2.2.bytes =
          file.bytes ++ (written (writer.performAll D file calls).1).flatMap entryLine ++ tail ∧
        (tail = [] ∨ (writer.performAll D file calls).2.1.poisoned = true ∧
          ∃ entry, tail <+: entryLine entry) := by
  refine ⟨fun writer payload hrefused => ?_, fun writer file call hfails => ?_, bytes_performAll D⟩
  · obtain ⟨error, hnext⟩ := exists_error_of_refused (D := D) hrefused
    exact ⟨error, append_of_nextEntry hnext⟩
  · obtain ⟨hresult, hwriter⟩ := perform_of_fileFails hfails
    rcases hperform : writer.perform D file call with ⟨result, writer', file'⟩
    rw [hperform] at hresult hwriter
    obtain rfl : result = .error .writeFailed := hresult
    obtain rfl : writer' = { writer with poisoned := true } := hwriter
    exact ⟨_, file', rfl, rfl, rfl, performAll_of_poisoned rfl file'⟩

/-- A payload that does not serialize is refused. After a file that takes twenty bytes of a
line, a flush and an append are refused too. -/
theorem fails_closed_partial :
    (∃ error, ∀ file failsAfter, WalWriter.append numberDigests ⟨0, genesis, none, false⟩ file
        failsAfter ⟨[literal "1"], true⟩ = (.error error, ⟨0, genesis, none, false⟩, file)) ∧
    ∃ writer' file', WalWriter.perform numberDigests ⟨0, genesis, none, false⟩ WalFile.empty
        (.append ⟨[literal "1"], false⟩ (some 20)) = (.error .writeFailed, writer', file') ∧
      file'.bytes.length = 20 ∧
      writer'.performAll numberDigests file' [.flush true, .append ⟨[literal "1"], false⟩ none] =
        ([.error .poisoned, .error .poisoned], writer', file') := by
  obtain ⟨hrefused, hfailed, -⟩ := fails_closed numberDigests
  have hfails : FileFails numberDigests ⟨0, genesis, none, false⟩ WalFile.empty
      (.append ⟨[literal "1"], false⟩ (some 20)) := by
    refine ⟨oneEntry, ?_, ?_⟩ <;> decide +kernel
  obtain ⟨writer', file', hperform, -, -, hlater⟩ := hfailed _ _ _ hfails
  refine ⟨hrefused _ _ (.inr (.inr (.inl rfl))), writer', file', hperform, ?_, hlater _⟩
  have hfile := congrArg (fun after => after.2.2.bytes.length) hperform
  rw [← hfile]
  decide +kernel

end WalWriter

end Calybris.Wal
