import Calybris.Transition.Run
import Calybris.Wal.Append

/-!
# The life of a log

A log starts as an empty file. Payloads are appended, some of which are refused before
anything is written, and between appends the file may be closed and opened again. The
file then holds the accepted payloads and nothing else: the reader returns them in order,
and the writer stands at the head that the verifier finds.
-/

namespace Calybris.Wal

open Text Note Lines Transition List WalWriter

/-- A payload that is written as one line, if it is written at all. -/
structure Payload (J : SerdeJson) where
  serialization : Serialization
  isValue : ∀ text, serialize serialization = .ok text → J.IsValue text
  newline_notMem : ∀ text, serialize serialization = .ok text → newline ∉ text

inductive LogEvent (J : SerdeJson) where
  | append (payload : Payload J)
  | reopen

structure Log where
  file : WalFile
  writer : WalWriter
  texts : List Bytes
  written : List Bytes
  deriving DecidableEq

namespace Log

variable (D : Digests) (J : SerdeJson) (key : Option Bytes)

def create : Except WalError Log :=
  match openInner D J key .empty with
  | .error error => .error error
  | .ok writer => .ok ⟨.empty, writer, [], []⟩

/-- An append that the file does not take in whole, and a reopening that is refused, end
the run. -/
def step (log : Log) : LogEvent J → Option Log
  | .append payload =>
    match log.writer.append D log.file none payload.serialization with
    | (.ok entry, writer, file) =>
      some ⟨file, writer, log.texts ++ [payload.serialization.text],
        log.written ++ [entryLine entry]⟩
    | (.error .writeFailed, _, _) => none
    | (.error _, writer, file) => some { log with file := file, writer := writer }
  | .reopen =>
    match openInner D J key log.file with
    | .error _ => none
    | .ok writer => some { log with writer := writer }

/-- The file holds what was written, the writer stands at its end, and it reads as what
was appended. -/
structure Inv (log : Log) : Prop where
  stands : ∃ s, Stands D J key log.file log.writer s
  ended : tail newline log.file.bytes = []
  texts : payloadsOf J log.file.bytes = log.texts
  written : log.file.bytes = log.written.flatten
  bounded : ∀ line ∈ log.written, line.length ≤ maxWalEntryBytes

end Log

section

variable {D : Digests} {J : SerdeJson} {key : Option Bytes} {log log' : Log}
  {events : List (LogEvent J)}

theorem append_eq_error {writer writer' : WalWriter} {file file' : WalFile}
    {failsAfter : Option Nat} {payload : Serialization} {error : WalError}
    (h : writer.append D file failsAfter payload = (.error error, writer', file'))
    (herror : error ≠ .writeFailed) : writer' = writer ∧ file' = file := by
  simp only [append] at h
  split at h
  · obtain ⟨-, hrest⟩ := Prod.mk.inj h
    cases hrest
    exact ⟨rfl, rfl⟩
  · split at h
    · cases h
    · exact absurd (Except.error.inj (Prod.mk.inj h).1).symm herror

theorem Stands.append_payload {writer writer' : WalWriter} {file file' : WalFile} {s : ChainState}
    {entry : WalEntry} (payload : Payload J) (hJ : J.Lawful) (h : Stands D J key file writer s)
    (htail : tail newline file.bytes = [])
    (happend : writer.append D file none payload.serialization = (.ok entry, writer', file')) :
    Stands D J key file' writer' (s.accept entry) ∧
      entriesOf J file'.bytes = entriesOf J file.bytes ++ [entry] ∧
      entry.Plain ∧ J.IsValue entry.data ∧ newline ∉ entry.data := by
  obtain ⟨hnext, -, -⟩ := append_eq_ok happend
  obtain ⟨-, hplain, hlength⟩ := h.nextEntry hnext
  obtain ⟨-, -, hserialize, -⟩ := nextEntry_eq_ok hnext
  obtain ⟨hdata, -⟩ := data_of_nextEntry hnext
  have hvalue := payload.isValue _ hserialize
  have hno := payload.newline_notMem _ hserialize
  obtain ⟨hs', hentries⟩ := h.append hJ happend (hdata ▸ hvalue) (hdata ▸ hno) (by simp [htail])
    (by rwa [htail, nil_append])
  exact ⟨hs', hentries, hplain, hvalue, hno⟩

namespace Log

theorem inv_create (h : create D J key = .ok log) : Inv D J key log := by
  rw [create] at h
  split at h
  · cases h
  · next writer hopen =>
    cases h
    exact ⟨stands_of_openInner hopen, rfl, rfl, rfl, by simp⟩

theorem inv_append {payload : Payload J} {entry : WalEntry} {writer : WalWriter} {file : WalFile}
    (hJ : J.Lawful) (hinv : Inv D J key log)
    (happend :
      log.writer.append D log.file none payload.serialization = (.ok entry, writer, file)) :
    Inv D J key ⟨file, writer, log.texts ++ [payload.serialization.text],
      log.written ++ [entryLine entry]⟩ := by
  obtain ⟨s, hs⟩ := hinv.stands
  obtain ⟨hnext, hfile, -⟩ := append_eq_ok happend
  obtain ⟨hs', hentries, -⟩ := hs.append_payload payload hJ hinv.ended happend
  refine ⟨⟨_, hs'⟩, Stands.tail_of_append happend, ?_, ?_, ?_⟩
  · rw [payloadsOf, hentries, map_append, ← payloadsOf, hinv.texts, map_singleton,
      (data_of_nextEntry hnext).1]
  · rw [hfile, hinv.written, flatten_append, flatten_singleton]
  · rw [forall_mem_append, forall_mem_singleton]
    exact ⟨hinv.bounded, (hs.nextEntry hnext).2.2⟩

/-- A step writes the line of a payload, or it leaves the file as it is. -/
theorem step_cases {event : LogEvent J} (h : log.step D J key event = some log') :
    (∃ (payload : Payload J) (entry : WalEntry) (writer : WalWriter) (file : WalFile),
      log.writer.append D log.file none payload.serialization = (.ok entry, writer, file) ∧
      log' = ⟨file, writer, log.texts ++ [payload.serialization.text],
        log.written ++ [entryLine entry]⟩) ∨
    ∃ writer, log' = { log with writer := writer } ∧
      (writer = log.writer ∨ openInner D J key log.file = .ok writer) := by
  cases event with
  | append payload =>
    simp only [step] at h
    split at h
    · next entry writer file happend =>
      exact .inl ⟨payload, entry, writer, file, happend, (Option.some.inj h).symm⟩
    · cases h
    · next error writer file herror happend =>
      cases h
      obtain ⟨rfl, rfl⟩ := append_eq_error happend herror
      exact .inr ⟨_, rfl, .inl rfl⟩
  | reopen =>
    simp only [step] at h
    split at h
    · cases h
    · next writer hopen => exact .inr ⟨writer, (Option.some.inj h).symm, .inr hopen⟩

theorem inv_step {event : LogEvent J} (hJ : J.Lawful) (hinv : Inv D J key log)
    (h : log.step D J key event = some log') : Inv D J key log' := by
  rcases step_cases h with ⟨payload, entry, writer, file, happend, rfl⟩ | ⟨writer, rfl, rfl | hopen⟩
  · exact inv_append hJ hinv happend
  · exact hinv
  · exact { hinv with stands := stands_of_openInner hopen }

theorem readVerifiedWalInner_of_inv (hinv : Inv D J key log) :
    readVerifiedWalInner D J key J.parseEntry log.file.bytes = .ok (entriesOf J log.file.bytes) ∧
      Follows D key .init (entriesOf J log.file.bytes) := by
  obtain ⟨s, hs⟩ := hinv.stands
  obtain ⟨-, hfollows, -⟩ := forEachLine_eq_ok_iff.1 hs.reads
  exact ⟨readVerifiedWalInner_eq_ok_iff.2 ⟨⟨_, hs.validateChainInner⟩, rfl⟩, hfollows⟩

theorem exists_step_reopen (hinv : Inv D J key log) :
    ∃ log', log.step D J key .reopen = some log' ∧ log'.writer.anchor = log.writer.anchor := by
  obtain ⟨s, hs⟩ := hinv.stands
  have hread : validateChainReader D J key log.file.bytes =
      .ok (log.writer.sequence, log.writer.lastHash) := by
    have hvalid := hs.validateChainInner
    rwa [validateChainInner, hs.validKey] at hvalid
  refine ⟨{ log with writer := ⟨log.writer.sequence, log.writer.lastHash, key, false⟩ }, ?_, ?_⟩
  · simp only [step, openInner, hs.validKey, hread]
  · simp only [anchor, hs.hmacKey]

/-- After every run from an empty file, the reader returns the appended texts, numbered
from one, the writer's anchor is the verified head, no written line is too long, and
the log can be opened again. -/
theorem readVerifiedWalInner_run {start : Log} (hJ : J.Lawful)
    (hcreate : create D J key = .ok start) (hrun : run (step D J key) start events = some log) :
    (∃ entries, readVerifiedWalInner D J key J.parseEntry log.file.bytes = .ok entries ∧
        entries.map WalEntry.data = log.texts ∧
        entries.map (fun entry => entry.sequence.toNat) = List.range' 1 log.texts.length) ∧
      (∃ head, validateChainInner D J key log.file.bytes = .ok head ∧
        log.writer.anchor = ⟨walAnchorSchema, head.1, head.2, key.isSome⟩) ∧
      (log.file.bytes = log.written.flatten ∧
        ∀ line ∈ log.written, line.length ≤ maxWalEntryBytes) ∧
      ∃ log', log.step D J key .reopen = some log' ∧ log'.writer.anchor = log.writer.anchor := by
  have hinv : Inv D J key log :=
    run_invariant (fun hinv hstep => inv_step hJ hinv hstep) (inv_create hcreate) hrun
  obtain ⟨s, hs⟩ := hinv.stands
  obtain ⟨hread, hfollows⟩ := readVerifiedWalInner_of_inv hinv
  have hlength : log.texts.length = (entriesOf J log.file.bytes).length := by
    rw [← hinv.texts, payloadsOf, length_map]
  refine ⟨⟨_, hread, hinv.texts, ?_⟩, ⟨_, hs.validateChainInner, ?_⟩,
    ⟨hinv.written, hinv.bounded⟩, exists_step_reopen hinv⟩
  · rw [map_sequence_of_follows hfollows, hlength]
    rfl
  · rw [anchor, hs.hmacKey]

/-! ### Instances -/

def firstEntry (digest : Bytes32) (text : Bytes) : WalEntry :=
  ⟨1, genesis, bytesToHex digest.1, text⟩

theorem length_firstEntry_le {digest : Bytes32} {text : Bytes}
    (h : text.length ≤ maxWalPayloadBytes) :
    (entryLine (firstEntry digest text)).length ≤ maxFileBytes := by
  have hgenesis : genesis.length = 7 := by decide
  have hline : (entryLine (firstEntry digest text)).length ≤ maxWalEntryBytes :=
    length_entryLine_le (hgenesis.trans_le (by omega)) (length_digest digest).le h
  refine hline.trans ?_
  decide

theorem append_empty {D : Digests} {text : Bytes} {digest : Bytes32}
    (hlength : text.length ≤ maxWalPayloadBytes) (hvalid : ∃ chars, text = utf8 chars)
    (hhash : D.sha256 (genesis ++ text) = digest) :
    append D ⟨0, genesis, none, false⟩ .empty none ⟨[text], false⟩ =
      (.ok (firstEntry digest text), ⟨1, bytesToHex digest.1, none, false⟩,
        ⟨entryLine (firstEntry digest text), length_firstEntry_le hlength⟩) := by
  have hnext : nextEntry D ⟨0, genesis, none, false⟩ ⟨[text], false⟩ =
      .ok (firstEntry digest text) := by
    simp [nextEntry, show Machine.checkedAdd (0 : UInt64) 1 = some 1 from rfl,
      serialize_singleton hlength hvalid, computeHash, hhash, firstEntry]
  have hwritten : WalFile.empty.writeAll none (entryLine (firstEntry digest text)) =
      (true, ⟨entryLine (firstEntry digest text), length_firstEntry_le hlength⟩) :=
    WalFile.writeAll_of_bytes_eq rfl
  simp only [append, hnext, hwritten, if_true]
  rfl

theorem create_none (D : Digests) (J : SerdeJson) : create D J none =
    .ok ⟨.empty, ⟨0, genesis, none, false⟩, [], []⟩ := by
  simp only [create, openInner, validateChainReader, forEachLine_eq_foldlM]
  rfl

/-- A payload whose JSON is the given text. -/
def textPayload (text : Bytes) (hvalue : bracketJson.IsValue text) (h : newline ∉ text) :
    Payload bracketJson where
  serialization := ⟨[text], false⟩
  isValue text' htext := by
    rwa [(serialize_eq_ok htext).1, Serialization.text, List.flatten_singleton]
  newline_notMem text' htext := by
    rwa [(serialize_eq_ok htext).1, Serialization.text, List.flatten_singleton]

theorem run_text {D : Digests} {text : Bytes} {digest : Bytes32} (hvalue : bracketJson.IsValue text)
    (h : newline ∉ text) (hlength : text.length ≤ maxWalPayloadBytes)
    (hvalid : ∃ chars, text = utf8 chars) (hhash : D.sha256 (genesis ++ text) = digest) :
    run (step D bracketJson none) ⟨.empty, ⟨0, genesis, none, false⟩, [], []⟩
        [.append (textPayload text hvalue h)] =
      some ⟨⟨entryLine (firstEntry digest text), length_firstEntry_le hlength⟩,
        ⟨1, bytesToHex digest.1, none, false⟩, [text], [entryLine (firstEntry digest text)]⟩ := by
  simp only [run, step, textPayload, append_empty hlength hvalid hhash, nil_append,
    Option.bind_some, Serialization.text, flatten_singleton]

/-- A number whose serializer may fail at its end. -/
def number (n : Nat) (fails : Bool) : Payload numberJson where
  serialization := ⟨[utf8 (decimal n)], fails⟩
  isValue := by
    intro text h
    exact ⟨n, by rw [(serialize_eq_ok h).1, Serialization.text, List.flatten_singleton]⟩
  newline_notMem := by
    intro text h hmem
    rw [(serialize_eq_ok h).1, Serialization.text, List.flatten_singleton] at hmem
    have hdigit := toNat_of_mem_utf8_decimal hmem
    revert hdigit
    decide

def numberLog : Log :=
  ⟨twoLog, twoWriter, [literal "1", literal "2"], [entryLine oneEntry, entryLine twoEntry]⟩

theorem create_number : create numberDigests numberJson none =
    .ok ⟨.empty, ⟨0, genesis, none, false⟩, [], []⟩ :=
  create_none _ _

theorem run_number : run (step numberDigests numberJson none)
    ⟨.empty, ⟨0, genesis, none, false⟩, [], []⟩
    [.append (number 1 false), .append (number 2 true), .reopen, .append (number 2 false)] =
      some numberLog := by
  have hone : step numberDigests numberJson none ⟨.empty, ⟨0, genesis, none, false⟩, [], []⟩
      (.append (number 1 false)) =
        some ⟨oneLog, oneWriter, [literal "1"], [entryLine oneEntry]⟩ := by
    decide +kernel
  have hrefused : step numberDigests numberJson none
      ⟨oneLog, oneWriter, [literal "1"], [entryLine oneEntry]⟩ (.append (number 2 true)) =
        some ⟨oneLog, oneWriter, [literal "1"], [entryLine oneEntry]⟩ := by
    decide
  have hreopen : step numberDigests numberJson none
      ⟨oneLog, oneWriter, [literal "1"], [entryLine oneEntry]⟩ .reopen =
        some ⟨oneLog, oneWriter, [literal "1"], [entryLine oneEntry]⟩ := by
    simp only [step, openInner, validateChainReader, forEachLine_eq_foldlM]
    decide +kernel
  have htwo : step numberDigests numberJson none
      ⟨oneLog, oneWriter, [literal "1"], [entryLine oneEntry]⟩ (.append (number 2 false)) =
        some numberLog := by
    decide +kernel
  simp only [run, hone, hrefused, hreopen, htwo, Option.bind_some]

theorem readVerifiedWalInner_run_twoLog :
    (∃ entries, readVerifiedWalInner numberDigests numberJson none numberJson.parseEntry
          twoLog.bytes = .ok entries ∧
        entries.map WalEntry.data = [literal "1", literal "2"] ∧
        entries.map (fun entry => entry.sequence.toNat) = List.range' 1 2) ∧
      ∃ head, validateChainInner numberDigests numberJson none twoLog.bytes = .ok head ∧
        twoWriter.anchor = ⟨walAnchorSchema, head.1, head.2, false⟩ := by
  obtain ⟨hread, hhead, -⟩ := readVerifiedWalInner_run lawful_numberJson create_number run_number
  exact ⟨hread, hhead⟩

end Log

end

end Calybris.Wal
