import Calybris.Wal.Async
import Calybris.Wal.Poison

/-!
# The blocking and the awaited log agree

A log is validated in three places: by the blocking validator, by the reader that hands
the entries out, and by the validator of the awaited log, each with a loop of its own.
With payloads as raw texts they return the same, errors included.

The awaited writer has one check that the blocking writer does not have, of the length of
the whole line, and writes the line in three pieces. The last hash of a writer is the word
`genesis` or 64 digits, so the check never refuses, and a file that fails at some byte
fails for both writers at that byte.
-/

namespace Calybris.Wal

open Text Note Lines List Option

/-! ### Readers -/

section Reader

variable {D : Digests} {J : SerdeJson} {key : Option Bytes}

theorem boundedBody_visitLine (s : ChainState) (seen : List WalEntry) (line : Bytes) :
    boundedBody (visitLine D J key J.parseEntry) (s, seen) line =
      (boundedBody (validateLine D J key) s line).map fun s' =>
        (s', seen ++ (entryOf J line).toList) := by
  unfold boundedBody
  split
  · rfl
  · unfold visitLine validateLine entryOf
    by_cases hblank : isBlank line = true
    · simp [hblank, Except.map]
    · simp only [if_neg hblank]
      cases J.parseEntry line with
      | none => rfl
      | some entry =>
        dsimp only
        cases checkEntry D key s entry with
        | error error => rfl
        | ok s' => rfl

theorem foldlM_visitLine (s : ChainState) (seen : List WalEntry) (ls : List Bytes) :
    (ls.foldlM (boundedBody (visitLine D J key J.parseEntry)) (s, seen)).map Prod.fst =
      ls.foldlM (boundedBody (validateLine D J key)) s := by
  induction ls generalizing s seen with
  | nil => rfl
  | cons line ls ih =>
    rw [foldlM_cons, foldlM_cons, boundedBody_visitLine]
    cases boundedBody (validateLine D J key) s line with
    | error error => rfl
    | ok s' => exact ih s' _

theorem visitVerifiedWalInner_fst (bytes : Bytes) :
    (visitVerifiedWalInner D J key J.parseEntry bytes).map Prod.fst =
      validateChainInner D J key bytes := by
  rw [visitVerifiedWalInner, validateChainInner]
  cases validateKey key with
  | error error => rfl
  | ok valid =>
    simp only [validateChainReader, forEachLine_eq_foldlM]
    rw [← foldlM_visitLine .init []]
    cases (lines newline bytes).foldlM (boundedBody (visitLine D J key J.parseEntry))
      (.init, []) with
    | error error => rfl
    | ok s => rfl

end Reader

/-! ### Writers -/

section Writer

variable {D : Digests} {J : SerdeJson}

/-- A state that a writer of the one kind or the other can be in. -/
inductive WalWriter.Reached (D : Digests) (J : SerdeJson) : WalWriter → Prop where
  | opened {key : Option Bytes} {file : WalFile} {writer : WalWriter}
      (h : openInner D J key file = .ok writer) : Reached D J writer
  | openedAwaited {key : Option Bytes} {syncOnAppend : Bool} {file : WalFile}
      {writer : AsyncWalWriter}
      (h : AsyncWalWriter.openInner D J key syncOnAppend file = .ok writer) :
      Reached D J writer.toWalWriter
  | performed {writer : WalWriter} (file : WalFile) (call : WriterCall) (h : Reached D J writer) :
      Reached D J (writer.perform D file call).2.1
  | awaited {writer : AsyncWalWriter} (file : WalFile) (awaits : Awaits) (payload : Serialization)
      (h : Reached D J writer.toWalWriter) :
      Reached D J (writer.append D file awaits payload).2.1.toWalWriter

theorem isPreviousHash_of_computeHash {key : Option Bytes} {previous data hash : Bytes}
    (h : computeHash D key previous data = .ok hash) : IsPreviousHash hash := by
  have hlink (hkey : validateKey key = .ok ()) : IsPreviousHash hash := by
    rw [computeHash_of_validateKey hkey] at h
    rw [← Except.ok.inj h]
    exact isPreviousHash_link
  cases key with
  | none => exact hlink rfl
  | some k =>
    cases hk : validateHmacKey k with
    | error error => simp [computeHash, hk] at h
    | ok valid => exact hlink hk

theorem isPreviousHash_of_nextEntry {writer : WalWriter} {payload : Serialization}
    {entry : WalEntry} (h : writer.nextEntry D payload = .ok entry) :
    IsPreviousHash entry.entryHash :=
  isPreviousHash_of_computeHash (WalWriter.nextEntry_eq_ok h).2.2.2

theorem AsyncWalWriter.lastHash_append (writer : AsyncWalWriter) (file : WalFile) (awaits : Awaits)
    (payload : Serialization) :
    (writer.append D file awaits payload).2.1.lastHash = writer.lastHash ∨
      ∃ entry, writer.toWalWriter.nextEntry D payload = .ok entry ∧
        (writer.append D file awaits payload).2.1.lastHash = entry.entryHash := by
  unfold append
  cases hnext : writer.nextEntry D payload with
  | error error => exact .inl rfl
  | ok entry =>
    dsimp only
    rcases file.writePieces [(headerText entry, awaits.header), (entry.data, awaits.data),
      (literal "\x7d\n", awaits.close)] with ⟨_ | _ | _, file'⟩
    · dsimp only
      cases if writer.syncOnAppend then awaits.sync.ended else .done with
      | failed => exact .inl rfl
      | dropped => exact .inl rfl
      | done => exact .inr ⟨entry, nextEntry_eq_ok hnext, rfl⟩
    · exact .inl rfl
    · exact .inl rfl

/-- The last hash of a writer is the word before the first entry, or 64 digits. -/
theorem WalWriter.Reached.isPreviousHash {writer : WalWriter} (h : Reached D J writer) :
    IsPreviousHash writer.lastHash := by
  induction h with
  | opened hopen =>
    obtain ⟨s, hs⟩ := stands_of_openInner hopen
    exact hs.isPreviousHash
  | openedAwaited hopen =>
    obtain ⟨s, hs⟩ := AsyncWalWriter.stands_of_openInner hopen
    exact hs.isPreviousHash
  | @performed writer file call _ ih =>
    have hcall := WalWriter.performed D writer file call
    rcases hperform : writer.perform D file call with ⟨result, writer', file'⟩
    rw [hperform] at hcall
    cases hcall with
    | refused | failed | done => exact ih
    | wrote entry hnext hline => exact isPreviousHash_of_nextEntry hnext
  | @awaited writer file awaits payload _ ih =>
    rcases writer.lastHash_append file awaits payload with hsame | ⟨entry, hnext, hmoved⟩
    · rw [hsame]
      exact ih
    · rw [hmoved]
      exact isPreviousHash_of_nextEntry hnext

theorem AsyncWalWriter.nextEntry_eq (D : Digests) (writer : AsyncWalWriter)
    (hhash : IsPreviousHash writer.lastHash) (payload : Serialization) :
    writer.nextEntry D payload = writer.toWalWriter.nextEntry D payload := by
  unfold nextEntry
  cases hnext : writer.toWalWriter.nextEntry D payload with
  | error error => rfl
  | ok entry =>
    obtain ⟨-, hprevious, -, -⟩ := WalWriter.nextEntry_eq_ok hnext
    have hprevious' : entry.previousHash.length ≤ 64 := by
      rw [hprevious]
      exact (plain_of_isPreviousHash hhash).2
    have hline := length_entryLine_le hprevious'
      (plain_of_isPreviousHash (isPreviousHash_of_nextEntry hnext)).2
      (WalWriter.data_of_nextEntry hnext).2
    have hclose : (literal "\x7d\n").length = 2 := by decide
    rw [← headerText_append, length_append, length_append, hclose] at hline
    dsimp only
    rw [if_neg (by omega)]

namespace WalFile

variable {file file' : WalFile} {failsAfter : Option Nat} {piece rest : Bytes}

def takes (file : WalFile) (failsAfter : Option Nat) : Nat :=
  min (maxFileBytes - file.bytes.length) (failsAfter.getD (maxFileBytes - file.bytes.length))

theorem writeAll_fst (file : WalFile) (failsAfter : Option Nat) (line : Bytes) :
    (file.writeAll failsAfter line).1 =
      (decide (line.length ≤ file.takes failsAfter) && failsAfter.isNone) := by
  have htake : (line.take (file.takes failsAfter)).length = line.length ↔
      line.length ≤ file.takes failsAfter := by
    rw [length_take]
    omega
  have hwrite : (file.writeAll failsAfter line).1 =
      (decide ((line.take (file.takes failsAfter)).length = line.length) && failsAfter.isNone) :=
    rfl
  rw [hwrite, decide_eq_decide.2 htake]

theorem writeAll_snd (file : WalFile) (failsAfter : Option Nat) (line : Bytes) :
    (file.writeAll failsAfter line).2.bytes =
      file.bytes ++ line.take (file.takes failsAfter) := rfl

theorem takes_append (hbytes : file'.bytes = file.bytes ++ piece)
    (htaken : ∀ k ∈ failsAfter, piece.length ≤ k) :
    file'.takes (failsAfter.map fun k => k - piece.length) + piece.length =
      file.takes failsAfter := by
  have hbounded := file'.bounded
  rw [hbytes, length_append] at hbounded
  unfold takes
  rw [hbytes, length_append]
  cases failsAfter with
  | none =>
    simp only [map_none, getD_none]
    omega
  | some k =>
    have := htaken k rfl
    simp only [map_some, getD_some]
    omega

theorem writeAll_append (failsAfter : Option Nat) (hbytes : file'.bytes = file.bytes ++ piece)
    (htaken : ∀ k ∈ failsAfter, piece.length ≤ k) :
    file'.writeAll (failsAfter.map fun k => k - piece.length) rest =
      file.writeAll failsAfter (piece ++ rest) := by
  have htakes := takes_append hbytes htaken
  refine Prod.ext ?_ (eq_of_bytes_eq ?_)
  · have hfits : rest.length ≤ file'.takes (failsAfter.map fun k => k - piece.length) ↔
        (piece ++ rest).length ≤ file.takes failsAfter := by
      rw [length_append]
      omega
    rw [writeAll_fst, writeAll_fst, isNone_map, decide_eq_decide.2 hfits]
  · rw [writeAll_snd, writeAll_snd, hbytes, ← htakes, take_append, append_assoc,
      Nat.add_sub_cancel, take_of_length_le (Nat.le_add_left _ _)]

theorem writeAll_append_of_le (h : file.takes failsAfter ≤ piece.length) :
    (file.writeAll failsAfter (piece ++ rest)).2 = (file.writeAll failsAfter piece).2 := by
  apply eq_of_bytes_eq
  rw [writeAll_snd, writeAll_snd, take_append_of_le_length h]

/-- The pieces are written like the whole, up to where the file is full. -/
theorem writePieces_ready (file : WalFile) (pieces : List Bytes) :
    file.writePieces (pieces.map fun piece => (piece, .ready)) =
      (if (file.writeAll none pieces.flatten).1 then .done else .failed,
        (file.writeAll none pieces.flatten).2) := by
  induction pieces generalizing file with
  | nil =>
    rw [flatten_nil, writeAll_of_bytes_eq (append_nil file.bytes).symm]
    rfl
  | cons piece pieces ih =>
    rw [map_cons, flatten_cons, writePieces, writeAwaited]
    by_cases hwritten : (file.writeAll none piece).1 = true
    · have hrest : (file.writeAll none piece).2.writeAll none pieces.flatten =
          file.writeAll none (piece ++ pieces.flatten) :=
        writeAll_append none (bytes_writeAll hwritten) (by simp)
      simp only [hwritten, if_true, ih, hrest]
    · have hlt : file.takes none < piece.length := by
        simpa [writeAll_fst] using hwritten
      have hfst : (file.writeAll none (piece ++ pieces.flatten)).1 = false := by
        rw [writeAll_fst, length_append]
        simp only [isNone_none, Bool.and_true, decide_eq_false_iff_not]
        omega
      simp only [hwritten, Bool.false_eq_true, if_false, hfst, writeAll_append_of_le hlt.le]

/-- A file that fails after some bytes of the whole fails in one of the pieces. -/
theorem exists_writePieces_failed (file : WalFile) (pieces : List Bytes) (hne : pieces ≠ [])
    (taken : Nat) :
    ∃ awaits : List Await, awaits.length = pieces.length ∧
      file.writePieces (pieces.zip awaits) =
        (.failed, (file.writeAll (some taken) pieces.flatten).2) := by
  induction pieces generalizing file taken with
  | nil => exact absurd rfl hne
  | cons piece pieces ih =>
    have hready : (pieces.map fun _ => Await.ready).length = pieces.length := length_map _
    by_cases hhere : taken ≤ piece.length ∨ pieces = []
    · -- it fails in this piece
      refine ⟨.failed taken :: pieces.map fun _ => .ready, congrArg Nat.succ hready, ?_⟩
      rw [zip_cons_cons, writePieces, writeAwaited, flatten_cons]
      rcases hhere with hle | rfl
      · have htakes : file.takes (some taken) ≤ taken := Nat.min_le_right _ _
        rw [writeAll_append_of_le (htakes.trans hle)]
      · rw [flatten_nil, append_nil]
    · obtain ⟨hlt, hne'⟩ := not_or.1 hhere
      by_cases hwritten : (file.writeAll none piece).1 = true
      · -- it fails behind this piece
        obtain ⟨awaits, hlength, hfailed⟩ :=
          ih (file.writeAll none piece).2 hne' (taken - piece.length)
        refine ⟨.ready :: awaits, congrArg Nat.succ hlength, ?_⟩
        have hrest : (file.writeAll none piece).2.writeAll (some (taken - piece.length))
            pieces.flatten = file.writeAll (some taken) (piece ++ pieces.flatten) :=
          writeAll_append (some taken) (bytes_writeAll hwritten) (by simp; omega)
        rw [zip_cons_cons, writePieces, writeAwaited, flatten_cons]
        simp only [hwritten, if_true, hfailed, hrest]
      · -- it is full in this piece
        have hfull : file.takes none < piece.length := by
          simpa [writeAll_fst] using hwritten
        have htakes : file.takes (some taken) = file.takes none := by
          simp only [takes, getD_some, getD_none] at hfull ⊢
          omega
        refine ⟨.ready :: pieces.map fun _ => .ready, congrArg Nat.succ hready, ?_⟩
        rw [zip_cons_cons, writePieces, writeAwaited, flatten_cons,
          writeAll_append_of_le (htakes.trans_lt hfull).le]
        have hsame : (file.writeAll (some taken) piece).2 = (file.writeAll none piece).2 :=
          eq_of_bytes_eq (by rw [writeAll_snd, writeAll_snd, htakes])
        simp only [hwritten, Bool.false_eq_true, if_false, hsame]

end WalFile

theorem flatten_pieces (entry : WalEntry) :
    [headerText entry, entry.data, literal "\x7d\n"].flatten = entryLine entry := by
  rw [← headerText_append, flatten_cons, flatten_cons, flatten_singleton]

theorem WalWriter.Reached.exists_append {writer : WalWriter} (h : Reached D J writer)
    (syncOnAppend : Bool) (file : WalFile) (failsAfter : Option Nat) (payload : Serialization) :
    ∃ awaits : Awaits, (failsAfter = none → awaits = ⟨.ready, .ready, .ready, .ready⟩) ∧
      awaits.sync = .ready ∧
      AsyncWalWriter.append D ⟨writer, syncOnAppend⟩ file awaits payload =
        (some (writer.append D file failsAfter payload).1,
          ⟨(writer.append D file failsAfter payload).2.1, syncOnAppend⟩,
          (writer.append D file failsAfter payload).2.2) := by
  have hsame := AsyncWalWriter.nextEntry_eq D ⟨writer, syncOnAppend⟩ h.isPreviousHash payload
  simp only [AsyncWalWriter.append, WalWriter.append, hsame]
  cases writer.nextEntry D payload with
  | error error => exact ⟨⟨.ready, .ready, .ready, .ready⟩, fun _ => rfl, rfl, rfl⟩
  | ok entry =>
    cases failsAfter with
    | none =>
      have hpieces := file.writePieces_ready [headerText entry, entry.data, literal "\x7d\n"]
      rw [flatten_pieces] at hpieces
      simp only [map_cons, map_nil] at hpieces
      refine ⟨⟨.ready, .ready, .ready, .ready⟩, fun _ => rfl, rfl, ?_⟩
      simp only [hpieces, Await.ended, ite_self]
      cases (file.writeAll none (entryLine entry)).1 with
      | true => rfl
      | false => rfl
    | some taken =>
      obtain ⟨awaits, hlength, hpieces⟩ := file.exists_writePieces_failed
        [headerText entry, entry.data, literal "\x7d\n"] (by simp) taken
      obtain ⟨header, data, close, rfl⟩ := length_eq_three.1 hlength
      rw [flatten_pieces] at hpieces
      simp only [zip_cons_cons, zip_nil_right] at hpieces
      have hfst : (file.writeAll (some taken) (entryLine entry)).1 = false := by
        rw [WalFile.writeAll_fst, isNone_some, Bool.and_false]
      refine ⟨⟨header, data, close, .ready⟩, by simp, rfl, ?_⟩
      simp only [hpieces, hfst, Bool.false_eq_true, if_false]

/-- The three validators return the same for every file and key. For every state of a
writer, file and payload, the appends write the same bytes, move to the same state and
return the same, an error included. -/
theorem blocking_awaited_agree (D : Digests) (J : SerdeJson) :
    (∀ (key : Option Bytes) (bytes : Bytes),
      (visitVerifiedWalInner D J key J.parseEntry bytes).map Prod.fst =
          validateChainInner D J key bytes ∧
        validateChainAsync D J key bytes = validateChainInner D J key bytes) ∧
    ∀ writer : WalWriter, writer.Reached D J → ∀ (syncOnAppend : Bool) (file : WalFile)
      (failsAfter : Option Nat) (payload : Serialization),
      ∃ awaits : Awaits, (failsAfter = none → awaits = ⟨.ready, .ready, .ready, .ready⟩) ∧
        awaits.sync = .ready ∧
        AsyncWalWriter.append D ⟨writer, syncOnAppend⟩ file awaits payload =
          (some (writer.append D file failsAfter payload).1,
            ⟨(writer.append D file failsAfter payload).2.1, syncOnAppend⟩,
            (writer.append D file failsAfter payload).2.2) :=
  ⟨fun _ bytes => ⟨visitVerifiedWalInner_fst bytes, validateChainAsync_eq bytes⟩,
    fun _ hreached => hreached.exists_append⟩

/-- The first entry of a new log. -/
theorem blocking_awaited_agree_one :
    validateChainAsync numberDigests numberJson none oneLog.bytes =
        .ok (oneWriter.sequence, oneWriter.lastHash) ∧
      WalWriter.append numberDigests ⟨0, genesis, none, false⟩ .empty none ⟨[literal "1"], false⟩ =
        (.ok oneEntry, oneWriter, oneLog) ∧
      AsyncWalWriter.append numberDigests ⟨⟨0, genesis, none, false⟩, true⟩ .empty
          ⟨.ready, .ready, .ready, .ready⟩ ⟨[literal "1"], false⟩ =
        (some (.ok oneEntry), ⟨oneWriter, true⟩, oneLog) := by
  obtain ⟨hreaders, hwriters⟩ := blocking_awaited_agree numberDigests numberJson
  have hopen : WalWriter.openInner numberDigests numberJson none .empty =
      .ok ⟨0, genesis, none, false⟩ := by
    simp only [WalWriter.openInner, validateChainReader, forEachLine_eq_foldlM]
    rfl
  have hvalid : validateChainInner numberDigests numberJson none oneLog.bytes =
      .ok (oneWriter.sequence, oneWriter.lastHash) := by
    simp only [validateChainInner, validateKey, validateChainReader, forEachLine_eq_foldlM]
    decide +kernel
  have happend : WalWriter.append numberDigests ⟨0, genesis, none, false⟩ .empty none
      ⟨[literal "1"], false⟩ = (.ok oneEntry, oneWriter, oneLog) := by decide +kernel
  obtain ⟨awaits, hready, -, hawaited⟩ :=
    hwriters _ (.opened hopen) true .empty none ⟨[literal "1"], false⟩
  rw [hready rfl, happend] at hawaited
  exact ⟨(hreaders none oneLog.bytes).2.trans hvalid, happend, hawaited⟩

end Writer

end Calybris.Wal
