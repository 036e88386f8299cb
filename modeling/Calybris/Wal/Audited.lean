import Calybris.Verify.Bundle
import Calybris.Wal.Cut

/-!
# Audited logs

The payload of an audited log is a decision with its input and its audit bundle. The
writer verifies the decision before it appends; the replay reads the chain, asks a
resolver for the policy of each record and verifies the record under it.

A replay that succeeds has verified every record. A log to which verified records were
appended, under whatever policies, replays with a resolver that returns them. The one
thing asked of the JSON of records is that reading inverts writing: `RecordCodec.Lawful`.
-/

namespace Calybris.Wal

open Text Note Lines Transition Kernel Verify List WalWriter

structure AuditedRecord (M : Type) where
  audit : AuditBundle
  input : KernelInput
  decision : KernelDecision
  metadata : M
  deriving DecidableEq

structure AuditedEntry (M : Type) where
  sequence : UInt64
  previousHash : Bytes
  entryHash : Bytes
  data : AuditedRecord M

structure WalReplayVerdict where
  sequence : UInt64
  replayValid : Bool
  policyDigestMatch : Bool
  inputDigestMatch : Bool
  decisionDigestMatch : Bool
  deriving DecidableEq

inductive AuditReason where
  | verifyDecision (result : VerifyResult)
  | nonCanonical (error : AuditBundleValidationError)
  | policyNotResolved (policyEpoch catalogEpoch : UInt64) (digest : Bytes)
  | mismatch (replayValid policyMatch inputMatch decisionMatch : Bool)
  deriving DecidableEq

inductive ReplayError where
  | wal (error : WalError)
  | auditFailed (sequence : UInt64) (reason : AuditReason)
  deriving DecidableEq

abbrev PolicyResolver := UInt64 → UInt64 → Bytes → Option PolicySnapshot

structure RecordCodec (M : Type) where
  serialization : AuditedRecord M → Serialization
  decode : Bytes → Option (AuditedEntry M)

structure RecordCodec.Lawful {M : Type} (C : RecordCodec M) (J : SerdeJson) : Prop where
  isValue : ∀ record text, serialize (C.serialization record) = .ok text → J.IsValue text
  newline_notMem : ∀ record text, serialize (C.serialization record) = .ok text → newline ∉ text
  decode_entryLine : ∀ record (entry : WalEntry), entry.Plain →
    serialize (C.serialization record) = .ok entry.data →
    C.decode (entryLine entry) =
      some ⟨entry.sequence, entry.previousHash, entry.entryHash, record⟩

section Replay

variable {M : Type} (D : Digests) (resolver : PolicyResolver)

def verifyAuditedEntry (entry : AuditedEntry M) : Option (Except ReplayError WalReplayVerdict) :=
  let bundle := entry.data.audit
  match bundle.validateCanonical with
  | .error error => some (.error (.auditFailed entry.sequence (.nonCanonical error)))
  | .ok () =>
    match resolver bundle.policyEpoch bundle.catalogEpoch bundle.policyDigestHex with
    | none =>
      some (.error (.auditFailed entry.sequence
        (.policyNotResolved bundle.policyEpoch bundle.catalogEpoch bundle.policyDigestHex)))
    | some policy =>
      (Verify.verifyDecision D policy entry.data.input entry.data.decision).map fun replay =>
        let replayValid := decide (replay = .valid)
        let policyMatch := decide
          (bundle.policyDigestHex = digestToHex (policyDigest D policy))
        let inputMatch := decide
          (bundle.inputDigestHex = digestToHex (inputDigest D entry.data.input))
        let decisionMatch := decide
          (bundle.decisionDigestHex = digestToHex (decisionDigest D entry.data.decision))
        if !replayValid || !policyMatch || !inputMatch || !decisionMatch then
          .error (.auditFailed entry.sequence
            (.mismatch replayValid policyMatch inputMatch decisionMatch))
        else .ok ⟨entry.sequence, replayValid, policyMatch, inputMatch, decisionMatch⟩

def verifyAuditedEntries : List (AuditedEntry M) →
    Option (Except ReplayError (List WalReplayVerdict))
  | [] => some (.ok [])
  | entry :: entries =>
    (verifyAuditedEntry D resolver entry).bind fun result =>
      match result with
      | .error error => some (.error error)
      | .ok verdict =>
        (verifyAuditedEntries entries).map fun rest =>
          rest.map fun verdicts => verdict :: verdicts

def replayAuditedWalWithResolver (J : SerdeJson) (C : RecordCodec M) (key : Option Bytes)
    (bytes : Bytes) : Option (Except ReplayError (List WalReplayVerdict)) :=
  match readVerifiedWalInner D J key C.decode bytes with
  | .error error => some (.error (.wal error))
  | .ok entries => verifyAuditedEntries D resolver entries

/-- A record that holds under the policy the resolver returns for it. -/
def Holds (record : AuditedRecord M) : Prop :=
  ∃ policy, resolver record.audit.policyEpoch record.audit.catalogEpoch
      record.audit.policyDigestHex = some policy ∧
    policy.prescribe record.input = some record.decision ∧
    Binds D policy record.input record.decision record.audit

variable {D resolver} {entry : AuditedEntry M} {entries : List (AuditedEntry M)}

def AuditedEntry.verdict (entry : AuditedEntry M) : WalReplayVerdict :=
  ⟨entry.sequence, true, true, true, true⟩

theorem verifyAuditedEntry_eq_ok_iff {verdict : WalReplayVerdict} :
    verifyAuditedEntry D resolver entry = some (.ok verdict) ↔
      (entry.data.audit.validateCanonical = .ok () ∧ Holds D resolver entry.data) ∧
        verdict = entry.verdict := by
  simp only [verifyAuditedEntry]
  cases hcanonical : entry.data.audit.validateCanonical with
  | error error => simp
  | ok valid =>
    cases hpolicy : resolver entry.data.audit.policyEpoch entry.data.audit.catalogEpoch
        entry.data.audit.policyDigestHex with
    | none => simp [Holds, hpolicy]
    | some policy =>
      simp only [Option.map_eq_some_iff, Holds, hpolicy, Option.some.injEq, exists_eq_left',
        true_and]
      constructor
      · rintro ⟨replay, hreplay, hverdict⟩
        split_ifs at hverdict with hbad
        simp only [Bool.or_eq_true, Bool.not_eq_true', decide_eq_false_iff_not, not_or,
          not_not] at hbad
        obtain ⟨⟨⟨rfl, hpol⟩, hinput⟩, hdecision⟩ := hbad
        refine ⟨⟨verifyDecision_eq_valid_iff.1 hreplay, hpol, hinput, hdecision⟩, ?_⟩
        rw [← Except.ok.inj hverdict, AuditedEntry.verdict]
        simp [hpol, hinput, hdecision]
      · rintro ⟨⟨hreplay, hbinds⟩, rfl⟩
        refine ⟨.valid, verifyDecision_eq_valid_iff.2 hreplay, ?_⟩
        simp [hbinds.policy_eq, hbinds.input_eq, hbinds.decision_eq, AuditedEntry.verdict]

theorem verifyAuditedEntries_eq_ok_iff {verdicts : List WalReplayVerdict} :
    verifyAuditedEntries D resolver entries = some (.ok verdicts) ↔
      (∀ entry ∈ entries, entry.data.audit.validateCanonical = .ok () ∧
        Holds D resolver entry.data) ∧ verdicts = entries.map AuditedEntry.verdict := by
  induction entries generalizing verdicts with
  | nil => simp [verifyAuditedEntries, eq_comm]
  | cons entry entries ih =>
    rw [verifyAuditedEntries, Option.bind_eq_some_iff, forall_mem_cons, map_cons]
    constructor
    · rintro ⟨result, hresult, hrest⟩
      cases result with
      | error error => cases hrest
      | ok verdict =>
        obtain ⟨hentry, rfl⟩ := verifyAuditedEntry_eq_ok_iff.1 hresult
        obtain ⟨rest, htail, heq⟩ := Option.map_eq_some_iff.1 hrest
        cases rest with
        | error error => cases heq
        | ok tail =>
          cases heq
          obtain ⟨hentries, rfl⟩ := ih.1 htail
          exact ⟨⟨hentry, hentries⟩, rfl⟩
    · rintro ⟨⟨hentry, hentries⟩, rfl⟩
      refine ⟨_, verifyAuditedEntry_eq_ok_iff.2 ⟨hentry, rfl⟩, ?_⟩
      rw [ih.2 ⟨hentries, rfl⟩]
      rfl

end Replay

section Writer

variable {M : Type} (D : Digests) (J : SerdeJson) (C : RecordCodec M)

/-- Verifies a decision and appends its record; nothing is written where it does not
replay. The sequence in the error saturates. -/
def WalWriter.appendVerifiedAudited (writer : WalWriter) (file : WalFile) (failsAfter : Option Nat)
    (policy : PolicySnapshot) (input : KernelInput) (decision : KernelDecision) (metadata : M) :
    Option (Except ReplayError (AuditedEntry M) × WalWriter × WalFile) :=
  (verifiedAuditBundle D policy input decision).map fun bundle =>
    match bundle with
    | .error result =>
      (.error (.auditFailed ((Machine.checkedAdd writer.sequence 1).getD writer.sequence)
        (.verifyDecision result)), writer, file)
    | .ok audit =>
      let record : AuditedRecord M := ⟨audit, input, decision, metadata⟩
      match writer.append D file failsAfter (C.serialization record) with
      | (.error error, writer, file) => (.error (.wal error), writer, file)
      | (.ok entry, writer, file) =>
        (.ok ⟨entry.sequence, entry.previousHash, entry.entryHash, record⟩, writer, file)

inductive AuditedEvent (M : Type) where
  | append (policy : PolicySnapshot) (input : KernelInput) (decision : KernelDecision)
      (metadata : M)
  | reopen

structure AuditedLog (M : Type) where
  log : Log
  appended : List (PolicySnapshot × AuditedRecord M)

namespace AuditedLog

/-- One event. As in `Log.step`, a run ends where the file does not take a line in whole
or cannot be opened again. -/
def step (key : Option Bytes) (state : AuditedLog M) : AuditedEvent M → Option (AuditedLog M)
  | .append policy input decision metadata =>
    match state.log.writer.appendVerifiedAudited D C state.log.file none policy input decision
        metadata with
    | none => none
    | some (.ok entry, writer, file) =>
      let text := (C.serialization entry.data).text
      some ⟨⟨file, writer, state.log.texts ++ [text], state.log.written ++
        [entryLine ⟨entry.sequence, entry.previousHash, entry.entryHash, text⟩]⟩,
        state.appended ++ [(policy, entry.data)]⟩
    | some (.error (.wal .writeFailed), _, _) => none
    | some (.error _, writer, file) =>
      some { state with log := { state.log with file := file, writer := writer } }
  | .reopen => (state.log.step D J key .reopen).map fun log => { state with log := log }

/-- The file holds the appended records, and each replays under its policy. -/
structure Inv (key : Option Bytes) (state : AuditedLog M) : Prop where
  log : Log.Inv D J key state.log
  recorded : Log.Recorded J state.log
  entries : List.Forall₂ (fun (entry : WalEntry) (x : PolicySnapshot × AuditedRecord M) =>
    serialize (C.serialization x.2) = .ok entry.data) (entriesOf J state.log.file.bytes)
      state.appended
  replays : ∀ x ∈ state.appended, x.1.prescribe x.2.input = some x.2.decision ∧
    auditBundle D x.1 x.2.input x.2.decision = some x.2.audit

end AuditedLog

def RecordCodec.Lawful.payload {J : SerdeJson} {C : RecordCodec M} (hC : C.Lawful J)
    (record : AuditedRecord M) : Payload J :=
  ⟨C.serialization record, hC.isValue record, hC.newline_notMem record⟩

variable {D J C} {key : Option Bytes} {state state' : AuditedLog M} {policy : PolicySnapshot}

theorem of_appendVerifiedAudited {writer writer' : WalWriter} {file file' : WalFile}
    {failsAfter : Option Nat} {input : KernelInput} {decision : KernelDecision} {metadata : M}
    {entry : AuditedEntry M}
    (h : writer.appendVerifiedAudited D C file failsAfter policy input decision metadata =
      some (.ok entry, writer', file')) :
    policy.prescribe input = some decision ∧
      auditBundle D policy input decision = some entry.data.audit ∧
      entry.data.input = input ∧ entry.data.decision = decision ∧
      writer.append D file failsAfter (C.serialization entry.data) =
        (.ok ⟨entry.sequence, entry.previousHash, entry.entryHash,
          (C.serialization entry.data).text⟩, writer', file') := by
  obtain ⟨bundle, hbundle, heq⟩ := Option.map_eq_some_iff.1 h
  cases bundle with
  | error result => cases heq
  | ok audit =>
    obtain ⟨hreplay, haudit⟩ := verifiedAuditBundle_eq_ok_iff.1 hbundle
    simp only at heq
    split at heq
    · cases heq
    · next raw writer₁ file₁ happend =>
      obtain ⟨hentry, hrest⟩ := Prod.mk.inj heq
      cases hrest
      cases hentry
      obtain ⟨hnext, -, -⟩ := append_eq_ok happend
      obtain ⟨hdata, -⟩ := data_of_nextEntry hnext
      refine ⟨hreplay, haudit, rfl, rfl, ?_⟩
      rw [happend, ← hdata]

theorem of_appendVerifiedAudited_error {writer writer' : WalWriter} {file file' : WalFile}
    {failsAfter : Option Nat} {input : KernelInput} {decision : KernelDecision} {metadata : M}
    {error : ReplayError}
    (h : writer.appendVerifiedAudited D C file failsAfter policy input decision metadata =
      some (.error error, writer', file')) (herror : error ≠ .wal .writeFailed) :
    writer' = writer ∧ file' = file := by
  obtain ⟨bundle, hbundle, heq⟩ := Option.map_eq_some_iff.1 h
  cases bundle with
  | error result =>
    obtain ⟨-, hrest⟩ := Prod.mk.inj heq
    cases hrest
    exact ⟨rfl, rfl⟩
  | ok audit =>
    simp only at heq
    split at heq
    · next failed writer₁ file₁ happend =>
      obtain ⟨hfailed, hrest⟩ := Prod.mk.inj heq
      cases hrest
      refine append_eq_error happend ?_
      rintro rfl
      exact herror (Except.error.inj hfailed).symm
    · cases heq

namespace AuditedLog

theorem inv_create {log : Log} (h : Log.create D J key = .ok log) :
    Inv D J C key ⟨log, []⟩ := by
  refine ⟨Log.inv_create h, Log.recorded_create h, ?_, by simp⟩
  rw [Log.create] at h
  split at h
  · cases h
  · cases h
    exact .nil

theorem inv_append (hJ : J.Lawful) (hC : C.Lawful J) (hinv : Inv D J C key state)
    {entry : AuditedEntry M} {writer : WalWriter} {file : WalFile}
    (hreplay : policy.prescribe entry.data.input = some entry.data.decision)
    (haudit : auditBundle D policy entry.data.input entry.data.decision = some entry.data.audit)
    (happend : state.log.writer.append D state.log.file none (C.serialization entry.data) =
      (.ok ⟨entry.sequence, entry.previousHash, entry.entryHash,
        (C.serialization entry.data).text⟩, writer, file)) :
    Inv D J C key ⟨⟨file, writer, state.log.texts ++ [(C.serialization entry.data).text],
      state.log.written ++ [entryLine ⟨entry.sequence, entry.previousHash, entry.entryHash,
        (C.serialization entry.data).text⟩]⟩, state.appended ++ [(policy, entry.data)]⟩ := by
  have hstep : state.log.step D J key (.append (hC.payload entry.data)) =
      some ⟨file, writer, state.log.texts ++ [(C.serialization entry.data).text],
        state.log.written ++ [entryLine ⟨entry.sequence, entry.previousHash, entry.entryHash,
          (C.serialization entry.data).text⟩]⟩ := by
    simp only [Log.step, RecordCodec.Lawful.payload, happend]
  obtain ⟨s, hs⟩ := hinv.log.stands
  obtain ⟨hnext, -, -⟩ := append_eq_ok happend
  obtain ⟨-, -, hserialize, -⟩ := nextEntry_eq_ok hnext
  obtain ⟨-, hentries, -⟩ := hs.append_payload (hC.payload entry.data) hJ hinv.log.ended happend
  refine ⟨Log.inv_step hJ hinv.log hstep, Log.recorded_step hJ hinv.log hinv.recorded hstep, ?_, ?_⟩
  · rw [hentries]
    exact rel_append hinv.entries (.cons hserialize .nil)
  · rw [forall_mem_append, forall_mem_singleton]
    exact ⟨hinv.replays, hreplay, haudit⟩

theorem inv_step (hJ : J.Lawful) (hC : C.Lawful J) (hinv : Inv D J C key state)
    {event : AuditedEvent M} (h : state.step D J C key event = some state') :
    Inv D J C key state' := by
  cases event with
  | append policy input decision metadata =>
    simp only [step] at h
    split at h
    · cases h
    · next entry writer file happend =>
      cases h
      obtain ⟨hreplay, haudit, rfl, rfl, hraw⟩ := of_appendVerifiedAudited happend
      exact inv_append hJ hC hinv hreplay haudit hraw
    · cases h
    · next error writer file herror happend =>
      cases h
      obtain ⟨rfl, rfl⟩ := of_appendVerifiedAudited_error happend herror
      exact ⟨hinv.log, hinv.recorded, hinv.entries, hinv.replays⟩
  | reopen =>
    obtain ⟨log, hlog, rfl⟩ := Option.map_eq_some_iff.1 h
    have hfile : log.file = state.log.file := by
      simp only [Log.step] at hlog
      split at hlog
      · cases hlog
      · cases hlog
        rfl
    refine ⟨Log.inv_step hJ hinv.log hlog, Log.recorded_step hJ hinv.log hinv.recorded hlog, ?_,
      hinv.replays⟩
    rw [hfile]
    exact hinv.entries

/-- A record whose decision replays is appended where the file has room for a line. -/
theorem exists_step_append (J : SerdeJson) (record : AuditedRecord M) {text : Bytes}
    {sequence : UInt64} (hreplay : policy.prescribe record.input = some record.decision)
    (haudit : auditBundle D policy record.input record.decision = some record.audit)
    (hserialize : serialize (C.serialization record) = .ok text)
    (hsequence : Machine.checkedAdd state.log.writer.sequence 1 = some sequence)
    (hlast : state.log.writer.lastHash.length ≤ 64)
    (hwriter : state.log.writer.hmacKey = none ∧ state.log.writer.poisoned = false)
    (hroom : state.log.file.bytes.length + maxWalEntryBytes ≤ maxFileBytes) :
    ∃ state', state.step D J C none
        (.append policy record.input record.decision record.metadata) = some state' ∧
      state'.appended = state.appended ++ [(policy, record)] ∧
      state'.log.writer.sequence = sequence ∧ state'.log.writer.lastHash.length ≤ 64 ∧
      (state'.log.writer.hmacKey = none ∧ state'.log.writer.poisoned = false) ∧
      state'.log.file.bytes.length ≤ state.log.file.bytes.length + maxWalEntryBytes := by
  obtain ⟨hkey, hpoisoned⟩ := hwriter
  have hnext : state.log.writer.nextEntry D (C.serialization record) =
      .ok ⟨sequence, state.log.writer.lastHash,
        bytesToHex (D.sha256 (state.log.writer.lastHash ++ text)).1, text⟩ := by
    simp [WalWriter.nextEntry, hpoisoned, hsequence, hserialize, hkey, computeHash]
  generalize hdigest : D.sha256 (state.log.writer.lastHash ++ text) = digest at hnext
  have hhex := length_digest digest
  let entry : WalEntry := ⟨sequence, state.log.writer.lastHash, bytesToHex digest.1, text⟩
  have hline : (entryLine entry).length ≤ maxWalEntryBytes :=
    length_entryLine_le hlast hhex.le (serialize_eq_ok hserialize).2
  have hgrown : (state.log.file.bytes ++ entryLine entry).length ≤
      state.log.file.bytes.length + maxWalEntryBytes :=
    length_append.trans_le (Nat.add_le_add_left hline _)
  let file : WalFile := ⟨state.log.file.bytes ++ entryLine entry, hgrown.trans hroom⟩
  have hwritten : state.log.file.writeAll none (entryLine entry) = (true, file) :=
    WalFile.writeAll_of_bytes_eq rfl
  refine ⟨⟨⟨file, { state.log.writer with sequence := sequence, lastHash := entry.entryHash },
    state.log.texts ++ [(C.serialization record).text],
    state.log.written ++ [entryLine { entry with data := (C.serialization record).text }]⟩, _⟩,
    ?_, rfl, rfl, hhex.le, ⟨hkey, hpoisoned⟩, hgrown⟩
  simp only [step, WalWriter.appendVerifiedAudited,
    verifiedAuditBundle_eq_ok_iff.2 ⟨hreplay, haudit⟩, Option.map_some, WalWriter.append, hnext]
  rw [hwritten]
  rfl

theorem exists_decodes (hC : C.Lawful J) {entries : List WalEntry}
    {appended : List (PolicySnapshot × AuditedRecord M)} (hclean : ∀ entry ∈ entries, entry.Clean J)
    (h : List.Forall₂ (fun (entry : WalEntry) (x : PolicySnapshot × AuditedRecord M) =>
      serialize (C.serialization x.2) = .ok entry.data) entries appended) :
    ∃ typed, Decodes C.decode (entries.map entryLine) typed ∧
      typed.map AuditedEntry.data = appended.map Prod.snd ∧
      typed.map AuditedEntry.sequence = entries.map WalEntry.sequence := by
  induction h with
  | nil => exact ⟨[], .nil, rfl, rfl⟩
  | @cons entry x entries appended hentry _ ih =>
    obtain ⟨hfirst, hrest⟩ := forall_mem_cons.1 hclean
    obtain ⟨typed, hdecodes, hdata, hsequence⟩ := ih hrest
    refine ⟨⟨entry.sequence, entry.previousHash, entry.entryHash, x.2⟩ :: typed,
      hdecodes.entryLine_cons (hC.decode_entryLine x.2 entry hfirst.plain hentry), ?_, ?_⟩
    · rw [map_cons, map_cons, hdata]
    · rw [map_cons, map_cons, hsequence]

theorem readVerifiedWalInner_of_inv (hC : C.Lawful J) (hinv : Inv D J C key state) :
    ∃ typed, readVerifiedWalInner D J key C.decode state.log.file.bytes = .ok typed ∧
      typed.map AuditedEntry.data = state.appended.map Prod.snd ∧
      typed.map (fun entry => entry.sequence.toNat) = List.range' 1 state.appended.length := by
  obtain ⟨-, hfollows⟩ := Log.readVerifiedWalInner_of_inv hinv.log
  obtain ⟨typed, hdecodes, hdata, hsequence⟩ := exists_decodes hC hinv.recorded.clean hinv.entries
  refine ⟨typed, Log.readVerifiedWalInner_of_decodes hinv.log hinv.recorded hdecodes, hdata, ?_⟩
  have hnumbers : typed.map (fun entry => entry.sequence.toNat) =
      (typed.map AuditedEntry.sequence).map UInt64.toNat := by
    rw [map_map]
    rfl
  rw [hnumbers, hsequence, map_map, ← hinv.entries.length_eq]
  exact map_sequence_of_follows hfollows

def verdicts (n : Nat) : List WalReplayVerdict :=
  (List.range' 1 n).map fun k => ⟨UInt64.ofNat k, true, true, true, true⟩

theorem replay_of_inv (hC : C.Lawful J) (hinv : Inv D J C key state) {resolver : PolicyResolver}
    (hresolver : ∀ x ∈ state.appended, resolver x.1.policyEpoch x.1.catalogEpoch
      (digestToHex (policyDigest D x.1)) = some x.1) :
    replayAuditedWalWithResolver D resolver J C key state.log.file.bytes =
      some (.ok (verdicts state.appended.length)) := by
  obtain ⟨typed, hread, hdata, hsequence⟩ := readVerifiedWalInner_of_inv hC hinv
  simp only [replayAuditedWalWithResolver, hread]
  refine verifyAuditedEntries_eq_ok_iff.2 ⟨?_, ?_⟩
  · intro entry hentry
    have hmem : entry.data ∈ state.appended.map Prod.snd := hdata ▸ mem_map_of_mem hentry
    obtain ⟨x, hx, hdata'⟩ := mem_map.1 hmem
    obtain ⟨hreplay, haudit⟩ := hinv.replays x hx
    obtain ⟨hcanonical, hbinds, hpolicy, hcatalog⟩ :=
      validateCanonical_of_auditBundle hreplay haudit
    rw [← hdata']
    refine ⟨hcanonical, x.1, ?_, hreplay, hbinds⟩
    rw [hpolicy, hcatalog, hbinds.policy_eq]
    exact hresolver x hx
  · rw [verdicts, ← hsequence, map_map]
    refine map_congr_left fun entry _ => ?_
    rw [Function.comp_apply, UInt64.ofNat_toNat, AuditedEntry.verdict]

end AuditedLog

theorem holds_of_replay {resolver : PolicyResolver} {key : Option Bytes} {bytes : Bytes}
    {verdicts : List WalReplayVerdict}
    (h : replayAuditedWalWithResolver D resolver J C key bytes = some (.ok verdicts)) :
    ∃ entries, readVerifiedWalInner D J key C.decode bytes = .ok entries ∧
      verdicts = entries.map AuditedEntry.verdict ∧
      ∀ entry ∈ entries, Holds D resolver entry.data := by
  simp only [replayAuditedWalWithResolver] at h
  split at h
  · cases h
  · next entries hread =>
    obtain ⟨hentries, rfl⟩ := verifyAuditedEntries_eq_ok_iff.1 h
    exact ⟨entries, hread, rfl, fun entry hentry => (hentries entry hentry).2⟩

/-- A replay that succeeds has found every record to hold: the decision is the kernel's
under the resolved policy, and the bundle has the digests of the three. And a log to which
records were appended by verified appends only, under any policies, replays with a
resolver that returns these: one verdict for each record, in order. -/
theorem replayAuditedWalWithResolver_spec (D : Digests) (J : SerdeJson) (C : RecordCodec M) :
    (∀ resolver key bytes verdicts,
      replayAuditedWalWithResolver D resolver J C key bytes = some (.ok verdicts) →
      ∃ entries, readVerifiedWalInner D J key C.decode bytes = .ok entries ∧
        verdicts = entries.map AuditedEntry.verdict ∧
        ∀ entry ∈ entries, Holds D resolver entry.data) ∧
    (J.Lawful → C.Lawful J → ∀ resolver key start events state,
      Log.create D J key = .ok start →
      run (AuditedLog.step D J C key) ⟨start, []⟩ events = some state →
      (∀ x ∈ state.appended, resolver x.1.policyEpoch x.1.catalogEpoch
        (digestToHex (policyDigest D x.1)) = some x.1) →
      replayAuditedWalWithResolver D resolver J C key state.log.file.bytes =
        some (.ok (AuditedLog.verdicts state.appended.length))) := by
  constructor
  · intro resolver key bytes verdicts h
    exact holds_of_replay h
  · intro hJ hC resolver key start events state hcreate hrun hresolver
    have hinv : AuditedLog.Inv D J C key state :=
      run_invariant (fun hinv hstep => AuditedLog.inv_step hJ hC hinv hstep)
        (AuditedLog.inv_create hcreate) hrun
    exact AuditedLog.replay_of_inv hC hinv hresolver

/-! ### A log of two records -/

/-- The policies of the epochs differ in nothing else. -/
def epochPolicy (epoch : UInt64) : PolicySnapshot :=
  PolicySnapshot.newUnchecked epoch 1 5000 1000 10000 1 [unitPriceModel 1 5000]

def epochDecision (epoch : UInt64) : KernelDecision :=
  ⟨7, .executeRequested, .requestedModelMaximizesUtility, 1, 0, 20, 439880, 0, 0, 1, 1, epoch, 1⟩

theorem prescribe_epochPolicy :
    (epochPolicy 1).prescribe unitPriceInput = some (epochDecision 1) ∧
      (epochPolicy 2).prescribe unitPriceInput = some (epochDecision 2) :=
  ⟨rfl, rfl⟩

/-- A record under the policy of an epoch, with the epoch that its bundle names. -/
def epochRecord (named epoch : UInt64) : AuditedRecord Unit where
  audit := {
    schemaVersion := auditSchemaVersion
    digestAlgorithm := auditDigestAlgorithm
    proofVersion := auditProofVersion
    policyEpoch := named
    catalogEpoch := 1
    createdBy := auditCreatedBy
    policyDigestHex := digestToHex (policyDigest sha256Digests (epochPolicy epoch))
    inputDigestHex := digestToHex (inputDigest sha256Digests unitPriceInput)
    decisionDigestHex := digestToHex (decisionDigest sha256Digests (epochDecision epoch))
    replayValid := true }
  input := unitPriceInput
  decision := epochDecision epoch
  metadata := ()

/-- What is serialized for the record. -/
def recordText (named epoch : UInt64) : Bytes :=
  [literal "\x7b\"audit\":\x7b\"schema_version\":\"calybris.audit.v1\",",
   literal "\"digest_algorithm\":\"sha256\",\"proof_version\":1,\"policy_epoch\":",
   utf8 (decimal named.toNat),
   literal ",\"catalog_epoch\":1,\"created_by\":\"calybris\",\"policy_digest_hex\":\"",
   (epochRecord named epoch).audit.policyDigestHex, literal "\",\"input_digest_hex\":\"",
   (epochRecord named epoch).audit.inputDigestHex, literal "\",\"decision_digest_hex\":\"",
   (epochRecord named epoch).audit.decisionDigestHex,
   literal "\",\"replay_valid\":true\x7d,\"input\":\x7b\"request_sequence\":7,",
   literal "\"requested_model_id\":1,\"input_tokens\":10,\"output_tokens\":10,",
   literal "\"business_value_microunits\":1000000,\"budget_limit_microunits\":1000,",
   literal "\"risk_bps\":100,\"confidence_bps\":9000,\"minimum_quality_bps\":1000,",
   literal "\"max_p95_latency_ms\":1000,\"required_capabilities\":0,",
   literal "\"allowed_provider_mask\":18446744073709551615,",
   literal "\"required_region_mask\":1\x7d,\"decision\":\x7b\"request_sequence\":7,",
   literal "\"action\":\"ExecuteRequested\",\"reason\":\"RequestedModelMaximizesUtility\",",
   literal "\"selected_model_id\":1,\"selected_model_index\":0,",
   literal "\"estimated_cost_microunits\":20,\"expected_utility_microunits\":439880,",
   literal "\"counterfactual_model_id\":0,\"counterfactual_utility_microunits\":0,",
   literal "\"evaluated_models\":1,\"eligible_models\":1,\"policy_epoch\":",
   utf8 (decimal epoch.toNat), literal ",\"catalog_epoch\":1\x7d,\"metadata\":null\x7d"].flatten

/-- Serializes the records of a table as their texts, and no others. -/
def tableCodec (table : List (Bytes × AuditedRecord Unit)) : RecordCodec Unit where
  serialization record :=
    ((table.find? fun x => x.2 = record).map fun x => ⟨[x.1], false⟩).getD ⟨[], true⟩
  decode line := (bracketJson.parseEntry line).bind fun entry =>
    (table.find? fun x => x.1 = entry.data).map fun x =>
      ⟨entry.sequence, entry.previousHash, entry.entryHash, x.2⟩

theorem find?_eq_some_of_nodup {α β : Type*} [DecidableEq β] {f : α → β} {l : List α}
    (h : (l.map f).Nodup) {x : α} (hx : x ∈ l) : l.find? (fun y => f y = f x) = some x := by
  obtain ⟨y, hy⟩ := Option.isSome_iff_exists.1
    (find?_isSome (p := fun y => decide (f y = f x)).2 ⟨x, hx, decide_eq_true rfl⟩)
  have hfound := find?_some hy
  rw [hy, inj_on_of_nodup_map h (mem_of_find?_eq_some hy) hx (of_decide_eq_true hfound)]

/-- The texts of a table can be told apart and written on a line. -/
structure Legible (table : List (Bytes × AuditedRecord Unit)) : Prop where
  isValue : ∀ x ∈ table, bracketJson.IsValue x.1
  newline_notMem : ∀ x ∈ table, newline ∉ x.1
  find : ∀ x ∈ table, table.find? (fun y => y.1 = x.1) = some x

theorem Legible.lawful {table : List (Bytes × AuditedRecord Unit)} (h : Legible table) :
    (tableCodec table).Lawful bracketJson := by
  have hserialize : ∀ record text, serialize ((tableCodec table).serialization record) = .ok text →
      (text, record) ∈ table := by
    intro record text htext
    simp only [tableCodec] at htext
    cases hfind : table.find? fun x => x.2 = record with
    | none =>
      rw [hfind] at htext
      exact absurd (validateUTF8_of_serialize htext).1 (by simp)
    | some x =>
      rw [hfind] at htext
      have hrecord : x.2 = record := by simpa using List.find?_some hfind
      have htext' : text = x.1 := (serialize_eq_ok htext).1.trans flatten_singleton
      rw [htext', ← hrecord]
      exact List.mem_of_find?_eq_some hfind
  refine ⟨fun record text htext => h.isValue _ (hserialize record text htext),
    fun record text htext => h.newline_notMem _ (hserialize record text htext),
    fun record entry hplain htext => ?_⟩
  have hmem := hserialize record _ htext
  have hJ := lawful_bracketJson
  have hparse := hJ.parse_append_whitespace _ newline _ rfl
    (hJ.parse_entryText entry hplain (h.isValue _ hmem))
  simp only [tableCodec, entryLine, hparse, Option.bind_some, h.find _ hmem, Option.map_some]

def recordTable : List (Bytes × AuditedRecord Unit) :=
  [(recordText 1 1, epochRecord 1 1), (recordText 2 2, epochRecord 2 2),
    (recordText 2 1, epochRecord 2 1)]

theorem recordText_legible : (∀ x ∈ recordTable,
    scanValue x.1 = some (x.1, []) ∧ newline ∉ x.1 ∧ x.1.length ≤ maxWalPayloadBytes ∧
      x.1.all fun b => b.toNat < 128) ∧ (recordTable.map Prod.fst).Nodup ∧
    (recordTable.map Prod.snd).Nodup := by
  simp only [recordTable, recordText, literal_eq_toUTF8]
  decide +kernel

theorem legible_recordTable : Legible recordTable where
  isValue x hx := (recordText_legible.1 x hx).1
  newline_notMem x hx := (recordText_legible.1 x hx).2.1
  find _ hx := find?_eq_some_of_nodup recordText_legible.2.1 hx

theorem serialize_recordTable {text : Bytes} {record : AuditedRecord Unit}
    (hx : (text, record) ∈ recordTable) :
    serialize ((tableCodec recordTable).serialization record) = .ok text := by
  obtain ⟨-, -, hlength, hascii⟩ := recordText_legible.1 _ hx
  simp only [tableCodec, find?_eq_some_of_nodup recordText_legible.2.2 hx]
  exact serialize_singleton hlength (exists_utf8_of_ascii (by simpa using hascii))

theorem auditBundle_epochRecord {epoch : UInt64}
    (h : (epochPolicy epoch).prescribe unitPriceInput = some (epochDecision epoch)) :
    auditBundle sha256Digests (epochPolicy epoch) unitPriceInput (epochDecision epoch) =
      some (epochRecord epoch epoch).audit := by
  rw [auditBundle, h, Option.map_some, decide_eq_true rfl]
  rfl

def recordStart : AuditedLog Unit := ⟨⟨.empty, ⟨0, genesis, none, false⟩, [], []⟩, []⟩

def recordEvents : List (AuditedEvent Unit) :=
  [.append (epochPolicy 1) unitPriceInput (epochDecision 1) (),
    .append (epochPolicy 2) unitPriceInput (epochDecision 2) ()]

theorem exists_run_recordEvents : ∃ state, run (AuditedLog.step sha256Digests bracketJson
      (tableCodec recordTable) none) recordStart recordEvents = some state ∧
    state.appended = [(epochPolicy 1, epochRecord 1 1), (epochPolicy 2, epochRecord 2 2)] := by
  obtain ⟨hprescribe, hprescribe'⟩ := prescribe_epochPolicy
  have hempty : recordStart.log.file.bytes.length = 0 := rfl
  have hfirst : Machine.checkedAdd recordStart.log.writer.sequence 1 = some 1 := rfl
  have hroom : maxWalEntryBytes + maxWalEntryBytes ≤ maxFileBytes := by decide
  obtain ⟨state, hstep, happended, hsequence, hlast, hwriter, hlength⟩ :=
    AuditedLog.exists_step_append bracketJson (epochRecord 1 1) hprescribe
      (auditBundle_epochRecord hprescribe) (serialize_recordTable mem_cons_self) hfirst (by decide)
      ⟨rfl, rfl⟩ (by omega)
  have hsecond : Machine.checkedAdd state.log.writer.sequence 1 = some 2 := by
    rw [hsequence]
    rfl
  obtain ⟨state', hstep', happended', -⟩ :=
    AuditedLog.exists_step_append bracketJson (epochRecord 2 2) hprescribe'
      (auditBundle_epochRecord hprescribe')
      (serialize_recordTable (mem_cons_of_mem _ mem_cons_self)) hsecond hlast hwriter (by omega)
  refine ⟨state', ?_, by rw [happended', happended]; rfl⟩
  exact run_cons_eq_some_iff.2 ⟨state, hstep, run_cons_eq_some_iff.2 ⟨state', hstep', rfl⟩⟩

/-- A store of policies by their digests. -/
def byDigest (policies : List PolicySnapshot) : PolicyResolver := fun _ _ digest =>
  policies.find? fun policy => digestToHex (policyDigest sha256Digests policy) = digest

def epochPolicies : List PolicySnapshot := [epochPolicy 1, epochPolicy 2]

theorem byDigest_epochPolicies {policy : PolicySnapshot} (h : policy ∈ epochPolicies)
    (policyEpoch catalogEpoch : UInt64) :
    byDigest epochPolicies policyEpoch catalogEpoch
      (digestToHex (policyDigest sha256Digests policy)) = some policy :=
  find?_eq_some_of_nodup (by decide +kernel) h

theorem resolves_epochPolicies {appended : List (PolicySnapshot × AuditedRecord Unit)}
    (h : appended = [(epochPolicy 1, epochRecord 1 1), (epochPolicy 2, epochRecord 2 2)]) :
    ∀ x ∈ appended, byDigest epochPolicies x.1.policyEpoch x.1.catalogEpoch
      (digestToHex (policyDigest sha256Digests x.1)) = some x.1 := by
  intro x hx
  have hmem := mem_map_of_mem (f := Prod.fst) hx
  rw [h] at hmem
  exact byDigest_epochPolicies hmem _ _

theorem replayAuditedWalWithResolver_spec_two :
    ∃ state, run (AuditedLog.step sha256Digests bracketJson (tableCodec recordTable) none)
        recordStart recordEvents = some state ∧
      replayAuditedWalWithResolver sha256Digests (byDigest epochPolicies) bracketJson
        (tableCodec recordTable) none state.log.file.bytes =
          some (.ok [⟨1, true, true, true, true⟩, ⟨2, true, true, true, true⟩]) ∧
      ∃ entries, readVerifiedWalInner sha256Digests bracketJson none
          (tableCodec recordTable).decode state.log.file.bytes = .ok entries ∧
        entries.length = 2 ∧
        ∀ entry ∈ entries, Holds sha256Digests (byDigest epochPolicies) entry.data := by
  obtain ⟨hsound, hcomplete⟩ :=
    replayAuditedWalWithResolver_spec sha256Digests bracketJson (tableCodec recordTable)
  obtain ⟨state, hrun, happended⟩ := exists_run_recordEvents
  have hreplay := hcomplete lawful_bracketJson legible_recordTable.lawful (byDigest epochPolicies)
    none _ recordEvents state (Log.create_none _ _) hrun (resolves_epochPolicies happended)
  rw [happended] at hreplay
  obtain ⟨entries, hread, hverdicts, hholds⟩ := hsound _ _ _ _ hreplay
  refine ⟨state, hrun, hreplay, entries, hread, ?_, hholds⟩
  rw [← length_map AuditedEntry.verdict, ← hverdicts]
  rfl

end Writer

end Calybris.Wal
