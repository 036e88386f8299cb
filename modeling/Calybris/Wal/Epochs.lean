import Calybris.Wal.Audited

/-!
# The epochs of an audited record

The bundle of a record names the epochs of the policy and of the catalog it was decided
under. The replay hands them to the resolver and does not look at them again: it compares
the digest of the policy that comes back, and the decision, which has the epochs of that
policy. So the epochs of the bundle are those of the decision where the resolver returns
only policies of the epochs it is asked for, and otherwise they can be anything: a resolver
that finds policies by their digests accepts a record whose bundle names another epoch.
-/

namespace Calybris.Wal

open Text Note Lines Transition Kernel Verify List

section Replay

variable {M : Type}

/-- What the resolver returns for a bundle is of the epochs it was asked for. -/
def PolicyResolver.KeepsEpochs (resolver : PolicyResolver) (audit : AuditBundle) : Prop :=
  ∀ policy, resolver audit.policyEpoch audit.catalogEpoch audit.policyDigestHex = some policy →
    policy.policyEpoch = audit.policyEpoch ∧ policy.catalogEpoch = audit.catalogEpoch

/-- The bundle names the epochs of the decision and of the resolved policy. -/
def AuditedRecord.EpochsAgree (record : AuditedRecord M) (resolver : PolicyResolver) : Prop :=
  ∃ policy, resolver record.audit.policyEpoch record.audit.catalogEpoch
      record.audit.policyDigestHex = some policy ∧
    record.audit.policyEpoch = record.decision.policyEpoch ∧
    record.audit.catalogEpoch = record.decision.catalogEpoch ∧
    record.audit.policyEpoch = policy.policyEpoch ∧
    record.audit.catalogEpoch = policy.catalogEpoch

theorem Holds.epochsAgree_iff {D : Digests} {resolver : PolicyResolver} {record : AuditedRecord M}
    (h : Holds D resolver record) :
    record.EpochsAgree resolver ↔ resolver.KeepsEpochs record.audit := by
  obtain ⟨policy, hpolicy, hreplay, -⟩ := h
  obtain ⟨hepoch, hcatalog⟩ := PolicySnapshot.epochs_of_prescribe hreplay
  constructor
  · rintro ⟨found, hfound, -, -, hepoch', hcatalog'⟩ other hother
    obtain rfl := Option.some.inj (hfound.symm.trans hother)
    exact ⟨hepoch'.symm, hcatalog'.symm⟩
  · intro hkeeps
    obtain ⟨hepoch', hcatalog'⟩ := hkeeps policy hpolicy
    exact ⟨policy, hpolicy, hepoch'.symm.trans hepoch.symm, hcatalog'.symm.trans hcatalog.symm,
      hepoch'.symm, hcatalog'.symm⟩

/-- The bundle of a record that is accepted names the epochs of the decision and of the
resolved policy exactly when the resolver returned for it a policy of the epochs it was asked
for. -/
theorem epochs_of_replay (D : Digests) (J : SerdeJson) (C : RecordCodec M)
    (resolver : PolicyResolver) (key : Option Bytes) (bytes : Bytes)
    (verdicts : List WalReplayVerdict)
    (h : replayAuditedWalWithResolver D resolver J C key bytes = some (.ok verdicts)) :
    ∃ entries, readVerifiedWalInner D J key C.decode bytes = .ok entries ∧
      verdicts = entries.map AuditedEntry.verdict ∧
      ∀ entry ∈ entries,
        (entry.data.EpochsAgree resolver ↔ resolver.KeepsEpochs entry.data.audit) := by
  obtain ⟨entries, hread, hverdicts, hholds⟩ := holds_of_replay h
  exact ⟨entries, hread, hverdicts, fun entry hentry => (hholds entry hentry).epochsAgree_iff⟩

end Replay

theorem keepsEpochs_epochRecord {epoch : UInt64} (h : epochPolicy epoch ∈ epochPolicies) :
    (byDigest epochPolicies).KeepsEpochs (epochRecord epoch epoch).audit := by
  intro policy hpolicy
  obtain rfl := Option.some.inj ((byDigest_epochPolicies h _ _).symm.trans hpolicy)
  exact ⟨rfl, rfl⟩

/-- Two records of two epochs, with a resolver that does not look at the epochs. -/
theorem epochs_of_replay_two :
    ∃ state, run (AuditedLog.step sha256Digests bracketJson (tableCodec recordTable) none)
        recordStart recordEvents = some state ∧
      ∃ entries, readVerifiedWalInner sha256Digests bracketJson none
          (tableCodec recordTable).decode state.log.file.bytes = .ok entries ∧
        entries.length = 2 ∧
        ∀ entry ∈ entries, entry.data.EpochsAgree (byDigest epochPolicies) := by
  obtain ⟨state, hrun, happended⟩ := exists_run_recordEvents
  have hinv : AuditedLog.Inv sha256Digests bracketJson (tableCodec recordTable) none state :=
    run_invariant (fun hinv hstep =>
      AuditedLog.inv_step lawful_bracketJson legible_recordTable.lawful hinv hstep)
      (AuditedLog.inv_create (Log.create_none _ _)) hrun
  obtain ⟨typed, htyped, hdata, -⟩ :=
    AuditedLog.readVerifiedWalInner_of_inv legible_recordTable.lawful hinv
  have hreplay := AuditedLog.replay_of_inv legible_recordTable.lawful hinv
    (resolves_epochPolicies happended)
  obtain ⟨entries, hread, -, hepochs⟩ := epochs_of_replay sha256Digests bracketJson
    (tableCodec recordTable) (byDigest epochPolicies) none _ _ hreplay
  obtain rfl := Except.ok.inj (htyped.symm.trans hread)
  rw [happended] at hdata
  refine ⟨state, hrun, typed, htyped, ?_, fun entry hentry => (hepochs entry hentry).2 ?_⟩
  · rw [← length_map AuditedEntry.data, hdata]
    rfl
  · have hmem := mem_map_of_mem (f := AuditedEntry.data) hentry
    simp only [hdata, map_cons, map_nil, mem_cons, not_mem_nil, or_false] at hmem
    rcases hmem with hfirst | hsecond
    · exact hfirst ▸ keepsEpochs_epochRecord mem_cons_self
    · exact hsecond ▸ keepsEpochs_epochRecord (mem_cons_of_mem _ mem_cons_self)

/-! ### A record of another epoch -/

/-- The first record with another epoch of the policy in the bundle. -/
def forgedRecord : AuditedRecord Unit := epochRecord 2 1

def forgedEntry : WalEntry :=
  Log.firstEntry (sha256Digests.sha256 (genesis ++ recordText 2 1)) (recordText 2 1)

theorem readVerifiedWalInner_forgedEntry :
    readVerifiedWalInner sha256Digests bracketJson none (tableCodec recordTable).decode
      (entryLine forgedEntry) = .ok [⟨1, genesis, forgedEntry.entryHash, forgedRecord⟩] := by
  have hmem : (recordText 2 1, forgedRecord) ∈ recordTable :=
    mem_cons_of_mem _ (mem_cons_of_mem _ mem_cons_self)
  obtain ⟨hvalue, hno, hlength, hascii⟩ := recordText_legible.1 _ hmem
  obtain ⟨hinv, hrec⟩ := Log.inv_of_run lawful_bracketJson
    (Log.create_none sha256Digests bracketJson)
    (Log.run_text hvalue hno hlength (exists_utf8_of_ascii (by simpa using hascii)) rfl)
  have hdigest : IsPreviousHash forgedEntry.entryHash :=
    .inr ⟨length_digest _, fun _ => isHexByte_of_mem⟩
  have hdecode := legible_recordTable.lawful.decode_entryLine forgedRecord forgedEntry
    ⟨(plain_of_isPreviousHash (.inl rfl)).1, (plain_of_isPreviousHash hdigest).1⟩
    (serialize_recordTable hmem)
  refine Log.readVerifiedWalInner_of_decodes hinv hrec ?_
  rw [← hrec.written]
  exact Decodes.entryLine_cons .nil hdecode

theorem holds_forgedRecord : Holds sha256Digests (byDigest epochPolicies) forgedRecord :=
  ⟨epochPolicy 1, byDigest_epochPolicies mem_cons_self _ _, prescribe_epochPolicy.1, rfl, rfl,
    rfl⟩

theorem validateCanonical_forgedRecord : forgedRecord.audit.validateCanonical = .ok () :=
  (validateCanonical_of_auditBundle prescribe_epochPolicy.1
    (auditBundle_epochRecord prescribe_epochPolicy.1)).1

/-- A resolver that returns the policy with the digest it is asked for, and a record that is
accepted with it though its bundle names the second epoch: its decision and the policy are
of the first. -/
theorem replay_forgedLog :
    (∀ policyEpoch catalogEpoch digest policy,
      byDigest epochPolicies policyEpoch catalogEpoch digest = some policy →
        digestToHex (policyDigest sha256Digests policy) = digest) ∧
    bracketJson.Lawful ∧ (tableCodec recordTable).Lawful bracketJson ∧
    readVerifiedWalInner sha256Digests bracketJson none (tableCodec recordTable).decode
      (entryLine forgedEntry) = .ok [⟨1, genesis, forgedEntry.entryHash, forgedRecord⟩] ∧
    replayAuditedWalWithResolver sha256Digests (byDigest epochPolicies) bracketJson
      (tableCodec recordTable) none (entryLine forgedEntry) =
        some (.ok [⟨1, true, true, true, true⟩]) ∧
    forgedRecord.audit.policyEpoch = 2 ∧ forgedRecord.decision.policyEpoch = 1 ∧
    byDigest epochPolicies forgedRecord.audit.policyEpoch forgedRecord.audit.catalogEpoch
      forgedRecord.audit.policyDigestHex = some (epochPolicy 1) ∧
    (epochPolicy 1).policyEpoch = 1 := by
  refine ⟨?_, lawful_bracketJson, legible_recordTable.lawful, readVerifiedWalInner_forgedEntry,
    ?_, rfl, rfl, byDigest_epochPolicies mem_cons_self _ _, rfl⟩
  · intro policyEpoch catalogEpoch digest policy h
    simpa using find?_some h
  · rw [replayAuditedWalWithResolver, readVerifiedWalInner_forgedEntry]
    refine verifyAuditedEntries_eq_ok_iff.2 ⟨fun entry hentry => ?_, rfl⟩
    obtain rfl := mem_singleton.1 hentry
    exact ⟨validateCanonical_forgedRecord, holds_forgedRecord⟩

end Calybris.Wal
