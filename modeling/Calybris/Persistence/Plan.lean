import Calybris.Budget.Recovered
import Calybris.Persistence.Recovery

/-!
# The recovery plan

A plan is made from a snapshot file and a log: the snapshot must be one that can be
restored, the log must be a chain, and the watermark of the snapshot must not be beyond the
head of the log. The visitor of the log counts all entries and those behind the watermark.

The chain numbers its entries from one without a gap, so the first count is the number of
the head, and the entries behind the watermark are those from the next number up to the head.
-/

namespace Calybris.Persistence

open Text Wal Budget Lines List

structure RecoveryPlan (Tenant : Type*) where
  snapshot : BudgetSnapshot Tenant
  totalWalEntries : Nat
  entriesToReplay : Nat
  /-- Zero where the snapshot has none. -/
  walHighWatermark : Nat

/-- The visitor: it counts the entries, and those behind the watermark. -/
def countEntry (high : Nat) (counts : Nat × Nat) (entry : WalEntry) : Nat × Nat :=
  (counts.1 + 1, if entry.sequence.toNat > high then counts.2 + 1 else counts.2)

section Plan

variable {Tenant : Type*} [DecidableEq Tenant] (D : Digests) (J : SerdeJson)
  (value : Bytes → Option WalEntry) (F : Formats Tenant)

/-- The log at a path, as it is visited. The key is looked at before the file is opened. -/
def visitWal (directory : Directory) (walPath : List Char) (key : Option Bytes) :
    Except (PersistenceError Tenant) ((UInt64 × Bytes) × List WalEntry) :=
  match validateKey key with
  | .error error => .error (.wal error)
  | .ok () =>
    match directory walPath with
    | none => .error .notFound
    | some bytes =>
      match visitVerifiedWalInner D J key value bytes with
      | .error error => .error (.wal error)
      | .ok visited => .ok visited

def recoveryPlanInner (directory : Directory) (snapshotPath walPath : List Char)
    (key : Option Bytes) (anchor : Option WalAnchor) :
    Except (PersistenceError Tenant) (RecoveryPlan Tenant) :=
  match directory.loadJsonBounded F.snapshot snapshotPath with
  | .error error => .error error
  | .ok snapshot =>
    match validateSnapshotForRestore snapshot with
    | .error error => .error (.restore error)
    | .ok () =>
      let high := snapshot.walHighWatermark.getD 0
      match visitWal D J value directory walPath key with
      | .error error => .error error
      | .ok (head, seen) =>
        let counts := seen.foldl (countEntry high) (0, 0)
        if high > head.1.toNat then .error (.watermarkAhead high head.1)
        else
          match anchor with
          | none => .ok ⟨snapshot, counts.1, counts.2, high⟩
          | some anchor =>
            match anchor.verifyHead head key.isSome with
            | .error error => .error (.wal error)
            | .ok _ => .ok ⟨snapshot, counts.1, counts.2, high⟩

def recoveryPlan (directory : Directory) (snapshotPath walPath : List Char) :
    Except (PersistenceError Tenant) (RecoveryPlan Tenant) :=
  recoveryPlanInner D J value F directory snapshotPath walPath none none

def recoveryPlanKeyed (directory : Directory) (snapshotPath walPath : List Char) (key : Bytes) :
    Except (PersistenceError Tenant) (RecoveryPlan Tenant) :=
  recoveryPlanInner D J value F directory snapshotPath walPath (some key) none

def recoveryPlanAgainstAnchor (directory : Directory) (snapshotPath walPath : List Char)
    (anchor : WalAnchor) : Except (PersistenceError Tenant) (RecoveryPlan Tenant) :=
  recoveryPlanInner D J value F directory snapshotPath walPath none (some anchor)

def recoveryPlanKeyedAgainstAnchor (directory : Directory) (snapshotPath walPath : List Char)
    (key : Bytes) (anchor : WalAnchor) : Except (PersistenceError Tenant) (RecoveryPlan Tenant) :=
  recoveryPlanInner D J value F directory snapshotPath walPath (some key) (some anchor)

end Plan

/-! ### The counts -/

section Counts

variable {J : SerdeJson} {value : Bytes → Option WalEntry} {ls : List Bytes}
  {seen entries : List WalEntry} {high : Nat}

/-- What a line reads as with its payload as a value has the number that it reads as with
its payload as raw text. -/
def SameSequence (J : SerdeJson) (value : Bytes → Option WalEntry) : Prop :=
  ∀ line raw typed, J.parseEntry line = some raw → value line = some typed →
    typed.sequence = raw.sequence

theorem map_sequence_of_decodes (hvalue : SameSequence J value)
    (hread : ∀ line ∈ ls, Readable J line) (h : Decodes value ls seen) :
    seen.map WalEntry.sequence = (ls.filterMap (entryOf J)).map WalEntry.sequence := by
  have hraw := (decodes_parseEntry hread _).2 rfl
  unfold Decodes at h hraw
  generalize (ls.filter fun line => !isBlank line) = lines at h hraw
  generalize ls.filterMap (entryOf J) = entries at hraw
  induction h generalizing entries with
  | nil =>
    cases hraw
    rfl
  | cons hline _ ih =>
    cases hraw with
    | cons hentry hrest =>
      rw [map_cons, map_cons, hvalue _ _ _ hentry hline, ih _ hrest]

theorem foldl_countEntry (entries : List WalEntry) (counts : Nat × Nat) :
    entries.foldl (countEntry high) counts =
      (counts.1 + entries.length,
        counts.2 + ((entries.map fun entry => entry.sequence.toNat).filter (high < ·)).length) := by
  induction entries generalizing counts with
  | nil => rfl
  | cons entry entries ih =>
    rw [foldl_cons, ih, map_cons, filter_cons]
    by_cases hlt : high < entry.sequence.toNat
    · simp only [countEntry, hlt, if_true, decide_true, length_cons]
      exact Prod.ext (by simp only; omega) (by simp only; omega)
    · simp only [countEntry, hlt, if_false, decide_false, length_cons, Bool.false_eq_true]
      exact Prod.ext (by simp only; omega) rfl

theorem filter_range' {n : Nat} (h : high ≤ n) :
    (range' 1 n).filter (high < ·) = range' (high + 1) (n - high) := by
  have hsplit : range' 1 n = range' 1 high ++ range' (high + 1) (n - high) := by
    rw [Nat.add_comm high 1, range'_append_1, Nat.add_sub_cancel' h]
  have hlow : (range' 1 high).filter (high < ·) = [] := by
    rw [filter_eq_nil_iff]
    intro k hk
    have := mem_range'_1.1 hk
    simp only [decide_eq_true_eq]
    omega
  have hhigh : (range' (high + 1) (n - high)).filter (high < ·) =
      range' (high + 1) (n - high) := by
    rw [filter_eq_self]
    intro k hk
    have := mem_range'_1.1 hk
    simp only [decide_eq_true_eq]
    omega
  rw [hsplit, filter_append, hlow, hhigh, nil_append]

end Counts

/-! ### Plans -/

section Spec

variable {Tenant : Type*} [LinearOrder Tenant] {D : Digests} {J : SerdeJson}
  {value : Bytes → Option WalEntry} {F : Formats Tenant} {directory : Directory}
  {snapshotPath walPath : List Char} {key : Option Bytes} {anchor : Option WalAnchor}

omit [LinearOrder Tenant] in
theorem visitWal_eq_ok {head : UInt64 × Bytes} {seen : List WalEntry}
    (h : visitWal D J value directory walPath key =
      (.ok (head, seen) : Except (PersistenceError Tenant) _)) :
    ∃ bytes, directory walPath = some bytes ∧ validateChainInner D J key bytes = .ok head ∧
      Decodes value (lines newline bytes) seen := by
  unfold visitWal at h
  split at h
  · cases h
  · split at h
    · cases h
    · next bytes hbytes =>
      split at h
      · cases h
      · next visited hvisit =>
        cases h
        exact ⟨bytes, hbytes, visitVerifiedWalInner_eq_ok_iff_decodes.1 hvisit⟩

theorem recoveryPlanInner_eq_ok {plan : RecoveryPlan Tenant}
    (h : recoveryPlanInner D J value F directory snapshotPath walPath key anchor = .ok plan) :
    directory.loadJsonBounded F.snapshot snapshotPath =
        (.ok plan.snapshot : Except (PersistenceError Tenant) _) ∧
      validateSnapshotForRestore plan.snapshot = .ok () ∧
      plan.walHighWatermark = plan.snapshot.walHighWatermark.getD 0 ∧
      ∃ head seen, visitWal D J value directory walPath key =
          (.ok (head, seen) : Except (PersistenceError Tenant) _) ∧
        plan.walHighWatermark ≤ head.1.toNat ∧
        (plan.totalWalEntries, plan.entriesToReplay) =
          seen.foldl (countEntry plan.walHighWatermark) (0, 0) ∧
        ∀ a ∈ anchor, head = (a.sequence, a.lastHash) := by
  unfold recoveryPlanInner at h
  split at h
  · cases h
  · next snapshot hload =>
    split at h
    · cases h
    · next hvalid =>
      dsimp only at h
      split at h
      · cases h
      · next head seen hvisit =>
        split at h
        · cases h
        · next hle =>
          split at h
          · cases h
            exact ⟨hload, hvalid, rfl, head, seen, hvisit, not_lt.1 hle, rfl, by simp⟩
          · next a =>
            split at h
            · cases h
            · next found hhead =>
              cases h
              refine ⟨hload, hvalid, rfl, head, seen, hvisit, not_lt.1 hle, rfl, ?_⟩
              intro b hb
              cases hb
              exact verifyHead_eq_ok hhead

theorem counts_of_chain {bytes : Bytes} {head : UInt64 × Bytes} {seen : List WalEntry} {high : Nat}
    (hvalue : SameSequence J value) (hchain : validateChainInner D J key bytes = .ok head)
    (hdecodes : Decodes value (lines newline bytes) seen) (hle : high ≤ head.1.toNat) :
    (seen.foldl (countEntry high) (0, 0)).1 = head.1.toNat ∧
      (seen.foldl (countEntry high) (0, 0)).2 = head.1.toNat - high ∧
      ((entriesOf J bytes).map fun entry => entry.sequence.toNat).filter (high < ·) =
        range' (high + 1) (head.1.toNat - high) := by
  obtain ⟨-, hfollows, hcount, -⟩ := head_of_validateChainInner hchain
  have hsame := map_sequence_of_decodes hvalue (readable_of_validateChainInner hchain) hdecodes
  have hlength : (entriesOf J bytes).length = head.1.toNat := by
    rw [hcount, payloadsOf, length_map]
  have hentries : (entriesOf J bytes).map (fun entry => entry.sequence.toNat) =
      range' 1 head.1.toNat := by
    rw [map_sequence_of_follows hfollows, hlength]
    rfl
  have hseen : seen.map (fun entry => entry.sequence.toNat) = range' 1 head.1.toNat := by
    have hmap := congrArg (map UInt64.toNat) hsame
    rw [map_map, map_map] at hmap
    exact hmap.trans hentries
  have hlength' : seen.length = head.1.toNat := by
    have h := congrArg length hseen
    rwa [length_map, length_range'] at h
  rw [foldl_countEntry, hseen, hentries, filter_range' hle]
  refine ⟨?_, ?_, rfl⟩
  · simp only [hlength', Nat.zero_add]
  · simp only [length_range', Nat.zero_add]

/-- A plan is made for a snapshot that an engine takes, on a chain that reaches the
watermark: it counts all entries of the chain, and those behind the watermark, which have
the numbers from the next one up to the head. The head is that of the anchor where there is
one. A watermark beyond the head is refused. -/
theorem recoveryPlanInner_spec (hvalue : SameSequence J value) (F : Formats Tenant)
    (directory : Directory) (snapshotPath walPath : List Char) (key : Option Bytes)
    (anchor : Option WalAnchor) :
    (∀ plan, recoveryPlanInner D J value F directory snapshotPath walPath key anchor = .ok plan →
      directory.loadJsonBounded F.snapshot snapshotPath =
        (.ok plan.snapshot : Except (PersistenceError Tenant) _) ∧
      plan.snapshot.Restorable ∧
      (∀ e registry, (Engine.restore e registry plan.snapshot).1 = .ok ()) ∧
      plan.walHighWatermark = plan.snapshot.walHighWatermark.getD 0 ∧
      ∃ bytes head, directory walPath = some bytes ∧
        validateChainInner D J key bytes = .ok head ∧
        plan.walHighWatermark ≤ head.1.toNat ∧
        plan.totalWalEntries = head.1.toNat ∧
        plan.entriesToReplay = head.1.toNat - plan.walHighWatermark ∧
        ((entriesOf J bytes).map fun entry => entry.sequence.toNat).filter
          (plan.walHighWatermark < ·) =
            range' (plan.walHighWatermark + 1) (head.1.toNat - plan.walHighWatermark) ∧
        ∀ a ∈ anchor, head = (a.sequence, a.lastHash)) ∧
    ∀ (snapshot : BudgetSnapshot Tenant) bytes head,
      directory.loadJsonBounded F.snapshot snapshotPath =
        (.ok snapshot : Except (PersistenceError Tenant) _) →
      directory walPath = some bytes → validateChainInner D J key bytes = .ok head →
      head.1.toNat < snapshot.walHighWatermark.getD 0 →
        ∃ error, recoveryPlanInner D J value F directory snapshotPath walPath key anchor =
          .error error := by
  constructor
  · intro plan h
    obtain ⟨hload, hvalid, hhigh, head, seen, hvisit, hle, hcounts, hanchor⟩ :=
      recoveryPlanInner_eq_ok h
    obtain ⟨bytes, hbytes, hchain, hdecodes⟩ := visitWal_eq_ok hvisit
    obtain ⟨htotal, hreplay, hnumbers⟩ := counts_of_chain hvalue hchain hdecodes hle
    refine ⟨hload, restorable_of_validateSnapshotForRestore hvalid,
      fun e registry => Engine.restore_eq_ok_iff_validate.2 hvalid, hhigh, bytes, head, hbytes,
      hchain, hle, ?_, ?_, hnumbers, hanchor⟩
    · exact (congrArg Prod.fst hcounts).trans htotal
    · exact (congrArg Prod.snd hcounts).trans hreplay
  · intro snapshot bytes head hload hbytes hchain hlt
    cases hplan : recoveryPlanInner D J value F directory snapshotPath walPath key anchor with
    | error error => exact ⟨error, rfl⟩
    | ok plan =>
      obtain ⟨hload', -, hhigh, head', seen, hvisit, hle, -⟩ := recoveryPlanInner_eq_ok hplan
      obtain ⟨bytes', hbytes', hchain', -⟩ := visitWal_eq_ok hvisit
      obtain rfl := Except.ok.inj (hload.symm.trans hload')
      obtain rfl := Option.some.inj (hbytes.symm.trans hbytes')
      obtain rfl := Except.ok.inj (hchain.symm.trans hchain')
      omega

end Spec

/-! ### A log of two entries -/

def markedSnapshot (watermark : Nat) : BudgetSnapshot Unit :=
  ⟨9223372036854775810, [⟨(), 9, 9, 0, 0⟩], 0, some watermark⟩

def markedSnapshotText (watermark : String) : Bytes :=
  deskSnapshotText "9223372036854775810" watermark

def markedFormats : Formats Unit :=
  { deskFormats with
    snapshot := .ofTable [(markedSnapshot 1, markedSnapshotText "1"),
      (markedSnapshot 3, markedSnapshotText "3")] }

/-- A log of two entries, a snapshot with the boundary at the first and one with a boundary
that the log does not reach. -/
def markedDirectory : Directory := fun name =>
  if name = "snapshot.json".toList then some (markedSnapshotText "1")
  else if name = "ahead.json".toList then some (markedSnapshotText "3")
  else if name = "decisions.wal".toList then some twoLog.bytes
  else none

theorem load_markedDirectory :
    markedDirectory.loadJsonBounded markedFormats.snapshot "snapshot.json".toList =
        (.ok (markedSnapshot 1) : Except (PersistenceError Unit) _) ∧
      markedDirectory.loadJsonBounded markedFormats.snapshot "ahead.json".toList =
        (.ok (markedSnapshot 3) : Except (PersistenceError Unit) _) := by
  constructor <;> decide +kernel

theorem validateChainInner_twoLog : validateChainInner numberDigests numberJson none twoLog.bytes =
    .ok (twoWriter.sequence, twoWriter.lastHash) := by
  simp only [validateChainInner, validateKey, validateChainReader, forEachLine_eq_foldlM]
  decide +kernel

theorem recoveryPlanInner_spec_marked :
    (∃ plan, recoveryPlanAgainstAnchor numberDigests numberJson numberJson.parseEntry markedFormats
        markedDirectory "snapshot.json".toList "decisions.wal".toList twoWriter.anchor = .ok plan ∧
      plan.snapshot.Restorable ∧ plan.walHighWatermark = 1 ∧ plan.totalWalEntries = 2 ∧
      plan.entriesToReplay = 1) ∧
    ∃ error, recoveryPlan numberDigests numberJson numberJson.parseEntry markedFormats
      markedDirectory "ahead.json".toList "decisions.wal".toList = .error error := by
  have hvalue : SameSequence numberJson numberJson.parseEntry := by
    intro line raw typed hraw htyped
    rw [Option.some.inj (htyped.symm.trans hraw)]
  have hwal : markedDirectory "decisions.wal".toList = some twoLog.bytes := rfl
  have hentries : entriesOf numberJson twoLog.bytes = [oneEntry, twoEntry] := by decide +kernel
  have hvisit : visitWal numberDigests numberJson numberJson.parseEntry markedDirectory
      "decisions.wal".toList none =
        (.ok ((twoWriter.sequence, twoWriter.lastHash), [oneEntry, twoEntry]) :
          Except (PersistenceError Unit) _) := by
    simp only [visitWal, validateKey, hwal,
      visitVerifiedWalInner_eq_ok_iff.2 ⟨validateChainInner_twoLog, hentries.symm⟩]
  have hplan : recoveryPlanAgainstAnchor numberDigests numberJson numberJson.parseEntry
      markedFormats markedDirectory "snapshot.json".toList "decisions.wal".toList twoWriter.anchor =
        .ok ⟨markedSnapshot 1, 2, 1, 1⟩ := by
    simp only [recoveryPlanAgainstAnchor, recoveryPlanInner, load_markedDirectory.1, hvisit]
    rfl
  obtain ⟨hspec, -⟩ := recoveryPlanInner_spec (D := numberDigests) hvalue markedFormats
    markedDirectory "snapshot.json".toList "decisions.wal".toList none (some twoWriter.anchor)
  obtain ⟨-, hrefused⟩ := recoveryPlanInner_spec (D := numberDigests) hvalue markedFormats
    markedDirectory "ahead.json".toList "decisions.wal".toList none none
  obtain ⟨-, hrestorable, -⟩ := hspec _ hplan
  exact ⟨⟨_, hplan, hrestorable, rfl, rfl, rfl⟩, hrefused _ _ _ load_markedDirectory.2 hwal
    validateChainInner_twoLog (by decide)⟩

end Calybris.Persistence
