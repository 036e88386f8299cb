import Calybris.Wal.Collision
import Calybris.Wal.Log

/-!
# Logs that were cut

A crash or a truncation leaves the first bytes of a log. They are some whole lines and
the beginning of the next one. A beginning that is not empty reads as an entry only if
it is the line without its newline: what is missing otherwise ends in a brace, and
nothing but whitespace may follow an entry. So the reader refuses a cut log, or returns
the first entries of the log.
-/

namespace Calybris

open List

namespace Lines

/-- The first elements of a list of lines are whole lines and the beginning of the next. -/
theorem exists_take_flatten {α : Type*} (ls : List (List α)) (k : Nat) :
    ls.flatten.take k = ls.flatten ∨
      ∃ ls₁ l ls₂ p q, ls = ls₁ ++ l :: ls₂ ∧ l = p ++ q ∧ q ≠ [] ∧
        ls.flatten.take k = ls₁.flatten ++ p := by
  induction ls generalizing k with
  | nil => exact .inl (by simp)
  | cons l ls ih =>
    by_cases hk : k < l.length
    · refine .inr ⟨[], l, ls, l.take k, l.drop k, rfl, (take_append_drop k l).symm, ?_, ?_⟩
      · simpa using hk
      · rw [flatten_cons, take_append_of_le_length hk.le]
        rfl
    · have htake : (l :: ls).flatten.take k = l ++ ls.flatten.take (k - l.length) := by
        rw [flatten_cons, take_append, take_of_length_le (by omega)]
      rcases ih (k - l.length) with heq | ⟨ls₁, l', ls₂, p, q, hls, hl', hq, heq⟩
      · exact .inl (by rw [htake, heq, flatten_cons])
      · refine .inr ⟨l :: ls₁, l', ls₂, p, q, by rw [hls]; rfl, hl', hq, ?_⟩
        rw [htake, heq, flatten_cons, append_assoc]

end Lines

namespace Wal

open Text Note Lines Transition

structure WalEntry.Clean (J : SerdeJson) (entry : WalEntry) : Prop where
  plain : entry.Plain
  isValue : J.IsValue entry.data
  newline_notMem : newline ∉ entry.data

section Cut

variable {D : Digests} {J : SerdeJson} {key : Option Bytes} {entry : WalEntry}
  {entries : List WalEntry}

theorem lines_append_entryLine (h : entry.Clean J) (rest : Bytes) :
    lines newline (entryLine entry ++ rest) = entryLine entry :: lines newline rest := by
  have hno := mt (newline_mem_entryText_iff h.plain).1 h.newline_notMem
  have hline : Terminated newline (entryLine entry) := .inr ⟨entryText entry, rfl⟩
  rw [lines_append hline, entryLine, lines_append_nl hno]
  rfl

theorem lines_flatten_entryLine (h : ∀ entry ∈ entries, entry.Clean J) (rest : Bytes) :
    lines newline ((entries.map entryLine).flatten ++ rest) =
      entries.map entryLine ++ lines newline rest := by
  induction entries with
  | nil => rfl
  | cons entry entries ih =>
    obtain ⟨hentry, hentries⟩ := forall_mem_cons.1 h
    rw [map_cons, flatten_cons, append_assoc, lines_append_entryLine hentry, ih hentries]
    rfl

theorem filterMap_entryOf_map_entryLine (hJ : J.Lawful) (h : ∀ entry ∈ entries, entry.Clean J) :
    (entries.map entryLine).filterMap (entryOf J) = entries := by
  induction entries with
  | nil => rfl
  | cons entry entries ih =>
    obtain ⟨hentry, hentries⟩ := forall_mem_cons.1 h
    have hread : entryOf J (entryLine entry) = some entry :=
      entryOf_append_entryLine (t := []) hJ (by simp) hentry.plain hentry.isValue
    rw [map_cons, filterMap_entryOf_cons, hread, ih hentries]
    rfl

theorem exists_entryText_eq {p q : Bytes} (hsplit : entryLine entry = p ++ q) (hq : q ≠ []) :
    ∃ rest, entryText entry = p ++ rest := by
  have hlast : q.getLast? = some newline := by
    have := congrArg List.getLast? hsplit
    rwa [entryLine, getLast?_concat, getLast?_append_of_ne_nil _ hq, eq_comm] at this
  obtain ⟨rest, rfl⟩ := getLast?_eq_some_iff.1 hlast
  rw [entryLine, ← append_assoc] at hsplit
  exact ⟨rest, append_cancel_right hsplit⟩

theorem eq_entryText_of_readable (hJ : J.Lawful) (h : entry.Clean J) {p rest : Bytes}
    (hsplit : entryText entry = p ++ rest) (hp : p ≠ []) (hread : Readable J p) :
    p = entryText entry := by
  have hmem : (0x7b : UInt8) ∈ p := by
    obtain ⟨text, hbrace⟩ := entryText_eq_cons entry
    cases p with
    | nil => exact absurd rfl hp
    | cons b p =>
      rw [hbrace] at hsplit
      rw [(List.cons.inj hsplit).1]
      exact mem_cons_self
  have hsome : (J.parseEntry p).isSome := by
    rcases hread.2 with hblank | hsome
    · rw [isBlank_of_brace_mem hmem] at hblank
      cases hblank
    · exact hsome
  obtain ⟨entry', hentry'⟩ := Option.isSome_iff_exists.1 hsome
  have hwhole : J.parseEntry (p ++ rest) = some entry := by
    rw [← hsplit]
    exact hJ.parse_entryText entry h.plain h.isValue
  have hspace := hJ.whitespace_of_parse p rest entry' entry hentry' hwhole
  -- what is missing would end in the closing brace
  by_cases hrest : rest = []
  · rw [hsplit, hrest, append_nil]
  · obtain ⟨text, htext⟩ := entryText_eq_append entry
    have hlast : rest.getLast? = some 0x7d := by
      have := congrArg List.getLast? (hsplit.symm.trans htext)
      rwa [getLast?_append_of_ne_nil _ hrest, ← append_assoc, getLast?_concat] at this
    have hbrace := hspace 0x7d (mem_of_getLast? hlast)
    exact absurd hbrace (by decide)

theorem entriesOf_take (hJ : J.Lawful) (h : ∀ entry ∈ entries, entry.Clean J) (k : Nat)
    (hread : ∀ line ∈ lines newline ((entries.map entryLine).flatten.take k), Readable J line) :
    entriesOf J ((entries.map entryLine).flatten.take k) <+: entries := by
  rcases exists_take_flatten (entries.map entryLine) k with heq | hcut
  · have hlines := lines_flatten_entryLine h []
    rw [append_nil, lines_nil, append_nil] at hlines
    rw [heq, entriesOf, hlines, filterMap_entryOf_map_entryLine hJ h]
  · obtain ⟨ls₁, l, ls₂, p, q, hls, hl, hq, heq⟩ := hcut
    obtain ⟨entries₁, entries', rfl, rfl, hrest⟩ := map_eq_append_iff.1 hls
    obtain ⟨entry, entries₂, rfl, rfl, -⟩ := map_eq_cons_iff.1 hrest
    have h₁ : ∀ entry ∈ entries₁, entry.Clean J := fun e he => h e (mem_append_left _ he)
    have hentry : entry.Clean J := h entry (by simp)
    have hlines := lines_flatten_entryLine h₁ p
    rw [heq] at hread ⊢
    rw [entriesOf, hlines, filterMap_append, filterMap_entryOf_map_entryLine hJ h₁]
    by_cases hp : p = []
    · subst hp
      simp
    · obtain ⟨rest, htext⟩ := exists_entryText_eq hl hq
      have hno : newline ∉ p := by
        intro hmem
        refine hentry.newline_notMem ((newline_mem_entryText_iff hentry.plain).1 ?_)
        rw [htext]
        exact mem_append_left _ hmem
      have hmem : p ∈ lines newline ((entries₁.map entryLine).flatten ++ p) := by
        rw [hlines, lines_of_notMem hno hp]
        simp
      have hp' := eq_entryText_of_readable hJ hentry htext hp (hread p hmem)
      have hlast : entryOf J p = some entry := by
        obtain ⟨text, hbrace⟩ := entryText_eq_cons entry
        rw [hp', entryOf, isBlank_of_brace_mem (by simp [hbrace]), if_neg (by decide)]
        exact hJ.parse_entryText entry hentry.plain hentry.isValue
      rw [lines_of_notMem hno hp, filterMap_cons_some hlast, filterMap_nil]
      exact ⟨entries₂, by simp⟩

end Cut

section Checks

variable (D : Digests) (J : SerdeJson) (bytes : Bytes) (anchor : WalAnchor)

def verifyAgainstAnchor : Option Bytes → Except WalError (UInt64 × Bytes)
  | none => verifyWalAgainstAnchor D J bytes anchor
  | some key => verifyWalKeyedAgainstAnchor D J bytes key anchor

variable {D J bytes anchor}

theorem head_of_verifyAgainstAnchor {key : Option Bytes} {head : UInt64 × Bytes}
    (h : verifyAgainstAnchor D J bytes anchor key = .ok head) :
    validateChainInner D J key bytes = .ok (anchor.sequence, anchor.lastHash) := by
  cases key with
  | none => exact head_of_verifyWalAgainstAnchor h
  | some key =>
    rw [verifyAgainstAnchor, verifyWalKeyedAgainstAnchor] at h
    cases hverify : validateChainInner D J (some key) bytes with
    | error error =>
      rw [hverify] at h
      cases h
    | ok found =>
      rw [hverify] at h
      rw [verifyHead_eq_ok h]

end Checks

namespace Log

structure Recorded (J : SerdeJson) (log : Log) : Prop where
  written : log.written = (entriesOf J log.file.bytes).map entryLine
  clean : ∀ entry ∈ entriesOf J log.file.bytes, entry.Clean J

variable {D : Digests} {J : SerdeJson} {key : Option Bytes} {log log' : Log}
  {events : List (LogEvent J)}

theorem recorded_create (h : create D J key = .ok log) : Recorded J log := by
  rw [create] at h
  split at h
  · cases h
  · cases h
    exact ⟨rfl, by simp [entriesOf, WalFile.empty]⟩

theorem recorded_step {event : LogEvent J} (hJ : J.Lawful) (hinv : Inv D J key log)
    (hrec : Recorded J log) (h : log.step D J key event = some log') : Recorded J log' := by
  rcases step_cases h with ⟨payload, entry, writer, file, happend, rfl⟩ | ⟨writer, rfl, -⟩
  · obtain ⟨s, hs⟩ := hinv.stands
    obtain ⟨-, hentries, hplain, hvalue, hno⟩ := hs.append_payload payload hJ hinv.ended happend
    constructor
    · rw [hentries, map_append, ← hrec.written]
      rfl
    · rw [hentries, forall_mem_append, forall_mem_singleton]
      exact ⟨hrec.clean, hplain, hvalue, hno⟩
  · exact ⟨hrec.written, hrec.clean⟩

theorem inv_of_run {start : Log} (hJ : J.Lawful) (hcreate : create D J key = .ok start)
    (hrun : run (step D J key) start events = some log) : Inv D J key log ∧ Recorded J log :=
  run_invariant (I := fun log => Inv D J key log ∧ Recorded J log)
    (fun h hstep => ⟨inv_step hJ h.1 hstep, recorded_step hJ h.1 h.2 hstep⟩)
    ⟨inv_create hcreate, recorded_create hcreate⟩ hrun

theorem readVerifiedWalInner_of_decodes (hinv : Inv D J key log) (hrec : Recorded J log)
    {β : Type} {decode : Bytes → Option β} {typed : List β}
    (h : Decodes decode ((entriesOf J log.file.bytes).map entryLine) typed) :
    readVerifiedWalInner D J key decode log.file.bytes = .ok typed := by
  obtain ⟨hread, -⟩ := readVerifiedWalInner_of_inv hinv
  obtain ⟨hvalid, -⟩ := readVerifiedWalInner_eq_ok_iff.1 hread
  have hlines : lines newline log.file.bytes = (entriesOf J log.file.bytes).map entryLine := by
    have hflat := lines_flatten_entryLine hrec.clean []
    rw [← hrec.written, ← hinv.written, append_nil, lines_nil, append_nil] at hflat
    rw [hflat, hrec.written]
  exact readVerifiedWalInner_eq_ok_iff_decodes.2 ⟨hvalid, hlines ▸ h⟩

theorem entriesOf_take_isPrefix (hJ : J.Lawful) (hinv : Inv D J key log) (hrec : Recorded J log)
    {k : Nat} {head : UInt64 × Bytes}
    (h : validateChainInner D J key (log.file.bytes.take k) = .ok head) :
    entriesOf J (log.file.bytes.take k) <+: entriesOf J log.file.bytes := by
  have hread := readable_of_validateChainInner h
  have hfile : log.file.bytes = ((entriesOf J log.file.bytes).map entryLine).flatten := by
    rw [← hrec.written]
    exact hinv.written
  have hcut := entriesOf_take hJ hrec.clean k
  rw [← hfile] at hcut
  exact hcut hread

theorem entriesOf_take_eq (hJ : J.Lawful) (hinv : Inv D J key log) (hrec : Recorded J log)
    {k : Nat} {head : UInt64 × Bytes}
    (h : validateChainInner D J key (log.file.bytes.take k) = .ok head)
    (hle : log.writer.sequence.toNat ≤ (entriesOf J (log.file.bytes.take k)).length) :
    entriesOf J (log.file.bytes.take k) = entriesOf J log.file.bytes := by
  obtain ⟨s, hs⟩ := hinv.stands
  have hcut := entriesOf_take_isPrefix hJ hinv hrec h
  refine hcut.eq_of_length_le ?_
  rwa [← hs.sequence_toNat.2]

/-- However a log is cut, the reader refuses it or returns the first of its entries, and
a check against the anchor of the log succeeds only where none is missing. -/
theorem readVerifiedWalInner_take {start : Log} (hJ : J.Lawful)
    (hcreate : create D J key = .ok start) (hrun : run (step D J key) start events = some log) :
    ∃ entries, readVerifiedWalInner D J key J.parseEntry log.file.bytes = .ok entries ∧
      entries.map WalEntry.data = log.texts ∧ entries.map entryLine = log.written ∧
      ∀ k,
        (∀ found, readVerifiedWalInner D J key J.parseEntry (log.file.bytes.take k) = .ok found →
          found <+: entries) ∧
        (∀ head, verifyAgainstAnchor D J (log.file.bytes.take k) log.writer.anchor key = .ok head →
          readVerifiedWalInner D J key J.parseEntry (log.file.bytes.take k) = .ok entries) ∧
        ∀ head, verifyWalContainsAnchorInner D J key (log.file.bytes.take k) log.writer.anchor =
            .ok head →
          readVerifiedWalInner D J key J.parseEntry (log.file.bytes.take k) = .ok entries := by
  obtain ⟨hinv, hrec⟩ := inv_of_run hJ hcreate hrun
  obtain ⟨s, hs⟩ := hinv.stands
  refine ⟨_, (readVerifiedWalInner_of_inv hinv).1, hinv.texts, hrec.written.symm, fun k => ?_⟩
  refine ⟨fun found hfound => ?_, fun head hhead => ?_, fun head hhead => ?_⟩
  · obtain ⟨⟨head, hvalid⟩, rfl⟩ := readVerifiedWalInner_eq_ok_iff.1 hfound
    exact entriesOf_take_isPrefix hJ hinv hrec hvalid
  · have hvalid := head_of_verifyAgainstAnchor hhead
    obtain ⟨-, -, hcount, -⟩ := head_of_validateChainInner hvalid
    rw [payloadsOf, length_map] at hcount
    refine readVerifiedWalInner_eq_ok_iff.2 ⟨⟨_, hvalid⟩, ?_⟩
    exact (entriesOf_take_eq hJ hinv hrec hvalid hcount.le).symm
  · obtain ⟨hvalid, hle, -⟩ := verifyWalContainsAnchorInner_eq_ok hhead
    refine readVerifiedWalInner_eq_ok_iff.2 ⟨⟨_, hvalid⟩, ?_⟩
    exact (entriesOf_take_eq hJ hinv hrec hvalid hle).symm

/-- The log of one and two, cut behind one, and with its last newline lost. -/
theorem readVerifiedWalInner_take_twoLog :
    ∃ entries, readVerifiedWalInner numberDigests numberJson none numberJson.parseEntry
        twoLog.bytes = .ok entries ∧ [oneEntry] <+: entries ∧
      readVerifiedWalInner numberDigests numberJson none numberJson.parseEntry
        (twoLog.bytes.take (twoLog.bytes.length - 1)) = .ok entries := by
  obtain ⟨entries, hread, -, -, hcut⟩ :=
    readVerifiedWalInner_take lawful_numberJson create_number run_number
  have hone : readVerifiedWalInner numberDigests numberJson none numberJson.parseEntry
      (twoLog.bytes.take oneLog.bytes.length) = .ok [oneEntry] := by
    simp only [readVerifiedWalInner, visitVerifiedWalInner, forEachLine_eq_foldlM]
    decide +kernel
  have htwo : verifyAgainstAnchor numberDigests numberJson
      (twoLog.bytes.take (twoLog.bytes.length - 1)) twoWriter.anchor none =
        .ok (2, twoWriter.lastHash) := by
    simp only [verifyAgainstAnchor, verifyWalAgainstAnchor, verifyWal, validateChainInner,
      validateChainReader, forEachLine_eq_foldlM]
    decide +kernel
  exact ⟨entries, hread, (hcut oneLog.bytes.length).1 _ hone,
    (hcut (twoLog.bytes.length - 1)).2.1 _ htwo⟩

end Log

end Wal

end Calybris
