import Calybris.Wal.Json
import Calybris.Wal.Verified

/-!
# Appending to what was opened

A writer takes over the head of a file that the reader accepts, and writes behind its
last byte. Where the file does not end in a newline, the new line continues the last one:
after an entry the reader then finds a text it does not accept.
-/

namespace Calybris.Wal

open Text Note Lines List WalWriter

/-! ### The written line -/

section Line

variable {entry : WalEntry}

theorem entryText_eq_cons (entry : WalEntry) : ∃ text, entryText entry = 0x7b :: text := by
  have hbrace : literal "\x7b\"sequence\":" = 0x7b :: literal "\"sequence\":" := by decide
  rw [entryText, hbrace]
  exact ⟨_, rfl⟩

theorem entryText_eq_append (entry : WalEntry) : ∃ text,
    entryText entry = text ++ (entry.data ++ [0x7d]) := by
  have hbrace : literal "\x7d" = [0x7d] := by decide
  refine ⟨literal "\x7b\"sequence\":" ++ (utf8 (decimal entry.sequence.toNat) ++
    (literal ",\"previous_hash\":\"" ++ (entry.previousHash ++
      (literal "\",\"entry_hash\":\"" ++ (entry.entryHash ++ literal "\",\"data\":"))))), ?_⟩
  simp only [entryText, hbrace, append_assoc]

theorem newline_mem_entryText_iff (hplain : entry.Plain) :
    newline ∈ entryText entry ↔ newline ∈ entry.data := by
  have h1 : newline ∉ literal "\x7b\"sequence\":" := by decide
  have h2 : newline ∉ literal ",\"previous_hash\":\"" := by decide
  have h3 : newline ∉ literal "\",\"entry_hash\":\"" := by decide
  have h4 : newline ∉ literal "\",\"data\":" := by decide
  have h5 : newline ∉ literal "\x7d" := by decide
  have hhash : ∀ h : Bytes, (∀ b ∈ h, isPlainByte b = true) → newline ∉ h := by
    intro h hh hmem
    exact absurd (hh _ hmem) (by decide)
  have hdecimal : newline ∉ utf8 (decimal entry.sequence.toNat) := by
    intro hmem
    have := toNat_of_mem_utf8_decimal hmem
    revert this
    decide
  simp only [entryText, mem_append, h1, h2, h3, h4, h5, hdecimal,
    hhash _ hplain.previousHash, hhash _ hplain.entryHash, false_or, or_false]

/-- Around the payload a line has at most 205 bytes, so a payload within its limit makes
a line within the limit of the reader. -/
theorem length_entryLine_le (hprevious : entry.previousHash.length ≤ 64)
    (hentry : entry.entryHash.length ≤ 64) (hdata : entry.data.length ≤ maxWalPayloadBytes) :
    (entryLine entry).length ≤ maxWalEntryBytes := by
  have h1 : (literal "\x7b\"sequence\":").length = 12 := by decide
  have h2 : (literal ",\"previous_hash\":\"").length = 18 := by decide
  have h3 : (literal "\",\"entry_hash\":\"").length = 16 := by decide
  have h4 : (literal "\",\"data\":").length = 9 := by decide
  have h5 : (literal "\x7d").length = 1 := by decide
  have hdecimal := length_utf8_decimal_le (n := entry.sequence.toNat) (k := 20) (by omega)
    (by have := entry.sequence.toNat_lt; omega)
  simp only [entryLine, entryText, length_append, h1, h2, h3, h4, h5, length_singleton]
  unfold maxWalPayloadBytes at hdata
  unfold maxWalEntryBytes at hdata ⊢
  omega

end Line

/-! ### What an append does -/

section Serialize

variable {writer : LimitedWriter} {chunks : List Bytes} {payload : Serialization} {text : Bytes}

theorem LimitedWriter.inner_writeChunks (hlimit : writer.inner.length ≤ writer.limit)
    (h : (writer.writeChunks chunks).exceeded = false) :
    (writer.writeChunks chunks).inner = writer.inner ++ chunks.flatten ∧
      (writer.writeChunks chunks).inner.length ≤ writer.limit := by
  induction chunks generalizing writer with
  | nil => simpa [LimitedWriter.writeChunks] using hlimit
  | cons chunk chunks ih =>
    simp only [LimitedWriter.writeChunks] at h ⊢
    by_cases hexceeded : (writer.write chunk).exceeded = true
    · rw [if_pos hexceeded, hexceeded] at h
      cases h
    · rw [if_neg hexceeded] at h ⊢
      have hroom : ¬ chunk.length > writer.limit - writer.inner.length := by
        intro hlt
        exact hexceeded (by rw [LimitedWriter.write, if_pos hlt])
      have hwrite : writer.write chunk = { writer with inner := writer.inner ++ chunk } :=
        if_neg hroom
      have hfits : (writer.inner ++ chunk).length ≤ writer.limit := by
        rw [length_append]
        omega
      rw [hwrite] at h ⊢
      obtain ⟨hinner, hle⟩ := ih hfits h
      exact ⟨by simpa [append_assoc] using hinner, hle⟩

theorem serialize_eq_ok (h : serialize payload = .ok text) :
    text = payload.text ∧ text.length ≤ maxWalPayloadBytes := by
  simp only [serialize] at h
  split at h
  · cases h
  · next hexceeded =>
    split at h
    · cases h
    · split at h
      · cases h
        exact LimitedWriter.inner_writeChunks (Nat.zero_le _) (by simpa using hexceeded)
      · cases h

theorem validateUTF8_of_serialize (h : serialize payload = .ok text) :
    payload.fails = false ∧ ByteArray.validateUTF8 ⟨text.toArray⟩ = true := by
  simp only [serialize] at h
  split at h
  · cases h
  · split at h
    · cases h
    · next hfails =>
      split at h
      · next hvalid =>
        cases h
        exact ⟨by simpa using hfails, hvalid⟩
      · cases h

theorem serialize_singleton (hlength : text.length ≤ maxWalPayloadBytes)
    (hvalid : ∃ chars, text = utf8 chars) : serialize ⟨[text], false⟩ = .ok text := by
  simp [serialize, LimitedWriter.writeChunks, LimitedWriter.write, LimitedWriter.new,
    Nat.not_lt.2 hlength, validateUTF8_iff.2 hvalid]

end Serialize

section Append

variable {D : Digests} {J : SerdeJson} {writer writer' : WalWriter} {file file' : WalFile}
  {failsAfter : Option Nat} {payload : Serialization} {entry : WalEntry}

namespace WalWriter

theorem nextEntry_eq_ok (h : writer.nextEntry D payload = .ok entry) :
    entry.sequence.toNat = writer.sequence.toNat + 1 ∧ entry.previousHash = writer.lastHash ∧
      serialize payload = .ok entry.data ∧
      computeHash D writer.hmacKey writer.lastHash entry.data = .ok entry.entryHash := by
  unfold nextEntry at h
  split at h
  · cases h
  · split at h
    · cases h
    · next nextSequence hadd =>
      split at h
      · cases h
      · next dataJson hserialize =>
        split at h
        · cases h
        · next entryHash hhash =>
          cases h
          obtain ⟨hsequence, hlt⟩ := Machine.checkedAdd_eq_some hadd
          have hone : (1 : UInt64).toNat = 1 := rfl
          refine ⟨?_, rfl, hserialize, hhash⟩
          rw [hsequence, UInt64.toNat_add, hone, Nat.mod_eq_of_lt (by rwa [hone] at hlt)]

theorem data_of_nextEntry (h : writer.nextEntry D payload = .ok entry) :
    entry.data = payload.text ∧ entry.data.length ≤ maxWalPayloadBytes :=
  serialize_eq_ok (nextEntry_eq_ok h).2.2.1

theorem append_eq_ok (h : writer.append D file failsAfter payload = (.ok entry, writer', file')) :
    writer.nextEntry D payload = .ok entry ∧
      file'.bytes = file.bytes ++ entryLine entry ∧
      writer' = { writer with sequence := entry.sequence, lastHash := entry.entryHash } := by
  simp only [append] at h
  split at h
  · cases h
  · next entry' hnext =>
    split at h
    · next hwritten =>
      obtain ⟨hentry, hrest⟩ := Prod.mk.inj h
      cases hrest
      cases hentry
      exact ⟨hnext, WalFile.bytes_writeAll hwritten, rfl⟩
    · cases h

end WalWriter

end Append

/-! ### Reading behind a tail -/

section Tail

variable {D : Digests} {J : SerdeJson} {key : Option Bytes} {t x : Bytes} {entry : WalEntry}

theorem isBlank_of_brace_mem (h : (0x7b : UInt8) ∈ x) : isBlank x = false := by
  rw [isBlank, all_eq_false]
  exact ⟨_, h, by decide⟩

theorem isBlank_entryLine (entry : WalEntry) : isBlank (entryLine entry) = false := by
  obtain ⟨text, htext⟩ := entryText_eq_cons entry
  exact isBlank_of_brace_mem (by rw [entryLine, htext]; exact mem_cons_self)

theorem Decodes.entryLine_cons {β : Type} {decode : Bytes → Option β} {ls : List Bytes}
    {seen : List β} {y : β} (h : Decodes decode ls seen)
    (hentry : decode (entryLine entry) = some y) :
    Decodes decode (entryLine entry :: ls) (y :: seen) := by
  rw [Decodes, filter_cons, isBlank_entryLine]
  exact .cons hentry h

theorem parseEntry_append (hJ : J.Lawful) (ht : ∀ b ∈ t, isJsonWhitespace b = true) :
    J.parseEntry (t ++ x) = J.parseEntry x := by
  induction t with
  | nil => rfl
  | cons b t ih =>
    rw [cons_append, hJ.parse_whitespace_cons b _ (ht b mem_cons_self)]
    exact ih fun c hc => ht c (mem_cons_of_mem _ hc)

theorem parseEntry_append_of_blank (hJ : J.Lawful) (ht : isBlank t = true)
    (hff : ¬ ∀ b ∈ t, isJsonWhitespace b = true) : J.parseEntry (t ++ x) = none := by
  induction t with
  | nil => exact absurd (by simp) hff
  | cons b t ih =>
    have hb : isAsciiWhitespace b = true := by simp_all [isBlank]
    have hblank : isBlank t = true := by simp_all [isBlank]
    by_cases hspace : isJsonWhitespace b = true
    · rw [cons_append, hJ.parse_whitespace_cons b _ hspace]
      exact ih hblank fun hall => hff (forall_mem_cons.2 ⟨hspace, hall⟩)
    · obtain rfl : b = 0x0c := by
        simp only [isAsciiWhitespace, isJsonWhitespace, Bool.or_eq_true, beq_iff_eq,
          not_or] at hb hspace
        tauto
      exact hJ.parse_formFeed_cons _

/-- A tail that the reader took as a line of its own, with an entry behind it, reads only
if it is whitespace to JSON too. -/
theorem whitespace_of_parseEntry (hJ : J.Lawful) (ht : t = [] ∨ Readable J t)
    (hx : ∃ b ∈ x, isJsonWhitespace b = false) (h : (J.parseEntry (t ++ x)).isSome) :
    ∀ b ∈ t, isJsonWhitespace b = true := by
  obtain ⟨entry', hentry'⟩ := Option.isSome_iff_exists.1 h
  rcases ht with rfl | ⟨-, hblank | hsome⟩
  · simp
  · by_contra hff
    rw [parseEntry_append_of_blank hJ hblank hff] at hentry'
    cases hentry'
  · obtain ⟨entry, hentry⟩ := Option.isSome_iff_exists.1 hsome
    obtain ⟨b, hb, hspace⟩ := hx
    rw [hJ.whitespace_of_parse t x entry entry' hentry hentry' b hb] at hspace
    cases hspace

theorem line_append_entryLine (hno : newline ∉ t) (entry : WalEntry) (rest : Bytes) : ∃ text,
    line newline (t ++ (entryLine entry ++ rest)) = t ++ 0x7b :: text := by
  obtain ⟨text, htext⟩ := entryText_eq_cons entry
  refine ⟨line newline (text ++ [newline] ++ rest), ?_⟩
  rw [line_append_of_notMem hno, entryLine, htext]
  rfl

/-- An entry whose payload has a newline is cut before its closing brace. -/
theorem exists_cut_of_newline_mem (h : newline ∈ entryText entry) :
    ∃ u v, entryText entry = u ++ newline :: v ∧ newline ∉ u ∧ (0x7d : UInt8) ∈ v := by
  obtain ⟨u, v, heq, hu⟩ := eq_append_cons_of_mem h
  refine ⟨u, v, heq, hu, ?_⟩
  obtain ⟨text, htext⟩ := entryText_eq_append entry
  have hlast : (u ++ newline :: v).getLast? = some 0x7d := by
    rw [← heq, htext, ← append_assoc]
    simp
  cases v using List.reverseRecOn with
  | nil =>
    rw [getLast?_concat] at hlast
    exact absurd (Option.some.inj hlast) (by decide)
  | append_singleton v c =>
    have hc : c = 0x7d := by
      rw [← cons_append, ← append_assoc, getLast?_concat] at hlast
      exact Option.some.inj hlast
    simp [hc]

/-- What it takes that the first line behind a tail reads. -/
theorem continues_of_readable (hJ : J.Lawful) (ht : t = [] ∨ Readable J t) (hno : newline ∉ t)
    (hplain : entry.Plain) (hvalue : J.IsValue entry.data) {rest : Bytes}
    (h : Readable J (line newline (t ++ (entryLine entry ++ rest)))) :
    (∀ b ∈ t, isJsonWhitespace b = true) ∧ newline ∉ entry.data ∧
      (t ++ entryLine entry).length ≤ maxWalEntryBytes := by
  obtain ⟨hlength, hread⟩ := h
  obtain ⟨text, htext⟩ := line_append_entryLine hno entry rest
  have hsome : (J.parseEntry (line newline (t ++ (entryLine entry ++ rest)))).isSome := by
    rcases hread with hblank | hsome
    · rw [htext, isBlank_of_brace_mem (by simp)] at hblank
      cases hblank
    · exact hsome
  have hspace : ∀ b ∈ t, isJsonWhitespace b = true := by
    rw [htext] at hsome
    exact whitespace_of_parseEntry hJ ht ⟨0x7b, by simp, by decide⟩ hsome
  have hno' : newline ∉ entryText entry := by
    intro hmem
    obtain ⟨u, v, heq, hu, hv⟩ := exists_cut_of_newline_mem hmem
    have hline : line newline (t ++ (entryLine entry ++ rest)) = t ++ (u ++ [newline]) := by
      rw [line_append_of_notMem hno, entryLine, heq]
      simp only [append_assoc, cons_append]
      rw [line_append_cons hu]
    rw [hline, parseEntry_append hJ hspace] at hsome
    obtain ⟨entry', hentry'⟩ := Option.isSome_iff_exists.1 hsome
    have hwhole : J.parseEntry (u ++ [newline] ++ v) = some entry := by
      rw [append_assoc, singleton_append, ← heq]
      exact hJ.parse_entryText entry hplain hvalue
    have := hJ.whitespace_of_parse _ v entry' entry hentry' hwhole 0x7d hv
    revert this
    decide
  refine ⟨hspace, fun hmem => hno' ((newline_mem_entryText_iff hplain).2 hmem), ?_⟩
  have hline : line newline (t ++ (entryLine entry ++ rest)) = t ++ entryLine entry := by
    rw [line_append_of_notMem hno, entryLine, append_assoc, singleton_append, line_append_cons hno']
  rwa [hline] at hlength

theorem isBlank_of_whitespace (ht : ∀ b ∈ t, isJsonWhitespace b = true) : isBlank t = true := by
  refine all_eq_true.2 fun b hb => ?_
  have := ht b hb
  simp only [isJsonWhitespace, isAsciiWhitespace, Bool.or_eq_true] at this ⊢
  tauto

theorem entryOf_append_entryLine (hJ : J.Lawful) (ht : ∀ b ∈ t, isJsonWhitespace b = true)
    (hplain : entry.Plain) (hvalue : J.IsValue entry.data) :
    entryOf J (t ++ entryLine entry) = some entry := by
  have hbrace : (0x7b : UInt8) ∈ t ++ entryLine entry := by
    obtain ⟨text, htext⟩ := entryText_eq_cons entry
    simp [entryLine, htext]
  rw [entryOf, isBlank_of_brace_mem hbrace, if_neg (by decide), parseEntry_append hJ ht]
  exact hJ.parse_append_whitespace _ _ _ (by decide) (hJ.parse_entryText entry hplain hvalue)

theorem readable_append_entryLine (hJ : J.Lawful) {bytes : Bytes}
    (ht : ∀ b ∈ tail newline bytes, isJsonWhitespace b = true) (hplain : entry.Plain)
    (hvalue : J.IsValue entry.data) (hno : newline ∉ entry.data)
    (hlength : (tail newline bytes ++ entryLine entry).length ≤ maxWalEntryBytes)
    (hread : ∀ line ∈ lines newline bytes, Readable J line) :
    (∀ line ∈ lines newline (bytes ++ entryLine entry), Readable J line) ∧
      entriesOf J (bytes ++ entryLine entry) = entriesOf J bytes ++ [entry] := by
  have hno' := mt (newline_mem_entryText_iff hplain).1 hno
  have hentry := entryOf_append_entryLine hJ ht hplain hvalue
  obtain ⟨ls, hls⟩ := exists_lines_append newline bytes
  have hold : lines newline bytes = ls ++ lines newline (tail newline bytes) := by
    simpa using hls []
  have hlines : lines newline (bytes ++ entryLine entry) =
      ls ++ [tail newline bytes ++ entryLine entry] := by
    have hno'' : newline ∉ tail newline bytes ++ entryText entry := by
      simp [notMem_tail, hno']
    rw [hls, entryLine, ← append_assoc, lines_append_nl hno'']
  have htail : (lines newline (tail newline bytes)).filterMap (entryOf J) = [] := by
    by_cases hnil : tail newline bytes = []
    · rw [hnil]
      rfl
    · rw [lines_of_notMem (notMem_tail bytes) hnil]
      simp [entryOf, isBlank_of_whitespace ht]
  have hlast : [tail newline bytes ++ entryLine entry].filterMap (entryOf J) = [entry] := by
    simp [hentry]
  rw [entriesOf, entriesOf, hlines, hold, filterMap_append, filterMap_append, htail,
    append_nil, hlast]
  refine ⟨fun line hline => ?_, rfl⟩
  rcases mem_append.1 hline with hline | hline
  · exact hread line (hold ▸ mem_append_left _ hline)
  · obtain rfl := mem_singleton.1 hline
    refine ⟨hlength, .inr ?_⟩
    unfold entryOf at hentry
    split at hentry
    · cases hentry
    · rw [hentry]
      rfl

end Tail

/-! ### Runs of appends -/

section Run

variable {D : Digests} {J : SerdeJson} {key : Option Bytes} {file file' : WalFile}
  {writer writer' : WalWriter} {s : ChainState} {entry : WalEntry} {payload : Serialization}

theorem plain_of_isPreviousHash {h : Bytes} (hh : IsPreviousHash h) :
    (∀ b ∈ h, isPlainByte b = true) ∧ h.length ≤ 64 := by
  rcases hh with rfl | ⟨hlength, hhex⟩
  · decide +kernel
  · refine ⟨fun b hb => ?_, hlength.le⟩
    have hb' := hhex b hb
    simp only [isHexByte, isPlainByte, Bool.or_eq_true, Bool.and_eq_true, decide_eq_true_eq,
      UInt8.le_iff_toNat_le] at hb' ⊢
    have h1 : (102 : UInt8).toNat = 102 := rfl
    have h2 : (122 : UInt8).toNat = 122 := rfl
    omega

/-- The file reads up to `s`, and the writer stands at its end. -/
structure Stands (D : Digests) (J : SerdeJson) (key : Option Bytes) (file : WalFile)
    (writer : WalWriter) (s : ChainState) : Prop where
  hmacKey : writer.hmacKey = key
  validKey : validateKey key = .ok ()
  reads : forEachLine (validateLine D J key) .init file.bytes = .ok s
  sequence : writer.sequence = s.lastSequence
  lastHash : writer.lastHash = s.lastHash

namespace Stands

variable (h : Stands D J key file writer s)

include h

theorem sequence_toNat :
    s.expectedSequence.toNat = writer.sequence.toNat + 1 ∧
      writer.sequence.toNat = (entriesOf J file.bytes).length := by
  obtain ⟨-, hfollows, hs⟩ := forEachLine_eq_ok_iff.1 h.reads
  rw [h.sequence, hs, expectedSequence_foldl_init hfollows, lastSequence_foldl_init hfollows]
  exact ⟨rfl, rfl⟩

theorem isPreviousHash : IsPreviousHash writer.lastHash := by
  obtain ⟨-, hfollows, hs⟩ := forEachLine_eq_ok_iff.1 h.reads
  rw [h.lastHash, hs, lastHash_foldl h.validKey hfollows]
  exact isPreviousHash_head D key _

theorem nextEntry (hnext : writer.nextEntry D payload = .ok entry) :
    Follows D key s [entry] ∧ entry.Plain ∧ (entryLine entry).length ≤ maxWalEntryBytes := by
  obtain ⟨hsequence, hprevious, -, hhash⟩ := nextEntry_eq_ok hnext
  obtain ⟨-, hlength⟩ := data_of_nextEntry hnext
  rw [h.hmacKey] at hhash
  obtain ⟨hexpected, hcount⟩ := h.sequence_toNat
  have hlink : entry.entryHash = link D key writer.lastHash entry.data := by
    rw [computeHash_of_validateKey h.validKey] at hhash
    exact (Except.ok.inj hhash).symm
  have hplain := plain_of_isPreviousHash h.isPreviousHash
  have hplain' : (∀ b ∈ entry.entryHash, isPlainByte b = true) ∧ entry.entryHash.length ≤ 64 :=
    plain_of_isPreviousHash (hlink ▸ isPreviousHash_link)
  rw [← hprevious] at hplain
  refine ⟨⟨⟨?_, ?_, ?_, ?_⟩, trivial⟩, ⟨hplain.1, hplain'.1⟩,
    length_entryLine_le hplain.2 hplain'.2 hlength⟩
  · rw [← UInt64.toNat_inj, hsequence, hexpected]
  · rw [hprevious, h.lastHash]
  · rwa [← h.lastHash]
  · -- there are no more entries than bytes, and a file has fewer than 2 ^ 63
    have hle : (entriesOf J file.bytes).length ≤ file.bytes.length :=
      (length_filterMap_le _ _).trans (length_lines_le file.bytes)
    have hfile := file.bounded
    unfold maxFileBytes at hfile
    omega

theorem append (hJ : J.Lawful)
    (happend : writer.append D file none payload = (.ok entry, writer', file'))
    (hvalue : J.IsValue payload.text) (hno : newline ∉ payload.text)
    (ht : ∀ b ∈ tail newline file.bytes, isJsonWhitespace b = true)
    (hlength : (tail newline file.bytes ++ entryLine entry).length ≤ maxWalEntryBytes) :
    Stands D J key file' writer' (s.accept entry) ∧
      entriesOf J file'.bytes = entriesOf J file.bytes ++ [entry] := by
  obtain ⟨hnext, hfile', rfl⟩ := append_eq_ok happend
  obtain ⟨hfollows, hplain, -⟩ := h.nextEntry hnext
  obtain ⟨hdata, -⟩ := data_of_nextEntry hnext
  rw [← hdata] at hvalue hno
  obtain ⟨hread, hchain, rfl⟩ := forEachLine_eq_ok_iff.1 h.reads
  obtain ⟨hread', hentries⟩ := readable_append_entryLine hJ ht hplain hvalue hno hlength hread
  rw [← hfile'] at hread' hentries
  refine ⟨⟨h.hmacKey, h.validKey, ?_, rfl, rfl⟩, hentries⟩
  refine forEachLine_eq_ok_iff.2 ⟨hread', ?_, ?_⟩
  · rw [hentries]
    exact follows_append.2 ⟨hchain, hfollows⟩
  · rw [hentries, foldl_append]
    rfl

end Stands

/-! ### Opened files -/

theorem stands_of_openInner (h : WalWriter.openInner D J key file = .ok writer) :
    ∃ s, Stands D J key file writer s := by
  rw [WalWriter.openInner] at h
  split at h
  · cases h
  · next hkey =>
    split at h
    · cases h
    · next sequence lastHash hhead =>
      cases h
      obtain ⟨hread, hfollows, hhead⟩ := validateChainReader_eq_ok_iff.1 hhead
      cases hhead
      exact ⟨_, rfl, hkey, forEachLine_eq_ok_iff.2 ⟨hread, hfollows, rfl⟩, rfl, rfl⟩

def WalWriter.appendAll (D : Digests) (writer : WalWriter) (file : WalFile) :
    List Serialization → Option (WalWriter × WalFile)
  | [] => some (writer, file)
  | payload :: payloads =>
    match writer.append D file none payload with
    | (.ok _, writer', file') => writer'.appendAll D file' payloads
    | (.error _, _) => none

theorem appendAll_cons_eq_some {payloads : List Serialization}
    (h : writer.appendAll D file (payload :: payloads) = some (writer', file')) :
    ∃ entry writer₁ file₁, writer.append D file none payload = (.ok entry, writer₁, file₁) ∧
      writer₁.appendAll D file₁ payloads = some (writer', file') := by
  rw [WalWriter.appendAll] at h
  split at h
  · next entry writer₁ file₁ happend => exact ⟨entry, writer₁, file₁, happend, h⟩
  · cases h

theorem exists_bytes_of_appendAll {payloads : List Serialization}
    (h : writer.appendAll D file payloads = some (writer', file')) :
    ∃ rest, file'.bytes = file.bytes ++ rest := by
  induction payloads generalizing writer file with
  | nil =>
    cases h
    exact ⟨[], (append_nil _).symm⟩
  | cons payload payloads ih =>
    obtain ⟨entry, writer₁, file₁, happend, hrest⟩ := appendAll_cons_eq_some h
    obtain ⟨rest, hbytes⟩ := ih hrest
    obtain ⟨-, hfile₁, -⟩ := append_eq_ok happend
    exact ⟨entryLine entry ++ rest, by rw [hbytes, hfile₁, append_assoc]⟩

/-- The length of the line that is written after `n` entries: hashes have sixty-four
digits, and the first entry follows `genesis`. -/
def lineLength (n : Nat) (data : Bytes) : Nat :=
  (entryLine ⟨UInt64.ofNat (n + 1), if n = 0 then genesis else List.replicate 64 48,
    List.replicate 64 48, data⟩).length

/-- What a file needs so that more can be written: behind its last newline there is
nothing but whitespace that JSON skips too, so little that the first new line stays
within the limit, and no new line contains another. -/
def Appendable (J : SerdeJson) (file : WalFile) : List Serialization → Prop
  | [] => True
  | payload :: payloads =>
    (∀ b ∈ tail newline file.bytes, isJsonWhitespace b = true) ∧
    (tail newline file.bytes).length + lineLength (entriesOf J file.bytes).length payload.text ≤
      maxWalEntryBytes ∧
    ∀ p ∈ payload :: payloads, newline ∉ p.text

theorem Appendable.notMem {payloads : List Serialization} (h : Appendable J file payloads) :
    ∀ p ∈ payloads, newline ∉ p.text := by
  cases payloads with
  | nil => simp
  | cons payload payloads => exact h.2.2

namespace Stands

variable (h : Stands D J key file writer s)

include h

theorem length_lastHash :
    writer.lastHash.length = if (entriesOf J file.bytes).length = 0 then 7 else 64 := by
  obtain ⟨-, hfollows, hs⟩ := forEachLine_eq_ok_iff.1 h.reads
  rw [h.lastHash, hs, lastHash_foldl h.validKey hfollows]
  cases entriesOf J file.bytes using List.reverseRecOn with
  | nil => rfl
  | append_singleton entries entry =>
    rw [map_append, map_singleton, Chain.head_append_singleton, length_link, if_neg (by simp)]

theorem length_entryLine (hnext : writer.nextEntry D payload = .ok entry) :
    (entryLine entry).length = lineLength (entriesOf J file.bytes).length payload.text := by
  obtain ⟨hsequence, hprevious, -, hhash⟩ := nextEntry_eq_ok hnext
  obtain ⟨hdata, -⟩ := data_of_nextEntry hnext
  obtain ⟨-, hcount⟩ := h.sequence_toNat
  have hsequence' : entry.sequence = UInt64.ofNat ((entriesOf J file.bytes).length + 1) := by
    rw [← hcount, ← hsequence, UInt64.ofNat_toNat]
  have hhash' : entry.entryHash.length = 64 := by
    rw [h.hmacKey, computeHash_of_validateKey h.validKey] at hhash
    rw [← Except.ok.inj hhash, length_link]
  have hgenesis : genesis.length = 7 := by decide
  have hlast := h.length_lastHash
  simp only [lineLength, entryLine, entryText, length_append, hprevious, hdata, hhash', hlast,
    hsequence', length_replicate]
  split <;> simp only [hgenesis, length_replicate]

theorem continues (hJ : J.Lawful) (hnext : writer.nextEntry D payload = .ok entry)
    (hvalue : J.IsValue payload.text)
    {rest : Bytes} (hread : ∀ line ∈ lines newline (file.bytes ++ (entryLine entry ++ rest)),
      Readable J line) :
    (∀ b ∈ tail newline file.bytes, isJsonWhitespace b = true) ∧ newline ∉ payload.text ∧
      (tail newline file.bytes ++ entryLine entry).length ≤ maxWalEntryBytes := by
  obtain ⟨-, hplain, -⟩ := h.nextEntry hnext
  obtain ⟨hdata, -⟩ := data_of_nextEntry hnext
  rw [← hdata] at hvalue ⊢
  obtain ⟨hreads, -, -⟩ := forEachLine_eq_ok_iff.1 h.reads
  -- the old tail was a line of its own; now it is the beginning of a longer one
  have htail : tail newline file.bytes = [] ∨ Readable J (tail newline file.bytes) := by
    by_cases hnil : tail newline file.bytes = []
    · exact .inl hnil
    · exact .inr (hreads _ (tail_mem_lines hnil))
  have hfirst : line newline (tail newline file.bytes ++ (entryLine entry ++ rest)) ∈
      lines newline (file.bytes ++ (entryLine entry ++ rest)) := by
    obtain ⟨ls, hls⟩ := exists_lines_append newline file.bytes
    rw [hls]
    exact mem_append_right _ (line_mem_lines (by simp [entryLine]))
  exact continues_of_readable hJ htail (notMem_tail _) hplain hvalue (hread _ hfirst)

omit h in
theorem tail_of_append (happend : writer.append D file none payload = (.ok entry, writer', file')) :
    tail newline file'.bytes = [] := by
  obtain ⟨-, hfile', -⟩ := append_eq_ok happend
  rw [hfile', entryLine, ← append_assoc]
  exact tail_append_nl _

variable {payloads : List Serialization}

theorem appendable_of_tail_eq_nil (htail : tail newline file.bytes = [])
    (hall : writer.appendAll D file payloads = some (writer', file'))
    (hno : ∀ p ∈ payloads, newline ∉ p.text) : Appendable J file payloads := by
  cases payloads with
  | nil => trivial
  | cons payload payloads =>
    obtain ⟨entry, writer₁, file₁, happend, -⟩ := appendAll_cons_eq_some hall
    obtain ⟨hnext, -, -⟩ := append_eq_ok happend
    obtain ⟨-, -, hlength⟩ := h.nextEntry hnext
    rw [h.length_entryLine hnext] at hlength
    exact ⟨by simp [htail], by simpa [htail] using hlength, hno⟩

theorem validateChainInner :
    validateChainInner D J key file.bytes = .ok (writer.sequence, writer.lastHash) := by
  obtain ⟨hread, hfollows, hs⟩ := forEachLine_eq_ok_iff.1 h.reads
  rw [Wal.validateChainInner, h.validKey]
  refine validateChainReader_eq_ok_iff.2 ⟨hread, hfollows, ?_⟩
  rw [h.sequence, h.lastHash, hs]

theorem appendAll (hJ : J.Lawful)
    (hvalues : ∀ p ∈ payloads, J.IsValue p.text) (happendable : Appendable J file payloads)
    (hall : writer.appendAll D file payloads = some (writer', file')) :
    ∃ s', Stands D J key file' writer' s' ∧
      (entriesOf J file'.bytes).length = (entriesOf J file.bytes).length + payloads.length := by
  induction payloads generalizing writer file s with
  | nil =>
    cases hall
    exact ⟨s, h, rfl⟩
  | cons payload payloads ih =>
    obtain ⟨hspace, hlength, hno⟩ := happendable
    obtain ⟨hvalue, hvalues⟩ := forall_mem_cons.1 hvalues
    obtain ⟨hno, hnos⟩ := forall_mem_cons.1 hno
    obtain ⟨entry, writer₁, file₁, happend, hrest⟩ := appendAll_cons_eq_some hall
    obtain ⟨hnext, -, -⟩ := append_eq_ok happend
    rw [← h.length_entryLine hnext, ← length_append] at hlength
    obtain ⟨h₁, hentries⟩ := h.append hJ happend hvalue hno hspace hlength
    have happendable := h₁.appendable_of_tail_eq_nil (tail_of_append happend) hrest hnos
    obtain ⟨s', h', hcount⟩ := ih h₁ hvalues happendable hrest
    refine ⟨s', h', ?_⟩
    rw [hcount, hentries, length_append, length_singleton, length_cons]
    omega

theorem appendable (hJ : J.Lawful) (hvalues : ∀ p ∈ payloads, J.IsValue p.text)
    (hall : writer.appendAll D file payloads = some (writer', file'))
    (hread : ∀ line ∈ lines newline file'.bytes, Readable J line) : Appendable J file payloads := by
  induction payloads generalizing writer file s with
  | nil => trivial
  | cons payload payloads ih =>
    obtain ⟨hvalue, hvalues⟩ := forall_mem_cons.1 hvalues
    obtain ⟨entry, writer₁, file₁, happend, hrest⟩ := appendAll_cons_eq_some hall
    obtain ⟨hnext, hfile₁, -⟩ := append_eq_ok happend
    obtain ⟨rest, hbytes⟩ := exists_bytes_of_appendAll hrest
    have hread' := hread
    rw [hbytes, hfile₁, append_assoc] at hread'
    obtain ⟨hspace, hno, hlength⟩ := h.continues hJ hnext hvalue hread'
    obtain ⟨h₁, -⟩ := h.append hJ happend hvalue hno hspace hlength
    rw [length_append, h.length_entryLine hnext] at hlength
    exact ⟨hspace, hlength, forall_mem_cons.2 ⟨hno, (ih h₁ hvalues hrest).notMem⟩⟩

end Stands

/-- The verifier accepts what was appended to an opened file, with the sequence counted
on and the writer's hash as the head, exactly where the file could be appended to. -/
theorem validateChainInner_appendAll_iff {payloads : List Serialization} (hJ : J.Lawful)
    (hopen : WalWriter.openInner D J key file = .ok writer)
    (hvalues : ∀ p ∈ payloads, J.IsValue p.text)
    (hall : writer.appendAll D file payloads = some (writer', file')) :
    (∃ n, validateChainInner D J key file'.bytes = .ok (n, writer'.lastHash) ∧
        n.toNat = writer.sequence.toNat + payloads.length) ↔
      Appendable J file payloads := by
  obtain ⟨s, h⟩ := stands_of_openInner hopen
  constructor
  · rintro ⟨n, hok, -⟩
    exact h.appendable hJ hvalues hall (readable_of_validateChainInner hok)
  · intro happendable
    obtain ⟨s', h', hcount⟩ := h.appendAll hJ hvalues happendable hall
    refine ⟨writer'.sequence, h'.validateChainInner, ?_⟩
    rw [h'.sequence_toNat.2, hcount, h.sequence_toNat.2]

theorem validateChainInner_appendAll_twoLog :
    ∃ n, validateChainInner numberDigests numberJson none twoLog.bytes =
        .ok (n, twoWriter.lastHash) ∧ n.toNat = 1 + 1 := by
  have hopen : WalWriter.openInner numberDigests numberJson none oneLog = .ok oneWriter := by
    simp only [WalWriter.openInner, validateChainReader, forEachLine_eq_foldlM]
    decide +kernel
  have hall : oneWriter.appendAll numberDigests oneLog [numberPayload 2] =
      some (twoWriter, twoLog) := by
    decide +kernel
  have hvalues : ∀ p ∈ [numberPayload 2], numberJson.IsValue p.text := by
    intro p hp
    obtain rfl := mem_singleton.1 hp
    exact ⟨2, by decide⟩
  refine (validateChainInner_appendAll_iff lawful_numberJson hopen hvalues hall).2 ⟨?_, ?_, ?_⟩
  · decide +kernel
  · decide +kernel
  · decide

def cutLog : WalFile := ⟨entryText oneEntry, by decide +kernel⟩

def gluedLog : WalFile := ⟨entryText oneEntry ++ entryLine twoEntry, by decide +kernel⟩

/-- The cut log is opened and two is appended to it, and then the verifier refuses it. -/
theorem validateChainInner_appendAll_cutLog :
    WalWriter.openInner numberDigests numberJson none cutLog = .ok oneWriter ∧
      oneWriter.appendAll numberDigests cutLog [numberPayload 2] = some (twoWriter, gluedLog) ∧
      validateChainInner numberDigests numberJson none gluedLog.bytes = .error .json ∧
      ¬ ∃ n, validateChainInner numberDigests numberJson none gluedLog.bytes =
          .ok (n, twoWriter.lastHash) ∧ n.toNat = oneWriter.sequence.toNat + 1 := by
  have hrefused : validateChainInner numberDigests numberJson none gluedLog.bytes =
      .error .json := by
    simp only [validateChainInner, validateChainReader, forEachLine_eq_foldlM]
    decide +kernel
  refine ⟨?_, ?_, hrefused, ?_⟩
  · simp only [WalWriter.openInner, validateChainReader, forEachLine_eq_foldlM]
    decide +kernel
  · decide +kernel
  · rintro ⟨n, hok, -⟩
    rw [hrefused] at hok
    cases hok

end Run

end Calybris.Wal
