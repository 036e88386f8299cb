import Calybris.Verify.WalLeaves

/-!
# Where the crate and the script agree

On a log that the writer wrote, the crate builds the tree over the leaves of its entries.
The script finds these leaves, and with them the root of every checkpoint of the tree,
where no payload holds a character at which `splitlines` ends a line. JSON escapes those
below the space; a string that holds U+0085, U+2028 or U+2029 cuts its entry in two, and
the script stops.
-/

namespace Calybris.Verify

open Text Note Lines Transition Merkle Wal List

variable {D : Digests}

/-! ### Whole files -/

section File

variable {J : SerdeJson} {R : LineReaders} {key : Option Bytes} {s : ChainState}
  {pairs : List (WalEntry × List Char)}

def fileText (pairs : List (WalEntry × List Char)) : List Char :=
  pairs.flatMap fun p => lineText p.1 p.2 ++ ['\n']

theorem fileText_cons (entry : WalEntry) (data : List Char) :
    fileText ((entry, data) :: pairs) = lineText entry data ++ '\n' :: fileText pairs := by
  rw [fileText, flatMap_cons, append_assoc]
  rfl

theorem utf8_fileText (h : ∀ p ∈ pairs, p.1.Plain ∧ p.1.data = utf8 p.2) :
    utf8 (fileText pairs) = ((pairs.map Prod.fst).map entryLine).flatten := by
  induction pairs with
  | nil => rfl
  | cons p pairs ih =>
    obtain ⟨⟨hplain, hdata⟩, hrest⟩ := forall_mem_cons.1 h
    have hnewline : utf8 ('\n' :: fileText pairs) = newline :: utf8 (fileText pairs) := rfl
    rw [fileText_cons, utf8_append, utf8_lineText hplain hdata, hnewline, ih hrest]
    simp [entryLine]

theorem exists_pairs {entries : List WalEntry}
    (h : ∀ entry ∈ entries, ∃ data, entry.data = utf8 data) :
    ∃ pairs : List (WalEntry × List Char), pairs.map Prod.fst = entries ∧
      ∀ p ∈ pairs, p.1.data = utf8 p.2 := by
  induction entries with
  | nil => exact ⟨[], rfl, by simp⟩
  | cons entry entries ih =>
    obtain ⟨⟨data, hdata⟩, hrest⟩ := forall_mem_cons.1 h
    obtain ⟨pairs, rfl, hpairs⟩ := ih hrest
    exact ⟨(entry, data) :: pairs, rfl, forall_mem_cons.2 ⟨hdata, hpairs⟩⟩

theorem unbroken_iff {text : Bytes} {data : List Char} (h : text = utf8 data) :
    Unbroken text ↔ ∀ c ∈ data, isLineBoundary c = false := by
  constructor
  · exact fun hbroken => hbroken data h
  · intro hdata chars hchars
    obtain rfl : data = chars := utf8_injective (h.symm.trans hchars)
    exact hdata

theorem walLeavesFrom_fileText (hR : R.Lawful J) (hkey : validateKey key = .ok ())
    (hfollows : Follows D key s (pairs.map Prod.fst))
    (hclean : ∀ p ∈ pairs, p.1.Clean J ∧ p.1.data = utf8 p.2) (number : Nat)
    (leaves : List Bytes32) :
    ((∀ entry ∈ pairs.map Prod.fst, Unbroken entry.data) ∧
      walLeavesFrom D R.loads key number (ascii s.lastHash) leaves (textLines (fileText pairs)) =
        .ok (leaves ++ (pairs.map Prod.fst).map (entryLeaf D key), none)) ∨
    ((¬ ∀ entry ∈ pairs.map Prod.fst, Unbroken entry.data) ∧
      walLeavesFrom D R.loads key number (ascii s.lastHash) leaves (textLines (fileText pairs)) =
        .error .jsonDecode) := by
  induction pairs generalizing s number leaves with
  | nil =>
    refine .inl ⟨by simp, ?_⟩
    rw [map_nil, map_nil, append_nil]
    rfl
  | cons p pairs ih =>
    obtain ⟨entry, data⟩ := p
    obtain ⟨⟨hentry, hdata⟩, hrest⟩ := forall_mem_cons.1 hclean
    obtain ⟨hlink, hfollows'⟩ := hfollows
    rw [fileText_cons, map_cons, forall_mem_cons]
    rcases forall_or_exists_boundary (lineText entry data) with hfree | ⟨a, c, b, hcut, ha, hc⟩
    · have hwhole : Unbroken entry.data :=
        (unbroken_iff hdata).2 ((forall_lineText_iff hentry.plain).1 hfree)
      rw [textLines_append_newline hfree,
        walLeavesFrom_lineText hR hkey ⟨hlink, trivial⟩ hentry hdata]
      rcases ih hfollows' hrest (number + 1) (leaves ++ [entryLeaf D key entry]) with
        ⟨hall, hleaves⟩ | ⟨hbroken, hstop⟩
      · refine .inl ⟨⟨hwhole, hall⟩, ?_⟩
        rw [hleaves, map_cons, append_assoc]
        rfl
      · exact .inr ⟨fun h => hbroken h.2, hstop⟩
    · -- The entry is cut at its first boundary.
      right
      constructor
      · intro h
        have hfree := (forall_lineText_iff hentry.plain).2 ((unbroken_iff hdata).1 h.1)
        rw [hcut] at hfree
        have := hfree c (by simp)
        rw [hc] at this
        cases this
      · obtain ⟨rest, hlines⟩ := exists_textLines_append ha hc (b ++ '\n' :: fileText pairs)
        -- A line that is cut short stops the script.
        have hloads : R.loads a = none :=
          hR.loads_of_cut entry a (c :: b) hentry.plain hentry.isValue
            (by rw [← hcut, utf8_lineText hentry.plain hdata]) (cons_ne_nil c b)
        rw [hcut, append_assoc, cons_append, hlines, walLeavesFrom, hloads]

end File

/-! ### What the crate finds -/

section Crate

variable {J : SerdeJson} {R : LineReaders} {key : Option Bytes} {s : ChainState}
  {entries typed : List WalEntry}

theorem leafFromEntryHash_bytesToHex (digest : Bytes32) :
    leafFromEntryHash (bytesToHex digest.1) = .ok digest := by
  have hparse : parseHex 32 (bytesToHex digest.1) = .ok digest.1 :=
    parseHex_eq_ok_iff.2 ⟨rfl, digest.2⟩
  rw [leafFromEntryHash, hparse]
  exact dif_pos digest.2

theorem exists_decodes_value (hR : R.Lawful J) (hclean : ∀ entry ∈ entries, entry.Clean J) :
    ∃ typed, Decodes R.value (entries.map entryLine) typed ∧
      typed.map WalEntry.entryHash = entries.map WalEntry.entryHash := by
  induction entries with
  | nil => exact ⟨[], .nil, rfl⟩
  | cons entry entries ih =>
    obtain ⟨hfirst, hrest⟩ := forall_mem_cons.1 hclean
    obtain ⟨typed, hdecodes, hhashes⟩ := ih hrest
    obtain ⟨found, hfound, hhash⟩ := hR.value_entryLine entry hfirst.plain hfirst.isValue
    refine ⟨found :: typed, hdecodes.entryLine_cons hfound, ?_⟩
    rw [map_cons, map_cons, hhash, hhashes]

theorem foldlM_indexEntry (hfollows : Follows D key s entries)
    (hhashes : typed.map WalEntry.entryHash = entries.map WalEntry.entryHash)
    (tree : MerkleTree Bytes32) :
    typed.foldlM (indexEntry D) (tree, none) =
      ((entries.map (entryLeaf D key)).foldlM (MerkleTree.push (hashing D)) tree).map
        fun tree => (tree, none) := by
  induction typed generalizing entries s tree with
  | nil =>
    obtain rfl : entries = [] := map_eq_nil_iff.1 hhashes.symm
    rfl
  | cons found typed ih =>
    cases entries with
    | nil => cases hhashes
    | cons entry entries =>
      obtain ⟨hfound, htyped⟩ := List.cons.inj hhashes
      obtain ⟨hlink, hfollows'⟩ := hfollows
      have hentry : indexEntry D (tree, none) found =
          (tree.push (hashing D) (entryLeaf D key entry)).map fun tree => (tree, none) := by
        have hhash : entry.entryHash = bytesToHex (entryDigest D key entry).1 :=
          entryHash_eq (s := s) ⟨hlink, trivial⟩
        rw [indexEntry, hfound, hhash, leafFromEntryHash_bytesToHex]
        rfl
      rw [foldlM_cons, hentry, map_cons, foldlM_cons]
      cases tree.push (hashing D) (entryLeaf D key entry) with
      | none => rfl
      | some tree' => exact ih hfollows' htyped tree'

end Crate

/-! ### The two of them on a log -/

section Log

variable {J : SerdeJson} {R : LineReaders} {key : Option Bytes} {start log : Log}
  {events : List (LogEvent J)}

theorem exists_utf8_of_mem_texts (hcreate : Log.create D J key = .ok start)
    (hrun : run (Log.step D J key) start events = some log) :
    ∀ text ∈ log.texts, ∃ chars, text = utf8 chars := by
  refine run_invariant (I := fun log : Log => ∀ text ∈ log.texts, ∃ chars, text = utf8 chars) ?_ ?_
    hrun
  · intro log event log' hvalid h
    cases event with
    | append payload =>
      simp only [Log.step] at h
      split at h
      · next entry writer file happend =>
        cases h
        obtain ⟨hnext, -, -⟩ := WalWriter.append_eq_ok happend
        obtain ⟨-, -, hserialize, -⟩ := WalWriter.nextEntry_eq_ok hnext
        have htext := (serialize_eq_ok hserialize).1
        obtain ⟨-, hutf8⟩ := validateUTF8_of_serialize hserialize
        intro text hmem
        rcases mem_append.1 hmem with hmem | hmem
        · exact hvalid text hmem
        · obtain rfl := mem_singleton.1 hmem
          rw [← htext]
          exact validateUTF8_iff.1 hutf8
      · cases h
      · cases h
        exact hvalid
    | reopen =>
      simp only [Log.step] at h
      split at h
      · cases h
      · cases h
        exact hvalid
  · rw [Log.create] at hcreate
    split at hcreate
    · cases hcreate
    · cases hcreate
      simp

theorem fromVerifiedWal_of_inv (hR : R.Lawful J) (hinv : Log.Inv D J key log)
    (hrec : Log.Recorded J log) :
    ∃ tree, MerkleTree.fromLeafHashes (hashing D)
        ((entriesOf J log.file.bytes).map (entryLeaf D key)) = some tree ∧
      MerkleTree.Caches (hashing D) tree ((entriesOf J log.file.bytes).map (entryLeaf D key)) ∧
      fromVerifiedWal D J R.value key log.file.bytes = some (.ok tree) := by
  obtain ⟨-, hfollows⟩ := Log.readVerifiedWalInner_of_inv hinv
  obtain ⟨typed, hdecodes, hhashes⟩ := exists_decodes_value hR hrec.clean
  obtain ⟨tree, htree, hcaches⟩ := MerkleTree.exists_fromLeafHashes (hashing D)
    ((entriesOf J log.file.bytes).map (entryLeaf D key))
  refine ⟨tree, htree, hcaches, ?_⟩
  have hfold := foldlM_indexEntry hfollows hhashes .new
  rw [← MerkleTree.fromLeafHashes, htree] at hfold
  rw [fromVerifiedWal, Log.readVerifiedWalInner_of_decodes hinv hrec hdecodes]
  simp only [hfold, Option.map_some]

theorem walLeaves_of_inv (hR : R.Lawful J) (hinv : Log.Inv D J key log)
    (hrec : Log.Recorded J log) (hutf8 : ∀ text ∈ log.texts, ∃ chars, text = utf8 chars) :
    ((∀ text ∈ log.texts, Unbroken text) ∧ walLeaves D R.loads key log.file.bytes =
        .ok ((entriesOf J log.file.bytes).map (entryLeaf D key), none)) ∨
    ((¬ ∀ text ∈ log.texts, Unbroken text) ∧
      walLeaves D R.loads key log.file.bytes = .error .jsonDecode) := by
  obtain ⟨state, hs⟩ := hinv.stands
  obtain ⟨-, hfollows⟩ := Log.readVerifiedWalInner_of_inv hinv
  have htexts : (entriesOf J log.file.bytes).map WalEntry.data = log.texts := hinv.texts
  rw [← htexts, forall_mem_map] at hutf8
  obtain ⟨pairs, hpairs, hdata⟩ := exists_pairs hutf8
  have hclean : ∀ p ∈ pairs, p.1.Clean J ∧ p.1.data = utf8 p.2 := fun p hp =>
    ⟨hrec.clean _ (hpairs ▸ mem_map_of_mem hp), hdata p hp⟩
  have hbytes : log.file.bytes = utf8 (fileText pairs) := by
    rw [utf8_fileText fun p hp => ⟨(hclean p hp).1.plain, (hclean p hp).2⟩, hpairs, ← hrec.written]
    exact hinv.written
  have hgenesis : ascii ChainState.init.lastHash = "genesis".toList := by decide
  have hleaves : walLeaves D R.loads key log.file.bytes =
      walLeavesFrom D R.loads key 1 (ascii ChainState.init.lastHash) []
        (textLines (fileText pairs)) := by
    rw [walLeaves, hbytes, decodeUtf8_utf8, hgenesis]
  have hscript := walLeavesFrom_fileText hR hs.validKey (hpairs ▸ hfollows) hclean 1 []
  rwa [← hleaves, hpairs, nil_append, ← forall_mem_map (f := WalEntry.data), htexts] at hscript

/-- On every log that the writer wrote, the crate builds the tree over some leaves. The
script reports these leaves, and no break, exactly where no payload holds a character
that ends a line; elsewhere it stops at a line that is no JSON. Where it reports them it
passes every checkpoint of the tree. -/
theorem walLeaves_run (hJ : J.Lawful) (hR : R.Lawful J) (hcreate : Log.create D J key = .ok start)
    (hrun : run (Log.step D J key) start events = some log) :
    ∃ leaves tree, MerkleTree.fromLeafHashes (hashing D) leaves = some tree ∧
      fromVerifiedWal D J R.value key log.file.bytes = some (.ok tree) ∧
      leaves.length = log.texts.length ∧
      (walLeaves D R.loads key log.file.bytes = .ok (leaves, none) ↔
        ∀ text ∈ log.texts, Unbroken text) ∧
      ((¬ ∀ text ∈ log.texts, Unbroken text) →
        walLeaves D R.loads key log.file.bytes = .error .jsonDecode) ∧
      ((∀ text ∈ log.texts, Unbroken text) → ∀ size head,
        tree.head (hashing D) size = some (.ok head) →
          checkWal D R.loads key log.file.bytes head.size head.root.1 =
            .ok (.passed leaves.length size)) := by
  obtain ⟨hinv, hrec⟩ := Log.inv_of_run hJ hcreate hrun
  obtain ⟨tree, htree, hcaches, hindex⟩ := fromVerifiedWal_of_inv hR hinv hrec
  have hscript := walLeaves_of_inv hR hinv hrec (exists_utf8_of_mem_texts hcreate hrun)
  refine ⟨_, tree, htree, hindex, ?_, ?_, ?_, ?_⟩
  · rw [← hinv.texts, payloadsOf, length_map, length_map]
  · rcases hscript with ⟨hall, hok⟩ | ⟨hbroken, hstop⟩
    · exact ⟨fun _ => hall, fun _ => hok⟩
    · refine ⟨fun h => ?_, fun h => absurd h hbroken⟩
      rw [hstop] at h
      cases h
  · intro hbroken
    exact (hscript.resolve_left fun h => hbroken h.1).2
  · intro hall size head hhead
    have hok := (hscript.resolve_right fun h => h.1 hall).2
    have hsize : size ≤ ((entriesOf J log.file.bytes).map (entryLeaf D key)).length := by
      by_contra hlt
      rw [MerkleTree.head, hcaches.len, if_pos (by omega)] at hhead
      cases hhead
    rw [hcaches.head hsize] at hhead
    obtain rfl := Except.ok.inj (Option.some.inj hhead)
    have hlength := length_take_of_le hsize
    rw [checkWal, hok]
    simp only [Hashing.headOf, hlength, Hashing.merkleRoot_eq_rootOf]
    rw [if_neg (by simpa using hsize)]

/-! ### Two logs of one string -/

/-- The readers of a log with one JSON reader. The script finds no JSON where the crate
finds none. -/
def serdeReaders (J : SerdeJson) : LineReaders where
  value := J.parseEntry
  loads line := (J.parseEntry (utf8 line)).map fun entry =>
    ⟨.text (ascii entry.previousHash), .text (ascii entry.entryHash)⟩

theorem lawful_serdeReaders (hJ : J.Lawful) : (serdeReaders J).Lawful J where
  value_entryLine entry hplain hvalue :=
    ⟨entry, hJ.parse_append_whitespace _ newline _ rfl (hJ.parse_entryText entry hplain hvalue),
      rfl⟩
  loads_entryText entry text hplain hvalue htext := by
    refine ⟨ascii entry.previousHash, ascii entry.entryHash, ?_, utf8_ascii hplain.previousHash,
      utf8_ascii hplain.entryHash⟩
    simp only [serdeReaders, htext, hJ.parse_entryText entry hplain hvalue, Option.map_some]
  loads_of_cut entry a b hplain hvalue htext hb := by
    rw [utf8_append] at htext
    have hparse := hJ.parse_entryText entry hplain hvalue
    rw [← htext] at hparse
    cases ha : J.parseEntry (utf8 a) with
    | none => simp [serdeReaders, ha]
    | some found =>
      -- Only whitespace may follow an entry, and a brace ends the line.
      have hspace := hJ.whitespace_of_parse _ _ _ _ ha hparse
      have hne : utf8 b ≠ [] := fun hnil => hb (utf8_injective (hnil.trans rfl))
      obtain ⟨front, hfront⟩ := entryText_eq_append entry
      have hlast : (utf8 b).getLast hne = 0x7d := by
        have h := congrArg List.getLast? (htext.trans hfront)
        rw [getLast?_append_of_ne_nil _ hne, ← append_assoc, getLast?_concat,
          getLast?_eq_some_getLast hne] at h
        exact Option.some.inj h
      have := hspace _ (getLast_mem hne)
      rw [hlast] at this
      cases this

/-- The JSON of the string `é`. -/
def accentText : Bytes := [0x22, 0xc3, 0xa9, 0x22]

def accentDigest : Bytes32 :=
  digestOf 0xe8df7157e97cfb403b66356c772c705de1a853c678097e7592cdc4cf309b3302

theorem utf8_accentText : accentText = utf8 ['"', 'é', '"'] := by decide

theorem isValue_accentText : bracketJson.IsValue accentText := by rfl

theorem sha256_accentText : sha256Digests.sha256 (genesis ++ accentText) = accentDigest := by
  decide +kernel

/-- A string with a letter outside ASCII is read alike by both. -/
theorem walLeaves_run_accent :
    ∃ leaves tree,
      fromVerifiedWal sha256Digests bracketJson bracketJson.parseEntry none
        (entryLine (Log.firstEntry accentDigest accentText)) = some (.ok tree) ∧
      walLeaves sha256Digests (serdeReaders bracketJson).loads none
        (entryLine (Log.firstEntry accentDigest accentText)) = .ok (leaves, none) ∧
      leaves.length = 1 := by
  have hJ := lawful_bracketJson
  have hunbroken : ∀ text ∈ [accentText], Unbroken text := by
    intro text htext
    obtain rfl := mem_singleton.1 htext
    exact (unbroken_iff utf8_accentText).2 (eq_false_of_any (by decide))
  obtain ⟨leaves, tree, -, htree, hlength, hscript, -, -⟩ :=
    walLeaves_run hJ (lawful_serdeReaders hJ) (Log.create_none _ _)
      (Log.run_text isValue_accentText (by decide) (by decide) ⟨_, utf8_accentText⟩
        sha256_accentText)
  exact ⟨leaves, tree, htree, hscript.2 hunbroken, hlength⟩

def separatorText : Bytes := [0x22, 0xe2, 0x80, 0xa8, 0x22]

def separatorDigest : Bytes32 :=
  digestOf 0x5462d72750fa3cbf13e0b7a95c123212b9a8e9458374ea71451e238659db5ac7

theorem utf8_separatorText : separatorText = utf8 ['"', '\u2028', '"'] := by decide

theorem isValue_separatorText : bracketJson.IsValue separatorText := by rfl

theorem sha256_separatorText :
    sha256Digests.sha256 (genesis ++ separatorText) = separatorDigest := by decide +kernel

/-- The line separator is appended; the crate indexes the log, and the script stops. -/
theorem walLeaves_separator :
    (∃ log, run (Log.step sha256Digests bracketJson none)
        ⟨.empty, ⟨0, genesis, none, false⟩, [], []⟩
        [.append (Log.textPayload separatorText isValue_separatorText (by decide))] = some log ∧
      log.file.bytes = entryLine (Log.firstEntry separatorDigest separatorText)) ∧
    (∃ tree, fromVerifiedWal sha256Digests bracketJson bracketJson.parseEntry none
        (entryLine (Log.firstEntry separatorDigest separatorText)) = some (.ok tree)) ∧
    walLeaves sha256Digests (serdeReaders bracketJson).loads none
        (entryLine (Log.firstEntry separatorDigest separatorText)) = .error .jsonDecode := by
  have hJ := lawful_bracketJson
  have hR := lawful_serdeReaders hJ
  have hcreate := Log.create_none sha256Digests bracketJson
  have hrun := Log.run_text isValue_separatorText (by decide) (by decide) ⟨_, utf8_separatorText⟩
    sha256_separatorText
  obtain ⟨hinv, hrec⟩ := Log.inv_of_run hJ hcreate hrun
  obtain ⟨tree, -, -, htree⟩ := fromVerifiedWal_of_inv hR hinv hrec
  have hbroken : ¬ ∀ text ∈ [separatorText], Unbroken text := by
    intro h
    have := h _ mem_cons_self _ utf8_separatorText '\u2028' (by decide)
    cases this
  have hscript := walLeaves_of_inv hR hinv hrec (exists_utf8_of_mem_texts hcreate hrun)
  exact ⟨⟨_, hrun, rfl⟩, ⟨tree, htree⟩, (hscript.resolve_left fun h => hbroken h.1).2⟩

end Log

end Calybris.Verify
