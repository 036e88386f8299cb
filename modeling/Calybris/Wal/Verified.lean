import Calybris.Wal.Reader

/-!
# What the reader accepts

A file is accepted exactly when every line is short enough, is blank or reads as an
entry, and the entries follow one another. The head is then determined by the payloads
alone, as the head of a hash chain.
-/

namespace Calybris.Wal

open Text Note Lines List ChainState

section

variable (D : Digests) (J : SerdeJson) (key : Option Bytes)

def entryOf (line : Bytes) : Option WalEntry := if isBlank line then none else J.parseEntry line

def entriesOf (bytes : Bytes) : List WalEntry := (lines newline bytes).filterMap (entryOf J)

def payloadsOf (bytes : Bytes) : List Bytes := (entriesOf J bytes).map WalEntry.data

def Readable (line : Bytes) : Prop :=
  line.length ≤ maxWalEntryBytes ∧ (isBlank line = true ∨ (J.parseEntry line).isSome)

def Follows : ChainState → List WalEntry → Prop
  | _, [] => True
  | s, entry :: entries =>
    (entry.sequence = s.expectedSequence ∧ entry.previousHash = s.lastHash ∧
      computeHash D key s.lastHash entry.data = .ok entry.entryHash ∧
      s.expectedSequence.toNat + 1 < 2 ^ 64) ∧
    Follows (s.accept entry) entries

variable {D J key} {s s' : ChainState} {entry : WalEntry} {entries entries' : List WalEntry}
  {line : Bytes} {ls : List Bytes} {bytes : Bytes}

theorem checkEntry_eq_ok_iff :
    checkEntry D key s entry = .ok s' ↔ Follows D key s [entry] ∧ s' = s.accept entry := by
  simp only [checkEntry, Follows, and_true]
  by_cases hseq : entry.sequence = s.expectedSequence
  · by_cases hprev : entry.previousHash = s.lastHash
    · rw [if_neg (not_not.2 hseq), if_neg (not_not.2 hprev), hprev]
      cases hhash : computeHash D key s.lastHash entry.data with
      | error error => simp
      | ok computed =>
        by_cases hcomputed : computed = entry.entryHash
        · have hone : (1 : UInt64).toNat = 1 := rfl
          by_cases hlt : s.expectedSequence.toNat + 1 < 2 ^ 64
          · have hadd : Machine.checkedAdd s.expectedSequence 1 = some (s.expectedSequence + 1) :=
              if_pos (by rwa [hone])
            simp only [hadd, hcomputed, hseq, hlt, accept, ne_eq, not_true_eq_false,
              if_false, true_and, and_self]
            exact ⟨fun h => (Except.ok.inj h).symm, fun h => by rw [h]⟩
          · have hadd : Machine.checkedAdd s.expectedSequence 1 = none := if_neg (by rwa [hone])
            simp only [hadd, hcomputed, hlt, ne_eq, not_true_eq_false, if_false, and_false,
              false_and, reduceCtorEq]
        · simp [hcomputed]
    · simp [hseq, hprev]
  · simp [hseq]

theorem bind_eq_ok_iff {ε α β : Type} {x : Except ε α} {f : α → Except ε β} {b : β} :
    (x >>= f) = .ok b ↔ ∃ a, x = .ok a ∧ f a = .ok b := by
  cases x with
  | error | ok => simp [bind, Except.bind]

theorem boundedBody_validateLine_eq_ok_iff :
    boundedBody (validateLine D J key) s line = .ok s' ↔
      Readable J line ∧ Follows D key s (entryOf J line).toList ∧
        s' = (entryOf J line).toList.foldl accept s := by
  by_cases hlen : line.length ≤ maxWalEntryBytes
  · rw [boundedBody, if_neg (by omega), validateLine, Readable, entryOf]
    by_cases hblank : isBlank line = true
    · simp only [hblank, if_true, hlen, true_or, and_self, Option.toList_none, Follows, true_and,
        foldl_nil]
      exact ⟨fun h => (Except.ok.inj h).symm, fun h => by rw [h]⟩
    · cases hparse : J.parseEntry line with
      | none => simp [hblank]
      | some entry =>
        simp only [hblank, if_false, hlen, checkEntry_eq_ok_iff, Option.isSome_some, or_true,
          true_and, Option.toList_some, foldl_cons, foldl_nil, Bool.false_eq_true]
  · rw [boundedBody, if_pos (by omega)]
    simp [Readable, hlen]

theorem follows_append :
    Follows D key s (entries ++ entries') ↔
      Follows D key s entries ∧ Follows D key (entries.foldl accept s) entries' := by
  induction entries generalizing s with
  | nil => simp [Follows]
  | cons entry entries ih => simp [Follows, ih, and_assoc]

theorem filterMap_entryOf_cons :
    (line :: ls).filterMap (entryOf J) = (entryOf J line).toList ++ ls.filterMap (entryOf J) := by
  cases h : entryOf J line <;> simp [h]

theorem foldlM_validateLine_eq_ok_iff :
    ls.foldlM (boundedBody (validateLine D J key)) s = .ok s' ↔
      (∀ line ∈ ls, Readable J line) ∧ Follows D key s (ls.filterMap (entryOf J)) ∧
        s' = (ls.filterMap (entryOf J)).foldl accept s := by
  induction ls generalizing s with
  | nil => simp [Follows, pure, Except.pure, eq_comm]
  | cons line ls ih =>
    rw [foldlM_cons, bind_eq_ok_iff, filterMap_entryOf_cons, follows_append,
      foldl_append, forall_mem_cons]
    constructor
    · rintro ⟨s₁, hline, hrest⟩
      obtain ⟨hread, hfollows, rfl⟩ := boundedBody_validateLine_eq_ok_iff.1 hline
      obtain ⟨hreads, hfollows', hs'⟩ := ih.1 hrest
      exact ⟨⟨hread, hreads⟩, ⟨hfollows, hfollows'⟩, hs'⟩
    · rintro ⟨⟨hread, hreads⟩, ⟨hfollows, hfollows'⟩, hs'⟩
      exact ⟨_, boundedBody_validateLine_eq_ok_iff.2 ⟨hread, hfollows, rfl⟩,
        ih.2 ⟨hreads, hfollows', hs'⟩⟩

section Visit

variable {β : Type} {decode : Bytes → Option β}

def Decodes (decode : Bytes → Option β) (ls : List Bytes) (seen : List β) : Prop :=
  List.Forall₂ (fun line x => decode line = some x) (ls.filter fun line => !isBlank line) seen

theorem boundedBody_visitLine_eq_ok_iff {seen : List β} {x : ChainState × List β} :
    boundedBody (visitLine D J key decode) (s, seen) line = .ok x ↔
      boundedBody (validateLine D J key) s line = .ok x.1 ∧
        ∃ new, Decodes decode [line] new ∧ x.2 = seen ++ new := by
  obtain ⟨s', seen'⟩ := x
  by_cases hlen : line.length ≤ maxWalEntryBytes
  · rw [boundedBody, boundedBody, if_neg (by omega), if_neg (by omega), visitLine, validateLine]
    by_cases hblank : isBlank line = true
    · simp [hblank, Decodes, eq_comm]
    · cases hparse : J.parseEntry line with
      | none => simp [hblank]
      | some entry =>
        cases hcheck : checkEntry D key s entry with
        | error error => simp [hblank, hcheck]
        | ok s₁ =>
          cases hdecode : decode line with
          | none => simp [hblank, hcheck, hdecode, Decodes, forall₂_cons_left_iff]
          | some typed =>
            simp [hblank, hcheck, hdecode, Decodes, forall₂_cons_left_iff, eq_comm]
  · rw [boundedBody, boundedBody, if_pos (by omega), if_pos (by omega)]
    simp

theorem decodes_cons {seen : List β} :
    Decodes decode (line :: ls) seen ↔
      ∃ new rest, Decodes decode [line] new ∧ Decodes decode ls rest ∧ seen = new ++ rest := by
  by_cases hblank : isBlank line = true
  · simp [Decodes, hblank]
  · simp only [Decodes, filter_cons, hblank, Bool.not_false, if_true, filter_nil]
    constructor
    · intro h
      obtain ⟨x, rest, hx, hrest, rfl⟩ := forall₂_cons_left_iff.1 h
      exact ⟨[x], rest, .cons hx .nil, hrest, rfl⟩
    · rintro ⟨new, rest, hnew, hrest, rfl⟩
      obtain ⟨x, tail, hx, htail, rfl⟩ := forall₂_cons_left_iff.1 hnew
      obtain rfl := forall₂_nil_left_iff.1 htail
      exact .cons hx hrest

/-- The loop that visits does what the loop that validates does, where the lines decode. -/
theorem foldlM_visitLine_eq_ok_iff {seen seen' : List β} :
    ls.foldlM (boundedBody (visitLine D J key decode)) (s, seen) = .ok (s', seen') ↔
      ls.foldlM (boundedBody (validateLine D J key)) s = .ok s' ∧
        ∃ new, Decodes decode ls new ∧ seen' = seen ++ new := by
  induction ls generalizing s seen with
  | nil => simp [pure, Except.pure, eq_comm, Decodes]
  | cons line ls ih =>
    have hline : ∀ x, boundedBody (visitLine D J key decode) (s, seen) line = .ok x ↔
        boundedBody (validateLine D J key) s line = .ok x.1 ∧
          ∃ new, Decodes decode [line] new ∧ x.2 = seen ++ new :=
      fun x => boundedBody_visitLine_eq_ok_iff
    rw [foldlM_cons, foldlM_cons, bind_eq_ok_iff, bind_eq_ok_iff]
    constructor
    · rintro ⟨⟨s₁, seen₁⟩, hfirst, hrest⟩
      obtain ⟨hvalid, new, hnew, rfl⟩ := (hline _).1 hfirst
      obtain ⟨hvalid', rest, hrest', rfl⟩ := ih.1 hrest
      exact ⟨⟨s₁, hvalid, hvalid'⟩, new ++ rest, decodes_cons.2 ⟨new, rest, hnew, hrest', rfl⟩,
        by rw [append_assoc]⟩
    · rintro ⟨⟨s₁, hvalid, hvalid'⟩, all, hall, rfl⟩
      obtain ⟨new, rest, hnew, hrest, rfl⟩ := decodes_cons.1 hall
      exact ⟨(s₁, _), (hline _).2 ⟨hvalid, new, hnew, rfl⟩,
        ih.2 ⟨hvalid', rest, hrest, by rw [append_assoc]⟩⟩

theorem decodes_parseEntry (h : ∀ line ∈ ls, Readable J line) (seen : List WalEntry) :
    Decodes J.parseEntry ls seen ↔ seen = ls.filterMap (entryOf J) := by
  induction ls generalizing seen with
  | nil => simp [Decodes]
  | cons line ls ih =>
    obtain ⟨hline, hls⟩ := forall_mem_cons.1 h
    have hfirst : ∀ new, Decodes J.parseEntry [line] new ↔ new = (entryOf J line).toList := by
      intro new
      by_cases hblank : isBlank line = true
      · simp [Decodes, hblank, entryOf]
      · obtain ⟨entry, hentry⟩ := Option.isSome_iff_exists.1 (hline.2.resolve_left hblank)
        simp [Decodes, hblank, entryOf, hentry, forall₂_cons_left_iff, eq_comm]
    simp only [decodes_cons, hfirst, ih hls, filterMap_entryOf_cons]
    constructor
    · rintro ⟨new, rest, rfl, rfl, rfl⟩
      rfl
    · rintro rfl
      exact ⟨_, _, rfl, rfl, rfl⟩

end Visit

theorem forEachLine_eq_ok_iff :
    forEachLine (validateLine D J key) s bytes = .ok s' ↔
      (∀ line ∈ lines newline bytes, Readable J line) ∧ Follows D key s (entriesOf J bytes) ∧
        s' = (entriesOf J bytes).foldl accept s := by
  rw [forEachLine_eq_foldlM, foldlM_validateLine_eq_ok_iff]
  rfl

variable {head : UInt64 × Bytes}

theorem validateChainReader_eq_ok_iff :
    validateChainReader D J key bytes = .ok head ↔
      (∀ line ∈ lines newline bytes, Readable J line) ∧ Follows D key .init (entriesOf J bytes) ∧
        head = (((entriesOf J bytes).foldl accept .init).lastSequence,
          ((entriesOf J bytes).foldl accept .init).lastHash) := by
  rw [validateChainReader]
  constructor
  · intro h
    cases hfold : forEachLine (validateLine D J key) .init bytes with
    | error error =>
      rw [hfold] at h
      cases h
    | ok s =>
      rw [hfold] at h
      obtain ⟨hread, hfollows, rfl⟩ := forEachLine_eq_ok_iff.1 hfold
      exact ⟨hread, hfollows, (Except.ok.inj h).symm⟩
  · rintro ⟨hread, hfollows, rfl⟩
    rw [forEachLine_eq_ok_iff.2 ⟨hread, hfollows, rfl⟩]
    rfl

theorem visitVerifiedWalInner_eq_ok_iff_decodes {β : Type} {decode : Bytes → Option β}
    {seen : List β} :
    visitVerifiedWalInner D J key decode bytes = .ok (head, seen) ↔
      validateChainInner D J key bytes = .ok head ∧ Decodes decode (lines newline bytes) seen := by
  rw [visitVerifiedWalInner, validateChainInner]
  cases validateKey key with
  | error error => simp
  | ok valid =>
    simp only [validateChainReader, forEachLine_eq_foldlM]
    constructor
    · intro h
      cases hfold : (lines newline bytes).foldlM
          (boundedBody (visitLine D J key decode)) (.init, []) with
      | error error =>
        rw [hfold] at h
        cases h
      | ok x =>
        obtain ⟨s', seen'⟩ := x
        rw [hfold] at h
        cases h
        obtain ⟨hvalid, new, hnew, rfl⟩ := foldlM_visitLine_eq_ok_iff.1 hfold
        exact ⟨by rw [hvalid]; rfl, hnew⟩
    · rintro ⟨h, hdecodes⟩
      cases hfold : (lines newline bytes).foldlM (boundedBody (validateLine D J key)) .init with
      | error error =>
        rw [hfold] at h
        cases h
      | ok s' =>
        rw [hfold] at h
        cases h
        rw [foldlM_visitLine_eq_ok_iff.2 ⟨hfold, seen, hdecodes, rfl⟩]
        rfl

theorem readable_of_validateChainInner (h : validateChainInner D J key bytes = .ok head) :
    ∀ line ∈ lines newline bytes, Readable J line := by
  rw [validateChainInner] at h
  cases hkey : validateKey key with
  | error error =>
    rw [hkey] at h
    cases h
  | ok valid =>
    rw [hkey] at h
    exact (validateChainReader_eq_ok_iff.1 h).1

theorem visitVerifiedWalInner_eq_ok_iff {seen : List WalEntry} :
    visitVerifiedWalInner D J key J.parseEntry bytes = .ok (head, seen) ↔
      validateChainInner D J key bytes = .ok head ∧ seen = entriesOf J bytes := by
  rw [visitVerifiedWalInner_eq_ok_iff_decodes]
  exact and_congr_right fun hvalid =>
    decodes_parseEntry (readable_of_validateChainInner hvalid) seen

theorem readVerifiedWalInner_eq_ok_iff_decodes {β : Type} {decode : Bytes → Option β}
    {seen : List β} :
    readVerifiedWalInner D J key decode bytes = .ok seen ↔
      (∃ head, validateChainInner D J key bytes = .ok head) ∧
        Decodes decode (lines newline bytes) seen := by
  rw [readVerifiedWalInner]
  constructor
  · intro h
    cases hvisit : visitVerifiedWalInner D J key decode bytes with
    | error error =>
      rw [hvisit] at h
      cases h
    | ok x =>
      obtain ⟨head, seen'⟩ := x
      rw [hvisit] at h
      cases h
      obtain ⟨hvalid, hdecodes⟩ := visitVerifiedWalInner_eq_ok_iff_decodes.1 hvisit
      exact ⟨⟨head, hvalid⟩, hdecodes⟩
  · rintro ⟨⟨head, hvalid⟩, hdecodes⟩
    rw [visitVerifiedWalInner_eq_ok_iff_decodes.2 ⟨hvalid, hdecodes⟩]
    rfl

theorem readVerifiedWalInner_eq_ok_iff :
    readVerifiedWalInner D J key J.parseEntry bytes = .ok entries ↔
      (∃ head, validateChainInner D J key bytes = .ok head) ∧ entries = entriesOf J bytes := by
  rw [readVerifiedWalInner_eq_ok_iff_decodes]
  refine and_congr_right ?_
  rintro ⟨head, hvalid⟩
  exact decodes_parseEntry (readable_of_validateChainInner hvalid) entries

/-! ### The head -/

theorem lastHash_foldl (hkey : validateKey key = .ok ()) (h : Follows D key s entries) :
    (entries.foldl accept s).lastHash =
      Chain.head (link D key) s.lastHash (entries.map WalEntry.data) := by
  induction entries generalizing s with
  | nil => rfl
  | cons entry entries ih =>
    obtain ⟨⟨-, -, hhash, -⟩, hrest⟩ := h
    rw [computeHash_of_validateKey hkey] at hhash
    rw [foldl_cons, ih hrest, map_cons]
    simp only [Chain.head, foldl_cons, accept, Except.ok.inj hhash]

theorem expectedSequence_accept (entry : WalEntry) (h : s.expectedSequence.toNat + 1 < 2 ^ 64) :
    (s.accept entry).expectedSequence.toNat = s.expectedSequence.toNat + 1 := by
  have hone : (1 : UInt64).toNat = 1 := rfl
  rw [accept, UInt64.toNat_add, hone, Nat.mod_eq_of_lt h]

theorem sequence_foldl (h : Follows D key s entries)
    (hs : s.expectedSequence.toNat = s.lastSequence.toNat + 1) :
    (entries.foldl accept s).expectedSequence.toNat =
        (entries.foldl accept s).lastSequence.toNat + 1 ∧
      (entries.foldl accept s).lastSequence.toNat =
        s.lastSequence.toNat + entries.length := by
  induction entries generalizing s with
  | nil => exact ⟨hs, rfl⟩
  | cons entry entries ih =>
    obtain ⟨⟨hseq, -, -, hlt⟩, hrest⟩ := h
    have hnext := expectedSequence_accept entry hlt
    have hlast : (s.accept entry).lastSequence.toNat = s.expectedSequence.toNat := by
      rw [accept, hseq]
    obtain ⟨h1, h2⟩ := ih hrest (by omega)
    rw [foldl_cons, length_cons]
    exact ⟨h1, by omega⟩

theorem lastSequence_foldl_init (h : Follows D key .init entries) :
    (entries.foldl accept .init).lastSequence.toNat = entries.length := by
  rw [(sequence_foldl h rfl).2]
  exact Nat.zero_add _

theorem expectedSequence_foldl_init (h : Follows D key .init entries) :
    (entries.foldl accept .init).expectedSequence.toNat = entries.length + 1 := by
  rw [(sequence_foldl h rfl).1, lastSequence_foldl_init h]

theorem map_sequence_of_follows (h : Follows D key s entries) :
    entries.map (fun entry => entry.sequence.toNat) =
      List.range' s.expectedSequence.toNat entries.length := by
  induction entries generalizing s with
  | nil => rfl
  | cons entry entries ih =>
    obtain ⟨⟨hseq, -, -, hlt⟩, hrest⟩ := h
    rw [map_cons, length_cons, range'_succ, ih hrest, expectedSequence_accept entry hlt, hseq]

def IsPreviousHash (h : Bytes) : Prop := h = genesis ∨ (h.length = 64 ∧ ∀ b ∈ h, isHexByte b = true)

theorem isPreviousHash_link {h d : Bytes} : IsPreviousHash (link D key h d) :=
  .inr ⟨length_link, fun _ hb => isHexByte_of_mem_link hb⟩

theorem isPreviousHash_of_mem_linked {start : Bytes} {ds : List Bytes} {p : Bytes × Bytes}
    (hstart : IsPreviousHash start) (hp : p ∈ Chain.linked (link D key) start ds) :
    IsPreviousHash p.1 := by
  induction ds generalizing start with
  | nil => cases hp
  | cons d ds ih =>
    rcases mem_cons.1 hp with rfl | hp
    · exact hstart
    · exact ih isPreviousHash_link hp

theorem isPreviousHash_head (D : Digests) (key : Option Bytes) (ds : List Bytes) :
    IsPreviousHash (Chain.head (link D key) genesis ds) := by
  cases ds using List.reverseRecOn with
  | nil => exact .inl rfl
  | append_singleton ds d =>
    rw [Chain.head_append_singleton]
    exact isPreviousHash_link

theorem head_of_validateChainInner {n : UInt64} {h : Bytes}
    (hok : validateChainInner D J key bytes = .ok (n, h)) :
    validateKey key = .ok () ∧ Follows D key .init (entriesOf J bytes) ∧
      n.toNat = (payloadsOf J bytes).length ∧
      h = Chain.head (link D key) genesis (payloadsOf J bytes) := by
  rw [validateChainInner] at hok
  cases hkey : validateKey key with
  | error error =>
    rw [hkey] at hok
    cases hok
  | ok valid =>
    rw [hkey] at hok
    obtain ⟨-, hfollows, hhead⟩ := validateChainReader_eq_ok_iff.1 hok
    cases hhead
    refine ⟨rfl, hfollows, ?_, lastHash_foldl hkey hfollows⟩
    rw [lastSequence_foldl_init hfollows, payloadsOf, length_map]

theorem verifyHead_eq_ok {anchor : WalAnchor} {found : UInt64 × Bytes} {keyed : Bool}
    (h : anchor.verifyHead found keyed = .ok head) :
    found = (anchor.sequence, anchor.lastHash) := by
  simp only [WalAnchor.verifyHead] at h
  split at h
  · cases h
  · split at h
    · cases h
    · next hmatch =>
      obtain ⟨hseq, hhash⟩ := not_or.1 hmatch
      rw [← not_not.1 hseq, ← not_not.1 hhash]

end

end Calybris.Wal
