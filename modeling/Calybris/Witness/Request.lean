import Calybris.Note.Canonical
import Calybris.Witness.AddCheckpoint

/-!
# The text of a request

An `add-checkpoint` request is the old size, the proof, one hash a line, a blank line, and
the note. The first blank line ends the proof, since no line before it is empty; what follows
is the note whatever it holds, blank lines and lines like `old 5` included. Base64 and
decimals have one spelling each, so a request has one text.

The limit on the proof is never in the way: a proof has at most one hash more than its tree
has levels.
-/

namespace Calybris.Witnesses

open Text Merkle Note List

def maxRequestBytes : Nat := 128 * 1024

def maxProofHashes : Nat := 128

namespace AddCheckpoint

variable (P : Primitives)

def oldText : List Char := "old ".toList

def parseOld (line : List Char) : Except WitnessError Nat :=
  if oldText.isPrefixOf line then
    let old := line.drop oldText.length
    if isCanonicalDecimal old then
      if ofDecimal old < 2 ^ 64 then .ok (ofDecimal old)
      else .error (.malformed "old size exceeds u64")
    else .error (.malformed "old size must be decimal without leading zeros")
  else .error (.malformed "request must start with `old <size>`")

def parseProof : List (List Char) → List Bytes32 → Except WitnessError (List Bytes32)
  | [], proof => .ok proof
  | line :: lines, proof =>
    if proof.length = maxProofHashes then .error (.malformed "consistency proof is too long")
    else
      match P.base64Decode line with
      | none => .error (.malformed "proof line is not standard base64")
      | some raw =>
        match toBytes32 raw with
        | none => .error (.malformed "proof line is not a 32-byte hash")
        | some hash => parseProof lines (proof ++ [hash])

def parse (body : List Char) : Except WitnessError AddCheckpoint :=
  if utf8Len body > maxRequestBytes then .error (.malformed "request body is too large")
  else
    match splitFirstBlank body with
    | none => .error (.malformed "request has no blank line before the checkpoint")
    | some (head, note) =>
      match head.splitOn '\n' with
      | [] => .error (.malformed "request must start with `old <size>`")
      | first :: lines =>
        match parseOld first with
        | .error error => .error error
        | .ok oldSize =>
          match parseProof P lines [] with
          | .error error => .error error
          | .ok proof => .ok ⟨oldSize, proof, note⟩

def render (request : AddCheckpoint) : List Char :=
  oldText ++ decimal request.oldSize ++ '\n' ::
    (request.proof.flatMap fun hash => P.base64Encode hash.1 ++ ['\n']) ++ '\n' :: request.note

def headLines (request : AddCheckpoint) : List (List Char) :=
  (oldText ++ decimal request.oldSize) :: request.proof.map fun hash => P.base64Encode hash.1

variable {P} {request : AddCheckpoint} {body line : List Char} {lines : List (List Char)}
  {proof front : List Bytes32}

theorem render_eq (request : AddCheckpoint) :
    request.render P = unlines (request.headLines P) ++ '\n' :: request.note := by
  rw [render, headLines, unlines_cons, unlines, flatMap_map]

theorem parseOld_decimal {n : Nat} (h : n < 2 ^ 64) : parseOld (oldText ++ decimal n) = .ok n := by
  rw [parseOld, if_pos (by simp), drop_left]
  dsimp only
  rw [if_pos (isCanonicalDecimal_decimal n), ofDecimal_decimal, if_pos h]

theorem of_parseOld {n : Nat} (h : parseOld line = .ok n) : line = oldText ++ decimal n := by
  rw [parseOld] at h
  dsimp only at h
  split_ifs at h with hstart hdecimal hsize
  obtain ⟨old, rfl⟩ := isPrefixOf_iff_prefix.1 hstart
  rw [drop_left] at h hdecimal
  rw [← Except.ok.inj h, decimal_ofDecimal hdecimal]

section

variable (hP : P.StrictBase64)

include hP

theorem parseProof_encode (front : List Bytes32) (h : (front ++ proof).length ≤ maxProofHashes) :
    parseProof P (proof.map fun hash => P.base64Encode hash.1) front = .ok (front ++ proof) := by
  induction proof generalizing front with
  | nil => rw [map_nil, parseProof, append_nil]
  | cons hash proof ih =>
    rw [length_append, length_cons] at h
    rw [map_cons, parseProof, if_neg (by omega), hP.decode_encode]
    simp only [toBytes32_val]
    rw [ih _ (by rw [append_assoc, length_append]; simpa using h), append_assoc]
    rfl

theorem of_parseProof (h : parseProof P lines front = .ok proof) :
    (proof.map fun hash => P.base64Encode hash.1) =
      (front.map fun hash => P.base64Encode hash.1) ++ lines := by
  induction lines generalizing front with
  | nil =>
    cases h
    rw [append_nil]
  | cons line lines ih =>
    rw [parseProof] at h
    split_ifs at h
    split at h
    · cases h
    next raw hraw =>
    split at h
    · cases h
    next hash hhash =>
    have hline : P.base64Encode hash.1 = line := by
      rw [eq_of_toBytes32 hhash, hP.encode_decode hraw]
    rw [ih h, map_append, map_singleton, hline, append_assoc, singleton_append]

theorem of_mem_headLines (h : line ∈ request.headLines P) : line ≠ [] ∧ '\n' ∉ line := by
  rcases mem_cons.1 h with rfl | hproof
  · refine ⟨by simp [oldText], ?_⟩
    rw [mem_append, not_or]
    exact ⟨by decide, newline_notMem_decimal _⟩
  · obtain ⟨hash, -, rfl⟩ := mem_map.1 hproof
    have hne : hash.1 ≠ [] := ne_nil_of_length_pos (by rw [hash.2]; decide)
    have hvalid := hP.isValidLine_encode hne
    exact ⟨ne_nil_of_isValidLine hvalid, newline_notMem_of_isValidLine hvalid⟩

theorem parse_render (hold : request.oldSize < 2 ^ 64)
    (hproof : request.proof.length ≤ maxProofHashes)
    (hsize : utf8Len (request.render P) ≤ maxRequestBytes) :
    parse P (request.render P) = .ok request := by
  have hlines : ∀ line ∈ request.headLines P, line ≠ [] ∧ '\n' ∉ line :=
    fun line hline => of_mem_headLines hP hline
  have hsplit := splitFirstBlank_unlines hlines (cons_ne_nil _ _) request.note
  have hhead : (['\n'].intercalate (request.headLines P)).splitOn '\n' = request.headLines P :=
    splitOn_intercalate _ (fun line hline => (hlines line hline).2) (cons_ne_nil _ _)
  have hproofs := parseProof_encode hP [] hproof
  rw [parse, if_neg (by omega), render_eq, hsplit]
  simp only [hhead]
  rw [headLines]
  simp only [parseOld_decimal hold]
  rw [hproofs]
  rfl

theorem render_of_parse (h : parse P body = .ok request) : request.render P = body := by
  rw [parse] at h
  split_ifs at h
  split at h
  · cases h
  next head note hsplit =>
  split at h
  · cases h
  next first lines hlines =>
  split at h
  · cases h
  next oldSize hold =>
  split at h
  · cases h
  next proof hproof =>
  cases h
  have hhead : headLines P ⟨oldSize, proof, note⟩ = head.splitOn '\n' := by
    have hmap := of_parseProof hP hproof
    rw [map_nil, nil_append] at hmap
    rw [hlines, headLines, ← of_parseOld hold, hmap]
  rw [render_eq, hhead, unlines_eq_intercalate (splitOn_ne_nil _ _),
    intercalate_splitOn, eq_of_splitFirstBlank hsplit]
  simp

end

/-- A request has one text: it reads back as itself while it is within the limits, whatever
its note holds, and what is accepted is what is rendered. No consistency proof is over the
limit; a slice of leaf hashes has at most `2 ^ 64` of them. -/
theorem request_canonical (P : Primitives) (hP : P.StrictBase64) :
    (∀ request : AddCheckpoint, request.oldSize < 2 ^ 64 →
        request.proof.length ≤ maxProofHashes →
        utf8Len (request.render P) ≤ maxRequestBytes →
          parse P (request.render P) = .ok request) ∧
      (∀ body request, parse P body = .ok request → request.render P = body) ∧
      ∀ (d : List Bytes32) oldSize proof, d.length ≤ 2 ^ 64 →
        P.hashing.consistencyProof d oldSize = .ok proof → proof.length ≤ maxProofHashes := by
  refine ⟨fun _ => parse_render hP, fun _ _ => render_of_parse hP, ?_⟩
  intro d oldSize proof hlen hproof
  exact (Hashing.length_consistencyProof_le hlen hproof).trans (by decide)

/-- A note with a blank line and a line like the first one of a request. -/
theorem request_canonical_nested :
    parse standard (render standard ⟨5, [zeroHash], "\nold 7\n\n".toList⟩) =
      .ok ⟨5, [zeroHash], "\nold 7\n\n".toList⟩ :=
  (request_canonical standard strictBase64_standard).1 _ (by decide)
    (by decide) (by decide +kernel)

end AddCheckpoint

end Calybris.Witnesses
