import Calybris.Text.Basic

/-!
# Blocks of lines

A block is lines one after the other, each ended by a newline. Cutting it at its
newlines gives the lines back. A block of non-empty lines holds no blank line, so in a
text followed by a blank line and such a block the last blank line is that one.
-/

namespace Calybris.Text

open List

def unlines (lines : List (List Char)) : List Char := lines.flatMap fun line => line ++ ['\n']

section Lines

variable {lines : List (List Char)} {text block : List Char}

@[simp] theorem unlines_nil : unlines [] = [] := rfl

theorem unlines_cons (line : List Char) (lines : List (List Char)) :
    unlines (line :: lines) = line ++ '\n' :: unlines lines := by
  simp [unlines]

theorem unlines_eq_intercalate (h : lines ≠ []) :
    unlines lines = ['\n'].intercalate lines ++ ['\n'] := by
  induction lines with
  | nil => exact absurd rfl h
  | cons line lines ih =>
    cases lines with
    | nil => simp [unlines]
    | cons next lines =>
      rw [unlines_cons, ih (by simp), intercalate_cons_cons]
      simp

theorem stripNewline_concat (text : List Char) : stripNewline (text ++ ['\n']) = some text := by
  simp [stripNewline]

theorem eq_concat_of_stripNewline (h : stripNewline block = some text) :
    block = text ++ ['\n'] := by
  unfold stripNewline at h
  split_ifs at h with hlast
  cases h
  exact (dropLast_append_getLast? _ hlast).symm

theorem unlines_splitOn (h : stripNewline block = some text) :
    unlines (text.splitOn '\n') = block := by
  rw [unlines_eq_intercalate (splitOn_ne_nil _ _), intercalate_splitOn, eq_concat_of_stripNewline h]

theorem splitOn_unlines (hne : lines ≠ []) (h : ∀ line ∈ lines, '\n' ∉ line) :
    ∃ text, stripNewline (unlines lines) = some text ∧ text.splitOn '\n' = lines := by
  refine ⟨['\n'].intercalate lines, ?_, splitOn_intercalate _ h hne⟩
  rw [unlines_eq_intercalate hne, stripNewline_concat]

end Lines

section Blank

variable {lines : List (List Char)} {line text block rest note : List Char}

theorem splitLastBlank_append (h : splitLastBlank ('\n' :: rest) = none) (text : List Char) :
    splitLastBlank (text ++ '\n' :: '\n' :: rest) = some (text ++ ['\n'], rest) := by
  induction text with
  | nil =>
    rw [nil_append, splitLastBlank, h]
    rfl
  | cons c text ih => simp [splitLastBlank, ih]

theorem eq_of_splitLastBlank (h : splitLastBlank note = some (text, rest)) :
    ∃ front, text = front ++ ['\n'] ∧ note = text ++ '\n' :: rest := by
  induction note generalizing text with
  | nil => cases h
  | cons c note ih =>
    rw [splitLastBlank] at h
    split at h
    · next parts hparts =>
      cases h
      obtain ⟨front, hfront, hnote⟩ := ih hparts
      exact ⟨c :: front, by rw [hfront]; rfl, by rw [hnote]; rfl⟩
    · split_ifs at h with hblank
      cases h
      obtain ⟨rfl, hhead⟩ := hblank
      refine ⟨[], rfl, ?_⟩
      rw [cons_append, nil_append, cons_head?_tail hhead]

theorem splitLastBlank_line (hline : '\n' ∉ line) (hne : line ≠ [])
    (hrest : splitLastBlank ('\n' :: rest) = none) :
    splitLastBlank ('\n' :: (line ++ '\n' :: rest)) = none := by
  have hbody : splitLastBlank (line ++ '\n' :: rest) = none := by
    clear hne
    induction line with
    | nil => exact hrest
    | cons c line ih =>
      obtain ⟨hc, htail⟩ : '\n' ≠ c ∧ '\n' ∉ line := by simpa using hline
      simp [splitLastBlank, ih htail, Ne.symm hc]
  cases line with
  | nil => exact absurd rfl hne
  | cons c line =>
    have hc : '\n' ≠ c := fun h => hline (h ▸ mem_cons_self)
    rw [splitLastBlank, hbody]
    simp [Ne.symm hc]

theorem splitLastBlank_unlines (h : ∀ line ∈ lines, line ≠ [] ∧ '\n' ∉ line) :
    splitLastBlank ('\n' :: unlines lines) = none := by
  induction lines with
  | nil => rfl
  | cons line lines ih =>
    obtain ⟨⟨hne, hline⟩, hrest⟩ := forall_mem_cons.1 h
    rw [unlines_cons]
    exact splitLastBlank_line hline hne (ih hrest)

theorem not_isSuffixOf_unlines (h : ∀ line ∈ lines, line ≠ [] ∧ '\n' ∉ line) :
    ¬['\n', '\n'] <:+ unlines lines := by
  rintro ⟨front, hfront⟩
  have hnone := splitLastBlank_unlines h
  rw [← hfront, ← cons_append] at hnone
  have hsome : splitLastBlank ('\n' :: front ++ ['\n', '\n']) =
      some ('\n' :: front ++ ['\n'], []) := splitLastBlank_append rfl _
  rw [hnone] at hsome
  cases hsome

def splitFirstBlank : List Char → Option (List Char × List Char)
  | [] => none
  | c :: rest =>
    if c = '\n' ∧ rest.head? = some '\n' then some ([], rest.tail)
    else (splitFirstBlank rest).map (Prod.map (c :: ·) id)

theorem splitFirstBlank_append (hline : '\n' ∉ line) (rest : List Char) :
    splitFirstBlank (line ++ '\n' :: '\n' :: rest) = some (line, rest) := by
  induction line with
  | nil => rfl
  | cons c line ih =>
    obtain ⟨hc, htail⟩ : '\n' ≠ c ∧ '\n' ∉ line := by simpa using hline
    simp [splitFirstBlank, ih htail, Ne.symm hc]

theorem splitFirstBlank_line (hline : '\n' ∉ line) (hrest : rest.head? ≠ some '\n') :
    splitFirstBlank (line ++ '\n' :: rest) =
      (splitFirstBlank rest).map (Prod.map (line ++ '\n' :: ·) id) := by
  induction line with
  | nil => simp [splitFirstBlank, hrest]
  | cons c line ih =>
    obtain ⟨hc, htail⟩ : '\n' ≠ c ∧ '\n' ∉ line := by simpa using hline
    rw [cons_append, splitFirstBlank, if_neg (fun h => hc h.1.symm), ih htail, Option.map_map]
    rfl

theorem splitFirstBlank_unlines (h : ∀ line ∈ lines, line ≠ [] ∧ '\n' ∉ line) (hne : lines ≠ [])
    (rest : List Char) :
    splitFirstBlank (unlines lines ++ '\n' :: rest) =
      some (['\n'].intercalate lines, rest) := by
  induction lines with
  | nil => exact absurd rfl hne
  | cons line lines ih =>
    obtain ⟨⟨-, hline⟩, htail⟩ := forall_mem_cons.1 h
    rw [unlines_cons, append_assoc, cons_append]
    cases lines with
    | nil => simpa using splitFirstBlank_append hline rest
    | cons next lines =>
      have hhead : (unlines (next :: lines) ++ '\n' :: rest).head? ≠ some '\n' := by
        obtain ⟨hnext, hnl⟩ := htail next mem_cons_self
        obtain ⟨c, front, rfl⟩ := exists_cons_of_ne_nil hnext
        rw [unlines_cons, cons_append, cons_append, head?_cons]
        exact fun heq => hnl (Option.some.inj heq ▸ mem_cons_self)
      rw [splitFirstBlank_line hline hhead, ih htail (cons_ne_nil _ _), intercalate_cons_cons]
      simp

theorem eq_of_splitFirstBlank (h : splitFirstBlank note = some (text, rest)) :
    note = text ++ '\n' :: '\n' :: rest := by
  induction note generalizing text with
  | nil => cases h
  | cons c note ih =>
    rw [splitFirstBlank] at h
    split_ifs at h with hblank
    · cases h
      obtain ⟨rfl, hhead⟩ := hblank
      rw [nil_append, cons_head?_tail hhead]
    · obtain ⟨⟨front, rest'⟩, hsplit, heq⟩ := Option.map_eq_some_iff.1 h
      cases heq
      rw [ih hsplit]
      rfl

end Blank

section Once

variable {sep : Char} {text a b : List Char}

theorem splitOnce_append (h : sep ∉ a) (b : List Char) :
    splitOnce sep (a ++ sep :: b) = some (a, b) := by
  induction a with
  | nil => simp [splitOnce]
  | cons c a ih =>
    obtain ⟨hc, ha⟩ : sep ≠ c ∧ sep ∉ a := by simpa using h
    simp [splitOnce, Ne.symm hc, ih ha]

theorem eq_of_splitOnce (h : splitOnce sep text = some (a, b)) : text = a ++ sep :: b := by
  induction text generalizing a with
  | nil => cases h
  | cons c text ih =>
    rw [splitOnce] at h
    split_ifs at h with hc
    · cases h
      rw [hc, nil_append]
    · obtain ⟨⟨x, y⟩, hparts, heq⟩ := Option.map_eq_some_iff.1 h
      cases heq
      rw [ih hparts, cons_append]

end Once

end Calybris.Text
