import Calybris.Text.Basic

/-!
# Texts as Python reads them

What a Python program does with a file of text: it decodes UTF-8, reads every line ending
as a newline, and splits the text into lines. `str.splitlines` ends a line at more
characters than the newline: at every Unicode line boundary, three of which lie outside
ASCII.
-/

namespace Calybris.Text

open List

def decodeUtf8 (bytes : Bytes) : Option (List Char) :=
  (String.fromUTF8? ⟨bytes.toArray⟩).map String.toList

/-- Universal newlines: `\r\n` and `\r` are read as `\n`. -/
def translateNewlines : List Char → List Char
  | '\r' :: '\n' :: text => '\n' :: translateNewlines text
  | '\r' :: text => '\n' :: translateNewlines text
  | c :: text => c :: translateNewlines text
  | [] => []

/-- The characters at which `splitlines` ends a line. -/
def isLineBoundary (c : Char) : Bool :=
  [0x0a, 0x0b, 0x0c, 0x0d, 0x1c, 0x1d, 0x1e, 0x85, 0x2028, 0x2029].contains c.toNat

def splitlines : List Char → List (List Char)
  | '\r' :: '\n' :: text => [] :: splitlines text
  | c :: text =>
    if isLineBoundary c then [] :: splitlines text
    else
      match splitlines text with
      | [] => [[c]]
      | line :: lines => (c :: line) :: lines
  | [] => []

def textLines (text : List Char) : List (List Char) := splitlines (translateNewlines text)

def indexOf (sub : List Char) : List Char → Option Nat
  | [] => if sub = [] then some 0 else none
  | c :: text => if sub.isPrefixOf (c :: text) then some 0 else (indexOf sub text).map (· + 1)

section

variable {a b text : List Char} {c x : Char} {sub : List Char}

theorem decodeUtf8_utf8 (text : List Char) : decodeUtf8 (utf8 text) = some text := by
  have hbytes : (⟨(utf8 text).toArray⟩ : ByteArray) = text.utf8Encode := by
    refine ByteArray.ext ?_
    rw [List.utf8Encode, data_toByteArray]
    rfl
  have hvalid : ByteArray.IsValidUTF8 ⟨(utf8 text).toArray⟩ := ⟨text, hbytes⟩
  have hstring : String.fromUTF8? ⟨(utf8 text).toArray⟩ = some (String.ofList text) := by
    rw [String.fromUTF8?, dif_pos hvalid]
    refine congrArg some (String.toByteArray_inj.1 ?_)
    rw [String.toByteArray_ofList, ← hbytes]
    rfl
  rw [decodeUtf8, hstring, Option.map_some, String.toList_ofList]

theorem translateNewlines_append (h : '\r' ∉ a) (b : List Char) :
    translateNewlines (a ++ b) = a ++ translateNewlines b := by
  induction a with
  | nil => rfl
  | cons c a ih =>
    obtain ⟨hc, ha⟩ : '\r' ≠ c ∧ '\r' ∉ a := by simpa using h
    rw [cons_append, translateNewlines, ih ha, cons_append]
    · exact fun text heq => absurd heq.symm hc
    · exact fun heq => absurd heq.symm hc

/-- A line boundary is still one, and no carriage return, after it was read. -/
theorem translateNewlines_cons (hc : isLineBoundary c = true) (text : List Char) :
    ∃ c' rest, translateNewlines (c :: text) = c' :: rest ∧ isLineBoundary c' = true ∧
      c' ≠ '\r' := by
  by_cases hr : c = '\r'
  · subst hr
    have hread : ∃ rest, translateNewlines ('\r' :: text) = '\n' :: rest := by
      unfold translateNewlines
      split
      · exact ⟨_, rfl⟩
      · exact ⟨_, rfl⟩
      · next hne heq => exact absurd (List.cons.inj heq).1.symm hne
      · next heq => cases heq
    obtain ⟨rest, hrest⟩ := hread
    exact ⟨'\n', rest, hrest, rfl, by decide⟩
  · refine ⟨c, translateNewlines text, ?_, hc, hr⟩
    rw [translateNewlines]
    · exact fun rest heq => absurd heq hr
    · exact hr

theorem splitlines_cons_of_boundary (hc : isLineBoundary c = true) (hne : c ≠ '\r')
    (text : List Char) : splitlines (c :: text) = [] :: splitlines text := by
  rw [splitlines, if_pos hc]
  exact fun rest heq => absurd heq hne

section

variable (h : ∀ c ∈ a, isLineBoundary c = false)

include h

theorem splitlines_append (hc : isLineBoundary c = true) (hne : c ≠ '\r') (text : List Char) :
    splitlines (a ++ c :: text) = a :: splitlines text := by
  induction a with
  | nil => exact splitlines_cons_of_boundary hc hne text
  | cons x a ih =>
    obtain ⟨hx, ha⟩ := forall_mem_cons.1 h
    rw [cons_append, splitlines, ih ha, if_neg (by simp [hx])]
    rintro rest rfl
    cases hx

theorem return_notMem : '\r' ∉ a := fun hmem =>
  absurd (h _ hmem) (by decide)

theorem textLines_append_newline (text : List Char) :
    textLines (a ++ '\n' :: text) = a :: textLines text := by
  rw [textLines, translateNewlines_append (return_notMem h)]
  exact splitlines_append h rfl (by decide) _

theorem exists_textLines_append (hc : isLineBoundary c = true) (text : List Char) :
    ∃ rest, textLines (a ++ c :: text) = a :: rest := by
  obtain ⟨c', rest, htext, hc', hne⟩ := translateNewlines_cons hc text
  rw [textLines, translateNewlines_append (return_notMem h), htext]
  exact ⟨_, splitlines_append h hc' hne rest⟩

end

theorem forall_or_exists_boundary (text : List Char) :
    (∀ c ∈ text, isLineBoundary c = false) ∨
      ∃ a c b, text = a ++ c :: b ∧ (∀ x ∈ a, isLineBoundary x = false) ∧
        isLineBoundary c = true := by
  induction text with
  | nil => exact .inl (by simp)
  | cons x text ih =>
    by_cases hx : isLineBoundary x = true
    · exact .inr ⟨[], x, text, rfl, by simp, hx⟩
    · rw [Bool.not_eq_true] at hx
      rcases ih with h | ⟨a, c, b, rfl, ha, hc⟩
      · exact .inl (forall_mem_cons.2 ⟨hx, h⟩)
      · exact .inr ⟨x :: a, c, b, rfl, forall_mem_cons.2 ⟨hx, ha⟩, hc⟩

theorem drop_dropLast {α : Type*} (n : Nat) (l : List α) :
    l.dropLast.drop n = (l.drop n).dropLast := by
  rw [dropLast_eq_take, dropLast_eq_take, drop_take, length_drop, Nat.sub_right_comm]

theorem indexOf_cons (h : sub.isPrefixOf (c :: text) = false) :
    indexOf sub (c :: text) = (indexOf sub text).map (· + 1) := by
  rw [indexOf, h]
  rfl

theorem indexOf_append (h : x ∉ a) (text : List Char) :
    indexOf (x :: sub) (a ++ text) = (indexOf (x :: sub) text).map (· + a.length) := by
  induction a with
  | nil => simp
  | cons c a ih =>
    obtain ⟨hc, ha⟩ : x ≠ c ∧ x ∉ a := by simpa using h
    have hhead : (x :: sub).isPrefixOf (c :: (a ++ text)) = false := by
      simp [List.isPrefixOf, hc]
    rw [cons_append, indexOf_cons hhead, ih ha, Option.map_map]
    congr 1

theorem indexOf_append_self (sub text : List Char) : indexOf sub (sub ++ text) = some 0 := by
  cases h : sub ++ text with
  | nil =>
    obtain ⟨rfl, rfl⟩ := append_eq_nil_iff.1 h
    rfl
  | cons c rest => rw [indexOf, ← h, if_pos (by simp)]

end

end Calybris.Text
