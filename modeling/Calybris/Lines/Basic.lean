import Mathlib.Data.List.Basic

/-!
# Lines

A list cut after each terminator. Every line but the last ends in the terminator;
what comes after the last terminator is the tail, which a later write continues.
-/

namespace Calybris.Lines

open List

variable {α : Type*} [DecidableEq α] (nl : α)

def line : List α → List α
  | [] => []
  | a :: l => if a = nl then [a] else a :: line l

def lines : List α → List (List α)
  | [] => []
  | a :: l =>
    if a = nl then [a] :: lines l
    else
      match lines l with
      | [] => [[a]]
      | x :: xs => (a :: x) :: xs

def tail : List α → List α
  | [] => []
  | a :: l => if a = nl ∨ nl ∈ l then tail l else a :: l

def Terminated (l : List α) : Prop := l = [] ∨ ∃ a, l = a ++ [nl]

attribute [local grind =] line lines tail

section

variable {nl} {a b l : List α} {x : α}

@[simp] theorem lines_nil : lines nl [] = [] := rfl

theorem lines_ne_nil (h : l ≠ []) : lines nl l ≠ [] := by
  cases l with
  | nil => exact absurd rfl h
  | cons a l =>
    simp only [lines]
    split
    · simp
    · cases lines nl l <;> simp

theorem lines_eq_cons (nl : α) (h : l ≠ []) :
    lines nl l = line nl l :: lines nl (l.drop (line nl l).length) := by
  induction l with
  | nil => exact absurd rfl h
  | cons a l ih =>
    by_cases ha : a = nl
    · simp [lines, line, ha]
    · by_cases hl : l = []
      · simp [lines, line, ha, hl]
      · simp only [lines, line, ha, if_false, length_cons, drop_succ_cons]
        rw [ih hl]

theorem line_ne_nil (nl : α) (h : l ≠ []) : line nl l ≠ [] := by
  cases l with
  | nil => exact absurd rfl h
  | cons a l =>
    simp only [line]
    split <;> simp

theorem length_line_le (nl : α) (l : List α) : (line nl l).length ≤ l.length := by
  induction l with
  | nil => exact Nat.le_refl _
  | cons a l ih =>
    simp only [line]
    split <;> simp [ih]

theorem line_take (n : Nat) (l : List α) : line nl (l.take n) = (line nl l).take n := by
  induction l generalizing n with
  | nil => simp [line]
  | cons a l ih =>
    cases n with
    | zero => simp [line]
    | succ n =>
      simp only [take_succ_cons, line]
      split <;> simp [ih]

theorem line_append_of_notMem (h : nl ∉ a) : line nl (a ++ b) = a ++ line nl b := by
  induction a with
  | nil => rfl
  | cons x a ih =>
    obtain ⟨hx, ha⟩ : nl ≠ x ∧ nl ∉ a := by simpa using h
    simp [line, ih ha, Ne.symm hx]

theorem line_append_cons (h : nl ∉ a) : line nl (a ++ nl :: b) = a ++ [nl] := by
  rw [line_append_of_notMem h]
  simp [line]

theorem line_mem_lines (h : l ≠ []) : line nl l ∈ lines nl l := by
  rw [lines_eq_cons nl h]
  exact mem_cons_self

theorem length_lines_le (l : List α) : (lines nl l).length ≤ l.length := by
  induction l with
  | nil => exact Nat.le_refl _
  | cons a l ih =>
    simp only [lines]
    split
    · simp [ih]
    · cases hl : lines nl l with
      | nil => simp
      | cons x xs =>
        rw [hl] at ih
        simp only [length_cons] at ih ⊢
        omega

theorem lines_of_notMem (h : nl ∉ l) (hne : l ≠ []) : lines nl l = [l] := by
  induction l with
  | nil => exact absurd rfl hne
  | cons a l ih =>
    obtain ⟨ha, hl⟩ : nl ≠ a ∧ nl ∉ l := by simpa using h
    by_cases hnil : l = []
    · simp [lines, hnil, Ne.symm ha]
    · simp [lines, ih hl hnil, Ne.symm ha]

theorem lines_append (h : Terminated nl a) : lines nl (a ++ b) = lines nl a ++ lines nl b := by
  rcases h with rfl | ⟨c, rfl⟩
  · rfl
  · induction c with
    | nil => simp [lines]
    | cons x c ih =>
      have hne : lines nl (c ++ [nl]) ≠ [] := lines_ne_nil (by simp)
      simp only [cons_append, lines]
      split
      · rw [ih]
        rfl
      · rw [ih]
        cases hl : lines nl (c ++ [nl]) with
        | nil => exact absurd hl hne
        | cons y ys => rfl

theorem lines_append_nl (h : nl ∉ l) : lines nl (l ++ [nl]) = [l ++ [nl]] := by
  induction l with
  | nil => simp [lines]
  | cons a l ih =>
    obtain ⟨ha, hl⟩ : nl ≠ a ∧ nl ∉ l := by simpa using h
    simp [lines, ih hl, Ne.symm ha]

theorem tail_append_nl (l : List α) : tail nl (l ++ [nl]) = [] := by
  induction l with
  | nil => simp [tail]
  | cons a l ih => simp [tail, ih]

theorem notMem_tail (l : List α) : nl ∉ tail nl l := by
  induction l with
  | nil => simp [tail]
  | cons a l ih =>
    simp only [tail]
    split
    · exact ih
    · next h =>
      obtain ⟨ha, hl⟩ := not_or.1 h
      simp [hl, Ne.symm ha]

/-- A list is its whole lines and its tail. -/
theorem exists_terminated (nl : α) (l : List α) : ∃ a, Terminated nl a ∧ l = a ++ tail nl l := by
  induction l with
  | nil => exact ⟨[], .inl rfl, rfl⟩
  | cons x l ih =>
    obtain ⟨a, ha, hl⟩ := ih
    simp only [tail]
    split
    · next h =>
      refine ⟨x :: a, .inr ?_, by rw [cons_append, ← hl]⟩
      rcases ha with rfl | ⟨c, rfl⟩
      · -- no whole line follows, so `x` is the terminator
        rw [nil_append] at hl
        rcases h with rfl | h
        · exact ⟨[], rfl⟩
        · exact absurd h (hl ▸ notMem_tail l)
      · exact ⟨x :: c, rfl⟩
    · exact ⟨[], .inl rfl, rfl⟩

theorem exists_lines_append (nl : α) (l : List α) :
    ∃ ls, ∀ x, lines nl (l ++ x) = ls ++ lines nl (tail nl l ++ x) := by
  obtain ⟨a, ha, hl⟩ := exists_terminated nl l
  refine ⟨lines nl a, fun x => ?_⟩
  rw [← lines_append ha, ← append_assoc, ← hl]

theorem tail_mem_lines (h : tail nl l ≠ []) : tail nl l ∈ lines nl l := by
  obtain ⟨ls, hls⟩ := exists_lines_append nl l
  have hl := hls []
  rw [append_nil, append_nil, lines_of_notMem (notMem_tail l) h] at hl
  rw [hl]
  exact mem_append_right _ (mem_singleton_self _)

end

end Calybris.Lines
