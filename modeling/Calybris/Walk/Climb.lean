import Mathlib.Data.Nat.Log
import Mathlib.Data.Nat.Size
import Mathlib.Tactic.Ring

/-!
# Climbing a ragged binary tree

A tree with `s + 1` leaves is split at the largest power of two below its size,
left part complete, right part ragged. `climb onRight onLeft f s a proof` goes
from the leaf at position `f` up to the root, one element of `proof` a level,
reading the level's turn off the low bits of `f` and `s` and shifting both:
`onRight` where the node climbed is a right child, `onLeft` where it is a left
child. A node that is last on its level without a sibling is passed over by
`skipZeros`. What is accumulated is any type.

The walk reads bits from the bottom; trees are defined from the top. The main
results, `climb_left` and `climb_right`, close that gap: the last element of the
proof is used at the root, and the elements before it make a climb in the left
or in the right part.
-/

namespace Calybris.Walk

def skipZeros (f s : Nat) : Nat × Nat :=
  if f % 2 = 0 ∧ f ≠ 0 then skipZeros (f / 2) (s / 2) else (f, s)
termination_by f

def skipOnes (f s : Nat) : Nat × Nat :=
  if f % 2 = 1 then skipOnes (f / 2) (s / 2) else (f, s)
termination_by f

def climb {H α : Type*} (onRight onLeft : H → α → α) : Nat → Nat → α → List H → Option α
  | _, s, a, [] => if s = 0 then some a else none
  | f, s, a, p :: ps =>
    if s = 0 then none
    else if f % 2 = 1 ∨ f = s then
      -- An even last node has no sibling here: move up to where it has one.
      let shifted := if f % 2 = 0 then skipZeros f s else (f, s)
      climb onRight onLeft (shifted.1 / 2) (shifted.2 / 2) (onRight p a) ps
    else climb onRight onLeft (f / 2) (s / 2) (onLeft p a) ps

section Shift

variable {f s e : Nat}

theorem skipZeros_of_even (heven : f % 2 = 0) (hpos : f ≠ 0) :
    skipZeros f s = skipZeros (f / 2) (s / 2) := by
  rw [skipZeros, if_pos ⟨heven, hpos⟩]

theorem skipZeros_of_odd (hodd : f % 2 = 1) : skipZeros f s = (f, s) := by
  rw [skipZeros, if_neg (by omega)]

theorem skipOnes_of_odd (hodd : f % 2 = 1) :
    skipOnes f s = skipOnes (f / 2) (s / 2) := by
  rw [skipOnes, if_pos hodd]

theorem skipOnes_of_even (heven : f % 2 = 0) : skipOnes f s = (f, s) := by
  rw [skipOnes, if_neg (by omega)]

theorem half_two_pow_add (e f : Nat) : (2 ^ (e + 1) + f) / 2 = 2 ^ e + f / 2 := by
  rw [pow_succ]
  omega

theorem half_lt_two_pow (h : f < 2 ^ (e + 1)) : f / 2 < 2 ^ e := by
  rw [pow_succ] at h
  omega

theorem two_pow_succ_add_mod_two (e f : Nat) : (2 ^ (e + 1) + f) % 2 = f % 2 := by
  rw [pow_succ]
  omega

theorem skipZeros_two_pow (e : Nat) : skipZeros (2 ^ e) (2 ^ e) = (1, 1) := by
  induction e with
  | zero => exact skipZeros_of_odd rfl
  | succ e ih =>
    have hpos := Nat.two_pow_pos (e + 1)
    rw [skipZeros_of_even (by rw [pow_succ]; omega) (by omega),
      show 2 ^ (e + 1) / 2 = 2 ^ e by rw [pow_succ]; omega, ih]

/-- The top bit stands above the zeros skipped: both positions lose as many low
bits with it as without it. -/
theorem skipZeros_two_pow_add (hf : f ≠ 0) (hlt : f < 2 ^ e) (hs : s < 2 ^ e) :
    ∃ j f' s', skipZeros f s = (f', s') ∧ f' < 2 ^ (j + 1) ∧ s' < 2 ^ (j + 1) ∧
      f' % 2 = 1 ∧ (f ≤ s → f' ≤ s') ∧
      skipZeros (2 ^ e + f) (2 ^ e + s) = (2 ^ (j + 1) + f', 2 ^ (j + 1) + s') := by
  induction e generalizing f s with
  | zero => omega
  | succ e ih =>
    rcases Nat.mod_two_eq_zero_or_one f with heven | hodd
    · obtain ⟨j, f', s', hskip, hf', hs', hodd, hle, htop⟩ :=
        ih (f := f / 2) (s := s / 2) (by omega) (half_lt_two_pow hlt) (half_lt_two_pow hs)
      refine ⟨j, f', s', ?_, hf', hs', hodd, ?_, ?_⟩
      · rw [skipZeros_of_even heven hf, hskip]
      · intro h
        exact hle (Nat.div_le_div_right h)
      · rw [skipZeros_of_even (by rw [two_pow_succ_add_mod_two, heven]) (by omega),
          half_two_pow_add, half_two_pow_add, htop]
    · refine ⟨e, f, s, skipZeros_of_odd hodd, hlt, hs, hodd, id, ?_⟩
      exact skipZeros_of_odd (by rw [two_pow_succ_add_mod_two, hodd])

theorem skipOnes_two_pow_left (hf : f < 2 ^ e) {t : Nat} (ht : t < 2 ^ e) :
    ∃ j f' t', skipOnes f (2 ^ e + t) = (f', 2 ^ j + t') ∧
      skipOnes f (2 ^ e - 1) = (f', 2 ^ j - 1) ∧ f' < 2 ^ j ∧ t' < 2 ^ j := by
  induction e generalizing f t with
  | zero =>
    obtain rfl : f = 0 := by simpa using hf
    exact ⟨0, 0, t, skipOnes_of_even rfl, skipOnes_of_even rfl, hf, ht⟩
  | succ e ih =>
    rcases Nat.mod_two_eq_zero_or_one f with heven | hodd
    · exact ⟨e + 1, f, t, skipOnes_of_even heven, skipOnes_of_even heven, hf, ht⟩
    · have hfull : (2 ^ (e + 1) - 1) / 2 = 2 ^ e - 1 := by rw [pow_succ]; omega
      rw [skipOnes_of_odd hodd, skipOnes_of_odd hodd, half_two_pow_add, hfull]
      exact ih (half_lt_two_pow hf) (half_lt_two_pow ht)

/-- Above the bit of a split, the ones skipped are those of the right part, unless
all bits are ones. -/
theorem skipOnes_two_pow_right (hle : f ≤ s) (hs : s < 2 ^ e) (hf : f + 1 < 2 ^ e) :
    ∃ j f' s', skipOnes (2 ^ e + f) (2 ^ e + s) = (2 ^ j + f', 2 ^ j + s') ∧
      skipOnes f s = (f', s') ∧ f' ≤ s' ∧ s' < 2 ^ j := by
  induction e generalizing f s with
  | zero => simp at hf
  | succ e ih =>
    have hmod := two_pow_succ_add_mod_two e f
    rcases Nat.mod_two_eq_zero_or_one f with heven | hodd
    · exact ⟨e + 1, f, s, skipOnes_of_even (hmod.trans heven), skipOnes_of_even heven, hle, hs⟩
    · have hhalf : f / 2 + 1 < 2 ^ e := by rw [pow_succ] at hf; omega
      rw [skipOnes_of_odd (hmod.trans hodd), skipOnes_of_odd hodd, half_two_pow_add,
        half_two_pow_add]
      exact ih (Nat.div_le_div_right hle) (half_lt_two_pow hs) hhalf

theorem skipOnes_two_pow_sub_one (e : Nat) : skipOnes (2 ^ e - 1) (2 ^ e - 1) = (0, 0) := by
  induction e with
  | zero => exact skipOnes_of_even rfl
  | succ e ih =>
    have hpos := Nat.two_pow_pos e
    have hhalf : (2 ^ (e + 1) - 1) / 2 = 2 ^ e - 1 := by rw [pow_succ]; omega
    rw [skipOnes_of_odd (by rw [pow_succ]; omega), hhalf, ih]

end Shift

section Climb

variable {H α β : Type*} {onRight onLeft : H → α → α} {f s e : Nat} {a : α} {p : H} {ps : List H}

@[simp] theorem climb_nil : climb onRight onLeft f s a [] = if s = 0 then some a else none := rfl

@[simp] theorem climb_zero_cons : climb onRight onLeft f 0 a (p :: ps) = none := by
  rw [climb, if_pos rfl]

theorem climb_cons_odd (hs : s ≠ 0) (hodd : f % 2 = 1) :
    climb onRight onLeft f s a (p :: ps) =
      climb onRight onLeft (f / 2) (s / 2) (onRight p a) ps := by
  rw [climb, if_neg hs, if_pos (.inl hodd), if_neg (by omega)]

theorem climb_cons_last (hs : s ≠ 0) (heven : s % 2 = 0) :
    climb onRight onLeft s s a (p :: ps) =
      climb onRight onLeft ((skipZeros s s).1 / 2) ((skipZeros s s).2 / 2) (onRight p a) ps := by
  rw [climb, if_neg hs, if_pos (.inr rfl), if_pos heven]

theorem climb_cons_left (hs : s ≠ 0) (heven : f % 2 = 0) (hne : f ≠ s) :
    climb onRight onLeft f s a (p :: ps) =
      climb onRight onLeft (f / 2) (s / 2) (onLeft p a) ps := by
  rw [climb, if_neg hs, if_neg (by omega)]

theorem climb_map (g : α → β) {onRight' onLeft' : H → β → β}
    (hright : ∀ p a, g (onRight p a) = onRight' p (g a))
    (hleft : ∀ p a, g (onLeft p a) = onLeft' p (g a)) (f s : Nat) (a : α) (ps : List H) :
    climb onRight' onLeft' f s (g a) ps = (climb onRight onLeft f s a ps).map g := by
  induction ps generalizing f s a with
  | nil =>
    simp only [climb_nil]
    split <;> rfl
  | cons p ps ih =>
    rw [climb, climb]
    split
    · rfl
    · split
      · rw [← hright, ih]
      · rw [← hleft, ih]

/-- Below a root that splits at `2 ^ e`, a climb from the left part ends with the
sibling of that part. -/
theorem climb_two_pow_left (hf : f < 2 ^ e) {t : Nat} (ht : t < 2 ^ e) (a : α) (ps : List H)
    (q : H) :
    climb onRight onLeft f (2 ^ e + t) a (ps ++ [q]) =
      (climb onRight onLeft f (2 ^ e - 1) a ps).map (onLeft q) := by
  have hpos := Nat.two_pow_pos e
  induction ps generalizing f t e a with
  | nil =>
    cases e with
    | zero =>
      obtain rfl : f = 0 := by simpa using hf
      obtain rfl : t = 0 := by simpa using ht
      rw [List.nil_append, climb_cons_left (by simp) rfl (by simp)]
      rfl
    | succ e =>
      have hhalf := half_two_pow_add e t
      have hpos' := Nat.two_pow_pos e
      have hdouble : 2 ^ (e + 1) - 1 ≠ 0 := by rw [pow_succ]; omega
      rw [List.nil_append, climb_nil, if_neg hdouble]
      rcases Nat.mod_two_eq_zero_or_one f with heven | hodd
      · rw [climb_cons_left (by omega) heven (by omega), hhalf, climb_nil, if_neg (by omega)]
        rfl
      · rw [climb_cons_odd (by omega) hodd, hhalf, climb_nil, if_neg (by omega)]
        rfl
  | cons p ps ih =>
    cases e with
    | zero =>
      obtain rfl : f = 0 := by simpa using hf
      obtain rfl : t = 0 := by simpa using ht
      rw [List.cons_append, climb_cons_left (by simp) rfl (by simp)]
      cases ps <;> rfl
    | succ e =>
      have hfull : (2 ^ (e + 1) - 1) / 2 = 2 ^ e - 1 := by rw [pow_succ]; omega
      have hparity : (2 ^ (e + 1) - 1) % 2 = 1 := by rw [pow_succ]; omega
      have hpos' := Nat.two_pow_pos e
      rw [List.cons_append]
      rcases Nat.mod_two_eq_zero_or_one f with heven | hodd
      · rw [climb_cons_left (by omega) heven (by omega),
          climb_cons_left (by omega) heven (by omega), half_two_pow_add, hfull]
        exact ih (half_lt_two_pow hf) (half_lt_two_pow ht) _ hpos'
      · rw [climb_cons_odd (by omega) hodd, climb_cons_odd (by omega) hodd, half_two_pow_add, hfull]
        exact ih (half_lt_two_pow hf) (half_lt_two_pow ht) _ hpos'

theorem climb_two_pow_self (e : Nat) (a : α) (p : H) (ps : List H) :
    climb onRight onLeft (2 ^ e) (2 ^ e) a (p :: ps) =
      climb onRight onLeft 0 0 (onRight p a) ps := by
  have hpos := Nat.two_pow_pos e
  cases e with
  | zero =>
    rw [climb_cons_odd (by simp) rfl]
    rfl
  | succ e =>
    rw [climb_cons_last (by omega) (by rw [pow_succ]; omega), skipZeros_two_pow]
    rfl

/-- A node of the right part that is not its only leaf turns as it does in that
part by itself. -/
theorem exists_climb_two_pow_add (onRight onLeft : H → α → α) (hle : f ≤ s) (hs : s < 2 ^ e)
    (hs0 : s ≠ 0) (p : H) :
    ∃ j f' s', f' ≤ s' ∧ s' < 2 ^ j ∧ ∃ step : α → α,
      (∀ a (ps : List H), climb onRight onLeft f s a (p :: ps) =
        climb onRight onLeft f' s' (step a) ps) ∧
      ∀ a (ps : List H), climb onRight onLeft (2 ^ e + f) (2 ^ e + s) a (p :: ps) =
        climb onRight onLeft (2 ^ j + f') (2 ^ j + s') (step a) ps := by
  have hpos := Nat.two_pow_pos e
  cases e with
  | zero => omega
  | succ e =>
    have hmod := two_pow_succ_add_mod_two e f
    have hhalf := half_two_pow_add e
    have hle' := Nat.div_le_div_right (c := 2) hle
    rcases Nat.mod_two_eq_zero_or_one f with heven | hodd
    · by_cases hlast : f = s
      · subst hlast
        obtain ⟨j, f', s', hskip, -, hs', -, hle, htop⟩ := skipZeros_two_pow_add hs0 hs hs
        refine ⟨j, f' / 2, s' / 2, Nat.div_le_div_right (hle le_rfl), half_lt_two_pow hs',
          onRight p, ?_, ?_⟩
        · intro a ps
          rw [climb_cons_last hs0 heven, hskip]
        · intro a ps
          rw [climb_cons_last (by omega) (by omega), htop, half_two_pow_add, half_two_pow_add]
      · refine ⟨e, f / 2, s / 2, hle', half_lt_two_pow hs, onLeft p, ?_, ?_⟩
        · intro a ps
          rw [climb_cons_left hs0 heven hlast]
        · intro a ps
          rw [climb_cons_left (by omega) (by omega) (by omega), hhalf, hhalf]
    · refine ⟨e, f / 2, s / 2, hle', half_lt_two_pow hs, onRight p, ?_, ?_⟩
      · intro a ps
        rw [climb_cons_odd hs0 hodd]
      · intro a ps
        rw [climb_cons_odd (by omega) (by omega), hhalf, hhalf]

/-- Below a root that splits at `2 ^ e`, a climb from the right part ends with the
sibling of that part. -/
theorem climb_two_pow_right (hle : f ≤ s) (hs : s < 2 ^ e) (a : α) (ps : List H) (q : H) :
    climb onRight onLeft (2 ^ e + f) (2 ^ e + s) a (ps ++ [q]) =
      (climb onRight onLeft f s a ps).map (onRight q) := by
  induction ps generalizing f s e a with
  | nil =>
    by_cases hs0 : s = 0
    · obtain rfl : f = 0 := by omega
      subst hs0
      rw [List.nil_append, Nat.add_zero, climb_two_pow_self]
      rfl
    · obtain ⟨j, f', s', -, -, step, -, htop⟩ :=
        exists_climb_two_pow_add onRight onLeft hle hs hs0 q
      have hpos := Nat.two_pow_pos j
      rw [List.nil_append, htop, climb_nil, climb_nil, if_neg hs0, if_neg (by omega)]
      rfl
  | cons p ps ih =>
    by_cases hs0 : s = 0
    · obtain rfl : f = 0 := by omega
      subst hs0
      rw [List.cons_append, Nat.add_zero, climb_two_pow_self, climb_zero_cons]
      cases ps <;> rfl
    · obtain ⟨j, f', s', hle', hs', step, hpart, htop⟩ :=
        exists_climb_two_pow_add onRight onLeft hle hs hs0 p
      rw [List.cons_append, htop, hpart]
      exact ih hle' hs' (step a)

end Climb

end Calybris.Walk
