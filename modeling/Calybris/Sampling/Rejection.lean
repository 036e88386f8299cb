import Mathlib.Algebra.BigOperators.Fin
import Mathlib.Algebra.Order.BigOperators.Group.Finset

/-!
# Drawing a residue by rejection

Of `N` words the last `N % n` are redrawn, and a word that is kept gives its residue modulo
`n`. Each residue is given by `N / n` of the words. Where every value is given by the same
number of words, the first value in a run of words is as often the one value as the other.
-/

namespace Calybris.Sampling

open Finset

def residue (N n w : Nat) : Option Nat := if w < N - N % n then some (w % n) else none

section Residue

variable {N n w r : Nat}

theorem residue_eq_some_iff : residue N n w = some r ↔ w < N - N % n ∧ w % n = r := by
  simp [residue]

theorem isSome_residue_iff : (residue N n w).isSome ↔ w < N - N % n := by
  simp [residue, Option.isSome_iff_exists]

theorem card_kept : #{w : Fin N | (residue N n w).isSome} = N - N % n := by
  simp only [isSome_residue_iff]
  rw [Fin.card_filter_val_lt]
  omega

theorem card_residue (hr : r < n) : #{w : Fin N | residue N n w = some r} = N / n := by
  have hN := Nat.div_add_mod N n
  have hsplit : N - N % n = n * (N / n) := by omega
  simp only [residue_eq_some_iff, hsplit]
  refine Eq.trans ?_ (card_range (N / n))
  have hlt {q : Nat} (hq : q ∈ range (N / n)) : n * q + r < n * (N / n) := by
    have hle := Nat.mul_le_mul_left n (Nat.succ_le_of_lt (mem_range.1 hq))
    rw [Nat.mul_succ] at hle
    omega
  refine card_bij' (fun w _ => w.1 / n) (fun q hq => ⟨n * q + r, by have := hlt hq; omega⟩)
    (fun w hw => ?_) (fun q hq => ?_) (fun w hw => ?_) (fun q hq => ?_)
  · exact mem_range.2 (Nat.div_lt_of_lt_mul (mem_filter.1 hw).2.1)
  · simp [hlt hq, Nat.mod_eq_of_lt hr]
  · exact Fin.ext ((mem_filter.1 hw).2.2 ▸ Nat.div_add_mod w.1 n)
  · simp [Nat.mul_add_div (Nat.zero_lt_of_lt hr), Nat.div_eq_of_lt hr]

end Residue

/-! ### Runs of words -/

variable {A B : Type*} [Fintype A] [DecidableEq B] (f : A → Option B)

/-- The first word gives the value, or is redrawn and the rest of the run gives it. -/
theorem card_findSome_succ (trials : Nat) (b : B) :
    #{run : Fin (trials + 1) → A | (List.ofFn run).findSome? f = some b} =
      #{a | f a = some b} * Fintype.card A ^ trials +
        #{a | f a = none} * #{run : Fin trials → A | (List.ofFn run).findSome? f = some b} := by
  classical
  have hrun (a : A) (run : Fin trials → A) :
      (List.ofFn (Fin.cons a run : Fin (trials + 1) → A)).findSome? f = some b ↔
        f a = some b ∨ f a = none ∧ (List.ofFn run).findSome? f = some b := by
    cases hfa : f a <;> simp [List.ofFn_succ, hfa]
  have hcard : #(univ : Finset (Fin trials → A)) = Fintype.card A ^ trials := by simp
  rw [← hcard, ← card_product, ← card_product, ← card_union_of_disjoint]
  · refine (card_equiv (Fin.consEquiv fun _ => A) fun x => ?_).symm
    simp only [mem_union, mem_product, mem_filter, mem_univ, true_and, and_true]
    exact (hrun x.1 x.2).symm
  · refine disjoint_left.2 fun x hx hx' => ?_
    simp only [mem_product, mem_filter, mem_univ, true_and, and_true] at hx hx'
    cases hx.symm.trans hx'.1

theorem card_findSome_eq {b b' : B} (h : #{a | f a = some b} = #{a | f a = some b'})
    (trials : Nat) :
    #{run : Fin trials → A | (List.ofFn run).findSome? f = some b} =
      #{run : Fin trials → A | (List.ofFn run).findSome? f = some b'} := by
  induction trials with
  | zero => simp
  | succ trials ih => rw [card_findSome_succ, card_findSome_succ, h, ih]

end Calybris.Sampling
