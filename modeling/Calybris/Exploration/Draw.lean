import Calybris.Sampling.Rejection

/-!
# An integer below a bound, from words

The draws of `exploration.rs` are reduced by `uniform`. It takes the first word that is not
among the topmost ones, whose number is the remainder of the number of words, and reduces it.
-/

namespace Calybris.Exploration

open Finset Sampling UInt64

def rejectedWords (n : UInt64) : UInt64 := (UInt64.ofNat (2 ^ 64 - 1) % n + 1) % n

def Redrawn (n word : UInt64) : Prop := rejectedWords n ≠ 0 ∧ word ≥ -rejectedWords n

instance (n word : UInt64) : Decidable (Redrawn n word) := inferInstanceAs (Decidable (_ ∧ _))

def kept (n word : UInt64) : Option UInt64 := if Redrawn n word then none else some (word % n)

/-- The loop over the words of the retries from `i` on. The counter is a `u32`, and no retry
comes after the one that would carry it past its last value. -/
def uniformLoop (n : UInt64) (next : UInt32 → UInt64) : Nat → UInt32 → UInt64 → Option UInt64
  | 0, _, word => kept n word
  | retries + 1, i, word =>
    match kept n word with
    | some result => some result
    | none => uniformLoop n next retries (i + 1) (next i)

def uniform (n first : UInt64) (next : UInt32 → UInt64) : Option UInt64 :=
  uniformLoop n next (2 ^ 32 - 1) 0 first

section Uniform

variable {n word r : UInt64}

theorem toNat_rejectedWords (hn : 0 < n) : (rejectedWords n).toNat = 2 ^ 64 % n.toNat := by
  have hpos : 0 < n.toNat := UInt64.lt_iff_toNat_lt.1 hn
  have hlt := Nat.mod_lt (2 ^ 64 - 1) hpos
  have hsize := n.toNat_lt
  have hone : (1 : UInt64).toNat = 1 := rfl
  rw [rejectedWords, UInt64.toNat_mod, UInt64.toNat_add, UInt64.toNat_mod, hone,
    UInt64.toNat_ofNat_of_lt' (by decide), Nat.mod_eq_of_lt (b := 2 ^ 64) (by omega),
    Nat.mod_add_mod]
  rfl

theorem redrawn_iff (hn : 0 < n) :
    Redrawn n word ↔ 2 ^ 64 - 2 ^ 64 % n.toNat ≤ word.toNat := by
  have hrejected := toNat_rejectedWords hn
  have hsize := word.toNat_lt
  have hlt : 2 ^ 64 % n.toNat < n.toNat := Nat.mod_lt _ (UInt64.lt_iff_toNat_lt.1 hn)
  have hzero : rejectedWords n = 0 ↔ 2 ^ 64 % n.toNat = 0 := by
    rw [← hrejected, ← UInt64.toNat_inj]
    rfl
  have hneg : (-rejectedWords n).toNat = (2 ^ 64 - 2 ^ 64 % n.toNat) % 2 ^ 64 := by
    rw [toNat_neg, hrejected]
    rfl
  rw [Redrawn, Ne, hzero, ge_iff_le, le_iff_toNat_le, hneg]
  by_cases h : 2 ^ 64 % n.toNat = 0
  · exact iff_of_false (fun hboth => hboth.1 h) (by omega)
  · rw [Nat.mod_eq_of_lt (b := 2 ^ 64) (by omega)]
    exact and_iff_right h

theorem map_toNat_kept (hn : 0 < n) :
    (kept n word).map toNat = residue (2 ^ 64) n.toNat word.toNat := by
  rw [kept, residue]
  simp only [redrawn_iff hn, ← not_lt]
  split_ifs <;> simp_all

theorem uniformLoop_eq (n : UInt64) (next : UInt32 → UInt64) (retries : Nat) {i : UInt32}
    (words : Fin (retries + 1) → UInt64)
    (h : ∀ j : Fin retries, next (i + UInt32.ofNat j) = words j.succ) :
    uniformLoop n next retries i (words 0) = (List.ofFn words).findSome? (kept n) := by
  rw [List.ofFn_succ, List.findSome?_cons]
  induction retries generalizing i with
  | zero => cases hkept : kept n (words 0) <;> simp [uniformLoop, hkept]
  | succ retries ih =>
    rw [uniformLoop]
    cases hkept : kept n (words 0) with
    | some result => rfl
    | none =>
      have hnext : next i = words 1 := by simpa using h 0
      dsimp only
      rw [hnext, List.ofFn_succ, List.findSome?_cons]
      refine ih (fun j => words j.succ) fun j => ?_
      rw [← h j.succ, Fin.val_succ, UInt32.ofNat_add, UInt32.add_assoc, UInt32.add_comm 1]
      rfl

theorem kept_eq_some_iff : kept n word = some r ↔ ¬ Redrawn n word ∧ word % n = r := by
  simp [kept]

theorem uniformLoop_of_not_redrawn (h : ¬ Redrawn n word) (next : UInt32 → UInt64) (retries : Nat)
    (i : UInt32) : uniformLoop n next retries i word = some (word % n) := by
  have hkept := kept_eq_some_iff.2 ⟨h, rfl⟩
  cases retries <;> simp [uniformLoop, hkept]

instance fintypeUInt64 : Fintype UInt64 :=
  .ofEquiv (Fin (2 ^ 64)) ⟨ofFin, toFin, fun _ => rfl, fun _ => rfl⟩

theorem card_word (p : Nat → Prop) [DecidablePred p] :
    #{w : UInt64 | p w.toNat} = #{w : Fin (2 ^ 64) | p w} :=
  card_equiv ⟨toFin, ofFin, fun _ => rfl, fun _ => rfl⟩ fun w => by
    simp only [mem_filter, mem_univ, true_and]
    rfl

/-- The words that are kept are all but the remainder, each result comes from as many of them,
and a first word that is kept gives its remainder. Over all runs of words that the loop can read,
each result is given as often as any other. -/
theorem uniform_exact (n : UInt64) (hn : 0 < n) :
    #{w | ¬ Redrawn n w} = 2 ^ 64 - 2 ^ 64 % n.toNat ∧
    (∀ r < n, #{w | ¬ Redrawn n w ∧ w % n = r} = 2 ^ 64 / n.toNat) ∧
    (∀ w next, ¬ Redrawn n w → uniform n w next = some (w % n)) ∧
    ∀ r < n, ∀ r' < n,
      #{words : Fin (2 ^ 32) → UInt64 |
        uniform n (words 0) (fun i => words (Fin.ofNat _ (i.toNat + 1))) = some r} =
      #{words : Fin (2 ^ 32) → UInt64 |
        uniform n (words 0) (fun i => words (Fin.ofNat _ (i.toNat + 1))) = some r'} := by
  have hresult {r : UInt64} (hr : r < n) : #{w | kept n w = some r} = 2 ^ 64 / n.toNat := by
    have hiff (w : UInt64) :
        kept n w = some r ↔ residue (2 ^ 64) n.toNat w.toNat = some r.toNat := by
      rw [← map_toNat_kept hn]
      cases kept n w <;> simp [UInt64.toNat_inj]
    simp only [hiff]
    rw [card_word fun w => residue (2 ^ 64) n.toNat w = some r.toNat]
    exact card_residue (lt_iff_toNat_lt.1 hr)
  have hruns (words : Fin (2 ^ 32) → UInt64) :
      uniform n (words 0) (fun i => words (Fin.ofNat _ (i.toNat + 1))) =
        (List.ofFn words).findSome? (kept n) := by
    refine uniformLoop_eq n _ (2 ^ 32 - 1) words fun j => ?_
    have hj : j.1 + 1 < 2 ^ 32 := by omega
    have hval : (0 + UInt32.ofNat j).toNat = j := by
      rw [UInt32.zero_add, UInt32.toNat_ofNat_of_lt' (Nat.lt_of_succ_lt hj)]
    refine congrArg words (Fin.ext ?_)
    rw [hval]
    exact Nat.mod_eq_of_lt hj
  refine ⟨?_, fun r hr => ?_, fun w next hw => ?_, fun r hr r' hr' => ?_⟩
  · simp only [redrawn_iff hn, not_le, ← isSome_residue_iff]
    rw [card_word fun w => (residue (2 ^ 64) n.toNat w).isSome]
    exact card_kept
  · simp only [← kept_eq_some_iff, hresult hr]
  · exact uniformLoop_of_not_redrawn hw next _ _
  · simp only [hruns]
    exact card_findSome_eq (kept n) (by rw [hresult hr, hresult hr']) _

theorem uniform_exact_three :
    #{w | ¬ Redrawn 3 w} = 2 ^ 64 - 1 ∧
    #{w | ¬ Redrawn 3 w ∧ w % 3 = 2} = 6148914691236517205 ∧
    uniform 3 5 (fun _ => 0) = some 2 ∧
      #{words : Fin (2 ^ 32) → UInt64 |
        uniform 3 (words 0) (fun i => words (Fin.ofNat _ (i.toNat + 1))) = some 0} =
      #{words : Fin (2 ^ 32) → UInt64 |
        uniform 3 (words 0) (fun i => words (Fin.ofNat _ (i.toNat + 1))) = some 1} := by
  obtain ⟨hwords, hresult, hfirst, hruns⟩ := uniform_exact 3 (by decide)
  exact ⟨hwords, hresult 2 (by decide), hfirst 5 _ (by decide), hruns 0 (by decide) 1 (by decide)⟩

end Uniform

end Calybris.Exploration
