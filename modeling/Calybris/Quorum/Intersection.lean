import Mathlib.Data.Fintype.Fin

/-!
# Quorum intersection

Two quorums of `k` among `n` share more than `f` members when `n + f < 2 * k`, so
a member outside any set of `f`. Quorums are counted as lists are filtered, which
is how a program counts them.
-/

namespace Calybris.Quorum

theorem exists_mem_inter_notMem {α : Type*} [Fintype α] [DecidableEq α] {A B F : Finset α}
    {k f : Nat} (hA : k ≤ A.card) (hB : k ≤ B.card) (hF : F.card ≤ f)
    (hk : Fintype.card α + f < 2 * k) : ∃ i ∈ A, i ∈ B ∧ i ∉ F := by
  have hunion : (A ∪ B).card + (A ∩ B).card = A.card + B.card :=
    Finset.card_union_add_card_inter A B
  have huniv : (A ∪ B).card ≤ Fintype.card α := Finset.card_le_univ _
  have hlt : F.card < (A ∩ B).card := by omega
  obtain ⟨i, hi, hiF⟩ := Finset.exists_mem_notMem_of_card_lt_card hlt
  obtain ⟨hiA, hiB⟩ := Finset.mem_inter.1 hi
  exact ⟨i, hiA, hiB, hiF⟩

theorem length_filterMap_ofFn {n : Nat} {α β : Type*} (w : Fin n → α) (g : α → Option β) :
    ((List.ofFn w).filterMap g).length =
      (Finset.univ.filter fun i => (g (w i)).isSome).card := by
  rw [List.ofFn_eq_map, List.filterMap_map, List.length_filterMap_eq_countP,
    List.countP_eq_length_filter,
    ← List.toFinset_card_of_nodup ((List.nodup_finRange n).filter _)]
  congr 1
  ext i
  simp

end Calybris.Quorum
