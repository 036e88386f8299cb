import Mathlib.Data.Finset.Card
import Mathlib.Data.List.Sort

/-!
# Lists sorted by a key

A sorted list without repetitions depends on its members only, where the key tells them
apart. The element at an index has at least as many before it, itself included, as the index
says, and as many behind it as are left.
-/

namespace Calybris.Sorted

open List

variable {α κ : Type*} [LinearOrder κ] (key : α → κ)

def sortBy (l : List α) : List α := l.insertionSort fun a b => key a ≤ key b

def Ascending (l : List α) : Prop := l.Pairwise fun a b => key a ≤ key b

variable {key} {l l' : List α}

theorem sortBy_perm (l : List α) : (sortBy key l).Perm l := perm_insertionSort _ l

@[simp] theorem mem_sortBy {a : α} : a ∈ sortBy key l ↔ a ∈ l := (sortBy_perm l).mem_iff

theorem ascending_sortBy (l : List α) : Ascending key (sortBy key l) := by
  have : Std.Total fun a b : α => key a ≤ key b := ⟨fun a b => le_total _ _⟩
  have : IsTrans α fun a b => key a ≤ key b := ⟨fun a b c => le_trans⟩
  exact pairwise_insertionSort _ l

theorem sortBy_eq_self (h : Ascending key l) : sortBy key l = l := List.Pairwise.insertionSort_eq h

theorem eq_of_mem_iff (h : Ascending key l) (h' : Ascending key l') (hnodup : l.Nodup)
    (hnodup' : l'.Nodup) (hkey : ∀ a ∈ l, ∀ b ∈ l', key a = key b → a = b)
    (hmem : ∀ a, a ∈ l ↔ a ∈ l') : l = l' :=
  List.Perm.eq_of_pairwise (fun a b ha hb hab hba => hkey a ha b hb (le_antisymm hab hba)) h h'
    ((perm_ext_iff_of_nodup hnodup hnodup').2 hmem)

section Rank

variable {i : Nat} {a : α}

theorem le_of_mem_take (h : Ascending key l) (ha : l[i]? = some a) {b : α}
    (hb : b ∈ l.take (i + 1)) : key b ≤ key a := by
  obtain ⟨hi, rfl⟩ := List.getElem?_eq_some_iff.1 ha
  obtain ⟨j, hj, rfl⟩ := List.mem_take_iff_getElem.1 hb
  rcases Nat.lt_or_ge j i with hlt | hge
  · exact pairwise_iff_getElem.1 h j i _ hi hlt
  · obtain rfl : j = i := by omega
    exact le_rfl

theorem le_of_mem_drop (h : Ascending key l) (ha : l[i]? = some a) {b : α}
    (hb : b ∈ l.drop i) : key a ≤ key b := by
  obtain ⟨hi, rfl⟩ := List.getElem?_eq_some_iff.1 ha
  obtain ⟨j, hj, rfl⟩ := List.mem_drop_iff_getElem.1 hb
  rcases Nat.eq_zero_or_pos j with rfl | hpos
  · exact le_rfl
  · exact pairwise_iff_getElem.1 h i (i + j) hi (by omega) (by omega)

theorem succ_le_countP (h : Ascending key l) (ha : l[i]? = some a) :
    i + 1 ≤ l.countP fun b => key b ≤ key a := by
  have hi : i < l.length := (List.getElem?_eq_some_iff.1 ha).1
  calc i + 1 = (l.take (i + 1)).length := by rw [List.length_take, Nat.min_eq_left hi]
    _ = (l.take (i + 1)).countP fun b => key b ≤ key a :=
        (countP_eq_length.2 fun b hb => decide_eq_true (le_of_mem_take h ha hb)).symm
    _ ≤ l.countP fun b => key b ≤ key a := (take_sublist _ _).countP_le

theorem sub_le_countP (h : Ascending key l) (ha : l[i]? = some a) :
    l.length - i ≤ l.countP fun b => key a ≤ key b := by
  calc l.length - i = (l.drop i).length := length_drop.symm
    _ = (l.drop i).countP fun b => key a ≤ key b :=
        (countP_eq_length.2 fun b hb => decide_eq_true (le_of_mem_drop h ha hb)).symm
    _ ≤ l.countP fun b => key a ≤ key b := (drop_sublist _ _).countP_le

/-- Of more elements than are excluded, one is not excluded. -/
theorem exists_notMem_of_card_lt {β : Type*} [DecidableEq α] (hnodup : l.Nodup) (f : α → Option β)
    (p : β → Bool) (excluded : Finset α) (h : excluded.card < (l.filterMap f).countP p) :
    ∃ a ∈ l, a ∉ excluded ∧ ∃ b, f a = some b ∧ p b = true := by
  by_contra hnone
  have hsub : (l.filter fun a => (f a).any p).toFinset ⊆ excluded := by
    intro a ha
    obtain ⟨hmem, hany⟩ := mem_filter.1 (mem_toFinset.1 ha)
    obtain ⟨b, hb, hp⟩ := (Option.any_eq_true _ _).1 hany
    by_contra hnot
    exact hnone ⟨a, hmem, hnot, b, hb, hp⟩
  have hcount : (l.filterMap f).countP p = l.countP fun a => (f a).any p := by
    rw [countP_filterMap]
    refine countP_congr fun a _ => ?_
    cases f a <;> simp
  have hcard := Finset.card_le_card hsub
  rw [toFinset_card_of_nodup (hnodup.filter _), ← countP_eq_length_filter] at hcard
  omega

end Rank

end Calybris.Sorted
