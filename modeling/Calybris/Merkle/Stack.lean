import Calybris.Merkle.Tree
import Mathlib.Algebra.Ring.Divisibility.Basic
import Mathlib.Data.List.Induction

/-!
# The root from a stack of subtrees

`merkle_root` of the bundle script reads the leaves once. It keeps a stack of complete
subtrees, the newest on top, and merges two of one size as they meet; at the end what is
on the stack is joined from the top down. The sizes on the stack are the powers of two
that add up to the number of leaves read, so the root is that of the tree.
-/

namespace Calybris.Merkle

open List

namespace Hashing

variable {Hash : Type*} (H : Hashing Hash)

/-- Merges a subtree with those of its size on the stack, and puts it there. -/
def mergeStack : List (Nat × Hash) → Nat → Hash → List (Nat × Hash)
  | [], size, node => [(size, node)]
  | (top, left) :: stack, size, node =>
    if top = size then mergeStack stack (size * 2) (H.nodeHash left node)
    else (size, node) :: (top, left) :: stack

def joinStack : List (Nat × Hash) → Hash → Hash
  | [], node => node
  | (_, left) :: stack, node => joinStack stack (H.nodeHash left node)

def merkleRoot (leaves : List Hash) : Hash :=
  if leaves = [] then H.emptyRoot
  else
    match leaves.foldl (fun stack leaf => H.mergeStack stack 1 leaf) [] with
    | [] => H.emptyRoot
    | (_, node) :: stack => H.joinStack stack node

/-- The stack holds the roots of complete blocks of `d`, the last block on top. Each is
smaller than those below it. -/
def Peaks : List (Nat × Hash) → List Hash → Prop
  | [], d => d = []
  | (size, node) :: stack, d => ∃ k a b, d = a ++ b ∧ size = 2 ^ k ∧ b.length = 2 ^ k ∧
      node = H.rootOf b ∧ 2 ^ (k + 1) ∣ a.length ∧ Peaks stack a

section

variable {H} {stack : List (Nat × Hash)} {a b : List Hash}

theorem rootOf_append {k : Nat} (ha : a.length = 2 ^ k) (hpos : 0 < b.length)
    (hle : b.length ≤ 2 ^ k) : H.rootOf (a ++ b) = H.nodeHash (H.rootOf a) (H.rootOf b) := by
  have hone : 1 ≤ 2 ^ k := Nat.one_le_two_pow
  have hlen : (a ++ b).length = 2 ^ k + b.length := by rw [length_append, ha]
  have hsplit : split (a ++ b).length = a.length := by
    rw [hlen, split, ha]
    congr 1
    rw [Nat.log2_eq_iff (by omega), pow_succ]
    omega
  rw [rootOf_of_two_le (by omega), hsplit, take_left, drop_left]

theorem le_of_two_pow_dvd {j m n : Nat} (h : 2 ^ (j + 1) ∣ n) (hm : 2 ^ m ∣ n + 2 ^ j) : m ≤ j := by
  by_contra hlt
  have hdvd : 2 ^ (j + 1) ∣ 2 ^ j := (Nat.dvd_add_right h).1 ((pow_dvd_pow 2 (by omega)).trans hm)
  have := Nat.le_of_dvd (Nat.two_pow_pos j) hdvd
  rw [pow_succ] at this
  have := Nat.two_pow_pos j
  omega

theorem peaks_mergeStack (h : H.Peaks stack a) {k : Nat} (hb : b.length = 2 ^ k)
    (ha : 2 ^ k ∣ a.length) : H.Peaks (H.mergeStack stack (2 ^ k) (H.rootOf b)) (a ++ b) := by
  induction stack generalizing a b k with
  | nil =>
    obtain rfl : a = [] := h
    exact ⟨k, [], b, rfl, rfl, hb, rfl, dvd_zero _, rfl⟩
  | cons top stack ih =>
    obtain ⟨top, left⟩ := top
    obtain ⟨j, a', b', rfl, rfl, hb', rfl, hdvd, hpeaks⟩ := h
    rw [mergeStack]
    split_ifs with heq
    · -- The block on top has the same size: the two make one of twice the size.
      obtain rfl : j = k := Nat.pow_right_injective (le_refl 2) heq
      have hroot : H.nodeHash (H.rootOf b') (H.rootOf b) = H.rootOf (b' ++ b) := by
        rw [rootOf_append hb' (by rw [hb]; exact Nat.two_pow_pos _) hb.le]
      rw [hroot, ← pow_succ, append_assoc]
      refine ih hpeaks ?_ hdvd
      rw [length_append, hb', hb, pow_succ]
      omega
    · refine ⟨k, a' ++ b', b, rfl, rfl, hb, rfl, ?_, j, a', b', rfl, rfl, hb', rfl, hdvd, hpeaks⟩
      rw [length_append, hb'] at ha ⊢
      have hle : k ≤ j := le_of_two_pow_dvd hdvd ha
      have hlt : k + 1 ≤ j := by
        rcases Nat.lt_or_eq_of_le hle with hlt | rfl
        · exact hlt
        · exact absurd rfl heq
      exact dvd_add ((pow_dvd_pow 2 (by omega)).trans hdvd) (pow_dvd_pow 2 hlt)

theorem peaks_foldl (leaves : List Hash) :
    H.Peaks (leaves.foldl (fun stack leaf => H.mergeStack stack 1 leaf) []) leaves := by
  induction leaves using List.reverseRecOn with
  | nil => rfl
  | append_singleton leaves leaf ih =>
    rw [foldl_append, foldl_cons, foldl_nil]
    have hone := peaks_mergeStack (b := [leaf]) (k := 0) ih rfl (one_dvd _)
    rwa [rootOf_singleton, pow_zero] at hone

/-- What is joined so far is smaller than every block that is left. -/
theorem joinStack_eq (h : H.Peaks stack a) {m : Nat} (hpos : 0 < b.length) (hlt : b.length < 2 ^ m)
    (ha : 2 ^ m ∣ a.length) : H.joinStack stack (H.rootOf b) = H.rootOf (a ++ b) := by
  induction stack generalizing a b m with
  | nil =>
    obtain rfl : a = [] := h
    rfl
  | cons top stack ih =>
    obtain ⟨top, left⟩ := top
    obtain ⟨j, a', b', rfl, rfl, hb', rfl, hdvd, hpeaks⟩ := h
    rw [length_append, hb'] at ha
    have hle : 2 ^ m ≤ 2 ^ j := Nat.pow_le_pow_right (by omega) (le_of_two_pow_dvd hdvd ha)
    rw [joinStack, ← rootOf_append hb' hpos (by omega), append_assoc]
    refine ih hpeaks ?_ ?_ hdvd
    · rw [length_append]
      omega
    · rw [length_append, hb', pow_succ]
      omega

theorem merkleRoot_eq_rootOf (H : Hashing Hash) (leaves : List Hash) :
    H.merkleRoot leaves = H.rootOf leaves := by
  rw [merkleRoot]
  split_ifs with hnil
  · rw [hnil, rootOf]
  · have hpeaks := peaks_foldl (H := H) leaves
    split
    · next hstack =>
      rw [hstack] at hpeaks
      exact absurd hpeaks hnil
    · next size node stack hstack =>
      rw [hstack] at hpeaks
      obtain ⟨k, a, b, hd, -, hb, rfl, hdvd, hrest⟩ := hpeaks
      rw [hd]
      refine joinStack_eq hrest ?_ ?_ hdvd
      · rw [hb]
        exact Nat.two_pow_pos k
      · rw [hb, pow_succ]
        have := Nat.two_pow_pos k
        omega

end

end Hashing

end Calybris.Merkle
