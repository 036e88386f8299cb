import Calybris.Merkle.Tree

/-!
# Inclusion proofs

The verifier climbs by the bits of the index; the generator recurses over the
parts of the tree. At the root the two agree: the last element of a proof is the
root of the part the leaf is not in, and the elements before it are a proof for
the other part. By that step and induction over the tree, the generated proof is
accepted, and, where no two hashed pairs collide, it is the only proof accepted
and its leaf is the only leaf.
-/

namespace Calybris.Merkle

open Walk List

section Root

variable {Hash α : Type*} {onRight onLeft : Hash → α → α} {m n : Nat}

theorem climb_split_nil (hn : 2 ≤ n) (a : α) : climb onRight onLeft m (n - 1) a [] = none := by
  rw [climb_nil, if_neg (by omega)]

theorem climb_split_left (hn : 2 ≤ n) (hm : m < split n) (a : α) (ps : List Hash) (q : Hash) :
    climb onRight onLeft m (n - 1) a (ps ++ [q]) =
      (climb onRight onLeft m (split n - 1) a ps).map (onLeft q) := by
  obtain ⟨e, t, hsplit, hlen, ht⟩ := exists_split_eq hn
  rw [hsplit] at hm ⊢
  rw [show n - 1 = 2 ^ e + t by omega]
  exact climb_two_pow_left hm ht a ps q

theorem climb_split_right (hn : 2 ≤ n) (hlow : split n ≤ m) (hm : m < n) (a : α)
    (ps : List Hash) (q : Hash) :
    climb onRight onLeft m (n - 1) a (ps ++ [q]) =
      (climb onRight onLeft (m - split n) (n - split n - 1) a ps).map (onRight q) := by
  obtain ⟨e, t, hsplit, hlen, ht⟩ := exists_split_eq hn
  rw [hsplit] at hlow ⊢
  obtain ⟨f, rfl⟩ := Nat.exists_eq_add_of_le hlow
  rw [Nat.add_sub_cancel_left, show n - 1 = 2 ^ e + t by omega, show n - 2 ^ e - 1 = t by omega]
  exact climb_two_pow_right (by omega) ht a ps q

end Root

namespace Hashing

variable {Hash : Type*} {H : Hashing Hash} {d : List Hash} {index : Nat}

section Path

theorem path_singleton (m : Nat) (h : Hash) : H.path m [h] = [] := by
  rw [path, if_pos (by simp)]

theorem path_left (hd : 2 ≤ d.length) (hm : index < split d.length) :
    H.path index d = H.path index (d.take (split d.length)) ++
      [H.rootOf (d.drop (split d.length))] := by
  rw [path, if_neg (by omega)]
  exact if_pos hm

theorem path_right (hd : 2 ≤ d.length) (hm : split d.length ≤ index) :
    H.path index d = H.path (index - split d.length) (d.drop (split d.length)) ++
      [H.rootOf (d.take (split d.length))] := by
  rw [path, if_neg (by omega)]
  exact if_neg (by omega)

end Path

section All

/-- The root of a tree, with the proof of every leaf in leaf order. The source only gets
here with a leaf. -/
def rootAndProofs (H : Hashing Hash) (d : List Hash) : Hash × List (List Hash) :=
  match d with
  | [] => (H.emptyRoot, [])
  | [h] => (h, [[]])
  | a :: b :: rest =>
    let d := a :: b :: rest
    let k := split d.length
    let left := rootAndProofs H (d.take k)
    let right := rootAndProofs H (d.drop k)
    (H.nodeHash left.1 right.1,
      left.2.map (· ++ [right.1]) ++ right.2.map (· ++ [left.1]))
termination_by d.length
decreasing_by exacts [(length_split_lt (by simp)).1, (length_split_lt (by simp)).2]

def allInclusionProofs (H : Hashing Hash) (d : List Hash) : List (List Hash) :=
  if d = [] then [] else (H.rootAndProofs d).2

theorem rootAndProofs_of_two_le (hd : 2 ≤ d.length) :
    H.rootAndProofs d =
      (H.nodeHash (H.rootAndProofs (d.take (split d.length))).1
          (H.rootAndProofs (d.drop (split d.length))).1,
        (H.rootAndProofs (d.take (split d.length))).2.map
            (· ++ [(H.rootAndProofs (d.drop (split d.length))).1]) ++
          (H.rootAndProofs (d.drop (split d.length))).2.map
            (· ++ [(H.rootAndProofs (d.take (split d.length))).1])) := by
  match d, hd with
  | a :: b :: rest, _ => rw [rootAndProofs]

theorem rootAndProofs_eq (d : List Hash) :
    H.rootAndProofs d = (H.rootOf d, (List.range d.length).map fun index => H.path index d) := by
  induction d using split_induction with
  | nil => rw [rootAndProofs, rootOf]; rfl
  | single h => rw [rootAndProofs, rootOf_singleton, length_singleton, range_one,
      map_singleton, path_singleton]
  | node d hd ihleft ihright =>
    have hlt := split_lt hd
    have hrange : List.range d.length = List.range (split d.length) ++
        (List.range (d.length - split d.length)).map (split d.length + ·) := by
      rw [← range_add, Nat.add_sub_cancel' hlt.le]
    rw [rootAndProofs_of_two_le hd, ihleft, ihright, rootOf_of_two_le hd, length_take_split hd,
      length_drop_split, hrange, map_append, map_map, map_map, map_map]
    refine Prod.ext rfl (congrArg₂ _ (map_congr_left ?_) (map_congr_left ?_))
    · intro index hindex
      exact (path_left hd (mem_range.1 hindex)).symm
    · intro index _
      have hpath := path_right (H := H) hd (Nat.le_add_right (split d.length) index)
      rw [Nat.add_sub_cancel_left] at hpath
      exact hpath.symm

theorem allInclusionProofs_eq (d : List Hash) :
    H.allInclusionProofs d = (List.range d.length).map fun index => H.path index d := by
  rw [allInclusionProofs]
  split_ifs with hnil
  · rw [hnil]
    rfl
  · rw [rootAndProofs_eq]

end All

def inclusionRoot (H : Hashing Hash) (index size : Nat) (leafHash : Hash) (proof : List Hash) :
    Option Hash :=
  climb (fun p r => H.nodeHash p r) (fun p r => H.nodeHash r p) index (size - 1) leafHash proof

theorem inclusionRoot_path {leaf : Hash} (hleaf : d[index]? = some leaf) :
    H.inclusionRoot index d.length leaf (H.path index d) = some (H.rootOf d) := by
  induction d using split_induction generalizing index with
  | nil => simp at hleaf
  | single h =>
    obtain ⟨rfl, rfl⟩ : index = 0 ∧ h = leaf := by
      cases index <;> simp_all
    rw [path_singleton, rootOf_singleton]
    rfl
  | node d hd ihleft ihright =>
    have hindex : index < d.length := (List.getElem?_eq_some_iff.1 hleaf).1
    rw [rootOf_of_two_le hd, inclusionRoot]
    by_cases hm : index < split d.length
    · have hpart : (d.take (split d.length))[index]? = some leaf := by
        rw [getElem?_take_of_lt hm, hleaf]
      have h := ihleft hpart
      rw [length_take_split hd] at h
      rw [path_left hd hm, climb_split_left hd hm, ← inclusionRoot, h]
      rfl
    · have hlow : split d.length ≤ index := by omega
      have hpart : (d.drop (split d.length))[index - split d.length]? = some leaf := by
        rw [getElem?_drop, Nat.add_sub_cancel' hlow, hleaf]
      have h := ihright hpart
      rw [length_drop_split] at h
      rw [path_right hd hlow, climb_split_right hd hlow hindex, ← inclusionRoot, h]
      rfl

section Sound

def inclusionTrace (H : Hashing Hash) (index size : Nat) (leafHash : Hash) (proof : List Hash) :
    Option (Hash × List (Hash × Hash)) :=
  climb (fun p r => (H.nodeHash p r.1, (p, r.1) :: r.2))
    (fun p r => (H.nodeHash r.1 p, (r.1, p) :: r.2)) index (size - 1) (leafHash, []) proof

theorem inclusionRoot_eq_map_fst (size : Nat) (leafHash : Hash) (proof : List Hash) :
    H.inclusionRoot index size leafHash proof =
      (H.inclusionTrace index size leafHash proof).map Prod.fst :=
  climb_map (α := Hash × List (Hash × Hash)) Prod.fst (fun _ _ => rfl) (fun _ _ => rfl) _ _
    (leafHash, []) proof

theorem inclusionTrace_sound {leafHash : Hash} {proof : List Hash}
    {hashed : List (Hash × Hash)} {pairs : Set (Hash × Hash)} (hindex : index < d.length)
    (htrace : H.inclusionTrace index d.length leafHash proof = some (H.rootOf d, hashed))
    (hfree : H.CollisionFree pairs) (htree : ∀ p ∈ H.rootPairs d, p ∈ pairs)
    (hwalk : ∀ p ∈ hashed, p ∈ pairs) :
    d[index]? = some leafHash ∧ proof = H.path index d := by
  induction d using split_induction generalizing index proof hashed with
  | nil => simp at hindex
  | single h =>
    obtain rfl : index = 0 := by simpa using hindex
    cases proof with
    | nil =>
      have hleaf : leafHash = h := by
        simpa [inclusionTrace] using congrArg (Option.map Prod.fst) htrace
      exact ⟨by rw [hleaf]; rfl, (path_singleton 0 h).symm⟩
    | cons p ps => simp [inclusionTrace] at htrace
  | node d hd ihleft ihright =>
    obtain ⟨hleft, hright, hroots⟩ := hfree.node hd htree
    have hlt := split_lt hd
    -- The last element of the proof is hashed at the root.
    rcases eq_nil_or_concat proof with rfl | ⟨ps, q, rfl⟩
    · rw [inclusionTrace, climb_split_nil hd] at htrace
      cases htrace
    · rw [concat_eq_append, inclusionTrace] at htrace
      rw [concat_eq_append]
      by_cases hm : index < split d.length
      · rw [climb_split_left hd hm, ← inclusionTrace, Option.map_eq_some_iff] at htrace
        obtain ⟨⟨r, hashed'⟩, hpart, hroot⟩ := htrace
        obtain ⟨hnode, rfl⟩ := Prod.mk.inj hroot
        obtain ⟨rfl, rfl⟩ := hroots _ _ (hwalk _ mem_cons_self) hnode
        obtain ⟨hleaf, rfl⟩ := ihleft (by rw [length_take_split hd]; exact hm)
          (by rw [length_take_split hd]; exact hpart) hleft
          (fun p hp => hwalk p (mem_cons_of_mem _ hp))
        rw [getElem?_take_of_lt hm] at hleaf
        exact ⟨hleaf, (path_left hd hm).symm⟩
      · have hlow : split d.length ≤ index := by omega
        rw [climb_split_right hd hlow hindex, ← inclusionTrace, Option.map_eq_some_iff] at htrace
        obtain ⟨⟨r, hashed'⟩, hpart, hroot⟩ := htrace
        obtain ⟨hnode, rfl⟩ := Prod.mk.inj hroot
        obtain ⟨rfl, rfl⟩ := hroots _ _ (hwalk _ mem_cons_self) hnode
        have hinside : index - split d.length < (d.drop (split d.length)).length := by
          rw [length_drop_split]
          omega
        obtain ⟨hleaf, rfl⟩ := ihright hinside
          (by rw [length_drop_split]; exact hpart) hright
          (fun p hp => hwalk p (mem_cons_of_mem _ hp))
        rw [getElem?_drop, Nat.add_sub_cancel' hlow] at hleaf
        exact ⟨hleaf, (path_right hd hlow).symm⟩

end Sound

section Verify

variable [DecidableEq Hash]

theorem verifyInclusion_eq_ok_iff_root (head : TreeHead Hash) (index : Nat) (leafHash : Hash)
    (proof : List Hash) :
    H.verifyInclusion head index leafHash proof = .ok () ↔
      index < head.size ∧ H.inclusionRoot index head.size leafHash proof = some head.root := by
  unfold verifyInclusion
  by_cases hindex : index ≥ head.size
  · rw [if_pos hindex]
    simp only [reduceCtorEq, false_iff, not_and]
    omega
  · rw [if_neg hindex, ← inclusionRoot]
    cases H.inclusionRoot index head.size leafHash proof with
    | none => simp
    | some r =>
      have hlt : index < head.size := by omega
      by_cases hr : r = head.root
      · simp [hr, hlt]
      · simp [hr]

theorem verifyInclusion_sound {leafHash : Hash} {proof : List Hash} {pairs : Set (Hash × Hash)}
    (hok : H.verifyInclusion (H.headOf d) index leafHash proof = .ok ())
    (hfree : H.CollisionFree pairs) (htree : ∀ p ∈ H.rootPairs d, p ∈ pairs)
    (hwalk : ∀ p ∈ H.inclusionPairs index d.length leafHash proof, p ∈ pairs) :
    d[index]? = some leafHash ∧ proof = H.path index d := by
  obtain ⟨hindex, htrace⟩ := (verifyInclusion_eq_ok_iff_root _ _ _ _).1 hok
  rw [inclusionRoot_eq_map_fst, Option.map_eq_some_iff] at htrace
  obtain ⟨⟨r, hashed⟩, htrace, rfl⟩ := htrace
  have hpairs : H.inclusionPairs index d.length leafHash proof = hashed := by
    rw [inclusionPairs, ← inclusionTrace]
    simp only [headOf] at htrace
    rw [htrace]
    rfl
  exact inclusionTrace_sound hindex htrace hfree htree fun p hp => hwalk p (hpairs ▸ hp)

theorem verifyInclusion_path {leafHash : Hash} (hleaf : d[index]? = some leafHash) :
    H.verifyInclusion (H.headOf d) index leafHash (H.path index d) = .ok () := by
  have hindex : index < d.length := (List.getElem?_eq_some_iff.1 hleaf).1
  exact (verifyInclusion_eq_ok_iff_root _ _ _ _).2 ⟨hindex, inclusionRoot_path hleaf⟩

/-- For a leaf index of the tree, exactly the leaf at the index with the generated
proof is accepted, when no two pairs hashed by the tree and by the verifier
collide. -/
theorem verifyInclusion_eq_ok_iff (d : List Hash) (index : Nat) (hindex : index < d.length)
    (leafHash : Hash) (proof : List Hash)
    (hfree : H.CollisionFree
      {p | p ∈ H.rootPairs d ∨ p ∈ H.inclusionPairs index d.length leafHash proof}) :
    H.verifyInclusion (H.headOf d) index leafHash proof = .ok () ↔
      d[index]? = some leafHash ∧ H.inclusionProof d index = .ok proof := by
  rw [inclusionProof, if_neg (by omega), Except.ok.injEq]
  constructor
  · intro hok
    obtain ⟨hleaf, hproof⟩ :=
      verifyInclusion_sound hok hfree (fun p hp => .inl hp) (fun p hp => .inr hp)
    exact ⟨hleaf, hproof.symm⟩
  · rintro ⟨hleaf, rfl⟩
    exact verifyInclusion_path hleaf

theorem verifyInclusion_eq_ok_iff_three :
    sha256Hashing.verifyInclusion (sha256Hashing.headOf [leafA, leafB, leafC]) 2 leafC [rootAB] =
        .ok () ↔
      [leafA, leafB, leafC][2]? = some leafC ∧
        sha256Hashing.inclusionProof [leafA, leafB, leafC] 2 = .ok [rootAB] := by
  have hpairs : sha256Hashing.inclusionPairs 2 [leafA, leafB, leafC].length leafC [rootAB] =
      [(rootAB, leafC)] := by decide +kernel
  refine verifyInclusion_eq_ok_iff [leafA, leafB, leafC] 2 (by decide) leafC [rootAB]
    (collisionFree_three.mono ?_)
  rw [rootPairs_three, hpairs]
  rintro p (htree | hproof)
  · exact htree
  · exact mem_cons.2 (.inl (mem_singleton.1 hproof))

end Verify

end Hashing

end Calybris.Merkle
