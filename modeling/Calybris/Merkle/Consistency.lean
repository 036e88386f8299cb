import Calybris.Merkle.Tree

/-!
# Consistency proofs

The verifier starts at the last complete part of the old tree and climbs twice at
once, to the old root and to the new one. At the root of the new tree the walk is
that of the part the old tree ends in, followed by the last element of the proof.
The recursion ends where the old tree is the whole of a complete part, which is
why it is the power of two that decides whether the old root stands in the proof.
-/

namespace Calybris.Merkle

open Walk List

section Root

variable {Hash α : Type*} {onRight onLeft : Hash → α → α} {start : Hash → α} {m n : Nat}

/-- The verifier's walk: from the first element of the proof, past the ones. -/
def startedClimb (onRight onLeft : Hash → α → α) (start : Hash → α) (m n : Nat) :
    List Hash → Option α
  | [] => none
  | first :: rest =>
    climb onRight onLeft (skipOnes (m - 1) (n - 1)).1 (skipOnes (m - 1) (n - 1)).2
      (start first) rest

theorem startedClimb_singleton (hm : 1 ≤ m) (hlt : m < n) (first : Hash) :
    startedClimb onRight onLeft start m n [first] = none := by
  obtain ⟨e, t, hsplit, hlen, ht⟩ := exists_split_eq (show 2 ≤ n by omega)
  have hn : n - 1 = 2 ^ e + t := by omega
  simp only [startedClimb, climb_nil]
  rw [hn]
  by_cases hle : m ≤ 2 ^ e
  · have hf : m - 1 < 2 ^ e := by omega
    obtain ⟨j, f, t', hnew, -⟩ := skipOnes_two_pow_left hf ht
    have hpos := Nat.two_pow_pos j
    rw [hnew, if_neg (by omega)]
  · obtain ⟨f, rfl⟩ : ∃ f, m = 2 ^ e + f + 1 := ⟨m - 2 ^ e - 1, by omega⟩
    have hle : f ≤ t := by omega
    have hf : f + 1 < 2 ^ e := by omega
    obtain ⟨j, f', s', hnew, -⟩ := skipOnes_two_pow_right hle ht hf
    have hpos := Nat.two_pow_pos j
    rw [Nat.add_sub_cancel, hnew, if_neg (by omega)]

theorem startedClimb_left (hn : 2 ≤ n) (hm : 1 ≤ m) (hle : m ≤ split n) (ps : List Hash)
    (q : Hash) :
    startedClimb onRight onLeft start m n (ps ++ [q]) =
      (startedClimb onRight onLeft start m (split n) ps).map (onLeft q) := by
  cases ps with
  | nil => exact startedClimb_singleton hm (hle.trans_lt (split_lt hn)) q
  | cons first rest =>
    obtain ⟨e, t, hsplit, hlen, ht⟩ := exists_split_eq hn
    rw [hsplit] at hle ⊢
    have hf : m - 1 < 2 ^ e := by omega
    obtain ⟨j, f, t', hnew, hpart, hf, ht⟩ := skipOnes_two_pow_left hf ht
    simp only [startedClimb, cons_append]
    rw [show n - 1 = 2 ^ e + t by omega, hnew, hpart]
    exact climb_two_pow_left hf ht (start first) rest q

/-- The walk where the old tree ends in the right part, at the root. -/
theorem startedClimb_right (hn : 2 ≤ n) (hlow : split n < m) (hm : m < n) (ps : List Hash)
    (q : Hash) :
    startedClimb onRight onLeft start m n (ps ++ [q]) =
      (startedClimb onRight onLeft start (m - split n) (n - split n) ps).map (onRight q) := by
  cases ps with
  | nil => exact startedClimb_singleton (by omega) hm q
  | cons first rest =>
    obtain ⟨e, t, hsplit, hlen, ht⟩ := exists_split_eq hn
    rw [hsplit] at hlow ⊢
    obtain ⟨f, rfl⟩ : ∃ f, m = 2 ^ e + f + 1 := ⟨m - 2 ^ e - 1, by omega⟩
    have hle : f ≤ t := by omega
    have hf : f + 1 < 2 ^ e := by omega
    obtain ⟨j, f', s', hnew, hpart, hle, hs⟩ := skipOnes_two_pow_right hle ht hf
    simp only [startedClimb, cons_append]
    rw [show n - 1 = 2 ^ e + t by omega, show 2 ^ e + f + 1 - 1 = 2 ^ e + f by omega,
      show 2 ^ e + f + 1 - 2 ^ e - 1 = f by omega, show n - 2 ^ e - 1 = t by omega, hnew, hpart]
    exact climb_two_pow_right hle hs (start first) rest q

theorem startedClimb_two_pow (e : Nat) (first : Hash) (rest : List Hash) :
    startedClimb onRight onLeft start (2 ^ e) (2 ^ e) (first :: rest) =
      if rest = [] then some (start first) else none := by
  simp only [startedClimb, skipOnes_two_pow_sub_one]
  cases rest with
  | nil => rfl
  | cons p ps => simp

end Root

namespace Hashing

variable {Hash : Type*} {H : Hashing Hash} {d : List Hash} {m : Nat} {b : Bool} {proof : List Hash}

section Subproof

theorem subproof_self (d : List Hash) :
    H.subproof d.length d b = if b then [] else [H.rootOf d] := by
  rw [subproof, if_pos rfl]

theorem subproof_left (hd : 2 ≤ d.length) (hle : m ≤ split d.length) :
    H.subproof m d b = H.subproof m (d.take (split d.length)) b ++
      [H.rootOf (d.drop (split d.length))] := by
  have hlt := split_lt hd
  rw [subproof, if_neg (by omega), if_neg (by omega)]
  exact if_pos hle

theorem subproof_right (hd : 2 ≤ d.length) (hlow : split d.length < m) (hm : m < d.length) :
    H.subproof m d b = H.subproof (m - split d.length) (d.drop (split d.length)) false ++
      [H.rootOf (d.take (split d.length))] := by
  rw [subproof, if_neg (by omega), if_neg (by omega)]
  exact if_neg (by omega)

theorem split_le_of_le {n h : Nat} (hn : 2 ≤ n) (hle : n ≤ 2 ^ (h + 1)) : split n ≤ 2 ^ h := by
  obtain ⟨e, t, hsplit, hlen, -⟩ := exists_split_eq hn
  have hlt : e < h + 1 := (Nat.pow_lt_pow_iff_right (by decide : 1 < 2)).1 (by omega)
  rw [hsplit]
  exact Nat.pow_le_pow_right (by decide) (by omega)

theorem length_subproof_of_le_one (hd : d.length ≤ 1) : (H.subproof m d b).length ≤ 1 := by
  rw [subproof, if_pos hd]
  split_ifs <;> simp

/-- A proof has at most one hash for each level of the tree, and one more. -/
theorem length_subproof_le {h : Nat} (hle : d.length ≤ 2 ^ h) :
    (H.subproof m d b).length ≤ h + 1 := by
  induction h generalizing m d b with
  | zero => exact length_subproof_of_le_one hle
  | succ h ih =>
    rcases Nat.lt_or_ge d.length 2 with hone | htwo
    · exact (length_subproof_of_le_one (by omega)).trans (by omega)
    · obtain ⟨e, t, hsplit, hlen, ht⟩ := exists_split_eq htwo
      have hhalf := split_le_of_le htwo hle
      have htake : (d.take (split d.length)).length ≤ 2 ^ h := by rwa [length_take_split htwo]
      have hdrop : (d.drop (split d.length)).length ≤ 2 ^ h := by
        rw [length_drop_split]
        omega
      rw [subproof, if_neg (show ¬d.length ≤ 1 by omega)]
      dsimp only
      split_ifs
      · simp
      · simp
      · rw [length_append, length_singleton]
        exact Nat.succ_le_succ (ih htake)
      · rw [length_append, length_singleton]
        exact Nat.succ_le_succ (ih hdrop)

theorem length_consistencyProof_le {h : Nat} (hle : d.length ≤ 2 ^ h)
    (hproof : H.consistencyProof d m = .ok proof) : proof.length ≤ h + 1 := by
  rw [consistencyProof] at hproof
  split_ifs at hproof
  rw [← Except.ok.inj hproof]
  exact length_subproof_le hle

theorem rootOf_take_right (hd : 2 ≤ d.length) (hlow : split d.length < m) (hm : m ≤ d.length) :
    H.rootOf (d.take m) = H.nodeHash (H.rootOf (d.take (split d.length)))
      (H.rootOf ((d.drop (split d.length)).take (m - split d.length))) := by
  have hpos := split_pos d.length
  have hlen : (d.take m).length = m := by rw [length_take]; omega
  rw [rootOf_of_two_le (by omega), hlen, split_eq_of_lt hd hlow hm, take_take,
    Nat.min_eq_left hlow.le, drop_take]

theorem take_take_left (hle : m ≤ split d.length) :
    (d.take (split d.length)).take m = d.take m := by
  rw [take_take, Nat.min_eq_left hle]

end Subproof

section PowerOfTwo

variable {n : Nat}

theorem isPowerOfTwo_two_pow (e : Nat) : isPowerOfTwo (2 ^ e) = true := by
  simp [isPowerOfTwo]

theorem exists_of_isPowerOfTwo (h : isPowerOfTwo n = true) : ∃ e, n = 2 ^ e :=
  ⟨n.log2, (of_decide_eq_true h).symm⟩

theorem isPowerOfTwo_split (n : Nat) : isPowerOfTwo (split n) = true := isPowerOfTwo_two_pow _

theorem isPowerOfTwo_eq_false (hn : 2 ≤ n) (hlow : split n < m) (hm : m < n) :
    isPowerOfTwo m = false := by
  by_contra h
  obtain ⟨j, rfl⟩ := exists_of_isPowerOfTwo (by simpa using h)
  obtain ⟨e, t, hsplit, hlen, ht⟩ := exists_split_eq hn
  rw [hsplit] at hlow
  have hej : e < j := (Nat.pow_lt_pow_iff_right (by omega)).1 hlow
  have hpow : 2 ^ (e + 1) ≤ 2 ^ j := Nat.pow_le_pow_right (by omega) hej
  rw [pow_succ] at hpow
  omega

end PowerOfTwo

section Complete

/-- The proof with the old root, which a complete old tree has in front of the proof without
it. -/
theorem subproof_false (hm : 1 ≤ m) (hle : m ≤ d.length)
    (hpow : m = d.length → isPowerOfTwo m = true) :
    H.subproof m d false = if isPowerOfTwo m then H.rootOf (d.take m) :: H.subproof m d true
      else H.subproof m d true := by
  induction d using split_induction with
  | nil => simp at hle; omega
  | single h =>
    obtain rfl : m = [h].length := by simp at hle ⊢; omega
    rw [subproof_self, subproof_self, take_length]
    rfl
  | node d hd ihleft _ =>
    rcases hle.eq_or_lt with rfl | hlt
    · rw [if_pos (hpow rfl), subproof_self, subproof_self, take_length]
      rfl
    · by_cases hpart : m ≤ split d.length
      · rw [subproof_left hd hpart, subproof_left hd hpart, ihleft (by rwa [length_take_split hd])
          (fun h => by rw [h, length_take_split hd]; exact isPowerOfTwo_split _),
          take_take_left hpart]
        split <;> rfl
      · have hlow : split d.length < m := by omega
        rw [isPowerOfTwo_eq_false hd hlow hlt, subproof_right hd hlow hlt,
          subproof_right hd hlow hlt]
        rfl

theorem consistencyRoots_eq (H : Hashing Hash) (m n : Nat) (proof : List Hash) :
    H.consistencyRoots m n proof =
      startedClimb (fun c r => (H.nodeHash c r.1, H.nodeHash c r.2))
        (fun c r => (r.1, H.nodeHash r.2 c)) (fun h => (h, h)) m n proof := by
  cases proof <;> rfl

theorem consistencyRoots_subproof (hm : 1 ≤ m) (hle : m ≤ d.length)
    (hpow : m = d.length → isPowerOfTwo m = true) :
    H.consistencyRoots m d.length (H.subproof m d false) =
      some (H.rootOf (d.take m), H.rootOf d) := by
  rw [consistencyRoots_eq]
  induction d using split_induction generalizing m with
  | nil => simp at hle; omega
  | single h =>
    obtain rfl : m = [h].length := by simp at hle ⊢; omega
    rw [subproof_self, take_length]
    exact startedClimb_two_pow 0 _ []
  | node d hd ihleft ihright =>
    rcases hle.eq_or_lt with rfl | hlt
    · obtain ⟨e, he⟩ := exists_of_isPowerOfTwo (hpow rfl)
      rw [subproof_self, take_length, he]
      exact startedClimb_two_pow e _ []
    · by_cases hpart : m ≤ split d.length
      · have h := ihleft hm (by rwa [length_take_split hd]) (by
          rw [length_take_split hd]
          rintro rfl
          exact isPowerOfTwo_split _)
        rw [length_take_split hd, take_take_left hpart] at h
        rw [subproof_left hd hpart, startedClimb_left hd hm hpart, h, rootOf_of_two_le hd]
        rfl
      · have hlow : split d.length < m := by omega
        have hinside : m - split d.length ≤ (d.drop (split d.length)).length := by
          rw [length_drop_split]
          omega
        have h := ihright (by omega) hinside (by
          rw [length_drop_split]
          omega)
        rw [length_drop_split] at h
        rw [subproof_right hd hlow hlt, startedClimb_right hd hlow hlt, h,
          rootOf_take_right hd hlow hle, rootOf_of_two_le hd]
        rfl

end Complete

section Sound

def consistencyTrace (H : Hashing Hash) (m n : Nat) (proof : List Hash) :
    Option ((Hash × Hash) × List (Hash × Hash)) :=
  startedClimb (fun c r => ((H.nodeHash c r.1.1, H.nodeHash c r.1.2),
      (c, r.1.1) :: (c, r.1.2) :: r.2))
    (fun c r => ((r.1.1, H.nodeHash r.1.2 c), (r.1.2, c) :: r.2)) (fun h => ((h, h), [])) m n proof

theorem consistencyRoots_eq_map_fst (m n : Nat) (proof : List Hash) :
    H.consistencyRoots m n proof = (H.consistencyTrace m n proof).map Prod.fst := by
  cases proof with
  | nil => rfl
  | cons first rest =>
    exact climb_map (α := (Hash × Hash) × List (Hash × Hash)) Prod.fst (fun _ _ => rfl)
      (fun _ _ => rfl) _ _ ((first, first), []) rest

variable {hashed : List (Hash × Hash)}

theorem consistencyRootsPairs_of_trace {n : Nat} {roots : Hash × Hash}
    (h : H.consistencyTrace m n proof = some (roots, hashed)) :
    H.consistencyRootsPairs m n proof = hashed := by
  cases proof with
  | nil => cases h
  | cons first rest =>
    simp only [consistencyTrace, startedClimb] at h
    simp only [consistencyRootsPairs, h]
    rfl

/-- Where the old tree is the whole of a complete tree, the proof is its root. -/
theorem consistencyTrace_whole {f : Hash} (hpow : isPowerOfTwo d.length = true)
    (htrace : H.consistencyTrace d.length d.length proof = some ((f, H.rootOf d), hashed)) :
    f = H.rootOf (d.take d.length) ∧ proof = H.subproof d.length d false := by
  obtain ⟨e, he⟩ := exists_of_isPowerOfTwo hpow
  rw [subproof_self, take_length]
  rw [consistencyTrace, he] at htrace
  cases proof with
  | nil => cases htrace
  | cons first rest =>
    rw [startedClimb_two_pow] at htrace
    split at htrace
    · next hrest =>
      simp only [Option.some.injEq, Prod.mk.injEq] at htrace
      obtain ⟨⟨rfl, rfl⟩, -⟩ := htrace
      rw [hrest]
      exact ⟨rfl, rfl⟩
    · cases htrace

theorem consistencyTrace_sound {f : Hash} {pairs : Set (Hash × Hash)} (hm : 1 ≤ m)
    (hle : m ≤ d.length) (hpow : m = d.length → isPowerOfTwo m = true)
    (htrace : H.consistencyTrace m d.length proof = some ((f, H.rootOf d), hashed))
    (hfree : H.CollisionFree pairs) (htree : ∀ p ∈ H.rootPairs d, p ∈ pairs)
    (hwalk : ∀ p ∈ hashed, p ∈ pairs) : f = H.rootOf (d.take m) ∧ proof = H.subproof m d false := by
  induction d using split_induction generalizing m proof f hashed with
  | nil => simp at hle; omega
  | single h =>
    obtain rfl : m = [h].length := by simp at hle ⊢; omega
    exact consistencyTrace_whole rfl htrace
  | node d hd ihleft ihright =>
    rcases hle.eq_or_lt with rfl | hlt
    · exact consistencyTrace_whole (hpow rfl) htrace
    · obtain ⟨hleft, hright, hroots⟩ := hfree.node hd htree
      rcases eq_nil_or_concat proof with rfl | ⟨ps, q, rfl⟩
      · cases htrace
      · rw [concat_eq_append, consistencyTrace] at htrace
        rw [concat_eq_append]
        by_cases hpart : m ≤ split d.length
        · rw [startedClimb_left hd hm hpart, ← consistencyTrace, Option.map_eq_some_iff] at htrace
          obtain ⟨⟨⟨f', s'⟩, hashed'⟩, hinner, hroot⟩ := htrace
          simp only [Prod.mk.injEq] at hroot
          obtain ⟨⟨rfl, hnode⟩, rfl⟩ := hroot
          obtain ⟨rfl, rfl⟩ := hroots _ _ (hwalk _ mem_cons_self) hnode
          obtain ⟨rfl, rfl⟩ := ihleft hm (by rwa [length_take_split hd])
            (fun h => by rw [h, length_take_split hd]; exact isPowerOfTwo_split _)
            (by rw [length_take_split hd]; exact hinner) hleft
            (fun p hp => hwalk p (mem_cons_of_mem _ hp))
          exact ⟨by rw [take_take_left hpart], (subproof_left hd hpart).symm⟩
        · have hlow : split d.length < m := by omega
          rw [startedClimb_right hd hlow hlt, ← consistencyTrace, Option.map_eq_some_iff] at htrace
          obtain ⟨⟨⟨f', s'⟩, hashed'⟩, hinner, hroot⟩ := htrace
          simp only [Prod.mk.injEq] at hroot
          obtain ⟨⟨rfl, hnode⟩, rfl⟩ := hroot
          obtain ⟨rfl, rfl⟩ := hroots _ _ (hwalk _ (by simp)) hnode
          have hinside : m - split d.length ≤ (d.drop (split d.length)).length := by
            rw [length_drop_split]
            omega
          obtain ⟨rfl, rfl⟩ := ihright (by omega) hinside
            (by rw [length_drop_split]; omega)
            (by rw [length_drop_split]; exact hinner) hright
            (fun p hp => hwalk p (mem_cons_of_mem _ (mem_cons_of_mem _ hp)))
          exact ⟨(rootOf_take_right hd hlow hle).symm, (subproof_right hd hlow hlt).symm⟩

end Sound

section Verify

variable [DecidableEq Hash]

theorem verifyConsistency_eq_ok_iff_roots {old new : TreeHead Hash} (hm : 1 ≤ old.size)
    (hlt : old.size < new.size) :
    H.verifyConsistency old new proof = .ok () ↔
      H.consistencyRoots old.size new.size
        (if isPowerOfTwo old.size then old.root :: proof else proof) =
          some (old.root, new.root) := by
  unfold verifyConsistency
  rw [if_neg (by omega), if_neg (by omega)]
  dsimp only
  cases H.consistencyRoots old.size new.size
      (if isPowerOfTwo old.size then old.root :: proof else proof) with
  | none => simp
  | some roots =>
    obtain ⟨f, s⟩ := roots
    by_cases h : f = old.root ∧ s = new.root
    · simp [h]
    · simp [h]

theorem verifyConsistency_eq_ok_iff_same {old new : TreeHead Hash} (hm : 1 ≤ old.size)
    (heq : old.size = new.size) :
    H.verifyConsistency old new proof = .ok () ↔ proof = [] ∧ old.root = new.root := by
  unfold verifyConsistency
  rw [if_neg (by omega), if_pos heq]
  by_cases h : proof = [] ∧ old.root = new.root
  · rw [if_pos h]
    exact iff_of_true rfl h
  · rw [if_neg h]
    split
    · exact iff_of_false (by simp) h
    · exact iff_of_false (by simp) h

theorem verifyConsistency_sound {old : TreeHead Hash} {pairs : Set (Hash × Hash)}
    (hm : 1 ≤ old.size) (hle : old.size ≤ d.length)
    (hok : H.verifyConsistency old (H.headOf d) proof = .ok ()) (hfree : H.CollisionFree pairs)
    (htree : ∀ p ∈ H.rootPairs d, p ∈ pairs)
    (hwalk : ∀ p ∈ H.consistencyPairs old (H.headOf d) proof, p ∈ pairs) :
    old.root = H.rootOf (d.take old.size) ∧ proof = H.subproof old.size d true := by
  rcases hle.eq_or_lt with heq | hlt
  · obtain ⟨rfl, hroot⟩ := (verifyConsistency_eq_ok_iff_same hm heq).1 hok
    rw [heq, take_length, subproof_self]
    exact ⟨hroot, rfl⟩
  · have hroots := (verifyConsistency_eq_ok_iff_roots hm hlt).1 hok
    rw [consistencyRoots_eq_map_fst, Option.map_eq_some_iff] at hroots
    obtain ⟨⟨roots, hashed⟩, htrace, rfl⟩ := hroots
    have hpairs : H.consistencyPairs old (H.headOf d) proof = hashed :=
      consistencyRootsPairs_of_trace htrace
    obtain ⟨hroot, hproof⟩ := consistencyTrace_sound hm hle (by omega) htrace hfree htree
      (fun p hp => hwalk p (hpairs ▸ hp))
    rw [subproof_false hm hle (by omega)] at hproof
    refine ⟨hroot, ?_⟩
    split at hproof
    · exact (List.cons.inj hproof).2
    · exact hproof

theorem verifyConsistency_subproof {old : TreeHead Hash} (hm : 1 ≤ old.size)
    (hle : old.size ≤ d.length) (hroot : old.root = H.rootOf (d.take old.size)) :
    H.verifyConsistency old (H.headOf d) (H.subproof old.size d true) = .ok () := by
  rcases hle.eq_or_lt with heq | hlt
  · refine (verifyConsistency_eq_ok_iff_same hm heq).2 ⟨?_, ?_⟩
    · rw [heq, subproof_self]
      rfl
    · rw [hroot, heq, take_length]
      rfl
  · refine (verifyConsistency_eq_ok_iff_roots hm hlt).2 ?_
    rw [hroot, ← subproof_false hm hle (by omega)]
    exact consistencyRoots_subproof hm hle (by omega)

theorem verifyConsistency_of_prefix {d' : List Hash} (hd : d <+: d') (hne : d ≠ []) :
    H.verifyConsistency (H.headOf d) (H.headOf d') (H.subproof d.length d' true) = .ok () :=
  verifyConsistency_subproof (length_pos_of_ne_nil hne) hd.length_le
    (congrArg H.rootOf (prefix_iff_eq_take.1 hd))

/-- For an old size within the tree, exactly the head of the prefix with the
generated proof is accepted, when no two pairs hashed by the tree and by the
verifier collide. -/
theorem verifyConsistency_eq_ok_iff (d : List Hash) (old : TreeHead Hash) (hm : 1 ≤ old.size)
    (hle : old.size ≤ d.length) (proof : List Hash)
    (hfree : H.CollisionFree
      {p | p ∈ H.rootPairs d ∨ p ∈ H.consistencyPairs old (H.headOf d) proof}) :
    H.verifyConsistency old (H.headOf d) proof = .ok () ↔
      old.root = H.rootOf (d.take old.size) ∧ H.consistencyProof d old.size = .ok proof := by
  rw [consistencyProof, if_neg (by omega), Except.ok.injEq]
  constructor
  · intro hok
    obtain ⟨hroot, hproof⟩ := verifyConsistency_sound hm hle hok hfree
      (fun p hp => .inl hp) (fun p hp => .inr hp)
    exact ⟨hroot, hproof.symm⟩
  · rintro ⟨hroot, rfl⟩
    exact verifyConsistency_subproof hm hle hroot

theorem verifyConsistency_eq_ok_iff_three :
    sha256Hashing.verifyConsistency ⟨2, rootAB⟩ (sha256Hashing.headOf [leafA, leafB, leafC])
        [leafC] = .ok () ↔
      rootAB = sha256Hashing.rootOf ([leafA, leafB, leafC].take 2) ∧
        sha256Hashing.consistencyProof [leafA, leafB, leafC] 2 = .ok [leafC] := by
  have hwalk : sha256Hashing.consistencyRootsPairs 2 3 [rootAB, leafC] = [(rootAB, leafC)] := by
    decide +kernel
  have hpairs : sha256Hashing.consistencyPairs ⟨2, rootAB⟩
      (sha256Hashing.headOf [leafA, leafB, leafC]) [leafC] = [(rootAB, leafC)] := by
    rw [consistencyPairs, if_pos (by decide)]
    exact hwalk
  refine verifyConsistency_eq_ok_iff [leafA, leafB, leafC] ⟨2, rootAB⟩ (by decide) (by decide)
    [leafC] (collisionFree_three.mono ?_)
  rw [rootPairs_three, hpairs]
  rintro p (htree | hproof)
  · exact htree
  · exact mem_cons.2 (.inl (mem_singleton.1 hproof))

end Verify

end Hashing

end Calybris.Merkle
