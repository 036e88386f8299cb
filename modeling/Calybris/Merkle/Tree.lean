import Calybris.Text.Sha256
import Calybris.Walk.Climb
import Mathlib.Data.List.Nodup

/-!
# Merkle trees, their proofs and their verifiers

The tree of RFC 9162: a list of leaf hashes splits at the largest power of two
below its length, and an interior node hashes its two parts. The generators
`path` and `subproof` recurse over the parts; the verifiers climb from the leaf,
or from the last leaf of the old tree, by the bits of the positions.

The hash is a parameter. No hash of fixed size is injective on pairs, so no
result assumes that: `CollisionFree` speaks of the pairs that were hashed, which
`rootPairs` lists for a tree and `inclusionPairs` and `consistencyPairs` for one
call of a verifier.
-/

namespace Calybris.Merkle

open Walk List

inductive MerkleError where
  | indexOutOfRange (index size : Nat)
  | badSizes (old new : Nat)
  | badProofLength
  | rootMismatch
  | badEntryHash
  deriving DecidableEq, Repr

structure TreeHead (Hash : Type*) where
  size : Nat
  root : Hash
  deriving DecidableEq

structure Hashing (Hash : Type*) where
  nodeHash : Hash → Hash → Hash
  emptyRoot : Hash

/-- The largest power of two strictly less than `n`, for `n > 1`. -/
def split (n : Nat) : Nat := 2 ^ (n - 1).log2

theorem exists_split_eq {n : Nat} (hn : 2 ≤ n) :
    ∃ e t, split n = 2 ^ e ∧ n = 2 ^ e + t + 1 ∧ t < 2 ^ e := by
  have hlow := Nat.log2_self_le (show n - 1 ≠ 0 by omega)
  have hhigh : n - 1 < 2 ^ ((n - 1).log2 + 1) := Nat.lt_log2_self
  rw [pow_succ] at hhigh
  exact ⟨(n - 1).log2, n - 1 - 2 ^ (n - 1).log2, rfl, by omega, by omega⟩

theorem split_pos (n : Nat) : 0 < split n := Nat.two_pow_pos _

theorem split_lt {n : Nat} (hn : 2 ≤ n) : split n < n := by
  obtain ⟨e, t, hsplit, hlen, -⟩ := exists_split_eq hn
  omega

theorem split_eq_of_lt {m n : Nat} (hn : 2 ≤ n) (hlow : split n < m) (hhigh : m ≤ n) :
    split m = split n := by
  obtain ⟨e, t, hsplit, hlen, ht⟩ := exists_split_eq hn
  rw [hsplit] at hlow ⊢
  have hlog : (m - 1).log2 = e := by
    rw [Nat.log2_eq_iff (by omega), pow_succ]
    omega
  rw [split, hlog]

theorem length_split_lt {α : Type*} {d : List α} (hd : 2 ≤ d.length) :
    (d.take (split d.length)).length < d.length ∧
      (d.drop (split d.length)).length < d.length := by
  have hlt := split_lt hd
  have hpos := split_pos d.length
  rw [length_take, length_drop]
  omega

theorem split_induction {α : Type*} {P : List α → Prop} (nil : P []) (single : ∀ a, P [a])
    (node : ∀ d : List α, 2 ≤ d.length →
      P (d.take (split d.length)) → P (d.drop (split d.length)) → P d)
    (d : List α) : P d := by
  induction h : d.length using Nat.strong_induction_on generalizing d with
  | _ n ih =>
    subst h
    match d, ih with
    | [], _ => exact nil
    | [a], _ => exact single a
    | a :: b :: rest, ih =>
      obtain ⟨hleft, hright⟩ := length_split_lt (d := a :: b :: rest) (by simp)
      exact node _ (by simp) (ih _ hleft _ rfl) (ih _ hright _ rfl)

namespace Hashing

variable {Hash : Type*} (H : Hashing Hash)

def rootOf (d : List Hash) : Hash :=
  match d with
  | [] => H.emptyRoot
  | [h] => h
  | a :: b :: rest =>
    let d := a :: b :: rest
    let k := split d.length
    H.nodeHash (rootOf (d.take k)) (rootOf (d.drop k))
termination_by d.length
decreasing_by exacts [(length_split_lt (by simp)).1, (length_split_lt (by simp)).2]

def headOf (d : List Hash) : TreeHead Hash where
  size := d.length
  root := H.rootOf d

/-- The siblings of leaf `m`, from the leaf upwards. -/
def path (m : Nat) (d : List Hash) : List Hash :=
  if d.length ≤ 1 then []
  else
    let k := split d.length
    if m < k then path m (d.take k) ++ [H.rootOf (d.drop k)]
    else path (m - k) (d.drop k) ++ [H.rootOf (d.take k)]
termination_by d.length
decreasing_by exacts [(length_split_lt (by omega)).1, (length_split_lt (by omega)).2]

def inclusionProof (d : List Hash) (index : Nat) : Except MerkleError (List Hash) :=
  if index ≥ d.length then .error (.indexOutOfRange index d.length)
  else .ok (H.path index d)

/-- The nodes that make the old tree a part of the new one. The old size is at
least one and at most the length, so a list that cannot be split is one the
first test has met. -/
def subproof (m : Nat) (d : List Hash) (b : Bool) : List Hash :=
  if m = d.length then if b then [] else [H.rootOf d]
  else if d.length ≤ 1 then []
  else
    let k := split d.length
    if m ≤ k then subproof m (d.take k) b ++ [H.rootOf (d.drop k)]
    else subproof (m - k) (d.drop k) false ++ [H.rootOf (d.take k)]
termination_by d.length
decreasing_by exacts [(length_split_lt (by omega)).1, (length_split_lt (by omega)).2]

def consistencyProof (d : List Hash) (oldSize : Nat) : Except MerkleError (List Hash) :=
  if oldSize = 0 ∨ oldSize > d.length then .error (.badSizes oldSize d.length)
  else .ok (H.subproof oldSize d true)

section Verifiers

variable [DecidableEq Hash]

def verifyInclusion (head : TreeHead Hash) (index : Nat) (leafHash : Hash)
    (proof : List Hash) : Except MerkleError Unit :=
  if index ≥ head.size then .error (.indexOutOfRange index head.size)
  else
    match climb (fun p r => H.nodeHash p r) (fun p r => H.nodeHash r p)
        index (head.size - 1) leafHash proof with
    | none => .error .badProofLength
    | some r => if r = head.root then .ok () else .error .rootMismatch

def isPowerOfTwo (n : Nat) : Bool := 2 ^ n.log2 = n

/-- The two roots a consistency proof leads to, the old one first. `none` is a
proof of the wrong length. -/
def consistencyRoots (oldSize newSize : Nat) : List Hash → Option (Hash × Hash)
  | [] => none
  | first :: rest =>
    let shifted := skipOnes (oldSize - 1) (newSize - 1)
    climb (fun c r => (H.nodeHash c r.1, H.nodeHash c r.2)) (fun c r => (r.1, H.nodeHash r.2 c))
      shifted.1 shifted.2 (first, first) rest

def verifyConsistency (old new : TreeHead Hash) (proof : List Hash) : Except MerkleError Unit :=
  if old.size = 0 ∨ old.size > new.size then .error (.badSizes old.size new.size)
  else if old.size = new.size then
    if proof = [] ∧ old.root = new.root then .ok ()
    else if proof ≠ [] then .error .badProofLength
    else .error .rootMismatch
  else
    -- The old root is itself the first node where the old tree is complete.
    let proof := if isPowerOfTwo old.size then old.root :: proof else proof
    match H.consistencyRoots old.size new.size proof with
    | none => .error .badProofLength
    | some (f, s) => if f = old.root ∧ s = new.root then .ok () else .error .rootMismatch

end Verifiers

def rootPairs (d : List Hash) : List (Hash × Hash) :=
  match d with
  | [] => []
  | [_] => []
  | a :: b :: rest =>
    let d := a :: b :: rest
    let k := split d.length
    (H.rootOf (d.take k), H.rootOf (d.drop k)) :: (rootPairs (d.take k) ++ rootPairs (d.drop k))
termination_by d.length
decreasing_by exacts [(length_split_lt (by simp)).1, (length_split_lt (by simp)).2]

/-- The pairs `verifyInclusion` hashes: its walk, keeping what it hashes. -/
def inclusionPairs (index size : Nat) (leafHash : Hash) (proof : List Hash) :
    List (Hash × Hash) :=
  ((climb (fun p r => (H.nodeHash p r.1, (p, r.1) :: r.2))
    (fun p r => (H.nodeHash r.1 p, (r.1, p) :: r.2))
    index (size - 1) (leafHash, []) proof).map Prod.snd).getD []

def consistencyRootsPairs (oldSize newSize : Nat) : List Hash → List (Hash × Hash)
  | [] => []
  | first :: rest =>
    let shifted := skipOnes (oldSize - 1) (newSize - 1)
    ((climb (fun c r => ((H.nodeHash c r.1.1, H.nodeHash c r.1.2),
          (c, r.1.1) :: (c, r.1.2) :: r.2))
        (fun c r => ((r.1.1, H.nodeHash r.1.2 c), (r.1.2, c) :: r.2))
      shifted.1 shifted.2 ((first, first), []) rest).map Prod.snd).getD []

def consistencyPairs (old new : TreeHead Hash) (proof : List Hash) : List (Hash × Hash) :=
  H.consistencyRootsPairs old.size new.size
    (if isPowerOfTwo old.size then old.root :: proof else proof)

def CollisionFree (pairs : Set (Hash × Hash)) : Prop :=
  Set.InjOn (fun p => H.nodeHash p.1 p.2) pairs

section Equations

variable {H} {d : List Hash}

theorem rootOf_of_two_le (hd : 2 ≤ d.length) :
    H.rootOf d = H.nodeHash (H.rootOf (d.take (split d.length)))
      (H.rootOf (d.drop (split d.length))) := by
  match d, hd with
  | a :: b :: rest, _ => rw [rootOf]

theorem rootPairs_of_two_le (hd : 2 ≤ d.length) :
    H.rootPairs d = (H.rootOf (d.take (split d.length)), H.rootOf (d.drop (split d.length))) ::
      (H.rootPairs (d.take (split d.length)) ++ H.rootPairs (d.drop (split d.length))) := by
  match d, hd with
  | a :: b :: rest, _ => rw [rootPairs]

@[simp] theorem rootOf_singleton (h : Hash) : H.rootOf [h] = h := by
  rw [rootOf]

theorem rootOf_pair (a b : Hash) : H.rootOf [a, b] = H.nodeHash a b := by
  rw [rootOf_of_two_le (by simp)]
  simp [show split 2 = 1 by decide]

theorem rootPairs_pair (a b : Hash) : H.rootPairs [a, b] = [(a, b)] := by
  rw [rootPairs_of_two_le (by simp)]
  simp [show split 2 = 1 by decide, rootPairs]

theorem length_take_split (hd : 2 ≤ d.length) :
    (d.take (split d.length)).length = split d.length := by
  rw [length_take, Nat.min_eq_left (split_lt hd).le]

theorem length_drop_split : (d.drop (split d.length)).length = d.length - split d.length :=
  length_drop

theorem rootOf_map {Hash' : Type*} {H' : Hashing Hash'} (f : Hash → Hash')
    (hnode : ∀ a b, f (H.nodeHash a b) = H'.nodeHash (f a) (f b))
    (hempty : f H.emptyRoot = H'.emptyRoot) (d : List Hash) :
    H'.rootOf (d.map f) = f (H.rootOf d) := by
  induction d using split_induction with
  | nil => rw [map_nil, rootOf, rootOf, hempty]
  | single h => rw [map_singleton, rootOf_singleton, rootOf_singleton]
  | node d hd ihleft ihright =>
    have hlen : 2 ≤ (d.map f).length := by rwa [length_map]
    rw [rootOf_of_two_le hlen, rootOf_of_two_le hd, hnode, length_map, ← map_take,
      ← map_drop, ihleft, ihright]

theorem CollisionFree.node {pairs : Set (Hash × Hash)} (hfree : H.CollisionFree pairs)
    (hd : 2 ≤ d.length) (htree : ∀ p ∈ H.rootPairs d, p ∈ pairs) :
    (∀ p ∈ H.rootPairs (d.take (split d.length)), p ∈ pairs) ∧
      (∀ p ∈ H.rootPairs (d.drop (split d.length)), p ∈ pairs) ∧
      ∀ a b, (a, b) ∈ pairs → H.nodeHash a b = H.rootOf d →
        a = H.rootOf (d.take (split d.length)) ∧ b = H.rootOf (d.drop (split d.length)) := by
  rw [rootPairs_of_two_le hd, forall_mem_cons, forall_mem_append] at htree
  rw [rootOf_of_two_le hd]
  exact ⟨htree.2.1, htree.2.2, fun a b hab h => Prod.mk.inj (hfree hab htree.1 h)⟩

theorem CollisionFree.mono {small large : Set (Hash × Hash)} (hfree : H.CollisionFree large)
    (h : small ⊆ large) : H.CollisionFree small := Set.InjOn.mono h hfree

end Equations

end Hashing

/-! ### SHA-256 and three leaves -/

open Text

def sha256Hashing : Hashing Digest where
  nodeHash left right := Sha256.hash (0x01 :: (left.1 ++ right.1))
  emptyRoot := Sha256.hash []

/-- The hashes of the leaves `a`, `b` and `c`, and of the first pair. -/
def leafA : Digest := digestOf 0x022a6979e6dab7aa5ae4c3e5e45f7e977112a7e63593820dbec1ec738a24f93c

def leafB : Digest := digestOf 0x57eb35615d47f34ec714cacdf5fd74608a5e8e102724e80b24b287c0c27b6a31

def leafC : Digest := digestOf 0x597fcb31282d34654c200d3418fca5705c648ebf326ec73d8ddef11841f876d8

def rootAB : Digest := digestOf 0xb137985ff484fb600db93107c77b0365c80d78f5b429ded0fd97361d077999eb

theorem rootPairs_three :
    sha256Hashing.rootPairs [leafA, leafB, leafC] = [(rootAB, leafC), (leafA, leafB)] := by
  have hsplit : split 3 = 2 := by decide
  have hroot : sha256Hashing.rootOf [leafA, leafB] = rootAB := by
    rw [Hashing.rootOf_pair]
    decide +kernel
  rw [Hashing.rootPairs_of_two_le (by simp)]
  simp [hsplit, hroot, Hashing.rootPairs_pair, Hashing.rootPairs]

theorem collisionFree_three :
    sha256Hashing.CollisionFree {p | p ∈ [(rootAB, leafC), (leafA, leafB)]} :=
  fun _ hp _ hq => inj_on_of_nodup_map (f := fun p => sha256Hashing.nodeHash p.1 p.2)
    (by decide +kernel) hp hq

end Calybris.Merkle
