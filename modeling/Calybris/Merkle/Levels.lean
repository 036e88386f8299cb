import Calybris.Merkle.Consistency
import Calybris.Merkle.Inclusion
import Mathlib.Data.List.Induction

/-!
# A tree with its complete subtrees cached

`MerkleTree` keeps, for each `k`, the roots of the complete aligned blocks of `2^k`
leaves; a level is the pairs of the level below it. Roots and proofs of any prefix are
read off the levels. A lookup outside a level, and a split of fewer than two leaves, is
`none`; the results are those of the functions over the leaves, so neither happens.
-/

namespace Calybris.Merkle

open List Hashing

variable {Hash : Type*}

/-- The hashes of the complete, aligned subtrees: `levels[k][i]` is the root of the leaves
from `i·2^k` up to `(i+1)·2^k`. -/
structure MerkleTree (Hash : Type*) where
  levels : List (List Hash)

namespace MerkleTree

def new : MerkleTree Hash := ⟨[]⟩

variable (H : Hashing Hash)

/-- The loop of `push` from one level upwards: the hash is added to the level, and where
that completes a pair the pair's hash goes to the next level. -/
def carry : List (List Hash) → Hash → Option (List (List Hash))
  | [], hash => some [[hash]]
  | level :: rest, hash =>
    let level := level ++ [hash]
    let n := level.length
    if n % 2 = 1 then some (level :: rest)
    else
      level[n - 2]?.bind fun a => level[n - 1]?.bind fun b =>
        (carry rest (H.nodeHash a b)).map fun rest => level :: rest

def push (tree : MerkleTree Hash) (leaf : Hash) : Option (MerkleTree Hash) :=
  (carry H tree.levels leaf).map MerkleTree.mk

def fromLeafHashes (leafHashes : List Hash) : Option (MerkleTree Hash) :=
  leafHashes.foldlM (push H) new

def len (tree : MerkleTree Hash) : Nat := (tree.levels.head?.map List.length).getD 0

def entry (tree : MerkleTree Hash) (k i : Nat) : Option Hash :=
  tree.levels[k]?.bind fun level => level[i]?

/-- The root of the leaves from `start` up to `start + len`. A power of two has as many
trailing zeros as its logarithm says. -/
def subtree (tree : MerkleTree Hash) (start len : Nat) : Option Hash :=
  if isPowerOfTwo len ∧ start % len = 0 then tree.entry len.log2 (start / len)
  else if len ≤ 1 then none
  else
    (subtree tree start (split len)).bind fun left =>
      (subtree tree (start + split len) (len - split len)).map fun right => H.nodeHash left right
termination_by len
decreasing_by
  all_goals
    have hlt := split_lt (n := len) (by omega)
    have hpos := split_pos len
    omega

def head (tree : MerkleTree Hash) (size : Nat) : Option (Except MerkleError (TreeHead Hash)) :=
  if size > tree.len then some (.error (.badSizes size tree.len))
  else if size = 0 then some (.ok ⟨size, H.emptyRoot⟩)
  else (tree.subtree H 0 size).map fun root => .ok ⟨size, root⟩

def path (tree : MerkleTree Hash) (m start len : Nat) : Option (List Hash) :=
  if len ≤ 1 then some []
  else if m < split len then
    (path tree m start (split len)).bind fun out =>
      (tree.subtree H (start + split len) (len - split len)).map fun h => out ++ [h]
  else
    (path tree (m - split len) (start + split len) (len - split len)).bind fun out =>
      (tree.subtree H start (split len)).map fun h => out ++ [h]
termination_by len
decreasing_by
  all_goals
    have hlt := split_lt (n := len) (by omega)
    have hpos := split_pos len
    omega

def inclusionProof (tree : MerkleTree Hash) (index size : Nat) :
    Option (Except MerkleError (List Hash)) :=
  if size > tree.len then some (.error (.badSizes size tree.len))
  else if index ≥ size then some (.error (.indexOutOfRange index size))
  else (tree.path H index 0 size).map .ok

def subproof (tree : MerkleTree Hash) (m start len : Nat) (b : Bool) : Option (List Hash) :=
  if m = len then if b then some [] else (tree.subtree H start len).map fun h => [h]
  else if len ≤ 1 then none
  else if m ≤ split len then
    (subproof tree m start (split len) b).bind fun out =>
      (tree.subtree H (start + split len) (len - split len)).map fun h => out ++ [h]
  else
    (subproof tree (m - split len) (start + split len) (len - split len) false).bind fun out =>
      (tree.subtree H start (split len)).map fun h => out ++ [h]
termination_by len
decreasing_by
  all_goals
    have hlt := split_lt (n := len) (by omega)
    have hpos := split_pos len
    omega

def consistencyProof (tree : MerkleTree Hash) (old size : Nat) :
    Option (Except MerkleError (List Hash)) :=
  if size > tree.len ∨ old = 0 ∨ old > size then some (.error (.badSizes old size))
  else (tree.subproof H old 0 size true).map .ok

end MerkleTree

namespace Hashing

variable (H : Hashing Hash)

def pairUp : List Hash → List Hash
  | a :: b :: rest => H.nodeHash a b :: pairUp rest
  | _ => []

variable {H} {l d : List Hash} {a b : Hash}

theorem pairUp_append (h : l.length % 2 = 0) (t : List Hash) :
    H.pairUp (l ++ t) = H.pairUp l ++ H.pairUp t := by
  induction l using pairUp.induct with
  | case1 a b rest ih =>
    simp only [length_cons] at h
    rw [cons_append, cons_append, pairUp, pairUp, ih (by omega), cons_append]
  | case2 l hl =>
    match l, hl, h with
    | [], _, _ => rfl
    | [a], _, h => simp at h
    | a :: b :: rest, hl, _ => exact absurd rfl (hl a b rest)

theorem pairUp_getElem? (i : Nat) (ha : l[2 * i]? = some a) (hb : l[2 * i + 1]? = some b) :
    (H.pairUp l)[i]? = some (H.nodeHash a b) := by
  induction i generalizing l with
  | zero =>
    match l, ha, hb with
    | x :: y :: rest, ha, hb =>
      cases ha
      cases hb
      rfl
  | succ i ih =>
    match l, ha, hb with
    | x :: y :: rest, ha, hb =>
      rw [pairUp, getElem?_cons_succ]
      exact ih (by simpa [Nat.mul_succ] using ha) (by simpa [Nat.mul_succ] using hb)

theorem split_two_pow (k : Nat) : split (2 ^ (k + 1)) = 2 ^ k := by
  have hpos : 1 ≤ 2 ^ k := Nat.one_le_two_pow
  have hlog : (2 ^ (k + 1) - 1).log2 = k := by
    rw [Nat.log2_eq_iff (by rw [pow_succ]; omega), pow_succ]
    omega
  rw [split, hlog]

theorem rootOf_block (k i : Nat) (h : (i + 1) * 2 ^ (k + 1) ≤ d.length) :
    H.rootOf ((d.drop (i * 2 ^ (k + 1))).take (2 ^ (k + 1))) =
      H.nodeHash (H.rootOf ((d.drop (2 * i * 2 ^ k)).take (2 ^ k)))
        (H.rootOf ((d.drop ((2 * i + 1) * 2 ^ k)).take (2 ^ k))) := by
  have hpos : 1 ≤ 2 ^ k := Nat.one_le_two_pow
  have hpow : 2 ^ (k + 1) = 2 ^ k + 2 ^ k := by ring
  have hlen : ((d.drop (i * 2 ^ (k + 1))).take (2 ^ (k + 1))).length = 2 ^ (k + 1) := by
    rw [Nat.add_mul] at h
    rw [length_take, length_drop]
    omega
  rw [rootOf_of_two_le (by omega), hlen, split_two_pow, take_take, drop_take,
    drop_drop, Nat.min_eq_left (by omega), show 2 ^ (k + 1) - 2 ^ k = 2 ^ k by omega,
    show i * 2 ^ (k + 1) + 2 ^ k = (2 * i + 1) * 2 ^ k by ring,
    show i * 2 ^ (k + 1) = 2 * i * 2 ^ k by ring]

theorem pairUp_iterate_getElem? (k i : Nat) (h : (i + 1) * 2 ^ k ≤ d.length) :
    ((H.pairUp)^[k] d)[i]? = some (H.rootOf ((d.drop (i * 2 ^ k)).take (2 ^ k))) := by
  induction k generalizing i with
  | zero =>
    have hi : i < d.length := by omega
    rw [Function.iterate_zero, id_eq, Nat.pow_zero, Nat.mul_one, drop_eq_getElem_cons hi,
      take_succ_cons, take_zero, rootOf_singleton, getElem?_eq_getElem hi]
  | succ k ih =>
    have hsum : (2 * i + 1 + 1) * 2 ^ k = (i + 1) * 2 ^ (k + 1) := by ring
    have hnext : (2 * i + 1) * 2 ^ k ≤ (2 * i + 1 + 1) * 2 ^ k :=
      Nat.mul_le_mul_right _ (Nat.le_succ _)
    rw [Function.iterate_succ_apply', rootOf_block k i h]
    exact pairUp_getElem? i (ih (2 * i) (by omega)) (ih (2 * i + 1) (by omega))

end Hashing

namespace MerkleTree

variable {H : Hashing Hash}

def Tower (H : Hashing Hash) : List (List Hash) → List Hash → Prop
  | [], l => l = []
  | level :: rest, l => level = l ∧ Tower H rest (H.pairUp l)

variable {levels levels' : List (List Hash)} {l d : List Hash} {hash : Hash}

theorem carry_tower (h : Tower H levels l) (hash : Hash) :
    ∃ levels', carry H levels hash = some levels' ∧ Tower H levels' (l ++ [hash]) := by
  induction levels generalizing l hash with
  | nil =>
    obtain rfl : l = [] := h
    exact ⟨[[hash]], rfl, rfl, rfl⟩
  | cons level rest ih =>
    obtain ⟨rfl, hrest⟩ := h
    by_cases hodd : (level ++ [hash]).length % 2 = 1
    · have heven : level.length % 2 = 0 := by
        rw [length_append, length_singleton] at hodd
        omega
      refine ⟨(level ++ [hash]) :: rest, by rw [carry, if_pos hodd], rfl, ?_⟩
      rw [pairUp_append heven]
      simpa [pairUp] using hrest
    · -- The hash completes a pair with the last entry.
      obtain ⟨front, a, rfl⟩ : ∃ front a, level = front ++ [a] := by
        rcases eq_nil_or_concat level with rfl | ⟨front, a, rfl⟩
        · simp at hodd
        · exact ⟨front, a, concat_eq_append⟩
      have heven : front.length % 2 = 0 := by
        simp only [length_append, length_singleton] at hodd
        omega
      rw [pairUp_append heven] at hrest
      obtain ⟨rest', hcarry, htower⟩ := ih hrest (H.nodeHash a hash)
      refine ⟨(front ++ [a] ++ [hash]) :: rest', ?_, rfl, ?_⟩
      · rw [carry, if_neg hodd]
        simp [hcarry]
      · rw [append_assoc, pairUp_append heven]
        simpa [pairUp] using htower

def Caches (H : Hashing Hash) (tree : MerkleTree Hash) (d : List Hash) : Prop :=
  Tower H tree.levels d

theorem Caches.push {tree : MerkleTree Hash} (h : Caches H tree d) (leaf : Hash) :
    ∃ tree', push H tree leaf = some tree' ∧ Caches H tree' (d ++ [leaf]) := by
  obtain ⟨levels, hcarry, htower⟩ := carry_tower h leaf
  exact ⟨⟨levels⟩, by rw [MerkleTree.push, hcarry]; rfl, htower⟩

theorem exists_fromLeafHashes (H : Hashing Hash) (d : List Hash) :
    ∃ tree, fromLeafHashes H d = some tree ∧ Caches H tree d := by
  induction d using List.reverseRecOn with
  | nil => exact ⟨new, rfl, rfl⟩
  | append_singleton d leaf ih =>
    obtain ⟨tree, htree, hcaches⟩ := ih
    obtain ⟨tree', hpush, hcaches'⟩ := hcaches.push leaf
    refine ⟨tree', ?_, hcaches'⟩
    rw [fromLeafHashes] at htree ⊢
    rw [foldlM_append, htree]
    simp [hpush]

theorem Tower.getElem? (h : Tower H levels d) (k i : Nat) :
    (levels[k]?.bind fun level => level[i]?) = ((H.pairUp)^[k] d)[i]? := by
  induction levels generalizing d k with
  | nil =>
    obtain rfl : d = [] := h
    have hnil : (H.pairUp)^[k] [] = [] := Function.iterate_fixed rfl k
    rw [hnil]
    rfl
  | cons level rest ih =>
    obtain ⟨rfl, hrest⟩ := h
    cases k with
    | zero => rfl
    | succ k =>
      rw [getElem?_cons_succ, ih hrest k, Function.iterate_succ_apply]

theorem Caches.len {tree : MerkleTree Hash} (h : Caches H tree d) : tree.len = d.length := by
  obtain ⟨levels⟩ := tree
  cases levels with
  | nil =>
    obtain rfl : d = [] := h
    rfl
  | cons level rest =>
    obtain ⟨rfl, -⟩ := h
    rfl

section Reads

variable {tree : MerkleTree Hash} {start len m : Nat}

theorem length_take_drop (hle : start + len ≤ d.length) :
    ((d.drop start).take len).length = len := by
  rw [length_take, length_drop]
  omega

theorem Caches.subtree (h : Caches H tree d) (hpos : 0 < len) (hle : start + len ≤ d.length) :
    tree.subtree H start len = some (H.rootOf ((d.drop start).take len)) := by
  induction hn : len using Nat.strong_induction_on generalizing start len with
  | _ n ih =>
    subst hn
    rw [MerkleTree.subtree]
    split_ifs with halign hone
    · obtain ⟨hpow, hmod⟩ := halign
      obtain ⟨k, rfl⟩ := exists_of_isPowerOfTwo hpow
      obtain ⟨i, rfl⟩ := Nat.dvd_of_mod_eq_zero hmod
      rw [entry, h.getElem?, Nat.log2_two_pow, Nat.mul_div_cancel_left _ hpos, Nat.mul_comm]
      exact pairUp_iterate_getElem? k i (by rw [Nat.add_mul, Nat.mul_comm i]; omega)
    · -- One leaf is aligned.
      obtain rfl : len = 1 := by omega
      exact absurd ⟨by decide, Nat.mod_one start⟩ halign
    · have hlt := split_lt (n := len) (by omega)
      have hsplit := split_pos len
      have hlen := length_take_drop hle
      rw [ih _ hlt hsplit (by omega) rfl, ih _ (by omega) (by omega) (by omega) rfl,
        rootOf_of_two_le (d := (d.drop start).take len) (by omega), hlen, take_take,
        drop_take, drop_drop, Nat.min_eq_left hlt.le]
      rfl

theorem Caches.path (h : Caches H tree d) (hm : m < len) (hle : start + len ≤ d.length) :
    tree.path H m start len = some (H.path m ((d.drop start).take len)) := by
  induction hn : len using Nat.strong_induction_on generalizing start len m with
  | _ n ih =>
    subst hn
    rw [MerkleTree.path, Hashing.path, length_take_drop hle]
    by_cases hone : len ≤ 1
    · rw [if_pos hone, if_pos hone]
    · have hlt := split_lt (n := len) (by omega)
      have hsplit := split_pos len
      rw [if_neg hone, if_neg hone]
      simp only [take_take, drop_take, drop_drop, Nat.min_eq_left hlt.le]
      by_cases hleft : m < split len
      · rw [if_pos hleft, if_pos hleft, ih _ hlt hleft (by omega) rfl,
          h.subtree (by omega) (by omega)]
        rfl
      · rw [if_neg hleft, if_neg hleft, ih _ (by omega) (by omega) (by omega) rfl,
          h.subtree hsplit (by omega)]
        rfl

theorem Caches.subproof (h : Caches H tree d) (hm : 1 ≤ m) (hmle : m ≤ len)
    (hle : start + len ≤ d.length) (b : Bool) :
    tree.subproof H m start len b = some (H.subproof m ((d.drop start).take len) b) := by
  induction hn : len using Nat.strong_induction_on generalizing start len m b with
  | _ n ih =>
    subst hn
    rw [MerkleTree.subproof, Hashing.subproof, length_take_drop hle]
    by_cases hall : m = len
    · rw [if_pos hall, if_pos hall, h.subtree (by omega) hle]
      cases b <;> rfl
    · have hone : ¬len ≤ 1 := by omega
      have hlt := split_lt (n := len) (by omega)
      have hsplit := split_pos len
      rw [if_neg hall, if_neg hall, if_neg hone, if_neg hone]
      simp only [take_take, drop_take, drop_drop, Nat.min_eq_left hlt.le]
      by_cases hleft : m ≤ split len
      · rw [if_pos hleft, if_pos hleft, ih _ hlt hm hleft (by omega) b rfl,
          h.subtree (by omega) (by omega)]
        rfl
      · rw [if_neg hleft, if_neg hleft, ih _ (by omega) (by omega) (by omega) (by omega) false rfl,
          h.subtree hsplit (by omega)]
        rfl

theorem Caches.head (h : Caches H tree d) {size : Nat} (hsize : size ≤ d.length) :
    tree.head H size = some (.ok (H.headOf (d.take size))) := by
  have hlen : (d.take size).length = size := length_take_of_le hsize
  rw [MerkleTree.head, h.len, if_neg (by omega), headOf, hlen]
  by_cases hzero : size = 0
  · subst hzero
    simp [rootOf]
  · rw [if_neg hzero, h.subtree (by omega) (by omega), drop_zero]
    rfl

/-- A tree that leaves were pushed into one by one answers as the functions over its
leaves do, for every prefix: it has the prefix's head, and the proofs or refusals are the
same. Every answer is there, so no lookup is outside a level. -/
theorem fromLeafHashes_refines (H : Hashing Hash) (d : List Hash) :
    ∃ tree, fromLeafHashes H d = some tree ∧ tree.len = d.length ∧
      ∀ size ≤ d.length,
        tree.head H size = some (.ok (H.headOf (d.take size))) ∧
        (∀ index, tree.inclusionProof H index size =
          some (H.inclusionProof (d.take size) index)) ∧
        ∀ old, tree.consistencyProof H old size =
          some (H.consistencyProof (d.take size) old) := by
  obtain ⟨tree, htree, h⟩ := exists_fromLeafHashes H d
  refine ⟨tree, htree, h.len, ?_⟩
  intro size hsize
  have hlen : (d.take size).length = size := length_take_of_le hsize
  refine ⟨h.head hsize, ?_, ?_⟩
  · intro index
    rw [inclusionProof, h.len, if_neg (by omega), Hashing.inclusionProof, hlen]
    by_cases hindex : index ≥ size
    · rw [if_pos hindex, if_pos hindex]
    · rw [if_neg hindex, if_neg hindex, h.path (by omega) (by omega), drop_zero]
      rfl
  · intro old
    rw [consistencyProof, h.len, Hashing.consistencyProof, hlen]
    by_cases hbad : old = 0 ∨ old > size
    · rw [if_pos (.inr hbad), if_pos hbad]
    · rw [if_neg (by omega), if_neg hbad, h.subproof (by omega) (by omega) (by omega), drop_zero]
      rfl

/-- A tree that leaves were pushed into one by one proves what is so of it: each leaf is in every
head that reaches it, and each head is extended by every later one. The verifiers accept. -/
theorem proofs_accepted [DecidableEq Hash] (H : Hashing Hash) (d : List Hash) :
    ∃ tree, fromLeafHashes H d = some tree ∧ ∀ size ≤ d.length, ∃ head,
      tree.head H size = some (.ok head) ∧
      (∀ index < size, ∃ leaf proof, d[index]? = some leaf ∧
        tree.inclusionProof H index size = some (.ok proof) ∧
        H.verifyInclusion head index leaf proof = .ok ()) ∧
      ∀ old, 1 ≤ old → old ≤ size → ∃ before proof, tree.head H old = some (.ok before) ∧
        tree.consistencyProof H old size = some (.ok proof) ∧
        H.verifyConsistency before head proof = .ok () := by
  obtain ⟨tree, htree, h⟩ := exists_fromLeafHashes H d
  refine ⟨tree, htree, fun size hsize => ⟨_, h.head hsize, ?_, ?_⟩⟩
  · intro index hindex
    have hlt := hindex.trans_le hsize
    refine ⟨d[index], H.path index (d.take size), getElem?_eq_getElem hlt, ?_, ?_⟩
    · rw [inclusionProof, h.len, if_neg (by omega), if_neg (by omega), h.path hindex (by omega)]
      rfl
    · exact verifyInclusion_path (by simp [hindex, hlt])
  · intro old hpos hold
    have hlen : (d.take old).length = old := length_take_of_le (hold.trans hsize)
    refine ⟨_, H.subproof old (d.take size) true, h.head (hold.trans hsize), ?_, ?_⟩
    · rw [consistencyProof, h.len, if_neg (by omega), h.subproof hpos hold (by omega)]
      rfl
    · have haccepted := verifyConsistency_of_prefix (H := H)
        (take_prefix_take_left hold : d.take old <+: _) (ne_nil_of_length_pos (hlen.symm ▸ hpos))
      rwa [hlen] at haccepted

end Reads

end MerkleTree

end Calybris.Merkle
