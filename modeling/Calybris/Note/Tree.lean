import Calybris.Merkle.History
import Calybris.Merkle.Stack
import Calybris.Note.Canonical
import Mathlib.Data.List.Nodup

/-!
# The root of a log commits to it

`TreeHead::of` hashes the leaf data and takes the root. A leaf is hashed behind a zero
byte, a node behind a one, and the empty tree is the hash of nothing; so where no two of
these texts have one hash, a root tells which of the three was hashed, and going down two
trees together from one root never parts them. The sizes and the shapes of the trees come
out of the descent.

The script of the independent verifier takes the root from a stack, and its hashes are
bytes of any length. It gives the same roots.
-/

namespace Calybris.Note

namespace Primitives

open Text Merkle Hashing List

variable (P : Primitives)

def leafText (data : Bytes) : Bytes := 0x00 :: data

def nodeText (children : Bytes32 × Bytes32) : Bytes := 0x01 :: (children.1.1 ++ children.2.1)

/-- The head of the tree over `leaves` (leaf data, not leaf hashes). -/
def treeHeadOf (leaves : List Bytes) : TreeHead Bytes32 :=
  let hashed := leaves.map P.leafHash
  { size := hashed.length, root := P.hashing.rootOf hashed }

def rootTexts (leaves : List Bytes) : List Bytes :=
  if leaves = [] then [[]]
  else leaves.map leafText ++ (P.hashing.rootPairs (leaves.map P.leafHash)).map nodeText

def CollisionFree (texts : Set Bytes) : Prop := Set.InjOn P.sha256 texts

variable {P} {leaves leaves' : List Bytes} {texts : Set Bytes}

theorem CollisionFree.mono {small : Set Bytes} (hfree : P.CollisionFree texts)
    (h : small ⊆ texts) : P.CollisionFree small := Set.InjOn.mono h hfree

theorem nodeText_injective : Function.Injective nodeText := by
  rintro ⟨a, b⟩ ⟨c, d⟩ h
  obtain ⟨hleft, hright⟩ := append_inj (List.cons.inj h).2 (a.2.trans c.2.symm)
  exact Prod.ext (Subtype.ext hleft) (Subtype.ext hright)

theorem CollisionFree.hashing {pairs : Set (Bytes32 × Bytes32)} (hfree : P.CollisionFree texts)
    (h : ∀ p ∈ pairs, nodeText p ∈ texts) : P.hashing.CollisionFree pairs := by
  intro p hp q hq heq
  exact nodeText_injective (hfree (h p hp) (h q hq) heq)

section Root

theorem rootOf_nil : P.hashing.rootOf [] = P.sha256 [] := by
  rw [rootOf]
  rfl

theorem leafText_mem_rootTexts {data : Bytes} (h : data ∈ leaves) :
    leafText data ∈ P.rootTexts leaves := by
  rw [rootTexts, if_neg (ne_nil_of_mem h)]
  exact mem_append_left _ (mem_map_of_mem h)

theorem nodeText_mem_rootTexts {p : Bytes32 × Bytes32}
    (h : p ∈ P.hashing.rootPairs (leaves.map P.leafHash)) : nodeText p ∈ P.rootTexts leaves := by
  have hne : leaves ≠ [] := by
    rintro rfl
    rw [map_nil, rootPairs] at h
    cases h
  rw [rootTexts, if_neg hne]
  exact mem_append_right _ (mem_map_of_mem h)

def parts (P : Primitives) (leaves : List Bytes) : Bytes32 × Bytes32 :=
  (P.hashing.rootOf ((leaves.take (split leaves.length)).map P.leafHash),
    P.hashing.rootOf ((leaves.drop (split leaves.length)).map P.leafHash))

theorem rootOf_parts (h : 2 ≤ leaves.length) :
    P.hashing.rootOf (leaves.map P.leafHash) = P.sha256 (nodeText (parts P leaves)) := by
  have hlen : 2 ≤ (leaves.map P.leafHash).length := by rwa [length_map]
  rw [rootOf_of_two_le hlen, length_map, ← map_take, ← map_drop]
  rfl

/-- What is hashed for the two parts is hashed for the tree, and so is the node. -/
theorem rootTexts_of_two_le (h : 2 ≤ leaves.length) :
    nodeText (parts P leaves) ∈ P.rootTexts leaves ∧
      P.rootTexts (leaves.take (split leaves.length)) ⊆ P.rootTexts leaves ∧
      P.rootTexts (leaves.drop (split leaves.length)) ⊆ P.rootTexts leaves := by
  have hlen : 2 ≤ (leaves.map P.leafHash).length := by rwa [length_map]
  have hpairs := rootPairs_of_two_le (H := P.hashing) hlen
  rw [length_map, ← map_take, ← map_drop] at hpairs
  have hlow := split_pos leaves.length
  have hhigh := split_lt h
  have hpart : ∀ part : List Bytes, part ≠ [] → part ⊆ leaves →
      P.hashing.rootPairs (part.map P.leafHash) ⊆ P.hashing.rootPairs (leaves.map P.leafHash) →
      P.rootTexts part ⊆ P.rootTexts leaves := by
    intro part hne hleaves hnodes text htext
    rw [rootTexts, if_neg hne] at htext
    rcases mem_append.1 htext with hleaf | hnode
    · obtain ⟨data, hdata, rfl⟩ := mem_map.1 hleaf
      exact leafText_mem_rootTexts (hleaves hdata)
    · obtain ⟨p, hp, rfl⟩ := mem_map.1 hnode
      exact nodeText_mem_rootTexts (hnodes hp)
  refine ⟨nodeText_mem_rootTexts ?_, hpart _ ?_ (take_subset _ _) ?_,
    hpart _ ?_ (drop_subset _ _) ?_⟩
  · rw [hpairs]
    exact mem_cons_self
  · rw [ne_eq, take_eq_nil_iff, not_or]
    exact ⟨hlow.ne', ne_nil_of_length_pos (by omega)⟩
  · rw [hpairs]
    exact fun p hp => mem_cons_of_mem _ (mem_append_left _ hp)
  · rw [ne_eq, drop_eq_nil_iff]
    omega
  · rw [hpairs]
    exact fun p hp => mem_cons_of_mem _ (mem_append_right _ hp)

/-- The three kinds of tree, by what their root is the hash of. -/
inductive RootText (P : Primitives) (leaves : List Bytes) : Bytes → Prop
  | empty (h : leaves = []) : RootText P leaves []
  | leaf (data : Bytes) (h : leaves = [data]) : RootText P leaves (leafText data)
  | node (h : 2 ≤ leaves.length) : RootText P leaves (nodeText (parts P leaves))

theorem exists_rootText (P : Primitives) (leaves : List Bytes) :
    ∃ text ∈ P.rootTexts leaves, P.hashing.rootOf (leaves.map P.leafHash) = P.sha256 text ∧
      RootText P leaves text := by
  match leaves with
  | [] => exact ⟨[], mem_singleton.2 rfl, rootOf_nil, .empty rfl⟩
  | [data] =>
    refine ⟨leafText data, leafText_mem_rootTexts (mem_singleton.2 rfl), ?_, .leaf data rfl⟩
    rw [map_singleton, rootOf_singleton]
    rfl
  | a :: b :: rest =>
    have hlen : 2 ≤ (a :: b :: rest).length := by simp
    exact ⟨_, (rootTexts_of_two_le hlen).1, rootOf_parts hlen, .node hlen⟩

theorem eq_of_rootOf_leaves_eq (hfree : P.CollisionFree texts)
    (hroot : P.hashing.rootOf (leaves.map P.leafHash) = P.hashing.rootOf (leaves'.map P.leafHash))
    (hd : ∀ t ∈ P.rootTexts leaves, t ∈ texts) (hd' : ∀ t ∈ P.rootTexts leaves', t ∈ texts) :
    leaves = leaves' := by
  induction leaves using split_induction generalizing leaves' with
  | nil =>
    obtain ⟨text', hmem', hroot', hkind'⟩ := exists_rootText P leaves'
    rw [map_nil, rootOf_nil, hroot'] at hroot
    have htext := hfree (hd _ (mem_singleton.2 rfl)) (hd' _ hmem') hroot
    cases hkind' with
    | empty h => exact h.symm
    | leaf data h => cases htext
    | node h => cases htext
  | single data =>
    obtain ⟨text', hmem', hroot', hkind'⟩ := exists_rootText P leaves'
    rw [map_singleton, rootOf_singleton, hroot'] at hroot
    have htext : leafText data = text' :=
      hfree (hd _ (leafText_mem_rootTexts (mem_singleton.2 rfl))) (hd' _ hmem') hroot
    cases hkind' with
    | empty h => cases htext
    | leaf data' h => rw [h, (List.cons.inj htext).2]
    | node h => cases htext
  | node leaves hlen ihleft ihright =>
    obtain ⟨text', hmem', hroot', hkind'⟩ := exists_rootText P leaves'
    obtain ⟨hnode, hleft, hright⟩ := rootTexts_of_two_le (P := P) hlen
    rw [rootOf_parts hlen, hroot'] at hroot
    have htext := hfree (hd _ hnode) (hd' _ hmem') hroot
    cases hkind' with
    | empty h => cases htext
    | leaf data h => cases htext
    | node hlen' =>
      -- The two nodes have the same children, and each child is a smaller tree.
      obtain ⟨-, hleft', hright'⟩ := rootTexts_of_two_le (P := P) hlen'
      obtain ⟨hroots, hroots'⟩ := Prod.mk.inj (nodeText_injective htext)
      have htake := ihleft hroots (fun t ht => hd t (hleft ht)) (fun t ht => hd' t (hleft' ht))
      have hdrop := ihright hroots' (fun t ht => hd t (hright ht)) (fun t ht => hd' t (hright' ht))
      calc leaves
          = leaves.take (split leaves.length) ++ leaves.drop (split leaves.length) :=
            (take_append_drop _ _).symm
        _ = leaves'.take (split leaves'.length) ++ leaves'.drop (split leaves'.length) := by
            rw [htake, hdrop]
        _ = leaves' := take_append_drop _ _

end Root

/-- The root alone determines the log: two lists of leaf data, of any lengths, that have one
root are equal, where no two of the texts that are hashed for them have one hash. -/
theorem treeHeadOf_root_inj (P : Primitives) (leaves leaves' : List Bytes)
    (hfree : P.CollisionFree {t | t ∈ P.rootTexts leaves ∨ t ∈ P.rootTexts leaves'})
    (hroot : (P.treeHeadOf leaves).root = (P.treeHeadOf leaves').root) : leaves = leaves' :=
  eq_of_rootOf_leaves_eq hfree hroot (fun _ ht => .inl ht) (fun _ ht => .inr ht)

theorem rootTexts_pair (a b : Bytes) :
    P.rootTexts [a, b] = [leafText a, leafText b, nodeText (P.leafHash a, P.leafHash b)] := by
  rw [rootTexts, if_neg (by simp), map_cons, map_singleton, map_cons, map_singleton, rootPairs_pair]
  rfl

theorem rootTexts_singleton (a : Bytes) : P.rootTexts [a] = [leafText a] := by
  rw [rootTexts, if_neg (by simp), map_singleton, map_singleton, rootPairs]
  rfl

theorem leafHash_standard :
    standard.leafHash [97] = leafA ∧ standard.leafHash [98] = leafB := by
  decide +kernel

theorem rootOf_standard : standard.hashing.rootOf [leafA, leafB] = rootAB := by
  rw [rootOf_pair]
  decide +kernel

/-- What is hashed for a log of two leaves, in either order, and for a log whose one leaf
holds the two hashes. -/
def sampleTexts : List Bytes :=
  [leafText [97], leafText [98], nodeText (leafA, leafB), nodeText (leafB, leafA),
    leafText (leafA.1 ++ leafB.1)]

theorem collisionFree_sampleTexts : standard.CollisionFree {t | t ∈ sampleTexts} :=
  fun _ hs _ ht => List.inj_on_of_nodup_map (f := standard.sha256) (by decide +kernel) hs ht

theorem rootTexts_subset_sampleTexts :
    ∀ leaves ∈ [[[97], [98]], [[98], [97]], [leafA.1 ++ leafB.1]],
      standard.rootTexts leaves ⊆ sampleTexts := by
  obtain ⟨ha, hb⟩ := leafHash_standard
  simp only [mem_cons, not_mem_nil, or_false, forall_eq_or_imp, forall_eq, rootTexts_pair,
    rootTexts_singleton, ha, hb, sampleTexts]
  simp

/-- Of the three logs one has the root. -/
theorem treeHeadOf_root_inj_two :
    (standard.treeHeadOf [[97], [98]]).root = rootAB ∧
      ∀ leaves ∈ [[[97], [98]], [[98], [97]], [leafA.1 ++ leafB.1]],
        (standard.treeHeadOf leaves).root = rootAB → leaves = [[97], [98]] := by
  have hroot : (standard.treeHeadOf [[97], [98]]).root = rootAB := by
    rw [treeHeadOf, map_cons, map_singleton, leafHash_standard.1, leafHash_standard.2]
    exact rootOf_standard
  refine ⟨hroot, fun leaves hleaves h => ?_⟩
  refine treeHeadOf_root_inj standard leaves [[97], [98]]
    (collisionFree_sampleTexts.mono ?_) (h.trans hroot.symm)
  rintro t (ht | ht)
  · exact rootTexts_subset_sampleTexts leaves hleaves ht
  · exact rootTexts_subset_sampleTexts _ mem_cons_self ht

/-! ### The script -/

def scriptHashing (P : Primitives) : Hashing Bytes where
  nodeHash left right := (P.sha256 (0x01 :: (left ++ right))).1
  emptyRoot := (P.sha256 []).1

/-- For every list of leaf hashes the script's stack gives the root of the tree, so the two
programs find the same checkpoint roots right. -/
theorem merkleRoot_script (P : Primitives) (leaves : List Bytes32) :
    P.scriptHashing.merkleRoot (leaves.map Subtype.val) = (P.hashing.rootOf leaves).1 ∧
      ∀ root : Bytes32, P.scriptHashing.merkleRoot (leaves.map Subtype.val) = root.1 ↔
        P.hashing.rootOf leaves = root := by
  have hroot : P.scriptHashing.merkleRoot (leaves.map Subtype.val) =
      (P.hashing.rootOf leaves).1 := by
    rw [merkleRoot_eq_rootOf]
    exact rootOf_map Subtype.val (fun _ _ => rfl) rfl leaves
  refine ⟨hroot, fun root => ?_⟩
  rw [hroot]
  exact Subtype.ext_iff.symm

end Primitives

/-! ### The history of the two leaves -/

open Merkle List

def twoLeaves (head : TreeHead Bytes32) : List Bytes32 :=
  if head.size = 1 then [leafA] else [leafA, leafB]

/-- One pair is hashed, by the trees and by the proof. -/
theorem history_two : History standard.hashing twoLeaves
    [checkpoint1.head, checkpoint2.head] [⟨checkpoint1.head, checkpoint2.head, [leafB]⟩] where
  commits := by
    intro h hh _
    simp only [mem_cons, not_mem_nil, or_false] at hh
    obtain rfl | rfl := hh
    · simp [twoLeaves, Checkpoint.head, checkpoint1, Hashing.headOf]
    · simp [twoLeaves, Checkpoint.head, checkpoint2, Hashing.headOf, Primitives.rootOf_standard]
  free := by
    have hpair : ∀ p ∈ hashedPairs standard.hashing twoLeaves
        [checkpoint1.head, checkpoint2.head]
        [⟨checkpoint1.head, checkpoint2.head, [leafB]⟩], p = (leafA, leafB) := by
      rintro p (⟨h, hh, k, hp⟩ | ⟨c, hc, hp⟩)
      · have hheld : (committed twoLeaves h).take k ∈ [[], [leafA], [leafA, leafB]] := by
          simp only [mem_cons, not_mem_nil, or_false] at hh
          obtain rfl | rfl := hh <;> rcases k with _ | _ | k <;>
            simp [committed, twoLeaves, Checkpoint.head, checkpoint1, checkpoint2]
        simp only [mem_cons, not_mem_nil, or_false] at hheld
        obtain h | h | h := hheld
        · rw [h, Hashing.rootPairs] at hp
          cases hp
        · rw [h, Hashing.rootPairs] at hp
          cases hp
        · rw [h, Hashing.rootPairs_pair] at hp
          exact mem_singleton.1 hp
      · rw [mem_singleton.1 hc] at hp
        have hpairs : standard.hashing.consistencyPairs checkpoint1.head checkpoint2.head
            [leafB] = [(leafA, leafB)] := by decide +kernel
        rw [hpairs] at hp
        exact mem_singleton.1 hp
    intro p hp q hq _
    rw [hpair p hp, hpair q hq]

end Calybris.Note
