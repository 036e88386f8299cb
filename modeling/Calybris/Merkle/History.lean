import Calybris.Merkle.Consistency

/-!
# Heads of one history

A head commits to a leaf list. `Extends old new` says that `old` is the head of a
prefix of a leaf list whose head is `new`. What an accepted consistency proof
shows is a statement about one leaf list; to chain such statements, two lists
with one head must be one list, which holds where no hashed pairs collide.

`History` collects the assumptions: `leaves` names a leaf list for each head, the
heads seen commit to it, and the pairs hashed by the trees of its prefixes, and
by the checks made, do not collide.
-/

namespace Calybris.Merkle

open List

variable {Hash : Type*}

namespace Hashing

variable {H : Hashing Hash} {d d' : List Hash}

theorem eq_of_rootOf_eq {pairs : Set (Hash × Hash)} (hfree : H.CollisionFree pairs)
    (hlen : d.length = d'.length) (hroot : H.rootOf d = H.rootOf d')
    (hd : ∀ p ∈ H.rootPairs d, p ∈ pairs) (hd' : ∀ p ∈ H.rootPairs d', p ∈ pairs) : d = d' := by
  induction d using split_induction generalizing d' with
  | nil => exact (length_eq_zero_iff.1 hlen.symm).symm
  | single h =>
    obtain ⟨h', rfl⟩ := length_eq_one_iff.1 hlen.symm
    rw [rootOf_singleton, rootOf_singleton] at hroot
    rw [hroot]
  | node d htwo ihleft ihright =>
    have htwo' : 2 ≤ d'.length := hlen ▸ htwo
    obtain ⟨htaken, hdropped, -⟩ := hfree.node htwo hd
    obtain ⟨htaken', hdropped', hroots⟩ := hfree.node htwo' hd'
    rw [rootPairs_of_two_le htwo] at hd
    rw [rootOf_of_two_le htwo] at hroot
    obtain ⟨hleft, hright⟩ := hroots _ _ (hd _ mem_cons_self) hroot
    have htake := ihleft (by rw [length_take_split htwo, length_take_split htwo', hlen]) hleft
      htaken htaken'
    have hdrop := ihright (by rw [length_drop_split, length_drop_split, hlen]) hright
      hdropped hdropped'
    rw [← take_append_drop (split d.length) d, htake, hdrop, take_append_drop]

end Hashing

def Extends (H : Hashing Hash) (old new : TreeHead Hash) : Prop :=
  ∃ d, H.headOf d = new ∧ old.size ≤ d.length ∧ H.headOf (d.take old.size) = old

structure Check (Hash : Type*) where
  old : TreeHead Hash
  new : TreeHead Hash
  proof : List Hash
  deriving DecidableEq

def committed (leaves : TreeHead Hash → List Hash) (h : TreeHead Hash) : List Hash :=
  if h.size = 0 then [] else leaves h

/-- The pairs hashed by the trees of the prefixes of the committed lists and by the
checks. -/
def hashedPairs (H : Hashing Hash) (leaves : TreeHead Hash → List Hash)
    (seen : List (TreeHead Hash)) (checks : List (Check Hash)) : Set (Hash × Hash) :=
  {p | (∃ h ∈ seen, ∃ k, p ∈ H.rootPairs ((committed leaves h).take k)) ∨
    ∃ c ∈ checks, p ∈ H.consistencyPairs c.old c.new c.proof}

/-- Every head seen of size at least one commits to its leaf list, and no pairs
collide. -/
structure History (H : Hashing Hash) (leaves : TreeHead Hash → List Hash)
    (seen : List (TreeHead Hash)) (checks : List (Check Hash)) : Prop where
  commits : ∀ h ∈ seen, 1 ≤ h.size → H.headOf (leaves h) = h
  free : H.CollisionFree (hashedPairs H leaves seen checks)

def IsPrefixHead (H : Hashing Hash) (leaves : TreeHead Hash → List Hash)
    (old new : TreeHead Hash) : Prop :=
  H.headOf ((committed leaves new).take old.size) = old

def Commits (H : Hashing Hash) (leaves : TreeHead Hash → List Hash) (h : TreeHead Hash) : Prop :=
  H.headOf (committed leaves h) = h

section History

variable {H : Hashing Hash} {leaves : TreeHead Hash → List Hash}
  {seen seen' : List (TreeHead Hash)} {checks checks' : List (Check Hash)}
  {a b c : TreeHead Hash}

theorem History.mono (h : History H leaves seen' checks') (hseen : ∀ x ∈ seen, x ∈ seen')
    (hchecks : ∀ x ∈ checks, x ∈ checks') : History H leaves seen checks where
  commits x hx := h.commits x (hseen x hx)
  free := by
    refine h.free.mono ?_
    rintro p (⟨x, hx, k, hp⟩ | ⟨x, hx, hp⟩)
    · exact .inl ⟨x, hseen x hx, k, hp⟩
    · exact .inr ⟨x, hchecks x hx, hp⟩

theorem length_committed (h : Commits H leaves a) : (committed leaves a).length = a.size :=
  congrArg TreeHead.size h

theorem IsPrefixHead.size_le (h : IsPrefixHead H leaves a b) (hb : Commits H leaves b) :
    a.size ≤ b.size := by
  have hsize : ((committed leaves b).take a.size).length = a.size := congrArg TreeHead.size h
  rw [length_take, length_committed hb] at hsize
  omega

theorem IsPrefixHead.root_of_size_zero (h : IsPrefixHead H leaves a b) (hzero : a.size = 0) :
    a.root = H.emptyRoot := by
  rw [IsPrefixHead, hzero, take_zero] at h
  rw [← h, Hashing.headOf, Hashing.rootOf]

theorem IsPrefixHead.refl (h : Commits H leaves a) : IsPrefixHead H leaves a a := by
  rw [IsPrefixHead, ← length_committed h, take_length]
  exact h

theorem commits_of_seen (h : History H leaves seen checks) (ha : a ∈ seen) (hpos : 1 ≤ a.size) :
    Commits H leaves a := by
  rw [Commits, committed, if_neg (by omega)]
  exact h.commits a ha hpos

theorem commits_of_size_zero (hsize : a.size = 0) (hroot : a.root = H.emptyRoot) :
    Commits H leaves a := by
  obtain ⟨size, root⟩ := a
  simp only at hsize hroot
  subst hsize hroot
  rw [Commits, committed, if_pos rfl, Hashing.headOf, Hashing.rootOf]
  rfl

theorem isPrefixHead_of_size_zero (ha : Commits H leaves a) (hsize : a.size = 0) :
    IsPrefixHead H leaves a b := by
  rw [Commits, committed, if_pos hsize] at ha
  rw [IsPrefixHead, hsize, take_zero]
  exact ha

theorem isPrefixHead_of_verifyConsistency [DecidableEq Hash]
    (h : History H leaves seen checks) {proof : List Hash} (hb : b ∈ seen)
    (hcheck : ⟨a, b, proof⟩ ∈ checks) (hpos : 1 ≤ a.size)
    (hok : H.verifyConsistency a b proof = .ok ()) : IsPrefixHead H leaves a b := by
  have hle : a.size ≤ b.size := by
    by_contra hlt
    rw [Hashing.verifyConsistency, if_pos (.inr (by omega))] at hok
    cases hok
  have hcommits : Commits H leaves b := commits_of_seen h hb (by omega)
  have hpairs : ∀ p ∈ H.rootPairs (committed leaves b), p ∈ hashedPairs H leaves seen checks := by
    intro p hp
    refine .inl ⟨b, hb, (committed leaves b).length, ?_⟩
    rwa [take_length]
  have hsize := length_committed hcommits
  have hwalk : ∀ p ∈ H.consistencyPairs a b proof, p ∈ hashedPairs H leaves seen checks :=
    fun p hp => .inr ⟨_, hcheck, hp⟩
  rw [← hcommits] at hok hwalk
  obtain ⟨hroot, -⟩ := Hashing.verifyConsistency_sound hpos (by omega) hok h.free hpairs hwalk
  rw [IsPrefixHead, Hashing.headOf, ← hroot, length_take, hsize, Nat.min_eq_left hle]

theorem IsPrefixHead.trans (h : History H leaves seen checks) (hb : b ∈ seen) (hc : c ∈ seen)
    (hcommits : Commits H leaves b) (hab : IsPrefixHead H leaves a b)
    (hbc : IsPrefixHead H leaves b c) : IsPrefixHead H leaves a c := by
  have hle := hab.size_le hcommits
  have hhead : H.headOf (committed leaves b) = H.headOf ((committed leaves c).take b.size) :=
    hcommits.trans hbc.symm
  have heq : committed leaves b = (committed leaves c).take b.size := by
    refine Hashing.eq_of_rootOf_eq h.free (congrArg TreeHead.size hhead)
      (congrArg TreeHead.root hhead) ?_ ?_
    · intro p hp
      refine .inl ⟨b, hb, (committed leaves b).length, ?_⟩
      rwa [take_length]
    · exact fun p hp => .inl ⟨c, hc, b.size, hp⟩
  rw [IsPrefixHead, heq, take_take, Nat.min_eq_left hle] at hab
  exact hab

theorem IsPrefixHead.toExtends (ha : IsPrefixHead H leaves a c) (hb : IsPrefixHead H leaves b c)
    (hle : a.size ≤ b.size) : Extends H a b := by
  have hsize : ((committed leaves c).take b.size).length = b.size := congrArg TreeHead.size hb
  refine ⟨(committed leaves c).take b.size, hb, by omega, ?_⟩
  rw [take_take, Nat.min_eq_left hle]
  exact ha

theorem IsPrefixHead.root_eq (ha : IsPrefixHead H leaves a c) (hb : IsPrefixHead H leaves b c)
    (heq : a.size = b.size) : a.root = b.root := by
  rw [IsPrefixHead, heq] at ha
  exact congrArg TreeHead.root (ha.symm.trans hb)

end History

end Calybris.Merkle
