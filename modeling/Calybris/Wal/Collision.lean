import Calybris.Wal.Json
import Calybris.Wal.Verified

/-!
# One head, one log

The text that is hashed is a previous hash followed by a payload, and splits in one way
only: a previous hash is either `genesis` or sixty-four hexadecimal digits. So where
SHA-256 does not collide on what two logs hash, their heads agree only if their payloads
do, and an anchor fixes the payloads of the log it was taken from.
-/

namespace Calybris.Wal

open Text Note List

section

variable (D : Digests) (J : SerdeJson)

def hashedTexts (bytes : Bytes) : List Bytes :=
  (Chain.linked (link D none) genesis (payloadsOf J bytes)).map fun p => p.1 ++ p.2

def CollisionFree (a b : Bytes) : Prop :=
  Set.InjOn D.sha256 {text | text ∈ hashedTexts D J a ∨ text ∈ hashedTexts D J b}

variable {D J} {a b h h' d d' : Bytes}

theorem genesis_append_ne (hh : h.length = 64 ∧ ∀ b ∈ h, isHexByte b = true) :
    genesis ++ d ≠ h ++ d' := by
  intro heq
  cases h with
  | nil => simp at hh
  | cons x h =>
    have hx : x = 103 := by
      have := (List.cons.inj heq).1
      exact this.symm
    have := hh.2 x mem_cons_self
    rw [hx] at this
    revert this
    decide

theorem append_inj_of_isPreviousHash (hh : IsPreviousHash h) (hh' : IsPreviousHash h')
    (heq : h ++ d = h' ++ d') : h = h' ∧ d = d' := by
  rcases hh with rfl | hh <;> rcases hh' with rfl | hh'
  · exact ⟨rfl, append_cancel_left heq⟩
  · exact absurd heq (genesis_append_ne hh')
  · exact absurd heq.symm (genesis_append_ne hh)
  · exact append_inj heq (by rw [hh.1, hh'.1])

theorem payloads_eq_of_head {ds ds' : List Bytes} {s : Set Bytes} (hcf : Set.InjOn D.sha256 s)
    (hds : ∀ p ∈ Chain.linked (link D none) genesis ds, p.1 ++ p.2 ∈ s)
    (hds' : ∀ p ∈ Chain.linked (link D none) genesis ds', p.1 ++ p.2 ∈ s)
    (hhead : Chain.head (link D none) genesis ds = Chain.head (link D none) genesis ds') :
    ds = ds' := by
  refine Chain.eq_of_head_eq (s := {p | IsPreviousHash p.1 ∧ p.1 ++ p.2 ∈ s}) ?_ ?_ ?_ ?_ hhead
  · rintro ⟨h, d⟩ ⟨hh, hmem⟩ ⟨h', d'⟩ ⟨hh', hmem'⟩ heq
    have hdigest : D.sha256 (h ++ d) = D.sha256 (h' ++ d') := Subtype.ext (bytesToHex_injective heq)
    obtain ⟨rfl, rfl⟩ := append_inj_of_isPreviousHash hh hh' (hcf hmem hmem' hdigest)
    rfl
  · exact fun p _ => link_ne_genesis
  · exact fun p hp => ⟨isPreviousHash_of_mem_linked (.inl rfl) hp, hds p hp⟩
  · exact fun p hp => ⟨isPreviousHash_of_mem_linked (.inl rfl) hp, hds' p hp⟩

/-! ### Anchors -/

theorem head_of_verifyWalAgainstAnchor {anchor : WalAnchor} {found : UInt64 × Bytes}
    (hok : verifyWalAgainstAnchor D J b anchor = .ok found) :
    verifyWal D J b = .ok (anchor.sequence, anchor.lastHash) := by
  rw [verifyWalAgainstAnchor] at hok
  cases hverify : verifyWal D J b with
  | error error =>
    rw [hverify] at hok
    cases hok
  | ok head =>
    rw [hverify] at hok
    rw [verifyHead_eq_ok hok]

theorem anchoredHash_eq {key : Option Bytes} {entries : List WalEntry} {anchor : WalAnchor}
    (hkey : validateKey key = .ok ()) (hfollows : Follows D key .init entries) :
    anchoredHash anchor entries =
      if anchor.sequence.toNat ≤ entries.length then
        some (Chain.head (link D key) genesis
          ((entries.map WalEntry.data).take anchor.sequence.toNat))
      else none := by
  induction entries using List.reverseRecOn with
  | nil =>
    have hzero : anchor.sequence = 0 ↔ anchor.sequence.toNat ≤ 0 := by
      rw [← UInt64.toNat_inj]
      exact Nat.le_zero.symm
    simp only [anchoredHash, foldl_nil, length_nil, hzero]
    split <;> simp [Chain.head]
  | append_singleton entries entry ih =>
    obtain ⟨hinit, ⟨hseq, -⟩, -⟩ := follows_append.1 hfollows
    have hlast : entry.sequence.toNat = entries.length + 1 := by
      rw [hseq, expectedSequence_foldl_init hinit]
    have hhash : entry.entryHash =
        Chain.head (link D key) genesis ((entries ++ [entry]).map WalEntry.data) := by
      have hfold := lastHash_foldl hkey hfollows
      rw [foldl_append] at hfold
      exact hfold
    have hstep : anchoredHash anchor (entries ++ [entry]) =
        if entry.sequence = anchor.sequence then some entry.entryHash
        else anchoredHash anchor entries := by
      simp [anchoredHash]
    have hlen : (entries ++ [entry]).length = entries.length + 1 := by simp
    rw [hstep, ih hinit, hlen]
    by_cases heq : entry.sequence = anchor.sequence
    · have hall : ((entries ++ [entry]).map WalEntry.data).take anchor.sequence.toNat =
          (entries ++ [entry]).map WalEntry.data := by
        apply take_of_length_le
        rw [length_map, hlen, ← heq, hlast]
      rw [if_pos heq, if_pos (by rw [← heq, hlast]), hall, hhash]
    · have hne : anchor.sequence.toNat ≠ entries.length + 1 := by
        intro h
        exact heq (UInt64.toNat_inj.1 (hlast.trans h.symm))
      rw [if_neg heq]
      by_cases hle : anchor.sequence.toNat ≤ entries.length
      · rw [if_pos hle, if_pos (by omega), map_append, take_append_of_le_length]
        rwa [length_map]
      · rw [if_neg hle, if_neg (by omega)]

theorem verifyWalContainsAnchorInner_eq_ok {key : Option Bytes} {anchor : WalAnchor}
    {head : UInt64 × Bytes} (hok : verifyWalContainsAnchorInner D J key b anchor = .ok head) :
    validateChainInner D J key b = .ok head ∧
      anchor.sequence.toNat ≤ (entriesOf J b).length ∧
      Chain.head (link D key) genesis ((payloadsOf J b).take anchor.sequence.toNat) =
        anchor.lastHash := by
  simp only [verifyWalContainsAnchorInner] at hok
  split at hok
  · cases hok
  · split at hok
    · cases hok
    · next head' entries hvisit =>
      obtain ⟨hvalid, rfl⟩ := visitVerifiedWalInner_eq_ok_iff.1 hvisit
      obtain ⟨hkey, hfollows, -⟩ := head_of_validateChainInner hvalid
      rw [anchoredHash_eq hkey hfollows] at hok
      split at hok
      · cases hok
      · next found hfound =>
        split at hok
        · cases hok
        · next hmatch =>
          cases hok
          split at hfound
          · next hle =>
            refine ⟨hvalid, hle, ?_⟩
            rw [← not_not.1 hmatch]
            exact Option.some.inj hfound
          · cases hfound

/-- The head of a log determines its payloads, and so does an anchor taken from it, for
a log that ends there and for a log that goes on. -/
theorem verifyWal_head_determines {n : UInt64} (ha : verifyWal D J a = .ok (n, h))
    (hcf : CollisionFree D J a b) :
    (∀ m, verifyWal D J b = .ok (m, h) → payloadsOf J b = payloadsOf J a) ∧
      ∀ anchor : WalAnchor, anchor.sequence = n → anchor.lastHash = h →
        (∀ found, verifyWalAgainstAnchor D J b anchor = .ok found →
          payloadsOf J b = payloadsOf J a) ∧
        ∀ head, verifyWalContainsAnchor D J b anchor = .ok head →
          (payloadsOf J b).take anchor.sequence.toNat = payloadsOf J a := by
  obtain ⟨-, -, -, hhead⟩ := head_of_validateChainInner ha
  have hmem : ∀ p ∈ Chain.linked (link D none) genesis (payloadsOf J a), p.1 ++ p.2 ∈
      {text | text ∈ hashedTexts D J a ∨ text ∈ hashedTexts D J b} :=
    fun p hp => .inl (mem_map.2 ⟨p, hp, rfl⟩)
  have hmem' : ∀ p ∈ Chain.linked (link D none) genesis (payloadsOf J b), p.1 ++ p.2 ∈
      {text | text ∈ hashedTexts D J a ∨ text ∈ hashedTexts D J b} :=
    fun p hp => .inr (mem_map.2 ⟨p, hp, rfl⟩)
  have hsame : ∀ m, verifyWal D J b = .ok (m, h) → payloadsOf J b = payloadsOf J a := by
    intro m hb
    obtain ⟨-, -, -, hhead'⟩ := head_of_validateChainInner hb
    exact payloads_eq_of_head hcf hmem' hmem (hhead'.symm.trans hhead)
  refine ⟨hsame, fun anchor hseq hlast => ⟨fun found hb => ?_, fun head hb => ?_⟩⟩
  · have hverify := head_of_verifyWalAgainstAnchor hb
    rw [hlast] at hverify
    exact hsame _ hverify
  · refine payloads_eq_of_head hcf (fun p hp => hmem' p ?_) hmem ?_
    · rw [Chain.linked_take] at hp
      exact mem_of_mem_take hp
    · rw [(verifyWalContainsAnchorInner_eq_ok hb).2.2, hlast, hhead]

theorem collisionFree_of_forall
    (h : ∀ x ∈ hashedTexts D J a ++ hashedTexts D J b, ∀ y ∈ hashedTexts D J a ++ hashedTexts D J b,
      D.sha256 x = D.sha256 y → x = y) : CollisionFree D J a b :=
  fun x hx y hy => h x (mem_append.2 hx) y (mem_append.2 hy)

/-- The log of one with a blank line before it, and the log of one and two, against the
log of one. -/
theorem verifyWal_head_determines_oneLog :
    payloadsOf numberJson (newline :: oneLog.bytes) = payloadsOf numberJson oneLog.bytes ∧
      (payloadsOf numberJson twoLog.bytes).take 1 = payloadsOf numberJson oneLog.bytes := by
  have hone : verifyWal numberDigests numberJson oneLog.bytes = .ok (1, oneWriter.lastHash) := by
    simp only [verifyWal, validateChainInner, validateChainReader, forEachLine_eq_foldlM]
    decide +kernel
  have hblank : verifyWal numberDigests numberJson (newline :: oneLog.bytes) =
      .ok (1, oneWriter.lastHash) := by
    simp only [verifyWal, validateChainInner, validateChainReader, forEachLine_eq_foldlM]
    decide +kernel
  have htwo : verifyWalContainsAnchor numberDigests numberJson twoLog.bytes oneWriter.anchor =
      .ok (2, twoWriter.lastHash) := by
    simp only [verifyWalContainsAnchor, verifyWalContainsAnchorInner, visitVerifiedWalInner,
      forEachLine_eq_foldlM]
    decide +kernel
  exact ⟨(verifyWal_head_determines hone (collisionFree_of_forall (by decide +kernel))).1 1 hblank,
    ((verifyWal_head_determines hone (collisionFree_of_forall (by decide +kernel))).2
      oneWriter.anchor rfl rfl).2 _ htwo⟩

end

end Calybris.Wal
