import Calybris.Audit.Policy

/-!
# What still counts of a revoked key

A signature by a key that was revoked counts if it was made before. The signer's own word for
that is worth nothing, so it is decided on evidence from others: a clock that dates the
signature, or a Bitcoin block that anchors it, of which the height counts and not the time
its miner gave it. Evidence that covers only the content says nothing about the signature.

`accepts` goes through the earliest clock time and the lowest height. Whether it accepts
depends only on what the evidence that covers the signature says, `TimeEvidence.dating`.
-/

namespace Calybris.Audit

open List

inductive TimeSource where
  | witnesses
  | rfc3161
  | bitcoin (height : Nat)
  deriving DecidableEq

def TimeSource.isClock : TimeSource → Bool
  | .bitcoin _ => false
  | _ => true

inductive Covers where
  | content
  | signature
  deriving DecidableEq

/-- When a signed record existed, by whose word, and over what. The time of a Bitcoin block
is its miner's. -/
structure TimeEvidence where
  source : TimeSource
  time : Nat
  covers : Covers
  deriving DecidableEq

namespace TimeEvidence

def witnesses (time : Nat) : TimeEvidence := ⟨.witnesses, time, .signature⟩

def rfc3161 (time : Nat) (covers : Covers) : TimeEvidence := ⟨.rfc3161, time, covers⟩

def bitcoin (height blockTime : Nat) (covers : Covers) : TimeEvidence :=
  ⟨.bitcoin height, blockTime, covers⟩

end TimeEvidence

def signedBy (evidence : List TimeEvidence) : Option Nat :=
  ((evidence.filter fun e => e.source.isClock && e.covers == .signature).map
    TimeEvidence.time).min?

def TimeSource.height : TimeSource → Option Nat
  | .bitcoin height => some height
  | _ => none

def anchoredBy (evidence : List TimeEvidence) : Option Nat :=
  ((evidence.filter fun e => e.covers == .signature).filterMap fun e => e.source.height).min?

/-- Whether a key is still trusted, and if not, since when; with the height the chain had
reached then, if it was recorded. -/
inductive KeyStatus where
  | active
  | revoked (revokedAt : Nat) (bitcoinHeight : Option Nat)
  deriving DecidableEq

namespace KeyStatus

def anchorCounts : Option Nat → Option Nat → Bool
  | some height, some limit => height ≤ limit
  | _, _ => false

def refusal (revokedAt : Nat) : Option Nat → Option Nat → Option Nat → AuditError
  | some time, _, _ => .signedAfterRevocation time revokedAt
  | none, some height, some limit => .anchoredAfterRevocation height limit
  | none, some _, none => .bitcoinNeedsHeight
  | none, none, _ => .timeUnproven

def accepts (status : KeyStatus) (evidence : List TimeEvidence) : Except AuditError Unit :=
  match status with
  | .active => .ok ()
  | .revoked revokedAt bitcoinHeight =>
    if !evidence.any fun e => e.covers == .signature then
      .error (if evidence = [] then .timeUnproven else .signatureUndated)
    else
      let clock := signedBy evidence
      let anchor := anchoredBy evidence
      if clock.any fun time => time < revokedAt then .ok ()
      else if anchorCounts anchor bitcoinHeight then .ok ()
      else .error (refusal revokedAt clock anchor bitcoinHeight)

end KeyStatus

/-- What the evidence says of the signature: a clock time or a height. -/
inductive Dating where
  | clock (time : Nat)
  | anchor (height : Nat)
  deriving DecidableEq

def TimeEvidence.dating (e : TimeEvidence) : Option Dating :=
  match e.covers, e.source with
  | .content, _ => none
  | .signature, .bitcoin height => some (.anchor height)
  | .signature, _ => some (.clock e.time)

def Dating.Before (revokedAt : Nat) (bitcoinHeight : Option Nat) : Dating → Prop
  | .clock time => time < revokedAt
  | .anchor height => ∃ limit, bitcoinHeight = some limit ∧ height ≤ limit

section Accepts

variable {evidence evidence' : List TimeEvidence} {e : TimeEvidence} {revokedAt : Nat}
  {bitcoinHeight : Option Nat}

theorem exists_min?_iff {l : List Nat} {p : Nat → Prop} (hp : ∀ {a b}, a ≤ b → p b → p a) :
    (∃ a, l.min? = some a ∧ p a) ↔ ∃ a ∈ l, p a := by
  constructor
  · rintro ⟨a, hmin, ha⟩
    exact ⟨a, (min?_eq_some_iff.1 hmin).1, ha⟩
  · rintro ⟨a, hmem, ha⟩
    obtain ⟨m, hm⟩ := Option.isSome_iff_exists.1 (isSome_min?_of_mem hmem)
    exact ⟨m, hm, hp ((min?_eq_some_iff.1 hm).2 a hmem) ha⟩

theorem dating_eq_clock_iff {time : Nat} : e.dating = some (.clock time) ↔
    e.source.isClock = true ∧ e.covers = .signature ∧ e.time = time := by
  obtain ⟨source, t, covers⟩ := e
  cases covers <;> cases source <;> simp [TimeEvidence.dating, TimeSource.isClock]

theorem dating_eq_anchor_iff {height : Nat} : e.dating = some (.anchor height) ↔
    e.covers = .signature ∧ e.source = .bitcoin height := by
  obtain ⟨source, t, covers⟩ := e
  cases covers <;> cases source <;> simp [TimeEvidence.dating]

theorem any_signedBy_iff : ((signedBy evidence).any fun time => time < revokedAt) = true ↔
    ∃ e ∈ evidence, ∃ time, e.dating = some (.clock time) ∧ time < revokedAt := by
  rw [Option.any_eq_true]
  simp only [decide_eq_true_eq]
  rw [signedBy, exists_min?_iff fun hle hlt => hle.trans_lt hlt]
  simp only [mem_map, mem_filter, Bool.and_eq_true, beq_iff_eq, dating_eq_clock_iff]
  constructor
  · rintro ⟨time, ⟨e, ⟨hmem, hclock, hcovers⟩, htime⟩, hlt⟩
    exact ⟨e, hmem, time, ⟨hclock, hcovers, htime⟩, hlt⟩
  · rintro ⟨e, hmem, time, ⟨hclock, hcovers, htime⟩, hlt⟩
    exact ⟨time, ⟨e, ⟨hmem, hclock, hcovers⟩, htime⟩, hlt⟩

theorem height_eq_some_iff {source : TimeSource} {height : Nat} :
    source.height = some height ↔ source = .bitcoin height := by
  cases source <;> simp [TimeSource.height]

theorem anchorCounts_some (anchor : Option Nat) (limit : Nat) :
    KeyStatus.anchorCounts anchor (some limit) = anchor.any fun height => height ≤ limit := by
  cases anchor <;> rfl

theorem anchorCounts_iff : KeyStatus.anchorCounts (anchoredBy evidence) bitcoinHeight = true ↔
    ∃ e ∈ evidence, ∃ height, e.dating = some (.anchor height) ∧
      ∃ limit, bitcoinHeight = some limit ∧ height ≤ limit := by
  cases bitcoinHeight with
  | none => cases anchoredBy evidence <;> simp [KeyStatus.anchorCounts]
  | some limit =>
    rw [anchorCounts_some, Option.any_eq_true]
    simp only [decide_eq_true_eq, Option.some.injEq, exists_eq_left']
    rw [anchoredBy, exists_min?_iff fun hle hle' => hle.trans hle']
    simp only [mem_filterMap, mem_filter, beq_iff_eq, height_eq_some_iff, dating_eq_anchor_iff]
    constructor
    · rintro ⟨height, ⟨e, ⟨hmem, hcovers⟩, hsource⟩, hle⟩
      exact ⟨e, hmem, height, ⟨hcovers, hsource⟩, hle⟩
    · rintro ⟨e, hmem, height, ⟨hcovers, hsource⟩, hle⟩
      exact ⟨height, ⟨e, ⟨hmem, hcovers⟩, hsource⟩, hle⟩

theorem covers_of_dating {dating : Dating} (h : e.dating = some dating) :
    e.covers = .signature := by
  cases dating with
  | clock time => exact (dating_eq_clock_iff.1 h).2.1
  | anchor height => exact (dating_eq_anchor_iff.1 h).1

/-- What a revoked key's signature needs: one dating from before. -/
theorem accepts_revoked_iff :
    (KeyStatus.revoked revokedAt bitcoinHeight).accepts evidence = .ok () ↔
      ∃ e ∈ evidence, ∃ dating, e.dating = some dating ∧
        dating.Before revokedAt bitcoinHeight := by
  rw [KeyStatus.accepts]
  dsimp only
  constructor
  · intro h
    split_ifs at h with hcovers hclock hanchor
    · obtain ⟨e, hmem, time, hdating, hlt⟩ := any_signedBy_iff.1 hclock
      exact ⟨e, hmem, .clock time, hdating, hlt⟩
    · obtain ⟨e, hmem, height, hdating, hle⟩ := anchorCounts_iff.1 hanchor
      exact ⟨e, hmem, .anchor height, hdating, hle⟩
  · rintro ⟨e, hmem, dating, hdating, hbefore⟩
    have hcovers : (evidence.any fun e => e.covers == .signature) = true :=
      any_eq_true.2 ⟨e, hmem, beq_iff_eq.2 (covers_of_dating hdating)⟩
    rw [hcovers, if_neg (by decide)]
    cases dating with
    | clock time => exact if_pos (any_signedBy_iff.2 ⟨e, hmem, time, hdating, hbefore⟩)
    | anchor height =>
      have hanchor := anchorCounts_iff.2 ⟨e, hmem, height, hdating, hbefore⟩
      rw [hanchor, if_pos rfl, ite_self]

theorem accepts_mono (status : KeyStatus)
    (h : ∀ dating, (∃ e ∈ evidence, e.dating = some dating) →
      ∃ e ∈ evidence', e.dating = some dating)
    (hok : status.accepts evidence = .ok ()) : status.accepts evidence' = .ok () := by
  cases status with
  | active => rfl
  | revoked revokedAt bitcoinHeight =>
    obtain ⟨e, hmem, dating, hdating, hbefore⟩ := accepts_revoked_iff.1 hok
    obtain ⟨e', hmem', hdating'⟩ := h dating ⟨e, hmem, hdating⟩
    exact accepts_revoked_iff.2 ⟨e', hmem', dating, hdating', hbefore⟩

end Accepts

def TimeEvidence.withBlockTime (e : TimeEvidence) (blockTime : Nat) : TimeEvidence :=
  if e.source.isClock then e else { e with time := blockTime }

theorem dating_withBlockTime (e : TimeEvidence) (blockTime : Nat) :
    (e.withBlockTime blockTime).dating = e.dating := by
  obtain ⟨source, time, covers⟩ := e
  cases covers <;> cases source <;> rfl

/-- What is accepted. An active key's signature always is. A revoked key's is exactly when
evidence that covers the signature is a clock time before the revocation or a Bitcoin anchor
at or below the recorded height. More evidence never loses it. Two lists of evidence that
date the signature alike are accepted alike; so content-only evidence does not matter, nor
the time of any Bitcoin block, nor the order. -/
theorem accepts_spec (status : KeyStatus) (evidence : List TimeEvidence) :
    (status = .active → status.accepts evidence = .ok ()) ∧
      (∀ revokedAt bitcoinHeight, status = .revoked revokedAt bitcoinHeight →
        (status.accepts evidence = .ok () ↔ ∃ e ∈ evidence, e.covers = .signature ∧
          ((e.source.isClock = true ∧ e.time < revokedAt) ∨
            ∃ height limit, e.source = .bitcoin height ∧ bitcoinHeight = some limit ∧
              height ≤ limit))) ∧
      (∀ evidence', evidence ⊆ evidence' → status.accepts evidence = .ok () →
        status.accepts evidence' = .ok ()) ∧
      (∀ evidence', (∀ dating, (∃ e ∈ evidence, e.dating = some dating) ↔
          ∃ e ∈ evidence', e.dating = some dating) →
        (status.accepts evidence = .ok () ↔ status.accepts evidence' = .ok ())) ∧
      (status.accepts evidence = .ok () ↔
        status.accepts (evidence.filter fun e => e.covers == .signature) = .ok ()) ∧
      (∀ blockTime : TimeEvidence → Nat, status.accepts evidence = .ok () ↔
        status.accepts (evidence.map fun e => e.withBlockTime (blockTime e)) = .ok ()) ∧
      ∀ evidence', evidence.Perm evidence' →
        (status.accepts evidence = .ok () ↔ status.accepts evidence' = .ok ()) := by
  have hsame : ∀ evidence', (∀ dating, (∃ e ∈ evidence, e.dating = some dating) ↔
      ∃ e ∈ evidence', e.dating = some dating) →
      (status.accepts evidence = .ok () ↔ status.accepts evidence' = .ok ()) := fun _ h =>
    ⟨accepts_mono status fun dating => (h dating).1, accepts_mono status fun dating => (h dating).2⟩
  refine ⟨?_, ?_, ?_, hsame, hsame _ fun dating => ?_, fun blockTime => hsame _ fun dating => ?_,
    fun evidence' hperm => hsame _ fun dating => ?_⟩
  · rintro rfl
    rfl
  · rintro revokedAt bitcoinHeight rfl
    rw [accepts_revoked_iff]
    constructor
    · rintro ⟨e, hmem, dating, hdating, hbefore⟩
      refine ⟨e, hmem, covers_of_dating hdating, ?_⟩
      cases dating with
      | clock time =>
        obtain ⟨hclock, -, rfl⟩ := dating_eq_clock_iff.1 hdating
        exact .inl ⟨hclock, hbefore⟩
      | anchor height =>
        obtain ⟨limit, hlimit, hle⟩ := hbefore
        exact .inr ⟨height, limit, (dating_eq_anchor_iff.1 hdating).2, hlimit, hle⟩
    · rintro ⟨e, hmem, hcovers, ⟨hclock, hlt⟩ | ⟨height, limit, hsource, hlimit, hle⟩⟩
      · exact ⟨e, hmem, .clock e.time, dating_eq_clock_iff.2 ⟨hclock, hcovers, rfl⟩, hlt⟩
      · exact ⟨e, hmem, .anchor height, dating_eq_anchor_iff.2 ⟨hcovers, hsource⟩, limit, hlimit,
          hle⟩
  · intro evidence' hsub
    refine accepts_mono status ?_
    rintro dating ⟨e, hmem, hdating⟩
    exact ⟨e, hsub hmem, hdating⟩
  · constructor
    · rintro ⟨e, hmem, hdating⟩
      exact ⟨e, mem_filter.2 ⟨hmem, beq_iff_eq.2 (covers_of_dating hdating)⟩, hdating⟩
    · rintro ⟨e, hmem, hdating⟩
      exact ⟨e, (mem_filter.1 hmem).1, hdating⟩
  · constructor
    · rintro ⟨e, hmem, hdating⟩
      exact ⟨_, mem_map_of_mem hmem, (dating_withBlockTime e _).trans hdating⟩
    · rintro ⟨e, hmem, hdating⟩
      obtain ⟨e', hmem', rfl⟩ := mem_map.1 hmem
      exact ⟨e', hmem', (dating_withBlockTime e' _).symm.trans hdating⟩
  · exact exists_congr fun e => and_congr_left' hperm.mem_iff

/-- A key revoked at 100, when the chain had reached block 50. -/
theorem accepts_spec_revoked :
    KeyStatus.accepts (.revoked 100 (some 50)) [.rfc3161 20 .content, .bitcoin 60 10 .signature,
        .witnesses 99] = .ok () ∧
      KeyStatus.accepts (.revoked 100 (some 50)) [.bitcoin 60 10 .signature, .witnesses 99] =
        .ok () ∧
      KeyStatus.accepts (.revoked 100 (some 50)) [.rfc3161 20 .content,
        .bitcoin 60 10 .signature] = .error (.anchoredAfterRevocation 60 50) := by
  have hwitnesses : KeyStatus.accepts (.revoked 100 (some 50)) [.rfc3161 20 .content,
      .bitcoin 60 10 .signature, .witnesses 99] = .ok () :=
    ((accepts_spec (.revoked 100 (some 50)) _).2.1 100 (some 50) rfl).2
      ⟨.witnesses 99, by decide, rfl, .inl ⟨rfl, by decide⟩⟩
  have hcontent := (accepts_spec (.revoked 100 (some 50)) [.rfc3161 20 .content,
    .bitcoin 60 10 .signature, .witnesses 99]).2.2.2.2.1.1 hwitnesses
  exact ⟨hwitnesses, hcontent, by decide⟩

end Calybris.Audit
