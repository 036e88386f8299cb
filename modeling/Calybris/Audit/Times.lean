import Calybris.Audit.Policy
import Calybris.Note.Canonical
import Calybris.Sorted.ByKey

/-!
# What lying witnesses can do to the times of a checkpoint

The cosignature times of a checkpoint are sorted, and two of them are read: the one at which
a quorum had seen the checkpoint, counted from the earliest, and the one since which a quorum
has seen it, counted from the latest. A witness can state any time. With fewer liars than the
quorum, there is an honest witness among those up to the first index and one among those from
the second, so a liar cannot make the checkpoint look older than all honest witnesses saw it,
nor fresher.
-/

namespace Calybris.Audit

open Text Merkle Note Sorted

variable {P : Primitives} {text : List Char} {log : NoteVerifier} {policy : WitnessPolicy}
  {latest : Option Nat} {w : Witnessed} {c : Cosigned} {i : Nat}

theorem WitnessPolicy.nodup_witnesses (policy : WitnessPolicy) : policy.witnesses.Nodup :=
  policy.distinct.imp fun hdistinct heq => hdistinct (.inl (congrArg NoteVerifier.key heq))

namespace Accepted

theorem ascending (h : Accepted P text log policy latest w) :
    Ascending Cosigned.time w.cosigned := by
  have htrans : ∀ a b c : Cosigned, decide (a.time ≤ b.time) = true →
      decide (b.time ≤ c.time) = true → decide (a.time ≤ c.time) = true := by
    intro a b c hab hbc
    exact decide_eq_true ((of_decide_eq_true hab).trans (of_decide_eq_true hbc))
  have htotal : ∀ a b : Cosigned,
      (decide (a.time ≤ b.time) || decide (b.time ≤ a.time)) = true := by
    intro a b
    rw [Bool.or_eq_true, decide_eq_true_eq, decide_eq_true_eq]
    exact le_total a.time b.time
  rw [h.cosigned]
  exact (List.pairwise_mergeSort htrans htotal _).imp of_decide_eq_true

theorem countP_le (h : Accepted P text log policy latest w) (p : Cosigned → Bool) :
    w.cosigned.countP p ≤ (policy.cosignatures P w.note).countP p := by
  rw [h.cosigned, (List.mergeSort_perm _ _).countP_eq]
  exact List.filter_sublist.countP_le

theorem exists_honest (h : Accepted P text log policy latest w) (p : Nat → Bool)
    (liars : Finset NoteVerifier) (hliars : liars.card < w.cosigned.countP fun c => p c.time) :
    ∃ honest ∈ policy.witnesses, honest ∉ liars ∧
      ∃ time, w.note.cosignatureTime P honest = .ok time ∧ p time = true := by
  obtain ⟨honest, hmem, hhonest, c, hc, hp⟩ :=
    exists_notMem_of_card_lt policy.nodup_witnesses _ _ liars (hliars.trans_le (h.countP_le _))
  obtain ⟨time, htime, rfl⟩ := Option.map_eq_some_iff.1 hc
  refine ⟨honest, hmem, hhonest, time, ?_, hp⟩
  cases hcosigned : w.note.cosignatureTime P honest with
  | error error =>
    rw [hcosigned] at htime
    cases htime
  | ok stated =>
    rw [hcosigned] at htime
    rw [Option.some.inj htime]

end Accepted

/-- With fewer liars than the quorum, an accepted checkpoint was seen no earlier than by an
honest witness that cosigned it, and is no fresher than an honest witness says. The two times
can always be read, and where almost all of two quorums cosigned they are in order. -/
theorem seenBy_freshAsOf (P : Primitives) (text : List Char) (log : NoteVerifier)
    (policy : WitnessPolicy) (w : Witnessed)
    (h : verifyCheckpoint P text log policy = .ok w ∨
      ∃ now maxSkew, verifyCheckpointAt P text log policy now maxSkew = .ok w)
    (liars : Finset NoteVerifier) (hliars : liars.card < policy.threshold) :
    ∃ seen fresh, w.seenBy = some seen ∧ w.freshAsOf = some fresh ∧
      (∃ honest ∈ policy.witnesses, honest ∉ liars ∧
        ∃ time, w.note.cosignatureTime P honest = .ok time ∧ time ≤ seen) ∧
      (∃ honest ∈ policy.witnesses, honest ∉ liars ∧
        ∃ time, w.note.cosignatureTime P honest = .ok time ∧ fresh ≤ time) ∧
      (2 * policy.threshold - 1 ≤ w.cosigned.length → seen ≤ fresh) := by
  obtain ⟨latest, haccepted⟩ : ∃ latest, Accepted P text log policy latest w := by
    obtain h | ⟨now, maxSkew, h⟩ := h
    · exact ⟨_, accepted_of_verifyQuorum h⟩
    · exact ⟨_, accepted_of_verifyQuorum h⟩
  have hpos := policy.threshold_pos
  have hquorum := haccepted.quorum
  have hsorted := haccepted.ascending
  obtain ⟨first, hfirst⟩ : ∃ c, w.cosigned[w.threshold - 1]? = some c := by
    rw [haccepted.threshold]
    exact ⟨_, List.getElem?_eq_getElem (by omega)⟩
  obtain ⟨last, hlast⟩ : ∃ c, w.cosigned[w.cosigned.length - w.threshold]? = some c := by
    rw [haccepted.threshold]
    exact ⟨_, List.getElem?_eq_getElem (by omega)⟩
  have hseen := succ_le_countP hsorted hfirst
  have hfresh := sub_le_countP hsorted hlast
  rw [haccepted.threshold] at hseen hfresh hfirst hlast
  refine ⟨first.time, last.time, ?_, ?_, ?_, ?_, ?_⟩
  · rw [Witnessed.seenBy, haccepted.threshold, hfirst]
    rfl
  · rw [Witnessed.freshAsOf, haccepted.threshold, hlast]
    rfl
  · obtain ⟨honest, hmem, hhonest, time, htime, hle⟩ :=
      haccepted.exists_honest (fun time => time ≤ first.time) liars (by omega)
    exact ⟨honest, hmem, hhonest, time, htime, of_decide_eq_true hle⟩
  · obtain ⟨honest, hmem, hhonest, time, htime, hle⟩ :=
      haccepted.exists_honest (fun time => last.time ≤ time) liars (by omega)
    exact ⟨honest, hmem, hhonest, time, htime, of_decide_eq_true hle⟩
  · -- The index from the left is at most the one from the right.
    intro hmany
    refine le_of_mem_take hsorted hlast (List.mem_of_getElem? (i := policy.threshold - 1) ?_)
    rw [List.getElem?_take_of_lt (by omega), hfirst]

/-! ### Three witnesses, one of them lying -/

def threePolicy : WitnessPolicy where
  witnesses := [onesVerifier, twosVerifier, threesVerifier]
  threshold := 2
  threshold_pos := by decide
  threshold_le := by decide
  cosigners := by decide
  distinct := by decide

/-- The first two say 5 and 9; the third says 1. -/
def threeNote : SignedNote where
  text := headText 1 leafA
  signatures :=
    [logLine logSignature1, cosignatureLine onesVerifier 5 onesSignature1,
      cosignatureLine twosVerifier 9 twosSignature1,
      cosignatureLine threesVerifier 1 threesSignature1]

theorem verifyCheckpoint_three : ∃ w, verifyCheckpoint standard
    (threeNote.render standard) logVerifier threePolicy = .ok w ∧ w.note = threeNote ∧
      w.checkpoint = checkpoint1 :=
  exists_verifyCheckpoint (by decide +kernel) (by decide +kernel) (by decide +kernel)
    (by decide +kernel)

theorem seenBy_freshAsOf_three :
    ∃ w seen fresh, verifyCheckpoint standard (threeNote.render standard)
        logVerifier threePolicy = .ok w ∧
      w.seenBy = some seen ∧ w.freshAsOf = some fresh ∧
      (∃ honest ∈ threePolicy.witnesses, honest ∉ ({threesVerifier} : Finset NoteVerifier) ∧
        ∃ time, w.note.cosignatureTime standard honest = .ok time ∧ time ≤ seen) ∧
      ∃ honest ∈ threePolicy.witnesses, honest ∉ ({threesVerifier} : Finset NoteVerifier) ∧
        ∃ time, w.note.cosignatureTime standard honest = .ok time ∧ fresh ≤ time := by
  obtain ⟨w, hw, -⟩ := verifyCheckpoint_three
  obtain ⟨seen, fresh, hseen, hfresh, hearly, hlate, -⟩ := seenBy_freshAsOf standard _ _
    threePolicy w (.inl hw) {threesVerifier} (by decide)
  exact ⟨w, seen, fresh, hw, hseen, hfresh, hearly, hlate⟩

end Calybris.Audit
