import Calybris.Audit.Policy
import Calybris.Quorum.Intersection
import Calybris.Transition.Threads
import Calybris.Witness.Service

/-!
# No split view behind a quorum

Any number of witnesses, each with its own store and its own requests in flight.
Some of them may sign anything. A verifier accepts a note when enough witnesses of
its policy cosigned it. When two quorums must share an honest witness, two
accepted notes of one log are heads of one history: the shared witness signed
both, and both are prefix heads of what it has stored.
-/

namespace Calybris.Witnesses

open Text Merkle Note Audit Transition WitnessPolicy

variable {Handler : Type*} [DecidableEq Handler] {n : Nat}

abbrev Network (Handler : Type*) (n : Nat) := Fin n → Service Handler

namespace Network

def initial : Network Handler n := fun _ => .initial

def step (P : Primitives) (witness : Fin n → Witness) (net : Network Handler n)
    (e : Fin n × Event Handler) : Option (Network Handler n) :=
  ((net e.1).step P (fun _ => witness e.1) e.2).map (Function.update net e.1)

theorem exists_run {P : Primitives} {witness : Fin n → Witness}
    {es : List (Fin n × Event Handler)} {net : Network Handler n}
    (h : run (step P witness) initial es = some net) (i : Fin n) :
    ∃ es', run (Service.step P fun _ => witness i) Service.initial es' = some (net i) := by
  refine run_invariant (I := fun net : Network Handler n =>
    ∃ es', run (Service.step P fun _ => witness i) Service.initial es' = some (net i))
    ?_ ⟨[], rfl⟩ h
  rintro net ⟨j, e⟩ net' ⟨es', hes'⟩ hstep
  obtain ⟨s, hs, rfl⟩ := Option.map_eq_some_iff.1 hstep
  by_cases hij : i = j
  · subst hij
    refine ⟨es' ++ [e], ?_⟩
    rw [run_append hes', Function.update_self]
    exact run_cons_eq_some_iff.2 ⟨s, hs, rfl⟩
  · exact ⟨es', by rw [Function.update_of_ne hij]; exact hes'⟩

end Network

/-- No signature on the note is one by the witness's key that the witness did not
make: what verifies is a message the witness cosigned. -/
def Unforged (P : Primitives) (witness : Witness) (s : Service Handler) (note : SignedNote) :
    Prop :=
  ∀ sig ∈ note.signatures, ∀ bytes, toBytes64 (sig.signature.drop 8) = some bytes →
    ∀ message, P.verifyStrict witness.signer.verifier.key message bytes = true →
      ∃ r ∈ s.cosigned, ∃ text, cosignatureMessage r.time r.text = .ok text ∧ utf8 text = message

section Honest

variable {P : Primitives} {witness : Witness} {s : Service Handler} {note : SignedNote}

omit [DecidableEq Handler] in
theorem exists_cosigned (hunforged : Unforged P witness s note) {time : Nat}
    (h : note.cosignatureTime P witness.signer.verifier = .ok time) :
    ∃ r ∈ s.cosigned, r.text = note.text := by
  obtain ⟨-, sig, bytes, message, hsig, -, hbytes, -, hmessage, hverify⟩ :=
    SignedNote.cosignatureTime_eq_ok_iff.1 h
  obtain ⟨r, hr, text, htext, hutf8⟩ :=
    hunforged sig (SignedNote.mem_of_signatureFrom hsig) bytes hbytes _ hverify
  obtain rfl := utf8_injective hutf8
  exact ⟨r, hr, (cosignatureMessage_inj htext hmessage).2⟩

/-- The head of a text an honest witness has cosigned is a prefix head of what the
witness has stored. -/
theorem isPrefixHead_of_cosigned {leaves : TreeHead Bytes32 → List Bytes32}
    {es : List (Event Handler)}
    (hrun : run (Service.step P fun _ => witness) Service.initial es = some s)
    (hist : History P.hashing leaves s.seen s.checks) (hunforged : Unforged P witness s note)
    {time : Nat} (h : note.cosignatureTime P witness.signer.verifier = .ok time)
    {checkpoint : Checkpoint} (hcheckpoint : note.checkpoint P = .ok checkpoint) :
    ∃ c, s.store checkpoint.origin = some c ∧
      IsPrefixHead P.hashing leaves checkpoint.head c := by
  obtain ⟨r, hr, htext⟩ := exists_cosigned hunforged h
  have hparse := (Service.reads_run hrun).cosigned r hr
  rw [htext] at hparse
  obtain rfl : r.checkpoint = checkpoint := Except.ok.inj (hparse.symm.trans hcheckpoint)
  exact (Service.sound_run hrun hist).cosigned r hr

end Honest

theorem exists_eq_ok_of_isSome {ε α : Type*} {x : Except ε α} (h : x.toOption.isSome = true) :
    ∃ a, x = .ok a := by
  cases x with
  | error error => cases h
  | ok a => exact ⟨a, rfl⟩

theorem card_of_quorum {P : Primitives} {key : Fin n → NoteVerifier} {k : Nat}
    {policy : WitnessPolicy} (hpolicy : new (List.ofFn key) k = .ok policy)
    {note : SignedNote} (h : policy.threshold ≤ (policy.cosignatures P note).length) :
    k ≤ (Finset.univ.filter fun i => (note.cosignatureTime P (key i)).toOption.isSome).card := by
  obtain ⟨hwitnesses, hthreshold⟩ := new_eq_ok hpolicy
  rw [hthreshold, cosignatures, hwitnesses, Quorum.length_filterMap_ofFn] at h
  simpa using h

/-- Two notes of one log that a policy accepts are heads of one history, whatever the
witnesses outside the honest ones sign, when two quorums must share an honest
witness. -/
theorem verifyCheckpoint_consistent {P : Primitives} {f k : Nat} {witness : Fin n → Witness}
    {dishonest : Finset (Fin n)} (hdishonest : dishonest.card ≤ f) (hk : n + f < 2 * k)
    {policy : WitnessPolicy}
    (hpolicy : new (List.ofFn fun i => (witness i).signer.verifier) k = .ok policy)
    {es : List (Fin n × Event Handler)} {net : Network Handler n}
    (hrun : run (Network.step P witness) Network.initial es = some net)
    {leaves : TreeHead Bytes32 → List Bytes32}
    (hist : ∀ i ∉ dishonest, History P.hashing leaves (net i).seen (net i).checks)
    {log : NoteVerifier} {textA textB : List Char} {a b : Witnessed}
    (ha : verifyCheckpoint P textA log policy = .ok a)
    (hb : verifyCheckpoint P textB log policy = .ok b)
    (horigin : a.checkpoint.origin = b.checkpoint.origin)
    (hunforged : ∀ i ∉ dishonest,
      Unforged P (witness i) (net i) a.note ∧ Unforged P (witness i) (net i) b.note) :
    (a.checkpoint.size ≤ b.checkpoint.size →
        Extends P.hashing a.checkpoint.head b.checkpoint.head) ∧
      (b.checkpoint.size ≤ a.checkpoint.size →
        Extends P.hashing b.checkpoint.head a.checkpoint.head) ∧
      (a.checkpoint.size = b.checkpoint.size → a.checkpoint.root = b.checkpoint.root) := by
  obtain ⟨-, -, hcheckpointA, hquorumA⟩ := verifyCheckpoint_eq_ok ha
  obtain ⟨-, -, hcheckpointB, hquorumB⟩ := verifyCheckpoint_eq_ok hb
  obtain ⟨i, hiA, hiB, hi⟩ := Quorum.exists_mem_inter_notMem (card_of_quorum hpolicy hquorumA)
    (card_of_quorum hpolicy hquorumB) hdishonest (by rwa [Fintype.card_fin])
  obtain ⟨timeA, htimeA⟩ := exists_eq_ok_of_isSome (Finset.mem_filter.1 hiA).2
  obtain ⟨timeB, htimeB⟩ := exists_eq_ok_of_isSome (Finset.mem_filter.1 hiB).2
  -- The shared honest witness has both heads among the prefixes of what it stores.
  obtain ⟨es', hes'⟩ := Network.exists_run hrun i
  obtain ⟨c, hc, hheadA⟩ := isPrefixHead_of_cosigned hes' (hist i hi) (hunforged i hi).1
    htimeA hcheckpointA
  obtain ⟨c', hc', hheadB⟩ := isPrefixHead_of_cosigned hes' (hist i hi) (hunforged i hi).2
    htimeB hcheckpointB
  rw [horigin, hc'] at hc
  cases hc
  exact ⟨hheadA.toExtends hheadB, hheadB.toExtends hheadA, hheadA.root_eq hheadB⟩

section Sample

omit [DecidableEq Handler] in
/-- A witness has signed what its key has signed in the table, and a note has no signature from
outside the table. -/
theorem unforged_of_signedTexts {witness : Witness} {s : Service Handler} {note : SignedNote}
    (htable : ∀ sig ∈ note.signatures, ∀ bytes ∈ toBytes64 (sig.signature.drop 8),
      bytes.1.take 32 ≠ witness.signer.verifier.key.1)
    (hmade : ∀ x ∈ signedTexts, keyOf x.1 = witness.signer.verifier.key →
      ∃ r ∈ s.cosigned, cosignatureMessage r.time r.text = .ok x.2.1) :
    Unforged standard witness s note := by
  intro sig hsig bytes hbytes message hverify
  simp only [standard, Bool.or_eq_true, List.any_eq_true, decide_eq_true_eq] at hverify
  obtain ⟨x, hx, hkey, rfl, -⟩ | rfl := hverify
  · obtain ⟨r, hr, htext⟩ := hmade x hx hkey
    exact ⟨r, hr, x.2.1, htext, rfl⟩
  · refine absurd ?_ (htable sig hsig _ hbytes)
    exact List.take_left' witness.signer.verifier.key.2

/-- The first witness is honest and serves two requests at a time; the second may sign
anything. -/
def twoWitnesses (i : Fin 2) : Witness := if i.val = 0 then onesWitness else twosWitness

def twoNote1 : SignedNote :=
  { note1 with signatures := note1.signatures ++ [cosignatureLine twosVerifier 9 twosSignature1] }

def twoNote2 : SignedNote :=
  { note2 with signatures := note2.signatures ++ [cosignatureLine twosVerifier 9 twosSignature2] }

attribute [local instance] neZero_two in
def twoTrace : List (Fin 2 × Event Bool) :=
  [(0, .submit true request1 5), (0, .submit false request1 5), (0, .swap true), (0, .swap false),
    (0, .sign true), (0, .submit false request2 6), (0, .swap false), (0, .sign false)]

attribute [local instance] neZero_two in
theorem exists_run_twoTrace :
    ∃ net ∈ run (Network.step standard twoWitnesses) Network.initial twoTrace,
      (net 0).seen ⊆ [checkpoint1.head, checkpoint2.head] ∧
      (net 0).checks ⊆ [⟨checkpoint1.head, checkpoint2.head, [leafB]⟩] ∧
      ∀ x ∈ signedTexts, keyOf x.1 = onesKey →
        ∃ r ∈ (net 0).cosigned, cosignatureMessage r.time r.text = .ok x.2.1 := by
  decide +kernel

attribute [local instance] neZero_two in
/-- A quorum of two out of two, of which one may lie: the honest one has cosigned both notes,
and the log has grown from the first to the second. -/
theorem verifyCheckpoint_consistent_two :
    ∃ policy a b,
      new (List.ofFn fun i => (twoWitnesses i).signer.verifier) 2 = .ok policy ∧
      verifyCheckpoint standard (twoNote1.render standard) logVerifier policy = .ok a ∧
      verifyCheckpoint standard (twoNote2.render standard) logVerifier policy = .ok b ∧
      a.checkpoint = checkpoint1 ∧ b.checkpoint = checkpoint2 ∧
      Extends standard.hashing checkpoint1.head checkpoint2.head := by
  obtain ⟨policy, hpolicy⟩ : ∃ policy,
      new (List.ofFn fun i => (twoWitnesses i).signer.verifier) 2 = .ok policy :=
    ⟨⟨[onesVerifier, twosVerifier], 2, by decide, by decide, by decide, by decide⟩, rfl⟩
  obtain ⟨hwitnesses, hthreshold⟩ := new_eq_ok hpolicy
  obtain ⟨a, ha, hnoteA, hcheckpointA⟩ : ∃ w,
      verifyCheckpoint standard (twoNote1.render standard) logVerifier policy = .ok w ∧
        w.note = twoNote1 ∧ w.checkpoint = checkpoint1 :=
    exists_verifyCheckpoint (by decide +kernel) (by decide +kernel) (by decide +kernel) (by
      rw [hthreshold, cosignatures, hwitnesses]
      decide +kernel)
  obtain ⟨b, hb, hnoteB, hcheckpointB⟩ : ∃ w,
      verifyCheckpoint standard (twoNote2.render standard) logVerifier policy = .ok w ∧
        w.note = twoNote2 ∧ w.checkpoint = checkpoint2 :=
    exists_verifyCheckpoint (by decide +kernel) (by decide +kernel) (by decide +kernel) (by
      rw [hthreshold, cosignatures, hwitnesses]
      decide +kernel)
  obtain ⟨net, hrun, hseen, hchecks, hmade⟩ := exists_run_twoTrace
  have hhonest : ∀ i ∉ ({1} : Finset (Fin 2)), i = 0 := by decide
  have hist : ∀ i ∉ ({1} : Finset (Fin 2)),
      History standard.hashing twoLeaves (net i).seen (net i).checks := by
    intro i hi
    rw [hhonest i hi]
    exact history_two.mono hseen hchecks
  refine ⟨policy, a, b, hpolicy, ha, hb, hcheckpointA, hcheckpointB, ?_⟩
  rw [← hcheckpointA, ← hcheckpointB]
  have hcard : ({1} : Finset (Fin 2)).card ≤ 1 := le_rfl
  refine (verifyCheckpoint_consistent hcard (by decide) hpolicy hrun hist ha hb ?_ ?_).1 ?_
  · rw [hcheckpointA, hcheckpointB]
    rfl
  · intro i hi
    rw [hhonest i hi, hnoteA, hnoteB]
    exact ⟨unforged_of_signedTexts (by decide +kernel) hmade,
      unforged_of_signedTexts (by decide +kernel) hmade⟩
  · rw [hcheckpointA, hcheckpointB]
    decide

end Sample

end Calybris.Witnesses
