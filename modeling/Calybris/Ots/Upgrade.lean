import Calybris.Ots.Bitcoin

/-!
# Merged and upgraded proofs

Proofs that are read for one message are determined by what they show, so their merge
depends on neither order nor repetition, and lists what they list.

The response of a calendar is merged into the first node, in tree order, that has the
message it is for. What the response proves is listed where that node is behind evaluated
operations; a node behind an operation that is not evaluated is found as well, and nothing
lists what is merged there. Size and levels are limited for each response alone, so what is
written after some responses can be too large, or too deep, to be read again.
-/

namespace Calybris.Ots

open Text Parse Sorted Transition List Timestamp

def blockResponse (height : UInt64) : Bytes := tagAttestation :: (Attestation.bitcoin height).write

namespace Timestamp

section

variable {H : Hashes} {depth depth' : Nat} {t t' other : Timestamp} {msg : Bytes}

theorem Ordered.merge (h : Ordered depth t) (hother : Ordered depth' other) :
    Ordered (depth + depth') (t.merge other) := by
  cases depth with
  | zero => exact h.elim
  | succ depth =>
    have hmono : Ordered (depth + depth' + 1) t := h.mono (by omega)
    rw [Nat.add_right_comm]
    exact hmono.1.merge (hother.mono (by omega))

theorem Proper.merge (h : t.Proper H depth) (hother : other.Proper H depth')
    (hmsg : t.msg = other.msg) : (t.merge other).Proper H (depth + depth') where
  ordered := h.ordered.merge hother.ordered
  sound := h.sound.merge hother.sound hmsg
  attests := by
    obtain ⟨path, a, hshows⟩ := h.attests
    exact ⟨path, a, (shows_merge _ _ _ _).2 (.inl hshows)⟩

theorem mem_collect_merge (h : t.Sound H) (hother : other.Sound H) (hmsg : t.msg = other.msg)
    (x : Bytes × Attestation) :
    x ∈ (t.merge other).collect ↔ x ∈ t.collect ∨ x ∈ other.collect := by
  rw [(h.merge hother hmsg).mem_collect_iff, h.mem_collect_iff, hother.mem_collect_iff]
  simp only [shows_merge, msg_merge, hmsg, and_or_left, exists_or]

/-- Merging proofs that are read for one message depends on neither order nor repetition, and
lists what the proofs list. -/
theorem merge_semilattice (H : Hashes) {msg bytes bytes' bytes'' : Bytes} {t t' t'' : Timestamp}
    (h : deserialize H bytes msg = .ok t) (h' : deserialize H bytes' msg = .ok t')
    (h'' : deserialize H bytes'' msg = .ok t'') :
    t.merge t' = t'.merge t ∧ (t.merge t').merge t'' = t.merge (t'.merge t'') ∧
      t.merge t = t ∧
      ∀ x, x ∈ (t.merge t').collect ↔ x ∈ t.collect ∨ x ∈ t'.collect := by
  obtain ⟨hp, hmsg⟩ := Proper.of_deserialize h
  obtain ⟨hp', hmsg'⟩ := Proper.of_deserialize h'
  obtain ⟨hp'', hmsg''⟩ := Proper.of_deserialize h''
  have hboth := hp.merge hp' (by rw [hmsg, hmsg'])
  have hlast := hp'.merge hp'' (by rw [hmsg', hmsg''])
  refine ⟨?_, ?_, ?_, mem_collect_merge hp.sound hp'.sound (by rw [hmsg, hmsg'])⟩
  · refine hboth.ext (hp'.merge hp (by rw [hmsg, hmsg'])) ?_ fun path a => ?_
    · rw [msg_merge, msg_merge, hmsg, hmsg']
    · rw [shows_merge, shows_merge, or_comm]
  · refine (hboth.merge hp'' ?_).ext (hp.merge hlast ?_) ?_ fun path a => ?_
    · rw [msg_merge, hmsg, hmsg'']
    · rw [msg_merge, hmsg, hmsg']
    · simp only [msg_merge]
    · simp only [shows_merge, or_assoc]
  · refine (hp.merge hp rfl).ext hp msg_merge fun path a => ?_
    rw [shows_merge, or_self_iff]

theorem merge_semilattice_three : ∃ t t' t'',
    deserialize (ofTable []) (blockResponse 1) [] = .ok t ∧
    deserialize (ofTable []) ((Op.append [0]).write ++ blockResponse 2) [] = .ok t' ∧
    deserialize (ofTable []) ((Op.append [0]).write ++ blockResponse 3) [] = .ok t'' ∧
    t.merge t' = t'.merge t ∧ (t.merge t').merge t'' = t.merge (t'.merge t'') ∧
      t.merge t = t ∧ ∀ x, x ∈ (t.merge t').collect ↔ x ∈ t.collect ∨ x ∈ t'.collect := by
  have h : deserialize (ofTable []) (blockResponse 1) [] = .ok ⟨[], [.bitcoin 1], []⟩ := rfl
  have h' : deserialize (ofTable []) ((Op.append [0]).write ++ blockResponse 2) [] =
    .ok ⟨[], [], [(.append [0], ⟨[0], [.bitcoin 2], []⟩)]⟩ := rfl
  have h'' : deserialize (ofTable []) ((Op.append [0]).write ++ blockResponse 3) [] =
    .ok ⟨[], [], [(.append [0], ⟨[0], [.bitcoin 3], []⟩)]⟩ := rfl
  exact ⟨_, _, _, h, h', h'', merge_semilattice (ofTable []) h h' h''⟩

/-! ### Where a response is merged -/

theorem shows_modified {path : List Op} (ht' : Modified msg (·.merge other) path t t')
    (p : List Op) (a : Attestation) :
    t'.Shows p a ↔ t.Shows p a ∨ ∃ rest, p = path ++ rest ∧ other.Shows rest a := by
  induction ht' generalizing p with
  | here hfound => simp [shows_merge]
  | @branch _ _ before after op path child child' _ ih =>
    cases p with
    | nil => simp [Shows]
    | cons op' p =>
      simp only [Shows, mem_append, mem_cons, Prod.mk.injEq, cons_append, cons.injEq]
      constructor
      · rintro ⟨c, hbefore | ⟨rfl, rfl⟩ | hafter, hshows⟩
        · exact .inl ⟨c, .inl hbefore, hshows⟩
        · rcases (ih p).1 hshows with hold | ⟨rest, rfl, hnew⟩
          · exact .inl ⟨child, .inr (.inl ⟨rfl, rfl⟩), hold⟩
          · exact .inr ⟨rest, ⟨rfl, rfl⟩, hnew⟩
        · exact .inl ⟨c, .inr (.inr hafter), hshows⟩
      · rintro (⟨c, hbefore | ⟨rfl, rfl⟩ | hafter, hshows⟩ | ⟨rest, ⟨rfl, rfl⟩, hnew⟩)
        · exact ⟨c, .inl hbefore, hshows⟩
        · exact ⟨child', .inr (.inl ⟨rfl, rfl⟩), (ih p).2 (.inl hshows)⟩
        · exact ⟨c, .inr (.inr hafter), hshows⟩
        · exact ⟨child', .inr (.inl ⟨rfl, rfl⟩), (ih _).2 (.inr ⟨rest, rfl, hnew⟩)⟩

theorem collectOps_append (ops ops' : List (Op × Timestamp)) :
    collectOps (ops ++ ops') = collectOps ops ++ collectOps ops' := by
  induction ops with
  | nil => rfl
  | cons x ops ih => rw [cons_append, collectOps, ih, ← append_assoc]; rfl

theorem mem_collect_modified {path : List Op} (h : t.Sound H) (hother : other.Sound H)
    (hmsg : other.msg = msg) (ht' : Modified msg (·.merge other) path t t')
    (x : Bytes × Attestation) :
    x ∈ t'.collect ↔
      x ∈ t.collect ∨ (∀ op ∈ path, op.isEvaluated = true) ∧ x ∈ other.collect := by
  induction ht' with
  | here hfound => simpa using mem_collect_merge h hother (hfound.trans hmsg.symm) x
  | @branch _ _ before after op path child child' hchild ih =>
    obtain ⟨-, -, hrest⟩ := h
    have hbelow := ih (hrest _ mem_append_cons_self)
    simp only [collect, collectOps_append, collectOps, mem_append, forall_mem_cons]
    cases hevaluated : op.isEvaluated with
    | false => simp
    | true =>
      simp only [if_true, hbelow, true_and, or_right_comm (c := x ∈ collectOps after), or_assoc]

/-! ### How deep and how large a merged proof is -/

theorem Ordered.modified {path : List Op} (h : Ordered depth t) (hother : Ordered depth' other)
    (hattests : other.Attests) (ht' : Modified msg (·.merge other) path t t') :
    Ordered (depth + depth') t' ∧ t'.Attests := by
  induction ht' generalizing depth with
  | here hfound =>
    obtain ⟨path, a, hshows⟩ := hattests
    exact ⟨h.merge hother, path, a, (shows_merge _ _ _ _).2 (.inr hshows)⟩
  | @branch _ _ before after op _ child child' _ ih =>
    cases depth with
    | zero => exact h.elim
    | succ depth =>
      obtain ⟨hcollected, hatts, hsorted⟩ := h
      obtain ⟨hordered, path, a, hshows⟩ := ih (hcollected.ordered _ mem_append_cons_self)
      rw [Nat.add_right_comm]
      refine ⟨⟨⟨hcollected.attestations, ?_, fun x hx => ?_, fun x hx => ?_⟩, hatts, ?_⟩,
        op :: path, a, child', mem_append_cons_self, hshows⟩
      · simpa using hcollected.ops
      · rcases mem_or_eq_of_mem_replaced hx with rfl | hx
        · exact hordered
        · exact (hcollected.ordered x hx).mono (Nat.le_add_right _ _)
      · rcases mem_or_eq_of_mem_replaced hx with rfl | hx
        · exact ⟨path, a, hshows⟩
        · exact hcollected.attests x hx
      · simpa [Ascending, pairwise_append] using hsorted

theorem Proper.modified {path : List Op} (h : t.Proper H depth) (hother : other.Proper H depth')
    (hmsg : other.msg = msg) (ht' : Modified msg (·.merge other) path t t') :
    t'.Proper H (depth + depth') := by
  obtain ⟨hordered, hattests⟩ := h.ordered.modified hother.ordered hother.attests ht'
  exact ⟨hordered, (h.sound.modified (fun node hnode hfound =>
    ⟨hnode.merge hother.sound (hfound.trans hmsg.symm), msg_merge⟩) ht').1, hattests⟩

theorem weight_modified_le {path : List Op} (ht' : Modified msg (·.merge other) path t t') :
    t'.weight ≤ t.weight + other.weight := by
  induction ht' with
  | here hfound => exact weight_merge_le _ _
  | branch before after hchild ih =>
    simp only [weight, weightOps_eq_sum, map_append, map_cons, sum_append, sum_cons]
    omega

theorem weight_deserialize_le {body : Bytes} (h : deserialize H body msg = .ok t) :
    t.weight ≤ body.length + 1 := by
  rw [deserialize] at h
  split_ifs at h
  obtain ⟨p, rfl, -, rfl⟩ := (parses_read maxDepth msg).runAll_eq_ok_iff.1 h
  have hweight := p.weight_build_le (H := H) (.new msg)
  rwa [weight_new, Nat.zero_add] at hweight

end

end Timestamp

namespace DetachedTimestamp

variable {H : Hashes} {t t' : DetachedTimestamp} {commitment body : Bytes}

/-- What is listed after a response was merged is what was listed before and, where the
operations that lead to the first node with the commitment are all evaluated, what the response
proves. So all that it proves is listed just where the operations are evaluated, or where all of
it was listed before. -/
theorem mem_collect_of_merge (H : Hashes) {bytes : Bytes} (hparse : parse H bytes = .ok t)
    (hmerge : t.mergeCalendarResponse H commitment body = .ok t') :
    ∃ upgrade path, deserialize H body commitment = .ok upgrade ∧
      t.timestamp.pathTo commitment = some path ∧
      (∀ x, x ∈ t'.timestamp.collect ↔ x ∈ t.timestamp.collect ∨
        (∀ op ∈ path, op.isEvaluated = true) ∧ x ∈ upgrade.collect) ∧
      ((∀ x ∈ upgrade.collect, x ∈ t'.timestamp.collect) ↔
        (∀ op ∈ path, op.isEvaluated = true) ∨ ∀ x ∈ upgrade.collect, x ∈ t.timestamp.collect) := by
  obtain ⟨upgrade, path, hread, hpath, hmodified⟩ := mergeCalendarResponse_eq_ok hmerge
  obtain ⟨hupgrade, hmsg⟩ := Timestamp.Proper.of_deserialize hread
  have hlisted := mem_collect_modified (proper_of_parse hparse).1.sound hupgrade.sound
    hmsg hmodified
  refine ⟨upgrade, path, hread, hpath, hlisted, ?_⟩
  by_cases hevaluated : ∀ op ∈ path, op.isEvaluated = true
  · exact iff_of_true (fun x hx => (hlisted x).2 (.inr ⟨hevaluated, hx⟩)) (.inl hevaluated)
  · simp only [hlisted, hevaluated, false_and, or_false, false_or]

def noHashes : Hashes := ofTable []

def commitment0 : Bytes := stepDigest.1 ++ [0]

def appended (attestations : List Attestation) : DetachedTimestamp :=
  ⟨stepDigest.1, [], [(.append [0], ⟨commitment0, attestations, []⟩)]⟩

def awaiting : DetachedTimestamp := appended [.pending [0x61]]

def attested : DetachedTimestamp := appended [.bitcoin 1, .pending [0x61]]

theorem mem_collect_of_merge_block :
    parse noHashes awaiting.serialize = .ok awaiting ∧ (commitment0, [0x61]) ∈ awaiting.pending ∧
      awaiting.mergeCalendarResponse noHashes commitment0 (blockResponse 1) = .ok attested ∧
      ∃ upgrade, deserialize noHashes (blockResponse 1) commitment0 = .ok upgrade ∧
        ∀ x ∈ upgrade.collect, x ∈ attested.timestamp.collect := by
  have hparse : parse noHashes awaiting.serialize = .ok awaiting := rfl
  have hmerge : awaiting.mergeCalendarResponse noHashes commitment0 (blockResponse 1) =
    .ok attested := rfl
  obtain ⟨upgrade, path, hread, hpath, -, hiff⟩ := mem_collect_of_merge noHashes hparse hmerge
  have hfound : awaiting.timestamp.pathTo commitment0 = some [.append [0]] := rfl
  cases hpath.symm.trans hfound
  exact ⟨hparse, by decide, hmerge, upgrade, hread, hiff.2 (.inl (by decide))⟩

/-- The commitment is pending, and the message of a node behind SHA-1 as well. -/
def hidden (attestations : List Attestation) : DetachedTimestamp :=
  ⟨stepDigest.1, [],
    [(.sha1, ⟨[], [], [(.append commitment0, ⟨commitment0, attestations, []⟩)]⟩),
      (.append [0], ⟨commitment0, [.pending [0x61]], []⟩)]⟩

set_option maxRecDepth 4000 in
/-- A response for a pending commitment is merged, and what it proves is not listed. -/
theorem notMem_collect_of_merge :
    parse noHashes (hidden [.bitcoin 0]).serialize = .ok (hidden [.bitcoin 0]) ∧
      (commitment0, [0x61]) ∈ (hidden [.bitcoin 0]).pending ∧
      (hidden [.bitcoin 0]).mergeCalendarResponse noHashes commitment0
        (blockResponse 1) = .ok (hidden [.bitcoin 0, .bitcoin 1]) ∧
      deserialize noHashes (blockResponse 1) commitment0 = .ok ⟨commitment0, [.bitcoin 1], []⟩ ∧
      (commitment0, .bitcoin 1) ∉ (hidden [.bitcoin 0, .bitcoin 1]).timestamp.collect :=
  ⟨rfl, by decide, rfl, rfl, by decide⟩

/-- A proof as it is read, of some number of levels. -/
structure Standing (H : Hashes) (t : DetachedTimestamp) : Prop where
  proper : ∃ depth, t.timestamp.Proper H depth
  length : t.digest.length = 32

theorem Standing.merge (h : Standing H t)
    (hmerge : t.mergeCalendarResponse H commitment body = .ok t') : Standing H t' := by
  obtain ⟨⟨depth, hproper⟩, hlength⟩ := h
  obtain ⟨upgrade, path, hread, -, hmodified⟩ := mergeCalendarResponse_eq_ok hmerge
  obtain ⟨hupgrade, hmsg⟩ := Timestamp.Proper.of_deserialize hread
  have hfollows := Follows.mergeCalendarResponse ⟨hproper.sound, hlength⟩ hmerge
  exact ⟨⟨_, hproper.modified hupgrade hmsg hmodified⟩, hfollows.1.length⟩

/-- The operations that lead to the node a response is merged into, and those of the response
behind it, are within the limit on levels. -/
def LevelsFit (H : Hashes) (t : DetachedTimestamp) (response : Bytes × Bytes) : Prop :=
  ∀ path upgrade, t.timestamp.pathTo response.1 = some path →
    deserialize H response.2 response.1 = .ok upgrade →
    ∀ rest a, upgrade.Shows rest a → path.length + rest.length < maxDepth

def mergeStep (H : Hashes) (t : DetachedTimestamp) (response : Bytes × Bytes) :
    Option DetachedTimestamp := (t.mergeCalendarResponse H response.1 response.2).toOption

theorem shows_lt_iff_levelsFit {response : Bytes × Bytes}
    (hlevels : ∀ path a, t.timestamp.Shows path a → path.length < maxDepth)
    (hstep : mergeStep H t response = some t') :
    (∀ path a, t'.timestamp.Shows path a → path.length < maxDepth) ↔ LevelsFit H t response := by
  obtain ⟨upgrade, path, hread, hpath, hmodified⟩ :=
    mergeCalendarResponse_eq_ok (eq_ok_of_toOption hstep)
  constructor
  · rintro hlt path' upgrade' hpath' hread' rest a hshows
    cases hpath.symm.trans hpath'
    cases hread.symm.trans hread'
    have hbehind := hlt (path ++ rest) a ((shows_modified hmodified _ a).2
      (.inr ⟨rest, rfl, hshows⟩))
    rwa [length_append] at hbehind
  · intro hfit p a hshows
    rcases (shows_modified hmodified p a).1 hshows with hold | ⟨rest, rfl, hnew⟩
    · exact hlevels p a hold
    · rw [length_append]
      exact hfit path upgrade hpath hread rest a hnew

theorem length_serialize_mergeStep (hstanding : Standing H t) {response : Bytes × Bytes}
    (hstep : mergeStep H t response = some t') :
    t'.serialize.length ≤ t.serialize.length + (response.2.length + 1) := by
  have hmerge := eq_ok_of_toOption hstep
  obtain ⟨upgrade, path, hread, -, hmodified⟩ := mergeCalendarResponse_eq_ok hmerge
  obtain ⟨⟨depth', hproper'⟩, hlength'⟩ := hstanding.merge hmerge
  obtain ⟨⟨depth, hproper⟩, hlength⟩ := hstanding
  have hwrite := hproper.ordered.length_write hproper.attests
  have hwrite' := hproper'.ordered.length_write hproper'.attests
  have hweight := weight_modified_le hmodified
  have hbody := weight_deserialize_le hread
  simp only [digest] at hlength hlength'
  simp only [serialize, length_append, length_cons, hlength, hlength']
  omega

theorem standing_run {responses : List (Bytes × Bytes)} (h : Standing H t)
    (hrun : run (mergeStep H) t responses = some t') :
    Standing H t' ∧ t'.serialize.length ≤
      t.serialize.length + (responses.map fun r => r.2.length + 1).sum := by
  induction responses generalizing t with
  | nil =>
    cases hrun
    exact ⟨h, Nat.le_add_right _ _⟩
  | cons response responses ih =>
    obtain ⟨u, hstep, hrest⟩ := run_cons_eq_some_iff.1 hrun
    obtain ⟨hstanding, hlength⟩ := ih (h.merge (eq_ok_of_toOption hstep)) hrest
    have hfirst := length_serialize_mergeStep h hstep
    rw [map_cons, sum_cons]
    exact ⟨hstanding, by omega⟩

/-- Where the file and the responses together are not too long, what is written after the
responses were merged is accepted just where each response fitted in levels when it was merged,
and it has the same value. -/
theorem parse_serialize_of_merges (H : Hashes) {bytes : Bytes} {responses : List (Bytes × Bytes)}
    (hparse : parse H bytes = .ok t) (hrun : run (mergeStep H) t responses = some t')
    (hbytes : bytes.length + (responses.map fun r => r.2.length + 1).sum ≤ maxProofBytes) :
    (parse H t'.serialize = .ok t' ↔ EachStep (mergeStep H) (LevelsFit H) t responses) ∧
      ∀ u, parse H t'.serialize = .ok u → u = t' := by
  obtain ⟨hproper, hlength⟩ := proper_of_parse hparse
  have hlevels := (hproper.ordered.iff_length_lt hproper.attests).1 hproper.ordered
  obtain ⟨⟨⟨depth, hproper'⟩, hlength'⟩, hle⟩ := standing_run ⟨⟨_, hproper⟩, hlength⟩ hrun
  have hsize : t'.serialize.length ≤ maxProofBytes := by
    have hfile := length_serialize_le hparse
    omega
  refine ⟨?_, fun u hu => ((parse_serialize_eq_ok_iff hproper' hlength').1 hu).2.2⟩
  rw [parse_serialize_eq_ok_iff hproper' hlength', eachStep_iff (I := fun _ => True)
    (Q := fun t => ∀ path a, t.timestamp.Shows path a → path.length < maxDepth)
    (fun _ _ => trivial) (fun _ hQ hstep => shows_lt_iff_levelsFit hQ hstep) ?_ trivial hlevels
    hrun]
  · simp [hsize]
  · -- a merge keeps what the proof said before
    intro s response s' _ hstep hlt path a hshows
    obtain ⟨upgrade, found, -, -, hmodified⟩ :=
      mergeCalendarResponse_eq_ok (eq_ok_of_toOption hstep)
    exact hlt path a ((shows_modified hmodified path a).2 (.inl hshows))

theorem parse_serialize_of_merges_block :
    run (mergeStep noHashes) awaiting [(commitment0, blockResponse 1)] = some attested ∧
      parse noHashes attested.serialize = .ok attested := by
  have hparse : parse noHashes awaiting.serialize = .ok awaiting := rfl
  have hrun : run (mergeStep noHashes) awaiting [(commitment0, blockResponse 1)] =
    some attested := rfl
  have hfit : LevelsFit noHashes awaiting (commitment0, blockResponse 1) := by
    intro path upgrade hpath hread rest a hshows
    obtain rfl : [.append [0]] = path := Option.some.inj hpath
    obtain rfl : ⟨commitment0, [.bitcoin 1], []⟩ = upgrade := Except.ok.inj hread
    cases rest with
    | nil => decide
    | cons op rest =>
      obtain ⟨child, hchild, -⟩ := hshows
      cases hchild
  exact ⟨hrun, (parse_serialize_of_merges noHashes hparse hrun (by decide)).1.2
    ⟨hfit, fun _ _ => trivial⟩⟩

/-! ### A proof that is too deep -/

def appendSpelling : Spelling OpText where
  text := (Op.append [0]).write
  value := .append [0]
  spells := ⟨_, rfl, by decide, varbytesText_writeVarbytes (by decide) (by decide)⟩

def deepBranches : Nat → Branches
  | 0 => .last (.attestation stepAttestation)
  | n + 1 => .last (.op appendSpelling (deepBranches n))

section DeepBranches

variable {msg : Bytes} {n : Nat}

theorem nextMsg_append (h : msg.length < maxMsg) :
    nextMsg H (.append [0]) msg = .ok (msg ++ [0]) := by
  have hle : (msg ++ [(0 : UInt8)]).length ≤ maxMsg := by simpa using Nat.succ_le_of_lt h
  simp only [nextMsg, Op.isEvaluated, Op.apply, Op.result, Option.filter, hle, decide_true, if_true]

theorem evaluates_deepBranches (h : msg.length + n ≤ maxMsg) :
    (deepBranches n).Evaluates H (n + 1) msg := by
  induction n generalizing msg with
  | zero => trivial
  | succ n ih =>
    exact ⟨msg ++ [0], nextMsg_append (by omega), ih (by rw [length_append]; simp; omega)⟩

theorem shows_deepBranches :
    (deepBranches n).Shows (List.replicate n (.append [0])) (.bitcoin 358391) := by
  induction n with
  | zero => exact ⟨rfl, rfl⟩
  | succ n ih => exact ⟨_, rfl, ih⟩

end DeepBranches

set_option maxRecDepth 8000 in
/-- A file is accepted and a response for a pending commitment is merged, and what is written then
is not accepted. -/
theorem not_parse_serialize_of_merge :
    parse noHashes awaiting.serialize = .ok awaiting ∧ (commitment0, [0x61]) ∈ awaiting.pending ∧
      ∃ t', awaiting.mergeCalendarResponse noHashes commitment0 (deepBranches 255).text = .ok t' ∧
        ∀ u, parse noHashes t'.serialize ≠ .ok u := by
  have hparse : parse noHashes awaiting.serialize = .ok awaiting := rfl
  have hread : deserialize noHashes (deepBranches 255).text commitment0 =
      .ok ((deepBranches 255).build noHashes (.new commitment0)) := by
    rw [deserialize, if_neg (by decide)]
    exact (parses_read maxDepth _).runAll_eq_ok_iff.2
      ⟨_, rfl, evaluates_deepBranches (by decide), rfl⟩
  have hmerge : awaiting.mergeCalendarResponse noHashes commitment0
      (deepBranches 255).text = .ok ⟨stepDigest.1, [], [(.append [0],
        merge ⟨commitment0, [.pending [0x61]], []⟩
          ((deepBranches 255).build noHashes (.new commitment0)))]⟩ := by
    rw [mergeCalendarResponse, hread]
    rfl
  refine ⟨hparse, by decide, _, hmerge, fun u hu => ?_⟩
  -- The path of the response goes on from the node it is merged into.
  obtain ⟨hproper, hlength⟩ := proper_of_parse hparse
  obtain ⟨⟨depth, hproper'⟩, hlength'⟩ := Standing.merge ⟨⟨_, hproper⟩, hlength⟩ hmerge
  have hlt := ((parse_serialize_eq_ok_iff hproper' hlength').1 hu).1
    (.append [0] :: List.replicate 255 (.append [0])) (.bitcoin 358391) ⟨_, List.mem_cons_self,
      (shows_merge _ _ _ _).2 (.inr
        ((shows_build_new _ _ _ _).2 shows_deepBranches))⟩
  exact absurd hlt (by decide)

end DetachedTimestamp

end Calybris.Ots
