import Calybris.Ots.File
import Calybris.Transition.Run
import Mathlib.Data.Nat.Bitwise

/-!
# Paths to a block

A proof begins empty or is read from a file; then commitments are prepared and the
responses of calendars folded in. In every proof that comes about so, each operation leads
from the message before it to the message after it, though branches are shared, merged and
sorted, and those behind operations that are not evaluated stand on no message at all. So
what is listed as attested is reached from the digest, and a proof that is accepted for a
block header leads to its Merkle root.
-/

namespace Calybris.Ots

open Text Text.ByteOrder Note Parse Sorted Transition List Timestamp

namespace Timestamp

/-! ### What the operations on proofs keep -/

section

variable {H : Hashes} {t child : Timestamp} {op : Op} {msg next : Bytes}

theorem Sound.withOp (h : t.Sound H) (hop : ∃ text, OpText text op)
    (hnext : nextMsg H op t.msg = .ok next) (hevaluated : op.isEvaluated = true) :
    (t.withOp H op).Sound H ∧ (t.withOp H op).msg = t.msg ∧
      ∃ child, Entries.find op (t.withOp H op).ops = some child ∧ child.Sound H ∧
        child.msg = next := by
  have hkept : (t.withOp H op).Sound H ∧ (t.withOp H op).msg = t.msg ∧
      ∃ child, Entries.find op (t.withOp H op).ops = some child := by
    rw [Timestamp.withOp]
    cases hfind : Entries.find op t.ops with
    | some child => exact ⟨h, rfl, child, hfind⟩
    | none =>
      have hmsg : (op.apply H t.msg).getD [] = next := by
        rw [nextMsg, if_pos hevaluated] at hnext
        split at hnext
        · next hout => rw [hout, Option.getD_some, Except.ok.inj hnext]
        · cases hnext
      have hput : Sound H { t with ops := Entries.put op (new next) t.ops } :=
        Forall.put h ⟨hnext, hop⟩ (forall_new next)
      rw [Entries.put_eq_append hfind, ← hmsg] at hput
      exact ⟨hput.canonicalize, rfl,
        Entries.exists_find_of_mem (mem_sortBy.2 (mem_append_right _ mem_cons_self))⟩
  obtain ⟨hsound, hmsg, child, hfind⟩ := hkept
  obtain ⟨⟨hout, -⟩, hchild⟩ := Forall.find hsound hfind
  rw [hmsg, hnext] at hout
  exact ⟨hsound, hmsg, child, hfind, hchild, (Except.ok.inj hout).symm⟩

mutual

/-- The operations before the first node with this message, in tree order. -/
def pathTo (msg : Bytes) : Timestamp → Option (List Op)
  | ⟨found, _, ops⟩ => if found = msg then some [] else pathToOps msg ops

def pathToOps (msg : Bytes) : List (Op × Timestamp) → Option (List Op)
  | [] => none
  | (op, child) :: rest =>
    match pathTo msg child with
    | some path => some (op :: path)
    | none => pathToOps msg rest

end

/-- The node at the end of the path has the message and is changed. -/
inductive Modified (msg : Bytes) (f : Timestamp → Timestamp) :
    List Op → Timestamp → Timestamp → Prop where
  | here {t : Timestamp} (h : t.msg = msg) : Modified msg f [] t (f t)
  | branch {found : Bytes} {attestations : List Attestation} (before after : List (Op × Timestamp))
      {op : Op} {path : List Op} {child child' : Timestamp} (h : Modified msg f path child child') :
      Modified msg f (op :: path) ⟨found, attestations, before ++ (op, child) :: after⟩
        ⟨found, attestations, before ++ (op, child') :: after⟩

mutual

theorem pathTo_eq_none {f : Timestamp → Timestamp} :
    (t : Timestamp) → t.modify msg f = none → t.pathTo msg = none
  | ⟨found, attestations, ops⟩, h => by
    rw [modify] at h
    rw [pathTo]
    split_ifs at h ⊢
    exact pathToOps_eq_none ops (Option.map_eq_none_iff.1 h)

theorem pathToOps_eq_none {f : Timestamp → Timestamp} :
    (ops : List (Op × Timestamp)) → modifyOps msg f ops = none → pathToOps msg ops = none
  | [], _ => rfl
  | (op, child) :: rest, h => by
    rw [modifyOps] at h
    split at h
    · cases h
    · next hchild =>
      rw [pathToOps, pathTo_eq_none child hchild]
      exact pathToOps_eq_none rest (Option.map_eq_none_iff.1 h)

end

theorem modified_of_modify {f : Timestamp → Timestamp} {t t' : Timestamp}
    (h : t.modify msg f = some t') :
    ∃ path, t.pathTo msg = some path ∧ Modified msg f path t t' := by
  induction t using induction generalizing t' with
  | h t ih =>
    obtain ⟨found, attestations, ops⟩ := t
    rw [modify] at h
    rw [pathTo]
    split_ifs at h ⊢ with hfound
    · cases h
      exact ⟨[], rfl, .here hfound⟩
    · obtain ⟨ops', hops, rfl⟩ := Option.map_eq_some_iff.1 h
      have hbranch (before : List (Op × Timestamp)) (hl : ∀ x ∈ ops, ∀ {child'},
          x.2.modify msg f = some child' →
            ∃ path, x.2.pathTo msg = some path ∧ Modified msg f path x.2 child') :
          ∃ path, pathToOps msg ops = some path ∧
            Modified msg f path ⟨found, attestations, before ++ ops⟩
              ⟨found, attestations, before ++ ops'⟩ := by
        clear h ih
        induction ops generalizing ops' before with
        | nil => cases hops
        | cons x ops ihops =>
          obtain ⟨op, child⟩ := x
          obtain ⟨hchild, hl⟩ := forall_mem_cons.1 hl
          rw [modifyOps] at hops
          split at hops
          · next child' hmodify =>
            cases hops
            obtain ⟨path, hpath, hmodified⟩ := hchild hmodify
            exact ⟨op :: path, by rw [pathToOps, hpath], .branch before ops hmodified⟩
          · next hnone =>
            obtain ⟨rest, hrest, rfl⟩ := Option.map_eq_some_iff.1 hops
            obtain ⟨path, hpath, hmodified⟩ := ihops rest hrest (before ++ [(op, child)]) hl
            refine ⟨path, ?_, by simpa using hmodified⟩
            rw [pathToOps, pathTo_eq_none child hnone, hpath]
      exact hbranch [] ih

theorem mem_or_eq_of_mem_replaced {α : Type} {before after : List α} {a b x : α}
    (h : x ∈ before ++ b :: after) : x = b ∨ x ∈ before ++ a :: after := by
  simp only [mem_append, mem_cons] at h ⊢
  tauto

theorem Sound.modified {f : Timestamp → Timestamp} {t t' : Timestamp} {path : List Op}
    (hf : ∀ node : Timestamp, node.Sound H → node.msg = msg →
      (f node).Sound H ∧ (f node).msg = node.msg)
    (h : t.Sound H) (ht' : Modified msg f path t t') : t'.Sound H ∧ t'.msg = t.msg := by
  induction ht' with
  | here hfound => exact hf _ h hfound
  | @branch _ _ before after op _ child child' _ ih =>
    obtain ⟨hatts, hmsgs, hrest⟩ := h
    have hmem : (op, child) ∈ before ++ (op, child) :: after := mem_append_cons_self
    obtain ⟨hsound, hmsg⟩ := ih (hrest _ hmem)
    refine ⟨.node hatts (fun x hx => ?_) fun x hx => ?_, rfl⟩
    · rcases mem_or_eq_of_mem_replaced hx with rfl | hx
      · exact hmsg ▸ hmsgs _ hmem
      · exact hmsgs x hx
    · rcases mem_or_eq_of_mem_replaced hx with rfl | hx
      · exact hsound
      · exact hrest x hx

theorem Proper.of_deserialize {body : Bytes} (h : deserialize H body msg = .ok t) :
    t.Proper H maxDepth ∧ t.msg = msg := by
  rw [deserialize] at h
  split_ifs at h
  obtain ⟨p, -, heval, rfl⟩ := (parses_read maxDepth msg).runAll_eq_ok_iff.1 h
  exact ⟨proper_build heval, p.msg_build _⟩

end

end Timestamp

/-! ### Paths -/

section Paths

variable (H : Hashes)

def applyAll : List Op → Bytes → Option Bytes
  | [], msg => some msg
  | op :: path, msg => (op.apply H msg).bind (applyAll path)

/-- The operations lead from one message to the other, and each is evaluated. -/
@[mk_iff]
structure Leads (path : List Op) (msg out : Bytes) : Prop where
  evaluated : ∀ op ∈ path, op.isEvaluated = true
  result : applyAll H path msg = some out

variable {H}

theorem leads_cons_iff {op : Op} {path : List Op} {msg next out : Bytes}
    (hnext : nextMsg H op msg = .ok next) :
    Leads H (op :: path) msg out ↔ op.isEvaluated = true ∧ Leads H path next out := by
  rw [nextMsg] at hnext
  split_ifs at hnext with hevaluated
  · split at hnext
    · next hout =>
      cases hnext
      simp [leads_iff, applyAll, hout, hevaluated]
    · cases hnext
  · simp [leads_iff, hevaluated]

theorem Timestamp.mem_collectOps {ops : List (Op × Timestamp)} {x : Bytes × Attestation} :
    x ∈ collectOps ops ↔
      ∃ op child, (op, child) ∈ ops ∧ op.isEvaluated = true ∧ x ∈ child.collect := by
  induction ops with
  | nil => simp [collectOps]
  | cons y ops ih =>
    obtain ⟨op, child⟩ := y
    rw [collectOps, mem_append, ih]
    constructor
    · rintro (hx | ⟨op', child', hmem, hx⟩)
      · split_ifs at hx with hevaluated
        · exact ⟨op, child, mem_cons_self, hevaluated, hx⟩
        · cases hx
      · exact ⟨op', child', mem_cons_of_mem _ hmem, hx⟩
    · rintro ⟨op', child', hmem, hevaluated, hx⟩
      rcases mem_cons.1 hmem with heq | hmem
      · cases heq
        rw [if_pos hevaluated]
        exact .inl hx
      · exact .inr ⟨op', child', hmem, hevaluated, hx⟩

theorem Timestamp.Sound.mem_collect_iff {t : Timestamp} (h : t.Sound H) {msg : Bytes}
    {a : Attestation} :
    (msg, a) ∈ t.collect ↔ ∃ path, Leads H path t.msg msg ∧ t.Shows path a := by
  induction h with
  | @node t _ hmsgs _ ih =>
    obtain ⟨found, attestations, ops⟩ := t
    rw [collect, mem_append, mem_collectOps]
    constructor
    · rintro (hmem | ⟨op, child, hchild, hevaluated, hmem⟩)
      · obtain ⟨b, hb, heq⟩ := mem_map.1 hmem
        cases heq
        exact ⟨[], ⟨nofun, rfl⟩, hb⟩
      · obtain ⟨path, hpath, hshows⟩ := (ih _ hchild).1 hmem
        exact ⟨op :: path, (leads_cons_iff (hmsgs _ hchild).1).2 ⟨hevaluated, hpath⟩,
          child, hchild, hshows⟩
    · rintro ⟨_ | ⟨op, path⟩, hleads, hshows⟩
      · cases hleads.result
        exact .inl (mem_map_of_mem hshows)
      · obtain ⟨child, hchild, hshows⟩ := hshows
        obtain ⟨hevaluated, hpath⟩ := (leads_cons_iff (hmsgs _ hchild).1).1 hleads
        exact .inr ⟨op, child, hchild, hevaluated, (ih _ hchild).2 ⟨path, hpath, hshows⟩⟩

end Paths

/-! ### Targets -/

section Targets

def compactTarget (bits : UInt32) : Nat :=
  bits.toNat % 2 ^ 24 * 256 ^ (bits.toNat / 2 ^ 24) / 256 ^ 3

theorem toNat_exponent (bits : UInt32) : (bits >>> 24).toNat = bits.toNat / 2 ^ 24 := by
  rw [UInt32.toNat_shiftRight, Nat.shiftRight_eq_div_pow]
  rfl

theorem targetOf_eq (bits : UInt32) :
    targetOf bits = if (0 < bits.toNat % 2 ^ 24 ∧ bits.toNat % 2 ^ 24 < 2 ^ 23) ∧
        3 ≤ bits.toNat / 2 ^ 24 ∧ bits.toNat / 2 ^ 24 ≤ 32 then
      some (replicate (32 - bits.toNat / 2 ^ 24) 0 ++ toBigEndian 3 (bits.toNat % 2 ^ 24) ++
        replicate (bits.toNat / 2 ^ 24 - 3) 0) else none := by
  have hmantissa : (bits &&& 0x00ffffff).toNat = bits.toNat % 2 ^ 24 := by
    rw [UInt32.toNat_and]
    exact Nat.and_two_pow_sub_one_eq_mod _ 24
  have hsign : (bits &&& 0x00ffffff) &&& 0x00800000 = 0 ↔ bits.toNat % 2 ^ 24 < 2 ^ 23 := by
    rw [← UInt32.toNat_inj, UInt32.toNat_and, hmantissa]
    change bits.toNat % 2 ^ 24 &&& 2 ^ 23 = 0 ↔ _
    rw [Nat.and_two_pow, Nat.testBit_eq_decide_div_mod_eq]
    have hlt := Nat.mod_lt bits.toNat (show 0 < 2 ^ 24 by decide)
    by_cases hbit : bits.toNat % 2 ^ 24 / 2 ^ 23 % 2 = 1
    · rw [decide_eq_true hbit]
      exact iff_of_false (by decide) (by omega)
    · rw [decide_eq_false hbit]
      exact iff_of_true rfl (by omega)
  have hzero : bits &&& 0x00ffffff = 0 ↔ bits.toNat % 2 ^ 24 = 0 := by
    rw [← UInt32.toNat_inj, hmantissa]
    rfl
  simp only [targetOf, toNat_exponent, hmantissa, ne_eq, hsign, hzero]
  split_ifs with hbad hgood hgood
  · omega
  · rfl
  · rw [show 32 - (32 - bits.toNat / 2 ^ 24 + 3) = bits.toNat / 2 ^ 24 - 3 by omega]
    rfl
  · omega

theorem targetOf_eq_some {bits : UInt32} {target : Bytes} (h : targetOf bits = some target) :
    target.length = 32 ∧ ofBigEndian target = compactTarget bits := by
  rw [targetOf_eq] at h
  split_ifs at h with hgood
  obtain ⟨k, hk⟩ := Nat.exists_eq_add_of_le hgood.2.1
  have hlt : bits.toNat % 2 ^ 24 < 256 ^ 3 := Nat.mod_lt _ (by decide)
  rw [hk] at h
  cases h
  constructor
  · simp only [length_append, length_replicate, length_toBigEndian]
    omega
  · rw [ofBigEndian_append, ofBigEndian_append, ofBigEndian_replicate_zero,
      ofBigEndian_replicate_zero, ofBigEndian_toBigEndian hlt, length_replicate, compactTarget,
      hk, Nat.pow_add, Nat.mul_left_comm, Nat.mul_div_cancel_left _ (by decide)]
    simp

theorem leadingZeroBits_add_size (bytes : Bytes) :
    leadingZeroBits bytes + (ofBigEndian bytes).size = 8 * bytes.length := by
  induction bytes with
  | nil => rfl
  | cons b bytes ih =>
    have hrest := ofBigEndian_lt bytes
    rw [show 256 = 2 ^ 8 from rfl, ← Nat.pow_mul] at hrest
    rw [leadingZeroBits, ofBigEndian_cons, length_cons, show 256 = 2 ^ 8 from rfl, ← Nat.pow_mul]
    split_ifs with hzero
    · subst hzero
      rw [UInt8.toNat_zero, Nat.zero_mul, Nat.zero_add]
      omega
    · have hpos : b.toNat ≠ 0 := fun h => hzero (UInt8.toNat_inj.1 h)
      have hlog : b.toNat.log2 < 8 := (Nat.log2_lt hpos).2 b.toNat_lt
      have hsize : (b.toNat * 2 ^ (8 * bytes.length) + ofBigEndian bytes).size =
          b.toNat.log2 + 1 + 8 * bytes.length := by
        refine le_antisymm (Nat.size_le.2 ?_) (Nat.succ_add _ _ ▸ Nat.lt_size.2 ?_)
        · rw [Nat.pow_add]
          have := Nat.mul_le_mul_right (2 ^ (8 * bytes.length)) (Nat.lt_log2_self (n := b.toNat))
          rw [Nat.succ_mul] at this
          omega
        · rw [Nat.pow_add]
          exact (Nat.mul_le_mul_right _ (Nat.log2_self_le hpos)).trans (Nat.le_add_right _ _)
      rw [hsize]
      omega

/-- A target is given exactly for a positive mantissa without its sign bit and an exponent
from 3 to 32. It is the number that the two write, is compared with a hash as a number, and
has the zero bits that its length leaves. -/
theorem targetOf_exact (bits : UInt32) :
    ((targetOf bits).isSome ↔ (0 < bits.toNat % 2 ^ 24 ∧ bits.toNat % 2 ^ 24 < 2 ^ 23) ∧
      3 ≤ bits.toNat / 2 ^ 24 ∧ bits.toNat / 2 ^ 24 ≤ 32) ∧
    ∀ target, targetOf bits = some target →
      (bits >>> 24).toNat ≤ 32 ∧ 32 - (bits >>> 24).toNat + 3 ≤ 32 ∧ target.length = 32 ∧
      ofBigEndian target = bits.toNat % 2 ^ 24 * 256 ^ (bits.toNat / 2 ^ 24 - 3) ∧
      leadingZeroBits target = 256 - (ofBigEndian target).size ∧
      ∀ hash : Bytes32,
        (target < hash.1.reverse ↔ ofBigEndian target < ofBigEndian hash.1.reverse) ∧
        (hash.1.reverse < target ↔ ofBigEndian hash.1.reverse < ofBigEndian target) := by
  have hiff : (targetOf bits).isSome ↔ (0 < bits.toNat % 2 ^ 24 ∧ bits.toNat % 2 ^ 24 < 2 ^ 23) ∧
      3 ≤ bits.toNat / 2 ^ 24 ∧ bits.toNat / 2 ^ 24 ≤ 32 := by
    rw [targetOf_eq]
    split_ifs with h
    · exact iff_of_true rfl h
    · exact iff_of_false Bool.false_ne_true h
  refine ⟨hiff, fun target htarget => ?_⟩
  obtain ⟨-, hthree, hle⟩ := hiff.1 (htarget ▸ rfl)
  obtain ⟨hlength, hvalue⟩ := targetOf_eq_some htarget
  rw [toNat_exponent]
  refine ⟨hle, by omega, hlength, ?_, ?_, fun hash => ?_⟩
  · rw [hvalue, compactTarget, Nat.mul_div_assoc _ (Nat.pow_dvd_pow 256 hthree),
      Nat.pow_div hthree (by decide)]
  · have hbits := leadingZeroBits_add_size target
    omega
  · have hlen : target.length = hash.1.reverse.length := by rw [hlength, length_reverse, hash.2]
    exact ⟨lt_iff_ofBigEndian_lt hlen, lt_iff_ofBigEndian_lt hlen.symm⟩

theorem targetOf_exact_block :
    ∃ target, targetOf 0x181686f5 = some target ∧ ofBigEndian target = 0x1686f5 * 256 ^ 21 ∧
      leadingZeroBits target = 67 := by
  obtain ⟨-, -, -, hvalue, -⟩ := (targetOf_exact 0x181686f5).2 _ rfl
  exact ⟨_, rfl, hvalue, rfl⟩

end Targets

/-! ### Runs -/

theorem eq_ok_of_toOption {ε α : Type} {x : Except ε α} {a : α} (h : x.toOption = some a) :
    x = .ok a := by
  cases x with
  | error e => cases h
  | ok b => exact congrArg Except.ok (Option.some.inj h)

namespace DetachedTimestamp

inductive Call where
  | prepareSubmission (nonce : Bytes16)
  | mergeCalendarResponse (commitment body : Bytes)

variable (H : Hashes)

def step (t : DetachedTimestamp) : Call → Option DetachedTimestamp
  | .prepareSubmission nonce => (t.prepareSubmission H nonce).map Prod.snd
  | .mergeCalendarResponse commitment body => (t.mergeCalendarResponse H commitment body).toOption

def Starts (t : DetachedTimestamp) : Prop :=
  (∃ digest, t = new digest) ∨ ∃ bytes, parse H bytes = .ok t

/-- A proof whose messages follow from the digest. -/
structure Follows (t : DetachedTimestamp) : Prop where
  sound : t.timestamp.Sound H
  length : t.digest.length = 32

variable {H} {t t' : DetachedTimestamp}

theorem Starts.follows (h : Starts H t) : Follows H t := by
  rcases h with ⟨digest, rfl⟩ | ⟨bytes, hparse⟩
  · exact ⟨forall_new _, digest.2⟩
  · obtain ⟨hproper, hlength⟩ := proper_of_parse hparse
    exact ⟨hproper.sound, hlength⟩

theorem Follows.prepareSubmission (h : Follows H t) (nonce : Bytes16) :
    ∃ t', t.prepareSubmission H nonce =
        some (H.sha256 (t.digest ++ nonce.1), t') ∧ Follows H t' ∧ t'.digest = t.digest := by
  have hnonce : ∃ text, OpText text (.append nonce.1) := by
    refine ⟨_, _, rfl, fun hnil => ?_, varbytesText_writeVarbytes ?_ (by decide)⟩
    · exact absurd nonce.2 (hnil ▸ by decide)
    · rw [nonce.2]
      decide
  have hsha256 : ∃ text, OpText text .sha256 := ⟨_, [], rfl, rfl⟩
  have happend : nextMsg H (.append nonce.1) t.timestamp.msg = .ok (t.digest ++ nonce.1) := by
    have hlength := h.length
    simp [nextMsg, Op.isEvaluated, Op.apply, Op.result, Option.filter, digest] at hlength ⊢
    simp [hlength, nonce.2, maxMsg]
  obtain ⟨hroot, hrootMsg, node, hnode, hsound, hmsg⟩ := h.sound.withOp hnonce happend rfl
  obtain ⟨hnode', hnodeMsg, leaf, hleaf, -, hleafMsg⟩ :=
    hsound.withOp hsha256 (nextMsg_sha256 _) rfl
  have hcommitment : toBytes32 leaf.msg = some (H.sha256 (t.digest ++ nonce.1)) := by
    rw [hleafMsg, hmsg, toBytes32, dif_pos (H.sha256 _).2]
  refine ⟨⟨{ t.timestamp.withOp H (.append nonce.1) with
    ops := Entries.put (.append nonce.1) (node.withOp H .sha256)
      (t.timestamp.withOp H (.append nonce.1)).ops }⟩, ?_, ⟨?_, ?_⟩, hrootMsg⟩
  · simp only [DetachedTimestamp.prepareSubmission, hnode, hleaf, hcommitment,
      Option.bind_eq_bind, Option.bind_some, Option.pure_def]
  · refine Timestamp.Forall.put hroot ⟨?_, hnonce⟩ hnode'
    rw [hrootMsg, hnodeMsg, hmsg]
    exact happend
  · exact (congrArg List.length hrootMsg).trans h.length

theorem mergeCalendarResponse_eq_ok {commitment body : Bytes}
    (h : t.mergeCalendarResponse H commitment body = .ok t') :
    ∃ upgrade path, deserialize H body commitment = .ok upgrade ∧
      t.timestamp.pathTo commitment = some path ∧
      Timestamp.Modified commitment (·.merge upgrade) path t.timestamp t'.timestamp := by
  rw [mergeCalendarResponse] at h
  cases hread : deserialize H body commitment with
  | error e =>
    rw [hread] at h
    cases h
  | ok upgrade =>
    simp only [hread, bind, Except.bind] at h
    split at h
    · next hmodify =>
      cases h
      obtain ⟨path, hpath, hmodified⟩ := modified_of_modify hmodify
      exact ⟨upgrade, path, rfl, hpath, hmodified⟩
    · cases h

theorem Follows.mergeCalendarResponse (h : Follows H t) {commitment body : Bytes}
    (ht' : t.mergeCalendarResponse H commitment body = .ok t') :
    Follows H t' ∧ t'.digest = t.digest := by
  obtain ⟨upgrade, path, hread, -, hmodified⟩ := mergeCalendarResponse_eq_ok ht'
  obtain ⟨hupgrade, hmsg⟩ := Timestamp.Proper.of_deserialize hread
  obtain ⟨hsound, hkept⟩ := h.sound.modified (fun node hnode hfound =>
    ⟨hnode.merge hupgrade.sound (hfound.trans hmsg.symm), msg_merge⟩) hmodified
  exact ⟨⟨hsound, (congrArg List.length hkept).trans h.length⟩, hkept⟩

theorem Follows.step {call : Call} (h : Follows H t) (ht' : step H t call = some t') :
    Follows H t' ∧ t'.digest = t.digest := by
  cases call with
  | prepareSubmission nonce =>
    obtain ⟨t'', hprepare, hfollows⟩ := h.prepareSubmission nonce
    rw [DetachedTimestamp.step, hprepare] at ht'
    cases ht'
    exact hfollows
  | mergeCalendarResponse commitment body =>
    exact h.mergeCalendarResponse (eq_ok_of_toOption ht')

theorem follows_of_run {start : DetachedTimestamp} {calls : List Call} (hstart : Starts H start)
    (hrun : run (step H) start calls = some t) : Follows H t ∧ t.digest = start.digest :=
  run_invariant (I := fun s => Follows H s ∧ s.digest = start.digest)
    (fun hs hstep => ⟨(hs.1.step hstep).1, (hs.1.step hstep).2.trans hs.2⟩)
    ⟨hstart.follows, rfl⟩ hrun

theorem verifyBitcoin_eq_ok {height : UInt64} {header : Bytes80} {out : BitcoinHeader}
    (h : t.verifyBitcoin H height header = .ok out) :
    ((header.1.drop 36).take 32, .bitcoin height) ∈ t.timestamp.collect ∧
      ∃ target, targetOf (ofLe32 ((header.1.drop 72).take 4)) = some target ∧
        ¬ target < (H.sha256 (H.sha256 header.1).1).1.reverse := by
  simp only [verifyBitcoin] at h
  split_ifs at h with hlisted
  rw [any_eq_true] at hlisted
  obtain ⟨⟨msg, a⟩, hmem, hx⟩ := hlisted
  simp only [Bool.and_eq_true, decide_eq_true_eq] at hx
  obtain ⟨rfl, rfl⟩ := hx
  split at h
  · cases h
  · next target htarget =>
    split_ifs at h with _ hle
    exact ⟨hmem, target, htarget, hle⟩

/-- After any calls, what a proof lists is reached from the digest it began with; where it is
accepted for a header, the Merkle root is reached so, with an attestation for the height,
and the hash of the header is at most its target. -/
theorem leads_of_run (H : Hashes) {start t : DetachedTimestamp} {calls : List Call}
    (hstart : Starts H start) (hrun : run (step H) start calls = some t) :
    (∀ msg a, (msg, a) ∈ t.timestamp.collect →
      ∃ path, Leads H path start.digest msg ∧ t.timestamp.Shows path a) ∧
    ∀ height header out, t.verifyBitcoin H height header = .ok out →
      (∃ path, Leads H path start.digest ((header.1.drop 36).take 32) ∧
        t.timestamp.Shows path (.bitcoin height)) ∧
      ofBigEndian (H.sha256 (H.sha256 header.1).1).1.reverse ≤
        compactTarget (ofLe32 ((header.1.drop 72).take 4)) := by
  obtain ⟨hfollows, hdigest⟩ := follows_of_run hstart hrun
  have hpath (msg : Bytes) (a : Attestation) (hmem : (msg, a) ∈ t.timestamp.collect) :
      ∃ path, Leads H path start.digest msg ∧ t.timestamp.Shows path a := by
    rw [← hdigest]
    exact hfollows.sound.mem_collect_iff.1 hmem
  refine ⟨hpath, fun height header out h => ?_⟩
  obtain ⟨hmem, target, htarget, hle⟩ := verifyBitcoin_eq_ok h
  obtain ⟨hlength, hvalue⟩ := targetOf_eq_some htarget
  refine ⟨hpath _ _ hmem, ?_⟩
  rw [← hvalue, ← not_lt, ← lt_iff_ofBigEndian_lt]
  · exact hle
  · rw [length_reverse, (H.sha256 _).2, hlength]

/-! ### Block 358391 -/

def blockHeader : Bytes80 where
  val := toBigEndian 80
    0x02000000b96394585a281b7e5f438fd1c9ed492645a1fd61cb3802040000000000000000007ee445d23ad061af4a36b809501fab1ac4f2d7e7a739817dd0cbb7ec661b8a1e376755f58616186272def6
  property := length_toBigEndian 80 _

def blockNonce : Bytes16 :=
  ⟨toBigEndian 16 0x000102030405060708090a0b0c0d0e0f, length_toBigEndian 16 _⟩

/-- What SHA-256 gives for the messages of the step, a commitment and the header. -/
def blockTable : List (Bytes × Bytes32) :=
  stepTable ++
    [(stepDigest.1 ++ blockNonce.1,
        digestOf 0x7cbcf8dbaf745ff5294fd04b8f091827bc4d89670973c42d40862e76f3605e4e),
      (blockHeader.1, digestOf 0x2d70bce7cc43096b98e4b55615eeec9f3548c471de917253e6496c4016dffda8),
      ((digestOf 0x2d70bce7cc43096b98e4b55615eeec9f3548c471de917253e6496c4016dffda8).1,
        digestOf 0x19235ae79e4af0b6987c0544d4067c11dcdc8c1a8892e8030000000000000000)]

def blockCalls : List Call :=
  [.prepareSubmission blockNonce, .mergeCalendarResponse stepDigest.1 stepFile.proof.text]

theorem leads_of_run_block :
    Starts (ofTable blockTable) (new stepDigest) ∧
      ∃ t out, run (step (ofTable blockTable)) (new stepDigest) blockCalls = some t ∧
        t.verifyBitcoin (ofTable blockTable) 358391 blockHeader = .ok out ∧
        out.blockTime = 1432827678 ∧
        (∃ path, Leads (ofTable blockTable) path stepDigest.1 stepRoot.1 ∧
          t.timestamp.Shows path (.bitcoin 358391)) ∧
        0x3e892881a8cdcdc117c06d444057c98b6f04a9ee75a2319 ≤ compactTarget 0x181686f5 := by
  have hstart : Starts (ofTable blockTable) (new stepDigest) := .inl ⟨stepDigest, rfl⟩
  have hverify : ((run (step (ofTable blockTable)) (new stepDigest) blockCalls).bind fun t =>
      (t.verifyBitcoin (ofTable blockTable) 358391 blockHeader).toOption).map
        BitcoinHeader.blockTime = some 1432827678 := rfl
  obtain ⟨out, hout, htime⟩ := Option.map_eq_some_iff.1 hverify
  obtain ⟨t, hrun, hok⟩ := Option.bind_eq_some_iff.1 hout
  replace hok := eq_ok_of_toOption hok
  have hroot : (blockHeader.1.drop 36).take 32 = stepRoot.1 := rfl
  have hbits : ofLe32 ((blockHeader.1.drop 72).take 4) = 0x181686f5 := rfl
  have hhash : ofBigEndian ((ofTable blockTable).sha256
      ((ofTable blockTable).sha256 blockHeader.1).1).1.reverse =
        0x3e892881a8cdcdc117c06d444057c98b6f04a9ee75a2319 := rfl
  have hblock := (leads_of_run (ofTable blockTable) hstart hrun).2 _ _ _ hok
  rw [hroot, hbits, hhash] at hblock
  exact ⟨hstart, t, out, hrun, hok, htime, hblock⟩

end DetachedTimestamp

end Calybris.Ots
