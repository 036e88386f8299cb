import Calybris.Dict.Basic
import Calybris.Ots.Format
import Calybris.Sorted.ByKey
import Calybris.Wal.Entry

/-!
# Timestamp proofs

A node of a proof has a message, the attestations of this message, and the operations that
lead on from it. Nodes are read from a file, which carries operations and not messages,
and proofs of one message are merged: an operation that both have becomes one branch.

What a proof says is which attestations its paths of operations end in: `Shows`. Sorting
says nothing, and a merged proof says what the two say.
-/

namespace Calybris.Ots

open Text Text.ByteOrder Note Parse Sorted Wal List

structure Hashes where
  sha256 : Bytes → Bytes32
  ripemd160 : Bytes → {bytes : Bytes // bytes.length = 20}

def maxDepth : Nat := 256

def maxProofBytes : Nat := 64 * 1024

section

variable (H : Hashes)

/-- The result before its length is checked; `none` for an operation that is not
evaluated. -/
def Op.result : Op → Bytes → Option Bytes
  | .sha256, msg => some (H.sha256 msg).1
  | .ripemd160, msg => some (H.ripemd160 msg).1
  | .append arg, msg => some (msg ++ arg)
  | .prepend arg, msg => some (arg ++ msg)
  | .reverse, msg => some msg.reverse
  | .hexlify, msg => some (bytesToHex msg)
  | .sha1, _ => none
  | .keccak256, _ => none

/-- Applies the operation: `none` where it is not evaluated, or the result is too long. -/
def Op.apply (op : Op) (msg : Bytes) : Option Bytes :=
  (op.result H msg).filter fun out => out.length ≤ maxMsg

def Op.isEvaluated : Op → Bool
  | .sha1 => false
  | .keccak256 => false
  | _ => true

/-- The message of the branch after `op`, empty where `op` is not evaluated. -/
def nextMsg (op : Op) (msg : Bytes) : Except OtsError Bytes :=
  if op.isEvaluated then
    match op.apply H msg with
    | some out => .ok out
    | none => .error (.malformed "operation result exceeds the limit")
  else .ok []

end

theorem nextMsg_sha256 {H : Hashes} (msg : Bytes) :
    nextMsg H .sha256 msg = .ok (H.sha256 msg).1 := by
  simp [nextMsg, Op.isEvaluated, Op.apply, Op.result, Option.filter, (H.sha256 msg).2, maxMsg]

/-- A node of the proof: the message at this point, what attests to it, and the operations
leading on from it. -/
structure Timestamp where
  msg : Bytes
  attestations : List Attestation
  ops : List (Op × Timestamp)

namespace Timestamp

def new (msg : Bytes) : Timestamp := ⟨msg, [], []⟩

def canonicalize (t : Timestamp) : Timestamp :=
  { t with
    attestations := sortBy Attestation.sortKey t.attestations
    ops := sortBy (fun x => x.1.sortKey) t.ops }

def addAttestation (t : Timestamp) (a : Attestation) : Timestamp :=
  if a ∈ t.attestations then t else { t with attestations := t.attestations ++ [a] }

/-- `add_op`, with what is done to the branch where the operation is there. -/
def addOpWith (t : Timestamp) (merged : Timestamp → Timestamp) (op : Op) (child : Timestamp) :
    Timestamp :=
  let child := (Entries.find op t.ops).elim child merged
  { t with ops := Entries.put op child t.ops }.canonicalize

mutual

def merge (t other : Timestamp) : Timestamp :=
  match other with
  | ⟨_, attestations, ops⟩ => (mergeOps (attestations.foldl addAttestation t) ops).canonicalize
termination_by structural other

def mergeOps (t : Timestamp) (ops : List (Op × Timestamp)) : Timestamp :=
  match ops with
  | [] => t
  | (op, child) :: rest =>
    mergeOps (t.addOpWith (fun existing => merge existing child) op child) rest
termination_by structural ops

end

def addOp (t : Timestamp) (op : Op) (child : Timestamp) : Timestamp :=
  t.addOpWith (fun existing => existing.merge child) op child

def joinForks : List Bytes → Bytes
  | [] => []
  | [part] => part
  | part :: parts => tagFork :: (part ++ joinForks parts)

mutual

def write : Timestamp → Bytes
  | ⟨_, attestations, ops⟩ =>
    let attestations := sortBy Attestation.sortKey attestations
    let ops := sortBy (fun x => x.1.sortKey) (writeChildren ops)
    joinForks (attestations.map (fun a => tagAttestation :: a.write) ++
      ops.map fun x => x.1.write ++ x.2)

def writeChildren : List (Op × Timestamp) → List (Op × Bytes)
  | [] => []
  | (op, child) :: rest => (op, write child) :: writeChildren rest

end

mutual

/-- Every attestation with the message it attests to, in tree order, without the branches
that are not evaluated. -/
def collect : Timestamp → List (Bytes × Attestation)
  | ⟨msg, attestations, ops⟩ => attestations.map (fun a => (msg, a)) ++ collectOps ops

def collectOps : List (Op × Timestamp) → List (Bytes × Attestation)
  | [] => []
  | (op, child) :: rest => (if op.isEvaluated then collect child else []) ++ collectOps rest

end

section Read

variable (H : Hashes)

/-- One attestation or operation, whose tag was read, into the node. -/
def readEntry (readChild : Bytes → OtsReader Timestamp) (node : Timestamp) (tag : UInt8) :
    OtsReader Timestamp :=
  if tag = tagAttestation then do
    let att ← readAttestation
    return node.addAttestation att
  else do
    let op ← readOp tag
    let next ← lift (nextMsg H op node.msg)
    let child ← readChild next
    return node.addOp op child

/-- The loop of `read`. Every turn takes a byte, so there are no more turns than bytes. -/
def readEntries (readChild : Bytes → OtsReader Timestamp) : Nat → Timestamp → OtsReader Timestamp
  | 0, _ => throw unexpectedEnd
  | turns + 1, node => do
      let first ← byte
      if first = tagFork then
        let tag ← byte
        let node ← readEntry H readChild node tag
        readEntries readChild turns node
      else
        let node ← readEntry H readChild node first
        return node.canonicalize

/-- Reads the node of a message; `depth` counts the levels that are left. -/
def read : Nat → Bytes → OtsReader Timestamp
  | 0, _ => throw (.malformed "proof nests too deeply")
  | depth + 1, msg => fun s => readEntries H (read depth) s.length (new msg) s

def deserialize (bytes msg : Bytes) : Except OtsError Timestamp :=
  if bytes.length > maxProofBytes then .error (.malformed "proof is too large")
  else runAll (read H maxDepth msg) (.malformed "trailing bytes after the proof") bytes

end Read

/-! ### What a proof says -/

def Shows (t : Timestamp) : List Op → Attestation → Prop
  | [], a => a ∈ t.attestations
  | op :: path, a => ∃ child, (op, child) ∈ t.ops ∧ child.Shows path a

theorem induction {P : Timestamp → Prop} (h : ∀ t : Timestamp, (∀ x ∈ t.ops, P x.2) → P t)
    (t : Timestamp) : P t :=
  @Timestamp.rec P (fun ops => ∀ x ∈ ops, P x.2) (fun x => P x.2)
    (fun msg attestations ops ih => h ⟨msg, attestations, ops⟩ ih) nofun
    (fun _ _ hhead htail => forall_mem_cons.2 ⟨hhead, htail⟩) (fun _ _ hchild => hchild) t

section

variable {t other child : Timestamp} {op : Op} {path : List Op} {a : Attestation}

theorem mergeOps_eq_foldl (t : Timestamp) (ops : List (Op × Timestamp)) :
    mergeOps t ops = ops.foldl (fun t x => t.addOp x.1 x.2) t := by
  induction ops generalizing t with
  | nil => rfl
  | cons x ops ih => exact ih _

theorem merge_eq_canonicalize (t other : Timestamp) :
    t.merge other = (other.ops.foldl (fun t x => t.addOp x.1 x.2)
      (other.attestations.foldl addAttestation t)).canonicalize := by
  obtain ⟨msg, attestations, ops⟩ := other
  rw [merge, mergeOps_eq_foldl]

@[simp] theorem msg_canonicalize : t.canonicalize.msg = t.msg := rfl

@[simp] theorem msg_addAttestation : (t.addAttestation a).msg = t.msg := by
  rw [addAttestation]
  split_ifs <;> rfl

@[simp] theorem msg_addOp : (t.addOp op child).msg = t.msg := rfl

theorem msg_foldl {α : Type} {f : Timestamp → α → Timestamp} (hf : ∀ t x, (f t x).msg = t.msg)
    (l : List α) (t : Timestamp) : (l.foldl f t).msg = t.msg := by
  induction l generalizing t with
  | nil => rfl
  | cons x l ih => rw [foldl_cons, ih, hf]

@[simp] theorem msg_merge : (t.merge other).msg = t.msg := by
  rw [merge_eq_canonicalize, msg_canonicalize, msg_foldl fun _ _ => msg_addOp,
    msg_foldl fun _ _ => msg_addAttestation]

theorem not_shows_new {msg : Bytes} : (new msg).Shows path a ↔ False := by
  cases path <;> simp [Shows, new]

theorem shows_canonicalize : t.canonicalize.Shows path a ↔ t.Shows path a := by
  cases path with
  | nil => exact mem_sortBy
  | cons op path => simp only [Shows, canonicalize, mem_sortBy]

theorem shows_addAttestation {b : Attestation} :
    (t.addAttestation b).Shows path a ↔ t.Shows path a ∨ path = [] ∧ a = b := by
  cases path with
  | nil =>
    rw [addAttestation]
    split_ifs with hmem
    · simp only [Shows, true_and, iff_self_or]
      rintro rfl
      exact hmem
    · simp [Shows]
  | cons op path =>
    rw [addAttestation]
    split_ifs <;> simp [Shows]

theorem shows_addOp (hmerge : ∀ (t : Timestamp) (path : List Op) (a : Attestation),
      (t.merge child).Shows path a ↔ t.Shows path a ∨ child.Shows path a) :
    (t.addOp op child).Shows path a ↔
      t.Shows path a ∨ ∃ rest, path = op :: rest ∧ child.Shows rest a := by
  rw [addOp, addOpWith, shows_canonicalize]
  cases path with
  | nil => simp [Shows]
  | cons first rest =>
    -- the branch that is written says what was there and what is added
    have hbranch : ((Entries.find op t.ops).elim child fun existing => existing.merge child).Shows
        rest a ↔ (∃ old, Entries.find op t.ops = some old ∧ old.Shows rest a) ∨
          child.Shows rest a := by
      cases Entries.find op t.ops with
      | none => simp
      | some old => simp [hmerge]
    simp only [Shows, cons.injEq]
    constructor
    · rintro ⟨c, hmem, hshows⟩
      rcases Entries.mem_of_mem_put hmem with heq | hmem
      · cases heq
        rcases hbranch.1 hshows with ⟨old, hold, hshows⟩ | hshows
        · exact .inl ⟨old, Entries.mem_of_find_eq_some hold, hshows⟩
        · exact .inr ⟨rest, ⟨rfl, rfl⟩, hshows⟩
      · exact .inl ⟨c, hmem, hshows⟩
    · rintro (⟨c, hmem, hshows⟩ | ⟨_, ⟨rfl, rfl⟩, hshows⟩)
      · rcases Entries.mem_put_or op _ hmem with hmem | ⟨hfind, rfl⟩
        · exact ⟨c, hmem, hshows⟩
        · exact ⟨_, Entries.put_self_mem, hbranch.2 (.inl ⟨c, hfind, hshows⟩)⟩
      · exact ⟨_, Entries.put_self_mem, hbranch.2 (.inr hshows)⟩

theorem shows_merge (t other : Timestamp) (path : List Op) (a : Attestation) :
    (t.merge other).Shows path a ↔ t.Shows path a ∨ other.Shows path a := by
  induction other using induction generalizing t path a with
  | h other ih =>
    have hatts (l : List Attestation) (t : Timestamp) :
        (l.foldl addAttestation t).Shows path a ↔ t.Shows path a ∨ path = [] ∧ a ∈ l := by
      induction l generalizing t with
      | nil => simp
      | cons b l ihl =>
        rw [foldl_cons, ihl, shows_addAttestation, mem_cons]
        tauto
    have hops (l : List (Op × Timestamp)) (hl : ∀ x ∈ l, x ∈ other.ops) (t : Timestamp) :
        (l.foldl (fun t x => t.addOp x.1 x.2) t).Shows path a ↔ t.Shows path a ∨
          ∃ x ∈ l, ∃ rest, path = x.1 :: rest ∧ x.2.Shows rest a := by
      induction l generalizing t with
      | nil => simp
      | cons x l ihl =>
        obtain ⟨hx, hl⟩ := forall_mem_cons.1 hl
        rw [foldl_cons, ihl hl, shows_addOp (ih x hx), exists_mem_cons_iff, or_assoc]
    rw [merge_eq_canonicalize, shows_canonicalize, hops _ fun _ h => h, hatts, or_assoc]
    refine or_congr_right ?_
    cases path with
    | nil => simp [Shows]
    | cons op path =>
      simp only [Shows, cons.injEq, reduceCtorEq, false_and, false_or]
      constructor
      · rintro ⟨⟨op', child⟩, hmem, rest, ⟨rfl, rfl⟩, hshows⟩
        exact ⟨child, hmem, hshows⟩
      · rintro ⟨child, hmem, hshows⟩
        exact ⟨(op, child), hmem, path, ⟨rfl, rfl⟩, hshows⟩

end

/-! ### What holds everywhere in a proof -/

/-- Every attestation satisfies `Q`, and every operation `R` with the messages before and
after it. -/
inductive Forall (Q : Attestation → Prop) (R : Bytes → Op → Bytes → Prop) : Timestamp → Prop where
  | node {t : Timestamp} (hatts : ∀ a ∈ t.attestations, Q a)
      (hmsg : ∀ x ∈ t.ops, R t.msg x.1 x.2.msg) (hrest : ∀ x ∈ t.ops, Forall Q R x.2) :
      Forall Q R t

section Forall

variable {Q : Attestation → Prop} {R : Bytes → Op → Bytes → Prop} {t other child : Timestamp}
  {op : Op} {a : Attestation}

theorem forall_new (msg : Bytes) : (new msg).Forall Q R := .node nofun nofun nofun

theorem Forall.canonicalize (h : t.Forall Q R) : t.canonicalize.Forall Q R := by
  obtain ⟨hatts, hmsg, hrest⟩ := h
  exact .node (fun a ha => hatts a (mem_sortBy.1 ha)) (fun x hx => hmsg x (mem_sortBy.1 hx))
    fun x hx => hrest x (mem_sortBy.1 hx)

theorem Forall.addAttestation (h : t.Forall Q R) (ha : Q a) : (t.addAttestation a).Forall Q R := by
  rw [Timestamp.addAttestation]
  split_ifs
  · exact h
  · obtain ⟨hatts, hmsg, hrest⟩ := h
    refine .node (fun b hb => ?_) hmsg hrest
    rcases mem_append.1 hb with hb | hb
    · exact hatts b hb
    · exact mem_singleton.1 hb ▸ ha

theorem Forall.put (h : t.Forall Q R) (hmsg : R t.msg op child.msg) (hchild : child.Forall Q R) :
    ({ t with ops := Entries.put op child t.ops } : Timestamp).Forall Q R := by
  obtain ⟨hatts, hmsgs, hrest⟩ := h
  refine .node hatts (fun x hx => ?_) fun x hx => ?_
  · rcases Entries.mem_of_mem_put hx with rfl | hx
    · exact hmsg
    · exact hmsgs x hx
  · rcases Entries.mem_of_mem_put hx with rfl | hx
    · exact hchild
    · exact hrest x hx

theorem Forall.find (h : t.Forall Q R) (hfind : Entries.find op t.ops = some child) :
    R t.msg op child.msg ∧ child.Forall Q R := by
  obtain ⟨-, hmsg, hrest⟩ := h
  have hmem := Entries.mem_of_find_eq_some hfind
  exact ⟨hmsg _ hmem, hrest _ hmem⟩

section Merge

variable (hR : ∀ {msg op out out'}, R msg op out → R msg op out' → out = out')
include hR

theorem Forall.addOp (h : t.Forall Q R) (hmsg : R t.msg op child.msg) (hchild : child.Forall Q R)
    (hmerge : ∀ s : Timestamp, s.Forall Q R → s.msg = child.msg → (s.merge child).Forall Q R) :
    (t.addOp op child).Forall Q R := by
  rw [Timestamp.addOp, addOpWith]
  cases hfind : Entries.find op t.ops with
  | none => exact (h.put hmsg hchild).canonicalize
  | some existing =>
    obtain ⟨hold, hexisting⟩ := h.find hfind
    refine (h.put ?_ (hmerge existing hexisting (hR hold hmsg))).canonicalize
    rwa [msg_merge]

theorem Forall.merge (h : t.Forall Q R) (hother : other.Forall Q R) (hmsg : t.msg = other.msg) :
    (t.merge other).Forall Q R := by
  induction hother generalizing t with
  | @node other hatts hmsgs hrest ih =>
    rw [merge_eq_canonicalize]
    refine Forall.canonicalize (foldlRecOn
      (motive := fun s : Timestamp => s.Forall Q R ∧ s.msg = t.msg) other.ops _ ⟨?_, ?_⟩ ?_).1
    · exact foldlRecOn (motive := fun s : Timestamp => s.Forall Q R) other.attestations _ h
        fun s hs a ha => hs.addAttestation (hatts a ha)
    · exact msg_foldl (fun _ _ => msg_addAttestation) _ _
    · rintro s ⟨hs, hsmsg⟩ x hx
      refine ⟨hs.addOp hR ?_ (hrest x hx) fun s hs => ih x hx hs, hsmsg⟩
      rw [hsmsg, hmsg]
      exact hmsgs x hx

end Merge

end Forall

end Timestamp

end Calybris.Ots
