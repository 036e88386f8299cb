import Calybris.Ots.Timestamp

/-!
# The syntax of proofs

A proof in a file is a tree of branches: a node has one branch or more, each but the last
after a fork marker, and a branch is an attestation, or an operation with the node it
leads to. Attestations and operations stand there in one of their spellings.

Reading a node is reading its syntax, evaluating it, which fails where an operation fails
or the tree is too deep, and building the node from it: `parses_read`.
-/

namespace Calybris.Ots

open Text Parse List

mutual

/-- An attestation, or an operation and what follows it. -/
inductive Branch where
  | attestation (spelling : Spelling AttestationText)
  | op (spelling : Spelling OpText) (child : Branches)

/-- The branches of a node, of which there is at least one. -/
inductive Branches where
  | last (branch : Branch)
  | fork (branch : Branch) (rest : Branches)

end

mutual

def Branch.text : Branch → Bytes
  | .attestation spelling => tagAttestation :: spelling.text
  | .op spelling child => spelling.text ++ child.text

def Branches.text : Branches → Bytes
  | .last branch => branch.text
  | .fork branch rest => tagFork :: (branch.text ++ rest.text)

end

mutual

def Branch.Shows : Branch → List Op → Attestation → Prop
  | .attestation spelling, path, a => path = [] ∧ a = spelling.value
  | .op spelling child, path, a => ∃ rest, path = spelling.value :: rest ∧ child.Shows rest a

def Branches.Shows : Branches → List Op → Attestation → Prop
  | .last branch, path, a => branch.Shows path a
  | .fork branch rest, path, a => branch.Shows path a ∨ rest.Shows path a

end

section Read

variable (H : Hashes)

mutual

/-- Every operation has a result, from the message on, and the levels suffice. -/
def Branch.Evaluates : Branch → Nat → Bytes → Prop
  | .attestation _, _, _ => True
  | .op spelling child, depth, msg =>
    ∃ next, nextMsg H spelling.value msg = .ok next ∧ child.Evaluates depth next

@[inherit_doc Branch.Evaluates]
def Branches.Evaluates : Branches → Nat → Bytes → Prop
  | _, 0, _ => False
  | .last branch, depth + 1, msg => branch.Evaluates depth msg
  | .fork branch rest, depth + 1, msg =>
    branch.Evaluates depth msg ∧ rest.Evaluates (depth + 1) msg

end

def msgAfter (op : Op) (msg : Bytes) : Bytes := (nextMsg H op msg).toOption.getD []

mutual

def Branch.addTo : Branch → Timestamp → Timestamp
  | .attestation spelling, node => node.addAttestation spelling.value
  | .op spelling child, node =>
    node.addOp spelling.value (child.build (.new (msgAfter H spelling.value node.msg)))

def Branches.build : Branches → Timestamp → Timestamp
  | .last branch, node => (branch.addTo node).canonicalize
  | .fork branch rest, node => rest.build (branch.addTo node)

end

variable {H}

@[simp] theorem Branch.msg_addTo (branch : Branch) (node : Timestamp) :
    (branch.addTo H node).msg = node.msg := by
  cases branch with
  | attestation spelling => exact Timestamp.msg_addAttestation
  | op spelling child => rfl

@[simp] theorem Branches.msg_build (p : Branches) (node : Timestamp) :
    (p.build H node).msg = node.msg := by
  match p with
  | .last branch => exact branch.msg_addTo node
  | .fork branch rest => exact (rest.msg_build _).trans (branch.msg_addTo node)

theorem Op.tag_ne (op : Op) : op.tag ≠ tagAttestation ∧ op.tag ≠ tagFork := by
  cases op <;> simp [Op.tag, tagAttestation, tagFork]

theorem Branch.exists_text_eq_cons (branch : Branch) :
    ∃ tag text, branch.text = tag :: text ∧ tag ≠ tagFork := by
  cases branch with
  | attestation spelling => exact ⟨tagAttestation, spelling.text, rfl, by decide⟩
  | op spelling child =>
    obtain ⟨arg, harg, -⟩ := spelling.spells
    exact ⟨_, _, by rw [Branch.text, harg]; rfl, (Op.tag_ne _).2⟩

theorem Branches.text_ne_nil (p : Branches) : p.text ≠ [] := by
  cases p with
  | last branch =>
    obtain ⟨tag, text, htext, -⟩ := branch.exists_text_eq_cons
    rw [Branches.text, htext]
    exact cons_ne_nil _ _
  | fork branch rest => exact cons_ne_nil _ _

def NodeText (H : Hashes) (depth : Nat) (node : Timestamp) (text : Bytes) (t : Timestamp) : Prop :=
  ∃ p : Branches, text = p.text ∧ p.Evaluates H depth node.msg ∧ t = p.build H node

theorem parses_readEntry {depth : Nat} {readChild : Bytes → OtsReader Timestamp}
    (hchild : ∀ msg, Parses (readChild msg) (NodeText H depth (.new msg))) (node : Timestamp)
    (tag : UInt8) :
    Parses (Timestamp.readEntry H readChild node tag) fun text t =>
      ∃ branch : Branch, tag :: text = branch.text ∧ branch.Evaluates H depth node.msg ∧
        t = branch.addTo H node := by
  rw [Timestamp.readEntry]
  split_ifs with htag
  · subst htag
    refine (parses_readAttestation.bind fun a => parses_pure).congr fun text t => ?_
    constructor
    · rintro ⟨a, spelled, _, rfl, hspelled, rfl, rfl⟩
      rw [append_nil]
      exact ⟨.attestation ⟨spelled, a, hspelled⟩, rfl, trivial, rfl⟩
    · rintro ⟨branch, htext, -, rfl⟩
      cases branch with
      | attestation spelling =>
        obtain ⟨-, rfl⟩ := List.cons.inj htext
        exact ⟨spelling.value, spelling.text, [], (append_nil _).symm, spelling.spells, rfl, rfl⟩
      | op spelling child =>
        obtain ⟨arg, harg, -⟩ := spelling.spells
        rw [Branch.text, harg] at htext
        exact absurd (List.cons.inj htext).1.symm (Op.tag_ne _).1
  · refine ((parses_readOp tag).bind fun op => parses_lift.bind fun next =>
      (hchild next).bind fun child => parses_pure).congr fun text t => ?_
    constructor
    · rintro ⟨op, arg, _, rfl, ⟨rfl, harg⟩, next, _, _, rfl, ⟨rfl, hnext⟩, child, _, _, rfl,
        ⟨p, rfl, hp, rfl⟩, rfl, rfl⟩
      refine ⟨.op ⟨op.tag :: arg, op, arg, rfl, harg⟩ p, ?_, ⟨next, hnext, hp⟩, ?_⟩
      · simp [Branch.text]
      · simp [Branch.addTo, msgAfter, hnext, Except.toOption]
    · rintro ⟨branch, htext, heval, rfl⟩
      cases branch with
      | attestation spelling => exact absurd (List.cons.inj htext).1 htag
      | op spelling child =>
        obtain ⟨spelled, op, arg, rfl, harg⟩ := spelling
        obtain ⟨next, hnext, hp⟩ := heval
        obtain ⟨rfl, rfl⟩ := List.cons.inj htext
        refine ⟨op, arg, child.text, rfl, ⟨rfl, harg⟩, next, [], child.text, rfl, ⟨rfl, hnext⟩,
          child.build H (.new next), child.text, [], (append_nil _).symm,
          ⟨child, rfl, hp, rfl⟩, rfl, ?_⟩
        simp [Branch.addTo, msgAfter, hnext, Except.toOption]

theorem readEntries_eq_ok_iff {depth : Nat} {readChild : Bytes → OtsReader Timestamp}
    (hchild : ∀ msg, Parses (readChild msg) (NodeText H depth (.new msg))) {turns : Nat}
    {node t : Timestamp} {s rest : Bytes} (hturns : s.length ≤ turns) :
    Timestamp.readEntries H readChild turns node s = .ok (t, rest) ↔
      ∃ text, s = text ++ rest ∧ NodeText H (depth + 1) node text t := by
  induction turns generalizing node s with
  | zero =>
    obtain rfl : s = [] := eq_nil_of_length_eq_zero (by omega)
    refine iff_of_false nofun ?_
    rintro ⟨text, htext, p, rfl, -⟩
    exact absurd (append_eq_nil_iff.1 htext.symm).1 p.text_ne_nil
  | succ turns ih =>
    have hentry := parses_readEntry hchild node
    rw [Timestamp.readEntries, bind_eq_ok_iff]
    constructor
    · rintro ⟨first, s', hfirst, h⟩
      obtain ⟨_, rfl, rfl⟩ := parses_byte.ok_iff.1 hfirst
      rw [length_append, length_singleton] at hturns
      split_ifs at h with hfork
      · subst hfork
        obtain ⟨tag, s₁, htag, hbind⟩ := bind_eq_ok_iff.1 h
        obtain ⟨next, s₂, hread, hloop⟩ := bind_eq_ok_iff.1 hbind
        obtain ⟨_, rfl, rfl⟩ := parses_byte.ok_iff.1 htag
        obtain ⟨text, rfl, branch, hbranch, heval, rfl⟩ := (hentry tag).ok_iff.1 hread
        simp only [length_append, length_singleton] at hturns
        obtain ⟨_, rfl, p, rfl, hp, rfl⟩ := (ih (by omega)).1 hloop
        rw [Branch.msg_addTo] at hp
        refine ⟨tagFork :: (branch.text ++ p.text), ?_, .fork branch p, rfl, ⟨heval, hp⟩, rfl⟩
        simp [← hbranch]
      · obtain ⟨next, s₁, hread, hpure⟩ := bind_eq_ok_iff.1 h
        obtain ⟨text, rfl, branch, hbranch, heval, rfl⟩ := (hentry first).ok_iff.1 hread
        obtain ⟨rfl, rfl⟩ := pure_eq_ok_iff.1 hpure
        exact ⟨branch.text, by simp [← hbranch], .last branch, rfl, heval, rfl⟩
    · rintro ⟨_, rfl, p, rfl, heval, rfl⟩
      cases p with
      | last branch =>
        obtain ⟨tag, text, htext, hfork⟩ := branch.exists_text_eq_cons
        refine ⟨tag, text ++ rest, ?_, ?_⟩
        · rw [Branches.text, htext]
          rfl
        · rw [if_neg hfork, bind_eq_ok_iff]
          exact ⟨branch.addTo H node, rest,
            (hentry tag).ok_iff.2 ⟨text, rfl, branch, htext.symm, heval, rfl⟩, rfl⟩
      | fork branch p =>
        obtain ⟨tag, text, htext, -⟩ := branch.exists_text_eq_cons
        have hs : (Branches.fork branch p).text ++ rest =
            tagFork :: tag :: (text ++ (p.text ++ rest)) := by simp [Branches.text, htext]
        rw [hs] at hturns ⊢
        simp only [length_cons, length_append] at hturns
        refine ⟨tagFork, _, rfl, ?_⟩
        rw [if_pos rfl, bind_eq_ok_iff]
        refine ⟨tag, _, rfl, bind_eq_ok_iff.2 ⟨branch.addTo H node, p.text ++ rest,
          (hentry tag).ok_iff.2 ⟨text, rfl, branch, htext.symm, heval.1, rfl⟩, ?_⟩⟩
        refine (ih (by rw [length_append]; omega)).2 ⟨p.text, rfl, p, rfl, ?_, rfl⟩
        rw [Branch.msg_addTo]
        exact heval.2

theorem parses_read (depth : Nat) (msg : Bytes) :
    Parses (Timestamp.read H depth msg) (NodeText H depth (.new msg)) := by
  induction depth generalizing msg with
  | zero =>
    refine parses_throw.congr fun text t => iff_of_false id ?_
    rintro ⟨p, -, hp, -⟩
    cases p <;> exact hp
  | succ depth ih => exact ⟨readEntries_eq_ok_iff ih le_rfl⟩

end Read

section Unambiguous

theorem parses_op : Parses (byte >>= readOp) OpText := by
  refine (parses_byte.bind parses_readOp).congr fun text op => ?_
  constructor
  · rintro ⟨_, _, t, rfl, rfl, rfl, harg⟩
    exact ⟨t, rfl, harg⟩
  · rintro ⟨t, rfl, harg⟩
    exact ⟨op.tag, [op.tag], t, rfl, rfl, rfl, harg⟩

theorem attestation_text_ne {spelling : Spelling AttestationText} {spelling' : Spelling OpText}
    {child : Branches} {rest rest' : Bytes} :
    (Branch.attestation spelling).text ++ rest ≠ (Branch.op spelling' child).text ++ rest' := by
  obtain ⟨arg, harg, -⟩ := spelling'.spells
  rw [Branch.text, Branch.text, harg]
  exact fun h => (Op.tag_ne _).1 (List.cons.inj h).1.symm

theorem Branch.text_ne_fork {branch branch' : Branch} {p : Branches} {rest rest' : Bytes} :
    branch.text ++ rest ≠ (Branches.fork branch' p).text ++ rest' := by
  obtain ⟨tag, text, htext, htag⟩ := branch.exists_text_eq_cons
  rw [htext]
  exact fun h => htag (List.cons.inj h).1

mutual

theorem Branch.text_inj {branch branch' : Branch} {rest rest' : Bytes}
    (h : branch.text ++ rest = branch'.text ++ rest') : branch = branch' ∧ rest = rest' := by
  match branch, branch' with
  | .attestation spelling, .attestation spelling' =>
    obtain ⟨rfl, hrest⟩ := parses_readAttestation.spelling_inj (List.cons.inj h).2
    exact ⟨rfl, hrest⟩
  | .attestation spelling, .op spelling' child' => exact absurd h attestation_text_ne
  | .op spelling child, .attestation spelling' => exact absurd h.symm attestation_text_ne
  | .op spelling child, .op spelling' child' =>
    rw [Branch.text, Branch.text, append_assoc, append_assoc] at h
    obtain ⟨rfl, hchild⟩ := parses_op.spelling_inj h
    obtain ⟨rfl, hrest⟩ := Branches.text_inj hchild
    exact ⟨rfl, hrest⟩

theorem Branches.text_inj {p p' : Branches} {rest rest' : Bytes}
    (h : p.text ++ rest = p'.text ++ rest') : p = p' ∧ rest = rest' := by
  match p, p' with
  | .last branch, .last branch' =>
    obtain ⟨rfl, hrest⟩ := Branch.text_inj h
    exact ⟨rfl, hrest⟩
  | .last branch, .fork branch' p' => exact absurd h Branch.text_ne_fork
  | .fork branch p, .last branch' => exact absurd h.symm Branch.text_ne_fork
  | .fork branch p, .fork branch' p' =>
    rw [Branches.text, Branches.text, cons_append, cons_append, append_assoc, append_assoc] at h
    obtain ⟨rfl, hp⟩ := Branch.text_inj (List.cons.inj h).2
    obtain ⟨rfl, hrest⟩ := Branches.text_inj hp
    exact ⟨rfl, hrest⟩

end

end Unambiguous

end Calybris.Ots
