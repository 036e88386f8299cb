import Calybris.Ots.Syntax

/-!
# Canonical proofs

A proof that was read is in order: attestations and operations are sorted and not
repeated, every branch ends in an attestation, and the levels are bounded. Such a proof is
determined by its message and by what it shows, so two syntax trees that show the same are
read as one proof.

What is written of a proof in order is the text of a syntax tree that shows the same, and
no text of the proof is shorter: in `weight` every branch counts with its fork marker, and
no branch that is merged adds more than it weighs.
-/

namespace Calybris.Ots

open Text Text.ByteOrder Parse Sorted List Timestamp Branches

namespace Timestamp

/-! ### Proofs in order -/

def Attests (t : Timestamp) : Prop := ∃ path a, t.Shows path a

/-- The branches of a node are in order, though not sorted. -/
structure Collected (Ordered : Timestamp → Prop) (t : Timestamp) : Prop where
  attestations : t.attestations.Nodup
  ops : (t.ops.map Prod.fst).Nodup
  ordered : ∀ x ∈ t.ops, Ordered x.2
  attests : ∀ x ∈ t.ops, x.2.Attests

/-- A proof in order, of so many levels at most. -/
def Ordered : Nat → Timestamp → Prop
  | 0, _ => False
  | depth + 1, t => t.Collected (Ordered depth) ∧ Ascending Attestation.sortKey t.attestations ∧
      Ascending (fun x => x.1.sortKey) t.ops

section

variable {depth : Nat} {t other child : Timestamp} {op : Op} {a : Attestation}

theorem Ordered.mono {depth' : Nat} (h : Ordered depth t) (hle : depth ≤ depth') :
    Ordered depth' t := by
  induction depth generalizing depth' t with
  | zero => exact h.elim
  | succ depth ih =>
    obtain ⟨d, rfl⟩ := Nat.exists_eq_add_of_le' (Nat.le_of_add_left_le hle)
    obtain ⟨hcollected, hsorted⟩ := h
    exact ⟨{ hcollected with
      ordered := fun x hx => ih (hcollected.ordered x hx) (Nat.le_of_add_le_add_right hle) },
    hsorted⟩

theorem Ordered.iff_length_lt (h : Ordered depth t) (hattests : t.Attests) {levels : Nat} :
    Ordered levels t ↔ ∀ path a, t.Shows path a → path.length < levels := by
  induction depth generalizing t levels with
  | zero => exact h.elim
  | succ depth ih =>
    obtain ⟨hcollected, hsorted⟩ := h
    cases levels with
    | zero =>
      obtain ⟨path, a, hshows⟩ := hattests
      exact iff_of_false id fun hlt => absurd (hlt path a hshows) (Nat.not_lt_zero _)
    | succ levels =>
      constructor
      · intro hlevels path a hshows
        cases path with
        | nil => exact Nat.succ_pos _
        | cons op path =>
          obtain ⟨child, hchild, hshows⟩ := hshows
          exact Nat.succ_lt_succ ((ih (hcollected.ordered _ hchild) (hcollected.attests _ hchild)).1
            (hlevels.1.ordered _ hchild) path a hshows)
      · intro hlt
        refine ⟨{ hcollected with ordered := fun x hx => ?_ }, hsorted⟩
        refine (ih (hcollected.ordered x hx) (hcollected.attests x hx)).2 fun path a hshows => ?_
        exact Nat.lt_of_succ_lt_succ (hlt (x.1 :: path) a ⟨x.2, hx, hshows⟩)

theorem collected_new (depth : Nat) (msg : Bytes) : (new msg).Collected (Ordered depth) where
  attestations := nodup_nil
  ops := nodup_nil
  ordered := nofun
  attests := nofun

section

variable (h : t.Collected (Ordered depth))

include h

theorem Collected.addAttestation (a : Attestation) :
    (t.addAttestation a).Collected (Ordered depth) := by
  rw [Timestamp.addAttestation]
  split_ifs with hmem
  · exact h
  · refine { h with attestations := ?_ }
    exact nodup_append.2 ⟨h.attestations, nodup_singleton a, fun b hb c hc hbc =>
      hmem (mem_singleton.1 hc ▸ hbc ▸ hb)⟩

theorem Collected.canonicalize : Ordered (depth + 1) t.canonicalize := by
  refine ⟨⟨?_, ?_, fun x hx => h.ordered x (mem_sortBy.1 hx),
    fun x hx => h.attests x (mem_sortBy.1 hx)⟩, ascending_sortBy _, ascending_sortBy _⟩
  · exact (sortBy_perm _).nodup_iff.2 h.attestations
  · exact ((sortBy_perm _).map _).nodup_iff.2 h.ops

theorem Collected.put (hchild : Ordered depth child) (hattests : child.Attests) :
    ({ t with ops := Entries.put op child t.ops } : Timestamp).Collected (Ordered depth) where
  attestations := h.attestations
  ops := Entries.nodup_keys_put h.ops
  ordered x hx := by
    rcases Entries.mem_of_mem_put hx with rfl | hx
    · exact hchild
    · exact h.ordered x hx
  attests x hx := by
    rcases Entries.mem_of_mem_put hx with rfl | hx
    · exact hattests
    · exact h.attests x hx

theorem Collected.addOp (hchild : Ordered depth child) (hattests : child.Attests)
    (hmerge : ∀ s : Timestamp, Ordered depth s → Ordered depth (s.merge child)) :
    Ordered (depth + 1) (t.addOp op child) := by
  rw [Timestamp.addOp, addOpWith]
  cases hfind : Entries.find op t.ops with
  | none => exact (h.put hchild hattests).canonicalize
  | some existing =>
    have hmem := Entries.mem_of_find_eq_some hfind
    obtain ⟨path, a, hshows⟩ := hattests
    exact (h.put (hmerge existing (h.ordered _ hmem))
      ⟨path, a, (shows_merge _ _ _ _).2 (.inr hshows)⟩).canonicalize

theorem Collected.merge (hother : Ordered (depth + 1) other) :
    Ordered (depth + 1) (t.merge other) := by
  induction other using induction generalizing t depth with
  | h other ih =>
    rw [merge_eq_canonicalize]
    refine Collected.canonicalize (List.foldlRecOn
      (motive := fun s : Timestamp => s.Collected (Ordered depth)) other.ops _ ?_ ?_)
    · exact List.foldlRecOn (motive := fun s : Timestamp => s.Collected (Ordered depth))
        other.attestations _ h fun s hs a _ => hs.addAttestation a
    · intro s hs x hx
      have hchild := hother.1.ordered x hx
      refine (hs.addOp hchild (hother.1.attests x hx) fun s' hs' => ?_).1
      cases depth with
      | zero => exact hs'.elim
      | succ depth => exact ih x hx hs'.1 hchild

end

end

end Timestamp

/-! ### What is built from syntax -/

def Timestamp.Sound (H : Hashes) : Timestamp → Prop :=
  Timestamp.Forall (fun a => ∃ text, AttestationText text a)
    fun msg op out => nextMsg H op msg = .ok out ∧ ∃ text, OpText text op

section Build

variable {H : Hashes}

theorem Timestamp.Sound.merge {t other : Timestamp} (h : t.Sound H) (hother : other.Sound H)
    (hmsg : t.msg = other.msg) : (t.merge other).Sound H :=
  Forall.merge (fun hout hout' => Except.ok.inj (hout.1.symm.trans hout'.1)) h hother hmsg

theorem Timestamp.Sound.addOp {t child : Timestamp} {op : Op} (h : t.Sound H)
    (hchild : child.Sound H) (hmsg : nextMsg H op t.msg = .ok child.msg)
    (hop : ∃ text, OpText text op) : (t.addOp op child).Sound H :=
  Forall.addOp (fun hout hout' => Except.ok.inj (hout.1.symm.trans hout'.1)) h ⟨hmsg, hop⟩ hchild
    fun _ hs => Timestamp.Sound.merge hs hchild

theorem msgAfter_eq {op : Op} {msg next : Bytes} (h : nextMsg H op msg = .ok next) :
    msgAfter H op msg = next := by
  simp [msgAfter, h, Except.toOption]

theorem Branches.Evaluates.exists_depth {p : Branches} {depth : Nat} {msg : Bytes}
    (h : p.Evaluates H depth msg) : ∃ d, depth = d + 1 := by
  cases depth with
  | zero => cases p <;> exact h.elim
  | succ d => exact ⟨d, rfl⟩

mutual

theorem Branch.exists_shows : ∀ branch : Branch, ∃ path a, branch.Shows path a
  | .attestation spelling => ⟨[], spelling.value, rfl, rfl⟩
  | .op spelling child => by
      obtain ⟨path, a, h⟩ := child.exists_shows
      exact ⟨spelling.value :: path, a, path, rfl, h⟩

theorem Branches.exists_shows : ∀ p : Branches, ∃ path a, p.Shows path a
  | .last branch => branch.exists_shows
  | .fork branch _ => by
      obtain ⟨path, a, h⟩ := branch.exists_shows
      exact ⟨path, a, .inl h⟩

end

mutual

theorem Branch.shows_addTo (branch : Branch) (node : Timestamp) (path : List Op)
    (a : Attestation) :
    (branch.addTo H node).Shows path a ↔ node.Shows path a ∨ branch.Shows path a := by
  cases branch with
  | attestation spelling => exact shows_addAttestation
  | op spelling child =>
    rw [Branch.addTo, shows_addOp fun t => t.shows_merge _]
    simp only [Branch.Shows, child.shows_build, not_shows_new, false_or]

theorem Branches.shows_build (p : Branches) (node : Timestamp) (path : List Op)
    (a : Attestation) :
    (p.build H node).Shows path a ↔ node.Shows path a ∨ p.Shows path a := by
  cases p with
  | last branch => rw [build, shows_canonicalize, branch.shows_addTo]; rfl
  | fork branch rest => rw [build, rest.shows_build, branch.shows_addTo, or_assoc]; rfl

end

mutual

theorem Branch.sound_addTo (branch : Branch) {depth : Nat} {node : Timestamp} (h : node.Sound H)
    (heval : branch.Evaluates H depth node.msg) : (branch.addTo H node).Sound H := by
  cases branch with
  | attestation spelling => exact h.addAttestation ⟨_, spelling.spells⟩
  | op spelling child =>
    obtain ⟨next, hnext, hchild⟩ := heval
    rw [Branch.addTo, msgAfter_eq hnext]
    exact h.addOp (child.sound_build (forall_new _) hchild)
      (hnext.trans (by rw [msg_build]; rfl)) ⟨_, spelling.spells⟩

theorem Branches.sound_build (p : Branches) {depth : Nat} {node : Timestamp} (h : node.Sound H)
    (heval : p.Evaluates H depth node.msg) : (p.build H node).Sound H := by
  obtain ⟨d, rfl⟩ := heval.exists_depth
  cases p with
  | last branch => exact (branch.sound_addTo h heval).canonicalize
  | fork branch rest =>
    have hrest : rest.Evaluates H (d + 1) (branch.addTo H node).msg := by
      rw [Branch.msg_addTo]
      exact heval.2
    exact rest.sound_build (branch.sound_addTo h heval.1) hrest

end

mutual

theorem Branch.collected_addTo (branch : Branch) {depth : Nat} {node : Timestamp}
    (h : node.Collected (Timestamp.Ordered depth)) (heval : branch.Evaluates H depth node.msg) :
    (branch.addTo H node).Collected (Timestamp.Ordered depth) := by
  cases branch with
  | attestation spelling => exact h.addAttestation _
  | op spelling child =>
    obtain ⟨next, hnext, hchild⟩ := heval
    obtain ⟨d, rfl⟩ := hchild.exists_depth
    obtain ⟨path, a, hshows⟩ := child.exists_shows
    rw [Branch.addTo, msgAfter_eq hnext]
    have hbuild := child.ordered_build (collected_new d next) hchild
    exact (h.addOp hbuild ⟨path, a, (child.shows_build _ _ _).2 (.inr hshows)⟩
      fun s hs => hs.1.merge hbuild).1

theorem Branches.ordered_build (p : Branches) {depth : Nat} {node : Timestamp}
    (h : node.Collected (Timestamp.Ordered depth)) (heval : p.Evaluates H (depth + 1) node.msg) :
    Timestamp.Ordered (depth + 1) (p.build H node) := by
  cases p with
  | last branch => exact (branch.collected_addTo h heval).canonicalize
  | fork branch rest =>
    refine rest.ordered_build (branch.collected_addTo h heval.1) ?_
    rw [Branch.msg_addTo]
    exact heval.2

end

end Build

/-! ### What determines a proof -/

namespace Timestamp

section Ext

variable {H : Hashes} {depth depth' : Nat} {t t' child child' : Timestamp} {op : Op}
  {path : List Op} {a : Attestation}

section

variable (h : t.Collected (Ordered depth))

include h

theorem Collected.child_eq (hchild : (op, child) ∈ t.ops) (hchild' : (op, child') ∈ t.ops) :
    child = child' := by
  rw [← Entries.find_eq_some h.ops] at hchild hchild'
  exact Option.some.inj (hchild.symm.trans hchild')

theorem Collected.shows_cons_iff (hchild : (op, child) ∈ t.ops) :
    t.Shows (op :: path) a ↔ child.Shows path a := by
  constructor
  · rintro ⟨child', hchild', hshows⟩
    rwa [h.child_eq hchild hchild']
  · intro hshows
    exact ⟨child, hchild, hshows⟩

theorem Collected.exists_mem_ops (hshows : ∀ path a, t.Shows path a ↔ t'.Shows path a)
    (hchild : (op, child) ∈ t.ops) : ∃ child', (op, child') ∈ t'.ops := by
  obtain ⟨path, a, hpath⟩ := h.attests _ hchild
  obtain ⟨child', hchild', -⟩ := (hshows (op :: path) a).1 ⟨child, hchild, hpath⟩
  exact ⟨child', hchild'⟩

end

/-- A proof in order is determined by its message and what it shows. -/
theorem Ordered.ext (h : Ordered depth t) (h' : Ordered depth' t') (hsound : t.Sound H)
    (hsound' : t'.Sound H) (hmsg : t.msg = t'.msg)
    (hshows : ∀ path a, t.Shows path a ↔ t'.Shows path a) : t = t' := by
  induction depth generalizing depth' t t' with
  | zero => exact h.elim
  | succ depth ih =>
    cases depth' with
    | zero => exact h'.elim
    | succ depth' =>
      obtain ⟨hcollected, hatts, hops⟩ := h
      obtain ⟨hcollected', hatts', hops'⟩ := h'
      obtain ⟨hspelled, hmsgs, hrest⟩ := hsound
      obtain ⟨hspelled', hmsgs', hrest'⟩ := hsound'
      have hattestations : t.attestations = t'.attestations := by
        refine eq_of_mem_iff hatts hatts' hcollected.attestations hcollected'.attestations
          (fun a ha b hb hkey => ?_) fun a => hshows [] a
        obtain ⟨text, htext⟩ := hspelled a ha
        obtain ⟨text', htext'⟩ := hspelled' b hb
        exact eq_of_sortKey_eq htext htext' hkey
      have hchild {op : Op} {child child' : Timestamp} (hc : (op, child) ∈ t.ops)
          (hc' : (op, child') ∈ t'.ops) : child = child' := by
        refine ih (hcollected.ordered _ hc) (hcollected'.ordered _ hc') (hrest _ hc)
          (hrest' _ hc') ?_ fun path a => ?_
        · have hnext := (hmsgs _ hc).1
          rw [hmsg, (hmsgs' _ hc').1] at hnext
          exact (Except.ok.inj hnext).symm
        · rw [← hcollected.shows_cons_iff hc, ← hcollected'.shows_cons_iff hc', hshows]
      have hbranches : t.ops = t'.ops := by
        refine eq_of_mem_iff hops hops' hcollected.ops.of_map hcollected'.ops.of_map ?_ ?_
        · rintro ⟨op, child⟩ hc ⟨op', child'⟩ hc' hkey
          obtain rfl := Op.sortKey_injective hkey
          rw [hchild hc hc']
        · rintro ⟨op, child⟩
          constructor
          · intro hc
            obtain ⟨child', hc'⟩ := hcollected.exists_mem_ops hshows hc
            rwa [hchild hc hc']
          · intro hc'
            obtain ⟨child', hc⟩ :=
              hcollected'.exists_mem_ops (fun path a => (hshows path a).symm) hc'
            rwa [← hchild hc hc']
      cases t
      cases t'
      simp only at hmsg hattestations hbranches
      rw [hmsg, hattestations, hbranches]

end Ext

/-- A proof as it is read: in order, its messages follow, and something is attested. -/
structure Proper (H : Hashes) (depth : Nat) (t : Timestamp) : Prop where
  ordered : Ordered depth t
  sound : t.Sound H
  attests : t.Attests

section Proper

variable {H : Hashes} {depth depth' : Nat} {t t' : Timestamp}

theorem Proper.ext (h : t.Proper H depth) (h' : t'.Proper H depth') (hmsg : t.msg = t'.msg)
    (hshows : ∀ path a, t.Shows path a ↔ t'.Shows path a) : t = t' :=
  h.ordered.ext h'.ordered h.sound h'.sound hmsg hshows

theorem shows_build_new (p : Branches) (msg : Bytes) (path : List Op) (a : Attestation) :
    (p.build H (.new msg)).Shows path a ↔ p.Shows path a := by
  rw [p.shows_build]
  exact or_iff_right not_shows_new.1

theorem proper_build {p : Branches} {msg : Bytes} (h : p.Evaluates H (depth + 1) msg) :
    (p.build H (.new msg)).Proper H (depth + 1) where
  ordered := p.ordered_build (collected_new _ _) h
  sound := p.sound_build (forall_new _) h
  attests := by
    obtain ⟨path, a, hshows⟩ := p.exists_shows
    exact ⟨path, a, (shows_build_new p msg path a).2 hshows⟩

end Proper

end Timestamp

/-! ### What is written -/

def Branches.ofList (branch : Branch) : List Branch → Branches
  | [] => .last branch
  | next :: l => .fork branch (ofList next l)

section Write

variable {H : Hashes}

theorem Branches.text_ofList (branch : Branch) (l : List Branch) :
    (ofList branch l).text = joinForks ((branch :: l).map Branch.text) := by
  induction l generalizing branch with
  | nil => rfl
  | cons next l ih => rw [ofList, text, ih]; rfl

theorem Branches.shows_ofList (branch : Branch) (l : List Branch) (path : List Op)
    (a : Attestation) :
    (ofList branch l).Shows path a ↔ ∃ x ∈ branch :: l, x.Shows path a := by
  induction l generalizing branch with
  | nil => simp [ofList, Branches.Shows]
  | cons next l ih => rw [ofList, Branches.Shows, ih, exists_mem_cons_iff (l := next :: l)]

theorem Branches.evaluates_ofList (branch : Branch) (l : List Branch) (depth : Nat)
    (msg : Bytes) :
    (ofList branch l).Evaluates H (depth + 1) msg ↔
      ∀ x ∈ branch :: l, x.Evaluates H depth msg := by
  induction l generalizing branch with
  | nil => simp [ofList, Branches.Evaluates]
  | cons next l ih => rw [ofList, Branches.Evaluates, ih, forall_mem_cons (l := next :: l)]

theorem exists_branch_list {depth : Nat} {msg : Bytes}
    {parts : List (Bytes × (List Op → Attestation → Prop))}
    (h : ∀ part ∈ parts, ∃ x : Branch, x.text = part.1 ∧ x.Evaluates H depth msg ∧
      ∀ path a, x.Shows path a ↔ part.2 path a) :
    ∃ l : List Branch, l.map Branch.text = parts.map Prod.fst ∧
      (∀ x ∈ l, x.Evaluates H depth msg) ∧
      ∀ path a, (∃ x ∈ l, x.Shows path a) ↔ ∃ part ∈ parts, part.2 path a := by
  induction parts with
  | nil => exact ⟨[], rfl, nofun, fun path a => by simp⟩
  | cons part parts ih =>
    obtain ⟨⟨x, htext, heval, hshows⟩, hrest⟩ := forall_mem_cons.1 h
    obtain ⟨l, htexts, hevals, hall⟩ := ih hrest
    refine ⟨x :: l, by rw [map_cons, htext, htexts, map_cons],
      forall_mem_cons.2 ⟨heval, hevals⟩, fun path a => ?_⟩
    rw [exists_mem_cons_iff, exists_mem_cons_iff, hshows, hall]

namespace Timestamp

def parts (t : Timestamp) : List (Bytes × (List Op → Attestation → Prop)) :=
  t.attestations.map (fun a => (tagAttestation :: a.write, fun path b => path = [] ∧ b = a)) ++
    t.ops.map fun x => (x.1.write ++ x.2.write,
      fun path b => ∃ rest, path = x.1 :: rest ∧ x.2.Shows rest b)

theorem exists_parts_iff {t : Timestamp} {path : List Op} {a : Attestation} :
    (∃ part ∈ t.parts, part.2 path a) ↔ t.Shows path a := by
  simp only [parts, mem_append, mem_map, or_and_right, exists_or, exists_exists_and_eq_and]
  cases path with
  | nil => simp [Shows]
  | cons op path =>
    simp only [Shows, reduceCtorEq, false_and, and_false, exists_false, false_or,
      List.cons.injEq, Prod.exists]
    constructor
    · rintro ⟨_, child, hmem, _, ⟨rfl, rfl⟩, hshows⟩
      exact ⟨child, hmem, hshows⟩
    · rintro ⟨child, hmem, hshows⟩
      exact ⟨op, child, hmem, path, ⟨rfl, rfl⟩, hshows⟩

theorem writeChildren_eq_map (ops : List (Op × Timestamp)) :
    writeChildren ops = ops.map fun x => (x.1, x.2.write) := by
  induction ops with
  | nil => rfl
  | cons x ops ih => rw [map_cons, ← ih]; rfl

theorem Ordered.write_eq {depth : Nat} {t : Timestamp} (h : Ordered depth t) :
    t.write = joinForks (t.parts.map Prod.fst) := by
  cases depth with
  | zero => exact h.elim
  | succ depth =>
    obtain ⟨-, hatts, hops⟩ := h
    obtain ⟨msg, attestations, ops⟩ := t
    have hchildren : Ascending (fun x => x.1.sortKey) (writeChildren ops) := by
      rw [writeChildren_eq_map]
      exact pairwise_map.2 hops
    rw [write, sortBy_eq_self hatts, sortBy_eq_self hchildren, writeChildren_eq_map, map_map,
      parts, map_append, map_map, map_map]
    rfl

theorem Proper.exists_branches {depth : Nat} {t : Timestamp} (h : t.Proper H depth) :
    ∃ p : Branches, p.text = t.write ∧ p.Evaluates H depth t.msg ∧
      ∀ path a, p.Shows path a ↔ t.Shows path a := by
  obtain ⟨hordered, hsound, hattests⟩ := h
  induction depth generalizing t with
  | zero => exact hordered.elim
  | succ depth ih =>
    have hwrite := hordered.write_eq
    obtain ⟨hcollected, -, -⟩ := hordered
    obtain ⟨hspelled, hmsgs, hrest⟩ := hsound
    have hparts : ∀ part ∈ t.parts, ∃ x : Branch, x.text = part.1 ∧
        x.Evaluates H depth t.msg ∧ ∀ path a, x.Shows path a ↔ part.2 path a := by
      intro part hpart
      rcases mem_append.1 hpart with hpart | hpart
      · obtain ⟨a, ha, rfl⟩ := mem_map.1 hpart
        obtain ⟨text, htext⟩ := hspelled a ha
        exact ⟨.attestation ⟨a.write, a, (attestationText_write htext).1⟩, rfl, trivial,
          fun path b => Iff.rfl⟩
      · obtain ⟨⟨op, child⟩, hx, rfl⟩ := mem_map.1 hpart
        obtain ⟨hnext, text, htext⟩ := hmsgs _ hx
        obtain ⟨p, hp, heval, hshows⟩ :=
          ih (hcollected.ordered _ hx) (hrest _ hx) (hcollected.attests _ hx)
        refine ⟨.op ⟨op.write, op, opText_write htext⟩ p, by rw [Branch.text, hp],
          ⟨child.msg, hnext, heval⟩, fun path b => ?_⟩
        simp only [Branch.Shows, hshows]
    obtain ⟨l, htexts, hevals, hall⟩ := exists_branch_list hparts
    cases l with
    | nil =>
      obtain ⟨path, a, hpath⟩ := hattests
      obtain ⟨_, hmem, -⟩ := (hall path a).2 (exists_parts_iff.2 hpath)
      cases hmem
    | cons branch l =>
      refine ⟨.ofList branch l, ?_, (evaluates_ofList _ _ _ _).2 hevals, fun path a => ?_⟩
      · rw [text_ofList, htexts, hwrite]
      · rw [shows_ofList, hall, exists_parts_iff]

end Timestamp

end Write

/-! ### How long what is written is -/

namespace Timestamp

mutual

def weight : Timestamp → Nat
  | ⟨_, attestations, ops⟩ => (attestations.map fun a => 2 + a.write.length).sum + weightOps ops

def weightOps : List (Op × Timestamp) → Nat
  | [] => 0
  | (op, child) :: rest => (op.write.length + weight child) + weightOps rest

end

section Weight

variable {t other child : Timestamp} {op : Op} {a : Attestation}

theorem weightOps_eq_sum (ops : List (Op × Timestamp)) :
    weightOps ops = (ops.map fun x => x.1.write.length + x.2.weight).sum := by
  induction ops with
  | nil => rfl
  | cons x ops ih => rw [map_cons, sum_cons, ← ih]; rfl

theorem weight_eq (t : Timestamp) :
    t.weight = (t.attestations.map fun a => 2 + a.write.length).sum +
      (t.ops.map fun x => x.1.write.length + x.2.weight).sum := by
  obtain ⟨msg, attestations, ops⟩ := t
  rw [weight, weightOps_eq_sum]

theorem weight_new (msg : Bytes) : (new msg).weight = 0 := rfl

theorem weight_canonicalize : t.canonicalize.weight = t.weight := by
  rw [weight_eq, weight_eq]
  exact congrArg₂ _ ((sortBy_perm _).map _).sum_eq ((sortBy_perm _).map _).sum_eq

theorem weight_addAttestation_le :
    (t.addAttestation a).weight ≤ t.weight + (2 + a.write.length) := by
  rw [addAttestation]
  split_ifs
  · exact Nat.le_add_right _ _
  · rw [weight_eq, weight_eq, map_append, sum_append]
    simp only [map_singleton, sum_singleton]
    omega

theorem weight_addOp_le (t : Timestamp) (op : Op)
    (hmerge : ∀ s : Timestamp, (s.merge child).weight ≤ s.weight + child.weight) :
    (t.addOp op child).weight ≤ t.weight + (op.write.length + child.weight) := by
  rw [addOp, addOpWith, weight_canonicalize, weight_eq, weight_eq t]
  have hput := Entries.sum_put_add (fun x : Op × Timestamp => x.1.write.length + x.2.weight) op
    ((Entries.find op t.ops).elim child fun existing => existing.merge child) t.ops
  cases hfind : Entries.find op t.ops with
  | none =>
    rw [hfind] at hput
    simp only [Option.elim_none, Option.map_none, Option.getD_none] at hput ⊢
    omega
  | some existing =>
    rw [hfind] at hput
    have hle := hmerge existing
    simp only [Option.elim_some, Option.map_some, Option.getD_some] at hput ⊢
    omega

/-- What two proofs share is written once. -/
theorem weight_merge_le (t other : Timestamp) :
    (t.merge other).weight ≤ t.weight + other.weight := by
  induction other using induction generalizing t with
  | h other ih =>
    have hatts (l : List Attestation) (t : Timestamp) : (l.foldl addAttestation t).weight ≤
        t.weight + (l.map fun a => 2 + a.write.length).sum := by
      induction l generalizing t with
      | nil => exact Nat.le_refl _
      | cons a l ihl =>
        have hfirst := weight_addAttestation_le (t := t) (a := a)
        have hrest := ihl (t.addAttestation a)
        rw [foldl_cons, map_cons, sum_cons]
        omega
    have hops (l : List (Op × Timestamp)) (hl : ∀ x ∈ l, x ∈ other.ops) (t : Timestamp) :
        (l.foldl (fun t x => t.addOp x.1 x.2) t).weight ≤
          t.weight + (l.map fun x => x.1.write.length + x.2.weight).sum := by
      induction l generalizing t with
      | nil => exact Nat.le_refl _
      | cons x l ihl =>
        obtain ⟨hx, hl⟩ := forall_mem_cons.1 hl
        have hfirst := weight_addOp_le t x.1 fun s => ih x hx s
        have hrest := ihl hl (t.addOp x.1 x.2)
        rw [foldl_cons, map_cons, sum_cons]
        omega
    have h₁ := hatts other.attestations t
    have h₂ := hops other.ops (fun _ hx => hx) (other.attestations.foldl addAttestation t)
    rw [merge_eq_canonicalize, weight_canonicalize, weight_eq other]
    omega

end Weight

theorem length_joinForks {parts : List Bytes} (h : parts ≠ []) :
    (joinForks parts).length + 1 = (parts.map fun part => part.length + 1).sum := by
  induction parts with
  | nil => exact absurd rfl h
  | cons part parts ih =>
    cases parts with
    | nil => simp [joinForks]
    | cons next parts =>
      have hrest := ih (cons_ne_nil _ _)
      rw [joinForks, map_cons, sum_cons, ← hrest]
      · simp
        omega
      · exact cons_ne_nil _ _

theorem Ordered.length_write {depth : Nat} {t : Timestamp} (h : Ordered depth t)
    (hattests : t.Attests) : t.write.length + 1 = t.weight := by
  induction depth generalizing t with
  | zero => exact h.elim
  | succ depth ih =>
    have hne : t.parts.map Prod.fst ≠ [] := by
      obtain ⟨path, a, hpath⟩ := hattests
      obtain ⟨part, hpart, -⟩ := exists_parts_iff.2 hpath
      exact ne_nil_of_mem (mem_map_of_mem hpart)
    rw [h.write_eq, length_joinForks hne, weight_eq, parts, map_append, map_append,
      sum_append, map_map, map_map, map_map, map_map]
    obtain ⟨hcollected, -, -⟩ := h
    refine congrArg₂ (· + ·) (congrArg List.sum (map_congr_left fun a _ => ?_))
      (congrArg List.sum (map_congr_left fun x hx => ?_))
    · simp
      omega
    · have hchild := ih (hcollected.ordered x hx) (hcollected.attests x hx)
      simp
      omega

end Timestamp

mutual

theorem Branch.weight_addTo_le {H : Hashes} (branch : Branch) (node : Timestamp) :
    (branch.addTo H node).weight ≤ node.weight + (branch.text.length + 1) := by
  cases branch with
  | attestation spelling =>
    have hlength := (attestationText_write spelling.spells).2
    have hadd := weight_addAttestation_le (t := node) (a := spelling.value)
    rw [Branch.addTo, Branch.text, length_cons]
    omega
  | op spelling child =>
    have hlength := spelling.spells.length_write_le
    have hchild := child.weight_build_le (H := H) (.new (msgAfter H spelling.value node.msg))
    have hadd := weight_addOp_le node spelling.value fun s =>
      s.weight_merge_le (child.build H (.new (msgAfter H spelling.value node.msg)))
    rw [weight_new] at hchild
    rw [Branch.addTo, Branch.text, length_append]
    omega

theorem Branches.weight_build_le {H : Hashes} (p : Branches) (node : Timestamp) :
    (p.build H node).weight ≤ node.weight + (p.text.length + 1) := by
  cases p with
  | last branch =>
    rw [build, weight_canonicalize]
    exact branch.weight_addTo_le node
  | fork branch rest =>
    have hbranch := branch.weight_addTo_le (H := H) node
    have hrest := rest.weight_build_le (H := H) (branch.addTo H node)
    rw [build, text, length_cons, length_append]
    omega

end

end Calybris.Ots
