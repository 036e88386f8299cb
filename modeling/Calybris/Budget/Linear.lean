import Calybris.Budget.Conservation

/-!
# The engine shows a book of whole operations

`Shows s b` says that the counters of `s`, with what the threads in the middle of a
call still owe them, are the accounts and holds of `b`. Every step either leaves the
book alone or is one whole operation on it. `Follows` is that for one thread, as the
others need to know it.
-/

namespace Calybris.Budget

open Finset Transition Engine Book Function

variable {Tenant : Type*} [DecidableEq Tenant] {n : Nat}

structure Shows (s : State Tenant n) (b : Book Tenant) : Prop where
  known : ∀ t, (b.account t).isSome = (s.engine.tenantBudgets t).isSome
  initial : ∀ t, b.initial t = s.engine.initial t + ∑ i, (s.pc i).granted t
  remaining : ∀ t, b.remaining t = s.engine.remaining t + ∑ i, (s.pc i).owed t
  committed : ∀ t, b.committed t = s.engine.committed t + ∑ i, (s.pc i).spent t
  held : ∀ t, b.held t = s.engine.held t + ∑ i, (s.pc i).holding t
  holds : ∀ id r, b.holds id = some r ↔
    s.engine.reservations id = some r ∨ ∃ i, (s.pc i).hold = some (id, r)
  cap : b.cap = s.engine.maxReservedMicrocents
  issued_holds : ∀ id r, b.holds id = some r → id ∈ b.issued
  issued_lt : ∀ id ∈ b.issued, id < s.engine.nextId
  fresh : ∀ i id, (s.pc i).fresh = some id → id ∉ b.issued
  limited : ∀ i, (s.pc i).Limited s.engine

/-- A step of a thread from `p` to `p'` goes with the change of the book from `b` to
`b'`. -/
structure Follows (gateFree : Bool) (e : Engine Tenant) (p : Pc Tenant) (b : Book Tenant)
    (e' : Engine Tenant) (p' : Pc Tenant) (b' : Book Tenant) : Prop where
  known : ∀ t, (b'.account t).isSome = (e'.tenantBudgets t).isSome
  initial : ∀ t, b'.initial t - b.initial t =
    e'.initial t + p'.granted t - (e.initial t + p.granted t)
  remaining : ∀ t, b'.remaining t - b.remaining t =
    e'.remaining t + p'.owed t - (e.remaining t + p.owed t)
  committed : ∀ t, b'.committed t - b.committed t =
    e'.committed t + p'.spent t - (e.committed t + p.spent t)
  held : ∀ t, b'.held t - b.held t = e'.held t + p'.holding t - (e.held t + p.holding t)
  /-- Either nothing happens to the hold, or it is one that no other thread has. -/
  holds : ∀ id r,
    ((b'.holds id = some r ↔ b.holds id = some r) ∧
      ((e'.reservations id = some r ∨ p'.hold = some (id, r)) ↔
        (e.reservations id = some r ∨ p.hold = some (id, r)))) ∨
    ((p.pendingId = some id ∨ e.reservations id ≠ none) ∧
      (b'.holds id = some r ↔ e'.reservations id = some r ∨ p'.hold = some (id, r)))
  cap : b'.cap = e'.maxReservedMicrocents
  issued_holds : ∀ id r, b'.holds id = some r → id ∈ b'.issued
  issued_lt : ∀ id ∈ b'.issued, id < e'.nextId
  issued : ∀ id ∈ b'.issued, id ∈ b.issued ∨ p.pendingId = some id
  fresh : ∀ id, p'.fresh = some id → id ∉ b'.issued
  limited : p'.Limited e'
  limits : gateFree ∨ (e'.maxReservedMicrocents = e.maxReservedMicrocents ∧
    ∀ t, e'.reservedTotal t ≤ e.reservedTotal t ∨
      (0 < (e.maxReservedMicrocents t).getD 0 →
        e'.reservedTotal t ≤ (e.maxReservedMicrocents t).getD 0))

variable {p : Pc Tenant}

namespace Pc

/-- What is still to be paid was held back, and an open hold was counted. -/
theorem debts_le (h : p.Sane) (t : Tenant) :
    0 ≤ p.owed t ∧ p.owed t ≤ p.heldBack t ∧ 0 ≤ p.holding t ∧ p.holding t ≤ p.counted t := by
  cases p with
  | reserve t' c stage =>
    obtain ⟨⟨hc, -⟩, -⟩ := h
    by_cases heq : t = t' <;> cases stage <;> simp [heq, heldFor] <;> omega
  | commit id r actual stage =>
    obtain ⟨⟨hactual, -⟩, ⟨hr, -⟩, hstage⟩ := h
    by_cases heq : t = r.tenant <;> cases stage <;>
      simp only [CommitStage.Sane] at hstage <;> simp [heq, heldFor] <;> omega
  | release id r stage =>
    obtain ⟨hr, -⟩ := h
    by_cases heq : t = r.tenant <;> cases stage <;> simp [heq, heldFor] <;> omega
  | _ => exact ⟨le_rfl, le_rfl, le_rfl, le_rfl⟩

theorem spent_eq_zero (h : p.holds .committed = false) (t : Tenant) :
    p.spent t = 0 := by
  cases p with
  | commit id r actual stage => cases stage <;> simp_all
  | _ => rfl

omit [DecidableEq Tenant] in
theorem pendingId_of_hold {id : Nat} {r : ReservationRecord Tenant}
    (h : p.hold = some (id, r)) : p.pendingId = some id := by
  cases p with
  | reserve t c stage => cases stage <;> simp_all
  | commit id r actual stage => cases stage <;> simp_all
  | _ => cases h

omit [DecidableEq Tenant] in
theorem pendingId_of_fresh {id : Nat} (h : p.fresh = some id) :
    p.pendingId = some id := by
  cases p with
  | reserve t c stage => cases stage <;> simp_all
  | _ => cases h

omit [DecidableEq Tenant] in
theorem limited_of_inGate (h : p.inGate = false) (e : Engine Tenant) :
    p.Limited e := by
  cases p with
  | reserve => cases h
  | _ => trivial

omit [DecidableEq Tenant] in
theorem Limited.frame {e e' : Engine Tenant} (h : p.Limited e)
    (hcap : e'.maxReservedMicrocents = e.maxReservedMicrocents)
    (htotal : ∀ t, e'.reservedTotal t ≤ e.reservedTotal t ∨
      (0 < (e.maxReservedMicrocents t).getD 0 →
        e'.reservedTotal t ≤ (e.maxReservedMicrocents t).getD 0)) : p.Limited e' := by
  cases p with
  | reserve t c stage =>
    have hle := htotal t
    cases stage <;> simp only [Limited, hcap] at h ⊢ <;> omega
  | _ => trivial

end Pc

section

variable {s : State Tenant n} {i : Fin n} {e' : Engine Tenant} {p' : Pc Tenant}
  {b b' : Book Tenant}

omit [DecidableEq Tenant] in
theorem exists_hold_update_iff (s : State Tenant n) (i : Fin n) (p' : Pc Tenant)
    (x : Nat × ReservationRecord Tenant) : (∃ j, (update s.pc i p' j).hold = some x) ↔
      p'.hold = some x ∨ ∃ j, j ≠ i ∧ (s.pc j).hold = some x := by
  constructor
  · rintro ⟨j, hj⟩
    by_cases heq : j = i
    · subst heq
      exact .inl (by simpa using hj)
    · exact .inr ⟨j, heq, by simpa [heq] using hj⟩
  · rintro (hp | ⟨j, heq, hj⟩)
    · exact ⟨i, by simpa using hp⟩
    · exact ⟨j, by simpa [heq] using hj⟩

omit [DecidableEq Tenant] in
theorem sum_follow {f : Pc Tenant → Int} {x x' y y' : Int} (h : x = y + ∑ j, f (s.pc j))
    (hf : x' - x = y' + f p' - (y + f (s.pc i))) :
    x' = y' + ∑ j, f (update s.pc i p' j) := by
  have hsum := sum_update (mem_univ i) f s.pc p'
  omega

namespace Shows

theorem follow (h : Shows s b) (hinv : Inv s)
    (hf : Follows s.gateFree s.engine (s.pc i) b e' p' b') :
    Shows (⟨e', update s.pc i p'⟩ : State Tenant n) b' where
  known := hf.known
  initial t := sum_follow (f := fun p => p.granted t) (h.initial t) (hf.initial t)
  remaining t := sum_follow (f := fun p => p.owed t) (h.remaining t) (hf.remaining t)
  committed t := sum_follow (f := fun p => p.spent t) (h.committed t) (hf.committed t)
  held t := sum_follow (f := fun p => p.holding t) (h.held t) (hf.held t)
  holds id r := by
    have hold := h.holds id r
    have hsplit := exists_hold_update_iff s i (s.pc i) (id, r)
    rw [update_eq_self] at hsplit
    rw [exists_hold_update_iff]
    rcases hf.holds id r with ⟨hb, hlocal⟩ | ⟨hown, hb⟩
    · rw [hb, hold, hsplit, ← or_assoc, ← or_assoc, hlocal]
    · have hnone : ¬ ∃ j, j ≠ i ∧ (s.pc j).hold = some (id, r) := by
        rintro ⟨j, hj, hhold⟩
        have hpending := Pc.pendingId_of_hold hhold
        rcases hown with hi | hsome
        · exact hj (hinv.distinct j i id hpending hi)
        · exact hsome ((hinv.locally j).pending id hpending).2
      simp only [hb, hnone, or_false]
  cap := hf.cap
  issued_holds := hf.issued_holds
  issued_lt := hf.issued_lt
  fresh := by
    intro j id hid
    by_cases hj : j = i
    · subst hj
      exact hf.fresh id (by simpa using hid)
    · have hid' : (s.pc j).fresh = some id := by simpa [hj] using hid
      intro hmem
      rcases hf.issued id hmem with hold | hpending
      · exact h.fresh j id hid' hold
      · exact hj (hinv.distinct j i id (Pc.pendingId_of_fresh hid') hpending)
  limited := by
    rw [forall_update_iff s.pc fun _ p => Pc.Limited e' p]
    refine ⟨hf.limited, fun j hj => ?_⟩
    rcases hf.limits with hgate | ⟨hcap, htotal⟩
    · exact Pc.limited_of_inGate (of_decide_eq_true hgate j) e'
    · exact (h.limited j).frame hcap htotal

end Shows

/-- A step changes nothing that a book shows. -/
@[mk_iff]
structure Keeps (e : Engine Tenant) (p : Pc Tenant) (e' : Engine Tenant) (p' : Pc Tenant) :
    Prop where
  limited : p'.Limited e'
  known : ∀ t, (e'.tenantBudgets t).isSome = (e.tenantBudgets t).isSome
  initial : ∀ t, e'.initial t + p'.granted t = e.initial t + p.granted t
  remaining : ∀ t, e'.remaining t + p'.owed t = e.remaining t + p.owed t
  committed : ∀ t, e'.committed t + p'.spent t = e.committed t + p.spent t
  held : ∀ t, e'.held t + p'.holding t = e.held t + p.holding t
  holds : ∀ id r, (e'.reservations id = some r ∨ p'.hold = some (id, r)) ↔
    (e.reservations id = some r ∨ p.hold = some (id, r))
  cap : e'.maxReservedMicrocents = e.maxReservedMicrocents
  issued : e.nextId ≤ e'.nextId
  fresh : ∀ id, p'.fresh = some id → p.fresh = some id ∨ e.nextId ≤ id
  total : ∀ t, e'.reservedTotal t ≤ e.reservedTotal t ∨
    (0 < (e.maxReservedMicrocents t).getD 0 →
      e'.reservedTotal t ≤ (e.maxReservedMicrocents t).getD 0)

attribute [local simp] keeps_iff

theorem Keeps.of_pc {e : Engine Tenant} (hlimited : p'.Limited e)
    (hgranted : ∀ t, p'.granted t = p.granted t) (howed : ∀ t, p'.owed t = p.owed t)
    (hspent : ∀ t, p'.spent t = p.spent t) (hhold : p'.hold = p.hold)
    (hfresh : ∀ id, p'.fresh = some id → p.fresh = some id) : Keeps e p e p' where
  limited := hlimited
  known _ := rfl
  initial t := by rw [hgranted]
  remaining t := by rw [howed]
  committed t := by rw [hspent]
  held t := by rw [Pc.holding, Pc.holding, hhold]
  holds id r := by rw [hhold]
  cap := rfl
  issued := le_rfl
  fresh id hid := .inl (hfresh id hid)
  total _ := .inl le_rfl

theorem Shows.same (h : Shows s b) (hp : s.pc i = p)
    (hk : Keeps s.engine p e' p') : Follows s.gateFree s.engine p b e' p' b where
  known t := (h.known t).trans (hk.known t).symm
  initial t := by rw [hk.initial, sub_self, sub_self]
  remaining t := by rw [hk.remaining, sub_self, sub_self]
  committed t := by rw [hk.committed, sub_self, sub_self]
  held t := by rw [hk.held, sub_self, sub_self]
  holds id r := .inl ⟨Iff.rfl, hk.holds id r⟩
  cap := h.cap.trans hk.cap.symm
  issued_holds := h.issued_holds
  issued_lt id hid := (h.issued_lt id hid).trans_le hk.issued
  issued id hid := .inl hid
  fresh id hid hmem := by
    rcases hk.fresh id hid with hold | hnew
    · exact h.fresh i id (hp ▸ hold) hmem
    · exact absurd (h.issued_lt id hmem) hnew.not_gt
  limited := hk.limited
  limits := .inr ⟨hk.cap, hk.total⟩

/-! ### Steps that leave the book alone -/

/-- A step is no operation on the book, or one that the call then reports. -/
def Answered (gateFree : Bool) (e : Engine Tenant) (p : Pc Tenant) (b : Book Tenant)
    (e' : Engine Tenant) (p' : Pc Tenant) : Prop :=
  ∃ (op : Option (Op Tenant)) (b' : Book Tenant), run apply b op.toList = some b' ∧
    Follows gateFree e p b e' p' b' ∧
    ∀ q, p.request = some q → (p'.effect q).toList = (p.effect q).toList ++ op.toList

section

variable {gateFree : Bool} {e : Engine Tenant}

theorem Answered.same (hf : Follows gateFree e p b e' p' b)
    (heffect : ∀ q, p.request = some q → p'.effect q = p.effect q) :
    Answered gateFree e p b e' p' :=
  ⟨none, b, rfl, hf, fun q hq => by rw [heffect q hq, Option.toList_none, List.append_nil]⟩

theorem Answered.op {op : Op Tenant} (happly : b.apply op = some b')
    (hf : Follows gateFree e p b e' p' b')
    (heffect : ∀ q, p.request = some q → p.effect q = none ∧ p'.effect q = some op) :
    Answered gateFree e p b e' p' :=
  ⟨some op, b', by simp [run, happly], hf, fun q hq => by
    obtain ⟨hbefore, hafter⟩ := heffect q hq
    rw [hbefore, hafter, Option.toList_none, List.nil_append]⟩

end

/-- A step takes the account of one tenant from `x` to `y`, and relies on no cap. -/
structure Alters (b : Book Tenant) (e : Engine Tenant) (p : Pc Tenant) (e' : Engine Tenant)
    (p' : Pc Tenant) (t : Tenant) (x y : Account) : Prop where
  amounts : b.initial t = x.initial ∧ b.remaining t = x.remaining ∧ b.committed t = x.committed
  known : ∀ t', ((b.setAccount t y).account t').isSome = (e'.tenantBudgets t').isSome
  limited : ∀ e, p'.Limited e
  initial : ∀ t', e'.initial t' + p'.granted t' - (e.initial t' + p.granted t') =
    if t' = t then y.initial - x.initial else 0
  remaining : ∀ t', e'.remaining t' + p'.owed t' - (e.remaining t' + p.owed t') =
    if t' = t then y.remaining - x.remaining else 0
  committed : ∀ t', e'.committed t' + p'.spent t' - (e.committed t' + p.spent t') =
    if t' = t then y.committed - x.committed else 0
  cap : e'.maxReservedMicrocents = e.maxReservedMicrocents
  nextId : e'.nextId = e.nextId
  fresh : p'.fresh = none
  total : ∀ t', e'.reservedTotal t' ≤ e.reservedTotal t'

/-- The engine after a commit of `a` has charged the tenant of its hold. An overrun is
paid here; what was not spent is given back by a later step. -/
inductive Charged (e : Engine Tenant) (r : ReservationRecord Tenant) (a : Int) :
    Engine Tenant → Prop
  | within (hle : a ≤ r.reserved) : Charged e r a e
  | overrun (hle : r.reserved ≤ a) :
      Charged e r a (e.setBudget r.tenant (e.remaining r.tenant - (a - r.reserved)))

namespace Charged

variable {e e' : Engine Tenant} {r : ReservationRecord Tenant} {a : Int} (h : Charged e r a e')

include h

theorem remaining (t : Tenant) :
    e'.remaining t =
      e.remaining t - if t = r.tenant then max r.reserved a - r.reserved else 0 := by
  cases h with
  | within hle =>
    have hmax : max r.reserved a = r.reserved := by omega
    simp [hmax]
  | overrun hle =>
    have hmax : max r.reserved a = a := by omega
    rw [remaining_setBudget, hmax]
    by_cases heq : t = r.tenant <;> simp [heq]

theorem isSome (hknown : (e.tenantBudgets r.tenant).isSome) (t : Tenant) :
    (e'.tenantBudgets t).isSome = (e.tenantBudgets t).isSome := by
  cases h with
  | within hle => rfl
  | overrun hle => by_cases heq : t = r.tenant <;> simp [heq, setBudget, hknown]

theorem frame :
    (∀ t, e'.initial t = e.initial t) ∧ (∀ t, e'.committed t = e.committed t) ∧
      (∀ t, e'.held t = e.held t) ∧ (∀ t, e'.reservedTotal t = e.reservedTotal t) ∧
      e'.reservations = e.reservations ∧ e'.maxReservedMicrocents = e.maxReservedMicrocents ∧
      e'.nextId = e.nextId := by
  cases h <;> exact ⟨fun _ => rfl, fun _ => rfl, fun _ => rfl, fun _ => rfl, rfl, rfl, rfl⟩

end Charged

namespace Shows

variable {t : Tenant} {c a : Int} {id : Nat} {r : ReservationRecord Tenant}

section

variable (h : Shows s b)

include h

theorem quiet (hp : s.pc i = p) (hq : p.Quiet s.engine p') :
    Answered s.gateFree s.engine p b s.engine p' :=
  .same (h.same hp (.of_pc (hq.limited (hp ▸ h.limited i)) hq.granted hq.owed hq.spent hq.hold
    hq.fresh)) hq.effect

theorem grant (hinv : Inv s) {x y : Int} (hp : s.pc i = .topUp t a (.store x y)) :
    Answered s.gateFree s.engine (.topUp t a (.store x y)) b (s.engine.setInitial t x)
      (.idle (some (.topUp (.toppedUp a x y)))) := by
  have hl := hinv.locally i
  rw [hp] at hl
  obtain ⟨hx, -⟩ := hl.initial t a x rfl
  refine .same (h.same hp ⟨trivial, fun _ => rfl, fun t' => ?_, fun _ => rfl, fun _ => rfl,
    fun _ => rfl, fun _ _ => .rfl, rfl, le_rfl, by simp, fun _ => .inl le_rfl⟩) (by simp)
  rw [initial_setInitial]
  by_cases heq : t' = t <;> simp [heq, hx]

theorem count {max : Int} (hp : s.pc i = .reserve t c (.increment max (s.engine.reservedTotal t)))
    (hmax : 0 < max → s.engine.reservedTotal t + c ≤ max) :
    Answered s.gateFree s.engine (.reserve t c (.increment max (s.engine.reservedTotal t))) b
      (s.engine.setReservedTotal t (s.engine.reservedTotal t + c)) (.reserve t c .allocate) := by
  have hlimit := h.limited i
  rw [hp] at hlimit
  obtain rfl : max = (s.engine.maxReservedMicrocents t).getD 0 := hlimit
  have hself : (s.engine.setReservedTotal t (s.engine.reservedTotal t + c)).reservedTotal t =
      s.engine.reservedTotal t + c := by
    rw [reservedTotal_setReservedTotal, if_pos rfl]
  refine .same (h.same hp ⟨fun hpos => ?_, fun _ => rfl, fun _ => rfl, fun _ => rfl, fun _ => rfl,
    fun _ => rfl, fun _ _ => .rfl, rfl, le_rfl, by simp, fun t' => ?_⟩) (by simp)
  · rw [hself]
    exact hmax hpos
  · by_cases heq : t' = t
    · subst heq
      rw [hself]
      exact .inr hmax
    · rw [reservedTotal_setReservedTotal, if_neg heq]
      exact .inl le_rfl

theorem issue (hinv : Inv s) (hp : s.pc i = .reserve t c .allocate) :
    Answered s.gateFree s.engine (.reserve t c .allocate) b
      { s.engine with nextId := s.engine.nextId + 1 } (.reserve t c (.load s.engine.nextId)) := by
  have hlimit := h.limited i
  rw [hp] at hlimit
  refine .same (h.same hp ⟨hlimit, fun _ => rfl, fun _ => rfl, fun _ => rfl, fun _ => rfl,
    fun t' => ?_, fun _ _ => .rfl, rfl, Nat.le_succ _, ?_, fun _ => .inl le_rfl⟩) (by simp)
  · rw [held_issue hinv.wellFormed]
    rfl
  · rintro _ ⟨⟩
    exact .inr le_rfl

theorem setReservedTotal (hp : s.pc i = p) (hc : 0 ≤ c)
    (hlimited : ∀ e, p'.Limited e) (hk : Keeps s.engine p s.engine p') :
    Follows s.gateFree s.engine p b
      (s.engine.setReservedTotal t (s.engine.reservedTotal t - c)) p' b := by
  refine h.same hp { hk with limited := hlimited _, total := fun t' => .inl ?_ }
  rw [reservedTotal_setReservedTotal]
  split
  · next heq => rw [heq]; omega
  · exact le_rfl

theorem insertReservation (hinv : Inv s) (hp : s.pc i = p)
    (hhold : p.hold = some (id, r)) (hlimited : ∀ e, p'.Limited e)
    (hk : ∀ t, p'.granted t = p.granted t ∧ p'.owed t = p.owed t ∧ p'.spent t = p.spent t)
    (hnone : p'.hold = none ∧ p'.fresh = none) :
    Follows s.gateFree s.engine p b (s.engine.insertReservation id r) p' b := by
  subst hp
  obtain ⟨hlt, hfree⟩ := (hinv.locally i).pending id (Pc.pendingId_of_hold hhold)
  refine h.same rfl
    { limited := hlimited _
      known _ := rfl
      initial t := by rw [(hk t).1]; rfl
      remaining t := by rw [(hk t).2.1]; rfl
      committed t := by rw [(hk t).2.2]; rfl
      held t := ?_
      holds id' r' := ?_
      cap := rfl
      issued := le_rfl
      fresh id hid := by cases hnone.2.symm.trans hid
      total _ := .inl le_rfl }
  · rw [held_insertReservation hlt hfree, Pc.holding, Pc.holding, hhold, hnone.1]
    simp [heldFor]
  · rw [hhold, hnone.1]
    by_cases heq : id' = id
    · subst heq
      simp [Engine.insertReservation, hfree]
    · simp [Engine.insertReservation, heq, Ne.symm heq]

theorem takeCommit (hinv : Inv s) (hp : s.pc i = .lockCommit id a)
    (hr : s.engine.reservations id = some r) :
    Answered s.gateFree s.engine (.lockCommit id a) b (s.engine.removeReservation id)
      (.commit id r a .lookup) := by
  have hlt := (hinv.wellFormed.reservations id r hr).1
  refine .same (h.same hp
    { limited := trivial
      known _ := rfl
      initial _ := rfl
      remaining t := by simp [Engine.remaining, Engine.removeReservation]
      committed t := by simp [Engine.committed, Engine.removeReservation]
      held t := ?_
      holds id' r' := ?_
      cap := rfl
      issued := le_rfl
      fresh := by simp
      total _ := .inl le_rfl }) (by simp)
  · rw [held_removeReservation hlt hr]
    simp [heldFor]
  · by_cases heq : id' = id
    · subst heq
      simp [removeReservation, hr]
    · simp [removeReservation, heq, Ne.symm heq]

theorem store (hinv : Inv s) {x : Int} (hp : s.pc i = .commit id r a (.store x)) :
    Answered s.gateFree s.engine (.commit id r a (.store x)) b (s.engine.setCommitted r.tenant x)
      (.commit id r a (if a < r.reserved then .refund else .subtract)) := by
  have hl := hinv.locally i
  rw [hp] at hl
  obtain ⟨hx, -⟩ := hl.committed r.tenant a x rfl
  have hcommitted : ∀ t, (s.engine.setCommitted r.tenant x).committed t =
      s.engine.committed t + (Pc.commit id r a (.store x)).spent t := by
    intro t
    rw [committed_setCommitted]
    by_cases heq : t = r.tenant <;> simp [heq, hx]
  have hmax : max r.reserved a = if a < r.reserved then r.reserved else a := by split <;> omega
  by_cases hless : a < r.reserved
  all_goals
    simp only [hless, if_true, if_false] at hmax ⊢
    exact .same (h.same hp
      { limited := trivial
        known _ := rfl
        initial _ := rfl
        remaining t := by simp [hmax, Engine.remaining, Engine.setCommitted]
        committed t := by rw [hcommitted]; simp
        held _ := rfl
        holds _ _ := .rfl
        cap := rfl
        issued := le_rfl
        fresh := by simp
        total _ := .inl le_rfl }) (by simp)

theorem pay (hinv : Inv s) (hp : s.pc i = p) (htenant : p.tenant = some t)
    (hlimited : ∀ e, p'.Limited e)
    (hk : ∀ t', p'.owed t' + (if t' = t then a else 0) = p.owed t' ∧
      p'.granted t' = p.granted t' ∧ p'.spent t' = p.spent t')
    (hhold : p'.hold = p.hold ∧ p'.fresh = none) :
    Follows s.gateFree s.engine p b (s.engine.setBudget t (s.engine.remaining t + a)) p' b := by
  have hl := hinv.locally i
  rw [hp] at hl
  refine h.same hp
    { limited := hlimited _
      known t' := isSome_update (hl.known t htenant)
      initial t := by rw [(hk t).2.1]; rfl
      remaining t' := ?_
      committed t := by rw [(hk t).2.2]; rfl
      held t := by rw [Pc.holding, Pc.holding, hhold.1]; rfl
      holds id r := by rw [hhold.1]; rfl
      cap := rfl
      issued := le_rfl
      fresh id hid := by cases hhold.2.symm.trans hid
      total _ := .inl le_rfl }
  rw [remaining_setBudget, ← (hk t').1]
  by_cases heq : t' = t
  · simp only [heq, if_true]
    omega
  · simp [heq]

end

/-! ### Steps that are an operation -/

section

variable (h : Shows s b)

include h

/-- A step that is an operation on one account and on some holds. -/
theorem alter {x y : Account} {holds : Nat → Option (ReservationRecord Tenant)}
    {issued : Finset Nat} (ha : Alters b s.engine p e' p' t x y)
    (hheld : ∀ t', ∑ id ∈ issued, heldFor t' (holds id) - b.held t' =
      e'.held t' + p'.holding t' - (s.engine.held t' + p.holding t'))
    (hholds : ∀ id r, ((holds id = some r ↔ b.holds id = some r) ∧
        ((e'.reservations id = some r ∨ p'.hold = some (id, r)) ↔
          (s.engine.reservations id = some r ∨ p.hold = some (id, r)))) ∨
      ((p.pendingId = some id ∨ s.engine.reservations id ≠ none) ∧
        (holds id = some r ↔ e'.reservations id = some r ∨ p'.hold = some (id, r))))
    (hissued_holds : ∀ id r, holds id = some r → id ∈ issued)
    (hissued : ∀ id ∈ issued, id ∈ b.issued ∨ p.pendingId = some id ∧ id < s.engine.nextId) :
    Follows s.gateFree s.engine p b e' p'
      { b.setAccount t y with holds := holds, issued := issued } where
  known := ha.known
  initial t' := by
    change (b.setAccount t y).initial t' - _ = _
    rw [initial_setAccount, ha.initial]
    by_cases heq : t' = t <;> simp [heq, ha.amounts.1]
  remaining t' := by
    change (b.setAccount t y).remaining t' - _ = _
    rw [remaining_setAccount, ha.remaining]
    by_cases heq : t' = t <;> simp [heq, ha.amounts.2.1]
  committed t' := by
    change (b.setAccount t y).committed t' - _ = _
    rw [committed_setAccount, ha.committed]
    by_cases heq : t' = t <;> simp [heq, ha.amounts.2.2]
  held := hheld
  holds := hholds
  cap := h.cap.trans ha.cap.symm
  issued_holds := hissued_holds
  issued_lt id hid := by
    rw [ha.nextId]
    exact (hissued id hid).elim (h.issued_lt id) And.right
  issued id hid := (hissued id hid).imp_right And.left
  fresh id hid := by
    rw [ha.fresh] at hid
    cases hid
  limited := ha.limited e'
  limits := .inr ⟨ha.cap, fun t => .inl (ha.total t)⟩

theorem alterAccount {x y : Account} (ha : Alters b s.engine p e' p' t x y)
    (hreservations : e'.reservations = s.engine.reservations)
    (hhold : p'.hold = none ∧ p.hold = none) :
    Follows s.gateFree s.engine p b e' p' (b.setAccount t y) := by
  refine h.alter ha ?_ ?_ h.issued_holds fun id hid => .inl hid
  · intro t'
    have he : e'.held t' = s.engine.held t' := by
      rw [Engine.held, Engine.held, hreservations, ha.nextId]
    rw [← Book.held, he, Pc.holding, Pc.holding, hhold.1, hhold.2, sub_self, sub_self]
  · intro id r
    rw [hreservations, hhold.1, hhold.2]
    exact .inl ⟨Iff.rfl, Iff.rfl⟩

theorem account_of_known (ht : (s.engine.tenantBudgets t).isSome) :
    ∃ x, b.account t = some x ∧
      x.initial = s.engine.initial t + ∑ i, (s.pc i).granted t ∧
      x.remaining = s.engine.remaining t + ∑ i, (s.pc i).owed t ∧
      x.committed = s.engine.committed t + ∑ i, (s.pc i).spent t := by
  rw [← h.known t, Option.isSome_iff_exists] at ht
  obtain ⟨x, hx⟩ := ht
  obtain ⟨hini, hrem, hcom⟩ := amounts_of_account hx
  exact ⟨x, hx, by rw [← h.initial, hini], by rw [← h.remaining, hrem],
    by rw [← h.committed, hcom]⟩

omit h in
theorem sum_owed_nonneg (hinv : Inv s) (t : Tenant) : 0 ≤ ∑ j, (s.pc j).owed t :=
  sum_nonneg fun j _ => (Pc.debts_le (hinv.locally j).sane t).1

omit h in
/-- While thread `i` has the lock of the committed amounts, or it is free, no other
thread is about to store one. -/
theorem sum_spent_eq (hinv : Inv s) (hlock : (s.pc i).holds .committed ∨ s.free .committed)
    (t : Tenant) : ∑ j, (s.pc j).spent t = (s.pc i).spent t :=
  sum_eq_single i (fun _ _ hj => Pc.spent_eq_zero (hinv.eq_false_of_ne hlock hj) t)
    fun hi => absurd (mem_univ i) hi

theorem ensure (hinv : Inv s) {x : Int} (hnew : s.engine.tenantBudgets t = none) :
    Answered s.gateFree s.engine (.ensure t x) b (s.engine.insertTenant t x)
      (.idle (some (.configured none))) := by
  have hnone : b.account t = none := by
    have := h.known t
    rw [hnew] at this
    simpa using this
  obtain ⟨hrem, hini, hcom, htot⟩ := hinv.wellFormed.eq_zero hnew
  have happly : b.apply (.ensure t x) = some (b.setAccount t ⟨x, x, 0⟩) := by
    simp [apply, hnone]
  have ha : Alters b s.engine (.ensure t x) (s.engine.insertTenant t x)
      (.idle (some (.configured none))) t ⟨0, 0, 0⟩ ⟨x, x, 0⟩ :=
    { amounts := by simp [Book.initial, Book.remaining, Book.committed, hnone]
      known t' := ?_
      limited _ := trivial
      initial t' := ?_
      remaining t' := ?_
      committed t' := ?_
      cap := rfl
      nextId := rfl
      fresh := rfl
      total t' := ?_ }
  · exact .op happly (h.alterAccount ha rfl ⟨rfl, rfl⟩) (by simp)
  · by_cases heq : t' = t
    · simp [heq, setAccount, insertTenant]
    · simpa [heq, setAccount, insertTenant] using h.known t'
  · rw [initial_insertTenant]
    by_cases heq : t' = t <;> simp [heq, hini]
  · rw [remaining_insertTenant]
    by_cases heq : t' = t <;> simp [heq, hrem]
  · rw [committed_insertTenant]
    by_cases heq : t' = t <;> simp [heq, hcom]
  · rw [reservedTotal_insertTenant]
    by_cases heq : t' = t <;> simp [heq, htot]

theorem ensured {x : Int} (hp : s.pc i = .ensure t x) (hold : (s.engine.tenantBudgets t).isSome) :
    Answered s.gateFree s.engine (.ensure t x) b s.engine (.idle (some (.configured none))) := by
  have hsome : (b.account t).isSome := (h.known t).trans hold
  have happly : b.apply (.ensure t x) = some b := by
    simp [apply, Option.isSome_iff_ne_none.1 hsome]
  exact .op happly (h.same hp (by simp)) (by simp)

theorem setCap {m : Int} (hp : s.pc i = .setMaxReserved t m) (hgate : s.gateFree) :
    Answered s.gateFree s.engine (.setMaxReserved t m) b
      { s.engine with maxReservedMicrocents :=
        Function.update s.engine.maxReservedMicrocents t (if m = 0 then none else some m) }
      (.idle (some (.configured none))) := by
  have happly : b.apply (.cap t m) = some { b with
      cap := update b.cap t (if m = 0 then none else some m) } := rfl
  have hsame : Follows s.gateFree s.engine (.setMaxReserved t m) b s.engine
      (.idle (some (.configured none))) b := h.same hp (by simp)
  refine .op happly { hsame with cap := ?_, limits := .inl hgate } (by simp)
  rw [← h.cap]

theorem known_setBudget {x : Int} {y : Account} (t' : Tenant) :
    ((b.setAccount t y).account t').isSome =
      ((s.engine.setBudget t x).tenantBudgets t').isSome := by
  by_cases heq : t' = t
  · simp [heq, setAccount, setBudget]
  · simpa [heq, setAccount, setBudget] using h.known t'

theorem credit (hinv : Inv s) {x : Int}
    (hp : s.pc i = .topUp t a (.credit x (s.engine.remaining t))) :
    Answered s.gateFree s.engine (.topUp t a (.credit x (s.engine.remaining t))) b
      (s.engine.setBudget t (s.engine.remaining t + a))
      (.topUp t a (.store x (s.engine.remaining t + a))) := by
  have hl := hinv.locally i
  rw [hp] at hl
  have hknown := hl.known t rfl
  obtain ⟨hnew, hlt⟩ := hl.initial t a x rfl
  obtain ⟨y, hy, hini, hrem, hcom⟩ := h.account_of_known hknown
  -- Only this thread can have the lock of the initial amounts.
  have hgranted : ∑ j, (s.pc j).granted t = 0 := by
    refine sum_eq_zero fun j _ => ?_
    by_cases hj : j = i
    · simp [hj, hp]
    · exact Pc.granted_eq_zero (hinv.eq_false_of_ne (.inl (by simp [hp])) hj) t
  have howed : ∑ j, (s.pc j).owed t ≤ ∑ j, (s.pc j).heldBack t :=
    sum_le_sum fun j _ => (Pc.debts_le (hinv.locally j).sane t).2.1
  have howed_nonneg := sum_owed_nonneg hinv t
  have hbalance := hinv.balance t
  have hheld := held_nonneg hinv.wellFormed t
  have hcommitted := hinv.wellFormed.committed_nonneg t
  have hinitial := hinv.wellFormed.initial_nonneg t
  have hremaining := hinv.wellFormed.remaining_nonneg t
  obtain ⟨ha, -⟩ := hl.sane
  rw [balance] at hbalance
  have happly := (apply_topUp_eq_some_iff (b := b) (a := a)).2
    ⟨y, hy, ⟨⟨by omega, by omega⟩, by omega, by omega⟩, rfl⟩
  refine .op happly (h.alterAccount
    { amounts := amounts_of_account hy
      known := h.known_setBudget
      limited _ := trivial
      initial t' := ?_
      remaining t' := ?_
      committed t' := ?_
      cap := rfl
      nextId := rfl
      fresh := rfl
      total _ := le_rfl } rfl ⟨rfl, rfl⟩) (by simp)
  · by_cases heq : t' = t <;> simp [heq, Engine.initial, Engine.setBudget]
  · rw [remaining_setBudget]
    by_cases heq : t' = t <;> simp [heq]
  · by_cases heq : t' = t <;> simp [heq, Engine.committed, Engine.setBudget]

theorem debit (hinv : Inv s) (hp : s.pc i = .reserve t c (.debit id (s.engine.remaining t)))
    (hle : c ≤ s.engine.remaining t) :
    Answered s.gateFree s.engine (.reserve t c (.debit id (s.engine.remaining t))) b
      (s.engine.setBudget t (s.engine.remaining t - c))
      (.reserve t c (.insert id (s.engine.remaining t - c))) := by
  have hl := hinv.locally i
  have hlimit := h.limited i
  have hfresh : id ∉ b.issued := h.fresh i id (by simp [hp])
  rw [hp] at hl hlimit
  obtain ⟨hlt, hfree⟩ := hl.pending id rfl
  obtain ⟨⟨hpos, -⟩, -⟩ := hl.sane
  have hknown := hl.known t rfl
  obtain ⟨x, hx, hini, hrem, hcom⟩ := h.account_of_known hknown
  have howed := sum_owed_nonneg hinv t
  -- What this thread has counted is in the total and not yet in a hold.
  have hcounted : ∑ j, (s.pc j).holding t + c ≤ ∑ j, (s.pc j).counted t := by
    have hsingle := single_le_sum
      (fun j _ => sub_nonneg.2 (Pc.debts_le (hinv.locally j).sane t).2.2.2) (mem_univ i)
    rw [sum_sub_distrib, hp] at hsingle
    simp [heldFor] at hsingle ⊢
    omega
  have huncovered := hinv.uncovered t
  have hheld := h.held t
  have htotal := hinv.wellFormed.reservedTotal_lt t
  have hheld_nonneg := held_nonneg hinv.wellFormed t
  have hholding : 0 ≤ ∑ j, (s.pc j).holding t :=
    sum_nonneg fun j _ => (Pc.debts_le (hinv.locally j).sane t).2.2.1
  rw [uncovered] at huncovered
  have hcap : 0 < (b.cap t).getD 0 → b.held t + c ≤ (b.cap t).getD 0 := by
    intro hcap
    rw [h.cap] at hcap ⊢
    have := hlimit hcap
    omega
  have happly := (apply_reserve_eq_some_iff (b := b) (t := t) (c := c)).2
    ⟨x, hx, ⟨hfresh, by omega, ⟨by omega, by omega⟩, hcap⟩, rfl⟩
  refine .op happly (h.alter
    { amounts := amounts_of_account hx
      known := h.known_setBudget
      limited _ := trivial
      initial t' := ?_
      remaining t' := ?_
      committed t' := ?_
      cap := rfl
      nextId := rfl
      fresh := rfl
      total _ := le_rfl } ?_ ?_ ?_ ?_) (by simp)
  · simp [Engine.initial, Engine.setBudget]
  · rw [remaining_setBudget]
    by_cases heq : t' = t <;> simp [heq]
  · simp [Engine.committed, Engine.setBudget]
  · intro t'
    have hplace : (b.place id ⟨t, c⟩ ⟨x.initial, x.remaining - c, x.committed⟩).held t' = _ :=
      held_place hfresh t'
    refine (congrArg (· - b.held t') hplace).trans ?_
    change _ = s.engine.held t' + _ - _
    simp [heldFor]
  · intro id' r'
    by_cases heq : id' = id
    · subst heq
      exact .inr ⟨.inl rfl, by simp [setBudget, hfree]⟩
    · exact .inl ⟨by simp [heq], by simp [setBudget, Ne.symm heq]⟩
  · intro id' r' hr'
    by_cases heq : id' = id
    · exact mem_insert.2 (.inl heq)
    · exact mem_insert_of_mem (h.issued_holds id' r' (by simpa [heq] using hr'))
  · intro id' hid'
    rcases mem_insert.1 hid' with rfl | hold
    · exact .inr ⟨rfl, hlt⟩
    · exact .inl hold

/-- A hold is settled, which only this thread can do. -/
theorem settled {x y : Account} (hr : b.holds id = some r)
    (hown : p.pendingId = some id ∨ s.engine.reservations id ≠ none)
    (ha : Alters b s.engine p e' p' r.tenant x y)
    (hheld : ∀ t, e'.held t + p'.holding t =
      s.engine.held t + p.holding t - heldFor t (some r))
    (hgone : e'.reservations id = none ∧ p'.hold = none)
    (hothers : ∀ id' r', id' ≠ id → e'.reservations id' = s.engine.reservations id' ∧
      p.hold ≠ some (id', r')) :
    Follows s.gateFree s.engine p b e' p' (b.settle id r.tenant y) := by
  refine h.alter ha ?_ ?_ ?_ fun id' hid' => .inl hid'
  · intro t
    change (b.settle id r.tenant y).held t - _ = _
    rw [held_settle (h.issued_holds id r hr) hr, hheld]
    omega
  · intro id' r'
    by_cases heq : id' = id
    · subst heq
      refine .inr ⟨hown, ?_⟩
      rw [hgone.1, hgone.2]
      simp
    · obtain ⟨hsame, hhold⟩ := hothers id' r' heq
      refine .inl ⟨by simp [heq], ?_⟩
      rw [hsame, hgone.2]
      simp only [reduceCtorEq, hhold]
  · intro id' r' hr'
    by_cases heq : id' = id
    · simp [heq] at hr'
    · exact h.issued_holds id' r' (by simpa [heq] using hr')

/-- A charged commit, with the amount that it is about to store, alters the account of
its tenant. -/
theorem alters_of_charged {x : Int} {y : Account} {stage : CommitStage}
    (hy : b.account r.tenant = some y) (hknown : (s.engine.tenantBudgets r.tenant).isSome)
    (howed : (Pc.commit id r a stage).owed r.tenant = 0)
    (hspent : (Pc.commit id r a stage).spent r.tenant = 0) (hpaid : Charged s.engine r a e') :
    Alters b s.engine (.commit id r a stage) e' (.commit id r a (.store x)) r.tenant y
      ⟨y.initial, y.remaining + r.reserved - a, y.committed + a⟩ := by
  obtain ⟨hinitial, hcommitted, -, htotal, -, hcap, hnext⟩ := hpaid.frame
  refine
    { amounts := amounts_of_account hy
      known t := ?_
      limited _ := trivial
      initial t := by simp [hinitial t]
      remaining t := ?_
      committed t := ?_
      cap := hcap
      nextId := hnext
      fresh := rfl
      total t := (htotal t).le }
  · rw [hpaid.isSome hknown]
    by_cases heq : t = r.tenant
    · simp [heq, setAccount, hknown]
    · simpa [heq, setAccount] using h.known t
  · rw [hpaid.remaining]
    by_cases heq : t = r.tenant
    · rw [heq, howed]
      simp
      omega
    · simp [heq]
  · rw [hcommitted]
    by_cases heq : t = r.tenant
    · rw [heq, hspent]
      simp
    · simp [heq]

theorem commit (hinv : Inv s) {x : Int} {stage : CommitStage} (hp : s.pc i = .commit id r a stage)
    (hhold : (Pc.commit id r a stage).hold = some (id, r))
    (howed : (Pc.commit id r a stage).owed r.tenant = 0)
    (hspent : (Pc.commit id r a stage).spent r.tenant = 0)
    (hdone : (Pc.commit id r a stage).done = none)
    (hlock : (Pc.commit id r a stage).holds .committed ∨ s.free .committed)
    (hin : InI64 (s.engine.committed r.tenant + a))
    (hrem : a - r.reserved ≤ s.engine.remaining r.tenant) (hpaid : Charged s.engine r a e') :
    Answered s.gateFree s.engine (.commit id r a stage) b e' (.commit id r a (.store x)) := by
  have hl := hinv.locally i
  rw [hp] at hl
  have hknown := hl.known r.tenant rfl
  have hpending := Pc.pendingId_of_hold hhold
  obtain ⟨hlt, hfree⟩ := hl.pending id hpending
  have hr : b.holds id = some r := (h.holds id r).2 (.inr ⟨i, by rw [hp, hhold]⟩)
  obtain ⟨y, hy, -, hremy, hcomy⟩ := h.account_of_known hknown
  have howed_nonneg := sum_owed_nonneg hinv r.tenant
  have hspent_sum : ∑ j, (s.pc j).spent r.tenant = 0 := by
    rw [sum_spent_eq hinv (hp ▸ hlock), hp, hspent]
  have happly : b.apply (.commit id a) = some (b.settle id r.tenant
      ⟨y.initial, y.remaining + r.reserved - a, y.committed + a⟩) :=
    apply_commit_eq_some_iff.2
      ⟨r, hr, y, hy, ⟨by rwa [hcomy, hspent_sum, add_zero], by omega⟩, rfl⟩
  obtain ⟨-, -, hheld, -, hreservations, -⟩ := hpaid.frame
  refine .op happly (h.settled hr (.inl hpending)
    (h.alters_of_charged hy hknown howed hspent hpaid) ?_ ⟨hreservations ▸ hfree, rfl⟩ ?_)
    fun q hq => ⟨hdone, by cases hq; rfl⟩
  · intro t
    rw [hheld, Pc.holding, Pc.holding, hhold]
    simp [heldFor]
  · intro id' r' hne
    refine ⟨by rw [hreservations], fun heq => ?_⟩
    rw [hhold] at heq
    cases heq
    exact hne rfl

theorem takeRelease (hinv : Inv s) (hr : s.engine.reservations id = some r) :
    Answered s.gateFree s.engine (.lockRelease id) b (s.engine.removeReservation id)
      (.release id r .lookup) := by
  obtain ⟨hlt, -, hknown⟩ := hinv.wellFormed.reservations id r hr
  have hb : b.holds id = some r := (h.holds id r).2 (.inl hr)
  obtain ⟨y, hy, -, -, -⟩ := h.account_of_known hknown
  have happly := (apply_release_eq_some_iff (b := b)).2 ⟨r, hb, y, hy, rfl⟩
  refine .op happly (h.settled hb (.inr (by simp [hr]))
    { amounts := amounts_of_account hy
      known t := ?_
      limited _ := trivial
      initial t := by simp [Engine.initial, Engine.removeReservation]
      remaining t := ?_
      committed t := by simp [Engine.committed, Engine.removeReservation]
      cap := rfl
      nextId := rfl
      fresh := rfl
      total _ := le_rfl } ?_
    ⟨by simp [removeReservation], rfl⟩ ?_) (by simp)
  · by_cases heq : t = r.tenant
    · simp [heq, setAccount, Engine.removeReservation, hknown]
    · simpa [heq, setAccount, Engine.removeReservation] using h.known t
  · by_cases heq : t = r.tenant <;> simp [heq, Engine.remaining, Engine.removeReservation]
  · intro t
    rw [held_removeReservation hlt hr]
    simp [heldFor]
  · intro id' r' hne
    simp [removeReservation, hne]

theorem act (hinv : Inv s) (hact : Act s.free s.gateFree s.engine (s.pc i) e' p') :
    Answered s.gateFree s.engine (s.pc i) b e' p' := by
  have hl := hinv.locally i
  generalize hp : s.pc i = p at hact hl
  cases hact with
  | quiet hq => exact h.quiet hp hq
  | ensure hnew => exact h.ensure hinv hnew
  | ensured hold => exact h.ensured hp hold
  | cap hgate => exact h.setCap hp hgate
  | credit hin => exact h.credit hinv hp
  | grant => exact h.grant hinv hp
  | count hmax => exact h.count hp hmax
  | issue hmask => exact h.issue hinv hp
  | undo hp' =>
    obtain ⟨⟨hc, -⟩, -⟩ := hl.sane
    rcases hp' with rfl | ⟨x, rfl⟩
    all_goals exact .same (h.setReservedTotal hp hc.le (fun _ => trivial) (by simp)) (by simp)
  | debit hle => exact h.debit hinv hp hle
  | insert =>
    exact .same (h.insertReservation hinv hp rfl (fun _ => trivial) (by simp) ⟨rfl, rfl⟩) (by simp)
  | takeCommit hr => exact h.takeCommit hinv hp hr
  | @settle id r actual hfree hin hle =>
    have hrem := hinv.wellFormed.remaining_nonneg r.tenant
    exact h.commit hinv hp rfl (by simp) (by simp) rfl (.inr hfree) hin (by omega) (.within hle)
  | @overrun id r actual x hle =>
    obtain ⟨hx, hlt⟩ := hl.committed r.tenant actual x rfl
    obtain ⟨hactual, -, hless, -⟩ := hl.sane
    have hcom := hinv.wellFormed.committed_nonneg r.tenant
    exact h.commit hinv hp rfl (by simp) (by simp) rfl (.inl rfl) ⟨by omega, by omega⟩ hle
      (.overrun hless.le)
  | putBack hp' =>
    rcases hp' with rfl | ⟨x, rfl⟩
    all_goals
      exact .same (h.insertReservation hinv hp rfl (fun _ => trivial) (by simp) ⟨rfl, rfl⟩)
        (by simp)
  | store => exact h.store hinv hp
  | refund | giveBack =>
    exact .same (h.pay hinv hp rfl (fun _ => trivial) (by simp) ⟨rfl, rfl⟩) (by simp)
  | subtract =>
    obtain ⟨-, ⟨hr, -⟩, -⟩ := hl.sane
    exact .same (h.setReservedTotal hp hr.le (fun _ => trivial) (by simp)) (by simp)
  | takeRelease hr => exact h.takeRelease hinv hr
  | uncount =>
    obtain ⟨hr, -⟩ := hl.sane
    exact .same (h.setReservedTotal hp hr.le (fun _ => trivial) (by simp)) (by simp)

end

end Shows

end

end Calybris.Budget
