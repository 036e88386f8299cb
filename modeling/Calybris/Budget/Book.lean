import Calybris.Budget.Ledger

/-!
# The ledger as a book of whole operations

What the engine is for, without its atomics: a tenant has an account, a hold takes
an amount out of it under an identifier that was never used before, and a hold is
settled once. `Book.apply` is one whole operation; it is `none` where the operation
is refused.

The results are about the operations of a book from the beginning: identifiers are
not issued twice, a hold is settled at most once, a hold that was not settled is
open, and the committed amount is what the commits of the tenant say.
-/

namespace Calybris.Budget

open Finset Function Transition Option List

variable {Tenant : Type*} [DecidableEq Tenant]

structure Account where
  initial : Int
  remaining : Int
  committed : Int
  deriving DecidableEq

inductive Op (Tenant : Type*) where
  | ensure (tenant : Tenant) (budget : Int)
  | cap (tenant : Tenant) (max : Int)
  | topUp (tenant : Tenant) (amount : Int)
  | reserve (tenant : Tenant) (cost : Int) (id : Nat)
  | commit (id : Nat) (actual : Int)
  | release (id : Nat)
  deriving DecidableEq

structure Book (Tenant : Type*) where
  account : Tenant → Option Account
  holds : Nat → Option (ReservationRecord Tenant)
  cap : Tenant → Option Int
  /-- The identifiers that were ever given to a hold. -/
  issued : Finset Nat

namespace Book

def empty : Book Tenant := ⟨fun _ => none, fun _ => none, fun _ => none, ∅⟩

variable (b : Book Tenant)

def initial (t : Tenant) : Int := ((b.account t).map Account.initial).getD 0

def remaining (t : Tenant) : Int := ((b.account t).map Account.remaining).getD 0

def committed (t : Tenant) : Int := ((b.account t).map Account.committed).getD 0

def held (t : Tenant) : Int := ∑ id ∈ b.issued, Engine.heldFor t (b.holds id)

def setAccount (t : Tenant) (x : Account) : Book Tenant :=
  { b with account := update b.account t (some x) }

def place (id : Nat) (r : ReservationRecord Tenant) (x : Account) : Book Tenant :=
  { b.setAccount r.tenant x with
    holds := update b.holds id (some r)
    issued := insert id b.issued }

def settle (id : Nat) (t : Tenant) (x : Account) : Book Tenant :=
  { b.setAccount t x with holds := update b.holds id none }

def apply : Op Tenant → Option (Book Tenant)
  | .ensure t x => some (if (b.account t).isNone then b.setAccount t ⟨x, x, 0⟩ else b)
  | .cap t m => some { b with cap := update b.cap t (if m = 0 then none else some m) }
  | .topUp t a =>
    (b.account t).bind fun x =>
      if InI64 (x.initial + a) ∧ InI64 (x.remaining + a) then
        some (b.setAccount t ⟨x.initial + a, x.remaining + a, x.committed⟩)
      else none
  | .reserve t c id =>
    (b.account t).bind fun x =>
      if id ∉ b.issued ∧ c ≤ x.remaining ∧ InI64 (b.held t + c) ∧
          (0 < (b.cap t).getD 0 → b.held t + c ≤ (b.cap t).getD 0) then
        some (b.place id ⟨t, c⟩ ⟨x.initial, x.remaining - c, x.committed⟩)
      else none
  | .commit id actual =>
    (b.holds id).bind fun r => (b.account r.tenant).bind fun x =>
      if InI64 (x.committed + actual) ∧ actual - r.reserved ≤ x.remaining then
        some (b.settle id r.tenant
          ⟨x.initial, x.remaining + r.reserved - actual, x.committed + actual⟩)
      else none
  | .release id =>
    (b.holds id).bind fun r => (b.account r.tenant).map fun x =>
      b.settle id r.tenant ⟨x.initial, x.remaining + r.reserved, x.committed⟩

end Book

/-! ### Operations from the beginning -/

namespace Op

def issues : Op Tenant → Option Nat
  | .reserve _ _ id => some id
  | _ => none

def settles : Op Tenant → Option Nat
  | .commit id _ => some id
  | .release id => some id
  | _ => none

end Op

def issuedIds (ops : List (Op Tenant)) : List Nat := ops.filterMap Op.issues

def settledIds (ops : List (Op Tenant)) : List Nat := ops.filterMap Op.settles

def Op.issuesTo (t : Tenant) (id : Nat) : Op Tenant → Bool
  | .reserve t' _ id' => decide (t' = t ∧ id' = id)
  | _ => false

/-- What one operation commits for a tenant, whose holds are those of `ops`. -/
def Op.spends (ops : List (Op Tenant)) (t : Tenant) : Op Tenant → Int
  | .commit id actual => if ops.any (Op.issuesTo t id) then actual else 0
  | _ => 0

def spentBy (ops : List (Op Tenant)) (t : Tenant) : Int := (ops.map (Op.spends ops t)).sum

section Apply

variable {b b' : Book Tenant} {t : Tenant} {id : Nat} {c actual : Int}

theorem Book.apply_topUp_eq_some_iff {a : Int} :
    b.apply (.topUp t a) = some b' ↔ ∃ x, b.account t = some x ∧
      (InI64 (x.initial + a) ∧ InI64 (x.remaining + a)) ∧
      b.setAccount t ⟨x.initial + a, x.remaining + a, x.committed⟩ = b' := by
  simp only [Book.apply, bind_eq_some_iff, ite_none_right_eq_some, Option.some.injEq]

theorem Book.apply_reserve_eq_some_iff :
    b.apply (.reserve t c id) = some b' ↔ ∃ x, b.account t = some x ∧
      (id ∉ b.issued ∧ c ≤ x.remaining ∧ InI64 (b.held t + c) ∧
        (0 < (b.cap t).getD 0 → b.held t + c ≤ (b.cap t).getD 0)) ∧
      b.place id ⟨t, c⟩ ⟨x.initial, x.remaining - c, x.committed⟩ = b' := by
  simp only [Book.apply, bind_eq_some_iff, ite_none_right_eq_some, Option.some.injEq]

theorem Book.apply_commit_eq_some_iff :
    b.apply (.commit id actual) = some b' ↔ ∃ r, b.holds id = some r ∧
      ∃ x, b.account r.tenant = some x ∧
      (InI64 (x.committed + actual) ∧ actual - r.reserved ≤ x.remaining) ∧
      b.settle id r.tenant
        ⟨x.initial, x.remaining + r.reserved - actual, x.committed + actual⟩ = b' := by
  simp only [Book.apply, bind_eq_some_iff, ite_none_right_eq_some, Option.some.injEq]

theorem Book.apply_release_eq_some_iff :
    b.apply (.release id) = some b' ↔ ∃ r, b.holds id = some r ∧
      ∃ x, b.account r.tenant = some x ∧
      b.settle id r.tenant ⟨x.initial, x.remaining + r.reserved, x.committed⟩ = b' := by
  simp only [Book.apply, bind_eq_some_iff, map_eq_some_iff]

end Apply

section Sums

variable (ops : List (Op Tenant)) (op : Op Tenant)

omit [DecidableEq Tenant] in
@[simp] theorem issuedIds_append_singleton :
    issuedIds (ops ++ [op]) = issuedIds ops ++ op.issues.toList := by
  cases h : op.issues <;> simp [issuedIds, h]

omit [DecidableEq Tenant] in
@[simp] theorem settledIds_append_singleton :
    settledIds (ops ++ [op]) = settledIds ops ++ op.settles.toList := by
  cases h : op.settles <;> simp [settledIds, h]

variable {op} in
theorem Op.issuesTo_of_issues (h : op.issues = none) (t : Tenant) (id : Nat) :
    op.issuesTo t id = false := by
  cases op with
  | reserve => cases h
  | _ => rfl

variable {op} in
theorem Op.spends_of_settles (h : op.settles = none) (t : Tenant) : op.spends ops t = 0 := by
  cases op with
  | commit => cases h
  | _ => rfl

variable {op} in
theorem Op.issues_of_issuesTo {t : Tenant} {id : Nat} (h : op.issuesTo t id = true) :
    op.issues = some id := by
  cases op with
  | reserve t' c id' =>
    rw [Op.issuesTo, decide_eq_true_iff] at h
    rw [Op.issues, h.2]
  | _ => cases h

theorem any_issuesTo_imp {t : Tenant} {id : Nat} (h : ops.any (Op.issuesTo t id) = true) :
    id ∈ issuedIds ops := by
  obtain ⟨op, hop, hissues⟩ := any_eq_true.1 h
  exact mem_filterMap.2 ⟨op, hop, Op.issues_of_issuesTo hissues⟩

omit [DecidableEq Tenant] in
variable {ops} in
theorem mem_issuedIds {t : Tenant} {c : Int} {id : Nat} (h : Op.reserve t c id ∈ ops) :
    id ∈ issuedIds ops :=
  mem_filterMap.2 ⟨_, h, rfl⟩

/-- Commits of identifiers that were issued mean the same after one more operation
that issues another one. -/
theorem spends_append_singleton {op' : Op Tenant} (hop' : op' ∈ ops)
    (hsettled : ∀ id ∈ settledIds ops, id ∈ issuedIds ops)
    (hfresh : ∀ id, op.issues = some id → id ∉ issuedIds ops) (t : Tenant) :
    op'.spends (ops ++ [op]) t = op'.spends ops t := by
  cases op' with
  | commit id actual =>
    have hid : id ∈ issuedIds ops := by
      apply hsettled
      rw [settledIds, List.mem_filterMap]
      exact ⟨_, hop', rfl⟩
    have hother : op.issuesTo t id = false := by
      cases op with
      | reserve t' c id' =>
        have hne : id' ≠ id := fun h => hfresh id' rfl (h ▸ hid)
        simp [Op.issuesTo, hne]
      | _ => rfl
    simp [Op.spends, hother]
  | _ => rfl

theorem spentBy_append_singleton (hsettled : ∀ id ∈ settledIds ops, id ∈ issuedIds ops)
    (hfresh : ∀ id, op.issues = some id → id ∉ issuedIds ops) (t : Tenant) :
    spentBy (ops ++ [op]) t = spentBy ops t + op.spends (ops ++ [op]) t := by
  have hmap : ops.map (Op.spends (ops ++ [op]) t) = ops.map (Op.spends ops t) :=
    List.map_congr_left fun op' hop' => spends_append_singleton ops op hop' hsettled hfresh t
  rw [spentBy, List.map_append, hmap, List.sum_append, List.map_singleton, List.sum_singleton,
    spentBy]

theorem spentBy_perm {ops' : List (Op Tenant)} (h : ops.Perm ops') (t : Tenant) :
    spentBy ops t = spentBy ops' t := by
  have hspends : Op.spends ops t = Op.spends ops' t := by
    funext op
    cases op with
    | commit id actual => simp only [Op.spends, h.any_eq]
    | _ => rfl
  rw [spentBy, spentBy, hspends, (h.map _).sum_eq]

/-- Operations that settle nothing, and issue nothing that is settled, spend nothing. -/
theorem spentBy_append {ops' : List (Op Tenant)} (hsettles : ∀ op ∈ ops', op.settles = none)
    (hissues : ∀ op ∈ ops', ∀ id, op.issues = some id → id ∉ settledIds ops) (t : Tenant) :
    spentBy (ops ++ ops') t = spentBy ops t := by
  have hzero : ops'.map (Op.spends (ops ++ ops') t) = ops'.map fun _ => 0 :=
    map_congr_left fun op hop => Op.spends_of_settles _ (hsettles op hop) t
  have hsame : ops.map (Op.spends (ops ++ ops') t) = ops.map (Op.spends ops t) := by
    apply map_congr_left
    intro op hop
    cases op with
    | commit id actual =>
      have hnone : ops'.any (Op.issuesTo t id) = false := by
        by_contra hany
        obtain ⟨op', hop', hto⟩ := any_eq_true.1 (by simpa using hany)
        exact hissues op' hop' id (Op.issues_of_issuesTo hto) (mem_filterMap.2 ⟨_, hop, rfl⟩)
      simp [Op.spends, any_append, hnone]
    | _ => rfl
  rw [spentBy, map_append, sum_append, hzero, hsame, spentBy]
  simp

end Sums

/-! ### The accounts of a changed book -/

namespace Book

variable {b : Book Tenant} {t t' : Tenant} {x : Account} {id : Nat}
  {r : ReservationRecord Tenant}

theorem initial_setAccount :
    (b.setAccount t x).initial t' = if t' = t then x.initial else b.initial t' := by
  by_cases h : t' = t <;> simp [initial, setAccount, h]

theorem remaining_setAccount :
    (b.setAccount t x).remaining t' = if t' = t then x.remaining else b.remaining t' := by
  by_cases h : t' = t <;> simp [remaining, setAccount, h]

theorem committed_setAccount :
    (b.setAccount t x).committed t' = if t' = t then x.committed else b.committed t' := by
  by_cases h : t' = t <;> simp [committed, setAccount, h]

omit [DecidableEq Tenant] in
theorem amounts_of_account (h : b.account t = some x) :
    b.initial t = x.initial ∧ b.remaining t = x.remaining ∧ b.committed t = x.committed := by
  simp [initial, remaining, committed, h]

theorem held_place (hid : id ∉ b.issued) (t : Tenant) :
    (b.place id r x).held t = b.held t + Engine.heldFor t (some r) := by
  have hnew : (b.place id r x).holds id = some r := update_self ..
  have hold : ∀ id' ∈ b.issued, (b.place id r x).holds id' = b.holds id' := by
    intro id' hmem
    exact update_of_ne (ne_of_mem_of_not_mem hmem hid) _ _
  have hissued : (b.place id r x).issued = insert id b.issued := rfl
  rw [held, hissued, sum_insert hid, hnew, add_comm, held,
    sum_congr rfl fun id' hmem => by rw [hold id' hmem]]

theorem held_settle (hid : id ∈ b.issued) (hr : b.holds id = some r) (t' : Tenant) :
    (b.settle id t x).held t' = b.held t' - Engine.heldFor t' (some r) := by
  have h := sum_update hid (Engine.heldFor t') b.holds none
  rw [hr] at h
  simpa [held, settle, setAccount, Engine.heldFor] using h

theorem amounts_of_reserve {b' : Book Tenant} {c : Int}
    (h : b.apply (.reserve t c id) = some b') :
    id ∉ b.issued ∧ b'.holds = update b.holds id (some ⟨t, c⟩) ∧
      b'.held t = b.held t + c ∧ b'.committed t = b.committed t ∧ b'.initial t = b.initial t := by
  obtain ⟨x, hx, ⟨hid, -⟩, rfl⟩ := apply_reserve_eq_some_iff.1 h
  obtain ⟨hinitial, -, hcommitted⟩ := amounts_of_account hx
  refine ⟨hid, rfl, ?_, ?_, ?_⟩
  · rw [held_place hid, Engine.heldFor, if_pos rfl]
  · exact committed_setAccount.trans ((if_pos rfl).trans hcommitted.symm)
  · exact initial_setAccount.trans ((if_pos rfl).trans hinitial.symm)

theorem amounts_of_settle (hid : id ∈ b.issued) (hr : b.holds id = some r) (x : Account) :
    (b.settle id r.tenant x).holds = update b.holds id none ∧
      (b.settle id r.tenant x).held r.tenant = b.held r.tenant - r.reserved ∧
      (b.settle id r.tenant x).committed r.tenant = x.committed ∧
      (b.settle id r.tenant x).initial r.tenant = x.initial := by
  refine ⟨rfl, ?_, committed_setAccount.trans (if_pos rfl), initial_setAccount.trans (if_pos rfl)⟩
  rw [held_settle hid hr, Engine.heldFor, if_pos rfl]

end Book

/-- What the operations from the beginning say about the book they lead to. -/
structure Booked (ops : List (Op Tenant)) (b : Book Tenant) : Prop where
  issued : ∀ id, id ∈ b.issued ↔ id ∈ issuedIds ops
  issued_nodup : (issuedIds ops).Nodup
  settled_nodup : (settledIds ops).Nodup
  settled_issued : ∀ id ∈ settledIds ops, id ∈ issuedIds ops
  isSome_holds : ∀ id, (b.holds id).isSome ↔ id ∈ issuedIds ops ∧ id ∉ settledIds ops
  holder : ∀ id r, b.holds id = some r → ∀ t, ops.any (Op.issuesTo t id) = decide (r.tenant = t)
  record : ∀ id r, b.holds id = some r → ∀ t c, Op.reserve t c id ∈ ops → r = ⟨t, c⟩
  committed : ∀ t, b.committed t = spentBy ops t

namespace Booked

variable {ops : List (Op Tenant)} {op : Op Tenant} {b b' : Book Tenant}

theorem empty : Booked [] (Book.empty : Book Tenant) where
  issued id := by simp [Book.empty, issuedIds]
  issued_nodup := .nil
  settled_nodup := .nil
  settled_issued id h := by cases h
  isSome_holds id := by simp [Book.empty, issuedIds]
  holder id r h := by cases h
  record id r h := by cases h
  committed t := rfl

/-- An operation that neither issues nor settles an identifier. -/
theorem other (h : Booked ops b) (hissues : op.issues = none) (hsettles : op.settles = none)
    (hissued : b'.issued = b.issued) (hholds : b'.holds = b.holds)
    (hcommitted : ∀ t, b'.committed t = b.committed t) : Booked (ops ++ [op]) b' := by
  constructor
  case holder =>
    intro id r hr t
    rw [hholds] at hr
    simp [Op.issuesTo_of_issues hissues, h.holder id r hr]
  case record =>
    intro id r hr t c hmem
    rw [hholds] at hr
    rcases mem_append.1 hmem with hold | hnew
    · exact h.record id r hr t c hold
    · rw [← List.mem_singleton.1 hnew] at hissues
      cases hissues
  case committed =>
    intro t
    rw [spentBy_append_singleton ops op h.settled_issued (by simp [hissues]),
      Op.spends_of_settles _ hsettles, add_zero, hcommitted, h.committed]
  all_goals simp only [issuedIds_append_singleton, settledIds_append_singleton, hissues, hsettles,
    toList_none, append_nil, hissued, hholds]
  exacts [h.issued, h.issued_nodup, h.settled_nodup, h.settled_issued, h.isSome_holds]

theorem reserve {t : Tenant} {c : Int} {id : Nat} (h : Booked ops b) (hid : id ∉ b.issued)
    (hissued : b'.issued = insert id b.issued)
    (hholds : b'.holds = update b.holds id (some ⟨t, c⟩))
    (hcommitted : ∀ t, b'.committed t = b.committed t) :
    Booked (ops ++ [.reserve t c id]) b' := by
  have hnew : id ∉ issuedIds ops := fun hmem => hid ((h.issued id).2 hmem)
  have hnot : ∀ t', ops.any (Op.issuesTo t' id) = false := by
    intro t'
    by_contra hany
    exact hnew (any_issuesTo_imp ops (by simpa using hany))
  have hfresh : ∀ id', (Op.reserve t c id).issues = some id' → id' ∉ issuedIds ops := by
    rintro _ ⟨⟩
    exact hnew
  constructor
  case holder =>
    intro id' r hr t'
    rw [hholds] at hr
    by_cases heq : id' = id
    · subst heq
      obtain rfl : (⟨t, c⟩ : ReservationRecord Tenant) = r := by simpa using hr
      simp [hnot, Op.issuesTo]
    · rw [update_of_ne heq] at hr
      simp [h.holder id' r hr, Op.issuesTo, Ne.symm heq]
  case record =>
    intro id' r hr t' c' hmem
    rw [hholds] at hr
    by_cases heq : id' = id
    · subst heq
      obtain rfl : (⟨t, c⟩ : ReservationRecord Tenant) = r := by simpa using hr
      rcases mem_append.1 hmem with hold | hlast
      · exact absurd (mem_issuedIds hold) hnew
      · obtain ⟨rfl, rfl, -⟩ := Op.reserve.inj (List.mem_singleton.1 hlast)
        rfl
    · rw [update_of_ne heq] at hr
      rcases mem_append.1 hmem with hold | hlast
      · exact h.record id' r hr t' c' hold
      · exact absurd (Op.reserve.inj (List.mem_singleton.1 hlast)).2.2 heq
  case committed =>
    intro t'
    rw [spentBy_append_singleton ops _ h.settled_issued hfresh, hcommitted, h.committed]
    simp [Op.spends]
  case issued =>
    intro id'
    simp [hissued, h.issued, Op.issues, or_comm]
  case issued_nodup =>
    simpa [Op.issues, nodup_append] using ⟨h.issued_nodup, fun a ha heq => hnew (heq ▸ ha)⟩
  case settled_nodup => simpa [Op.settles] using h.settled_nodup
  case settled_issued =>
    intro id' hid'
    have hold := h.settled_issued id' (by simpa [Op.settles] using hid')
    simp [hold]
  case isSome_holds =>
    intro id'
    rw [hholds]
    by_cases heq : id' = id
    · subst heq
      have hsettled : id' ∉ settledIds ops := fun hmem => hnew (h.settled_issued id' hmem)
      simp [Op.issues, Op.settles, hsettled]
    · rw [update_of_ne heq, h.isSome_holds]
      simp [Op.issues, Op.settles, heq]

theorem settle {id : Nat} {r : ReservationRecord Tenant} (h : Booked ops b)
    (hr : b.holds id = some r) (hissues : op.issues = none) (hsettles : op.settles = some id)
    (hissued : b'.issued = b.issued) (hholds : b'.holds = update b.holds id none)
    (hcommitted : ∀ t, b'.committed t = b.committed t + op.spends (ops ++ [op]) t) :
    Booked (ops ++ [op]) b' := by
  obtain ⟨hin, hout⟩ := (h.isSome_holds id).1 (by simp [hr])
  constructor
  case holder =>
    intro id' r' hr' t
    rw [hholds] at hr'
    by_cases heq : id' = id
    · simp [heq] at hr'
    · rw [update_of_ne heq] at hr'
      simp [h.holder id' r' hr', Op.issuesTo_of_issues hissues]
  case record =>
    intro id' r' hr' t c hmem
    rw [hholds] at hr'
    by_cases heq : id' = id
    · simp [heq] at hr'
    · rw [update_of_ne heq] at hr'
      rcases mem_append.1 hmem with hold | hlast
      · exact h.record id' r' hr' t c hold
      · rw [← List.mem_singleton.1 hlast] at hissues
        cases hissues
  case committed =>
    intro t
    rw [spentBy_append_singleton ops op h.settled_issued (by simp [hissues]), hcommitted,
      h.committed]
  case issued => simpa [hissues, hissued] using h.issued
  case issued_nodup => simpa [hissues] using h.issued_nodup
  case settled_nodup =>
    simpa [hsettles, nodup_append] using
      ⟨h.settled_nodup, fun a ha heq => hout (heq ▸ ha)⟩
  case settled_issued =>
    intro id' hid'
    rw [settledIds_append_singleton, hsettles, mem_append] at hid'
    rw [issuedIds_append_singleton, hissues, toList_none, append_nil]
    rcases hid' with hold | hlast
    · exact h.settled_issued id' hold
    · obtain rfl : id' = id := by simpa using hlast
      exact hin
  case isSome_holds =>
    intro id'
    rw [hholds]
    by_cases heq : id' = id
    · simp [heq, hsettles]
    · rw [update_of_ne heq, h.isSome_holds]
      simp [hissues, hsettles, heq]

theorem apply (h : Booked ops b) (happly : b.apply op = some b') : Booked (ops ++ [op]) b' := by
  cases op with
  | ensure t x =>
    cases happly
    split
    · next hnone =>
      refine h.other rfl rfl rfl rfl fun t' => ?_
      rw [Book.committed_setAccount]
      split
      · next heq =>
        subst heq
        simp [Book.committed, isNone_iff_eq_none.1 hnone]
      · rfl
    · exact h.other rfl rfl rfl rfl fun _ => rfl
  | cap t m =>
    cases happly
    exact h.other rfl rfl rfl rfl fun _ => rfl
  | topUp t a =>
    obtain ⟨x, hx, -, rfl⟩ := Book.apply_topUp_eq_some_iff.1 happly
    refine h.other rfl rfl rfl rfl fun t' => ?_
    rw [Book.committed_setAccount]
    split
    · next heq => rw [heq, (Book.amounts_of_account hx).2.2]
    · rfl
  | reserve t c id =>
    obtain ⟨x, hx, ⟨hid, -⟩, rfl⟩ := Book.apply_reserve_eq_some_iff.1 happly
    refine h.reserve hid rfl rfl fun t' => ?_
    refine Book.committed_setAccount.trans ?_
    split
    · next heq => rw [heq, (Book.amounts_of_account hx).2.2]
    · rfl
  | commit id actual =>
    obtain ⟨r, hr, x, hx, -, rfl⟩ := Book.apply_commit_eq_some_iff.1 happly
    refine h.settle hr rfl rfl rfl rfl fun t' => ?_
    refine Book.committed_setAccount.trans ?_
    have hany : (ops ++ [Op.commit id actual]).any (Op.issuesTo t' id) =
        decide (r.tenant = t') := by
      rw [any_append, h.holder id r hr t']
      exact Bool.or_false _
    rw [Op.spends, hany]
    by_cases heq : t' = r.tenant
    · simp [heq, (Book.amounts_of_account hx).2.2]
    · simp [heq, Ne.symm heq]
  | release id =>
    obtain ⟨r, hr, x, hx, rfl⟩ := Book.apply_release_eq_some_iff.1 happly
    refine h.settle hr rfl rfl rfl rfl fun t' => ?_
    refine Book.committed_setAccount.trans ?_
    split
    · next heq => simp [heq, (Book.amounts_of_account hx).2.2, Op.spends]
    · simp [Op.spends]

theorem of_run (h : run Book.apply Book.empty ops = some b) : Booked ops b :=
  run_history empty (fun hs hstep => hs.apply hstep) h

end Booked

end Calybris.Budget
