import Calybris.Budget.Shared

/-!
# The allocator

Identifiers and snapshots take positions of one allocator, and it never goes back. A
reservation takes its position in the middle of the call and its identifier is issued
when the call returns. When the allocator is exhausted both are refused.
-/

namespace Calybris.Budget

open Finset Transition List

variable {Tenant : Type*}

@[simp] def Outcome.issued : Outcome → Option Nat
  | .reservation _ id => id
  | _ => none

@[simp] def Pc.allocated : Pc Tenant → Option Nat
  | .reserve _ _ (.load id) | .reserve _ _ (.debit id _) | .reserve _ _ (.insert id _) => some id
  | _ => none

/-! ### One step of a thread -/

section

variable [DecidableEq Tenant] {free : Mutex → Bool} {fails gateFree : Bool}
  {e e' : Engine Tenant} {p p' : Pc Tenant}

inductive Allocation (e : Engine Tenant) (p : Pc Tenant) (e' : Engine Tenant) (p' : Pc Tenant) :
    Prop
  | keep (hid : e'.nextId = e.nextId) (h : ∀ id, p'.allocated = some id → p.allocated = some id)
      (hissued : ∀ o, p' = .idle (some o) → o.issued = none)
  | allot (hlt : e.nextId < recoveryAllocatorMask) (hid : e'.nextId = e.nextId + 1)
      (h : p'.allocated = some e.nextId) (hissued : p'.inProgress)
  | issue {id result} (hid : e'.nextId = e.nextId) (h : p.allocated = some id)
      (hissued : p' = .idle (some (.reservation result (some id))))

theorem tryReserve_allocation {t : Tenant} {c : Int} {stage : ReserveStage}
    (h : tryReserve free fails e t c stage = some (e', p')) :
    Allocation e (.reserve t c stage) e' p' := by
  cases stage with
  | allocate =>
    simp only [tryReserve] at h
    split at h
    · next hlt =>
      cases h
      exact .allot hlt rfl rfl rfl
    · cases h
      exact .keep rfl (by simp) (by simp)
  | insert id remaining =>
    simp only [tryReserve] at h
    split at h
    · cases h
      exact .issue rfl rfl rfl
    · cases h
  | undo insufficient =>
    cases insufficient <;> cases h <;> exact .keep rfl (by simp) (by simp)
  | _ =>
    simp only [tryReserve] at h
    repeat' split at h
    all_goals
      cases h
      exact .keep rfl (by simp) (by simp)

theorem advance_allocation (h : advance free fails e gateFree p = some (e', p')) :
    Allocation e p e' p' := by
  cases p with
  | idle => cases h
  | reserve t c stage => exact tryReserve_allocation h
  | ensure t b =>
    simp only [advance, tryEnsureTenant] at h
    split at h
    · cases h
      exact .keep (by split <;> rfl) (by simp) (by simp)
    · cases h
  | setMaxReserved t m =>
    simp only [advance, trySetMaxReserved] at h
    split at h <;> cases h
    exact .keep rfl (by simp) (by simp)
  | topUp t a stage =>
    cases stage <;> simp only [advance, topUpTenant] at h <;> (repeat' split at h) <;> cases h <;>
      exact .keep rfl (by simp) (by simp)
  | lockCommit id actual =>
    simp only [advance, lockCommit] at h
    (repeat' split at h) <;> cases h <;> exact .keep rfl (by simp) (by simp)
  | lockRelease id =>
    simp only [advance, lockRelease] at h
    (repeat' split at h) <;> cases h <;> exact .keep rfl (by simp) (by simp)
  | release id r stage =>
    cases stage <;> simp only [advance, release] at h <;> (repeat' split at h) <;> cases h <;>
      exact .keep rfl (by simp) (by simp)
  | commit id r actual stage =>
    cases stage with
    | reinsert current => cases current <;> cases h <;> exact .keep rfl (by simp) (by simp)
    | _ =>
      simp only [advance, commit] at h
      (repeat' split at h) <;> cases h <;> exact .keep rfl (by simp) (by simp)

omit [DecidableEq Tenant] in
theorem Call.allocated_start (c : Call Tenant) : c.start.allocated = none := by
  cases c <;> simp only [Call.start] <;> (try split) <;> rfl

omit [DecidableEq Tenant] in
theorem Call.issued_start {c : Call Tenant} {o : Outcome} (h : c.start = .idle (some o)) :
    o.issued = none := by
  cases c <;> simp only [Call.start] at h <;> (try split at h) <;> cases h <;> rfl

end

/-! ### One step of the whole -/

section

variable [LinearOrder Tenant] {n m : Nat} {s s' : Shared Tenant n m}

/-- What is worth noting about an engine, for the engines that come after it. -/
inductive Note (Tenant : Type*) where
  | issued (id : Nat)
  | captured (snapshot : BudgetSnapshot Tenant)
  deriving DecidableEq

def Reply.issued (r : Reply Tenant) : Option Nat := r.outcome.issued

/-- The identifiers that were returned, and the snapshots that were taken, since `s`. -/
def Shared.news (s s' : Shared Tenant n m) : List (Note Tenant) :=
  ((s'.history.replies.drop s.history.replies.length).filterMap Reply.issued).map Note.issued ++
    (s'.history.captures.drop s.history.captures.length).map Note.captured

inductive Shared.Allots (s s' : Shared Tenant n m) : Prop
  | keep (hid : s'.core.engine.nextId = s.core.engine.nextId)
      (h : ∀ i id, (s'.core.pc i).allocated = some id → (s.core.pc i).allocated = some id)
      (hnews : s.news s' = [])
  | allot {i} (hlt : s.core.engine.nextId < recoveryAllocatorMask)
      (hid : s'.core.engine.nextId = s.core.engine.nextId + 1)
      (h : ∀ j id, (s'.core.pc j).allocated = some id →
        j = i ∧ id = s.core.engine.nextId ∨ (s.core.pc j).allocated = some id)
      (hnews : s.news s' = [])
  | issue {i id} (hid : s'.core.engine.nextId = s.core.engine.nextId)
      (hi : (s.core.pc i).allocated = some id)
      (h : ∀ j id, (s'.core.pc j).allocated = some id → j ≠ i ∧ (s.core.pc j).allocated = some id)
      (hnews : s.news s' = [.issued id])
  | capture (hlt : s.core.engine.nextId < recoveryAllocatorMask)
      (hid : s'.core.engine.nextId = s.core.engine.nextId + 1) (h : s'.core.pc = s.core.pc)
      (hnews : s.news s' = [.captured (s.core.engine.picture s.registry.tenants)])

theorem Shared.Allots.nextId_le (h : s.Allots s') :
    s.core.engine.nextId ≤ s'.core.engine.nextId := by
  cases h with
  | keep hid | issue hid => exact hid.ge
  | allot _ hid | capture _ hid => exact hid ▸ Nat.le_succ _

omit [LinearOrder Tenant] in
theorem History.replies_arrive (h : History Tenant n) (i : Fin n) (p : Pc Tenant) :
    (h.arrive i p).replies = h.replies ∨
      ∃ r, (h.arrive i p).replies = h.replies ++ [r] ∧ p = .idle (some r.outcome) := by
  unfold History.arrive
  split
  · exact .inr ⟨_, rfl, rfl⟩
  · exact .inl rfl

omit [LinearOrder Tenant] in
@[simp] theorem History.captures_arrive (h : History Tenant n) (i : Fin n) (p : Pc Tenant) :
    (h.arrive i p).captures = h.captures := by
  unfold History.arrive
  split <;> rfl

omit [LinearOrder Tenant] in
theorem Shared.news_eq_nil (hreplies : s'.history.replies = s.history.replies)
    (hcaptures : s'.history.captures = s.history.captures) : s.news s' = [] := by
  rw [Shared.news, hreplies, hcaptures, drop_length, drop_length]
  rfl

omit [LinearOrder Tenant] in
theorem Shared.news_reply {r : Reply Tenant}
    (hreplies : s'.history.replies = s.history.replies ++ [r])
    (hcaptures : s'.history.captures = s.history.captures) :
    s.news s' = r.issued.toList.map Note.issued := by
  rw [Shared.news, hreplies, hcaptures, drop_length, drop_left]
  cases hissued : r.issued <;> simp [hissued]

omit [LinearOrder Tenant] in
theorem Pc.allocated_update {pc : Fin n → Pc Tenant} {i j : Fin n} {p : Pc Tenant} {id : Nat}
    (h : (Function.update pc i p j).allocated = some id) :
    j = i ∧ p.allocated = some id ∨ j ≠ i ∧ (pc j).allocated = some id := by
  by_cases heq : j = i
  · subst heq
    rw [Function.update_self] at h
    exact .inl ⟨rfl, h⟩
  · rw [Function.update_of_ne heq] at h
    exact .inr ⟨heq, h⟩

theorem Shared.Step.allots (h : s.Step s') : s.Allots s' := by
  cases h with
  | @call i c hidle =>
    refine .keep rfl ?_ ?_
    · intro j id hj
      rcases Pc.allocated_update hj with ⟨-, hstart⟩ | ⟨-, hj⟩
      · rw [c.allocated_start] at hstart
        cases hstart
      · exact hj
    · rcases (s.history.begin i c).replies_arrive i c.start with hsame | ⟨r, hreply, hstart⟩
      · exact Shared.news_eq_nil hsame (History.captures_arrive ..)
      · rw [Shared.news_reply hreply (History.captures_arrive ..), Reply.issued,
          Call.issued_start hstart]
        rfl
  | @advance i fails e' p' hadvance =>
    have hcaptures := s.history.captures_arrive i p'
    cases advance_allocation hadvance with
    | keep hid hp' hissued =>
      refine .keep hid ?_ ?_
      · intro j id hj
        rcases Pc.allocated_update hj with ⟨rfl, hown⟩ | ⟨-, hother⟩
        · exact hp' id hown
        · exact hother
      · rcases s.history.replies_arrive i p' with hsame | ⟨r, hreply, hlast⟩
        · exact Shared.news_eq_nil hsame hcaptures
        · rw [Shared.news_reply hreply hcaptures, Reply.issued, hissued _ hlast]
          rfl
    | allot hlt hid hp' hprogress =>
      refine .allot (i := i) hlt hid ?_ ?_
      · intro j id hj
        rcases Pc.allocated_update hj with ⟨rfl, hown⟩ | ⟨-, hother⟩
        · exact .inl ⟨rfl, (Option.some.inj (hp'.symm.trans hown)).symm⟩
        · exact .inr hother
      · rcases s.history.replies_arrive i p' with hsame | ⟨r, hreply, hlast⟩
        · exact Shared.news_eq_nil hsame hcaptures
        · rw [hlast] at hprogress
          cases hprogress
    | @issue id result hid hp hlast =>
      have hothers : ∀ j id, (Function.update s.core.pc i p' j).allocated = some id →
          j ≠ i ∧ (s.core.pc j).allocated = some id := by
        intro j id hj
        rcases Pc.allocated_update hj with ⟨-, hj⟩ | hj
        · rw [hlast] at hj
          cases hj
        · exact hj
      rcases s.history.replies_arrive i p' with hsame | ⟨r, hreply, hr⟩
      · exact .keep hid (fun j id hj => (hothers j id hj).2)
          (Shared.news_eq_nil hsame hcaptures)
      · refine .issue hid hp hothers ?_
        rw [Shared.news_reply hreply hcaptures, Reply.issued,
          ← Option.some.inj (Pc.idle.inj (hlast.symm.trans hr))]
        rfl
  | @take j o hgate hlt ho =>
    refine .capture hlt rfl rfl ?_
    simp [Shared.news, Shared.after, Shared.move, History.tick]
  | ask | refuse | give | fail | certify =>
    exact .keep rfl (fun _ _ hj => hj) (Shared.news_eq_nil rfl rfl)

/-! ### The notes of an engine -/

namespace Note

/-- The position is among those taken from `low` to below `high`, and for a snapshot the
next one is in the version. -/
def Within (low high : Nat) : Note Tenant → Prop
  | .issued id => low ≤ id ∧ id < high
  | .captured snapshot => ∃ fence, low < fence ∧ fence ≤ high ∧ fence ≤ recoveryAllocatorMask ∧
      snapshot.version = recoverySnapshotTag ||| fence

def Before : Note Tenant → Note Tenant → Prop
  | .issued id, .issued id' => id ≠ id'
  | .issued id, .captured snapshot => recoverySnapshotTag + id < snapshot.version
  | .captured snapshot, .captured snapshot' => snapshot.version < snapshot'.version
  | .captured _, .issued _ => True

omit [LinearOrder Tenant] in
theorem Within.mono {low high high' : Nat} {x : Note Tenant} (h : x.Within low high)
    (hle : high ≤ high') : x.Within low high' := by
  cases x with
  | issued id => exact ⟨h.1, h.2.trans_le hle⟩
  | captured snapshot =>
    obtain ⟨fence, hlow, hhigh, hmask, hversion⟩ := h
    exact ⟨fence, hlow, hhigh.trans hle, hmask, hversion⟩

theorem Within.before_picture {low : Nat} {x : Note Tenant} {e : Engine Tenant}
    (h : x.Within low e.nextId) (hlt : e.nextId < recoveryAllocatorMask) (tenants : List Tenant) :
    x.Before (.captured (e.picture tenants)) := by
  have hversion : (e.picture tenants).version = 2 ^ 63 + (e.nextId + 1) := tag_or_eq_add hlt
  cases x with
  | issued id =>
    obtain ⟨-, hid⟩ := h
    simp only [Before, hversion, recoverySnapshotTag]
    omega
  | captured snapshot =>
    obtain ⟨fence, -, hhigh, hmask, hfence⟩ := h
    rw [tag_or_eq_add hmask] at hfence
    simp only [Before, hversion, hfence]
    omega

end Note

/-- The notes of an engine that began with the position `low`, each with the time at which
it was made. -/
structure Allocates (low clock : Nat) (s : Shared Tenant n m) (trail : List (Nat × Note Tenant)) :
    Prop where
  low_le : low ≤ s.core.engine.nextId
  pending : ∀ i id, (s.core.pc i).allocated = some id →
    low ≤ id ∧ id < s.core.engine.nextId ∧ ∀ t, (t, .issued id) ∉ trail
  distinct : ∀ i j id, (s.core.pc i).allocated = some id → (s.core.pc j).allocated = some id → i = j
  within : ∀ x ∈ trail, x.1 < clock ∧ x.2.Within low s.core.engine.nextId
  ordered : trail.Pairwise fun x y => x.1 < y.1 ∧ x.2.Before y.2

namespace Allocates

variable {low clock : Nat} {trail : List (Nat × Note Tenant)}

omit [LinearOrder Tenant] in
theorem start (e : Engine Tenant) (registry : Registry Tenant) :
    Allocates e.nextId clock (Shared.start e registry : Shared Tenant n m) [] where
  low_le := le_rfl
  pending i id h := by cases h
  distinct i j id h := by cases h
  within x hx := by cases hx
  ordered := .nil

section

variable (h : Allocates low clock s trail)

include h

omit [LinearOrder Tenant] in
theorem wait : Allocates low (clock + 1) s trail :=
  { h with within := fun x hx => ⟨(h.within x hx).1.trans (Nat.lt_succ_self _), (h.within x hx).2⟩ }

omit [LinearOrder Tenant] in
theorem note {x : Note Tenant} (hid : s.core.engine.nextId ≤ s'.core.engine.nextId)
    (hpending : ∀ i id, (s'.core.pc i).allocated = some id →
      (s.core.pc i).allocated = some id ∧ x ≠ .issued id) (hx : x.Within low s'.core.engine.nextId)
    (hbefore : ∀ y ∈ trail, y.2.Before x) :
    Allocates low (clock + 1) s' (trail ++ [(clock, x)]) where
  low_le := h.low_le.trans hid
  pending i id hi := by
    obtain ⟨hi, hne⟩ := hpending i id hi
    obtain ⟨hlow, hlt, hnew⟩ := h.pending i id hi
    refine ⟨hlow, hlt.trans_le hid, fun t ht => ?_⟩
    rcases List.mem_append.1 ht with ht | ht
    · exact hnew t ht
    · exact hne (Prod.mk.inj (List.mem_singleton.1 ht)).2.symm
  distinct i j id hi hj := h.distinct i j id (hpending i id hi).1 (hpending j id hj).1
  within y hy := by
    rcases List.mem_append.1 hy with hy | hy
    · obtain ⟨htime, hwithin⟩ := h.within y hy
      exact ⟨htime.trans (Nat.lt_succ_self _), hwithin.mono hid⟩
    · obtain rfl := List.mem_singleton.1 hy
      exact ⟨Nat.lt_succ_self _, hx⟩
  ordered := by
    rw [List.pairwise_append]
    refine ⟨h.ordered, List.pairwise_singleton _ _, fun y hy z hz => ?_⟩
    obtain rfl := List.mem_singleton.1 hz
    exact ⟨(h.within y hy).1, hbefore y hy⟩

theorem step (hstep : s.Allots s') :
    Allocates low (clock + 1) s' (trail ++ (s.news s').map (Prod.mk clock)) := by
  cases hstep with
  | keep hid hpc hnews =>
    rw [hnews, map_nil, append_nil]
    exact
      { low_le := hid ▸ h.low_le
        pending := fun i id hi => hid ▸ h.pending i id (hpc i id hi)
        distinct := fun i j id hi hj => h.distinct i j id (hpc i id hi) (hpc j id hj)
        within := fun x hx => hid ▸ h.wait.within x hx
        ordered := h.ordered }
  | @allot i hlt hid hpc hnews =>
    rw [hnews, map_nil, append_nil]
    -- The new identifier is above all that were taken before.
    have hnew : ∀ j, (s.core.pc j).allocated ≠ some s.core.engine.nextId := fun j hj =>
      (h.pending j _ hj).2.1.false
    refine ⟨by have := h.low_le; omega, ?_, ?_, ?_, h.ordered⟩
    · intro j id hj
      rcases hpc j id hj with ⟨-, rfl⟩ | hj
      · exact ⟨h.low_le, by omega, fun t ht => (h.within _ ht).2.2.false⟩
      · obtain ⟨hlow, hid', hfresh⟩ := h.pending j id hj
        exact ⟨hlow, by omega, hfresh⟩
    · intro j k id hj hk
      rcases hpc j id hj with ⟨rfl, rfl⟩ | hj <;> rcases hpc k _ hk with ⟨rfl, hk⟩ | hk
      · rfl
      · exact absurd hk (hnew k)
      · exact absurd (hk ▸ hj) (hnew j)
      · exact h.distinct j k id hj hk
    · intro x hx
      obtain ⟨htime, hwithin⟩ := h.within x hx
      exact ⟨htime.trans (Nat.lt_succ_self _), hwithin.mono (by omega)⟩
  | @issue i id hid hi hpc hnews =>
    rw [hnews]
    obtain ⟨hlow, hlt, hfresh⟩ := h.pending i id hi
    refine h.note hid.ge ?_ ⟨hlow, hid ▸ hlt⟩ ?_
    · intro j id' hj
      obtain ⟨hne, hj⟩ := hpc j id' hj
      refine ⟨hj, fun heq => hne ?_⟩
      obtain rfl := Note.issued.inj heq
      exact h.distinct j i id hj hi
    · rintro ⟨t, y⟩ hy
      cases y with
      | issued id' =>
        rintro rfl
        exact hfresh t hy
      | captured snapshot => exact trivial
  | capture hlt hid hpc hnews =>
    rw [hnews]
    refine h.note (by omega) (fun i id hi => ⟨hpc ▸ hi, nofun⟩) ?_ ?_
    · exact ⟨s.core.engine.nextId + 1, by have := h.low_le; omega, hid.ge, hlt, rfl⟩
    · exact fun y hy => (h.within y hy).2.before_picture hlt _

omit [LinearOrder Tenant] in
theorem before_of_lt {x y : Nat × Note Tenant} (hx : x ∈ trail) (hy : y ∈ trail) (hlt : x.1 < y.1) :
    x.2.Before y.2 := by
  obtain ⟨i, hi, rfl⟩ := mem_iff_getElem.1 hx
  obtain ⟨j, hj, rfl⟩ := mem_iff_getElem.1 hy
  have hordered := pairwise_iff_getElem.1 h.ordered
  rcases Nat.lt_trichotomy i j with hij | rfl | hji
  · exact (hordered i j hi hj hij).2
  · exact absurd hlt (lt_irrefl _)
  · exact absurd hlt (hordered j i hj hi hji).1.not_gt

omit [LinearOrder Tenant] in
theorem eq_of_mem {t : Nat} {x y : Note Tenant} (hx : (t, x) ∈ trail) (hy : (t, y) ∈ trail) :
    x = y := by
  have hordered := h.ordered.imp fun hxy => hxy.1.ne
  have hnodup : (trail.map Prod.fst).Nodup := pairwise_map.2 hordered
  exact (Prod.mk.inj (inj_on_of_nodup_map hnodup hx hy rfl)).2

end

end Allocates

end

end Calybris.Budget
