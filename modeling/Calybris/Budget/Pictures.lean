import Calybris.Budget.Settled

/-!
# Snapshots show whole operations

A snapshot is taken while no call is in the gate, so nothing is owed and every
operation of the book was reported. The book at that moment is the snapshot, and the
replies it contains are those that came before.
-/

namespace Calybris.Budget

open Finset Function Transition Option Engine

variable {Tenant : Type*} [LinearOrder Tenant] {n m : Nat}

/-! ### A snapshot of a book -/

def Book.row (b : Book Tenant) (t : Tenant) : Option (TenantLedger Tenant) :=
  (b.account t).map fun x => ⟨t, x.initial, x.remaining, b.held t, x.committed⟩

def Book.openHolds (b : Book Tenant) : Nat := #{id ∈ b.issued | (b.holds id).isSome}

/-- The rows are the accounts, with the sums of their open holds. -/
structure Pictured (b : Book Tenant) (snapshot : BudgetSnapshot Tenant) : Prop where
  sorted : snapshot.tenants.Pairwise fun x y => x.tenantId < y.tenantId
  rows : ∀ row, row ∈ snapshot.tenants ↔ b.row row.tenantId = some row
  active : snapshot.activeReservations = b.openHolds
  balanced : conservationStatusForSnapshot snapshot = .balanced

theorem Pc.clean_of_inGate {p : Pc Tenant} (h : p.inGate = false) :
    p.Clean ∧ ∀ t, p.heldBack t = 0 ∧ p.counted t = 0 := by
  cases p with
  | idle last | setMaxReserved t m =>
    exact ⟨by constructor <;> simp, fun t => ⟨rfl, rfl⟩⟩
  | _ => cases h

theorem Engine.mem_picture {e : Engine Tenant} {tenants : List Tenant} {row : TenantLedger Tenant} :
    row ∈ (e.picture tenants).tenants ↔ ∃ t ∈ tenants, e.row t = row := by
  rw [picture, List.mem_mergeSort, List.mem_map]

theorem Engine.sorted_picture {e : Engine Tenant} {tenants : List Tenant} (h : tenants.Nodup) :
    (e.picture tenants).tenants.Pairwise fun x y => x.tenantId < y.tenantId := by
  have hsorted : (e.picture tenants).tenants.Pairwise fun x y => x.tenantId ≤ y.tenantId := by
    refine (List.pairwise_mergeSort ?_ ?_ (tenants.map e.row)).imp fun hxy => ?_
    · intro x y z hxy hyz
      simpa using (of_decide_eq_true hxy).trans (of_decide_eq_true hyz)
    · intro x y
      simpa using le_total x.tenantId y.tenantId
    · exact of_decide_eq_true hxy
  have hids : ((e.picture tenants).tenants.map TenantLedger.tenantId).Nodup := by
    have hperm := (List.mergeSort_perm (tenants.map e.row)
      fun a b => decide (a.tenantId ≤ b.tenantId)).map TenantLedger.tenantId
    rw [picture, hperm.nodup_iff, List.map_map]
    simpa [comp_def, row] using h
  have hne := List.pairwise_map.1 hids
  exact (hsorted.and hne).imp fun hxy => lt_of_le_of_ne hxy.1 hxy.2

section Capture

variable {s : Shared Tenant n m} {ops : List (Op Tenant)} {b : Book Tenant}

theorem clean_of_gateFree {s : State Tenant n} (hgate : s.gateFree) (i : Fin n) :
    (s.pc i).Clean ∧ ∀ t, (s.pc i).heldBack t = 0 ∧ (s.pc i).counted t = 0 :=
  Pc.clean_of_inGate (of_decide_eq_true hgate i)

namespace Inv

variable {s : State Tenant n}

theorem sum_of_gateFree (h : Inv s) (hgate : s.gateFree) (t : Tenant) :
    s.engine.remaining t + s.engine.reservedTotal t + s.engine.committed t = s.engine.initial t ∧
      s.engine.reservedTotal t = s.engine.held t := by
  have hclean := clean_of_gateFree hgate
  have huncovered := h.uncovered t
  have hbalance := h.balance t
  rw [sum_eq_zero fun i _ => ((hclean i).2 t).2, Engine.uncovered] at huncovered
  rw [sum_eq_zero fun i _ => ((hclean i).2 t).1,
    sum_eq_zero fun i _ => (hclean i).1.granted t, Engine.balance] at hbalance
  exact ⟨by omega, by omega⟩

theorem balanced_of_gateFree (h : Inv s) (hgate : s.gateFree) (tenants : List Tenant) :
    conservationStatusForSnapshot (s.engine.picture tenants) = .balanced := by
  apply conservationStatusForSnapshot_eq_balanced
  intro row hrow
  obtain ⟨t, -, rfl⟩ := mem_picture.1 hrow
  have hw := h.wellFormed
  exact TenantLedger.violation_eq_none (hw.remaining_nonneg t) (hw.reservedTotal_nonneg t)
    (hw.committed_nonneg t) (h.inI64 t).2.2.2.2 (h.sum_of_gateFree hgate t).1

end Inv

namespace Tracks

section

variable (h : Tracks s ops b)

include h

theorem perm_ops_of_gateFree (hgate : s.core.gateFree) : ops.Perm s.history.ops := by
  have hreplied := h.replied
  rw [sum_eq_zero fun i _ => by rw [(clean_of_gateFree hgate i).1.done]; rfl, add_zero,
    Multiset.coe_eq_coe] at hreplied
  exact hreplied

theorem amounts_of_gateFree (hgate : s.core.gateFree) (t : Tenant) :
    b.initial t = s.core.engine.initial t ∧ b.remaining t = s.core.engine.remaining t ∧
      b.committed t = s.core.engine.committed t ∧ b.held t = s.core.engine.reservedTotal t := by
  have hclean := clean_of_gateFree hgate
  have hinitial := h.shown.initial t
  have hremaining := h.shown.remaining t
  have hcommitted := h.shown.committed t
  have hheld := h.shown.held t
  have hsum := h.inv.sum_of_gateFree hgate t
  rw [sum_eq_zero fun i _ => (hclean i).1.granted t] at hinitial
  rw [sum_eq_zero fun i _ => (hclean i).1.owed t] at hremaining
  rw [sum_eq_zero fun i _ => (hclean i).1.spent t] at hcommitted
  rw [sum_eq_zero fun i _ => by rw [Pc.holding, (hclean i).1.hold]; rfl] at hheld
  exact ⟨by omega, by omega, by omega, by omega⟩

theorem row_of_gateFree (hgate : s.core.gateFree) (t : Tenant) :
    b.row t = if t ∈ s.registry.tenants then some (s.core.engine.row t) else none := by
  obtain ⟨hinitial, hremaining, hcommitted, hheld⟩ := h.amounts_of_gateFree hgate t
  have hknown := h.shown.known t
  rw [Book.row]
  cases hx : b.account t with
  | none =>
    have hnot : t ∉ s.registry.tenants := by
      rw [h.tenants, ← hknown, hx]
      simp
    rw [if_neg hnot, map_none]
  | some x =>
    have hmem : t ∈ s.registry.tenants := by
      rw [h.tenants, ← hknown, hx]
      rfl
    obtain ⟨h1, h2, h3⟩ := Book.amounts_of_account hx
    rw [if_pos hmem, map_some, row, ← hinitial, ← hremaining, ← hcommitted, ← hheld, h1, h2, h3]

theorem reservations_of_gateFree (hgate : s.core.gateFree) (id : Nat) :
    s.core.engine.reservations id = b.holds id := by
  apply Option.ext
  intro r
  rw [h.shown.holds, or_iff_left]
  rintro ⟨i, hi⟩
  rw [(clean_of_gateFree hgate i).1.hold] at hi
  cases hi

theorem openHolds_of_gateFree (hgate : s.core.gateFree) :
    s.core.engine.activeReservations = b.openHolds := by
  have hsame := h.reservations_of_gateFree hgate
  rw [activeReservations, Book.openHolds]
  congr 1
  ext id
  simp only [mem_filter, mem_range, hsame, and_congr_left_iff, isSome_iff_exists]
  rintro ⟨r, hr⟩
  refine ⟨fun _ => h.shown.issued_holds id r hr, fun _ => ?_⟩
  exact (h.inv.wellFormed.reservations id r ((hsame id).trans hr)).1

theorem pictured (hgate : s.core.gateFree) :
    Pictured b (s.core.engine.picture s.registry.tenants) where
  sorted := sorted_picture h.nodup
  rows row := by
    rw [mem_picture, h.row_of_gateFree hgate]
    constructor
    · rintro ⟨t, ht, rfl⟩
      exact if_pos ht
    · intro hrow
      rw [ite_none_right_eq_some] at hrow
      exact ⟨_, hrow.1, some.inj hrow.2⟩
  active := h.openHolds_of_gateFree hgate
  balanced := h.inv.balanced_of_gateFree hgate _

end

end Tracks

end Capture

/-! ### The times of calls and snapshots -/

/-- A snapshot taken at `captured` contains the replies up to then, each as a whole. -/
def Contains (replies : List (Reply Tenant)) (captured : Nat) (snapshot : BudgetSnapshot Tenant) :
    Prop :=
  ∃ included later, replies = included ++ later ∧ (∀ r ∈ included, r.ended < captured) ∧
    (∀ r ∈ later, captured < r.ended) ∧
    ∃ ops b, ops.Perm (included.filterMap Reply.op) ∧
      run Book.apply Book.empty ops = some b ∧ Pictured b snapshot

theorem Contains.append {replies : List (Reply Tenant)} {captured : Nat}
    {snapshot : BudgetSnapshot Tenant} (h : Contains replies captured snapshot)
    {more : List (Reply Tenant)} (hmore : ∀ r ∈ more, captured < r.ended) :
    Contains (replies ++ more) captured snapshot := by
  obtain ⟨included, later, rfl, hincluded, hlater, hbook⟩ := h
  refine ⟨included, later ++ more, List.append_assoc .., hincluded, ?_, hbook⟩
  intro r hr
  exact (List.mem_append.1 hr).elim (hlater r) (hmore r)

/-- The times in the history, and what its snapshots contain. -/
structure Timed (h : History Tenant n) (observers : Fin m → Observer Tenant) : Prop where
  replies : ∀ r ∈ h.replies, r.began ≤ r.ended ∧ r.ended < h.clock
  calls : ∀ i began call, h.calls i = some (began, call) → began ≤ h.clock
  snapshot : ∀ j began, observers j = .snapshot began → began < h.clock
  taken : ∀ j began captured x, observers j = .taken began captured x →
    began < captured ∧ captured < h.clock
  contains_taken : ∀ j began captured x, observers j = .taken began captured (.ok x) →
    Contains h.replies captured x
  snapshots : ∀ x ∈ h.snapshots, x.began < x.captured ∧ x.captured < x.ended
  contains_snapshots : ∀ x ∈ h.snapshots,
    x.captured < h.clock ∧ Contains h.replies x.captured x.snapshot

namespace Timed

variable {h : History Tenant n} {observers : Fin m → Observer Tenant} {i : Fin n} {j : Fin m}

theorem begin (ht : Timed h observers) (c : Call Tenant) : Timed (h.begin i c) observers :=
  { ht with
    calls := by
      intro k began call hk
      by_cases hki : k = i
      · have heq : (h.clock, c) = (began, call) := by simpa [History.begin, hki] using hk
        cases heq
        exact le_rfl
      · exact ht.calls k began call (by simpa [History.begin, hki] using hk) }

theorem arrive (ht : Timed h observers) (p : Pc Tenant) : Timed (h.arrive i p) observers := by
  obtain ⟨more, hreplies, hmore⟩ : ∃ more, (h.arrive i p).replies = h.replies ++ more ∧
      ∀ r ∈ more, r.began ≤ r.ended ∧ r.ended = h.clock := by
    unfold History.arrive
    split
    · next began call hcall =>
      refine ⟨_, rfl, fun r hr => ?_⟩
      obtain rfl := List.mem_singleton.1 hr
      exact ⟨ht.calls i began call hcall, rfl⟩
    · exact ⟨[], (List.append_nil _).symm, nofun⟩
  have hclock : (h.arrive i p).clock = h.clock + 1 := by
    unfold History.arrive
    split <;> rfl
  have hsnapshots : (h.arrive i p).snapshots = h.snapshots := by
    unfold History.arrive
    split <;> rfl
  have hcontains : ∀ captured x, captured < h.clock → Contains h.replies captured x →
      Contains (h.arrive i p).replies captured x := by
    intro captured x hlt hx
    rw [hreplies]
    exact hx.append fun r hr => (hmore r hr).2 ▸ hlt
  constructor
  case replies =>
    rw [hreplies, hclock]
    intro r hr
    rcases List.mem_append.1 hr with hold | hnew
    · exact ⟨(ht.replies r hold).1, (ht.replies r hold).2.trans (Nat.lt_succ_self _)⟩
    · exact ⟨(hmore r hnew).1, by rw [(hmore r hnew).2]; exact Nat.lt_succ_self _⟩
  case calls =>
    rw [History.calls_arrive, hclock]
    exact fun k began call hk => (ht.calls k began call hk).trans (Nat.le_succ _)
  case snapshot =>
    rw [hclock]
    exact fun k began hk => (ht.snapshot k began hk).trans (Nat.lt_succ_self _)
  case taken =>
    rw [hclock]
    intro k began captured x hk
    obtain ⟨h1, h2⟩ := ht.taken k began captured x hk
    exact ⟨h1, h2.trans (Nat.lt_succ_self _)⟩
  case contains_taken =>
    intro k began captured x hk
    exact hcontains captured x (ht.taken k began captured _ hk).2 (ht.contains_taken k _ _ x hk)
  case snapshots =>
    rw [hsnapshots]
    exact ht.snapshots
  case contains_snapshots =>
    rw [hsnapshots, hclock]
    intro x hx
    obtain ⟨hlt, hcon⟩ := ht.contains_snapshots x hx
    exact ⟨hlt.trans (Nat.lt_succ_self _), hcontains _ _ hlt hcon⟩

theorem move (ht : Timed h observers) {o : Observer Tenant}
    (hsnapshot : ∀ began, o = .snapshot began → began ≤ h.clock)
    (htaken : ∀ began captured x, o = .taken began captured x →
      began < captured ∧ captured ≤ h.clock)
    (hcontains : ∀ began captured x, o = .taken began captured (.ok x) →
      Contains h.replies captured x) : Timed h.tick (update observers j o) := by
  have hlt : ∀ {k}, k ≤ h.clock → k < h.clock + 1 := Nat.lt_succ_of_le
  constructor
  case replies =>
    exact fun r hr => ⟨(ht.replies r hr).1, hlt (ht.replies r hr).2.le⟩
  case calls => exact fun k began call hk => (hlt (ht.calls k began call hk)).le
  case snapshot =>
    intro k began hk
    by_cases hkj : k = j
    · exact hlt (hsnapshot began (by simpa [hkj] using hk))
    · exact hlt (ht.snapshot k began (by simpa [hkj] using hk)).le
  case taken =>
    intro k began captured x hk
    by_cases hkj : k = j
    · obtain ⟨h1, h2⟩ := htaken began captured x (by simpa [hkj] using hk)
      exact ⟨h1, hlt h2⟩
    · obtain ⟨h1, h2⟩ := ht.taken k began captured x (by simpa [hkj] using hk)
      exact ⟨h1, hlt h2.le⟩
  case contains_taken =>
    intro k began captured x hk
    by_cases hkj : k = j
    · exact hcontains began captured x (by simpa [hkj] using hk)
    · exact ht.contains_taken k began captured x (by simpa [hkj] using hk)
  case snapshots => exact ht.snapshots
  case contains_snapshots =>
    intro x hx
    obtain ⟨h1, h2⟩ := ht.contains_snapshots x hx
    exact ⟨hlt h1.le, h2⟩

theorem give (ht : Timed h observers) {began captured : Nat} {snapshot : BudgetSnapshot Tenant}
    (hj : observers j = .taken began captured (.ok snapshot)) :
    Timed { h.tick with snapshots := h.snapshots ++ [⟨began, captured, h.clock, snapshot⟩] }
      (update observers j .idle) := by
  have hidle : Timed h.tick (update observers j .idle) := ht.move nofun nofun nofun
  obtain ⟨h1, h2⟩ := ht.taken j began captured _ hj
  have hcontains := ht.contains_taken j began captured snapshot hj
  refine { hidle with snapshots := ?_, contains_snapshots := ?_ }
  · intro x hx
    rcases List.mem_append.1 hx with hold | hnew
    · exact ht.snapshots x hold
    · obtain rfl := List.mem_singleton.1 hnew
      exact ⟨h1, h2⟩
  · intro x hx
    rcases List.mem_append.1 hx with hold | hnew
    · exact hidle.contains_snapshots x hold
    · obtain rfl := List.mem_singleton.1 hnew
      exact ⟨h2.trans (Nat.lt_succ_self _), hcontains⟩

theorem step {s s' : Shared Tenant n m} {ops : List (Op Tenant)} {b : Book Tenant}
    (ht : Timed s.history s.observers) (htracks : Tracks s ops b) (hstep : s.Step s') :
    Timed s'.history s'.observers := by
  cases hstep with
  | call hidle => exact (ht.begin _).arrive _
  | advance hadvance => exact ht.arrive _
  | ask hj ho =>
    rcases ho with rfl | rfl
    · refine ht.move ?_ nofun nofun
      rintro _ ⟨⟩
      exact le_rfl
    · exact ht.move nofun nofun nofun
  | @take j o hgate hlt ho =>
    rcases ho with ⟨began, hj, rfl⟩ | ⟨hj, rfl⟩
    · have hbegan := ht.snapshot j began hj
      have hcontains : Contains s.history.replies s.history.clock
          (s.core.engine.picture s.registry.tenants) :=
        ⟨s.history.replies, [], (List.append_nil _).symm, fun r hr => (ht.replies r hr).2, nofun,
          ops, b, htracks.perm_ops_of_gateFree hgate, htracks.booked, htracks.pictured hgate⟩
      have hmove : Timed s.history.tick (update s.observers j
          (.taken began s.history.clock (.ok (s.core.engine.picture s.registry.tenants)))) := by
        refine ht.move nofun ?_ ?_
        · rintro _ _ _ ⟨⟩
          exact ⟨hbegan, le_rfl⟩
        · rintro _ _ _ ⟨⟩
          exact hcontains
      exact { hmove with }
    · have hmove : Timed s.history.tick (update s.observers j
          (.rotate (s.core.engine.picture s.registry.tenants))) := ht.move nofun nofun nofun
      exact { hmove with }
  | @refuse j o hfull ho =>
    rcases ho with ⟨began, hj, rfl⟩ | ⟨hj, rfl⟩
    · refine ht.move nofun ?_ nofun
      rintro _ _ _ ⟨⟩
      exact ⟨ht.snapshot j began hj, le_rfl⟩
    · exact ht.move nofun nofun nofun
  | give hj => exact ht.give hj
  | fail hj => exact ht.move nofun nofun nofun
  | @certify j snapshot hj =>
    have hmove : Timed s.history.tick (update s.observers j .idle) := ht.move nofun nofun nofun
    exact { hmove with }

theorem init : Timed (History.empty : History Tenant n) (fun _ : Fin m => .idle) := by
  constructor <;> simp [History.empty]

end Timed

theorem timed_run {s : Shared Tenant n m} {es : List (Shared.Event Tenant n m)}
    (h : run Shared.step Shared.init es = some s) : Timed s.history s.observers := by
  have hboth := run_invariant
    (I := fun s : Shared Tenant n m => Timed s.history s.observers ∧ ∃ ops b, Tracks s ops b) ?_
    ⟨Timed.init, _, _, Tracks.init⟩ h
  · exact hboth.1
  · rintro s ev s' ⟨ht, ops, b, hs⟩ hstep
    obtain ⟨new, b', hs'⟩ := hs.step (Shared.step_inv hstep)
    exact ⟨ht.step hs (Shared.step_inv hstep), _, b', hs'⟩

/-- Every snapshot is the book after whole operations, one after the other. A call that
returned before the snapshot began is among them, a call that began after the snapshot
was returned is not, and a call that was refused leaves the book as it was. -/
theorem snapshot_contains_whole_operations {s : Shared Tenant n m}
    {es : List (Shared.Event Tenant n m)} (h : run Shared.step Shared.init es = some s)
    {x : Taken Tenant} (hx : x ∈ s.history.snapshots) :
    ∃ included later, s.history.replies = included ++ later ∧
      (∀ r ∈ s.history.replies, r.ended < x.began → r ∈ included) ∧
      (∀ r ∈ s.history.replies, x.ended < r.began → r ∉ included) ∧
      ∃ ops b, ops.Perm (included.filterMap Reply.op) ∧
        run Book.apply Book.empty ops = some b ∧ Pictured b x.snapshot := by
  have ht := timed_run h
  obtain ⟨hbegan, hended⟩ := ht.snapshots x hx
  obtain ⟨-, included, later, heq, hincluded, hlater, hbook⟩ := ht.contains_snapshots x hx
  refine ⟨included, later, heq, ?_, ?_, hbook⟩
  · intro r hr hbefore
    rw [heq] at hr
    refine (List.mem_append.1 hr).resolve_right fun hr => ?_
    have := hlater r hr
    omega
  · intro r hr hafter hmem
    have := hincluded r hmem
    have := (ht.replies r hr).1
    omega

open Shared.Event in
attribute [local instance] neZero_one neZero_two in
/-- A snapshot begins in the middle of a reservation, and a commit begins before the
snapshot is returned. -/
def overlappingTrace : List (Shared.Event Unit 2 1) :=
  called 0 (.tryEnsureTenant () 10) 1 ++ called 0 (.tryReserve () 4) 8 ++
  called 1 (.tryReserve () 5) 3 ++ trySnapshot 0 :: List.replicate 5 (core (.advance 1 false)) ++
  observe 0 :: core (.call 0 (.commit 1 3)) :: observe 0 ::
  List.replicate 7 (core (.advance 0 false))

theorem snapshot_contains_whole_operations_overlapping :
    ∃ s x, run Shared.step Shared.init overlappingTrace = some s ∧ x ∈ s.history.snapshots ∧
      x.snapshot.activeReservations = 2 ∧
      ∃ included later, s.history.replies = included ++ later ∧
        ∃ ops b, ops.Perm (included.filterMap Reply.op) ∧
          run Book.apply Book.empty ops = some b ∧ Pictured b x.snapshot := by
  obtain ⟨s, hs, x, hx, hactive⟩ : ∃ s, run Shared.step Shared.init overlappingTrace = some s ∧
      ∃ x, s.history.snapshots = [x] ∧ x.snapshot.activeReservations = 2 := ⟨_, rfl, _, rfl, rfl⟩
  have hmem : x ∈ s.history.snapshots := by
    rw [hx]
    exact List.mem_singleton_self x
  obtain ⟨included, later, heq, -, -, hbook⟩ := snapshot_contains_whole_operations hs hmem
  exact ⟨s, x, hs, hmem, hactive, included, later, heq, hbook⟩

end Calybris.Budget
