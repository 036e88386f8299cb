import Calybris.Budget.Book
import Calybris.Budget.Moves

/-!
# What a step of a thread amounts to

`Act` says once what a step can do to the engine, with the exact amounts it writes:
most steps only read, and the others are listed. For a step in the middle of a call
it matters on which side of the call's turning point it stands. Before it, nothing
of the call is in the book of whole operations; after it, all of it is, and `owed`,
`spent` and `granted` are the parts that the counters still lack. The turning points
are the exchange that credits or debits the balance, the removal of the record for a
release, and for a commit the step that settles that it will be stored.

Each call is gone through stage by stage, once for this and for what the step does to
the counters.
-/

namespace Calybris.Budget

open Engine

variable {Tenant : Type*} [DecidableEq Tenant]

/-! ### Requests and their operations -/

inductive Request (Tenant : Type*) where
  | ensure (tenant : Tenant) (budget : Int)
  | cap (tenant : Tenant) (max : Int)
  | topUp (tenant : Tenant) (amount : Int)
  | reserve (tenant : Tenant) (cost : Int)
  | commit (id : Nat) (actual : Int)
  | release (id : Nat)

def Call.request : Call Tenant → Request Tenant
  | .tryEnsureTenant t b => .ensure t b.toInt
  | .trySetMaxReserved t m => .cap t m.toInt
  | .topUpTenant t a => .topUp t a.toInt
  | .tryReserve t c => .reserve t c.toInt
  | .commit id actual => .commit id.toNat actual.toInt
  | .release id => .release id.toNat

/-- The whole operation that an outcome reports, where the call was not refused. -/
@[simp] def Request.op : Request Tenant → Outcome → Option (Op Tenant)
  | .ensure t b, .configured none => some (.ensure t b)
  | .cap t m, .configured none => some (.cap t m)
  | .topUp t a, .topUp (.toppedUp ..) => some (.topUp t a)
  | .reserve t c, .reservation (.reserved _) (some id) => some (.reserve t c id)
  | .commit id actual, .settlement (.committed ..) => some (.commit id actual)
  | .release id, .settlement (.released ..) => some (.release id)
  | _, _ => none

/-! ### Sides of the turning point -/

@[simp] def CommitStage.owed (reserved actual : Int) : CommitStage → Int
  | .store _ => max reserved actual - actual
  | .refund => reserved - actual
  | _ => 0

@[simp] def CommitStage.spent (actual : Int) : CommitStage → Int
  | .store _ => actual
  | _ => 0

namespace Pc

@[simp] def request : Pc Tenant → Option (Request Tenant)
  | .idle _ => none
  | .ensure t b => some (.ensure t b)
  | .setMaxReserved t m => some (.cap t m)
  | .topUp t a _ => some (.topUp t a)
  | .reserve t c _ => some (.reserve t c)
  | .lockCommit id actual | .commit id _ actual _ => some (.commit id actual)
  | .lockRelease id | .release id _ _ => some (.release id)

/-- What the remaining amount still gets. -/
@[simp] def owed : Pc Tenant → Tenant → Int
  | .commit _ r actual stage, t => if t = r.tenant then stage.owed r.reserved actual else 0
  | .release _ r _, t => if t = r.tenant then r.reserved else 0
  | _, _ => 0

@[simp] def spent : Pc Tenant → Tenant → Int
  | .commit _ r actual stage, t => if t = r.tenant then stage.spent actual else 0
  | _, _ => 0

/-- A hold that is open although its record is not in the map. -/
@[simp] def hold : Pc Tenant → Option (Nat × ReservationRecord Tenant)
  | .reserve t c (.insert id _) => some (id, ⟨t, c⟩)
  | .commit id r _ .lookup | .commit id r _ .lockCommitted | .commit id r _ (.load _)
  | .commit id r _ (.debit ..) | .commit id r _ (.reinsert _) => some (id, r)
  | _ => none

@[simp] def holding (p : Pc Tenant) (t : Tenant) : Int := Engine.heldFor t (p.hold.map Prod.snd)

@[simp] def fresh : Pc Tenant → Option Nat
  | .reserve _ _ (.load id) | .reserve _ _ (.debit id _) => some id
  | _ => none

/-- The operation of a call in progress that is past its turning point. -/
@[simp] def done : Pc Tenant → Option (Op Tenant)
  | .topUp t a (.store ..) => some (.topUp t a)
  | .reserve t c (.insert id _) => some (.reserve t c id)
  | .commit id _ actual (.store _) | .commit id _ actual .refund
  | .commit id _ actual .subtract | .commit id _ actual .report => some (.commit id actual)
  | .release id _ _ => some (.release id)
  | _ => none

@[simp] def effect (q : Request Tenant) : Pc Tenant → Option (Op Tenant)
  | .idle (some o) => q.op o
  | p => p.done

/-- The cap that a reservation goes by is the one in force, and once its amount is
counted the total is within it. -/
@[simp] def Limited (e : Engine Tenant) : Pc Tenant → Prop
  | .reserve t _ (.loadTotal max) | .reserve t _ (.increment max _) =>
    max = (e.maxReservedMicrocents t).getD 0
  | .reserve t _ .allocate | .reserve t _ (.load _) | .reserve t _ (.debit ..) =>
    0 < (e.maxReservedMicrocents t).getD 0 →
      e.reservedTotal t ≤ (e.maxReservedMicrocents t).getD 0
  | _ => True

/-- The two program counters stand on the same side, and for the same call. -/
@[mk_iff]
structure Quiet (e : Engine Tenant) (p p' : Pc Tenant) : Prop where
  ne_ensure : ∀ t b, p ≠ .ensure t b
  request : p'.inProgress → p'.request = p.request
  granted : ∀ t, p'.granted t = p.granted t
  owed : ∀ t, p'.owed t = p.owed t
  spent : ∀ t, p'.spent t = p.spent t
  hold : p'.hold = p.hold
  fresh : ∀ id, p'.fresh = some id → p.fresh = some id
  effect : ∀ q, p.request = some q → p'.effect q = p.effect q
  limited : p.Limited e → p'.Limited e

end Pc

/-! ### Acts -/

inductive Act (free : Mutex → Bool) (gateFree : Bool) (e : Engine Tenant) :
    Pc Tenant → Engine Tenant → Pc Tenant → Prop
  | quiet {p p'} (h : p.Quiet e p') : Act free gateFree e p e p'
  | ensure {t b} (hnew : e.tenantBudgets t = none) :
      Act free gateFree e (.ensure t b) (e.insertTenant t b) (.idle (some (.configured none)))
  | ensured {t b} (hold : (e.tenantBudgets t).isSome) :
      Act free gateFree e (.ensure t b) e (.idle (some (.configured none)))
  | cap {t m} (hgate : gateFree) :
      Act free gateFree e (.setMaxReserved t m)
        { e with maxReservedMicrocents :=
          Function.update e.maxReservedMicrocents t (if m = 0 then none else some m) }
        (.idle (some (.configured none)))
  | credit {t a x} (hin : InI64 (e.remaining t + a)) :
      Act free gateFree e (.topUp t a (.credit x (e.remaining t)))
        (e.setBudget t (e.remaining t + a)) (.topUp t a (.store x (e.remaining t + a)))
  | grant {t a x y} :
      Act free gateFree e (.topUp t a (.store x y)) (e.setInitial t x)
        (.idle (some (.topUp (.toppedUp a x y))))
  | count {t c max} (hmax : 0 < max → e.reservedTotal t + c ≤ max) :
      Act free gateFree e (.reserve t c (.increment max (e.reservedTotal t)))
        (e.setReservedTotal t (e.reservedTotal t + c)) (.reserve t c .allocate)
  | issue {t c} (hmask : e.nextId < recoveryAllocatorMask) :
      Act free gateFree e (.reserve t c .allocate) { e with nextId := e.nextId + 1 }
        (.reserve t c (.load e.nextId))
  | undo {t c o p'} (hp' : p' = .reserve t c .reportOverflow ∨
        ∃ x, p' = .idle (some (.reservation (.insufficient x c) none))) :
      Act free gateFree e (.reserve t c (.undo o)) (e.setReservedTotal t (e.reservedTotal t - c)) p'
  | debit {t c id} (hle : c ≤ e.remaining t) :
      Act free gateFree e (.reserve t c (.debit id (e.remaining t)))
        (e.setBudget t (e.remaining t - c)) (.reserve t c (.insert id (e.remaining t - c)))
  | insert {t c id x} :
      Act free gateFree e (.reserve t c (.insert id x)) (e.insertReservation id ⟨t, c⟩)
        (.idle (some (.reservation (.reserved x) (some id))))
  | takeCommit {id actual r} (hr : e.reservations id = some r) :
      Act free gateFree e (.lockCommit id actual) (e.removeReservation id)
        (.commit id r actual .lookup)
  | settle {id r actual} (hfree : free .committed)
      (hin : InI64 (e.committed r.tenant + actual)) (hle : actual ≤ r.reserved) :
      Act free gateFree e (.commit id r actual .lockCommitted) e
        (.commit id r actual (.store (e.committed r.tenant + actual)))
  | overrun {id r actual x} (hle : actual - r.reserved ≤ e.remaining r.tenant) :
      Act free gateFree e (.commit id r actual (.debit x (e.remaining r.tenant)))
        (e.setBudget r.tenant (e.remaining r.tenant - (actual - r.reserved)))
        (.commit id r actual (.store x))
  | putBack {id r actual o p'} (hp' : p' = .commit id r actual .reportOverflow ∨
        ∃ x, p' = .idle (some (.settlement (.overrun x)))) :
      Act free gateFree e (.commit id r actual (.reinsert o)) (e.insertReservation id r) p'
  | store {id r actual x} :
      Act free gateFree e (.commit id r actual (.store x)) (e.setCommitted r.tenant x)
        (.commit id r actual (if actual < r.reserved then .refund else .subtract))
  | refund {id r actual} :
      Act free gateFree e (.commit id r actual .refund)
        (e.setBudget r.tenant (e.remaining r.tenant + (r.reserved - actual)))
        (.commit id r actual .subtract)
  | subtract {id r actual} :
      Act free gateFree e (.commit id r actual .subtract)
        (e.setReservedTotal r.tenant (e.reservedTotal r.tenant - r.reserved))
        (.commit id r actual .report)
  | takeRelease {id r} (hr : e.reservations id = some r) :
      Act free gateFree e (.lockRelease id) (e.removeReservation id) (.release id r .lookup)
  | uncount {id r} :
      Act free gateFree e (.release id r .subtract)
        (e.setReservedTotal r.tenant (e.reservedTotal r.tenant - r.reserved))
        (.release id r .refund)
  | giveBack {id r} :
      Act free gateFree e (.release id r .refund)
        (e.setBudget r.tenant (e.remaining r.tenant + r.reserved))
        (.idle (some (.settlement
          (.released (e.remaining r.tenant + r.reserved) r.reserved))))

/-! ### Steps -/

structure Advances (free : Mutex → Bool) (gateFree : Bool) (e : Engine Tenant) (p : Pc Tenant)
    (e' : Engine Tenant) (p' : Pc Tenant) : Prop where
  moves : Moves free e p e' p'
  act : Act free gateFree e p e' p'

section

variable {free : Mutex → Bool} {fails gateFree : Bool} {e e' : Engine Tenant} {p p' : Pc Tenant}
  {t : Tenant} {id : Nat} {r : ReservationRecord Tenant}

attribute [local simp] Pc.quiet_iff Pc.alike_iff

theorem Advances.quiet (hw : e.WellFormed) (hl : p'.Locally e)
    (h : p.Quiet e p' ∧ p.Alike free p') : Advances free gateFree e p e p' :=
  ⟨.quiet hw hl h.2, .quiet h.1⟩

theorem Advances.finish {last : Option Outcome} (hw : e.WellFormed)
    (h : p.Quiet e (.idle last) ∧ p.Alike free (.idle last)) :
    Advances free gateFree e p e (.idle last) :=
  .quiet hw (.idle e last) h

theorem tryEnsureTenant_advances {b : Int} (h : tryEnsureTenant free e t b = some (e', p'))
    (hw : e.WellFormed) (hl : (Pc.ensure t b).Locally e) :
    Advances free gateFree e (.ensure t b) e' p' := by
  unfold tryEnsureTenant at h
  split at h
  · next hfree =>
    cases h
    simp only [Bool.and_eq_true] at hfree
    split
    · next hnew =>
      have hnone := Option.isNone_iff_eq_none.1 hnew
      exact ⟨.insertTenant hw hnone hl.sane hfree.1 hfree.2, .ensure hnone⟩
    · next hold =>
      exact ⟨.quiet hw (.idle _ _) (by simp),
        .ensured (by simpa [Option.isSome_iff_ne_none] using hold)⟩
  · cases h

theorem topUpTenant_advances {a : Int} {stage : TopUpStage}
    (h : topUpTenant free fails e t a stage = some (e', p')) (hw : e.WellFormed)
    (hl : (Pc.topUp t a stage).Locally e) :
    Advances free gateFree e (.topUp t a stage) e' p' := by
  cases stage with
  | lookup =>
    simp only [topUpTenant] at h
    split at h <;> cases h
    · next hsome => exact .quiet hw ⟨hl.sane, by simp [hsome], by simp, by simp, by simp⟩ (by simp)
    · exact .finish hw (by simp)
  | lock =>
    simp only [topUpTenant] at h
    split at h
    · next hfree =>
      split at h
      · cases h
        exact .finish hw (by simp)
      · next currentInitial hinitial =>
        split at h <;> cases h
        · exact .finish hw (by simp)
        · next newInitial hadd =>
          obtain ⟨rfl, hin⟩ := checkedAdd_eq_some hadd
          have hl' : (Pc.topUp t a (.load (currentInitial + a))).Locally e := by
            refine ⟨hl.sane, hl.known, by simp, ?_, by simp⟩
            rintro _ _ _ ⟨⟩
            exact ⟨by simp [Engine.initial, hinitial], hin.2⟩
          exact .quiet hw hl' (by simp [hfree])
    · cases h
  | load newInitial =>
    cases h
    exact .quiet hw ⟨hl.sane, hl.known, by simp, hl.initial, by simp⟩ (by simp)
  | credit newInitial current =>
    obtain ⟨hnew, hlt⟩ := hl.initial t a newInitial rfl
    obtain ⟨ha, -⟩ := hl.sane
    simp only [topUpTenant] at h
    split at h
    · cases h
      exact .finish hw (by simp)
    · next new hadd =>
      obtain ⟨rfl, hin⟩ := checkedAdd_eq_some hadd
      split at h <;> cases h
      · next hswap =>
        obtain rfl : e.remaining t = current := by simp_all
        have hpos := hw.remaining_nonneg t
        refine ⟨.setBudget hw (hl.known t rfl) (by omega)
          ⟨hl.sane, hl.known, by simp, hl.initial, by simp⟩ ?_ ?_ (by simp), .credit hin⟩
        · intro t'
          by_cases heq : t' = t <;> simp [heq]
        · refine .inr ⟨.inl rfl, fun t' => ?_⟩
          by_cases heq : t' = t
          · subst heq
            exact .inr (by simpa [hnew] using hlt)
          · simp [heq]
      · exact .quiet hw ⟨hl.sane, hl.known, by simp, hl.initial, by simp⟩ (by simp)
  | store newInitial remaining =>
    cases h
    exact ⟨.setInitial hw hl, .grant⟩

theorem tryReserve_increment_advances {c max current : Int}
    (h : tryReserve free fails e t c (.increment max current) = some (e', p')) (hw : e.WellFormed)
    (hl : (Pc.reserve t c (.increment max current)).Locally e) :
    Advances free gateFree e (.reserve t c (.increment max current)) e' p' := by
  obtain ⟨⟨hpos, hlt⟩, -⟩ := hl.sane
  simp only [tryReserve] at h
  split at h
  · cases h
    exact .quiet hw (.reserve ⟨hpos, hlt⟩ (hl.known t rfl) trivial rfl) (by simp)
  · next newTotal hadd =>
    obtain ⟨rfl, hin⟩ := checkedAdd_eq_some hadd
    split at h
    · cases h
      exact .finish hw (by simp)
    · next hmax =>
      split at h <;> cases h
      · next hswap =>
        obtain rfl : e.reservedTotal t = current := by simp_all
        have hnonneg := hw.reservedTotal_nonneg t
        refine ⟨.setReservedTotal hw (hl.known t rfl) ⟨by omega, hin.2⟩
          (.reserve ⟨hpos, hlt⟩ (hl.known t rfl) trivial rfl) ?_ (by simp), .count (by omega)⟩
        intro t'
        by_cases heq : t' = t <;> simp [heq]
      · exact .quiet hw (.reserve ⟨hpos, hlt⟩ (hl.known t rfl) trivial rfl) (by simp)

theorem tryReserve_undo_advances {c : Int} {insufficient : Option Int}
    (h : tryReserve free fails e t c (.undo insufficient) = some (e', p')) (hw : e.WellFormed)
    (hl : (Pc.reserve t c (.undo insufficient)).Locally e)
    (hc : Covered e (Pc.reserve t c (.undo insufficient))) :
    Advances free gateFree e (.reserve t c (.undo insufficient)) e' p' := by
  obtain ⟨⟨hpos, hlt⟩, -⟩ := hl.sane
  have hcounted := hc.counted t
  have htotal := hw.reservedTotal_lt t
  simp only [Pc.counted, ReserveStage.counted, if_true] at hcounted
  have hin : InI64 (e.reservedTotal t - c) := ⟨by omega, by omega⟩
  have hsub : ∀ t', 0 - (if t' = t then e.reservedTotal t - c - e.reservedTotal t else 0) =
      (Pc.reserve t c (.undo insufficient)).counted t' := by
    intro t'
    by_cases heq : t' = t <;> simp [heq]
  cases insufficient <;> cases h <;> rw [fetchSubTotal_of_inI64 hin]
  · refine ⟨.setReservedTotal hw (hl.known t rfl) ⟨by omega, by omega⟩
      (.reserve ⟨hpos, hlt⟩ (hl.known t rfl) trivial rfl) (fun t' => ?_) (by simp),
      .undo (.inl rfl)⟩
    rw [← hsub]
    simp
  · exact ⟨.setReservedTotal hw (hl.known t rfl) ⟨by omega, by omega⟩ (.idle _ _) hsub
      (by simp), .undo (.inr ⟨_, rfl⟩)⟩

theorem tryReserve_debit_advances {c current : Int}
    (h : tryReserve free fails e t c (.debit id current) = some (e', p')) (hw : e.WellFormed)
    (hl : (Pc.reserve t c (.debit id current)).Locally e)
    (hc : Covered e (Pc.reserve t c (.debit id current))) :
    Advances free gateFree e (.reserve t c (.debit id current)) e' p' := by
  obtain ⟨⟨hpos, hlt⟩, hcurrent⟩ : (1 ≤ c ∧ c < 2 ^ 63) ∧ current < 2 ^ 63 := hl.sane
  simp only [tryReserve] at h
  split at h
  · cases h
    exact .quiet hw (.reserve ⟨hpos, hlt⟩ (hl.known t rfl) trivial rfl) (by simp)
  · next hle =>
    have hin : InI64 (current - c) := ⟨by omega, by omega⟩
    rw [check_of_inI64 hin, wrap_of_inI64 hin] at h
    split at h <;> cases h
    · next hswap =>
      obtain rfl : e.remaining t = current := by simp_all
      refine ⟨.setBudget hw (hl.known t rfl) (by omega)
        ⟨⟨⟨hpos, hlt⟩, by simp⟩, hl.known, hl.pending, by simp, by simp⟩ ?_ (by simp) (by simp),
        .debit (by omega)⟩
      intro t'
      by_cases heq : t' = t <;> simp [heq]
    · exact .quiet hw
        ⟨⟨⟨hpos, hlt⟩, hc.remaining_lt hl t⟩, hl.known, hl.pending, by simp, by simp⟩ (by simp)

theorem tryReserve_advances {c : Int} {stage : ReserveStage}
    (h : tryReserve free fails e t c stage = some (e', p')) (hw : e.WellFormed)
    (hl : (Pc.reserve t c stage).Locally e) (hc : Covered e (Pc.reserve t c stage)) :
    Advances free gateFree e (.reserve t c stage) e' p' := by
  obtain ⟨⟨hpos, hlt⟩, -⟩ := hl.sane
  cases stage with
  | lookup =>
    simp only [tryReserve] at h
    split at h <;> cases h
    · next hsome _ => exact .quiet hw (.reserve ⟨hpos, hlt⟩ (by simp [hsome]) trivial rfl) (by simp)
    · exact .finish hw (by simp)
  | readLimit | loadTotal max =>
    cases h
    exact .quiet hw (.reserve ⟨hpos, hlt⟩ (hl.known t rfl) trivial rfl) (by simp)
  | increment max current => exact tryReserve_increment_advances h hw hl
  | allocate =>
    simp only [tryReserve] at h
    split at h <;> cases h
    · next hmask => exact ⟨.issue hw hl hmask, .issue hmask⟩
    · exact .quiet hw (.reserve ⟨hpos, hlt⟩ (hl.known t rfl) trivial rfl) (by simp)
  | undo insufficient => exact tryReserve_undo_advances h hw hl hc
  | reportOverflow =>
    cases h
    exact .finish hw (by simp)
  | load id =>
    cases h
    exact .quiet hw
      ⟨⟨⟨hpos, hlt⟩, hc.remaining_lt hl t⟩, hl.known, hl.pending, by simp, by simp⟩ (by simp)
  | debit id current => exact tryReserve_debit_advances h hw hl hc
  | insert id remaining =>
    simp only [tryReserve] at h
    split at h <;> cases h
    exact ⟨.insertReservation hw hl rfl ⟨hpos, hlt⟩ (hl.known t rfl) (.idle _ _) rfl
      (by simp), .insert⟩

theorem lockCommit_advances {actual : Int} (h : lockCommit free e id actual = some (e', p'))
    (hw : e.WellFormed) (hl : (Pc.lockCommit id actual : Pc Tenant).Locally e) :
    Advances free gateFree e (.lockCommit id actual) e' p' := by
  unfold lockCommit at h
  split at h
  · next hfree =>
    split at h <;> cases h
    · exact .finish hw (by simp)
    · next r hr =>
      obtain ⟨-, hpos, -⟩ := hw.reservations id r hr
      exact ⟨.removeReservation hw hr ⟨hl.sane, hpos, by simp⟩ rfl rfl rfl rfl (by simp [hfree]),
        .takeCommit hr⟩
  · cases h

theorem commit_lockCommitted_advances {actual : Int}
    (h : commit free fails e id r actual .lockCommitted = some (e', p')) (hw : e.WellFormed)
    (hl : (Pc.commit id r actual .lockCommitted).Locally e) :
    Advances free gateFree e (.commit id r actual .lockCommitted) e' p' := by
  obtain ⟨hactual, hreserved, -⟩ := hl.sane
  have hdelta : InI64 (actual - r.reserved) := ⟨by omega, by omega⟩
  simp only [commit, wrap_of_inI64 hdelta, check_of_inI64 hdelta] at h
  split at h
  · next hfree =>
    split at h
    · cases h
      exact .quiet hw (hl.commit rfl trivial rfl) (by simp)
    · next newCommitted hadd =>
      obtain ⟨rfl, hin⟩ := checkedAdd_eq_some hadd
      split at h <;> cases h
      · next hpos =>
        have hl' : (Pc.commit id r actual
            (.load (e.committed r.tenant + actual))).Locally e := by
          refine ⟨⟨hactual, hreserved, by simpa using hpos⟩, hl.known, hl.pending,
            by simp, ?_⟩
          rintro _ _ _ ⟨⟩
          exact ⟨rfl, hin.2⟩
        exact .quiet hw hl' (by simp [hfree])
      · next hnonpos =>
        have hmax : max r.reserved actual = r.reserved := by omega
        refine ⟨.quiet hw ?_ (by simp [hmax, hfree]), .settle hfree hin (by omega)⟩
        refine ⟨⟨hactual, hreserved, by simp⟩, hl.known, hl.pending, by simp, ?_⟩
        rintro _ _ _ ⟨⟩
        exact ⟨rfl, hin.2⟩
  · cases h

theorem commit_debit_advances {actual newCommitted current : Int}
    (h : commit free fails e id r actual (.debit newCommitted current) = some (e', p'))
    (hw : e.WellFormed) (hl : (Pc.commit id r actual (.debit newCommitted current)).Locally e)
    (hc : Covered e (Pc.commit id r actual (.debit newCommitted current))) :
    Advances free gateFree e (.commit id r actual (.debit newCommitted current)) e' p' := by
  obtain ⟨hactual, hreserved, hstage⟩ := hl.sane
  obtain ⟨hless, hcurrent⟩ : r.reserved < actual ∧ current < 2 ^ 63 := hstage
  have hknown := hl.known r.tenant rfl
  have hdelta : InI64 (actual - r.reserved) := ⟨by omega, by omega⟩
  have hrem := hw.remaining_nonneg r.tenant
  simp only [commit, wrap_of_inI64 hdelta] at h
  split at h
  · cases h
    exact .quiet hw (hl.commit rfl trivial rfl) (by simp)
  · next hle =>
    have hin : InI64 (current - (actual - r.reserved)) := ⟨by omega, by omega⟩
    rw [check_of_inI64 hin, wrap_of_inI64 hin] at h
    split at h <;> cases h
    · next hswap =>
      obtain rfl : e.remaining r.tenant = current := by simp_all
      have hmax : max r.reserved actual = actual := by omega
      refine ⟨.setBudget hw hknown (by omega)
        ⟨⟨hactual, hreserved, by simp⟩, hl.known, hl.pending, by simp, hl.committed⟩ ?_ (by simp)
        (by simp), .overrun (by omega)⟩
      intro t'
      by_cases heq : t' = r.tenant <;> simp [heq, hmax]
    · exact .quiet hw ⟨⟨hactual, hreserved, hless, hc.remaining_lt hl _⟩, hl.known,
        hl.pending, by simp, hl.committed⟩ (by simp)

theorem commit_store_advances {actual newCommitted : Int}
    (h : commit free fails e id r actual (.store newCommitted) = some (e', p')) (hw : e.WellFormed)
    (hl : (Pc.commit id r actual (.store newCommitted)).Locally e) :
    Advances free gateFree e (.commit id r actual (.store newCommitted)) e' p' := by
  obtain ⟨hactual, hreserved, -⟩ := hl.sane
  have hknown := hl.known r.tenant rfl
  have hdelta : InI64 (actual - r.reserved) := ⟨by omega, by omega⟩
  obtain ⟨hnew, hlt⟩ := hl.committed r.tenant actual newCommitted rfl
  simp only [commit, wrap_of_inI64 hdelta, sub_neg] at h
  cases h
  have hcommitted := hw.committed_nonneg r.tenant
  refine ⟨?_, .store⟩
  split
  · next hneg =>
    have hmax : max r.reserved actual = r.reserved := by omega
    refine .setCommitted hw hknown ⟨by omega, hlt⟩ rfl (hl.commit rfl hneg rfl) rfl ?_ (by simp)
    intro t'
    by_cases heq : t' = r.tenant <;> simp [heq, hnew, hmax]
  · next hnonneg =>
    have hmax : max r.reserved actual = actual := by omega
    refine .setCommitted hw hknown ⟨by omega, hlt⟩ rfl (hl.commit rfl trivial rfl) rfl ?_ (by simp)
    intro t'
    by_cases heq : t' = r.tenant <;> simp [heq, hnew, hmax]

theorem commit_refund_advances {actual : Int}
    (h : commit free fails e id r actual .refund = some (e', p')) (hw : e.WellFormed)
    (hl : (Pc.commit id r actual .refund).Locally e)
    (hc : Covered e (Pc.commit id r actual .refund)) :
    Advances free gateFree e (.commit id r actual .refund) e' p' := by
  obtain ⟨hactual, hreserved, hstage⟩ := hl.sane
  have hless : actual < r.reserved := hstage
  have hknown := hl.known r.tenant rfl
  have hheld := hc.heldBack r.tenant
  have hrem := hw.remaining_nonneg r.tenant
  have hdelta : InI64 (actual - r.reserved) := ⟨by omega, by omega⟩
  simp only [Pc.heldBack, CommitStage.heldBack, if_true] at hheld
  have hneg : InI64 (r.reserved - actual) := ⟨by omega, by omega⟩
  have hin : InI64 (e.remaining r.tenant + (r.reserved - actual)) := ⟨by omega, by omega⟩
  simp only [commit, wrap_of_inI64 hdelta, neg_sub, wrap_of_inI64 hneg,
    check_of_inI64 hneg, fetchAddBudget_of_inI64 hin] at h
  cases h
  refine ⟨.setBudget hw hknown (by omega) (hl.commit rfl trivial rfl) ?_ (by simp) (by simp),
    .refund⟩
  intro t'
  by_cases heq : t' = r.tenant <;> simp [heq]

theorem commit_subtract_advances {actual : Int}
    (h : commit free fails e id r actual .subtract = some (e', p')) (hw : e.WellFormed)
    (hl : (Pc.commit id r actual .subtract).Locally e)
    (hc : Covered e (Pc.commit id r actual .subtract)) :
    Advances free gateFree e (.commit id r actual .subtract) e' p' := by
  obtain ⟨-, hreserved, -⟩ := hl.sane
  have hknown := hl.known r.tenant rfl
  have hcounted := hc.counted r.tenant
  have htotal := hw.reservedTotal_lt r.tenant
  simp only [Pc.counted, CommitStage.counted, if_true] at hcounted
  have hin : InI64 (e.reservedTotal r.tenant - r.reserved) := ⟨by omega, by omega⟩
  simp only [commit] at h
  split at h
  · rw [fetchSubTotal_of_inI64 hin] at h
    cases h
    refine ⟨.setReservedTotal hw hknown ⟨by omega, by omega⟩ (hl.commit rfl trivial rfl) ?_
      (by simp), .subtract⟩
    intro t'
    by_cases heq : t' = r.tenant <;> simp [heq]
  · next hnone =>
    have := (hw.isSome_of_known hknown).2.2
    simp [hnone] at this

theorem commit_advances {actual : Int} {stage : CommitStage}
    (h : commit free fails e id r actual stage = some (e', p')) (hw : e.WellFormed)
    (hl : (Pc.commit id r actual stage).Locally e) (hc : Covered e (Pc.commit id r actual stage)) :
    Advances free gateFree e (.commit id r actual stage) e' p' := by
  obtain ⟨hactual, hreserved, hstage⟩ := hl.sane
  have hknown := hl.known r.tenant (by cases stage <;> rfl)
  cases stage with
  | lookup =>
    simp only [commit] at h
    split at h
    · cases h
      exact .quiet hw (hl.commit rfl trivial rfl) (by simp)
    · next hnone => simp [hnone] at hknown
  | lockCommitted => exact commit_lockCommitted_advances h hw hl
  | load newCommitted =>
    cases h
    exact .quiet hw ⟨⟨hactual, hreserved, hstage, hc.remaining_lt hl _⟩, hl.known, hl.pending,
      by simp, hl.committed⟩ (by simp)
  | debit newCommitted current => exact commit_debit_advances h hw hl hc
  | reinsert overrun =>
    cases overrun <;> cases h
    · exact ⟨.insertReservation hw hl rfl hreserved hknown
        ⟨⟨hactual, hreserved, by simp⟩, hl.known, by simp, by simp, by simp⟩ rfl (by simp),
        .putBack (.inl rfl)⟩
    · exact ⟨.insertReservation hw hl rfl hreserved hknown (.idle _ _) rfl (by simp),
        .putBack (.inr ⟨_, rfl⟩)⟩
  | reportOverflow | report =>
    cases h
    exact .finish hw (by simp)
  | store newCommitted => exact commit_store_advances h hw hl
  | refund => exact commit_refund_advances h hw hl hc
  | subtract => exact commit_subtract_advances h hw hl hc

theorem lockRelease_advances (h : lockRelease free e id = some (e', p')) (hw : e.WellFormed) :
    Advances free gateFree e (.lockRelease id) e' p' := by
  unfold lockRelease at h
  split at h
  · next hfree =>
    split at h <;> cases h
    · exact .finish hw (by simp)
    · next r hr =>
      obtain ⟨-, hpos, -⟩ := hw.reservations id r hr
      exact ⟨.removeReservation hw hr hpos rfl rfl rfl rfl (by simp [hfree]), .takeRelease hr⟩
  · cases h

theorem release_advances {stage : ReleaseStage} (h : release e id r stage = some (e', p'))
    (hw : e.WellFormed) (hl : (Pc.release id r stage).Locally e)
    (hc : Covered e (Pc.release id r stage)) :
    Advances free gateFree e (.release id r stage) e' p' := by
  have hknown := hl.known r.tenant rfl
  have hpos : 0 < r.reserved ∧ r.reserved < 2 ^ 63 := hl.sane
  have hcounted := hc.counted r.tenant
  have hheld := hc.heldBack r.tenant
  have hrem := hw.remaining_nonneg r.tenant
  have htotal := hw.reservedTotal_lt r.tenant
  cases stage with
  | lookup =>
    simp only [release] at h
    split at h
    · cases h
      exact .quiet hw ⟨hl.sane, hl.known, hl.pending, by simp, by simp⟩ (by simp)
    · next hnone => simp [hnone] at hknown
  | subtract =>
    simp only [Pc.counted, ReleaseStage.counted, if_true] at hcounted
    have hin : InI64 (e.reservedTotal r.tenant - r.reserved) := ⟨by omega, by omega⟩
    simp only [release] at h
    split at h
    · rw [fetchSubTotal_of_inI64 hin] at h
      cases h
      refine ⟨.setReservedTotal hw hknown ⟨by omega, by omega⟩
        ⟨hl.sane, hl.known, hl.pending, by simp, by simp⟩ ?_ (by simp), .uncount⟩
      intro t'
      by_cases heq : t' = r.tenant <;> simp [heq]
    · next hnone =>
      have := (hw.isSome_of_known hknown).2.2
      simp [hnone] at this
  | refund =>
    simp only [Pc.heldBack, if_true] at hheld
    have hin : InI64 (e.remaining r.tenant + r.reserved) := ⟨by omega, by omega⟩
    simp only [release, fetchAddBudget_of_inI64 hin, check_of_inI64 hin, wrap_of_inI64 hin] at h
    cases h
    refine ⟨.setBudget hw hknown (by omega) (.idle _ _) ?_ (by simp) (by simp), .giveBack⟩
    intro t'
    by_cases heq : t' = r.tenant <;> simp [heq]

theorem advance_advances (h : advance free fails e gateFree p = some (e', p'))
    (hw : e.WellFormed) (hl : p.Locally e) (hc : Covered e p) :
    Advances free gateFree e p e' p' := by
  cases p with
  | idle last => cases h
  | ensure t b => exact tryEnsureTenant_advances h hw hl
  | setMaxReserved t m =>
    simp only [advance, trySetMaxReserved] at h
    split at h <;> cases h
    exact ⟨.setCap hw, .cap ‹_›⟩
  | topUp t a stage => exact topUpTenant_advances h hw hl
  | reserve t c stage => exact tryReserve_advances h hw hl hc
  | lockCommit id actual => exact lockCommit_advances h hw hl
  | commit id r actual stage => exact commit_advances h hw hl hc
  | lockRelease id => exact lockRelease_advances h hw
  | release id r stage => exact release_advances h hw hl hc

end

end Calybris.Budget
