import Calybris.Budget.Certificates
import Calybris.Budget.Pictures

/-!
# What a call leaves alone

Every engine, new or restored, shows a book at every moment, whatever its threads do.
A call that one thread brings to its end while the others stand still is then one
operation on the book, or none where it was refused; since the others owe the counters
what they owed before, the counters change by what the book changes.
-/

namespace Calybris.Budget

open Finset Function Transition Option Engine Shared

variable {Tenant : Type*}

/-! ### The book of an engine from its beginning -/

section Begins

variable [DecidableEq Tenant] {n : Nat} {e : Engine Tenant} {registry : Registry Tenant}

/-- The accounts of an engine that has no holds. -/
def Engine.book (e : Engine Tenant) : Book Tenant where
  account t := (e.tenantBudgets t).map fun remaining => ⟨e.initial t, remaining, e.committed t⟩
  holds _ := none
  cap := e.maxReservedMicrocents
  issued := ∅

namespace Begins

theorem inv (h : Begins e registry) : Inv (⟨e, fun _ => .idle none⟩ : State Tenant n) := by
  cases h with
  | new => exact inv_init
  | restored h => exact inv_restored h

theorem reservations (h : Begins e registry) (id : Nat) : e.reservations id = none := by
  cases h with
  | new => rfl
  | restored h => exact (restoreFromSnapshot_eq_ok h).2.1.reservations id

theorem shows (h : Begins e registry) :
    Shows (⟨e, fun _ => .idle none⟩ : State Tenant n) e.book := by
  have hw : e.WellFormed := (h.inv (n := 0)).wellFormed
  have hamounts (t : Tenant) : e.book.initial t = e.initial t ∧
      e.book.remaining t = e.remaining t ∧ e.book.committed t = e.committed t := by
    cases ht : e.tenantBudgets t with
    | none =>
      obtain ⟨hremaining, hinitial, hcommitted, -⟩ := hw.eq_zero ht
      simp [Book.initial, Book.remaining, Book.committed, book, ht, hremaining, hinitial,
        hcommitted]
    | some x =>
      simp [Book.initial, Book.remaining, Book.committed, book, ht, remaining]
  constructor
  case known => exact fun t => isSome_map
  case initial => simpa using fun t => (hamounts t).1
  case remaining => simpa using fun t => (hamounts t).2.1
  case committed => simpa using fun t => (hamounts t).2.2
  case held =>
    simp [Book.held, book, held, heldFor, h.reservations]
  case holds => simp [book, h.reservations]
  case cap => rfl
  case issued_holds => simp [book]
  case issued_lt => simp [book]
  case fresh => simp
  case limited => simp

end Begins

end Begins

section

variable [LinearOrder Tenant] {n m : Nat}

/-- The invariant, the book that the engine shows, and the calls that its threads work
on. -/
structure Kept (s : Shared Tenant n m) (b : Book Tenant) : Prop where
  inv : Inv s.core
  shown : Shows s.core b
  serves : s.Serves

namespace Kept

variable {s s' : Shared Tenant n m} {b : Book Tenant} {i : Fin n}

theorem answered (h : Kept s b) {fails : Bool} {e' : Engine Tenant} {p' : Pc Tenant}
    (hadvance : advance s.core.free fails s.core.engine s.core.gateFree (s.core.pc i) =
      some (e', p')) :
    Answered s.core.gateFree s.core.engine (s.core.pc i) b e' p' :=
  h.shown.act h.inv (h.inv.advances hadvance).act

theorem follow (h : Kept s b) (hstep : s.Step s') {e' : Engine Tenant} {p' : Pc Tenant}
    {b' : Book Tenant}
    (hf : Follows s.core.gateFree s.core.engine (s.core.pc i) b e' p' b')
    (hcore : s'.core = ⟨e', update s.core.pc i p'⟩) : Kept s' b' :=
  ⟨hstep.inv h.inv, hcore ▸ h.shown.follow h.inv hf, hstep.serves h.serves h.inv⟩

theorem call (h : Kept s b) (hstep : s.Step s') {c : Call Tenant}
    (hidle : (s.core.pc i).inProgress = false)
    (hcore : s'.core = ⟨s.core.engine, update s.core.pc i c.start⟩) : Kept s' b :=
  h.follow hstep (h.shown.clean (Pc.clean_of_idle hidle) c.clean_start) hcore

theorem step (h : Kept s b) (hstep : s.Step s') : ∃ (op : Option (Op Tenant)) (b' : Book Tenant),
    run Book.apply b op.toList = some b' ∧ Kept s' b' := by
  have hserves := hstep.serves h.serves h.inv
  cases hstep with
  | call hidle => exact ⟨none, b, rfl, h.call (.call hidle) hidle rfl⟩
  | advance hadvance =>
    obtain ⟨op, b', hrun, hfollows, -⟩ := h.answered hadvance
    exact ⟨op, b', hrun, h.follow (.advance hadvance) hfollows rfl⟩
  | take hgate hlt ho =>
    exact ⟨none, b, rfl, h.inv.issue hlt, h.shown.issueNext h.inv, hserves⟩
  | ask | refuse | give | fail | certify => exact ⟨none, b, rfl, h.inv, h.shown, hserves⟩

end Kept

theorem Begins.kept {e : Engine Tenant} {registry : Registry Tenant} (h : Begins e registry) :
    Kept (start e registry : Shared Tenant n m) e.book :=
  ⟨h.inv, h.shows, fun _ _ hq => by cases hq⟩

theorem Begins.run_kept {e : Engine Tenant} {registry : Registry Tenant}
    (hbegins : Begins e registry) {P : List (Shared.Event Tenant n m) → Shared Tenant n m → Prop}
    (hnil : P [] (start e registry))
    (hstep : ∀ {es event u u' b}, Kept u b → P es u → u.step event = some u' → P (es ++ [event]) u')
    {es : List (Shared.Event Tenant n m)} {s : Shared Tenant n m}
    (h : run step (start e registry) es = some s) : ∃ b, Kept s b ∧ P es s := by
  refine run_history (P := fun es s => ∃ b, Kept s b ∧ P es s) ⟨_, hbegins.kept, hnil⟩ ?_ h
  rintro es event u u' ⟨b, hu, hP⟩ hnext
  obtain ⟨-, b', -, hu'⟩ := hu.step (step_inv hnext)
  exact ⟨b', hu', hstep hu hP hnext⟩

theorem exists_kept {e : Engine Tenant} {registry : Registry Tenant} (hbegins : Begins e registry)
    {es : List (Shared.Event Tenant n m)} {s : Shared Tenant n m}
    (h : run step (start e registry) es = some s) : ∃ b, Kept s b :=
  (hbegins.run_kept (P := fun _ _ => True) trivial (fun _ _ _ => trivial) h).imp fun _ hb => hb.1

/-! ### Calls that return -/

section Returns

variable {s s' : Shared Tenant n m} {r : Reply Tenant}

inductive Shared.Returns (s s' : Shared Tenant n m) (r : Reply Tenant) : Prop
  | atOnce {i} (hidle : (s.core.pc i).inProgress = false)
      (hstart : r.call.start = .idle (some r.outcome))
      (hcore : s'.core = ⟨s.core.engine, update s.core.pc i (.idle (some r.outcome))⟩)
  | atLast {i fails e'}
      (hadvance : advance s.core.free fails s.core.engine s.core.gateFree (s.core.pc i) =
        some (e', .idle (some r.outcome)))
      (hcall : s.history.calls i = some (r.began, r.call))
      (hrequest : (s.core.pc i).request = some r.call.request)
      (hended : r.ended = s.history.clock)
      (hcore : s'.core = ⟨e', update s.core.pc i (.idle (some r.outcome))⟩)

omit [LinearOrder Tenant] in
theorem History.arrive_eq_append {h : History Tenant n} {i : Fin n} {p : Pc Tenant}
    (hr : (h.arrive i p).replies = h.replies ++ [r]) :
    p = .idle (some r.outcome) ∧ h.calls i = some (r.began, r.call) ∧ r.ended = h.clock := by
  unfold arrive at hr
  split at hr
  · next outcome began call hcall =>
    obtain rfl := List.singleton_injective (List.append_cancel_left hr)
    exact ⟨rfl, hcall, rfl⟩
  · exact absurd (congrArg List.length hr) (by simp [tick])

theorem Shared.Step.returns (hstep : s.Step s') (hserves : s.Serves)
    (hr : s'.history.replies = s.history.replies ++ [r]) : s.Returns s' r := by
  have hsame : s.history.replies ≠ s.history.replies ++ [r] := by simp
  cases hstep with
  | @call i c hidle =>
    obtain ⟨hp, hcall, -⟩ := History.arrive_eq_append (h := s.history.begin i c) hr
    obtain ⟨-, rfl⟩ : _ ∧ c = r.call := by simpa [History.begin] using hcall
    refine .atOnce hidle hp ?_
    rw [hp]
  | @advance i fails e' p' hadvance =>
    obtain ⟨rfl, hcall, hended⟩ := History.arrive_eq_append hr
    obtain ⟨q, hq⟩ := exists_request_of_advance hadvance
    obtain ⟨began, call, hcalls, rfl⟩ := hserves i q hq
    obtain ⟨-, rfl⟩ := Prod.mk.inj (some.inj (hcalls.symm.trans hcall))
    exact .atLast hadvance hcall hq hended rfl
  | take | ask | refuse | give | fail | certify => exact absurd hr hsame

end Returns

/-! ### Open holds -/

/-- The hold is open: its record is in the map, or in the hands of a thread that has
admitted it or not yet settled it. -/
def State.Open (s : State Tenant n) (id : Nat) (r : ReservationRecord Tenant) : Prop :=
  s.engine.reservations id = some r ∨ ∃ i, (s.pc i).hold = some (id, r)

theorem Kept.reservations_eq_some_iff {s : Shared Tenant n m} {b : Book Tenant} (h : Kept s b)
    {id : Nat} {r : ReservationRecord Tenant} : s.core.engine.reservations id = some r ↔
      b.holds id = some r ∧ ∀ i r', (s.core.pc i).hold ≠ some (id, r') := by
  rw [h.shown.holds]
  constructor
  · intro hr
    refine ⟨.inl hr, fun i r' hold => ?_⟩
    have hnone := ((h.inv.locally i).pending id (Pc.pendingId_of_hold hold)).2
    rw [hr] at hnone
    cases hnone
  · rintro ⟨hr | ⟨i, hold⟩, hnot⟩
    · exact hr
    · exact absurd hold (hnot i r)

/-! ### One thread alone -/

/-- Thread `i` makes the call and brings it to its end, while the others stand still. -/
def Shared.Solo (s : Shared Tenant n m) (i : Fin n) (c : Call Tenant) (s' : Shared Tenant n m)
    (o : Outcome) : Prop :=
  ∃ fails : List Bool,
    run step s (.core (.call i c) :: fails.map fun f => .core (.advance i f)) = some s' ∧
    s'.core.pc i = .idle (some o)

/-- Thread `i` alone has gone on from `s`, where the book was `b`, with the call `c`. -/
structure Alone (s : Shared Tenant n m) (b : Book Tenant) (i : Fin n) (c : Call Tenant)
    (u : Shared Tenant n m) (b' : Book Tenant) : Prop where
  kept : Kept u b'
  others : ∀ j, j ≠ i → u.core.pc j = s.core.pc j
  baseline : u.registry.lastCertifiedCommittedTotal = s.registry.lastCertifiedCommittedTotal
  request : ∀ q, (u.core.pc i).request = some q → q = c.request
  booked : run Book.apply b ((u.core.pc i).effect c.request).toList = some b'

namespace Alone

variable {s u u' : Shared Tenant n m} {b b' : Book Tenant} {i : Fin n} {c : Call Tenant}

theorem call (h : Kept s b) (hstep : s.step (.core (.call i c)) = some u) :
    Alone s b i c u b := by
  have hstep' := step_inv hstep
  simp only [step, State.step] at hstep
  split at hstep
  · cases hstep
  · next hidle =>
    cases hstep
    constructor
    case kept => exact h.call hstep' (by simpa using hidle) rfl
    case others => exact fun j hj => update_of_ne hj _ _
    case baseline => rfl
    case request =>
      intro q hq
      exact Call.request_start (by simpa using hq)
    case booked =>
      simp only [update_self, c.effect_start]
      rfl

theorem advance (h : Alone s b i c u b') {fails : Bool}
    (hstep : u.step (.core (.advance i fails)) = some u') : ∃ b'', Alone s b i c u' b'' := by
  have hstep' := step_inv hstep
  simp only [step, State.step, Option.map_map, Option.map_eq_some_iff] at hstep
  obtain ⟨⟨e', p'⟩, hadvance, rfl⟩ := hstep
  obtain ⟨op, b'', hrun, hfollows, heffect⟩ := h.kept.answered hadvance
  have hact := (h.kept.inv.advances hadvance).act
  obtain ⟨q, hq⟩ := exists_request_of_advance hadvance
  obtain rfl := h.request q hq
  refine ⟨b'', h.kept.follow hstep' hfollows rfl, ?_, ?_, ?_, ?_⟩
  · intro j hj
    exact (update_of_ne hj _ _).trans (h.others j hj)
  · exact lastCertified_keep.trans h.baseline
  · intro q' hq'
    simp only [comp_apply, update_self] at hq'
    have hprogress : p'.inProgress := by
      cases hp : p' with
      | idle last => simp [hp] at hq'
      | _ => rfl
    rw [hact.request hprogress, hq] at hq'
    exact (Option.some.inj hq').symm
  · simp only [comp_apply, update_self]
    rw [heffect _ hq, run_append h.booked, hrun]

theorem run {fails : List Bool} (h : Alone s b i c u b')
    (hrun : Transition.run step u (fails.map fun f => .core (.advance i f)) = some u') :
    ∃ b'', Alone s b i c u' b'' := by
  induction fails generalizing u b' with
  | nil =>
    cases hrun
    exact ⟨b', h⟩
  | cons f fails ih =>
    obtain ⟨v, hstep, hrest⟩ := run_cons_eq_some_iff.1 hrun
    obtain ⟨b'', hv⟩ := h.advance hstep
    exact ih hv hrest

end Alone

/-! ### What an operation leaves alone -/

section Book

variable {b b' : Book Tenant} {op : Op Tenant}

def Op.tenant (b : Book Tenant) : Op Tenant → Option Tenant
  | .ensure t _ | .cap t _ | .topUp t _ | .reserve t _ _ => some t
  | .commit id _ | .release id => (b.holds id).map ReservationRecord.tenant

/-- The tenant has the same account, cap and holds in both books. -/
structure Book.SameFor (t : Tenant) (b b' : Book Tenant) : Prop where
  account : b'.account t = b.account t
  cap : b'.cap t = b.cap t
  held : b'.held t = b.held t

theorem Book.SameFor.place {t : Tenant} {id : Nat} {r : ReservationRecord Tenant} {x : Account}
    (hid : id ∉ b.issued) (ht : t ≠ r.tenant) : SameFor t b (b.place id r x) where
  account := update_of_ne ht _ _
  cap := rfl
  held := by rw [held_place hid, heldFor, if_neg ht, add_zero]

theorem Book.SameFor.settle {t : Tenant} {id : Nat} {r : ReservationRecord Tenant} {x : Account}
    (hid : id ∈ b.issued) (hr : b.holds id = some r) (ht : t ≠ r.tenant) :
    SameFor t b (b.settle id r.tenant x) where
  account := update_of_ne ht _ _
  cap := rfl
  held := by rw [held_settle hid hr, heldFor, if_neg ht, sub_zero]

/-- An operation is about one tenant, and opens or settles one hold at most. -/
theorem Book.frame_of_apply (happly : b.apply op = some b')
    (hissued : ∀ id r, b.holds id = some r → id ∈ b.issued) :
    (∀ t, op.tenant b ≠ some t → SameFor t b b') ∧
      ∃ id, ∀ id', id' ≠ id → b'.holds id' = b.holds id' := by
  cases op with
  | ensure t' x =>
    cases happly
    split
    · exact ⟨fun t ht => ⟨update_of_ne (fun h => ht (congrArg some h.symm)) _ _, rfl, rfl⟩, 0,
        fun _ _ => rfl⟩
    · exact ⟨fun t ht => ⟨rfl, rfl, rfl⟩, 0, fun _ _ => rfl⟩
  | cap t' x =>
    cases happly
    exact ⟨fun t ht => ⟨rfl, update_of_ne (fun h => ht (congrArg some h.symm)) _ _, rfl⟩, 0,
      fun _ _ => rfl⟩
  | topUp t' a =>
    obtain ⟨x, -, -, rfl⟩ := apply_topUp_eq_some_iff.1 happly
    exact ⟨fun t ht => ⟨update_of_ne (fun h => ht (congrArg some h.symm)) _ _, rfl, rfl⟩, 0,
      fun _ _ => rfl⟩
  | reserve t' c id =>
    obtain ⟨x, -, ⟨hid, -⟩, rfl⟩ := apply_reserve_eq_some_iff.1 happly
    exact ⟨fun t ht => .place hid fun h => ht (h ▸ rfl), id, fun id' hne => update_of_ne hne _ _⟩
  | commit id actual =>
    obtain ⟨r, hr, x, -, -, rfl⟩ := apply_commit_eq_some_iff.1 happly
    exact ⟨fun t ht => .settle (hissued id r hr) hr fun h => ht (by simp [Op.tenant, hr, h]), id,
      fun id' hne => update_of_ne hne _ _⟩
  | release id =>
    obtain ⟨r, hr, x, -, rfl⟩ := apply_release_eq_some_iff.1 happly
    exact ⟨fun t ht => .settle (hissued id r hr) hr fun h => ht (by simp [Op.tenant, hr, h]), id,
      fun id' hne => update_of_ne hne _ _⟩

end Book

/-! ### What a call leaves alone -/

structure Engine.SameFor (t : Tenant) (e e' : Engine Tenant) : Prop where
  known : (e'.tenantBudgets t).isSome = (e.tenantBudgets t).isSome
  row : e'.row t = e.row t
  cap : e'.maxReservedMicrocents t = e.maxReservedMicrocents t

/-- The tenant that the call is about: a settlement is about the one that the hold is
for. -/
def State.Names (s : State Tenant n) (t : Tenant) : Call Tenant → Prop
  | .tryEnsureTenant t' _ | .trySetMaxReserved t' _ | .topUpTenant t' _ | .tryReserve t' _ =>
    t' = t
  | .commit id _ | .release id => ∃ r, s.Open id.toNat r ∧ r.tenant = t

def Outcome.succeeded : Outcome → Bool
  | .configured none | .topUp (.toppedUp ..) | .reservation (.reserved _) _
  | .settlement (.committed ..) | .settlement (.released ..) => true
  | _ => false

theorem Shows.names_of_op {s : State Tenant n} {b : Book Tenant} (h : Shows s b) {c : Call Tenant}
    {o : Outcome} {op : Op Tenant} (hop : c.request.op o = some op) {t : Tenant}
    (ht : op.tenant b = some t) : s.Names t c := by
  have hopen : ∀ id, (b.holds id).map ReservationRecord.tenant = some t →
      ∃ r, s.Open id r ∧ r.tenant = t := by
    intro id hid
    obtain ⟨r, hr, rfl⟩ := map_eq_some_iff.1 hid
    exact ⟨r, (h.holds id r).1 hr, rfl⟩
  unfold Request.op at hop
  split at hop
  case h_7 => cases hop
  all_goals
    cases hop
    cases c <;> cases ‹Call.request _ = _›
    first | exact some.inj ht | exact hopen _ ht

namespace Alone

variable {s u : Shared Tenant n m} {b b' : Book Tenant} {i : Fin n} {c : Call Tenant}
  {last last' : Option Outcome} {t : Tenant}

theorem sum_eq (h : Alone s b i c u b') (hs : s.core.pc i = .idle last)
    (hu : u.core.pc i = .idle last') (f : Pc Tenant → Int)
    (hf : f (.idle last') = f (.idle last)) :
    ∑ j, f (u.core.pc j) = ∑ j, f (s.core.pc j) := by
  refine sum_congr rfl fun j _ => ?_
  by_cases hj : j = i
  · rw [hj, hu, hs, hf]
  · rw [h.others j hj]

theorem sameFor (h : Alone s b i c u b') (hkept : Kept s b) (hs : s.core.pc i = .idle last)
    (hu : u.core.pc i = .idle last') (hsame : b.SameFor t b') :
    Engine.SameFor t s.core.engine u.core.engine := by
  -- An amount that is the same in both books is the same in both engines.
  have hamount {f : Pc Tenant → Int} (hf : f (.idle last') = f (.idle last)) {x x' y y' : Int}
      (hx : x = y + ∑ j, f (s.core.pc j)) (hx' : x' = y' + ∑ j, f (u.core.pc j))
      (heq : x' = x) : y' = y := by
    have hsum := h.sum_eq hs hu f hf
    omega
  have hinitial := hamount (f := fun p => p.granted t) rfl (hkept.shown.initial t)
    (h.kept.shown.initial t) (by rw [Book.initial, hsame.account, ← Book.initial])
  have hremaining := hamount (f := fun p => p.owed t) rfl (hkept.shown.remaining t)
    (h.kept.shown.remaining t) (by rw [Book.remaining, hsame.account, ← Book.remaining])
  have hcommitted := hamount (f := fun p => p.spent t) rfl (hkept.shown.committed t)
    (h.kept.shown.committed t) (by rw [Book.committed, hsame.account, ← Book.committed])
  have hheld := hamount (f := fun p => p.holding t) rfl (hkept.shown.held t)
    (h.kept.shown.held t) hsame.held
  have hreserved : u.core.engine.reservedTotal t = s.core.engine.reservedTotal t := by
    have hcounted := h.sum_eq hs hu (fun p => p.counted t) rfl
    have h1 := hkept.inv.uncovered t
    have h2 := h.kept.inv.uncovered t
    rw [uncovered] at h1 h2
    omega
  refine ⟨?_, ?_, ?_⟩
  · rw [← h.kept.shown.known, hsame.account, hkept.shown.known]
  · rw [row, row, hinitial, hremaining, hcommitted, hreserved]
  · rw [← h.kept.shown.cap, hsame.cap, hkept.shown.cap]

theorem reservations_eq (h : Alone s b i c u b') (hkept : Kept s b)
    (hs : s.core.pc i = .idle last) (hu : u.core.pc i = .idle last') {id : Nat}
    (hholds : b'.holds id = b.holds id) :
    u.core.engine.reservations id = s.core.engine.reservations id := by
  have hhold : ∀ j, (u.core.pc j).hold = (s.core.pc j).hold := by
    intro j
    by_cases hj : j = i
    · rw [hj, hu, hs]
      rfl
    · rw [h.others j hj]
  apply Option.ext
  intro r
  rw [h.kept.reservations_eq_some_iff, hkept.reservations_eq_some_iff, hholds]
  simp only [hhold]

end Alone

/-- In every state that an engine comes to, whatever its threads did before: a call that
one thread runs alone and that is refused changes no row, no cap, no hold and not the
certificate baseline; one that succeeds changes the row of the tenant it names and one
hold at most. -/
theorem call_alone_frame {e : Engine Tenant} {registry : Registry Tenant}
    (hbegins : Begins e registry) {es : List (Shared.Event Tenant n m)} {s s' : Shared Tenant n m}
    (hrun : run step (start e registry) es = some s) {i : Fin n} {c : Call Tenant}
    {o : Outcome} (hsolo : s.Solo i c s' o) :
    (o.succeeded = false →
      (∀ t, Engine.SameFor t s.core.engine s'.core.engine) ∧
        ∀ id, s'.core.engine.reservations id = s.core.engine.reservations id) ∧
      (∀ t, ¬ s.core.Names t c → Engine.SameFor t s.core.engine s'.core.engine) ∧
      (∃ id, ∀ id', id' ≠ id →
        s'.core.engine.reservations id' = s.core.engine.reservations id') ∧
      s'.registry.lastCertifiedCommittedTotal = s.registry.lastCertifiedCommittedTotal := by
  obtain ⟨b, hkept⟩ := exists_kept hbegins hrun
  obtain ⟨fails, hrun', hdone⟩ := hsolo
  obtain ⟨u, hcall, hrest⟩ := run_cons_eq_some_iff.1 hrun'
  obtain ⟨last, hidle⟩ : ∃ last, s.core.pc i = .idle last := by
    simp only [step, State.step, map_eq_some_iff, ite_none_left_eq_some] at hcall
    obtain ⟨-, ⟨hidle, -⟩, -⟩ := hcall
    exact Pc.eq_idle (by simpa using hidle)
  obtain ⟨b', halone⟩ := (Alone.call hkept hcall).run hrest
  have hbooked := halone.booked
  rw [hdone, Pc.effect] at hbooked
  -- A call that reports no operation leaves the book as it was.
  have hnone : c.request.op o = none → b' = b := by
    intro hop
    rw [hop] at hbooked
    exact (some.inj hbooked).symm
  have hsame (h : b' = b) (t : Tenant) : Engine.SameFor t s.core.engine s'.core.engine :=
    halone.sameFor hkept hidle hdone (h ▸ ⟨rfl, rfl, rfl⟩)
  have hrecords (h : b' = b) (id : Nat) :
      s'.core.engine.reservations id = s.core.engine.reservations id :=
    halone.reservations_eq hkept hidle hdone (by rw [h])
  refine ⟨fun hrefused => ?_, fun t ht => ?_, ?_, halone.baseline⟩
  · have hop : c.request.op o = none := by
      unfold Request.op
      split
      case h_7 => rfl
      all_goals cases hrefused
    exact ⟨hsame (hnone hop), hrecords (hnone hop)⟩
  · cases hop : c.request.op o with
    | none => exact hsame (hnone hop) t
    | some op =>
      rw [hop, toList_some, run_singleton_eq_some_iff] at hbooked
      have hframe := Book.frame_of_apply hbooked hkept.shown.issued_holds
      exact halone.sameFor hkept hidle hdone
        (hframe.1 t fun hop' => ht (hkept.shown.names_of_op hop hop'))
  · cases hop : c.request.op o with
    | none => exact ⟨0, fun id _ => hrecords (hnone hop) id⟩
    | some op =>
      rw [hop, toList_some, run_singleton_eq_some_iff] at hbooked
      obtain ⟨id, hid⟩ := (Book.frame_of_apply hbooked hkept.shown.issued_holds).2
      exact ⟨id, fun id' hne => halone.reservations_eq hkept hidle hdone (hid id' hne)⟩

open Shared.Event in
attribute [local instance] neZero_two in
/-- A hold, and another thread that stopped where its amount is counted and no more. -/
def pausedTrace : List (Shared.Event Unit 2 0) :=
  called 0 (.tryEnsureTenant () 10) 1 ++ called 0 (.tryReserve () 4) 8 ++
  called 1 (.tryReserve () 5) 4

attribute [local instance] neZero_two in
/-- The commit takes the record out, finds that the balance does not suffice, and puts
it back. -/
theorem call_alone_frame_paused :
    ∃ s s', run step (start .new .new) pausedTrace = some s ∧
      s.Solo 0 (.commit 1 20) s' (.settlement (.overrun 6)) ∧
      Engine.SameFor () s.core.engine s'.core.engine ∧
      s'.core.engine.reservations 1 = some ⟨(), 4⟩ := by
  obtain ⟨s, hs, hopen, s', hsolo⟩ :
      ∃ s, run step (start .new .new) pausedTrace = some s ∧
        s.core.engine.reservations 1 = some ⟨(), 4⟩ ∧
        ∃ s', s.Solo 0 (.commit 1 20) s' (.settlement (.overrun 6)) :=
    ⟨_, rfl, rfl, _, List.replicate 6 false, rfl, rfl⟩
  obtain ⟨hrows, hrecords⟩ := (call_alone_frame .new hs hsolo).1 rfl
  exact ⟨s, s', hs, hsolo, hrows (), (hrecords 1).trans hopen⟩

end

end Calybris.Budget
