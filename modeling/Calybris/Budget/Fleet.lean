import Calybris.Budget.Allocator
import Calybris.Budget.Restore

/-!
# Engines restored from snapshots of one another

A fleet is a number of engines at work side by side, each but the first restored from a
snapshot that another one took. It has one clock for all of them, and each engine keeps
the times at which it issued identifiers and took snapshots.

An engine goes on after it took a snapshot, so the path that leads to a snapshot leaves
each engine on it at the snapshot that was restored next.
-/

namespace Calybris.Budget

open Transition List Option

variable {Tenant : Type*} [LinearOrder Tenant] {n m : Nat}

structure Member (Tenant : Type*) (n m : Nat) where
  /-- The engine that took the snapshot this one was restored from, and when. -/
  origin : Option (Nat × Nat)
  system : Shared Tenant n m
  trail : List (Nat × Note Tenant)

structure Fleet (Tenant : Type*) (n m : Nat) where
  clock : Nat
  members : List (Member Tenant n m)

namespace Fleet

inductive Event (Tenant : Type*) (n m : Nat) where
  | step (engine : Nat) (event : Shared.Event Tenant n m)
  | restore (engine time : Nat)

def start (e : Engine Tenant) (registry : Registry Tenant) : Fleet Tenant n m :=
  ⟨0, [⟨none, .start e registry, []⟩]⟩

variable (f : Fleet Tenant n m)

def captured (k t : Nat) : Option (BudgetSnapshot Tenant) :=
  f.members[k]?.bind fun member =>
    member.trail.findSome? fun
      | (t', .captured snapshot) => if t' = t then some snapshot else none
      | _ => none

def step : Event Tenant n m → Option (Fleet Tenant n m)
  | .step k event =>
    f.members[k]?.bind fun member =>
      (member.system.step event).map fun s =>
        ⟨f.clock + 1, f.members.set k { member with
          system := s
          trail := member.trail ++ (member.system.news s).map (Prod.mk f.clock) }⟩
  | .restore k t =>
    (f.captured k t).bind fun snapshot =>
      match Engine.restoreFromSnapshot snapshot with
      | .error _ => none
      | .ok (e, registry) =>
        some ⟨f.clock + 1, f.members ++ [⟨some (k, t), .start e registry, []⟩]⟩

def Noted (k t : Nat) (x : Note Tenant) : Prop :=
  ∃ member, f.members[k]? = some member ∧ (t, x) ∈ member.trail

instance (k t : Nat) (x : Note Tenant) : Decidable (f.Noted k t x) :=
  inferInstanceAs (Decidable (∃ member ∈ f.members[k]?, (t, x) ∈ member.trail))

def origin (k : Nat) : Option (Nat × Nat) := f.members[k]?.bind Member.origin

/-- The path to the snapshot that engine `k` took at `t` leaves engine `k'` by the snapshot
taken at `t'`. -/
inductive Leaves (k' t' : Nat) : Nat → Nat → Prop
  | here : Leaves k' t' k' t'
  | before {k t k₁ t₁} (horigin : f.origin k = some (k₁, t₁)) (h : Leaves k' t' k₁ t₁) :
      Leaves k' t' k t

/-- The engine was restored from the snapshot that engine `k` took at `t`, or from a
snapshot of an engine that was. -/
inductive Descends (k t : Nat) : Nat → Prop
  | restored {j} (horigin : f.origin j = some (k, t)) : Descends k t j
  | through {j j' t'} (horigin : f.origin j = some (j', t')) (h : Descends k t j') : Descends k t j

variable {f} {f' : Fleet Tenant n m}

omit [LinearOrder Tenant] in
theorem noted_of_captured {k t : Nat} {snapshot : BudgetSnapshot Tenant}
    (h : f.captured k t = some snapshot) : f.Noted k t (.captured snapshot) := by
  obtain ⟨member, hmember, hfind⟩ := bind_eq_some_iff.1 h
  obtain ⟨⟨t', x⟩, hx, hsome⟩ := exists_of_findSome?_eq_some hfind
  cases x with
  | issued id => cases hsome
  | captured other =>
    obtain ⟨rfl, hother⟩ := ite_none_right_eq_some.1 hsome
    cases hother
    exact ⟨member, hmember, hx⟩

inductive Step (f : Fleet Tenant n m) : Fleet Tenant n m → Prop
  | step {k member s} (hmember : f.members[k]? = some member) (h : member.system.Step s) :
      Step f ⟨f.clock + 1, f.members.set k { member with
        system := s
        trail := member.trail ++ (member.system.news s).map (Prod.mk f.clock) }⟩
  | restore {k t snapshot e registry} (hsnapshot : f.Noted k t (.captured snapshot))
      (h : Engine.restoreFromSnapshot snapshot = .ok (e, registry)) :
      Step f ⟨f.clock + 1, f.members ++ [⟨some (k, t), .start e registry, []⟩]⟩

theorem step_inv {event : Event Tenant n m} (h : f.step event = some f') : f.Step f' := by
  cases event with
  | step k event =>
    obtain ⟨member, hmember, h⟩ := bind_eq_some_iff.1 h
    obtain ⟨s, hs, rfl⟩ := map_eq_some_iff.1 h
    exact .step hmember (Shared.step_inv hs)
  | restore k t =>
    obtain ⟨snapshot, hsnapshot, h⟩ := bind_eq_some_iff.1 h
    split at h
    · cases h
    · next e registry hrestore =>
      cases h
      exact .restore (noted_of_captured hsnapshot) hrestore

theorem Step.noted (h : f.Step f') {k t : Nat} {x : Note Tenant} (hx : f.Noted k t x) :
    f'.Noted k t x := by
  obtain ⟨member, hmember, hx⟩ := hx
  have hk : k < f.members.length := (List.getElem?_eq_some_iff.1 hmember).1
  cases h with
  | @step k' member' s hmember' hstep =>
    by_cases heq : k' = k
    · subst heq
      obtain rfl := some.inj (hmember.symm.trans hmember')
      exact ⟨_, getElem?_set_self hk, mem_append_left _ hx⟩
    · exact ⟨member, by rw [getElem?_set_ne heq, hmember], hx⟩
  | restore hsnapshot hrestore =>
    exact ⟨member, by rw [getElem?_append_left hk, hmember], hx⟩

/-! ### What holds in every run -/

/-- The engine at `k` began with the position that the snapshot it was restored from
carries, and keeps to the positions from there on. -/
structure Keeps (f : Fleet Tenant n m) (low : Nat) (member : Member Tenant n m) : Prop where
  allocates : Allocates low f.clock member.system member.trail
  fence : ∀ k t, member.origin = some (k, t) → low ≤ recoveryAllocatorMask ∧
    ∃ snapshot, f.Noted k t (.captured snapshot) ∧ snapshot.version = recoverySnapshotTag ||| low

def Fenced (f : Fleet Tenant n m) : Prop :=
  ∀ (k : Nat) member, f.members[k]? = some member → ∃ low, f.Keeps low member

theorem Keeps.wait {low : Nat} {member : Member Tenant n m} (h : f.Keeps low member)
    (hstep : f.Step f') (hclock : f'.clock = f.clock + 1) : f'.Keeps low member where
  allocates := hclock ▸ h.allocates.wait
  fence k t horigin := by
    obtain ⟨hle, snapshot, hnoted, hversion⟩ := h.fence k t horigin
    exact ⟨hle, snapshot, hstep.noted hnoted, hversion⟩

omit [LinearOrder Tenant] in
theorem Fenced.start (e : Engine Tenant) (registry : Registry Tenant) :
    (Fleet.start e registry : Fleet Tenant n m).Fenced := by
  intro k member hmember
  cases k with
  | zero =>
    cases hmember
    exact ⟨e.nextId, .start e registry, nofun⟩
  | succ k => cases hmember

theorem Fenced.step (h : f.Fenced) (hstep : f.Step f') : f'.Fenced := by
  intro j member' hmember'
  cases hstep with
  | @step k member s hmember hs =>
    by_cases heq : k = j
    · subst heq
      have hk : k < f.members.length := (List.getElem?_eq_some_iff.1 hmember).1
      rw [List.getElem?_set_self hk] at hmember'
      cases hmember'
      obtain ⟨low, hkeeps⟩ := h k member hmember
      exact ⟨low, hkeeps.allocates.step hs.allots, (hkeeps.wait (.step hmember hs) rfl).fence⟩
    · rw [getElem?_set_ne heq] at hmember'
      obtain ⟨low, hkeeps⟩ := h j member' hmember'
      exact ⟨low, hkeeps.wait (.step hmember hs) rfl⟩
  | @restore k t snapshot e registry hsnapshot hrestore =>
    rcases lt_or_ge j f.members.length with hj | hj
    · rw [getElem?_append_left hj] at hmember'
      obtain ⟨low, hkeeps⟩ := h j member' hmember'
      exact ⟨low, hkeeps.wait (.restore hsnapshot hrestore) rfl⟩
    · rw [getElem?_append_right hj] at hmember'
      obtain rfl := mem_singleton.1 (mem_of_getElem? hmember')
      -- The version reads back as the position that the engine begins with.
      obtain ⟨owner, howner, hnoted⟩ := hsnapshot
      obtain ⟨low, hkeeps⟩ := h k owner howner
      obtain ⟨-, fence, hlow, -, hmask, hversion⟩ := hkeeps.allocates.within _ hnoted
      obtain ⟨-, -, hnext, -⟩ := Engine.restoreFromSnapshot_eq_ok hrestore
      rw [hversion, allocatorFromSnapshotVersion_tag (by omega) hmask] at hnext
      cases hnext
      refine ⟨e.nextId, .start e registry, ?_⟩
      rintro k' t' ⟨⟩
      exact ⟨hmask, snapshot, Step.noted (.restore ⟨owner, howner, hnoted⟩ hrestore)
        ⟨owner, howner, hnoted⟩, hversion⟩

section

variable {k t k' t' j p low : Nat} {id : Nat} {snapshot : BudgetSnapshot Tenant}

omit [LinearOrder Tenant] in
theorem Fenced.eq_of_noted (h : f.Fenced) {x y : Note Tenant} (hx : f.Noted k t x)
    (hy : f.Noted k t y) : x = y := by
  obtain ⟨member, hmember, hx⟩ := hx
  obtain ⟨other, hother, hy⟩ := hy
  obtain rfl := some.inj (hmember.symm.trans hother)
  obtain ⟨low, hkeeps⟩ := h k member hmember
  exact hkeeps.allocates.eq_of_mem hx hy

omit [LinearOrder Tenant] in
theorem Fenced.before_of_lt (h : f.Fenced) {x y : Note Tenant} (hx : f.Noted k t x)
    (hy : f.Noted k t' y) (hlt : t < t') : x.Before y := by
  obtain ⟨member, hmember, hx⟩ := hx
  obtain ⟨other, hother, hy⟩ := hy
  obtain rfl := some.inj (hmember.symm.trans hother)
  obtain ⟨low, hkeeps⟩ := h k member hmember
  exact hkeeps.allocates.before_of_lt hx hy hlt

omit [LinearOrder Tenant] in
theorem Fenced.exists_version_lt (h : f.Fenced) (horigin : f.origin k = some (k', t'))
    (hsnapshot : f.Noted k t (.captured snapshot)) :
    ∃ middle, f.Noted k' t' (.captured middle) ∧ middle.version < snapshot.version := by
  obtain ⟨member, hmember, hmem⟩ := hsnapshot
  obtain ⟨low, hkeeps⟩ := h k member hmember
  obtain ⟨hmask, middle, hmiddle, hversion⟩ :=
    hkeeps.fence k' t' (by simpa [origin, hmember] using horigin)
  obtain ⟨-, fence, hlow, -, hfence, hversion'⟩ := hkeeps.allocates.within _ hmem
  refine ⟨middle, hmiddle, ?_⟩
  rw [hversion, hversion', tag_or_eq_add hmask, tag_or_eq_add hfence]
  omega

omit [LinearOrder Tenant] in
theorem Fenced.exists_version_le (h : f.Fenced) (hleaves : f.Leaves k' t' k t)
    (hsnapshot : f.Noted k t (.captured snapshot)) :
    ∃ left, f.Noted k' t' (.captured left) ∧ left.version ≤ snapshot.version := by
  induction hleaves generalizing snapshot with
  | here => exact ⟨snapshot, hsnapshot, le_rfl⟩
  | before horigin _ ih =>
    obtain ⟨middle, hmiddle, hlt⟩ := h.exists_version_lt horigin hsnapshot
    obtain ⟨left, hleft, hle⟩ := ih hmiddle
    exact ⟨left, hleft, hle.trans hlt.le⟩

omit [LinearOrder Tenant] in
theorem Fenced.version_le_of_descends (h : f.Fenced) (hdescends : f.Descends k t j)
    (hsnapshot : f.Noted k t (.captured snapshot)) {member : Member Tenant n m}
    (hmember : f.members[j]? = some member) (hkeeps : f.Keeps low member) :
    snapshot.version ≤ recoverySnapshotTag + low := by
  induction hdescends generalizing member low with
  | restored horigin =>
    obtain ⟨hmask, other, hother, hversion⟩ :=
      hkeeps.fence k t (by simpa [origin, hmember] using horigin)
    rw [Note.captured.inj (h.eq_of_noted hsnapshot hother), hversion, tag_or_eq_add hmask]
    rfl
  | @through j j' t' horigin _ ih =>
    obtain ⟨hmask, other, ⟨owner, howner, hother⟩, hversion⟩ :=
      hkeeps.fence j' t' (by simpa [origin, hmember] using horigin)
    obtain ⟨low', hkeeps'⟩ := h j' owner howner
    obtain ⟨-, fence, hlow, -, hfence, hversion'⟩ := hkeeps'.allocates.within _ hother
    rw [hversion', tag_or_eq_add hfence, tag_or_eq_add hmask] at hversion
    have hle := ih howner hkeeps'
    omega

omit [LinearOrder Tenant] in
theorem Fenced.le_of_issued (h : f.Fenced) (hdescends : f.Descends k t j)
    (hsnapshot : f.Noted k t (.captured snapshot)) (hid : f.Noted j p (.issued id)) :
    snapshot.version ≤ recoverySnapshotTag + id := by
  obtain ⟨member, hmember, hid⟩ := hid
  obtain ⟨low, hkeeps⟩ := h j member hmember
  obtain ⟨-, hlow, -⟩ := hkeeps.allocates.within _ hid
  exact (h.version_le_of_descends hdescends hsnapshot hmember hkeeps).trans (by omega)

end

/-- A fleet in whatever order its engines work: no engine that descends from a snapshot
issues an identifier that an engine on the path to the snapshot issued before the path
left it. An engine takes snapshots of ever higher versions and issues no identifier
twice, and once its allocator is exhausted snapshots fail and reservations return
`Overflow`. -/
theorem restored_ids_fresh {e : Engine Tenant} {registry : Registry Tenant}
    {es : List (Event Tenant n m)} (hrun : run step (start e registry) es = some f) :
    (∀ k t snapshot, f.Noted k t (.captured snapshot) →
      ∀ j, f.Descends k t j → ∀ p id, f.Noted j p (.issued id) →
      ∀ k' t', f.Leaves k' t' k t → ∀ p' id', p' < t' → f.Noted k' p' (.issued id') → id ≠ id') ∧
    (∀ k t t' snapshot snapshot', f.Noted k t (.captured snapshot) →
      f.Noted k t' (.captured snapshot') → t < t' → snapshot.version < snapshot'.version) ∧
    (∀ k t t' id id', f.Noted k t (.issued id) → f.Noted k t' (.issued id') → t < t' → id ≠ id') ∧
    ∀ member ∈ f.members, ¬ member.system.core.engine.nextId < recoveryAllocatorMask →
      (∀ j began, member.system.core.gateFree → member.system.observers j = .snapshot began →
        member.system.step (.observe j) = some (member.system.move j
          (.taken began member.system.history.clock (.error .allocatorExhausted)))) ∧
      ∀ i t c fails, member.system.core.pc i = .reserve t c .allocate →
        ∃ s' total, run Shared.step member.system (replicate 3 (.core (.advance i fails))) =
            some s' ∧
          s'.core.pc i = .idle (some (.reservation (.overflow total) none)) ∧
          s'.core.engine.nextId = member.system.core.engine.nextId := by
  have h : f.Fenced :=
    run_invariant (fun hf hstep => Fenced.step hf (step_inv hstep)) (Fenced.start e registry) hrun
  refine ⟨?_, ?_, ?_, ?_⟩
  · intro k t snapshot hsnapshot j hdescends p id hid k' t' hleaves p' id' hlt hid'
    obtain ⟨left, hleft, hle⟩ := h.exists_version_le hleaves hsnapshot
    have hbelow : recoverySnapshotTag + id' < left.version := h.before_of_lt hid' hleft hlt
    have habove := h.le_of_issued hdescends hsnapshot hid
    omega
  · intro k t t' snapshot snapshot' hsnapshot hsnapshot' hlt
    exact h.before_of_lt hsnapshot hsnapshot' hlt
  · intro k t t' id id' hid hid' hlt
    exact h.before_of_lt hid hid' hlt
  · intro member _ hfull
    refine ⟨fun j began hgate hj => ?_, fun i t c fails hi => ?_⟩
    · simp only [Shared.step, Shared.observe, hj, if_pos hgate, Shared.capture_eq, if_neg hfull]
    · simp [run, replicate, Shared.step, State.step, advance, hi, tryReserve, hfull]
      rfl

section

def calledOn (k : Nat) (call : Call Unit) (steps : Nat) : List (Event Unit 1 1) :=
  (Shared.Event.called 0 call steps).map (.step k)

def snapshotTrace (k : Nat) : List (Event Unit 1 1) :=
  [.step k (.trySnapshot 0), .step k (.observe 0), .step k (.observe 0)]

def generationsTrace : List (Event Unit 1 1) :=
  calledOn 0 (.tryEnsureTenant () 9) 1 ++ calledOn 0 (.tryReserve () 1) 8 ++
  calledOn 0 (.release 1) 4 ++ snapshotTrace 0 ++ [.restore 0 17] ++
  calledOn 1 (.tryReserve () 1) 8 ++ calledOn 1 (.release 3) 4 ++ snapshotTrace 1 ++
  [.restore 1 35] ++ calledOn 2 (.tryReserve () 1) 8

theorem restored_ids_fresh_generations :
    ∃ f, run step (start .new .new) generationsTrace = some f ∧ f.Noted 2 46 (.issued 5) ∧
      ∀ p id, f.Noted 2 p (.issued id) → id ≠ 1 ∧ id ≠ 3 := by
  obtain ⟨f, hf, h0, h1, h2, hsnapshot, horigin1, horigin2⟩ :
      ∃ f ∈ run step (start .new .new) generationsTrace, f.Noted 0 10 (.issued 1) ∧
        f.Noted 1 28 (.issued 3) ∧ f.Noted 2 46 (.issued 5) ∧
        f.Noted 1 35 (.captured ⟨2 ^ 63 + 5, [⟨(), 9, 9, 0, 0⟩], 0, none⟩) ∧
        f.origin 1 = some (0, 17) ∧ f.origin 2 = some (1, 35) := by decide +kernel
  obtain ⟨hfresh, -⟩ := restored_ids_fresh hf
  refine ⟨f, hf, h2, fun p id hid => ?_⟩
  have hbefore := hfresh 1 35 _ hsnapshot 2 (.restored horigin2) p id hid
  exact ⟨hbefore 0 17 (.before horigin1 .here) 10 1 (by decide) h0,
    hbefore 1 35 .here 28 3 (by decide) h1⟩

def forkTrace : List (Event Unit 1 1) :=
  calledOn 0 (.tryEnsureTenant () 9) 1 ++ snapshotTrace 0 ++ calledOn 0 (.tryReserve () 1) 8 ++
  calledOn 0 (.tryReserve () 1) 8 ++ [.restore 0 3] ++ snapshotTrace 1 ++ [.restore 1 25] ++
  calledOn 2 (.tryReserve () 1) 8

/-- The third engine issues an identifier that the first one, which is on the path to the
snapshot of the second, issued before that snapshot was taken. -/
theorem ids_not_fresh_after_fork :
    ¬ ∀ es (f : Fleet Unit 1 1), run step (start .new .new) es = some f →
      ∀ k t snapshot, f.Noted k t (.captured snapshot) →
      ∀ j, f.Descends k t j → ∀ p id, f.Noted j p (.issued id) →
      ∀ k' t', f.Leaves k' t' k t → ∀ p' id', p' < t → f.Noted k' p' (.issued id') → id ≠ id' := by
  intro hfresh
  obtain ⟨f, hf, h0, h2, hsnapshot, horigin1, horigin2⟩ :
      ∃ f ∈ run step (start .new .new) forkTrace, f.Noted 0 22 (.issued 3) ∧
        f.Noted 2 36 (.issued 3) ∧
        f.Noted 1 25 (.captured ⟨2 ^ 63 + 3, [⟨(), 9, 9, 0, 0⟩], 0, none⟩) ∧
        f.origin 1 = some (0, 3) ∧ f.origin 2 = some (1, 25) := by decide +kernel
  exact hfresh _ f hf 1 25 _ hsnapshot 2 (.restored horigin2) 36 3 h2 0 3 (.before horigin1 .here)
    22 3 (by decide) h0 rfl

end

end Fleet

end Calybris.Budget
