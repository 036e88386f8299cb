import Mathlib.Order.Monotone.Basic

/-!
# Searching a range for the boundary of a predicate

A predicate that turns from false to true once as its argument rises has a smallest value
at which it holds, and one that turns from true to false a largest. Both are found by
halving the range. The predicate is asked through a partial function, which may fail to
answer; the search then fails as well.
-/

namespace Calybris.Search

/-- Halves `[lo, hi]`, of which the predicate holds at `hi`. -/
def lowestLoop (pred : Nat → Option Bool) (lo hi : Nat) : Option Nat :=
  if lo < hi then
    let mid := lo + (hi - lo) / 2
    (pred mid).bind fun holds =>
      if holds then lowestLoop pred lo mid else lowestLoop pred (mid + 1) hi
  else some lo
termination_by hi - lo

def lowestTrue (pred : Nat → Option Bool) (lo hi : Nat) : Option (Option Nat) :=
  if lo > hi then some none
  else (pred hi).bind fun holds =>
    if holds then (lowestLoop pred lo hi).map some else some none

/-- Halves `[lo, hi]`, of which the predicate holds at `lo`. -/
def highestLoop (pred : Nat → Option Bool) (lo hi : Nat) : Option Nat :=
  if lo < hi then
    let mid := lo + (hi - lo + 1) / 2
    (pred mid).bind fun holds =>
      if holds then highestLoop pred mid hi else highestLoop pred lo (mid - 1)
  else some lo
termination_by hi - lo

def highestTrue (pred : Nat → Option Bool) (lo hi : Nat) : Option (Option Nat) :=
  if lo > hi then some none
  else (pred lo).bind fun holds =>
    if holds then (highestLoop pred lo hi).map some else some none

variable {pred : Nat → Option Bool} {p : Nat → Prop} [DecidablePred p] {lo hi : Nat}

def Decides (pred : Nat → Option Bool) (p : Nat → Prop) [DecidablePred p] (lo hi : Nat) : Prop :=
  ∀ v, lo ≤ v → v ≤ hi → pred v = some (decide (p v))

theorem Decides.mono (h : Decides pred p lo hi) {lo' hi' : Nat} (hlo : lo ≤ lo') (hhi : hi' ≤ hi) :
    Decides pred p lo' hi' := fun v hv hv' => h v (hlo.trans hv) (hv'.trans hhi)

def Rising (p : Nat → Prop) (lo hi : Nat) : Prop :=
  ∀ v w, lo ≤ v → v ≤ w → w ≤ hi → p v → p w

def Falling (p : Nat → Prop) (lo hi : Nat) : Prop :=
  ∀ v w, lo ≤ v → v ≤ w → w ≤ hi → p w → p v

theorem lowestLoop_spec (hpred : Decides pred p lo hi) (hrising : Rising p lo hi) (hle : lo ≤ hi)
    (hhi : p hi) : ∃ b, lowestLoop pred lo hi = some b ∧ lo ≤ b ∧ b ≤ hi ∧ p b ∧
      ∀ v, lo ≤ v → v < b → ¬ p v := by
  fun_induction lowestLoop pred lo hi with
  | case1 lo hi hlt mid ih1 ih2 =>
    have hmid : lo ≤ mid ∧ mid < hi := by omega
    rw [hpred mid hmid.1 hmid.2.le, Option.bind_some]
    by_cases hp : p mid
    · rw [if_pos (decide_eq_true hp)]
      obtain ⟨b, hb, hlo, hbmid, hpb, hbelow⟩ := ih1 (hpred.mono le_rfl hmid.2.le)
        (fun v w hv hvw hw => hrising v w hv hvw (hw.trans hmid.2.le)) hmid.1 hp
      exact ⟨b, hb, hlo, hbmid.trans hmid.2.le, hpb, hbelow⟩
    · rw [if_neg (by simpa using hp)]
      obtain ⟨b, hb, hlo, hbhi, hpb, hbelow⟩ := ih2 (hpred.mono (by omega) le_rfl)
        (fun v w hv hvw hw => hrising v w (by omega) hvw hw) (by omega) hhi
      refine ⟨b, hb, by omega, hbhi, hpb, fun v hv hvb hpv => ?_⟩
      by_cases hvmid : v ≤ mid
      · exact hp (hrising v mid hv hvmid hmid.2.le hpv)
      · exact hbelow v (by omega) hvb hpv
  | case2 lo hi hge =>
    obtain rfl : lo = hi := by omega
    exact ⟨lo, rfl, le_rfl, le_rfl, hhi, fun v hv hvb => absurd hvb (by omega)⟩

theorem highestLoop_spec (hpred : Decides pred p lo hi) (hfalling : Falling p lo hi)
    (hle : lo ≤ hi) (hlo : p lo) : ∃ b, highestLoop pred lo hi = some b ∧ lo ≤ b ∧ b ≤ hi ∧ p b ∧
      ∀ v, b < v → v ≤ hi → ¬ p v := by
  fun_induction highestLoop pred lo hi with
  | case1 lo hi hlt mid ih1 ih2 =>
    have hmid : lo < mid ∧ mid ≤ hi := by omega
    rw [hpred mid hmid.1.le hmid.2, Option.bind_some]
    by_cases hp : p mid
    · rw [if_pos (decide_eq_true hp)]
      obtain ⟨b, hb, hmidb, hbhi, hpb, habove⟩ := ih1 (hpred.mono hmid.1.le le_rfl)
        (fun v w hv hvw hw => hfalling v w (hmid.1.le.trans hv) hvw hw) hmid.2 hp
      exact ⟨b, hb, hmid.1.le.trans hmidb, hbhi, hpb, habove⟩
    · rw [if_neg (by simpa using hp)]
      obtain ⟨b, hb, hlob, hbmid, hpb, habove⟩ := ih2 (hpred.mono le_rfl (by omega))
        (fun v w hv hvw hw => hfalling v w hv hvw (by omega)) (by omega) hlo
      refine ⟨b, hb, hlob, by omega, hpb, fun v hbv hv hpv => ?_⟩
      by_cases hvmid : v < mid
      · exact habove v hbv (by omega) hpv
      · exact hp (hfalling mid v hmid.1.le (by omega) hv hpv)
  | case2 lo hi hge =>
    obtain rfl : lo = hi := by omega
    exact ⟨lo, rfl, le_rfl, le_rfl, hlo, fun v hbv hv => absurd hbv (by omega)⟩

/-- What a search of a range has found: a value such that the worse ones do not do, or
nothing where none does. -/
def Found (p range : Nat → Prop) (worse : Nat → Nat → Prop) : Option Nat → Prop
  | none => ∀ v, range v → ¬ p v
  | some b => range b ∧ p b ∧ ∀ v, range v → worse b v → ¬ p v

omit [DecidablePred p] in
theorem Found.congr {range range' : Nat → Prop} {worse worse' : Nat → Nat → Prop} {x : Option Nat}
    (h : Found p range worse x) (hrange : ∀ v, range' v ↔ range v)
    (hworse : ∀ b v, worse' b v ↔ worse b v) : Found p range' worse' x := by
  obtain rfl : range' = range := funext fun v => propext (hrange v)
  obtain rfl : worse' = worse := funext fun b => funext fun v => propext (hworse b v)
  exact h

omit [DecidablePred p] in
theorem Found.of_zero {worse : Nat → Nat → Prop} {x : Option Nat}
    (h : Found p (fun v => 0 ≤ v ∧ v ≤ hi) worse x) : Found p (fun v => v ≤ hi) worse x :=
  h.congr (fun v => (and_iff_right (Nat.zero_le v)).symm) fun _ _ => Iff.rfl

theorem lowestTrue_spec (hpred : Decides pred p lo hi) (hrising : Rising p lo hi) :
    ∃ x, lowestTrue pred lo hi = some x ∧
      Found p (fun v => lo ≤ v ∧ v ≤ hi) (fun b v => v < b) x := by
  unfold lowestTrue
  split
  · exact ⟨none, rfl, fun v hv => absurd (hv.1.trans hv.2) (by omega)⟩
  next hle =>
  have hle : lo ≤ hi := by omega
  rw [hpred hi hle le_rfl, Option.bind_some]
  by_cases hp : p hi
  · rw [if_pos (decide_eq_true hp)]
    obtain ⟨b, hb, hlo, hhi, hpb, hbelow⟩ := lowestLoop_spec hpred hrising hle hp
    exact ⟨some b, by rw [hb, Option.map_some], ⟨hlo, hhi⟩, hpb, fun v hv => hbelow v hv.1⟩
  · rw [if_neg (by simpa using hp)]
    exact ⟨none, rfl, fun v hv hpv => hp (hrising v hi hv.1 hv.2 le_rfl hpv)⟩

theorem highestTrue_spec (hpred : Decides pred p lo hi) (hfalling : Falling p lo hi) :
    ∃ x, highestTrue pred lo hi = some x ∧
      Found p (fun v => lo ≤ v ∧ v ≤ hi) (fun b v => b < v) x := by
  unfold highestTrue
  split
  · exact ⟨none, rfl, fun v hv => absurd (hv.1.trans hv.2) (by omega)⟩
  next hle =>
  have hle : lo ≤ hi := by omega
  rw [hpred lo le_rfl hle, Option.bind_some]
  by_cases hp : p lo
  · rw [if_pos (decide_eq_true hp)]
    obtain ⟨b, hb, hlo, hhi, hpb, habove⟩ := highestLoop_spec hpred hfalling hle hp
    exact ⟨some b, by rw [hb, Option.map_some], ⟨hlo, hhi⟩, hpb, fun v hv hbv => habove v hbv hv.2⟩
  · rw [if_neg (by simpa using hp)]
    exact ⟨none, rfl, fun v hv hpv => hp (hfalling lo v le_rfl hv.1 hv.2 hpv)⟩

end Calybris.Search
