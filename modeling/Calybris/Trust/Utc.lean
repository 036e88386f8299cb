import Calybris.Calendar.Gregorian
import Calybris.Text.Basic
import Mathlib.Tactic.IntervalCases

/-!
# Times as text

`utc` prints a Unix time (`calybris_verify/trust.rs`). The date is found in years that begin
with March, in eras of 400 of them, so that the day a leap year adds is the last of its year.
-/

namespace Calybris.Trust

open Calybris.Text Calybris.Calendar
open Finset

def i64? (v : Int) : Option Int :=
  if -0x8000000000000000 ≤ v ∧ v < 0x8000000000000000 then some v else none

def yoe? (doe : Int) : Option Int := do
  return (← i64? ((← i64? ((← i64? (doe - doe.tdiv 1460)) + doe.tdiv 36524)) -
    doe.tdiv 146096)).tdiv 365

def doy? (doe yoe : Int) : Option Int := do
  i64? (doe - (← i64? ((← i64? ((← i64? (365 * yoe)) + yoe.tdiv 4)) - yoe.tdiv 100)))

def mp? (doy : Int) : Option Int := do
  return (← i64? ((← i64? (5 * doy)) + 2)).tdiv 153

def d? (doy mp : Int) : Option Int := do
  i64? ((← i64? (doy - (← i64? ((← i64? (153 * mp)) + 2)).tdiv 5)) + 1)

def civil (t : UInt64) : Option (Int × Int × Int) := do
  let days := (t / 86400).toInt64.toInt
  let z ← i64? (days + 719468)
  let era := z / 146097
  let doe := z % 146097
  let yoe ← yoe? doe
  let doy ← doy? doe yoe
  let mp ← mp? doy
  let d ← d? doy mp
  let m ← i64? (if mp < 10 then mp + 3 else mp - 9)
  let y ← i64? ((← i64? (yoe + (← i64? (era * 400)))) + if m ≤ 2 then 1 else 0)
  return (y, m, d)

/-- A number with a sign where it is negative, with zeros up to a width. -/
def padded (width : Nat) (n : Int) : List Char :=
  if n < 0 then '-' :: (decimal n.natAbs).leftpad (width - 1) '0'
  else (decimal n.toNat).leftpad width '0'

def utc (t : UInt64) : Option (List Char) := do
  let (y, m, d) ← civil t
  let secs := t % 86400
  return padded 4 y ++ ['-'] ++ padded 2 m ++ ['-'] ++ padded 2 d ++ [' '] ++
    padded 2 (secs / 3600).toNat ++ [':'] ++ padded 2 (secs / 60 % 60).toNat ++ [':'] ++
    padded 2 (secs % 60).toNat ++ " UTC".toList

/-! ### Years from March -/

/-- The days from the first of March of year 0 to that of year `y`. -/
def marchStart (y : Nat) : Nat := 365 * y + y / 4 - y / 100 + y / 400

theorem marchStart_succ (y : Nat) : marchStart (y + 1) = marchStart y + daysInYear (y + 1) := by
  have hle : y / 100 ≤ y / 4 := Nat.div_le_div_left (by decide) (by decide)
  simp only [marchStart, daysInYear, isLeap, Nat.succ_div, Nat.dvd_iff_mod_eq_zero,
    Bool.and_eq_true, Bool.or_eq_true, decide_eq_true_eq]
  generalize y / 4 = a, y / 100 = b, y / 400 = c at *
  split_ifs <;> omega

theorem daysInYear_le (y : Nat) : daysInYear y ≤ 366 := by
  rw [daysInYear]
  split_ifs <;> omega

theorem sum_daysInYear (k : Nat) :
    ∑ i ∈ range k, daysInYear (1970 + i) + 719162 = marchStart (1969 + k) := by
  induction k with
  | zero => rfl
  | succ k ih =>
    have hsucc := marchStart_succ (1969 + k)
    rw [show 1969 + k + 1 = 1970 + k by omega] at hsucc
    rw [sum_range_succ, show 1969 + (k + 1) = 1970 + k by omega, hsucc, ← ih]
    omega

theorem marchStart_era (era y : Nat) :
    marchStart (400 * era + y) = 146097 * era + marchStart y := by
  simp only [marchStart]
  omega

def yearOfEra (doe : Nat) : Nat := (doe - doe / 1460 + doe / 36524 - doe / 146096) / 365

theorem yearOfEra_mono {a b : Nat} (h : a ≤ b) : yearOfEra a ≤ yearOfEra b := by
  induction b, h using Nat.le_induction with
  | base => exact le_rfl
  | succ b _ ih => exact ih.trans (Nat.div_le_div_right (by omega))

theorem yearOfEra_marchStart :
    ∀ y < 400, y ≤ yearOfEra (marchStart y) ∧ yearOfEra (marchStart (y + 1) - 1) ≤ y := by
  decide +kernel

theorem exists_yearOfEra {doe : Nat} (h : doe < 146097) :
    ∃ doy, doe = marchStart (yearOfEra doe) + doy ∧ doy < daysInYear (yearOfEra doe + 1) ∧
      yearOfEra doe < 400 := by
  have hyears : ∀ n, doe < marchStart n →
      ∃ y < n, marchStart y ≤ doe ∧ doe < marchStart (y + 1) := by
    intro n hn
    induction n with
    | zero => exact absurd hn (Nat.not_lt_zero _)
    | succ n ih =>
      by_cases hlt : doe < marchStart n
      · obtain ⟨y, hy, hbetween⟩ := ih hlt
        exact ⟨y, hy.trans (Nat.lt_succ_self n), hbetween⟩
      · exact ⟨n, Nat.lt_succ_self n, not_lt.1 hlt, hn⟩
  obtain ⟨y, hy, hlo, hhi⟩ := hyears 400 h
  obtain ⟨hfirst, hlast⟩ := yearOfEra_marchStart y hy
  have hyear : yearOfEra doe = y := le_antisymm
    ((yearOfEra_mono (Nat.le_sub_one_of_lt hhi)).trans hlast) (hfirst.trans (yearOfEra_mono hlo))
  rw [marchStart_succ] at hhi
  rw [hyear]
  exact ⟨doe - marchStart y, by omega, by omega, hy⟩

/-! ### Months from March -/

def monthOf (mp : Nat) : Nat := if mp < 10 then mp + 3 else mp - 9

theorem sum_daysInMonth_monthOf (y : Nat) {mp : Nat} (h : mp < 12) :
    ∑ i ∈ range (monthOf mp - 1), daysInMonth y (i + 1) + 306 =
      (153 * mp + 2) / 5 + if mp < 10 then daysInYear y else 0 := by
  interval_cases mp
  all_goals
    simp [monthOf, sum_range_succ, daysInMonth, daysInYear]
    try split_ifs <;> rfl

theorem le_daysInMonth_monthOf {y doy mp : Nat} (hmp : mp = (5 * doy + 2) / 153)
    (hdoy : doy < daysInYear (y + 1)) : mp < 12 ∧ (153 * mp + 2) / 5 ≤ doy ∧
      doy - (153 * mp + 2) / 5 < daysInMonth (y + if mp < 10 then 0 else 1) (monthOf mp) := by
  have hlt : mp < 12 := by
    have hle := daysInYear_le (y + 1)
    omega
  refine ⟨hlt, by omega, ?_⟩
  rw [daysInYear] at hdoy
  interval_cases mp
  all_goals
    simp only [monthOf, daysInMonth, Nat.reduceLT, if_true, if_false, Nat.reduceAdd, Nat.reduceSub]
    split_ifs at * <;> omega

theorem exists_date {y doy mp : Nat} (hmp : mp = (5 * doy + 2) / 153)
    (hdoy : doy < daysInYear (y + 1)) (hle : 719468 ≤ marchStart y + doy) :
    ∃ x : Date, x.year = y + (if mp < 10 then 0 else 1) ∧ x.month = monthOf mp ∧
      x.day = doy - (153 * mp + 2) / 5 + 1 ∧ x.dayNumber + 719468 = marchStart y + doy := by
  obtain ⟨hlt, hstart, hday⟩ := le_daysInMonth_monthOf hmp hdoy
  have hmono : Monotone marchStart :=
    monotone_nat_of_le_succ fun y => marchStart_succ y ▸ Nat.le_add_right _ _
  have hyear : 1970 ≤ y + if mp < 10 then 0 else 1 := by
    by_contra hbefore
    have h1969 : marchStart 1969 = 719162 := rfl
    have hsucc := marchStart_succ y
    rcases (show y ≤ 1969 by split_ifs at hbefore <;> omega).lt_or_eq with hearlier | rfl
    · have hlater : marchStart (y + 1) ≤ marchStart 1969 := hmono hearlier
      omega
    · split_ifs at hbefore <;> omega
  have hmonth : 1 ≤ monthOf mp ∧ monthOf mp ≤ 12 := by
    rw [monthOf]
    split_ifs <;> omega
  refine ⟨⟨_, monthOf mp, doy - (153 * mp + 2) / 5 + 1, hyear, hmonth, Nat.le_add_left _ _, hday⟩,
    rfl, rfl, rfl, ?_⟩
  have hyears := sum_daysInYear (y + (if mp < 10 then 0 else 1) - 1970)
  have hmonths := sum_daysInMonth_monthOf (y + if mp < 10 then 0 else 1) hlt
  simp only [Date.dayNumber, Date.dayOfYear, Nat.add_sub_cancel]
  split_ifs at hyear hyears hmonths ⊢
  · simp only [Nat.add_zero] at hyears hmonths ⊢
    have hsucc := marchStart_succ (1969 + (y - 1970))
    rw [show 1969 + (y - 1970) + 1 = y by omega] at hsucc
    omega
  · rw [show 1969 + (y + 1 - 1970) = y by omega] at hyears
    omega

/-! ### The printed time -/

theorem i64?_eq_some {v : Int} (hlo : -0x8000000000000000 ≤ v) (hhi : v < 0x8000000000000000) :
    i64? v = some v :=
  if_pos ⟨hlo, hhi⟩

theorem bind_of_eq_some {α β : Type} {x : Option α} {a : α} {f : α → Option β}
    (h : x = some a) : (x >>= f) = f a := by
  rw [h]
  rfl

theorem bind_i64? {α : Type} {v : Int} {f : Int → Option α} (hlo : -0x8000000000000000 ≤ v)
    (hhi : v < 0x8000000000000000) : (i64? v >>= f) = f v :=
  bind_of_eq_some (i64?_eq_some hlo hhi)

theorem yoe?_eq {doe : Nat} (h : doe < 146097) : yoe? doe = some ↑(yearOfEra doe) := by
  simp (disch := omega) only [yoe?, bind_i64?, Int.tdiv_eq_ediv_of_nonneg]
  refine congrArg some ?_
  rw [yearOfEra]
  omega

theorem doy?_eq {yoe doy : Nat} (hyoe : yoe < 400) (hdoy : doy < 366) :
    doy? ↑(marchStart yoe + doy) yoe = some ↑doy := by
  simp (disch := omega) only [doy?, marchStart, bind_i64?, Int.tdiv_eq_ediv_of_nonneg]
  rw [i64?_eq_some (by omega) (by omega)]
  refine congrArg some ?_
  omega

theorem mp?_eq {doy : Nat} (h : doy < 366) : mp? doy = some ↑((5 * doy + 2) / 153) := by
  simp (disch := omega) only [mp?, bind_i64?, Int.tdiv_eq_ediv_of_nonneg]
  refine congrArg some ?_
  omega

theorem d?_eq {doy mp : Nat} (hdoy : doy < 366) (hmp : (153 * mp + 2) / 5 ≤ doy) :
    d? doy mp = some ↑(doy - (153 * mp + 2) / 5 + 1) := by
  simp (disch := omega) only [d?, bind_i64?, Int.tdiv_eq_ediv_of_nonneg]
  rw [i64?_eq_some (by omega) (by omega)]
  refine congrArg some ?_
  omega

theorem exists_civil (t : UInt64) : ∃ x : Date,
    civil t = some (↑x.year, ↑x.month, ↑x.day) ∧ x.dayNumber = t.toNat / 86400 := by
  have ht := t.toNat_lt
  have hdays : (t / 86400).toInt64.toInt = (t.toNat / 86400 : Nat) :=
    BitVec.toInt_eq_toNat_of_lt (show 2 * (t.toNat / 86400) < 2 ^ 64 by omega)
  have hn : t.toNat / 86400 < 2 ^ 48 := by omega
  generalize t.toNat / 86400 = n at *
  have hz := Nat.div_add_mod (n + 719468) 146097
  have hlt := Nat.mod_lt (n + 719468) (show 0 < 146097 by decide)
  have hera : ((n : Int) + 719468) / 146097 = ↑((n + 719468) / 146097) := rfl
  have hdoe : ((n : Int) + 719468) % 146097 = ↑((n + 719468) % 146097) := rfl
  rw [civil, hdays, bind_i64? (by omega) (by omega)]
  simp only [hera, hdoe]
  generalize (n + 719468) / 146097 = era, (n + 719468) % 146097 = doe at *
  obtain ⟨doy, hdoe, hdoy, hyoe⟩ := exists_yearOfEra hlt
  rw [bind_of_eq_some (yoe?_eq hlt)]
  generalize yearOfEra doe = yoe at *
  subst hdoe
  -- the year of the era has the days of the year itself
  have hera := marchStart_era era yoe
  have hsucc := marchStart_era era (yoe + 1)
  rw [← Nat.add_assoc, marchStart_succ, marchStart_succ, hera] at hsucc
  have hdoy' : doy < daysInYear (400 * era + yoe + 1) := by omega
  have hle : doy < 366 := hdoy.trans_le (daysInYear_le _)
  obtain ⟨x, hyear, hmonth, hday, hnumber⟩ := exists_date rfl hdoy' (by omega)
  obtain ⟨hmp, hstart, -⟩ := le_daysInMonth_monthOf rfl hdoy'
  rw [bind_of_eq_some (doy?_eq hyoe hle), bind_of_eq_some (mp?_eq hle),
    bind_of_eq_some (d?_eq hle hstart)]
  generalize (5 * doy + 2) / 153 = mp at *
  have hm : (if (mp : Int) < 10 then (mp : Int) + 3 else mp - 9) = x.month := by
    rw [hmonth, monthOf]
    split_ifs <;> omega
  have hy : (yoe : Int) + era * 400 + (if (x.month : Int) ≤ 2 then 1 else 0) = x.year := by
    rw [hyear, hmonth, monthOf]
    split_ifs <;> omega
  have hmonths := x.month_mem
  refine ⟨x, ?_, by omega⟩
  rw [hm, bind_i64? (by omega) (by omega), bind_i64? (by omega) (by omega),
    bind_i64? (by omega) (by omega), hy, bind_i64? (by omega) (by omega), hday]
  rfl

theorem padded_natCast (width n : Nat) : padded width n = (decimal n).leftpad width '0' :=
  if_neg (Int.natCast_nonneg n).not_gt

/-- Every time is printed as the date of its day and the hours, minutes and seconds that are
left of it, and a later day as a later date. -/
theorem utc_exact (t : UInt64) :
    ∃ x : Date, x.dayNumber = t.toNat / 86400 ∧ civil t = some (↑x.year, ↑x.month, ↑x.day) ∧
      (∃ h m s : Nat, h < 24 ∧ m < 60 ∧ s < 60 ∧ t.toNat % 86400 = 3600 * h + 60 * m + s ∧
        utc t = some ((decimal x.year).leftpad 4 '0' ++ ['-'] ++
          (decimal x.month).leftpad 2 '0' ++ ['-'] ++ (decimal x.day).leftpad 2 '0' ++ [' '] ++
          (decimal h).leftpad 2 '0' ++ [':'] ++ (decimal m).leftpad 2 '0' ++ [':'] ++
          (decimal s).leftpad 2 '0' ++ " UTC".toList)) ∧
      ∀ t' : UInt64, t.toNat / 86400 < t'.toNat / 86400 →
        ∃ x' : Date, civil t' = some (↑x'.year, ↑x'.month, ↑x'.day) ∧ x.Before x' := by
  obtain ⟨x, hcivil, hnumber⟩ := exists_civil t
  refine ⟨x, hnumber, hcivil, ⟨t.toNat % 86400 / 3600, t.toNat % 86400 / 60 % 60,
    t.toNat % 86400 % 60, by omega, by omega, by omega, by omega, ?_⟩, fun t' hlt => ?_⟩
  · rw [utc, bind_of_eq_some hcivil]
    simp only [padded_natCast, UInt64.toNat_div, UInt64.toNat_mod]
    rfl
  · obtain ⟨x', hcivil', hnumber'⟩ := exists_civil t'
    exact ⟨x', hcivil', Date.before_iff.2 (by omega)⟩

theorem utc_exact_leap : ∃ x x' : Date, civil 951782400 = some (↑x.year, ↑x.month, ↑x.day) ∧
    civil 951868800 = some (↑x'.year, ↑x'.month, ↑x'.day) ∧ x.Before x' := by
  obtain ⟨x, -, hcivil, -, hlater⟩ := utc_exact 951782400
  obtain ⟨x', hcivil', hbefore⟩ := hlater 951868800 (by decide)
  exact ⟨x, x', hcivil, hcivil', hbefore⟩

end Calybris.Trust
