import Mathlib.Algebra.Ring.Int.Defs

/-! The Gregorian calendar, before and after every epoch. Days are counted from 1 March of
the year 0, and years from March on, so that a leap day is the last of its year. -/
namespace WebSearch.Library.Gregorian

structure Date where
  year : Int
  month : Int
  day : Int
  deriving DecidableEq

def yearStart (year : Int) : Int := 365 * year + year / 4 - year / 100 + year / 400

/-- The quotient is the year or the one before it. -/
def yearOf (n : Int) : Int := if yearStart (400 * n / 146097 + 1) ≤ n then 400 * n / 146097 + 1 else 400 * n / 146097

/-- Five months from March on have 153 days. -/
def monthStart (month : Int) : Int := (153 * month + 2) / 5

def monthOf (dayOfYear : Int) : Int := (5 * dayOfYear + 2) / 153

def dateOf (n : Int) : Date :=
  let dayOfYear := n - yearStart (yearOf n)
  let month := monthOf dayOfYear
  let day := dayOfYear - monthStart month + 1
  if month < 10 then ⟨yearOf n,month + 3,day⟩ else ⟨yearOf n + 1,month - 9,day⟩

def dayOf (date : Date) : Int :=
  (if 3 ≤ date.month then yearStart date.year + monthStart (date.month - 3)
    else yearStart (date.year - 1) + monthStart (date.month + 9)) + (date.day - 1)

theorem yearStart_succ (year : Int) : yearStart year + 365 ≤ yearStart (year + 1) ∧ yearStart (year + 1) ≤ yearStart year + 366 := by
  unfold yearStart
  omega

theorem yearStart_mono {year other : Int} (before : year ≤ other) : yearStart year ≤ yearStart other := by
  unfold yearStart
  omega

theorem yearOf_bounds (n : Int) : yearStart (yearOf n) ≤ n ∧ n < yearStart (yearOf n + 1) := by
  unfold yearOf
  generalize quotient : 400 * n / 146097 = k
  split
  next later =>
    refine ⟨later,?_⟩
    unfold yearStart
    omega
  next earlier =>
    refine ⟨?_,Int.not_le.mp earlier⟩
    unfold yearStart
    omega

theorem dayOfYear_bounds (n : Int) : 0 ≤ n - yearStart (yearOf n) ∧ n - yearStart (yearOf n) ≤ 365 := by
  have bounds := yearOf_bounds n
  have length := (yearStart_succ (yearOf n)).2
  omega

theorem monthOf_bounds {dayOfYear : Int} (first : 0 ≤ dayOfYear) (last : dayOfYear ≤ 365) :
    0 ≤ monthOf dayOfYear ∧ monthOf dayOfYear ≤ 11 ∧ 0 ≤ dayOfYear - monthStart (monthOf dayOfYear) ∧
      dayOfYear - monthStart (monthOf dayOfYear) ≤ 30 := by
  unfold monthOf monthStart
  omega

theorem dateOf_bounds (n : Int) : 1 ≤ (dateOf n).month ∧ (dateOf n).month ≤ 12 ∧ 1 ≤ (dateOf n).day ∧ (dateOf n).day ≤ 31 := by
  obtain ⟨first,last⟩ := dayOfYear_bounds n
  obtain ⟨low,high,early,late⟩ := monthOf_bounds first last
  unfold dateOf
  dsimp only
  split <;> refine ⟨?_,?_,?_,?_⟩ <;> dsimp only <;> omega

theorem dayOf_dateOf (n : Int) : dayOf (dateOf n) = n := by
  obtain ⟨first,last⟩ := dayOfYear_bounds n
  obtain ⟨low,high,-⟩ := monthOf_bounds first last
  rw [dateOf]
  split
  · have spring : 3 ≤ monthOf (n - yearStart (yearOf n)) + 3 := by omega
    rw [dayOf,if_pos spring,Int.add_sub_cancel]
    dsimp only
    omega
  · have winter : ¬3 ≤ monthOf (n - yearStart (yearOf n)) - 9 := by omega
    rw [dayOf,if_neg winter,Int.add_sub_cancel,Int.sub_add_cancel]
    dsimp only
    omega

theorem dayOf_first (year : Int) : dayOf ⟨year,1,1⟩ = yearStart (year - 1) + 306 := by
  have winter : ¬(3 : Int) ≤ 1 := by decide
  rw [dayOf,if_neg winter,monthStart]
  dsimp only
  omega

theorem monthOf_lt_iff {dayOfYear : Int} : monthOf dayOfYear < 10 ↔ dayOfYear < 306 := by
  unfold monthOf
  omega

/-- What comes before the first day of a year is in an earlier one. -/
theorem year_lt_iff {n year : Int} : (dateOf n).year < year ↔ n < dayOf ⟨year,1,1⟩ := by
  obtain ⟨begun,ends⟩ := yearOf_bounds n
  have month := @monthOf_lt_iff (n - yearStart (yearOf n))
  rw [dayOf_first]
  unfold dateOf
  dsimp only
  rcases Int.lt_trichotomy (yearOf n) (year - 1) with early | same | late
  · have bound := yearStart_mono (show yearOf n + 1 ≤ year - 1 by omega)
    refine iff_of_true ?_ (by omega)
    split <;> dsimp only <;> omega
  · rw [same] at month begun ends ⊢
    split <;> dsimp only <;> omega
  · have bound := yearStart_mono (show year ≤ yearOf n by omega)
    have length := (yearStart_succ (year - 1)).1
    rw [Int.sub_add_cancel] at length
    refine iff_of_false ?_ (by omega)
    split <;> dsimp only <;> omega

/-- A leap day and the days around it. -/
example : [730484,730485,730486].map dateOf = [⟨2000,2,29⟩,⟨2000,3,1⟩,⟨2000,3,2⟩] := by decide

end WebSearch.Library.Gregorian
