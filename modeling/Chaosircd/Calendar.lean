import Mathlib.Algebra.BigOperators.Intervals
import Mathlib.Algebra.Order.BigOperators.Group.Finset
import Mathlib.Tactic.Common

/-!
# The Gregorian calendar

Days are counted from the first day of a year.  A year has 366 days when four divides it,
unless a hundred does and four hundred does not.  Every day has one date: the years before
it, and the months before it in its year, add up to no more than its number.
-/

namespace Chaosircd

namespace Calendar

/-! ## Years and months -/

/-- A year with a day more. -/
def IsLeap (year : Nat) : Prop :=
  4 ∣ year ∧ (¬ 100 ∣ year ∨ 400 ∣ year)

instance (year : Nat) : Decidable (IsLeap year) :=
  inferInstanceAs (Decidable (_ ∧ _))

/-- The days of a year. -/
def yearLength (year : Nat) : Nat :=
  if IsLeap year then 366 else 365

/-- The days of a month, the first month being 1. -/
def monthLength (leap : Bool) : Nat → Nat
  | 2 => if leap then 29 else 28
  | 4 | 6 | 9 | 11 => 30
  | _ => 31

/-- The days of the years from one to before another. -/
def yearStart (epoch year : Nat) : Nat :=
  ∑ y ∈ Finset.Ico epoch year, yearLength y

/-- The days of a year that are before a month. -/
def monthStart (leap : Bool) (month : Nat) : Nat :=
  ∑ m ∈ Finset.Ico 1 month, monthLength leap m

/-- A year, a month and a day, both counted from 1. -/
structure Date where
  year : Nat
  month : Nat
  day : Nat
  deriving DecidableEq

/-- The months and the days of the date exist. -/
structure Date.Valid (date : Date) : Prop where
  month_pos : 1 ≤ date.month
  month_le : date.month ≤ 12
  day_pos : 1 ≤ date.day
  day_le : date.day ≤ monthLength (decide (IsLeap date.year)) date.month

/-- The days of the year before the date. -/
def Date.yday (date : Date) : Nat :=
  monthStart (decide (IsLeap date.year)) date.month + (date.day - 1)

/-- The days from the epoch, the first day of a year, to the date. -/
def Date.number (epoch : Nat) (date : Date) : Nat :=
  yearStart epoch date.year + date.yday

/-- The date of a day, counted from the epoch. -/
structure IsDate (epoch day : Nat) (date : Date) : Prop where
  valid : date.Valid
  since : epoch ≤ date.year
  number : date.number epoch = day

/-! ## One date for a day -/

variable {epoch day year month : Nat} {leap : Bool} {date other : Date}

theorem yearLength_pos (year : Nat) : 365 ≤ yearLength year := by
  rw [yearLength]
  split
  · omega
  · omega

theorem yearLength_eq (year : Nat) :
    yearLength year = if decide (IsLeap year) then 366 else 365 := by
  simp [yearLength]

@[simp]
theorem yearStart_self (epoch : Nat) : yearStart epoch epoch = 0 := by
  simp [yearStart]

theorem yearStart_succ (since : epoch ≤ year) :
    yearStart epoch (year + 1) = yearStart epoch year + yearLength year :=
  Finset.sum_Ico_succ_top since _

theorem monthStart_succ (from_first : 1 ≤ month) :
    monthStart leap (month + 1) = monthStart leap month + monthLength leap month :=
  Finset.sum_Ico_succ_top from_first _

theorem yearStart_mono {later : Nat} (order : year ≤ later) :
    yearStart epoch year ≤ yearStart epoch later :=
  Finset.sum_le_sum_of_subset (Finset.Ico_subset_Ico_right order)

theorem monthStart_mono {later : Nat} (order : month ≤ later) :
    monthStart leap month ≤ monthStart leap later :=
  Finset.sum_le_sum_of_subset (Finset.Ico_subset_Ico_right order)

theorem monthStart_all (leap : Bool) :
    monthStart leap 13 = if leap then 366 else 365 := by
  cases leap
  · decide
  · decide

theorem Date.Valid.yday_lt_next (valid : date.Valid) :
    date.yday < monthStart (decide (IsLeap date.year)) (date.month + 1) := by
  have first := valid.day_pos
  have last := valid.day_le
  rw [Date.yday, monthStart_succ valid.month_pos]
  omega

theorem Date.Valid.yday_lt (valid : date.Valid) : date.yday < yearLength date.year := by
  have bound := @monthStart_mono _ (decide (IsLeap date.year)) _
    (Nat.succ_le_succ valid.month_le)
  rw [monthStart_all, ← yearLength_eq] at bound
  exact Nat.lt_of_lt_of_le valid.yday_lt_next bound

/-- Dates of one year and one day of the year are the same. -/
theorem Date.eq_of_yday (valid : date.Valid) (valid' : other.Valid)
    (sameYear : date.year = other.year) (same : date.yday = other.yday) : date = other := by
  have months : ∀ {first second : Date}, first.Valid → second.Valid →
      first.year = second.year → first.yday = second.yday → ¬ first.month < second.month := by
    intro first second valid valid' sameYear same before
    have next := valid.yday_lt_next
    have later : first.month + 1 ≤ second.month := before
    have bound := @monthStart_mono _ (decide (IsLeap first.year)) _ later
    have least : monthStart (decide (IsLeap second.year)) second.month ≤ second.yday :=
      Nat.le_add_right _ _
    rw [← sameYear] at least
    omega
  have sameMonth : date.month = other.month := by
    have before := months valid valid' sameYear same
    have after := months valid' valid sameYear.symm same.symm
    omega
  have first := valid.day_pos
  have first' := valid'.day_pos
  rw [Date.yday, Date.yday, sameYear, sameMonth] at same
  obtain ⟨year, month, day⟩ := date
  obtain ⟨year', month', day'⟩ := other
  rw [Date.mk.injEq]
  dsimp only at sameYear sameMonth first first' same
  exact ⟨sameYear, sameMonth, by omega⟩

/-- A day has no two dates. -/
theorem IsDate.unique (isDate : IsDate epoch day date) (isDate' : IsDate epoch day other) :
    date = other := by
  have years : ∀ {first second : Date}, IsDate epoch day first → IsDate epoch day second →
      ¬ first.year < second.year := by
    intro first second isDate isDate' before
    have inYear := isDate.valid.yday_lt
    have next := yearStart_succ isDate.since
    have later : first.year + 1 ≤ second.year := before
    have bound := @yearStart_mono epoch _ _ later
    have number := isDate.number
    have number' := isDate'.number
    rw [Date.number] at number number'
    omega
  have sameYear : date.year = other.year := by
    have before := years isDate isDate'
    have after := years isDate' isDate
    omega
  apply Date.eq_of_yday isDate.valid isDate'.valid sameYear
  have number := isDate.number
  have number' := isDate'.number
  rw [Date.number] at number number'
  rw [sameYear] at number
  omega

/-! ## Weekdays -/

/-- The weekday of a day, Sunday being 0, when that of day 0 is known. -/
def weekday (first day : Nat) : Nat :=
  (first + day) % 7

end Calendar

end Chaosircd
